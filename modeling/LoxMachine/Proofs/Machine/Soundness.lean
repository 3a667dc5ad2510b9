import LoxMachine.Proofs.Compile.Verified
import LoxMachine.Proofs.Machine.Listing
import LoxMachine.Session

/-!
# Compiled programs do not go wrong

* `execute_meets`: a step from a stable state comes to a stable state, to an idle one when the
  outermost call has ended, or fails with an error of the user in a safe state.
* `run_fine`: so does a number of steps.
* `compile_idle`: an idle machine rejects a source, or starts its execution in a stable state.
* `interpret_fresh`: a source that is interpreted by a fresh machine is never aborted with an error
  that malformed code would have.
-/

namespace LoxMachine

variable {live : Handle → Prop} {k : Call} {outer : List Call} {below : Shape} {m : Machine}

/-! ## Steps -/

/-- What a step comes to. -/
def Machine.Advanced (done : Bool) (m : Machine) : Prop :=
  if done then ∃ live, m.Idle live else m.Stable

namespace Run

/-- Operations without jumps. -/
theorem perform_plain_meets {op : Opcode} {args : List UInt8} {n : Nat}
    (h : m.Busy live (k.skip 1) outer (k.shape ++ below) (k.shape ++ below).length)
    (hlaid : k.Laid) (hbase : k.frame.base = below.length) (hnest : Nest outer below)
    (hb : (k.skip 1).Reads args) (hoperand : k.pool.Operand op k.shape args n)
    (henough : op.needs n ≤ k.shape.length)
    (hclear : op ≠ .closeUpvalue → ∀ b ∈ k.shape.take (op.pops n), b = false)
    (hnext : k.layout.Leads (k.frame.ip + 1 + args.length) (op.effect n k.shape)) :
    Meets (perform op) m Machine.Advanced := by
  have hpops := (op.pops_le_needs n).trans henough
  have hsplit := List.take_append_drop (op.pops n) k.shape
  by_cases hclose : op = .closeUpvalue
  · subst hclose
    rcases operand_cases hoperand with ⟨-, rfl, -, rfl⟩ | ⟨hop, -⟩ | ⟨hop, -⟩ | ⟨hop, -⟩
    · obtain ⟨b, s, hs⟩ := List.exists_cons_of_length_pos (Nat.lt_of_lt_of_le Nat.one_pos henough)
      rw [hs, List.cons_append, List.length_cons] at h
      refine (continues (closeTop_meets h rfl)).mono fun done m' hm' => ?_
      obtain ⟨rfl, hm'⟩ := hm'
      refine Machine.ready_of_done hm' hlaid hbase hnest hnext ?_ fun i hi => ?_
      · rw [hs]
        rfl
      · rw [hs]
        exact hi
    · cases hop
    · cases hop
    · cases hop
  · have hlength : (k.shape.drop (op.pops n) ++ below).length + op.pops n =
        (k.shape ++ below).length := by
      rw [List.length_append, List.length_append, List.length_drop]
      omega
    have hbusy : m.Busy live (k.skip 1) outer (k.shape.drop (op.pops n) ++ below)
        ((k.shape.drop (op.pops n) ++ below).length + op.pops n) := by
      rw [hlength]
      refine h.marks_mono fun i hi => ?_
      rw [← hsplit, List.append_assoc] at hi
      exact slot?_of_clear (hclear hclose) hi
    have hslots : (k.skip 1).frame.base + k.shape.length ≤
        (k.shape.drop (op.pops n) ++ below).length + op.pops n := by
      rw [hlength, Call.skip_base, hbase, List.length_append]
      omega
    refine (perform_plain hclose hbusy le_rfl hb hoperand
      (by rw [hlength, List.length_append]; omega) hslots).mono fun done m' hm' => ?_
    obtain ⟨rfl, hm'⟩ := hm'
    rw [Call.skip_skip] at hm'
    have hnext' : k.layout.Leads (k.skip (1 + args.length)).frame.ip (op.effect n k.shape) := by
      rw [Call.skip_ip, ← Nat.add_assoc]
      exact hnext
    rcases hm' with hm' | ⟨hcalls, hm'⟩
    · refine Machine.ready_of_done hm' hlaid hbase hnest hnext' ?_ fun i hi => ?_
      · simp only [Opcode.effect, List.length_append, List.length_replicate]
        omega
      · rw [Opcode.effect, List.append_assoc, Shape.slot?_append _ _ i (Shape.lt_length_of_slot? hi)]
        exact hi
    · refine Machine.ready_of_called (k := k.skip (1 + args.length)) hbase hm' hlaid hnest ?_
      rw [Opcode.effect, Opcode.pushes_of_calls hcalls] at hnext'
      exact hnext'

/-- The slots that a closure captures, and perhaps its own, are marked before it is made. -/
theorem busy_marked {s' : Shape}
    (h : m.Busy live (k.skip 1) outer (k.shape ++ below) (k.shape ++ below).length)
    (hshape : Shape.Le (false :: k.shape) s') :
    m.Busy live (k.skip 1) outer (s' ++ below) (k.shape ++ below).length := by
  refine h.marks_mono fun j hj => (hshape.append (t := below)).slot? ?_
  rw [List.cons_append, ← List.singleton_append,
    Shape.slot?_append _ _ j (Shape.lt_length_of_slot? hj)]
  exact hj

theorem offers_captured {s' : Shape} {captures : List Capture}
    (hbase : k.frame.base = below.length) (hcaptured : ∀ c ∈ captures, c.Exists k.pool s') :
    ∀ c ∈ captures, Offers (k.skip 1) (s' ++ below) c := by
  intro c hc
  have hex := hcaptured c hc
  unfold Capture.Exists at hex
  unfold Offers
  split at hex
  · rename_i hl
    rw [if_pos hl, Call.skip_base, hbase, Shape.slot?_append_right]
    exact hex
  · rename_i hl
    rw [if_neg hl]
    exact hex

/-- **One instruction.** Its opcode has been read. -/
theorem perform_meets (live : Handle → Prop) {bytes : List UInt8}
    (hgoes : Goes k.pool k.layout k.frame.ip k.shape bytes) (hb : k.Reads bytes)
    (hlaid : k.Laid) (hbase : k.frame.base = below.length) (hnest : Nest outer below) :
    ∃ op args, bytes = op.toByte :: args ∧ ∀ m : Machine,
      m.Busy live (k.skip 1) outer (k.shape ++ below) (k.shape ++ below).length →
        Meets (perform op) m Machine.Advanced := by
  cases hgoes with
  | @plain op args n operand enough clear next =>
    exact ⟨op, args, rfl, fun m h =>
      perform_plain_meets h hlaid hbase hnest hb.tail operand enough clear next⟩
  | ret clear =>
    refine ⟨.ret, [], rfl, fun m h => ?_⟩
    have hbottom : outer = [] → below = [] := by
      rintro rfl
      cases hnest
      rfl
    refine (ret_meets h clear hbase hbottom).mono fun done m' hm' => ?_
    rcases hm' with ⟨-, rfl, hidle⟩ | ⟨rfl, k', rest, rfl, hdone⟩
    · exact hidle
    · cases hnest with
      | @cons _ _ below laid leads base rest =>
        exact Machine.ready_of_done hdone laid base rest leads (by simp) fun i hi => by
          rw [List.cons_append, ← List.singleton_append,
            Shape.slot?_append _ _ i (Shape.lt_length_of_slot? hi)]
          exact hi
  | @jump high low target =>
    refine ⟨.jump, [high, low], rfl, fun m h => ?_⟩
    refine (continues (jump_meets h hb.tail)).mono fun done m' hm' => ?_
    obtain ⟨rfl, hm'⟩ := hm'
    rw [Call.skip_skip] at hm'
    refine Machine.ready_of_done hm' hlaid hbase hnest ?_ rfl fun i hi => hi
    have hip : k.frame.ip + (1 + (2 + distance high low)) = k.frame.ip + 3 + distance high low := by
      omega
    rw [Call.skip_ip, hip]
    exact target
  | @jumpIfFalse high low enough next target =>
    refine ⟨.jumpIfFalse, [high, low], rfl, fun m h => ?_⟩
    refine (continues (jumpIfFalse_meets h (by simp; omega) hb.tail)).mono fun done m' hm' => ?_
    obtain ⟨rfl, hm'⟩ := hm'
    rcases hm' with hm' | hm'
    · rw [Call.skip_skip] at hm'
      exact Machine.ready_of_done hm' hlaid hbase hnest next rfl fun i hi => hi
    · rw [Call.skip_skip] at hm'
      refine Machine.ready_of_done hm' hlaid hbase hnest ?_ rfl fun i hi => hi
      have hip : k.frame.ip + (1 + (2 + distance high low)) =
          k.frame.ip + 3 + distance high low := by omega
      rw [Call.skip_ip, hip]
      exact target
  | @loop high low t back target =>
    refine ⟨.loop, [high, low], rfl, fun m h => ?_⟩
    have hback : t + distance high low = (k.skip 1).frame.ip + 2 := by
      rw [Call.skip_ip]
      omega
    refine (continues (jumpBack_meets h hb.tail hback)).mono fun done m' hm' => ?_
    obtain ⟨rfl, hm'⟩ := hm'
    rw [Call.skip_goto] at hm'
    exact Machine.ready_of_done hm' hlaid hbase hnest target rfl fun i hi => hi
  | @closure i captures s' constant shape captured next =>
    refine ⟨.closure, i :: captures.flatMap Capture.bytes, rfl, fun m h => ?_⟩
    refine (continues (makeClosure_meets (busy_marked h shape) hb.tail constant
      (offers_captured hbase captured))).mono fun done m' hm' => ?_
    obtain ⟨rfl, hm'⟩ := hm'
    rw [Call.skip_skip] at hm'
    refine Machine.ready_of_done hm' hlaid hbase hnest ?_ ?_ fun j hj => hj
    · have hip : k.frame.ip + (1 + (1 + (captures.flatMap Capture.bytes).length)) =
          k.frame.ip + 2 + (captures.flatMap Capture.bytes).length := by omega
      rw [Call.skip_ip, hip]
      exact next
    · rw [List.length_append, List.length_append, ← shape.length_eq, List.length_cons]
      omega

/-- **One step.** -/
theorem execute_meets (h : m.Stable) : Meets execute m Machine.Advanced := by
  obtain ⟨live, k, outer, below, h⟩ := h
  obtain ⟨bytes, hb, hgoes⟩ := h.fits
  obtain ⟨op, args, rfl, hperform⟩ := perform_meets live hgoes hb h.laid h.base h.nest
  have hrest : ∀ m : Machine, m.Busy live k outer (k.shape ++ below) (k.shape ++ below).length →
      Meets (do perform (← readOpcode)) m Machine.Advanced := by
    intro m h
    refine (readOpcode_meets h hb).bind fun op' m' hm' => ?_
    obtain ⟨rfl, hm'⟩ := hm'
    exact hperform m' hm'
  unfold execute
  refine .get (.ite (fun _ => ?_) fun _ => hrest m h.toBusy)
  exact (report_meets h.toBusy).bind fun _ m' hm' => hrest m' hm'

end Run

/-! ## Runs -/

namespace Machine

/-- What a number of steps comes to. -/
def Outcome.Fine : Outcome → Prop
  | .finished m => ∃ live, m.Idle live
  | .failed why m => why.Allowed m
  | .running m => m.Stable

/-- **A number of steps from a stable state.** -/
theorem run_fine (fuel : Nat) {m : Machine} (h : m.Stable) : (m.run fuel).Fine := by
  induction fuel generalizing m with
  | zero => exact h
  | succ fuel ih =>
    have hstep := Run.execute_meets h
    unfold Run.Meets Run.Ends at hstep
    unfold run step
    cases hrun : Run.execute m with
    | ok done m' =>
      rw [hrun] at hstep
      cases done with
      | true => exact hstep
      | false => exact ih hstep
    | error why m' =>
      rw [hrun] at hstep
      exact hstep

/-! ## Aborting -/

/-- The calls can be reported, if their functions are there with their names. -/
theorem trace_ok (h : ∀ f ∈ m.frames, ∃ g bytes, m.heap.cell? f.function = some ⟨.function g, bytes⟩ ∧
    ∀ n, g.name = some n → m.heap.IsString n) : ∃ t, m.trace = .ok t := by
  refine mapM_ok fun f hf => ?_
  obtain ⟨g, bytes, hcell, hname⟩ := h f hf
  rw [Heap.function_eq_ok_iff.2 ⟨bytes, hcell⟩]
  simp only [bind, Except.bind]
  cases hn : g.name with
  | none => exact ⟨_, rfl⟩
  | some name =>
    obtain ⟨s, hs⟩ := Heap.contents_of_isString (hname name hn)
    simp only [hs]
    exact ⟨_, rfl⟩

/-- The calls of a safe state can be reported. -/
theorem Safe.trace_ok (hs : m.Safe live) : ∃ t, m.trace = .ok t := by
  refine Machine.trace_ok fun f hf => ?_
  obtain ⟨hl, c, bytes, hcell, hfunction⟩ := hs.closures f hf
  have hcompiled := (hs.heap.proper hl hcell).1
  rw [hfunction] at hcompiled
  cases hcompiled with
  | @intro _ g bytes' _ hcell' hname => exact ⟨g, bytes', hcell', hname⟩

/-- **A failure that is allowed is reported as an error of the user.** -/
theorem abort_allowed {why : Failure} (h : why.Allowed m) :
    ∃ e trace, e.isUser = true ∧ m.abort why = (.aborted e trace, m.reset) := by
  obtain ⟨⟨e, rfl, he⟩, live, hs⟩ := h
  obtain ⟨trace, htrace⟩ := hs.trace_ok
  exact ⟨e, trace, he, by simp only [abort, htrace]⟩

end Machine

/-! ## Loading -/

namespace Machine

/-- **A source has been compiled**, with errors or without. What can be reached is live. -/
theorem Safe.allots {heap : Heap} (hs : m.Safe live) (ha : m.heap.Allots m.roots heap) :
    { m with heap }.Safe (m.heap.Reachable m.roots) ∧
      heap.Sound (m.heap.Reachable m.roots) m.openUpvalues := by
  obtain ⟨ht, hkeeps⟩ := ha.keeps hs.heap.tidy
  have hsound : heap.Sound (m.heap.Reachable m.roots) m.openUpvalues :=
    hs.heap.shrink ht (fun x hx => hs.reachable hx)
      (fun x cell r hx hc hr => hs.reachable_reference hx hc hr) hkeeps
  exact ⟨Run.safe_matches hs hsound fun x hx => ⟨hx, hkeeps x hx⟩, hsound⟩

/-- More handles may be live. -/
theorem Safe.mono {live' : Handle → Prop} (hs : m.Safe live) (hle : ∀ x, live x → live' x)
    (hsound : m.heap.Sound live' m.openUpvalues) : m.Safe live' :=
  ⟨hsound, fun x hx => hle x (hs.stack x hx),
    fun f hf => ⟨hle _ (hs.closures f hf).1, (hs.closures f hf).2⟩,
    Table.within_iff.2 fun x hx => hle x (Table.within_iff.1 hs.globals x hx),
    ⟨hle _ hs.initName.1, hs.initName.2⟩, fun u hu => ⟨hle u (hs.opened u hu).1, (hs.opened u hu).2⟩,
    hs.sorted⟩

/-- Another stack. -/
theorem Safe.stack_to {stack : Array Value} (hs : m.Safe live)
    (hlive : ∀ h, .obj h ∈ stack → live h) : { m with stack }.Safe live :=
  ⟨hs.heap, hlive, hs.closures, hs.globals, hs.initName, hs.opened, hs.sorted⟩

/-- A value is pushed on a stack that is not full. -/
theorem push_one {v : Value} (hstack : m.stack = #[]) :
    Run.Meets (Run.push v) m fun _ m' => m' = { m with stack := #[v] } := by
  unfold Run.push
  refine .get (.ite (fun hfull => ?_) fun _ => .modify ?_)
  · rw [hstack] at hfull
    exact absurd hfull (by decide)
  · rw [hstack]
    rfl

/-- **The execution of a compiled script starts.** -/
theorem enter_meets {h : Handle} (hi : m.Idle live) (hh : live h) (hcompiled : m.heap.Compiled h)
    {f : Function} {bytes : Nat} (hcell : m.heap.cell? h = some ⟨.function f, bytes⟩)
    (hcount : f.upvalueCount = 0) : Run.Meets (enter h) m fun _ m' => m'.Stable := by
  unfold enter
  refine (push_one hi.stack_eq).bind fun _ m₁ h₁ => ?_
  subst h₁
  have hs₁ : { m with stack := #[.obj h] }.Safe live := hi.toSafe.stack_to fun x hx => by
    rw [Array.mem_singleton] at hx
    cases hx
    exact hh
  have hkind : m.heap.constantKind (.obj h) = .function 0 :=
    Heap.constantKind_eq_function_iff.2 ⟨f, bytes, hcell, hcount⟩
  have hrefs : ∀ r ∈ (Object.closure { function := h }).references, live r := by
    intro r hr
    rw [List.mem_singleton.1 hr]
    exact hh
  have ha := Heap.alloc_allocates hs₁.heap.tidy
    (.mk fun _ => handles #[.obj h] m.frames m.openUpvalues m.globals m.initName)
    (.closure { function := h })
  obtain ⟨live', hj⟩ := hs₁.heap.joins ha (by simp [Object.kind]) hrefs
    ⟨hcompiled, hkind, fun u hu => absurd hu (by simp)⟩
  have hs₂ := Run.safe_matches hs₁ hj.sound
    (Run.matches_joins hs₁ hj fun r hr => List.mem_append_right _ hr)
  -- the closure takes the place of the function
  refine Run.Meets.bind (Q := fun x m₂ => m₂.Safe live' ∧ live' x ∧ m₂.stack = #[.obj h] ∧
    m₂.frames = [] ∧ m₂.openUpvalues = [] ∧ m₂.heap.kind? x = some .closure)
    ⟨hs₂, hj.new, rfl, hi.frames_eq, hi.open_eq, Heap.kind?_of_cell? ha.new⟩ fun x m₂ h₂ => ?_
  obtain ⟨hs₂, hx, hstack₂, hframes₂, hopen₂, hkind₂⟩ := h₂
  refine Run.Meets.bind (Q := fun _ m₃ => m₃ = { m₂ with stack := #[] }) ?_ fun _ m₃ h₃ => ?_
  · unfold Run.pop
    refine .get ?_
    rw [hstack₂]
    exact .bind (Q := fun _ m₃ => m₃ = { m₂ with stack := #[] })
      (.modify (by rw [hstack₂]; rfl)) fun _ _ h₃ => .pure h₃
  subst h₃
  refine (push_one rfl).bind fun _ m₄ h₄ => ?_
  subst h₄
  have hs₄ : { m₂ with stack := #[.obj x] }.Safe live' := hs₂.stack_to fun y hy => by
    rw [Array.mem_singleton] at hy
    cases hy
    exact hx
  have hsize : ({ m₂ with stack := #[.obj x] } : Machine).stack.size = 0 + 1 + 0 := rfl
  refine (Run.call_begins hs₄ hsize hx hkind₂ (by decide)).mono fun _ m₅ h₅ => ?_
  obtain ⟨k, hbegins, hknown, rfl, hsafe⟩ := h₅
  refine ⟨live', k, [], [], ⟨⟨hsafe, ?_, fun c hc => ?_, ?_, ?_⟩, hbegins.laid, ?_, hbegins.base,
    .nil⟩⟩
  · change k.frame :: m₂.frames = _
    rw [hframes₂]
    rfl
  · rw [List.mem_singleton.1 hc]
    exact hknown
  · change 1 = _
    rw [List.append_nil, hbegins.shape]
  · intro u hu
    change u ∈ m₂.openUpvalues at hu
    rw [hopen₂] at hu
    exact absurd hu List.not_mem_nil
  · rw [hbegins.ip]
    exact hbegins.place

section Load

variable {source : String} {heap : Heap}

theorem load_rejected {errors : Array CompileError}
    (h : compile source m.heap (.mk fun _ => m.roots) = (.error errors, heap)) :
    m.load source = (some (.rejected errors), { m with heap }) := by
  obtain ⟨heap₀, stack, frames, globals, openUpvalues, initName, sink, clock, nativeCalls⟩ := m
  unfold roots at h
  dsimp only at h
  unfold load
  dsimp only
  rw [h]

theorem load_started {f : Handle} {m' : Machine}
    (h : compile source m.heap (.mk fun _ => m.roots) = (.ok f, heap))
    (henter : enter f { m with heap } = .ok () m') : m.load source = (none, m') := by
  obtain ⟨heap₀, stack, frames, globals, openUpvalues, initName, sink, clock, nativeCalls⟩ := m
  unfold roots at h
  dsimp only at h
  unfold load
  dsimp only
  rw [h]
  dsimp only
  rw [henter]

theorem load_aborted {f : Handle} {why : Failure} {m' : Machine}
    (h : compile source m.heap (.mk fun _ => m.roots) = (.ok f, heap))
    (henter : enter f { m with heap } = .error why m') :
    m.load source = (some (m'.abort why).1, (m'.abort why).2) := by
  obtain ⟨heap₀, stack, frames, globals, openUpvalues, initName, sink, clock, nativeCalls⟩ := m
  unfold roots at h
  dsimp only at h
  unfold load
  dsimp only
  rw [h]
  dsimp only
  rw [henter]

end Load

theorem Idle.allots {heap : Heap} (hi : m.Idle live) (ha : m.heap.Allots m.roots heap) :
    { m with heap }.Idle (m.heap.Reachable m.roots) :=
  ⟨(hi.toSafe.allots ha).1, hi.stack_eq, hi.frames_eq, hi.open_eq⟩

/-- **A source is compiled by an idle machine**, and can be executed if it has no errors. -/
theorem compile_idle (hi : m.Idle live) (source : String) :
    (∃ errors heap live', compile source m.heap (.mk fun _ => m.roots) = (.error errors, heap) ∧
      { m with heap }.Idle live') ∨
    ∃ f heap, compile source m.heap (.mk fun _ => m.roots) = (.ok f, heap) ∧
      Run.Meets (enter f) { m with heap } fun _ m' => m'.Stable := by
  rcases hcompile : compile source m.heap (.mk fun _ => m.roots) with ⟨result, heap⟩
  have ha : m.heap.Allots m.roots heap := by
    have hallots := compile_allots source m.heap (.mk fun _ => m.roots)
    rw [hcompile] at hallots
    exact hallots
  have hidle := hi.allots ha
  cases result with
  | error errors => exact Or.inl ⟨errors, heap, _, rfl, hidle⟩
  | ok h =>
    have hcompiled := compile_compiled hi.heap.tidy hcompile
    obtain ⟨f, bytes, hcell, -, hcount⟩ := compile_script hi.heap.tidy hcompile
    have hsound := (hi.toSafe.allots ha).2.compiled hcompiled
    have hidle' : { m with heap }.Idle
        (fun x => heap.Reachable [h] x ∨ m.heap.Reachable m.roots x) :=
      ⟨hidle.toSafe.mono (fun x hx => Or.inr hx) hsound, hi.stack_eq, hi.frames_eq, hi.open_eq⟩
    have hself : heap.Reachable [h] h := .root List.mem_cons_self hcompiled.contains
    exact Or.inr ⟨h, heap, rfl, enter_meets hidle' (Or.inl hself) hcompiled hcell hcount⟩

/-! ## Interpreting -/

/-- How an interpretation from an idle state ends. -/
inductive Interprets : Report × Machine → Prop
  | rejected {errors : Array CompileError} {live : Handle → Prop} {m : Machine}
      (idle : m.Idle live) : Interprets (.rejected errors, m)
  | finished {live : Handle → Prop} {m : Machine} (idle : m.Idle live) : Interprets (.finished, m)
  | aborted {e : RuntimeError} {trace : List TraceLine} {live : Handle → Prop} {m : Machine}
      (user : e.isUser = true) (safe : m.Safe live) : Interprets (.aborted e trace, m.reset)
  | unfinished {m : Machine} (stable : m.Stable) : Interprets (.unfinished, m)

theorem resume_fine (h : m.Stable) (fuel : Nat) : Interprets (m.resume fuel) := by
  have hfine := run_fine fuel h
  unfold resume
  cases hrun : m.run fuel with
  | finished m' =>
    rw [hrun] at hfine
    obtain ⟨live, hidle⟩ := hfine
    exact .finished hidle
  | running m' =>
    rw [hrun] at hfine
    exact .unfinished hfine
  | failed why m' =>
    rw [hrun] at hfine
    obtain ⟨e, trace, he, habort⟩ := abort_allowed hfine
    obtain ⟨-, live, hs⟩ := hfine
    dsimp only
    rw [habort]
    exact .aborted he hs

/-- **A source is interpreted by an idle machine.** -/
theorem interpret_fine (hi : m.Idle live) (source : String) (fuel : Nat) :
    Interprets (m.interpret source fuel) := by
  unfold interpret
  rcases compile_idle hi source with ⟨errors, heap, live', hcompile, hidle⟩ |
    ⟨f, heap, hcompile, henter⟩
  · rw [load_rejected hcompile]
    exact .rejected hidle
  · unfold Run.Meets Run.Ends at henter
    cases hrun : enter f { m with heap } with
    | ok _ m' =>
      rw [hrun] at henter
      rw [load_started hcompile hrun]
      exact resume_fine henter fuel
    | error why m' =>
      rw [hrun] at henter
      obtain ⟨e, trace, he, habort⟩ := abort_allowed henter
      obtain ⟨-, live', hs⟩ := henter
      rw [load_aborted hcompile hrun, habort]
      exact .aborted he hs

/-! ## Fresh machines -/

/-- A string is interned while nothing is being executed. -/
theorem Safe.intern (hs : m.Safe live) (s : String) :
    ∃ live', { m with heap := (m.heap.intern m.roots s).2 }.Safe live' ∧
      live' (m.heap.intern m.roots s).1 := by
  obtain ⟨live', hj⟩ := hs.heap.intern (.mk fun _ => m.roots) s
  exact ⟨live', Run.safe_matches hs hj.sound (Run.matches_joins hs hj fun r hr => hr), hj.new⟩

theorem idle_defineNative (hi : m.Idle live) (native : Native)
    (hnative : ∀ reading arguments, (native.apply reading arguments).handle? = none) :
    ∃ live', (m.defineNative native).Idle live' := by
  obtain ⟨live₁, hs₁, hname⟩ := hi.toSafe.intern native.name
  unfold defineNative
  dsimp only
  generalize m.heap.intern m.roots native.name = interned at hs₁ hname
  obtain ⟨name, heap₁⟩ := interned
  dsimp only at hs₁ hname ⊢
  rw [hi.stack_eq] at hs₁ ⊢
  -- the name is on the stack while the function is made
  set m₁ : Machine := { m with heap := heap₁, stack := #[.obj name] } with hm₁
  have hs₁ : m₁.Safe live₁ := hs₁.stack_to fun x hx => by
    rw [Array.mem_singleton] at hx
    cases hx
    exact hname
  have ha := Heap.alloc_allocates hs₁.heap.tidy (.mk fun _ => m₁.roots) (.native native)
  obtain ⟨live₂, hj⟩ := hs₁.heap.joins ha (by simp [Object.kind])
    (fun r hr => absurd hr List.not_mem_nil) hnative
  have hmatches := Run.matches_joins hs₁ hj fun r hr => List.mem_append_right _ hr
  have hs₂ := Run.safe_matches hs₁ hj.sound hmatches
  have hname₂ : live₂ name := (hmatches name (hs₁.reachable_root (mem_roots.2 (Or.inl
    (Array.mem_singleton.2 rfl))))).1
  refine ⟨live₂, ⟨⟨hs₂.heap, by simp, hs₂.closures, ?_, hs₂.initName, hs₂.opened, hs₂.sorted⟩,
    by simp, hi.frames_eq, hi.open_eq⟩⟩
  refine hs₂.globals.insert hname₂ fun x hx => ?_
  cases hx
  exact hj.new

/-- **A fresh machine is idle.** -/
theorem idle_create (config : GcConfig) (journal : Journal) (sink : Sink)
    (clock : Nat → Number) : ∃ live, (create { config, journal } sink clock).Idle live := by
  have hempty : ({ config, journal } : Heap).Sound (fun _ => False) [] :=
    ⟨Heap.tidy_of_empty rfl, fun h hh => hh.elim⟩
  obtain ⟨live', hj⟩ := hempty.intern (Thunk.pure []) "init"
  have hstring := Heap.isString_intern hempty.tidy (Thunk.pure []) "init"
  unfold create
  dsimp only
  generalize ({ config, journal } : Heap).intern (Thunk.pure []) "init" = interned at hj hstring
  obtain ⟨initName, heap⟩ := interned
  have hidle : ({ heap, initName, sink, clock } : Machine).Idle live' :=
    ⟨⟨hj.sound, by simp, by simp, Table.within_empty, ⟨hj.new, hstring⟩, by simp, .nil⟩, rfl, rfl,
      rfl⟩
  exact idle_defineNative hidle .clock fun _ _ => rfl

/-! ## The result -/

/-- The open variables, and those that closures hold, are in slots of the stack. -/
structure OpenInside (m : Machine) : Prop where
  opened : ∀ u ∈ m.openUpvalues, ∃ slot < m.stack.size, m.heap.upvalue u = .ok (.stacked slot)
  captured : ∀ h c, m.heap.Reachable m.roots h → m.heap.closure h = .ok c → ∀ u ∈ c.upvalues,
    ∀ slot, m.heap.upvalue u = .ok (.stacked slot) → slot < m.stack.size

theorem upvalue_eq_stacked {heap : Heap} {u : Handle} {slot : Nat}
    (hu : heap.upvalue u = .ok (.stacked slot)) : heap.OnStack u slot := by
  unfold Heap.upvalue Heap.object at hu
  cases hc : heap.cell? u with
  | none => simp [hc, bind, Except.bind] at hu
  | some cell =>
    obtain ⟨o, bytes⟩ := cell
    cases o <;> simp [hc, bind, Except.bind, pure, Except.pure, throw, throwThe,
      MonadExceptOf.throw] at hu
    exact ⟨bytes, by rw [hc, hu]⟩

theorem Stable.openInside (h : m.Stable) : m.OpenInside := by
  obtain ⟨live, k, outer, below, h⟩ := h
  have hinside : ∀ u ∈ m.openUpvalues, ∀ slot, m.heap.OnStack u slot → slot < m.stack.size := by
    intro u hu slot hs
    rw [h.size_eq]
    exact Run.slot_lt h.toBusy le_rfl hu hs
  refine ⟨fun u hu => ?_, fun x c hx hc u hu slot hs => ?_⟩
  · obtain ⟨-, slot, hslot⟩ := h.opened u hu
    exact ⟨slot, hinside u hu slot hslot, hslot.upvalue⟩
  · obtain ⟨bytes, hcell⟩ := Heap.closure_eq_ok_iff.1 hc
    have hslot := upvalue_eq_stacked hs
    exact hinside u (((h.heap.proper (h.reachable hx) hcell).2.2 u hu).2 slot hslot) slot hslot

end Machine

/-- **A source that a fresh machine interprets does not go wrong.** Whatever the configuration of
the heap is, only errors of the user abort it, the heap rejects no handle, and as long as it goes on
every open variable is in a slot of the stack. -/
theorem interpret_fresh (config : GcConfig) (journal : Journal) (sink : Sink)
    (clock : Nat → Number) (source : String) (fuel : Nat) :
    (∀ e trace, ((Machine.create { config, journal } sink clock).interpret source fuel).1 =
      .aborted e trace → e.isUser = true) ∧
    (∀ f, ((Machine.create { config, journal } sink clock).interpret source fuel).1 ≠ .faulted f) ∧
    ∀ m, (Machine.create { config, journal } sink clock).interpret source fuel = (.unfinished, m) →
      m.OpenInside := by
  obtain ⟨live, hidle⟩ := Machine.idle_create config journal sink clock
  have hfine := Machine.interpret_fine hidle source fuel
  generalize (Machine.create { config, journal } sink clock).interpret source fuel = result
    at hfine
  refine ⟨fun e trace he => ?_, fun f hf => ?_, fun m hm => ?_⟩
  · cases hfine with
    | aborted user safe =>
      cases he
      exact user
    | _ => cases he
  · cases hfine <;> cases hf
  · cases hfine with
    | unfinished stable =>
      cases hm
      exact stable.openInside
    | _ => cases hm

end LoxMachine
