import LoxMachine.Proofs.Machine.Capturing

/-!
# The machine and the machine with cells in step

* `perform_inStep`: every instruction does the same on both machines.
* `run_inStep`: so does a number of steps.
* `run_shares_cells`: a source that compiles is executed by a fresh machine in step with the machine in
  which every variable is a cell of its own.
-/

namespace LoxMachine

variable {live : Handle → Prop} {k : Call} {outer : List Call} {marks below s : Shape} {n : Nat}
  {m : Machine} {r : Cellular}

/-! ## Instructions -/

namespace Run

variable {f : Handle → Value} {opened : List Handle}

theorem Overlooks.goOn {x : Run Unit} (h : Overlooks f opened x m) :
    Overlooks f opened (do x; return false) m :=
  h.bind fun _ m' _ => Overlooking.overlooks f opened m'

/-- The instructions that deal with variables. -/
def isVariable : Opcode → Bool
  | .getLocal | .setLocal | .getUpvalue | .setUpvalue | .closure | .closeUpvalue | .ret => true
  | _ => false

/-- **All other instructions overlook captured variables.** -/
theorem perform_overlooks {op : Opcode} {args : List UInt8} {count : Nat}
    (hop : isVariable op = false) (hc : m.Covers f opened)
    (h : m.Busy live k outer marks (n + op.pops count)) (hb : k.Reads args)
    (hoperand : k.pool.Operand op s args count)
    (hslots : ∀ u slot, m.heap.OnStack u slot → slot < n) :
    Overlooks f opened (perform op) m := by
  cases op with
  | getLocal | setLocal | getUpvalue | setUpvalue | closure | closeUpvalue | ret => cases hop
  | add => exact (add_overlooks hc).goOn
  | getProperty => exact (getProperty_overlooks hc).goOn
  | cls => exact (makeClass_overlooks hc).goOn
  | call => exact (callInstruction_overlooks hc).goOn
  | getSuper =>
    refine (getSuper_overlooks hc fun u slot hu => ?_).goOn
    have := hslots u slot hu
    rw [h.size_eq, Opcode.pops]
    omega
  | invoke =>
    unfold Pool.Operand at hoperand
    rcases args with _ | ⟨i, _ | ⟨b, _ | ⟨_, _⟩⟩⟩
    · exact hoperand.elim
    · exact hoperand.elim
    · obtain ⟨hi, rfl⟩ := hoperand
      exact (invoke_overlooks hc h hb hi hslots).goOn
    · exact hoperand.elim
  | constant | pushNil | pushTrue | pushFalse | pop | getGlobal | defineGlobal | setGlobal
  | setProperty | equal | greater | less | subtract | multiply | divide | not | negate | print | jump
  | jumpIfFalse | loop | superInvoke | inherit | method =>
    unfold perform
    exact Overlooking.overlooks f opened m

end Run

namespace Machine

/-- The open variables are in slots of the stack after every step. -/
theorem Advanced.slot_lt {done : Bool} (h : Advanced done m) {u : Handle} {slot : Nat}
    (hu : u ∈ m.openUpvalues) (hs : m.heap.OnStack u slot) : slot < m.stack.size := by
  unfold Advanced at h
  split at h
  · obtain ⟨live, hidle⟩ := h
    rw [hidle.open_eq] at hu
    exact absurd hu List.not_mem_nil
  · obtain ⟨slot', hlt, hslot⟩ := h.openInside.opened u hu
    rw [hs.unique (upvalue_eq_stacked hslot)]
    exact hlt

end Machine

theorem InStep.goOn {x : Run Unit} {y : Cells Unit} {Q : Machine → Cellular → Prop}
    (h : InStep x y m r fun _ m' r' => Q m' r') :
    InStep (do x; return false) (do y; return false) m r fun _ m' r' => Q m' r' :=
  h.bind fun _ _ _ _ hQ => .pure hQ

namespace Cellular

theorem perform_lifted {op : Opcode} (hop : Run.isVariable op = false) :
    perform op = lift (Run.perform op) := by
  cases op <;> first | rfl | cases hop

/-- An instruction that is lifted. -/
theorem lifted_inStep {op : Opcode} (hop : Run.isVariable op = false) (hr : r.Reflects m)
    (hx : Run.Overlooks r.value r.captured (Run.perform op) m)
    (hmeets : Run.Meets (Run.perform op) m Machine.Advanced) :
    InStep (Run.perform op) (perform op) m r fun _ m' r' => r'.Reflects m' := by
  rw [perform_lifted hop]
  refine lift_inStep hr hx fun done m' hm _ u hu slot hslot => ?_
  unfold Run.Meets Run.Ends at hmeets
  rw [hm] at hmeets
  exact hmeets.slot_lt hu hslot

/-- **Operations without jumps.** -/
theorem plain_inStep {op : Opcode} {args : List UInt8} {count : Nat}
    (h : m.Busy live (k.skip 1) outer (k.shape ++ below) (k.shape ++ below).length)
    (hlaid : k.Laid) (hbase : k.frame.base = below.length) (hnest : Nest outer below)
    (hb : (k.skip 1).Reads args) (hoperand : k.pool.Operand op k.shape args count)
    (henough : op.needs count ≤ k.shape.length)
    (hclear : op ≠ .closeUpvalue → ∀ b ∈ k.shape.take (op.pops count), b = false)
    (hnext : k.layout.Leads (k.frame.ip + 1 + args.length) (op.effect count k.shape))
    (hr : r.Reflects m) :
    InStep (Run.perform op) (perform op) m r fun _ m' r' => r'.Reflects m' := by
  have hmeets := Run.perform_plain_meets h hlaid hbase hnest hb hoperand henough hclear hnext
  by_cases hop : Run.isVariable op = false
  · have hpops := (op.pops_le_needs count).trans henough
    have hclose : op ≠ .closeUpvalue := by
      rintro rfl
      cases hop
    set kept := k.shape.drop (op.pops count) ++ below with hkept
    have hlength : kept.length + op.pops count = (k.shape ++ below).length := by
      rw [hkept, List.length_append, List.length_append, List.length_drop]
      omega
    have hslots : ∀ u slot, m.heap.OnStack u slot → slot < kept.length := by
      intro u slot hu
      have hmark := h.marked u (hr.opened hu).1 slot hu
      rw [← List.take_append_drop (op.pops count) k.shape, List.append_assoc] at hmark
      exact Shape.lt_length_of_slot? (Run.slot?_of_clear (hclear hclose) hmark)
    refine lifted_inStep hop hr ?_ hmeets
    exact Run.perform_overlooks (n := kept.length) hop (hr.covers h.toSafe) (hlength ▸ h) hb hoperand
      hslots
  · cases op with
    | getLocal => exact (getLocal_inStep hr).goOn
    | setLocal => exact (setLocal_inStep hr).goOn
    | getUpvalue => exact (getUpvalue_inStep hr).goOn
    | setUpvalue => exact (setUpvalue_inStep hr).goOn
    | closeUpvalue =>
      refine (closeTop_inStep hr h.toSafe ?_).goOn
      have hneeds : 1 ≤ k.shape.length := henough
      rw [h.size_eq, List.length_append]
      omega
    | ret =>
      obtain ⟨-, -, hne, -⟩ | ⟨hop', -⟩ | ⟨hop', -⟩ | ⟨hop', -⟩ := Run.operand_cases hoperand
      · exact absurd rfl hne
      all_goals cases hop'
    | closure =>
      obtain ⟨hop', -⟩ | ⟨hop', -⟩ | ⟨hop', -⟩ | ⟨hop', -⟩ := Run.operand_cases hoperand
      all_goals cases hop'
    | _ => exact absurd rfl hop

/-- **One instruction.** Its opcode has been read. -/
theorem perform_inStep (live : Handle → Prop) {bytes : List UInt8}
    (hgoes : Goes k.pool k.layout k.frame.ip k.shape bytes) (hb : k.Reads bytes)
    (hlaid : k.Laid) (hbase : k.frame.base = below.length) (hnest : Nest outer below) :
    ∃ op args, bytes = op.toByte :: args ∧ ∀ (m : Machine) (r : Cellular),
      m.Busy live (k.skip 1) outer (k.shape ++ below) (k.shape ++ below).length → r.Reflects m →
        InStep (Run.perform op) (perform op) m r fun _ m' r' => r'.Reflects m' := by
  obtain ⟨op', args', hbytes, hmeets⟩ := Run.perform_meets live hgoes hb hlaid hbase hnest
  -- a jump looks at the top of the stack only
  have hjump : ∀ {op : Opcode} {args : List UInt8}, bytes = op.toByte :: args →
      Run.isVariable op = false → Run.Overlooking (Run.perform op) → ∀ (m : Machine) (r : Cellular),
      m.Busy live (k.skip 1) outer (k.shape ++ below) (k.shape ++ below).length → r.Reflects m →
        InStep (Run.perform op) (perform op) m r fun _ m' r' => r'.Reflects m' := by
    intro op args heq hop hover m r h hr
    rw [heq] at hbytes
    obtain rfl : op = op' := by
      have hbyte := congrArg Opcode.ofByte? (List.cons.inj hbytes).1
      rw [Opcode.ofByte?_toByte, Opcode.ofByte?_toByte] at hbyte
      exact Option.some.inj hbyte
    exact lifted_inStep hop hr (hover.overlooks _ _ m) (hmeets m h)
  cases hgoes with
  | @plain op args count operand enough clear next =>
    exact ⟨op, args, rfl, fun m r h hr =>
      plain_inStep h hlaid hbase hnest hb.tail operand enough clear next hr⟩
  | ret clear =>
    refine ⟨.ret, [], rfl, fun m r h hr => ?_⟩
    obtain ⟨s, hs⟩ := List.head?_eq_some_iff.1 clear
    refine ret_inStep hr h.toSafe (fun u slot hu => ?_) h.frames_eq ?_ fun hrest => ?_
    · have hmark := h.marked u (hr.opened hu).1 slot hu
      rw [hs, List.cons_append, ← List.singleton_append] at hmark
      have hlt := Shape.lt_length_of_slot? (Run.slot?_of_clear (by simp) hmark)
      rw [h.size_eq, hs, List.cons_append, List.length_cons]
      omega
    · rw [h.size_eq, Call.skip_base, hbase, hs]
      simp
    · rw [Call.skip_base, hbase]
      cases hnest with
      | nil => rfl
      | cons => cases hrest
  | @jump high low target => exact ⟨.jump, [high, low], rfl, hjump rfl rfl (by
      unfold Run.perform
      infer_instance)⟩
  | @jumpIfFalse high low enough next target => exact ⟨.jumpIfFalse, [high, low], rfl, hjump rfl rfl (by
      unfold Run.perform
      infer_instance)⟩
  | @loop high low t back target => exact ⟨.loop, [high, low], rfl, hjump rfl rfl (by
      unfold Run.perform
      infer_instance)⟩
  | @closure i captures s' constant shape captured next =>
    refine ⟨.closure, i :: captures.flatMap Capture.bytes, rfl, fun m r h hr => ?_⟩
    have hmarks : (s' ++ below).length ≤ (k.shape ++ below).length + 1 := by
      rw [List.length_append, List.length_append, ← shape.length_eq, List.length_cons]
      omega
    exact (makeClosure_inStep (Run.busy_marked h shape) hmarks hb.tail constant
      (Run.offers_captured hbase captured) hr).goOn

/-! ## Steps -/

/-- **A report changes nothing but the journal.** -/
theorem report_records (h : m.Busy live k outer marks n) : ∃ texts text, Run.report m =
    .ok () { m with heap := (m.heap.record (.operands texts)).record (.executes text) } := by
  obtain ⟨texts, htexts⟩ := mapM_ok (f := m.heap.display) (l := m.stack.toList) fun v hv =>
    h.heap.display fun x hx => h.stack x (hx ▸ Array.mem_toList_iff.1 hv)
  obtain ⟨bytes, hcell⟩ := (h.known k List.mem_cons_self).function
  obtain ⟨text, htext⟩ := Listing.instruction_ok (Run.displays_running h) k.frame.ip
  have hframe : Run.frame m = .ok k.frame m := Run.frame_ok h.frames_eq
  have hchunk : Run.runningChunk k.frame m = .ok k.function.chunk m := by
    unfold Run.runningChunk
    rw [Run.look_bind_ok (Heap.function_eq_ok_iff.2 ⟨bytes, hcell⟩)]
    rfl
  refine ⟨texts, text.1, ?_⟩
  have hreport : Run.report m = (Run.look (fun heap => m.stack.toList.mapM heap.display) >>=
      fun texts => Run.runningChunk k.frame >>= fun chunk =>
        Run.look (Listing.instruction · chunk k.frame.ip) >>= fun line =>
          modify fun m => { m with
            heap := (m.heap.record (.operands texts)).record (.executes line.1) }) m := by
    unfold Run.report
    simp only [bind, EStateM.bind, hframe]
    rfl
  rw [hreport, Run.look_bind_ok htexts]
  simp only [bind, EStateM.bind, hchunk,
    Run.look_ok (q := (Listing.instruction · k.function.chunk k.frame.ip)) htext]
  rfl

theorem Reflects.record (hr : r.Reflects m) (e : Event) :
    r.Reflects { m with heap := m.heap.record e } := by
  have hcells := m.heap.cell?_record e
  have hkind : ∀ u, (m.heap.record e).kind? u = m.heap.kind? u := fun u => Heap.kind?_congr (hcells u)
  refine { hr with
    heap := hr.heap.trans (Heap.fill_record _ _ _).symm
    opened := fun {u slot} hu => hr.opened (hu.congr (hcells u).symm)
    closed := fun {u v bytes} hu => hr.closed ((hcells u).symm.trans hu)
    distinct := fun {u u'} hu hu' heq =>
      hr.distinct ((hkind u).symm.trans hu) ((hkind u').symm.trans hu') heq
    billed := hr.billed.record e }

/-- **One step.** -/
theorem step_inStep (h : m.Stable) (hr : r.Reflects m) :
    InStep Run.execute step m r fun _ m' r' => r'.Reflects m' := by
  obtain ⟨live, k, outer, below, h⟩ := h
  obtain ⟨bytes, hb, hgoes⟩ := h.fits
  obtain ⟨op, args, rfl, hperform⟩ := perform_inStep live hgoes hb h.laid h.base h.nest
  have hrest : ∀ m : Machine, m.Busy live k outer (k.shape ++ below) (k.shape ++ below).length →
      r.Reflects m → InStep (do Run.perform (← Run.readOpcode)) step m r
        fun _ m' r' => r'.Reflects m' := by
    intro m h hr
    refine ((reading_inStep hr).meets (Run.readOpcode_meets h hb)).bind fun op' m' r' _ h' => ?_
    obtain ⟨⟨rfl, h'⟩, hr', -⟩ := h'
    exact hperform m' r' h' hr'
  have hexecute : Run.execute m = (if m.heap.journal.admits .trace = true
      then Run.report >>= fun _ => do Run.perform (← Run.readOpcode)
      else do Run.perform (← Run.readOpcode)) m := rfl
  refine InStep.congr (n := m) (s := r) ?_ hexecute rfl
  split
  · obtain ⟨texts, text, hreport⟩ := report_records h.toBusy
    have hbusy := Run.report_meets h.toBusy
    unfold Run.Meets Run.Ends at hbusy
    rw [hreport] at hbusy
    exact .left hreport (hrest _ hbusy ((hr.record _).record _))
  · exact hrest m h.toBusy hr

end Cellular

/-- How far two executions have come: both go on, both have ended, or both have failed in the same
way. -/
def Machine.Outcome.InStep : Machine.Outcome → Cellular.Outcome → Prop
  | .finished m, .finished r | .running m, .running r => r.Reflects m
  | .failed why m, .failed why' r => why = why' ∧ m.sink = r.sink
  | _, _ => False

/-- **A number of steps.** -/
theorem Machine.Stable.run_inStep (h : m.Stable) (hr : r.Reflects m) (fuel : Nat) :
    (m.run fuel).InStep (r.run fuel) := by
  induction fuel generalizing m r with
  | zero => exact hr
  | succ fuel ih =>
    have hfine := Run.execute_meets h
    unfold Run.Meets Run.Ends at hfine
    unfold Machine.run Machine.step Cellular.run
    rcases (Cellular.step_inStep h hr).cases with ⟨done, m', r', hm, hy, hr'⟩ |
      ⟨e, m', r', hm, hy, hs⟩
    · rw [hm] at hfine
      rw [hm, hy]
      cases done with
      | true => exact hr'
      | false => exact ih hfine hr'
    · rw [hm, hy]
      exact ⟨rfl, hs⟩

/-! ## The start -/

namespace Heap

variable {heap heap' : Heap} {o : Object}

/-- Nothing has been captured yet. -/
structure Uncaptured (heap : Heap) : Prop where
  billed : heap.Billed
  none : ∀ {u : Handle} {cell : Cell}, heap.cell? u = some cell → cell.object.kind ≠ .upvalue

theorem Uncaptured.alloc (hu : heap.Uncaptured) (roots : Thunk (List Handle))
    (ho : o.kind ≠ .upvalue) : (heap.alloc roots o).2.Uncaptured := by
  have ha := alloc_allocates hu.billed.tidy roots o
  refine ⟨hu.billed.alloc roots o, fun {u cell} hc => ?_⟩
  by_cases hne : u = (heap.alloc roots o).1
  · rw [hne, ha.new] at hc
    cases hc
    exact ho
  · exact hu.none (ha.old hne hc)

theorem Uncaptured.intern (hu : heap.Uncaptured) (roots : Thunk (List Handle)) (s : String) :
    (heap.intern roots s).2.Uncaptured := by
  refine ⟨hu.billed.intern roots s, fun {u cell} hc => ?_⟩
  rcases intern_spec hu.billed.tidy roots s with ⟨-, heq⟩ | ⟨-, ha, -⟩
  · rw [heq] at hc
    exact hu.none hc
  · by_cases hne : u = (heap.intern roots s).1
    · rw [hne, ha.new] at hc
      cases hc
      simp [Object.kind]
    · exact hu.none (ha.old hne hc)

/-- Compiling captures nothing. -/
theorem Allots.uncaptured {roots : List Handle} (ha : heap.Allots roots heap')
    (hu : heap.Uncaptured) : heap'.Uncaptured := by
  induction ha with
  | refl => exact hu
  | intern s _ _ ih => exact ih.intern _ s
  | function f _ _ ih => exact ih.alloc _ (by simp [Object.kind])
  | record e _ ih => exact ⟨ih.billed.record e, fun hc => ih.none (by rwa [cell?_record] at hc)⟩

end Heap

namespace Machine

theorem create_uncaptured (config : GcConfig) (journal : Journal) (sink : Sink)
    (clock : Nat → Number) : (create { config, journal } sink clock).heap.Uncaptured := by
  have hempty : ({ config, journal } : Heap).Uncaptured :=
    ⟨Heap.billed_of_empty rfl rfl, fun hc => by simp [Heap.cell?] at hc⟩
  have hinit := hempty.intern (Thunk.pure []) "init"
  unfold create defineNative
  dsimp only
  exact (hinit.intern _ _).alloc _ (by simp [Object.kind])

/-- A script is called. -/
theorem call_script {x : Handle} {c : Closure} {f : Function} (hsize : m.stack.size = 1)
    (hframes : m.frames = []) (hclosure : m.heap.closure x = .ok c)
    (hfunction : m.heap.function c.function = .ok f) (harity : f.arity = 0) :
    Run.call x 0 m = .ok () { m with frames := [{ closure := x, function := c.function, base := 0 }] } := by
  unfold Run.call
  rw [Run.look_bind_ok hclosure]
  dsimp only
  rw [Run.look_bind_ok hfunction, harity, if_neg (by simp)]
  change (if maxFrames ≤ m.frames.length then _ else _ : Run Unit) m = _
  rw [if_neg (by rw [hframes]; decide)]
  rw [if_neg (by rw [hsize]; decide)]
  change EStateM.Result.ok () { m with
    frames := { closure := x, function := c.function, base := m.stack.size - wrap (0 + 1) } ::
      m.frames } = _
  rw [hsize, hframes]
  rfl

/-- **A compiled script is entered.** The state is the one in which a closure of it is called. -/
theorem enter_eq {h : Handle} {f : Function} {bytes : Nat} (ht : m.heap.Tidy)
    (hstack : m.stack = #[]) (hframes : m.frames = [])
    (hcell : m.heap.cell? h = some ⟨.function f, bytes⟩) (harity : f.arity = 0) :
    ∃ closure heap, m.heap.Allocates (handles #[.obj h] m.frames m.openUpvalues m.globals m.initName)
      (.closure { function := h }) closure heap ∧
      (∃ roots : Thunk (List Handle), heap = (m.heap.alloc roots (.closure { function := h })).2) ∧
      enter h m = .ok () { m with
        heap, stack := #[.obj closure], frames := [{ closure, function := h, base := 0 }] } := by
  let roots : Thunk (List Handle) :=
    .mk fun _ => handles #[.obj h] m.frames m.openUpvalues m.globals m.initName
  have ha := Heap.alloc_allocates ht roots (.closure { function := h })
  have hkept := ha.kept (.root (List.mem_append_left _ (List.mem_singleton.2 rfl))
    (Heap.contains_of_cell? hcell))
  have hpush : ∀ (m : Machine) (v : Value), m.stack = #[] →
      Run.push v m = .ok () { m with stack := #[v] } := by
    intro m v hm
    rw [Cellular.push_eq, hm]
    rfl
  have halloc : Run.alloc (.closure { function := h }) { m with stack := #[.obj h] } =
      .ok (m.heap.alloc roots (.closure { function := h })).1
        { m with heap := (m.heap.alloc roots (.closure { function := h })).2,
                 stack := #[.obj h] } := rfl
  refine ⟨_, _, ha, ⟨roots, rfl⟩, ?_⟩
  unfold enter
  simp only [bind, EStateM.bind]
  rw [hpush m (.obj h) hstack]
  dsimp only
  rw [halloc]
  dsimp only
  rw [Cellular.pop_eq]
  change (match Run.push _ { m with heap := _, stack := #[] } with
    | .ok _ m => Run.call _ 0 m | .error e m => .error e m) = _
  rw [hpush _ _ rfl]
  exact call_script (c := { function := h }) rfl hframes (Heap.closure_of_cell? ha.new)
    (Heap.function_eq_ok_iff.2 ⟨bytes, hkept.2.trans hcell⟩) harity

theorem enter_ok {h : Handle} {f : Function} {bytes : Nat} (ht : m.heap.Tidy)
    (hstack : m.stack = #[]) (hframes : m.frames = [])
    (hcell : m.heap.cell? h = some ⟨.function f, bytes⟩) (harity : f.arity = 0) :
    ∃ m', enter h m = .ok () m' ∧ (∃ closure, m'.frames = [{ closure, function := h, base := 0 }]) ∧
      ∃ roots : Thunk (List Handle), m'.heap = (m.heap.alloc roots (.closure { function := h })).2 := by
  obtain ⟨closure, heap, -, hheap, henter⟩ := enter_eq ht hstack hframes hcell harity
  exact ⟨_, henter, ⟨closure, rfl⟩, hheap⟩

end Machine

/-- Where nothing has been captured, every slot is a cell of its own. -/
theorem Cellular.start_reflects (hu : m.heap.Uncaptured) : (Cellular.start m).Reflects m := by
  have hkind : ∀ {u : Handle}, m.heap.kind? u ≠ some .upvalue := by
    intro u hk
    obtain ⟨o, bytes, hc, hk⟩ := Heap.cell?_of_kind? hk
    exact hu.none hc hk
  have hn : ([] : List Nat).Nodup := List.nodup_nil
  refine ⟨rfl, rfl, rfl, rfl, rfl, rfl, rfl, stack_absorb hn (by simp) m, nodup_slots hn (by simp) _,
    fun c hc => ?_, fun {u slot} hs => ?_, fun {u v bytes} hc => ?_, fun hk => absurd hk hkind,
    hu.billed⟩
  · rcases mem_slots.1 hc with hc | hc
    · simp at hc
    · exact hc.2
  · obtain ⟨bytes, hc⟩ := hs
    exact absurd rfl (hu.none hc)
  · exact absurd rfl (hu.none hc)

/-- **Captured variables are shared cells.** A source that compiles is executed by a fresh machine in
step with the machine in which every variable is a cell of its own: after any number of steps every
slot and every captured variable, on the stack or off it, has the value of its cell, different
variables are different cells, and both machines go on, end, or fail in the same way. -/
theorem run_shares_cells (config : GcConfig) (journal : Journal) (sink : Sink)
    (clock : Nat → Number) (source : String) {h : Handle} {heap : Heap}
    (hcompile : compile source (Machine.create { config, journal } sink clock).heap
      (.mk fun _ => (Machine.create { config, journal } sink clock).roots) = (.ok h, heap)) :
    ∃ m, (Machine.create { config, journal } sink clock).load source = (none, m) ∧
      ∀ fuel, (m.run fuel).InStep ((Cellular.start m).run fuel) := by
  obtain ⟨live, hidle⟩ := Machine.idle_create config journal sink clock
  have hu := Machine.create_uncaptured config journal sink clock
  generalize Machine.create { config, journal } sink clock = m₀ at *
  obtain ⟨f, bytes, hcell, harity, -⟩ := compile_script hidle.heap.tidy hcompile
  have hallots := compile_allots source m₀.heap (.mk fun _ => m₀.roots)
  rw [hcompile] at hallots
  have hu' : heap.Uncaptured := hallots.uncaptured hu
  obtain ⟨m, henter, -, roots, hheap⟩ := Machine.enter_ok (m := { m₀ with heap }) hu'.billed.tidy
    hidle.stack_eq hidle.frames_eq hcell harity
  refine ⟨m, Machine.load_started hcompile henter, fun fuel => Machine.Stable.run_inStep ?_ ?_ fuel⟩
  · rcases Machine.compile_idle hidle source with ⟨_, _, _, herror, -⟩ | ⟨h', heap', hok, hmeets⟩
    · rw [hcompile] at herror
      cases herror
    · rw [hcompile] at hok
      cases hok
      unfold Run.Meets Run.Ends at hmeets
      rw [henter] at hmeets
      exact hmeets
  · apply Cellular.start_reflects
    rw [hheap]
    exact hu'.alloc roots (by simp [Object.kind])

/-- Two closures share a variable of a block that has been left. -/
theorem run_shares_cells_counter : ∃ source h heap m,
    source = "var f; var g; \x7b var a = 1; fun c() \x7b a = 2; \x7d fun d() \x7b print a; \x7d" ++
      " f = c; g = d; \x7d g(); f(); g();" ∧
    compile source (Machine.create {}).heap (.mk fun _ => (Machine.create {}).roots) = (.ok h, heap) ∧
    (Machine.create {}).load source = (none, m) ∧
    ∀ fuel, (m.run fuel).InStep ((Cellular.start m).run fuel) := by
  generalize hs : "var f; var g; \x7b var a = 1; fun c() \x7b a = 2; \x7d fun d() \x7b print a; \x7d" ++
      " f = c; g = d; \x7d g(); f(); g();" = source
  have hresult : (compile source (Machine.create {}).heap
      (.mk fun _ => (Machine.create {}).roots)).1.toOption = some ⟨9, 0⟩ := by
    subst hs
    decide +kernel
  rcases hcompile : compile source (Machine.create {}).heap (.mk fun _ => (Machine.create {}).roots)
    with ⟨result, heap⟩
  rw [hcompile] at hresult
  cases result with
  | error e => cases hresult
  | ok h =>
    obtain ⟨m, hload, hrun⟩ := run_shares_cells {} {} {} (fun _ => ⟨0⟩) source hcompile
    exact ⟨source, h, heap, m, rfl, hcompile, hload, hrun⟩

end LoxMachine
