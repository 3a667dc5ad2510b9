import LoxMachine.Proofs.Grammar.Acceptance
import LoxMachine.Proofs.Listing.Lines
import LoxMachine.Proofs.Machine.Aftermath
import LoxMachine.Proofs.Machine.Fetching
import LoxMachine.Proofs.Symbolic.Declarations

/-!
# Traces

* `Frame.At heap f g i line`: the call is at the instruction `i` of its function `g`, and all bytes of that
  are recorded for one line.
* `execute_transfers`: what a step does to the calls is told by the instruction that it fetches.
* `Machine.Awaits m₀ m f outer line`: the call `f` around others waits for the end of a call instruction
  that it has executed since `m₀`, and that is recorded for the line.
* `run_traces`: the trace of a runtime error has a line for every call, from the instruction that failed
  out to the script.
-/

namespace LoxMachine

variable {m₀ m m₁ m' p p' : Machine} {heap heap' : Heap} {f : Frame} {rest outer : List Frame} {g : Function}
  {i : Instruction} {x : Handle} {line : Nat}

/-! ## Lines of instructions -/

/-- The call is at an instruction, and all bytes of that are recorded for one line. -/
structure Frame.At (heap : Heap) (f : Frame) (g : Function) (i : Instruction) (line : Nat) : Prop where
  function : heap.function f.function = .ok g
  instruction : g.instructionAt? heap f.ip = some i
  lines : ∀ j < i.size, g.chunk.lines[f.ip + j]? = some line

theorem Instruction.size_pos (i : Instruction) : 0 < i.size := by
  rw [size]
  omega

/-- The line of the byte that was read last is that of the instruction. -/
theorem Frame.At.lineAt (h : f.At heap g i line) : g.chunk.lineAt (f.ip + i.size - 1) = line := by
  have hpos := i.size_pos
  rw [Chunk.lineAt, Nat.add_sub_assoc hpos, h.lines _ (by omega), Option.getD_some]

namespace Machine

/-- **The instructions of compiled code are each of one line.** -/
theorem Stable.at (h : m.Stable) (hf : m.frames = f :: rest) (hg : m.heap.function f.function = .ok g)
    (hi : g.instructionAt? m.heap f.ip = some i) : ∃ line, f.At m.heap g i line := by
  obtain ⟨live, k, outer, below, h⟩ := h
  obtain ⟨rfl, -⟩ := List.cons.inj (hf.symm.trans h.frames_eq)
  have hknown := h.known k List.mem_cons_self
  obtain ⟨bytes, hcell⟩ := hknown.function
  obtain rfl : k.function = g := Except.ok.inj ((Heap.function_eq_ok_iff.2 ⟨bytes, hcell⟩).symm.trans hg)
  obtain ⟨entry, hlays⟩ := h.laid
  rw [← hknown.pool] at hlays
  have hstart := hlays.start h.place
  refine ⟨k.function.chunk.lineAt k.frame.ip, hg, hi, fun j hj => ?_⟩
  have hlength := (instructionAt?_eq_some_iff.1 hi).1.length_le (List.cons_ne_nil _ _)
  have hin : k.frame.ip + j < k.function.chunk.lines.size := by
    have hpaired : k.function.chunk.lines.size = k.function.chunk.code.size := hlays.paired
    rw [Instruction.size] at hj
    rw [List.length_cons] at hlength
    omega
  have hline := lineAt_of_wellLaid ⟨_, hlays⟩ hstart hi hj
  rw [Array.getElem?_eq_getElem hin, ← hline, Chunk.lineAt, Array.getElem?_eq_getElem hin, Option.getD_some]

end Machine

/-! ## Steps -/

theorem Heap.function_congr (h : heap'.cell? x = heap.cell? x) : heap'.function x = heap.function x := by
  unfold Heap.function Heap.object
  rw [h]

theorem Function.instructionAt?_congr (hcells : ∀ x, heap'.cell? x = heap.cell? x) (g : Function) (o : Nat) :
    g.instructionAt? heap' o = g.instructionAt? heap o := by
  unfold instructionAt? operandSize?
  rw [Heap.pool_congr fun x _ => hcells x]

/-- What is fetched does not depend on the journal. -/
theorem Machine.Fetches.of_cells (h : { m with heap }.Fetches i m₁) (hcells : ∀ x, heap.cell? x = m.heap.cell? x) :
    m.Fetches i { m₁ with heap := m.heap } := by
  obtain ⟨f, rest, g, hf, hg, hi, rfl⟩ := h
  rw [Function.instructionAt?_congr hcells] at hi
  exact ⟨f, rest, g, hf, (Heap.function_congr (hcells _)).symm.trans hg, hi, rfl⟩

/-- What an operation does to the calls does not depend on anything else. -/
theorem Opcode.Transfers.of_frames {op : Opcode} (h : op.Transfers m m') (hf : m₁.frames = m.frames) :
    op.Transfers m₁ m' := by
  cases op <;>
    simp only [Transfers, Machine.Leaps, Machine.Deepens, Machine.Drops, Machine.SameFrames, hf] at h ⊢ <;> exact h

/-- The innermost call goes on somewhere, or has begun another one, or has ended. -/
theorem Opcode.Transfers.cases {op : Opcode} (h : op.Transfers m m') (hf : m.frames = f :: rest) :
    (∃ ip, m'.frames = { f with ip } :: rest) ∨
      (op.calls = true ∧ ∃ callee, m'.frames = callee :: f :: rest) ∨ m'.frames = rest := by
  have hsame : m.SameFrames m' → ∃ ip, m'.frames = { f with ip } :: rest := fun h => ⟨f.ip, h.trans hf⟩
  unfold Transfers at h
  split at h
  · obtain ⟨f', rest', ip, hf', h⟩ := h
    cases hf.symm.trans hf'
    exact .inl ⟨ip, h⟩
  · obtain ⟨f', rest', ip, hf', h⟩ := h
    cases hf.symm.trans hf'
    exact .inl ⟨ip, h⟩
  · obtain ⟨f', rest', ip, hf', h⟩ := h
    cases hf.symm.trans hf'
    exact .inl ⟨ip, h⟩
  · exact h.imp hsame fun h => .inl ⟨rfl, hf ▸ h⟩
  · exact h.imp hsame fun h => .inl ⟨rfl, hf ▸ h⟩
  · exact h.imp hsame fun h => .inl ⟨rfl, hf ▸ h⟩
  · exact .inr (.inr (h.trans (congrArg List.tail hf)))
  · exact .inl (hsame h)

namespace Run

open Machine

/-- **What a step does to the calls.** -/
theorem execute_transfers (hs : m.Sane) (hf : m.frames ≠ []) :
    Ends (fun e m' => Blames e ∨ ∃ i m₁, m.Fetches i m₁ ∧ m₁.SameFrames m') execute m
      fun _ m' => ∃ i m₁, m.Fetches i m₁ ∧ i.op.Transfers m₁ m' := by
  have hfetched : ∀ {m : Machine} {op : Opcode} {m₁ : Machine}, fetch m = .ok op m₁ →
      ∃ i, i.op = op ∧ m.Fetches i m₁ := fun hfetch => fetch_eq_ok_iff.1 hfetch
  have hnext : ∀ {m : Machine}, m.Sane → Ends (fun e m' => Blames e ∨ ∃ i m₁, m.Fetches i m₁ ∧ m₁.SameFrames m')
      (do perform (← readOpcode)) m fun _ m' => ∃ i m₁, m.Fetches i m₁ ∧ i.op.Transfers m₁ m' := by
    intro m hs
    refine ((perform_fetches hs).weaken fun e m' he => he.imp_right ?_).mono fun _ m' ht => ?_
    · rintro ⟨op, m₁, hfetch, hsame⟩
      obtain ⟨i, -, hi⟩ := hfetched hfetch
      exact ⟨i, m₁, hi, hsame⟩
    · obtain ⟨op, m₁, hfetch, ht⟩ := ht
      obtain ⟨i, rfl, hi⟩ := hfetched hfetch
      exact ⟨i, m₁, hi, ht⟩
  unfold execute
  refine .get (.ite (fun _ => ?_) fun _ => hnext hs)
  have hreport := (report_tame hs).and (report_ends (E := fun _ _ => False) hs fun h => absurd h hf)
  refine (hreport.weaken fun e m' he => absurd he.2 id).bind fun _ m₁ h₁ => ?_
  obtain ⟨hs₁, texts, text, rfl⟩ := h₁
  have hcells : ∀ x, ((m.heap.record (.operands texts)).record (.executes text)).cell? x = m.heap.cell? x := by
    simp
  refine ((hnext hs₁).weaken fun e m' he => he.imp_right ?_).mono fun _ m' ht => ?_
  · rintro ⟨i, m₂, hi, hsame⟩
    exact ⟨i, _, hi.of_cells hcells, hsame⟩
  · obtain ⟨i, m₂, hi, ht⟩ := ht
    exact ⟨i, _, hi.of_cells hcells, ht.of_frames rfl⟩

/-- No step makes or changes a function. -/
theorem execute_old (ht : m.heap.Tidy) : Ends (fun _ m' => m.heap.Old .function m'.heap) execute m
    fun _ m' => m.heap.Old .function m'.heap := by
  have heffects : Effects (fun e => e ≠ .makes .function ∧ e ≠ .changes .function) execute :=
    execute_effects fun op => by cases op <;> decide
  have hold : ∀ {m'}, Changes (fun e => e ≠ .makes .function ∧ e ≠ .changes .function) m m' →
      m.heap.Old .function m'.heap := fun h => h.old ht (by simp) (by simp)
  exact (heffects.ends.weaken fun _ _ => hold).mono fun _ _ => hold

end Run

namespace Machine

/-! ## Calls in progress -/

/-- From `m₀` the machine has come to a call instruction, recorded for the line, of the frame `f` on top of
`outer`. What it called is active since then: the frame goes on after the instruction when that has ended. -/
inductive Awaits (m₀ m : Machine) (f : Frame) (outer : List Frame) (line : Nat) : Prop
  | intro {n : Nat} {p p' : Machine} {caller callee : Frame} {g : Function} {i : Instruction}
      (reached : m₀.run n = .running p) (before : p.frames = caller :: outer) (place : caller.At p.heap g i line)
      (calls : i.op.calls = true) (step : p.step = .ok false p') (begun : p'.frames = callee :: f :: outer)
      (resumes : f = { caller with ip := caller.ip + i.size }) (lasts : p'.Lasts (outer.length + 2) m)

theorem Awaits.step (h : m₀.Awaits m f outer line) (hm : m.step = .ok false m')
    (hdepth : outer.length + 2 ≤ m'.frames.length) : m₀.Awaits m' f outer line := by
  obtain ⟨reached, before, place, calls, step, begun, resumes, lasts⟩ := h
  exact ⟨reached, before, place, calls, step, begun, resumes, lasts.step hm hdepth⟩

/-- All calls but the innermost one wait for the end of what they have called. -/
def Nested (m₀ m : Machine) : Prop :=
  ∀ inner f outer, inner ≠ [] → m.frames = inner ++ f :: outer → ∃ line, m₀.Awaits m f outer line

theorem Stable.frames_ne_nil (h : m.Stable) : m.frames ≠ [] := by
  obtain ⟨live, k, outer, below, h⟩ := h
  rw [h.frames_eq]
  exact List.cons_ne_nil _ _

/-- **A step keeps calls waiting**, until what they have called has ended. -/
theorem Nested.step {n : Nat} (h : m₀.Nested m) (hrun : m₀.run n = .running m) (hstable : m.Stable) (hs : m.Sane)
    (hm : m.step = .ok false m') : m₀.Nested m' := by
  -- a call that was around another one, and still is
  have hold : ∀ {f₀ f : Frame} {rest inner outer : List Frame}, m.frames = f₀ :: rest →
      rest = inner ++ f :: outer → outer.length + 2 ≤ m'.frames.length → ∃ line, m₀.Awaits m' f outer line := by
    rintro f₀ f rest inner outer hframes rfl hdepth
    obtain ⟨line, haw⟩ := h (f₀ :: inner) f outer (List.cons_ne_nil _ _) hframes
    exact ⟨line, haw.step hm hdepth⟩
  obtain ⟨i, m₁, ⟨f₀, rest, g, hf₀, hg, hi, rfl⟩, ht⟩ :=
    (Run.execute_transfers hs hstable.frames_ne_nil).of_ok hm
  rintro (_ | ⟨f₁, inner⟩) f outer hinner hframes
  · exact absurd rfl hinner
  have hdepth : outer.length + 2 ≤ m'.frames.length := by
    rw [hframes, List.cons_append, List.length_cons, List.length_append, List.length_cons]
    omega
  rcases ht.cases rfl with ⟨ip, hgoes⟩ | ⟨hcalls, callee, hbegins⟩ | hends
  · obtain ⟨-, hrest⟩ := List.cons.inj (hgoes.symm.trans hframes)
    exact hold hf₀ hrest hdepth
  · obtain ⟨rfl, hrest⟩ := List.cons.inj (hbegins.symm.trans hframes)
    cases inner with
    | nil =>
      obtain ⟨rfl, rfl⟩ := List.cons.inj hrest
      obtain ⟨line, hat⟩ := hstable.at hf₀ hg hi
      exact ⟨line, .intro hrun hf₀ hat hcalls hm hbegins rfl .refl⟩
    | cons f₂ inner =>
      obtain ⟨-, hrest⟩ := List.cons.inj hrest
      exact hold hf₀ hrest hdepth
  · rw [hends] at hframes
    exact hold hf₀ hframes hdepth

/-- A number of steps ends with a step. -/
theorem run_succ_inv {n : Nat} (h : m₀.run (n + 1) = .running m') :
    ∃ m, m₀.run n = .running m ∧ m.step = .ok false m' := by
  induction n generalizing m₀ with
  | zero =>
    rw [run] at h
    split at h
    · cases h
    · rename_i m₁ hstep
      cases h
      exact ⟨m₀, rfl, hstep⟩
    · cases h
  | succ n ih =>
    rw [run] at h
    rw [run]
    split at h
    · cases h
    · exact ih h
    · cases h

/-- A failure is that of a step to which the machine has come. -/
theorem run_failed_inv {fuel : Nat} {why : Failure} (h : m₀.run fuel = .failed why m') :
    ∃ n < fuel, ∃ m, m₀.run n = .running m ∧ m.step = .error why m' := by
  induction fuel generalizing m₀ with
  | zero => cases h
  | succ fuel ih =>
    rw [run] at h
    split at h
    · cases h
    · rename_i m₁ hstep
      obtain ⟨n, hn, m, hrun, hfails⟩ := ih h
      refine ⟨n + 1, Nat.succ_lt_succ hn, m, ?_, hfails⟩
      rw [run, hstep]
      exact hrun
    · rename_i hstep
      cases h
      exact ⟨0, Nat.zero_lt_succ _, m₀, rfl, hstep⟩

/-- What has been reached without a failure. -/
theorem Ran.running {clean : Bool} {n : Nat} (h : Ran clean m₀) (hrun : m₀.run n = .running m) : Ran clean m := by
  have hran := h.run n
  rw [hrun] at hran
  exact (hran.resolve_right fun ⟨_, _, hfailed, _⟩ => by cases hfailed).1

theorem Stable.running {n : Nat} (h : m₀.Stable) (hrun : m₀.run n = .running m) : m.Stable := by
  have hfine := run_fine n h
  rwa [hrun] at hfine

/-- **In every state of a run, the calls wait for each other**, if it starts with one call. -/
theorem run_nested {clean : Bool} (hran : Ran clean m₀) (hstable : m₀.Stable) (hone : m₀.frames.length = 1)
    {n : Nat} (hrun : m₀.run n = .running m) : m₀.Nested m := by
  induction n generalizing m with
  | zero =>
    cases hrun
    intro inner f outer hinner hframes
    have hlength := List.length_pos_of_ne_nil hinner
    rw [hframes, List.length_append, List.length_cons] at hone
    omega
  | succ n ih =>
    obtain ⟨m₁, hrun₁, hstep⟩ := run_succ_inv hrun
    exact (ih hrun₁).step hrun₁ (hstable.running hrun₁) (hran.running hrun₁).orderly.sane hstep

/-! ## Functions of calls -/

theorem step_old {done : Bool} (hm : m.step = .ok done m') (ht : m.heap.Tidy) : m.heap.Old .function m'.heap :=
  (Run.execute_old ht).of_ok hm

theorem Lasts.old {depth : Nat} (h : p.Lasts depth m) (ht : p.heap.Tidy) : p.heap.Old .function m.heap := by
  induction h with
  | refl => exact .refl ht
  | step before hstep active ih => exact ih.trans (step_old hstep ih.tidy)

end Machine

theorem Heap.Old.function (h : heap.Old .function heap') (hg : heap'.function x = .ok g) :
    heap.function x = .ok g := by
  obtain ⟨bytes, hcell⟩ := Heap.function_eq_ok_iff.1 hg
  exact Heap.function_eq_ok_iff.2 ⟨bytes, h.cells rfl hcell⟩

namespace Machine

/-- The function of the outermost call. -/
def script? (m : Machine) : Option Handle := (m.frames.map Frame.function).getLast?

/-- **The outermost call stays the same.** -/
theorem step_script? (hs : m.Sane) (hstable : m.Stable) (hm : m.step = .ok false m') : m'.script? = m.script? := by
  obtain ⟨i, m₁, ⟨f, rest, g, hf, hg, hi, rfl⟩, ht⟩ :=
    (Run.execute_transfers hs hstable.frames_ne_nil).of_ok hm
  unfold script?
  rw [hf]
  rcases ht.cases rfl with ⟨ip, hgoes⟩ | ⟨-, callee, hbegins⟩ | hends
  · rw [hgoes]
    rfl
  · rw [hbegins]
    rfl
  · rw [hends]
    have hne : rest ≠ [] := hends ▸ (hstable.step hm).frames_ne_nil
    obtain ⟨f', rest, rfl⟩ := List.exists_cons_of_ne_nil hne
    rfl

theorem run_script? {clean : Bool} (hran : Ran clean m₀) (hstable : m₀.Stable) {n : Nat}
    (hrun : m₀.run n = .running m) : m.script? = m₀.script? := by
  induction n generalizing m with
  | zero =>
    cases hrun
    rfl
  | succ n ih =>
    obtain ⟨m₁, hrun₁, hstep⟩ := run_succ_inv hrun
    exact (step_script? (hran.running hrun₁).orderly.sane (hstable.running hrun₁) hstep).trans (ih hrun₁)

end Machine

/-! ## Traces -/

/-- The name of a function, if it has one. -/
inductive Function.Named (heap : Heap) (g : Function) : Option String → Prop
  | none (name : g.name = .none) : Named heap g .none
  | some {x : Handle} {s : String} (name : g.name = .some x) (contents : heap.contents x = .ok s) :
    Named heap g (.some s)

theorem Function.Named.eq_none {name : Option String} (h : g.Named heap name) (hg : g.name = .none) : name = .none := by
  cases h with
  | none => rfl
  | some hname =>
    rw [hg] at hname
    cases hname

/-- What is written of a call. -/
structure TraceLine.Tells (t : TraceLine) (heap : Heap) (f : Frame) : Prop where
  call : ∃ g, heap.function f.function = .ok g ∧ g.Named heap t.function ∧ t.line = g.chunk.lineAt (f.ip - 1)

/-- The line of a call that has gone on over an instruction is that of the instruction. -/
theorem Frame.At.line_eq {t : TraceLine} (h : f.At heap g i line) (hold : heap.Old .function heap')
    (ht : t.Tells heap' { f with ip := f.ip + i.size }) : t.line = line := by
  obtain ⟨g', hg', -, hline⟩ := ht
  cases (hold.function hg').symm.trans h.function
  exact hline.trans h.lineAt

theorem forall₂_of_mapM {α β ε : Type} {q : α → Except ε β} {l : List α} {bs : List β} (h : l.mapM q = .ok bs) :
    List.Forall₂ (fun a b => q a = .ok b) l bs := by
  induction l generalizing bs with
  | nil =>
    cases h
    exact .nil
  | cons a l ih =>
    rw [List.mapM_cons] at h
    obtain ⟨b, hb, h⟩ := Except.inv_bind h
    obtain ⟨bs', hl, h⟩ := Except.inv_bind h
    cases h
    exact .cons hb (ih hl)

namespace Machine

/-- **A trace has a line for every call**, the innermost first. -/
theorem trace_tells {trace : List TraceLine} (h : m.trace = .ok trace) :
    List.Forall₂ (fun f t => t.Tells m.heap f) m.frames trace := by
  refine (forall₂_of_mapM h).imp fun f t ht => ?_
  obtain ⟨g, hg, ht⟩ := Except.inv_bind ht
  dsimp only at ht
  split at ht
  · rename_i x hx
    obtain ⟨name, hname, ht⟩ := Except.inv_bind ht
    obtain ⟨s, hs, hname⟩ := Except.inv_bind ((map_eq_bind_pure_comp _ _ _).symm.trans hname)
    cases hname
    cases ht
    exact ⟨g, hg, .some hx hs, rfl⟩
  · rename_i hx
    cases ht
    exact ⟨g, hg, .none hx, rfl⟩

/-- The lines for calls that wait: each has the name of the function, and the line of the call instruction
that is in progress. The names are read in `m'`. -/
inductive Recounts (m₀ m m' : Machine) : List Frame → List TraceLine → Prop
  | nil : Recounts m₀ m m' [] []
  | cons {f : Frame} {outer : List Frame} {t : TraceLine} {trace : List TraceLine} {g : Function}
      (function : m.heap.function f.function = .ok g) (named : g.Named m'.heap t.function)
      (awaits : m₀.Awaits m f outer t.line) (rest : Recounts m₀ m m' outer trace) :
      Recounts m₀ m m' (f :: outer) (t :: trace)

/-- **What the trace of a failure tells**, where the step from `m` to `m'` fails. The first line is for the
instruction that fails, the others are for the calls around, and the last one is for the script. -/
structure Explains (m₀ m m' : Machine) (script : Handle) (trace : List TraceLine) : Prop where
  length_eq : trace.length = m.frames.length
  length_le : trace.length ≤ 64
  lines : ∃ f outer g i t ts, m.frames = f :: outer ∧ trace = t :: ts ∧ f.At m.heap g i t.line ∧
    g.Named m'.heap t.function ∧ m'.frames = { f with ip := f.ip + i.size } :: outer ∧ m₀.Recounts m m' outer ts
  script : m.script? = some script ∧ trace.getLast?.map TraceLine.function = some none

theorem run_old {clean : Bool} (hran : Ran clean m₀) {n : Nat} (hrun : m₀.run n = .running m) :
    m₀.heap.Old .function m.heap := by
  induction n generalizing m with
  | zero =>
    cases hrun
    exact .refl hran.orderly.sane.heap.tidy
  | succ n ih =>
    obtain ⟨m₁, hrun₁, hstep⟩ := run_succ_inv hrun
    exact (ih hrun₁).trans (step_old hstep (ih hrun₁).tidy)

/-- **The lines of the calls around** are those of the call instructions. -/
theorem Nested.recounts {clean : Bool} {outer : List Frame} {ts : List TraceLine} (hran : Ran clean m₀)
    (h : m₀.Nested m) (hold : m.heap.Old .function m'.heap)
    (ht : List.Forall₂ (fun f t => TraceLine.Tells t m'.heap f) outer ts) {inner : List Frame} (hinner : inner ≠ [])
    (hframes : m.frames = inner ++ outer) : m₀.Recounts m m' outer ts := by
  induction ht generalizing inner with
  | nil => exact .nil
  | @cons f t outer ts htells _ ih =>
    obtain ⟨line, haw⟩ := h inner f outer hinner hframes
    have hrest := ih (List.append_ne_nil_of_left_ne_nil hinner [f])
      (hframes.trans (List.append_assoc inner [f] outer).symm)
    obtain ⟨g, hg, hnamed, -⟩ := id htells
    refine .cons (hold.function hg) hnamed ?_ hrest
    obtain ⟨reached, before, place, calls, step, begun, rfl, lasts⟩ := haw
    have hstep := step_old step (hran.running reached).orderly.sane.heap.tidy
    rw [place.line_eq ((hstep.trans (lasts.old hstep.tidy)).trans hold) htells]
    exact .intro reached before place calls step begun rfl lasts

end Machine

theorem forall₂_getLast? {α β : Type} {R : α → β → Prop} {l : List α} {l' : List β} (h : List.Forall₂ R l l')
    {a : α} (ha : l.getLast? = some a) : ∃ b, l'.getLast? = some b ∧ R a b := by
  rw [← List.head?_reverse] at ha
  have hr : List.Forall₂ R l.reverse l'.reverse := List.forall₂_reverse_iff.2 h
  cases hl : l.reverse with
  | nil => rw [hl] at ha; cases ha
  | cons a' rest =>
    rw [hl] at hr ha
    cases ha
    cases hl' : l'.reverse with
    | nil => rw [hl'] at hr; cases hr
    | cons b rest' =>
      rw [hl'] at hr
      cases hr with
      | cons hab _ => exact ⟨b, by rw [← List.head?_reverse, hl']; rfl, hab⟩

namespace Machine

/-- **The trace of a failure.** -/
theorem Ran.explains {clean : Bool} {h : Handle} {n : Nat} {e : RuntimeError} {trace : List TraceLine}
    (hran : Ran clean m₀) (hstable : m₀.Stable) (hone : m₀.frames.length = 1) (hscript : m₀.script? = some h)
    (hname : ∀ g, m₀.heap.function h = .ok g → g.name = none) (hrun : m₀.run n = .running m)
    (hstep : m.step = .error (.error e) m') (huser : e.isUser = true) (htrace : m'.trace = .ok trace) :
    m₀.Explains m m' h trace := by
  have hs := (hran.running hrun).orderly.sane
  have hstable' := hstable.running hrun
  have hold : m.heap.Old .function m'.heap := (Run.execute_old hs.heap.tidy).of_error hstep
  have htells := trace_tells htrace
  rcases (Run.execute_transfers hs hstable'.frames_ne_nil).of_error hstep with hblames | ⟨i, m₁, hfetch, hsame⟩
  · rw [hblames e rfl] at huser
    cases huser
  obtain ⟨f, outer, g, hf, hg, hi, rfl⟩ := hfetch
  have hframes : m'.frames = { f with ip := f.ip + i.size } :: outer := hsame
  have hscript : m.script? = some h ∧ ∃ f', m'.frames.getLast? = some f' ∧ f'.function = h := by
    have hfirst := (run_script? hran hstable hrun).trans hscript
    refine ⟨hfirst, ?_⟩
    have hsame : m'.script? = m.script? := by
      unfold script?
      rw [hframes, hf]
      rfl
    rw [← hsame, script?, List.getLast?_map] at hfirst
    exact Option.map_eq_some_iff.1 hfirst
  obtain ⟨line, hat⟩ := hstable'.at hf hg hi
  rw [hframes] at htells
  have hlength : trace.length = m.frames.length := by
    rw [hf, ← htells.length_eq]
    rfl
  refine ⟨hlength, hlength ▸ hs.length_le, ?_, hscript.1, ?_⟩
  · cases htells with
    | @cons _ t _ ts htop hrest =>
      have hline := hat.line_eq hold htop
      obtain ⟨g', hg', hnamed, -⟩ := htop
      cases (hold.function hg').symm.trans hg
      exact ⟨f, outer, g, i, t, ts, hf, rfl, hline ▸ hat, hnamed, hframes,
        (run_nested hran hstable hone hrun).recounts hran hold hrest (List.cons_ne_nil f []) hf⟩
  · obtain ⟨f', hlast, rfl⟩ := hscript.2
    rw [hframes] at hlast
    obtain ⟨t, ht, g', hg', hnamed, -⟩ := forall₂_getLast? htells hlast
    have hnone := hname g' (((run_old hran hrun).trans hold).function hg')
    rw [ht]
    exact congrArg some (hnamed.eq_none hnone)

/-- A fresh machine starts a source that compiles with one call, that of the script. -/
theorem load_script (config : GcConfig) (journal : Journal) (sink : Sink) (clock : Nat → Number)
    {source : String} {h : Handle} {heap : Heap}
    (hcompile : compile source (create { config, journal } sink clock).heap
      (.mk fun _ => (create { config, journal } sink clock).roots) = (.ok h, heap)) :
    ∃ m, (create { config, journal } sink clock).load source = (none, m) ∧ m.Stable ∧ m.frames.length = 1 ∧
      m.script? = some h ∧ ∀ g, m.heap.function h = .ok g → g.name = none := by
  obtain ⟨m, hload, hstable⟩ := load_stable config journal sink clock hcompile
  obtain ⟨live, hidle⟩ := idle_create config journal sink clock
  generalize create { config, journal } sink clock = m₀ at *
  have hallots := compile_allots source m₀.heap (.mk fun _ => m₀.roots)
  rw [hcompile] at hallots
  have ht := (hallots.keeps hidle.heap.tidy).1
  obtain ⟨program, hp⟩ := exists_parses hcompile
  obtain ⟨f, bytes, hcell, hname, harity, -⟩ := hp.spells hidle.heap.tidy hcompile
  obtain ⟨m', henter, ⟨closure, hframes⟩, roots, hheap⟩ := enter_ok (m := { m₀ with heap }) ht hidle.stack_eq
    hidle.frames_eq hcell harity
  obtain rfl : m' = m := congrArg Prod.snd ((load_started hcompile henter).symm.trans hload)
  refine ⟨m', hload, hstable, ?_, ?_, fun g hg => ?_⟩
  · rw [hframes]
    rfl
  · unfold script?
    rw [hframes]
    rfl
  · have hold : heap.Old .function m'.heap := by
      rw [hheap]
      exact .allocates (Heap.alloc_allocates ht roots _) (by simp [Object.kind])
    cases (hold.function hg).symm.trans (Heap.function_eq_ok_iff.2 ⟨bytes, hcell⟩)
    exact hname

end Machine

open Machine in
/-- **Traces are exact.** In the execution of a source that compiles, every failure is a runtime error. The
interpretation ends with it and with a trace, which has a line for every active call, 64 at most. The first
line is that of the instruction that failed, all bytes of which are recorded for it. The others are those of
the call instructions that are in progress, from the innermost one to that of the script. -/
theorem run_traces (config : GcConfig) (keeps : Option Level) (sink : Sink) (clock : Nat → Number)
    (source : String) {h : Handle} {heap : Heap}
    (hcompile : compile source (create { config, journal := { keeps } } sink clock).heap
      (.mk fun _ => (create { config, journal := { keeps } } sink clock).roots) = (.ok h, heap)) :
    ∃ m₀, (create { config, journal := { keeps } } sink clock).load source = (none, m₀) ∧
      ∀ fuel why m', m₀.run fuel = .failed why m' → ∃ e trace n m, why = .error e ∧
        (create { config, journal := { keeps } } sink clock).interpret source fuel =
          (.aborted e trace, m'.reset) ∧
        m₀.run n = .running m ∧ m.step = .error (.error e) m' ∧ m₀.Explains m m' h trace := by
  obtain ⟨m₀, hload, hstable, hone, hscript, hname⟩ := load_script config { keeps } sink clock hcompile
  refine ⟨m₀, hload, fun fuel why m' hfailed => ?_⟩
  obtain ⟨n, -, m, hrun, hstep⟩ := run_failed_inv hfailed
  obtain ⟨⟨e, rfl, huser⟩, live, hsafe⟩ := (Run.execute_meets (hstable.running hrun)).of_error hstep
  obtain ⟨trace, htrace⟩ := hsafe.trace_ok
  have hran : ∃ clean, Ran clean m₀ := by
    have h := (Ran.create config keeps sink clock).load source
    rw [hload] at h
    exact h.elim (fun h => ⟨_, h⟩) fun h => ⟨_, h.1⟩
  obtain ⟨clean, hran⟩ := hran
  refine ⟨e, trace, n, m, rfl, ?_, hrun, hstep, hran.explains hstable hone hscript hname hrun hstep huser htrace⟩
  unfold interpret resume
  rw [hload]
  dsimp only
  rw [hfailed]
  simp only [abort, htrace]

/-- The trace of a report. -/
def Report.trace : Report → List TraceLine
  | .aborted _ trace => trace
  | _ => []

/-- The operand in the function is not a number. -/
theorem run_traces_function : ∃ source h heap m₀ e trace n m m',
    source = "fun f() \x7b\n  return -nil;\n\x7d\nf();" ∧
    compile source (Machine.create {}).heap (.mk fun _ => (Machine.create {}).roots) = (.ok h, heap) ∧
    (Machine.create {}).load source = (none, m₀) ∧
    (Machine.create {}).interpret source 20 = (.aborted e trace, m'.reset) ∧
    m₀.run n = .running m ∧ m.step = .error (.error e) m' ∧ m₀.Explains m m' h trace ∧
    trace = [⟨2, some "f"⟩, ⟨4, none⟩] := by
  generalize hs : "fun f() \x7b\n  return -nil;\n\x7d\nf();" = source
  have hresult : (compile source (Machine.create {}).heap
      (.mk fun _ => (Machine.create {}).roots)).1.toOption.isSome = true := by
    subst hs
    decide +kernel
  have hfails : (((Machine.create {}).load source).2.run 20).hasFailed = true := by
    subst hs
    decide +kernel
  have htrace : ((Machine.create {}).interpret source 20).1.trace = [⟨2, some "f"⟩, ⟨4, none⟩] := by
    subst hs
    decide +kernel
  rcases hcompile : compile source (Machine.create {}).heap (.mk fun _ => (Machine.create {}).roots)
    with ⟨_ | h, heap⟩
  · rw [hcompile] at hresult
    cases hresult
  · obtain ⟨m₀, hload, hexplains⟩ := run_traces {} none {} (fun _ => ⟨0⟩) source hcompile
    rw [show ((Machine.create {}).load source).2 = m₀ from congrArg Prod.snd hload] at hfails
    cases hrun : m₀.run 20 with
    | failed why m' =>
      obtain ⟨e, trace, n, m, -, hinterpret, hreached, hstep, h⟩ := hexplains 20 why m' hrun
      rw [show (Machine.create {}).interpret source 20 = _ from hinterpret] at htrace
      exact ⟨source, _, heap, m₀, e, trace, n, m, m', rfl, hcompile, hload, hinterpret, hreached, hstep, h, htrace⟩
    | _ =>
      rw [hrun] at hfails
      cases hfails

end LoxMachine
