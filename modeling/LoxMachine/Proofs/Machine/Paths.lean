import LoxMachine.Proofs.Machine.Traces

/-!
# Where control goes

* `Machine.Moves m m'`: where a step leads the calls to, and how many values there are then. The innermost call
  goes on at a successor of its instruction, or begins another call, or returns.
* `execute_moves`: every step from a stable state does one of these.
-/

namespace LoxMachine

variable {live : Handle → Prop} {k k' : Call} {outer : List Call} {marks below : Shape} {n n' d t : Nat}
  {m m₁ m' : Machine} {op : Opcode} {args bytes : List UInt8} {i : Instruction} {done : Bool}

namespace Machine

/-- Where a step leads the calls to, and how many values there are then. -/
inductive Moves (m m' : Machine) : Bool → Prop
  | inside {f : Frame} {rest : List Frame} {g : Function} {i : Instruction} {t d : Nat}
      (before : m.frames = f :: rest) (function : m.heap.function f.function = .ok g)
      (instruction : g.instructionAt? m.heap f.ip = some i)
      (goes : ((t : Int), d) ∈ i.successors f.ip (m.stack.size - f.base))
      (after : m'.frames = { f with ip := t } :: rest) (size : m'.stack.size = f.base + d) : Moves m m' false
  | called {f callee : Frame} {rest : List Frame} {g h : Function} {i : Instruction}
      (before : m.frames = f :: rest) (function : m.heap.function f.function = .ok g)
      (instruction : g.instructionAt? m.heap f.ip = some i) (calls : i.op.calls = true)
      (after : m'.frames = callee :: { f with ip := f.ip + i.size } :: rest)
      (entered : m'.heap.function callee.function = .ok h) (arity : h.arity = i.count) (start : callee.ip = 0)
      (base : callee.base + i.op.pops i.count = m.stack.size)
      (size : m'.stack.size = callee.base + (i.count + 1))
      (clear : ∀ u ∈ m'.openUpvalues, ∀ p, m'.heap.OnStack u p → p < callee.base) : Moves m m' false
  | returned {f : Frame} {rest : List Frame} {g : Function} (before : m.frames = f :: rest)
      (function : m.heap.function f.function = .ok g)
      (instruction : g.instructionAt? m.heap f.ip = some ⟨.ret, []⟩)
      (after : m'.frames = rest) (size : m'.stack.size = f.base + 1) : Moves m m' false
  | ended {f : Frame} {g : Function} (before : m.frames = [f]) (function : m.heap.function f.function = .ok g)
      (instruction : g.instructionAt? m.heap f.ip = some ⟨.ret, []⟩) : Moves m m' true

/-- The innermost call is at an instruction that is checked. -/
structure Sits (m : Machine) (k : Call) (outer : List Call) (i : Instruction) : Prop where
  frames : m.frames = k.frame :: outer.map Call.frame
  function : m.heap.function k.frame.function = .ok k.function
  height : m.stack.size - k.frame.base = k.shape.length
  checks : Checks m.heap k.function k.layout k.frame.ip k.shape i

theorem Ready.height (h : m.Ready live k outer below) : m.stack.size = k.frame.base + k.shape.length := by
  rw [h.size_eq, h.base, List.length_append, Nat.add_comm]

theorem Ready.sits (h : m.Ready live k outer below)
    (hc : Checks m.heap k.function k.layout k.frame.ip k.shape i) : m.Sits k outer i := by
  obtain ⟨size, hcell⟩ := (h.known k List.mem_cons_self).function
  refine ⟨h.frames_eq, Heap.function_eq_ok_iff.2 ⟨size, hcell⟩, ?_, hc⟩
  rw [h.height]
  omega

/-- The instruction has led to another offset. -/
theorem Sits.inside (h : m.Sits k outer i) (hd : m'.Done (k.goto t) outer marks n)
    (hgoes : ((t : Int), d) ∈ i.successors k.frame.ip k.shape.length) (hn : n = k.frame.base + d) :
    m.Moves m' false := by
  obtain ⟨live, hd⟩ := hd
  exact .inside h.frames h.function h.checks.read (h.height ▸ hgoes) hd.frames_eq (hd.size_eq.trans hn)

/-- The instruction has called, or has ended at once. -/
theorem Sits.called (h : m.Sits k outer i) (hcalls : i.op.calls = true)
    (hd : m'.Called (k.skip i.size) outer marks n i.count)
    (hgoes : (((k.frame.ip + i.size : Nat) : Int), d) ∈ i.successors k.frame.ip k.shape.length)
    (hn : n + 1 = k.frame.base + d) (hsize : n + i.op.pops i.count = m.stack.size) (hmarks : marks.length ≤ n) :
    m.Moves m' false := by
  rcases hd with hd | ⟨live, k', hbusy, hbegins⟩
  · exact h.inside hd hgoes hn
  · obtain ⟨bytes, hcell⟩ := (hbusy.known k' List.mem_cons_self).function
    have hbase := hbegins.base
    refine .called h.frames h.function h.checks.read hcalls hbusy.frames_eq (Heap.function_eq_ok_iff.2 ⟨bytes, hcell⟩)
      hbegins.arity hbegins.ip (hbase ▸ hsize) ?_ fun u hu p hp => ?_
    · rw [hbusy.size_eq, hbase]
      omega
    · rw [hbase]
      exact (Shape.lt_length_of_slot? (hbusy.marked u hu p hp)).trans_le hmarks

end Machine

namespace Run

/-- Operations without jumps. -/
theorem perform_plain_moves (h : m.Ready live k outer below)
    (h₁ : m₁.Busy live (k.skip 1) outer (k.shape ++ below) (k.shape ++ below).length)
    (hb : k.Reads (op.toByte :: args)) (hoperand : k.pool.Operand op k.shape args n)
    (henough : op.needs n ≤ k.shape.length)
    (hclear : op ≠ .closeUpvalue → ∀ b ∈ k.shape.take (op.pops n), b = false)
    (hsits : m.Sits k outer ⟨op, args⟩) (hm : perform op m₁ = .ok done m') : m.Moves m' done := by
  have hsize := h.height
  have hpops := (op.pops_le_needs n).trans henough
  have hcount := hoperand.count
  have hgoes : (((k.frame.ip + (1 + args.length) : Nat) : Int), k.shape.length - op.pops n + op.pushes) ∈
      Instruction.successors ⟨op, args⟩ k.frame.ip k.shape.length := by
    rw [hoperand.successors, List.mem_singleton]
    rfl
  by_cases hclose : op = .closeUpvalue
  · subst hclose
    obtain ⟨b, s, hs⟩ := List.exists_cons_of_length_pos (Nat.lt_of_lt_of_le Nat.one_pos henough)
    obtain ⟨rfl, rfl⟩ : args = [] ∧ n = 0 := by simpa [Opcode.operands] using operand_cases hoperand
    rw [hs, List.cons_append, List.length_cons] at h₁
    obtain ⟨rfl, hd⟩ := (continues (closeTop_meets h₁ rfl)).ok hm
    refine hsits.inside (t := k.frame.ip + 1) hd hgoes ?_
    rw [hs, List.length_append, h.base]
    simp only [List.length_cons, Opcode.pops, Opcode.pushes]
    omega
  -- the values that are popped are on top of `kept`
  set kept := k.shape.drop (op.pops n) ++ below with hkept
  have hbelow := h.base
  have hlength : kept.length = k.frame.base + (k.shape.length - op.pops n) := by
    rw [hkept, List.length_append, List.length_drop]
    omega
  have hbusy : m₁.Busy live (k.skip 1) outer kept (kept.length + op.pops n) := by
    have hall : kept.length + op.pops n = (k.shape ++ below).length := by
      rw [hlength, hbelow, List.length_append]
      omega
    rw [hall]
    refine h₁.marks_mono fun i hi => ?_
    rw [← List.take_append_drop (op.pops n) k.shape, List.append_assoc] at hi
    exact slot?_of_clear (hclear hclose) hi
  obtain ⟨rfl, hcomes⟩ := (perform_plain hclose hbusy le_rfl hb.tail hoperand (by omega)
    (by rw [Call.skip_base]; omega)).ok hm
  rw [Call.skip_skip] at hcomes
  rcases hcomes with hd | ⟨hcalls, hd⟩
  · exact hsits.inside (t := k.frame.ip + (1 + args.length)) hd hgoes (by omega)
  · rw [Opcode.pushes_of_calls hcalls] at hgoes
    refine hsits.called (i := ⟨op, args⟩) (n := kept.length) hcalls (hcount.symm ▸ hd) hgoes (by omega) ?_ le_rfl
    change kept.length + op.pops (Instruction.count ⟨op, args⟩) = _
    rw [hcount]
    omega

/-- **One instruction.** Its opcode has been read. -/
theorem perform_moves (h : m.Ready live k outer below)
    (hfits : Fits (k.function.pool m.heap) k.function.chunk.code k.layout k.frame.ip k.shape) :
    ∃ op args, k.Reads (op.toByte :: args) ∧ ∀ (m₁ m' : Machine) (done : Bool),
      m₁.Busy live (k.skip 1) outer (k.shape ++ below) (k.shape ++ below).length →
        perform op m₁ = .ok done m' → m.Moves m' done := by
  have hpool := (h.known k List.mem_cons_self).pool
  have hsize := h.height
  obtain ⟨bytes, hb, hspan, hgoes⟩ := hfits
  cases hgoes with
  | @plain op args n operand enough clear next =>
    have hc := checks_plain hb (by rwa [Nat.add_comm]) operand enough next
    exact ⟨op, args, hb, fun m₁ m' done h₁ hm =>
      perform_plain_moves h h₁ hb (hpool ▸ operand) enough clear (h.sits hc) hm⟩
  | ret clear =>
    obtain ⟨s, hs⟩ := List.head?_eq_some_iff.1 clear
    have hread : k.function.instructionAt? m.heap k.frame.ip = some ⟨.ret, []⟩ :=
      instructionAt?_of_holds hb rfl hspan.inside
    obtain ⟨size, hcell⟩ := (h.known k List.mem_cons_self).function
    have hfunction := Heap.function_eq_ok_iff.2 ⟨size, hcell⟩
    refine ⟨.ret, [], hb, fun m₁ m' done h₁ hm => ?_⟩
    have hbottom : outer = [] → below = [] := by
      rintro rfl
      cases h.nest
      rfl
    rcases (ret_meets h₁ clear h.base hbottom).ok hm with ⟨rfl, rfl, -⟩ | ⟨rfl, k', rest, rfl, live', hd⟩
    · exact .ended h.frames_eq hfunction hread
    · exact .returned h.frames_eq hfunction hread hd.frames_eq (by rw [hd.size_eq, h.base])
  | @jump high low target =>
    have hc : Checks m.heap k.function k.layout k.frame.ip k.shape ⟨.jump, [high, low]⟩ :=
      checks_jump (.inl rfl) hb hspan (Nat.zero_le _) (fun t ht => ⟨_, List.mem_singleton.1 ht, target⟩) (by simp)
    refine ⟨.jump, [high, low], hb, fun m₁ m' done h₁ hm => ?_⟩
    obtain ⟨rfl, hd⟩ := (continues (jump_meets h₁ hb.tail)).ok hm
    rw [Call.skip_skip] at hd
    refine (h.sits hc).inside (t := k.frame.ip + (1 + (2 + distance high low))) hd (d := k.shape.length) ?_
      (by rw [← hsize, h.size_eq])
    simp only [Instruction.successors, Instruction.targets, List.map_cons, List.map_nil, List.mem_singleton,
      Prod.mk.injEq, and_true]
    omega
  | @jumpIfFalse high low enough next target =>
    have hc : Checks m.heap k.function k.layout k.frame.ip k.shape ⟨.jumpIfFalse, [high, low]⟩ :=
      checks_jump (.inl rfl) hb hspan enough (fun t ht => ⟨_, List.mem_singleton.1 ht, target⟩) fun _ => next
    refine ⟨.jumpIfFalse, [high, low], hb, fun m₁ m' done h₁ hm => ?_⟩
    obtain ⟨rfl, hd⟩ := (continues (jumpIfFalse_meets h₁ (by simp; omega) hb.tail)).ok hm
    simp only [Call.skip_skip] at hd
    rcases hd with hd | hd
    · refine (h.sits hc).inside (t := k.frame.ip + (1 + 2)) hd (d := k.shape.length) ?_ (by rw [← hsize, h.size_eq])
      exact List.mem_cons_self
    · refine (h.sits hc).inside (t := k.frame.ip + (1 + (2 + distance high low))) hd (d := k.shape.length) ?_
        (by rw [← hsize, h.size_eq])
      simp only [Instruction.successors, Instruction.targets, List.map_cons, List.map_nil, List.mem_cons,
        Prod.mk.injEq, and_true, List.not_mem_nil, or_false]
      right
      omega
  | @loop high low t back target =>
    have hc : Checks m.heap k.function k.layout k.frame.ip k.shape ⟨.loop, [high, low]⟩ :=
      checks_jump (.inr rfl) hb hspan (Nat.zero_le _)
        (fun t' ht => ⟨t, by rw [List.mem_singleton.1 ht]; omega, target⟩) (by simp)
    refine ⟨.loop, [high, low], hb, fun m₁ m' done h₁ hm => ?_⟩
    have hback : t + distance high low = (k.skip 1).frame.ip + 2 := by
      rw [Call.skip_ip]
      omega
    obtain ⟨rfl, hd⟩ := (continues (jumpBack_meets h₁ hb.tail hback)).ok hm
    rw [Call.skip_goto] at hd
    refine (h.sits hc).inside hd (d := k.shape.length) ?_ (by rw [← hsize, h.size_eq])
    simp only [Instruction.successors, Instruction.targets, List.map_cons, List.map_nil, List.mem_singleton,
      Prod.mk.injEq, and_true]
    omega
  | @closure i captures s' constant shape captured next =>
    have hc := checks_closure hb (by rwa [Nat.add_comm]) constant shape captured next
    refine ⟨.closure, i :: captures.flatMap Capture.bytes, hb, fun m₁ m' done h₁ hm => ?_⟩
    obtain ⟨rfl, hd⟩ := (continues (makeClosure_meets (busy_marked h₁ shape) hb.tail (hpool ▸ constant)
      (offers_captured h.base (hpool ▸ captured)))).ok hm
    rw [Call.skip_skip] at hd
    refine (h.sits hc).inside (t := k.frame.ip + (1 + (1 + (captures.flatMap Capture.bytes).length))) hd
      (d := k.shape.length + 1) ?_ (by rw [← h.size_eq, hsize]; omega)
    rw [show k.shape.length + 1 = k.shape.length - 0 + 1 from rfl]
    refine List.mem_singleton.2 (Prod.ext ?_ rfl)
    simp only [Instruction.size, List.length_cons]
    omega

/-- **One step.** -/
theorem execute_moves (h : m.Stable) (hm : execute m = .ok done m') : m.Moves m' done := by
  obtain ⟨live, k, outer, below, h⟩ := h
  have hfits := h.fitted
  rw [← (h.known k List.mem_cons_self).pool] at hfits
  obtain ⟨op, args, hb, hperform⟩ := perform_moves h hfits
  have hrest : ∀ m₁ : Machine, m₁.Busy live k outer (k.shape ++ below) (k.shape ++ below).length →
      (do perform (← readOpcode)) m₁ = .ok done m' → m.Moves m' done := by
    intro m₁ h₁ hm
    obtain ⟨op', m₂, hread, hm⟩ := bind_ok hm
    obtain ⟨rfl, h₂⟩ := (readOpcode_meets h₁ hb).ok hread
    exact hperform m₂ m' done h₂ hm
  unfold execute at hm
  rw [get_bind] at hm
  split at hm
  · obtain ⟨_, m₁, hreport, hm⟩ := bind_ok hm
    exact hrest m₁ ((report_meets h.toBusy).ok hreport) hm
  · exact hrest m h.toBusy hm

end Run

end LoxMachine
