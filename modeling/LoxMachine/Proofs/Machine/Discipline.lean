import LoxMachine.Proofs.Machine.Digging

/-!
# Calls and returns

* `Machine.Stepped m m'`: what a step does to the calls and to the slots below the running one. It stays
  inside of the call, begins another one, or returns.
* `execute_stepped`: every step from a stable state does one of these.
* `Machine.Lasts depth m m'`: from `m` the machine comes to `m'` while at least `depth` calls are active.
* `run_disciplined`: in the execution of a source that compiles, whatever a call does, the slots below it
  change only where a captured variable is assigned that is still there, and on its return they are
  followed by the result alone.
-/

namespace LoxMachine

variable {live : Handle → Prop} {k : Call} {outer : List Call} {marks below : Shape} {n : Nat}
  {m m₁ m' : Machine}

/-- The calls around a call have lower slots. -/
theorem Nest.base_le {ks : List Call} (h : Nest ks below) : ∀ c ∈ ks, c.frame.base ≤ below.length := by
  induction h with
  | nil => simp
  | @cons k ks below laid leads base rest ih =>
    intro c hc
    rw [List.length_append]
    rcases List.mem_cons.1 hc with rfl | hc
    · omega
    · have := ih c hc
      omega

/-! ## What a step does -/

/-- The bytes of an instruction that calls something with `count` arguments. -/
inductive CallBytes (count : UInt8) : List UInt8 → Prop
  | call : CallBytes count [Opcode.call.toByte, count]
  | invoke (name : UInt8) : CallBytes count [Opcode.invoke.toByte, name, count]
  | superInvoke (name : UInt8) : CallBytes count [Opcode.superInvoke.toByte, name, count]

namespace Machine

/-- The innermost call goes on with the given bytes. -/
def GoesOn (m : Machine) (f : Frame) (bytes : List UInt8) : Prop :=
  ∃ g, m.heap.function f.function = .ok g ∧ Holds g.chunk.code f.ip bytes

/-- The next instruction assigns to a captured variable of the running closure which is in slot `p`
still. -/
inductive AssignsOpen (m : Machine) (p : Nat) : Prop
  | intro {f : Frame} {rest : List Frame} {c : Closure} {i : UInt8} {u : Handle}
      (frames : m.frames = f :: rest) (code : m.GoesOn f [Opcode.setUpvalue.toByte, i])
      (closure : m.heap.closure f.closure = .ok c) (captured : c.upvalues[i.toNat]? = some u)
      (opened : u ∈ m.openUpvalues) (place : m.heap.upvalue u = .ok (.stacked p))

/-- The value of a slot is kept, or assigned through a captured variable. -/
def KeepsSlot (m m' : Machine) (p : Nat) : Prop :=
  m'.stack[p]? = m.stack[p]? ∨ m.AssignsOpen p ∧ m'.stack[p]? = m.stack.back?

/-- The innermost call has ended: its slots have given way to the value that was on top. -/
structure Returned (m m' : Machine) (base : Nat) : Prop where
  stack : ∃ result, m.stack.back? = some result ∧ m'.stack.toList = m.stack.toList.take base ++ [result]
  opened : ∀ u ∈ m'.openUpvalues, ∃ slot < base, m'.heap.upvalue u = .ok (.stacked slot)

/-- What a step does to the calls and to the slots below the innermost one. -/
inductive Stepped (m m' : Machine) : Bool → Prop
  | inside {f f' : Frame} {rest : List Frame} (before : m.frames = f :: rest)
      (after : m'.frames = f' :: rest) (base : f'.base = f.base)
      (kept : ∀ p < f.base, m.KeepsSlot m' p) : Stepped m m' false
  | called {f f' : Frame} {rest : List Frame} {count : UInt8} {bytes : List UInt8}
      (before : m.frames = f :: rest) (calls : CallBytes count bytes) (code : m.GoesOn f bytes)
      (after : m'.frames = f' :: { f with ip := f.ip + bytes.length } :: rest)
      (base : f.base ≤ f'.base) (size : m'.stack.size = f'.base + 1 + count.toNat)
      (kept : m.SameBelow f'.base m') : Stepped m m' false
  | returned {f : Frame} {rest : List Frame} (before : m.frames = f :: rest)
      (after : m'.frames = rest) (done : m.Returned m' f.base) : Stepped m m' false
  | ended {f : Frame} (before : m.frames = [f]) : Stepped m m' true

/-- An opcode has been fetched, and perhaps reported. -/
structure Fetched (m m₁ : Machine) : Prop where
  stack : m₁.stack = m.stack
  opened : m₁.openUpvalues = m.openUpvalues
  cells : ∀ x, m₁.heap.cell? x = m.heap.cell? x

end Machine

namespace Run

variable {α : Type}

theorem Meets.ok {x : Run α} {a : α} {Q : α → Machine → Prop} (h : Meets x m Q)
    (hx : x m = .ok a m') : Q a m' := Ends.of_ok h hx

/-! ## Assignments -/

theorem look_inv {q : Heap → Except Fault α} {a : α} (h : look q m = .ok a m') :
    q m.heap = .ok a ∧ m' = m := by
  cases hq : q m.heap with
  | ok b =>
    rw [look_ok hq] at h
    cases h
    exact ⟨rfl, rfl⟩
  | error e =>
    rw [look_error hq] at h
    cases h

theorem peek_zero_inv {v : Value} (h : peek 0 m = .ok v m') : m.stack.back? = some v ∧ m' = m := by
  unfold peek below at h
  obtain ⟨i, m₁, hi, hslot⟩ := bind_ok h
  rw [get_bind] at hi
  split at hi
  · cases hi
    rw [Cellular.slot_eq] at hslot
    split at hslot
    · rename_i hv
      cases hslot
      exact ⟨by rw [Array.back?_eq_getElem?]; exact hv, rfl⟩
    · cases hslot
  · cases hi

theorem setSlot_inv {i : Nat} {v : Value} (h : setSlot i v m = .ok () m') :
    i < m.stack.size ∧ m' = { m with stack := put m.stack i v } := by
  rw [Cellular.setSlot_eq] at h
  split at h
  · rename_i hlt
    cases h
    exact ⟨hlt, rfl⟩
  · cases h

/-- A variable of the running call is assigned. -/
theorem setLocal_spares {b : UInt8} (h : m.Busy live k outer marks n) (hb : k.Reads [b])
    (hm : setLocal m = .ok () m') : m.SameBelow k.frame.base m' := by
  unfold setLocal at hm
  obtain ⟨b', m₁, hread, hm⟩ := bind_ok hm
  obtain ⟨rfl, h₁, -⟩ := (readByte_meets h hb).ok hread
  obtain ⟨f, m₂, hframe, hm⟩ := bind_ok hm
  obtain ⟨rfl, rfl⟩ := (frame_meets h₁).ok hframe
  obtain ⟨v, m₃, hpeek, hset⟩ := bind_ok hm
  refine Machine.SameBelow.trans (.of_eq ((Still.same hpeek).trans (Still.same hread))) fun p hp => ?_
  obtain ⟨-, rfl⟩ := setSlot_inv hset
  refine getElem?_put_ne _ _ ?_
  change k.frame.base + b'.toNat ≠ p
  omega

theorem frameUpvalue_inv {b : UInt8} {u : Handle} {f : Frame} {rest : List Frame}
    (hf : m.frames = f :: rest) (h : frameUpvalue b m = .ok u m') :
    ∃ c, m.heap.closure f.closure = .ok c ∧ c.upvalues[b.toNat]? = some u := by
  unfold frameUpvalue at h
  obtain ⟨f', m₁, hframe, hc⟩ := bind_ok h
  rw [frame_ok hf] at hframe
  cases hframe
  obtain ⟨c, m₂, hclosure, hget⟩ := bind_ok hc
  obtain ⟨hclosure, -⟩ := look_inv hclosure
  refine ⟨c, hclosure, ?_⟩
  cases hu : c.upvalues[b.toNat]? with
  | none =>
    rw [hu] at hget
    cases hget
  | some u' =>
    rw [hu] at hget
    cases hget
    rfl

/-- **A captured variable is assigned**, on the stack or off it. -/
theorem setUpvalue_assigns {b : UInt8} (h : m.Busy live k outer marks n) (hb : k.Reads [b])
    (hi : b.toNat < k.pool.upvalues) (hm : setUpvalue m = .ok () m') :
    m'.stack = m.stack ∨ ∃ c u p, m.heap.closure k.frame.closure = .ok c ∧
      c.upvalues[b.toNat]? = some u ∧ u ∈ m.openUpvalues ∧ m.heap.upvalue u = .ok (.stacked p) ∧
      m'.stack[p]? = m.stack.back? ∧ ∀ q ≠ p, m'.stack[q]? = m.stack[q]? := by
  unfold setUpvalue at hm
  obtain ⟨b', m₁, hread, hm₁⟩ := bind_ok hm
  obtain ⟨rfl, h₁, -⟩ := (readByte_meets h hb).ok hread
  obtain ⟨hheap, hstack, hopen⟩ := Reading.same hread
  obtain ⟨u, m₂, hu, hm₂⟩ := bind_ok hm₁
  obtain ⟨rfl, hretains⟩ := (frameUpvalue_meets h₁ hi).ok hu
  obtain ⟨c, hclosure, hget⟩ := frameUpvalue_inv h₁.frames_eq hu
  obtain ⟨v, m₃, hpeek, hm₃⟩ := bind_ok hm₂
  obtain ⟨hv, rfl⟩ := peek_zero_inv hpeek
  obtain ⟨up, m₄, hlook, hset⟩ := bind_ok hm₃
  obtain ⟨hup, rfl⟩ := look_inv hlook
  cases up with
  | closed old => exact .inl ((Still.same hset).trans hstack)
  | stacked p =>
    obtain ⟨hlt, rfl⟩ := setSlot_inv hset
    refine .inr ⟨c, u, p, hheap ▸ hclosure, hget,
      hopen ▸ hretains.opened p (Machine.upvalue_eq_stacked hup), hheap ▸ hup, ?_, fun q hq => ?_⟩
    · rw [← hstack, hv]
      exact getElem?_put_self v hlt
    · rw [← hstack]
      exact getElem?_put_ne _ v hq.symm

/-! ## Calls -/

/-- The callee and its arguments are all that a call changes. -/
theorem callInstruction_spares {b : UInt8} (h : m.Busy live k outer marks (n + (b.toNat + 1)))
    (hb : k.Reads [b]) (hm : callInstruction m = .ok () m') : m.SameBelow n m' := by
  unfold callInstruction at hm
  obtain ⟨b', m₁, hread, hm⟩ := bind_ok hm
  obtain ⟨rfl, h₁, -⟩ := (readByte_meets h hb).ok hread
  have hdigs : Digs (b'.toNat + 1) 1 (do callValue (← peek b'.toNat) b'.toNat) :=
    .after fun v => callValue_digs v _
  exact Machine.SameBelow.trans (.of_eq (Still.same hread)) (hdigs.digs h₁.size_eq.ge hm).1

theorem invoke_spares {i b : UInt8} (h : m.Busy live k outer marks (n + (b.toNat + 1)))
    (hb : k.Reads [i, b]) (hi : k.pool.constants[i.toNat]? = some .string)
    (hm : invoke m = .ok () m') : m.SameBelow n m' := by
  unfold invoke at hm
  obtain ⟨name, m₁, hname, hm⟩ := bind_ok hm
  obtain ⟨-, -, h₁⟩ := (readName_meets h hb hi).ok hname
  obtain ⟨b', m₂, hread, hm⟩ := bind_ok hm
  obtain ⟨rfl, h₂, -⟩ := (readByte_meets h₁ hb.tail).ok hread
  refine Machine.SameBelow.trans (.of_eq ((Still.same hread).trans (Still.same hname)))
    (Digs.digs (e := 1) (.after fun v => .after fun target => .after fun found => ?_)
      h₂.size_eq.ge hm).1
  obtain ⟨_ | v, cls⟩ := found
  · exact .after fun method => (Digs.still _).weaken (Nat.succ_le_succ (Nat.zero_le _))
  · exact (poke_digs v (Nat.lt_succ_self _)).bind fun _ => callValue_digs v _

theorem superInvoke_spares {i b : UInt8} (h : m.Busy live k outer marks (n + (b.toNat + 2)))
    (hb : k.Reads [i, b]) (hi : k.pool.constants[i.toNat]? = some .string)
    (hm : superInvoke m = .ok () m') : m.SameBelow n m' := by
  unfold superInvoke at hm
  obtain ⟨name, m₁, hname, hm⟩ := bind_ok hm
  obtain ⟨-, -, h₁⟩ := (readName_meets h hb hi).ok hname
  obtain ⟨b', m₂, hread, hm⟩ := bind_ok hm
  obtain ⟨rfl, h₂, -⟩ := (readByte_meets h₁ hb.tail).ok hread
  have hdigs : Digs (b'.toNat + 2) (b'.toNat + 1) (do invokeFromClass (← popClass) name b'.toNat) :=
    (pop_digs.bind fun v => .still _).bind fun cls => .after fun method => .still _
  exact Machine.SameBelow.trans (.of_eq ((Still.same hread).trans (Still.same hname)))
    (hdigs.digs h₂.size_eq.ge hm).1

/-! ## Returning -/

/-- **A call ends.** What it had on the stack is replaced by the result, and no variable of it is open. -/
theorem ret_returned {s : Shape} (h : m.Busy live k outer (s ++ below) (s ++ below).length)
    (hclear : s.head? = some false) (hbase : k.frame.base = below.length)
    (hm : ret m = .ok false m') : m.Returned m' k.frame.base := by
  obtain ⟨s, rfl⟩ := List.head?_eq_some_iff.1 hclear
  have h : m.Busy live k outer (s ++ below) ((s ++ below).length + 1) :=
    h.marks_mono fun slot hs => slot?_of_clear (s := [false]) (by simp) hs
  unfold ret at hm
  obtain ⟨result, m₁, hpop, hm⟩ := bind_ok hm
  obtain ⟨-, h₁, -⟩ := (pop_meets h).ok hpop
  rw [Cellular.pop_eq] at hpop
  split at hpop
  · rename_i v hback
    cases hpop
    obtain ⟨f, m₂, hframe, hm⟩ := bind_ok hm
    obtain ⟨rfl, rfl⟩ := (frame_meets h₁).ok hframe
    obtain ⟨_, m₃, hframes, hm⟩ := bind_ok hm
    cases hframes
    obtain ⟨_, m₄, hclose, hm⟩ := bind_ok hm
    have hcloses : Meets (closeUpvalues k.frame.base) _ fun _ m' => Closes live k.frame.base _ m' :=
      .get (closeFrom_meets k.frame.base _ h₁.toSafe.tail rfl fun u hu slot hslot => by
        rw [h₁.size_eq]
        exact slot_lt h₁ le_rfl hu hslot)
    have hc := hcloses.ok hclose
    have hstack := Still.same hclose
    rw [get_bind] at hm
    split at hm
    · cases hm
    · obtain ⟨_, m₅, hdrop, hm⟩ := bind_ok hm
      cases hdrop
      obtain ⟨_, m₆, hpush, hm⟩ := bind_ok hm
      cases hm
      rw [Cellular.push_eq] at hpush
      split at hpush
      · cases hpush
      cases hpush
      refine ⟨⟨result, hback, ?_⟩, fun u hu => ?_⟩
      · have hsize : below.length < m.stack.toList.length := by
          change _ < m.stack.size
          rw [h.size_eq, List.length_append]
          omega
        change ((m₄.stack.shrink k.frame.base).push result).toList = _
        rw [Array.toList_push, Array.toList_shrink, hstack, hbase]
        change m.stack.pop.toList.take below.length ++ _ = _
        rw [Array.toList_pop, List.dropLast_eq_take, List.take_take, Nat.min_eq_left (by omega)]
      · obtain ⟨-, slot, hslot⟩ := hc.safe.opened u hu
        exact ⟨slot, ((hc.opened u hu).2 slot hslot).2, hslot.upvalue⟩
  · cases hpop

/-! ## Steps -/

end Run

namespace Machine

/-- The function of the innermost call is known. -/
theorem Ready.goesOn {bytes : List UInt8} (h : m.Ready live k outer below) (hb : k.Reads bytes) :
    m.GoesOn k.frame bytes := by
  obtain ⟨size, hcell⟩ := (h.known k List.mem_cons_self).function
  exact ⟨k.function, Heap.function_eq_ok_iff.2 ⟨size, hcell⟩, hb⟩

theorem Fetched.closure (h : m.Fetched m₁) {x : Handle} {c : Closure} (hc : m₁.heap.closure x = .ok c) :
    m.heap.closure x = .ok c := by
  obtain ⟨bytes, hcell⟩ := Heap.closure_eq_ok_iff.1 hc
  exact Heap.closure_eq_ok_iff.2 ⟨bytes, (h.cells x).symm.trans hcell⟩

theorem Fetched.stacked (h : m.Fetched m₁) {u : Handle} {p : Nat}
    (hu : m₁.heap.upvalue u = .ok (.stacked p)) : m.heap.upvalue u = .ok (.stacked p) :=
  ((upvalue_eq_stacked hu).congr (h.cells u).symm).upvalue

end Machine

namespace Run

theorem perform_unit {x : Run Unit} (h : (do x; return false : Run Bool) m = .ok false m') :
    x m = .ok () m' := by
  obtain ⟨_, m₁, hx, hpure⟩ := bind_ok h
  cases hpure
  exact hx

theorem needs_of_isSimple {op : Opcode} (h : isSimple op = true) (n : Nat) :
    op.needs n = op.needs 0 := by
  cases op <;> first | rfl | cases h

/-- A simple instruction stays inside of the call. -/
theorem stepped_of_done (op : Opcode) {k' : Call} {n' : Nat} (h : m.Ready live k outer below)
    (hf : m.Fetched m₁) (hop : isSimple op = true) (hneeds : op.needs 0 ≤ k.shape.length)
    {done : Bool} (hm : perform op m₁ = .ok done m') (hd : m'.Done k' outer marks n')
    (hbase : k'.frame.base = k.frame.base) : m.Stepped m' false := by
  obtain ⟨e, hdigs⟩ := perform_digs hop
  obtain ⟨live', hd⟩ := hd
  have hsize : k.frame.base + op.needs 0 ≤ m₁.stack.size := by
    rw [hf.stack, h.size_eq, h.base, List.length_append]
    omega
  refine .inside h.frames_eq hd.frames_eq hbase fun p hp => .inl ?_
  rw [(hdigs.digs hsize hm).1 p hp, hf.stack]

/-- An instruction that calls has called, or has ended at once. -/
theorem stepped_of_called {count : UInt8} {bytes : List UInt8} (h : m.Ready live k outer below)
    (hb : k.Reads bytes) (hcall : CallBytes count bytes) (hbase : k.frame.base ≤ n)
    (hsame : m.SameBelow n m') (hc : m'.Called (k.skip bytes.length) outer marks n count.toNat) :
    m.Stepped m' false := by
  rcases hc with ⟨live', hd⟩ | ⟨live', k', hbusy, hbegins⟩
  · exact .inside h.frames_eq hd.frames_eq rfl fun p hp => .inl (hsame p (by omega))
  · have hn := hbegins.base
    exact .called h.frames_eq hcall (h.goesOn hb) hbusy.frames_eq (hn ▸ hbase)
      (by rw [hbusy.size_eq, hn]) (hn ▸ hsame)

/-- The instructions that call leave what is below their callee. -/
theorem perform_call_spares {op : Opcode} {s : Shape} {args : List UInt8} {count : Nat} (hop : op.calls = true)
    (h : m.Busy live k outer marks (n + op.pops count)) (hb : k.Reads args)
    (hoperand : k.pool.Operand op s args count) (hm : perform op m = .ok false m') :
    m.SameBelow n m' ∧ ∃ b : UInt8, count = b.toNat ∧ CallBytes b (op.toByte :: args) := by
  have hcases := operand_cases hoperand
  unfold Pool.Operand at hoperand
  cases op with
  | call =>
    obtain ⟨b, rfl⟩ : ∃ b, args = [b] := by simpa [Opcode.operands] using hcases
    obtain rfl : count = b.toNat := hoperand
    exact ⟨callInstruction_spares h hb (perform_unit hm), b, rfl, .call⟩
  | invoke =>
    obtain ⟨i, b, rfl⟩ : ∃ i b, args = [i, b] := by simpa [Opcode.operands] using hcases
    obtain ⟨hi, rfl⟩ := hoperand
    exact ⟨invoke_spares h hb hi (perform_unit hm), b, rfl, .invoke i⟩
  | superInvoke =>
    obtain ⟨i, b, rfl⟩ : ∃ i b, args = [i, b] := by simpa [Opcode.operands] using hcases
    obtain ⟨hi, rfl⟩ := hoperand
    exact ⟨superInvoke_spares h hb hi (perform_unit hm), b, rfl, .superInvoke i⟩
  | _ => cases hop

/-- An assignment to a variable changes its slot only. -/
theorem perform_assigns {op : Opcode} {args : List UInt8} {count : Nat}
    (h : m.Ready live k outer below) (hf : m.Fetched m₁)
    (h₁ : m₁.Busy live (k.skip 1) outer marks n) (hb : k.Reads (op.toByte :: args))
    (hoperand : k.pool.Operand op k.shape args count) (hcalls : ¬op.calls = true)
    (hop : ¬isSimple op = true) (hm : perform op m₁ = .ok false m') :
    ∀ p < k.frame.base, m.KeepsSlot m' p := by
  intro p hp
  have hcases := operand_cases hoperand
  unfold Pool.Operand at hoperand
  cases op with
  | setLocal =>
    obtain ⟨b, rfl⟩ : ∃ b, args = [b] := by simpa [Opcode.operands] using hcases
    left
    rw [setLocal_spares h₁ hb.tail (perform_unit hm) p hp, hf.stack]
  | setUpvalue =>
    obtain ⟨b, rfl⟩ : ∃ b, args = [b] := by simpa [Opcode.operands] using hcases
    obtain ⟨hi, -⟩ := hoperand
    rcases setUpvalue_assigns h₁ hb.tail hi (perform_unit hm) with hsame |
      ⟨c, u, q, hclosure, hget, hopen, hplace, htop, hothers⟩
    · left
      rw [hsame, hf.stack]
    · rw [hf.stack] at htop hothers
      by_cases hpq : p = q
      · subst hpq
        exact .inr ⟨.intro h.frames_eq (h.goesOn hb) (hf.closure hclosure) hget (hf.opened ▸ hopen)
          (hf.stacked hplace), htop⟩
      · exact .inl (hothers p hpq)
  | ret => simp [Opcode.operands] at hcases
  | call | invoke | superInvoke => exact absurd rfl hcalls
  | _ => exact absurd rfl hop

/-- Operations without jumps. -/
theorem perform_plain_stepped {op : Opcode} {args : List UInt8} {n : Nat}
    (h : m.Ready live k outer below) (hf : m.Fetched m₁)
    (h₁ : m₁.Busy live (k.skip 1) outer (k.shape ++ below) (k.shape ++ below).length)
    (hb : k.Reads (op.toByte :: args)) (hoperand : k.pool.Operand op k.shape args n)
    (henough : op.needs n ≤ k.shape.length)
    (hclear : op ≠ .closeUpvalue → ∀ b ∈ k.shape.take (op.pops n), b = false)
    {done : Bool} (hm : perform op m₁ = .ok done m') : m.Stepped m' done := by
  by_cases hclose : op = .closeUpvalue
  · subst hclose
    obtain ⟨b, s, hs⟩ := List.exists_cons_of_length_pos (Nat.lt_of_lt_of_le Nat.one_pos henough)
    rw [hs, List.cons_append, List.length_cons] at h₁
    obtain ⟨rfl, hd⟩ := (continues (closeTop_meets h₁ rfl)).ok hm
    exact stepped_of_done .closeUpvalue h hf rfl henough hm hd rfl
  -- the values that are popped are on top of `kept`
  set kept := k.shape.drop (op.pops n) ++ below with hkept
  have hpops := (op.pops_le_needs n).trans henough
  have hlength : kept.length + op.pops n = (k.shape ++ below).length := by
    rw [hkept, List.length_append, List.length_append, List.length_drop]
    omega
  have hbusy : m₁.Busy live (k.skip 1) outer kept (kept.length + op.pops n) := by
    rw [hlength]
    refine h₁.marks_mono fun i hi => ?_
    rw [← List.take_append_drop (op.pops n) k.shape, List.append_assoc] at hi
    exact slot?_of_clear (hclear hclose) hi
  have hsize : (k.shape ++ below).length = k.shape.length + k.frame.base := by
    rw [List.length_append, h.base]
  obtain ⟨rfl, hcomes⟩ := (perform_plain hclose hbusy le_rfl hb.tail hoperand (by omega)
    (by rw [Call.skip_base]; omega)).ok hm
  rw [Call.skip_skip] at hcomes
  by_cases hcalls : op.calls = true
  · obtain ⟨hsame, b, rfl, hbytes⟩ := perform_call_spares hcalls hbusy hb.tail hoperand hm
    have hcalled : m'.Called (k.skip (op.toByte :: args).length) outer kept kept.length b.toNat := by
      rw [List.length_cons, Nat.add_comm]
      rcases hcomes with hd | ⟨-, hcalled⟩
      · rw [Opcode.pushes_of_calls hcalls] at hd
        exact .inl hd
      · exact hcalled
    exact stepped_of_called h hb hbytes (by omega) (.trans (.of_eq hf.stack) hsame) hcalled
  · obtain hd | ⟨hcalls', -⟩ := hcomes
    · by_cases hop : isSimple op = true
      · exact stepped_of_done _ h hf hop (needs_of_isSimple hop n ▸ henough) hm hd rfl
      · obtain ⟨live', hd⟩ := hd
        exact .inside h.frames_eq hd.frames_eq rfl
          (perform_assigns h hf h₁ hb hoperand hcalls hop hm)
    · exact absurd hcalls' hcalls

/-- **One instruction.** Its opcode has been read. -/
theorem perform_stepped {bytes : List UInt8} (h : m.Ready live k outer below) (hb : k.Reads bytes)
    (hgoes : Goes k.pool k.layout k.frame.ip k.shape bytes) :
    ∃ op args, bytes = op.toByte :: args ∧ ∀ (m₁ m' : Machine) (done : Bool), m.Fetched m₁ →
      m₁.Busy live (k.skip 1) outer (k.shape ++ below) (k.shape ++ below).length →
        perform op m₁ = .ok done m' → m.Stepped m' done := by
  cases hgoes with
  | @plain op args n operand enough clear next =>
    exact ⟨op, args, rfl, fun m₁ m' done hf h₁ hm =>
      perform_plain_stepped h hf h₁ hb operand enough clear hm⟩
  | ret clear =>
    refine ⟨.ret, [], rfl, fun m₁ m' done hf h₁ hm => ?_⟩
    have hbottom : outer = [] → below = [] := by
      rintro rfl
      cases h.nest
      rfl
    rcases (ret_meets h₁ clear h.base hbottom).ok hm with ⟨rfl, rfl, -⟩ | ⟨rfl, k', rest, rfl, live', hd⟩
    · exact .ended h.frames_eq
    · have hreturned := ret_returned h₁ clear h.base hm
      refine .returned h.frames_eq hd.frames_eq ⟨?_, hreturned.opened⟩
      rw [← hf.stack]
      exact hreturned.stack
  | @jump high low target =>
    refine ⟨.jump, [high, low], rfl, fun m₁ m' done hf h₁ hm => ?_⟩
    obtain ⟨rfl, hd⟩ := (continues (jump_meets h₁ hb.tail)).ok hm
    exact stepped_of_done _ h hf rfl (Nat.zero_le _) hm hd rfl
  | @jumpIfFalse high low enough next target =>
    refine ⟨.jumpIfFalse, [high, low], rfl, fun m₁ m' done hf h₁ hm => ?_⟩
    obtain ⟨rfl, hd⟩ := (continues (jumpIfFalse_meets h₁ (by simp; omega) hb.tail)).ok hm
    rcases hd with hd | hd
    · exact stepped_of_done .jumpIfFalse h hf rfl enough hm hd rfl
    · exact stepped_of_done .jumpIfFalse h hf rfl enough hm hd rfl
  | @loop high low t back target =>
    refine ⟨.loop, [high, low], rfl, fun m₁ m' done hf h₁ hm => ?_⟩
    have hback : t + distance high low = (k.skip 1).frame.ip + 2 := by
      rw [Call.skip_ip]
      omega
    obtain ⟨rfl, hd⟩ := (continues (jumpBack_meets h₁ hb.tail hback)).ok hm
    exact stepped_of_done _ h hf rfl (Nat.zero_le _) hm hd rfl
  | @closure i captures s' constant shape captured next =>
    refine ⟨.closure, i :: captures.flatMap Capture.bytes, rfl, fun m₁ m' done hf h₁ hm => ?_⟩
    obtain ⟨rfl, hd⟩ := (continues (makeClosure_meets (busy_marked h₁ shape) hb.tail constant
      (offers_captured h.base captured))).ok hm
    exact stepped_of_done _ h hf rfl (Nat.zero_le _) hm hd rfl

/-- **One step.** -/
theorem execute_stepped (h : m.Stable) {done : Bool} (hm : execute m = .ok done m') :
    m.Stepped m' done := by
  obtain ⟨live, k, outer, below, h⟩ := h
  obtain ⟨bytes, hb, hgoes⟩ := h.fits
  obtain ⟨op, args, rfl, hperform⟩ := perform_stepped h hb hgoes
  have hrest : ∀ m₁ : Machine, m.Fetched m₁ →
      m₁.Busy live k outer (k.shape ++ below) (k.shape ++ below).length →
        (do perform (← readOpcode)) m₁ = .ok done m' → m.Stepped m' done := by
    intro m₁ hf h₁ hm
    obtain ⟨op', m₂, hread, hm⟩ := bind_ok hm
    obtain ⟨rfl, h₂⟩ := (readOpcode_meets h₁ hb).ok hread
    obtain ⟨hheap, hstack, hopen⟩ := Reading.same hread
    exact hperform m₂ m' done ⟨hstack.trans hf.stack, hopen.trans hf.opened,
      fun x => by rw [hheap]; exact hf.cells x⟩ h₂ hm
  unfold execute at hm
  rw [get_bind] at hm
  split at hm
  · obtain ⟨_, m₁, hreport, hm⟩ := bind_ok hm
    obtain ⟨texts, text, hrecords⟩ := Cellular.report_records h.toBusy
    have h₁ := (report_meets h.toBusy).ok hreport
    rw [hrecords] at hreport
    cases hreport
    refine hrest _ ?_ h₁ hm
    exact ⟨rfl, rfl, by simp⟩
  · exact hrest m ⟨rfl, rfl, fun x => rfl⟩ h.toBusy hm

end Run

namespace Machine

variable {m'' : Machine}

/-! ## Activations -/

/-- The calls of a stable state have the slots above those around them. -/
theorem Stable.base_le (h : m.Stable) {f g : Frame} {rest : List Frame} (hf : m.frames = f :: rest)
    (hg : g ∈ m.frames) : g.base ≤ f.base := by
  obtain ⟨live, k, outer, below, h⟩ := h
  obtain ⟨rfl, -⟩ := List.cons.inj (hf.symm.trans h.frames_eq)
  rw [h.frames_eq] at hg
  rcases List.mem_cons.1 hg with rfl | hg
  · exact le_rfl
  · obtain ⟨c, hc, rfl⟩ := List.mem_map.1 hg
    rw [h.base]
    exact h.nest.base_le c hc

theorem Stable.base_le_size (h : m.Stable) {f : Frame} {rest : List Frame} (hf : m.frames = f :: rest) :
    f.base ≤ m.stack.size := by
  obtain ⟨live, k, outer, below, h⟩ := h
  obtain ⟨rfl, -⟩ := List.cons.inj (hf.symm.trans h.frames_eq)
  rw [h.size_eq, h.base, List.length_append]
  omega

/-- The slots below a call are there when it has ended. -/
theorem Returned.kept {base : Nat} (h : m.Returned m' base) (hbase : base ≤ m.stack.size) :
    m.SameBelow base m' := by
  obtain ⟨result, -, hstack⟩ := h.stack
  intro p hp
  have hlength : p < (m.stack.toList.take base).length := by
    rw [List.length_take, Array.length_toList]
    omega
  rw [← Array.getElem?_toList, hstack, List.getElem?_append_left hlength, List.getElem?_take, if_pos hp,
    Array.getElem?_toList]

/-- A step to which the machine goes on is from a stable state to a stable state. -/
theorem Stable.step (h : m.Stable) (hm : m.step = .ok false m') : m'.Stable :=
  (Run.execute_meets h).ok hm

/-- From `m` the machine comes to `m'`, with at least `depth` calls active all the time. -/
inductive Lasts (depth : Nat) (m : Machine) : Machine → Prop
  | refl : Lasts depth m m
  | step {m' m'' : Machine} (before : Lasts depth m m') (step : m'.step = .ok false m'')
      (active : depth ≤ m''.frames.length) : Lasts depth m m''

/-- A call with the given base is active on top of others. -/
def Active (m : Machine) (base : Nat) (rest : List Frame) : Prop :=
  ∃ inner f, m.frames = inner ++ f :: rest ∧ f.base = base

/-- **A step while a call is active** leaves what is below it, and the call active, or ends it. -/
theorem Active.step {base : Nat} {rest : List Frame} (ha : m.Active base rest) (hrest : rest ≠ [])
    (h : m.Stable) {done : Bool} (hm : m.step = .ok done m') :
    done = false ∧ (∀ p < base, m.KeepsSlot m' p) ∧
      (m'.Active base rest ∨ m'.frames = rest ∧ m.Returned m' base) := by
  obtain ⟨inner, f, hframes, rfl⟩ := ha
  have hmem : f ∈ m.frames := by
    rw [hframes]
    exact List.mem_append_right _ List.mem_cons_self
  cases Run.execute_stepped h hm with
  | @inside f₀ f₁ others before after hbase kept =>
    refine ⟨rfl, fun p hp => kept p (hp.trans_le (h.base_le before hmem)), .inl ?_⟩
    rw [before] at hframes
    cases inner with
    | nil =>
      obtain ⟨rfl, rfl⟩ := List.cons.inj hframes
      exact ⟨[], f₁, after, hbase⟩
    | cons g inner =>
      obtain ⟨-, rfl⟩ := List.cons.inj hframes
      exact ⟨f₁ :: inner, f, after, rfl⟩
  | @called f₀ f₁ others count bytes before calls code after hbase size kept =>
    have hle := (h.base_le before hmem).trans hbase
    refine ⟨rfl, fun p hp => .inl (kept p (hp.trans_le hle)), .inl ?_⟩
    rw [before] at hframes
    cases inner with
    | nil =>
      obtain ⟨rfl, rfl⟩ := List.cons.inj hframes
      exact ⟨[f₁], _, after, rfl⟩
    | cons g inner =>
      obtain ⟨-, rfl⟩ := List.cons.inj hframes
      exact ⟨f₁ :: _ :: inner, f, after, rfl⟩
  | @returned f₀ others before after done =>
    have hle := h.base_le before hmem
    refine ⟨rfl, fun p hp => .inl (done.kept (h.base_le_size before) p (hp.trans_le hle)), ?_⟩
    rw [before] at hframes
    cases inner with
    | nil =>
      obtain ⟨rfl, rfl⟩ := List.cons.inj hframes
      exact .inr ⟨after, done⟩
    | cons g inner =>
      obtain ⟨-, rfl⟩ := List.cons.inj hframes
      exact .inl ⟨inner, f, after, rfl⟩
  | ended before =>
    rw [before] at hframes
    cases inner with
    | nil => exact absurd (List.cons.inj hframes).2.symm hrest
    | cons g inner => exact absurd (List.cons.inj hframes).2 (by simp)

/-- A call is active as long as the number of calls says so. -/
theorem Active.lasts {base : Nat} {rest : List Frame} (ha : m.Active base rest) (hrest : rest ≠ [])
    (h : m.Stable) (hl : m.Lasts (rest.length + 1) m') : m'.Stable ∧ m'.Active base rest := by
  induction hl with
  | refl => exact ⟨h, ha⟩
  | step before hstep active ih =>
    obtain ⟨hs, ha⟩ := ih
    refine ⟨hs.step hstep, (ha.step hrest hs hstep).2.2.resolve_right fun hreturned => ?_⟩
    rw [hreturned.1] at active
    omega

/-- **What is promised of a call** that begins with the step from `m` to `m'`. Its callee is `f`. -/
inductive Disciplined (m m' : Machine) : Prop
  | intro {caller f : Frame} {outer : List Frame} {count : UInt8} {bytes : List UInt8}
      (before : m.frames = caller :: outer) (calls : CallBytes count bytes)
      (code : m.GoesOn caller bytes)
      (begun : m'.frames = f :: { caller with ip := caller.ip + bytes.length } :: outer)
      (size : m'.stack.size = f.base + 1 + count.toNat) (kept : m.SameBelow f.base m')
      (during : ∀ inside next done, m'.Lasts m'.frames.length inside →
        inside.step = .ok done next → done = false ∧ (∀ p < f.base, inside.KeepsSlot next p) ∧
          (next.frames.length < m'.frames.length →
            next.frames = { caller with ip := caller.ip + bytes.length } :: outer ∧
              inside.Returned next f.base))

theorem Stable.disciplined (h : m.Stable) (hm : m.step = .ok false m')
    (hcall : m.frames.length < m'.frames.length) : m.Disciplined m' := by
  cases Run.execute_stepped h hm with
  | inside before after =>
    rw [before, after] at hcall
    exact absurd hcall (lt_irrefl _)
  | returned before after =>
    rw [before, after, List.length_cons] at hcall
    omega
  | @called caller f outer count bytes before calls code after hbase size kept =>
    refine .intro before calls code after size kept fun inside next done hl hstep => ?_
    set rest := { caller with ip := caller.ip + bytes.length } :: outer with hrest
    have hne : rest ≠ [] := by simp [hrest]
    have hdepth : m'.frames.length = rest.length + 1 := by rw [after, List.length_cons]
    rw [hdepth] at hl ⊢
    have hactive : m'.Active f.base rest := ⟨[], f, after, rfl⟩
    obtain ⟨hs, ha⟩ := hactive.lasts hne (h.step hm) hl
    obtain ⟨rfl, hslots, hnext⟩ := ha.step hne hs hstep
    refine ⟨rfl, hslots, fun hlt => hnext.resolve_left ?_⟩
    rintro ⟨inner, g, hframes, -⟩
    rw [hframes, List.length_append, List.length_cons] at hlt
    omega

end Machine

namespace Machine

/-- A fresh machine starts to execute a source that compiles. -/
theorem load_stable (config : GcConfig) (journal : Journal) (sink : Sink) (clock : Nat → Number)
    {source : String} {h : Handle} {heap : Heap}
    (hcompile : compile source (create { config, journal } sink clock).heap
      (.mk fun _ => (create { config, journal } sink clock).roots) = (.ok h, heap)) :
    ∃ m, (create { config, journal } sink clock).load source = (none, m) ∧ m.Stable := by
  obtain ⟨live, hidle⟩ := idle_create config journal sink clock
  generalize create { config, journal } sink clock = m₀ at *
  obtain ⟨f, bytes, hcell, harity, -⟩ := compile_script hidle.heap.tidy hcompile
  rcases compile_idle hidle source with ⟨_, _, _, herror, -⟩ | ⟨h', heap', hok, hmeets⟩
  · rw [hcompile] at herror
    cases herror
  · rw [hcompile] at hok
    cases hok
    have hallots := compile_allots source m₀.heap (.mk fun _ => m₀.roots)
    rw [hcompile] at hallots
    obtain ⟨m, henter, -⟩ := enter_ok (m := { m₀ with heap }) (hallots.keeps hidle.heap.tidy).1
      hidle.stack_eq hidle.frames_eq hcell harity
    exact ⟨m, load_started hcompile henter, hmeets.ok henter⟩

end Machine

/-- **Calls keep to their slots.** In the execution of a source that compiles, whenever a closure is
called, all that it does and calls leaves the slots below it as they are, but for assignments to
captured variables that are in those slots still. When it returns, its slots have given way to the
result, the caller goes on after the call, and no variable of the callee is open. -/
theorem run_disciplined (config : GcConfig) (journal : Journal) (sink : Sink)
    (clock : Nat → Number) (source : String) {h : Handle} {heap : Heap}
    (hcompile : compile source (Machine.create { config, journal } sink clock).heap
      (.mk fun _ => (Machine.create { config, journal } sink clock).roots) = (.ok h, heap)) :
    ∃ m, (Machine.create { config, journal } sink clock).load source = (none, m) ∧
      ∀ fuel m₁ m₂, m.run fuel = .running m₁ → m₁.step = .ok false m₂ →
        m₁.frames.length < m₂.frames.length → m₁.Disciplined m₂ := by
  obtain ⟨m, hload, hstable⟩ := Machine.load_stable config journal sink clock hcompile
  refine ⟨m, hload, fun fuel m₁ m₂ hrun hstep hcall => ?_⟩
  have hfine := Machine.run_fine fuel hstable
  rw [hrun] at hfine
  exact hfine.disciplined hstep hcall

/-- A function with a parameter is called by the fifth instruction. -/
theorem run_disciplined_call : ∃ source h heap m, source = "fun f(a) \x7b return a; \x7d f(1);" ∧
    compile source (Machine.create {}).heap (.mk fun _ => (Machine.create {}).roots) = (.ok h, heap) ∧
    (Machine.create {}).load source = (none, m) ∧
    (m.run 4).machine.frames.length = 1 ∧ (m.run 5).machine.frames.length = 2 ∧
    ∀ fuel m₁ m₂, m.run fuel = .running m₁ → m₁.step = .ok false m₂ →
      m₁.frames.length < m₂.frames.length → m₁.Disciplined m₂ := by
  generalize hs : "fun f(a) \x7b return a; \x7d f(1);" = source
  have hresult : (compile source (Machine.create {}).heap
      (.mk fun _ => (Machine.create {}).roots)).1.toOption.isSome = true := by
    subst hs
    decide +kernel
  have hcalls : (((Machine.create {}).load source).2.run 4).machine.frames.length = 1 ∧
      (((Machine.create {}).load source).2.run 5).machine.frames.length = 2 := by
    subst hs
    decide +kernel
  rcases hcompile : compile source (Machine.create {}).heap (.mk fun _ => (Machine.create {}).roots)
    with ⟨_ | h, heap⟩
  · rw [hcompile] at hresult
    cases hresult
  · obtain ⟨m, hload, hrun⟩ := run_disciplined {} {} {} (fun _ => ⟨0⟩) source hcompile
    rw [show ((Machine.create {}).load source).2 = m from congrArg Prod.snd hload] at hcalls
    exact ⟨source, h, heap, m, rfl, hcompile, hload, hcalls.1, hcalls.2, hrun⟩

end LoxMachine
