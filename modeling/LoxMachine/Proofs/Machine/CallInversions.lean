import LoxMachine.Proofs.Machine.Holding
import LoxMachine.Proofs.Machine.Inversions

/-!
# What assignments and calls have done

What follows from an assignment to a variable or a call having come to its end, where the operand bytes are given.

* `setLocal_inv` and `setUpvalue_inv`: one slot has been written, or none.
* `callInstruction_inv`, `invoke_inv` and `superInvoke_inv`: which value has been called.
* `call_inv`, `callValue_cls_inv` and `instantiate_inv`: a closure has been called, or a class.
-/

namespace LoxMachine

variable {m m' m'' m₁ : Machine} {v : Value} {x : Handle} {i b : UInt8} {bytes bytes' : List UInt8} {f : Frame}
  {rest : List Frame} {count lo : Nat}

/-- As many bytes at the same place are the same. -/
theorem Machine.Consumes.unique (h : m.Consumes bytes m') (h' : m.Consumes bytes' m'')
    (hlength : bytes.length = bytes'.length) : bytes = bytes' ∧ m' = m'' := by
  obtain ⟨f, rest, hf, ⟨g, hg, hholds⟩, rfl⟩ := h
  obtain ⟨f', rest', hf', ⟨g', hg', hholds'⟩, rfl⟩ := h'
  cases hf.symm.trans hf'
  cases hg.symm.trans hg'
  refine ⟨List.ext_getElem? fun j => ?_, by rw [hlength]⟩
  by_cases hj : j < bytes.length
  · rw [← hholds j hj, hholds' j (hlength ▸ hj)]
  · rw [List.getElem?_eq_none (by omega), List.getElem?_eq_none (by omega)]

namespace Run

/-! ## Assignments -/

theorem setLocal_inv (hc : m.Consumes [b] m₁) (hf : m₁.frames = f :: rest) (h : setLocal m = .ok () m') :
    ∃ v, m' = { m₁ with stack := put m₁.stack (f.base + b.toNat) v } := by
  unfold setLocal at h
  have h₁ := after_read (readByte_of_consumes hc) h
  have h₂ := after_read (frame_of_frames hf) h₁
  obtain ⟨v, m₂, hpeek, hset⟩ := bind_ok h₂
  obtain ⟨-, rfl⟩ := peek_zero_inv hpeek
  exact ⟨v, (setSlot_inv hset).2⟩

/-- A captured variable has been written, on the stack or off it. -/
theorem setUpvalue_inv (hc : m.Consumes [b] m₁) (hf : m₁.frames = f :: rest) (h : setUpvalue m = .ok () m') :
    ∃ c u, m₁.heap.closure f.closure = .ok c ∧ c.upvalues[b.toNat]? = some u ∧ (m'.stack = m₁.stack ∨
      ∃ p v, m₁.heap.upvalue u = .ok (.stacked p) ∧ m'.stack = put m₁.stack p v) := by
  unfold setUpvalue at h
  have h₀ := after_read (readByte_of_consumes hc) h
  obtain ⟨u, m₂, hu, h₁⟩ := bind_ok h₀
  obtain ⟨c, hclosure, -⟩ := frameUpvalue_inv hf hu
  obtain ⟨hget, rfl⟩ := frameUpvalue_found hu hf hclosure
  obtain ⟨v, m₃, hpeek, h₂⟩ := bind_ok h₁
  obtain ⟨-, rfl⟩ := peek_zero_inv hpeek
  obtain ⟨w, m₄, hlook, hset⟩ := bind_ok h₂
  obtain ⟨hw, rfl⟩ := look_inv hlook
  refine ⟨c, u, hclosure, hget, ?_⟩
  cases w with
  | stacked p => exact .inr ⟨p, v, hw, by rw [(setSlot_inv hset).2]⟩
  | closed old =>
    obtain ⟨heap, -, rfl⟩ := update_inv hset
    exact .inl rfl

/-! ## Operands -/

theorem poke_inv {distance : Nat} (h : poke distance v m = .ok () m') :
    distance < m.stack.size ∧ m' = { m with stack := put m.stack (m.stack.size - 1 - distance) v } := by
  unfold poke below at h
  obtain ⟨index, m₁, hi, hset⟩ := bind_ok h
  rw [get_bind] at hi
  split at hi
  · rename_i hlt
    cases hi
    exact ⟨hlt, (setSlot_inv hset).2⟩
  · cases hi

/-- The operands of a call of a property have been read. -/
theorem after_name {α : Type} {q : Handle → UInt8 → Run α} {a : α} (hc : m.Consumes [i, b] m₁)
    (h : (do let name ← readName; let count ← readByte; q name count) m = .ok a m') :
    ∃ name, m.HasConstant i (.obj name) ∧ q name b m₁ = .ok a m' := by
  obtain ⟨name, m₂, hname, h₁⟩ := bind_ok h
  obtain ⟨i', hc₂, hconstant⟩ := readName_consumes.of_ok hname
  obtain ⟨m₃, hc₃, hc₁⟩ := hc.uncons
  obtain ⟨hi, rfl⟩ := hc₂.unique hc₃ rfl
  cases hi
  exact ⟨name, hconstant, after_read (readByte_of_consumes hc₁) h₁⟩

/-! ## Calls -/

theorem callInstruction_inv (hc : m.Consumes [b] m₁) (h : callInstruction m = .ok () m') :
    ∃ v, m₁.stack[m₁.stack.size - 1 - b.toNat]? = some v ∧ callValue v b.toNat m₁ = .ok () m' := by
  unfold callInstruction at h
  have h₁ := after_read (readByte_of_consumes hc) h
  obtain ⟨v, m₂, hpeek, hcall⟩ := bind_ok h₁
  obtain ⟨-, hv, rfl⟩ := peek_inv hpeek
  exact ⟨v, hv, hcall⟩

/-- A property of the instance below the arguments has been called, which is a field or else a method. -/
theorem invoke_inv (hc : m.Consumes [i, b] m₁) (h : invoke m = .ok () m') : ∃ name target o key,
    m.HasConstant i (.obj name) ∧ m₁.stack[m₁.stack.size - 1 - b.toNat]? = some (.obj target) ∧
      m₁.heap.inst target = .ok o ∧ m₁.heap.key name = .ok key ∧
        match o.fields.get? key with
        | some v => (do poke b.toNat v; callValue v b.toNat) m₁ = .ok () m'
        | none => invokeFromClass o.cls name b.toNat m₁ = .ok () m' := by
  obtain ⟨name, hconstant, h₁⟩ := after_name hc h
  obtain ⟨v, m₂, hpeek, h₂⟩ := bind_ok h₁
  obtain ⟨-, hv, rfl⟩ := peek_inv hpeek
  obtain ⟨target, m₃, htarget, h₃⟩ := bind_ok h₂
  obtain ⟨rfl, -, rfl⟩ := requireKind_inv htarget
  obtain ⟨⟨found, cls⟩, m₄, hfound, h₄⟩ := bind_ok h₃
  unfold fieldOrClass at hfound
  obtain ⟨o, m₅, hlook, h₅⟩ := bind_ok hfound
  obtain ⟨ho, rfl⟩ := look_inv hlook
  obtain ⟨key, m₆, hlook', h₆⟩ := bind_ok h₅
  obtain ⟨hkey, rfl⟩ := look_inv hlook'
  cases h₆
  refine ⟨name, target, o, key, hconstant, hv, ho, hkey, ?_⟩
  cases hfield : o.fields.get? key with
  | some v => rwa [hfield] at h₄
  | none => rwa [hfield] at h₄

/-- **A call leaves what is below its callee.** -/
theorem callInstruction_below (hc : m.Consumes [b] m₁) (hlo : lo + (b.toNat + 1) ≤ m.stack.size)
    (h : callInstruction m = .ok () m') : m.SameBelow lo m' := by
  have hstack := Still.same (readByte_of_consumes hc)
  obtain ⟨v, -, hcall⟩ := callInstruction_inv hc h
  exact .trans (.of_eq hstack) ((callValue_digs v _).digs (hstack ▸ hlo) hcall).1

theorem invoke_below (hc : m.Consumes [i, b] m₁) (hlo : lo + (b.toNat + 1) ≤ m.stack.size) (h : invoke m = .ok () m') :
    m.SameBelow lo m' := by
  obtain ⟨name, target, o, key, -, -, -, -, hfound⟩ := invoke_inv hc h
  have hstack : m₁.stack = m.stack := by
    obtain ⟨f, rest, -, -, rfl⟩ := hc
    rfl
  refine .trans (.of_eq hstack) ?_
  split at hfound
  · exact (((poke_digs _ (Nat.lt_succ_self _)).bind fun _ => callValue_digs _ _).digs (hstack ▸ hlo) hfound).1
  · exact (Digs.digs (e := b.toNat + 1) (.after fun method => .still _) (hstack ▸ hlo) hfound).1

theorem superInvoke_below (hc : m.Consumes [i, b] m₁) (hlo : lo + (b.toNat + 2) ≤ m.stack.size)
    (h : superInvoke m = .ok () m') : m.SameBelow lo m' := by
  obtain ⟨name, -, h₁⟩ := after_name hc h
  have hstack : m₁.stack = m.stack := by
    obtain ⟨f, rest, -, -, rfl⟩ := hc
    rfl
  have hdigs : Digs (b.toNat + 2) (b.toNat + 1) (do invokeFromClass (← popClass) name b.toNat) :=
    (pop_digs.bind fun v => .still _).bind fun cls => .after fun method => .still _
  exact .trans (.of_eq hstack) (hdigs.digs (hstack ▸ hlo) h₁).1

/-- **An operation leaves what is below its operands**, unless it writes to a variable or returns. -/
theorem perform_below {op : Opcode} {args : List UInt8} {heap : Heap} {g : Function} {done : Bool}
    (hc : m.Consumes args m₁) (htakes : g.Takes heap op args) (hlocal : op ≠ .setLocal) (hupvalue : op ≠ .setUpvalue)
    (hret : op ≠ .ret) (hlo : lo + op.needs (Instruction.count ⟨op, args⟩) ≤ m.stack.size)
    (h : perform op m = .ok done m') : m.SameBelow lo m' := by
  by_cases hsimple : isSimple op = true
  · obtain ⟨e, hdigs⟩ := perform_digs hsimple
    rw [needs_of_isSimple hsimple] at hlo
    exact (hdigs.digs hlo h).1
  -- the last byte of an operation that calls tells how many arguments there are
  cases op with
  | call =>
    cases htakes with
    | byte _ b => exact callInstruction_below hc hlo (perform_inv h).2
    | none hop | constant hop | forward hop | backward hop | invocation hop | captures hop => cases hop
  | invoke =>
    cases htakes with
    | invocation _ name b => exact invoke_below hc hlo (perform_inv h).2
    | none hop | byte hop | constant hop | forward hop | backward hop | captures hop => cases hop
  | superInvoke =>
    cases htakes with
    | invocation _ name b => exact superInvoke_below hc hlo (perform_inv h).2
    | none hop | byte hop | constant hop | forward hop | backward hop | captures hop => cases hop
  | setLocal | setUpvalue | ret => contradiction
  | _ => exact absurd rfl hsimple

/-- **A closure has been called.** -/
theorem call_inv (h : call x count m = .ok () m') : ∃ c, m.heap.closure x = .ok c ∧ m' = { m with
    frames := { closure := x, function := c.function, base := m.stack.size - wrap (count + 1) } :: m.frames } := by
  obtain ⟨c, g, hc, hg⟩ : ∃ c g, m.heap.closure x = .ok c ∧ m.heap.function c.function = .ok g := by
    unfold call at h
    obtain ⟨c, m₁, hlook, h₁⟩ := bind_ok h
    obtain ⟨hc, rfl⟩ := look_inv hlook
    obtain ⟨g, m₂, hlook', -⟩ := bind_ok h₁
    obtain ⟨hg, rfl⟩ := look_inv hlook'
    exact ⟨c, g, hc, hg⟩
  obtain ⟨bytes, hcell⟩ := Heap.closure_eq_ok_iff.1 hc
  obtain ⟨bytes', hcell'⟩ := Heap.function_eq_ok_iff.1 hg
  rw [call_eq hcell hcell'] at h
  split at h
  · cases h
  split at h
  · cases h
  split at h
  · cases h
  cases h
  exact ⟨c, hc, rfl⟩

theorem callValue_cls_inv {C : Class} (hC : m.heap.cls x = .ok C) (h : callValue (.obj x) count m = .ok () m') :
    instantiate x count m = .ok () m' := by
  obtain ⟨bytes, hcell⟩ := Heap.cls_eq_ok_iff.1 hC
  unfold callValue at h
  have hcall := after_read (look_ok (Heap.object_of_cell? hcell) : look (·.object x) m = .ok _ m) h
  exact hcall

/-- **A class has been called.** A new instance of it is below the arguments. If the class has a closure as its
initializer, that has been called. -/
theorem instantiate_inv (h : instantiate x count m = .ok () m') : ∃ y heap C key,
    m.heap.alloc (.mk fun _ => m.roots) (.inst { cls := x }) = (y, heap) ∧ heap.cls x = .ok C ∧
      heap.key m.initName = .ok key ∧ count < m.stack.size ∧
        ((∃ f, C.methods.get? key = some (.obj f) ∧
          call f count { m with heap, stack := put m.stack (m.stack.size - 1 - count) (.obj y) } = .ok () m') ∨
          ∀ f, C.methods.get? key = some (.obj f) → heap.kind? f ≠ some .closure) := by
  unfold instantiate at h
  obtain ⟨y, m₁, halloc, h₁⟩ := bind_ok h
  obtain ⟨halloc, hm₁⟩ := alloc_inv halloc
  obtain ⟨_, m₂, hpoke, h₂⟩ := bind_ok h₁
  obtain ⟨hlt, rfl⟩ := poke_inv hpoke
  rw [hm₁] at hlt h₂
  obtain ⟨C, m₃, hlook, h₃⟩ := bind_ok h₂
  obtain ⟨hC, rfl⟩ := look_inv hlook
  rw [get_bind] at h₃
  obtain ⟨key, m₄, hlook', h₄⟩ := bind_ok h₃
  obtain ⟨hkey, rfl⟩ := look_inv hlook'
  refine ⟨y, m₁.heap, C, key, halloc, hC, hkey, hlt, ?_⟩
  dsimp only at h₄
  cases hmethod : C.methods.get? key with
  | none => exact .inr nofun
  | some v =>
    rw [hmethod] at h₄
    obtain ⟨found, m₅, hfound, h₅⟩ := bind_ok h₄
    obtain ⟨hkind, rfl⟩ := asKind_inv hfound
    cases found with
    | some f =>
      obtain ⟨rfl, -⟩ := hkind f rfl
      exact .inl ⟨f, rfl, h₅⟩
    | none =>
      refine .inr fun f hf hclosure => ?_
      obtain rfl := Option.some.inj hf
      obtain ⟨o, bytes, hcell, hk⟩ := Heap.cell?_of_kind? hclosure
      have hask := look_inv hfound
      rw [asKind_of_cell? hcell, if_pos hk] at hask
      cases hask.1

end Run

end LoxMachine
