import LoxMachine.Proofs.Machine.Sane

/-!
# Instructions on any code

Each instruction, performed in a sane state, ends in a sane state or with a runtime error. There is
one lemma for each; the operands and the values on the stack may be anything.
-/

namespace LoxMachine

namespace Machine

/-- Other global variables. -/
theorem Sane.globals_to {m : Machine} {globals : Table} (hs : m.Sane)
    (hw : globals.Within m.heap.Live) (hk : m.heap.Keyed globals) : { m with globals }.Sane :=
  ⟨hs.heap, hs.size_le, hs.length_le, hs.stack, hs.frames, hw, hk, hs.opened, hs.initName⟩

end Machine

namespace Run

variable {m : Machine} {v : Value} {x name cls : Handle}

/-- The action keeps the machine sane. -/
abbrev Safe {α : Type} (x : Run α) : Prop := ∀ m : Machine, m.Sane → Tame x m fun _ m' => m'.Sane

theorem in_none (hv : v.handle? = none) {P : Handle → Prop} : v.In P := by
  rintro h rfl
  cases hv

theorem in_obj {P : Handle → Prop} (hx : P x) : (Value.obj x).In P := by
  rintro h ⟨⟩
  exact hx

/-! ## Variables -/

theorem getLocal_safe : Safe getLocal := by
  intro m hs
  unfold getLocal
  refine (readByte_tame hs).bind fun i m₁ h₁ => (frame_tame h₁.sane).bind fun f m₂ hf => ?_
  obtain ⟨rfl, -⟩ := hf
  refine (slot_tame h₁.sane _).bind fun v m₃ hv => ?_
  obtain ⟨rfl, hv⟩ := hv
  exact push_tame h₁.sane hv

theorem setLocal_safe : Safe setLocal := by
  intro m hs
  unfold setLocal
  refine (readByte_tame hs).bind fun i m₁ h₁ => (frame_tame h₁.sane).bind fun f m₂ hf => ?_
  obtain ⟨rfl, -⟩ := hf
  refine (peek_tame h₁.sane 0).bind fun v m₃ hv => ?_
  obtain ⟨rfl, hv⟩ := hv
  exact (setSlot_tame h₁.sane _ hv).mono fun _ _ h => h.1

/-- An error that gives the contents of a string. -/
theorem fail_contents_tame {α : Type} {Q : α → Machine → Prop} (hs : m.Sane)
    (hx : m.heap.IsString x) (error : String → RuntimeError) :
    Tame (do fail (error (← look (·.contents x)))) m Q := by
  obtain ⟨s, hs'⟩ := Heap.contents_of_isString hx
  exact .look_bind hs' (tame_fail hs _)

theorem getGlobal_safe : Safe getGlobal := by
  intro m hs
  unfold getGlobal
  refine (readName_tame hs).bind fun name m₁ h₁ => ?_
  obtain ⟨h₁, hname⟩ := h₁
  refine .look_bind (Heap.key_eq hname) (.get ?_)
  split
  · rename_i v hv
    exact push_tame h₁.sane (h₁.sane.globals.get? hv)
  · exact fail_contents_tame h₁.sane hname _

theorem defineGlobal_safe : Safe defineGlobal := by
  intro m hs
  unfold defineGlobal
  refine (readName_tame hs).bind fun name m₁ h₁ => ?_
  obtain ⟨h₁, hname⟩ := h₁
  refine (peek_tame h₁.sane 0).bind fun v m₂ hv => ?_
  obtain ⟨rfl, hv⟩ := hv
  have hs₂ := h₁.sane
  refine .look_bind (Heap.key_eq hname) ?_
  refine .bind (Q := fun _ m' => m'.Sane) (.modify (hs₂.globals_to
    (hs₂.globals.insert hname.contains hv) (hs₂.keyed.set hname v))) fun _ m₃ h₃ => ?_
  exact (pop_tame h₃).bind fun _ m' hm' => .pure hm'.2.1

/-- Where assignment has made a variable, it is deleted again. -/
theorem setGlobal_safe : Safe setGlobal := by
  intro m hs
  unfold setGlobal
  refine (readName_tame hs).bind fun name m₁ h₁ => ?_
  obtain ⟨h₁, hname⟩ := h₁
  refine .look_bind (Heap.key_eq hname) ((peek_tame h₁.sane 0).bind fun v m₂ hv => ?_)
  obtain ⟨rfl, hv⟩ := hv
  have hs₂ := h₁.sane
  refine .bind (Q := fun _ m' => m'.Sane ∧ m'.heap = m₂.heap) (.modifyGet ⟨hs₂.globals_to
    (hs₂.globals.set hname.contains hv) (hs₂.keyed.set hname v), rfl⟩) fun isNew m₃ h₃ => ?_
  obtain ⟨hs₃, hheap₃⟩ := h₃
  refine .ite (fun _ => ?_) fun _ => .pure hs₃
  have hkeyed := hs₃.keyed.delete name
  rw [hheap₃] at hkeyed
  refine .bind (Q := fun _ m' => m'.Sane ∧ m'.heap = m₂.heap)
    (.modify ⟨hs₃.globals_to (hs₃.globals.delete _) (hheap₃ ▸ hkeyed), hheap₃⟩) fun _ m₄ h₄ => ?_
  exact fail_contents_tame h₄.1 (h₄.2 ▸ hname) _

/-- A captured variable of the running closure. -/
theorem frameUpvalue_tame (hs : m.Sane) (i : UInt8) :
    Tame (frameUpvalue i) m fun u m' => m' = m ∧ m.heap.kind? u = some .upvalue ∧
      m.heap.Reachable m.roots u := by
  unfold frameUpvalue
  refine (frame_tame hs).bind fun f m₁ hf => ?_
  obtain ⟨rfl, hf⟩ := hf
  have hmem := List.mem_of_mem_head? hf
  obtain ⟨c, bytes, hc, -⟩ := hs.frames f hmem
  refine .look_bind (Heap.closure_of_cell? hc) ?_
  cases hu : c.upvalues[i.toNat]? with
  | none => exact tame_fail hs _
  | some u =>
    have hu' := Array.mem_of_getElem? hu
    refine .pure ⟨rfl, (hs.heap.fit hc).2 u hu', ?_⟩
    refine hs.reachable_reference (hs.reachable_root ?_) hc
      (List.mem_cons_of_mem _ (Array.mem_toList_iff.2 hu'))
    exact Machine.mem_roots.2 (Or.inr (Or.inl ⟨f, hmem, rfl⟩))

theorem getUpvalue_safe : Safe getUpvalue := by
  intro m hs
  unfold getUpvalue
  refine (readByte_tame hs).bind fun i m₁ h₁ => (frameUpvalue_tame h₁.sane i).bind fun u m₂ hu => ?_
  obtain ⟨rfl, hkind, -⟩ := hu
  obtain ⟨u, bytes, hc⟩ := Heap.upvalue_of_kind? hkind
  refine .look_bind (Heap.upvalue_of_cell? hc) ?_
  cases u with
  | stacked slot =>
    refine (slot_tame h₁.sane slot).bind fun v m₃ hv => ?_
    obtain ⟨rfl, hv⟩ := hv
    exact push_tame h₁.sane hv
  | closed v =>
    refine push_tame h₁.sane ?_
    rintro h rfl
    exact h₁.sane.heap.closed hc (by simp [Object.references, Value.handle?])

/-- A captured variable is moved off the stack, or gets another value. -/
theorem setUpvalue_heap_tame (hs : m.Sane) (hkind : m.heap.kind? x = some .upvalue)
    (hv : v.In m.heap.Live) :
    Tame (update (·.setUpvalue x (.closed v))) m fun _ m' => m'.Sane ∧
      m' = { m with heap := m.heap.replace x (.upvalue (.closed v)) } := by
  obtain ⟨u, bytes, hc⟩ := Heap.upvalue_of_kind? hkind
  refine update_tame hs ?_ hc rfl rfl (fun r hr => ?_) trivial
  · simp only [Heap.setUpvalue, Heap.upvalue_of_cell? hc]
    rfl
  · rw [Object.references, Option.mem_toList, Value.handle?_eq_some_iff] at hr
    exact hv r hr

theorem setUpvalue_safe : Safe setUpvalue := by
  intro m hs
  unfold setUpvalue
  refine (readByte_tame hs).bind fun i m₁ h₁ => (frameUpvalue_tame h₁.sane i).bind fun x m₂ hx => ?_
  obtain ⟨rfl, hkind, -⟩ := hx
  refine (peek_tame h₁.sane 0).bind fun v m₃ hv => ?_
  obtain ⟨rfl, hv⟩ := hv
  obtain ⟨u, bytes, hc⟩ := Heap.upvalue_of_kind? hkind
  refine .look_bind (Heap.upvalue_of_cell? hc) ?_
  cases u with
  | stacked slot => exact (setSlot_tame h₁.sane slot hv).mono fun _ _ h => h.1
  | closed w => exact (setUpvalue_heap_tame h₁.sane hkind hv).mono fun _ _ h => h.1

/-! ## Properties -/

theorem findMethod_tame (hs : m.Sane) (hcls : m.heap.kind? cls = some .cls)
    (hname : m.heap.IsString name) :
    Tame (findMethod cls name) m fun x m' => m' = m ∧ m.heap.kind? x = some .closure := by
  obtain ⟨c, bytes, hc⟩ := Heap.cls_of_kind? hcls
  unfold findMethod
  refine .look_bind (Heap.cls_of_cell? hc) (.look_bind (Heap.key_eq hname) ?_)
  split
  · rename_i v hv
    have hwithin : c.methods.Within m.heap.Live :=
      Table.within_iff.2 fun r hr => hs.heap.closed hc (List.mem_cons_of_mem _ hr)
    obtain ⟨s, hs'⟩ := Heap.contents_of_isString hname
    refine .look_bind hs' ((requireKind_tame hs (hwithin.get? hv) .closure _).mono fun x m' hx => ?_)
    exact ⟨hx.1, hx.2.2⟩
  · exact fail_contents_tame hs hname _

theorem bindMethod_tame (hs : m.Sane) (hcls : m.heap.kind? cls = some .cls)
    (hname : m.heap.IsString name) : Tame (bindMethod cls name) m fun _ m' => m'.Sane := by
  unfold bindMethod
  refine (findMethod_tame hs hcls hname).bind fun method m₁ h₁ => ?_
  obtain ⟨rfl, hmethod⟩ := h₁
  refine (peek_tame hs 0).bind fun receiver m₂ h₂ => ?_
  obtain ⟨rfl, hreceiver⟩ := h₂
  have hrefs : ∀ r ∈ (Object.bound { receiver, method }).references, m₂.heap.Live r := by
    intro r hr
    rcases List.mem_append.1 hr with hr | hr
    · rw [Option.mem_toList, Value.handle?_eq_some_iff] at hr
      exact hreceiver r hr
    · rw [List.mem_singleton.1 hr]
      exact Heap.live_of_kind? hmethod
  refine (alloc_tame hs (by simp [Object.kind]) hrefs hmethod).bind fun bound m₃ h₃ => ?_
  obtain ⟨hs₃, -, hcell, -⟩ := h₃
  refine (pop_tame hs₃).bind fun _ m₄ h₄ => ?_
  exact push_tame h₄.2.1 (in_obj (h₄.2.2 ▸ Heap.contains_of_cell? hcell))

theorem fieldOrClass_tame (hs : m.Sane) (hx : m.heap.kind? x = some .inst)
    (hname : m.heap.IsString name) :
    Tame (fieldOrClass x name) m fun r m' => m' = m ∧ (∀ v, r.1 = some v → v.In m.heap.Live) ∧
      m.heap.kind? r.2 = some .cls := by
  obtain ⟨i, bytes, hc⟩ := Heap.inst_of_kind? hx
  unfold fieldOrClass
  refine .look_bind (Heap.inst_of_cell? hc) (.look_bind (Heap.key_eq hname) (.pure ⟨rfl, ?_, ?_⟩))
  · have hwithin : i.fields.Within m.heap.Live :=
      Table.within_iff.2 fun r hr => hs.heap.closed hc (List.mem_cons_of_mem _ hr)
    exact fun v hv => hwithin.get? hv
  · exact (hs.heap.fit hc).1

theorem getProperty_safe : Safe getProperty := by
  intro m hs
  unfold getProperty
  refine (readName_tame hs).bind fun name m₁ h₁ => ?_
  obtain ⟨h₁, hname⟩ := h₁
  refine (peek_tame h₁.sane 0).bind fun v m₂ hv => ?_
  obtain ⟨rfl, hv⟩ := hv
  refine (requireKind_tame h₁.sane hv .inst _).bind fun x m₃ hx => ?_
  obtain ⟨rfl, -, hx⟩ := hx
  refine (fieldOrClass_tame h₁.sane hx hname).bind fun r m₄ hr => ?_
  obtain ⟨rfl, hfield, hcls⟩ := hr
  obtain ⟨field, cls⟩ := r
  cases field with
  | none => exact bindMethod_tame h₁.sane hcls hname
  | some w =>
    refine (pop_tame h₁.sane).bind fun _ m₅ h₅ => ?_
    exact push_tame h₅.2.1 (h₅.2.2 ▸ hfield w rfl)

theorem setProperty_safe : Safe setProperty := by
  intro m hs
  unfold setProperty
  refine (readName_tame hs).bind fun name m₁ h₁ => ?_
  obtain ⟨h₁, hname⟩ := h₁
  refine (peek_tame h₁.sane 1).bind fun target m₂ htarget => ?_
  obtain ⟨rfl, htarget⟩ := htarget
  refine (requireKind_tame h₁.sane htarget .inst _).bind fun x m₃ hx => ?_
  obtain ⟨rfl, -, hx⟩ := hx
  have hs₃ := h₁.sane
  refine .look_bind (Heap.key_eq hname) ((peek_tame hs₃ 0).bind fun v m₄ hv => ?_)
  obtain ⟨rfl, hv⟩ := hv
  obtain ⟨i, bytes, hc⟩ := Heap.inst_of_kind? hx
  have hwithin : i.fields.Within m₄.heap.Live :=
    Table.within_iff.2 fun r hr => hs₃.heap.closed hc (List.mem_cons_of_mem _ hr)
  obtain ⟨hcls, hkeyed⟩ := hs₃.heap.fit hc
  refine Ends.bind (update_tame hs₃ (o := .inst { i with
    fields := i.fields.insert ⟨name, m₄.heap.hashOf name⟩ v }) ?_ hc rfl rfl ?_
    ⟨hcls, hkeyed.set hname v⟩) fun _ m₅ h₅ => ?_
  · simp only [Heap.setField, Heap.inst_of_cell? hc]
    rfl
  · intro r hr
    rcases List.mem_cons.1 hr with rfl | hr
    · exact Heap.live_of_kind? hcls
    · exact Table.within_iff.1 (hwithin.insert hname.contains hv) r hr
  · refine (pop_tame h₅.1).bind fun w m₆ h₆ => (pop_tame h₆.2.1).bind fun _ m₇ h₇ => ?_
    exact push_tame h₇.2.1 (by rw [h₇.2.2, h₆.2.2]; exact h₆.1)

theorem popClass_tame (hs : m.Sane) :
    Tame popClass m fun x m' => m'.Sane ∧ m'.heap = m.heap ∧ m'.heap.kind? x = some .cls := by
  unfold popClass
  refine (pop_tame hs).bind fun v m₁ h₁ => ?_
  obtain ⟨hv, hs₁, hheap⟩ := h₁
  refine (requireKind_tame hs₁ (hheap ▸ hv) .cls _).mono fun x m' hx => ?_
  obtain ⟨rfl, -, hx⟩ := hx
  exact ⟨hs₁, hheap, hx⟩

theorem getSuper_safe : Safe getSuper := by
  intro m hs
  unfold getSuper
  refine (readName_tame hs).bind fun name m₁ h₁ => ?_
  obtain ⟨h₁, hname⟩ := h₁
  refine (popClass_tame h₁.sane).bind fun cls m₂ h₂ => ?_
  obtain ⟨hs₂, hheap, hcls⟩ := h₂
  exact bindMethod_tame hs₂ hcls (hheap ▸ hname)

/-! ## Operators -/

theorem equal_safe : Safe equal := by
  intro m hs
  unfold equal
  refine (pop_tame hs).bind fun b m₁ h₁ => (pop_tame h₁.2.1).bind fun a m₂ h₂ => ?_
  exact push_tame h₂.2.1 (in_none rfl)

theorem popNumbers_safe : Safe popNumbers := by
  intro m hs
  unfold popNumbers
  refine (peek_tame hs 1).bind fun a m₁ ha => ?_
  obtain ⟨rfl, -⟩ := ha
  refine (peek_tame hs 0).bind fun b m₂ hb => ?_
  obtain ⟨rfl, -⟩ := hb
  split
  · exact (pop_tame hs).bind fun _ m₃ h₃ => (pop_tame h₃.2.1).bind fun _ m₄ h₄ => .pure h₄.2.1
  · exact tame_fail hs _

theorem compare_safe (below : Number → Number → Bool) : Safe (compare below) := by
  intro m hs
  unfold compare
  exact (popNumbers_safe m hs).bind fun _ m₁ h₁ => push_tame h₁ (in_none rfl)

theorem arithmetic_safe (op : Number → Number → Number) : Safe (arithmetic op) := by
  intro m hs
  unfold arithmetic
  exact (popNumbers_safe m hs).bind fun _ m₁ h₁ => push_tame h₁ (in_none rfl)

theorem concatenate_tame {a b : Handle} (hs : m.Sane) (ha : m.heap.IsString a)
    (hb : m.heap.IsString b) : Tame (concatenate a b) m fun _ m' => m'.Sane := by
  obtain ⟨s, hs'⟩ := Heap.contents_of_isString ha
  obtain ⟨t, ht⟩ := Heap.contents_of_isString hb
  unfold concatenate
  refine .look_bind hs' (.look_bind ht ((intern_tame hs _).bind fun x m₁ h₁ => ?_))
  refine (pop_tame h₁.1).bind fun _ m₂ h₂ => (pop_tame h₂.2.1).bind fun _ m₃ h₃ => ?_
  exact push_tame h₃.2.1 (in_obj (by rw [h₃.2.2, h₂.2.2]; exact h₁.2.contains))

theorem add_safe : Safe add := by
  intro m hs
  unfold add
  refine (peek_tame hs 0).bind fun b m₁ hb => ?_
  obtain ⟨rfl, hb⟩ := hb
  refine (peek_tame hs 1).bind fun a m₂ ha => ?_
  obtain ⟨rfl, ha⟩ := ha
  split
  · refine (pop_tame hs).bind fun _ m₃ h₃ => (pop_tame h₃.2.1).bind fun _ m₄ h₄ => ?_
    exact push_tame h₄.2.1 (in_none rfl)
  · refine (asKind_tame ha .string).bind fun s m₃ hs₃ => ?_
    obtain ⟨rfl, hstring⟩ := hs₃
    refine (asKind_tame hb .string).bind fun t m₄ hs₄ => ?_
    obtain ⟨rfl, hstring'⟩ := hs₄
    split
    · rename_i s t
      exact concatenate_tame hs (Heap.isString_of_kind (hstring s rfl).2)
        (Heap.isString_of_kind (hstring' t rfl).2)
    · exact tame_fail hs _

theorem not_safe : Safe Run.not := by
  intro m hs
  unfold Run.not
  exact (pop_tame hs).bind fun _ m₁ h₁ => push_tame h₁.2.1 (in_none rfl)

theorem negate_safe : Safe negate := by
  intro m hs
  unfold negate
  refine (peek_tame hs 0).bind fun v m₁ hv => ?_
  obtain ⟨rfl, -⟩ := hv
  split
  · exact (poke_tame hs 0 (in_none rfl)).mono fun _ _ h => h.1
  · exact tame_fail hs _

theorem print_safe : Safe print := by
  intro m hs
  unfold print
  refine (pop_tame hs).bind fun v m₁ h₁ => ?_
  obtain ⟨hv, hs₁, hheap⟩ := h₁
  obtain ⟨text, htext⟩ := hs₁.heap.display (hheap ▸ hv)
  refine .look_bind htext (.bind (Q := fun _ m' => m'.Sane) (.modifyGet ?_) fun accepted m₂ h₂ => ?_)
  · exact ⟨hs₁.heap, hs₁.size_le, hs₁.length_le, hs₁.stack, hs₁.frames, hs₁.globals, hs₁.keyed,
      hs₁.opened, hs₁.initName⟩
  · exact .ite (fun _ => tame_fail h₂ _) fun _ => .pure h₂

/-! ## Control flow -/

theorem jump_safe : Safe jump := by
  intro m hs
  unfold jump
  refine (readDistance_tame hs).bind fun d m₁ h₁ => (frame_tame h₁).bind fun f m₂ hf => ?_
  obtain ⟨rfl, -⟩ := hf
  exact (jumpTo_tame h₁ _).mono fun _ _ h => h.1

theorem jumpIfFalse_safe : Safe jumpIfFalse := by
  intro m hs
  unfold jumpIfFalse
  refine (readDistance_tame hs).bind fun d m₁ h₁ => (peek_tame h₁ 0).bind fun v m₂ hv => ?_
  obtain ⟨rfl, -⟩ := hv
  refine .ite (fun _ => (frame_tame h₁).bind fun f m₃ hf => ?_) fun _ => .pure h₁
  obtain ⟨rfl, -⟩ := hf
  exact (jumpTo_tame h₁ _).mono fun _ _ h => h.1

theorem jumpBack_safe : Safe jumpBack := by
  intro m hs
  unfold jumpBack
  refine (readDistance_tame hs).bind fun d m₁ h₁ => (frame_tame h₁).bind fun f m₂ hf => ?_
  obtain ⟨rfl, -⟩ := hf
  exact .ite (fun _ => (jumpTo_tame h₁ _).mono fun _ _ h => h.1) fun _ => tame_fail h₁ _

/-! ## Calls -/

theorem call_tame (hs : m.Sane) (hx : m.heap.kind? x = some .closure) (count : Nat) :
    Tame (call x count) m fun _ m' => m'.Sane := by
  obtain ⟨c, bytes, hc⟩ := Heap.closure_of_kind? hx
  obtain ⟨fn, bytes', hfn⟩ := Heap.function_of_kind? (hs.heap.fit hc).1
  unfold call
  refine .look_bind (Heap.closure_of_cell? hc)
    (.look_bind (Heap.function_eq_ok_iff.2 ⟨bytes', hfn⟩) ?_)
  refine .ite (fun _ => tame_fail_bind hs _) fun _ => .get (.ite (fun _ => tame_fail_bind hs _)
    fun hframes => .ite (fun _ => tame_fail_bind hs _) fun _ => .modify ?_)
  refine ⟨hs.heap, hs.size_le, ?_, hs.stack, fun f hf => ?_, hs.globals, hs.keyed, hs.opened,
    hs.initName⟩
  · rw [List.length_cons]
    omega
  · rcases List.mem_cons.1 hf with rfl | hf
    · exact ⟨c, bytes, hc, rfl⟩
    · exact hs.frames f hf

theorem callNative_tame (hs : m.Sane) {n : Native} {bytes : Nat}
    (hc : m.heap.cell? x = some ⟨.native n, bytes⟩) (count : Nat) :
    Tame (callNative x count) m fun _ m' => m'.Sane := by
  unfold callNative
  refine .look_bind (Heap.native_of_cell? hc) (.get (.ite (fun _ => tame_fail_bind hs _) fun _ => ?_))
  dsimp only
  -- the result is no object, or one of the arguments
  have hresult : (n.apply (m.clock m.nativeCalls)
      (m.stack.extract (m.stack.size - count) m.stack.size)).In m.heap.Live := by
    rcases hs.heap.fit hc (m.clock m.nativeCalls)
      (m.stack.extract (m.stack.size - count) m.stack.size) with hnone | hmem
    · exact in_none hnone
    · intro h hh
      rw [hh] at hmem
      refine hs.stack h ?_
      rw [← Array.mem_toList_iff, Array.toList_extract] at hmem
      exact Array.mem_toList_iff.1 (List.mem_of_mem_drop (List.mem_of_mem_take hmem))
  refine .bind (Q := fun _ m' => m'.Sane ∧ m'.heap = m.heap) (.modify ⟨⟨hs.heap, hs.size_le,
    hs.length_le, hs.stack, hs.frames, hs.globals, hs.keyed, hs.opened, hs.initName⟩, rfl⟩)
    fun _ m₁ h₁ => ?_
  refine (truncate_tame h₁.1 _).bind fun _ m₂ h₂ => ?_
  exact push_tame h₂.1 (by rw [h₂.2, h₁.2]; exact hresult)

theorem instantiate_tame (hs : m.Sane) (hcls : m.heap.kind? cls = some .cls) (count : Nat) :
    Tame (instantiate cls count) m fun _ m' => m'.Sane := by
  unfold instantiate
  have hrefs : ∀ r ∈ (Object.inst { cls }).references, m.heap.Live r := by
    intro r hr
    rw [List.mem_singleton.1 hr]
    exact Heap.live_of_kind? hcls
  refine (alloc_tame hs (by simp [Object.kind]) hrefs ⟨hcls, Heap.keyed_empty⟩).bind
    fun target m₁ h₁ => ?_
  obtain ⟨hs₁, -, hcell, -⟩ := h₁
  refine (poke_tame hs₁ count (in_obj (Heap.contains_of_cell? hcell))).bind fun _ m₂ h₂ => ?_
  obtain ⟨hs₂, hheap⟩ := h₂
  -- the class is kept by the instance
  have hcell₂ : m₂.heap.cell? target = some ⟨.inst { cls }, _⟩ := hheap ▸ hcell
  have hfit := hs₂.heap.fit hcell₂
  obtain ⟨c, bytes, hc⟩ := Heap.cls_of_kind? hfit.1
  have hwithin : c.methods.Within m₂.heap.Live :=
    Table.within_iff.2 fun r hr => hs₂.heap.closed hc (List.mem_cons_of_mem _ hr)
  refine .look_bind (Heap.cls_of_cell? hc) (.get (.look_bind (Heap.key_eq hs₂.initName) ?_))
  dsimp only
  -- without an initializer there must be no arguments
  have hnone : Tame (if count ≠ 0 then fail (.arityMismatch 0 count) else pure () : Run Unit) m₂
      fun _ m' => m'.Sane := .ite (fun _ => tame_fail hs₂ _) fun _ => .pure hs₂
  cases hget : c.methods.get? ⟨m₂.initName, m₂.heap.hashOf m₂.initName⟩ with
  | none => exact hnone
  | some v =>
    refine (asKind_tame (hwithin.get? hget) .closure).bind fun x m₃ hx => ?_
    obtain ⟨rfl, hx⟩ := hx
    cases x with
    | none => exact hnone
    | some init => exact call_tame hs₂ (hx init rfl).2 count

theorem callValue_tame (hs : m.Sane) (hv : v.In m.heap.Live) (count : Nat) :
    Tame (callValue v count) m fun _ m' => m'.Sane := by
  unfold callValue
  cases v with
  | obj x =>
    obtain ⟨⟨o, bytes⟩, hc⟩ := Heap.contains_iff.1 (hv x rfl)
    refine .look_bind (Heap.object_of_cell? hc) ?_
    cases o with
    | bound b =>
      have hreceiver : b.receiver.In m.heap.Live := fun h hh =>
        hs.heap.closed hc (List.mem_append_left _ (by simp [hh, Value.handle?]))
      refine (poke_tame hs count hreceiver).bind fun _ m₁ h₁ => ?_
      exact call_tame h₁.1 (h₁.2 ▸ hs.heap.fit hc) count
    | cls c => exact instantiate_tame hs (Heap.kind?_of_cell? hc) count
    | closure c => exact call_tame hs (Heap.kind?_of_cell? hc) count
    | native n => exact callNative_tame hs hc count
    | _ => exact tame_fail hs _
  | _ => exact tame_fail hs _

theorem callInstruction_safe : Safe callInstruction := by
  intro m hs
  unfold callInstruction
  refine (readByte_tame hs).bind fun count m₁ h₁ => (peek_tame h₁.sane _).bind fun v m₂ hv => ?_
  obtain ⟨rfl, hv⟩ := hv
  exact callValue_tame h₁.sane hv _

theorem invokeFromClass_tame (hs : m.Sane) (hcls : m.heap.kind? cls = some .cls)
    (hname : m.heap.IsString name) (count : Nat) :
    Tame (invokeFromClass cls name count) m fun _ m' => m'.Sane := by
  unfold invokeFromClass
  refine (findMethod_tame hs hcls hname).bind fun method m₁ h₁ => ?_
  obtain ⟨rfl, hmethod⟩ := h₁
  exact call_tame hs hmethod count

theorem invoke_safe : Safe invoke := by
  intro m hs
  unfold invoke
  refine (readName_tame hs).bind fun name m₁ h₁ => ?_
  obtain ⟨h₁, hname⟩ := h₁
  refine (readByte_tame h₁.sane).bind fun count m₂ h₂ => ?_
  have hname₂ : m₂.heap.IsString name := h₂.heap ▸ hname
  refine (peek_tame h₂.sane _).bind fun v m₃ hv => ?_
  obtain ⟨rfl, hv⟩ := hv
  refine (requireKind_tame h₂.sane hv .inst _).bind fun x m₄ hx => ?_
  obtain ⟨rfl, -, hx⟩ := hx
  refine (fieldOrClass_tame h₂.sane hx hname₂).bind fun r m₅ hr => ?_
  obtain ⟨rfl, hfield, hcls⟩ := hr
  obtain ⟨field, cls⟩ := r
  cases field with
  | none => exact invokeFromClass_tame h₂.sane hcls hname₂ _
  | some w =>
    refine (poke_tame h₂.sane _ (hfield w rfl)).bind fun _ m₆ h₆ => ?_
    exact callValue_tame h₆.1 (h₆.2 ▸ hfield w rfl) _

theorem superInvoke_safe : Safe superInvoke := by
  intro m hs
  unfold superInvoke
  refine (readName_tame hs).bind fun name m₁ h₁ => ?_
  obtain ⟨h₁, hname⟩ := h₁
  refine (readByte_tame h₁.sane).bind fun count m₂ h₂ => ?_
  refine (popClass_tame h₂.sane).bind fun cls m₃ h₃ => ?_
  obtain ⟨hs₃, hheap, hcls⟩ := h₃
  exact invokeFromClass_tame hs₃ hcls (by rw [hheap, h₂.heap]; exact hname) _

end Run

end LoxMachine
