import LoxMachine.Proofs.Machine.Robust

/-!
# Safety on any code

* `captures_tame`: the variables that a closure captures are found one after another, and those that
  have been found are not lost to a collection.
* `closeFrom_tame`: the captured variables from a slot up are moved off the stack, or one of them has
  no slot, which is an error.
* `execute_safe`: an instruction ends in a sane state, or with a runtime error in a sane state.
-/

namespace LoxMachine

namespace Run

variable {m m' : Machine} {x : Handle}

/-! ## Captured variables -/

/-- The search for a captured variable succeeds, in whatever order they are. -/
theorem searchOpen_ok {heap : Heap} (index : Nat) {opened : List Handle}
    (hopen : ∀ u ∈ opened, heap.kind? u = some .upvalue) :
    ∃ found before, searchOpen heap index opened = .ok (found, before) ∧
      before ≤ opened.length ∧ ∀ u, found = some u → u ∈ opened := by
  induction opened with
  | nil => exact ⟨none, 0, rfl, le_rfl, by simp⟩
  | cons h rest ih =>
    obtain ⟨u, bytes, hc⟩ := Heap.upvalue_of_kind? (hopen h List.mem_cons_self)
    obtain ⟨found, before, hrest, hle, hmem⟩ := ih fun u hu => hopen u (List.mem_cons_of_mem _ hu)
    simp only [searchOpen, Heap.upvalue_of_cell? hc, hrest, bind, Except.bind]
    by_cases hplace : u.slot? = some index
    · exact ⟨some h, 0, by rw [if_pos hplace]; rfl, Nat.zero_le _, by simp⟩
    by_cases hall : u.slot?.all (index ≤ ·) = true
    · refine ⟨found, before + 1, by rw [if_neg hplace, if_pos hall]; rfl, Nat.succ_le_succ hle, ?_⟩
      exact fun u hu => List.mem_cons_of_mem _ (hmem u hu)
    · exact ⟨none, 0, by rw [if_neg hplace, if_neg hall]; rfl, Nat.zero_le _, by simp⟩

/-- The machine still refers to all that it could reach. -/
structure Carries (m m' : Machine) : Prop where
  sane : m'.Sane
  kept : ∀ x, m.heap.Reachable m.roots x →
    m'.heap.Reachable m'.roots x ∧ m'.heap.cell? x = m.heap.cell? x

namespace Carries

theorem refl (hs : m.Sane) : Carries m m := ⟨hs, fun _ hx => ⟨hx, rfl⟩⟩

theorem trans {m'' : Machine} (h : Carries m m') (h' : Carries m' m'') : Carries m m'' := by
  refine ⟨h'.sane, fun x hx => ?_⟩
  obtain ⟨hx', hc'⟩ := h.kept x hx
  obtain ⟨hx'', hc''⟩ := h'.kept x hx'
  exact ⟨hx'', hc''.trans hc'⟩

theorem kind? (h : Carries m m') (hx : m.heap.Reachable m.roots x) :
    m'.heap.kind? x = m.heap.kind? x := Heap.kind?_congr (h.kept x hx).2

end Carries

theorem Advances.carries (h : Advances m m') : Carries m m' := by
  refine ⟨h.sane, fun x hx => ?_⟩
  rw [h.roots, h.heap]
  exact ⟨hx, rfl⟩

/-- A captured variable that a collection keeps. -/
def Captured (m : Machine) (u : Handle) : Prop :=
  m.heap.kind? u = some .upvalue ∧ m.heap.Reachable m.roots u

theorem Captured.carry {u : Handle} (h : Captured m u) (hc : Carries m m') : Captured m' u :=
  ⟨(hc.kind? h.2).trans h.1, (hc.kept u h.2).1⟩

/-- Another captured variable that is on the stack. -/
theorem open_sane {u : Handle} {i : Nat} (hs : m.Sane) (hu : m.heap.kind? u = some .upvalue)
    (hi : i ≤ m.openUpvalues.length) :
    { m with openUpvalues := m.openUpvalues.insertIdx i u }.Sane := by
  refine ⟨hs.heap, hs.size_le, hs.length_le, hs.stack, hs.frames, hs.globals, hs.keyed,
    fun y hy => ?_, hs.initName⟩
  rcases (List.mem_insertIdx hi).1 hy with rfl | hy
  · exact hu
  · exact hs.opened y hy

/-- The machine still refers to what it referred to. -/
theorem mem_roots_open {u r : Handle} {i : Nat} (hi : i ≤ m.openUpvalues.length)
    (hr : r = u ∨ r ∈ m.roots) :
    r ∈ { m with openUpvalues := m.openUpvalues.insertIdx i u }.roots := by
  rcases hr with rfl | hr
  · exact Machine.mem_roots.2 (Or.inr (Or.inr (Or.inl ((List.mem_insertIdx hi).2 (Or.inl rfl)))))
  rcases Machine.mem_roots.1 hr with hv | hf | ho | hg | hi'
  · exact Machine.mem_roots.2 (Or.inl hv)
  · exact Machine.mem_roots.2 (Or.inr (Or.inl hf))
  · exact Machine.mem_roots.2 (Or.inr (Or.inr (Or.inl ((List.mem_insertIdx hi).2 (Or.inr ho)))))
  · exact Machine.mem_roots.2 (Or.inr (Or.inr (Or.inr (Or.inl hg))))
  · exact Machine.mem_roots.2 (Or.inr (Or.inr (Or.inr (Or.inr hi'))))

/-- **The variable of a slot is captured.** -/
theorem captureUpvalue_tame (hs : m.Sane) (index : Nat) :
    Tame (captureUpvalue index) m fun u m' => Carries m m' ∧ Captured m' u := by
  unfold captureUpvalue
  refine .get ?_
  dsimp only
  obtain ⟨found, before, hsearch, hle, hmem⟩ := searchOpen_ok index hs.opened
  refine .look_bind hsearch ?_
  cases found with
  | some u =>
    have hu := hmem u rfl
    have hroot := hs.reachable_root (Machine.mem_roots.2 (Or.inr (Or.inr (Or.inl hu))))
    exact .pure ⟨.refl hs, hs.opened u hu, hroot⟩
  | none =>
    refine (alloc_tame hs (o := .upvalue (.stacked index)) (by simp [Object.kind])
      (by simp [Object.references]) trivial).bind fun u m₁ h₁ => ?_
    obtain ⟨hs₁, heq, hcell, hkeeps⟩ := h₁
    have hkind : m₁.heap.kind? u = some .upvalue := Heap.kind?_of_cell? hcell
    have hle₁ : before ≤ m₁.openUpvalues.length := by
      rw [heq]
      exact hle
    have hs₂ := open_sane hs₁ hkind hle₁
    have hroots : m₁.roots = m.roots := by
      rw [heq]
      rfl
    refine .bind (Q := fun _ m' => m' =
      { m₁ with openUpvalues := m₁.openUpvalues.insertIdx before u }) (.modify rfl)
      fun _ m₂ h₂ => .pure ?_
    subst h₂
    refine ⟨⟨hs₂, fun x hx => ⟨?_, hkeeps x hx⟩⟩, hkind, ?_⟩
    · exact (hkeeps.reachable hx).mono fun r hr => mem_roots_open hle₁ (Or.inr (hroots ▸ hr))
    · exact hs₂.reachable_root (mem_roots_open hle₁ (Or.inl rfl))

/-- **The variables that a closure captures are found one after another.** -/
theorem captures_tame (base count : Nat) {upvalues : Array Handle} (hs : m.Sane)
    (hupvalues : ∀ u ∈ upvalues, Captured m u) :
    Tame (captures base count upvalues) m fun us m' => Carries m m' ∧ ∀ u ∈ us, Captured m' u := by
  induction count generalizing m upvalues with
  | zero => exact .pure ⟨.refl hs, hupvalues⟩
  | succ count ih =>
    unfold captures
    refine (readByte_tame hs).bind fun origin m₁ h₁ => ?_
    refine (readByte_tame h₁.sane).bind fun index m₂ h₂ => ?_
    have hfound : Tame (if origin ≠ 0 then captureUpvalue (base + index.toNat)
        else frameUpvalue index) m₂ fun u m' => Carries m₂ m' ∧ Captured m' u := by
      refine .ite (fun _ => captureUpvalue_tame h₂.sane _) fun _ => ?_
      refine (frameUpvalue_tame h₂.sane index).mono fun u m' hu => ?_
      obtain ⟨rfl, hu⟩ := hu
      exact ⟨.refl h₂.sane, hu⟩
    refine hfound.ite_bind fun u m₃ h₃ => ?_
    obtain ⟨hcarries, hu⟩ := h₃
    have hall : Carries m m₃ := (h₁.carries.trans h₂.carries).trans hcarries
    refine (ih hall.sane fun y hy => ?_).mono fun us m' hus => ⟨hall.trans hus.1, hus.2⟩
    rcases Array.mem_push.1 hy with hy | rfl
    · exact (hupvalues y hy).carry hall
    · exact hu

theorem makeClosure_safe : Safe makeClosure := by
  intro m hs
  unfold makeClosure
  refine (readObject_tame hs .function).bind fun x m₁ h₁ => ?_
  obtain ⟨h₁, hkind, hreach⟩ := h₁
  obtain ⟨f, bytes, hf⟩ := Heap.function_of_kind? hkind
  refine .look_bind (Heap.function_eq_ok_iff.2 ⟨bytes, hf⟩) ?_
  refine (frame_tame h₁.sane).bind fun fr m₂ hfr => ?_
  obtain ⟨rfl, -⟩ := hfr
  refine (captures_tame fr.base f.upvalueCount h₁.sane (by simp)).bind fun us m₃ h₃ => ?_
  obtain ⟨hcarries, hus⟩ := h₃
  have hkind₃ : m₃.heap.kind? x = some .function := (hcarries.kind? hreach).trans hkind
  have hrefs : ∀ r ∈ (Object.closure { function := x, upvalues := us }).references,
      m₃.heap.Live r := by
    intro r hr
    rcases List.mem_cons.1 hr with rfl | hr
    · exact Heap.live_of_kind? hkind₃
    · exact Heap.live_of_kind? (hus r (Array.mem_toList_iff.1 hr)).1
  refine (alloc_tame hcarries.sane (by simp [Object.kind]) hrefs
    ⟨hkind₃, fun u hu => (hus u hu).1⟩).bind fun y m₄ h₄ => ?_
  exact push_tame h₄.1 (in_obj (Heap.contains_of_cell? h₄.2.2.1))

/-! ## Moving variables off the stack -/

/-- Fewer captured variables are on the stack. -/
theorem opened_sane {opened : List Handle} (hs : m.Sane)
    (hopen : ∀ u ∈ opened, m.heap.kind? u = some .upvalue) :
    { m with openUpvalues := opened }.Sane :=
  ⟨hs.heap, hs.size_le, hs.length_le, hs.stack, hs.frames, hs.globals, hs.keyed, hopen, hs.initName⟩

/-- **Captured variables are moved off the stack**; nothing is freed. -/
theorem closeFrom_tame (last : Nat) (opened : List Handle) (hs : m.Sane)
    (hopen : ∀ u ∈ opened, m.heap.kind? u = some .upvalue) :
    Tame (closeFrom last opened) m fun _ m' => m'.Sane ∧ ∀ x, m.heap.Live x → m'.heap.Live x := by
  induction opened generalizing m with
  | nil => exact .pure ⟨hs, fun _ hx => hx⟩
  | cons h rest ih =>
    have hrest : ∀ u ∈ rest, m.heap.kind? u = some .upvalue := fun u hu =>
      hopen u (List.mem_cons_of_mem _ hu)
    obtain ⟨u, bytes, hc⟩ := Heap.upvalue_of_kind? (hopen h List.mem_cons_self)
    unfold closeFrom
    refine .look_bind (Heap.upvalue_of_cell? hc) ?_
    cases u with
    | closed v =>
      refine .bind (Q := fun _ m' => m' = { m with openUpvalues := rest }) (.modify rfl)
        fun _ m₁ h₁ => ?_
      subst h₁
      exact ih (opened_sane hs hrest) hrest
    | stacked index =>
      refine .ite (fun _ => ?_) fun _ => .pure ⟨hs, fun _ hx => hx⟩
      refine (slot_tame hs index).bind fun v m₁ hv => ?_
      obtain ⟨rfl, hv⟩ := hv
      refine (setUpvalue_heap_tame hs (hopen h List.mem_cons_self) hv).bind fun _ m₂ h₂ => ?_
      obtain ⟨hs₂, rfl⟩ := h₂
      have hsteady := Heap.steady_replace (o := .upvalue (.closed v)) (fun _ => True) hc rfl rfl
      have hrest₂ : ∀ u ∈ rest, (m₁.heap.replace h (.upvalue (.closed v))).kind? u = some .upvalue :=
        fun u hu => (hsteady.kind u trivial).trans (hrest u hu)
      refine .bind (Q := fun _ m' => m' = { m₁ with
        heap := m₁.heap.replace h (.upvalue (.closed v)), openUpvalues := rest }) (.modify rfl)
        fun _ m₃ h₃ => ?_
      subst h₃
      refine (ih (opened_sane hs₂ hrest₂) hrest₂).mono fun _ m' hm' => ⟨hm'.1, fun x hx => ?_⟩
      exact hm'.2 x ((Heap.live_replace hc).2 hx)

theorem closeUpvalues_tame (hs : m.Sane) (last : Nat) :
    Tame (closeUpvalues last) m fun _ m' => m'.Sane ∧ ∀ x, m.heap.Live x → m'.heap.Live x := by
  unfold closeUpvalues
  exact .get (closeFrom_tame last _ hs hs.opened)

theorem closeTop_safe : Safe closeTop := by
  intro m hs
  unfold closeTop
  refine (below_tame hs 0).bind fun top m₁ h₁ => ?_
  subst h₁
  refine (closeUpvalues_tame hs top).bind fun _ m₂ h₂ => ?_
  exact (pop_tame h₂.1).bind fun _ m₃ h₃ => .pure h₃.2.1

theorem ret_safe : Safe ret := by
  intro m hs
  unfold ret
  refine (pop_tame hs).bind fun result m₁ h₁ => ?_
  obtain ⟨hresult, hs₁, hheap⟩ := h₁
  refine (frame_tame hs₁).bind fun f m₂ hf => ?_
  obtain ⟨rfl, -⟩ := hf
  refine .bind (Q := fun _ m' => m' = { m₂ with frames := m₂.frames.tail }) (.modify rfl)
    fun _ m₃ h₃ => ?_
  subst h₃
  refine (closeUpvalues_tame hs₁.tail f.base).bind fun _ m₄ h₄ => .get ?_
  refine .ite (fun _ => .bind (Q := fun _ m' => m'.Sane) (.modify ?_) fun _ _ h => .pure h)
    fun _ => ?_
  · exact h₄.1.stack_to (by simp) (Nat.zero_le _)
  · refine (truncate_tame h₄.1 f.base).bind fun _ m₅ h₅ => ?_
    refine (push_tame h₅.1 fun x hx => ?_).bind fun _ m₆ h₆ => .pure h₆
    rw [h₅.2]
    exact h₄.2 x (hheap ▸ hresult x hx)

/-! ## Classes -/

theorem makeClass_safe : Safe makeClass := by
  intro m hs
  unfold makeClass
  refine (readName_tame hs).bind fun name m₁ h₁ => ?_
  obtain ⟨h₁, hname⟩ := h₁
  have hrefs : ∀ r ∈ (Object.cls { name }).references, m₁.heap.Live r := by
    intro r hr
    rw [List.mem_singleton.1 hr]
    exact hname.contains
  refine (alloc_tame h₁.sane (by simp [Object.kind]) hrefs ⟨hname, Heap.keyed_empty⟩).bind
    fun x m₂ h₂ => ?_
  exact push_tame h₂.1 (in_obj (Heap.contains_of_cell? h₂.2.2.1))

/-- The methods of a class are values of the machine. -/
theorem methods_live {c : Class} {bytes : Nat} (hs : m.Sane)
    (hc : m.heap.cell? x = some ⟨.cls c, bytes⟩) : c.methods.Within m.heap.Live :=
  Table.within_iff.2 fun _ hr => hs.heap.closed hc (List.mem_cons_of_mem _ hr)

/-- A class gets other methods. -/
theorem methods_tame {g : Heap → Except Fault Heap} {c : Class} {bytes : Nat} {methods : Table}
    (hs : m.Sane) (hc : m.heap.cell? x = some ⟨.cls c, bytes⟩)
    (hg : g m.heap = .ok (m.heap.replace x (.cls { c with methods })))
    (hw : methods.Within m.heap.Live) (hk : m.heap.Keyed methods) :
    Tame (update g) m fun _ m' => m'.Sane := by
  have hname := (hs.heap.fit hc).1
  refine (update_tame hs hg hc rfl rfl (fun r hr => ?_) ⟨hname, hk⟩).mono fun _ _ h => h.1
  rcases List.mem_cons.1 hr with rfl | hr
  · exact hname.contains
  · exact Table.within_iff.1 hw r hr

theorem inherit_safe : Safe inherit := by
  intro m hs
  unfold inherit
  refine (peek_tame hs 1).bind fun v m₁ hv => ?_
  obtain ⟨rfl, hv⟩ := hv
  refine (requireKind_tame hs hv .cls _).bind fun super m₂ hsuper => ?_
  obtain ⟨rfl, -, hsuper⟩ := hsuper
  refine (peek_tame hs 0).bind fun w m₃ hw => ?_
  obtain ⟨rfl, hw⟩ := hw
  refine (requireKind_tame hs hw .cls _).bind fun sub m₄ hsub => ?_
  obtain ⟨rfl, -, hsub⟩ := hsub
  obtain ⟨c, bytes, hc⟩ := Heap.cls_of_kind? hsuper
  obtain ⟨d, bytes', hd⟩ := Heap.cls_of_kind? hsub
  refine Ends.bind (methods_tame hs hd ?_ ((methods_live hs hc).addAll (methods_live hs hd))
    ((hs.heap.fit hc).2.addAll (hs.heap.fit hd).2)) fun _ m₅ h₅ => ?_
  · simp only [Heap.inheritMethods, Heap.cls_of_cell? hc, Heap.cls_of_cell? hd]
    rfl
  · exact (pop_tame h₅).bind fun _ m₆ h₆ => .pure h₆.2.1

theorem method_safe : Safe method := by
  intro m hs
  unfold method
  refine (readName_tame hs).bind fun name m₁ h₁ => ?_
  obtain ⟨h₁, hname⟩ := h₁
  have hs₁ := h₁.sane
  refine (peek_tame hs₁ 0).bind fun v m₂ hv => ?_
  obtain ⟨rfl, hv⟩ := hv
  refine (peek_tame hs₁ 1).bind fun w m₃ hw => ?_
  obtain ⟨rfl, hw⟩ := hw
  refine (requireKind_tame hs₁ hw .cls _).bind fun cls m₄ hcls => ?_
  obtain ⟨rfl, -, hcls⟩ := hcls
  refine (requireKind_tame hs₁ hv .closure _).bind fun _ m₅ hx => ?_
  obtain ⟨rfl, -⟩ := hx
  obtain ⟨c, bytes, hc⟩ := Heap.cls_of_kind? hcls
  refine .look_bind (Heap.key_eq hname) (Ends.bind (methods_tame hs₁ hc ?_
    ((methods_live hs₁ hc).insert hname.contains hv) ((hs₁.heap.fit hc).2.set hname v))
    fun _ m₆ h₆ => ?_)
  · simp only [Heap.setMethod, Heap.cls_of_cell? hc]
    rfl
  · exact (pop_tame h₆).bind fun _ m₇ h₇ => .pure h₇.2.1

/-! ## Every instruction -/

/-- An operation that does not end the outermost call. -/
theorem Safe.goOn {α : Type} {x : Run α} (h : Safe x) : Safe (do let _ ← x; return false) :=
  fun m hs => (h m hs).bind fun _ _ hm' => .pure hm'

theorem perform_safe (op : Opcode) : Safe (perform op) := by
  cases op with
  | constant =>
    exact fun m hs => (readConstant_tame hs).bind fun v m₁ h₁ =>
      (push_tame h₁.1 h₁.2).bind fun _ _ h => .pure h
  | pushNil => exact Safe.goOn fun m hs => push_tame hs (in_none rfl)
  | pushTrue => exact Safe.goOn fun m hs => push_tame hs (in_none rfl)
  | pushFalse => exact Safe.goOn fun m hs => push_tame hs (in_none rfl)
  | pop => exact Safe.goOn fun m hs => (pop_tame hs).mono fun _ _ h => h.2.1
  | getLocal => exact getLocal_safe.goOn
  | setLocal => exact setLocal_safe.goOn
  | getGlobal => exact getGlobal_safe.goOn
  | defineGlobal => exact defineGlobal_safe.goOn
  | setGlobal => exact setGlobal_safe.goOn
  | getUpvalue => exact getUpvalue_safe.goOn
  | setUpvalue => exact setUpvalue_safe.goOn
  | getProperty => exact getProperty_safe.goOn
  | setProperty => exact setProperty_safe.goOn
  | getSuper => exact getSuper_safe.goOn
  | equal => exact equal_safe.goOn
  | greater => exact (compare_safe _).goOn
  | less => exact (compare_safe _).goOn
  | add => exact add_safe.goOn
  | subtract => exact (arithmetic_safe _).goOn
  | multiply => exact (arithmetic_safe _).goOn
  | divide => exact (arithmetic_safe _).goOn
  | not => exact not_safe.goOn
  | negate => exact negate_safe.goOn
  | print => exact print_safe.goOn
  | jump => exact jump_safe.goOn
  | jumpIfFalse => exact jumpIfFalse_safe.goOn
  | loop => exact jumpBack_safe.goOn
  | call => exact callInstruction_safe.goOn
  | invoke => exact invoke_safe.goOn
  | superInvoke => exact superInvoke_safe.goOn
  | closure => exact makeClosure_safe.goOn
  | closeUpvalue => exact closeTop_safe.goOn
  | ret => exact ret_safe
  | cls => exact makeClass_safe.goOn
  | inherit => exact inherit_safe.goOn
  | method => exact method_safe.goOn

/-- **An instruction ends in a sane state, or with a runtime error in a sane state.** -/
theorem execute_safe : Safe execute := by
  intro m hs
  unfold execute
  have hnext : Safe (do perform (← readOpcode)) := fun m hs =>
    (readOpcode_tame hs).bind fun op m' hm' => perform_safe op m' hm'
  exact .get (.ite (fun _ => (report_tame hs).bind fun _ m₁ h₁ => hnext m₁ h₁) fun _ => hnext m hs)

end Run

end LoxMachine
