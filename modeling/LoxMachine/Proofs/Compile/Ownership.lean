import LoxMachine.Proofs.Compile.Levels
import LoxMachine.Proofs.Compile.Verified
import LoxMachine.Proofs.Heap.Unshared

/-!
# Every function has one owner

* `Compiler.Owned`: under the constants of the functions under construction, every function occurs once. All
  actions of the compiler keep this, errors included. Only the body of a function makes a function a constant,
  and it has just been made there.
* `compile_unshared`: under the function that `compile` makes, every function occurs once.
-/

namespace LoxMachine

namespace Compiler

open Compile

variable {c c' : Compiler}

/-- The constants of all functions under construction, the innermost first. -/
def constants (c : Compiler) : List Value := c.drafts.flatMap (·.chunk.constants.toList)

/-- Every function under the constants occurs there once. -/
structure Owned (c : Compiler) : Prop where
  tidy : c.heap.Tidy
  unshared : c.heap.Unshared c.constants

/-- Nothing shared comes up. -/
def Keeping (c c' : Compiler) : Prop := c.Owned → c'.Owned

theorem mem_handles_of_constant {x : Handle} (hx : .obj x ∈ c.constants) :
    x ∈ Compiler.handles c.roots c.draft c.enclosing := by
  obtain ⟨d, hd, hmem⟩ := List.mem_flatMap.1 hx
  refine List.mem_append_right _ (List.mem_flatMap.2 ⟨d, List.mem_reverse.2 hd, ?_⟩)
  exact List.mem_append_right _ (List.mem_filterMap.2 ⟨.obj x, hmem, rfl⟩)

/-- Neither the objects nor the constants change. -/
theorem keeping_of_eq (hheap : c'.heap = c.heap) (hconstants : c'.constants = c.constants) : c.Keeping c' := by
  rintro ⟨htidy, hunshared⟩
  exact ⟨hheap ▸ htidy, by rw [hheap, hconstants]; exact hunshared⟩

theorem heap_pull (ts : List Token) (c : Compiler) : (c.pull ts).heap = c.heap := by
  induction ts generalizing c with
  | nil => rfl
  | cons t ts ih =>
    unfold pull
    split
    · refine (ih _).trans ?_
      unfold errorAt
      split <;> rfl
    · rfl
    · rfl

theorem heap_errorAt (c : Compiler) (t : Token) (d : Diagnosis) : (c.errorAt t d).heap = c.heap := by
  unfold errorAt
  split <;> rfl

theorem constants_of_drafts (h : c'.drafts = c.drafts) : c'.constants = c.constants :=
  congrArg (List.flatMap _) h

/-- A constant is added behind those of the innermost function. -/
theorem constants_addConstant (c : Compiler) (v : Value) :
    (modifyChunk (·.addConstant v) c).2.constants =
      c.draft.chunk.constants.toList ++ v :: c.enclosing.flatMap (·.chunk.constants.toList) := by
  change (c.draft.chunk.constants.push v).toList ++ _ = _
  rw [Array.toList_push, List.append_assoc]
  rfl

/-- A live constant that is no function. -/
theorem Owned.addConstant {v : Value} (hc : c.Owned) (hv : c.heap.function? v = none)
    (hlive : ∀ x, v = .obj x → c.heap.contains x = true) : (modifyChunk (·.addConstant v) c).2.Owned := by
  refine ⟨hc.tidy, ?_⟩
  rw [constants_addConstant]
  exact hc.unshared.insert hv hlive

theorem constants_resolve {name : String} {d : Draft} {outer : List Draft} {r : Draft.Resolution}
    (h : Draft.resolve name d outer = some r) :
    (r.draft :: r.enclosing).flatMap (·.chunk.constants.toList) =
      (d :: outer).flatMap (·.chunk.constants.toList) := by
  have hcapture : ∀ (d : Draft) (c : Capture), (d.capture c).draft.chunk = d.chunk := fun d c => by
    unfold Draft.capture
    split
    · rfl
    · split <;> rfl
  induction outer generalizing d r with
  | nil => cases h
  | cons e outer ih =>
    unfold Draft.resolve at h
    split at h
    · rw [← Option.some.inj h]
      simp only [List.flatMap_cons, hcapture]
    · split at h
      · cases h
      · rename_i r' hr
        rw [← Option.some.inj h]
        change (d.capture _).draft.chunk.constants.toList ++ _ = d.chunk.constants.toList ++ _
        rw [hcapture]
        exact congrArg _ (ih hr)

theorem Owned.intern (hc : c.Owned) (s : String) : (intern s c).2.Owned :=
  ⟨Heap.tidy_intern hc.tidy _ s,
    hc.unshared.keep (Heap.keeps_intern hc.tidy _ s) fun _ => mem_handles_of_constant⟩

instance : Steady Keeping where
  refl _ := id
  trans h h' := h' ∘ h
  report c t d := keeping_of_eq (heap_errorAt c t d) (constants_of_drafts (drafts_errorAt c t d))
  read c := keeping_of_eq (heap_pull c.rest _)
    (constants_of_drafts (drafts_pull c.rest { c with previous := c.current }))
  calm _ := keeping_of_eq rfl rfl
  intern _ s hc := hc.intern s
  function c f := fun ⟨htidy, hunshared⟩ =>
    have ha := Heap.alloc_allocates htidy (Compiler.handles c.roots c.draft c.enclosing) (.function f)
    ⟨ha.tidy, hunshared.keep ha.keeps fun _ hx => List.mem_append_right _ (mem_handles_of_constant hx)⟩
  record c e := fun ⟨htidy, hunshared⟩ => ⟨htidy.record e, hunshared.congr (Heap.cell?_record c.heap e)⟩
  write c f _ h := keeping_of_eq rfl (congrArg (·.toList ++ _) h)
  number c n := fun hc => hc.addConstant rfl nofun
  string c s := fun hc => by
    have hstring := Heap.isString_intern hc.tidy (Compiler.handles c.roots c.draft c.enclosing) s
    refine (hc.intern s).addConstant (Heap.function?_of_isString hstring) fun x hx => ?_
    rw [← Value.obj.inj hx]
    exact hstring.contains
  count _ := keeping_of_eq rfl rfl
  declare _ _ _ := keeping_of_eq rfl rfl
  settle c := by
    refine keeping_of_eq rfl ?_
    change List.flatMap _ ((if c.draft.depth = 0 then c.draft else _) :: c.enclosing) = _
    split
    · rfl
    · split <;> rfl
  resolve _ _ _ h := keeping_of_eq rfl (constants_resolve h)

instance : Scoping Keeping where
  classes _ _ := keeping_of_eq rfl rfl
  scope _ _ := keeping_of_eq rfl rfl
  forget _ _ := keeping_of_eq rfl rfl

/-! ## Functions -/

instance (kind : FunctionKind) : Along Keeping (beginFunction kind) := by
  have hbegin : ∀ name : Handle, Along Keeping (modify fun c => { c with
      draft := .start kind (some name), enclosing := c.draft :: c.enclosing } : Compile Unit) :=
    fun name => ⟨fun c => keeping_of_eq rfl rfl⟩
  exact inferInstanceAs (Along Keeping (_ >>= _))

/-- A function is finished, and its constants are still owned beside those of the functions around it. -/
theorem endFunction_owned (hc : c.Owned) : (endFunction c).2.heap.Tidy ∧
    (endFunction c).2.heap.Unshared
      ((endFunction c).1.chunk.constants.toList ++ (endFunction c).2.constants) := by
  have hreturn : (emitReturn c).2.Owned := Along.along (R := Keeping) (x := emitReturn) c hc
  change (reportListing (emitReturn c).2.draft (emitReturn c).2.leave).2.heap.Tidy ∧ _
  change _ ∧ Heap.Unshared (reportListing (emitReturn c).2.draft (emitReturn c).2.leave).2.heap
    ((emitReturn c).2.draft.chunk.constants.toList ++
      (reportListing (emitReturn c).2.draft (emitReturn c).2.leave).2.constants)
  generalize (emitReturn c).2 = c₁ at hreturn
  obtain ⟨heap, heq, htidy, hcells⟩ := reportListing_eq c₁.draft c₁.leave
  have hleave : c₁.leave.heap = c₁.heap ∧
      c₁.draft.chunk.constants.toList ++ c₁.leave.constants = c₁.constants := by
    unfold Compiler.leave Compiler.constants Compiler.drafts
    split
    · rename_i hnil
      simp [hnil, Draft.start, Chunk.empty]
    · rename_i d outer hcons
      simp [hcons]
  rw [heq]
  refine ⟨htidy (hleave.1 ▸ hreturn.tidy), ?_⟩
  change heap.Unshared (_ ++ c₁.leave.constants)
  rw [hleave.2]
  exact hreturn.unshared.congr fun x => (hcells x).trans (by rw [hleave.1])

/-- There may be too many constants, which is an error. -/
theorem makeConstant_owned {α : Type} {v : Value} {f : UInt8 → Compile α} [∀ i, Along Keeping (f i)]
    (h : (modifyChunk (·.addConstant v) c).2.Owned) : ((makeConstant v >>= f) c).2.Owned := by
  let index := c.draft.chunk.constants.size
  let answer : Compile UInt8 := do
    if byteCount ≤ index then
      error .tooManyConstants
      return 0
    return UInt8.ofNat index
  have hanswer : Along Keeping answer := by
    dsimp only [answer]
    infer_instance
  exact Along.along (R := Keeping) (x := answer >>= f) _ h

/-- **A finished function is made and becomes a constant**, in place of its own constants. -/
theorem closing_owned {f : Draft → UInt8 → Compile Unit} [∀ d i, Along Keeping (f d i)] :
    Along Keeping (do
      let d ← endFunction
      let h ← alloc (.function d.function)
      f d (← makeConstant (.obj h))) := by
  refine ⟨fun c hc => ?_⟩
  obtain ⟨htidy, hunshared⟩ := endFunction_owned hc
  change ((makeConstant (.obj (alloc (.function (endFunction c).1.function) (endFunction c).2).1) >>=
    f (endFunction c).1) (alloc (.function (endFunction c).1.function) (endFunction c).2).2).2.Owned
  generalize (endFunction c).1 = d at hunshared ⊢
  generalize (endFunction c).2 = c₁ at htidy hunshared ⊢
  have ha := Heap.alloc_allocates htidy (Compiler.handles c₁.roots c₁.draft c₁.enclosing)
    (.function d.function)
  refine makeConstant_owned ⟨ha.tidy, ?_⟩
  rw [constants_addConstant]
  exact Heap.Unshared.close hunshared ha fun x => mem_handles_of_constant

theorem functionBody_keeping (decl : Compile Unit) (fuel : Nat) [Along Keeping decl] (kind : FunctionKind) :
    Along Keeping (functionBody decl fuel kind) := by
  have hclosing := closing_owned (f := fun d i => do
    emitWith .closure i
    d.captures.forM fun c => do
      emitByte (if c.isLocal then 1 else 0)
      emitByte c.index)
  unfold functionBody
  refine Along.bind inferInstance fun _ => Along.bind inferInstance fun _ =>
    Along.bind inferInstance fun _ => Along.bind inferInstance fun _ => ?_
  dsimp only
  split <;> infer_instance

instance : Nested Keeping where
  scope _ _ _ := inferInstance
  loop := along_forStatement
  body decl _ fuel kind := functionBody_keeping decl fuel kind
  cls decl _ fuel :=
    have := functionBody_keeping decl fuel
    along_classDeclaration decl fuel

end Compiler

/-! ## The result -/

variable {source : String} {heap heap' : Heap} {roots : Thunk (List Handle)} {h : Handle}

theorem Compile.parse_owned (ht : heap.Tidy) (source : String) (roots : Thunk (List Handle)) (fuel : Nat) :
    (parse fuel (Compiler.start source heap roots)).2.heap.Tidy ∧
      (parse fuel (Compiler.start source heap roots)).2.heap.Unshared
        (parse fuel (Compiler.start source heap roots)).1.chunk.constants.toList := by
  have hstart : (Compiler.start source heap roots).Owned := ⟨ht, .nil heap⟩
  have hscript : (script fuel (Compiler.start source heap roots)).2.Owned :=
    Along.along (R := Compiler.Keeping) (x := script fuel) _ hstart
  have hend := Compiler.endFunction_owned hscript
  exact ⟨hend.1, hend.2.left⟩

/-- **Under the function that is compiled, every function occurs once.** -/
theorem compile_unshared (ht : heap.Tidy) (hok : compile source heap roots = (.ok h, heap')) :
    heap'.Unshared [.obj h] := by
  obtain ⟨htidy, hunshared⟩ := Compile.parse_owned ht source roots
    (Compiler.fuel (Compiler.start source heap roots).rest.length)
  rw [compile_eq] at hok
  dsimp only at hok
  generalize Compile.parse _ _ = parsed at htidy hunshared hok
  obtain ⟨d, c⟩ := parsed
  dsimp only at htidy hunshared hok
  split at hok
  · have ha := Heap.alloc_allocates htidy roots (.function d.function)
    obtain ⟨hh, hheap⟩ := Prod.mk.inj hok
    rw [Except.ok.inj hh, hheap] at ha
    have hconstants : c.heap.Unshared (d.function.chunk.constants.toList ++ ([] ++ [])) := by
      rw [List.append_nil, List.append_nil]
      exact hunshared
    exact hconstants.close ha fun _ => nofun
  · cases hok

end LoxMachine
