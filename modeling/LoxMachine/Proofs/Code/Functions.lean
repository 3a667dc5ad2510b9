import LoxMachine.Proofs.Code.Verifier
import LoxMachine.Proofs.Heap.Allocation

/-!
# Compiled functions in the heap

* `Heap.Keeps roots heap heap'`: what can be reached from `roots` is the same in both heaps.
* `Heap.Compiled`: a function that is laid out, with a string for its name and with only strings
  and compiled functions among its constants.
* `Compiled.keep`: a function stays compiled as long as what can be reached from it is kept.
* `Heap.Nested` is the tree of functions under the constants of a function, and
  `Compiled.verified` says that all of them are verified.
-/

namespace LoxMachine

namespace Heap

variable {heap heap' heap'' : Heap} {roots roots' : List Handle} {h x : Handle} {o : Object}

/-! ## Heaps that keep what can be reached -/

/-- What can be reached from the roots is kept. -/
def Keeps (heap : Heap) (roots : List Handle) (heap' : Heap) : Prop :=
  ∀ x, heap.Reachable roots x → heap'.cell? x = heap.cell? x

theorem Keeps.refl (heap : Heap) (roots : List Handle) : heap.Keeps roots heap := fun _ _ => rfl

theorem Keeps.mono (h : heap.Keeps roots heap') (hsub : ∀ r ∈ roots', r ∈ roots) :
    heap.Keeps roots' heap' :=
  fun x hx => h x (hx.mono hsub)

theorem Keeps.contains (h : heap.Keeps roots heap') (hx : heap.Reachable roots x) :
    heap'.contains x = true := by
  rw [Heap.contains, h x hx]
  exact hx.contains

/-- What can be reached before can be reached afterwards. -/
theorem Keeps.reachable (h : heap.Keeps roots heap') (hx : heap.Reachable roots x) :
    heap'.Reachable roots x := by
  induction hx with
  | root hm hc => exact .root hm (h.contains (.root hm hc))
  | reference hx hcell hm hc ih =>
    exact .reference ih (by rw [h _ hx]; exact hcell) hm (h.contains (.reference hx hcell hm hc))

theorem Keeps.trans (h : heap.Keeps roots heap') (h' : heap'.Keeps roots heap'') :
    heap.Keeps roots heap'' :=
  fun x hx => by rw [h' x (h.reachable hx), h x hx]

theorem Allocates.keeps (h : heap.Allocates roots o x heap') :
    heap.Keeps (o.references ++ roots) heap' :=
  fun _ hx => (h.kept hx).2

theorem keeps_intern (ht : heap.Tidy) (roots : Thunk (List Handle)) (s : String) :
    heap.Keeps roots.get (heap.intern roots s).2 := by
  rcases intern_spec ht roots s with ⟨-, heq⟩ | ⟨-, ha, -⟩
  · rw [heq]
    exact .refl heap _
  · exact ha.keeps.mono fun r hr => List.mem_append_right _ hr

theorem tidy_intern (ht : heap.Tidy) (roots : Thunk (List Handle)) (s : String) :
    (heap.intern roots s).2.Tidy := by
  rcases intern_spec ht roots s with ⟨-, heq⟩ | ⟨-, ha, -⟩
  · rw [heq]
    exact ht
  · exact ha.tidy

/-! ## Strings -/

/-- The handle names a string. -/
def IsString (heap : Heap) (h : Handle) : Prop :=
  ∃ text bytes, heap.cell? h = some ⟨.string text, bytes⟩

theorem IsString.contains (h : heap.IsString x) : heap.contains x = true := by
  obtain ⟨text, bytes, hcell⟩ := h
  exact contains_of_cell? hcell

theorem IsString.congr (h : heap.IsString x) (hcell : heap'.cell? x = heap.cell? x) :
    heap'.IsString x := by
  obtain ⟨text, bytes, hc⟩ := h
  exact ⟨text, bytes, by rw [hcell, hc]⟩

theorem isString_intern (ht : heap.Tidy) (roots : Thunk (List Handle)) (s : String) :
    (heap.intern roots s).2.IsString (heap.intern roots s).1 := by
  rcases intern_spec ht roots s with ⟨hc, heq⟩ | ⟨-, ha, -⟩
  · obtain ⟨text, bytes, hcell, -⟩ := (hasContents_iff heap s _).1 hc
    exact ⟨text, bytes, by rw [heq, hcell]⟩
  · exact ⟨_, _, ha.new⟩

theorem constantKind_of_isString (h : heap.IsString x) : heap.constantKind (.obj x) = .string := by
  obtain ⟨text, bytes, hcell⟩ := h
  simp [constantKind, hcell]

theorem constantKind_eq_function_iff {n : Nat} : heap.constantKind (.obj x) = .function n ↔
    ∃ f bytes, heap.cell? x = some ⟨.function f, bytes⟩ ∧ f.upvalueCount = n := by
  cases hc : heap.cell? x with
  | none => simp [constantKind, hc]
  | some cell =>
    obtain ⟨o, bytes⟩ := cell
    cases o <;> simp [constantKind, hc]

theorem constantKind_congr (hcell : heap'.cell? x = heap.cell? x) :
    heap'.constantKind (.obj x) = heap.constantKind (.obj x) := by
  simp [constantKind, hcell]

/-! ## Functions -/

/-- The handle names a function that is laid out, as are the functions among its constants. -/
inductive Compiled (heap : Heap) : Handle → Prop
  | intro {h : Handle} {f : Function} {bytes : Nat} {entry : Shape}
      (cell : heap.cell? h = some ⟨.function f, bytes⟩)
      (name : ∀ n, f.name = some n → heap.IsString n)
      (constants : ∀ x, .obj x ∈ f.chunk.constants → ¬heap.IsString x → Compiled heap x)
      (arity : entry.length = f.arity + 1)
      (laid : WellLaid (f.pool heap) f.chunk.written { entry } none) : Compiled heap h

theorem Compiled.contains (h : heap.Compiled x) : heap.contains x = true := by
  cases h with
  | intro cell => exact contains_of_cell? cell

/-- The pool of a function whose constants are kept. -/
theorem pool_congr {f : Function}
    (hcell : ∀ x, .obj x ∈ f.chunk.constants → heap'.cell? x = heap.cell? x) :
    f.pool heap' = f.pool heap := by
  have hmap : f.chunk.constants.toList.map heap'.constantKind =
      f.chunk.constants.toList.map heap.constantKind := by
    refine List.map_congr_left fun v hv => ?_
    cases v with
    | obj x => exact constantKind_congr (hcell x (Array.mem_toList_iff.1 hv))
    | _ => rfl
  rw [Function.pool, Function.pool, hmap]

/-- A constant is one of the references of its function. -/
theorem mem_references_of_constant {f : Function} (hx : Value.obj x ∈ f.chunk.constants) :
    x ∈ (Object.function f).references :=
  List.mem_append_right _ (List.mem_filterMap.2 ⟨.obj x, Array.mem_toList_iff.2 hx, rfl⟩)

/-- **A compiled function stays one as long as what can be reached from it is kept.** -/
theorem Compiled.keep (h : heap.Compiled x) (hk : heap.Keeps [x] heap') : heap'.Compiled x := by
  induction h with
  | @intro h f bytes entry cell name constants arity laid ih =>
    have hself : heap.Reachable [h] h := .root (List.mem_singleton_self h) (contains_of_cell? cell)
    have hname : ∀ n, f.name = some n → heap.Reachable [h] n := fun n hn =>
      .reference hself cell (List.mem_append_left _ (by simp [hn])) (name n hn).contains
    have hconstant : ∀ x, .obj x ∈ f.chunk.constants → heap.Reachable [h] x := by
      intro x hx
      refine .reference hself cell (mem_references_of_constant hx) ?_
      by_cases hs : heap.IsString x
      · exact hs.contains
      · exact (constants x hx hs).contains
    refine .intro (by rw [hk h hself]; exact cell) (fun n hn => (name n hn).congr (hk n (hname n hn)))
      (fun x hx hs => ?_) arity ?_
    · have hs' : ¬heap.IsString x := fun hs' => hs (hs'.congr (hk x (hconstant x hx)))
      refine ih x hx hs' fun y hy => hk y ?_
      -- what can be reached from a constant can be reached from the function
      induction hy with
      | root hm hc =>
        rw [List.mem_singleton.1 hm]
        exact hconstant x hx
      | reference _ hcell hm hc ih' => exact .reference ih' hcell hm hc
    · rw [pool_congr fun x hx => hk x (hconstant x hx)]
      exact laid

theorem constantKind_of_compiled (h : heap.Compiled x) :
    ∃ f bytes, heap.cell? x = some ⟨.function f, bytes⟩ ∧
      heap.constantKind (.obj x) = .function f.upvalueCount := by
  cases h with
  | @intro h f bytes _ cell => exact ⟨f, bytes, cell, by simp [constantKind, cell]⟩

/-! ## The functions under a function -/

/-- The functions among the constants of a function, the functions among theirs, and so on. -/
inductive Nested (heap : Heap) (h : Handle) : Handle → Prop
  | self : Nested heap h h
  | constant {x y : Handle} {f : Function} : Nested heap h x → heap.function x = .ok f →
      .obj y ∈ f.chunk.constants → heap.asKind .function (.obj y) = .ok (some y) → Nested heap h y

theorem function_eq_ok_iff {f : Function} :
    heap.function h = .ok f ↔ ∃ bytes, heap.cell? h = some ⟨.function f, bytes⟩ := by
  unfold Heap.function Heap.object
  cases hc : heap.cell? h with
  | none => simp [bind, Except.bind]
  | some cell =>
    obtain ⟨o, bytes⟩ := cell
    cases o <;> simp [bind, Except.bind, pure, Except.pure, throw, throwThe, MonadExceptOf.throw]

theorem Compiled.nested (h : heap.Compiled x) {y : Handle} (hn : heap.Nested x y) :
    heap.Compiled y := by
  induction hn with
  | self => exact h
  | constant _ hf hmem hkind ih =>
    rename_i y f hx
    obtain ⟨bytes, hcell⟩ := function_eq_ok_iff.1 hf
    cases ih with
    | intro cell name constants arity laid =>
      rw [hcell] at cell
      cases cell
      refine constants _ hmem ?_
      rintro ⟨text, b, hs⟩
      simp [asKind, object, hs, Object.kind, bind, Except.bind, pure, Except.pure] at hkind

/-- Every function under a compiled function is verified. -/
theorem Compiled.verified (h : heap.Compiled x) {y : Handle} (hn : heap.Nested x y) :
    ∃ f, heap.function y = .ok f ∧ f.Verified heap := by
  cases h.nested hn with
  | @intro _ f bytes entry cell _ _ arity laid =>
    exact ⟨f, function_eq_ok_iff.2 ⟨bytes, cell⟩, verified_of_wellLaid arity laid⟩

end Heap

end LoxMachine
