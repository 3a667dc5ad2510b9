import LoxMachine.Proofs.Code.Functions

/-!
# Functions with one owner

* `Heap.Visits pending order`: the functions of a worklist, each followed by those among its constants, come in
  this order.
* `mem_order_iff`: they are the functions that are nested in those of the worklist.
* `Heap.Unshared`: under the functions among some values, every function occurs once. This stays so as long as
  what can be reached from the values is kept, and when the constants of a new function are replaced by the
  function: `Unshared.close`.
-/

namespace LoxMachine

namespace Heap

variable {heap heap' : Heap} {h x y : Handle} {v : Value} {vs ws : List Value}
  {pending pending' order order' roots : List Handle}

/-- The handle of a value that is a function. -/
def function? (heap : Heap) : Value → Option Handle
  | .obj x => match heap.cell? x with
    | some ⟨.function _, _⟩ => some x
    | _ => none
  | _ => none

theorem function?_eq_some_iff : heap.function? v = some x ↔
    v = .obj x ∧ ∃ f bytes, heap.cell? x = some ⟨.function f, bytes⟩ := by
  cases v with
  | obj y =>
    cases hcell : heap.cell? y with
    | none =>
      simp only [function?, hcell, reduceCtorEq, Value.obj.injEq, false_iff, not_and, not_exists]
      rintro rfl f bytes h
      simp [hcell] at h
    | some cell =>
      obtain ⟨o, bytes⟩ := cell
      cases o with
      | function f =>
        simp only [function?, hcell, Option.some.injEq, Value.obj.injEq]
        exact ⟨fun h => ⟨h, f, bytes, h ▸ hcell⟩, And.left⟩
      | _ =>
        simp only [function?, hcell, reduceCtorEq, Value.obj.injEq, false_iff, not_and, not_exists]
        rintro rfl f bytes h
        simp [hcell] at h
  | _ => simp [function?]

theorem function?_congr (hcell : heap'.cell? x = heap.cell? x) :
    heap'.function? (.obj x) = heap.function? (.obj x) := by
  simp only [function?, hcell]

theorem function?_of_isString (hs : heap.IsString x) : heap.function? (.obj x) = none := by
  obtain ⟨text, bytes, hcell⟩ := hs
  simp only [function?, hcell]

theorem function?_of_asKind {o : Option Handle} (ho : heap.asKind .function v = .ok o) :
    heap.function? v = o := by
  cases v with
  | obj x =>
    cases hcell : heap.cell? x with
    | none => simp [asKind, object, hcell, bind, Except.bind] at ho
    | some cell =>
      obtain ⟨object, bytes⟩ := cell
      cases object <;>
        simp_all [asKind, Heap.object, function?, bind, Except.bind, pure, Except.pure, Object.kind]
  | _ =>
    cases ho
    rfl

theorem asKind_of_function? (hy : heap.function? (.obj y) = some y) :
    heap.asKind .function (.obj y) = .ok (some y) := by
  obtain ⟨-, f, bytes, hcell⟩ := function?_eq_some_iff.1 hy
  simp [asKind, object, hcell, bind, Except.bind, pure, Except.pure, Object.kind]

theorem filterMap_function?_congr (hcells : ∀ x, .obj x ∈ vs → heap'.cell? x = heap.cell? x) :
    vs.filterMap heap'.function? = vs.filterMap heap.function? := by
  refine List.filterMap_congr fun v hv => ?_
  cases v with
  | obj x => exact function?_congr (hcells x hv)
  | _ => rfl

theorem Nested.trans (hx : heap.Nested h x) (hy : heap.Nested x y) : heap.Nested h y := by
  induction hy with
  | self => exact hx
  | constant _ hf hmem hkind ih => exact .constant ih hf hmem hkind

/-- The functions of a worklist in the order in which they are visited. -/
inductive Visits (heap : Heap) : List Handle → List Handle → Prop
  | nil : Visits heap [] []
  | cons {h : Handle} {f : Function} {bytes : Nat} {pending order : List Handle}
      (cell : heap.cell? h = some ⟨.function f, bytes⟩)
      (live : ∀ x, .obj x ∈ f.chunk.constants → heap.contains x = true)
      (rest : Visits heap (f.chunk.constants.toList.filterMap heap.function? ++ pending) order) :
      Visits heap (h :: pending) (h :: order)

namespace Visits

theorem append (hv : heap.Visits pending order) (hv' : heap.Visits pending' order') :
    heap.Visits (pending ++ pending') (order ++ order') := by
  induction hv with
  | nil => exact hv'
  | cons cell live _ ih =>
    rw [List.append_assoc] at ih
    exact .cons cell live ih

theorem split (hv : heap.Visits (pending ++ pending') order) :
    ∃ before after, order = before ++ after ∧ heap.Visits pending before ∧ heap.Visits pending' after := by
  generalize hp : pending ++ pending' = all at hv
  induction hv generalizing pending with
  | nil =>
    obtain ⟨rfl, rfl⟩ := List.append_eq_nil_iff.1 hp
    exact ⟨[], [], rfl, .nil, .nil⟩
  | @cons h f bytes rest order cell live hv ih =>
    cases pending with
    | nil =>
      obtain rfl : pending' = h :: rest := hp
      exact ⟨[], h :: order, rfl, .nil, .cons cell live hv⟩
    | cons h' pending =>
      obtain ⟨rfl, rfl⟩ := List.cons.inj hp
      obtain ⟨before, after, rfl, hbefore, hafter⟩ := ih (List.append_assoc _ _ _)
      exact ⟨h' :: before, after, rfl, .cons cell live hbefore, hafter⟩

/-- What is visited can be reached. -/
theorem reachable (hv : heap.Visits pending order) (hr : ∀ x ∈ pending, heap.Reachable roots x) :
    ∀ x ∈ order, heap.Reachable roots x := by
  induction hv with
  | nil => exact hr
  | @cons h f bytes pending order cell live _ ih =>
    obtain ⟨hh, hpending⟩ := List.forall_mem_cons.1 hr
    refine List.forall_mem_cons.2 ⟨hh, ih (List.forall_mem_append.2 ⟨fun x hx => ?_, hpending⟩)⟩
    obtain ⟨v, hv, hfunction⟩ := List.mem_filterMap.1 hx
    obtain ⟨rfl, -⟩ := function?_eq_some_iff.1 hfunction
    have hmem := Array.mem_toList_iff.1 hv
    exact .reference hh cell (mem_references_of_constant hmem) (live x hmem)

/-- What is visited is so as long as it is kept. -/
theorem keep (hv : heap.Visits pending order) (hk : heap.Keeps roots heap')
    (hr : ∀ x ∈ pending, heap.Reachable roots x) : heap'.Visits pending order := by
  induction hv with
  | nil => exact .nil
  | @cons h f bytes pending order cell live _ ih =>
    obtain ⟨hh, hpending⟩ := List.forall_mem_cons.1 hr
    have hreach : ∀ x, .obj x ∈ f.chunk.constants → heap.Reachable roots x := fun x hx =>
      .reference hh cell (mem_references_of_constant hx) (live x hx)
    have hsame : f.chunk.constants.toList.filterMap heap'.function? =
        f.chunk.constants.toList.filterMap heap.function? :=
      filterMap_function?_congr fun x hx => hk x (hreach x (Array.mem_toList_iff.1 hx))
    refine .cons ((hk h hh).trans cell) (fun x hx => hk.contains (hreach x hx)) ?_
    rw [hsame]
    refine ih (List.forall_mem_append.2 ⟨fun x hx => ?_, hpending⟩)
    obtain ⟨v, hv, hfunction⟩ := List.mem_filterMap.1 hx
    obtain ⟨rfl, -⟩ := function?_eq_some_iff.1 hfunction
    exact hreach x (Array.mem_toList_iff.1 hv)

theorem pending_subset (hv : heap.Visits pending order) : pending ⊆ order := by
  induction hv with
  | nil => exact List.Subset.refl _
  | cons _ _ _ ih => exact List.cons_subset_cons _ (List.Subset.trans (List.subset_append_right _ _) ih)

/-- With a function, those among its constants are visited. -/
theorem closed (hv : heap.Visits pending order) {f : Function} {bytes : Nat} (hx : x ∈ order)
    (hcell : heap.cell? x = some ⟨.function f, bytes⟩) (hy : .obj y ∈ f.chunk.constants)
    (hfunction : heap.function? (.obj y) = some y) : y ∈ order := by
  induction hv with
  | nil => exact absurd hx List.not_mem_nil
  | cons cell _ hrest ih =>
    rcases List.mem_cons.1 hx with rfl | hx
    · cases cell.symm.trans hcell
      refine List.mem_cons_of_mem _ (hrest.pending_subset (List.mem_append_left _ ?_))
      exact List.mem_filterMap.2 ⟨.obj y, Array.mem_toList_iff.2 hy, hfunction⟩
    · exact List.mem_cons_of_mem _ (ih hx)

/-- **The functions visited are those nested in the ones of the worklist.** -/
theorem mem_order_iff (hv : heap.Visits pending order) : y ∈ order ↔ ∃ x ∈ pending, heap.Nested x y := by
  constructor
  · intro hy
    induction hv with
    | nil => exact absurd hy List.not_mem_nil
    | @cons h f bytes pending order cell _ _ ih =>
      rcases List.mem_cons.1 hy with rfl | hy
      · exact ⟨y, List.mem_cons_self, .self⟩
      obtain ⟨x, hx, hn⟩ := ih hy
      rcases List.mem_append.1 hx with hx | hx
      · refine ⟨h, List.mem_cons_self, ?_⟩
        obtain ⟨v, hv, hfunction⟩ := List.mem_filterMap.1 hx
        obtain ⟨rfl, -⟩ := function?_eq_some_iff.1 hfunction
        have hinner : heap.Nested h x := .constant .self (function_eq_ok_iff.2 ⟨bytes, cell⟩)
          (Array.mem_toList_iff.1 hv) (asKind_of_function? hfunction)
        exact hinner.trans hn
      · exact ⟨x, List.mem_cons_of_mem _ hx, hn⟩
  · rintro ⟨x, hx, hn⟩
    induction hn with
    | self => exact hv.pending_subset hx
    | constant _ hf hmem hkind ih =>
      obtain ⟨bytes, hcell⟩ := function_eq_ok_iff.1 hf
      exact hv.closed ih hcell hmem (function?_of_asKind hkind)

end Visits

/-- The values are live, and every function in the trees under them occurs once. -/
structure Unshared (heap : Heap) (vs : List Value) : Prop where
  live : ∀ x, .obj x ∈ vs → heap.contains x = true
  once : ∃ order, heap.Visits (vs.filterMap heap.function?) order ∧ order.Nodup

namespace Unshared

theorem nil (heap : Heap) : heap.Unshared [] := ⟨fun _ => nofun, [], .nil, List.nodup_nil⟩

theorem reachable (hu : heap.Unshared vs) (hr : ∀ x, .obj x ∈ vs → x ∈ roots) :
    ∀ x ∈ vs.filterMap heap.function?, heap.Reachable roots x := fun x hx => by
  obtain ⟨v, hv, hfunction⟩ := List.mem_filterMap.1 hx
  obtain ⟨rfl, -⟩ := function?_eq_some_iff.1 hfunction
  exact .root (hr x hv) (hu.live x hv)

theorem keep (hu : heap.Unshared vs) (hk : heap.Keeps roots heap') (hr : ∀ x, .obj x ∈ vs → x ∈ roots) :
    heap'.Unshared vs := by
  have hroot : ∀ x, .obj x ∈ vs → heap.Reachable roots x := fun x hx => .root (hr x hx) (hu.live x hx)
  obtain ⟨order, hvisits, hnodup⟩ := hu.once
  refine ⟨fun x hx => hk.contains (hroot x hx), order, ?_, hnodup⟩
  rw [filterMap_function?_congr fun x hx => hk x (hroot x hx)]
  exact hvisits.keep hk (hu.reachable hr)

/-- A heap with the same objects. -/
theorem congr (hu : heap.Unshared vs) (hcells : ∀ x, heap'.cell? x = heap.cell? x) : heap'.Unshared vs := by
  have hkeeps : heap.Keeps (vs.filterMap Value.handle?) heap' := fun x _ => hcells x
  exact hu.keep hkeeps fun x hx => List.mem_filterMap.2 ⟨.obj x, hx, rfl⟩

theorem left (hu : heap.Unshared (vs ++ ws)) : heap.Unshared vs := by
  obtain ⟨order, hvisits, hnodup⟩ := hu.once
  rw [List.filterMap_append] at hvisits
  obtain ⟨before, after, rfl, hbefore, -⟩ := hvisits.split
  exact ⟨fun x hx => hu.live x (List.mem_append_left _ hx), before, hbefore, (List.nodup_append.1 hnodup).1⟩

/-- A live value that is no function. -/
theorem insert (hu : heap.Unshared (vs ++ ws)) (hv : heap.function? v = none)
    (hlive : ∀ x, v = .obj x → heap.contains x = true) : heap.Unshared (vs ++ v :: ws) := by
  obtain ⟨order, hvisits, hnodup⟩ := hu.once
  refine ⟨fun x hx => ?_, order, ?_, hnodup⟩
  · rcases List.mem_append.1 hx with hx | hx
    · exact hu.live x (List.mem_append_left _ hx)
    · rcases List.mem_cons.1 hx with hx | hx
      · exact hlive x hx.symm
      · exact hu.live x (List.mem_append_right _ hx)
  · rw [List.filterMap_append, List.filterMap_cons_none hv, ← List.filterMap_append]
    exact hvisits

/-- **A new function takes the place of its constants.** It is none of the functions that are there. -/
theorem close {f : Function} (hu : heap.Unshared (f.chunk.constants.toList ++ (vs ++ ws)))
    (ha : heap.Allocates roots (.function f) h heap') (hr : ∀ x, .obj x ∈ vs ++ ws → x ∈ roots) :
    heap'.Unshared (vs ++ .obj h :: ws) := by
  have hroots : ∀ x, .obj x ∈ f.chunk.constants.toList ++ (vs ++ ws) →
      x ∈ (Object.function f).references ++ roots := fun x hx => by
    rcases List.mem_append.1 hx with hx | hx
    · exact List.mem_append_left _ (mem_references_of_constant (Array.mem_toList_iff.1 hx))
    · exact List.mem_append_right _ (hr x hx)
  obtain ⟨order, hvisits, hnodup⟩ := hu.once
  have hfresh : h ∉ order := fun hmem => (ha.kept (hvisits.reachable (hu.reachable hroots) h hmem)).1 rfl
  have hu' := hu.keep ha.keeps hroots
  have hfunction : heap'.function? (.obj h) = some h := by simp only [function?, ha.new]
  -- the order is cut into what is under the new function, before it and after it
  have hcut := hvisits.keep ha.keeps (hu.reachable hroots)
  rw [← filterMap_function?_congr fun x hx => ha.keeps x (.root (hroots x hx) (hu.live x hx)),
    List.filterMap_append, List.filterMap_append] at hcut
  obtain ⟨inner, rest, rfl, hinner, hrest⟩ := hcut.split
  obtain ⟨before, after, rfl, hbefore, hafter⟩ := hrest.split
  refine ⟨fun x hx => ?_, before ++ h :: (inner ++ after), ?_, ?_⟩
  · rcases List.mem_append.1 hx with hx | hx
    · exact hu'.live x (List.mem_append_right _ (List.mem_append_left _ hx))
    · rcases List.mem_cons.1 hx with hx | hx
      · rw [Value.obj.inj hx]
        exact contains_of_cell? ha.new
      · exact hu'.live x (List.mem_append_right _ (List.mem_append_right _ hx))
  · rw [List.filterMap_append, List.filterMap_cons_some hfunction]
    refine hbefore.append (.cons ha.new (fun x hx => ?_) (hinner.append hafter))
    exact hu'.live x (List.mem_append_left _ (Array.mem_toList_iff.2 hx))
  · have hperm : (before ++ h :: (inner ++ after)).Perm (h :: (inner ++ (before ++ after))) := by
      refine List.perm_middle.trans (.cons h ?_)
      rw [← List.append_assoc, ← List.append_assoc]
      exact List.perm_append_comm.append_right after
    exact hperm.nodup_iff.2 (List.nodup_cons.2 ⟨hfresh, hnodup⟩)

end Unshared

end Heap

end LoxMachine
