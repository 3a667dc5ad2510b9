import LoxMachine.Proofs.Heap.Collection

/-!
# What an allocation keeps

An allocation may collect first, so it is described by what survives it.

* `Heap.Allocates heap roots o h heap'`: the object `o` is new under `h`; what can be reached from
  `roots` or from `o` is kept as it was; whatever else is left was there before, and none of it
  refers to something that was freed.
* `Heap.alloc_allocates` says that `Heap.alloc` does this.
* `Heap.intern_spec`: interning finds a live string with the contents, or allocates it.
-/

namespace LoxMachine

namespace Heap

variable {heap heap' : Heap} {roots : List Handle} {o : Object} {h x r : Handle} {cell : Cell}

/-- What making the object `o` under the handle `h` does to a heap. -/
structure Allocates (heap : Heap) (roots : List Handle) (o : Object) (h : Handle) (heap' : Heap) :
    Prop where
  new : heap'.cell? h = some ⟨o, o.storage⟩
  kept : ∀ {x : Handle}, heap.Reachable (o.references ++ roots) x →
    x ≠ h ∧ heap'.cell? x = heap.cell? x
  old : ∀ {x : Handle} {cell : Cell}, x ≠ h → heap'.cell? x = some cell → heap.cell? x = some cell
  closed : ∀ {x r : Handle} {cell : Cell}, x ≠ h → heap'.cell? x = some cell →
    r ∈ cell.object.references → heap.contains r = true → r ≠ h ∧ heap'.contains r = true
  tidy : heap'.Tidy

/-- A heap that was charged for an object. -/
def charged (heap : Heap) (o : Object) : Heap := { heap with bytes := heap.bytes + o.storage }

/-- The heap in which a new object is placed: one that was charged for it, and collected if that
was due. -/
def prepare (heap : Heap) (roots : List Handle) (o : Object) : Heap :=
  if (heap.charged o).isDue then (heap.charged o).collect (o.references ++ roots)
  else heap.charged o

theorem Tidy.charged (ht : heap.Tidy) (o : Object) : (heap.charged o).Tidy := ht.congr rfl

@[simp] theorem cell?_charged (heap : Heap) (o : Object) (x : Handle) :
    (heap.charged o).cell? x = heap.cell? x := cell?_congr rfl x

theorem alloc_eq (heap : Heap) (roots : Thunk (List Handle)) (o : Object) :
    heap.alloc roots o =
      (((heap.prepare roots.get o).place o o.storage).1,
        ((heap.prepare roots.get o).place o o.storage).2.record
          (.allocated ((heap.prepare roots.get o).place o o.storage).1 o.storage o.kind)) := by
  unfold prepare
  rw [← collect_markAll]
  rfl

theorem Tidy.prepare (ht : heap.Tidy) (roots : List Handle) (o : Object) :
    (heap.prepare roots o).Tidy := by
  unfold Heap.prepare
  split
  · exact tidy_collect (ht.charged o) _
  · exact ht.charged o

theorem shrinks_prepare (ht : heap.Tidy) (roots : List Handle) (o : Object) :
    heap.Shrinks (heap.prepare roots o) := by
  unfold prepare
  split
  · have hs := shrinks_collect (ht.charged o) (o.references ++ roots)
    refine ⟨fun hc => by simpa using hs.old hc, fun hc hr hcr => hs.closed hc hr ?_⟩
    rw [contains, cell?_charged]
    exact hcr
  · exact ⟨fun hc => by simpa using hc, fun _ _ hcr => by rw [contains, cell?_charged]; exact hcr⟩

theorem cell?_prepare (ht : heap.Tidy) (hr : heap.Reachable (o.references ++ roots) x) :
    (heap.prepare roots o).cell? x = heap.cell? x := by
  unfold prepare
  split
  · have hr' : (heap.charged o).Reachable (o.references ++ roots) x := hr.congr (cell?_charged heap o)
    rw [cell?_collect_of_reachable (ht.charged o) hr', cell?_charged]
  · exact cell?_charged heap o x

/-- **An allocation keeps what can be reached from its roots and from the new object.** -/
theorem alloc_allocates (ht : heap.Tidy) (roots : Thunk (List Handle)) (o : Object) :
    heap.Allocates roots.get o (heap.alloc roots o).1 (heap.alloc roots o).2 := by
  rw [alloc_eq]
  set mid := heap.prepare roots.get o with hmid
  have hs : heap.Shrinks mid := shrinks_prepare ht roots.get o
  have hp := place_places (ht.prepare roots.get o) o o.storage
  rw [← hmid] at hp
  set h := (mid.place o o.storage).1
  set placed := (mid.place o o.storage).2
  refine ⟨?_, fun {x} hr => ?_, fun hne hc => ?_, fun {x r cell} hne hc hr hcr => ?_,
    hp.tidy.record _⟩
  · rw [cell?_record, hp.cell, if_pos rfl]
  · have hkept := cell?_prepare ht hr
    rw [← hmid] at hkept
    have hne : x ≠ h := by
      rintro rfl
      obtain ⟨cell, hcell⟩ := contains_iff.1 hr.contains
      rw [← hkept, hp.fresh] at hcell
      cases hcell
    exact ⟨hne, by rw [cell?_record, hp.cell, if_neg hne, hkept]⟩
  · rw [cell?_record, hp.cell, if_neg hne] at hc
    exact hs.old hc
  · rw [cell?_record, hp.cell, if_neg hne] at hc
    have hmem := hs.closed hc hr hcr
    have hne' : r ≠ h := by
      rintro rfl
      rw [contains, hp.fresh] at hmem
      cases hmem
    refine ⟨hne', ?_⟩
    rw [contains_record, contains, hp.cell, if_neg hne']
    exact hmem

/-- The string table after an allocation: that of before, or what a collection left of it. -/
theorem strings_alloc (ht : heap.Tidy) (roots : Thunk (List Handle)) (o : Object) :
    (heap.alloc roots o).2.strings = (heap.prepare roots.get o).strings := by
  rw [alloc_eq, strings_record]
  exact (place_places (ht.prepare roots.get o) o o.storage).strings

/-! ## Interning -/

theorem hasContents_iff (heap : Heap) (s : String) (h : Handle) :
    heap.hasContents s h = true ↔
      ∃ text bytes, heap.cell? h = some ⟨.string text, bytes⟩ ∧ text.contents = s := by
  unfold hasContents
  constructor
  · intro hc
    split at hc
    · rename_i text bytes hcell
      exact ⟨text, bytes, hcell, by simpa using hc⟩
    · cases hc
  · rintro ⟨text, bytes, hcell, rfl⟩
    simp [hcell]

/-- **Interning finds a live string with the contents, or allocates it.** -/
theorem intern_spec (ht : heap.Tidy) (roots : Thunk (List Handle)) (s : String) :
    (heap.hasContents s (heap.intern roots s).1 = true ∧ (heap.intern roots s).2 = heap) ∨
      (heap.strings.findBy (Text.ofString s).hash (heap.hasContents s) = none ∧
        heap.Allocates roots.get (.string (Text.ofString s)) (heap.intern roots s).1
          (heap.intern roots s).2 ∧
        (heap.intern roots s).2.strings =
          (heap.prepare roots.get (.string (Text.ofString s))).strings.insert
            ⟨(heap.intern roots s).1, (Text.ofString s).hash⟩ .nil) := by
  cases hf : heap.strings.findBy (Text.ofString s).hash (heap.hasContents s) with
  | some h =>
    have hintern : heap.intern roots s = (h, heap) := by simp [intern, hf]
    rw [hintern]
    exact Or.inl ⟨List.find?_some hf, rfl⟩
  | none =>
    have ha := alloc_allocates ht roots (.string (Text.ofString s))
    have hstr := strings_alloc ht roots (.string (Text.ofString s))
    have hintern : heap.intern roots s =
        ((heap.alloc roots (.string (Text.ofString s))).1,
          { (heap.alloc roots (.string (Text.ofString s))).2 with
            strings := (heap.alloc roots (.string (Text.ofString s))).2.strings.insert
              ⟨(heap.alloc roots (.string (Text.ofString s))).1, (Text.ofString s).hash⟩ .nil }) := by
      simp [intern, hf]
    rw [hintern]
    refine Or.inr ⟨rfl, ?_, by rw [← hstr]⟩
    have hcell : ∀ x, { (heap.alloc roots (.string (Text.ofString s))).2 with
        strings := (heap.alloc roots (.string (Text.ofString s))).2.strings.insert
          ⟨(heap.alloc roots (.string (Text.ofString s))).1, (Text.ofString s).hash⟩ .nil }.cell? x =
        (heap.alloc roots (.string (Text.ofString s))).2.cell? x := fun x => cell?_congr rfl x
    refine ⟨by rw [hcell]; exact ha.new, fun hr => ?_, fun hne hc => ?_, fun hne hc hr hcr => ?_,
      ha.tidy.congr rfl⟩
    · rw [hcell]
      exact ha.kept hr
    · rw [hcell] at hc
      exact ha.old hne hc
    · rw [hcell] at hc
      rw [contains, hcell]
      exact ha.closed hne hc hr hcr

end Heap

end LoxMachine
