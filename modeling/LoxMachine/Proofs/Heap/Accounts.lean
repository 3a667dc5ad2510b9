import LoxMachine.Proofs.Heap.Allocation
import Mathlib.Algebra.Ring.Nat

/-!
# The bytes of a heap

* `Heap.charges` adds up what the objects of a heap are charged for.
* `Heap.Owes heap extra`: the count of bytes is that sum and `extra` on top. A heap at rest owes
  nothing; while an object is being made, its bytes are counted before it is placed.
* No byte is given back that was not charged, so the count never falls short.
* `Heap.Fair`: no collection that was reported has ended with more bytes than it began with.
-/

namespace LoxMachine

/-- The bytes of the object in a place. -/
def Entry.bytes (e : Entry) : Nat := e.cell.elim 0 Cell.bytes

/-- A sum over an array in which one item has been overwritten. -/
theorem sum_put {α : Type} (f : α → Nat) {xs : Array α} {i : Nat} {a : α} (b : α)
    (hi : xs[i]? = some a) :
    ((put xs i b).toList.map f).sum + f a = (xs.toList.map f).sum + f b := by
  have hlist : ∀ (l : List α) (i : Nat), l[i]? = some a →
      ((l.set i b).map f).sum + f a = (l.map f).sum + f b := by
    intro l
    induction l with
    | nil => intro i hi; simp at hi
    | cons x l ih =>
      intro i hi
      cases i with
      | zero =>
        obtain rfl : x = a := by simpa using hi
        simp only [List.set_cons_zero, List.map_cons, List.sum_cons]
        omega
      | succ i =>
        have := ih i (by simpa using hi)
        simp only [List.set_cons_succ, List.map_cons, List.sum_cons]
        omega
  rw [put, Array.toList_setIfInBounds]
  exact hlist _ i (by simpa using hi)

namespace Heap

variable {heap heap' : Heap} {h : Handle} {cell : Cell} {o : Object} {extra : Nat}

/-- What the objects are charged for. -/
def charges (heap : Heap) : Nat := (heap.entries.toList.map Entry.bytes).sum

/-- The count of bytes is what the objects are charged for, and `extra`. -/
def Owes (heap : Heap) (extra : Nat) : Prop := heap.bytes = heap.charges + extra

theorem owes_of_empty (he : heap.entries = #[]) (hb : heap.bytes = 0) : heap.Owes 0 := by
  simp [Owes, charges, he, hb]

theorem Owes.congr (ho : heap.Owes extra) (he : heap'.entries = heap.entries)
    (hb : heap'.bytes = heap.bytes) : heap'.Owes extra := by
  rw [Owes, charges, hb, he]
  exact ho

theorem Owes.record (ho : heap.Owes extra) (e : Event) : (heap.record e).Owes extra :=
  ho.congr (entries_record heap e) (bytes_record heap e)

/-- What is left after an object is taken away, or another one put in its place. -/
theorem charges_put (hc : heap.cell? h = some cell) (e : Entry) :
    ((put heap.entries h.index e).toList.map Entry.bytes).sum + cell.bytes =
      heap.charges + e.bytes :=
  sum_put Entry.bytes e (cell?_eq_some_iff.1 hc)

theorem Owes.cell_le (ho : heap.Owes extra) (hc : heap.cell? h = some cell) :
    cell.bytes ≤ heap.bytes := by
  have hsum : _ = heap.charges + 0 := charges_put hc ⟨h.generation, none⟩
  rw [ho]
  omega

/-! ## Freeing -/

theorem Owes.release (ho : heap.Owes extra) (h : Handle) : (heap.release h).Owes extra := by
  unfold Heap.release
  split
  · exact ho
  · rename_i cell hc
    refine Owes.record ?_ _
    have hsum : _ = heap.charges + 0 := charges_put hc ⟨h.generation + 1, none⟩
    unfold Owes charges at *
    dsimp only
    omega

theorem Owes.foldl_release (dead : List Handle) (ho : heap.Owes extra) :
    (dead.foldl Heap.release heap).Owes extra := by
  induction dead generalizing heap with
  | nil => exact ho
  | cons d dead ih => exact ih (ho.release d)

/-- **A collection gives back what the freed objects were charged for.** -/
theorem Owes.collect (ho : heap.Owes extra) (roots : List Handle) :
    (heap.collect roots).Owes extra := by
  obtain ⟨mid, dead, ⟨he, -, hb⟩, hentries, -, hbytes⟩ := collect_frees heap roots
  exact ((ho.congr he hb).foldl_release dead).congr hentries hbytes

/-! ## Placing -/

/-- The bytes of a new object are charged when it is placed. -/
theorem Owes.place (ho : heap.Owes extra) (ht : heap.Tidy) (o : Object) :
    (heap.place o extra).2.Owes 0 := by
  unfold Heap.place
  split
  · rename_i index free hf
    obtain ⟨generation, he⟩ := ht.free_vacant index (by simp [hf])
    have hsum := sum_put Entry.bytes ⟨generation, some ⟨o, extra⟩⟩ he
    simp only [Entry.bytes, Option.elim_some, Option.elim_none] at hsum
    unfold Owes charges at *
    simp only [he, Option.elim_some]
    exact ho.trans hsum.symm
  · unfold Owes charges at ho ⊢
    simp only [Array.toList_push, List.map_append, List.map_cons, List.map_nil, List.sum_append,
      List.sum_cons, List.sum_nil, ho, Entry.bytes, Option.elim_some]
    rfl

/-- **A new object is charged for.** -/
theorem Owes.alloc (ho : heap.Owes 0) (ht : heap.Tidy) (roots : Thunk (List Handle)) (o : Object) :
    (heap.alloc roots o).2.Owes 0 := by
  have hcharged : (heap.charged o).Owes o.storage := by
    have := ho
    unfold Owes charges Heap.charged at *
    simp only
    omega
  have hprepare : (heap.prepare roots.get o).Owes o.storage := by
    unfold prepare
    split
    · exact hcharged.collect _
    · exact hcharged
  rw [alloc_eq]
  exact Owes.record (hprepare.place (ht.prepare roots.get o) o) _

theorem Owes.intern (ho : heap.Owes 0) (ht : heap.Tidy) (roots : Thunk (List Handle)) (s : String) :
    (heap.intern roots s).2.Owes 0 := by
  unfold Heap.intern
  dsimp only
  split
  · exact ho
  · exact (ho.alloc ht roots _).congr rfl rfl

/-! ## Changing in place -/

/-- **An object that changes is charged for its new size.** -/
theorem Owes.replace (ho : heap.Owes 0) (hc : heap.cell? h = some cell) (o : Object) :
    (heap.replace h o).Owes 0 := by
  have hle := ho.cell_le hc
  have hsum : _ = heap.charges + o.storage := charges_put hc ⟨h.generation, some ⟨o, o.storage⟩⟩
  unfold Heap.replace
  rw [hc]
  unfold Owes charges at *
  dsimp only
  omega

/-! ## Reports -/

/-- No collection that was reported has ended with more bytes than it began with. -/
def Fair (heap : Heap) : Prop :=
  ∀ before after next, .collectionEnds before after next ∈ heap.journal.events → after ≤ before

theorem Fair.congr (hf : heap.Fair) (hj : heap'.journal = heap.journal) : heap'.Fair := by
  rw [Fair, hj]
  exact hf

theorem Fair.record {e : Event} (hf : heap.Fair)
    (he : ∀ before after next, e = .collectionEnds before after next → after ≤ before) :
    (heap.record e).Fair := by
  intro before after next hmem
  unfold Heap.record Journal.record at hmem
  split at hmem
  · rcases Array.mem_push.1 hmem with hmem | heq
    · exact hf before after next hmem
    · exact he before after next heq.symm
  · exact hf before after next hmem

theorem Fair.release (hf : heap.Fair) (h : Handle) : (heap.release h).Fair := by
  unfold Heap.release
  split
  · exact hf
  · exact Fair.record (hf.congr rfl) (by simp)

theorem bytes_release_le (heap : Heap) (h : Handle) : (heap.release h).bytes ≤ heap.bytes := by
  unfold Heap.release
  split
  · exact Nat.le_refl _
  · rw [bytes_record]
    exact Nat.sub_le _ _

theorem Fair.foldl_release (dead : List Handle) (hf : heap.Fair) :
    (dead.foldl Heap.release heap).Fair ∧ (dead.foldl Heap.release heap).bytes ≤ heap.bytes := by
  induction dead generalizing heap with
  | nil => exact ⟨hf, Nat.le_refl _⟩
  | cons d dead ih =>
    obtain ⟨hfair, hle⟩ := ih (hf.release d)
    exact ⟨hfair, Nat.le_trans hle (bytes_release_le heap d)⟩

theorem Fair.recordFollowed (hf : heap.Fair) (m : Marking) : (heap.recordFollowed m).Fair := by
  unfold Heap.recordFollowed
  split
  · rename_i hadmits
    clear hadmits
    rw [← Array.foldl_toList]
    generalize m.followed.toList = hs
    induction hs generalizing heap with
    | nil => exact hf
    | cons h hs ih =>
      refine ih ?_
      dsimp only
      cases heap.cell? h with
      | none => exact hf
      | some cell => exact hf.record (by simp)
  · exact hf

/-- **A collection never ends with more bytes than it began with.** -/
theorem Fair.collect (hf : heap.Fair) (roots : List Handle) : (heap.collect roots).Fair := by
  set marking := heap.reach roots with hmarking
  have hbegun : ((heap.setMarking marking).record .collectionBegins).Fair :=
    Fair.record (hf.congr rfl) (by simp)
  have hbase := hbegun.recordFollowed marking
  have hbytes : (((heap.setMarking marking).record .collectionBegins).recordFollowed marking).bytes =
      heap.bytes := (bytes_recordFollowed _ _).trans (bytes_record _ _)
  unfold Heap.collect
  dsimp only
  rw [← hmarking]
  generalize ((heap.setMarking marking).record .collectionBegins).recordFollowed marking = base
    at hbase hbytes
  have hretained : { base with strings := base.strings.retain (base.isMarked marking) }.Fair :=
    hbase.congr rfl
  obtain ⟨dead, head, links, marks, hsweep⟩ :=
    exists_sweep { base with strings := base.strings.retain (base.isMarked marking) }
  have hswept := hretained.foldl_release dead
  rw [hsweep]
  refine Fair.record (hswept.1.congr rfl) fun before after next he => ?_
  cases he
  rw [← hbytes]
  exact hswept.2

theorem Fair.alloc (hf : heap.Fair) (roots : Thunk (List Handle)) (o : Object) :
    (heap.alloc roots o).2.Fair := by
  have hcharged : (heap.charged o).Fair := hf.congr rfl
  have hprepare : (heap.prepare roots.get o).Fair := by
    unfold prepare
    split
    · exact hcharged.collect _
    · exact hcharged
  rw [alloc_eq]
  refine Fair.record (hprepare.congr ?_) (by simp)
  unfold Heap.place
  split <;> rfl

theorem Fair.intern (hf : heap.Fair) (roots : Thunk (List Handle)) (s : String) :
    (heap.intern roots s).2.Fair := by
  unfold Heap.intern
  dsimp only
  split
  · exact hf
  · exact (hf.alloc roots _).congr rfl

theorem Fair.replace (hf : heap.Fair) (h : Handle) (o : Object) : (heap.replace h o).Fair := by
  unfold Heap.replace
  split <;> exact hf.congr rfl

end Heap

end LoxMachine
