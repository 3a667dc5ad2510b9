import LoxMachine.Proofs.Heap.Allocation
import LoxMachine.Proofs.Table.FiniteMap

/-!
# Interned strings

* `Heap.Interned`: the keys of the table of strings are exactly the live strings, each with the hash
  of its contents, and no two of them have the same contents.
* It is kept by a collection, which drops from the table the strings that it frees
  (`Heap.Interned.collect`), by the allocation of anything that is no string (`Interned.alloc`), by
  interning (`Interned.intern`) and by changes to objects that are no strings (`Interned.replace`).
* `Heap.Interned.findBy_eq_none_iff`: looking for contents misses no live string.
-/

namespace LoxMachine

namespace Heap

variable {heap heap' : Heap} {h h' : Handle} {s : String} {cell : Cell} {o : Object}

/-! ## Strings and their hashes -/

/-- The hash of the string that a handle names. -/
def hashOf (heap : Heap) (h : Handle) : UInt32 :=
  match heap.cell? h with
  | some { object := .string text, .. } => text.hash
  | _ => 0

theorem hashOf_of_hasContents (hs : heap.hasContents s h = true) : heap.hashOf h = fnv1a s := by
  obtain ⟨text, bytes, hcell, rfl⟩ := (hasContents_iff heap s h).1 hs
  simp only [hashOf, hcell, text.hash_eq]

theorem hasContents_congr (hc : heap'.cell? h = heap.cell? h) :
    heap'.hasContents s h = heap.hasContents s h := by
  rw [hasContents, hasContents, hc]

theorem hasContents_eq_false (hkind : ∀ cell, heap.cell? h = some cell → cell.object.kind ≠ .string) :
    heap.hasContents s h = false := by
  rw [Bool.eq_false_iff]
  intro hs
  obtain ⟨text, bytes, hcell, -⟩ := (hasContents_iff heap s h).1 hs
  exact hkind _ hcell rfl

theorem hasContents_inj {s' : String} (hs : heap.hasContents s h = true)
    (hs' : heap.hasContents s' h = true) : s = s' := by
  obtain ⟨text, bytes, hcell, rfl⟩ := (hasContents_iff heap s h).1 hs
  obtain ⟨text', bytes', hcell', rfl⟩ := (hasContents_iff heap s' h).1 hs'
  rw [hcell] at hcell'
  cases hcell'
  rfl

/-! ## The invariant -/

/-- The keys of the table of strings are the live strings, each with its hash, and no two of them
have the same contents. -/
structure Interned (heap : Heap) : Prop where
  sound : heap.strings.Sound heap.hashOf
  keys : ∀ h, (∃ v, heap.strings.toMap h = some v) ↔ ∃ s, heap.hasContents s h = true
  unique : ∀ h h' s, heap.hasContents s h = true → heap.hasContents s h' = true → h = h'

theorem interned_of_empty (ha : heap.arena = ({} : Heap).arena) (hs : heap.strings = {}) :
    heap.Interned := by
  have hnone : ∀ s h, heap.hasContents s h = false := fun s h =>
    hasContents_eq_false fun cell hc => by simp [cell?_of_empty ha] at hc
  refine ⟨by rw [hs]; exact Table.sound_empty, fun h => ?_, fun h h' s hc => ?_⟩
  · simp [hs, hnone, Table.toMap, Table.entries]
  · rw [hnone] at hc
    cases hc

/-- Strings that are left, with the part of the table that is theirs. -/
theorem Interned.sub (hi : heap.Interned)
    (hsound : heap'.strings.Sound heap.hashOf)
    (hold : ∀ h s, heap'.hasContents s h = true → heap.hasContents s h = true)
    (hkeys : ∀ h, (∃ v, heap'.strings.toMap h = some v) ↔ ∃ s, heap'.hasContents s h = true) :
    heap'.Interned := by
  refine ⟨hsound.rehash fun h v hmaps => ?_, hkeys, fun h h' s hs hs' =>
    hi.unique h h' s (hold h s hs) (hold h' s hs')⟩
  obtain ⟨s, hs⟩ := (hkeys h).1 ⟨v, (Table.toMap_eq_some_iff hsound.indexed).2 hmaps⟩
  rw [hashOf_of_hasContents hs, hashOf_of_hasContents (hold h s hs)]

theorem Interned.congr (hi : heap.Interned) (hstrings : heap'.strings = heap.strings)
    (hcontents : ∀ h s, heap'.hasContents s h = heap.hasContents s h) : heap'.Interned := by
  refine hi.sub (by rw [hstrings]; exact hi.sound) (fun h s hs => by rwa [← hcontents]) fun h => ?_
  rw [hstrings, hi.keys]
  simp only [hcontents]

theorem Interned.congr_cells (hi : heap.Interned) (hstrings : heap'.strings = heap.strings)
    (hcells : ∀ h, heap'.cell? h = heap.cell? h) : heap'.Interned :=
  hi.congr hstrings fun h _ => hasContents_congr (hcells h)

theorem Interned.record (hi : heap.Interned) (e : Event) : (heap.record e).Interned :=
  hi.congr_cells (by simp) (by simp)

/-! ## Looking for contents -/

/-- **Looking for contents misses no live string.** -/
theorem Interned.findBy_eq_none_iff (hi : heap.Interned) (s : String) :
    heap.strings.findBy (fnv1a s) (heap.hasContents s) = none ↔
      ∀ h, heap.hasContents s h = false := by
  rw [Table.findBy, List.find?_eq_none]
  constructor
  · intro hnone h
    rw [Bool.eq_false_iff]
    intro hs
    obtain ⟨v, hv⟩ := (hi.keys h).2 ⟨s, hs⟩
    refine hnone h ((hi.sound.mem_candidates_iff _).2 ⟨hashOf_of_hasContents hs, v, ?_⟩) hs
    exact (Table.toMap_eq_some_iff hi.sound.indexed).1 hv
  · intro hnone h _
    simp [hnone h]

/-! ## Collection -/

theorem hasContents_collect (ht : heap.Tidy) (roots : List Handle) (s : String) (h : Handle) :
    (heap.collect roots).hasContents s h =
      (heap.isMarked (heap.reach roots) h && heap.hasContents s h) := by
  classical
  have hcell := cell?_collect ht roots h
  by_cases hr : heap.Reachable (heap.gray ++ roots) h
  · rw [if_pos hr] at hcell
    rw [hasContents_congr hcell, (isMarked_reach_iff ht.searched roots h).2 hr, Bool.true_and]
  · rw [if_neg hr] at hcell
    have hmarked : heap.isMarked (heap.reach roots) h = false := by
      rw [Bool.eq_false_iff, Ne, isMarked_reach_iff ht.searched]
      exact hr
    rw [hmarked, Bool.false_and, hasContents, hcell]

/-- **A collection drops exactly the strings that it frees.** -/
theorem Interned.collect (hi : heap.Interned) (ht : heap.Tidy) (roots : List Handle) :
    (heap.collect roots).Interned := by
  obtain ⟨hsound, hmap⟩ := hi.sound.retain (heap.isMarked (heap.reach roots))
  have hcontents := hasContents_collect ht roots
  refine hi.sub (by rw [strings_collect]; exact hsound) (fun h s hs => ?_) fun h => ?_
  · rw [hcontents, Bool.and_eq_true] at hs
    exact hs.2
  · rw [strings_collect, hmap]
    simp only [hcontents, Bool.and_eq_true, exists_and_left, ← hi.keys]
    split <;> simp_all

theorem Interned.markAll (hi : heap.Interned) (early : List Handle) :
    (heap.markAll early).Interned := hi.congr_cells rfl (cell?_markAll heap early)

theorem Interned.prepare (hi : heap.Interned) (ht : heap.Tidy) (roots : List Handle) (o : Object) :
    (heap.prepare roots o).Interned := by
  have hcharged : (heap.charged o).Interned := hi.congr_cells rfl (cell?_charged heap o)
  unfold Heap.prepare
  split
  · exact hcharged.collect (ht.charged o) _
  · exact hcharged

/-! ## Allocation -/

theorem fresh_alloc (ht : heap.Tidy) (roots : Thunk (List Handle)) (o : Object) :
    (heap.prepare roots.get o).cell? (heap.alloc roots o).1 = none := by
  rw [alloc_eq]
  exact (place_places (ht.prepare roots.get o) o o.storage).fresh

/-- An allocation changes nothing but the place of the new object in the heap prepared for it. -/
theorem cell?_alloc (ht : heap.Tidy) (roots : Thunk (List Handle)) (o : Object) (h : Handle) :
    (heap.alloc roots o).2.cell? h =
      if h = (heap.alloc roots o).1 then some ⟨o, o.storage⟩
      else (heap.prepare roots.get o).cell? h := by
  rw [alloc_eq, cell?_record, (place_places (ht.prepare roots.get o) o o.storage).cell]

/-- The strings after an allocation: those of the heap prepared for it, and the new object. -/
theorem hasContents_alloc (ht : heap.Tidy) (roots : Thunk (List Handle)) (o : Object) :
    (heap.alloc roots o).2.hasContents s h = true ↔
      (h = (heap.alloc roots o).1 ∧ ∃ text, o = .string text ∧ text.contents = s) ∨
        (heap.prepare roots.get o).hasContents s h = true := by
  have hfresh := fresh_alloc ht roots o
  rw [hasContents_iff, hasContents_iff, cell?_alloc ht]
  by_cases hh : h = (heap.alloc roots o).1
  · rw [if_pos hh, hh, hfresh]
    constructor
    · rintro ⟨text, bytes, hcell, hs⟩
      cases hcell
      exact Or.inl ⟨rfl, text, rfl, hs⟩
    · rintro (⟨-, text, rfl, hs⟩ | ⟨text, bytes, hbad, -⟩)
      · exact ⟨text, _, rfl, hs⟩
      · cases hbad
  · rw [if_neg hh]
    simp [hh]

theorem Interned.alloc (hi : heap.Interned) (ht : heap.Tidy) (roots : Thunk (List Handle))
    (hkind : o.kind ≠ .string) : (heap.alloc roots o).2.Interned := by
  refine (hi.prepare ht roots.get o).congr (strings_alloc ht roots o) fun h s => ?_
  rw [Bool.eq_iff_iff, hasContents_alloc ht]
  constructor
  · rintro (⟨-, text, rfl, -⟩ | hs)
    · exact absurd rfl hkind
    · exact hs
  · exact Or.inr

/-- A string with new contents, entered in the table. -/
theorem Interned.enter (hi : heap.Interned) (hnew : ∀ x, heap.hasContents s x = false)
    (hcontents : ∀ x s', heap'.hasContents s' x = true ↔
      (x = h ∧ s' = s) ∨ heap.hasContents s' x = true)
    (hstrings : heap'.strings = heap.strings.insert ⟨h, fnv1a s⟩ .nil) : heap'.Interned := by
  have hself : heap'.hasContents s h = true := (hcontents h s).2 (Or.inl ⟨rfl, rfl⟩)
  have hrehash : heap.strings.Sound heap'.hashOf := by
    refine hi.sound.rehash fun x v hmaps => ?_
    obtain ⟨s', hs'⟩ := (hi.keys x).1 ⟨v, (Table.toMap_eq_some_iff hi.sound.indexed).2 hmaps⟩
    rw [hashOf_of_hasContents hs', hashOf_of_hasContents ((hcontents x s').2 (Or.inr hs'))]
  have hkey : (⟨h, fnv1a s⟩ : Key).hash = heap'.hashOf h := (hashOf_of_hasContents hself).symm
  obtain ⟨hsound, -, hmap⟩ := hrehash.set hkey .nil
  refine ⟨by rw [hstrings]; exact hsound, fun x => ?_, fun x y s' hx hy => ?_⟩
  · rw [Table.insert] at hstrings
    rw [hstrings, hmap, Function.update_apply]
    by_cases hx : x = h
    · rw [if_pos hx, hx]
      exact ⟨fun _ => ⟨s, hself⟩, fun _ => ⟨_, rfl⟩⟩
    · rw [if_neg hx, hi.keys]
      simp [hcontents, hx]
  · rw [hcontents] at hx hy
    rcases hx with ⟨rfl, hs⟩ | hx <;> rcases hy with ⟨rfl, hs'⟩ | hy
    · rfl
    · rw [hs, hnew] at hy
      cases hy
    · rw [hs', hnew] at hx
      cases hx
    · exact hi.unique x y s' hx hy

/-- **Interning keeps the strings interned.** -/
theorem Interned.intern (hi : heap.Interned) (ht : heap.Tidy) (roots : Thunk (List Handle))
    (s : String) : (heap.intern roots s).2.Interned := by
  cases hf : heap.strings.findBy (Text.ofString s).hash (heap.hasContents s) with
  | some h =>
    have hintern : heap.intern roots s = (h, heap) := by simp [Heap.intern, hf]
    rw [hintern]
    exact hi
  | none =>
    have hnone := (hi.findBy_eq_none_iff s).1 hf
    let o : Object := .string (Text.ofString s)
    have hintern : (heap.intern roots s).2 = { (heap.alloc roots o).2 with
        strings := (heap.alloc roots o).2.strings.insert
          ⟨(heap.alloc roots o).1, fnv1a s⟩ .nil } := by
      simp only [Heap.intern, hf, o]
      rfl
    -- the collection before the allocation brings no string back
    refine (hi.prepare ht roots.get o).enter (s := s) (h := (heap.alloc roots o).1) (fun x => ?_)
      (fun x s' => ?_) (by rw [hintern, ← strings_alloc ht])
    · rw [Bool.eq_false_iff]
      intro hs
      obtain ⟨text, bytes, hcell, htext⟩ := (hasContents_iff _ s x).1 hs
      have hold := (shrinks_prepare ht roots.get o).old hcell
      have hcontents := (hasContents_iff heap s x).2 ⟨text, bytes, hold, htext⟩
      rw [hnone x] at hcontents
      cases hcontents
    · have hsame : (heap.intern roots s).2.hasContents s' x =
          (heap.alloc roots o).2.hasContents s' x := by
        rw [hintern]
        exact hasContents_congr (cell?_congr rfl x)
      have htext : (∃ text, o = .string text ∧ text.contents = s') ↔ s' = s := by
        simp [o, Text.ofString, eq_comm]
      rw [hsame, hasContents_alloc ht, htext]

/-- **Interning finds the string with the contents, if there is one.** -/
theorem Interned.intern_eq (hi : heap.Interned) (roots : Thunk (List Handle))
    (hs : heap.hasContents s h = true) : heap.intern roots s = (h, heap) := by
  cases hf : heap.strings.findBy (Text.ofString s).hash (heap.hasContents s) with
  | some h' =>
    have hintern : heap.intern roots s = (h', heap) := by simp [Heap.intern, hf]
    rw [hintern, hi.unique h' h s (List.find?_some hf) hs]
  | none =>
    rw [(hi.findBy_eq_none_iff s).1 hf h] at hs
    cases hs

theorem hasContents_intern (ht : heap.Tidy) (roots : Thunk (List Handle)) (s : String) :
    (heap.intern roots s).2.hasContents s (heap.intern roots s).1 = true := by
  rcases intern_spec ht roots s with ⟨hs, heq⟩ | ⟨-, ha, -⟩
  · rw [heq]
    exact hs
  · exact (hasContents_iff _ _ _).2 ⟨_, _, ha.new, rfl⟩

/-! ## Change -/

/-- Objects that are no strings change. -/
theorem Interned.overwrite (hi : heap.Interned) (hstrings : heap'.strings = heap.strings)
    (hcell : heap.cell? h = some cell) (hkind : cell.object.kind ≠ .string)
    (hkind' : o.kind ≠ .string) {bytes : Nat}
    (hcells : ∀ x, heap'.cell? x = if x = h then some ⟨o, bytes⟩ else heap.cell? x) :
    heap'.Interned := by
  refine hi.congr hstrings fun x s => ?_
  by_cases hx : x = h
  · subst hx
    rw [hasContents_eq_false, hasContents_eq_false]
    · intro cell' hc
      rw [hcell] at hc
      cases hc
      exact hkind
    · intro cell' hc
      rw [hcells, if_pos rfl] at hc
      cases hc
      exact hkind'
  · exact hasContents_congr (by rw [hcells, if_neg hx])

theorem Interned.replace (hi : heap.Interned) (hcell : heap.cell? h = some cell)
    (hkind : cell.object.kind ≠ .string) (hkind' : o.kind ≠ .string) :
    (heap.replace h o).Interned :=
  hi.overwrite (strings_replace heap h o) hcell hkind hkind' (cell?_replace hcell o)

end Heap

end LoxMachine
