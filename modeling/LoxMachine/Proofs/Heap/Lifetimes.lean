import LoxMachine.Proofs.Heap.History
import LoxMachine.Proofs.Table.Handles

/-!
# The lifetimes of handles

A place of the arena starts a new generation when its object is freed, so a handle that outlives its
object names nothing until the generations of its place wrap around.

* `Heap.Performs allowed`: one operation on a heap, with the handles it answers. What it stores in
  objects is `allowed`.
* `Past` is a heap with its past: the handles it has issued, and how often each place was freed. An
  operation runs at most one collection, so it frees a place at most once.
* `Past.Leads` are sequences of operations. `Past.Dated` is what they keep: the generation of a place
  counts how often it was freed, and a handle that names nothing is of an earlier generation.
* `Past.Dated.not_revived`: as long as no place is freed `2 ^ 32` times, a handle whose object is
  gone names nothing.
-/

namespace LoxMachine

namespace Heap

variable {heap heap' start : Heap} {allowed : Handle → Prop} {h x : Handle} {o : Object}
  {cell : Cell} {answered : List Handle}

/-! ## Generations -/

/-- The generation of a place. One that has not been used is in its first. -/
def generation (heap : Heap) (i : Nat) : UInt32 := heap.entries[i]?.elim 0 Entry.generation

/-- How often an operation that leads to `heap'` frees a place: at most once, and then the place is in
another generation. -/
def freed (heap heap' : Heap) (i : Nat) : Nat :=
  if heap'.generation i = heap.generation i then 0 else 1

theorem generation_eq_of_contains (hc : heap.contains h = true) :
    heap.generation h.index = h.generation := by
  obtain ⟨cell, hcell⟩ := contains_iff.1 hc
  simp [generation, cell?_eq_some_iff.1 hcell]

theorem generation_beyond {i : Nat} (hi : heap.entries.size ≤ i) : heap.generation i = 0 := by
  simp [generation, Array.getElem?_eq_none hi]

/-- Some objects of `start` have been freed, each once. -/
structure Ages (start heap : Heap) : Prop where
  size_eq : heap.entries.size = start.entries.size
  each : ∀ i : Nat, heap.entries[i]? = start.entries[i]? ∨
    ∃ g cell, start.entries[i]? = some ⟨g, some cell⟩ ∧ heap.entries[i]? = some ⟨g + 1, none⟩

theorem ages_refl (heap : Heap) : heap.Ages heap := ⟨rfl, fun _ => .inl rfl⟩

theorem Ages.congr (ha : start.Ages heap) (he : heap'.entries = heap.entries) :
    start.Ages heap' := ⟨he ▸ ha.size_eq, he ▸ ha.each⟩

/-- An object that is freed has not been freed before, as its place would be empty. -/
theorem Ages.release (ha : start.Ages heap) (x : Handle) : start.Ages (heap.release x) := by
  cases hx : heap.cell? x with
  | none =>
    have hsame : heap.release x = heap := by simp [Heap.release, hx]
    rwa [hsame]
  | some cell =>
    have hentries : (heap.release x).entries = put heap.entries x.index ⟨x.generation + 1, none⟩ := by
      simp [Heap.release, hx]
    have hlt := index_lt_of_cell? hx
    have hentry := cell?_eq_some_iff.1 hx
    refine ⟨by rw [hentries, size_put, ha.size_eq], fun i => ?_⟩
    rw [hentries]
    by_cases hi : x.index = i
    · subst hi
      rw [getElem?_put_self _ hlt]
      rcases ha.each x.index with hsame | ⟨g, old, -, hnew⟩
      · exact .inr ⟨_, cell, hsame ▸ hentry, rfl⟩
      · rw [hentry] at hnew
        simp at hnew
    · rw [getElem?_put_ne _ _ hi]
      exact ha.each i

theorem Ages.foldl_release (dead : List Handle) (ha : start.Ages heap) :
    start.Ages (dead.foldl Heap.release heap) := by
  induction dead generalizing heap with
  | nil => exact ha
  | cons x dead ih => exact ih (ha.release x)

theorem ages_collect (heap : Heap) (roots : List Handle) : heap.Ages (heap.collect roots) := by
  obtain ⟨mid, dead, ⟨he, -, -⟩, hentries, -, -⟩ := collect_frees heap roots
  exact (((ages_refl heap).congr he).foldl_release dead).congr hentries

theorem ages_prepare (heap : Heap) (roots : List Handle) (o : Object) :
    heap.Ages (heap.prepare roots o) := by
  unfold prepare
  split
  · exact ⟨(ages_collect (heap.charged o) _).size_eq, (ages_collect (heap.charged o) _).each⟩
  · exact (ages_refl heap).congr rfl

/-! ## Operations -/

/-- What an operation that answers the handles `answered` does to the places of a heap. -/
structure Turns (heap : Heap) (answered : List Handle) (heap' : Heap) : Prop where
  size_le : heap.entries.size ≤ heap'.entries.size
  generation : ∀ i, heap'.generation i = heap.generation i + UInt32.ofNat (heap.freed heap' i)
  unused : ∀ i, heap.entries.size ≤ i → heap.freed heap' i = 0
  lost : ∀ h, heap.contains h = true → heap'.contains h = false → heap.freed heap' h.index = 1
  given : ∀ h ∈ answered, heap'.contains h = true
  new : ∀ h, heap'.contains h = true → heap.contains h = true ∨ h ∈ answered

theorem freed_eq_zero {i : Nat} (hg : heap'.generation i = heap.generation i) :
    heap.freed heap' i = 0 := if_pos hg

theorem freed_eq_one {i : Nat} (hg : heap'.generation i ≠ heap.generation i) :
    heap.freed heap' i = 1 := if_neg hg

/-- The place of a freed object is in another generation. -/
theorem Ages.generation (ha : start.Ages heap) (i : Nat) :
    heap.generation i = start.generation i + UInt32.ofNat (start.freed heap i) := by
  rcases ha.each i with hsame | ⟨g, cell, hold, hnew⟩
  · have hg : heap.generation i = start.generation i := by simp [Heap.generation, hsame]
    rw [freed_eq_zero hg, hg]
    simp
  · have hg : heap.generation i = start.generation i + 1 := by
      simp [Heap.generation, hold, hnew]
    rw [freed_eq_one (by simp [hg]), hg]
    rfl

theorem Ages.old (ha : start.Ages heap) (hc : heap.contains h = true) :
    start.contains h = true := by
  obtain ⟨cell, hcell⟩ := contains_iff.1 hc
  rw [cell?_eq_some_iff] at hcell
  rcases ha.each h.index with hsame | ⟨g, old, -, hnew⟩
  · exact contains_of_cell? (cell?_eq_some_iff.2 (hsame ▸ hcell))
  · rw [hcell] at hnew
    simp at hnew

theorem Ages.lost (ha : start.Ages heap) (hc : start.contains h = true)
    (hgone : heap.contains h = false) : heap.generation h.index ≠ start.generation h.index := by
  obtain ⟨cell, hcell⟩ := contains_iff.1 hc
  rw [cell?_eq_some_iff] at hcell
  rcases ha.each h.index with hsame | ⟨g, old, hold, hnew⟩
  · rw [contains_of_cell? (cell?_eq_some_iff.2 (hsame.trans hcell))] at hgone
    cases hgone
  · simp [Heap.generation, hold, hnew]

/-- A collection answers nothing. -/
theorem Ages.turns (ha : start.Ages heap) : start.Turns [] heap where
  size_le := ha.size_eq.ge
  generation := ha.generation
  unused i hi := freed_eq_zero (by
    rw [generation_beyond hi, generation_beyond (ha.size_eq.symm ▸ hi)])
  lost h hc hgone := freed_eq_one (ha.lost hc hgone)
  given h hh := absurd hh List.not_mem_nil
  new h hc := .inl (ha.old hc)

/-- Placing an object changes no generation. -/
theorem generation_place (ht : heap.Tidy) (o : Object) (bytes i : Nat) :
    (heap.place o bytes).2.generation i = heap.generation i := by
  cases hf : heap.free with
  | nil =>
    have hentries : (heap.place o bytes).2.entries = heap.entries.push ⟨0, some ⟨o, bytes⟩⟩ := by
      simp [place, hf]
    unfold generation
    rw [hentries, Array.getElem?_push]
    split
    · rename_i hi
      simp [hi]
    · rfl
  | cons index free =>
    obtain ⟨g, he⟩ := ht.free_vacant index (by simp [hf])
    have hlt : index < heap.entries.size := (Array.getElem?_eq_some_iff.1 he).1
    have hentries : (heap.place o bytes).2.entries =
        put heap.entries index ⟨g, some ⟨o, bytes⟩⟩ := by simp [place, hf, he]
    unfold generation
    rw [hentries]
    by_cases hi : index = i
    · subst hi
      simp [getElem?_put_self _ hlt, he]
    · rw [getElem?_put_ne _ _ hi]

theorem size_place (heap : Heap) (o : Object) (bytes : Nat) :
    heap.entries.size ≤ (heap.place o bytes).2.entries.size := by
  unfold place
  split <;> simp

theorem turns_alloc (ht : heap.Tidy) (roots : Thunk (List Handle)) (o : Object) :
    heap.Turns [(heap.alloc roots o).1] (heap.alloc roots o).2 := by
  have ha := ages_prepare heap roots.get o
  have htidy := ht.prepare roots.get o
  have hplaces := place_places htidy o o.storage
  rw [alloc_eq]
  dsimp only
  set mid := heap.prepare roots.get o
  set placed := (mid.place o o.storage).2 with hplaced
  set new := (mid.place o o.storage).1
  have hgeneration : ∀ i, (placed.record (.allocated new o.storage o.kind)).generation i =
      mid.generation i := fun i => by
    rw [← generation_place htidy o o.storage i]
    simp [Heap.generation, hplaced]
  have hfreed : ∀ i, heap.freed (placed.record (.allocated new o.storage o.kind)) i =
      heap.freed mid i := fun i => by rw [freed, freed, hgeneration]
  have hcontains : ∀ h, (placed.record (.allocated new o.storage o.kind)).contains h = true ↔
      h = new ∨ mid.contains h = true := by
    intro h
    rw [contains_record, contains, hplaces.cell]
    by_cases hh : h = new <;> simp [hh, contains]
  refine ⟨?_, fun i => ?_, fun i hi => ?_, fun h hc hgone => ?_, fun h hh => ?_, fun h hc => ?_⟩
  · rw [entries_record, ← ha.size_eq]
    exact size_place mid o o.storage
  · rw [hgeneration, hfreed]
    exact ha.generation i
  · rw [hfreed]
    exact ha.turns.unused i hi
  · rw [hfreed]
    refine freed_eq_one (ha.lost hc ?_)
    rw [Bool.eq_false_iff] at hgone ⊢
    exact fun hm => hgone ((hcontains h).2 (.inr hm))
  · exact (hcontains h).2 (.inl (List.mem_singleton.1 hh))
  · rcases (hcontains h).1 hc with rfl | hm
    · exact .inr (List.mem_singleton_self _)
    · exact .inl (ha.old hm)

/-- **The handle of a new object** has not been that of one that is collected for it. -/
theorem alloc_fresh (ht : heap.Tidy) (roots : Thunk (List Handle)) (o : Object) :
    heap.contains (heap.alloc roots o).1 = false := by
  have ha := ages_prepare heap roots.get o
  have hplaces := place_places (ht.prepare roots.get o) o o.storage
  have hgeneration := generation_place (ht.prepare roots.get o) o o.storage
  rw [alloc_eq]
  dsimp only
  set mid := heap.prepare roots.get o
  set new := (mid.place o o.storage).1
  rw [Bool.eq_false_iff]
  intro hold
  have hgone : mid.contains new = false := by rw [contains, hplaces.fresh]; rfl
  have hnew : (mid.place o o.storage).2.contains new = true :=
    contains_of_cell? (by rw [hplaces.cell, if_pos rfl])
  exact ha.lost hold hgone <|
    ((hgeneration _).symm.trans (generation_eq_of_contains hnew)).trans (generation_eq_of_contains hold).symm

/-- An operation that keeps the objects in their places. -/
theorem turns_of_same (hsize : heap'.entries.size = heap.entries.size)
    (hgeneration : ∀ i, heap'.generation i = heap.generation i)
    (hcontains : ∀ h, heap'.contains h = heap.contains h)
    (hanswered : ∀ h ∈ answered, heap.contains h = true) : heap.Turns answered heap' where
  size_le := hsize.ge
  generation i := by rw [freed_eq_zero (hgeneration i), hgeneration]; simp
  unused i _ := freed_eq_zero (hgeneration i)
  lost h hc hgone := by rw [hcontains, hc] at hgone; cases hgone
  given h hh := by rw [hcontains]; exact hanswered h hh
  new h hc := .inl (hcontains h ▸ hc)

theorem turns_intern (ht : heap.Tidy) (roots : Thunk (List Handle)) (s : String) :
    heap.Turns [(heap.intern roots s).1] (heap.intern roots s).2 := by
  cases hf : heap.strings.findBy (Text.ofString s).hash (heap.hasContents s) with
  | some found =>
    have hintern : heap.intern roots s = (found, heap) := by simp [intern, hf]
    rw [hintern]
    refine turns_of_same rfl (fun _ => rfl) (fun _ => rfl) fun h hh => ?_
    obtain ⟨text, bytes, hcell, -⟩ := (hasContents_iff heap s found).1 (List.find?_some hf)
    rw [List.mem_singleton.1 hh]
    exact contains_of_cell? hcell
  | none =>
    have hturns := turns_alloc ht roots (.string (Text.ofString s))
    have hintern : (heap.intern roots s).2.entries =
        (heap.alloc roots (.string (Text.ofString s))).2.entries := by simp [intern, hf]
    have hhandle : (heap.intern roots s).1 = (heap.alloc roots (.string (Text.ofString s))).1 := by
      simp [intern, hf]
    have hg : ∀ i, (heap.intern roots s).2.generation i =
        (heap.alloc roots (.string (Text.ofString s))).2.generation i := fun i => by
      simp [Heap.generation, hintern]
    have hfreed : ∀ i, heap.freed (heap.intern roots s).2 i =
        heap.freed (heap.alloc roots (.string (Text.ofString s))).2 i := fun i => by
      rw [freed, freed, hg]
    have hcon : ∀ h, (heap.intern roots s).2.contains h =
        (heap.alloc roots (.string (Text.ofString s))).2.contains h := fun h => by
      rw [contains, contains, cell?_congr hintern]
    rw [hhandle]
    refine ⟨hintern ▸ hturns.size_le, fun i => ?_, fun i hi => ?_, fun h hc hgone => ?_,
      fun h hh => ?_, fun h hc => ?_⟩
    · rw [hg, hfreed]
      exact hturns.generation i
    · rw [hfreed]
      exact hturns.unused i hi
    · rw [hcon] at hgone
      rw [hfreed]
      exact hturns.lost h hc hgone
    · rw [hcon]
      exact hturns.given h hh
    · rw [hcon] at hc
      exact hturns.new h hc

theorem generation_overwrite {c : Cell} (hc : heap.cell? h = some cell)
    (he : heap'.entries = put heap.entries h.index ⟨h.generation, some c⟩) (i : Nat) :
    heap'.generation i = heap.generation i := by
  unfold generation
  rw [he]
  by_cases hi : h.index = i
  · subst hi
    simp [getElem?_put_self _ (index_lt_of_cell? hc), cell?_eq_some_iff.1 hc]
  · rw [getElem?_put_ne _ _ hi]

/-- An object is written over another one. -/
theorem turns_overwrite {c : Cell} (hc : heap.cell? h = some cell)
    (he : heap'.entries = put heap.entries h.index ⟨h.generation, some c⟩) :
    heap.Turns [] heap' := by
  refine turns_of_same (by rw [he, size_put]) (generation_overwrite hc he) (fun x => ?_)
    fun x hx => absurd hx List.not_mem_nil
  rw [contains, contains, cell?_overwrite hc he]
  by_cases hx : x = h
  · simp [hx, hc]
  · simp [hx]

theorem Changes.turns (hc : heap.Changes heap') : heap.Turns [] heap' := by
  obtain ⟨h, cell, o, hcell, rfl, -, -⟩ := hc
  exact turns_overwrite (c := ⟨o, o.storage⟩) hcell (by simp [Heap.replace, hcell])

/-- One operation on a heap, the handles it answers and the heap it leaves. Every handle that it
stores in an object is `allowed`. -/
inductive Performs (allowed : Handle → Prop) (heap : Heap) : List Handle → Heap → Prop
  | alloc {o : Object} (roots : Thunk (List Handle)) : (∀ r ∈ o.references, allowed r) →
      Performs allowed heap [(heap.alloc roots o).1] (heap.alloc roots o).2
  | intern (roots : Thunk (List Handle)) (s : String) :
      Performs allowed heap [(heap.intern roots s).1] (heap.intern roots s).2
  | collect (roots : List Handle) : Performs allowed heap [] (heap.collect roots)
  | setField {heap' : Heap} {h : Handle} {key : Key} {v : Value} : allowed key.handle →
      v.In allowed → heap.setField h key v = .ok heap' → Performs allowed heap [] heap'
  | setMethod {heap' : Heap} {h : Handle} {key : Key} {v : Value} : allowed key.handle →
      v.In allowed → heap.setMethod h key v = .ok heap' → Performs allowed heap [] heap'
  | inheritMethods {heap' : Heap} {super sub : Handle} :
      heap.inheritMethods super sub = .ok heap' → Performs allowed heap [] heap'
  | setUpvalue {heap' : Heap} {h : Handle} {u : Upvalue} : (∀ v, u = .closed v → v.In allowed) →
      heap.setUpvalue h u = .ok heap' → Performs allowed heap [] heap'
  | edit {h : Handle} {o : Object} {cell : Cell} : heap.cell? h = some cell →
      (∀ r ∈ o.references, allowed r) → Performs allowed heap [] (heap.edit h o)
  | record (e : Event) : Performs allowed heap [] (heap.record e)

theorem Performs.turns (hp : heap.Performs allowed answered heap') (ht : heap.Tidy) :
    heap.Turns answered heap' := by
  cases hp with
  | alloc roots _ => exact turns_alloc ht roots _
  | intern roots s => exact turns_intern ht roots s
  | collect roots => exact (ages_collect heap roots).turns
  | setField _ _ h' => exact (changes_setField h').turns
  | setMethod _ _ h' => exact (changes_setMethod h').turns
  | inheritMethods h' => exact (changes_inheritMethods h').turns
  | setUpvalue _ h' => exact (changes_setUpvalue h').turns
  | edit hcell _ => exact turns_overwrite hcell (by rw [edit_eq hcell])
  | record e => exact ((ages_refl heap).congr (entries_record heap e)).turns

theorem Performs.tidy (hp : heap.Performs allowed answered heap') (ht : heap.Tidy) :
    heap'.Tidy := by
  cases hp with
  | alloc roots _ => exact (alloc_allocates ht roots _).tidy
  | intern roots s =>
    rcases intern_spec ht roots s with ⟨-, heq⟩ | ⟨-, ha, -⟩
    · rwa [heq]
    · exact ha.tidy
  | collect roots => exact tidy_collect ht roots
  | setField _ _ h' => exact (changes_setField h').tidy ht
  | setMethod _ _ h' => exact (changes_setMethod h').tidy ht
  | inheritMethods h' => exact (changes_inheritMethods h').tidy ht
  | setUpvalue _ h' => exact (changes_setUpvalue h').tidy ht
  | edit hcell _ =>
    rw [edit_eq hcell]
    exact ht.overwrite hcell rfl rfl
  | record e => exact ht.record e

/-- An operation marks nothing for a later collection. -/
theorem Performs.gray (hp : heap.Performs allowed answered heap') (ht : heap.Tidy)
    (hg : heap.gray = []) : heap'.gray = [] := by
  have hchanges : ∀ {heap' : Heap}, heap.Changes heap' → heap'.gray = [] := by
    rintro _ ⟨h, cell, o, hcell, rfl, -, -⟩
    simpa [Heap.replace, hcell] using hg
  have halloc : ∀ roots o, (heap.alloc roots o).2.gray = [] := fun roots o => by
    rw [gray_alloc ht, hg, ite_self]
  cases hp with
  | alloc roots _ => exact halloc roots _
  | intern roots s =>
    unfold Heap.intern
    dsimp only
    split
    · exact hg
    · exact halloc roots _
  | collect roots => exact (collect_clears ht roots).2.1
  | setField _ _ h' => exact hchanges (changes_setField h')
  | setMethod _ _ h' => exact hchanges (changes_setMethod h')
  | inheritMethods h' => exact hchanges (changes_inheritMethods h')
  | setUpvalue _ h' => exact hchanges (changes_setUpvalue h')
  | edit hcell _ =>
    rw [edit_eq hcell]
    exact hg
  | record e => rw [gray_record, hg]

/-! ## Counting collections -/

@[simp] theorem collections_record (heap : Heap) (e : Event) :
    (heap.record e).collections = heap.collections := by
  unfold record
  split <;> rfl

theorem collections_foldl_release (dead : List Handle) (heap : Heap) :
    (dead.foldl Heap.release heap).collections = heap.collections := by
  induction dead generalizing heap with
  | nil => rfl
  | cons x dead ih =>
    rw [List.foldl_cons, ih]
    unfold Heap.release
    split
    · rfl
    · rw [collections_record]

theorem collections_recordFollowed (heap : Heap) (m : Marking) :
    (heap.recordFollowed m).collections = heap.collections := by
  unfold recordFollowed
  split
  · rename_i hadmits
    clear hadmits
    rw [← Array.foldl_toList]
    generalize m.followed.toList = hs
    induction hs generalizing heap with
    | nil => rfl
    | cons h hs ih =>
      rw [List.foldl_cons, ih]
      cases heap.cell? h with
      | none => rfl
      | some cell => exact collections_record heap _
  · rfl

theorem collections_collect (heap : Heap) (roots : List Handle) :
    (heap.collect roots).collections = heap.collections + 1 := by
  unfold collect
  dsimp only
  generalize hbase : ((heap.setMarking (heap.reach roots)).record .collectionBegins).recordFollowed
    (heap.reach roots) = base
  have hcount : base.collections = heap.collections := by
    rw [← hbase, collections_recordFollowed, collections_record]
    rfl
  obtain ⟨dead, head, links, marks, hsweep⟩ :=
    exists_sweep { base with strings := base.strings.retain (base.isMarked (heap.reach roots)) }
  rw [collections_record, hsweep]
  exact congrArg (· + 1) ((collections_foldl_release dead _).trans hcount)

theorem freed_le_one (heap heap' : Heap) (i : Nat) : heap.freed heap' i ≤ 1 := by
  unfold freed
  split <;> omega

/-- An allocation frees only if it collects. -/
theorem freed_le_alloc (ht : heap.Tidy) (roots : Thunk (List Handle)) (o : Object) (i : Nat) :
    heap.freed (heap.alloc roots o).2 i + heap.collections ≤
      (heap.alloc roots o).2.collections := by
  have hcollections : (heap.alloc roots o).2.collections =
      (heap.prepare roots.get o).collections := by
    rw [alloc_eq, collections_record]
    unfold place
    split <;> rfl
  have hgeneration : (heap.alloc roots o).2.generation i =
      (heap.prepare roots.get o).generation i := by
    rw [← generation_place (ht.prepare roots.get o) o o.storage i]
    simp [alloc_eq, Heap.generation]
  have hfreed : heap.freed (heap.alloc roots o).2 i = heap.freed (heap.prepare roots.get o) i := by
    rw [freed, freed, hgeneration]
  have hle := freed_le_one heap (heap.prepare roots.get o) i
  rw [hcollections, hfreed]
  by_cases hdue : (heap.charged o).isDue = true
  · have hcollect : (heap.prepare roots.get o).collections = heap.collections + 1 := by
      rw [prepare, if_pos hdue, collections_collect]
      rfl
    omega
  · have hsame : heap.prepare roots.get o = heap.charged o := by rw [prepare, if_neg hdue]
    have hzero : heap.freed (heap.charged o) i = 0 := freed_eq_zero rfl
    rw [hsame, hzero, Nat.zero_add]
    exact le_rfl

/-- Only collections free, and each of them frees a place at most once. -/
theorem Performs.freed_le (hp : heap.Performs allowed answered heap') (ht : heap.Tidy) (i : Nat) :
    heap.freed heap' i + heap.collections ≤ heap'.collections := by
  have hchanges : ∀ {heap' : Heap}, heap.Changes heap' →
      heap.freed heap' i + heap.collections ≤ heap'.collections := by
    rintro _ ⟨h, cell, o, hcell, rfl, -, -⟩
    have hsame : (heap.replace h o).generation i = heap.generation i :=
      generation_overwrite (c := ⟨o, o.storage⟩) hcell (by simp [Heap.replace, hcell]) i
    rw [freed_eq_zero hsame, Nat.zero_add]
    simp [Heap.replace, hcell]
  cases hp with
  | alloc roots _ => exact freed_le_alloc ht roots _ i
  | intern roots s =>
    unfold Heap.intern
    dsimp only
    split
    · rw [freed_eq_zero rfl, Nat.zero_add]
    · exact freed_le_alloc ht roots _ i
  | collect roots =>
    have hle := freed_le_one heap (heap.collect roots) i
    rw [collections_collect]
    omega
  | setField _ _ h' => exact hchanges (changes_setField h')
  | setMethod _ _ h' => exact hchanges (changes_setMethod h')
  | inheritMethods h' => exact hchanges (changes_inheritMethods h')
  | setUpvalue _ h' => exact hchanges (changes_setUpvalue h')
  | @edit h o cell hcell _ =>
    rw [edit_eq hcell, freed_eq_zero (generation_overwrite hcell rfl i), Nat.zero_add]
  | record e =>
    rw [freed_eq_zero (by simp [Heap.generation]), collections_record, Nat.zero_add]

/-! ## What objects hold -/

/-- Every handle in an object satisfies `P`. -/
def Holds (heap : Heap) (P : Handle → Prop) : Prop :=
  ∀ h cell, heap.cell? h = some cell → ∀ r ∈ cell.object.references, P r

theorem Holds.replace (hh : heap.Holds allowed) (hcell : heap.cell? h = some cell)
    (ho : ∀ r ∈ o.references, allowed r) : (heap.replace h o).Holds allowed := by
  intro x c hc
  rw [cell?_replace hcell] at hc
  split at hc
  · cases hc
    exact ho
  · exact hh x c hc

theorem Holds.allocates {roots : List Handle} (hh : heap.Holds allowed)
    (ha : heap.Allocates roots o h heap') (ho : ∀ r ∈ o.references, allowed r) :
    heap'.Holds allowed := by
  intro x c hc
  by_cases hx : x = h
  · subst hx
    rw [ha.new] at hc
    cases hc
    exact ho
  · exact hh x c (ha.old hx hc)

/-- An operation stores nothing but what is allowed. -/
theorem Performs.holds (hp : heap.Performs allowed answered heap') (ht : heap.Tidy)
    (hh : heap.Holds allowed) : heap'.Holds allowed := by
  cases hp with
  | alloc roots ho => exact hh.allocates (alloc_allocates ht roots _) ho
  | intern roots s =>
    rcases intern_spec ht roots s with ⟨-, heq⟩ | ⟨-, ha, -⟩
    · rwa [heq]
    · exact hh.allocates ha fun r hr => absurd hr List.not_mem_nil
  | collect roots => exact fun x c hc => hh x c ((shrinks_collect ht roots).old hc)
  | @setField _ h key v hkey hv h' =>
    unfold Heap.setField at h'
    cases hi : heap.inst h with
    | error e => simp [hi, bind, Except.bind] at h'
    | ok i =>
      obtain ⟨bytes, hcell⟩ := inst_eq_ok_iff.1 hi
      simp only [hi, bind, Except.bind, pure, Except.pure, Except.ok.injEq] at h'
      have hold := hh h _ hcell
      have hfields : i.fields.Within allowed :=
        Table.within_iff.2 fun r hr => hold r (List.mem_cons_of_mem _ hr)
      rw [← h']
      refine hh.replace hcell fun r hr => ?_
      rcases List.mem_cons.1 hr with rfl | hr
      · exact hold _ List.mem_cons_self
      · exact Table.within_iff.1 (hfields.insert hkey hv) r hr
  | @setMethod _ h key v hkey hv h' =>
    unfold Heap.setMethod at h'
    cases hc : heap.cls h with
    | error e => simp [hc, bind, Except.bind] at h'
    | ok c =>
      obtain ⟨bytes, hcell⟩ := cls_eq_ok_iff.1 hc
      simp only [hc, bind, Except.bind, pure, Except.pure, Except.ok.injEq] at h'
      have hold := hh h _ hcell
      have hmethods : c.methods.Within allowed :=
        Table.within_iff.2 fun r hr => hold r (List.mem_cons_of_mem _ hr)
      rw [← h']
      refine hh.replace hcell fun r hr => ?_
      rcases List.mem_cons.1 hr with rfl | hr
      · exact hold _ List.mem_cons_self
      · exact Table.within_iff.1 (hmethods.insert hkey hv) r hr
  | @inheritMethods _ super sub h' =>
    unfold Heap.inheritMethods at h'
    cases hs : heap.cls super with
    | error e => simp [hs, bind, Except.bind] at h'
    | ok inherited =>
      cases hc : heap.cls sub with
      | error e => simp [hs, hc, bind, Except.bind] at h'
      | ok c =>
        obtain ⟨bytes, hcell⟩ := cls_eq_ok_iff.1 hc
        obtain ⟨bytes', hcell'⟩ := cls_eq_ok_iff.1 hs
        simp only [hs, hc, bind, Except.bind, pure, Except.pure, Except.ok.injEq] at h'
        have hold := hh sub _ hcell
        have hold' := hh super _ hcell'
        have hmethods : c.methods.Within allowed :=
          Table.within_iff.2 fun r hr => hold r (List.mem_cons_of_mem _ hr)
        have hinherited : inherited.methods.Within allowed :=
          Table.within_iff.2 fun r hr => hold' r (List.mem_cons_of_mem _ hr)
        rw [← h']
        refine hh.replace hcell fun r hr => ?_
        rcases List.mem_cons.1 hr with rfl | hr
        · exact hold _ List.mem_cons_self
        · exact Table.within_iff.1 (hinherited.addAll hmethods) r hr
  | @setUpvalue _ h u hu h' =>
    unfold Heap.setUpvalue at h'
    cases hold : heap.upvalue h with
    | error e => simp [hold, bind, Except.bind] at h'
    | ok old =>
      obtain ⟨bytes, hcell⟩ := upvalue_eq_ok_iff.1 hold
      simp only [hold, bind, Except.bind, pure, Except.pure, Except.ok.injEq] at h'
      rw [← h']
      refine hh.replace hcell fun r hr => ?_
      cases u with
      | stacked slot => exact absurd hr List.not_mem_nil
      | closed v =>
        rw [Object.references, Option.mem_toList, Value.handle?_eq_some_iff] at hr
        exact hu v rfl r hr
  | @edit h o cell hcell ho =>
    intro x c hc
    rw [edit_eq hcell, cell?_overwrite hcell rfl] at hc
    split at hc
    · cases hc
      exact ho
    · exact hh x c hc
  | record e =>
    intro x c hc
    rw [cell?_record] at hc
    exact hh x c hc

end Heap

/-! ## Histories -/

/-- A heap with its past. -/
structure Past where
  heap : Heap
  /-- The handles that operations have answered. -/
  issued : List Handle := []
  /-- How often the object of each place was freed. -/
  frees : Nat → Nat := fun _ => 0

namespace Past

/-- A new heap has no past. -/
def new (config : GcConfig) (journal : Journal) : Past := { heap := { config, journal } }

/-- The past after an operation. -/
def after (past : Past) (answered : List Handle) (heap : Heap) : Past :=
  ⟨heap, answered ++ past.issued, fun i => past.frees i + past.heap.freed heap i⟩

/-- A sequence of operations, which store handles that satisfy `allowed`. -/
inductive Leads (allowed : Past → Handle → Prop) (past : Past) : Past → Prop
  | refl : Leads allowed past past
  | step {now : Past} {answered : List Handle} {heap : Heap} : Leads allowed past now →
      now.heap.Performs (allowed now) answered heap → Leads allowed past (now.after answered heap)

/-- The handle is one that the heap has issued. -/
def Knows (past : Past) (h : Handle) : Prop := h ∈ past.issued

/-- What holds of every past. -/
structure Dated (past : Past) : Prop where
  tidy : past.heap.Tidy
  generation : ∀ i, past.heap.generation i = UInt32.ofNat (past.frees i)
  unused : ∀ i, past.heap.entries.size ≤ i → past.frees i = 0
  live : ∀ h, past.heap.contains h = true → past.Knows h
  dead : ∀ h, past.Knows h → past.heap.contains h = false →
    ∃ n < past.frees h.index, h.generation = UInt32.ofNat n

variable {past now : Past} {allowed : Past → Handle → Prop} {h : Handle}

theorem dated_new (config : GcConfig) (journal : Journal) : (new config journal).Dated where
  tidy := Heap.tidy_of_empty rfl
  generation _ := rfl
  unused _ _ := rfl
  live h hc := by simp [new, Heap.contains, Heap.cell?] at hc
  dead h hh := absurd hh List.not_mem_nil

/-- One operation keeps generations and counts together: a handle that loses its object is of the
generation that ends, and one that had lost it before is still of an earlier one. -/
theorem Dated.step (hd : past.Dated) {answered : List Handle} {heap : Heap}
    (hp : past.heap.Performs (allowed past) answered heap) : (past.after answered heap).Dated := by
  have hturns := hp.turns hd.tidy
  refine ⟨hp.tidy hd.tidy, fun i => ?_, fun i hi => ?_, fun h hc => ?_, fun h hh hgone => ?_⟩
  · have hsum : UInt32.ofNat (past.frees i + past.heap.freed heap i) =
        UInt32.ofNat (past.frees i) + UInt32.ofNat (past.heap.freed heap i) := UInt32.ofNat_add _ _
    change heap.generation i = UInt32.ofNat (past.frees i + past.heap.freed heap i)
    rw [hsum, ← hd.generation]
    exact hturns.generation i
  · have hold : past.heap.entries.size ≤ i := hturns.size_le.trans hi
    change past.frees i + past.heap.freed heap i = 0
    rw [hd.unused i hold, hturns.unused i hold]
  · rcases hturns.new h hc with hc | hm
    · exact List.mem_append_right _ (hd.live h hc)
    · exact List.mem_append_left _ hm
  · change heap.contains h = false at hgone
    change ∃ n < past.frees h.index + past.heap.freed heap h.index, _
    rcases List.mem_append.1 hh with hm | hm
    · rw [hturns.given h hm] at hgone
      cases hgone
    · cases hc : past.heap.contains h with
      | true =>
        rw [hturns.lost h hc hgone]
        exact ⟨past.frees h.index, Nat.lt_succ_self _, by
          rw [← hd.generation, Heap.generation_eq_of_contains hc]⟩
      | false =>
        obtain ⟨n, hn, heq⟩ := hd.dead h hm hc
        exact ⟨n, hn.trans_le (Nat.le_add_right _ _), heq⟩

theorem Leads.dated (hl : past.Leads allowed now) (hd : past.Dated) : now.Dated := by
  induction hl with
  | refl => exact hd
  | step _ hp ih => exact ih.step hp

theorem Leads.gray (hl : past.Leads allowed now) (hd : past.Dated) (hg : past.heap.gray = []) :
    now.heap.gray = [] := by
  induction hl with
  | refl => exact hg
  | step hl hp ih => exact hp.gray (hl.dated hd).tidy ih

theorem Leads.frees_le (hl : past.Leads allowed now) (i : Nat) : past.frees i ≤ now.frees i := by
  induction hl with
  | refl => exact le_rfl
  | step _ _ ih => exact ih.trans (Nat.le_add_right _ _)

/-- **A handle that has lost its object stays dead**, unless its place is freed so often that the
generations wrap around. -/
theorem Dated.not_revived (hd : past.Dated) (hl : past.Leads allowed now)
    (hbound : ∀ i, now.frees i < 2 ^ 32) (hh : past.Knows h) (hdead : past.heap.contains h = false) :
    now.heap.contains h = false := by
  obtain ⟨n, hn, hgeneration⟩ := hd.dead h hh hdead
  have hlt : n < now.frees h.index := hn.trans_le (hl.frees_le h.index)
  have hsize := hbound h.index
  rw [Bool.eq_false_iff]
  intro hc
  have heq : UInt32.ofNat n = UInt32.ofNat (now.frees h.index) := by
    rw [← hgeneration, ← (hl.dated hd).generation, Heap.generation_eq_of_contains hc]
  have hmod := congrArg UInt32.toNat heq
  simp only [UInt32.toNat_ofNat', Nat.mod_eq_of_lt hsize, Nat.mod_eq_of_lt (hlt.trans hsize)] at hmod
  omega

/-- A place is freed no more often than there are collections. -/
theorem Leads.frees_le_collections (hl : past.Leads allowed now) (hd : past.Dated) (i : Nat) :
    now.frees i + past.heap.collections ≤ past.frees i + now.heap.collections := by
  induction hl with
  | refl => exact le_rfl
  | @step now answered heap hl hp ih =>
    have hle := hp.freed_le (hl.dated hd).tidy i
    change now.frees i + now.heap.freed heap i + past.heap.collections ≤
      past.frees i + heap.collections
    omega

/-- Operations that store only handles which were issued leave objects that hold only such. -/
theorem Leads.holds (hl : past.Leads Knows now) (hd : past.Dated) (hh : past.heap.Holds past.Knows) :
    now.heap.Holds now.Knows := by
  induction hl with
  | refl => exact hh
  | step hl hp ih =>
    intro x c hc r hr
    exact List.mem_append_right _ (hp.holds (hl.dated hd).tidy ih x c hc r hr)

end Past

end LoxMachine
