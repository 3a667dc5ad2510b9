import LoxMachine.Proofs.Heap.Thread
import Mathlib.Data.List.Nodup
import Mathlib.Data.List.Perm.Subperm

/-!
# The arena of a heap

What the operations of the heap do to its places, read off `Heap.cell?` alone.

* `Heap.cell?_eq_some_iff` opens `cell?`; two handles of one place that both name an object are
  equal (`Heap.eq_of_index_eq`).
* `Heap.arena` is what a heap knows of its places. `Heap.Tidy` says that the free list, the thread of the
  objects (`Heap.Threaded`) and the marks (`Heap.Searched`) agree with the places.
* `Heap.cell?_release` and `Heap.cell?_place` say what freeing and placing an object change, and
  `Heap.cell?_replace` what changing an object in place does.
-/

namespace LoxMachine

namespace Heap

variable {heap : Heap} {h h' : Handle} {cell cell' : Cell}

/-! ## Looking up -/

theorem cell?_eq_some_iff :
    heap.cell? h = some cell ↔ heap.entries[h.index]? = some ⟨h.generation, some cell⟩ := by
  unfold cell?
  constructor
  · intro hc
    split at hc
    · rename_i generation c he
      split at hc
      · rename_i hg
        obtain rfl : c = cell := by simpa using hc
        rw [he, hg]
      · cases hc
    · cases hc
  · intro he
    simp [he]

theorem cell?_congr {heap₁ heap₂ : Heap} (he : heap₁.entries = heap₂.entries) (h : Handle) :
    heap₁.cell? h = heap₂.cell? h := by
  unfold cell?
  rw [he]

theorem contains_iff : heap.contains h = true ↔ ∃ cell, heap.cell? h = some cell := by
  rw [contains, Option.isSome_iff_exists]

theorem contains_of_cell? (hc : heap.cell? h = some cell) : heap.contains h = true :=
  contains_iff.2 ⟨cell, hc⟩

/-- A place holds at most one object, so a handle is known by its place while it is live. -/
theorem eq_of_index_eq (hc : heap.cell? h = some cell) (hc' : heap.cell? h' = some cell')
    (hi : h.index = h'.index) : h = h' := by
  rw [cell?_eq_some_iff] at hc hc'
  rw [hi, hc'] at hc
  simp only [Option.some.injEq, Entry.mk.injEq] at hc
  cases h
  cases h'
  simp_all

theorem index_lt_of_cell? (hc : heap.cell? h = some cell) : h.index < heap.entries.size := by
  rw [cell?_eq_some_iff] at hc
  exact (Array.getElem?_eq_some_iff.1 hc).1

@[simp] theorem entries_record (heap : Heap) (e : Event) :
    (heap.record e).entries = heap.entries := by
  unfold record
  split <;> rfl

@[simp] theorem free_record (heap : Heap) (e : Event) : (heap.record e).free = heap.free := by
  unfold record
  split <;> rfl

@[simp] theorem bytes_record (heap : Heap) (e : Event) : (heap.record e).bytes = heap.bytes := by
  unfold record
  split <;> rfl

@[simp] theorem gray_record (heap : Heap) (e : Event) : (heap.record e).gray = heap.gray := by
  unfold record
  split <;> rfl

/-- What a heap knows of its places. -/
def arena (heap : Heap) : Array Entry × List Nat × Option Handle × Array (Option Handle) ×
    Array Bool × List Handle :=
  (heap.entries, heap.free, heap.head, heap.links, heap.marks, heap.gray)

@[simp] theorem arena_record (heap : Heap) (e : Event) : (heap.record e).arena = heap.arena := by
  unfold record
  split <;> rfl

@[simp] theorem strings_record (heap : Heap) (e : Event) :
    (heap.record e).strings = heap.strings := by
  unfold record
  split <;> rfl

@[simp] theorem cell?_record (heap : Heap) (e : Event) (h : Handle) :
    (heap.record e).cell? h = heap.cell? h :=
  cell?_congr (entries_record heap e) h

@[simp] theorem contains_record (heap : Heap) (e : Event) (h : Handle) :
    (heap.record e).contains h = heap.contains h := by
  rw [contains, contains, cell?_record]

/-- What a heap whose place `h.index` was overwritten holds. -/
theorem cell?_put (heap : Heap) {heap' : Heap} {e : Entry} {i : Nat}
    (he : heap'.entries = put heap.entries i e) (hi : i < heap.entries.size) (h : Handle) :
    heap'.cell? h = if h.index = i then (if e.generation = h.generation then e.cell else none)
      else heap.cell? h := by
  split
  · rename_i hh
    have hget : heap'.entries[h.index]? = some e := by
      rw [he, hh, getElem?_put_self _ hi]
    unfold cell?
    rw [hget]
    obtain ⟨generation, _ | cell⟩ := e <;> simp
  · rename_i hh
    have hget : heap'.entries[h.index]? = heap.entries[h.index]? := by
      rw [he, getElem?_put_ne _ _ (Ne.symm hh)]
    unfold cell?
    rw [hget]

/-! ## Bookkeeping -/

/-- The thread visits these objects, each object there is once, and ends. -/
structure Threaded (heap : Heap) (hs : List Handle) : Prop where
  threads : Threads heap.links heap.head hs none
  nodup : hs.Nodup
  mem_iff : ∀ h, h ∈ hs ↔ heap.contains h = true

/-- No two objects of the thread are in one place. -/
theorem Threaded.indices {hs : List Handle} (ht : heap.Threaded hs) :
    (hs.map Handle.index).Nodup := by
  refine ht.nodup.map_on fun h hh h' hh' hi => ?_
  obtain ⟨cell, hc⟩ := contains_iff.1 ((ht.mem_iff h).1 hh)
  obtain ⟨cell', hc'⟩ := contains_iff.1 ((ht.mem_iff h').1 hh')
  exact eq_of_index_eq hc hc' hi

theorem Threaded.index_lt {hs : List Handle} (ht : heap.Threaded hs) (hh : h ∈ hs) :
    h.index < heap.entries.size := by
  obtain ⟨cell, hc⟩ := contains_iff.1 ((ht.mem_iff h).1 hh)
  exact index_lt_of_cell? hc

/-- The objects fit into the places. -/
theorem Threaded.length_le {hs : List Handle} (ht : heap.Threaded hs) :
    hs.length ≤ heap.entries.size := by
  have hsub : hs.map Handle.index ⊆ List.range heap.entries.size := fun i hi => by
    obtain ⟨h, hh, rfl⟩ := List.mem_map.1 hi
    exact List.mem_range.2 (ht.index_lt hh)
  simpa using (ht.indices.subperm hsub).length_le

/-- The thread is followed to its end. -/
theorem Threaded.objects_eq {hs : List Handle} (ht : heap.Threaded hs) : heap.objects = hs :=
  objectsFrom_eq ht.threads ht.length_le

theorem isMarked_iff (heap : Heap) (m : Marking) (h : Handle) :
    heap.isMarked m h = true ↔ heap.contains h = true ∧ m.marked[h.index]? = some true := by
  cases hm : m.marked[h.index]? with
  | none => simp [isMarked, hm]
  | some b => simp [isMarked, hm]

/-- The marks belong to objects that are still to be followed. -/
structure Searched (heap : Heap) : Prop where
  size_eq : heap.marks.size = heap.entries.size
  live : ∀ i, heap.marks[i]? = some true → ∃ h, heap.contains h = true ∧ h.index = i
  gray_iff : ∀ h, h ∈ heap.gray ↔ heap.isMarked heap.marking h = true
  left : heap.gray.length + heap.marks.toList.count false = heap.entries.size

/-- Only the marks and the handles that are live matter. -/
theorem Searched.congr {heap' : Heap} (hs : heap.Searched) (hm : heap'.marks = heap.marks)
    (hg : heap'.gray = heap.gray) (hsize : heap'.entries.size = heap.entries.size)
    (hc : ∀ h, heap'.contains h = heap.contains h) : heap'.Searched where
  size_eq := by rw [hm, hsize, hs.size_eq]
  live i hi := by
    obtain ⟨h, hlive, rfl⟩ := hs.live i (hm ▸ hi)
    exact ⟨h, by rw [hc, hlive], rfl⟩
  gray_iff h := by rw [hg, hs.gray_iff, isMarked, isMarked, hc, marking, marking, hm]
  left := by rw [hg, hm, hsize, hs.left]

/-- The free places are empty and listed once, and the thread visits the objects there are. -/
structure LaidOut (heap : Heap) : Prop where
  free_vacant : ∀ i ∈ heap.free, ∃ generation, heap.entries[i]? = some ⟨generation, none⟩
  free_nodup : heap.free.Nodup
  links_size : heap.links.size = heap.entries.size
  threaded : heap.Threaded heap.objects

/-- The bookkeeping of a heap agrees with its places, and the marks are those of a search that has not
begun to follow them. -/
structure Tidy (heap : Heap) : Prop extends heap.LaidOut where
  searched : heap.Searched

theorem Tidy.mem_objects (ht : heap.Tidy) (h : Handle) :
    h ∈ heap.objects ↔ heap.contains h = true :=
  ht.threaded.mem_iff h

theorem cell?_of_empty {heap : Heap} (ha : heap.arena = ({} : Heap).arena) (h : Handle) :
    heap.cell? h = none := by
  have he : heap.entries = #[] := congrArg Prod.fst ha
  simp [cell?, he]

/-- A heap without objects is tidy. -/
theorem tidy_of_empty {heap : Heap} (ha : heap.arena = ({} : Heap).arena) : heap.Tidy := by
  have hnone : ∀ h, heap.contains h = false := fun h => by simp [contains, cell?_of_empty ha]
  simp only [arena, Prod.mk.injEq] at ha
  obtain ⟨he, hf, hh, hl, hm, hg⟩ := ha
  have hthreaded : heap.Threaded [] :=
    ⟨by rw [hh]; exact .stop none, List.nodup_nil, fun h => by simp [hnone]⟩
  refine ⟨⟨by simp [hf], by simp [hf], by simp [hl, he], ?_⟩, ?_⟩
  · rwa [hthreaded.objects_eq]
  · exact ⟨by simp [hm, he], fun i hi => by simp [hm] at hi, fun h => by simp [hg, isMarked, hnone],
      by simp [hg, hm, he]⟩

theorem Threaded.congr {heap' : Heap} {hs : List Handle} (ht : heap.Threaded hs)
    (hh : heap'.head = heap.head) (hl : heap'.links = heap.links)
    (hc : ∀ h, heap'.contains h = heap.contains h) : heap'.Threaded hs :=
  ⟨by rw [hh, hl]; exact ht.threads, ht.nodup, fun h => by rw [hc]; exact ht.mem_iff h⟩

/-- Only what the heap knows of its places matters. -/
theorem LaidOut.congr {heap' : Heap} (hl : heap.LaidOut) (he : heap'.entries = heap.entries)
    (hf : heap'.free = heap.free) (hh : heap'.head = heap.head) (hk : heap'.links = heap.links) :
    heap'.LaidOut := by
  have hthreaded := hl.threaded.congr hh hk fun h => by rw [contains, contains, cell?_congr he]
  refine ⟨by rw [hf, he]; exact hl.free_vacant, by rw [hf]; exact hl.free_nodup,
    by rw [hk, he, hl.links_size], ?_⟩
  rwa [hthreaded.objects_eq]

theorem Tidy.congr {heap' : Heap} (ht : heap.Tidy) (ha : heap'.arena = heap.arena) : heap'.Tidy := by
  simp only [arena, Prod.mk.injEq] at ha
  obtain ⟨he, hf, hh, hl, hm, hg⟩ := ha
  refine ⟨ht.toLaidOut.congr he hf hh hl, ht.searched.congr hm hg (by rw [he]) fun h => ?_⟩
  rw [contains, contains, cell?_congr he]

theorem Tidy.record (ht : heap.Tidy) (e : Event) : (heap.record e).Tidy :=
  ht.congr (arena_record heap e)

theorem cell?_recorded (heap : Heap) (events : List Event) (x : Handle) :
    (events.foldl Heap.record heap).cell? x = heap.cell? x := by
  induction events generalizing heap with
  | nil => rfl
  | cons e events ih => rw [List.foldl_cons, ih, cell?_record]

theorem strings_recorded (heap : Heap) (events : List Event) :
    (events.foldl Heap.record heap).strings = heap.strings := by
  induction events generalizing heap with
  | nil => rfl
  | cons e events ih => rw [List.foldl_cons, ih, strings_record]

theorem Tidy.recorded (ht : heap.Tidy) (events : List Event) :
    (events.foldl Heap.record heap).Tidy := by
  induction events generalizing heap with
  | nil => exact ht
  | cons e events ih => exact ih (ht.record e)

theorem Tidy.notMem_free (ht : heap.Tidy) (hc : heap.cell? h = some cell) :
    h.index ∉ heap.free := by
  intro hmem
  obtain ⟨generation, he⟩ := ht.free_vacant _ hmem
  rw [cell?_eq_some_iff, he] at hc
  simp at hc

/-! ## Freeing -/

/-- Freeing an object takes it away and nothing else. -/
theorem cell?_release (heap : Heap) (h h' : Handle) :
    (heap.release h).cell? h' = if h' = h then none else heap.cell? h' := by
  unfold release
  split
  · rename_i hnone
    split
    · rename_i hh
      rw [hh, hnone]
    · rfl
  · rename_i cell hc
    rw [cell?_record]
    rw [cell?_put heap rfl (index_lt_of_cell? hc)]
    by_cases hh : h' = h
    · simp [hh]
    · rw [if_neg hh]
      split
      · rename_i hi
        -- the place is empty now, and no other handle of it was live
        simp only [ite_self]
        cases hc' : heap.cell? h' with
        | none => rfl
        | some cell' => exact absurd (eq_of_index_eq hc' hc hi) hh
      · rfl

theorem cell?_foldl_release (dead : List Handle) (heap : Heap) (h : Handle) :
    (dead.foldl release heap).cell? h = if h ∈ dead then none else heap.cell? h := by
  induction dead generalizing heap with
  | nil => simp
  | cons d dead ih =>
    rw [List.foldl_cons, ih, cell?_release]
    by_cases hd : h = d <;> by_cases hm : h ∈ dead <;> simp [hd, hm]

@[simp] theorem strings_release (heap : Heap) (h : Handle) :
    (heap.release h).strings = heap.strings := by
  unfold release
  split <;> simp

theorem strings_foldl_release (dead : List Handle) (heap : Heap) :
    (dead.foldl release heap).strings = heap.strings := by
  induction dead generalizing heap with
  | nil => rfl
  | cons d dead ih => rw [List.foldl_cons, ih, strings_release]

/-- The free list stays good when an object is freed. -/
theorem release_free (heap : Heap) (h : Handle)
    (hv : ∀ i ∈ heap.free, ∃ generation, heap.entries[i]? = some ⟨generation, none⟩)
    (hn : heap.free.Nodup) :
    (∀ i ∈ (heap.release h).free,
      ∃ generation, (heap.release h).entries[i]? = some ⟨generation, none⟩) ∧
      (heap.release h).free.Nodup := by
  unfold release
  split
  · exact ⟨hv, hn⟩
  · rename_i cell hc
    have hlt := index_lt_of_cell? hc
    have hfresh : h.index ∉ heap.free := by
      intro hmem
      obtain ⟨generation, he⟩ := hv _ hmem
      rw [cell?_eq_some_iff, he] at hc
      simp at hc
    simp only [entries_record, free_record]
    refine ⟨fun i hi => ?_, List.nodup_cons.2 ⟨hfresh, hn⟩⟩
    rcases List.mem_cons.1 hi with rfl | hi
    · exact ⟨_, getElem?_put_self _ hlt⟩
    · have hne : h.index ≠ i := fun heq => hfresh (heq ▸ hi)
      rw [getElem?_put_ne _ _ hne]
      exact hv i hi

theorem foldl_release_free (dead : List Handle) (heap : Heap)
    (hv : ∀ i ∈ heap.free, ∃ generation, heap.entries[i]? = some ⟨generation, none⟩)
    (hn : heap.free.Nodup) :
    (∀ i ∈ (dead.foldl release heap).free,
      ∃ generation, (dead.foldl release heap).entries[i]? = some ⟨generation, none⟩) ∧
      (dead.foldl release heap).free.Nodup := by
  induction dead generalizing heap with
  | nil => exact ⟨hv, hn⟩
  | cons d dead ih =>
    obtain ⟨hv', hn'⟩ := release_free heap d hv hn
    exact ih _ hv' hn'

/-! ## Placing -/

/-- What placing an object does: its handle named nothing before, and nothing else changes. -/
structure Places (heap : Heap) (o : Object) (bytes : Nat) (h : Handle) (heap' : Heap) : Prop where
  fresh : heap.cell? h = none
  cell : ∀ h', heap'.cell? h' = if h' = h then some ⟨o, bytes⟩ else heap.cell? h'
  strings : heap'.strings = heap.strings
  tidy : heap'.Tidy

section Place

variable {heap' : Heap} (hfresh : heap.contains h = false)
  (hc : ∀ x, heap'.contains x = (x == h || heap.contains x))

include hfresh hc

/-- No object is in the place of a new one. -/
theorem index_ne_of_new {x : Handle} (hx : heap.contains x = true) : x.index ≠ h.index := by
  intro hi
  obtain ⟨cell, hcell⟩ := contains_iff.1 (show heap'.contains x = true by simp [hc, hx])
  obtain ⟨cell', hcell'⟩ := contains_iff.1 (show heap'.contains h = true by simp [hc])
  rw [eq_of_index_eq hcell hcell' hi, hfresh] at hx
  cases hx

/-- A new object is linked to the one that was the newest before. -/
theorem Threaded.place {hs : List Handle} (ht : heap.Threaded hs) (hhead : heap'.head = some h)
    (hnew : heap'.links[h.index]? = some heap.head)
    (hsame : ∀ x, heap.contains x = true → heap'.links[x.index]? = heap.links[x.index]?) :
    heap'.Threaded (h :: hs) := by
  refine ⟨?_, List.nodup_cons.2 ⟨fun hm => ?_, ht.nodup⟩, fun x => ?_⟩
  · rw [hhead]
    refine .visit ?_
    rw [hnew]
    exact ht.threads.congr fun x hx => hsame x ((ht.mem_iff x).1 hx)
  · rw [ht.mem_iff, hfresh] at hm
    cases hm
  · rw [List.mem_cons, ht.mem_iff, hc, Bool.or_eq_true, beq_iff_eq]

theorem Searched.place (hs : heap.Searched) (hgray : heap'.gray = heap.gray)
    (hsize : heap'.marks.size = heap'.entries.size)
    (hmarks : ∀ i : Nat, heap'.marks[i]? = some true ↔ heap.marks[i]? = some true)
    (hleft : heap'.gray.length + heap'.marks.toList.count false = heap'.entries.size) :
    heap'.Searched where
  size_eq := hsize
  live i hi := by
    obtain ⟨x, hx, rfl⟩ := hs.live i ((hmarks i).1 hi)
    exact ⟨x, by simp [hc, hx], rfl⟩
  gray_iff x := by
    have hmarked := hmarks x.index
    simp only [hgray, hs.gray_iff, isMarked_iff, marking, hmarked, hc, Bool.or_eq_true, beq_iff_eq]
    constructor
    · exact fun ⟨hx, hm⟩ => ⟨.inr hx, hm⟩
    · rintro ⟨rfl | hx, hm⟩
      · obtain ⟨y, hy, hi⟩ := hs.live _ hm
        exact absurd hi (index_ne_of_new hfresh hc hy)
      · exact ⟨hx, hm⟩
  left := hleft

end Place

theorem place_reused (ht : heap.Tidy) (o : Object) (bytes : Nat) {index : Nat} {free : List Nat}
    (hf : heap.free = index :: free) :
    heap.Places o bytes (heap.place o bytes).1 (heap.place o bytes).2 := by
  obtain ⟨generation, he⟩ := ht.free_vacant index (by simp [hf])
  have hlt : index < heap.entries.size := (Array.getElem?_eq_some_iff.1 he).1
  have hnodup := ht.free_nodup
  rw [hf, List.nodup_cons] at hnodup
  set h : Handle := ⟨index, generation⟩ with hh
  set placed : Heap := { heap with
      entries := put heap.entries index ⟨generation, some ⟨o, bytes⟩⟩
      free, head := some h
      links := put heap.links index heap.head
      marks := put heap.marks index false } with hplaced
  have hplace : heap.place o bytes = (h, placed) := by simp [place, hf, he, hh, hplaced]
  have hnone : ∀ x : Handle, x.index = index → heap.cell? x = none := by
    intro x hi
    rw [Option.eq_none_iff_forall_ne_some]
    intro cell hc
    rw [cell?_eq_some_iff, hi, he] at hc
    simp at hc
  have hcell : ∀ x, placed.cell? x = if x = h then some ⟨o, bytes⟩ else heap.cell? x := by
    intro x
    rw [cell?_put heap rfl hlt]
    by_cases hi : x.index = index
    · by_cases hg : generation = x.generation
      · have : x = h := by
          cases x
          simp_all
        simp [this, hh]
      · have : x ≠ h := by
          rintro rfl
          exact hg rfl
        simp [hi, hg, this, hnone x hi]
    · have : x ≠ h := by
        rintro rfl
        exact hi rfl
      simp [hi, this]
  have hfresh : heap.contains h = false := by simp [contains, hnone h rfl]
  have hcontains : ∀ x, placed.contains x = (x == h || heap.contains x) := fun x => by
    rw [contains, hcell]
    by_cases hx : x = h <;> simp [hx, contains]
  have hne : ∀ x, heap.contains x = true → index ≠ x.index := fun x hx =>
    (index_ne_of_new hfresh hcontains hx).symm
  -- the place has no mark, as only objects have
  have hmarks : placed.marks = heap.marks := by
    refine Array.ext_getElem? fun i => ?_
    by_cases hi : index = i
    · subst hi
      have hsize : index < heap.marks.size := ht.searched.size_eq ▸ hlt
      rw [hplaced, getElem?_put_self _ hsize, Array.getElem?_eq_getElem hsize]
      cases hm : heap.marks[index] with
      | false => rfl
      | true =>
        obtain ⟨x, hx, hi⟩ := ht.searched.live index (by rw [Array.getElem?_eq_getElem hsize, hm])
        exact absurd hi.symm (hne x hx)
    · exact getElem?_put_ne _ _ hi
  have hentries : placed.entries.size = heap.entries.size := by simp [hplaced]
  have hthreaded : placed.Threaded (h :: heap.objects) :=
    ht.threaded.place hfresh hcontains rfl (getElem?_put_self _ (ht.links_size ▸ hlt))
      fun x hx => getElem?_put_ne _ _ (hne x hx)
  rw [hplace]
  refine ⟨hnone h rfl, hcell, rfl, ⟨fun i hi => ?_, hnodup.2, ?_, ?_⟩, ?_⟩
  · have hi' : index ≠ i := fun heq => hnodup.1 (heq ▸ hi)
    obtain ⟨g, hg⟩ := ht.free_vacant i (by rw [hf]; exact List.mem_cons_of_mem _ hi)
    exact ⟨g, (getElem?_put_ne _ _ hi').trans hg⟩
  · rw [hentries, ← ht.links_size]
    exact size_put _ _ _
  · rwa [hthreaded.objects_eq]
  · refine ht.searched.place hfresh hcontains rfl ?_ (fun i => by rw [hmarks]) ?_
    · rw [hmarks, hentries, ht.searched.size_eq]
    · rw [hmarks, hentries]
      exact ht.searched.left

theorem place_pushed (ht : heap.Tidy) (o : Object) (bytes : Nat) (hf : heap.free = []) :
    heap.Places o bytes (heap.place o bytes).1 (heap.place o bytes).2 := by
  set h : Handle := ⟨heap.entries.size, 0⟩ with hh
  set placed : Heap := { heap with
      entries := heap.entries.push ⟨0, some ⟨o, bytes⟩⟩
      head := some h
      links := heap.links.push heap.head
      marks := heap.marks.push false } with hplaced
  have hplace : heap.place o bytes = (h, placed) := by simp [place, hf, hh, hplaced]
  have hnone : ∀ x : Handle, x.index = heap.entries.size → heap.cell? x = none := by
    intro x hi
    rw [Option.eq_none_iff_forall_ne_some]
    intro cell hc
    have := index_lt_of_cell? hc
    omega
  have hcell : ∀ x, placed.cell? x = if x = h then some ⟨o, bytes⟩ else heap.cell? x := by
    intro x
    by_cases hi : x.index = heap.entries.size
    · by_cases hg : x.generation = 0
      · have : x = h := by
          cases x
          simp_all
        simp [this, cell?, hh, hplaced]
      · have : x ≠ h := by
          rintro rfl
          exact hg rfl
        rw [if_neg this, hnone x hi]
        simp [cell?, hi, Ne.symm hg, hplaced]
    · have : x ≠ h := by
        rintro rfl
        exact hi rfl
      rw [if_neg this]
      unfold cell?
      simp only [hplaced, Array.getElem?_push, if_neg hi]
  have hfresh : heap.contains h = false := by simp [contains, hnone h rfl]
  have hcontains : ∀ x, placed.contains x = (x == h || heap.contains x) := fun x => by
    rw [contains, hcell]
    by_cases hx : x = h <;> simp [hx, contains]
  have hthreaded : placed.Threaded (h :: heap.objects) := by
    refine ht.threaded.place hfresh hcontains rfl ?_ fun x hx => ?_
    · simp [hplaced, hh, ← ht.links_size]
    · obtain ⟨cell, hx⟩ := contains_iff.1 hx
      have hlt := ht.links_size ▸ index_lt_of_cell? hx
      simp [hplaced, Array.getElem?_push, Nat.ne_of_lt hlt]
  rw [hplace]
  refine ⟨hnone h rfl, hcell, rfl, ⟨fun i hi => ?_, by simp [hplaced, hf], ?_, ?_⟩, ?_⟩
  · simp [hplaced, hf] at hi
  · simp [hplaced, ht.links_size]
  · rwa [hthreaded.objects_eq]
  · refine ht.searched.place hfresh hcontains rfl ?_ (fun i => ?_) ?_
    · simp [hplaced, ht.searched.size_eq]
    · rw [hplaced, Array.getElem?_push]
      split
      · rename_i hi
        simp [hi]
      · exact Iff.rfl
    · have hleft := ht.searched.left
      simp only [hplaced, Array.toList_push, List.count_append, List.count_singleton_self,
        Array.size_push]
      omega

/-- A new object gets a handle that named nothing, and nothing else changes. -/
theorem place_places (ht : heap.Tidy) (o : Object) (bytes : Nat) :
    heap.Places o bytes (heap.place o bytes).1 (heap.place o bytes).2 := by
  cases hf : heap.free with
  | nil => exact place_pushed ht o bytes hf
  | cons index free => exact place_reused ht o bytes hf

/-! ## Changing in place -/

/-- An object overwritten by another one. -/
theorem cell?_overwrite {heap' : Heap} (hc : heap.cell? h = some cell)
    (he : heap'.entries = put heap.entries h.index ⟨h.generation, some cell'⟩) (h' : Handle) :
    heap'.cell? h' = if h' = h then some cell' else heap.cell? h' := by
  rw [cell?_put heap he (index_lt_of_cell? hc)]
  by_cases hh : h' = h
  · simp [hh]
  · rw [if_neg hh]
    split
    · rename_i hi
      have hg : h.generation ≠ h'.generation := by
        intro hg
        apply hh
        cases h
        cases h'
        simp_all
      rw [if_neg hg]
      cases hc' : heap.cell? h' with
      | none => rfl
      | some cell' => exact absurd (eq_of_index_eq hc' hc hi) hh
    · rfl

theorem contains_overwrite {heap' : Heap} (hc : heap.cell? h = some cell)
    (he : heap'.entries = put heap.entries h.index ⟨h.generation, some cell'⟩) (x : Handle) :
    heap'.contains x = heap.contains x := by
  rw [contains, contains, cell?_overwrite hc he]
  by_cases hx : x = h <;> simp [hx, hc]

theorem Tidy.overwrite {heap' : Heap} (ht : heap.Tidy) (hc : heap.cell? h = some cell)
    (he : heap'.entries = put heap.entries h.index ⟨h.generation, some cell'⟩)
    (ha : heap'.arena.2 = heap.arena.2) : heap'.Tidy := by
  simp only [arena, Prod.mk.injEq] at ha
  obtain ⟨hf, hh, hl, hm, hg⟩ := ha
  have hcontains := contains_overwrite hc he
  have hsize : heap'.entries.size = heap.entries.size := by rw [he, size_put]
  have hthreaded := ht.threaded.congr hh hl hcontains
  refine ⟨⟨fun i hi => ?_, by rw [hf]; exact ht.free_nodup, by rw [hl, hsize, ht.links_size], ?_⟩,
    ht.searched.congr hm hg hsize hcontains⟩
  · rw [hf] at hi
    have hne : h.index ≠ i := fun heq => ht.notMem_free hc (heq ▸ hi)
    rw [he, getElem?_put_ne _ _ hne]
    exact ht.free_vacant i hi
  · rwa [hthreaded.objects_eq]

theorem cell?_replace (hc : heap.cell? h = some cell) (o : Object) (h' : Handle) :
    (heap.replace h o).cell? h' = if h' = h then some ⟨o, o.storage⟩ else heap.cell? h' :=
  cell?_overwrite hc (by simp [replace, hc]) h'

@[simp] theorem strings_replace (heap : Heap) (h : Handle) (o : Object) :
    (heap.replace h o).strings = heap.strings := by
  unfold replace
  split <;> rfl

theorem Tidy.replace (ht : heap.Tidy) (hc : heap.cell? h = some cell) (o : Object) :
    (heap.replace h o).Tidy := by
  have he : (heap.replace h o).entries =
      put heap.entries h.index ⟨h.generation, some ⟨o, o.storage⟩⟩ := by
    simp [Heap.replace, hc]
  exact ht.overwrite hc he (by simp [Heap.replace, hc, arena])

end Heap

end LoxMachine
