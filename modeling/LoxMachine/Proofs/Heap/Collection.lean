import LoxMachine.Proofs.Heap.Sweep

/-!
# What a collection keeps

* `Heap.Reachable` is the least set of live objects that holds the live roots and the live
  references of its members.
* `Marking.Valid` is the invariant of the search: marked objects are reachable, and the references
  of a marked object are marked once it is no longer pending. Every step follows one pending object
  and the objects to come are unmarked, so the search ends before its steps do
  (`Heap.reach_pending`).
* `Heap.isMarked_reach_iff`: the search marks exactly the reachable objects.
* `Heap.cell?_collect`: a collection keeps the reachable objects as they are and frees the rest.
-/

namespace LoxMachine

/-- How many places are not marked. -/
def Marking.unmarked (m : Marking) : Nat := m.marked.toList.count false

namespace Heap

variable {heap : Heap} {roots : List Handle} {m : Marking} {h h' : Handle}

/-- The live objects that can be reached from the roots. -/
inductive Reachable (heap : Heap) (roots : List Handle) : Handle → Prop
  | root {h : Handle} : h ∈ roots → heap.contains h = true → Reachable heap roots h
  | reference {h r : Handle} {cell : Cell} : Reachable heap roots h → heap.cell? h = some cell →
      r ∈ cell.object.references → heap.contains r = true → Reachable heap roots r

theorem Reachable.contains (hr : heap.Reachable roots h) : heap.contains h = true := by
  cases hr with
  | root _ hc => exact hc
  | reference _ _ _ hc => exact hc

theorem Reachable.mono {roots' : List Handle} (hr : heap.Reachable roots h)
    (hsub : ∀ r ∈ roots, r ∈ roots') : heap.Reachable roots' h := by
  induction hr with
  | root hm hc => exact .root (hsub _ hm) hc
  | reference _ hcell hm hc ih => exact .reference ih hcell hm hc

/-- Only the places of the heap matter. -/
theorem Reachable.congr {heap' : Heap} (hr : heap.Reachable roots h)
    (he : ∀ h, heap'.cell? h = heap.cell? h) : heap'.Reachable roots h := by
  have hcon : ∀ h, heap'.contains h = heap.contains h := fun h => by
    rw [Heap.contains, Heap.contains, he]
  induction hr with
  | root hm hc => exact .root hm (by rw [hcon]; exact hc)
  | reference _ hcell hm hc ih =>
    exact .reference ih (by rw [he]; exact hcell) hm (by rw [hcon]; exact hc)

/-! ## One mark -/

/-- Marking an object that is live and not marked yet. -/
theorem mark_of_unmarked (hc : heap.contains h = true) (hu : heap.isMarked m h = false) :
    heap.mark m h =
      { m with marked := put m.marked h.index true, pending := h :: m.pending } := by
  have : (!m.marked[h.index]?.getD false) = true := by
    simpa [isMarked, hc] using hu
  simp [mark, hc, this]

/-- Marking anything else does nothing. -/
theorem mark_of_skip (hs : heap.contains h = false ∨ heap.isMarked m h = true) :
    heap.mark m h = m := by
  rcases hs with hc | hm
  · simp [mark, hc]
  · rw [isMarked_iff] at hm
    simp [mark, hm.2]

theorem isMarked_put (hlt : h.index < m.marked.size) (hc : heap.contains h = true)
    (pending : List Handle) (h' : Handle) :
    heap.isMarked { m with marked := put m.marked h.index true, pending } h' = true ↔
      heap.isMarked m h' = true ∨ h' = h := by
  rw [isMarked_iff, isMarked_iff]
  by_cases hh : h' = h
  · subst hh
    simp [hc, getElem?_put_self _ hlt]
  · simp only [hh, or_false]
    by_cases hi : h.index = h'.index
    · -- two handles of one place: at most one of them is live
      have hdead : heap.contains h' ≠ true := by
        intro hc'
        obtain ⟨cell, hcell⟩ := contains_iff.1 hc
        obtain ⟨cell', hcell'⟩ := contains_iff.1 hc'
        exact hh (eq_of_index_eq hcell' hcell hi.symm)
      simp [hdead]
    · rw [getElem?_put_ne _ _ hi]

/-- One mark: what is marked, what is pending, and what is left to do. -/
theorem mark_spec (hsize : m.marked.size = heap.entries.size) (h : Handle) :
    (heap.mark m h).marked.size = heap.entries.size ∧
      (∀ h', heap.isMarked (heap.mark m h) h' = true ↔
        heap.isMarked m h' = true ∨ (h' = h ∧ heap.contains h = true)) ∧
      (∀ h', h' ∈ (heap.mark m h).pending ↔
        h' ∈ m.pending ∨ (h' = h ∧ heap.contains h = true ∧ heap.isMarked m h = false)) ∧
      (heap.mark m h).pending.length + (heap.mark m h).unmarked =
        m.pending.length + m.unmarked := by
  by_cases hc : heap.contains h = true
  · cases hu : heap.isMarked m h with
    | false =>
      obtain ⟨cell, hcell⟩ := contains_iff.1 hc
      have hlt : h.index < m.marked.size := hsize ▸ index_lt_of_cell? hcell
      rw [mark_of_unmarked hc hu]
      refine ⟨by simpa using hsize, fun h' => ?_, fun h' => ?_, ?_⟩
      · rw [isMarked_put hlt hc]
        simp [hc]
      · simp only [List.mem_cons, hc, and_true]
        exact or_comm
      · have hfalse : m.marked.toList[h.index] = false := by
          have : m.marked[h.index]? = some m.marked[h.index] := Array.getElem?_eq_getElem hlt
          simp only [isMarked, hc, Bool.true_and, this, Option.getD_some] at hu
          simpa using hu
        have hpos : 0 < m.marked.toList.count false :=
          List.count_pos_iff.2 (hfalse ▸ List.getElem_mem (by simpa using hlt))
        simp only [Marking.unmarked, put, Array.toList_setIfInBounds, List.length_cons]
        have hcount : (m.marked.toList.set h.index true).count false =
            m.marked.toList.count false - 1 := by
          rw [List.count_set (by rw [Array.length_toList]; exact hlt), hfalse]
          simp
        rw [hcount]
        omega
    | true =>
      rw [mark_of_skip (Or.inr hu)]
      refine ⟨hsize, fun h' => ?_, fun h' => by simp, rfl⟩
      constructor
      · exact Or.inl
      · rintro (hm | ⟨rfl, -⟩)
        · exact hm
        · exact hu
  · rw [mark_of_skip (Or.inl (by simpa using hc))]
    exact ⟨hsize, fun h' => by simp [hc], fun h' => by simp [hc], rfl⟩

/-- A list of marks. -/
theorem foldl_mark_spec (heap : Heap) (hs : List Handle) (hsize : m.marked.size = heap.entries.size) :
    (hs.foldl heap.mark m).marked.size = heap.entries.size ∧
      (∀ h', heap.isMarked (hs.foldl heap.mark m) h' = true ↔
        heap.isMarked m h' = true ∨ (h' ∈ hs ∧ heap.contains h' = true)) ∧
      (∀ h', h' ∈ (hs.foldl heap.mark m).pending ↔
        h' ∈ m.pending ∨ (h' ∈ hs ∧ heap.contains h' = true ∧ heap.isMarked m h' = false)) ∧
      (hs.foldl heap.mark m).pending.length + (hs.foldl heap.mark m).unmarked =
        m.pending.length + m.unmarked := by
  induction hs generalizing m with
  | nil => exact ⟨hsize, fun h' => by simp, fun h' => by simp, rfl⟩
  | cons h hs ih =>
    obtain ⟨hsize₁, hmarked₁, hpending₁, hleft₁⟩ := mark_spec hsize h
    obtain ⟨hsize₂, hmarked₂, hpending₂, hleft₂⟩ := ih hsize₁
    rw [List.foldl_cons]
    refine ⟨hsize₂, fun h' => ?_, fun h' => ?_, hleft₂.trans hleft₁⟩
    · rw [hmarked₂, hmarked₁, List.mem_cons]
      constructor
      · rintro ((hm | ⟨rfl, hc⟩) | ⟨hm, hc⟩)
        · exact Or.inl hm
        · exact Or.inr ⟨Or.inl rfl, hc⟩
        · exact Or.inr ⟨Or.inr hm, hc⟩
      · rintro (hm | ⟨rfl | hm, hc⟩)
        · exact Or.inl (Or.inl hm)
        · exact Or.inl (Or.inr ⟨rfl, hc⟩)
        · exact Or.inr ⟨hm, hc⟩
    · have hfalse : heap.isMarked (heap.mark m h) h' = false ↔
          heap.isMarked m h' = false ∧ ¬(h' = h ∧ heap.contains h = true) := by
        have := hmarked₁ h'
        cases hb : heap.isMarked (heap.mark m h) h' <;> cases hb' : heap.isMarked m h' <;>
          simp_all
      rw [hpending₂, hpending₁, List.mem_cons, hfalse]
      constructor
      · rintro ((hm | ⟨rfl, hc, hu⟩) | ⟨hm, hc, hu, -⟩)
        · exact Or.inl hm
        · exact Or.inr ⟨Or.inl rfl, hc, hu⟩
        · exact Or.inr ⟨Or.inr hm, hc, hu⟩
      · rintro (hm | ⟨rfl | hm, hc, hu⟩)
        · exact Or.inl (Or.inl hm)
        · exact Or.inl (Or.inr ⟨rfl, hc, hu⟩)
        · by_cases hh : h' = h ∧ heap.contains h = true
          · exact Or.inl (Or.inr ⟨hh.1, hh.2, hh.1 ▸ hu⟩)
          · exact Or.inr ⟨hm, hc, hu, hh⟩

/-- Only places of objects are marked. -/
def Marks (heap : Heap) (m : Marking) : Prop :=
  ∀ i : Nat, m.marked[i]? = some true → ∃ h, heap.contains h = true ∧ h.index = i

theorem Marks.mark (hm : heap.Marks m) (h : Handle) : heap.Marks (heap.mark m h) := by
  unfold Heap.mark
  split
  · rename_i hc
    intro i hi
    rcases getElem?_put_eq_some hi with ⟨rfl, -⟩ | ⟨-, hi⟩
    · exact ⟨h, (Bool.and_eq_true _ _ ▸ hc).1, rfl⟩
    · exact hm i hi
  · exact hm

theorem Marks.foldl_mark (hs : List Handle) (hm : heap.Marks m) :
    heap.Marks (hs.foldl heap.mark m) := by
  induction hs generalizing m with
  | nil => exact hm
  | cons h hs ih => exact ih (hm.mark h)

/-- Marks may be left for a later search. -/
theorem Searched.markAll (hs : heap.Searched) (early : List Handle) :
    (heap.markAll early).Searched := by
  obtain ⟨hsize, hmarked, hpending, hleft⟩ :=
    foldl_mark_spec heap (m := heap.marking) early hs.size_eq
  refine ⟨hsize, Marks.foldl_mark (m := heap.marking) early hs.live, fun h => ?_, ?_⟩
  · have hmarking : (heap.markAll early).isMarked (heap.markAll early).marking h =
        heap.isMarked (early.foldl heap.mark heap.marking) h := rfl
    rw [hmarking, hmarked]
    change h ∈ (early.foldl heap.mark heap.marking).pending ↔ _
    rw [hpending]
    change h ∈ heap.gray ∨ _ ↔ _
    rw [hs.gray_iff]
    constructor
    · exact Or.imp_right fun ⟨hm, hc, _⟩ => ⟨hm, hc⟩
    · rintro (hm | ⟨hm, hc⟩)
      · exact .inl hm
      · cases hmark : heap.isMarked heap.marking h with
        | true => exact .inl rfl
        | false => exact .inr ⟨hm, hc, rfl⟩
  · exact hleft.trans hs.left

theorem Tidy.markAll (ht : heap.Tidy) (early : List Handle) : (heap.markAll early).Tidy :=
  ⟨ht.toLaidOut.congr rfl rfl rfl rfl, ht.searched.markAll early⟩

@[simp] theorem cell?_markAll (heap : Heap) (early : List Handle) (h : Handle) :
    (heap.markAll early).cell? h = heap.cell? h := rfl

/-- The handles that are pending are those that were before, and the live ones that are new. -/
theorem mem_gray_markAll (hs : heap.Searched) (early : List Handle) (h : Handle) :
    h ∈ (heap.markAll early).gray ↔ h ∈ heap.gray ∨ (h ∈ early ∧ heap.contains h = true) := by
  obtain ⟨-, -, hpending, -⟩ := foldl_mark_spec heap (m := heap.marking) early hs.size_eq
  change h ∈ (early.foldl heap.mark heap.marking).pending ↔ _
  rw [hpending]
  change h ∈ heap.gray ∨ _ ↔ _
  constructor
  · exact Or.imp_right fun ⟨hm, hc, _⟩ => ⟨hm, hc⟩
  · rintro (hm | ⟨hm, hc⟩)
    · exact .inl hm
    · cases hmark : heap.isMarked heap.marking h with
      | true => exact .inl ((hs.gray_iff h).2 hmark)
      | false => exact .inr ⟨hm, hc, rfl⟩

/-! ## The search -/

/-- The invariant of the search from `roots`. -/
structure Valid (heap : Heap) (roots : List Handle) (m : Marking) : Prop where
  size_eq : m.marked.size = heap.entries.size
  live : heap.Marks m
  reachable : ∀ h, heap.isMarked m h = true → heap.Reachable roots h
  root : ∀ h ∈ roots, heap.contains h = true → heap.isMarked m h = true
  pending : ∀ h ∈ m.pending, heap.isMarked m h = true
  closed : ∀ h, heap.isMarked m h = true → h ∉ m.pending → ∀ cell, heap.cell? h = some cell →
    ∀ r ∈ cell.object.references, heap.contains r = true → heap.isMarked m r = true

/-- The search starts with everything marked and pending that was marked before, or is a root. -/
theorem valid_start (hs : heap.Searched) (roots : List Handle) :
    heap.Valid (heap.gray ++ roots) (roots.foldl heap.mark heap.marking) := by
  obtain ⟨hsize, hmarked, hpending, -⟩ :=
    foldl_mark_spec heap (m := heap.marking) roots hs.size_eq
  have hgray : ∀ h, h ∈ heap.marking.pending ↔ heap.isMarked heap.marking h = true := hs.gray_iff
  refine ⟨hsize, Marks.foldl_mark roots hs.live, fun h hm => ?_, fun h hr hc => ?_, fun h hp => ?_,
    fun h hm hp => ?_⟩
  · rcases (hmarked h).1 hm with hm | ⟨hr, hc⟩
    · exact .root (List.mem_append_left _ ((hgray h).2 hm)) ((isMarked_iff heap _ h).1 hm).1
    · exact .root (List.mem_append_right _ hr) hc
  · rcases List.mem_append.1 hr with hr | hr
    · exact (hmarked h).2 (Or.inl ((hgray h).1 hr))
    · exact (hmarked h).2 (Or.inr ⟨hr, hc⟩)
  · rcases (hpending h).1 hp with hp | ⟨hr, hc, -⟩
    · exact (hmarked h).2 (Or.inl ((hgray h).1 hp))
    · exact (hmarked h).2 (Or.inr ⟨hr, hc⟩)
  · rcases (hmarked h).1 hm with hm | ⟨hr, hc⟩
    · exact absurd ((hpending h).2 (Or.inl ((hgray h).2 hm))) hp
    · cases hmark : heap.isMarked heap.marking h with
      | true => exact absurd ((hpending h).2 (Or.inl ((hgray h).2 hmark))) hp
      | false => exact absurd ((hpending h).2 (Or.inr ⟨hr, hc, hmark⟩)) hp

/-- Following one pending object keeps the invariant. -/
theorem Valid.step (hv : heap.Valid roots m) {rest : List Handle} (hp : m.pending = h :: rest)
    {cell : Cell} (hcell : heap.cell? h = some cell) (followed : Array Handle) :
    heap.Valid roots
      (cell.object.references.foldl heap.mark { m with pending := rest, followed }) := by
  have hh : heap.isMarked m h = true := hv.pending h (by simp [hp])
  obtain ⟨hsize, hmarked, hpending, -⟩ := foldl_mark_spec heap
    (m := { m with pending := rest, followed }) cell.object.references hv.size_eq
  refine ⟨hsize, Marks.foldl_mark _ hv.live, fun x hm => ?_, fun x hr hc => ?_, fun x hx => ?_,
    fun x hm hx c hc r hr hcr => ?_⟩
  · rcases (hmarked x).1 hm with hm | ⟨hr, hc⟩
    · exact hv.reachable x hm
    · exact .reference (hv.reachable h hh) hcell hr hc
  · exact (hmarked x).2 (Or.inl (hv.root x hr hc))
  · rcases (hpending x).1 hx with hx | ⟨hr, hc, -⟩
    · exact (hmarked x).2 (Or.inl (hv.pending x (by simp [hp, hx])))
    · exact (hmarked x).2 (Or.inr ⟨hr, hc⟩)
  · by_cases hxh : x = h
    · subst hxh
      obtain rfl : cell = c := by simpa [hcell] using hc
      exact (hmarked r).2 (Or.inr ⟨hr, hcr⟩)
    · rcases (hmarked x).1 hm with hm | ⟨hxr, hxc⟩
      · have hx' : x ∉ m.pending := by
          rw [hp, List.mem_cons, not_or]
          exact ⟨hxh, fun hmem => hx ((hpending x).2 (Or.inl hmem))⟩
        exact (hmarked r).2 (Or.inl (hv.closed x hm hx' c hc r hr hcr))
      · cases hu : heap.isMarked { m with pending := rest, followed } x with
        | false => exact absurd ((hpending x).2 (Or.inr ⟨hxr, hxc, hu⟩)) hx
        | true =>
          have hx' : x ∉ m.pending := by
            rw [hp, List.mem_cons, not_or]
            exact ⟨hxh, fun hmem => hx ((hpending x).2 (Or.inl hmem))⟩
          exact (hmarked r).2 (Or.inl (hv.closed x hu hx' c hc r hr hcr))

/-- With as many steps as there are objects pending or unmarked, the search ends. -/
theorem Valid.follow (steps : Nat) : ∀ {m : Marking}, heap.Valid roots m →
    m.pending.length + m.unmarked ≤ steps →
    heap.Valid roots (heap.follow steps m) ∧ (heap.follow steps m).pending = [] := by
  induction steps with
  | zero =>
    intro m hv hle
    have hlength : m.pending.length = 0 := by omega
    exact ⟨hv, List.length_eq_zero_iff.1 hlength⟩
  | succ steps ih =>
    intro m hv hle
    cases hp : m.pending with
    | nil =>
      have hstop : heap.follow (steps + 1) m = m := by simp [Heap.follow, hp]
      rw [hstop]
      exact ⟨hv, hp⟩
    | cons h rest =>
      obtain ⟨cell, hcell⟩ := contains_iff.1
        ((isMarked_iff heap m h).1 (hv.pending h (by simp [hp]))).1
      obtain ⟨-, -, -, hleft⟩ := foldl_mark_spec heap
        (m := { m with pending := rest, followed := m.followed.push h })
        cell.object.references hv.size_eq
      simp only [Heap.follow, hp, hcell, Option.elim_some]
      refine ih (hv.step hp hcell _) ?_
      rw [hleft]
      simp only [hp, List.length_cons] at hle
      simp only [Marking.unmarked] at hle ⊢
      omega

theorem reach_valid (hs : heap.Searched) (roots : List Handle) :
    heap.Valid (heap.gray ++ roots) (heap.reach roots) ∧ (heap.reach roots).pending = [] := by
  refine (valid_start hs roots).follow _ ?_
  obtain ⟨-, -, -, hleft⟩ := foldl_mark_spec heap (m := heap.marking) roots hs.size_eq
  exact Nat.le_of_eq (hleft.trans hs.left)

/-- **The search marks exactly the reachable objects.** -/
theorem isMarked_reach_iff (hs : heap.Searched) (roots : List Handle) (h : Handle) :
    heap.isMarked (heap.reach roots) h = true ↔ heap.Reachable (heap.gray ++ roots) h := by
  obtain ⟨hv, hp⟩ := reach_valid hs roots
  constructor
  · exact hv.reachable h
  · intro hr
    induction hr with
    | root hm hc => exact hv.root _ hm hc
    | reference _ hcell hm hc ih => exact hv.closed _ ih (by simp [hp]) _ hcell _ hm hc

/-! ## The collection -/

/-- A heap after some of its objects were taken away: what is left is as it was, and holds no
reference to what was taken away. -/
structure Shrinks (heap heap' : Heap) : Prop where
  old : ∀ {h : Handle} {cell : Cell}, heap'.cell? h = some cell → heap.cell? h = some cell
  closed : ∀ {h r : Handle} {cell : Cell}, heap'.cell? h = some cell →
    r ∈ cell.object.references → heap.contains r = true → heap'.contains r = true

theorem recordFollowed_same (heap : Heap) (m : Marking) :
    (heap.recordFollowed m).arena = heap.arena ∧ (heap.recordFollowed m).strings = heap.strings := by
  unfold recordFollowed
  split
  · -- an induction over the objects that were followed; each adds at most one event
    rename_i hadmits
    clear hadmits
    rw [← Array.foldl_toList]
    generalize m.followed.toList = hs
    induction hs generalizing heap with
    | nil => exact ⟨rfl, rfl⟩
    | cons h hs ih =>
      rw [List.foldl_cons]
      cases hc : heap.cell? h with
      | none => simpa using ih heap
      | some cell =>
        have hrest := ih (heap.record (.followed h cell.object.kind))
        simp only [arena_record, strings_record] at hrest
        simpa using hrest
  · exact ⟨rfl, rfl⟩

/-- The heap of a collection before its sweep: the marks are those of the whole search. -/
theorem collect_sweeps (heap : Heap) (roots : List Handle) :
    ∃ mid : Heap, mid.arena = (heap.setMarking (heap.reach roots)).arena ∧
      mid.strings = heap.strings.retain (heap.isMarked (heap.reach roots)) ∧
      (heap.collect roots).arena = mid.sweep.arena ∧ (heap.collect roots).strings = mid.strings := by
  set marking := heap.reach roots with hmarking
  obtain ⟨ha, hs⟩ := recordFollowed_same ((heap.setMarking marking).record .collectionBegins) marking
  rw [arena_record] at ha
  rw [strings_record] at hs
  set base := ((heap.setMarking marking).record .collectionBegins).recordFollowed marking with hbase
  have hentries : base.entries = heap.entries := congrArg Prod.fst ha
  have hmarked : base.isMarked marking = heap.isMarked marking := by
    funext h
    rw [isMarked, isMarked, contains, contains, cell?_congr hentries]
  refine ⟨{ base with strings := base.strings.retain (base.isMarked marking) }, ha, ?_, ?_, ?_⟩
  · rw [hmarked, hs]
    rfl
  · simp only [collect, arena_record, ← hmarking, ← hbase]
    rfl
  · simp only [collect, strings_record, ← hmarking, ← hbase, strings_sweep]

/-- The heap that a collection sweeps. -/
theorem laidOut_of_arena {mid : Heap} (ht : heap.Tidy) {m : Marking}
    (ha : mid.arena = (heap.setMarking m).arena) : mid.LaidOut := by
  simp only [arena, Prod.mk.injEq] at ha
  obtain ⟨he, hf, hh, hl, -⟩ := ha
  exact ht.toLaidOut.congr he hf hh hl

theorem bytes_recordFollowed (heap : Heap) (m : Marking) :
    (heap.recordFollowed m).bytes = heap.bytes := by
  unfold recordFollowed
  split
  · rename_i hadmits
    clear hadmits
    rw [← Array.foldl_toList]
    generalize m.followed.toList = hs
    induction hs generalizing heap with
    | nil => rfl
    | cons h hs ih =>
      rw [List.foldl_cons, ih]
      cases heap.cell? h with
      | none => rfl
      | some cell => simp
  · rfl

/-- Of the places and the bytes, a collection changes what freeing objects changes. -/
theorem collect_frees (heap : Heap) (roots : List Handle) :
    ∃ (mid : Heap) (dead : List Handle),
      (mid.entries = heap.entries ∧ mid.free = heap.free ∧ mid.bytes = heap.bytes) ∧
      (heap.collect roots).entries = (dead.foldl release mid).entries ∧
      (heap.collect roots).free = (dead.foldl release mid).free ∧
      (heap.collect roots).bytes = (dead.foldl release mid).bytes := by
  set marking := heap.reach roots with hmarking
  obtain ⟨ha, -⟩ := recordFollowed_same ((heap.setMarking marking).record .collectionBegins) marking
  have hb := bytes_recordFollowed ((heap.setMarking marking).record .collectionBegins) marking
  rw [arena_record] at ha
  rw [bytes_record] at hb
  set base := ((heap.setMarking marking).record .collectionBegins).recordFollowed marking with hbase
  simp only [arena, Prod.mk.injEq] at ha
  obtain ⟨he, hf, -⟩ := ha
  obtain ⟨dead, head, links, marks, hsweep⟩ :=
    exists_sweep { base with strings := base.strings.retain (base.isMarked marking) }
  refine ⟨{ base with strings := base.strings.retain (base.isMarked marking) }, dead,
    ⟨he, hf, hb⟩, ?_, ?_, ?_⟩ <;>
  · simp only [collect, entries_record, free_record, bytes_record, ← hmarking, ← hbase, hsweep]
    rfl

theorem followed_mark (heap : Heap) (m : Marking) (h : Handle) :
    (heap.mark m h).followed = m.followed := by
  unfold mark
  split <;> rfl

theorem followed_foldl_mark (heap : Heap) (hs : List Handle) (m : Marking) :
    (hs.foldl heap.mark m).followed = m.followed := by
  induction hs generalizing m with
  | nil => rfl
  | cons h hs ih => rw [List.foldl_cons, ih, followed_mark]

theorem follow_setMarking (heap : Heap) (left : Marking) (steps : Nat) (m : Marking) :
    (heap.setMarking left).follow steps m = heap.follow steps m := by
  induction steps generalizing m with
  | zero => rfl
  | succ steps ih =>
    unfold follow
    split
    · rfl
    · exact ih _

/-- **What was reached ahead of a collection counts as a root.** -/
theorem collect_markAll (heap : Heap) (early roots : List Handle) :
    (heap.markAll early).collect roots = heap.collect (early ++ roots) := by
  have hmarking : (heap.markAll early).marking = early.foldl heap.mark heap.marking := by
    have hfollowed : (early.foldl heap.mark heap.marking).followed = #[] :=
      followed_foldl_mark heap early heap.marking
    rw [marking, markAll, setMarking]
    generalize early.foldl heap.mark heap.marking = m at hfollowed ⊢
    cases m
    exact congrArg _ hfollowed.symm
  have hreach : (heap.markAll early).reach roots = heap.reach (early ++ roots) := by
    rw [reach, reach, hmarking, List.foldl_append]
    exact follow_setMarking heap _ _ _
  unfold collect
  rw [hreach]
  rfl

/-- **A collection keeps the reachable objects as they are and frees the rest.** -/
theorem cell?_collect (ht : heap.Tidy) (roots : List Handle) (h : Handle)
    [Decidable (heap.Reachable (heap.gray ++ roots) h)] :
    (heap.collect roots).cell? h =
      if heap.Reachable (heap.gray ++ roots) h then heap.cell? h else none := by
  obtain ⟨mid, ha, -, hcol, -⟩ := collect_sweeps heap roots
  have hl := laidOut_of_arena ht ha
  obtain ⟨hv, -⟩ := reach_valid ht.searched roots
  simp only [arena, Prod.mk.injEq] at ha
  obtain ⟨he, -, -, -, hm, -⟩ := ha
  change mid.entries = heap.entries at he
  have hsize : mid.marks.size = mid.entries.size := by rw [hm, he]; exact hv.size_eq
  have hmarks : ∀ h, mid.hasMark h = (heap.reach roots).marked[h.index]?.getD false := fun h => by
    rw [hasMark, hm]
    rfl
  rw [cell?_congr (congrArg Prod.fst hcol), cell?_sweep hl hsize, cell?_congr he, hmarks]
  have hreach := isMarked_reach_iff ht.searched roots h
  rw [isMarked] at hreach
  cases hc : heap.cell? h with
  | none => simp
  | some cell =>
    rw [contains, hc, Option.isSome_some, Bool.true_and] at hreach
    by_cases hr : heap.Reachable (heap.gray ++ roots) h
    · rw [if_pos hr, if_pos (hreach.2 hr)]
    · rw [if_neg hr, if_neg (fun hm => hr (hreach.1 hm))]

/-- **After a collection no object is marked**, and none is left to be followed. -/
theorem collect_clears (ht : heap.Tidy) (roots : List Handle) :
    (heap.collect roots).Tidy ∧ (heap.collect roots).gray = [] ∧
      ∀ i : Nat, (heap.collect roots).marks[i]? ≠ some true := by
  obtain ⟨mid, ha, -, hcol, -⟩ := collect_sweeps heap roots
  have hl := laidOut_of_arena ht ha
  obtain ⟨hv, hp⟩ := reach_valid ht.searched roots
  simp only [arena, Prod.mk.injEq] at ha
  obtain ⟨he, -, -, -, hm, hg⟩ := ha
  change mid.marks = (heap.reach roots).marked at hm
  obtain ⟨htidy, hgray, hclear⟩ := tidy_sweep hl (by rw [hm, he]; exact hv.size_eq)
    (by rw [hg]; exact hp) fun i hi => by
      obtain ⟨h, hc, heq⟩ := hv.live i (hm ▸ hi)
      exact ⟨h, by rw [contains, cell?_congr he]; exact hc, heq⟩
  refine ⟨htidy.congr hcol, ?_, ?_⟩
  · simp only [arena, Prod.mk.injEq] at hcol
    rw [hcol.2.2.2.2.2, hgray]
  · simp only [arena, Prod.mk.injEq] at hcol
    rwa [hcol.2.2.2.2.1]

theorem tidy_collect (ht : heap.Tidy) (roots : List Handle) : (heap.collect roots).Tidy :=
  (collect_clears ht roots).1

theorem strings_collect (heap : Heap) (roots : List Handle) :
    (heap.collect roots).strings = heap.strings.retain (heap.isMarked (heap.reach roots)) := by
  obtain ⟨mid, -, hs, -, hcol⟩ := collect_sweeps heap roots
  rw [hcol, hs]

theorem cell?_collect_of_reachable (ht : heap.Tidy) (hr : heap.Reachable roots h) :
    (heap.collect roots).cell? h = heap.cell? h := by
  classical
  rw [cell?_collect ht, if_pos (hr.mono fun r hr => List.mem_append_right _ hr)]

/-- Nothing that is left refers to what was freed. -/
theorem shrinks_collect (ht : heap.Tidy) (roots : List Handle) :
    heap.Shrinks (heap.collect roots) := by
  classical
  have hold : ∀ {h : Handle} {cell : Cell}, (heap.collect roots).cell? h = some cell →
      heap.Reachable (heap.gray ++ roots) h ∧ heap.cell? h = some cell := by
    intro h cell hc
    rw [cell?_collect ht] at hc
    split at hc
    · exact ⟨‹_›, hc⟩
    · cases hc
  refine ⟨fun hc => (hold hc).2, fun hc hr hcr => ?_⟩
  obtain ⟨hreach, hcell⟩ := hold hc
  rw [contains, cell?_collect ht, if_pos (.reference hreach hcell hr hcr)]
  exact hcr

end Heap

end LoxMachine
