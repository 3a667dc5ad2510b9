import LoxMachine.Proofs.Heap.Arena

/-!
# The sweep

A sweep walks along the thread, clears the marks and takes the objects without one out of the thread
before it frees them.

* `Heap.exists_sweep`: whatever the heap, a sweep frees objects one after another and changes the thread
  and the marks on the way.
* `sweepFrom_walked` is the walk: what was kept and what is left to visit make a thread all along.
* `Heap.sweep_walked`: the objects freed are those without a mark, in the order of the thread, and the
  rest is threaded as before. `Heap.tidy_sweep` adds that no mark is left.
-/

namespace LoxMachine

namespace Heap

variable {heap heap' : Heap} {h x : Handle}

/-- A heap with another thread and other marks. -/
def rethread (heap : Heap) (head : Option Handle) (links : Array (Option Handle))
    (marks : Array Bool) : Heap :=
  { heap with head, links, marks }

@[simp] theorem cell?_rethread (heap : Heap) (head : Option Handle)
    (links : Array (Option Handle)) (marks : Array Bool) (x : Handle) :
    (heap.rethread head links marks).cell? x = heap.cell? x := rfl

theorem record_rethread (heap : Heap) (head : Option Handle) (links : Array (Option Handle))
    (marks : Array Bool) (e : Event) :
    (heap.rethread head links marks).record e = (heap.record e).rethread head links marks := by
  unfold record rethread
  split <;> rfl

theorem release_rethread (heap : Heap) (head : Option Handle) (links : Array (Option Handle))
    (marks : Array Bool) (h : Handle) :
    (heap.rethread head links marks).release h = (heap.release h).rethread head links marks := by
  unfold release
  rw [cell?_rethread]
  split
  · rfl
  · rw [← record_rethread]
    rfl

theorem foldl_release_rethread (dead : List Handle) (heap : Heap) (head : Option Handle)
    (links : Array (Option Handle)) (marks : Array Bool) :
    dead.foldl release (heap.rethread head links marks) =
      (dead.foldl release heap).rethread head links marks := by
  induction dead generalizing heap with
  | nil => rfl
  | cons d dead ih => rw [List.foldl_cons, List.foldl_cons, release_rethread, ih]

@[simp] theorem size_entries_release (heap : Heap) (h : Handle) :
    (heap.release h).entries.size = heap.entries.size := by
  unfold release
  split
  · rfl
  · simp

theorem size_entries_foldl_release (dead : List Handle) (heap : Heap) :
    (dead.foldl release heap).entries.size = heap.entries.size := by
  induction dead generalizing heap with
  | nil => rfl
  | cons d dead ih => rw [List.foldl_cons, ih, size_entries_release]

theorem gray_foldl_release (dead : List Handle) (heap : Heap) :
    (dead.foldl release heap).gray = heap.gray := by
  induction dead generalizing heap with
  | nil => rfl
  | cons d dead ih =>
    rw [List.foldl_cons, ih]
    unfold release
    split
    · rfl
    · rw [gray_record]

theorem unmark_eq (heap : Heap) (h : Handle) :
    heap.unmark h = heap.rethread heap.head heap.links (put heap.marks h.index false) := rfl

theorem exists_link (heap : Heap) (previous next : Option Handle) :
    ∃ head links, heap.link previous next = heap.rethread head links heap.marks := by
  cases previous with
  | none => exact ⟨next, heap.links, rfl⟩
  | some p =>
    by_cases hp : heap.contains p = true
    · exact ⟨heap.head, put heap.links p.index next, by simp [link, hp, rethread]⟩
    · exact ⟨heap.head, heap.links, by simp [link, hp, rethread]⟩

/-- A sweep frees objects and changes the thread and the marks, and nothing else. -/
theorem exists_sweepFrom (steps : Nat) (previous current : Option Handle) (heap : Heap) :
    ∃ (dead : List Handle) (head : Option Handle) (links : Array (Option Handle)) (marks : Array Bool),
      sweepFrom steps previous current heap = (dead.foldl release heap).rethread head links marks := by
  induction steps generalizing previous current heap with
  | zero => exact ⟨[], heap.head, heap.links, heap.marks, rfl⟩
  | succ steps ih =>
    cases current with
    | none => exact ⟨[], heap.head, heap.links, heap.marks, rfl⟩
    | some h =>
      unfold sweepFrom
      dsimp only
      split
      · split
        · obtain ⟨dead, head, links, marks, heq⟩ := ih (some h) (heap.next h) (heap.unmark h)
          refine ⟨dead, head, links, marks, ?_⟩
          rw [heq, unmark_eq, foldl_release_rethread]
          rfl
        · obtain ⟨head₁, links₁, hlink⟩ := exists_link heap previous (heap.next h)
          obtain ⟨dead, head, links, marks, heq⟩ :=
            ih previous (heap.next h) ((heap.link previous (heap.next h)).release h)
          refine ⟨h :: dead, head, links, marks, ?_⟩
          rw [heq, hlink, release_rethread, foldl_release_rethread]
          rfl
      · exact ⟨[], heap.head, heap.links, heap.marks, rfl⟩

theorem exists_sweep (heap : Heap) :
    ∃ (dead : List Handle) (head : Option Handle) (links : Array (Option Handle)) (marks : Array Bool),
      heap.sweep = (dead.foldl release heap).rethread head links marks :=
  exists_sweepFrom _ _ _ heap

/-! ## The walk -/

/-- Whether there is a mark in the place of a handle. -/
def hasMark (heap : Heap) (h : Handle) : Bool := heap.marks[h.index]?.getD false

/-- What a walk along `left` comes to, after `kept` has been kept. -/
structure Walked (heap : Heap) (kept left : List Handle) (heap' : Heap) : Prop where
  freed : ∃ head links marks, heap' =
    ((left.filter (!heap.hasMark ·)).foldl release heap).rethread head links marks
  threads : Threads heap'.links heap'.head (kept ++ left.filter heap.hasMark) none
  links_size : heap'.links.size = heap.links.size
  marks_size : heap'.marks.size = heap.marks.size
  cleared : ∀ i : Nat, heap'.marks[i]? = some true →
    heap.marks[i]? = some true ∧ i ∉ left.map Handle.index

/-- An object is taken out of the thread. -/
theorem threads_link {kept left : List Handle}
    (ht : Threads heap.links heap.head (kept ++ h :: left) none)
    (hn : ((kept ++ h :: left).map Handle.index).Nodup)
    (hlive : ∀ x ∈ kept, heap.contains x = true) (hsize : ∀ x ∈ kept, x.index < heap.links.size) :
    Threads (heap.link kept.getLast? (heap.next h)).links (heap.link kept.getLast? (heap.next h)).head
      (kept ++ left) none := by
  rcases List.eq_nil_or_concat kept with rfl | ⟨before, p, rfl⟩
  · exact ht.visits.2
  · have hp : heap.contains p = true := hlive p (by simp)
    simp only [List.concat_eq_append] at ht hn hsize ⊢
    simp only [List.getLast?_append, List.getLast?_singleton, Option.some_or, link, hp, if_true]
    exact ht.unlink hn (hsize p (by simp))

/-- Only the marks of the handles matter. -/
theorem filter_hasMark_congr {hs : List Handle}
    (hsame : ∀ x ∈ hs, heap'.marks[x.index]? = heap.marks[x.index]?) :
    hs.filter heap'.hasMark = hs.filter heap.hasMark ∧
      hs.filter (!heap'.hasMark ·) = hs.filter (!heap.hasMark ·) :=
  ⟨List.filter_congr fun x hx => by rw [hasMark, hasMark, hsame x hx],
    List.filter_congr fun x hx => by rw [hasMark, hasMark, hsame x hx]⟩

/-- An object with a mark is kept, and loses it. -/
theorem Walked.keep {kept left : List Handle} (hmark : heap.hasMark h = true)
    (hfresh : h.index ∉ left.map Handle.index) (hlt : h.index < heap.marks.size)
    (hw : (heap.unmark h).Walked (kept ++ [h]) left heap') : heap.Walked kept (h :: left) heap' := by
  have hsame : ∀ x ∈ left, (heap.unmark h).marks[x.index]? = heap.marks[x.index]? := fun x hx =>
    getElem?_put_ne _ _ fun heq => hfresh (heq ▸ List.mem_map_of_mem hx)
  obtain ⟨hkeeps, hfrees⟩ := filter_hasMark_congr hsame
  obtain ⟨⟨head, links, marks, heq⟩, hthreads, hlinks, hmarks, hcleared⟩ := hw
  refine ⟨⟨head, links, marks, ?_⟩, ?_, hlinks, hmarks.trans (size_put _ _ _), fun i hi => ?_⟩
  · rw [heq, hfrees, List.filter_cons_of_neg (by simp [hmark]), unmark_eq, foldl_release_rethread]
    rfl
  · rw [hkeeps, List.append_assoc] at hthreads
    rwa [List.filter_cons_of_pos hmark]
  · obtain ⟨hi, hleft⟩ := hcleared i hi
    have hne : h.index ≠ i := by
      rintro rfl
      rw [unmark, getElem?_put_self _ hlt] at hi
      cases hi
    rw [unmark, getElem?_put_ne _ _ hne] at hi
    exact ⟨hi, by simpa [Ne.symm hne] using hleft⟩

/-- An object without a mark is unlinked and freed. -/
theorem Walked.free {kept left : List Handle} {previous next : Option Handle}
    (hmark : heap.hasMark h = false)
    (hw : ((heap.link previous next).release h).Walked kept left heap')
    (hlinks₁ : (heap.link previous next).links.size = heap.links.size)
    (hh : heap.marks[h.index]? ≠ some true) : heap.Walked kept (h :: left) heap' := by
  obtain ⟨head₁, links₁, hlink⟩ := exists_link heap previous next
  have hrelease : (heap.link previous next).release h =
      (heap.release h).rethread head₁ links₁ heap.marks := by rw [hlink, release_rethread]
  have hsame : ∀ x ∈ left, ((heap.link previous next).release h).marks[x.index]? =
      heap.marks[x.index]? := fun x _ => by rw [hrelease]; rfl
  obtain ⟨hkeeps, hfrees⟩ := filter_hasMark_congr hsame
  obtain ⟨⟨head, links, marks, heq⟩, hthreads, hlinks, hmarks, hcleared⟩ := hw
  refine ⟨⟨head, links, marks, ?_⟩, ?_, ?_, ?_, fun i hi => ?_⟩
  · rw [heq, hfrees, List.filter_cons_of_pos (by simp [hmark]), hrelease, foldl_release_rethread]
    rfl
  · rw [hkeeps] at hthreads
    rwa [List.filter_cons_of_neg (by simp [hmark])]
  · rw [hlinks, ← hlinks₁, hrelease, hlink]
    rfl
  · rw [hmarks, hrelease]
    rfl
  · obtain ⟨hi, hleft⟩ := hcleared i hi
    rw [hrelease] at hi
    refine ⟨hi, ?_⟩
    rw [List.map_cons, List.mem_cons, not_or]
    refine ⟨?_, hleft⟩
    rintro rfl
    exact hh hi

/-- **The walk of a sweep.** By induction on what is left to visit: what was kept and what is left make a
thread before every step. -/
theorem sweepFrom_walked (left : List Handle) : ∀ (kept : List Handle) {steps : Nat} {heap : Heap},
    left.length ≤ steps → Threads heap.links heap.head (kept ++ left) none →
    ((kept ++ left).map Handle.index).Nodup → (∀ x ∈ kept ++ left, heap.contains x = true) →
    heap.links.size = heap.entries.size → heap.marks.size = heap.entries.size →
    heap.Walked kept left (sweepFrom steps kept.getLast? left.head? heap) := by
  induction left with
  | nil =>
    intro kept steps heap _ ht _ _ _ _
    have hstop : sweepFrom steps kept.getLast? none heap = heap := by cases steps <;> rfl
    rw [List.head?_nil, hstop]
    exact ⟨⟨heap.head, heap.links, heap.marks, rfl⟩, by simpa using ht, rfl, rfl,
      fun i hi => ⟨hi, by simp⟩⟩
  | cons h left ih =>
    intro kept steps heap hle ht hn hlive hlinks hmarks
    obtain ⟨steps, rfl⟩ : ∃ n, steps = n + 1 := ⟨steps - 1, by simp at hle; omega⟩
    have hle' : left.length ≤ steps := by simpa using hle
    have hnext : heap.next h = left.head? := by
      obtain ⟨_, -, hrest⟩ := ht.split
      exact hrest.visits.2.head_eq
    have hcontains : heap.contains h = true := hlive h (by simp)
    obtain ⟨cell, hcell⟩ := contains_iff.1 hcontains
    have hlt : h.index < heap.marks.size := hmarks ▸ index_lt_of_cell? hcell
    have hfresh : h.index ∉ left.map Handle.index := by
      rw [List.map_append, List.map_cons, List.nodup_append] at hn
      exact (List.nodup_cons.1 hn.2.1).1
    simp only [List.head?_cons, sweepFrom, hcontains, if_true, hnext]
    cases hmark : heap.hasMark h with
    | true =>
      have hmark' : heap.marks[h.index]?.getD false = true := hmark
      rw [if_pos hmark']
      have hlast : some h = (kept ++ [h]).getLast? := by simp
      rw [hlast]
      refine Walked.keep hmark hfresh hlt (ih (kept ++ [h]) hle' ?_ ?_ ?_ hlinks ?_)
      · rw [List.append_assoc]
        exact ht
      · rwa [List.append_assoc]
      · rw [List.append_assoc]
        exact hlive
      · exact (size_put _ _ _).trans hmarks
    | false =>
      have hmark' : heap.marks[h.index]?.getD false = false := hmark
      rw [if_neg (by simp [hmark'])]
      have hsize : (heap.link kept.getLast? left.head?).links.size = heap.links.size := by
        unfold link
        split
        · split <;> simp
        · rfl
      obtain ⟨head₁, links₁, hlink⟩ := exists_link heap kept.getLast? left.head?
      have hthreads := threads_link ht hn (fun x hx => hlive x (by simp [hx])) fun x hx => by
        obtain ⟨cell, hcell⟩ := contains_iff.1 (hlive x (by simp [hx]))
        exact hlinks ▸ index_lt_of_cell? hcell
      have hrelease : (heap.link kept.getLast? left.head?).release h =
          (heap.release h).rethread head₁ links₁ heap.marks := by rw [hlink, release_rethread]
      have hentries : ((heap.link kept.getLast? left.head?).release h).entries.size =
          heap.entries.size := by
        rw [hrelease]
        exact size_entries_release heap h
      refine Walked.free hmark (ih kept hle' ?_ ?_ (fun x hx => ?_) ?_ ?_) hsize ?_
      · rw [hnext, hlink] at hthreads
        rwa [hrelease]
      · exact hn.sublist ((List.Sublist.append_left (List.sublist_cons_self h left) kept).map _)
      · -- no other object is in the place of the one that is freed
        have hne : x ≠ h := by
          rintro rfl
          rw [List.map_append, List.map_cons, List.nodup_append] at hn
          rcases List.mem_append.1 hx with hx | hx
          · exact hn.2.2 _ (List.mem_map_of_mem hx) _ List.mem_cons_self rfl
          · exact hfresh (List.mem_map_of_mem hx)
        have hold : heap.contains x = true := hlive x <| by
          rcases List.mem_append.1 hx with hx | hx <;> simp [hx]
        rw [hrelease, contains, cell?_rethread, cell?_release, if_neg hne]
        exact hold
      · rw [hentries, ← hlinks, ← hsize, hrelease, hlink]
        rfl
      · rw [hentries, ← hmarks, hrelease]
        rfl
      · rw [Array.getElem?_eq_getElem hlt] at hmark' ⊢
        simpa using hmark'

/-! ## The result -/

section Result

variable (hl : heap.LaidOut) (hmarks : heap.marks.size = heap.entries.size)

include hl hmarks

/-- **A sweep of a thread**: the objects without a mark are freed, in the order of the thread, and the
others make the thread that is left. -/
theorem sweep_walked : heap.Walked [] heap.objects heap.sweep := by
  have ht := hl.threaded
  have hwalk := sweepFrom_walked heap.objects [] ht.length_le ht.threads ht.indices
    (fun x hx => (ht.mem_iff x).1 hx) hl.links_size hmarks
  rwa [← ht.threads.head_eq] at hwalk

theorem cell?_sweep (h : Handle) :
    heap.sweep.cell? h = if heap.hasMark h then heap.cell? h else none := by
  obtain ⟨head, links, marks, heq⟩ := (sweep_walked hl hmarks).freed
  rw [heq, cell?_rethread, cell?_foldl_release]
  simp only [List.mem_filter, hl.threaded.mem_iff, contains]
  cases heap.cell? h <;> cases heap.hasMark h <;> simp

/-- **A sweep leaves a tidy heap** without marks, if only objects had some and all of them were
followed. -/
theorem tidy_sweep (hgray : heap.gray = [])
    (hlive : ∀ i : Nat, heap.marks[i]? = some true → ∃ h, heap.contains h = true ∧ h.index = i) :
    heap.sweep.Tidy ∧ heap.sweep.gray = [] ∧ ∀ i : Nat, heap.sweep.marks[i]? ≠ some true := by
  have hw := sweep_walked hl hmarks
  obtain ⟨head, links, marks, heq⟩ := hw.freed
  obtain ⟨hvacant, hnodup⟩ := foldl_release_free (heap.objects.filter (!heap.hasMark ·)) heap
    hl.free_vacant hl.free_nodup
  have hsize : heap.sweep.entries.size = heap.entries.size := by
    rw [heq]
    exact size_entries_foldl_release _ heap
  have hclear : ∀ i : Nat, heap.sweep.marks[i]? ≠ some true := fun i hi => by
    obtain ⟨hmark, hleft⟩ := hw.cleared i hi
    obtain ⟨h, hc, rfl⟩ := hlive i hmark
    exact hleft (List.mem_map_of_mem ((hl.threaded.mem_iff h).2 hc))
  have hgray' : heap.sweep.gray = [] := by
    rw [heq]
    exact (gray_foldl_release _ heap).trans hgray
  have hthreaded : heap.sweep.Threaded (heap.objects.filter heap.hasMark) := by
    refine ⟨hw.threads, hl.threaded.nodup.filter _, fun h => ?_⟩
    rw [List.mem_filter, hl.threaded.mem_iff, contains, contains, cell?_sweep hl hmarks]
    cases heap.hasMark h <;> simp
  refine ⟨⟨⟨?_, ?_, ?_, ?_⟩, ?_⟩, hgray', hclear⟩
  · rw [heq]
    exact hvacant
  · rw [heq]
    exact hnodup
  · rw [hw.links_size, hl.links_size, hsize]
  · rwa [hthreaded.objects_eq]
  · have hall : ∀ b ∈ heap.sweep.marks.toList, b = false := fun b hb => by
      obtain ⟨i, hi, rfl⟩ := List.getElem_of_mem hb
      have hnot := hclear i
      rw [Array.getElem?_eq_getElem (by simpa using hi)] at hnot
      simpa using hnot
    refine ⟨hw.marks_size.trans (hmarks.trans hsize.symm), fun i hi => absurd hi (hclear i),
      fun h => ?_, ?_⟩
    · rw [hgray', isMarked_iff]
      exact ⟨fun hm => absurd hm List.not_mem_nil, fun hm => absurd hm.2 (hclear _)⟩
    · rw [hgray', List.length_nil, Nat.zero_add,
        List.count_eq_length.2 fun b hb => (hall b hb).symm, Array.length_toList, hw.marks_size, hmarks,
        hsize]

end Result

@[simp] theorem strings_sweep (heap : Heap) : heap.sweep.strings = heap.strings := by
  obtain ⟨dead, head, links, marks, heq⟩ := exists_sweep heap
  rw [heq]
  exact strings_foldl_release dead heap

end Heap

end LoxMachine
