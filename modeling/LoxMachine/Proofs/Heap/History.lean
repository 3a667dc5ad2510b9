import LoxMachine.Proofs.Heap.Interning

/-!
# Heaps that operations lead to

* `Heap.Reached allowed`: the heaps that come from a new one by allocating and changing objects,
  interning strings, marking and collecting. Which objects may be allocated, and written over others,
  is a parameter.
* `Heap.Exact heap roots heap'`: of `heap`, exactly what is reachable from `roots` is left.
* `Heap.collect_exact`: every collection is exact, and so is the one that an allocation runs.
* `Heap.interned_history`: interned strings are told apart by their contents.
-/

namespace LoxMachine

namespace Heap

variable {heap heap' : Heap} {allowed : Object → Prop} {h x : Handle} {o : Object} {cell : Cell}
  {s : String} {roots : List Handle}

/-! ## Operations -/

/-- Overwrite an object without charging for its new size. -/
def edit (heap : Heap) (h : Handle) (o : Object) : Heap :=
  match heap.cell? h with
  | none => heap
  | some cell =>
    { heap with entries := put heap.entries h.index ⟨h.generation, some ⟨o, cell.bytes⟩⟩ }

/-- The heaps that a sequence of operations leads to, where `allowed` says which objects may be
allocated or changed by hand. -/
inductive Reached (allowed : Object → Prop) : Heap → Prop
  | new (config : GcConfig) (journal : Journal) : Reached allowed { config, journal }
  | alloc {heap : Heap} {o : Object} (roots : Thunk (List Handle)) : Reached allowed heap →
      allowed o → Reached allowed (heap.alloc roots o).2
  | intern {heap : Heap} (roots : Thunk (List Handle)) (s : String) : Reached allowed heap →
      Reached allowed (heap.intern roots s).2
  | mark {heap : Heap} (early : List Handle) : Reached allowed heap →
      Reached allowed (heap.markAll early)
  | collect {heap : Heap} (roots : List Handle) : Reached allowed heap →
      Reached allowed (heap.collect roots)
  | setField {heap heap' : Heap} {h : Handle} {key : Key} {v : Value} : Reached allowed heap →
      heap.setField h key v = .ok heap' → Reached allowed heap'
  | setMethod {heap heap' : Heap} {h : Handle} {key : Key} {v : Value} : Reached allowed heap →
      heap.setMethod h key v = .ok heap' → Reached allowed heap'
  | inheritMethods {heap heap' : Heap} {super sub : Handle} : Reached allowed heap →
      heap.inheritMethods super sub = .ok heap' → Reached allowed heap'
  | setUpvalue {heap heap' : Heap} {h : Handle} {u : Upvalue} : Reached allowed heap →
      heap.setUpvalue h u = .ok heap' → Reached allowed heap'
  | edit {heap : Heap} {h : Handle} {o : Object} {cell : Cell} : Reached allowed heap →
      heap.cell? h = some cell → allowed cell.object → allowed o → Reached allowed (heap.edit h o)

theorem inst_eq_ok_iff {i : Instance} :
    heap.inst h = .ok i ↔ ∃ bytes, heap.cell? h = some ⟨.inst i, bytes⟩ := by
  unfold Heap.inst Heap.object
  cases hc : heap.cell? h with
  | none => simp [bind, Except.bind]
  | some cell =>
    obtain ⟨o, bytes⟩ := cell
    cases o <;> simp [bind, Except.bind, pure, Except.pure, throw, throwThe, MonadExceptOf.throw]

theorem cls_eq_ok_iff {c : Class} :
    heap.cls h = .ok c ↔ ∃ bytes, heap.cell? h = some ⟨.cls c, bytes⟩ := by
  unfold Heap.cls Heap.object
  cases hc : heap.cell? h with
  | none => simp [bind, Except.bind]
  | some cell =>
    obtain ⟨o, bytes⟩ := cell
    cases o <;> simp [bind, Except.bind, pure, Except.pure, throw, throwThe, MonadExceptOf.throw]

theorem upvalue_eq_ok_iff {u : Upvalue} :
    heap.upvalue h = .ok u ↔ ∃ bytes, heap.cell? h = some ⟨.upvalue u, bytes⟩ := by
  unfold Heap.upvalue Heap.object
  cases hc : heap.cell? h with
  | none => simp [bind, Except.bind]
  | some cell =>
    obtain ⟨o, bytes⟩ := cell
    cases o <;> simp [bind, Except.bind, pure, Except.pure, throw, throwThe, MonadExceptOf.throw]

theorem contents_eq_ok_iff : heap.contents h = .ok s ↔ heap.hasContents s h = true := by
  rw [hasContents_iff]
  unfold Heap.contents Heap.string Heap.object
  cases hc : heap.cell? h with
  | none => simp [bind, Except.bind]
  | some cell =>
    obtain ⟨o, bytes⟩ := cell
    cases o <;> simp [bind, Except.bind, pure, Except.pure, throw, throwThe, MonadExceptOf.throw]

/-- One object has been replaced by another of its kind, which is no string. -/
def Changes (heap heap' : Heap) : Prop :=
  ∃ (h : Handle) (cell : Cell) (o : Object), heap.cell? h = some cell ∧ heap' = heap.replace h o ∧
    o.kind = cell.object.kind ∧ o.kind ≠ .string

theorem changes_setField {key : Key} {v : Value} (h' : heap.setField h key v = .ok heap') :
    heap.Changes heap' := by
  unfold setField at h'
  cases hi : heap.inst h with
  | error e => simp [hi, bind, Except.bind] at h'
  | ok i =>
    obtain ⟨bytes, hcell⟩ := inst_eq_ok_iff.1 hi
    simp only [hi, bind, Except.bind, pure, Except.pure, Except.ok.injEq] at h'
    exact ⟨h, _, _, hcell, h'.symm, rfl, by simp [Object.kind]⟩

theorem changes_setMethod {key : Key} {v : Value} (h' : heap.setMethod h key v = .ok heap') :
    heap.Changes heap' := by
  unfold setMethod at h'
  cases hc : heap.cls h with
  | error e => simp [hc, bind, Except.bind] at h'
  | ok c =>
    obtain ⟨bytes, hcell⟩ := cls_eq_ok_iff.1 hc
    simp only [hc, bind, Except.bind, pure, Except.pure, Except.ok.injEq] at h'
    exact ⟨h, _, _, hcell, h'.symm, rfl, by simp [Object.kind]⟩

theorem changes_inheritMethods {super sub : Handle}
    (h' : heap.inheritMethods super sub = .ok heap') : heap.Changes heap' := by
  unfold inheritMethods at h'
  cases hs : heap.cls super with
  | error e => simp [hs, bind, Except.bind] at h'
  | ok inherited =>
    cases hc : heap.cls sub with
    | error e => simp [hs, hc, bind, Except.bind] at h'
    | ok c =>
      obtain ⟨bytes, hcell⟩ := cls_eq_ok_iff.1 hc
      simp only [hs, hc, bind, Except.bind, pure, Except.pure, Except.ok.injEq] at h'
      exact ⟨sub, _, _, hcell, h'.symm, rfl, by simp [Object.kind]⟩

theorem changes_setUpvalue {u : Upvalue} (h' : heap.setUpvalue h u = .ok heap') :
    heap.Changes heap' := by
  unfold setUpvalue at h'
  cases hu : heap.upvalue h with
  | error e => simp [hu, bind, Except.bind] at h'
  | ok old =>
    obtain ⟨bytes, hcell⟩ := upvalue_eq_ok_iff.1 hu
    simp only [hu, bind, Except.bind, pure, Except.pure, Except.ok.injEq] at h'
    exact ⟨h, _, _, hcell, h'.symm, rfl, by simp [Object.kind]⟩

theorem Changes.tidy (hc : heap.Changes heap') (ht : heap.Tidy) : heap'.Tidy := by
  obtain ⟨h, cell, o, hcell, rfl, -, -⟩ := hc
  exact ht.replace hcell o

theorem Changes.interned (hc : heap.Changes heap') (hi : heap.Interned) : heap'.Interned := by
  obtain ⟨h, cell, o, hcell, rfl, hkind, hstring⟩ := hc
  exact hi.replace hcell (hkind ▸ hstring) hstring

theorem edit_eq (hcell : heap.cell? h = some cell) (o : Object) : heap.edit h o =
    { heap with entries := put heap.entries h.index ⟨h.generation, some ⟨o, cell.bytes⟩⟩ } := by
  simp [edit, hcell]

/-- **The bookkeeping of every heap agrees with its places.** -/
theorem Reached.tidy (hr : Reached allowed heap) : heap.Tidy := by
  induction hr with
  | new config journal => exact tidy_of_empty rfl
  | alloc roots _ _ ih => exact (alloc_allocates ih roots _).tidy
  | intern roots s _ ih =>
    rcases intern_spec ih roots s with ⟨-, heq⟩ | ⟨-, ha, -⟩
    · rw [heq]
      exact ih
    · exact ha.tidy
  | mark early _ ih => exact ih.markAll early
  | collect roots _ ih => exact tidy_collect ih roots
  | setField _ h' ih => exact (changes_setField h').tidy ih
  | setMethod _ h' ih => exact (changes_setMethod h').tidy ih
  | inheritMethods _ h' ih => exact (changes_inheritMethods h').tidy ih
  | setUpvalue _ h' ih => exact (changes_setUpvalue h').tidy ih
  | edit _ hcell _ _ ih =>
    rw [edit_eq hcell]
    exact ih.overwrite hcell rfl rfl

/-- **The strings of every heap are interned**, if strings are made by interning only. -/
theorem Reached.interned (hr : Reached (fun o => o.kind ≠ .string) heap) : heap.Interned := by
  induction hr with
  | new config journal => exact interned_of_empty rfl rfl
  | alloc roots hr ho ih => exact ih.alloc hr.tidy roots ho
  | intern roots s hr ih => exact ih.intern hr.tidy roots s
  | mark early _ ih => exact ih.markAll early
  | collect roots hr ih => exact ih.collect hr.tidy roots
  | setField _ h' ih => exact (changes_setField h').interned ih
  | setMethod _ h' ih => exact (changes_setMethod h').interned ih
  | inheritMethods _ h' ih => exact (changes_inheritMethods h').interned ih
  | setUpvalue _ h' ih => exact (changes_setUpvalue h').interned ih
  | edit _ hcell ho ho' ih =>
    rw [edit_eq hcell]
    exact ih.overwrite rfl hcell ho ho' (cell?_overwrite hcell rfl)

/-! ## Exact collections -/

/-- Of `heap`, exactly what is reachable from `roots` is left, as it was. -/
structure Exact (heap : Heap) (roots : List Handle) (heap' : Heap) : Prop where
  contains : ∀ h, heap'.contains h = true ↔ heap.Reachable roots h
  kept : ∀ h, heap.Reachable roots h → heap'.cell? h = heap.cell? h

theorem exact_collect (ht : heap.Tidy) (roots : List Handle) :
    heap.Exact (heap.gray ++ roots) (heap.collect roots) := by
  classical
  refine ⟨fun h => ?_, fun h hr => by rw [cell?_collect ht, if_pos hr]⟩
  rw [Heap.contains, cell?_collect ht]
  split
  · rename_i hr
    exact ⟨fun _ => hr, fun _ => hr.contains⟩
  · rename_i hr
    simp [hr]

/-- The heap has the places of `start` and some of its objects, and a place that has been emptied
is in a generation of which `start` has no object. -/
structure Renewed (start heap : Heap) : Prop where
  size_eq : heap.entries.size = start.entries.size
  old : ∀ h cell, heap.cell? h = some cell → start.cell? h = some cell
  vacant : ∀ h : Handle, heap.entries[h.index]? = some ⟨h.generation, none⟩ → start.cell? h = none

section Renewed

variable {start : Heap}

theorem renewed_refl (heap : Heap) : heap.Renewed heap where
  size_eq := rfl
  old _ _ hc := hc
  vacant h he := by simp [cell?, he]

theorem Renewed.congr (hr : start.Renewed heap) (he : heap'.entries = heap.entries) :
    start.Renewed heap' := by
  refine ⟨by rw [he]; exact hr.size_eq, fun h cell hc => hr.old h cell ?_, fun h hv => hr.vacant h ?_⟩
  · rwa [← cell?_congr he]
  · rwa [← he]

/-- Freeing an object starts a new generation. -/
theorem Renewed.release (hr : start.Renewed heap) (x : Handle) : start.Renewed (heap.release x) := by
  have hold : ∀ h cell, (heap.release x).cell? h = some cell → start.cell? h = some cell := by
    intro h cell hc
    rw [cell?_release] at hc
    split at hc
    · cases hc
    · exact hr.old h cell hc
  cases hx : heap.cell? x with
  | none =>
    have hsame : heap.release x = heap := by simp [Heap.release, hx]
    rw [hsame]
    exact hr
  | some cell =>
    have hentries : (heap.release x).entries = put heap.entries x.index ⟨x.generation + 1, none⟩ := by
      simp [Heap.release, hx]
    refine ⟨by rw [hentries, size_put, hr.size_eq], hold, fun h he => ?_⟩
    rw [hentries] at he
    rcases getElem?_put_eq_some he with ⟨hi, heq⟩ | ⟨-, he⟩
    · rw [Option.eq_none_iff_forall_ne_some]
      intro cell' hs
      have hsame := eq_of_index_eq hs (hr.old x cell hx) hi
      simp [hsame] at heq
    · exact hr.vacant h he

theorem Renewed.foldl_release (dead : List Handle) (hr : start.Renewed heap) :
    start.Renewed (dead.foldl Heap.release heap) := by
  induction dead generalizing heap with
  | nil => exact hr
  | cons x dead ih => exact ih (hr.release x)

theorem renewed_collect (heap : Heap) (roots : List Handle) : heap.Renewed (heap.collect roots) := by
  obtain ⟨mid, dead, ⟨he, -, -⟩, hentries, -, -⟩ := collect_frees heap roots
  exact (((renewed_refl heap).congr he).foldl_release dead).congr hentries

theorem renewed_prepare (heap : Heap) (roots : List Handle) (o : Object) :
    heap.Renewed (heap.prepare roots o) := by
  unfold prepare
  split
  · have hr := renewed_collect (heap.charged o) (o.references ++ roots)
    exact ⟨hr.size_eq, fun h cell hc => by simpa using hr.old h cell hc,
      fun h he => by simpa using hr.vacant h he⟩
  · exact (renewed_refl heap).congr rfl

end Renewed

/-- **A new object gets a handle that named nothing**, not even before the collection. -/
theorem contains_alloc (ht : heap.Tidy) (roots : Thunk (List Handle)) (o : Object) :
    heap.contains (heap.alloc roots o).1 = false := by
  have hr := renewed_prepare heap roots.get o
  have htidy := ht.prepare roots.get o
  rw [alloc_eq]
  set mid := heap.prepare roots.get o
  suffices hnone : heap.cell? (mid.place o o.storage).1 = none by rw [contains, hnone]; rfl
  cases hf : mid.free with
  | nil =>
    have hplace : (mid.place o o.storage).1 = ⟨mid.entries.size, 0⟩ := by simp [place, hf]
    rw [hplace, Option.eq_none_iff_forall_ne_some]
    intro cell hc
    have hlt := index_lt_of_cell? hc
    rw [hr.size_eq] at hlt
    exact absurd hlt (Nat.lt_irrefl _)
  | cons index free =>
    obtain ⟨generation, he⟩ := htidy.free_vacant index (by simp [hf])
    have hplace : (mid.place o o.storage).1 = ⟨index, generation⟩ := by simp [place, hf, he]
    rw [hplace]
    exact hr.vacant ⟨index, generation⟩ he

/-- No object is marked, and none is left to be followed. -/
def Unmarked (heap : Heap) : Prop := heap.gray = [] ∧ ∀ i : Nat, heap.marks[i]? ≠ some true

theorem Searched.unmarked (hs : heap.Searched) (hg : heap.gray = []) : heap.Unmarked := by
  refine ⟨hg, fun i hi => ?_⟩
  obtain ⟨h, hc, rfl⟩ := hs.live i hi
  have hmem := (hs.gray_iff h).2 ((isMarked_iff heap _ h).2 ⟨hc, hi⟩)
  rw [hg] at hmem
  cases hmem

/-- Marking goes on where a collection is not due. -/
theorem gray_alloc (ht : heap.Tidy) (roots : Thunk (List Handle)) (o : Object) :
    (heap.alloc roots o).2.gray = if (heap.charged o).isDue then [] else heap.gray := by
  have hplace : ((heap.prepare roots.get o).place o o.storage).2.gray =
      (heap.prepare roots.get o).gray := by
    unfold place
    split <;> rfl
  rw [alloc_eq, gray_record, hplace, prepare]
  split
  · exact (collect_clears (ht.charged o) _).2.1
  · rfl

/-- **Collections are exact.** A collection leaves exactly what is reachable from its roots, and from
what has been marked since the last one, as it was; and it leaves no mark. So the next collection is
exact for its own roots. An allocation collects if the heap is over its limit with the new object, and
then the references of the object are roots as well; the object gets a handle that named nothing, and
nothing else changes. -/
theorem collect_exact (hr : Reached (fun _ => True) heap) (roots : List Handle) :
    heap.Exact (heap.gray ++ roots) (heap.collect roots) ∧ (heap.collect roots).Unmarked ∧
      (∀ early x, x ∈ (heap.markAll early).gray ↔
        x ∈ heap.gray ∨ (x ∈ early ∧ heap.contains x = true)) ∧
      (∀ roots', (heap.collect roots).Exact roots' ((heap.collect roots).collect roots')) ∧
      ∀ (more : Thunk (List Handle)) (o : Object), ∃ left : Heap,
        (if (heap.charged o).isDue then
            heap.Exact (heap.gray ++ (o.references ++ more.get)) left ∧ (heap.alloc more o).2.Unmarked
          else (∀ h, left.cell? h = heap.cell? h) ∧ (heap.alloc more o).2.gray = heap.gray) ∧
        heap.contains (heap.alloc more o).1 = false ∧ left.contains (heap.alloc more o).1 = false ∧
        ∀ h, (heap.alloc more o).2.cell? h =
          if h = (heap.alloc more o).1 then some ⟨o, o.storage⟩ else left.cell? h := by
  have ht := hr.tidy
  obtain ⟨htidy, hgray, hclear⟩ := collect_clears ht roots
  refine ⟨exact_collect ht roots, ⟨hgray, hclear⟩, mem_gray_markAll ht.searched, fun roots' => ?_,
    fun more o => ⟨heap.prepare more.get o, ?_, contains_alloc ht more o, ?_, cell?_alloc ht more o⟩⟩
  · have hexact := exact_collect htidy roots'
    rwa [hgray] at hexact
  · have hmarks := gray_alloc ht more o
    split
    · rename_i hdue
      rw [if_pos hdue] at hmarks
      obtain ⟨hcontains, hkept⟩ := exact_collect (ht.charged o) (o.references ++ more.get)
      have hsame : ∀ h, (heap.charged o).Reachable (heap.gray ++ (o.references ++ more.get)) h ↔
          heap.Reachable (heap.gray ++ (o.references ++ more.get)) h := fun h =>
        ⟨fun hr => hr.congr fun x => (cell?_charged heap o x).symm,
          fun hr => hr.congr (cell?_charged heap o)⟩
      rw [prepare, if_pos hdue]
      exact ⟨⟨fun h => (hcontains h).trans (hsame h),
        fun h hr => by simpa using hkept h ((hsame h).2 hr)⟩,
        (alloc_allocates ht more o).tidy.searched.unmarked hmarks⟩
    · rename_i hdue
      rw [if_neg hdue] at hmarks
      rw [prepare, if_neg hdue]
      exact ⟨cell?_charged heap o, hmarks⟩
  · rw [contains, fresh_alloc ht]
    rfl

/-- A captured variable and a bound method of it. -/
def paired : Heap :=
  ((alloc {} (Thunk.pure []) (.upvalue (.closed .nil))).2.alloc (Thunk.pure [])
    (.bound ⟨.obj ⟨0, 0⟩, ⟨0, 0⟩⟩)).2

/-- The two, referring to each other. -/
def cyclic : Heap := paired.edit ⟨0, 0⟩ (.upvalue (.closed (.obj ⟨1, 0⟩)))

theorem reached_cyclic : Reached (fun _ => True) cyclic := by
  have hpaired : Reached (fun _ => True) paired := .alloc _ (.alloc _ (.new {} {}) trivial) trivial
  have hcell : paired.cell? ⟨0, 0⟩ = some ⟨.upvalue (.closed .nil), 104⟩ := rfl
  exact .edit hpaired hcell trivial trivial

/-- A cycle is kept as long as one of its members is a root, or has been marked ahead, and freed
without. -/
theorem collect_exact_cyclic :
    (cyclic.collect [⟨1, 0⟩]).contains ⟨0, 0⟩ = true ∧
      ((cyclic.markAll [⟨1, 0⟩]).collect []).contains ⟨0, 0⟩ = true ∧
      (cyclic.collect []).contains ⟨0, 0⟩ = false := by
  obtain ⟨⟨hroot, -⟩, -⟩ := collect_exact reached_cyclic [⟨1, 0⟩]
  obtain ⟨⟨hmarked, -⟩, -⟩ := collect_exact (reached_cyclic.mark [⟨1, 0⟩]) []
  obtain ⟨⟨hnone, -⟩, -⟩ := collect_exact reached_cyclic []
  have hcell : cyclic.cell? ⟨1, 0⟩ = some ⟨.bound ⟨.obj ⟨0, 0⟩, ⟨0, 0⟩⟩, 104⟩ := rfl
  have hempty : ∀ x, ¬cyclic.Reachable [] x := by
    intro x hx
    induction hx with
    | root hm => exact List.not_mem_nil hm
    | reference _ _ _ _ ih => exact ih
  refine ⟨(hroot _).2 (.reference (.root (List.mem_singleton_self _) rfl) hcell List.mem_cons_self rfl),
    (hmarked _).2 (.reference (.root (List.mem_singleton_self _) rfl) hcell List.mem_cons_self rfl), ?_⟩
  rw [Bool.eq_false_iff]
  exact fun hc => hempty _ ((hnone _).1 hc)

/-! ## Interned strings -/

/-- **Strings are told apart by their contents.** Where strings are made by interning only, the keys
of the table of strings are exactly the live strings, each of them once and with the hash of its
contents, and no two of them have the same contents. Interning gives a live string with the contents
asked for, the one there is if there is one, even if it collects. So strings are equal as values
exactly if their contents are. -/
theorem interned_history (hr : Reached (fun o => o.kind ≠ .string) heap) :
    (∀ key, (∃ v, (key, v) ∈ heap.strings.entries) ↔
        ∃ s, heap.contents key.handle = .ok s ∧ key.hash = fnv1a s) ∧
      (heap.strings.entries.map fun pair => pair.1.handle).Nodup ∧
      (∀ (roots : Thunk (List Handle)) (s : String),
        (heap.intern roots s).2.contents (heap.intern roots s).1 = .ok s ∧
          ∀ h, heap.contents h = .ok s → (heap.intern roots s).1 = h) ∧
      ∀ a b s s', heap.contents a = .ok s → heap.contents b = .ok s' →
        (Value.equals (.obj a) (.obj b) = true ↔ s = s') := by
  have ht := hr.tidy
  have hi := hr.interned
  have hrep := hi.sound.represents
  refine ⟨fun key => ?_, hrep.nodup, fun roots s => ⟨?_, fun h hs => ?_⟩, fun a b s s' ha hb => ?_⟩
  · simp only [hrep.mem_entries, contents_eq_ok_iff, exists_and_left, hi.keys]
    constructor
    · rintro ⟨hkey, s, hs⟩
      exact ⟨s, hs, by rw [hkey, hashOf_of_hasContents hs]⟩
    · rintro ⟨s, hs, hkey⟩
      exact ⟨by rw [hkey, hashOf_of_hasContents hs], s, hs⟩
  · exact contents_eq_ok_iff.2 (hasContents_intern ht roots s)
  · rw [hi.intern_eq roots (contents_eq_ok_iff.1 hs)]
  · rw [contents_eq_ok_iff] at ha hb
    rw [Value.equals_obj, beq_iff_eq]
    constructor
    · rintro rfl
      exact hasContents_inj ha hb
    · rintro rfl
      exact hi.unique a b s ha hb

/-- A string that is collected and made again. -/
theorem interned_history_again :
    ((((intern {} (Thunk.pure []) "a").2.collect []).intern (Thunk.pure []) "a").2.contents
      (((intern {} (Thunk.pure []) "a").2.collect []).intern (Thunk.pure []) "a").1) = .ok "a" :=
  ((interned_history (.collect [] (.intern _ "a" (.new {} {})))).2.2.1 _ "a").1

end Heap

end LoxMachine
