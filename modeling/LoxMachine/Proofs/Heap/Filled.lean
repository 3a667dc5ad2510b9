import LoxMachine.Proofs.Heap.Healthy

/-!
# Heaps with other values in their captured variables

Where a captured variable lives matters to nothing but the instructions that read and write it.

* `Heap.fill f`: the heap in which every captured variable `u` is off the stack with the value `f u`,
  and nothing is reported. `Heap.blank` is the case in which all of them are `nil`.
* `Heap.Fills f roots roots'`: the values of the variables on the stack are among the roots, so a
  collection keeps the same objects either way (`Fills.reachable_iff`).
* `alloc_fill`, `intern_fill`: making an object gives the same handle, and heaps that agree.
* `Heap.Billed`: each object is charged for what it takes, so that moving a variable off the stack
  changes no count (`Billed.blank_replace`).
-/

namespace LoxMachine

/-! ## Objects and places -/

/-- A captured variable off the stack with the value `v`; any other object is left as it is. -/
def Object.fill (v : Value) : Object → Object
  | .upvalue _ => .upvalue (.closed v)
  | o => o

namespace Object

@[simp] theorem kind_fill (v : Value) (o : Object) : (o.fill v).kind = o.kind := by
  cases o <;> rfl

@[simp] theorem storage_fill (v : Value) (o : Object) : (o.fill v).storage = o.storage := by
  cases o <;> rfl

@[simp] theorem fill_fill (v w : Value) (o : Object) : (o.fill v).fill w = o.fill w := by
  cases o <;> rfl

theorem fill_of_kind {o : Object} (ho : o.kind ≠ .upvalue) (v : Value) : o.fill v = o := by
  cases o with
  | upvalue u => exact absurd rfl ho
  | _ => rfl

end Object

/-- The storage of an object after `Object.fill`. -/
def Cell.fill (v : Value) (c : Cell) : Cell := { c with object := c.object.fill v }

/-- The place `i` of an arena with the value that `f` gives to the variable in it. -/
def Entry.fill (f : Handle → Value) (i : Nat) (e : Entry) : Entry :=
  { e with cell := e.cell.map (Cell.fill (f ⟨i, e.generation⟩)) }

namespace Heap

/-- The heap in which every captured variable `u` has the value `f u`, and nothing is reported. -/
def fill (f : Handle → Value) (heap : Heap) : Heap :=
  { heap with entries := heap.entries.mapIdx (Entry.fill f), journal := {} }

/-- The heap without the values of captured variables. -/
def blank (heap : Heap) : Heap := heap.fill fun _ => .nil

variable {heap heap' : Heap} {f g : Handle → Value} {h x : Handle} {o : Object} {cell : Cell}

theorem getElem?_fill (f : Handle → Value) (heap : Heap) (i : Nat) :
    (heap.fill f).entries[i]? = heap.entries[i]?.map (Entry.fill f i) := by
  simp [fill]

theorem cell?_fill (f : Handle → Value) (heap : Heap) (h : Handle) :
    (heap.fill f).cell? h = (heap.cell? h).map (Cell.fill (f h)) := by
  unfold cell?
  rw [getElem?_fill]
  cases heap.entries[h.index]? with
  | none => rfl
  | some e =>
    obtain ⟨generation, _ | cell⟩ := e
    · rfl
    · simp only [Option.map_some, Entry.fill]
      by_cases hg : generation = h.generation
      · subst hg
        simp
      · simp [hg]

@[simp] theorem contains_fill (f : Handle → Value) (heap : Heap) (h : Handle) :
    (heap.fill f).contains h = heap.contains h := by
  simp [contains, cell?_fill]

@[simp] theorem fill_fill (f g : Handle → Value) (heap : Heap) :
    (heap.fill f).fill g = heap.fill g := by
  simp only [fill, Array.mapIdx_mapIdx]
  congr 2
  funext i e
  obtain ⟨generation, _ | cell⟩ := e <;> simp [Entry.fill, Cell.fill]

@[simp] theorem blank_fill (f : Handle → Value) (heap : Heap) : (heap.fill f).blank = heap.blank :=
  fill_fill _ _ _

@[simp] theorem fill_blank (f : Handle → Value) (heap : Heap) : heap.blank.fill f = heap.fill f :=
  fill_fill _ _ _

/-- The thread is the same. -/
theorem objects_fill (f : Handle → Value) (heap : Heap) : (heap.fill f).objects = heap.objects := by
  have hfrom : ∀ steps a, (heap.fill f).objectsFrom steps a = heap.objectsFrom steps a := by
    intro steps
    induction steps with
    | zero => intro a; rfl
    | succ steps ih =>
      intro a
      cases a with
      | none => rfl
      | some h => exact congrArg (h :: ·) (ih _)
  have hsize : (heap.fill f).entries.size = heap.entries.size := by simp [fill]
  rw [objects, objects, hsize, hfrom]
  rfl

/-! ## Reports -/

theorem record_of_silent (hj : heap.journal.keeps = none) (e : Event) : heap.record e = heap := by
  unfold record
  rw [if_neg]
  cases e.level <;> simp [Journal.admits, hj]

@[simp] theorem record_fill (f : Handle → Value) (heap : Heap) (e : Event) :
    (heap.fill f).record e = heap.fill f := record_of_silent rfl e

@[simp] theorem fill_record (f : Handle → Value) (heap : Heap) (e : Event) :
    (heap.record e).fill f = heap.fill f := by
  unfold record
  split <;> rfl

theorem recordFollowed_fill (f : Handle → Value) (heap : Heap) (m : Marking) :
    (heap.fill f).recordFollowed m = heap.fill f := by
  unfold recordFollowed
  rw [if_neg]
  simp [fill, Journal.admits]

theorem fill_recordFollowed (f : Handle → Value) (heap : Heap) (m : Marking) :
    (heap.recordFollowed m).fill f = heap.fill f := by
  unfold recordFollowed
  split
  · rename_i hadmits
    clear hadmits
    rw [← Array.foldl_toList]
    generalize m.followed.toList = followed
    induction followed generalizing heap with
    | nil => rfl
    | cons h followed ih =>
      rw [List.foldl_cons, ih]
      cases heap.cell? h with
      | none => rfl
      | some cell => exact fill_record f heap _
  · rfl

/-! ## Collections -/

theorem mapIdx_put {α β : Type} (g : Nat → α → β) (xs : Array α) (i : Nat) (a : α) :
    (put xs i a).mapIdx g = put (xs.mapIdx g) i (g i a) := by
  simp [put, Array.mapIdx_setIfInBounds]

theorem release_fill (f : Handle → Value) (heap : Heap) (h : Handle) :
    (heap.fill f).release h = (heap.release h).fill f := by
  unfold release
  rw [cell?_fill]
  cases hc : heap.cell? h with
  | none => rfl
  | some cell =>
    simp only [Option.map_some, fill_record]
    rw [record_of_silent rfl]
    simp [fill, mapIdx_put, Entry.fill, Cell.fill]

theorem link_fill (f : Handle → Value) (heap : Heap) (previous next : Option Handle) :
    (heap.fill f).link previous next = (heap.link previous next).fill f := by
  cases previous with
  | none => rfl
  | some p =>
    simp only [link, contains_fill]
    split <;> rfl

/-- A sweep does not look at the values of captured variables. -/
theorem sweepFrom_fill (f : Handle → Value) (steps : Nat) :
    ∀ (previous current : Option Handle) (heap : Heap),
      sweepFrom steps previous current (heap.fill f) = (sweepFrom steps previous current heap).fill f := by
  induction steps with
  | zero => intro _ _ _; rfl
  | succ steps ih =>
    intro previous current heap
    cases current with
    | none => rfl
    | some h =>
      have hnext : (heap.fill f).next h = heap.next h := rfl
      have hmarks : (heap.fill f).marks = heap.marks := rfl
      have hunmark : (heap.fill f).unmark h = (heap.unmark h).fill f := rfl
      simp only [sweepFrom, contains_fill, hnext, hmarks, hunmark, link_fill, release_fill, ih]
      split
      · split <;> rfl
      · rfl

theorem sweep_fill (f : Handle → Value) (heap : Heap) :
    (heap.fill f).sweep = heap.sweep.fill f := by
  have hsize : (heap.fill f).entries.size = heap.entries.size := by simp [fill]
  have hhead : (heap.fill f).head = heap.head := rfl
  rw [sweep, sweep, hsize, hhead, sweepFrom_fill]

theorem Searched.fill (hs : heap.Searched) (f : Handle → Value) : (heap.fill f).Searched :=
  hs.congr rfl rfl (by simp [Heap.fill]) (contains_fill f heap)

/-- The places that are marked are those of the objects that are. -/
theorem Valid.marked_iff {roots : List Handle} {m : Marking} (hv : heap.Valid roots m) (i : Nat) :
    m.marked[i]? = some true ↔ ∃ h, heap.isMarked m h = true ∧ h.index = i := by
  constructor
  · intro hi
    obtain ⟨h, hc, rfl⟩ := hv.live i hi
    exact ⟨h, (isMarked_iff heap m h).2 ⟨hc, hi⟩, rfl⟩
  · rintro ⟨h, hm, rfl⟩
    exact ((isMarked_iff heap m h).1 hm).2

/-- Searches that reach the same objects leave the same marks. -/
theorem marked_fill {roots roots' : List Handle} {m m' : Marking} (hv : heap.Valid roots m)
    (hv' : (heap.fill f).Valid roots' m')
    (hm : ∀ h, (heap.fill f).isMarked m' h = heap.isMarked m h) : m'.marked = m.marked := by
  have hsize : m'.marked.size = m.marked.size := by
    rw [hv'.size_eq, hv.size_eq]
    simp [fill]
  refine Array.ext hsize fun i hi hi' => ?_
  have hiff : m'.marked[i]? = some true ↔ m.marked[i]? = some true := by
    simp only [hv.marked_iff, hv'.marked_iff, hm]
  rw [Array.getElem?_eq_getElem hi, Array.getElem?_eq_getElem hi', Option.some.injEq,
    Option.some.injEq] at hiff
  exact Bool.eq_iff_iff.2 hiff

/-- **A collection that keeps the same objects comes to the same heap.** -/
theorem collect_fill (ht : heap.Tidy) {roots roots' : List Handle}
    (hr : ∀ h, (heap.fill f).Reachable (heap.gray ++ roots') h ↔
      heap.Reachable (heap.gray ++ roots) h) :
    (heap.fill f).collect roots' = (heap.collect roots).fill f := by
  obtain ⟨hv, hp⟩ := reach_valid ht.searched roots
  obtain ⟨hv', hp'⟩ := reach_valid (ht.searched.fill f) roots'
  have hmarked : ∀ h, (heap.fill f).isMarked ((heap.fill f).reach roots') h =
      heap.isMarked (heap.reach roots) h := fun h => by
    rw [Bool.eq_iff_iff, isMarked_reach_iff ht.searched, isMarked_reach_iff (ht.searched.fill f)]
    exact hr h
  have hmarks := marked_fill hv hv' hmarked
  unfold collect
  dsimp only
  generalize heap.reach roots = m at hp hmarked hmarks
  generalize (heap.fill f).reach roots' = m' at hp' hmarked hmarks
  -- the heap that is swept, with and without the reports
  have hbase : (((heap.fill f).setMarking m').record .collectionBegins).recordFollowed m' =
      (((heap.setMarking m).record .collectionBegins).recordFollowed m).fill f := by
    have hset : (heap.fill f).setMarking m' = (heap.setMarking m).fill f := by
      unfold setMarking
      rw [hmarks, hp, hp']
      rfl
    rw [hset, record_fill, recordFollowed_fill, fill_recordFollowed, fill_record]
  have hentries : (((heap.setMarking m).record .collectionBegins).recordFollowed m).entries =
      heap.entries := by
    have ha := (recordFollowed_same ((heap.setMarking m).record .collectionBegins) m).1
    rw [arena_record] at ha
    exact congrArg Prod.fst ha
  rw [hbase]
  generalize ((heap.setMarking m).record .collectionBegins).recordFollowed m = base at hentries
  have hretain : (base.fill f).isMarked m' = base.isMarked m := by
    funext h
    have hbool := hmarked h
    simp only [isMarked, contains_fill] at hbool ⊢
    rwa [contains, cell?_congr hentries, ← contains]
  have hleft : ({ base.fill f with
      strings := (base.fill f).strings.retain ((base.fill f).isMarked m') } : Heap) =
      ({ base with strings := base.strings.retain (base.isMarked m) } : Heap).fill f := by
    rw [hretain]
    rfl
  rw [hleft, sweep_fill, record_of_silent rfl, fill_record]
  rfl

/-! ## Roots -/

/-- The roots of two collections agree, and the values of the captured variables are what `f` gives
them or among the roots. -/
structure Fills (f : Handle → Value) (roots roots' : List Handle) (heap : Heap) : Prop where
  same : ∀ h, h ∈ roots' ↔ h ∈ roots
  closed : ∀ u v bytes, heap.cell? u = some ⟨.upvalue (.closed v), bytes⟩ → v = f u
  stacked : ∀ u slot bytes r, heap.cell? u = some ⟨.upvalue (.stacked slot), bytes⟩ →
    f u = .obj r → r ∈ roots

theorem Fills.reachable_iff {roots roots' : List Handle} (hf : heap.Fills f roots roots')
    (h : Handle) : (heap.fill f).Reachable roots' h ↔ heap.Reachable roots h := by
  constructor
  · intro hr
    induction hr with
    | root hmem hc => exact .root ((hf.same _).1 hmem) (by rwa [contains_fill] at hc)
    | @reference x r cell _ hcell hmem hc ih =>
      rw [contains_fill] at hc
      rw [cell?_fill] at hcell
      obtain ⟨⟨o, bytes⟩, hcell', rfl⟩ := Option.map_eq_some_iff.1 hcell
      cases o with
      | upvalue u =>
        cases u with
        | closed v =>
          refine .reference ih hcell' ?_ hc
          rw [hf.closed _ _ _ hcell']
          exact hmem
        | stacked slot =>
          refine .root (hf.stacked _ _ _ r hcell' ?_) hc
          simpa [Cell.fill, Object.fill, Object.references] using hmem
      | _ => exact .reference ih hcell' hmem hc
  · intro hr
    induction hr with
    | root hmem hc => exact .root ((hf.same _).2 hmem) (by rwa [contains_fill])
    | @reference x r cell _ hcell hmem hc ih =>
      have hcell' := cell?_fill f heap x
      rw [hcell, Option.map_some] at hcell'
      refine .reference ih hcell' ?_ (by rwa [contains_fill])
      obtain ⟨o, bytes⟩ := cell
      cases o with
      | upvalue u =>
        cases u with
        | closed v =>
          rw [hf.closed _ _ _ hcell] at hmem
          exact hmem
        | stacked slot => exact absurd hmem List.not_mem_nil
      | _ => exact hmem

/-! ## Allocation -/

theorem put_congr {α : Type} {xs ys : Array α} {i : Nat} (a : α) (hsize : xs.size = ys.size)
    (hne : ∀ j, j ≠ i → xs[j]? = ys[j]?) : put xs i a = put ys i a := by
  refine Array.ext_getElem? fun j => ?_
  by_cases hj : i = j
  · subst hj
    by_cases hi : i < xs.size
    · rw [getElem?_put_self _ hi, getElem?_put_self _ (hsize ▸ hi)]
    · rw [Array.getElem?_eq_none (by simpa using hi), Array.getElem?_eq_none (by simpa [← hsize] using hi)]
  · rw [getElem?_put_ne _ _ hj, getElem?_put_ne _ _ hj, hne j (Ne.symm hj)]

/-- The value of a variable matters only at its place. -/
theorem fill_update_ne (f : Handle → Value) (h : Handle) (v : Value) {i : Nat} (hi : i ≠ h.index)
    (e : Entry) : e.fill (Function.update f h v) i = e.fill f i := by
  unfold Entry.fill
  rw [Function.update_of_ne]
  rintro rfl
  exact hi rfl

theorem fill_update_self (f : Handle → Value) (h : Handle) (v : Value) (cell : Cell) :
    Entry.fill (Function.update f h v) h.index ⟨h.generation, some cell⟩ =
      ⟨h.generation, some (cell.fill v)⟩ := by
  simp [Entry.fill]

theorem place_fill (f : Handle → Value) (v : Value) (heap : Heap) (o : Object) (bytes : Nat) :
    (heap.fill f).place (o.fill v) bytes = ((heap.place o bytes).1,
      (heap.place o bytes).2.fill (Function.update f (heap.place o bytes).1 v)) := by
  have hfree : (heap.fill f).free = heap.free := rfl
  unfold place
  rw [hfree]
  cases heap.free with
  | cons index free =>
    have hgeneration : (heap.fill f).entries[index]?.elim 0 Entry.generation =
        heap.entries[index]?.elim 0 Entry.generation := by
      rw [getElem?_fill]
      cases heap.entries[index]? <;> rfl
    dsimp only
    rw [hgeneration]
    set h : Handle := ⟨index, heap.entries[index]?.elim 0 Entry.generation⟩ with hh
    have hself := fill_update_self f h v ⟨o, bytes⟩
    refine Prod.ext rfl ?_
    unfold fill
    dsimp only
    rw [mapIdx_put, hself]
    congr 1
    refine put_congr _ (by simp) fun j hj => ?_
    rw [Array.getElem?_mapIdx, Array.getElem?_mapIdx]
    cases heap.entries[j]? with
    | none => rfl
    | some e => exact congrArg some (fill_update_ne f h v hj e).symm
  | nil =>
    have hsize : (heap.fill f).entries.size = heap.entries.size := by simp [fill]
    dsimp only
    rw [hsize]
    set h : Handle := ⟨heap.entries.size, 0⟩ with hh
    have hself := fill_update_self f h v ⟨o, bytes⟩
    refine Prod.ext rfl ?_
    unfold fill
    dsimp only
    rw [Array.mapIdx_push, hself]
    congr 2
    refine Array.ext_getElem? fun j => ?_
    rw [Array.getElem?_mapIdx, Array.getElem?_mapIdx]
    cases he : heap.entries[j]? with
    | none => rfl
    | some e =>
      have hlt := (Array.getElem?_eq_some_iff.1 he).1
      exact congrArg some (fill_update_ne f h v hlt.ne e).symm

/-- **Making an object gives the same handle**, whatever the values of captured variables are. -/
theorem alloc_fill (ht : heap.Tidy) (roots roots' : Thunk (List Handle)) (o : Object) (v : Value)
    (hf : heap.Fills f (o.references ++ roots.get) ((o.fill v).references ++ roots'.get)) :
    (heap.fill f).alloc roots' (o.fill v) = ((heap.alloc roots o).1,
      (heap.alloc roots o).2.fill (Function.update f (heap.alloc roots o).1 v)) := by
  have hprepare : (heap.fill f).prepare roots'.get (o.fill v) =
      (heap.prepare roots.get o).fill f := by
    have hcharged : (heap.fill f).charged (o.fill v) = (heap.charged o).fill f := by
      unfold charged
      rw [Object.storage_fill]
      rfl
    have hdue : ((heap.charged o).fill f).isDue = (heap.charged o).isDue := rfl
    have hfills : (heap.charged o).Fills f (heap.gray ++ (o.references ++ roots.get))
        (heap.gray ++ ((o.fill v).references ++ roots'.get)) :=
      ⟨fun h => by rw [List.mem_append, hf.same, ← List.mem_append], hf.closed,
        fun u slot bytes r hu hr => List.mem_append_right _ (hf.stacked u slot bytes r hu hr)⟩
    unfold prepare
    rw [hcharged, hdue]
    split
    · exact collect_fill (ht.charged o) hfills.reachable_iff
    · rfl
  rw [alloc_eq, alloc_eq, hprepare, Object.storage_fill, Object.kind_fill, place_fill]
  simp only [record_fill, fill_record]

/-- An object that is no captured variable is made. -/
theorem alloc_fill_of_kind (ht : heap.Tidy) (roots roots' : Thunk (List Handle)) (ho : o.kind ≠ .upvalue)
    (hf : heap.Fills f (o.references ++ roots.get) (o.references ++ roots'.get)) :
    (heap.fill f).alloc roots' o = ((heap.alloc roots o).1, (heap.alloc roots o).2.fill f) := by
  have hfill := Object.fill_of_kind ho (f (heap.alloc roots o).1)
  have halloc := alloc_fill ht roots roots' o (f (heap.alloc roots o).1)
    (by rw [hfill]; exact hf)
  rw [hfill, Function.update_eq_self] at halloc
  exact halloc

theorem hasContents_fill (f : Handle → Value) (heap : Heap) (s : String) (h : Handle) :
    (heap.fill f).hasContents s h = heap.hasContents s h := by
  unfold hasContents
  rw [cell?_fill]
  cases heap.cell? h with
  | none => rfl
  | some cell =>
    obtain ⟨o, bytes⟩ := cell
    cases o <;> rfl

/-- **Interning gives the same handle**, whatever the values of captured variables are. -/
theorem intern_fill (ht : heap.Tidy) {roots roots' : Thunk (List Handle)}
    (hf : heap.Fills f roots.get roots'.get) (s : String) :
    (heap.fill f).intern roots' s = ((heap.intern roots s).1, (heap.intern roots s).2.fill f) := by
  have hstrings : (heap.fill f).strings = heap.strings := rfl
  have halloc := alloc_fill_of_kind ht roots roots' (f := f)
    (o := .string (Text.ofString s)) (by simp [Object.kind])
    ⟨by simpa [Object.references] using hf.same, hf.closed,
      fun u slot bytes r hc hr => List.mem_append_right _ (hf.stacked u slot bytes r hc hr)⟩
  unfold intern
  rw [hstrings, funext (hasContents_fill f heap s)]
  dsimp only
  cases heap.strings.findBy (Text.ofString s).hash (heap.hasContents s) with
  | some h => rfl
  | none =>
    rw [halloc]
    rfl

/-! ## Reading -/

theorem object_fill (f : Handle → Value) (heap : Heap) (h : Handle) :
    (heap.fill f).object h = (heap.object h).map (Object.fill (f h)) := by
  unfold object
  rw [cell?_fill]
  cases heap.cell? h <;> rfl

/-- What is read off an object without the value of a captured variable. -/
theorem object_bind_fill {α : Type} {g : Object → Except Fault α} (f : Handle → Value) (heap : Heap)
    (h : Handle) (hg : ∀ v o, g (o.fill v) = g o) :
    ((heap.fill f).object h >>= g) = (heap.object h >>= g) := by
  rw [object_fill]
  cases heap.object h with
  | error e => rfl
  | ok o => exact hg _ o

@[simp] theorem string_fill (f : Handle → Value) (heap : Heap) (h : Handle) :
    (heap.fill f).string h = heap.string h :=
  object_bind_fill f heap h fun _ o => by cases o <;> rfl

@[simp] theorem function_fill (f : Handle → Value) (heap : Heap) (h : Handle) :
    (heap.fill f).function h = heap.function h :=
  object_bind_fill f heap h fun _ o => by cases o <;> rfl

@[simp] theorem native_fill (f : Handle → Value) (heap : Heap) (h : Handle) :
    (heap.fill f).native h = heap.native h :=
  object_bind_fill f heap h fun _ o => by cases o <;> rfl

@[simp] theorem closure_fill (f : Handle → Value) (heap : Heap) (h : Handle) :
    (heap.fill f).closure h = heap.closure h :=
  object_bind_fill f heap h fun _ o => by cases o <;> rfl

@[simp] theorem cls_fill (f : Handle → Value) (heap : Heap) (h : Handle) :
    (heap.fill f).cls h = heap.cls h :=
  object_bind_fill f heap h fun _ o => by cases o <;> rfl

@[simp] theorem inst_fill (f : Handle → Value) (heap : Heap) (h : Handle) :
    (heap.fill f).inst h = heap.inst h :=
  object_bind_fill f heap h fun _ o => by cases o <;> rfl

@[simp] theorem key_fill (f : Handle → Value) (heap : Heap) (h : Handle) :
    (heap.fill f).key h = heap.key h := by
  simp only [key, string_fill]

@[simp] theorem contents_fill (f : Handle → Value) (heap : Heap) (h : Handle) :
    (heap.fill f).contents h = heap.contents h := by
  simp only [contents, string_fill]

@[simp] theorem asKind_fill (f : Handle → Value) (heap : Heap) (kind : ObjectKind) (v : Value) :
    (heap.fill f).asKind kind v = heap.asKind kind v := by
  cases v with
  | obj h => exact object_bind_fill f heap h fun _ o => by rw [Object.kind_fill]
  | _ => rfl

@[simp] theorem displayFunction_fill (f : Handle → Value) (heap : Heap) (h : Handle) :
    (heap.fill f).displayFunction h = heap.displayFunction h := by
  simp only [displayFunction, function_fill, contents_fill]

@[simp] theorem display_fill (f : Handle → Value) (heap : Heap) (v : Value) :
    (heap.fill f).display v = heap.display v := by
  cases v with
  | obj h =>
    simp only [display, displayFunction_fill, contents_fill, cls_fill, closure_fill]
    exact object_bind_fill f heap h fun _ o => by cases o <;> rfl
  | _ => rfl

/-! ## Change -/

theorem replace_fill (f : Handle → Value) (heap : Heap) {h : Handle} {o : Object}
    (ho : o.kind ≠ .upvalue) : (heap.fill f).replace h o = (heap.replace h o).fill f := by
  unfold replace
  rw [cell?_fill]
  cases heap.cell? h with
  | none => rfl
  | some cell => simp [fill, mapIdx_put, Entry.fill, Cell.fill, Object.fill_of_kind ho]

theorem setField_fill (f : Handle → Value) (heap : Heap) (h : Handle) (key : Key) (v : Value) :
    (heap.fill f).setField h key v = (heap.setField h key v).map (fill f) := by
  simp only [setField, inst_fill]
  cases heap.inst h with
  | error e => rfl
  | ok i => exact congrArg Except.ok (replace_fill f heap (by simp [Object.kind]))

theorem setMethod_fill (f : Handle → Value) (heap : Heap) (h : Handle) (key : Key) (v : Value) :
    (heap.fill f).setMethod h key v = (heap.setMethod h key v).map (fill f) := by
  simp only [setMethod, cls_fill]
  cases heap.cls h with
  | error e => rfl
  | ok i => exact congrArg Except.ok (replace_fill f heap (by simp [Object.kind]))

theorem inheritMethods_fill (f : Handle → Value) (heap : Heap) (super sub : Handle) :
    (heap.fill f).inheritMethods super sub = (heap.inheritMethods super sub).map (fill f) := by
  simp only [inheritMethods, cls_fill]
  cases heap.cls super with
  | error e => rfl
  | ok s =>
    cases heap.cls sub with
    | error e => rfl
    | ok c => exact congrArg Except.ok (replace_fill f heap (by simp [Object.kind]))

/-! ## Charges -/

/-- The bookkeeping is right, and each object is charged for what it takes. -/
structure Billed (heap : Heap) : Prop where
  tidy : heap.Tidy
  accounts : heap.Owes 0
  bytes : ∀ {h : Handle} {cell : Cell}, heap.cell? h = some cell → cell.bytes = cell.object.storage

theorem billed_of_empty (ha : heap.arena = ({} : Heap).arena) (hb : heap.bytes = 0) :
    heap.Billed :=
  ⟨tidy_of_empty ha, owes_of_empty (congrArg Prod.fst ha) hb,
    fun hc => by simp [cell?_of_empty ha] at hc⟩

theorem Billed.record (hb : heap.Billed) (e : Event) : (heap.record e).Billed :=
  ⟨hb.tidy.record e, hb.accounts.record e, fun hc => hb.bytes (by rwa [cell?_record] at hc)⟩

theorem Billed.alloc (hb : heap.Billed) (roots : Thunk (List Handle)) (o : Object) :
    (heap.alloc roots o).2.Billed := by
  have ha := alloc_allocates hb.tidy roots o
  refine ⟨ha.tidy, hb.accounts.alloc hb.tidy roots o, fun {x cell} hc => ?_⟩
  by_cases hx : x = (heap.alloc roots o).1
  · rw [hx, ha.new] at hc
    cases hc
    rfl
  · exact hb.bytes (ha.old hx hc)

theorem Billed.intern (hb : heap.Billed) (roots : Thunk (List Handle)) (s : String) :
    (heap.intern roots s).2.Billed := by
  rcases intern_spec hb.tidy roots s with ⟨-, heq⟩ | ⟨-, ha, -⟩
  · rw [heq]
    exact hb
  · refine ⟨ha.tidy, hb.accounts.intern hb.tidy roots s, fun {x cell} hc => ?_⟩
    by_cases hx : x = (heap.intern roots s).1
    · rw [hx, ha.new] at hc
      cases hc
      rfl
    · exact hb.bytes (ha.old hx hc)

theorem Billed.replace (hb : heap.Billed) (h : Handle) (o : Object) : (heap.replace h o).Billed := by
  cases hc : heap.cell? h with
  | none =>
    unfold Heap.replace
    rw [hc]
    exact hb
  | some cell =>
    refine ⟨hb.tidy.replace hc o, hb.accounts.replace hc o, fun {x cell'} hx => ?_⟩
    rw [cell?_replace hc] at hx
    split at hx
    · cases hx
      rfl
    · exact hb.bytes hx

/-- **Moving a captured variable off the stack, or writing it there, changes no count.** -/
theorem Billed.blank_replace (hb : heap.Billed) {u : Upvalue} {bytes : Nat}
    (hc : heap.cell? h = some ⟨.upvalue u, bytes⟩) (w : Upvalue) :
    (heap.replace h (.upvalue w)).blank = heap.blank := by
  have hbytes : bytes = (Object.upvalue w).storage := hb.bytes hc
  have hle : bytes ≤ heap.bytes := hb.accounts.cell_le hc
  have hcharge : heap.bytes - bytes + (Object.upvalue w).storage = heap.bytes := by omega
  unfold Heap.replace
  rw [hc]
  unfold blank fill
  dsimp only
  rw [hcharge, mapIdx_put]
  congr 1
  refine Array.ext_getElem? fun i => ?_
  by_cases hi : h.index = i
  · subst hi
    rw [getElem?_put_self _ (by simpa using index_lt_of_cell? hc), Array.getElem?_mapIdx,
      cell?_eq_some_iff.1 hc, Option.map_some, ← hbytes]
    rfl
  · rw [getElem?_put_ne _ _ hi]

end Heap

end LoxMachine
