import LoxMachine.Proofs.Heap.Filled
import LoxMachine.Proofs.Heap.History

/-!
# The bookkeeping of a heap

* `Heap.Operation` is what is done to a heap from outside, and `Operation.runAll` does it to a new heap.
* `Heap.Listed.places`: the places of the arena are those of the objects of the thread and the free
  ones, each of them once.
* `collect?`, `alloc?` and `Operation.perform?` are the operations with exact counts. They fail where a
  count would fall below zero, and on a heap whose accounts are right they do not.
* `Heap.Kept` is what holds of the lists and counts of a heap, and `Operation.runAll_kept` says that it
  holds after every sequence of operations.
-/

namespace LoxMachine

namespace Heap

variable {heap heap' : Heap} {extra : Nat}

/-! ## Places -/

/-- Every empty place is free. -/
def Listed (heap : Heap) : Prop :=
  ∀ i generation, heap.entries[i]? = some ⟨generation, none⟩ → i ∈ heap.free

theorem listed_of_empty (he : heap.entries = #[]) : heap.Listed := fun i generation hi => by
  simp [he] at hi

theorem Listed.congr (hl : heap.Listed) (he : heap'.entries = heap.entries)
    (hf : heap'.free = heap.free) : heap'.Listed := by
  rw [Listed, he, hf]
  exact hl

theorem Listed.record (hl : heap.Listed) (e : Event) : (heap.record e).Listed :=
  hl.congr (entries_record heap e) (free_record heap e)

theorem Listed.release (hl : heap.Listed) (h : Handle) : (heap.release h).Listed := by
  unfold Heap.release
  split
  · exact hl
  · apply Listed.record
    intro i generation hi
    rcases getElem?_put_eq_some hi with ⟨rfl, -⟩ | ⟨-, hi⟩
    · exact List.mem_cons_self
    · exact List.mem_cons_of_mem _ (hl i generation hi)

theorem Listed.foldl_release (dead : List Handle) (hl : heap.Listed) :
    (dead.foldl Heap.release heap).Listed := by
  induction dead generalizing heap with
  | nil => exact hl
  | cons d dead ih => exact ih (hl.release d)

theorem Listed.collect (hl : heap.Listed) (roots : List Handle) : (heap.collect roots).Listed := by
  obtain ⟨mid, dead, ⟨he, hf, -⟩, hentries, hfree, -⟩ := collect_frees heap roots
  exact ((hl.congr he hf).foldl_release dead).congr hentries hfree

/-- A new object takes its place off the free list. -/
theorem Listed.place (hl : heap.Listed) (o : Object) (bytes : Nat) :
    (heap.place o bytes).2.Listed := by
  unfold Heap.place
  split
  · rename_i index free hf
    intro i generation hi
    rcases getElem?_put_eq_some hi with ⟨-, hcell⟩ | ⟨hne, hi⟩
    · simp at hcell
    · have hmem := hl i generation hi
      rw [hf] at hmem
      exact (List.mem_cons.1 hmem).resolve_left hne
  · intro i generation hi
    simp only [Array.getElem?_push] at hi
    split at hi
    · simp at hi
    · exact hl i generation hi

theorem Listed.alloc (hl : heap.Listed) (roots : Thunk (List Handle)) (o : Object) :
    (heap.alloc roots o).2.Listed := by
  have hcharged : (heap.charged o).Listed := hl.congr rfl rfl
  have hprepare : (heap.prepare roots.get o).Listed := by
    unfold prepare
    split
    · exact hcharged.collect _
    · exact hcharged
  rw [alloc_eq]
  exact (hprepare.place o o.storage).record _

theorem Listed.intern (hl : heap.Listed) (roots : Thunk (List Handle)) (s : String) :
    (heap.intern roots s).2.Listed := by
  unfold Heap.intern
  dsimp only
  split
  · exact hl
  · exact (hl.alloc roots _).congr rfl rfl

theorem Listed.replace (hl : heap.Listed) (h : Handle) (o : Object) : (heap.replace h o).Listed := by
  unfold Heap.replace
  split
  · exact hl
  · intro i generation hi
    rcases getElem?_put_eq_some hi with ⟨-, hcell⟩ | ⟨-, hi⟩
    · simp at hcell
    · exact hl i generation hi

/-- **The places are those of the objects and the free ones**, each of them once. -/
theorem Listed.places (hl : heap.Listed) (ht : heap.Tidy) :
    (heap.objects.map Handle.index ++ heap.free).Perm (List.range heap.entries.size) := by
  have hlive : ∀ h ∈ heap.objects, ∃ cell, heap.cell? h = some cell := fun h hh =>
    contains_iff.1 ((ht.mem_objects h).1 hh)
  refine (List.perm_ext_iff_of_nodup (List.nodup_append'.2 ⟨ht.threaded.indices, ht.free_nodup, ?_⟩)
    List.nodup_range).2 fun i => ?_
  · intro i hi hfree
    obtain ⟨h, hh, rfl⟩ := List.mem_map.1 hi
    obtain ⟨cell, hc⟩ := hlive h hh
    exact ht.notMem_free hc hfree
  · rw [List.mem_append, List.mem_range, List.mem_map]
    constructor
    · rintro (⟨h, hh, rfl⟩ | hi)
      · obtain ⟨cell, hc⟩ := hlive h hh
        exact index_lt_of_cell? hc
      · obtain ⟨generation, he⟩ := ht.free_vacant i hi
        exact (Array.getElem?_eq_some_iff.1 he).1
    · intro hi
      have he : heap.entries[i]? = some heap.entries[i] := Array.getElem?_eq_getElem hi
      rcases hentry : heap.entries[i] with ⟨generation, _ | cell⟩
      · exact .inr (hl i generation (hentry ▸ he))
      · have hc : heap.cell? ⟨i, generation⟩ = some cell := cell?_eq_some_iff.2 (hentry ▸ he)
        exact .inl ⟨⟨i, generation⟩, (ht.mem_objects _).2 (contains_of_cell? hc), rfl⟩

theorem Listed.objectCount (hl : heap.Listed) (ht : heap.Tidy) :
    heap.objects.length + heap.free.length = heap.entries.size := by
  simpa using (hl.places ht).length_eq

/-! ## Exact counts -/

/-- The heap in which the bytes of an object have been given back, if they had been counted. -/
def paying (heap : Heap) (h : Handle) (paid : Heap) : Option Heap :=
  if (heap.cell? h).all (·.bytes ≤ heap.bytes) then some paid else none

/-- The walk of a sweep, if no count falls below zero when an object is freed. -/
def sweepFrom? : (steps : Nat) → (previous current : Option Handle) → Heap → Option Heap
  | steps + 1, previous, some h, heap =>
    if heap.contains h then
      let next := heap.next h
      if heap.marks[h.index]?.getD false then sweepFrom? steps (some h) next (heap.unmark h)
      else do
        let heap := heap.link previous next
        sweepFrom? steps previous next (← heap.paying h (heap.release h))
    else some heap
  | _, _, _, heap => some heap

/-- Free the objects without a mark, if no count falls below zero. -/
def sweep? (heap : Heap) : Option Heap := sweepFrom? heap.entries.size none heap.head heap

/-- Run a collection, if no count falls below zero, nor the number of bytes that it reports to have
freed. -/
def collect? (heap : Heap) (roots : List Handle) : Option Heap := do
  let before := heap.bytes
  let marking := heap.reach roots
  let heap := ((heap.setMarking marking).record .collectionBegins).recordFollowed marking
  let strings := heap.strings.retain (heap.isMarked marking)
  let heap ← { heap with strings := strings }.sweep?
  let limit := heap.nextLimit
  guard (heap.bytes ≤ before)
  return { heap with limit := limit, collections := heap.collections + 1 }
    |>.record (.collectionEnds before heap.bytes limit)

/-- The heap in which a new object is placed, if no count falls below zero. -/
def prepare? (heap : Heap) (roots : List Handle) (o : Object) : Option Heap :=
  if (heap.charged o).isDue then (heap.charged o).collect? (o.references ++ roots)
  else some (heap.charged o)

/-- Make an object, if no count falls below zero. -/
def alloc? (heap : Heap) (roots : Thunk (List Handle)) (o : Object) : Option (Handle × Heap) := do
  let heap ← heap.prepare? roots.get o
  let (h, heap) := heap.place o o.storage
  return (h, heap.record (.allocated h o.storage o.kind))

/-- The string object with the given contents, if no count falls below zero. -/
def intern? (heap : Heap) (roots : Thunk (List Handle)) (s : String) : Option (Handle × Heap) :=
  let text := Text.ofString s
  match heap.strings.findBy text.hash (heap.hasContents s) with
  | some h => some (h, heap)
  | none => do
    let (h, heap) ← heap.alloc? roots (.string text)
    return (h, { heap with strings := heap.strings.insert ⟨h, text.hash⟩ .nil })

theorem Owes.paying_eq (ho : heap.Owes extra) (h : Handle) (paid : Heap) :
    heap.paying h paid = some paid := by
  refine if_pos ((Option.all_eq_true _ _).2 fun cell hc => ?_)
  exact decide_eq_true (ho.cell_le hc)

/-- Objects are freed one after another, and what is left is accounted for. -/
theorem Owes.sweepFrom?_eq (steps : Nat) : ∀ (previous current : Option Handle) {heap : Heap},
    heap.Owes extra →
    sweepFrom? steps previous current heap = some (sweepFrom steps previous current heap) := by
  induction steps with
  | zero => intro _ _ _ _; rfl
  | succ steps ih =>
    intro previous current heap ho
    cases current with
    | none => rfl
    | some h =>
      obtain ⟨head, links, hlink⟩ := exists_link heap previous (heap.next h)
      have hlinked : (heap.link previous (heap.next h)).Owes extra := by
        rw [hlink]
        exact ho.congr rfl rfl
      simp only [sweepFrom?, sweepFrom, hlinked.paying_eq, Option.bind_eq_bind, Option.bind_some,
        ih _ _ (hlinked.release h), ih _ _ (show (heap.unmark h).Owes extra from ho.congr rfl rfl)]
      split
      · split <;> rfl
      · rfl

theorem Owes.sweep?_eq (ho : heap.Owes extra) : heap.sweep? = some heap.sweep :=
  ho.sweepFrom?_eq _ _ _

theorem bytes_foldl_release_le (dead : List Handle) (heap : Heap) :
    (dead.foldl Heap.release heap).bytes ≤ heap.bytes := by
  induction dead generalizing heap with
  | nil => exact le_rfl
  | cons d dead ih => exact (ih _).trans (bytes_release_le heap d)

/-- **No count falls below zero in a collection.** -/
theorem Owes.collect?_eq (ho : heap.Owes extra) (roots : List Handle) :
    heap.collect? roots = some (heap.collect roots) := by
  set marking := heap.reach roots with hmarking
  have hbytes : (((heap.setMarking marking).record .collectionBegins).recordFollowed marking).bytes =
      heap.bytes := (bytes_recordFollowed _ _).trans (bytes_record _ _)
  have hbase : (((heap.setMarking marking).record .collectionBegins).recordFollowed marking).Owes
      extra := by
    have ha := (recordFollowed_same ((heap.setMarking marking).record .collectionBegins) marking).1
    rw [arena_record] at ha
    exact ho.congr (congrArg Prod.fst ha) hbytes
  unfold collect? Heap.collect
  dsimp only
  rw [← hmarking]
  generalize ((heap.setMarking marking).record .collectionBegins).recordFollowed marking = base
    at hbytes hbase
  have hretained : { base with strings := base.strings.retain (base.isMarked marking) }.Owes extra :=
    hbase.congr rfl rfl
  have hle : { base with strings := base.strings.retain (base.isMarked marking) }.sweep.bytes ≤
      heap.bytes := by
    obtain ⟨dead, head, links, marks, hsweep⟩ :=
      exists_sweep { base with strings := base.strings.retain (base.isMarked marking) }
    rw [hsweep, ← hbytes]
    exact bytes_foldl_release_le dead _
  rw [hretained.sweep?_eq, Option.bind_eq_bind, Option.bind_some, guard, if_pos hle]
  rfl

theorem Owes.prepare?_eq (ho : heap.Owes 0) (roots : List Handle) (o : Object) :
    heap.prepare? roots o = some (heap.prepare roots o) := by
  have hcharged : (heap.charged o).Owes o.storage := by
    unfold Owes charges charged at *
    dsimp only
    omega
  unfold prepare? prepare
  split
  · exact hcharged.collect?_eq _
  · rfl

theorem Owes.alloc?_eq (ho : heap.Owes 0) (roots : Thunk (List Handle)) (o : Object) :
    heap.alloc? roots o = some (heap.alloc roots o) := by
  unfold alloc?
  rw [ho.prepare?_eq, alloc_eq]
  rfl

theorem Owes.intern?_eq (ho : heap.Owes 0) (roots : Thunk (List Handle)) (s : String) :
    heap.intern? roots s = some (heap.intern roots s) := by
  unfold intern? Heap.intern
  dsimp only
  rw [ho.alloc?_eq]
  cases heap.strings.findBy (Text.ofString s).hash (heap.hasContents s) <;> rfl

/-! ## Operations -/

/-- What is done to a heap. -/
inductive Operation where
  | alloc (roots : List Handle) (o : Object)
  | intern (roots : List Handle) (s : String)
  | mark (early : List Handle)
  | collect (roots : List Handle)
  | setField (h : Handle) (key : Key) (v : Value)
  | setMethod (h : Handle) (key : Key) (v : Value)
  | inheritMethods (super sub : Handle)
  | setUpvalue (h : Handle) (u : Upvalue)

namespace Operation

/-- The heap after an operation. One that the heap rejects changes nothing. -/
def perform (heap : Heap) : Operation → Heap
  | alloc roots o => (heap.alloc (Thunk.pure roots) o).2
  | intern roots s => (heap.intern (Thunk.pure roots) s).2
  | mark early => heap.markAll early
  | collect roots => heap.collect roots
  | setField h key v => (heap.setField h key v).toOption.getD heap
  | setMethod h key v => (heap.setMethod h key v).toOption.getD heap
  | inheritMethods super sub => (heap.inheritMethods super sub).toOption.getD heap
  | setUpvalue h u => (heap.setUpvalue h u).toOption.getD heap

/-- The heap after an operation, if no count falls below zero. An object that changes is paid back
and charged for again. -/
def perform? (heap : Heap) (op : Operation) : Option Heap :=
  match op with
  | alloc roots o => (heap.alloc? (Thunk.pure roots) o).map (·.2)
  | intern roots s => (heap.intern? (Thunk.pure roots) s).map (·.2)
  | mark early => some (heap.markAll early)
  | collect roots => heap.collect? roots
  | setField h _ _ | setMethod h _ _ | inheritMethods _ h | setUpvalue h _ =>
    heap.paying h (op.perform heap)

/-- A new heap after a sequence of operations. -/
def runAll (config : GcConfig) (journal : Journal) (ops : List Operation) : Heap :=
  ops.foldl perform { config, journal }

/-- A new heap after a sequence of operations, if no count falls below zero. -/
def runAll? (config : GcConfig) (journal : Journal) (ops : List Operation) : Option Heap :=
  ops.foldlM perform? { config, journal }

/-- **No count falls below zero in an operation.** -/
theorem perform?_eq (ho : heap.Owes 0) (op : Operation) : op.perform? heap = some (op.perform heap) := by
  cases op with
  | alloc roots o => rw [perform?, ho.alloc?_eq]; rfl
  | intern roots s => rw [perform?, ho.intern?_eq]; rfl
  | mark early => rfl
  | collect roots => exact ho.collect?_eq roots
  | _ => exact ho.paying_eq _ _

/-- An operation that changes an object in place, or is rejected. -/
theorem change_cases {result : Except Fault Heap}
    (hchange : ∀ heap', result = .ok heap' → heap.Changes heap') :
    result.toOption.getD heap = heap ∨ ∃ h o, result.toOption.getD heap = heap.replace h o := by
  cases result with
  | error e => exact .inl rfl
  | ok heap' =>
    obtain ⟨h, cell, o, -, heq, -⟩ := hchange heap' rfl
    exact .inr ⟨h, o, heq⟩

end Operation

/-- The invariant of all operations. -/
structure Booked (heap : Heap) : Prop extends heap.Billed where
  listed : heap.Listed

theorem Booked.replace (hb : heap.Booked) (h : Handle) (o : Object) : (heap.replace h o).Booked :=
  ⟨hb.toBilled.replace h o, hb.listed.replace h o⟩

theorem Booked.collect (hb : heap.Booked) (roots : List Handle) : (heap.collect roots).Booked := by
  refine ⟨⟨tidy_collect hb.tidy roots, hb.accounts.collect roots, fun hc => ?_⟩, hb.listed.collect roots⟩
  exact hb.bytes ((shrinks_collect hb.tidy roots).old hc)

theorem Booked.markAll (hb : heap.Booked) (early : List Handle) : (heap.markAll early).Booked :=
  ⟨⟨hb.tidy.markAll early, hb.accounts.congr rfl rfl, hb.bytes⟩, hb.listed.congr rfl rfl⟩

/-- **An operation keeps the books.** -/
theorem Booked.perform (hb : heap.Booked) (op : Operation) : (op.perform heap).Booked := by
  have hchange : ∀ {result : Except Fault Heap}, (∀ heap', result = .ok heap' → heap.Changes heap') →
      (result.toOption.getD heap).Booked := by
    intro result hresult
    rcases Operation.change_cases hresult with heq | ⟨h, o, heq⟩ <;> rw [heq]
    · exact hb
    · exact hb.replace h o
  cases op with
  | alloc roots o => exact ⟨hb.toBilled.alloc _ o, hb.listed.alloc _ o⟩
  | intern roots s => exact ⟨hb.toBilled.intern _ s, hb.listed.intern _ s⟩
  | mark early => exact hb.markAll early
  | collect roots => exact hb.collect roots
  | setField h key v => exact hchange fun _ => changes_setField
  | setMethod h key v => exact hchange fun _ => changes_setMethod
  | inheritMethods super sub => exact hchange fun _ => changes_inheritMethods
  | setUpvalue h u => exact hchange fun _ => changes_setUpvalue

theorem Booked.applyAll (ops : List Operation) (hb : heap.Booked) :
    (ops.foldl Operation.perform heap).Booked ∧
      ops.foldlM Operation.perform? heap = some (ops.foldl Operation.perform heap) := by
  induction ops generalizing heap with
  | nil => exact ⟨hb, rfl⟩
  | cons op ops ih =>
    rw [List.foldlM_cons, Operation.perform?_eq hb.accounts]
    exact ih (hb.perform op)

/-! ## The result -/

/-- What holds of the lists and counts of a heap. -/
structure Kept (heap : Heap) : Prop where
  /-- The thread from the newest object on visits every object once, and ends. -/
  objects : Threads heap.links heap.head heap.objects none ∧ heap.objects.Nodup ∧
    ∀ h, h ∈ heap.objects ↔ heap.contains h = true
  /-- No two objects are in one place. -/
  places : (heap.objects.map Handle.index).Nodup
  /-- The free list names every empty place once. -/
  free : heap.free.Nodup ∧ ∀ i, i ∈ heap.free ↔ ∃ generation, heap.entries[i]? = some ⟨generation, none⟩
  /-- The objects are counted. -/
  count : heap.free.length ≤ heap.entries.size ∧ heap.objectCount = heap.objects.length
  /-- Every object is charged for its size. -/
  sizes : ∀ h cell, heap.cell? h = some cell → cell.bytes = cell.object.storage
  /-- The charges add up to the bytes that are counted. -/
  bytes : heap.bytes = (heap.entries.toList.map Entry.bytes).sum

theorem Booked.kept (hb : heap.Booked) : heap.Kept := by
  have hplaces := hb.listed.places hb.tidy
  have hcount := hb.listed.objectCount hb.tidy
  have ht := hb.tidy.threaded
  refine ⟨⟨ht.threads, ht.nodup, ht.mem_iff⟩, ht.indices, ⟨hb.tidy.free_nodup, fun i => ⟨?_, ?_⟩⟩,
    ⟨by omega, ?_⟩, fun _ _ => hb.bytes, hb.accounts⟩
  · exact hb.tidy.free_vacant i
  · rintro ⟨generation, he⟩
    exact hb.listed i generation he
  · rw [objectCount]
    omega

/-- **The books of a heap are right after every sequence of operations**, and no count falls below
zero on the way: with exact subtraction the operations do not fail, and lead to the same heap. -/
theorem Operation.runAll_kept (config : GcConfig) (journal : Journal) (ops : List Operation) :
    (runAll config journal ops).Kept ∧
      runAll? config journal ops = some (runAll config journal ops) := by
  have hnew : ({ config, journal } : Heap).Booked :=
    ⟨billed_of_empty rfl rfl, listed_of_empty rfl⟩
  obtain ⟨hbooked, hexact⟩ := hnew.applyAll ops
  exact ⟨hbooked.kept, hexact⟩

end Heap

end LoxMachine
