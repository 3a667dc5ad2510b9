import LoxMachine.Proofs.Heap.Accounts
import LoxMachine.Proofs.Heap.Interning
import LoxMachine.Proofs.Heap.Sound
import LoxMachine.Proofs.Table.Handles

/-!
# Healthy heaps

What holds of all objects of a heap that is used by code of any kind, compiled or not.

* `Heap.Fit` is what is expected of an object: the objects it refers to are of the right kinds, and
  the keys of its table are strings.
* `Heap.Healthy`: the bookkeeping of the heap is right, and every object is fit and refers only to
  objects that there are.
* `Healthy.alloc`, `Healthy.intern` and `Healthy.replace`: the operations keep a heap healthy.
* `Healthy.display`: every value can be displayed.
-/

namespace LoxMachine

/-- The result of a native function is no object, or one of its arguments. -/
def Native.Honest (n : Native) : Prop :=
  ∀ reading arguments, (n.apply reading arguments).handle? = none ∨
    n.apply reading arguments ∈ arguments

namespace Heap

variable {heap heap' : Heap} {h r x : Handle} {o : Object} {cell : Cell} {live : Handle → Prop}
  {t : Table} {v : Value}

/-- The handle names an object. -/
abbrev Live (heap : Heap) (h : Handle) : Prop := heap.contains h = true

theorem live_of_kind? {k : ObjectKind} (hk : heap.kind? h = some k) : heap.Live h := by
  obtain ⟨o, bytes, hc, -⟩ := cell?_of_kind? hk
  exact contains_of_cell? hc

/-! ## Tables -/

/-- The keys of a table are strings with their hashes, and its bookkeeping is right. -/
structure Keyed (heap : Heap) (t : Table) : Prop where
  sound : t.Sound heap.hashOf
  strings : ∀ h v, Table.Maps t.slots h v → heap.IsString h

theorem keyed_empty : heap.Keyed {} := by
  refine ⟨Table.sound_empty, ?_⟩
  rintro h v ⟨i, key, hi, -⟩
  simp at hi

theorem hashOf_congr (hc : heap'.cell? h = heap.cell? h) : heap'.hashOf h = heap.hashOf h := by
  rw [hashOf, hashOf, hc]

theorem Keyed.steady (hk : heap.Keyed t) (hs : heap.Steady live heap')
    (hlive : t.Within live) : heap'.Keyed t := by
  have hkey : ∀ h v, Table.Maps t.slots h v → live h := by
    rintro h v ⟨i, key, hi, rfl⟩
    exact (hlive _ (Array.mem_of_getElem? hi)).1
  refine ⟨hk.sound.rehash fun h v hm => ?_, fun h v hm => hs.isString (hkey h v hm) (hk.strings h v hm)⟩
  obtain ⟨text, bytes, hc⟩ := hk.strings h v hm
  exact hashOf_congr ((hs.fixed h _ (hkey h v hm) hc rfl).trans hc.symm)

/-- The key of a string. -/
theorem key_eq (hs : heap.IsString h) : heap.key h = .ok ⟨h, heap.hashOf h⟩ := by
  obtain ⟨text, bytes, hc⟩ := hs
  rw [Heap.key, string_of_cell? hc]
  simp only [hashOf, hc]
  rfl

theorem Keyed.set (hk : heap.Keyed t) (hs : heap.IsString h) (v : Value) :
    heap.Keyed (t.set ⟨h, heap.hashOf h⟩ v).2 := by
  have hkey : (⟨h, heap.hashOf h⟩ : Key).hash = heap.hashOf h := rfl
  obtain ⟨hsound, -, hmap⟩ := hk.sound.set hkey v
  refine ⟨hsound, fun x w hm => ?_⟩
  rw [← Table.toMap_eq_some_iff hsound.indexed, hmap, Function.update_apply] at hm
  split at hm
  · rename_i hx
    rw [hx]
    exact hs
  · exact hk.strings x w ((Table.toMap_eq_some_iff hk.sound.indexed).1 hm)

theorem Keyed.delete (hk : heap.Keyed t) (h : Handle) :
    heap.Keyed (t.delete ⟨h, heap.hashOf h⟩).2 := by
  have hkey : (⟨h, heap.hashOf h⟩ : Key).hash = heap.hashOf h := rfl
  obtain ⟨hsound, -, hmap⟩ := hk.sound.delete hkey
  refine ⟨hsound, fun x w hm => ?_⟩
  rw [← Table.toMap_eq_some_iff hsound.indexed, hmap, Function.update_apply] at hm
  split at hm
  · cases hm
  · exact hk.strings x w ((Table.toMap_eq_some_iff hk.sound.indexed).1 hm)

theorem Keyed.addAll {source : Table} (hs : heap.Keyed source) (ht : heap.Keyed t) :
    heap.Keyed (source.addAll t) := by
  obtain ⟨hsound, hmap⟩ := hs.sound.addAll ht.sound
  refine ⟨hsound, fun x w hm => ?_⟩
  rw [← Table.toMap_eq_some_iff hsound.indexed, hmap] at hm
  rcases Option.or_eq_some_iff.1 hm with hm | ⟨-, hm⟩
  · exact hs.strings x w ((Table.toMap_eq_some_iff hs.sound.indexed).1 hm)
  · exact ht.strings x w ((Table.toMap_eq_some_iff ht.sound.indexed).1 hm)

/-! ## Objects -/

/-- What is expected of an object. -/
def Fit (heap : Heap) : Object → Prop
  | .string _ | .upvalue _ => True
  | .function f => ∀ n, f.name = some n → heap.IsString n
  | .native n => n.Honest
  | .closure c => heap.kind? c.function = some .function ∧
      ∀ u ∈ c.upvalues, heap.kind? u = some .upvalue
  | .cls c => heap.IsString c.name ∧ heap.Keyed c.methods
  | .inst i => heap.kind? i.cls = some .cls ∧ heap.Keyed i.fields
  | .bound b => heap.kind? b.method = some .closure

/-- An object stays fit, if what it refers to keeps its kind, and strings stay what they are. -/
theorem Fit.steady (hf : heap.Fit o) (hs : heap.Steady live heap')
    (hrefs : ∀ r ∈ o.references, live r) : heap'.Fit o := by
  cases o with
  | string text => trivial
  | function f =>
    intro n hn
    exact hs.isString (hrefs n (List.mem_append_left _ (by simp [hn]))) (hf n hn)
  | native n => exact hf
  | closure c =>
    refine ⟨(hs.kind _ (hrefs _ List.mem_cons_self)).trans hf.1, fun u hu => ?_⟩
    have hlu : live u := hrefs u (List.mem_cons_of_mem _ (Array.mem_toList_iff.2 hu))
    exact (hs.kind u hlu).trans (hf.2 u hu)
  | upvalue u => trivial
  | cls c =>
    refine ⟨hs.isString (hrefs _ List.mem_cons_self) hf.1, hf.2.steady hs ?_⟩
    exact Table.within_iff.2 fun r hr => hrefs r (List.mem_cons_of_mem _ hr)
  | inst i =>
    refine ⟨(hs.kind _ (hrefs _ List.mem_cons_self)).trans hf.1, hf.2.steady hs ?_⟩
    exact Table.within_iff.2 fun r hr => hrefs r (List.mem_cons_of_mem _ hr)
  | bound b => exact (hs.kind _ (hrefs _ (List.mem_append_right _ List.mem_cons_self))).trans hf

/-! ## The invariant -/

/-- The bookkeeping of the heap is right, and its objects are fit and refer to each other only. -/
structure Healthy (heap : Heap) : Prop where
  tidy : heap.Tidy
  interned : heap.Interned
  accounts : heap.Owes 0
  closed : ∀ {h r : Handle} {cell : Cell}, heap.cell? h = some cell → r ∈ cell.object.references →
    heap.Live r
  fit : ∀ {h : Handle} {cell : Cell}, heap.cell? h = some cell → heap.Fit cell.object
  fair : heap.Fair

theorem healthy_of_empty (ha : heap.arena = ({} : Heap).arena) (hs : heap.strings = {})
    (hb : heap.bytes = 0) (hj : heap.journal.events = #[]) : heap.Healthy where
  tidy := tidy_of_empty ha
  interned := interned_of_empty ha hs
  accounts := owes_of_empty (congrArg Prod.fst ha) hb
  closed hc := by simp [cell?_of_empty ha] at hc
  fit hc := by simp [cell?_of_empty ha] at hc
  fair _ _ _ hmem := by simp [hj] at hmem

/-- An event other than the end of a collection is reported. -/
theorem Healthy.record {e : Event} (hh : heap.Healthy)
    (he : ∀ before after next, e ≠ .collectionEnds before after next) : (heap.record e).Healthy := by
  have hcells : ∀ x, (heap.record e).cell? x = heap.cell? x := cell?_congr (entries_record heap e)
  have hsteady : heap.Steady (fun _ => True) (heap.record e) := steady_of_cells fun x _ => hcells x
  refine ⟨hh.tidy.record e, hh.interned.record e, hh.accounts.record e, fun hc hr => ?_,
    fun hc => ?_, hh.fair.record fun before after next heq => absurd heq (he before after next)⟩
  · rw [hcells] at hc
    rw [Live, contains, hcells]
    exact hh.closed hc hr
  · rw [hcells] at hc
    exact (hh.fit hc).steady hsteady fun _ _ => trivial

/-! ## Allocation -/

/-- A fit object is made. -/
theorem Healthy.allocates {roots : List Handle} (hh : heap.Healthy)
    (ha : heap.Allocates roots o h heap') (hrefs : ∀ r ∈ o.references, heap.Live r)
    (hfit : heap.Fit o) (hi : heap'.Interned) (ho : heap'.Owes 0) (hf : heap'.Fair) :
    heap'.Healthy := by
  have hsteady : heap.Steady (fun x => x ≠ h ∧ heap'.Live x) heap' :=
    steady_of_cells fun x hx => ha.cell?_eq hx.1 hx.2
  have hkept : ∀ r ∈ o.references, r ≠ h ∧ heap'.Live r := by
    intro r hr
    obtain ⟨hne, hc⟩ := ha.kept (.root (List.mem_append_left _ hr) (hrefs r hr))
    refine ⟨hne, ?_⟩
    rw [Live, contains, hc]
    exact hrefs r hr
  have hclosed : ∀ {x r : Handle} {cell : Cell}, heap'.cell? x = some cell →
      r ∈ cell.object.references → r ≠ h ∧ heap'.Live r := by
    intro x r cell hc hr
    by_cases hx : x = h
    · rw [hx, ha.new] at hc
      cases hc
      exact hkept r hr
    · exact ha.closed hx hc hr (hh.closed (ha.old hx hc) hr)
  refine ⟨ha.tidy, hi, ho, fun hc hr => (hclosed hc hr).2, fun {x cell} hc => ?_, hf⟩
  refine Fit.steady ?_ hsteady fun r hr => hclosed hc hr
  by_cases hx : x = h
  · rw [hx, ha.new] at hc
    cases hc
    exact hfit
  · exact hh.fit (ha.old hx hc)

/-- **Making a fit object keeps a heap healthy.** -/
theorem Healthy.alloc (hh : heap.Healthy) (roots : Thunk (List Handle)) (hkind : o.kind ≠ .string)
    (hrefs : ∀ r ∈ o.references, heap.Live r) (hfit : heap.Fit o) :
    (heap.alloc roots o).2.Healthy :=
  hh.allocates (alloc_allocates hh.tidy roots o) hrefs hfit (hh.interned.alloc hh.tidy roots hkind)
    (hh.accounts.alloc hh.tidy roots o) (hh.fair.alloc roots o)

/-- **Interning keeps a heap healthy.** -/
theorem Healthy.intern (hh : heap.Healthy) (roots : Thunk (List Handle)) (s : String) :
    (heap.intern roots s).2.Healthy := by
  have hi := hh.interned.intern hh.tidy roots s
  rcases intern_spec hh.tidy roots s with ⟨-, heq⟩ | ⟨-, ha, -⟩
  · rw [heq]
    exact hh
  · exact hh.allocates ha (fun r hr => absurd hr List.not_mem_nil) trivial hi
      (hh.accounts.intern hh.tidy roots s) (hh.fair.intern roots s)

/-! ## Change -/

theorem live_replace (hcell : heap.cell? h = some cell) :
    (heap.replace h o).Live x ↔ heap.Live x := by
  rw [Live, Live, contains, contains, cell?_replace hcell]
  by_cases hx : x = h
  · simp [hx, hcell]
  · simp [hx]

/-- **Changing an object into a fit one of its kind keeps a heap healthy.** -/
theorem Healthy.replace (hh : heap.Healthy) (hcell : heap.cell? h = some cell)
    (hkind : o.kind = cell.object.kind) (hmutable : o.kind.isFixed = false)
    (hrefs : ∀ r ∈ o.references, heap.Live r) (hfit : heap.Fit o) : (heap.replace h o).Healthy := by
  have hcells := cell?_replace hcell o
  have hsteady := steady_replace (fun _ => True) hcell hkind hmutable
  have hstring : o.kind ≠ .string := by
    intro hs
    rw [hs] at hmutable
    cases hmutable
  refine ⟨hh.tidy.replace hcell o, hh.interned.replace hcell (hkind ▸ hstring) hstring,
    hh.accounts.replace hcell o, fun {x r cell'} hc hr => (live_replace hcell).2 ?_,
    fun {x cell'} hc => ?_, hh.fair.replace h o⟩
  · rw [hcells] at hc
    split at hc
    · cases hc
      exact hrefs r hr
    · exact hh.closed hc hr
  · refine Fit.steady ?_ hsteady fun _ _ => trivial
    rw [hcells] at hc
    split at hc
    · cases hc
      exact hfit
    · exact hh.fit hc

/-! ## Reading -/

theorem function_of_kind? (hk : heap.kind? h = some .function) :
    ∃ f bytes, heap.cell? h = some ⟨.function f, bytes⟩ := by
  obtain ⟨o, bytes, hc, hkind⟩ := cell?_of_kind? hk
  cases o <;> simp [Object.kind] at hkind
  exact ⟨_, bytes, hc⟩

theorem inst_of_kind? (hk : heap.kind? h = some .inst) :
    ∃ i bytes, heap.cell? h = some ⟨.inst i, bytes⟩ := by
  obtain ⟨o, bytes, hc, hkind⟩ := cell?_of_kind? hk
  cases o <;> simp [Object.kind] at hkind
  exact ⟨_, bytes, hc⟩

theorem isString_of_kind (hk : heap.kind? h = some .string) : heap.IsString h := by
  obtain ⟨o, bytes, hc, hkind⟩ := cell?_of_kind? hk
  cases o <;> simp [Object.kind] at hkind
  exact ⟨_, bytes, hc⟩

theorem Healthy.displayFunction (hh : heap.Healthy) (hk : heap.kind? h = some .function) :
    ∃ s, heap.displayFunction h = .ok s := by
  obtain ⟨f, bytes, hc⟩ := function_of_kind? hk
  unfold Heap.displayFunction
  rw [function_eq_ok_iff.2 ⟨bytes, hc⟩]
  simp only [bind, Except.bind]
  cases hn : f.name with
  | none => exact ⟨_, rfl⟩
  | some name =>
    obtain ⟨s, hs⟩ := contents_of_isString (hh.fit hc name hn)
    simp only [hs]
    exact ⟨_, rfl⟩

/-- **Every value can be displayed.** -/
theorem Healthy.display (hh : heap.Healthy) (hv : v.In heap.Live) :
    ∃ s, heap.display v = .ok s := by
  cases v with
  | nil => exact ⟨_, rfl⟩
  | bool b => exact ⟨_, rfl⟩
  | number n => exact ⟨_, rfl⟩
  | obj h =>
    obtain ⟨⟨o, bytes⟩, hcell⟩ := contains_iff.1 (hv h rfl)
    have hfit := hh.fit hcell
    simp only [Heap.display, object_of_cell? hcell, bind, Except.bind]
    cases o with
    | string text => exact ⟨_, rfl⟩
    | function f => exact hh.displayFunction (kind?_of_cell? hcell)
    | native n => exact ⟨_, rfl⟩
    | closure c => exact hh.displayFunction hfit.1
    | upvalue u => exact ⟨_, rfl⟩
    | cls c => exact contents_of_isString hfit.1
    | inst i =>
      obtain ⟨c, bytes', hcls⟩ := cls_of_kind? hfit.1
      obtain ⟨s, hs⟩ := contents_of_isString (hh.fit hcls).1
      simp only [cls_of_cell? hcls, hs]
      exact ⟨_, rfl⟩
    | bound b =>
      obtain ⟨c, bytes', hclosure⟩ := closure_of_kind? hfit
      simp only [closure_of_cell? hclosure]
      exact hh.displayFunction (hh.fit hclosure).1

end Heap

end LoxMachine
