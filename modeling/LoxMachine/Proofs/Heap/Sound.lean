import LoxMachine.Proofs.Code.Functions

/-!
# Objects that refer to what they should

The objects that a program can come to are some of those in the heap; the others are garbage, or
have been made by a compilation that failed. So what is known of objects is said of a set of live
handles, which is closed under references.

* `Heap.Proper` is what holds of an object: the objects it refers to are of the kinds the machine
  expects, the function of a closure is compiled, and a captured variable of a closure that is still
  on the stack is among the `opened` ones.
* `Heap.Sound live opened heap`: the live handles name proper objects, and refer to live handles.
* `Sound.shrink`, `Sound.add`, `Sound.alloc`, `Sound.intern` and `Sound.replace` are what happens to
  that when the heap changes.
-/

namespace LoxMachine

/-- Whether objects of a kind never change. -/
def ObjectKind.isFixed : ObjectKind → Bool
  | .inst | .cls | .upvalue => false
  | _ => true

namespace Heap

variable {heap heap' : Heap} {live live' : Handle → Prop} {opened opened' : List Handle}
  {h x r : Handle} {o : Object} {cell : Cell}

/-! ## Kinds -/

/-- The kind of the object that a handle names. -/
def kind? (heap : Heap) (h : Handle) : Option ObjectKind := (heap.cell? h).map (·.object.kind)

theorem kind?_of_cell? (hc : heap.cell? h = some cell) : heap.kind? h = some cell.object.kind := by
  rw [kind?, hc]
  rfl

theorem kind?_congr (hc : heap'.cell? h = heap.cell? h) : heap'.kind? h = heap.kind? h := by
  rw [kind?, kind?, hc]

/-- The handle names a captured variable that is still on the stack. -/
def OnStack (heap : Heap) (u : Handle) (slot : Nat) : Prop :=
  ∃ bytes, heap.cell? u = some ⟨.upvalue (.stacked slot), bytes⟩

theorem OnStack.congr {slot : Nat} (hu : heap.OnStack x slot) (hc : heap'.cell? x = heap.cell? x) :
    heap'.OnStack x slot := by
  obtain ⟨bytes, hcell⟩ := hu
  exact ⟨bytes, hc.trans hcell⟩

/-! ## Objects -/

/-- What the machine expects of an object. -/
def Proper (heap : Heap) (opened : List Handle) (h : Handle) : Object → Prop
  | .string _ | .upvalue _ => True
  | .function _ => heap.Compiled h
  | .native n => ∀ reading arguments, (n.apply reading arguments).handle? = none
  | .closure c => heap.Compiled c.function ∧
      heap.constantKind (.obj c.function) = .function c.upvalues.size ∧
      ∀ u ∈ c.upvalues, heap.kind? u = some .upvalue ∧ ∀ slot, heap.OnStack u slot → u ∈ opened
  | .cls c => heap.IsString c.name
  | .inst i => heap.kind? i.cls = some .cls
  | .bound b => heap.kind? b.method = some .closure

/-- The live handles name proper objects that refer to live handles. -/
structure Sound (live : Handle → Prop) (opened : List Handle) (heap : Heap) : Prop where
  tidy : heap.Tidy
  object : ∀ h, live h → ∃ cell, heap.cell? h = some cell ∧
    (∀ r ∈ cell.object.references, live r) ∧ heap.Proper opened h cell.object

theorem Sound.contains (hs : heap.Sound live opened) (hl : live h) : heap.contains h = true := by
  obtain ⟨cell, hcell, -⟩ := hs.object h hl
  exact contains_of_cell? hcell

theorem Sound.references (hs : heap.Sound live opened) (hl : live h)
    (hc : heap.cell? h = some cell) (hr : r ∈ cell.object.references) : live r := by
  obtain ⟨cell', hcell', hrefs, -⟩ := hs.object h hl
  rw [hc] at hcell'
  cases hcell'
  exact hrefs r hr

theorem Sound.proper (hs : heap.Sound live opened) (hl : live h)
    (hc : heap.cell? h = some cell) : heap.Proper opened h cell.object := by
  obtain ⟨cell', hcell', -, hp⟩ := hs.object h hl
  rw [hc] at hcell'
  cases hcell'
  exact hp

/-- What can be reached from live handles is live. -/
theorem Sound.reachable (hs : heap.Sound live opened) {roots : List Handle}
    (hroots : ∀ r ∈ roots, live r) (hx : heap.Reachable roots x) : live x := by
  induction hx with
  | root hm _ => exact hroots _ hm
  | reference _ hcell hm _ ih => exact hs.references ih hcell hm

/-- Which captured variables are opened matters only for those on the stack that a live closure
holds. -/
theorem Sound.open_congr (hs : heap.Sound live opened)
    (hopen : ∀ x c bytes u slot, live x → heap.cell? x = some ⟨.closure c, bytes⟩ →
      u ∈ c.upvalues → heap.OnStack u slot → u ∈ opened → u ∈ opened') :
    heap.Sound live opened' := by
  refine ⟨hs.tidy, fun h hl => ?_⟩
  obtain ⟨cell, hcell, hrefs, hp⟩ := hs.object h hl
  refine ⟨cell, hcell, hrefs, ?_⟩
  obtain ⟨o, bytes⟩ := cell
  cases o with
  | closure c =>
    obtain ⟨hcompiled, hcount, hup⟩ := hp
    refine ⟨hcompiled, hcount, fun u hu => ⟨(hup u hu).1, fun slot hslot => ?_⟩⟩
    exact hopen h c bytes u slot hl hcell hu hslot ((hup u hu).2 slot hslot)
  | _ => exact hp

/-! ## Heaps in which the same objects are alive -/

/-- The objects of a set of handles are as they were, except for the contents of those that can
change. -/
structure Steady (live : Handle → Prop) (heap heap' : Heap) : Prop where
  fixed : ∀ x cell, live x → heap.cell? x = some cell → cell.object.kind.isFixed = true →
    heap'.cell? x = some cell
  kind : ∀ x, live x → heap'.kind? x = heap.kind? x

theorem steady_of_cells (hcells : ∀ x, live x → heap'.cell? x = heap.cell? x) :
    heap.Steady live heap' :=
  ⟨fun x _ hx hc _ => (hcells x hx).trans hc, fun x hx => kind?_congr (hcells x hx)⟩

theorem Steady.refl (live : Handle → Prop) (heap : Heap) : heap.Steady live heap :=
  steady_of_cells fun _ _ => rfl

theorem Steady.trans {heap'' : Heap} (h : heap.Steady live heap') (h' : heap'.Steady live heap'') :
    heap.Steady live heap'' :=
  ⟨fun x cell hx hc hf => h'.fixed x cell hx (h.fixed x cell hx hc hf) hf,
    fun x hx => (h'.kind x hx).trans (h.kind x hx)⟩

theorem Steady.isString (hs : heap.Steady live heap') (hl : live x) (hx : heap.IsString x) :
    heap'.IsString x := by
  obtain ⟨text, bytes, hcell⟩ := hx
  exact ⟨text, bytes, hs.fixed x _ hl hcell rfl⟩

/-- The constants of a compiled function stay. -/
theorem Steady.constants (hs : heap.Steady live heap')
    (hclosed : ∀ x cell r, live x → heap.cell? x = some cell → r ∈ cell.object.references → live r)
    {f : Function} {bytes : Nat} (hcell : heap.cell? h = some ⟨.function f, bytes⟩) (hl : live h)
    (hconstants : ∀ x, .obj x ∈ f.chunk.constants → ¬heap.IsString x → heap.Compiled x)
    (hx : .obj x ∈ f.chunk.constants) : heap'.cell? x = heap.cell? x := by
  have hlx : live x := hclosed h _ x hl hcell (mem_references_of_constant hx)
  by_cases hstring : heap.IsString x
  · obtain ⟨text, bytes', hc⟩ := hstring
    rw [hc]
    exact hs.fixed x _ hlx hc rfl
  · obtain ⟨f', bytes', hc, -⟩ := constantKind_of_compiled (hconstants x hx hstring)
    rw [hc]
    exact hs.fixed x _ hlx hc rfl

/-- A compiled function stays one, if what it refers to is in the set. -/
theorem Steady.compiled (hs : heap.Steady live heap')
    (hclosed : ∀ x cell r, live x → heap.cell? x = some cell → r ∈ cell.object.references → live r)
    (hx : heap.Compiled x) (hl : live x) : heap'.Compiled x := by
  induction hx with
  | @intro h f bytes entry hcell hname hconstants harity hlaid ih =>
    have hsame : ∀ x, .obj x ∈ f.chunk.constants → heap'.cell? x = heap.cell? x := fun x hx =>
      hs.constants hclosed hcell hl hconstants hx
    refine .intro (hs.fixed h _ hl hcell rfl) (fun n hn => ?_) (fun x hx hstring => ?_) harity ?_
    · exact hs.isString (hclosed h _ n hl hcell (List.mem_append_left _ (by simp [hn]))) (hname n hn)
    · have hstring' : ¬heap.IsString x := fun hx' => hstring (hx'.congr (hsame x hx))
      exact ih x hx hstring' (hclosed h _ x hl hcell (mem_references_of_constant hx))
    · rw [pool_congr hsame]
      exact hlaid

theorem Steady.constantKind {n : Nat} (hs : heap.Steady live heap') (hl : live x)
    (hx : heap.constantKind (.obj x) = .function n) :
    heap'.constantKind (.obj x) = .function n := by
  obtain ⟨f, bytes, hc, hn⟩ := constantKind_eq_function_iff.1 hx
  exact constantKind_eq_function_iff.2 ⟨f, bytes, hs.fixed x _ hl hc rfl, hn⟩

/-- A proper object stays one. -/
theorem Steady.proper (hs : heap.Steady live heap')
    (hclosed : ∀ x cell r, live x → heap.cell? x = some cell → r ∈ cell.object.references → live r)
    (hstack : ∀ u slot, live u → heap'.OnStack u slot → heap.OnStack u slot)
    (hrefs : ∀ r ∈ o.references, live r) (hself : o.kind = .function → live h)
    (hp : heap.Proper opened h o) : heap'.Proper opened h o := by
  cases o with
  | string text => trivial
  | function f => exact hs.compiled hclosed hp (hself rfl)
  | native n => exact hp
  | closure c =>
    obtain ⟨hcompiled, hcount, hup⟩ := hp
    have hfunction : live c.function := hrefs _ List.mem_cons_self
    refine ⟨hs.compiled hclosed hcompiled hfunction, hs.constantKind hfunction hcount,
      fun u hu => ?_⟩
    have hlu : live u := hrefs u (List.mem_cons_of_mem _ (Array.mem_toList_iff.2 hu))
    exact ⟨(hs.kind u hlu).trans (hup u hu).1, fun slot hslot => (hup u hu).2 slot
      (hstack u slot hlu hslot)⟩
  | upvalue u => trivial
  | cls c => exact hs.isString (hrefs _ List.mem_cons_self) hp
  | inst i => exact (hs.kind _ (hrefs _ List.mem_cons_self)).trans hp
  | bound b => exact (hs.kind _ (hrefs _ (List.mem_append_right _ List.mem_cons_self))).trans hp

/-- Objects can be forgotten, if the others do not refer to them. -/
theorem Sound.shrink (hs : heap.Sound live opened) (ht : heap'.Tidy)
    (hsub : ∀ x, live' x → live x)
    (hclosed : ∀ x cell r, live' x → heap.cell? x = some cell → r ∈ cell.object.references →
      live' r)
    (hcells : ∀ x, live' x → heap'.cell? x = heap.cell? x) : heap'.Sound live' opened := by
  refine ⟨ht, fun h hl => ?_⟩
  obtain ⟨cell, hcell, -, hp⟩ := hs.object h (hsub h hl)
  have hrefs : ∀ r ∈ cell.object.references, live' r := fun r hr => hclosed h cell r hl hcell hr
  refine ⟨cell, (hcells h hl).trans hcell, hrefs, ?_⟩
  exact (steady_of_cells hcells).proper hclosed
    (fun u slot hu hslot => hslot.congr (hcells u hu).symm) hrefs (fun _ => hl) hp

/-- A proper object can become live. -/
theorem Sound.add (hs : heap.Sound live opened) (hcell : heap.cell? h = some cell)
    (hrefs : ∀ r ∈ cell.object.references, live r) (hp : heap.Proper opened h cell.object) :
    heap.Sound (fun x => x = h ∨ live x) opened := by
  refine ⟨hs.tidy, fun x hx => ?_⟩
  rcases hx with rfl | hx
  · exact ⟨cell, hcell, fun r hr => Or.inr (hrefs r hr), hp⟩
  · obtain ⟨cell', hcell', hrefs', hp'⟩ := hs.object x hx
    exact ⟨cell', hcell', fun r hr => Or.inr (hrefs' r hr), hp'⟩

/-! ## Compiled functions -/

/-- What a compiled function refers to are strings and compiled functions. -/
theorem Compiled.references (hx : heap.Compiled x) (hcell : heap.cell? x = some cell)
    (hr : r ∈ cell.object.references) : heap.IsString r ∨ heap.Compiled r := by
  cases hx with
  | @intro _ f bytes _ hcell' hname hconstants =>
    rw [hcell'] at hcell
    cases hcell
    rcases List.mem_append.1 hr with hr | hr
    · exact Or.inl (hname r (by simpa using hr))
    · obtain ⟨v, hv, hvr⟩ := List.mem_filterMap.1 hr
      rw [Value.handle?_eq_some_iff] at hvr
      rw [hvr] at hv
      exact or_iff_not_imp_left.2 (hconstants r (Array.mem_toList_iff.1 hv))

theorem Compiled.reachable (hx : heap.Compiled x) {y : Handle} (hy : heap.Reachable [x] y) :
    heap.IsString y ∨ heap.Compiled y := by
  induction hy with
  | root hm _ =>
    rw [List.mem_singleton.1 hm]
    exact Or.inr hx
  | reference _ hcell hm _ ih =>
    rcases ih with ⟨text, bytes, hstring⟩ | hcompiled
    · rw [hstring] at hcell
      cases hcell
      exact absurd hm List.not_mem_nil
    · exact hcompiled.references hcell hm

/-- **A compiled function can become live**, with everything it refers to. -/
theorem Sound.compiled (hs : heap.Sound live opened) (hh : heap.Compiled h) :
    heap.Sound (fun x => heap.Reachable [h] x ∨ live x) opened := by
  refine ⟨hs.tidy, fun x hx => ?_⟩
  rcases hx with hx | hx
  · rcases hh.reachable hx with ⟨text, bytes, hcell⟩ | hcompiled
    · exact ⟨_, hcell, fun r hr => absurd hr List.not_mem_nil, trivial⟩
    · obtain ⟨f, bytes, hcell, -⟩ := constantKind_of_compiled hcompiled
      refine ⟨_, hcell, fun r hr => Or.inl (.reference hx hcell hr ?_), hcompiled⟩
      rcases hcompiled.references hcell hr with hstring | hr
      · exact hstring.contains
      · exact hr.contains
  · obtain ⟨cell, hcell, hrefs, hp⟩ := hs.object x hx
    exact ⟨cell, hcell, fun r hr => Or.inr (hrefs r hr), hp⟩

/-! ## Allocation -/

/-- The handle `h` has become live, and what can be reached from `roots` is still live. -/
structure Joins (live : Handle → Prop) (opened : List Handle) (heap : Heap) (roots : List Handle)
    (h : Handle) (live' : Handle → Prop) (heap' : Heap) : Prop where
  sound : heap'.Sound live' opened
  new : live' h
  kept : ∀ x, live x → heap.Reachable roots x → live' x ∧ heap'.cell? x = heap.cell? x
  old : ∀ x, live' x → x ≠ h → live x ∧ heap'.cell? x = heap.cell? x

theorem Allocates.cell?_eq {roots : List Handle} (ha : heap.Allocates roots o h heap')
    (hne : x ≠ h) (hc : heap'.contains x = true) : heap'.cell? x = heap.cell? x := by
  obtain ⟨cell, hcell⟩ := contains_iff.1 hc
  rw [hcell, ha.old hne hcell]

/-- What is left of the live handles after an allocation refers only to itself. -/
theorem Sound.allocates_closed {roots : List Handle} (hs : heap.Sound live opened)
    (ha : heap.Allocates roots o h heap') (hx : live x ∧ x ≠ h ∧ heap'.contains x = true)
    (hcell : heap.cell? x = some cell) (hr : r ∈ cell.object.references) :
    live r ∧ r ≠ h ∧ heap'.contains r = true := by
  have hcell' := (ha.cell?_eq hx.2.1 hx.2.2).trans hcell
  have hlr := hs.references hx.1 hcell hr
  exact ⟨hlr, ha.closed hx.2.1 hcell' hr (hs.contains hlr)⟩

theorem Sound.allocates {roots : List Handle} (hs : heap.Sound live opened)
    (ha : heap.Allocates roots o h heap') :
    heap'.Sound (fun x => live x ∧ x ≠ h ∧ heap'.contains x = true) opened :=
  hs.shrink ha.tidy (fun _ hx => hx.1) (fun _ _ _ hx hcell hr => hs.allocates_closed ha hx hcell hr)
    fun _ hx => ha.cell?_eq hx.2.1 hx.2.2

/-- A new object that is proper becomes live. -/
theorem Sound.joins {roots : List Handle} (hs : heap.Sound live opened)
    (ha : heap.Allocates roots o h heap') (hkind : o.kind ≠ .function)
    (hrefs : ∀ r ∈ o.references, live r) (hp : heap.Proper opened h o) :
    ∃ live', heap.Joins live opened (o.references ++ roots) h live' heap' := by
  have hleft := hs.allocates ha
  have hkept : ∀ x, live x → heap.Reachable (o.references ++ roots) x →
      (live x ∧ x ≠ h ∧ heap'.contains x = true) ∧ heap'.cell? x = heap.cell? x := by
    intro x hl hx
    obtain ⟨hne, hc⟩ := ha.kept hx
    refine ⟨⟨hl, hne, ?_⟩, hc⟩
    rw [Heap.contains, hc]
    exact hx.contains
  have hrefs' : ∀ r ∈ o.references, live r ∧ r ≠ h ∧ heap'.contains r = true := fun r hr =>
    (hkept r (hrefs r hr) (.root (List.mem_append_left _ hr) (hs.contains (hrefs r hr)))).1
  have hproper : heap'.Proper opened h o :=
    (steady_of_cells fun x hx => ha.cell?_eq hx.2.1 hx.2.2).proper
      (fun x cell r hx hcell hr => hs.allocates_closed ha hx hcell hr)
      (fun u slot hu hslot => hslot.congr (ha.cell?_eq hu.2.1 hu.2.2).symm) hrefs'
      (fun hf => absurd hf hkind) hp
  refine ⟨_, hleft.add ha.new hrefs' hproper, Or.inl rfl, fun x hl hx => ?_, fun x hx hne => ?_⟩
  · exact ⟨Or.inr (hkept x hl hx).1, (hkept x hl hx).2⟩
  · have hx' := hx.resolve_left hne
    exact ⟨hx'.1, ha.cell?_eq hne hx'.2.2⟩

/-- **Interning makes a string live.** -/
theorem Sound.intern (hs : heap.Sound live opened) (roots : Thunk (List Handle)) (s : String) :
    ∃ live', heap.Joins live opened roots.get (heap.intern roots s).1 live'
      (heap.intern roots s).2 := by
  rcases intern_spec hs.tidy roots s with ⟨hfound, heq⟩ | ⟨-, ha, -⟩
  · obtain ⟨text, bytes, hcell, -⟩ := (hasContents_iff heap s _).1 hfound
    rw [heq]
    refine ⟨_, hs.add hcell (fun r hr => absurd hr List.not_mem_nil) trivial, Or.inl rfl,
      fun x hl _ => ⟨Or.inr hl, rfl⟩, fun x hx hne => ⟨hx.resolve_left hne, rfl⟩⟩
  · exact hs.joins ha (by simp [Object.kind]) (fun r hr => absurd hr List.not_mem_nil) trivial

/-! ## Change -/

theorem steady_replace (live : Handle → Prop) (hcell : heap.cell? h = some cell)
    (hkind : o.kind = cell.object.kind) (hmutable : o.kind.isFixed = false) :
    heap.Steady live (heap.replace h o) := by
  have hcells := cell?_replace hcell o
  refine ⟨fun x cell' _ hx hfixed => ?_, fun x _ => ?_⟩
  · rw [hcells, if_neg, hx]
    rintro rfl
    rw [hcell] at hx
    cases hx
    rw [← hkind, hmutable] at hfixed
    cases hfixed
  · by_cases hxh : x = h
    · rw [hxh, kind?_of_cell? hcell, kind?, hcells, if_pos rfl, ← hkind]
      rfl
    · rw [kind?, kind?, hcells, if_neg hxh]

/-- **An object that can change is replaced by a proper one of its kind.** A captured variable does
not come back to the stack. -/
theorem Sound.replace (hs : heap.Sound live opened) (hl : live h) (hcell : heap.cell? h = some cell)
    (hkind : o.kind = cell.object.kind) (hmutable : o.kind.isFixed = false)
    (hrefs : ∀ r ∈ o.references, live r) (hp : heap.Proper opened h o)
    (hstack : ∀ slot, o ≠ .upvalue (.stacked slot)) : (heap.replace h o).Sound live opened := by
  have hcells := cell?_replace hcell o
  have hsteady := steady_replace live hcell hkind hmutable
  have hclosed : ∀ x cell r, live x → heap.cell? x = some cell → r ∈ cell.object.references →
      live r := fun x cell r hx hc hr => hs.references hx hc hr
  have hsteadyStack : ∀ u slot, live u → (heap.replace h o).OnStack u slot →
      heap.OnStack u slot := by
    rintro u slot _ ⟨bytes, hu⟩
    rw [hcells] at hu
    split at hu
    · cases hu
      exact absurd rfl (hstack slot)
    · exact ⟨bytes, hu⟩
  refine ⟨hs.tidy.replace hcell o, fun x hx => ?_⟩
  by_cases hxh : x = h
  · refine ⟨⟨o, o.storage⟩, by rw [hcells, if_pos hxh], hrefs, ?_⟩
    rw [hxh]
    exact hsteady.proper hclosed hsteadyStack hrefs (fun _ => hl) hp
  · obtain ⟨cell', hcell', hrefs', hp'⟩ := hs.object x hx
    refine ⟨cell', by rw [hcells, if_neg hxh, hcell'], hrefs', ?_⟩
    exact hsteady.proper hclosed hsteadyStack hrefs' (fun _ => hx) hp'

/-! ## Reading -/

section Reading

variable {bytes : Nat}

theorem object_of_cell? (hc : heap.cell? h = some cell) : heap.object h = .ok cell.object := by
  simp [Heap.object, hc]

theorem string_of_cell? {text : Text} (hc : heap.cell? h = some ⟨.string text, bytes⟩) :
    heap.string h = .ok text := by
  rw [Heap.string, object_of_cell? hc]
  rfl

theorem closure_of_cell? {c : Closure} (hc : heap.cell? h = some ⟨.closure c, bytes⟩) :
    heap.closure h = .ok c := by
  rw [Heap.closure, object_of_cell? hc]
  rfl

theorem closure_eq_ok_iff {c : Closure} :
    heap.closure h = .ok c ↔ ∃ bytes, heap.cell? h = some ⟨.closure c, bytes⟩ := by
  unfold Heap.closure Heap.object
  cases hc : heap.cell? h with
  | none => simp [bind, Except.bind]
  | some cell =>
    obtain ⟨o, bytes⟩ := cell
    cases o <;> simp [bind, Except.bind, pure, Except.pure, throw, throwThe, MonadExceptOf.throw]

theorem native_of_cell? {n : Native} (hc : heap.cell? h = some ⟨.native n, bytes⟩) :
    heap.native h = .ok n := by
  rw [Heap.native, object_of_cell? hc]
  rfl

theorem upvalue_of_cell? {u : Upvalue} (hc : heap.cell? h = some ⟨.upvalue u, bytes⟩) :
    heap.upvalue h = .ok u := by
  rw [Heap.upvalue, object_of_cell? hc]
  rfl

theorem cls_of_cell? {c : Class} (hc : heap.cell? h = some ⟨.cls c, bytes⟩) :
    heap.cls h = .ok c := by
  rw [Heap.cls, object_of_cell? hc]
  rfl

theorem inst_of_cell? {i : Instance} (hc : heap.cell? h = some ⟨.inst i, bytes⟩) :
    heap.inst h = .ok i := by
  rw [Heap.inst, object_of_cell? hc]
  rfl

end Reading

/-- An object of a kind. -/
theorem cell?_of_kind? {k : ObjectKind} (hk : heap.kind? h = some k) :
    ∃ o bytes, heap.cell? h = some ⟨o, bytes⟩ ∧ o.kind = k := by
  unfold kind? at hk
  cases hc : heap.cell? h with
  | none => simp [hc] at hk
  | some cell => exact ⟨cell.object, cell.bytes, rfl, by simpa [hc] using hk⟩

theorem closure_of_kind? (hk : heap.kind? h = some .closure) :
    ∃ c bytes, heap.cell? h = some ⟨.closure c, bytes⟩ := by
  obtain ⟨o, bytes, hc, hkind⟩ := cell?_of_kind? hk
  cases o <;> simp [Object.kind] at hkind
  exact ⟨_, bytes, hc⟩

theorem cls_of_kind? (hk : heap.kind? h = some .cls) :
    ∃ c bytes, heap.cell? h = some ⟨.cls c, bytes⟩ := by
  obtain ⟨o, bytes, hc, hkind⟩ := cell?_of_kind? hk
  cases o <;> simp [Object.kind] at hkind
  exact ⟨_, bytes, hc⟩

theorem upvalue_of_kind? (hk : heap.kind? h = some .upvalue) :
    ∃ u bytes, heap.cell? h = some ⟨.upvalue u, bytes⟩ := by
  obtain ⟨o, bytes, hc, hkind⟩ := cell?_of_kind? hk
  cases o <;> simp [Object.kind] at hkind
  exact ⟨_, bytes, hc⟩

theorem contents_of_isString (hx : heap.IsString x) : ∃ s, heap.contents x = .ok s := by
  obtain ⟨text, bytes, hc⟩ := hx
  exact ⟨text.contents, by rw [Heap.contents, string_of_cell? hc]; rfl⟩

theorem displayFunction_of_compiled (hx : heap.Compiled x) :
    ∃ s, heap.displayFunction x = .ok s := by
  cases hx with
  | @intro _ f bytes _ hcell hname =>
    unfold displayFunction
    rw [function_eq_ok_iff.2 ⟨bytes, hcell⟩]
    simp only [bind, Except.bind]
    cases hn : f.name with
    | none => exact ⟨_, rfl⟩
    | some name =>
      obtain ⟨s, hs⟩ := contents_of_isString (hname name hn)
      simp only [hs]
      exact ⟨_, rfl⟩

/-- **Every value that is live can be displayed.** -/
theorem Sound.display (hs : heap.Sound live opened) {v : Value} (hv : ∀ h, v = .obj h → live h) :
    ∃ s, heap.display v = .ok s := by
  cases v with
  | nil => exact ⟨_, rfl⟩
  | bool b => exact ⟨_, rfl⟩
  | number n => exact ⟨_, rfl⟩
  | obj h =>
    obtain ⟨cell, hcell, hrefs, hp⟩ := hs.object h (hv h rfl)
    obtain ⟨o, bytes⟩ := cell
    simp only [Heap.display, object_of_cell? hcell, bind, Except.bind]
    cases o with
    | string text => exact ⟨_, rfl⟩
    | function f => exact displayFunction_of_compiled hp
    | native n => exact ⟨_, rfl⟩
    | closure c => exact displayFunction_of_compiled hp.1
    | upvalue u => exact ⟨_, rfl⟩
    | cls c => exact contents_of_isString hp
    | inst i =>
      obtain ⟨c, bytes', hcls⟩ := cls_of_kind? hp
      have hname : heap.IsString c.name :=
        hs.proper (hrefs _ List.mem_cons_self) hcls
      obtain ⟨s, hs⟩ := contents_of_isString hname
      simp only [cls_of_cell? hcls, hs]
      exact ⟨_, rfl⟩
    | bound b =>
      obtain ⟨c, bytes', hclosure⟩ := closure_of_kind? hp
      have hp' := hs.proper (hrefs _ (List.mem_append_right _ List.mem_cons_self)) hclosure
      simp only [closure_of_cell? hclosure]
      exact displayFunction_of_compiled hp'.1

end Heap

end LoxMachine
