import LoxMachine.Proofs.Machine.Fused
import LoxMachine.Proofs.Machine.Retained

/-!
# The methods that classes have

* `Methods` tells which closure a class has for a name.
* `Heap.HasMethods heap c methods`: the class `c` has just the closures that `methods` tells.
* `Tabulates.insert` and `Tabulates.addAll`: what becomes of a table of methods when a method is written, and when all
  methods of a superclass are copied.
* `HasMethods.finds`: the method that is found for a name is the one that `methods` tells.
-/

namespace LoxMachine

/-- Which closure a class has for a name. -/
abbrev Methods := String → Option Handle

variable {heap heap' : Heap} {methods : Methods} {c f x z : Handle} {name : String} {t : Table} {C : Class}
  {P : Handle → ObjectKind → Prop} {R : ObjectKind → Prop}

namespace Heap

/-- A table of methods has just the closures that `methods` tells. -/
structure Tabulates (heap : Heap) (t : Table) (methods : Methods) : Prop where
  sound : ∀ x v, t.toMap x = some v →
    ∃ name f, heap.hasContents name x = true ∧ methods name = some f ∧ v = .obj f
  complete : ∀ name f, methods name = some f →
    ∃ x, heap.hasContents name x = true ∧ t.toMap x = some (.obj f) ∧ heap.kind? f = some .closure

/-- The class has just the closures that `methods` tells. -/
def HasMethods (heap : Heap) (c : Handle) (methods : Methods) : Prop :=
  ∃ C, heap.cls c = .ok C ∧ heap.Tabulates C.methods methods

namespace Tabulates

theorem empty (heap : Heap) : heap.Tabulates {} fun _ => none where
  sound x v hv := by simp [Table.toMap, Table.entries] at hv
  complete _ _ := nofun

/-- There is a method for a name if `methods` tells one. -/
theorem toMap_eq (h : heap.Tabulates t methods) (hi : heap.Interned) (hx : heap.hasContents name x = true) :
    t.toMap x = (methods name).map .obj := by
  cases ha : methods name with
  | some f =>
    obtain ⟨y, hy, hmap, -⟩ := h.complete name f ha
    obtain rfl := hi.unique x y name hx hy
    exact hmap
  | none =>
    cases hmap : t.toMap x with
    | none => rfl
    | some v =>
      obtain ⟨name', f, hx', ha', rfl⟩ := h.sound x v hmap
      obtain rfl := hasContents_inj hx hx'
      cases ha.symm.trans ha'

/-- **A method is written**, in the place of one with the same name. -/
theorem insert (h : heap.Tabulates t methods) (hi : heap.Interned) (ht : heap.Keyed t)
    (hz : heap.hasContents name z = true) (hf : heap.kind? f = some .closure) :
    heap.Tabulates (t.insert ⟨z, heap.hashOf z⟩ (.obj f)) (Function.update methods name (some f)) := by
  have hmap : (t.insert ⟨z, heap.hashOf z⟩ (.obj f)).toMap = Function.update t.toMap z (some (.obj f)) :=
    (ht.sound.set rfl (.obj f)).2.2
  refine ⟨fun x v hv => ?_, fun name' f' ha => ?_⟩
  · rw [hmap, Function.update_apply] at hv
    split at hv
    · rename_i hx
      cases hv
      exact ⟨name, f, hx ▸ hz, Function.update_self .., rfl⟩
    · rename_i hx
      obtain ⟨name', f', hx', ha, rfl⟩ := h.sound x v hv
      refine ⟨name', f', hx', ?_, rfl⟩
      rw [Function.update_of_ne, ha]
      rintro rfl
      exact hx (hi.unique x z _ hx' hz)
  · rw [Function.update_apply] at ha
    split at ha
    · rename_i hname
      cases ha
      exact ⟨z, hname ▸ hz, by rw [hmap, Function.update_self], hf⟩
    · rename_i hname
      obtain ⟨x, hx, hx', hf'⟩ := h.complete name' f' ha
      refine ⟨x, hx, ?_, hf'⟩
      rw [hmap, Function.update_of_ne, hx']
      rintro rfl
      exact hname (hasContents_inj hx hz)

/-- **All methods of a superclass are copied** to a class that has none. -/
theorem addAll {t' : Table} (h : heap.Tabulates t methods) (h' : heap.Tabulates t' fun _ => none) (ht : heap.Keyed t)
    (ht' : heap.Keyed t') : heap.Tabulates (t.addAll t') methods := by
  have hmap : (t.addAll t').toMap = t.toMap := by
    rw [(ht.sound.addAll ht'.sound).2]
    funext x
    cases hx : t'.toMap x with
    | none => exact Option.or_none
    | some v =>
      obtain ⟨name, f, -, ha, -⟩ := h'.sound x v hx
      cases ha
  exact ⟨fun x v hv => h.sound x v (hmap ▸ hv), fun name f ha => by rw [hmap]; exact h.complete name f ha⟩

/-- The strings and the closures of a table are still there. -/
theorem steady (h : heap.Tabulates t methods)
    (hcells : ∀ r ∈ t.handles, ∀ cell, heap.cell? r = some cell → R cell.object.kind → heap'.cell? r = some cell)
    (hs : R .string) (hc : R .closure) : heap'.Tabulates t methods := by
  have hmem : ∀ {x v}, t.toMap x = some v → x ∈ t.handles ∧ ∀ f, v = .obj f → f ∈ t.handles := by
    intro x v hv
    obtain ⟨⟨key, w⟩, hfind, rfl⟩ := Option.map_eq_some_iff.1 hv
    obtain rfl : key.handle = x := by simpa using List.find?_some hfind
    have hin := List.mem_of_find?_eq_some hfind
    refine ⟨List.mem_flatMap.2 ⟨_, hin, List.mem_cons_self⟩, ?_⟩
    rintro f rfl
    exact List.mem_flatMap.2 ⟨_, hin, List.mem_cons_of_mem _ (by simp [Value.handle?])⟩
  have hstring : ∀ {x name v}, t.toMap x = some v → heap.hasContents name x = true →
      heap'.hasContents name x = true := by
    intro x name v hv hx
    obtain ⟨text, bytes, hcell, rfl⟩ := (hasContents_iff _ _ _).1 hx
    exact (hasContents_iff _ _ _).2 ⟨text, bytes, hcells x (hmem hv).1 _ hcell hs, rfl⟩
  refine ⟨fun x v hv => ?_, fun name f ha => ?_⟩
  · obtain ⟨name, f, hx, ha, rfl⟩ := h.sound x v hv
    exact ⟨name, f, hstring hv hx, ha, rfl⟩
  · obtain ⟨x, hx, hv, hkind⟩ := h.complete name f ha
    obtain ⟨o, bytes, hcell, ho⟩ := cell?_of_kind? hkind
    refine ⟨x, hstring hv hx, hv, ?_⟩
    rw [kind?_of_cell? (hcells f ((hmem hv).2 f rfl) _ hcell (ho ▸ hc)), ho]

end Tabulates

theorem HasMethods.kind? (h : heap.HasMethods c methods) : heap.kind? c = some .cls := by
  obtain ⟨C, hC, -⟩ := h
  obtain ⟨bytes, hcell⟩ := cls_eq_ok_iff.1 hC
  exact kind?_of_cell? hcell

/-- **A class that is left alone** has the methods that it had. -/
theorem HasMethods.retained (h : heap.HasMethods c methods) (hretains : heap.Retains P R heap')
    (hc : heap'.kind? c = some .cls) (hP : P c .cls) (hs : R .string) (hclosure : R .closure) :
    heap'.HasMethods c methods := by
  obtain ⟨C, hC, htable⟩ := h
  obtain ⟨C', bytes, hcell⟩ := cls_of_kind? hc
  have hold : heap.cell? c = some ⟨.cls C', bytes⟩ := hretains.cells hP hcell
  obtain rfl := Except.ok.inj ((cls_of_cell? hold).symm.trans hC)
  refine ⟨C', cls_of_cell? hcell, htable.steady (fun r hr cell hrc hkind => ?_) hs hclosure⟩
  exact hretains.references hP hcell (List.mem_cons_of_mem _ hr) hrc hkind

/-- A class gets another table of methods, and all else stays. -/
theorem HasMethods.rewrite (htable : heap.Tabulates C.methods methods) (hkind : heap.kind? c = some .cls)
    (hC : heap'.cls c = .ok C) (hothers : ∀ x ≠ c, heap'.cell? x = heap.cell? x) : heap'.HasMethods c methods := by
  refine ⟨C, hC, htable.steady (R := fun k => k = .string ∨ k = .closure) (fun r _ cell hr hk => ?_) (.inl rfl)
    (.inr rfl)⟩
  refine (hothers r ?_).trans hr
  rintro rfl
  rw [kind?_of_cell? hr, Option.some.injEq] at hkind
  rw [hkind] at hk
  rcases hk with hk | hk <;> cases hk

end Heap

namespace Machine

/-- What is found for every name, in a class. -/
def Finds (m : Machine) (c : Handle) (methods : Methods) : Prop :=
  ∀ x name, m.heap.contents x = .ok name → Run.findMethod c x m =
    match methods name with
    | some f => .ok f m
    | none => .error (.error (.undefinedProperty name)) m

end Machine

/-- **The method that is found** is the one that the class has for the name. -/
theorem Heap.HasMethods.finds {m : Machine} (h : m.heap.HasMethods c methods) (hh : m.heap.Healthy) :
    m.Finds c methods := by
  intro x name hname
  obtain ⟨C, hC, htable⟩ := h
  obtain ⟨bytes, hcell⟩ := Heap.cls_eq_ok_iff.1 hC
  have hx := Heap.contents_eq_ok_iff.1 hname
  obtain ⟨text, bytes', hxcell, rfl⟩ := (Heap.hasContents_iff _ _ _).1 hx
  have hhash : m.heap.hashOf x = text.hash := by simp [Heap.hashOf, hxcell]
  have hget : C.methods.get? ⟨x, text.hash⟩ = (methods text.contents).map .obj := by
    rw [show C.methods.get? ⟨x, text.hash⟩ = C.methods.toMap x from (hh.fit hcell).2.sound.get? hhash.symm,
      htable.toMap_eq hh.interned hx]
  rw [Run.findMethod_of hcell hxcell, hget]
  cases ha : methods text.contents with
  | none => rfl
  | some f =>
    obtain ⟨-, -, -, hkind⟩ := htable.complete _ f ha
    obtain ⟨o, bytes, hf, ho⟩ := Heap.cell?_of_kind? hkind
    exact Run.requireKind_of .closure hf ho _

end LoxMachine
