import LoxMachine.Proofs.Heap.History
import LoxMachine.Proofs.Heap.Sound
import LoxMachine.Proofs.Twin.Objects

/-!
# Heaps that differ in their handles

* `Heap.Twin R heap heap'`: paired handles name twin objects, and strings with the same contents are
  paired. Neither heap needs to have all the objects of the other: what is garbage in one of them may
  have been collected in the other.
* `Twin.alloc` and `Twin.intern`: when both heaps make an object, or look for a string, the results are
  paired, and so is still what was paired and reachable, whichever of the two heaps collects.
* `Twin.replace`: twin objects take the place of paired ones.
* `Alike`: reading paired handles gives twin answers, or faults in both heaps. In particular, the texts
  of twin values are the same.
-/

namespace LoxMachine

open Relator (BiUnique)

/-- Both answer, with related answers, or both meet a fault. -/
inductive Alike {α β : Type} (A : α → β → Prop) : Except Fault α → Except Fault β → Prop
  | ok {a : α} {b : β} : A a b → Alike A (.ok a) (.ok b)
  | error (f g : Fault) : Alike A (.error f) (.error g)

namespace Alike

variable {α β γ δ : Type} {A B : α → β → Prop} {C : γ → δ → Prop} {x : Except Fault α}
  {y : Except Fault β}

theorem mono (h : Alike A x y) (hAB : ∀ a b, A a b → B a b) : Alike B x y := by
  cases h with
  | ok hab => exact .ok (hAB _ _ hab)
  | error f g => exact .error f g

theorem bind {f : α → Except Fault γ} {g : β → Except Fault δ} (h : Alike A x y)
    (hfg : ∀ a b, A a b → Alike C (f a) (g b)) : Alike C (x >>= f) (y >>= g) := by
  cases h with
  | ok hab => exact hfg _ _ hab
  | error f g => exact .error f g

theorem map {x y : Except Fault α} {f : α → γ} (h : Alike Eq x y) : Alike Eq (f <$> x) (f <$> y) := by
  cases h with
  | ok hab => exact .ok (congrArg f hab)
  | error f g => exact .error f g

/-- The answers, as such. -/
theorem answers (h : Alike A x y) : Alike (fun a b => A a b ∧ x = .ok a ∧ y = .ok b) x y := by
  cases h with
  | ok hab => exact .ok ⟨hab, rfl, rfl⟩
  | error f g => exact .error f g

theorem eq_of_ok {x y : Except Fault α} {a : α} (h : Alike Eq x y) (hx : x = .ok a) : y = .ok a := by
  subst hx
  cases h with
  | ok hab => rw [← hab]

theorem mapM {f : α → Except Fault γ} {g : β → Except Fault δ} {l : List α} {l' : List β}
    (hl : List.Forall₂ A l l') (hfg : ∀ a b, A a b → Alike C (f a) (g b)) :
    Alike (List.Forall₂ C) (l.mapM f) (l'.mapM g) := by
  induction hl with
  | nil => exact .ok .nil
  | cons hab _ ih =>
    rw [List.mapM_cons, List.mapM_cons]
    exact (hfg _ _ hab).bind fun c d hcd => ih.bind fun cs ds hcs => .ok (.cons hcd hcs)

end Alike

namespace Heap

variable {heap heap' new new' : Heap} {R S : Pairing} {x y : Handle} {o o' : Object} {s : String}
  {roots roots' : List Handle}

/-- Paired handles name twin objects, and strings with the same contents are paired. -/
structure Twin (R : Pairing) (heap heap' : Heap) : Prop where
  tidy : heap.Tidy
  tidy' : heap'.Tidy
  interned : heap.Interned
  interned' : heap'.Interned
  unique : BiUnique R
  objects : ∀ {x y : Handle}, R x y → ∃ cell cell', heap.cell? x = some cell ∧
    heap'.cell? y = some cell' ∧ cell.object.Twin R cell'.object
  strings : ∀ {x y : Handle} {s : String}, heap.hasContents s x = true →
    heap'.hasContents s y = true → R x y

theorem twin_of_empty (ha : heap.arena = ({} : Heap).arena) (hs : heap.strings = {})
    (ha' : heap'.arena = ({} : Heap).arena) (hs' : heap'.strings = {}) :
    heap.Twin (fun _ _ => False) heap' where
  tidy := tidy_of_empty ha
  tidy' := tidy_of_empty ha'
  interned := interned_of_empty ha hs
  interned' := interned_of_empty ha' hs'
  unique := ⟨fun _ _ _ h => h.elim, fun _ _ _ h => h.elim⟩
  objects h := h.elim
  strings hx := by
    rw [hasContents_eq_false fun cell hc => by simp [cell?_of_empty ha] at hc] at hx
    cases hx

namespace Twin

theorem contains (h : heap.Twin R heap') (hxy : R x y) : heap.contains x = true := by
  obtain ⟨cell, -, hc, -⟩ := h.objects hxy
  exact contains_of_cell? hc

theorem contains' (h : heap.Twin R heap') (hxy : R x y) : heap'.contains y = true := by
  obtain ⟨-, cell, -, hc, -⟩ := h.objects hxy
  exact contains_of_cell? hc

/-- Paired objects are strings with the same contents, or none of them is a string. -/
theorem hasContents_eq (h : heap.Twin R heap') (hxy : R x y) (s : String) :
    heap.hasContents s x = heap'.hasContents s y := by
  obtain ⟨⟨o, bytes⟩, ⟨o', bytes'⟩, hc, hc', ho⟩ := h.objects hxy
  dsimp only at ho
  unfold hasContents
  rw [hc, hc']
  cases ho <;> rfl

/-- Only the objects and the table of strings matter. -/
theorem congr (h : heap.Twin R heap') (ht : new.Tidy) (hs : new.strings = heap.strings)
    (hcells : ∀ x, new.cell? x = heap.cell? x) (ht' : new'.Tidy) (hs' : new'.strings = heap'.strings)
    (hcells' : ∀ x, new'.cell? x = heap'.cell? x) : new.Twin R new' := by
  refine ⟨ht, ht', h.interned.congr_cells hs hcells, h.interned'.congr_cells hs' hcells', h.unique,
    fun hxy => ?_, fun hx hy => ?_⟩
  · simp only [hcells, hcells']
    exact h.objects hxy
  · rw [hasContents_congr (hcells _)] at hx
    rw [hasContents_congr (hcells' _)] at hy
    exact h.strings hx hy

end Twin

/-- Nothing depends on the journals. -/
theorem Twin.recorded (h : heap.Twin R heap') (events events' : List Event) :
    (events.foldl Heap.record heap).Twin R (events'.foldl Heap.record heap') :=
  h.congr (h.tidy.recorded events) (strings_recorded heap events) (cell?_recorded heap events)
    (h.tidy'.recorded events') (strings_recorded heap' events') (cell?_recorded heap' events')

/-! ## Making objects -/

/-- The heap has come to have an object under a handle, by making it or because it was there. What can
be reached from the object or from `roots` is kept, and what is kept has not changed. -/
structure Gives (heap : Heap) (roots : List Handle) (o : Object) (x : Handle) (new : Heap) :
    Prop where
  tidy : new.Tidy
  interned : new.Interned
  here : ∃ bytes, new.cell? x = some ⟨o, bytes⟩
  kept : heap.Keeps (o.references ++ roots) new
  same : ∀ {a : Handle}, heap.contains a = true → new.contains a = true → new.cell? a = heap.cell? a
  old : ∀ {a : Handle}, a ≠ x → new.contains a = true → heap.contains a = true
  closed : ∀ {a r : Handle} {cell : Cell}, heap.cell? a = some cell → new.contains a = true →
    r ∈ cell.object.references → heap.contains r = true → new.contains r = true

theorem Allocates.gives (ha : heap.Allocates roots o x new) (hi : new.Interned)
    (hfresh : heap.contains x = false) : heap.Gives roots o x new := by
  have hne : ∀ {a : Handle}, heap.contains a = true → a ≠ x := by
    rintro a hc rfl
    rw [hfresh] at hc
    cases hc
  refine ⟨ha.tidy, hi, ⟨_, ha.new⟩, ha.keeps, fun hc hc' => ?_, fun hax hc => ?_,
    fun hcell hc hr hcr => ?_⟩
  · obtain ⟨cell, hcell⟩ := contains_iff.1 hc'
    rw [hcell, ha.old (hne hc) hcell]
  · obtain ⟨cell, hcell⟩ := contains_iff.1 hc
    exact contains_of_cell? (ha.old hax hcell)
  · obtain ⟨cell', hcell'⟩ := contains_iff.1 hc
    have hax := hne (contains_of_cell? hcell)
    have hsame := ha.old hax hcell'
    rw [hcell] at hsame
    cases hsame
    exact (ha.closed hax hcell' hr hcr).2

theorem alloc_gives (ht : heap.Tidy) (hi : heap.Interned) (roots : Thunk (List Handle))
    (hkind : o.kind ≠ .string) :
    heap.Gives roots.get o (heap.alloc roots o).1 (heap.alloc roots o).2 :=
  (alloc_allocates ht roots o).gives (hi.alloc ht roots hkind) (contains_alloc ht roots o)

/-- The handle that interning gives named a string with the contents, or nothing. -/
theorem Interned.intern_eq_iff (hi : heap.Interned) (ht : heap.Tidy) (roots : Thunk (List Handle))
    (s : String) (hx : heap.contains x = true) :
    x = (heap.intern roots s).1 ↔ heap.hasContents s x = true := by
  constructor
  · rintro rfl
    cases hf : heap.strings.findBy (Text.ofString s).hash (heap.hasContents s) with
    | some h =>
      have hintern : heap.intern roots s = (h, heap) := by simp [Heap.intern, hf]
      rw [hintern]
      exact List.find?_some hf
    | none =>
      have hintern : (heap.intern roots s).1 =
          (heap.alloc roots (.string (Text.ofString s))).1 := by simp [Heap.intern, hf]
      rw [hintern, contains_alloc ht] at hx
      cases hx
  · intro hs
    rw [hi.intern_eq roots hs]

theorem intern_gives (ht : heap.Tidy) (hi : heap.Interned) (roots : Thunk (List Handle))
    (s : String) : heap.Gives roots.get (.string (Text.ofString s)) (heap.intern roots s).1
      (heap.intern roots s).2 := by
  have hinterned := hi.intern ht roots s
  rcases intern_spec ht roots s with ⟨hs, heq⟩ | ⟨hnone, ha, -⟩
  · rw [heq] at hinterned ⊢
    refine ⟨ht, hinterned, ?_, .refl _ _, fun _ _ => rfl, fun _ hc => hc, fun _ _ _ hc => hc⟩
    obtain ⟨text, bytes, hc, rfl⟩ := (hasContents_iff _ _ _).1 hs
    have htext : text = Text.ofString text.contents := by
      obtain ⟨contents, hash, rfl⟩ := text
      rfl
    exact ⟨bytes, by rw [← htext]; exact hc⟩
  · refine ha.gives hinterned (Bool.eq_false_iff.2 fun hc => ?_)
    have hs := (hi.intern_eq_iff ht roots s hc).1 rfl
    rw [(hi.findBy_eq_none_iff s).1 hnone] at hs
    cases hs

/-- Two heaps have changed, and `S` is the pairing that they have come to. What was paired and
reachable is kept, and paired. -/
structure Carries (R S : Pairing) (roots roots' : List Handle) (heap heap' new new' : Heap) :
    Prop where
  twin : new.Twin S new'
  pairs : ∀ {a b : Handle}, R a b → heap.Reachable roots a → heap'.Reachable roots' b → S a b
  kept : heap.Keeps roots new
  kept' : heap'.Keeps roots' new'

/-- Nothing has changed. -/
theorem Twin.carries (h : heap.Twin R heap') (roots roots' : List Handle) :
    Carries R R roots roots' heap heap' heap heap' :=
  ⟨h, fun hab _ _ => hab, .refl _ _, .refl _ _⟩

/-- What was kept at first is kept later, if it is still asked for. -/
theorem Carries.trans {T : Pairing} {last last' : Heap} {more more' : List Handle}
    (h : Carries R S roots roots' heap heap' new new')
    (h' : Carries S T more more' new new' last last') (hr : ∀ r ∈ roots, r ∈ more)
    (hr' : ∀ r ∈ roots', r ∈ more') : Carries R T roots roots' heap heap' last last' := by
  refine ⟨h'.twin, fun hab ha hb => ?_, h.kept.trans (h'.kept.mono hr),
    h.kept'.trans (h'.kept'.mono hr')⟩
  exact h'.pairs (h.pairs hab ha hb) ((h.kept.reachable ha).mono hr)
    ((h.kept'.reachable hb).mono hr')

/-- **Both heaps come to have an object.** The pairs that are left in both of them stay. -/
theorem Twin.gives (h : heap.Twin R heap') (hg : heap.Gives roots o x new)
    (hg' : heap'.Gives roots' o' y new') (ho : o.Twin R o')
    (hx : ∀ {a b : Handle}, R a b → (a = x ↔ b = y)) :
    ∃ S, S x y ∧
      Carries R S (o.references ++ roots) (o'.references ++ roots') heap heap' new new' := by
  obtain ⟨bytes, hcell⟩ := hg.here
  obtain ⟨bytes', hcell'⟩ := hg'.here
  let S : Pairing := fun a b =>
    (R a b ∧ new.contains a = true ∧ new'.contains b = true) ∨ (a = x ∧ b = y)
  have hunique : BiUnique S := by
    constructor
    · rintro a b c (⟨hac, -⟩ | ⟨rfl, rfl⟩) (⟨hbc, -⟩ | ⟨rfl, hc⟩)
      · exact h.unique.1 hac hbc
      · exact (hx hac).2 hc
      · exact ((hx hbc).2 rfl).symm
      · rfl
    · rintro a b c (⟨hab, -⟩ | ⟨rfl, rfl⟩) (⟨hac, -⟩ | ⟨ha, rfl⟩)
      · exact h.unique.2 hab hac
      · exact (hx hab).1 ha
      · exact ((hx hac).1 rfl).symm
      · rfl
  have hkept : ∀ {a b : Handle}, R a b → heap.Reachable (o.references ++ roots) a →
      heap'.Reachable (o'.references ++ roots') b → S a b := fun hab ha hb =>
    Or.inl ⟨hab, hg.kept.contains ha, hg'.kept.contains hb⟩
  refine ⟨S, Or.inr ⟨rfl, rfl⟩, ⟨hg.tidy, hg'.tidy, hg.interned, hg'.interned, hunique, ?_, ?_⟩,
    hkept, hg.kept, hg'.kept⟩
  · rintro a b (⟨hab, ha, hb⟩ | ⟨rfl, rfl⟩)
    · -- what a pair refers to is left with it
      obtain ⟨cell, cell', hc, hc', htwin⟩ := h.objects hab
      refine ⟨cell, cell', (hg.same (h.contains hab) ha).trans hc,
        (hg'.same (h.contains' hab) hb).trans hc',
        htwin.mono fun r hr r' hr' hrr => Or.inl ⟨hrr, ?_, ?_⟩⟩
      · exact hg.closed hc ha hr (h.contains hrr)
      · exact hg'.closed hc' hb hr' (h.contains' hrr)
    · refine ⟨_, _, hcell, hcell', ho.mono fun r hr r' hr' hrr => hkept hrr ?_ ?_⟩
      · exact .root (List.mem_append_left _ hr) (h.contains hrr)
      · exact .root (List.mem_append_left _ hr') (h.contains' hrr)
  · intro a b s ha hb
    -- a string is the new object in both heaps, or in none of them
    have hstring : new.hasContents s x = new'.hasContents s y := by
      unfold hasContents
      rw [hcell, hcell']
      cases ho <;> rfl
    by_cases hax : a = x
    · subst hax
      exact Or.inr ⟨rfl, hg'.interned.unique b y s hb (hstring ▸ ha)⟩
    by_cases hby : b = y
    · subst hby
      exact absurd (hg.interned.unique a x s ha (hstring ▸ hb)) hax
    obtain ⟨text, size, hc, -⟩ := (hasContents_iff _ _ _).1 ha
    obtain ⟨text', size', hc', -⟩ := (hasContents_iff _ _ _).1 hb
    have hlive := contains_of_cell? hc
    have hlive' := contains_of_cell? hc'
    rw [hasContents_congr (hg.same (hg.old hax hlive) hlive)] at ha
    rw [hasContents_congr (hg'.same (hg'.old hby hlive') hlive')] at hb
    exact Or.inl ⟨h.strings ha hb, hlive, hlive'⟩

/-- **Both heaps make an object.** -/
theorem Twin.alloc (h : heap.Twin R heap') (roots roots' : Thunk (List Handle)) (ho : o.Twin R o')
    (hkind : o.kind ≠ .string) : ∃ S, S (heap.alloc roots o).1 (heap'.alloc roots' o').1 ∧
      Carries R S (o.references ++ roots.get) (o'.references ++ roots'.get) heap heap'
        (heap.alloc roots o).2 (heap'.alloc roots' o').2 := by
  refine h.gives (alloc_gives h.tidy h.interned roots hkind)
    (alloc_gives h.tidy' h.interned' roots' (ho.kind_eq ▸ hkind)) ho fun {a b} hab => ?_
  have ha : a ≠ (heap.alloc roots o).1 := by
    rintro rfl
    have hc := h.contains hab
    rw [contains_alloc h.tidy] at hc
    cases hc
  have hb : b ≠ (heap'.alloc roots' o').1 := by
    rintro rfl
    have hc := h.contains' hab
    rw [contains_alloc h.tidy'] at hc
    cases hc
  exact iff_of_false ha hb

/-- **Both heaps look for a string.** -/
theorem Twin.intern (h : heap.Twin R heap') (roots roots' : Thunk (List Handle)) (s : String) :
    ∃ S, S (heap.intern roots s).1 (heap'.intern roots' s).1 ∧
      Carries R S roots.get roots'.get heap heap' (heap.intern roots s).2
        (heap'.intern roots' s).2 := by
  refine h.gives (intern_gives h.tidy h.interned roots s)
    (intern_gives h.tidy' h.interned' roots' s) (.string _) fun {a b} hab => ?_
  rw [h.interned.intern_eq_iff h.tidy roots s (h.contains hab),
    h.interned'.intern_eq_iff h.tidy' roots' s (h.contains' hab), h.hasContents_eq hab]

/-! ## Changing objects -/

theorem hasContents_replace {cell : Cell} (hc : heap.cell? x = some cell)
    (hkind : cell.object.kind ≠ .string) (hkind' : o.kind ≠ .string) (s : String) (a : Handle) :
    (heap.replace x o).hasContents s a = heap.hasContents s a := by
  by_cases ha : a = x
  · subst ha
    rw [hasContents_eq_false, hasContents_eq_false]
    · intro cell' hc'
      rw [hc] at hc'
      cases hc'
      exact hkind
    · intro cell' hc'
      rw [cell?_replace hc, if_pos rfl] at hc'
      cases hc'
      exact hkind'
  · exact hasContents_congr (by rw [cell?_replace hc, if_neg ha])

/-- **Twin objects take the place of paired ones.** -/
theorem Twin.replace (h : heap.Twin R heap') (hxy : R x y) (ho : o.Twin R o')
    (hkind : heap.kind? x ≠ some .string) (hkind' : o.kind ≠ .string) :
    (heap.replace x o).Twin R (heap'.replace y o') := by
  obtain ⟨cell, cell', hc, hc', htwin⟩ := h.objects hxy
  have hk : cell.object.kind ≠ .string := by
    rw [kind?_of_cell? hc] at hkind
    exact fun hs => hkind (congrArg some hs)
  have hk' : cell'.object.kind ≠ .string := htwin.kind_eq ▸ hk
  have ho' : o'.kind ≠ .string := ho.kind_eq ▸ hkind'
  refine ⟨h.tidy.replace hc o, h.tidy'.replace hc' o', h.interned.replace hc hk hkind',
    h.interned'.replace hc' hk' ho', h.unique, fun {a b} hab => ?_, fun ha hb => ?_⟩
  · have hiff : a = x ↔ b = y := Relator.rel_eq h.unique hab hxy
    simp only [cell?_replace hc, cell?_replace hc', hiff]
    split
    · exact ⟨_, _, rfl, rfl, ho⟩
    · exact h.objects hab
  · rw [hasContents_replace hc hk hkind'] at ha
    rw [hasContents_replace hc' hk' ho'] at hb
    exact h.strings ha hb

/-! ## Reading -/

namespace Twin

variable {v w : Value}

theorem object (h : heap.Twin R heap') (hxy : R x y) :
    Alike (Object.Twin R) (heap.object x) (heap'.object y) := by
  obtain ⟨cell, cell', hc, hc', htwin⟩ := h.objects hxy
  rw [object_of_cell? hc, object_of_cell? hc']
  exact .ok htwin

theorem isString (h : heap.Twin R heap') (hxy : R x y) (hx : heap.IsString x) : heap'.IsString y := by
  obtain ⟨⟨o, bytes⟩, ⟨o', bytes'⟩, hc, hc', ho⟩ := h.objects hxy
  obtain ⟨text, size, hcell⟩ := hx
  rw [hc] at hcell
  cases hcell
  cases ho
  exact ⟨text, bytes', hc'⟩

theorem string (h : heap.Twin R heap') (hxy : R x y) :
    Alike Eq (heap.string x) (heap'.string y) := by
  refine (h.object hxy).bind fun o o' ho => ?_
  cases ho with
  | string text => exact .ok rfl
  | _ => exact .error _ _

theorem function (h : heap.Twin R heap') (hxy : R x y) :
    Alike (Function.Twin R) (heap.function x) (heap'.function y) := by
  refine (h.object hxy).bind fun o o' ho => ?_
  cases ho with
  | function hf => exact .ok hf
  | _ => exact .error _ _

theorem native (h : heap.Twin R heap') (hxy : R x y) :
    Alike (fun n n' => n = n' ∧ n.Uniform) (heap.native x) (heap'.native y) := by
  refine (h.object hxy).bind fun o o' ho => ?_
  cases ho with
  | native hn => exact .ok ⟨rfl, hn⟩
  | _ => exact .error _ _

theorem closure (h : heap.Twin R heap') (hxy : R x y) :
    Alike (fun c c' => R c.function c'.function ∧ Paired R c.upvalues c'.upvalues)
      (heap.closure x) (heap'.closure y) := by
  refine (h.object hxy).bind fun o o' ho => ?_
  cases ho with
  | closure hf hu => exact .ok ⟨hf, hu⟩
  | _ => exact .error _ _

theorem upvalue (h : heap.Twin R heap') (hxy : R x y) :
    Alike (Upvalue.Twin R) (heap.upvalue x) (heap'.upvalue y) := by
  refine (h.object hxy).bind fun o o' ho => ?_
  cases ho with
  | upvalue hu => exact .ok hu
  | _ => exact .error _ _

theorem cls (h : heap.Twin R heap') (hxy : R x y) :
    Alike (fun c c' => R c.name c'.name ∧ c.methods.Twin R c'.methods) (heap.cls x)
      (heap'.cls y) := by
  refine (h.object hxy).bind fun o o' ho => ?_
  cases ho with
  | cls hn hm => exact .ok ⟨hn, hm⟩
  | _ => exact .error _ _

theorem inst (h : heap.Twin R heap') (hxy : R x y) :
    Alike (fun i i' => R i.cls i'.cls ∧ i.fields.Twin R i'.fields) (heap.inst x)
      (heap'.inst y) := by
  refine (h.object hxy).bind fun o o' ho => ?_
  cases ho with
  | inst hc hf => exact .ok ⟨hc, hf⟩
  | _ => exact .error _ _

theorem key (h : heap.Twin R heap') (hxy : R x y) :
    Alike (fun k k' => ∃ hash, k = ⟨x, hash⟩ ∧ k' = ⟨y, hash⟩) (heap.key x) (heap'.key y) := by
  refine (h.string hxy).bind fun text text' htext => ?_
  rw [htext]
  exact .ok ⟨_, rfl, rfl⟩

theorem contents (h : heap.Twin R heap') (hxy : R x y) :
    Alike Eq (heap.contents x) (heap'.contents y) := by
  refine (h.string hxy).bind fun text text' htext => ?_
  rw [htext]
  exact .ok rfl

theorem kindOf (h : heap.Twin R heap') (hv : v.Twin R w) :
    Alike Eq (heap.kindOf v) (heap'.kindOf w) := by
  cases hv with
  | obj hxy =>
    refine (h.object hxy).bind fun o o' ho => ?_
    rw [ho.kind_eq]
    exact .ok rfl
  | _ => exact .ok rfl

theorem asKind (h : heap.Twin R heap') (hv : v.Twin R w) (kind : ObjectKind) :
    Alike (Option.Rel fun x y => R x y ∧ v = .obj x ∧ w = .obj y) (heap.asKind kind v)
      (heap'.asKind kind w) := by
  cases hv with
  | obj hxy =>
    refine (h.object hxy).bind fun o o' ho => ?_
    rw [ho.kind_eq]
    split
    · exact .ok (.some ⟨hxy, rfl, rfl⟩)
    · exact .ok .none
  | _ => exact .ok .none

theorem displayFunction (h : heap.Twin R heap') (hxy : R x y) :
    Alike Eq (heap.displayFunction x) (heap'.displayFunction y) := by
  refine (h.function hxy).bind fun f f' hf => ?_
  have hname := hf.name
  generalize f.name = name, f'.name = name' at hname
  cases hname with
  | none => exact .ok rfl
  | some hn =>
    refine (h.contents hn).bind fun s s' hs => ?_
    rw [hs]
    exact .ok rfl

/-- **Twin values are displayed alike.** -/
theorem display (h : heap.Twin R heap') (hv : v.Twin R w) :
    Alike Eq (heap.display v) (heap'.display w) := by
  cases hv with
  | obj hxy =>
    refine (h.object hxy).bind fun o o' ho => ?_
    cases ho with
    | string text => exact .ok rfl
    | function hf => exact h.displayFunction hxy
    | native hn => exact .ok rfl
    | closure hf hu => exact h.displayFunction hf
    | upvalue hu => exact .ok rfl
    | cls hn hm => exact h.contents hn
    | inst hc hf =>
      refine (h.cls hc).bind fun c c' hcls => (h.contents hcls.1).bind fun s s' hs => ?_
      rw [hs]
      exact .ok rfl
    | bound hr hm => exact (h.closure hm).bind fun c c' hc => h.displayFunction hc.1
  | _ => exact .ok rfl

end Twin

end Heap

end LoxMachine
