import LoxMachine.Proofs.Receivers.Mentions

/-!
# The variables at the places of receivers and superclasses

* `holder fs place` is the name of the variable at a place.
* `Setting.Widens σ τ`: at `τ` there are more variables in the innermost function than at `σ`.
* `Layer.Fits around σ r`: the layers are those around a point. The first slot of a function is not that of a variable
  with a name of its own, and superclasses are in variables that are called `super`.
* `Fits.cls` and `Fits.function`: further inside.
* `Fits.not_reserved`: a variable that a program can name is at none of these places.
-/

namespace LoxMachine

open Symbolic

variable {σ τ : Setting} {r : Receivers} {around : List Layer} {name : String} {place : Nat × Nat}
  {fs : List FunctionScope}

/-! ## Names at places -/

/-- The name of the variable at a place. -/
def holder : List FunctionScope → Nat × Nat → Option String
  | [], _ => none
  | f :: outer, place =>
    if place.1 = outer.length then f.locals.reverse[place.2]?.map Local.name else holder outer place

theorem getElem?_of_findLocal {locals : List Local} {slot : Nat} {v : Local}
    (h : Draft.findLocal name locals = some (slot, v)) : locals.reverse[slot]? = some v ∧ v.name = name := by
  induction locals with
  | nil => cases h
  | cons l locals ih =>
    unfold Draft.findLocal at h
    split at h
    · rename_i hname
      cases h
      exact ⟨by simp, hname⟩
    · obtain ⟨hv, hname⟩ := ih h
      refine ⟨?_, hname⟩
      rw [List.reverse_cons, List.getElem?_append_left (List.getElem?_eq_some_iff.1 hv).1, hv]

/-- A variable that is found is at its place. -/
theorem holder_of_lookup {v : Local} (h : lookup name fs = some (place, v)) : holder fs place = some name := by
  induction fs with
  | nil => cases h
  | cons f outer ih =>
    unfold lookup at h
    split at h
    · rename_i slot w hfind
      cases h
      obtain ⟨hw, rfl⟩ := getElem?_of_findLocal hfind
      simp [holder, hw]
    · have hlt := lookup_lt h
      rw [holder, if_neg (by omega), ih h]

/-- A variable that is seen from some function is found. -/
theorem Setting.lookup_of_place (h : (σ.variable name).place σ.outer.length = some place) :
    ∃ v, lookup name σ.functions = some (place, v) := by
  unfold Setting.variable at h
  split at h
  · cases h
  · rename_i other v hfound
    have hlt : other.1 < σ.outer.length + 1 := lookup_lt hfound
    split at h
    · obtain rfl := Option.some.inj h
      exact ⟨v, hfound⟩
    · obtain rfl : (σ.outer.length, other.2) = place := Option.some.inj h
      have hlevel : other.1 = σ.outer.length := by omega
      exact ⟨v, by rw [hfound, ← hlevel]⟩

/-- The variable in the first slot of a function has no name of its own. -/
def FunctionScope.Headed (f : FunctionScope) : Prop :=
  ∃ v, f.locals.reverse[0]? = some v ∧ (v.name = "" ∨ v.name = "this")

theorem name_of_first (hfs : ∀ f ∈ fs, f.Headed) (h : holder fs place = some name) (hzero : place.2 = 0) :
    name = "" ∨ name = "this" := by
  induction fs with
  | nil => cases h
  | cons f outer ih =>
    obtain ⟨⟨v, hv, hname⟩, hfs⟩ := List.forall_mem_cons.1 hfs
    unfold holder at h
    split at h
    · rw [hzero, hv] at h
      exact Option.some.inj h ▸ hname
    · exact ih hfs h

/-! ## More variables -/

namespace Setting

/-- There may be more variables in the innermost function. -/
structure Widens (σ τ : Setting) : Prop where
  outer : τ.outer = σ.outer
  classes : τ.classes = σ.classes
  kind : τ.here.kind = σ.here.kind
  locals : σ.here.locals <:+ τ.here.locals

namespace Widens

theorem refl (σ : Setting) : σ.Widens σ := ⟨rfl, rfl, rfl, List.suffix_rfl⟩

theorem trans {υ : Setting} (h : σ.Widens τ) (h' : τ.Widens υ) : σ.Widens υ :=
  ⟨h'.outer.trans h.outer, h'.classes.trans h.classes, h'.kind.trans h.kind, h.locals.trans h'.locals⟩

theorem define (σ : Setting) (name : String) : σ.Widens (σ.define name) := by
  refine ⟨outer_define σ name, classes_define σ name, kind_define σ name, ?_⟩
  unfold Setting.define
  split
  · exact List.suffix_rfl
  · exact List.suffix_cons _ _

theorem initializing (σ : Setting) (name : String) : σ.Widens (σ.initializing name) := by
  unfold Setting.initializing
  split
  · exact .refl σ
  · exact ⟨rfl, rfl, rfl, List.suffix_cons _ _⟩

theorem enter (σ : Setting) : σ.Widens σ.enter := ⟨rfl, rfl, rfl, List.suffix_rfl⟩

theorem parameters (σ : Setting) (ps : List String) : σ.Widens (ps.foldl Setting.define σ) := by
  induction ps generalizing σ with
  | nil => exact .refl σ
  | cons p ps ih => exact (define σ p).trans (ih _)

theorem declaration (d : Declaration) (σ : Setting) : σ.Widens (d.after σ) := by
  cases d with
  | statement s => exact .refl σ
  | var name | function f | cls name => exact define σ _

theorem initializer (init : Initializer) (σ : Setting) : σ.Widens (init.after σ) := by
  cases init with
  | none | expression e => exact .refl σ
  | var name value => exact define σ name

/-- The first slots are the same. -/
theorem slot (h : σ.Widens τ) {slot : Nat} {v : Local} (hv : σ.here.locals.reverse[slot]? = some v) :
    τ.here.locals.reverse[slot]? = some v := by
  obtain ⟨added, hlocals⟩ := h.locals
  rw [← hlocals, List.reverse_append, List.getElem?_append_left (List.getElem?_eq_some_iff.1 hv).1, hv]

theorem holder (h : σ.Widens τ) (hname : holder σ.functions place = some name) :
    LoxMachine.holder τ.functions place = some name := by
  rw [functions, LoxMachine.holder] at hname ⊢
  rw [h.outer]
  split at hname
  · rename_i hlevel
    obtain ⟨v, hv, rfl⟩ := Option.map_eq_some_iff.1 hname
    rw [if_pos hlevel, h.slot hv]
    rfl
  · rename_i hlevel
    rwa [if_neg hlevel]

theorem headed (h : σ.Widens τ) (hσ : ∀ f ∈ σ.functions, f.Headed) : ∀ f ∈ τ.functions, f.Headed := by
  obtain ⟨⟨v, hv, hname⟩, houter⟩ := List.forall_mem_cons.1 hσ
  exact List.forall_mem_cons.2 ⟨⟨v, h.slot hv, hname⟩, h.outer ▸ houter⟩

end Widens

end Setting

/-! ## The layers around a point -/

namespace Layer

/-- The layers are those around a point, where `this` and `super` stand for the given variables. -/
structure Fits (around : List Layer) (σ : Setting) (r : Receivers) : Prop where
  level : functions around = σ.outer.length + 1
  kind : Layer.kind around = some σ.here.kind
  classes : Layer.classes around = σ.classes
  this : ∀ place, receiver around = some place → r.this.place σ.outer.length = some place
  super : ∀ place, superclass around = some place → r.super.place σ.outer.length = some place
  supers : ∀ place ∈ superclasses around, holder σ.functions place = some "super"
  headed : ∀ f ∈ σ.functions, f.Headed

/-- Classes are outside of methods. -/
def Enclosed (around : List Layer) : Prop := classes around ≠ [] → ∃ place, receiver around = some place

/-- A class with a superclass has a place for it. -/
theorem superclass_of_classes (h : (classes around).head? = some true) : ∃ place, superclass around = some place := by
  induction around with
  | nil => cases h
  | cons layer around ih =>
    cases layer with
    | function kind => exact ih h
    | cls slot =>
      obtain ⟨slot, rfl⟩ := Option.isSome_iff_exists.1 (Option.some.inj h)
      exact ⟨_, rfl⟩

/-- The receiver of a method is in the method itself. -/
theorem receiver_of_kind {kind : FunctionKind} (h : Layer.kind around = some kind) (hkind : receives kind = true) :
    receiver around = some (functions around - 1, 0) := by
  induction around with
  | nil => cases h
  | cons layer around ih =>
    cases layer with
    | function other =>
      obtain rfl : other = kind := Option.some.inj h
      rw [receiver, if_pos hkind]
      rfl
    | cls slot => exact ih h

namespace Fits

theorem widen (h : Fits around σ r) (hw : σ.Widens τ) : Fits around τ r where
  level := hw.outer ▸ h.level
  kind := hw.kind ▸ h.kind
  classes := hw.classes ▸ h.classes
  this := hw.outer ▸ h.this
  super := hw.outer ▸ h.super
  supers p hp := hw.holder (h.supers p hp)
  headed := hw.headed h.headed

/-- At the start of a program. -/
theorem start : Fits [.function .script] .start .none where
  level := rfl
  kind := rfl
  classes := rfl
  this := nofun
  super := nofun
  supers := nofun
  headed := List.forall_mem_cons.2 ⟨⟨_, rfl, .inl rfl⟩, nofun⟩

theorem home_eq (h : Fits around σ r) (slot : Nat) : home around slot = (σ.outer.length, slot) := by
  rw [home, h.level, Nat.add_sub_cancel]

/-- Where the methods of a class stand. -/
theorem cls (h : Fits around σ r) (name : String) (superclass : Option String) :
    Fits (.ofClass name superclass σ :: around) (methodsSetting name superclass σ)
      (r.within superclass (σ.define name).here.locals.length) := by
  have hdefine := h.widen (.define σ name)
  cases superclass with
  | none =>
    exact ⟨hdefine.level, hdefine.kind, congrArg (false :: ·) hdefine.classes, hdefine.this, nofun,
      hdefine.supers, hdefine.headed⟩
  | some s =>
    set slot := (σ.define name).here.locals.length with hslot
    have hw : (σ.define name).Widens ((σ.define name).enter.define "super") := .trans (.enter _) (.define _ _)
    have hsuper := hdefine.widen hw
    have hplace : home around slot = (((σ.define name).enter.define "super").outer.length, slot) := hsuper.home_eq slot
    have hheld : holder ((σ.define name).enter.define "super").functions (home around slot) = some "super" := by
      have hlocals : ((σ.define name).enter.define "super").here.locals =
          { name := "super", depth := some ((σ.define name).here.depth + 1) } :: (σ.define name).here.locals := by
        rw [Setting.define_local _ (Nat.succ_ne_zero _)]
        rfl
      rw [hplace, Setting.functions, holder, if_pos rfl, hlocals, hslot]
      simp
    refine ⟨hsuper.level, hsuper.kind, congrArg (true :: ·) hsuper.classes, hsuper.this, fun place hp => ?_,
      List.forall_mem_cons.2 ⟨hheld, hsuper.supers⟩, hsuper.headed⟩
    obtain rfl : home around slot = place := Option.some.inj hp
    rw [hplace]
    rfl

/-- In a function. -/
theorem function (h : Fits around σ r) (kind : FunctionKind) :
    Fits (.function kind :: around) (σ.begin kind) (r.enter kind σ.outer.length) where
  level := congrArg (· + 1) h.level
  kind := rfl
  classes := h.classes
  this place hp := by
    unfold receiver at hp
    unfold Receivers.enter
    split at hp
    · rename_i hkind
      obtain rfl : (functions around, 0) = place := Option.some.inj hp
      rw [if_pos hkind, h.level]
      rfl
    · rename_i hkind
      have hthis := h.this place hp
      rw [if_neg hkind]
      change (Variable.around _ r.this).place _ = _
      cases hv : r.this with
      | own slot name => rwa [hv] at hthis
      | outer place name => rwa [hv] at hthis
      | global name =>
        rw [hv] at hthis
        cases hthis
  super place hp := by
    have hsuper := h.super place hp
    change (Variable.around _ r.super).place _ = _
    cases hv : r.super with
    | own slot name => rwa [hv] at hsuper
    | outer place name => rwa [hv] at hsuper
    | global name =>
      rw [hv] at hsuper
      cases hsuper
  supers place hp := by
    have hheld := h.supers place hp
    have hne : place.1 ≠ σ.functions.length := by
      have hlt : ∀ {fs : List FunctionScope}, holder fs place = some "super" → place.1 < fs.length := by
        intro fs hfs
        induction fs with
        | nil => cases hfs
        | cons f outer ih =>
          rw [List.length_cons]
          unfold holder at hfs
          split at hfs
          · omega
          · exact (ih hfs).trans (Nat.lt_succ_self _)
      exact (hlt hheld).ne
    change holder (_ :: σ.functions) place = _
    rwa [holder, if_neg hne]
  headed := by
    refine List.forall_mem_cons.2 ⟨⟨_, rfl, ?_⟩, h.headed⟩
    cases kind <;> simp [Draft.receiver]

/-- **A variable that a program can name** is not that of a receiver or of a superclass, and not in the first slot. -/
theorem not_reserved (h : Fits around σ r) (hname : (Symbol.name name).Proper)
    (hplace : (σ.variable name).place σ.outer.length = some place) : place.2 ≠ 0 ∧ place ∉ superclasses around := by
  obtain ⟨v, hv⟩ := Setting.lookup_of_place hplace
  have hheld := holder_of_lookup hv
  obtain ⟨hthis, hsuper⟩ : name ≠ "this" ∧ name ≠ "super" := hname.name rfl
  refine ⟨fun hzero => ?_, fun hmem => ?_⟩
  · rcases name_of_first h.headed hheld hzero with hempty | hreceiver
    · exact hname.text rfl hempty
    · exact hthis hreceiver
  · exact hsuper (Option.some.inj (hheld.symm.trans (h.supers place hmem)))

end Fits

/-- Outside of all classes. -/
theorem enclosed_script : Enclosed [.function .script] := fun h => absurd rfl h

/-- A function is enclosed if it is one of a method, or if it stands in one. -/
theorem Enclosed.function (h : Enclosed around) (kind : FunctionKind) : Enclosed (.function kind :: around) := by
  intro hclasses
  unfold receiver
  split
  · exact ⟨_, rfl⟩
  · exact h hclasses

theorem enclosed_method {kind : FunctionKind} (hkind : receives kind = true) : Enclosed (.function kind :: around) :=
  fun _ => ⟨(functions around, 0), by rw [receiver, if_pos hkind]⟩

end Layer

end LoxMachine
