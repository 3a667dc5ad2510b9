import LoxMachine.Proofs.Receivers.Resolving
import LoxMachine.Proofs.Runs.Following

/-!
# Code that never writes to the first slot of a function

* `Symbolic.Spares code`: no variable in the first slot of a function is written.
* `Symbolic.Serves K kind arity code`: so it is for a function and for those in it, and they end as their kind tells.
* `serves_script`: the code of a program is such code.
* `Sheet.Of.kind_eq`: the last bytes of a function tell whether it is an initializer.
* `Machine.Apart m c s`: the variables that the closure `c` may write are in other slots than the first ones of calls.
* `Tracks.kept_apart`: every step keeps it so.
-/

namespace LoxMachine

open Symbolic

variable {K : ClassDeclaration → Prop} {kind : FunctionKind} {arity level : Nat} {code : Code} {name : String}

/-- An element of the second list is related to the one at its place in the first. -/
theorem exists_of_forall₂ {α β : Type} {R : α → β → Prop} {l : List α} {l' : List β} (h : List.Forall₂ R l l')
    {i : Nat} {b : β} (hb : l'[i]? = some b) : ∃ a, l[i]? = some a ∧ R a b := by
  induction h generalizing i with
  | nil => cases hb
  | cons hr _ ih =>
    cases i with
    | zero =>
      cases hb
      exact ⟨_, rfl, hr⟩
    | succ i => exact ih hb

namespace Symbolic

variable {i : Instruction} {before : Option Instruction} {L : Linkage} {bytes : List UInt8}

/-! ## Slots that are not written -/

/-- The code writes to no variable in the first slot of a function. -/
def Spares (code : Code) : Prop :=
  ∃ level before, ∀ place, .set (some place) ∈ accesses code level before → place.2 ≠ 0

/-- The accesses of an instruction are among those of the code. -/
theorem exists_accesses (hi : i ∈ code) (level : Nat) (before : Option Instruction) :
    ∃ before', ∀ a ∈ i.accesses level before', a ∈ accesses code level before := by
  induction code generalizing before with
  | nil => cases hi
  | cons j code ih =>
    rcases List.mem_cons.1 hi with rfl | hi
    · exact ⟨before, fun a ha => List.mem_append_left _ ha⟩
    · obtain ⟨before', hmem⟩ := ih hi (some j)
      exact ⟨before', fun a ha => List.mem_append_right _ (hmem a ha)⟩

namespace Spares

theorem own {slot : Nat} (h : Spares code) (hi : .set (.own slot name) ∈ code) : slot ≠ 0 := by
  obtain ⟨level, before, hspares⟩ := h
  obtain ⟨before', hmem⟩ := exists_accesses hi level before
  exact hspares (level, slot) (hmem _ (List.mem_singleton_self _))

theorem outer {place : Nat × Nat} (h : Spares code) (hi : .set (.outer place name) ∈ code) : place.2 ≠ 0 := by
  obtain ⟨level, before, hspares⟩ := h
  obtain ⟨before', hmem⟩ := exists_accesses hi level before
  exact hspares place (hmem _ (List.mem_singleton_self _))

theorem inner {captured : List (Nat × Nat)} {body : Code} (h : Spares code)
    (hi : .closure kind name arity captured body ∈ code) : Spares body := by
  obtain ⟨level, before, hspares⟩ := h
  obtain ⟨before', hmem⟩ := exists_accesses hi level before
  exact ⟨level + 1, none, fun place hplace => hspares place (hmem _ hplace)⟩

/-- Variables that mentions are compiled to. -/
theorem of_resolves {mentions : List (Mention × List Layer)}
    (h : List.Forall₂ Resolves mentions (accesses code level before)) : Spares code := by
  refine ⟨level, before, fun place hplace => ?_⟩
  obtain ⟨n, hget⟩ := List.mem_iff_getElem?.1 hplace
  obtain ⟨mention, -, hresolves⟩ := exists_of_forall₂ h hget
  cases hresolves with
  | write _ other => exact (other place rfl).1

end Spares

/-- What holds of the code of a function and of those in it: it has a chart, the first slots of functions are not
written, and it ends as its kind tells. -/
structure Serves (K : ClassDeclaration → Prop) (kind : FunctionKind) (arity : Nat) (code : Code) : Prop where
  charted : Charted K kind arity code
  spares : Spares code
  ends : returning kind <:+ code
  concluded : Concluded code

theorem serves_inward (K : ClassDeclaration → Prop) : Inward (Serves K) := by
  intro kind arity code h inside name arity' captured body hi
  obtain ⟨hends, hinner⟩ := h.concluded
  exact ⟨charted_inward K h.charted hi, h.spares.inner hi, hends _ _ _ _ _ hi, hinner _ _ _ _ _ hi⟩

/-- The code of a program. -/
theorem serves_script {program : List Declaration} (hproper : ∀ t ∈ Declaration.listSymbols program, t.Proper)
    (hlegal : Legal program) : Serves (· ∈ Declaration.listClasses program) .script 0 (script program) :=
  have h := script_corresponds hproper hlegal
  ⟨charted_script hproper hlegal, .of_resolves (h.accesses none), List.suffix_append _ _, h.concluded⟩

/-! ## The ends of functions -/

/-- The last two bytes of a function. -/
theorem Spells.ends (h : Spells L code bytes) (hends : returning kind <:+ code) : ∃ first,
    bytes = first ++ [if kind = .initializer then 0 else Opcode.pushNil.toByte, Opcode.ret.toByte] := by
  obtain ⟨start, rfl⟩ := hends
  obtain ⟨first, second, rfl, -, hlast⟩ := h.split
  unfold returning at hlast
  split at hlast
  · rename_i hkind
    cases hlast with
    | plain hget more =>
      cases hget with
      | @get _ b hrefers =>
        obtain rfl : b = 0 := UInt8.toNat_inj.1 hrefers
        cases more with
        | plain hret more =>
          cases hret
          cases more
          exact ⟨first ++ [Opcode.getLocal.toByte], by simp [hkind, Variable.getter]⟩
  · rename_i hkind
    cases hlast with
    | plain hnil more =>
      cases hnil
      cases more with
      | plain hret more =>
        cases hret
        cases more
        exact ⟨first, by simp [hkind]⟩

/-- **Whether a function is an initializer** can be told from its bytes. -/
theorem Sheet.Of.kind_eq {heap : Heap} {s s' : Sheet} {g : Function} (h : s.Of (Serves K) heap g)
    (h' : s'.Of (Serves K) heap g) : s.kind = .initializer ↔ s'.kind = .initializer := by
  obtain ⟨first, hbytes⟩ := h.spells.ends h.known.ends
  obtain ⟨first', hbytes'⟩ := h'.spells.ends h'.known.ends
  have hlast := (List.cons.inj (List.append_inj' (hbytes.symm.trans hbytes') rfl).2).1
  have hne : (0 : UInt8) ≠ Opcode.pushNil.toByte := by decide
  constructor <;> intro hkind
  · rw [if_pos hkind] at hlast
    by_contra hother
    rw [if_neg hother] at hlast
    exact hne hlast
  · rw [if_pos hkind] at hlast
    by_contra hother
    rw [if_neg hother] at hlast
    exact hne hlast.symm

end Symbolic

namespace Machine

variable {Q : FunctionKind → Nat → Code → Prop} {m₀ m m' : Machine}

theorem Wears.kind_eq {c : Closure} {s s' : Sheet} (h : m₀.Wears (Serves K) c s) (h' : m₀.Wears (Serves K) c s') :
    s.kind = .initializer ↔ s'.kind = .initializer := by
  obtain ⟨g, hg, hof⟩ := h
  obtain ⟨g', hg', hof'⟩ := h'
  obtain rfl := Except.ok.inj (hg.symm.trans hg')
  exact hof.kind_eq hof'

/-! ## Variables that closures write -/

/-- Variables of functions around that do not belong to the first slot of their function are not in the first slot of a
call. -/
def Apart (m : Machine) (c : Closure) (s : Sheet) : Prop :=
  ∀ (i : Nat) (place : Nat × Nat) (u : Handle) (p : Nat), s.captured[i]? = some place → place.2 ≠ 0 →
    c.upvalues[i]? = some u → m.heap.OnStack u p → ∀ f ∈ m.frames, f.base ≠ p

/-- **A step keeps variables apart** from the first slots of calls. -/
theorem Tracks.kept_apart (h : m₀.Tracks Q Apart m) (hm : m.step = .ok false m') : m₀.Kept Q Apart m m' where
  old := by
    intro x c s hstays hapart i place u p hplace hne hu hs f hf
    have hmem := Array.mem_of_getElem? hu
    have hold := hapart i place u p hplace hne hu (hstays.stacked u hmem p hs)
    cases Run.execute_moves h.stable hm with
    | @inside f₀ rest g mi t d before function instruction goes after size =>
      rw [before] at hold
      rw [after] at hf
      rcases List.mem_cons.1 hf with rfl | hf
      · exact hold f₀ List.mem_cons_self
      · exact hold f (List.mem_cons_of_mem _ hf)
    | @called f₀ callee rest g k mi before function instruction calls after entered arity start base size clear =>
      rw [before] at hold
      rw [after] at hf
      rcases List.mem_cons.1 hf with rfl | hf
      · -- a call begins above all variables that are on the stack
        obtain ⟨bytes, hcell⟩ := Heap.closure_eq_ok_iff.1 hstays.after
        have htracked := ((Run.execute_neat h.orderly).of_ok hm).tracked trivial
        exact (clear u (htracked x c bytes hcell u hmem p hs) p hs).ne'
      · rcases List.mem_cons.1 hf with rfl | hf
        · exact hold f₀ List.mem_cons_self
        · exact hold f (List.mem_cons_of_mem _ hf)
    | returned before function instruction after size =>
      rw [after] at hf
      exact hold f (before ▸ List.mem_cons_of_mem _ hf)
  new := by
    intro f rest c s kind name arity captured body g pairs new hat hapart hands hobtains i place u p hplace hne hu hs
    obtain ⟨pair, hpair, hobtain⟩ := exists_of_forall₂ hobtains (by rwa [Array.getElem?_toList])
    obtain ⟨place', hplace', hhand⟩ := exists_of_forall₂ hands hpair
    obtain rfl : place' = place := Option.some.inj (hplace'.symm.trans hplace)
    rcases hhand with ⟨hone, rfl⟩ | ⟨hzero, houter⟩
    · -- a variable of the innermost call
      obtain ⟨-, hstack⟩ := hobtain.resolve_right fun hother => absurd (hone.symm.trans hother.1) (by decide)
      obtain rfl := hs.unique hstack
      intro f' hf'
      obtain ⟨-, hframes⟩ := hat.goesOn h trivial ⟨nofun, nofun, nofun, nofun⟩ rfl hm
      have hle := (h.stable.step hm).base_le hframes hf'
      change f'.base ≤ f.base at hle
      have hpos : pair.2.toNat ≠ 0 := hne
      omega
    · obtain ⟨-, hget⟩ := hobtain.resolve_left fun hother => hother.1 hzero
      exact hapart _ _ u p houter hne hget hs

end Machine

end LoxMachine
