import LoxMachine.Proofs.Machine.Ran
import LoxMachine.Proofs.Runs.Standing

/-!
# The start of a run

A source that compiles is loaded on a fresh machine. There is one closure then, that of the script, and the run is at
the first instruction of the code of the program.

* `Symbolic.Sheet.script program` is the sheet of the script.
* `load_tracks`: the machine tracks itself, and its only call stands at the start of a chart.
-/

namespace LoxMachine

open Symbolic

variable {Q : FunctionKind → Nat → Code → Prop} {W : Machine → Closure → Sheet → Prop}
  {K : ClassDeclaration → Prop}

/-- The function of a whole program. -/
def Symbolic.Sheet.script (program : List Declaration) : Sheet :=
  ⟨.script, none, 0, [], 0, Symbolic.script program⟩

/-! ## The first objects -/

namespace Heap

variable {heap heap' : Heap} {o : Object}

/-- There is what a fresh machine and the compiler make, and nothing else. -/
structure Bare (heap : Heap) : Prop where
  tidy : heap.Tidy
  kinds : ∀ {x : Handle} {cell : Cell}, heap.cell? x = some cell →
    cell.object.kind = .string ∨ cell.object.kind = .native ∨ cell.object.kind = .function

theorem Bare.allocates {roots : List Handle} {x : Handle} (hb : heap.Bare) (ha : heap.Allocates roots o x heap')
    (ho : o.kind = .string ∨ o.kind = .native ∨ o.kind = .function) : heap'.Bare := by
  refine ⟨ha.tidy, fun {y cell} hc => ?_⟩
  by_cases hy : y = x
  · subst hy
    cases ha.new.symm.trans hc
    exact ho
  · exact hb.kinds (ha.old hy hc)

theorem Bare.intern (hb : heap.Bare) (roots : Thunk (List Handle)) (s : String) : (heap.intern roots s).2.Bare := by
  rcases intern_spec hb.tidy roots s with ⟨-, heq⟩ | ⟨-, ha, -⟩
  · rwa [heq]
  · exact hb.allocates ha (.inl rfl)

/-- Compiling makes strings and functions. -/
theorem Allots.bare {roots : List Handle} (ha : heap.Allots roots heap') (hb : heap.Bare) : heap'.Bare := by
  induction ha with
  | refl => exact hb
  | intern s _ _ ih => exact ih.intern _ s
  | function f _ _ ih => exact ih.allocates (alloc_allocates ih.tidy _ _) (.inr (.inr rfl))
  | record e _ ih => exact ⟨ih.tidy.record e, fun hc => ih.kinds (by rwa [cell?_record] at hc)⟩

end Heap

namespace Machine

theorem create_bare (config : GcConfig) (journal : Journal) (sink : Sink) (clock : Nat → Number) :
    (create { config, journal } sink clock).heap.Bare := by
  have hempty : ({ config, journal } : Heap).Bare :=
    ⟨Heap.tidy_of_empty rfl, fun hc => by simp [Heap.cell?] at hc⟩
  have hinit := hempty.intern (Thunk.pure []) "init"
  unfold create defineNative
  dsimp only
  exact (hinit.intern _ _).allocates (Heap.alloc_allocates (hinit.intern _ _).tidy _ _) (.inr (.inl rfl))

/-- **A source that compiles** is loaded, and the run can be followed in the code of its program. -/
theorem load_tracks (config : GcConfig) (keeps : Option Level) (sink : Sink) (clock : Nat → Number) {source : String}
    {program : List Declaration} {h : Handle} {heap : Heap} (hp : Parses source program)
    (hcompile : compile source (create { config, journal := { keeps } } sink clock).heap
      (.mk fun _ => (create { config, journal := { keeps } } sink clock).roots) = (.ok h, heap))
    (hQ : Q .script 0 (Symbolic.script program)) (hW : ∀ m c s, c.upvalues = #[] → W m c s)
    (hK : ∀ {kind arity code}, Q kind arity code → Charted K kind arity code) :
    ∃ m₀, (create { config, journal := { keeps } } sink clock).load source = (none, m₀) ∧ m₀.Tracks Q W m₀ ∧
      m₀.Stands Q W K m₀ m₀.frames m₀.stack.size ∧ ∀ c, m₀.heap.kind? c ≠ some .cls := by
  obtain ⟨m₀, hload, hstable⟩ := load_stable config { keeps } sink clock hcompile
  have horderly : m₀.Orderly True := by
    have hran := (Ran.create config keeps sink clock).load source
    rw [hload] at hran
    exact (hran.resolve_right fun h => by cases h.2).orderly.mono fun _ => rfl
  obtain ⟨live, hidle⟩ := idle_create config { keeps } sink clock
  have hbare := create_bare config { keeps } sink clock
  generalize create { config, journal := { keeps } } sink clock = m at *
  have hallots := compile_allots source m.heap (.mk fun _ => m.roots)
  have hquiet := hallots.quiet hidle.heap.tidy opened_subset_roots
  rw [hcompile] at hallots hquiet
  replace hbare := hallots.bare hbare
  obtain ⟨g, bytes, hcell, -, harity, hcount, hspells⟩ := (hp.spells hidle.heap.tidy hcompile).cell
  obtain ⟨closure, heap', ha, -, henter⟩ := enter_eq (m := { m with heap }) hquiet.tidy hidle.stack_eq hidle.frames_eq
    hcell harity
  obtain rfl := congrArg Prod.snd ((load_started hcompile henter).symm.trans hload)
  -- what the code refers to is still there
  have hreach : ∀ {y}, heap.Reachable [h] y → heap'.cell? y = heap.cell? y := fun hy =>
    (ha.kept (hy.mono (by simp [Object.references]))).2
  have hhere : heap.Reachable [h] h := .root (List.mem_singleton_self _) (Heap.contains_of_cell? hcell)
  have hof : (Sheet.script program).Of Q heap' g := by
    refine ⟨hspells.mono ⟨List.prefix_rfl, List.prefix_rfl, rfl, fun y hy => ?_⟩,
      fun _ hname => absurd hname (by simp [Sheet.script]), harity, hcount, hQ⟩
    exact hreach (reachable_of_constants hhere hcell hy)
  have hwears : ∀ m₀ : Machine, m₀.heap = heap' →
      m₀.Wears Q { function := h } (Sheet.script program) := by
    rintro m₀ rfl
    exact ⟨g, Heap.function_eq_ok_iff.2 ⟨bytes, (hreach hhere).trans hcell⟩, hof⟩
  have htracks : ∀ m₀ : Machine, m₀.heap = heap' → m₀.Stable → m₀.Orderly True → m₀.Tracks Q W m₀ := by
    rintro m₀ rfl hstable horderly
    refine ⟨hstable, horderly, .refl horderly.sane.heap.tidy, fun {x c} hc => ?_⟩
    obtain ⟨bytes', hc⟩ := Heap.closure_eq_ok_iff.1 hc
    by_cases hx : x = closure
    · subst hx
      cases ha.new.symm.trans hc
      exact ⟨_, hwears m₀ rfl, hW _ _ _ rfl⟩
    · rcases hbare.kinds (ha.old hx hc) with hk | hk | hk <;> cases hk
  refine ⟨_, hload, htracks _ rfl hstable horderly, ?_, fun c hc => ?_⟩
  rotate_left
  · obtain ⟨o, bytes', hcls, hkind⟩ := Heap.cell?_of_kind? hc
    by_cases hx : c = closure
    · subst hx
      cases ha.new.symm.trans hcls
      cases hkind
    · rcases hbare.kinds (ha.old hx hcls) with hk | hk | hk <;> cases hkind.symm.trans hk
  refine .enter hK (Heap.closure_of_cell? ha.new) (hwears _ rfl) (hW _ _ _ rfl) rfl (fun g' hg' => ?_) (.nil _)
  obtain rfl : g' = g := Except.ok.inj
    (hg'.symm.trans (Heap.function_eq_ok_iff.2 ⟨bytes, (hreach hhere).trans hcell⟩))
  rw [harity]
  rfl

end Machine

end LoxMachine
