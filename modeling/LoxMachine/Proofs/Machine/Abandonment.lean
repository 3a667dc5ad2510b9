import LoxMachine.Proofs.Machine.Soundness

/-!
# Captured variables after a call

When a source has been executed, or its execution has failed, the stack is gone. A closure that a
global variable still leads to should hold its captured variables itself by then.

* `Machine.Settled`: every variable that such a closure captures has been moved off the stack.
* `Machine.Exposed`: such a closure holds a variable that is open.
* `Machine.SettledThrough` says that the variables are settled after each call of a session, and
  `Machine.Abandons` that some call fails in an exposed state.
* `settledThrough_iff`: a failing execution forgets which variables are open without moving them off
  the stack, and nothing else leaves them there.
* `interpret_not_settled` is a source for which that happens.
-/

namespace LoxMachine

namespace Machine

variable {live : Handle → Prop} {m : Machine}

/-- Every variable that a closure reachable from the global variables captures has been moved off
the stack. -/
def Settled (m : Machine) : Prop :=
  ∀ h c, m.heap.Reachable m.globals.handles h → m.heap.closure h = .ok c → ∀ u ∈ c.upvalues,
    ∃ v, m.heap.upvalue u = .ok (.closed v)

/-- A closure reachable from the global variables holds a variable that is open. -/
def Exposed (m : Machine) : Prop :=
  ∃ h c u, m.heap.Reachable m.globals.handles h ∧ m.heap.closure h = .ok c ∧ u ∈ c.upvalues ∧
    u ∈ m.openUpvalues

/-- The state in which the execution of a source fails, if it does. -/
def failure? (m : Machine) (source : String) (fuel : Nat) : Option Machine :=
  match compile source m.heap (.mk fun _ => m.roots) with
  | (.error _, _) => none
  | (.ok f, heap) =>
    match enter f { m with heap } with
    | .error _ m => some m
    | .ok _ m =>
      match m.run fuel with
      | .failed _ m => some m
      | _ => none

/-- After each call of a session the captured variables are settled. A call for which the steps are
not enough is the last one. -/
def SettledThrough : List (String × Nat) → Machine → Prop
  | [], _ => True
  | (source, fuel) :: calls, m =>
    (m.interpret source fuel).1 ≠ .unfinished →
      (m.interpret source fuel).2.Settled ∧ (m.interpret source fuel).2.SettledThrough calls

/-- Some call of a session fails in an exposed state. -/
def Abandons : List (String × Nat) → Machine → Prop
  | [], _ => False
  | (source, fuel) :: calls, m =>
    (∃ m', m.failure? source fuel = some m' ∧ m'.Exposed) ∨
      ((m.interpret source fuel).1 ≠ .unfinished ∧ (m.interpret source fuel).2.Abandons calls)

/-! ## Safe states -/

theorem Safe.reachable_globals (hs : m.Safe live) {h : Handle}
    (hh : m.heap.Reachable m.globals.handles h) : live h :=
  hs.heap.reachable (fun _ hr => Table.within_iff.1 hs.globals _ hr) hh

/-- **The variables are settled when the stack is forgotten**, unless the state is exposed. -/
theorem Safe.settled_reset_iff (hs : m.Safe live) : m.reset.Settled ↔ ¬m.Exposed := by
  constructor
  · rintro hsettled ⟨h, c, u, hh, hc, hu, hopen⟩
    obtain ⟨v, hv⟩ := hsettled h c hh hc u hu
    obtain ⟨-, slot, hslot⟩ := hs.opened u hopen
    have hclosed : m.heap.upvalue u = .ok (.closed v) := hv
    rw [hslot.upvalue] at hclosed
    cases hclosed
  · intro hexposed h c hh hc u hu
    obtain ⟨bytes, hcell⟩ := Heap.closure_eq_ok_iff.1 hc
    obtain ⟨hkind, hopen⟩ := (hs.heap.proper (hs.reachable_globals hh) hcell).2.2 u hu
    obtain ⟨up, bytes', hup⟩ := Heap.upvalue_of_kind? hkind
    cases up with
    | closed v => exact ⟨v, Heap.upvalue_of_cell? hup⟩
    | stacked slot => exact absurd ⟨h, c, u, hh, hc, hu, hopen slot ⟨bytes', hup⟩⟩ hexposed

/-- An idle machine is not exposed. -/
theorem Idle.settled (hi : m.Idle live) : m.Settled := by
  have hreset : m.reset = m := by
    unfold reset
    rw [← hi.stack_eq, ← hi.frames_eq, ← hi.open_eq]
  rw [← hreset, hi.toSafe.settled_reset_iff]
  rintro ⟨h, c, u, -, -, -, hopen⟩
  rw [hi.open_eq] at hopen
  exact absurd hopen List.not_mem_nil

/-- Without a stack, everything is reached from the global variables, except for the name of
initializers. -/
theorem Safe.reachable_reset (hs : m.Safe live) {x : Handle}
    (hx : m.heap.Reachable m.reset.roots x) :
    m.heap.Reachable m.globals.handles x ∨ x = m.initName := by
  induction hx with
  | root hm hc =>
    rcases mem_roots.1 hm with hv | ⟨f, hf, -⟩ | hu | hg | rfl
    · exact absurd hv (by simp [reset])
    · exact absurd hf List.not_mem_nil
    · exact absurd hu List.not_mem_nil
    · exact Or.inl (.root hg hc)
    · exact Or.inr rfl
  | reference _ hcell hm hc ih =>
    rcases ih with hx | rfl
    · exact Or.inl (.reference hx hcell hm hc)
    · obtain ⟨text, bytes, hstring⟩ := hs.initName.2
      rw [hstring] at hcell
      cases hcell
      exact absurd hm List.not_mem_nil

theorem Safe.reset (hs : m.Safe live) (hsettled : m.reset.Settled) :
    m.reset.Idle (m.heap.Reachable m.reset.roots) := by
  have hroot : ∀ x ∈ m.reset.roots, live x := by
    intro x hx
    rcases mem_roots.1 hx with hv | ⟨f, hf, -⟩ | hu | hg | rfl
    · exact absurd hv (by simp [Machine.reset])
    · exact absurd hf List.not_mem_nil
    · exact absurd hu List.not_mem_nil
    · exact Table.within_iff.1 hs.globals x hg
    · exact hs.initName.1
  have hlive : ∀ x, m.heap.Reachable m.reset.roots x → live x := fun x hx =>
    hs.heap.reachable hroot hx
  have hin : ∀ x ∈ m.reset.roots, m.heap.Reachable m.reset.roots x := fun x hx =>
    .root hx (hs.heap.contains (hroot x hx))
  have hsound : m.heap.Sound (m.heap.Reachable m.reset.roots) m.openUpvalues :=
    hs.heap.shrink hs.heap.tidy hlive (fun x cell r hx hc hr =>
      .reference hx hc hr (hs.heap.contains (hs.heap.references (hlive x hx) hc hr))) fun _ _ => rfl
  refine ⟨⟨hsound.open_congr fun x c bytes u slot hx hc hu hslot _ => ?_, by simp [Machine.reset],
    by simp [Machine.reset], Table.within_iff.2 fun x hx => ?_, ⟨?_, hs.initName.2⟩,
    by simp [Machine.reset], .nil⟩, rfl, rfl, rfl⟩
  · -- a live closure is reached from the global variables, so its variables are settled
    rcases hs.reachable_reset hx with hx | rfl
    · obtain ⟨v, hv⟩ := hsettled x c hx (Heap.closure_of_cell? hc) u hu
      have hclosed : m.heap.upvalue u = .ok (.closed v) := hv
      rw [hslot.upvalue] at hclosed
      cases hclosed
    · obtain ⟨text, bytes', hstring⟩ := hs.initName.2
      rw [hstring] at hc
      cases hc
  · exact hin x (mem_roots.2 (Or.inr (Or.inr (Or.inr (Or.inl hx)))))
  · exact hin _ (mem_roots.2 (Or.inr (Or.inr (Or.inr (Or.inr rfl)))))

/-! ## Calls -/

theorem abort_machine (why : Failure) (m : Machine) : (m.abort why).2 = m.reset := by
  unfold abort
  split <;> rfl

/-- How one call leaves the captured variables. -/
inductive Leaves (failure : Option Machine) : Report × Machine → Prop
  | unfinished {m : Machine} (none : failure = none) : Leaves failure (.unfinished, m)
  | idle {report : Report} {live : Handle → Prop} {m : Machine} (none : failure = none)
      (ended : report ≠ .unfinished) (idle : m.Idle live) : Leaves failure (report, m)
  | failed {report : Report} {live : Handle → Prop} {m : Machine} (some : failure = some m)
      (ended : report ≠ .unfinished) (safe : m.Safe live) : Leaves failure (report, m.reset)

theorem abort_ended (why : Failure) (m : Machine) : (m.abort why).1 ≠ .unfinished := by
  unfold abort
  split <;> simp

/-- **One call of an idle machine.** -/
theorem interpret_leaves (hi : m.Idle live) (source : String) (fuel : Nat) :
    Leaves (m.failure? source fuel) (m.interpret source fuel) := by
  unfold interpret failure?
  rcases compile_idle hi source with ⟨errors, heap, live', hcompile, hidle⟩ |
    ⟨f, heap, hcompile, henter⟩
  · rw [load_rejected hcompile, hcompile]
    exact .idle rfl (by simp) hidle
  · unfold Run.Meets Run.Ends at henter
    cases hrun : enter f { m with heap } with
    | error why m' =>
      rw [hrun] at henter
      obtain ⟨-, live', hs⟩ := henter
      rw [load_aborted hcompile hrun, hcompile]
      dsimp only
      rw [hrun, abort_machine]
      exact .failed rfl (abort_ended why m') hs
    | ok _ m' =>
      rw [hrun] at henter
      rw [load_started hcompile hrun, hcompile]
      dsimp only
      rw [hrun]
      dsimp only
      have hfine := run_fine fuel henter
      unfold resume
      cases hsteps : m'.run fuel with
      | finished m'' =>
        rw [hsteps] at hfine
        obtain ⟨live', hidle⟩ := hfine
        exact .idle rfl (by simp) hidle
      | running m'' => exact .unfinished rfl
      | failed why m'' =>
        rw [hsteps] at hfine
        obtain ⟨-, live', hs⟩ := hfine
        have hresult : m''.abort why = ((m''.abort why).1, m''.reset) :=
          Prod.ext rfl (abort_machine why m'')
        dsimp only
        rw [hresult]
        exact .failed rfl (abort_ended why m'') hs

/-! ## Sessions -/

/-- **The captured variables are settled as long as no call fails in an exposed state.** -/
theorem Idle.settledThrough (calls : List (String × Nat)) (hi : m.Idle live) :
    m.SettledThrough calls ↔ ¬m.Abandons calls := by
  induction calls generalizing m live with
  | nil => simp [SettledThrough, Abandons]
  | cons call calls ih =>
    obtain ⟨source, fuel⟩ := call
    have hleaves := interpret_leaves hi source fuel
    change ((m.interpret source fuel).1 ≠ .unfinished → _) ↔ ¬(_ ∨ _)
    generalize m.interpret source fuel = result at hleaves
    generalize m.failure? source fuel = failure at hleaves
    cases hleaves with
    | unfinished hnone => simp [hnone]
    | idle hnone hended hidle =>
      simp [hended, hnone, hidle.settled, ih hidle]
    | @failed _ _ m'' hsome hended hs =>
      by_cases hexposed : m''.Exposed
      · simp [hended, hsome, hs.settled_reset_iff, hexposed]
      · have hsettled := hs.settled_reset_iff.2 hexposed
        simp [hended, hsome, hsettled, hexposed, ih (hs.reset hsettled)]

end Machine

/-- **After each call of a session with a fresh machine, the variables that closures reachable from
the global variables capture have been moved off the stack, exactly if no call fails while such a
closure holds a variable that is open.** -/
theorem settledThrough_iff (config : GcConfig) (journal : Journal) (sink : Sink)
    (clock : Nat → Number) (calls : List (String × Nat)) :
    (Machine.create { config, journal } sink clock).SettledThrough calls ↔
      ¬(Machine.create { config, journal } sink clock).Abandons calls := by
  obtain ⟨live, hidle⟩ := Machine.idle_create config journal sink clock
  exact hidle.settledThrough calls

/-! ## A source that leaves a variable on the stack -/

/-- Whether a global variable is a closure that holds a variable on the stack. -/
def Machine.leaks (m : Machine) : Bool :=
  m.globals.handles.any fun h =>
    m.heap.contains h && ((m.heap.closure h).toOption.any fun c => c.upvalues.any fun u =>
      (m.heap.upvalue u).toOption.any fun u => u.slot?.isSome)

theorem Machine.not_settled_of_leaks {m : Machine} (h : m.leaks = true) : ¬m.Settled := by
  intro hsettled
  obtain ⟨x, hx, hleaks⟩ := List.any_eq_true.1 h
  rw [Bool.and_eq_true] at hleaks
  obtain ⟨hcontains, hleaks⟩ := hleaks
  cases hc : m.heap.closure x with
  | error e => simp [hc, Except.toOption] at hleaks
  | ok c =>
    simp only [hc, Except.toOption, Option.any_some, Array.any_eq_true'] at hleaks
    obtain ⟨u, hu, hslot⟩ := hleaks
    obtain ⟨v, hv⟩ := hsettled x c (.root hx hcontains) hc u hu
    simp [hv, Upvalue.slot?] at hslot

/-- The execution of this source fails while the global variable `f` is a closure that captures a
variable of the block. -/
theorem interpret_not_settled : ¬((Machine.create {}).interpret
    "var f; \x7b var a = \"captured\"; fun g() \x7b return a; \x7d f = g; nil(); \x7d" 100).2.Settled :=
  Machine.not_settled_of_leaks (by decide +kernel)

end LoxMachine
