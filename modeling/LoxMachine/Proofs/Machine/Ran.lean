import LoxMachine.Proofs.Machine.Listed
import LoxMachine.Proofs.Machine.Soundness

/-!
# Running any code

A host makes a machine, compiles sources or puts functions together by hand, and lets them run.

* `Machine.Act m x`: the host may do `x` on the machine `m`. It makes no closures that capture variables.
* `Machine.Ran clean m`: the machine can be reached in that way; `clean` tells that there has been no
  runtime error. `Ran.interpret`: interpreting a source is such a way.
* `stacked_variables_listed`: the list of the variables on the stack is in order wherever a machine can
  get, and complete until the first runtime error; an ordered list gives a variable for every slot, and
  those from a slot up can be moved off the stack.
-/

namespace LoxMachine

namespace Machine

variable {m m' : Machine} {clean : Bool}

/-- What a host may do on a machine. -/
inductive Act (m : Machine) : Run Unit → Prop
  | string (s : String) : Act m (do Run.push (.obj (← Run.intern s)))
  | object (o : Object) : o.kind ≠ .string → (∀ r ∈ o.references, m.heap.contains r = true) →
    m.heap.Fit o → (∀ c, o = .closure c → c.upvalues = #[]) → Act m (do Run.push (.obj (← Run.alloc o)))
  | drop : Act m (do let _ ← Run.pop)
  | enter (h : Handle) : m.heap.kind? h = some .function → Act m (enter h)
  | execute : Act m (do let _ ← Run.execute)

/-- A source has been compiled. -/
def compiled (m : Machine) (source : String) : Machine :=
  { m with heap := (compile source m.heap (.mk fun _ => m.roots)).2 }

/-- The machines that can be reached by running code. -/
inductive Ran : Bool → Machine → Prop
  | create (config : GcConfig) (keeps : Option Level) (sink : Sink) (clock : Nat → Number) :
    Ran true (create { config, journal := { keeps } } sink clock)
  | native {clean : Bool} {m : Machine} (n : Native) : Ran clean m → n.Honest → Ran clean (m.defineNative n)
  | compile {clean : Bool} {m : Machine} (source : String) : Ran clean m → Ran clean (m.compiled source)
  | succeeds {clean : Bool} {m m' : Machine} {x : Run Unit} : Ran clean m → Act m x →
    x m = .ok () m' → Ran clean m'
  | fails {clean : Bool} {m m' : Machine} {x : Run Unit} {e : Failure} : Ran clean m → Act m x →
    x m = .error e m' → Ran false m'
  | reset {clean : Bool} {m : Machine} : Ran clean m → Ran false m.reset

/-! ## The list of the variables on the stack -/

theorem Orderly.mono {p q : Prop} (h : m.Orderly p) (hqp : q → p) : m.Orderly q :=
  ⟨h.sane, h.ordered, fun hq => h.tracked (hqp hq)⟩

theorem Quiet.orderly {p : Prop} (h : m.Quiet m') (ho : m.Orderly p) (hs : m'.Sane) : m'.Orderly p :=
  ho.to hs (h.ordered ho.ordered) h.upholds

theorem defineNative_quiet (ht : m.heap.Tidy) (n : Native) : m.Quiet (m.defineNative n) := by
  have hintern : m.heap.Quiet m.openUpvalues (m.heap.intern (.mk fun _ => m.roots) n.name).2 :=
    .intern ht opened_subset_roots n.name
  unfold defineNative
  dsimp only
  generalize m.heap.intern (.mk fun _ => m.roots) n.name = interned at hintern ⊢
  obtain ⟨name, heap₁⟩ := interned
  let held : Machine := { m with heap := heap₁, stack := m.stack.push (.obj name) }
  have halloc : heap₁.Quiet m.openUpvalues (heap₁.alloc (.mk fun _ => held.roots) (.native n)).2 :=
    .alloc hintern.tidy (opened_subset_roots (m := held)) (by simp [Object.kind]) (by simp [Object.kind])
  exact ⟨hintern.trans halloc, rfl⟩

theorem create_orderly (config : GcConfig) (keeps : Option Level) (sink : Sink)
    (clock : Nat → Number) : (create { config, journal := { keeps } } sink clock).Orderly True := by
  have hsane := sane_create config keeps sink clock
  have hempty : ({ config, journal := { keeps } } : Heap).Tidy := Heap.tidy_of_empty rfl
  have hintern : ({ config, journal := { keeps } } : Heap).Quiet []
      (({ config, journal := { keeps } } : Heap).intern (Thunk.pure []) "init").2 :=
    .intern hempty (by simp) "init"
  unfold create at hsane ⊢
  dsimp only at hsane ⊢
  generalize ({ config, journal := { keeps } } : Heap).intern (Thunk.pure []) "init" = interned
    at hsane hintern ⊢
  obtain ⟨initName, heap⟩ := interned
  have hquiet := defineNative_quiet (m := { heap, initName, sink, clock }) hintern.tidy .clock
  refine ⟨hsane, hquiet.ordered ⟨by simp, by simp⟩, fun _ => Tracked.uphold ?_ hquiet.upholds⟩
  intro x c bytes hc
  have hnone := hintern.closures hc
  simp [Heap.cell?] at hnone

end Machine

namespace Run

variable {m : Machine} {clean : Prop}

instance : Machine.Interns (Machine.Changes Effect.Quiet) := Machine.interns_of_allowed trivial

theorem push_neat (ho : m.Orderly clean) {v : Value} (hv : v.In m.heap.Live) :
    Neat clean (push v) m fun _ m' => m'.Orderly clean ∧ m'.heap = m.heap :=
  ((push_same_heap ho.sane hv).quiet (fun _ _ h => h.1) ho).mono fun _ _ h => ⟨h.2.1, h.1.2⟩

/-- A function is entered. -/
theorem enter_neat (ho : m.Orderly clean) {h : Handle} (hh : m.heap.kind? h = some .function) :
    Neat clean (Machine.enter h) m fun _ m' => m'.Orderly clean := by
  unfold Machine.enter
  refine (push_neat ho (in_obj (Heap.live_of_kind? hh))).bind fun _ m₁ h₁ => ?_
  obtain ⟨ho₁, hheap⟩ := h₁
  have hh₁ : m₁.heap.kind? h = some .function := hheap ▸ hh
  have hrefs : ∀ r ∈ (Object.closure { function := h }).references, m₁.heap.Live r := by
    intro r hr
    rw [List.mem_singleton.1 hr]
    exact Heap.live_of_kind? hh₁
  refine (alloc_neat ho₁ (by simp [Object.kind]) hrefs ⟨hh₁, by simp⟩
    fun c hc => by cases hc; simp).bind fun x m₂ h₂ => ?_
  obtain ⟨ho₂, hcell⟩ := h₂
  refine ((pop_tame ho₂.sane).quiet (fun _ _ h => h.2.1) ho₂).bind fun _ m₃ h₃ => ?_
  obtain ⟨⟨-, -, hheap₃⟩, ho₃, -⟩ := h₃
  rw [← hheap₃] at hcell
  refine (push_neat ho₃ (in_obj (Heap.contains_of_cell? hcell))).bind fun _ m₄ h₄ => ?_
  rw [← h₄.2] at hcell
  exact ((call_tame h₄.1.sane (Heap.kind?_of_cell? hcell) 0).quiet (fun _ _ h => h) h₄.1).mono
    fun _ _ h => h.2.1

/-- **What a host does keeps the list in order.** -/
theorem act_neat {x : Run Unit} (ho : m.Orderly clean) (hx : m.Act x) :
    Neat clean x m fun _ m' => m'.Orderly clean := by
  cases hx with
  | string s =>
    refine ((intern_tame ho.sane s).quiet (fun _ _ h => h.1) ho).bind fun x m' h => ?_
    exact (push_neat h.2.1 (in_obj h.1.2.contains)).mono fun _ _ h => h.1
  | object o hkind hrefs hfit hcaptures =>
    refine (alloc_neat ho hkind hrefs hfit fun c hc _ u hu => ?_).bind fun x m' h => ?_
    · rw [hcaptures c hc] at hu
      simp at hu
    · exact (push_neat h.1 (in_obj (Heap.contains_of_cell? h.2))).mono fun _ _ h => h.1
  | drop => exact ((pop_tame ho.sane).quiet (fun _ _ h => h.2.1) ho).bind fun _ _ h => .pure h.2.1
  | enter h hh => exact enter_neat ho hh
  | execute => exact (execute_neat ho).bind fun _ _ h => .pure h

end Run

namespace Machine

variable {m m' : Machine} {clean : Bool}

theorem heap_orderly {p : Prop} {heap : Heap} (ho : m.Orderly p) (hq : m.heap.Quiet m.openUpvalues heap)
    (hh : heap.Healthy) (hk : m.heap.Keeps m.roots heap) : { m with heap }.Orderly p :=
  Quiet.orderly ⟨hq, rfl⟩ ho (ho.sane.heap_to hh (Heap.steady_of_cells hk))

theorem compiled_orderly {p : Prop} (ho : m.Orderly p) (source : String) : (m.compiled source).Orderly p := by
  have hcompile := ho.sane.heap.compile source (.mk fun _ => m.roots)
  have hallots := compile_allots source m.heap (.mk fun _ => m.roots)
  unfold compiled
  generalize LoxMachine.compile source m.heap (.mk fun _ => m.roots) = p at hcompile hallots ⊢
  exact heap_orderly ho (hallots.quiet ho.sane.heap.tidy opened_subset_roots) hcompile.1 hcompile.2.1

/-- **Wherever a machine can get, the list is in order.** -/
theorem Ran.orderly (h : Ran clean m) : m.Orderly (clean = true) := by
  induction h with
  | create config keeps sink clock => exact (create_orderly config keeps sink clock).mono fun _ => trivial
  | native n _ hn ih => exact (defineNative_quiet ih.sane.heap.tidy n).orderly ih (sane_defineNative ih.sane hn)
  | compile source _ ih => exact compiled_orderly ih source
  | succeeds _ hx hrun ih =>
    have h := Run.act_neat ih hx
    unfold Run.Neat Run.Ends at h
    rw [hrun] at h
    exact h
  | fails _ hx hrun ih =>
    have h := Run.act_neat ih hx
    unfold Run.Neat Run.Ends at h
    rw [hrun] at h
    exact h.mono (by simp)
  | reset _ ih => exact ⟨ih.sane.reset, ⟨by simp [Machine.reset], by simp [Machine.reset]⟩, by simp⟩

/-! ## Sessions -/

/-- A step is taken. -/
theorem Ran.step (h : Ran clean m) :
    (∃ done m', m.step = .ok done m' ∧ Ran clean m') ∨ ∃ e m', m.step = .error e m' ∧ Ran false m' := by
  unfold Machine.step
  have hdo : (do let _ ← Run.execute : Run Unit) m = match Run.execute m with
      | .ok _ m' => .ok () m'
      | .error e m' => .error e m' := by
    simp only [Bind.bind, EStateM.bind]
    split <;> simp_all [Pure.pure, EStateM.pure]
  cases hx : Run.execute m with
  | ok done m' => exact Or.inl ⟨done, m', rfl, h.succeeds .execute (by rw [hdo, hx])⟩
  | error e m' => exact Or.inr ⟨e, m', rfl, h.fails .execute (by rw [hdo, hx])⟩

/-- A run comes to its end without an error, or it stops at the first one. -/
theorem Ran.run (h : Ran clean m) (fuel : Nat) :
    (Ran clean (m.run fuel).machine ∧ ∀ e m', m.run fuel ≠ .failed e m') ∨
      ∃ e m', m.run fuel = .failed e m' ∧ Ran false m' := by
  induction fuel generalizing m with
  | zero => exact Or.inl ⟨h, by simp [Machine.run]⟩
  | succ fuel ih =>
    unfold Machine.run
    rcases h.step with ⟨done, m', hstep, h'⟩ | ⟨e, m', hstep, h'⟩ <;> rw [hstep]
    · cases done with
      | true => exact Or.inl ⟨h', by simp⟩
      | false => exact ih h'
    · exact Or.inr ⟨e, m', rfl, h'⟩

/-- A source is loaded without a runtime error, or the machine has been reset. -/
theorem Ran.load (h : Ran clean m) (source : String) :
    Ran clean (m.load source).2 ∨ Ran false (m.load source).2 ∧ (m.load source).1.isSome = true := by
  have hcompiled := h.compile source
  have hkinds := (h.orderly.sane.heap.compile source (.mk fun _ => m.roots)).2.2
  unfold compiled at hcompiled
  rcases hc : LoxMachine.compile source m.heap (.mk fun _ => m.roots) with ⟨result, heap⟩
  rw [hc] at hcompiled hkinds
  cases result with
  | error errors =>
    rw [load_rejected hc]
    exact Or.inl hcompiled
  | ok f =>
    have hkind : { m with heap }.heap.kind? f = some .function := hkinds f rfl
    rcases hrun : Machine.enter f { m with heap } with ⟨_, m'⟩ | ⟨why, m'⟩
    · rw [load_started hc hrun]
      exact Or.inl (hcompiled.succeeds (.enter f hkind) hrun)
    · rw [load_aborted hc hrun]
      refine Or.inr ⟨?_, rfl⟩
      have hreset := (hcompiled.fails (.enter f hkind) hrun).reset
      unfold abort
      split <;> exact hreset

/-- **Interpreting a source is running code.** -/
theorem Ran.interpret (h : Ran clean m) (source : String) (fuel : Nat) :
    Ran clean (m.interpret source fuel).2 ∨ Ran false (m.interpret source fuel).2 := by
  have hload := h.load source
  unfold Machine.interpret
  rcases hl : m.load source with ⟨report, m₁⟩
  rw [hl] at hload
  cases report with
  | some report => exact hload.imp id (·.1)
  | none =>
    have hresume : ∀ {clean : Bool}, Ran clean m₁ →
        Ran clean (m₁.resume fuel).2 ∨ Ran false (m₁.resume fuel).2 := by
      intro clean h₁
      unfold Machine.resume
      rcases h₁.run fuel with ⟨h₂, hfine⟩ | ⟨e, m₂, hrun, h₂⟩
      · refine Or.inl ?_
        cases hrun : m₁.run fuel with
        | finished m₂ | running m₂ =>
          rw [hrun] at h₂
          exact h₂
        | failed why m₂ => exact absurd hrun (hfine why m₂)
      · rw [hrun]
        refine Or.inr ?_
        unfold abort
        dsimp only
        split <;> exact h₂.reset
    rcases hload with h₁ | ⟨h₁, -⟩
    · exact hresume h₁
    · exact Or.inr ((hresume h₁).elim id id)

/-! ## What an ordered list is good for -/

/-- The variable of a slot is the listed one, and nothing changes, or a new one takes its place in the
list. -/
structure Captures (m : Machine) (index : Nat) : Prop where
  listed : ∀ u ∈ m.openUpvalues, m.heap.OnStack u index → Run.captureUpvalue index m = .ok u m
  made : (∀ u ∈ m.openUpvalues, ¬m.heap.OnStack u index) → ∃ high low u heap,
    m.openUpvalues = high ++ low ∧
    m.heap.alloc (.mk fun _ => m.roots) (.upvalue (.stacked index)) = (u, heap) ∧
    Run.captureUpvalue index m = .ok u { m with heap, openUpvalues := high ++ u :: low } ∧
    { m with heap, openUpvalues := high ++ u :: low }.Ordered

/-- There is one listed variable of a slot at most. -/
theorem Ordered.unique (ho : m.Ordered) {u v : Handle} {slot : Nat} (hu : u ∈ m.openUpvalues)
    (hv : v ∈ m.openUpvalues) (hs : m.heap.OnStack u slot) (hs' : m.heap.OnStack v slot) : u = v := by
  by_contra hne
  have hdistinct : m.openUpvalues.Pairwise fun u v => ∀ slot, m.heap.OnStack u slot →
      ¬m.heap.OnStack v slot := ho.sorted.imp fun hlt slot hs hs' => lt_irrefl _ (hlt slot slot hs hs')
  have : Std.Symm fun u v => ∀ slot, m.heap.OnStack u slot → ¬m.heap.OnStack v slot :=
    ⟨fun u v h slot hs hs' => h slot hs' hs⟩
  exact hdistinct.forall hu hv hne slot hs hs'

theorem Ordered.captures (ho : m.Ordered) (ht : m.heap.Tidy) (index : Nat) : m.Captures index := by
  rcases Run.captureUpvalue_cases ht ho index with
    ⟨u, hu, hindex, hrun⟩ | ⟨high, low, u, heap, hsplit, hhigh, hlow, ha, hrun⟩
  · refine ⟨fun v hv hs => ?_, fun hnone => absurd hindex (hnone u hu)⟩
    rw [ho.unique hv hu hs hindex]
    exact hrun
  · refine ⟨fun v hv hs => ?_, fun _ => ⟨high, low, u, heap, hsplit, ha, hrun, ?_⟩⟩
    · rw [hsplit] at hv
      rcases List.mem_append.1 hv with hv | hv
      · exact absurd (hhigh v hv index hs) (lt_irrefl _)
      · exact absurd (hlow v hv index hs) (lt_irrefl _)
    · have hnew := Heap.alloc_allocates ht (.mk fun _ => m.roots) (.upvalue (.stacked index))
      rw [ha] at hnew
      exact (ho.insert hsplit hnew hhigh hlow).1

end Machine

open Machine in
/-- **The list of the variables on the stack.** Wherever running code may lead, the list holds variables
that are on the stack, from the highest slot down, and until the first runtime error it holds all those
that closures have captured. With such a list, the variable of a slot is found if it is listed, and made
and listed if not; and if the listed slots exist, the variables from a slot up are moved off the stack,
each with the value of its slot, and the others stay. -/
theorem stacked_variables_listed :
    (∀ {clean : Bool} {m : Machine}, Ran clean m →
      m.heap.Tidy ∧ m.Ordered ∧ (clean = true → m.Tracked)) ∧
    ∀ {m : Machine}, m.heap.Tidy → m.Ordered → (∀ index, m.Captures index) ∧
      ∀ last, (∀ u ∈ m.openUpvalues, ∀ slot, m.heap.OnStack u slot → slot < m.stack.size) →
        ∃ m', Run.closeUpvalues last m = .ok () m' ∧ m'.Ordered ∧ m.ClosesFrom last m' :=
  ⟨fun h => ⟨h.orderly.sane.heap.tidy, h.orderly.ordered, h.orderly.tracked⟩, fun ht ho =>
    ⟨ho.captures ht, fun last hslots => Run.closeUpvalues_closes ho last hslots⟩⟩

/-- The slot of a variable is one of the lowest `size`. -/
def Upvalue.liesBelow (size : Nat) : Upvalue → Bool
  | .stacked slot => slot < size
  | .closed _ => true

def Machine.Outcome.hasFailed : Outcome → Bool
  | .failed _ _ => true
  | _ => false

/-- A source has been loaded on a fresh machine, and has run for a while without an error. -/
theorem Machine.ran_of_source {source : String} {fuel : Nat} (hload : ((create {}).load source).1.isSome = false)
    (hrun : (((create {}).load source).2.run fuel).hasFailed = false) :
    Ran true (((create {}).load source).2.run fuel).machine := by
  have hloaded := ((Ran.create {} none {} fun _ => ⟨0⟩).load source).resolve_right fun h => by
    rw [h.2] at hload
    cases hload
  refine ((hloaded.run fuel).resolve_right fun ⟨e, m', hfailed, _⟩ => ?_).1
  rw [hfailed] at hrun
  cases hrun

/-- A machine on which a closure has captured two variables of a block. -/
def Machine.capturing : Machine :=
  (((create {}).load "\x7b var a = 1; var b = 2; fun f() \x7b return b + a; \x7d print f; \x7d").2.run 3).machine

theorem Machine.ran_capturing : Ran true capturing := by
  unfold capturing
  generalize hs : "\x7b var a = 1; var b = 2; fun f() \x7b return b + a; \x7d print f; \x7d" = source
  refine ran_of_source ?_ ?_
  · subst hs
    decide +kernel
  · subst hs
    decide +kernel

/-- Both variables are listed, and the upper one can be moved off the stack. -/
theorem stacked_variables_listed_pair :
    Machine.capturing.openUpvalues.length = 2 ∧ Machine.capturing.Tracked ∧
      ∃ m', Run.closeUpvalues 2 Machine.capturing = .ok () m' ∧ m'.openUpvalues.length = 1 ∧
        Machine.capturing.ClosesFrom 2 m' := by
  obtain ⟨ht, ho, htracked⟩ := stacked_variables_listed.1 Machine.ran_capturing
  have hslots : Machine.capturing.openUpvalues.all (fun u =>
      (Machine.capturing.heap.upvalue u).toOption.all (·.liesBelow Machine.capturing.stack.size)) = true := by
    decide +kernel
  obtain ⟨m', hrun, -, hcloses⟩ := (stacked_variables_listed.2 ht ho).2 2 fun u hu slot hs => by
    have h := List.all_eq_true.1 hslots u hu
    rw [hs.upvalue] at h
    simpa only [Except.toOption, Option.all_some, Upvalue.liesBelow, decide_eq_true_eq] using h
  refine ⟨by decide +kernel, htracked rfl, m', hrun, ?_, hcloses⟩
  have hlength : (Run.leaves (Run.closeUpvalues 2) Machine.capturing).openUpvalues.length = 1 := by
    decide +kernel
  rwa [Run.leaves_ok hrun] at hlength

end LoxMachine
