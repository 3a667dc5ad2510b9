import LoxMachine.Session
import LoxMachine.Proofs.Machine.AnyCode

/-!
# Machines that a host puts together

A host makes a machine, defines native functions, and makes objects of all kinds, among them functions
with any code. Then it runs one of them.

* `Machine.Assembled`: what can be put together in that way.
* `Machine.Intact`: the limits are kept, every handle names an object, and the counts of bytes and of
  table entries are right, so that none of them has ever been cut off at zero.
* `run_any_code`: a function with any code does not leave this state; it goes on, ends, or fails with a
  runtime error.
-/

namespace LoxMachine

namespace Run

variable {α : Type} {x : Run α} {m : Machine} {Q : α → Machine → Prop}

/-- The state in which an action ends, or fails. -/
def leaves (x : Run α) (m : Machine) : Machine :=
  match x m with
  | .ok _ m' | .error _ m' => m'

theorem Tame.leaves (h : Tame x m Q) (hQ : ∀ a m', Q a m' → m'.Sane) : (x.leaves m).Sane := by
  unfold Tame Ends at h
  unfold Run.leaves
  cases hx : x m with
  | ok a m' =>
    rw [hx] at h
    exact hQ a m' h
  | error e m' =>
    rw [hx] at h
    exact h.sane

end Run

namespace Machine

variable {m : Machine}

/-! ## What a host does -/

/-- The machines that a host can put together. It keeps the objects that it makes on the stack, and it
may run what it has made. -/
inductive Assembled : Machine → Prop
  | create (config : GcConfig) (keeps : Option Level) (sink : Sink) (clock : Nat → Number) :
    Assembled (create { config, journal := { keeps } } sink clock)
  | native {m : Machine} (n : Native) : Assembled m → n.Honest → Assembled (m.defineNative n)
  | string {m : Machine} (s : String) :
    Assembled m → Assembled (Run.leaves (do Run.push (.obj (← Run.intern s))) m)
  | object {m : Machine} (o : Object) : Assembled m → o.kind ≠ .string →
    (∀ r ∈ o.references, m.heap.contains r = true) → m.heap.Fit o →
    Assembled (Run.leaves (do Run.push (.obj (← Run.alloc o))) m)
  | drop {m : Machine} : Assembled m → Assembled (Run.leaves Run.pop m)
  | enter {m : Machine} (h : Handle) : Assembled m → m.heap.kind? h = some .function →
    Assembled (Run.leaves (enter h) m)
  | run {m : Machine} (fuel : Nat) : Assembled m → Assembled (m.run fuel).machine
  | reset {m : Machine} : Assembled m → Assembled m.reset

/-- **A native function is defined**: a global variable of its name holds it. -/
theorem defineNative_spec (hs : m.Sane) {n : Native} (hn : n.Honest) : (m.defineNative n).Sane ∧
    ∃ name h bytes, (m.defineNative n).heap.hasContents n.name name = true ∧
      (m.defineNative n).heap.cell? h = some ⟨.native n, bytes⟩ ∧
        (m.defineNative n).globals.toMap = Function.update m.globals.toMap name (some (.obj h)) := by
  have hstring := Heap.isString_intern hs.heap.tidy (.mk fun _ => m.roots) n.name
  have hkeeps := Heap.keeps_intern hs.heap.tidy (.mk fun _ => m.roots) n.name
  have hhealthy := hs.heap.intern (.mk fun _ => m.roots) n.name
  have hcontents := Heap.hasContents_intern hs.heap.tidy (.mk fun _ => m.roots) n.name
  unfold defineNative
  dsimp only
  generalize m.heap.intern (.mk fun _ => m.roots) n.name = interned at *
  obtain ⟨name, heap₁⟩ := interned
  have hs₁ : { m with heap := heap₁ }.Sane :=
    hs.heap_to hhealthy (Heap.steady_of_cells fun x hx => hkeeps x hx)
  -- the name is on the stack while the function is made
  let held : Machine := { m with heap := heap₁, stack := m.stack.push (.obj name) }
  have ha := Heap.alloc_allocates hhealthy.tidy (.mk fun _ => held.roots) (.native n)
  have hhealthy₂ := hhealthy.alloc (.mk fun _ => held.roots) (o := .native n) (by simp [Object.kind])
    (by simp [Object.references]) hn
  have hkept : ∀ x, heap₁.Reachable held.roots x →
      (heap₁.alloc (.mk fun _ => held.roots) (.native n)).2.cell? x = heap₁.cell? x := fun x hx =>
    ha.keeps x (hx.mono fun r hr => List.mem_append_right _ hr)
  have hname : heap₁.Reachable held.roots name :=
    .root (mem_roots.2 (Or.inl (Array.mem_push_self))) hstring.contains
  have hs₂ := hs₁.heap_to hhealthy₂ (Heap.steady_of_cells fun x hx => hkept x (hx.mono fun r hr => ?_))
  · have hstring₂ : (heap₁.alloc (.mk fun _ => held.roots) (.native n)).2.IsString name := by
      obtain ⟨text, bytes, hc⟩ := hstring
      exact ⟨text, bytes, (hkept name hname).trans hc⟩
    have hnew := Heap.contains_of_cell? ha.new
    have hcontents₂ : (heap₁.alloc (.mk fun _ => held.roots) (.native n)).2.hasContents n.name name = true := by
      rwa [Heap.hasContents_congr (hkept name hname)]
    have hs₃ := hs₂.globals_to (hs₂.globals.insert hstring₂.contains (Run.in_obj hnew))
      (hs₂.keyed.set hstring₂ _)
    obtain ⟨-, -, hmap⟩ := hs₂.keyed.sound.set
      (show (⟨name, fnv1a n.name⟩ : Key).hash = _ from (Heap.hashOf_of_hasContents hcontents₂).symm) (.obj (heap₁.alloc (.mk fun _ => held.roots) (.native n)).1)
    rw [Array.pop_push]
    rw [Heap.hashOf_of_hasContents hcontents₂] at hs₃
    exact ⟨hs₃, name, _, _, hcontents₂, ha.new, hmap⟩
  · rcases mem_roots.1 hr with hv | hrest
    · exact mem_roots.2 (Or.inl (Array.mem_push.2 (Or.inl hv)))
    · exact mem_roots.2 (Or.inr hrest)

theorem sane_defineNative (hs : m.Sane) {n : Native} (hn : n.Honest) : (m.defineNative n).Sane :=
  (defineNative_spec hs hn).1

/-- **A fresh machine** has the clock, and no other global variable. -/
theorem create_spec (config : GcConfig) (keeps : Option Level) (sink : Sink) (clock : Nat → Number) :
    (create { config, journal := { keeps } } sink clock).Sane ∧ ∃ name h bytes,
      (create { config, journal := { keeps } } sink clock).heap.hasContents "clock" name = true ∧
      (create { config, journal := { keeps } } sink clock).heap.cell? h = some ⟨.native .clock, bytes⟩ ∧
      (create { config, journal := { keeps } } sink clock).globals.toMap =
        Function.update (fun _ => none) name (some (.obj h)) := by
  have hempty : ({ config, journal := { keeps } } : Heap).Healthy :=
    Heap.healthy_of_empty rfl rfl rfl rfl
  have hhealthy := hempty.intern (Thunk.pure []) "init"
  have hstring := Heap.isString_intern hempty.tidy (Thunk.pure []) "init"
  unfold create
  dsimp only
  generalize ({ config, journal := { keeps } } : Heap).intern (Thunk.pure []) "init" = interned at *
  obtain ⟨initName, heap⟩ := interned
  have hs : ({ heap, initName, sink, clock } : Machine).Sane :=
    ⟨hhealthy, Nat.zero_le _, Nat.zero_le _, by simp, by simp, Table.within_empty, Heap.keyed_empty,
      by simp, hstring⟩
  exact defineNative_spec hs fun _ _ => Or.inl rfl

theorem sane_create (config : GcConfig) (keeps : Option Level) (sink : Sink)
    (clock : Nat → Number) : (create { config, journal := { keeps } } sink clock).Sane :=
  (create_spec config keeps sink clock).1

/-- **A function is entered.** -/
theorem enter_tame (hs : m.Sane) {h : Handle} (hh : m.heap.kind? h = some .function) :
    Run.Tame (enter h) m fun _ m' => m'.Sane := by
  unfold enter
  refine (Run.push_same_heap hs (Run.in_obj (Heap.live_of_kind? hh))).bind fun _ m₁ h₁ => ?_
  obtain ⟨hs₁, hheap⟩ := h₁
  have hh₁ : m₁.heap.kind? h = some .function := hheap ▸ hh
  have hrefs : ∀ r ∈ (Object.closure { function := h }).references, m₁.heap.Live r := by
    intro r hr
    rw [List.mem_singleton.1 hr]
    exact Heap.live_of_kind? hh₁
  refine (Run.alloc_tame hs₁ (by simp [Object.kind]) hrefs ⟨hh₁, by simp⟩).bind fun x m₂ h₂ => ?_
  obtain ⟨hs₂, -, hcell, -⟩ := h₂
  refine (Run.pop_tame hs₂).bind fun _ m₃ h₃ => ?_
  obtain ⟨-, hs₃, hheap₃⟩ := h₃
  rw [← hheap₃] at hcell
  refine (Run.push_same_heap hs₃ (Run.in_obj (Heap.contains_of_cell? hcell))).bind fun _ m₄ h₄ => ?_
  rw [← h₄.2] at hcell
  exact Run.call_tame h₄.1 (Heap.kind?_of_cell? hcell) 0

/-! ## Runs -/

/-- **One step after another keeps the machine sane.** -/
theorem run_sane (hs : m.Sane) (fuel : Nat) :
    (m.run fuel).machine.Sane ∧ ∀ fault m', m.run fuel ≠ .failed (.fault fault) m' := by
  induction fuel generalizing m with
  | zero => exact ⟨hs, by simp [Machine.run]⟩
  | succ fuel ih =>
    have hstep := Run.execute_safe m hs
    unfold Run.Tame Run.Ends at hstep
    unfold Machine.run Machine.step
    cases hx : Run.execute m with
    | ok done m' =>
      rw [hx] at hstep
      cases done with
      | true => exact ⟨hstep, by simp⟩
      | false => exact ih hstep
    | error why m' =>
      rw [hx] at hstep
      obtain ⟨⟨r, rfl⟩, hsane⟩ := hstep
      exact ⟨hsane, by simp⟩

theorem Sane.reset (hs : m.Sane) : m.reset.Sane :=
  ⟨hs.heap, Nat.zero_le _, Nat.zero_le _, by simp [Machine.reset], by simp [Machine.reset],
    hs.globals, hs.keyed, by simp [Machine.reset], hs.initName⟩

theorem Assembled.sane (h : m.Assembled) : m.Sane := by
  induction h with
  | create config keeps sink clock => exact sane_create config keeps sink clock
  | native n _ hn ih => exact sane_defineNative ih hn
  | string s _ ih =>
    refine Run.Tame.leaves (Q := fun _ m' => m'.Sane) ?_ fun _ _ h => h
    exact (Run.intern_tame ih s).bind fun x m' hx => Run.push_tame hx.1 (Run.in_obj hx.2.contains)
  | object o _ hkind hrefs hfit ih =>
    refine Run.Tame.leaves (Q := fun _ m' => m'.Sane) ?_ fun _ _ h => h
    exact (Run.alloc_tame ih hkind hrefs hfit).bind fun x m' hx =>
      Run.push_tame hx.1 (Run.in_obj (Heap.contains_of_cell? hx.2.2.1))
  | drop _ ih => exact (Run.pop_tame ih).leaves fun _ _ h => h.2.1
  | enter h _ hh ih => exact (enter_tame ih hh).leaves fun _ _ h => h
  | run fuel _ ih => exact (run_sane ih fuel).1
  | reset _ ih => exact ih.reset

/-! ## What holds at every step -/

/-- The tables of a machine: its global variables and strings, the methods of its classes and the
fields of its instances. -/
inductive HasTable (m : Machine) : Table → Prop
  | globals : HasTable m m.globals
  | strings : HasTable m m.heap.strings
  | methods {h : Handle} {c : Class} {bytes : Nat} :
    m.heap.cell? h = some ⟨.cls c, bytes⟩ → HasTable m c.methods
  | fields {h : Handle} {i : Instance} {bytes : Nat} :
    m.heap.cell? h = some ⟨.inst i, bytes⟩ → HasTable m i.fields

/-- The limits are kept, every handle names an object, and the books are right. -/
structure Intact (m : Machine) : Prop where
  frames_le : m.frames.length ≤ 64
  stack_le : m.stack.size ≤ 16384
  stack : ∀ h, .obj h ∈ m.stack → m.heap.contains h = true
  frames : ∀ f ∈ m.frames, m.heap.contains f.closure = true ∧ m.heap.contains f.function = true
  globals : ∀ h ∈ m.globals.handles, m.heap.contains h = true
  opened : ∀ h ∈ m.openUpvalues, m.heap.contains h = true
  /-- Freed places are places of the arena. -/
  free : ∀ i ∈ m.heap.free, i < m.heap.entries.size
  /-- Bytes are given back only if they were charged. -/
  bytes : m.heap.bytes = m.heap.charges
  tables : ∀ t, m.HasTable t → t.Sound m.heap.hashOf
  reports : m.heap.Fair

theorem Sane.intact (hs : m.Sane) : m.Intact where
  frames_le := hs.length_le
  stack_le := hs.size_le
  stack := hs.stack
  frames f hf := by
    obtain ⟨c, bytes, hc, -⟩ := hs.frames f hf
    obtain ⟨fn, bytes', hfn, -⟩ := hs.function hf
    exact ⟨Heap.contains_of_cell? hc, Heap.contains_of_cell? hfn⟩
  globals := Table.within_iff.1 hs.globals
  opened u hu := Heap.live_of_kind? (hs.opened u hu)
  free i hi := by
    obtain ⟨generation, he⟩ := hs.heap.tidy.free_vacant i hi
    exact (Array.getElem?_eq_some_iff.1 he).1
  bytes := hs.heap.accounts
  tables t ht := by
    cases ht with
    | globals => exact hs.keyed.sound
    | strings => exact hs.heap.interned.sound
    | methods hc => exact (hs.heap.fit hc).2.sound
    | fields hc => exact (hs.heap.fit hc).2.sound
  reports := hs.heap.fair

end Machine

/-- **The machine is safe on any code.** Whatever a host has put together, and whatever code the
function has that it enters: entering it ends, or fails with a runtime error. From then on the
execution goes on, ends, or fails with a runtime error, and at every step the machine is intact.
By `Chunk.lines_size` the code has a line for every byte. Only traces and reports read the lines, no instruction does. -/
theorem run_any_code {m : Machine} (hm : m.Assembled) {function : Handle}
    (hf : m.heap.kind? function = some .function) :
    Run.Ends (fun why m' => (∃ e, why = .error e) ∧ m'.Intact) (Machine.enter function) m
      fun _ m₀ => ∀ fuel,
        (∃ m', m₀.run fuel = .running m' ∧ m'.Intact) ∨
        (∃ m', m₀.run fuel = .finished m' ∧ m'.Intact) ∨
        ∃ e m', m₀.run fuel = .failed (.error e) m' ∧ m'.Intact := by
  have henter := Machine.enter_tame hm.sane hf
  unfold Run.Tame Run.Ends at henter
  unfold Run.Ends
  cases hx : Machine.enter function m with
  | error why m' =>
    rw [hx] at henter
    exact ⟨henter.error, henter.sane.intact⟩
  | ok a m₀ =>
    rw [hx] at henter
    intro fuel
    obtain ⟨hsane, hfault⟩ := Machine.run_sane henter fuel
    cases hrun : m₀.run fuel with
    | running m' => exact Or.inl ⟨m', rfl, (hrun ▸ hsane).intact⟩
    | finished m' => exact Or.inr (Or.inl ⟨m', rfl, (hrun ▸ hsane).intact⟩)
    | failed why m' =>
      cases why with
      | error e => exact Or.inr (Or.inr ⟨e, m', rfl, (hrun ▸ hsane).intact⟩)
      | fault f => exact absurd hrun (hfault f m')

namespace Machine

/-- A machine that collects at every allocation. On its stack is the captured variable of a slot that is
not there. -/
def stray : Machine :=
  Run.leaves (do Run.push (.obj (← Run.alloc (.upvalue (.stacked 99))))) <|
    create { config := { stress := true }, journal := { keeps := none } } {} fun _ => ⟨0⟩

/-- Above it, a function that calls the captured variable, and whose code then breaks off. -/
def garbled : Machine :=
  Run.leaves (do Run.push (.obj (← Run.alloc (.function { chunk := {
    code := #[0, 0, 28, 0, 0], lines := #[1, 1, 1, 2, 2], constants := #[.obj ⟨3, 0⟩] } })))) stray

theorem assembled_garbled : garbled.Assembled := by
  have hstray : stray.Assembled := .object _ (.create _ none _ _) (by simp [Object.kind])
    (by simp [Object.references]) trivial
  refine .object _ hstray (by simp [Object.kind]) (fun r hr => ?_) fun n hn => by cases hn
  obtain rfl : r = ⟨3, 0⟩ := by simpa [Object.references, Value.handle?] using hr
  decide +kernel

end Machine

theorem run_any_code_garbled : Machine.garbled.heap.kind? ⟨4, 0⟩ = some .function ∧
    Run.Ends (fun why m' => (∃ e, why = .error e) ∧ m'.Intact) (Machine.enter ⟨4, 0⟩) Machine.garbled
      fun _ m₀ => ∀ fuel,
        (∃ m', m₀.run fuel = .running m' ∧ m'.Intact) ∨
        (∃ m', m₀.run fuel = .finished m' ∧ m'.Intact) ∨
        ∃ e m', m₀.run fuel = .failed (.error e) m' ∧ m'.Intact :=
  ⟨by decide +kernel, run_any_code Machine.assembled_garbled (by decide +kernel)⟩

end LoxMachine
