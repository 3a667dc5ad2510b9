import LoxMachine.Proofs.Machine.Failures

/-!
# After a failure

* `Machine.Sane.global?_eq_some_iff`: what can be seen of the table of global variables.
* `Machine.Unharmed m m'`: to the outside, `m'` is as `m`, but for objects that nothing but the receiver of a
  failing call leads to.
* `failure_leaves_intact`: so is the machine at the end of an interpretation that a runtime error ends, other
  than a full output, compared with the state before the failing instruction.
-/

namespace LoxMachine

namespace Machine

variable {m m' m₀ : Machine} {name : String} {v : Value}

/-! ## Global variables -/

/-- The value of a global variable is that of the one string which is its name. -/
theorem Sane.global?_eq_some_iff (hs : m.Sane) :
    m.global? name = some v ↔ ∃ h, m.heap.hasContents name h = true ∧ m.globals.toMap h = some v := by
  have hmap : ∀ h v, m.globals.toMap h = some v ↔ ∃ key, (key, v) ∈ m.globals.entries ∧ key.handle = h := fun h v =>
    (Table.toMap_eq_some_iff hs.keyed.sound.indexed).trans Table.maps_iff_mem_entries
  unfold global?
  constructor
  · intro hfound
    obtain ⟨⟨key, w⟩, hfind, rfl⟩ := Option.map_eq_some_iff.1 hfound
    have hname := List.find?_some hfind
    exact ⟨key.handle, hname, (hmap _ _).2 ⟨key, List.mem_of_find?_eq_some hfind, rfl⟩⟩
  · rintro ⟨h, hname, hv⟩
    obtain ⟨key, hmem, rfl⟩ := (hmap h v).1 hv
    have hfound : (m.globals.entries.find? fun pair => m.heap.hasContents name pair.1.handle).isSome :=
      List.find?_isSome.2 ⟨(key, v), hmem, hname⟩
    obtain ⟨pair, hfind⟩ := Option.isSome_iff_exists.1 hfound
    have hname' := List.find?_some hfind
    have hsame := hs.heap.interned.unique _ _ _ hname' hname
    have hpair := (hmap key.handle pair.2).2 ⟨pair.1, List.mem_of_find?_eq_some hfind, hsame⟩
    rw [hfind, Option.map_some, ← hpair, hv]

/-- The same map with the same strings holds the same variables. -/
theorem Sane.global?_congr (hs : m.Sane) (hs' : m'.Sane) (hmap : m'.globals.toMap = m.globals.toMap)
    (hcells : ∀ h ∈ m.globals.handles, m'.heap.cell? h = m.heap.cell? h) :
    m'.global? name = m.global? name := by
  ext v
  rw [hs.global?_eq_some_iff, hs'.global?_eq_some_iff, hmap]
  refine exists_congr fun h => and_congr_left fun hv => ?_
  obtain ⟨key, hmem, rfl⟩ :=
    Table.maps_iff_mem_entries.1 ((Table.toMap_eq_some_iff hs.keyed.sound.indexed).1 hv)
  rw [Heap.hasContents_congr (hcells _ (List.mem_flatMap.2 ⟨_, hmem, List.mem_cons_self⟩))]

/-! ## Failing -/

/-- To the outside all is as before: the variables, the output, and the objects that could be reached, but for
those to which only the receiver of a call led whose place a class has taken. -/
structure Unharmed (m m' : Machine) : Prop where
  globals : ∀ name, m'.global? name = m.global? name
  output : m'.sink = m.sink
  objects : ∀ x, m.heap.Reachable m.roots x → m'.heap.cell? x = m.heap.cell? x ∨
    m.Displaced [Opcode.invoke.toByte] x ∧ m'.heap.cell? x = none

/-- What a global variable leads to is not lost. -/
theorem Displaced.not_global {opcode : List UInt8} {x : Handle} (hx : m.Displaced opcode x) (hs : m.Sane) :
    x ∉ m.globals.handles := by
  intro hmem
  obtain ⟨-, -, -, -, -, -, -, -, hunreachable⟩ := hx
  exact hunreachable (.root (mem_roots.2 (.inr (.inr (.inr (.inl hmem)))))
    (hs.roots (mem_roots.2 (.inr (.inr (.inr (.inl hmem)))))))

theorem Spared.unharmed (h : m.Spared (m.Displaced [Opcode.invoke.toByte]) m') (hs : m.Sane) (hs' : m'.Sane) :
    m.Unharmed m'.reset where
  globals _ := hs.global?_congr hs'.reset h.globals fun x hx =>
    (h.objects x (hs.reachable_root (mem_roots.2 (.inr (.inr (.inr (.inl hx))))))).resolve_right fun hlost =>
      hlost.1.not_global hs hx
  output := h.sink
  objects := h.objects

/-- The step after those that have been taken fails. -/
theorem run_failed {why : Failure} {n fuel : Nat} (hrun : m₀.run n = .running m)
    (hstep : m.step = .error why m') (hfuel : n < fuel) : m₀.run fuel = .failed why m' := by
  induction n generalizing m₀ fuel with
  | zero =>
    obtain ⟨fuel, rfl⟩ := Nat.exists_eq_succ_of_ne_zero (Nat.ne_zero_of_lt hfuel)
    cases hrun
    rw [run, hstep]
  | succ n ih =>
    obtain ⟨fuel, rfl⟩ := Nat.exists_eq_succ_of_ne_zero (Nat.ne_zero_of_lt hfuel)
    rw [run] at hrun ⊢
    cases hfirst : m₀.step with
    | error why m₁ =>
      rw [hfirst] at hrun
      cases hrun
    | ok done m₁ =>
      rw [hfirst] at hrun
      cases done with
      | true => cases hrun
      | false => exact ih hrun (by omega)

end Machine

open Machine in
/-- **A failing instruction has no lasting effect.** In the execution of a source that compiles, whenever an
instruction fails with an error other than that of a full output, the interpretation ends with it, and leaves
the global variables, the output and the objects that could be reached as they were before that instruction.
Only the receiver of a failing call of a class in one of its fields, and what it alone led to, may have been
freed. -/
theorem failure_leaves_intact (config : GcConfig) (keeps : Option Level) (sink : Sink)
    (clock : Nat → Number) (source : String) {h : Handle} {heap : Heap}
    (hcompile : compile source (create { config, journal := { keeps } } sink clock).heap
      (.mk fun _ => (create { config, journal := { keeps } } sink clock).roots) = (.ok h, heap)) :
    ∃ m₀, (create { config, journal := { keeps } } sink clock).load source = (none, m₀) ∧
      ∀ n m m' e, m₀.run n = .running m → m.step = .error (.error e) m' → (∀ reason, e ≠ .output reason) →
        ∀ fuel > n, ∃ trace m'',
          (create { config, journal := { keeps } } sink clock).interpret source fuel = (.aborted e trace, m'') ∧
          m.Unharmed m'' := by
  obtain ⟨m₀, hload, hstable⟩ := load_stable config { keeps } sink clock hcompile
  refine ⟨m₀, hload, fun n m m' e hrun hstep hout fuel hfuel => ?_⟩
  have hfine := run_fine n hstable
  rw [hrun] at hfine
  have hallowed := Run.execute_meets hfine
  unfold Run.Meets Run.Ends at hallowed
  rw [show Run.execute m = _ from hstep] at hallowed
  obtain ⟨e', trace, huser, habort⟩ := abort_allowed hallowed
  have hran₀ : ∃ clean, Ran clean m₀ := by
    have h := (Ran.create config keeps sink clock).load source
    rw [hload] at h
    exact h.elim (fun h => ⟨_, h⟩) fun h => ⟨_, h.1⟩
  obtain ⟨clean, hran₀⟩ := hran₀
  have hran : Ran clean m := by
    have h := hran₀.run n
    rw [hrun] at h
    exact (h.resolve_right fun ⟨_, _, hfailed, _⟩ => by cases hfailed).1
  have hs' : m'.Sane := by
    rcases hran.step with ⟨done, m₁, hok, -⟩ | ⟨e', m₁, herror, h⟩
    · cases hok.symm.trans hstep
    · cases herror.symm.trans hstep
      exact h.orderly.sane
  have he : e' = e := by
    unfold abort at habort
    split at habort <;> cases habort
    rename_i heq _
    cases heq
    rfl
  subst he
  refine ⟨trace, m'.reset, ?_, Spared.unharmed ?_ hran.orderly.sane hs'⟩
  · unfold interpret resume
    rw [hload]
    dsimp only
    rw [run_failed hrun hstep hfuel]
    exact habort
  · have hspared : Run.Spares (m.Displaced [Opcode.invoke.toByte]) m Run.execute m fun _ _ => True :=
      Run.execute_spared hran.orderly.sane fun _ => id
    unfold Run.Spares Run.Ends at hspared
    rw [show Run.execute m = _ from hstep] at hspared
    exact hspared e' rfl huser hout

/-! ## Examples -/

/-- The machine, if its next step fails with a runtime error, with the error. -/
def Machine.Outcome.failing? : Outcome → Option (Machine × RuntimeError)
  | .running m =>
    match m.step with
    | .error (.error e) _ => some (m, e)
    | _ => none
  | _ => none

theorem Machine.Outcome.failing?_eq_some {o : Outcome} {m : Machine} {e : RuntimeError}
    (h : o.failing? = some (m, e)) : o = .running m ∧ ∃ m', m.step = .error (.error e) m' := by
  cases o with
  | running m₁ =>
    dsimp only [failing?] at h
    split at h
    · rename_i hstep
      cases h
      exact ⟨rfl, _, hstep⟩
    · cases h
  | _ => cases h

/-- The fourth instruction assigns to a variable that is not defined. -/
theorem failure_leaves_intact_assignment : ∃ source h heap m₀ m m', source = "var a = 1; b = a;" ∧
    compile source (Machine.create {}).heap (.mk fun _ => (Machine.create {}).roots) = (.ok h, heap) ∧
    (Machine.create {}).load source = (none, m₀) ∧ m₀.run 3 = .running m ∧
    m.step = .error (.error (.undefinedVariable "b")) m' ∧ ∃ trace m'',
      (Machine.create {}).interpret source 4 = (.aborted (.undefinedVariable "b") trace, m'') ∧ m.Unharmed m'' := by
  generalize hs : "var a = 1; b = a;" = source
  have hresult : (compile source (Machine.create {}).heap
      (.mk fun _ => (Machine.create {}).roots)).1.toOption.isSome = true := by
    subst hs
    decide +kernel
  have hfails : (((Machine.create {}).load source).2.run 3).failing?.map (·.2) =
      some (.undefinedVariable "b") := by
    subst hs
    decide +kernel
  rcases hcompile : compile source (Machine.create {}).heap (.mk fun _ => (Machine.create {}).roots)
    with ⟨_ | h, heap⟩
  · rw [hcompile] at hresult
    cases hresult
  · obtain ⟨m₀, hload, hleaves⟩ := failure_leaves_intact {} none {} (fun _ => ⟨0⟩) source hcompile
    rw [show ((Machine.create {}).load source).2 = m₀ from congrArg Prod.snd hload] at hfails
    obtain ⟨⟨m, e⟩, hfailing, rfl⟩ := Option.map_eq_some_iff.1 hfails
    obtain ⟨hrun, m', hstep⟩ := Machine.Outcome.failing?_eq_some hfailing
    exact ⟨source, h, heap, m₀, m, m', rfl, hcompile, hload, hrun, hstep,
      hleaves 3 m m' _ hrun hstep (fun _ hout => by cases hout) 4 (by omega)⟩

/-- A machine that collects before every allocation. -/
def Machine.stressed : Machine := create { config := { stress := true } }

/-- **The receiver of a failing call may be freed.** The class in the field has taken its place when the
instance is made that the initializer of the class then does not accept. -/
theorem failure_frees_receiver : ∃ source m₀ m m' x,
    source = "class A\x7binit(x)\x7b\x7d\x7d class B\x7b\x7d fun mk()\x7bvar b=B();b.f=A;return b;\x7d mk().f();" ∧
    Machine.stressed.load source = (none, m₀) ∧ m₀.run 22 = .running m ∧
    m.step = .error (.error (.arityMismatch 1 0)) m' ∧ m.heap.Reachable m.roots x ∧
    (Machine.stressed.interpret source 23).2.heap.cell? x ≠ m.heap.cell? x := by
  generalize hs : "class A\x7binit(x)\x7b\x7d\x7d class B\x7b\x7d fun mk()\x7bvar b=B();b.f=A;return b;\x7d mk().f();" =
    source
  have hloaded : (Machine.stressed.load source).1.isNone = true := by
    subst hs
    decide +kernel
  have hfails : ((Machine.stressed.load source).2.run 22).failing?.map (fun (m, e) =>
      (e, m.roots.contains ⟨15, 0⟩, m.heap.contains ⟨15, 0⟩)) = some (.arityMismatch 1 0, true, true) := by
    subst hs
    decide +kernel
  have hfreed : (Machine.stressed.interpret source 23).2.heap.contains ⟨15, 0⟩ = false := by
    subst hs
    decide +kernel
  rcases hload : Machine.stressed.load source with ⟨_ | report, m₀⟩
  · rw [hload] at hfails
    obtain ⟨⟨m, e⟩, hfailing, hm⟩ := Option.map_eq_some_iff.1 hfails
    obtain ⟨hrun, m', hstep⟩ := Machine.Outcome.failing?_eq_some hfailing
    obtain ⟨rfl, hfound⟩ := Prod.mk.inj hm
    obtain ⟨hroot, hthere⟩ := Prod.mk.inj hfound
    refine ⟨source, m₀, m, m', ⟨15, 0⟩, rfl, hload, hrun, hstep, .root (List.contains_iff_mem.1 hroot) hthere,
      fun heq => ?_⟩
    rw [Heap.contains, heq, ← Heap.contains, hthere] at hfreed
    cases hfreed
  · rw [hload] at hloaded
    cases hloaded

end LoxMachine
