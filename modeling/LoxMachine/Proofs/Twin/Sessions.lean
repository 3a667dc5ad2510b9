import LoxMachine.Proofs.Machine.Assembly
import LoxMachine.Proofs.Machine.Soundness
import LoxMachine.Proofs.Twin.Execution
import LoxMachine.Proofs.Twin.Parsing

/-!
# Collections cannot be observed

Two machines interpret the same sources, one after another, with the same clock. They may collect at
different times, so their handles differ; and they may report different amounts to their journals.

* `Machine.SameView` is what can be seen after a source: the report, the output, and the global
  variables with what they hold.
* `Abreast.interpret`: machines that are abreast give the same report on a source, and stay abreast.
* `collection_unobservable`: two fresh machines cannot be told apart, whatever their configurations
  are.
-/

namespace LoxMachine

namespace Machine

variable {R S : Pairing} {m m' : Machine}

/-! ## What can be seen -/

/-- The same value, or objects of the same kind with the same text. -/
inductive SameLook (heap heap' : Heap) : Value → Value → Prop
  | value {v : Value} : (∀ x, v ≠ .obj x) → SameLook heap heap' v v
  | object {x y : Handle} {kind : ObjectKind} {text : String} :
    heap.kindOf (.obj x) = .ok (some kind) → heap'.kindOf (.obj y) = .ok (some kind) →
    heap.display (.obj x) = .ok text → heap'.display (.obj y) = .ok text →
    SameLook heap heap' (.obj x) (.obj y)

/-- The same report, the same output, and global variables that look the same. -/
structure SameView (p p' : Report × Machine) : Prop where
  report : p.1 = p'.1
  output : p.2.sink = p'.2.sink
  globals : ∀ name,
    Option.Rel (SameLook p.2.heap p'.2.heap) (p.2.global? name) (p'.2.global? name)

/-- **Twin values look the same.** -/
theorem Twin.sameLook {v w : Value} (h : m.Twin R m') (hs : m.Sane) (hv : v.Twin R w) :
    SameLook m.heap m'.heap v w := by
  cases hv with
  | @obj x y hxy =>
    obtain ⟨cell, cell', hc, hc', htwin⟩ := h.heap.objects hxy
    obtain ⟨text, htext⟩ := hs.heap.display (v := .obj x) (Run.in_obj (Heap.contains_of_cell? hc))
    have hkind : m.heap.kindOf (.obj x) = .ok (some cell.object.kind) := by
      simp only [Heap.kindOf, Heap.object_of_cell? hc]
      rfl
    exact .object hkind ((h.heap.kindOf (.obj hxy)).eq_of_ok hkind) htext
      ((h.heap.display (.obj hxy)).eq_of_ok htext)
  | _ => exact .value (by simp)

/-- The variable of a name is found at the same place. -/
theorem find?_twin (h : m.Twin R m') (name : String) {l l' : List (Key × Value)}
    (hl : List.Forall₂ (Table.PairTwin R) l l') :
    Option.Rel (Table.PairTwin R) (l.find? fun (key, _) => m.heap.hasContents name key.handle)
      (l'.find? fun (key, _) => m'.heap.hasContents name key.handle) := by
  induction hl with
  | nil => exact .none
  | @cons p p' l l' hp _ ih =>
    rw [List.find?_cons, List.find?_cons]
    dsimp only
    rw [h.heap.hasContents_eq hp.handle name]
    cases m'.heap.hasContents name p'.1.handle with
    | true => exact .some hp
    | false => exact ih

/-- **The global variables look the same.** -/
theorem Abreast.global (h : m.Abreast m') (name : String) :
    Option.Rel (SameLook m.heap m'.heap) (m.global? name) (m'.global? name) := by
  obtain ⟨hs, hs', R, htwin⟩ := h
  have hfind := find?_twin htwin name htwin.globals.entries
  unfold global?
  generalize m.globals.entries.find? _ = r, m'.globals.entries.find? _ = r' at hfind ⊢
  cases hfind with
  | none => exact .none
  | some hp => exact .some (htwin.sameLook hs hp.value)

/-! ## Failures -/

theorem Sane.trace_ok (hs : m.Sane) : ∃ t, m.trace = .ok t := by
  refine Machine.trace_ok fun f hf => ?_
  obtain ⟨g, bytes, hcell, -⟩ := hs.function hf
  exact ⟨g, bytes, hcell, hs.heap.fit hcell⟩

/-- **The traces of twin machines are the same.** -/
theorem Twin.trace (h : m.Twin R m') : LoxMachine.Alike Eq m.trace m'.trace := by
  refine (LoxMachine.Alike.mapM (C := Eq) h.frames fun f f' hf => ?_).mono fun t t' ht =>
    List.forall₂_eq_eq_eq ▸ ht
  refine (h.heap.function (hf.functions h.heap)).bind fun g g' hg => ?_
  dsimp only
  rw [hg.chunk.lineAt, hf.ip]
  have hname := hg.name
  generalize g.name = name, g'.name = name' at hname
  cases hname with
  | none => exact .ok rfl
  | some hxy =>
    refine LoxMachine.Alike.bind (h.heap.contents hxy).map fun s s' hs => ?_
    rw [hs]
    exact .ok rfl

/-- The same report, of machines that are abreast. -/
structure SameReport (p p' : Report × Machine) : Prop where
  report : p.1 = p'.1
  abreast : p.2.Abreast p'.2

/-- **A failure is reported with the same trace.** -/
theorem Abreast.abort (h : m.Abreast m') (e : RuntimeError) :
    SameReport (m.abort (.error e)) (m'.abort (.error e)) := by
  obtain ⟨hs, hs', R, htwin⟩ := h
  obtain ⟨t, ht⟩ := hs.trace_ok
  have ht' := htwin.trace.eq_of_ok ht
  simp only [Machine.abort, ht, ht']
  exact ⟨rfl, hs.reset, hs'.reset, R, { htwin with stack := .nil, frames := .nil, opened := .nil }⟩

/-! ## Interpretation -/

theorem Abreast.resume (h : m.Abreast m') (fuel : Nat) :
    SameReport (m.resume fuel) (m'.resume fuel) := by
  have hrun := h.run fuel
  unfold Machine.resume
  generalize m.run fuel = r, m'.run fuel = r' at hrun ⊢
  cases hrun with
  | finished h => exact ⟨rfl, h⟩
  | running h => exact ⟨rfl, h⟩
  | failed e h => exact h.abort e

theorem enter_agree {f f' : Handle} (h : m.Twin R m') (hf : R f f') :
    Run.Agree (enter f) (enter f') m m' Run.Together := by
  unfold enter
  refine (Run.push_agree h (.obj hf)).bind fun _ _ n n' hn => ?_
  refine (Run.alloc_agree hn (.closure hf .nil) (by simp [Object.kind])).bind fun x y k k' hk => ?_
  obtain ⟨S, hxy, hk, -⟩ := hk
  refine (Run.pop_agree hk).bind fun _ _ l l' hl => ?_
  exact (Run.push_agree hl.2 (.obj hxy)).bind fun _ _ p p' hp => Run.call_agree hp hxy 0

/-- A source has been compiled. -/
theorem Abreast.compiled {new new' : Heap} (hs : m.Sane) (hs' : m'.Sane) (h : m.Twin R m')
    (hc : Heap.Carries R S m.roots m'.roots m.heap m'.heap new new') (hn : new.Healthy)
    (hn' : new'.Healthy) : { m with heap := new }.Abreast { m' with heap := new' } where
  sane := hs.heap_to hn (Heap.steady_of_cells hc.kept)
  sane' := hs'.heap_to hn' (Heap.steady_of_cells hc.kept')
  twin := ⟨S, h.carry hc (fun _ hr => hr) fun _ hr => hr⟩

/-- **The same report is given on a source.** -/
theorem Abreast.interpret (h : m.Abreast m') (source : String) (fuel : Nat) :
    SameReport (m.interpret source fuel) (m'.interpret source fuel) := by
  obtain ⟨hs, hs', R, htwin⟩ := h
  obtain ⟨S, hresult, hcarries, hn, hn'⟩ := compile_twin htwin.heap hs.heap hs'.heap source
    (.mk fun _ => m.roots) (.mk fun _ => m'.roots)
  have habreast := Abreast.compiled hs hs' htwin hcarries hn hn'
  have htwin₁ := htwin.carry hcarries (fun _ hr => hr) fun _ hr => hr
  unfold Machine.interpret
  rcases hp : compile source m.heap (.mk fun _ => m.roots) with ⟨result, new⟩
  rcases hp' : compile source m'.heap (.mk fun _ => m'.roots) with ⟨result', new'⟩
  rw [hp, hp'] at hresult habreast htwin₁
  cases hresult with
  | error errors =>
    rw [load_rejected hp, load_rejected hp']
    exact ⟨rfl, habreast⟩
  | @ok f f' hf hkind hkind' =>
    have henter := enter_agree htwin₁ hf
    have htame := enter_tame habreast.sane hkind
    have htame' := enter_tame habreast.sane' hkind'
    unfold Run.Agree at henter
    unfold Run.Tame Run.Ends at htame htame'
    dsimp only at henter htame htame'
    rcases he : enter f { m with heap := new } with ⟨_, n⟩ | ⟨why, n⟩ <;>
      rcases he' : enter f' { m' with heap := new' } with ⟨_, n'⟩ | ⟨why', n'⟩ <;>
      rw [he, he'] at henter <;> rw [he] at htame <;> rw [he'] at htame'
    · cases henter with
      | ok hn =>
        rw [load_started hp he, load_started hp' he']
        exact Abreast.resume ⟨htame, htame', hn.2⟩ fuel
    · cases henter
    · cases henter
    · rw [load_aborted hp he, load_aborted hp' he']
      cases henter with
      | error e hn => exact Abreast.abort ⟨htame.sane, htame'.sane, _, hn⟩ e
      | fault g g' _ _ =>
        obtain ⟨e, he⟩ := htame.error
        cases he

/-! ## Fresh machines -/

/-- The result of a uniform native function does not depend on the handles. -/
theorem Twin.defineNative {n : Native} (h : m.Twin R m') (hn : n.Uniform) :
    ∃ S, (m.defineNative n).Twin S (m'.defineNative n) := by
  obtain ⟨S, hname, hc⟩ := h.heap.intern (.mk fun _ => m.roots) (.mk fun _ => m'.roots) n.name
  have h₁ := h.carry hc (fun _ hr => hr) fun _ hr => hr
  unfold Machine.defineNative
  dsimp only
  generalize m.heap.intern (.mk fun _ => m.roots) n.name = p at hname hc h₁ ⊢
  generalize m'.heap.intern (.mk fun _ => m'.roots) n.name = p' at hname hc h₁ ⊢
  obtain ⟨name, heap₁⟩ := p
  obtain ⟨name', heap₁'⟩ := p'
  -- the names are on the stacks while the function is made
  have h₂ := h₁.stack_to (h₁.stack.push (.obj hname))
  obtain ⟨T, hxy, hc₂⟩ := h₂.heap.alloc
    (.mk fun _ => roots { m with heap := heap₁, stack := m.stack.push (.obj name) })
    (.mk fun _ => roots { m' with heap := heap₁', stack := m'.stack.push (.obj name') })
    (.native hn) (by simp [Object.kind])
  have h₃ := h₂.carry hc₂ (fun _ hr => List.mem_append_right _ hr)
    fun _ hr => List.mem_append_right _ hr
  have hkept : T name name' := hc₂.pairs hname
    (.root (List.mem_append_right _ (mem_roots.2 (Or.inl Array.mem_push_self)))
      (h₂.heap.contains hname))
    (.root (List.mem_append_right _ (mem_roots.2 (Or.inl Array.mem_push_self)))
      (h₂.heap.contains' hname))
  exact ⟨T, (h₃.stack_to h₃.stack.pop).globals_to
    (h₃.globals.insert h₃.heap.unique hkept (.obj hxy))⟩

/-- **Fresh machines are abreast.** -/
theorem abreast_create (config config' : GcConfig) (keeps keeps' : Option Level) (sink : Sink)
    (clock : Nat → Number) :
    (create { config, journal := { keeps } } sink clock).Abreast
      (create { config := config', journal := { keeps := keeps' } } sink clock) := by
  refine ⟨sane_create config keeps sink clock, sane_create config' keeps' sink clock, ?_⟩
  have hempty : ({ config, journal := { keeps } } : Heap).Twin (fun _ _ => False)
      { config := config', journal := { keeps := keeps' } } :=
    Heap.twin_of_empty rfl rfl rfl rfl
  obtain ⟨S, hinit, hc⟩ := hempty.intern (Thunk.pure []) (Thunk.pure []) "init"
  unfold create
  dsimp only
  generalize ({ config, journal := { keeps } } : Heap).intern (Thunk.pure []) "init" = p at hinit hc ⊢
  generalize ({ config := config', journal := { keeps := keeps' } } : Heap).intern (Thunk.pure [])
    "init" = p' at hinit hc ⊢
  obtain ⟨initName, heap⟩ := p
  obtain ⟨initName', heap'⟩ := p'
  have hstart : Twin S { heap, initName, sink, clock }
      { heap := heap', initName := initName', sink, clock } :=
    ⟨hc.twin, .nil, .nil, Table.twin_empty, .nil, hinit, rfl, rfl, rfl⟩
  exact hstart.defineNative fun R reading _ _ _ => .number reading

/-! ## Sessions -/

/-- The reports on sources that are interpreted one after another, each with the machine that is left.
A source comes with the number of steps that it may take. -/
def session (m : Machine) : List (String × Nat) → List (Report × Machine)
  | [] => []
  | (source, fuel) :: calls =>
    let result := m.interpret source fuel
    result :: result.2.session calls

theorem Abreast.session (h : m.Abreast m') (calls : List (String × Nat)) :
    List.Forall₂ SameReport (m.session calls) (m'.session calls) := by
  induction calls generalizing m m' with
  | nil => exact .nil
  | cons call calls ih =>
    obtain ⟨source, fuel⟩ := call
    have hreport := h.interpret source fuel
    exact .cons hreport (ih hreport.abreast)

end Machine

open Machine in
/-- **Collections cannot be observed.** Two fresh machines with the same output and the same clock
interpret sources one after another, each for a number of steps. Whatever their configurations and
journals are, the machines report the same on every source (that it has finished or not, the same
compile errors, or the same runtime error with the same trace), print the same, and their global
variables look the same after it. -/
theorem collection_unobservable (config config' : GcConfig) (keeps keeps' : Option Level)
    (sink : Sink) (clock : Nat → Number) (calls : List (String × Nat)) :
    List.Forall₂ SameView
      ((create { config, journal := { keeps } } sink clock).session calls)
      ((create { config := config', journal := { keeps := keeps' } } sink clock).session calls) := by
  refine ((abreast_create config config' keeps keeps' sink clock).session calls).imp fun p p' h => ?_
  obtain ⟨R, htwin⟩ := h.abreast.twin
  exact ⟨h.report, htwin.sink, h.abreast.global⟩

end LoxMachine
