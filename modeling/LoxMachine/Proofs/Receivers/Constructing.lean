import LoxMachine.Proofs.Receivers.FirstSlots
import LoxMachine.Proofs.Receivers.Initializers
import LoxMachine.Proofs.Runs.Starting

/-!
# Calls of classes

* `Machine.Calls m v count`: the next instruction calls the value `v`, with some arguments.
* `Calls.instantiates` and `instantiate_begins`: if it is a class with an initializer, that is called on a new instance.
* `Machine.Constructs m x init count m'`: what is promised of such a call. Whenever the initializer returns, the new
  instance is the result.
* `receivers_sound`: what `this` and `super` are compiled to, and what follows for calls of classes.
-/

namespace LoxMachine

open Symbolic

variable {Q : FunctionKind → Nat → Code → Prop} {W : Machine → Closure → Sheet → Prop} {K : ClassDeclaration → Prop}
  {m₀ m m' : Machine} {n count base : Nat} {rest : List Frame} {x init : Handle} {C : Class} {c : Closure} {v : Value}
  {done : Bool}

theorem Heap.inst_congr {heap heap' : Heap} (h : heap'.cell? x = heap.cell? x) : heap'.inst x = heap.inst x := by
  unfold Heap.inst Heap.object
  rw [h]

theorem Heap.key_congr {heap heap' : Heap} (h : heap'.cell? x = heap.cell? x) : heap'.key x = heap.key x := by
  unfold Heap.key Heap.string Heap.object
  rw [h]

namespace Machine

/-- The next instruction calls a value with some arguments: as it stands below them, or as a field of the instance
below them. -/
inductive Calls (m : Machine) (v : Value) (count : Nat) : Prop
  | callee {f : Frame} {rest : List Frame} {g : Function} {b : UInt8} (frames : m.frames = f :: rest)
      (function : m.heap.function f.function = .ok g)
      (instruction : g.instructionAt? m.heap f.ip = some ⟨.call, [b]⟩) (count_eq : b.toNat = count)
      (here : m.stack[m.stack.size - 1 - count]? = some v)
  | field {f : Frame} {rest : List Frame} {g : Function} {i b : UInt8} {name target : Handle} {o : Instance} {key : Key}
      (frames : m.frames = f :: rest) (function : m.heap.function f.function = .ok g)
      (instruction : g.instructionAt? m.heap f.ip = some ⟨.invoke, [i, b]⟩) (count_eq : b.toNat = count)
      (constant : g.chunk.constants[i.toNat]? = some (.obj name))
      (here : m.stack[m.stack.size - 1 - count]? = some (.obj target)) (owner : m.heap.inst target = .ok o)
      (named : m.heap.key name = .ok key) (found : o.fields.get? key = some v)

/-- The state in which a class is instantiated, after the operands have been read. -/
structure Arrives (m : Machine) (caller : Frame) (outer : List Frame) (m' : Machine) : Prop where
  cells : ∀ x, m'.heap.cell? x = m.heap.cell? x
  healthy : m'.heap.Healthy
  initName : m'.initName = m.initName
  size : m'.stack.size = m.stack.size
  frames : m'.frames = caller :: outer

/-- **The call of a class** makes an instance of it. -/
theorem Calls.instantiates (h : m.Calls (.obj x) count) (hs : m.Sane) (hC : m.heap.cls x = .ok C)
    (hm : m.step = .ok done m') : done = false ∧ count < 256 ∧ ∃ f rest t m₁, m.frames = f :: rest ∧
      m.Arrives { f with ip := t } rest m₁ ∧ Run.instantiate x count m₁ = .ok () m' := by
  cases h with
  | @callee f rest g b frames function instruction count_eq here =>
    subst count_eq
    obtain ⟨heap, hcells, hs₁, hconsumes, hrun⟩ := Run.execute_performs hs frames function instruction
    obtain ⟨rfl, hcall⟩ := Run.perform_inv (hrun.symm.trans hm)
    obtain ⟨v, hv, hcall⟩ := Run.callInstruction_inv hconsumes hcall
    obtain rfl := Option.some.inj (hv.symm.trans here)
    refine ⟨rfl, b.toNat_lt, f, rest, f.ip + Instruction.size ⟨.call, [b]⟩,
      { m with heap, frames := { f with ip := f.ip + Instruction.size ⟨.call, [b]⟩ } :: rest }, frames,
      ⟨hcells, hs₁.heap, rfl, rfl, rfl⟩, ?_⟩
    exact Run.callValue_cls_inv ((Heap.cls_congr (hcells x)).trans hC) hcall
  | @field f rest g i b name target o key frames function instruction count_eq constant here owner named found =>
    subst count_eq
    obtain ⟨heap, hcells, hs₁, hconsumes, hrun⟩ := Run.execute_performs hs frames function instruction
    obtain ⟨rfl, hcall⟩ := Run.perform_inv (hrun.symm.trans hm)
    obtain ⟨name', target', o', key', hname, htarget, ho, hkey, hcall⟩ := Run.invoke_inv hconsumes hcall
    obtain ⟨f', rest', g', hf', hg', hconstant⟩ := hname
    cases hf'
    cases (function.symm.trans ((Heap.function_congr (hcells _)).symm.trans hg'))
    cases hconstant.symm.trans constant
    cases htarget.symm.trans here
    cases ho.symm.trans ((Heap.inst_congr (hcells target)).trans owner)
    cases hkey.symm.trans ((Heap.key_congr (hcells name)).trans named)
    rw [found] at hcall
    obtain ⟨_, m₂, hpoke, hcall⟩ := Run.bind_ok hcall
    obtain ⟨-, rfl⟩ := Run.poke_inv hpoke
    refine ⟨rfl, b.toNat_lt, f, rest, f.ip + Instruction.size ⟨.invoke, [i, b]⟩,
      { m with
        heap, frames := { f with ip := f.ip + Instruction.size ⟨.invoke, [i, b]⟩ } :: rest,
        stack := put m.stack (m.stack.size - 1 - b.toNat) (.obj x) }, frames,
      ⟨hcells, hs₁.heap, rfl, size_put _ _ _, rfl⟩, ?_⟩
    exact Run.callValue_cls_inv ((Heap.cls_congr (hcells x)).trans hC) hcall

/-- **A class with an initializer** calls it on a new instance. -/
theorem instantiate_calls (hs : m.heap.Healthy) (hname : m.heap.hasContents "init" m.initName = true)
    (hC : m.heap.cls x = .ok C) (hinit : C.methods.toMap m.initName = some (.obj init))
    (hclosure : m.heap.closure init = .ok c) (h : Run.instantiate x count m = .ok () m') : ∃ y heap,
      m.heap.contains y = false ∧ m.heap.Allocates m.roots (.inst { cls := x }) y heap ∧ count < m.stack.size ∧
        heap.closure init = .ok c ∧
          Run.call init count { m with heap, stack := put m.stack (m.stack.size - 1 - count) (.obj y) } = .ok () m' := by
  obtain ⟨y, heap, C', key, halloc, hC', hkey, hlt, hends⟩ := Run.instantiate_inv h
  have hfresh := Heap.alloc_fresh hs.tidy (.mk fun _ => m.roots) (.inst { cls := x })
  have ha := Heap.alloc_allocates hs.tidy (.mk fun _ => m.roots) (.inst { cls := x })
  rw [halloc] at hfresh ha
  obtain ⟨bytes, hcell'⟩ := Heap.cls_eq_ok_iff.1 hC'
  have hne : x ≠ y := by
    rintro rfl
    cases ha.new.symm.trans hcell'
  have hcell := ha.old hne hcell'
  obtain rfl := Except.ok.inj ((Heap.cls_of_cell? hcell).symm.trans hC)
  -- the name of initializers is still there
  have hroot : m.initName ∈ m.roots := mem_roots.2 (.inr (.inr (.inr (.inr rfl))))
  have hkept := (Names.of_allocates fun _ => ha : m.Names { m with heap }).contents hs.tidy _ hname
  obtain rfl := Except.ok.inj ((Run.key_of_contents hkept).symm.trans hkey)
  have hget : C'.methods.get? ⟨m.initName, heap.hashOf m.initName⟩ = some (.obj init) := by
    rw [Heap.hashOf_of_hasContents hkept, ← Heap.hashOf_of_hasContents hname]
    exact ((hs.fit hcell).2.sound.get? rfl).trans hinit
  -- so is the initializer
  have hretains : m.heap.Retains (fun z _ => z ≠ y) (fun _ => True) heap := .allocates ha fun hne => hne rfl
  have hwithin : C'.methods.Within (· ∈ C'.methods.handles) := Table.within_iff.2 fun _ => id
  obtain ⟨bytes', hinitial⟩ := Heap.closure_eq_ok_iff.1 hclosure
  have hstill := hretains.references hne hcell' (List.mem_cons_of_mem _ (hwithin.get? hget init rfl)) hinitial trivial
  refine ⟨y, heap, hfresh, ha, hlt, Heap.closure_of_cell? hstill, ?_⟩
  rcases hends with ⟨f, hf, hcall⟩ | hnone
  · cases hf.symm.trans hget
    exact hcall
  · exact absurd (Heap.kind?_of_cell? hstill) (hnone init hget)

/-- The initializer has been called, and the new instance is in its first slot. -/
theorem instantiate_begins (hs : m.heap.Healthy) (hname : m.heap.hasContents "init" m.initName = true)
    (hC : m.heap.cls x = .ok C) (hinit : C.methods.toMap m.initName = some (.obj init))
    (hclosure : m.heap.closure init = .ok c) (hcount : count < 256) (h : Run.instantiate x count m = .ok () m') :
    ∃ y f, m.heap.contains y = false ∧ m'.heap.inst y = .ok { cls := x } ∧ m'.frames = f :: m.frames ∧
      f.closure = init ∧ m'.heap.closure init = .ok c ∧ f.base + (count + 1) = m.stack.size ∧
        m'.stack[f.base]? = some (.obj y) := by
  obtain ⟨y, heap, hfresh, ha, hlt, hstill, hcall⟩ := instantiate_calls hs hname hC hinit hclosure h
  obtain ⟨c', hc', rfl⟩ := Run.call_inv hcall
  have hbase : (put m.stack (m.stack.size - 1 - count) (.obj y)).size - wrap (count + 1) = m.stack.size - 1 - count := by
    rw [size_put, wrap_of_lt (lt_trans (Nat.succ_lt_succ hcount) (by decide))]
    omega
  refine ⟨y, _, hfresh, Heap.inst_of_cell? ha.new, rfl, rfl, hstill, ?_, ?_⟩ <;> dsimp only <;> rw [hbase]
  · omega
  · exact getElem?_put_self _ (by omega)

/-- The class finds a method for the name of initializers. -/
def HasInitializer (m : Machine) (x : Handle) (v : Value) : Prop :=
  ∃ C name, m.heap.cls x = .ok C ∧ m.heap.hasContents "init" name = true ∧ C.methods.toMap name = some v

/-- **What is promised of a call of a class** with an initializer, which begins with the step from `m` to `m'`. The
receiver of the initializer is a new instance of the class, and that is the result. -/
inductive Constructs (m : Machine) (x : Handle) (init : Value) (count : Nat) (m' : Machine) : Prop
  | intro {caller f : Frame} {outer : List Frame} {t : Nat} {y : Handle} (before : m.frames = caller :: outer)
      (begun : m'.frames = f :: { caller with ip := t } :: outer) (callee : init = .obj f.closure)
      (base : f.base + (count + 1) = m.stack.size) (fresh : m.heap.contains y = false)
      (made : m'.heap.inst y = .ok { cls := x })
      (receiver : ∀ inside, m'.Lasts m'.frames.length inside → inside.stack[f.base]? = some (.obj y))
      (result : ∀ inside next done, m'.Lasts m'.frames.length inside → inside.step = .ok done next →
        done = false ∧ (next.frames.length < m'.frames.length →
          next.frames = { caller with ip := t } :: outer ∧
            next.stack.toList = inside.stack.toList.take f.base ++ [.obj y]))

/-- **The call of a class** that has an initializer. -/
theorem Calls.constructs (h : m.Calls (.obj x) count)
    (hcourse : ∀ {n m}, m₀.run n = .running m → ∃ r ref under, m₀.Course (Serves K) Apart K n m r ref under)
    (hsuits : m₀.Suits (Serves K) m) (hrun : m₀.run n = .running m) (hinit : m.HasInitializer x v)
    (hm : m.step = .ok done m') : done = false ∧ m.Constructs x v count m' := by
  obtain ⟨_, _, _, hcourse'⟩ := hcourse hrun
  have hs := hcourse'.tracks.orderly.sane
  obtain ⟨C, name, hC, hname, hmap⟩ := hinit
  obtain rfl := hs.heap.interned.unique name m.initName _ hname hsuits.named
  obtain ⟨init, c, s, rfl, hclosure, hwears, hkind⟩ := hsuits.initializers hC hmap
  obtain ⟨rfl, hcount, f, rest, t, m₁, hframes, harrives, hinst⟩ := h.instantiates hs hC hm
  refine ⟨rfl, ?_⟩
  obtain ⟨y, g, hfresh, hmade, hbegun, rfl, hstill, hbase, hslot⟩ := instantiate_begins harrives.healthy
    (by rw [harrives.initName, Heap.hasContents_congr (harrives.cells _)]; exact hsuits.named)
    ((Heap.cls_congr (harrives.cells x)).trans hC) (harrives.initName.symm ▸ hmap)
    ((Heap.closure_congr (harrives.cells init)).trans hclosure) hcount hinst
  rw [harrives.frames] at hbegun
  have hinitial : m₀.Initializing (Serves K) m' g.base ({ f with ip := t } :: rest) (.obj y) :=
    .intro hbegun (fun _ hg => absurd hg List.not_mem_nil) rfl hslot hstill hwears hkind
  have hlasts : ∀ {inside}, m'.Lasts m'.frames.length inside → ∃ k, m₀.run k = .running inside ∧
      m₀.Initializing (Serves K) inside g.base ({ f with ip := t } :: rest) (.obj y) := by
    intro inside hl
    rw [hbegun] at hl
    exact hinitial.lasts hcourse (List.cons_ne_nil _ _) (run_succ hrun hm) hl
  refine .intro hframes hbegun rfl (hbase.trans harrives.size) ?_ hmade (fun inside hl => ?_)
    fun inside next done hl hstep => ?_
  · rwa [Heap.contains, ← harrives.cells]
  · obtain ⟨k, -, hin⟩ := hlasts hl
    exact hin.slot
  · obtain ⟨k, hrun', hin⟩ := hlasts hl
    obtain ⟨_, _, _, hcourse'⟩ := hcourse hrun'
    obtain ⟨rfl, hnext⟩ := hin.step hcourse' (List.cons_ne_nil _ _) hstep
    refine ⟨rfl, fun hless => hnext.resolve_left fun hgoes => ?_⟩
    have hmore := hgoes.length_lt
    rw [hbegun, List.length_cons] at hless
    omega

end Machine

open Machine in
/-- **The receiver and the superclass are sound.** In the code of a source that compiles, `this` and `super` stand for
the first slot of the innermost method and for the superclass of the innermost class, and no assignment is to such a
variable. In its execution, the call of a class that has an initializer has a new instance of the class as its result,
whenever the initializer returns. -/
theorem receivers_sound (config : GcConfig) (keeps : Option Level) (sink : Sink) (clock : Nat → Number)
    (source : String) {h : Handle} {heap : Heap}
    (hcompile : compile source (create { config, journal := { keeps } } sink clock).heap
      (.mk fun _ => (create { config, journal := { keeps } } sink clock).roots) = (.ok h, heap)) :
    ∃ m₀, (create { config, journal := { keeps } } sink clock).load source = (none, m₀) ∧
      (∃ program, Parses source program) ∧
      (∀ program, Parses source program → CompilesTo heap h (script program) ∧
        List.Forall₂ Resolves (programMentions program) (accesses (script program) 0 none)) ∧
      ∀ n m m' x init count done, m₀.run n = .running m → m.Calls (.obj x) count → m.HasInitializer x init →
        m.step = .ok done m' → done = false ∧ m.Constructs x init count m' := by
  obtain ⟨live, hidle⟩ := idle_create config { keeps } sink clock
  obtain ⟨program, hp⟩ := exists_parses hcompile
  obtain ⟨m₀, hload, hstart, hnone⟩ := load_course (W := Machine.Apart) config keeps sink clock hp hcompile
    (serves_script hp.proper (hp.legal hcompile)) (fun m c s hc i place u p _ _ hu => by simp [hc] at hu) (·.charted)
  refine ⟨m₀, hload, ⟨program, hp⟩, fun program hp => ⟨hp.spells hidle.heap.tidy hcompile, ?_⟩,
    fun n m m' x init count done hrun hcalls hinit hm => ?_⟩
  · exact (script_corresponds hp.proper (hp.legal hcompile)).accesses none
  · have hcourse := fun {n m} => hstart.run_to (serves_inward _) (·.charted) Tracks.kept_apart (n := n) (m := m)
    have hsuits : m₀.Suits (Serves (· ∈ Declaration.listClasses program)) m₀ := by
      refine ⟨load_named hidle.heap.tidy (create_named config { keeps } sink clock) hcompile hload, fun {x C v} hC => ?_⟩
      obtain ⟨bytes, hcell⟩ := Heap.cls_eq_ok_iff.1 hC
      exact absurd (Heap.kind?_of_cell? hcell) (hnone x)
    exact hcalls.constructs hcourse (hsuits.run_to hcourse hrun) hrun hinit hm

/-- A class with an initializer, and a call of it. -/
def constructing : List Declaration :=
  [.cls "A" none [.mk "init" ["x"] [.statement (.expression (.setProperty .this "x" (.read "x")))]],
    .statement (.print (.call (.read "A") [.nil]))]

theorem parses_constructing : Parses "class A { init(x) { this.x = x; } } print A(nil);" constructing where
  notError := by
    have hkinds : (Source.ofString "class A { init(x) { this.x = x; } } print A(nil);").tokens.map Token.kind =
        [.kwClass, .identifier, .leftBrace, .identifier, .leftParen, .identifier, .rightParen, .leftBrace, .kwThis, .dot,
          .identifier, .equal, .identifier, .semicolon, .rightBrace, .rightBrace, .kwPrint, .identifier, .leftParen,
          .kwNil, .rightParen, .semicolon, .eof] := by decide +kernel
    intro t ht reason hkind
    have hmem := List.mem_map_of_mem (f := Token.kind) ht
    rw [hkinds, hkind] at hmem
    simp at hmem
  symbols_eq := by decide +kernel
  grammatical := by
    simp [constructing, Declaration.ListGrammatical, Declaration.Grammatical, Statement.Grammatical,
      Expression.Grammatical, Expression.ListGrammatical, Routine.ListGrammatical, Routine.Grammatical]
    decide

/-- The class with an initializer that is called by the next instruction. -/
def Machine.calledClass? (m : Machine) (count : UInt8) : Option (Handle × Value) := do
  let f ← m.frames.head?
  let g ← (m.heap.function f.function).toOption
  let i ← g.instructionAt? m.heap f.ip
  guard (i.op = .call ∧ i.args = [count])
  let x ← (← m.stack[m.stack.size - 1 - count.toNat]?).handle?
  let C ← (m.heap.cls x).toOption
  guard (m.heap.hasContents "init" m.initName = true)
  return (x, ← C.methods.toMap m.initName)

theorem Machine.calls_of_calledClass? {b : UInt8} (h : m.calledClass? b = some (x, v)) :
    m.Calls (.obj x) b.toNat ∧ m.HasInitializer x v := by
  simp only [calledClass?, Option.bind_eq_bind, Option.bind_eq_some_iff, Option.guard_eq_some'] at h
  obtain ⟨f, hf, g, hg, ⟨op, args⟩, hi, -, ⟨rfl, rfl⟩, w, hw, y, hy, C, hC, -, hname, v', hv, heq⟩ := h
  cases heq
  obtain ⟨rest, hframes⟩ := List.head?_eq_some_iff.1 hf
  obtain rfl : w = .obj x := by cases w <;> cases hy; rfl
  have hgot : ∀ {α : Type} {e : Except Fault α} {a : α}, e.toOption = some a → e = .ok a := by
    rintro α (_ | _) a ⟨⟩
    rfl
  exact ⟨.callee hframes (hgot hg) hi rfl hw, C, m.initName, hgot hC, hname, hv⟩

/-- Before the call in that source, the class and its initializer are there. -/
theorem receivers_sound_called : ∃ source h heap m₀ m m' x init,
    source = "class A { init(x) { this.x = x; } } print A(nil);" ∧
    compile source (Machine.create {}).heap (.mk fun _ => (Machine.create {}).roots) = (.ok h, heap) ∧
    Parses source constructing ∧ (Machine.create {}).load source = (none, m₀) ∧
    CompilesTo heap h (script constructing) ∧
    List.Forall₂ Resolves (programMentions constructing) (accesses (script constructing) 0 none) ∧
    m₀.run 8 = .running m ∧ m.Calls (.obj x) 1 ∧ m.HasInitializer x init ∧ m.step = .ok false m' ∧
      m.Constructs x init 1 m' := by
  have hp := parses_constructing
  generalize hs : "class A { init(x) { this.x = x; } } print A(nil);" = source at hp ⊢
  have hresult : (compile source (Machine.create {}).heap
      (.mk fun _ => (Machine.create {}).roots)).1.toOption.isSome = true := by
    subst hs
    decide +kernel
  have hruns : (((Machine.create {}).load source).2.run 9).isRunning = true := by
    subst hs
    decide +kernel
  have hcalled : ((((Machine.create {}).load source).2.run 8).machine.calledClass? 1).isSome = true := by
    subst hs
    decide +kernel
  rcases hcompile : compile source (Machine.create {}).heap (.mk fun _ => (Machine.create {}).roots)
    with ⟨_ | h, heap⟩
  · rw [hcompile] at hresult
    cases hresult
  · obtain ⟨m₀, hload, -, hcode, hcalls⟩ := receivers_sound {} none {} (fun _ => ⟨0⟩) source hcompile
    rw [show ((Machine.create {}).load source).2 = m₀ from congrArg Prod.snd hload] at hruns hcalled
    cases hrun : m₀.run 9 with
    | running m' =>
      obtain ⟨m, hrun', hm⟩ := Machine.run_succ_inv hrun
      rw [hrun'] at hcalled
      obtain ⟨⟨x, init⟩, hfound⟩ := Option.isSome_iff_exists.1 hcalled
      obtain ⟨hnext, hinit⟩ := Machine.calls_of_calledClass? hfound
      exact ⟨source, h, heap, m₀, m, m', x, init, rfl, hcompile, hp, hload, (hcode _ hp).1, (hcode _ hp).2, hrun', hnext,
        hinit, hm, (hcalls 8 m m' x init 1 false hrun' hnext hinit hm).2⟩
    | _ =>
      rw [hrun] at hruns
      cases hruns

end LoxMachine
