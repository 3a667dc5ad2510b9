import LoxMachine.Proofs.Machine.Inversions
import LoxMachine.Proofs.Machine.Paths
import LoxMachine.Proofs.Symbolic.Sheets

/-!
# Following a run in symbolic code

A run starts in a machine `m₀` that holds the compiled code.

* `Machine.Wears m₀ Q c s`: the closure `c` is one of a function with the sheet `s`.
* `Machine.Tracks m₀ Q W m`: in the state `m`, all closures are such ones, and `W` holds of them.
* `Machine.Faces m₀ Q W m f rest s code`: the innermost call `f` is in front of the code.
* `Tracks.step`: a step from there leads to such a state again.
* `Machine.Stands m₀ Q W K m frames n`: the calls are at points of charts.
* `Stands.ahead` and `Stands.moves`: what is in front of the innermost call, and where it goes.
-/

namespace LoxMachine

open Symbolic

variable {Q : FunctionKind → Nat → Code → Prop} {W : Machine → Closure → Sheet → Prop}
  {K : ClassDeclaration → Prop} {m₀ m m' : Machine} {f : Frame} {rest : List Frame} {c : Closure} {s : Sheet}
  {g : Function} {i : Symbolic.Instruction} {mi : Instruction} {code : Code} {done : Bool} {J : Chart} {n : Nat}

theorem Heap.closure_congr {heap heap' : Heap} {x : Handle} (h : heap'.cell? x = heap.cell? x) :
    heap'.closure x = heap.closure x := by
  unfold Heap.closure Heap.object
  rw [h]

theorem pairs_flatMap (pairs : List (UInt8 × UInt8)) :
    Instruction.pairs (pairs.flatMap fun p => [p.1, p.2]) = pairs := by
  induction pairs with
  | nil => rfl
  | cons p pairs ih => simp [Instruction.pairs, ih]

theorem length_flatMap_pairs (pairs : List (UInt8 × UInt8)) :
    (pairs.flatMap fun p => [p.1, p.2]).length = 2 * pairs.length := by
  induction pairs with
  | nil => rfl
  | cons p pairs ih =>
    rw [List.flatMap_cons, List.length_append, ih, List.length_cons, List.length_cons, List.length_cons, List.length_nil]
    omega

namespace Machine

/-- The closure is one of a function with the sheet. -/
def Wears (m₀ : Machine) (Q : FunctionKind → Nat → Code → Prop) (c : Closure) (s : Sheet) : Prop :=
  ∃ g, m₀.heap.function c.function = .ok g ∧ s.Of Q m₀.heap g

/-- What holds in a state that `m₀` has come to. The functions and strings of the code are there, and every closure
is one of a function with a sheet. `W` holds of it. -/
structure Tracks (m₀ : Machine) (Q : FunctionKind → Nat → Code → Prop) (W : Machine → Closure → Sheet → Prop)
    (m : Machine) : Prop where
  stable : m.Stable
  orderly : m.Orderly True
  known : m₀.heap.Retains (fun _ k => k = .function) (fun k => k = .function ∨ k = .string) m.heap
  closures : ∀ {x : Handle} {c : Closure}, m.heap.closure x = .ok c → ∃ s, m₀.Wears Q c s ∧ W m c s

/-- The innermost call is in front of the code. -/
structure Faces (m₀ : Machine) (Q : FunctionKind → Nat → Code → Prop) (W : Machine → Closure → Sheet → Prop)
    (m : Machine) (f : Frame) (rest : List Frame) (c : Closure) (s : Sheet) (code : Code) : Prop where
  frames : m.frames = f :: rest
  closure : m.heap.closure f.closure = .ok c
  wears : m₀.Wears Q c s
  holds : W m c s
  lies : Lies s.code f.ip code

namespace Tracks

theorem function (h : m₀.Tracks Q W m) {x : Handle} (hg : m.heap.function x = .ok g) :
    m₀.heap.function x = .ok g := by
  obtain ⟨bytes, hcell⟩ := Heap.function_eq_ok_iff.1 hg
  exact Heap.function_eq_ok_iff.2 ⟨bytes, h.known.cells rfl hcell⟩

/-- A constant of a function that is there. -/
theorem constant (h : m₀.Tracks Q W m) {x y : Handle} {j : Nat} {cell : Cell} (hg : m.heap.function x = .ok g)
    (hy : g.chunk.constants[j]? = some (.obj y)) (hcell : m₀.heap.cell? y = some cell)
    (hkind : cell.object.kind = .function ∨ cell.object.kind = .string) : m.heap.cell? y = some cell := by
  obtain ⟨bytes, hx⟩ := Heap.function_eq_ok_iff.1 hg
  refine h.known.references (show (Cell.mk (.function g) bytes).object.kind = _ from rfl) hx ?_ hcell hkind
  exact List.mem_append_right _ (List.mem_filterMap.2
    ⟨_, Array.mem_toList_iff.2 (Array.mem_of_getElem? hy), rfl⟩)

/-- The innermost call is at an instruction. -/
theorem instruction (h : m₀.Tracks Q W m) (hf : m.frames = f :: rest) (hg : m.heap.function f.function = .ok g) :
    ∃ mi, g.instructionAt? m.heap f.ip = some mi := by
  have hfetches : ∃ i m₁, m.Fetches i m₁ := by
    have htransfers := Run.execute_transfers h.orderly.sane h.stable.frames_ne_nil
    cases hstep : Run.execute m with
    | ok done m' =>
      obtain ⟨i, m₁, hfetch, -⟩ := htransfers.of_ok hstep
      exact ⟨i, m₁, hfetch⟩
    | error e m' =>
      obtain ⟨⟨e, rfl, huser⟩, -⟩ := (Run.execute_meets h.stable).of_error hstep
      rcases htransfers.of_error hstep with hblames | ⟨i, m₁, hfetch, -⟩
      · rw [hblames e rfl] at huser
        cases huser
      · exact ⟨i, m₁, hfetch⟩
  obtain ⟨i, m₁, f', rest', g', hf', hg', hi, -⟩ := hfetches
  cases hf.symm.trans hf'
  cases hg.symm.trans hg'
  exact ⟨i, hi⟩

end Tracks

namespace Faces

/-- The function of the innermost call. -/
theorem function (h : m₀.Tracks Q W m) (hat : m₀.Faces Q W m f rest c s code) :
    ∃ g, m.heap.function f.function = .ok g ∧ s.Of Q m₀.heap g := by
  have hmem : f ∈ m.frames := hat.frames ▸ List.mem_cons_self
  obtain ⟨g, bytes, hcell, -⟩ := h.orderly.sane.function hmem
  obtain ⟨c', bytes', hc', hfunction⟩ := h.orderly.sane.frames f hmem
  obtain rfl := Except.ok.inj ((Heap.closure_of_cell? hc').symm.trans hat.closure)
  have hg := Heap.function_eq_ok_iff.2 ⟨bytes, hcell⟩
  obtain ⟨g', hg', hof⟩ := hat.wears
  rw [hfunction] at hg'
  obtain rfl := Except.ok.inj ((h.function hg).symm.trans hg')
  exact ⟨g, hg, hof⟩

theorem head (h : m₀.Faces Q W m f rest c s (i :: code)) : m₀.Faces Q W m f rest c s [i] :=
  { h with lies := h.lies.head }

/-- The instruction that the machine reads. -/
theorem reads (h : m₀.Tracks Q W m) (hat : m₀.Faces Q W m f rest c s [i]) (hformed : i.Formed) :
    ∃ g mi, m.heap.function f.function = .ok g ∧ s.Of Q m₀.heap g ∧
      g.instructionAt? m.heap f.ip = some mi ∧ Spells (s.linkage m₀.heap g) [i] (mi.op.toByte :: mi.args) := by
  obtain ⟨g, hg, hof⟩ := hat.function h
  obtain ⟨mi, hi⟩ := h.instruction hat.frames hg
  exact ⟨g, mi, hg, hof, hi, hof.reads h.function hat.lies hformed hi⟩

/-- A step performs the instruction. Its opcode has been read then. -/
theorem performs (h : m₀.Tracks Q W m) (hat : m₀.Faces Q W m f rest c s [i]) (hformed : i.Formed) :
    ∃ g mi heap, m.heap.function f.function = .ok g ∧ s.Of Q m₀.heap g ∧
      g.instructionAt? m.heap f.ip = some mi ∧ Spells (s.linkage m₀.heap g) [i] (mi.op.toByte :: mi.args) ∧
      (∀ x, heap.cell? x = m.heap.cell? x) ∧
      { m with heap, frames := { f with ip := f.ip + 1 } :: rest }.Orderly True ∧
      { m with heap, frames := { f with ip := f.ip + 1 } :: rest }.Consumes mi.args
        { m with heap, frames := { f with ip := f.ip + i.size } :: rest } ∧
      m.step = Run.perform mi.op { m with heap, frames := { f with ip := f.ip + 1 } :: rest } := by
  obtain ⟨g, mi, hg, hof, hi, hspells⟩ := hat.reads h hformed
  obtain ⟨heap, hcells, hs₁, hconsumes, hrun⟩ := Run.execute_performs h.orderly.sane hat.frames hg hi
  rw [hspells.size] at hconsumes
  have hquiet : m.Quiet { m with heap, frames := { f with ip := f.ip + 1 } :: rest } :=
    ⟨.of_cells hs₁.heap.tidy hcells, rfl⟩
  exact ⟨g, mi, heap, hg, hof, hi, hspells, hcells, hquiet.orderly h.orderly hs₁, hconsumes, hrun⟩

end Faces

/-! ## Steps -/

/-- The closure is still there, and its variables that are on the stack have been where they are. -/
structure Stays (m m' : Machine) (x : Handle) (c : Closure) : Prop where
  before : m.heap.closure x = .ok c
  after : m'.heap.closure x = .ok c
  stacked : ∀ u ∈ c.upvalues, ∀ p, m'.heap.OnStack u p → m.heap.OnStack u p

/-- What `W` has to satisfy: it holds of closures as long as they are there, and of those that are made. -/
structure Kept (m₀ : Machine) (Q : FunctionKind → Nat → Code → Prop) (W : Machine → Closure → Sheet → Prop)
    (m m' : Machine) : Prop where
  old : ∀ {x : Handle} {c : Closure} {s : Sheet}, m.Stays m' x c → W m c s → W m' c s
  new : ∀ {f : Frame} {rest : List Frame} {c : Closure} {s : Sheet} {kind : FunctionKind} {name : String} {arity : Nat}
    {captured : List (Nat × Nat)} {body : Code} {g : Function} {pairs : List (UInt8 × UInt8)} {new : Closure},
    m₀.Faces Q W m f rest c s [.closure kind name arity captured body] → W m' c s →
    List.Forall₂ (s.linkage m₀.heap g).Hands captured pairs →
    List.Forall₂ (m'.Obtains c f.base) pairs new.upvalues.toList →
    W m' new ⟨kind, some name, arity, captured, s.level + 1, body⟩

/-- An instruction that makes a closure. -/
theorem Faces.makesClosure {kind : FunctionKind} {name : String} {arity : Nat} {captured : List (Nat × Nat)} {body : Code}
    (hQ : Inward Q) (h : m₀.Tracks Q W m)
    (hat : m₀.Faces Q W m f rest c s [.closure kind name arity captured body]) (hm : m.step = .ok done m') :
    ∃ y new, m'.stack = m.stack.push (.obj y) ∧ m'.globals = m.globals ∧ m'.heap.closure y = .ok new ∧
      m₀.Wears Q new ⟨kind, some name, arity, captured, s.level + 1, body⟩ ∧
      (∃ g pairs, List.Forall₂ (s.linkage m₀.heap g).Hands captured pairs ∧
        List.Forall₂ (m'.Obtains c f.base) pairs new.upvalues.toList) ∧ (∀ f ∈ m'.frames, f.closure ≠ y) ∧
      m.heap.Keeps m.roots m'.heap ∧ m.heap.Retains (fun z k => k ≠ .upvalue ∧ z ≠ y) (fun _ => True) m'.heap := by
  obtain ⟨g, mi, heap, hg, hof, hi, hspells, hcells, ho₁, hconsumes, hrun⟩ := hat.performs h trivial
  rw [hrun] at hm
  obtain ⟨b, pairs, y, k, rfl, hconstant, hk, hinner, hands⟩ :=
    hof.closure hQ (hat.lies.mem (List.mem_singleton_self _)) hspells
  have hg₁ : heap.function f.function = .ok g := (Heap.function_congr (hcells _)).trans hg
  obtain ⟨bytes, hcell⟩ := Heap.function_eq_ok_iff.1 hk
  have hk₁ : heap.function y = .ok k :=
    Heap.function_eq_ok_iff.2 ⟨bytes, (hcells y).trans (h.constant hg hconstant hcell (.inl rfl))⟩
  obtain ⟨m₂, hbyte, hrest⟩ := hconsumes.uncons
  obtain ⟨x, us, pairs', g', hstack, hglobals, hclosure, hlength, hg', hholds, hobtains, hfresh, hkeeps,
    hretains⟩ := Run.makeClosure_inv ho₁ rfl ((Heap.closure_congr (hcells _)).trans hat.closure) hbyte
      ⟨_, rest, g, rfl, hg₁, hconstant⟩ hk₁ (Run.perform_inv hm).2
  -- the bytes that have been read are those of the instruction
  obtain rfl : g' = g := Except.ok.inj (hg'.symm.trans hg₁)
  obtain ⟨f', rest', hf', ⟨g'', hg'', hargs⟩, -⟩ := hconsumes
  cases hf'
  cases hg''.symm.trans hg₁
  have hsame := holds_unique hargs.tail hholds (by
    rw [length_flatMap_pairs, length_flatMap_pairs, hlength, ← hands.length_eq, hinner.count])
  obtain rfl : pairs = pairs' := (pairs_flatMap pairs).symm.trans ((congrArg _ hsame).trans (pairs_flatMap pairs'))
  have hroots : { m with heap, frames := { f with ip := f.ip + 1 } :: rest }.roots = m.roots :=
    roots_moved (m := { m with heap }) hat.frames _
  exact ⟨x, _, hstack, hglobals, hclosure, ⟨k, hk, hinner⟩, ⟨g', pairs, hands, hobtains⟩, hfresh,
    fun x hx => (hkeeps x (hroots ▸ hx.congr hcells)).trans (hcells x),
    .trans (.of_cells ho₁.sane.heap.tidy hcells) hretains⟩

/-- What a step does to objects of some kinds. -/
theorem Faces.retains {P R : ObjectKind → Prop} (h : m₀.Tracks Q W m) (hat : m₀.Faces Q W m f rest c s [i])
    (hformed : i.Formed) (hm : m.step = .ok done m')
    (hP : ∀ k, P k → .makes k ∉ i.opcode.effects ∧ .changes k ∉ i.opcode.effects)
    (hR : ∀ k, R k → .changes k ∉ i.opcode.effects) : m.heap.Retains (fun _ => P) R m'.heap := by
  obtain ⟨g, mi, hg, -, hi, hspells⟩ := hat.reads h hformed
  rw [← hspells.opcode] at hP hR
  exact (Run.execute_retains h.orderly.sane hat.frames hg hi hP hR).of_ok hm

/-- Objects of a kind that the instruction does not make have been there before. -/
theorem Faces.older (h : m₀.Tracks Q W m) (hat : m₀.Faces Q W m f rest c s [i]) (hformed : i.Formed)
    (hm : m.step = .ok done m') {k : ObjectKind} (hk : .makes k ∉ i.opcode.effects) {x : Handle}
    (hx : m'.heap.kind? x = some k) : m.heap.kind? x = some k := by
  obtain ⟨g, mi, hg, -, hi, hspells⟩ := hat.reads h hformed
  rw [← hspells.opcode] at hk
  exact (Run.execute_older h.orderly.sane hat.frames hg hi hk).of_ok hm hx

/-- A closure stays, if it is retained with the captured variables that it refers to. -/
theorem Stays.of_retains {P : Handle → ObjectKind → Prop} {R : ObjectKind → Prop} (h : m.heap.Healthy)
    (hretains : m.heap.Retains P R m'.heap) {x : Handle} (hP : P x .closure) (hR : R .upvalue)
    (hc : m'.heap.closure x = .ok c) : m.Stays m' x c := by
  obtain ⟨bytes, hcell⟩ := Heap.closure_eq_ok_iff.1 hc
  have hold := hretains.cells hP hcell
  refine ⟨Heap.closure_of_cell? hold, hc, fun u hu p hs => ?_⟩
  obtain ⟨o, bytes', hu', hkind⟩ := Heap.cell?_of_kind? ((h.fit hold).2 u hu)
  have hsame := hretains.references hP hcell (List.mem_cons_of_mem _ (Array.mem_toList_iff.2 hu)) hu' (hkind ▸ hR)
  exact hs.congr (hu'.trans hsame.symm)

/-- An instruction that makes no closure. -/
theorem Faces.stays (h : m₀.Tracks Q W m) (hat : m₀.Faces Q W m f rest c s [i]) (hformed : i.Formed)
    (hop : i.opcode ≠ .closure) (hm : m.step = .ok done m') {x : Handle} {c' : Closure}
    (hc : m'.heap.closure x = .ok c') : m.Stays m' x c' := by
  by_cases hwrites : i.opcode = .setUpvalue ∨ i.opcode = .closeUpvalue ∨ i.opcode = .ret
  · obtain ⟨g, mi, heap, -, -, -, hspells, hcells, -, -, hrun⟩ := hat.performs h hformed
    have hretains := hat.retains (P := (· = .closure)) (R := fun _ => False) h hformed hm (by
      rintro k rfl
      rcases hwrites with hwrites | hwrites | hwrites <;> rw [hwrites] <;> decide) nofun
    obtain ⟨bytes, hcell⟩ := Heap.closure_eq_ok_iff.1 hc
    refine ⟨Heap.closure_of_cell? (hretains.cells rfl hcell), hc, fun u _ p hs => ?_⟩
    rw [← hspells.opcode] at hwrites
    have := Run.perform_recedes hwrites
    rw [hrun] at hm
    exact ((Run.Along.ends (R := Recedes) (x := Run.perform mi.op)).of_ok hm u p hs).congr (hcells u).symm
  · refine .of_retains h.orderly.sane.heap (hat.retains (P := (· = .closure)) (R := (· = .upvalue)) h hformed hm ?_ ?_)
      rfl rfl hc
    · rintro k rfl
      revert hop
      cases i.opcode <;> decide
    · rintro k rfl
      revert hop hwrites
      cases i.opcode <;> decide

/-- A closure has been there before, or it is made by the step. -/
theorem Faces.closure_cases (hQ : Inward Q) (h : m₀.Tracks Q W m) (hat : m₀.Faces Q W m f rest c s [i])
    (hformed : i.Formed) (hm : m.step = .ok done m') {x : Handle} {new : Closure} (hnew : m'.heap.closure x = .ok new) :
    m.Stays m' x new ∨ (∀ f ∈ m'.frames, f.closure ≠ x) ∧
      ∃ kind name arity captured body g pairs, i = .closure kind name arity captured body ∧
        m₀.Wears Q new ⟨kind, some name, arity, captured, s.level + 1, body⟩ ∧
        List.Forall₂ (s.linkage m₀.heap g).Hands captured pairs ∧
        List.Forall₂ (m'.Obtains c f.base) pairs new.upvalues.toList := by
  by_cases hop : i.opcode = .closure
  · obtain ⟨kind, name, arity, captured, body, rfl⟩ := hformed.closure hop
    obtain ⟨y, new', -, -, hy, hwears, ⟨g, pairs, hands, hobtains⟩, hfresh, -, hretains⟩ := hat.makesClosure hQ h hm
    by_cases hx : x = y
    · subst hx
      obtain rfl := Except.ok.inj (hnew.symm.trans hy)
      exact .inr ⟨hfresh, kind, name, arity, captured, body, g, pairs, rfl, hwears, hands, hobtains⟩
    · exact .inl (.of_retains h.orderly.sane.heap hretains ⟨nofun, hx⟩ trivial hnew)
  · exact .inl (hat.stays h hformed hop hm hnew)

theorem effects_fixed (op : Opcode) : .makes .function ∉ op.effects ∧ .changes .function ∉ op.effects ∧
    .changes .string ∉ op.effects := by
  cases op <;> decide

/-- Control goes on after an instruction that neither jumps nor calls. -/
theorem Faces.goesOn (h : m₀.Tracks Q W m) (hat : m₀.Faces Q W m f rest c s [i]) (hformed : i.Formed)
    (hstraight : Symbolic.Instruction.Straight i.opcode) (hcalls : i.opcode.calls = false)
    (hm : m.step = .ok done m') : done = false ∧ m'.frames = { f with ip := f.ip + i.size } :: rest := by
  obtain ⟨g, mi, hg, hof, hi, hspells⟩ := hat.reads h hformed
  cases Run.execute_moves h.stable hm with
  | inside before function instruction goes after size =>
    cases before.symm.trans hat.frames
    cases function.symm.trans hg
    cases instruction.symm.trans hi
    obtain ⟨rfl, -⟩ := hspells.goes hformed hstraight goes
    exact ⟨rfl, after⟩
  | called before function instruction calls =>
    cases before.symm.trans hat.frames
    cases function.symm.trans hg
    cases instruction.symm.trans hi
    rw [hspells.opcode, hcalls] at calls
    cases calls
  | returned before function instruction | ended before function instruction =>
    cases before.symm.trans hat.frames
    cases function.symm.trans hg
    cases instruction.symm.trans hi
    exact absurd hspells.opcode.symm hstraight.1

/-- The closure of a call has been there before the step. -/
theorem Faces.running (hQ : Inward Q) (h : m₀.Tracks Q W m) (hat : m₀.Faces Q W m f rest c s [i]) (hformed : i.Formed)
    (hm : m.step = .ok done m') {f' : Frame} (hf' : f' ∈ m'.frames) :
    ∃ c, m.Stays m' f'.closure c ∧ c.function = f'.function := by
  have hs' := ((Run.execute_neat h.orderly).of_ok hm).sane
  obtain ⟨c', bytes, hcell, hfunction⟩ := hs'.frames f' hf'
  exact ⟨c', (hat.closure_cases hQ h hformed hm (Heap.closure_of_cell? hcell)).resolve_right
    fun hnew => hnew.1 f' hf' rfl, hfunction⟩

/-- **A step** from a state that follows the code. -/
theorem Tracks.step (hQ : Inward Q) (h : m₀.Tracks Q W m) (hat : m₀.Faces Q W m f rest c s [i]) (hformed : i.Formed)
    (hm : m.step = .ok false m') (hkept : m₀.Kept Q W m m') : m₀.Tracks Q W m' where
  stable := h.stable.step hm
  orderly := (Run.execute_neat h.orderly).of_ok hm
  known := by
    refine h.known.trans (hat.retains h hformed hm ?_ ?_)
    · rintro k rfl
      exact ⟨(effects_fixed _).1, (effects_fixed _).2.1⟩
    · rintro k (rfl | rfl)
      · exact (effects_fixed _).2.1
      · exact (effects_fixed _).2.2
  closures := by
    intro x new hnew
    rcases hat.closure_cases hQ h hformed hm hnew with hold |
      ⟨-, kind, name, arity, captured, body, g, pairs, rfl, hwears, hands, hobtains⟩
    · obtain ⟨s, hwears, hw⟩ := h.closures hold.before
      exact ⟨s, hwears, hkept.old hold hw⟩
    · -- the closure that makes it runs on
      obtain ⟨hop, hframes⟩ := hat.goesOn h trivial ⟨nofun, nofun, nofun, nofun⟩ rfl hm
      obtain ⟨c', hstays, -⟩ := hat.running hQ h trivial hm (hframes ▸ List.mem_cons_self)
      obtain rfl := Except.ok.inj (hstays.before.symm.trans hat.closure)
      exact ⟨_, hwears, hkept.new hat (hkept.old hstays hat.holds) hands hobtains⟩

end Machine

end LoxMachine
