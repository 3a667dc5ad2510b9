import LoxMachine.Proofs.Runs.Following

/-!
# The calls of a run on charts

* `Sheet.Guides K s J`: the chart is one of the code of a sheet.
* `Machine.Stands m₀ Q W K m frames n`: the calls are at points of charts, where the innermost one has the slots up
  to `n`. A call that waits goes on with one more value than there are below its callee.
* `Stands.ahead`: what is in front of the innermost call.
* `Stands.step`: a step that is on the chart leads to points of charts again.
-/

namespace LoxMachine

open Symbolic

variable {Q : FunctionKind → Nat → Code → Prop} {W : Machine → Closure → Sheet → Prop}
  {K : ClassDeclaration → Prop} {m₀ m m' : Machine} {f : Frame} {rest frames : List Frame} {c : Closure} {s : Sheet}
  {g : Function} {i : Symbolic.Instruction} {mi : Instruction} {code : Code} {done : Bool} {J : Chart} {n : Nat}

/-- The chart is one of the code of the sheet. -/
structure Symbolic.Sheet.Guides (K : ClassDeclaration → Prop) (s : Sheet) (J : Chart) : Prop where
  boundary : ∀ x h, J x h → ∃ done rest, s.code = done ++ rest ∧ x = extent done
  follows : Symbolic.Follows K s.kind J J 0 s.code

namespace Machine

/-- The calls are at points of charts. -/
inductive Stands (m₀ : Machine) (Q : FunctionKind → Nat → Code → Prop) (W : Machine → Closure → Sheet → Prop)
    (K : ClassDeclaration → Prop) (m : Machine) : List Frame → Nat → Prop
  | nil (n : Nat) : Stands m₀ Q W K m [] n
  | cons {f : Frame} {rest : List Frame} {n : Nat} {c : Closure} {s : Sheet} {J : Chart}
      (closure : m.heap.closure f.closure = .ok c) (wears : m₀.Wears Q c s) (holds : W m c s)
      (guides : s.Guides K J) (here : J f.ip (n - f.base)) (below : Stands m₀ Q W K m rest (f.base + 1)) :
      Stands m₀ Q W K m (f :: rest) n

/-- The calls that stay are where they were. -/
theorem Stands.kept (h : m₀.Stands Q W K m frames n) (hkept : m₀.Kept Q W m m')
    (hrunning : ∀ f ∈ frames, ∃ c, m.Stays m' f.closure c) :
    m₀.Stands Q W K m' frames n := by
  induction h with
  | nil n => exact .nil n
  | cons closure wears holds guides here _ ih =>
    obtain ⟨hrun, hmore⟩ := List.forall_mem_cons.1 hrunning
    obtain ⟨c', hstays⟩ := hrun
    obtain rfl := Except.ok.inj (hstays.before.symm.trans closure)
    exact .cons hstays.after wears (hkept.old hstays holds) guides here (ih hmore)

/-- **What is in front of the innermost call.** -/
theorem Stands.ahead (h : m₀.Tracks Q W m) (hstands : m₀.Stands Q W K m m.frames m.stack.size) : ∃ f rest c s J code, m₀.Faces Q W m f rest c s code ∧ code ≠ [] ∧ s.Guides K J ∧
      Onward K s.kind J f.ip (m.stack.size - f.base) code ∧ m₀.Stands Q W K m rest (f.base + 1) := by
  generalize hframes : m.frames = frames at hstands
  generalize hn : m.stack.size = n at hstands
  cases hstands with
  | nil => exact absurd hframes h.stable.frames_ne_nil
  | @cons f rest _ c s J closure wears holds guides here below =>
    obtain ⟨done, code, hcode, hip⟩ := guides.boundary _ _ here
    have hat : m₀.Faces Q W m f rest c s code := ⟨hframes, closure, wears, holds, done, [], by simpa using hcode, hip.symm⟩
    have hne : code ≠ [] := by
      rintro rfl
      obtain ⟨g, hg, hof⟩ := hat.function h
      obtain ⟨mi, hi⟩ := h.instruction hframes hg
      have hlt := (instructionAt?_eq_some_iff.1 hi).1.length_le (List.cons_ne_nil _ _)
      have hsize := hof.spells.length_eq
      rw [Array.length_toList, hcode, List.append_nil, ← hip] at hsize
      rw [List.length_cons] at hlt
      omega
    refine ⟨f, rest, c, s, J, code, hat, hne, guides, ?_, below⟩
    have hon := guides.follows done code (n - f.base) hcode hne (by rwa [Nat.zero_add, ← hip])
    rwa [Nat.zero_add, ← hip] at hon

/-- The chart of a function that begins. -/
theorem Stands.enter (hK : ∀ {kind arity code}, Q kind arity code → Charted K kind arity code)
    (hc : m.heap.closure f.closure = .ok c) (hwears : m₀.Wears Q c s) (hw : W m c s) (hip : f.ip = 0)
    (harity : ∀ g, m₀.heap.function c.function = .ok g → n - f.base = g.arity + 1)
    (hbelow : m₀.Stands Q W K m rest (f.base + 1)) : m₀.Stands Q W K m (f :: rest) n := by
  obtain ⟨g, hg, hof⟩ := hwears
  cases hK hof.known with
  | @intro _ _ _ J start boundary follows inner =>
    refine .cons hc ⟨g, hg, hof⟩ hw (J := J) ⟨boundary, follows⟩ ?_ hbelow
    rw [hip, harity g hg, hof.takes]
    exact start

/-- **Where the calls go**, if the successors of the instruction are on the chart. -/
theorem Stands.moves (hQ : Inward Q) (hK : ∀ {kind arity code}, Q kind arity code → Charted K kind arity code)
    (h : m₀.Tracks Q W m) (hat : m₀.Faces Q W m f rest c s [i]) (hformed : i.Formed) (hguides : s.Guides K J)
    (hrest : m₀.Stands Q W K m rest (f.base + 1)) (hm : m.step = .ok false m') (hkept : m₀.Kept Q W m m')
    (hgoes : ∀ {L : Linkage} {mi : Instruction}, Spells L [i] (mi.op.toByte :: mi.args) → ∀ t d : Nat,
      ((t : Int), d) ∈ mi.successors f.ip (m.stack.size - f.base) → J t d)
    (hcalls : i.opcode.calls = true → i.opcode.needs i.count ≤ m.stack.size - f.base ∧
      J (f.ip + i.size) (i.after (m.stack.size - f.base))) : m₀.Stands Q W K m' m'.frames m'.stack.size := by
  have hnext := h.step hQ hat hformed hm hkept
  have hrunning : ∀ f' ∈ m'.frames, ∃ c, m.Stays m' f'.closure c := fun f' hf' =>
    let ⟨c, hstays, _⟩ := hat.running hQ h hformed hm hf'; ⟨c, hstays⟩
  obtain ⟨g, mi, hg, hof, hi, hspells⟩ := hat.reads h hformed
  -- the innermost call goes on at a point of its chart
  have hgo : ∀ {t d n : Nat} {below : List Frame}, m'.frames = below ++ { f with ip := t } :: rest → n - f.base = d →
      J t d → m₀.Stands Q W K m' ({ f with ip := t } :: rest) n := by
    intro t d n below hframes hn hJ
    have hmem : ∀ f' ∈ { f with ip := t } :: rest, f' ∈ m'.frames := fun f' hf' =>
      hframes ▸ List.mem_append_right _ hf'
    obtain ⟨c', hstays⟩ := hrunning { f with ip := t } (hmem _ List.mem_cons_self)
    obtain rfl := Except.ok.inj (hstays.before.symm.trans hat.closure)
    exact .cons hstays.after hat.wears (hkept.old hstays hat.holds) hguides (by rw [hn]; exact hJ)
      (hrest.kept hkept fun f' hf' => hrunning f' (hmem f' (List.mem_cons_of_mem _ hf')))
  cases Run.execute_moves h.stable hm with
  | inside before function instruction goes after size =>
    cases before.symm.trans hat.frames
    cases function.symm.trans hg
    cases instruction.symm.trans hi
    rw [after]
    exact hgo (show m'.frames = [] ++ _ from after) (by omega) (hgoes hspells _ _ goes)
  | @called _ callee _ _ k _ before function instruction calls after entered arity start base size =>
    cases before.symm.trans hat.frames
    cases function.symm.trans hg
    cases instruction.symm.trans hi
    have hcount := hspells.count hformed
    rw [hspells.opcode] at calls base
    obtain ⟨henough, hresumes⟩ := hcalls calls
    have hpops := (i.opcode.pops_le_needs i.count).trans henough
    rw [hspells.size] at after
    rw [hcount] at base size arity
    have hafter : callee.base + 1 - f.base = i.after (m.stack.size - f.base) := by
      rw [Symbolic.Instruction.after, Opcode.pushes_of_calls calls]
      have := h.stable.base_le_size hat.frames
      omega
    obtain ⟨c', ⟨-, hc', -⟩, hfunction⟩ := hat.running hQ h hformed hm (after ▸ List.mem_cons_self)
    obtain ⟨s', hwears', hw'⟩ := hnext.closures hc'
    have hbelow : m₀.Stands Q W K m' ({ f with ip := f.ip + i.size } :: rest) (callee.base + 1) :=
      hgo (show m'.frames = [callee] ++ _ from after) hafter hresumes
    rw [after]
    refine .enter hK hc' hwears' hw' start (fun g' hg' => ?_) hbelow
    rw [hfunction] at hg'
    obtain rfl := Except.ok.inj ((hnext.function entered).symm.trans hg')
    omega
  | returned before function instruction after size =>
    cases before.symm.trans hat.frames
    rw [after, size]
    exact hrest.kept hkept fun f' hf' => hrunning f' (after ▸ hf')

end Machine

end LoxMachine
