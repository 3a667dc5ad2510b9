import LoxMachine.Proofs.Machine.CallInversions
import LoxMachine.Proofs.Receivers.Sparing
import LoxMachine.Proofs.Runs.Inheritance

/-!
# The first slots of calls

The first slot of a call holds the callee or the receiver. No instruction writes to it as long as the call is active.

* `Faces.below`: an instruction leaves what is below its operands, unless it writes to a variable or returns.
* `Machine.Upcoming m f kind i`: what is known of the instruction that is next, and `Course.ahead`: it is known of it.
* `Faces.keeps_first`: an instruction that does not return leaves the first slots of all calls.
* `Machine.Initializing m₀ Q m base rest v`: an initializer is active, with the receiver `v`.
* `Initializing.step` and `Initializing.lasts`: it is so until it returns, and then the receiver is the result.
-/

namespace LoxMachine

open Symbolic

variable {Q : FunctionKind → Nat → Code → Prop} {W : Machine → Closure → Sheet → Prop} {K : ClassDeclaration → Prop}
  {m₀ m m' ref inside : Machine} {n r lo base : Nat} {under : Option Handle} {f : Frame} {rest : List Frame} {c : Closure}
  {s : Sheet} {i : Symbolic.Instruction} {kind : FunctionKind} {v : Value} {done : Bool}

/-! ## Instructions that write to variables -/

theorem Symbolic.Instruction.Formed.setLocal (h : i.Formed) (hop : i.opcode = .setLocal) :
    ∃ slot name, i = .set (.own slot name) := by
  cases i with
  | set v => cases v <;> first | exact ⟨_, _, rfl⟩ | cases hop
  | op o | named o name | invoke o name count =>
    obtain rfl : o = .setLocal := hop
    cases h
  | jump o distance =>
    obtain rfl : o = .setLocal := hop
    rcases h with h | h <;> cases h
  | get v => cases v <;> cases hop
  | _ => cases hop

theorem Symbolic.Instruction.Formed.setUpvalue (h : i.Formed) (hop : i.opcode = .setUpvalue) :
    ∃ place name, i = .set (.outer place name) := by
  cases i with
  | set v => cases v <;> first | exact ⟨_, _, rfl⟩ | cases hop
  | op o | named o name | invoke o name count =>
    obtain rfl : o = .setUpvalue := hop
    cases h
  | jump o distance =>
    obtain rfl : o = .setUpvalue := hop
    rcases h with h | h <;> cases h
  | get v => cases v <;> cases hop
  | _ => cases hop

namespace Machine

/-! ## What instructions leave -/

/-- **An instruction leaves what is below its operands**, unless it writes to a variable or returns. -/
theorem Faces.below (h : m₀.Tracks Q W m) (hat : m₀.Faces Q W m f rest c s [i]) (hformed : i.Formed)
    (hlocal : i.opcode ≠ .setLocal) (hupvalue : i.opcode ≠ .setUpvalue) (hret : i.opcode ≠ .ret)
    (hm : m.step = .ok done m') (hlo : lo + i.opcode.needs i.count ≤ m.stack.size) : m.SameBelow lo m' := by
  obtain ⟨g, ⟨op, args⟩, heap, -, -, hi, hspells, -, -, hconsumes, hrun⟩ := hat.performs h hformed
  rw [hrun] at hm
  rw [← hspells.count hformed] at hlo
  obtain rfl : op = i.opcode := hspells.opcode
  have hsame := Run.perform_below hconsumes (instructionAt?_eq_some_iff.1 hi).2 hlocal hupvalue hret hlo hm
  exact hsame

/-- A jump leaves the stack as it is. -/
theorem Faces.jumps {op : Opcode} {distance : Nat} (h : m₀.Tracks Q W m)
    (hat : m₀.Faces Q W m f rest c s [.jump op distance])
    (hformed : (Symbolic.Instruction.jump op distance).Formed) (hm : m.step = .ok done m') : m'.stack = m.stack := by
  obtain ⟨g, mi, heap, -, -, -, hspells, -, -, -, hrun⟩ := hat.performs h hformed
  obtain rfl : mi.op = op := hspells.opcode
  rw [hrun] at hm
  generalize mi.op = op at *
  cases op with
  | jump | jumpIfFalse | loop =>
    have hstack := Run.Still.same (Run.perform_inv hm).2
    exact hstack
  | _ => rcases hformed with hformed | hformed <;> cases hformed

/-! ## The next instruction -/

/-- What is known of the next instruction in a call: its operands are above the first slot, unless it jumps or returns.
An initializer returns what is in the first slot. -/
inductive Upcoming (m : Machine) (f : Frame) (kind : FunctionKind) : Symbolic.Instruction → Prop
  | above {i : Symbolic.Instruction} (goes : i.opcode ≠ .ret) (enough : f.base + i.opcode.needs i.count < m.stack.size) :
    Upcoming m f kind i
  | jump {op : Opcode} {distance : Nat} (goes : op ≠ .ret) (calls : op.calls = false) :
    Upcoming m f kind (.jump op distance)
  | ret (receiver : kind = .initializer → m.stack.back? = m.stack[f.base]?) : Upcoming m f kind (.op .ret)

/-- **What is next** before every step. -/
theorem Course.ahead (h : m₀.Course Q W K n m r ref under) (hm : m.step = .ok done m') :
    ∃ f rest c s i, m₀.Faces Q W m f rest c s [i] ∧ i.Formed ∧ m.Upcoming f s.kind i := by
  cases h.stage with
  | @inside p _ begins known spot guides next =>
    obtain ⟨i, todo, extra, values, methods, hamid, hinside, -⟩ := spot.next h.run
    obtain ⟨ip, -, hat⟩ := hamid.faces
    refine ⟨_, _, _, _, i, hat.head, hinside.formed, .above hinside.goes ?_⟩
    have hsize : m.stack.size = p.before.stack.size + extra.length := by
      rw [← Array.length_toList, hamid.stack, List.length_append, Array.length_toList]
    have habove := begins.fits.above
    have henough := hinside.enough
    change p.frame.base + _ < _
    omega
  | receiver faces stands top => exact ⟨_, _, _, _, _, faces.head, rfl, .ret fun _ => top⟩
  | outside stands =>
    obtain ⟨f, rest, c, s, J, code, hat, -, hguides, hon, hrest⟩ := stands.ahead h.tracks
    cases hon with
    | plain plain enough => exact ⟨_, _, _, _, _, hat.head, plain.formed, .above plain.straight.1 (by omega)⟩
    | ret free => exact ⟨_, _, _, _, _, hat.head, rfl, .ret fun hkind => absurd hkind free⟩
    | receiver =>
      obtain ⟨x, hx, -⟩ := hat.head.gets h.tracks hm
      exact ⟨_, _, _, _, _, hat.head, trivial, .above nofun (Array.getElem?_eq_some_iff.1 hx).1⟩
    | jump | jumpIfFalse => exact ⟨_, _, _, _, _, hat.head, .inl rfl, .jump nofun rfl⟩
    | loop => exact ⟨_, _, _, _, _, hat.head, .inr rfl, .jump nofun rfl⟩
    | declares known fits => 
      have habove := fits.above
      exact ⟨_, _, _, _, _, hat.head, rfl, .above nofun (by
        change f.base + 0 < _
        omega)⟩

/-- **The first slots of all calls stay as they are**, unless a call returns. -/
theorem Faces.keeps_first (h : m₀.Tracks (Serves K) Apart m) (hat : m₀.Faces (Serves K) Apart m f rest c s [i])
    (hformed : i.Formed) (hnext : m.Upcoming f s.kind i) (hret : i.opcode ≠ .ret) (hm : m.step = .ok done m') {g : Frame}
    (hg : g ∈ m.frames) : m'.stack[g.base]? = m.stack[g.base]? := by
  have hle := h.stable.base_le hat.frames hg
  cases hnext with
  | ret => exact absurd rfl hret
  | jump => rw [hat.jumps h hformed hm]
  | above goes enough =>
    have hmem : i ∈ s.code := hat.lies.mem (List.mem_singleton_self i)
    by_cases hlocal : i.opcode = .setLocal
    · obtain ⟨slot, name, rfl⟩ := hformed.setLocal hlocal
      obtain ⟨g', ⟨op, args⟩, heap, -, hof, -, hspells, -, -, hconsumes, hrun⟩ := hat.performs h hformed
      rw [hrun] at hm
      obtain rfl : op = .setLocal := hspells.opcode
      cases hspells.bytes_eq (by simp) with
      | @set _ b hrefers =>
        obtain rfl : b.toNat = slot := hrefers
        obtain ⟨v, rfl⟩ := Run.setLocal_inv hconsumes rfl (Run.perform_inv hm).2
        have hne := hof.known.spares.own hmem
        refine getElem?_put_ne _ _ ?_
        change f.base + b.toNat ≠ g.base
        omega
    by_cases hupvalue : i.opcode = .setUpvalue
    · obtain ⟨place, name, rfl⟩ := hformed.setUpvalue hupvalue
      obtain ⟨g', ⟨op, args⟩, heap, -, hof, -, hspells, hcells, -, hconsumes, hrun⟩ := hat.performs h hformed
      rw [hrun] at hm
      obtain rfl : op = .setUpvalue := hspells.opcode
      cases hspells.bytes_eq (by simp) with
      | @set _ b hrefers =>
        obtain ⟨c', u, hc, hu, hstack⟩ := Run.setUpvalue_inv hconsumes rfl (Run.perform_inv hm).2
        obtain rfl := Except.ok.inj (((Heap.closure_congr (hcells _)).symm.trans hc).symm.trans hat.closure)
        rcases hstack with hstack | ⟨p, v, hw, hstack⟩
        · rw [hstack]
        · -- the variable is in another slot
          obtain ⟨bytes, hcell⟩ := Heap.upvalue_eq_ok_iff.1 hw
          have hne := hat.holds b.toNat place u p hrefers (hof.known.spares.outer hmem) hu
            ⟨bytes, (hcells u).symm.trans hcell⟩ g hg
          rw [hstack]
          exact getElem?_put_ne _ _ hne.symm
    have hbelow : m.SameBelow (f.base + 1) m' := hat.below h hformed hlocal hupvalue goes hm (by omega)
    exact hbelow g.base (by omega)

/-! ## Initializers -/

/-- An initializer is active on top of the calls `rest`, with the receiver `v` in its first slot. -/
inductive Initializing (m₀ : Machine) (Q : FunctionKind → Nat → Code → Prop) (m : Machine) (base : Nat)
    (rest : List Frame) (v : Value) : Prop
  | intro {inner : List Frame} {f : Frame} {c : Closure} {s : Sheet} (frames : m.frames = inner ++ f :: rest)
    (above : ∀ g ∈ inner, base < g.base) (base_eq : f.base = base) (slot : m.stack[base]? = some v)
    (closure : m.heap.closure f.closure = .ok c) (wears : m₀.Wears Q c s) (kind : s.kind = .initializer)

theorem Initializing.slot (h : m₀.Initializing Q m base rest v) : m.stack[base]? = some v := by
  cases h with
  | intro _ _ _ slot => exact slot

theorem Initializing.length_lt (h : m₀.Initializing Q m base rest v) : rest.length < m.frames.length := by
  cases h with
  | intro frames =>
    rw [frames, List.length_append, List.length_cons]
    omega

theorem Upcoming.ret_eq (h : m.Upcoming f kind i) (hret : i.opcode = .ret) :
    i = .op .ret ∧ (kind = .initializer → m.stack.back? = m.stack[f.base]?) := by
  cases h with
  | above goes => exact absurd hret goes
  | jump goes => exact absurd hret goes
  | ret receiver => exact ⟨rfl, receiver⟩

/-- A call that is gone has returned. -/
theorem Active.ends (ha : m.Active base rest) (hrest : rest ≠ []) (h : m.Stable) (hm : m.step = .ok done m')
    (hframes : m'.frames = rest) : m.Returned m' base := by
  rcases (ha.step hrest h hm).2.2 with ⟨inner, f, hactive, -⟩ | ⟨-, hreturned⟩
  · have hlength := congrArg List.length (hframes.symm.trans hactive)
    rw [List.length_append, List.length_cons] at hlength
    omega
  · exact hreturned

/-- **A step** while an initializer is active. It stays so, with its receiver, or the initializer returns it. -/
theorem Initializing.step (h : m₀.Initializing (Serves K) m base rest v)
    (hcourse : m₀.Course (Serves K) Apart K n m r ref under) (hrest : rest ≠ []) (hm : m.step = .ok done m') :
    done = false ∧ (m₀.Initializing (Serves K) m' base rest v ∨
      m'.frames = rest ∧ m'.stack.toList = m.stack.toList.take base ++ [v]) := by
  have htracks := hcourse.tracks
  obtain ⟨f₀, rest₀, c₀, s₀, i, hat, hformed, hnext⟩ := hcourse.ahead hm
  obtain ⟨g, mi, hg, -, hi, hspells⟩ := hat.reads htracks hformed
  cases h with
  | @intro inner f c s hframes habove hbase hslot hc hwears hkind =>
  subst hbase
  have hmem : f ∈ m.frames := hframes ▸ List.mem_append_right _ List.mem_cons_self
  have hactive : m.Active f.base rest := ⟨inner, f, hframes, rfl⟩
  obtain ⟨rfl, -⟩ := hactive.step hrest htracks.stable hm
  refine ⟨rfl, ?_⟩
  have hclosure : ∀ f' ∈ m'.frames, f'.closure = f.closure → m'.heap.closure f'.closure = .ok c := by
    intro f' hf' heq
    obtain ⟨c', hstays, -⟩ := hat.running (serves_inward K) htracks hformed hm hf'
    obtain rfl := Except.ok.inj (hstays.before.symm.trans (heq ▸ hc))
    exact hstays.after
  -- the innermost call goes on, perhaps below another one
  have hgo : ∀ (new : List Frame) {t : Nat}, m'.frames = new ++ { f₀ with ip := t } :: rest₀ →
      (∀ g ∈ new, f₀.base < g.base) → i.opcode ≠ .ret → m₀.Initializing (Serves K) m' f.base rest v := by
    intro new t hframes' hnew hret
    have hslot' := (hat.keeps_first htracks hformed hnext hret hm hmem).trans hslot
    rw [hat.frames] at hframes
    cases inner with
    | nil =>
      cases hframes
      exact .intro hframes' hnew rfl hslot'
        (hclosure _ (hframes' ▸ List.mem_append_right _ List.mem_cons_self) rfl) hwears hkind
    | cons g inner =>
      cases hframes
      have hlt := habove f₀ List.mem_cons_self
      have hframes'' : m'.frames = (new ++ { f₀ with ip := t } :: inner) ++ f :: rest := by
        rw [hframes', List.append_assoc]
        rfl
      refine .intro hframes'' (fun g hg => ?_) rfl hslot' (hclosure f ?_ rfl) hwears hkind
      · rcases List.mem_append.1 hg with hg | hg
        · exact hlt.trans (hnew g hg)
        · rcases List.mem_cons.1 hg with rfl | hg
          · exact hlt
          · exact habove g (List.mem_cons_of_mem _ hg)
      · rw [hframes']
        simp
  cases Run.execute_moves htracks.stable hm with
  | inside before function instruction goes after size =>
    cases before.symm.trans hat.frames
    cases function.symm.trans hg
    cases instruction.symm.trans hi
    refine .inl (hgo [] after nofun fun hret => ?_)
    obtain ⟨rfl, -⟩ := hnext.ret_eq hret
    exact ret_goes hspells goes
  | @called _ callee _ _ _ _ before function instruction calls after entered arity start base size =>
    cases before.symm.trans hat.frames
    cases function.symm.trans hg
    cases instruction.symm.trans hi
    have hcount := hspells.count hformed
    rw [hspells.opcode] at calls base
    rw [hcount] at base
    refine .inl (hgo [callee] after (fun g hg => ?_) fun hret => by rw [hret] at calls; cases calls)
    obtain rfl := List.mem_singleton.1 hg
    cases hnext with
    | above goes enough =>
      have hpops := i.opcode.pops_le_needs i.count
      omega
    | jump goes hcalls => cases calls.symm.trans hcalls
    | ret => cases calls
  | returned before function instruction after size =>
    cases before.symm.trans hat.frames
    cases function.symm.trans hg
    cases instruction.symm.trans hi
    rw [hat.frames] at hframes
    cases inner with
    | nil =>
      cases hframes
      obtain ⟨result, hresult, hstack⟩ := (hactive.ends hrest htracks.stable hm after).stack
      obtain rfl := Except.ok.inj (hc.symm.trans hat.closure)
      have hvalue := (hnext.ret_eq hspells.opcode.symm).2 ((hwears.kind_eq hat.wears).1 hkind)
      obtain rfl : result = v := Option.some.inj (hresult.symm.trans (hvalue.trans hslot))
      exact .inr ⟨after, hstack⟩
    | cons g inner =>
      cases hframes
      have hreturned := Active.ends ⟨[], f₀, hat.frames, rfl⟩ (by simp) htracks.stable hm after
      have hsame := hreturned.kept (htracks.stable.base_le_size hat.frames) f.base (habove f₀ List.mem_cons_self)
      refine .inl (.intro after (fun g hg => habove g (List.mem_cons_of_mem _ hg)) rfl (hsame.trans hslot)
        (hclosure f ?_ rfl) hwears hkind)
      rw [after]
      exact List.mem_append_right _ List.mem_cons_self

/-- **As long as an initializer is active**, its receiver is in its first slot. -/
theorem Initializing.lasts (h : m₀.Initializing (Serves K) m base rest v)
    (hcourse : ∀ {n m}, m₀.run n = .running m → ∃ r ref under, m₀.Course (Serves K) Apart K n m r ref under)
    (hrest : rest ≠ []) (hrun : m₀.run n = .running m) (hlasts : m.Lasts (rest.length + 1) inside) :
    ∃ k, m₀.run k = .running inside ∧ m₀.Initializing (Serves K) inside base rest v := by
  induction hlasts with
  | refl => exact ⟨n, hrun, h⟩
  | step _ hstep active ih =>
    obtain ⟨k, hrun', h'⟩ := ih
    obtain ⟨r, ref, under, hcourse'⟩ := hcourse hrun'
    refine ⟨k + 1, run_succ hrun' hstep, (h'.step hcourse' hrest hstep).2.resolve_right fun hends => ?_⟩
    rw [hends.1] at active
    omega

end Machine

end LoxMachine
