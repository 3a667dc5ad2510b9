import LoxMachine.Proofs.Runs.Declaring
import LoxMachine.Proofs.Runs.Failing
import LoxMachine.Proofs.Runs.Starting

/-!
# Methods along the superclasses

Lookup reads one table, into which the methods of the superclass have been copied when the class was declared.

* `Machine.Stage`: a run is outside of class declarations, or in one.
* `Machine.Course m₀ Q W K n m r ref under`: what holds before every step `n` of a run. All classes have been declared
  but for the one that is under construction, and before the step `r` they were as they are.
* `Course.step`: a step leads from such a state to another, and classes that have been declared keep their methods.
* `lookup_follows_superclasses`: the method that is found is the last one in the class, or else the one that the
  superclass had, and that never changes.
-/

namespace LoxMachine

open Symbolic

variable {Q : FunctionKind → Nat → Code → Prop} {W : Machine → Closure → Sheet → Prop}
  {K : ClassDeclaration → Prop} {m₀ m m' ref : Machine} {done : Bool} {p : Passage} {n k r : Nat} {c : Handle}
  {f : Frame} {rest : List Frame} {s : Sheet} {i : Symbolic.Instruction} {code : Code} {closure : Closure}
  {under : Option Handle} {methods : Methods} {J : Chart}

namespace Machine

theorem Has.trans {j : Nat} (h : m₀.Has c methods k j) (h' : m₀.Has c methods j n) : m₀.Has c methods k n :=
  fun i hk hn => (le_total i j).elim (fun hi => h i hk hi) fun hi => h' i hi hn

theorem Has.single (hrun : m₀.run n = .running m) (hc : m.heap.HasMethods c methods) : m₀.Has c methods n n := by
  intro j hn hj
  rw [le_antisymm hj hn, hrun]
  exact hc

theorem Has.next (hrun : m₀.run (n + 1) = .running m) (h : m₀.Has c methods k n) (hc : m.heap.HasMethods c methods) :
    m₀.Has c methods k (n + 1) := by
  intro j hk hj
  rcases Nat.lt_or_ge n j with hlt | hle
  · rw [le_antisymm hj hlt, hrun]
    exact hc
  · exact h j hk hle

/-- A class that has been declared still has its methods. -/
theorem Answers.to (h : m₀.Answers Q W K r c) (hle : r ≤ n)
    (hhas : ∀ methods, m₀.Has c methods r r → m₀.Has c methods r n) : m₀.Answers Q W K n c := by
  obtain ⟨k, hk, methods, hdeclared, hold⟩ := h
  exact ⟨k, hk.trans hle, methods, hdeclared, hold.trans (hhas methods fun j hr hj => hold j (hk.trans hr) hj)⟩

/-! ## Stages -/

/-- Where a run is before the step `n`: with the step `r` and the machine `ref` when all classes have been declared
last, and the class that is under construction since then. -/
inductive Stage (m₀ : Machine) (Q : FunctionKind → Nat → Code → Prop) (W : Machine → Closure → Sheet → Prop)
    (K : ClassDeclaration → Prop) (n : Nat) (m : Machine) : Nat → Machine → Option Handle → Prop
  | outside (stands : m₀.Stands Q W K m m.frames m.stack.size) : Stage m₀ Q W K n m n m none
  | receiver {f : Frame} {rest : List Frame} {c : Closure} {s : Sheet} {code : Code}
      (faces : m₀.Faces Q W m f rest c s (.op .ret :: code)) (stands : m₀.Stands Q W K m rest (f.base + 1))
      (top : m.stack.back? = m.stack[f.base]?) : Stage m₀ Q W K n m n m none
  | inside {p : Passage} {J : Chart} (begins : p.Begins m₀ Q W) (known : K p.declaration) (spot : p.Spot m₀ Q W K n m)
      (guides : p.sheet.Guides K J)
      (next : J (p.frame.ip + extent p.code) (p.declaration.inner p.setting).here.locals.length) :
      Stage m₀ Q W K n m p.start p.before (some p.cls)

/-- **What holds before every step.** -/
structure Course (m₀ : Machine) (Q : FunctionKind → Nat → Code → Prop) (W : Machine → Closure → Sheet → Prop)
    (K : ClassDeclaration → Prop) (n : Nat) (m : Machine) (r : Nat) (ref : Machine) (under : Option Handle) : Prop where
  run : m₀.run n = .running m
  tracks : m₀.Tracks Q W m
  stage : m₀.Stage Q W K n m r ref under
  last : m₀.run r = .running ref
  le : r ≤ n
  retains : ref.heap.Retains (fun y k => k = .cls ∧ under ≠ some y) (fun k => k = .string ∨ k = .closure) m.heap
  kept : ∀ c, m.heap.kind? c = some .cls → under ≠ some c → ref.heap.kind? c = some .cls ∧
    ∀ methods, ref.heap.HasMethods c methods → m₀.Has c methods r n
  settled : ∀ c, ref.heap.kind? c = some .cls → m₀.Answers Q W K r c

/-- A class that was there keeps the methods that it had when all classes had been declared last. -/
def Continues (m : Machine) (ref : Machine) (under : Option Handle) (m' ref' : Machine) (under' : Option Handle) :
    Prop :=
  ∀ c methods, m.heap.kind? c = some .cls → m'.heap.kind? c = some .cls → under ≠ some c →
    ref.heap.HasMethods c methods → under' ≠ some c ∧ ref'.heap.HasMethods c methods

theorem Course.hasMethods (h : m₀.Course Q W K n m r ref under) (hc : m.heap.kind? c = some .cls)
    (hunder : under ≠ some c) (hmethods : ref.heap.HasMethods c methods) : m.heap.HasMethods c methods :=
  hmethods.retained h.retains hc ⟨rfl, hunder⟩ (.inl rfl) (.inr rfl)

/-- **Every class has been declared**, or is under construction. -/
theorem Course.settles (h : m₀.Course Q W K n m r ref under) (hc : m.heap.kind? c = some .cls)
    (hunder : under ≠ some c) : m₀.Answers Q W K n c := by
  obtain ⟨hlast, hkept⟩ := h.kept c hc hunder
  exact (h.settled c hlast).to h.le fun methods hhas => hkept methods (hhas.at le_rfl le_rfl h.last)

/-! ## Steps outside of class declarations -/

/-- A step outside of class declarations, which leaves all classes as they are. -/
theorem Course.quiet (h : m₀.Course Q W K n m n m none) (hm : m.step = .ok false m') (htracks : m₀.Tracks Q W m')
    (hretains : m.heap.Retains (fun _ k => k = .cls) (fun k => k = .string ∨ k = .closure) m'.heap)
    (hstage : m₀.Stage Q W K (n + 1) m' (n + 1) m' none) :
    m₀.Course Q W K (n + 1) m' (n + 1) m' none ∧ m.Continues m none m' m' none := by
  have hrun := run_succ h.run hm
  have hhas : ∀ {c methods}, m'.heap.kind? c = some .cls → m.heap.HasMethods c methods → m'.heap.HasMethods c methods :=
    fun hc' hmethods => hmethods.retained hretains hc' rfl (.inl rfl) (.inr rfl)
  refine ⟨⟨hrun, htracks, hstage, hrun, le_rfl, .refl htracks.orderly.sane.heap.tidy,
    fun c hc _ => ⟨hc, fun _ => .single hrun⟩, fun c hc' => ?_⟩,
    fun c methods _ hc' _ hmethods => ⟨nofun, hhas hc' hmethods⟩⟩
  obtain ⟨o, bytes, hcell, hkind⟩ := Heap.cell?_of_kind? hc'
  have hc : m.heap.kind? c = some .cls := (Heap.kind?_of_cell? (hretains.cells hkind hcell)).trans (hkind ▸ rfl)
  exact (h.settles hc nofun).to n.le_succ fun methods hold =>
    hold.next hrun (hhas hc' (hold.at le_rfl le_rfl h.run))

/-- **The run comes to a class declaration.** -/
theorem Course.begins (hQ : Inward Q) (h : m₀.Course Q W K n m n m none) {d : ClassDeclaration} {σ : Setting}
    {receivers : Receivers} {more : Code}
    (hat : m₀.Faces Q W m f rest closure s (d.code σ receivers ++ more)) (hfits : d.Fits σ (m.stack.size - f.base))
    (hrest : m₀.Stands Q W K m rest (f.base + 1)) (hknown : K d) (hguides : s.Guides K J)
    (hnext : J (f.ip + extent (d.code σ receivers)) (d.inner σ).here.locals.length) (hm : m.step = .ok done m')
    (hkept : m₀.Kept Q W m m') :
    done = false ∧ ∃ cls, m₀.Course Q W K (n + 1) m' n m (some cls) ∧ m.Continues m none m' m (some cls) := by
  have hhead := hat
  rw [d.code_eq, List.cons_append] at hhead
  have hstraight : Symbolic.Instruction.Straight (Symbolic.Instruction.named .cls d.name).opcode :=
    ⟨nofun, nofun, nofun, nofun⟩
  obtain ⟨z, cls, hz, hfresh, ha, hglobals, hstack⟩ := hhead.head.makesClass h.tracks hm
  obtain ⟨rfl, hframes⟩ := hhead.head.goesOn h.tracks rfl hstraight rfl hm
  have htracks := h.tracks.step hQ hhead.head rfl hm hkept
  let p : Passage := ⟨n, m, f, rest, closure, s, d, σ, receivers, more, cls, z⟩
  have hp : p.Begins m₀ Q W := ⟨h.run, h.tracks, hat, hfits, hz, hfresh⟩
  have hretains : ∀ {P : ObjectKind → Prop}, m.heap.Retains (fun y k => k = .string ∨ k = .cls ∧ y ≠ cls) P m'.heap :=
    .allocates ha (by simp [Object.kind])
  have hamid : p.Amid m₀ Q W K m' (σ.defining d.name ++ (d.superCode σ ++ (.get p.self :: p.ending d.methods)))
      [.obj cls] m.globals.toMap fun _ => none := by
    refine ⟨htracks, ⟨f.ip + 2, ?_, hhead.next hQ h.tracks rfl hm hkept hframes⟩, ?_, ?_, by rw [hglobals], hretains,
      ⟨_, Heap.cls_of_cell? ha.new, .empty _⟩⟩
    · change _ = f.ip + extent (d.code σ receivers)
      rw [d.code_eq, extent_cons, Nat.add_assoc]
      rfl
    · refine hrest.kept hkept fun f' hf' => ?_
      obtain ⟨c, hstays, -⟩ := hhead.head.running hQ h.tracks rfl hm (hframes ▸ List.mem_cons_of_mem _ hf')
      exact ⟨c, hstays⟩
    · rw [hstack, Array.toList_push]
  have hlength : n + 1 + (σ.defining d.name ++ (d.superCode σ ++ (.get p.self :: p.ending d.methods))).length =
      p.finish := by
    rw [Passage.finish, Passage.code, d.code_eq, List.length_cons, Nat.add_assoc, Nat.add_comm 1]
    rfl
  have hspot : p.Spot m₀ Q W K (n + 1) m' := by
    by_cases hdepth : σ.here.depth = 0
    · rw [Setting.defining, if_pos hdepth] at hamid hlength
      exact .made rfl hlength hdepth ⟨_, ha⟩ hamid
    · rw [Setting.defining, if_neg hdepth] at hamid hlength
      refine .named_or_ready ⟨_, ha⟩ hlength ?_
      rw [Passage.home, if_neg hdepth, Passage.bindings, if_neg hdepth]
      exact hamid
  have hrun := run_succ h.run hm
  refine ⟨rfl, cls, ⟨hrun, htracks, .inside hp hknown hspot hguides hnext, h.run, n.le_succ, ?_, fun c hc hne => ?_,
    h.settled⟩, fun c methods hc _ _ hmethods => ⟨?_, hmethods⟩⟩
  · exact hretains.mono (fun y k hy => .inr ⟨hy.1, fun heq => hy.2 (congrArg some heq.symm)⟩) fun _ => id
  · have hother : c ≠ cls := fun heq => hne (congrArg some heq.symm)
    obtain ⟨o, bytes, hcell, hkind⟩ := Heap.cell?_of_kind? hc
    have hold := (hretains (P := fun _ => True)).cells (.inr ⟨hkind, hother⟩) hcell
    refine ⟨(Heap.kind?_of_cell? hold).trans (hkind ▸ rfl), fun methods hmethods => ?_⟩
    exact .next hrun (.single h.run hmethods)
      (hmethods.retained (hretains (P := fun _ => True)) hc (.inr ⟨rfl, hother⟩) trivial trivial)
  · rintro ⟨⟩
    exact hp.ne (Heap.live_of_kind? hc) rfl

/-! ## Steps in a class declaration -/

/-- **The run goes on in a class declaration**, or comes to its end. -/
theorem Course.continues (hQ : Inward Q) (h : m₀.Course Q W K n m p.start p.before (some p.cls)) (hp : p.Begins m₀ Q W)
    (hknown : K p.declaration) (hspot : p.Spot m₀ Q W K n m) (hguides : p.sheet.Guides K J)
    (hnext : J (p.frame.ip + extent p.code) (p.declaration.inner p.setting).here.locals.length)
    (hm : m.step = .ok done m') (hkept : m₀.Kept Q W m m') : done = false ∧ ∃ r' ref' under',
      m₀.Course Q W K (n + 1) m' r' ref' under' ∧ m.Continues p.before (some p.cls) m' ref' under' := by
  obtain ⟨rfl, hgoes⟩ := hspot.step hQ hp h.settled h.run hm hkept
  have hrun := run_succ h.run hm
  -- no class is new
  have holder : ∀ {c}, m'.heap.kind? c = some .cls → m.heap.kind? c = some .cls := by
    obtain ⟨i, todo, extra, values, methods, hamid, hinside, -⟩ := hspot.next h.run
    obtain ⟨ip, -, hat⟩ := hamid.faces
    have hmakes : .makes .cls ∉ i.opcode.effects := by
      have hclasses := hinside.classes
      revert hclasses
      cases i.opcode <;> decide
    exact fun {c} hc => hat.head.older h.tracks hinside.formed hm hmakes hc
  have hretains : ∀ {todo extra values methods}, p.Amid m₀ Q W K m' todo extra values methods →
      p.before.heap.Retains (fun y k => k = .cls ∧ some p.cls ≠ some y) (fun k => k = .string ∨ k = .closure)
        m'.heap := fun hamid =>
    hamid.retains.mono (fun y k hy => .inr ⟨hy.1, fun heq => hy.2 (congrArg some heq.symm)⟩) fun _ => id
  have hhas : ∀ {todo extra values methods}, p.Amid m₀ Q W K m' todo extra values methods → ∀ {c methods},
      m'.heap.kind? c = some .cls → some p.cls ≠ some c → p.before.heap.HasMethods c methods →
        m'.heap.HasMethods c methods := fun hamid _ _ hc hne hmethods =>
    hmethods.retained (hretains hamid) hc ⟨rfl, hne⟩ (.inl rfl) (.inr rfl)
  have hkeeps : ∀ {todo extra values methods}, p.Amid m₀ Q W K m' todo extra values methods → ∀ c,
      m'.heap.kind? c = some .cls → some p.cls ≠ some c → p.before.heap.kind? c = some .cls ∧
        ∀ methods, p.before.heap.HasMethods c methods → m₀.Has c methods p.start (n + 1) := fun hamid c hc hne =>
    have ⟨hlast, hkept⟩ := h.kept c (holder hc) hne
    ⟨hlast, fun methods hmethods => (hkept methods hmethods).next hrun (hhas hamid hc hne hmethods)⟩
  refine ⟨rfl, ?_⟩
  rcases hgoes with hspot' | ⟨above, made, inherited, hthrough⟩
  · obtain ⟨i, todo, extra, values, methods, hamid, -⟩ := hspot'.next hrun
    exact ⟨_, _, _, ⟨hrun, hamid.tracks, .inside hp hknown hspot' hguides hnext, h.last, Nat.le_succ_of_le h.le,
      hretains hamid, hkeeps hamid, h.settled⟩, fun c methods _ _ hne hmethods => ⟨hne, hmethods⟩⟩
  · have hamid := hthrough.amid
    refine ⟨n + 1, m', none, ⟨hrun, hamid.tracks, .outside (hthrough.stands hp hguides hnext), hrun, le_rfl,
      .refl hamid.tracks.orderly.sane.heap.tidy, fun c hc _ => ⟨hc, fun _ => .single hrun⟩, fun c hc => ?_⟩,
      fun c methods _ hc hne hmethods => ⟨nofun, hhas hamid hc hne hmethods⟩⟩
    by_cases hcls : some p.cls = some c
    · cases hcls
      exact ⟨p.finish, hthrough.index.ge, _, hthrough.declared hknown hp hrun,
        hthrough.index ▸ .single hrun hamid.methods⟩
    · obtain ⟨hlast, hkept⟩ := hkeeps hamid c hc hcls
      exact (h.settled c hlast).to (Nat.le_succ_of_le h.le) fun methods hold =>
        hkept methods (hold.at le_rfl le_rfl h.last)

/-! ## Runs -/

/-- Nothing follows a return in the function itself. -/
theorem ret_goes {L : Linkage} {mi : Instruction} {o x t d : Nat}
    (h : Spells L [.op .ret] (mi.op.toByte :: mi.args)) : ((t : Int), d) ∉ mi.successors o x := by
  obtain ⟨op, args⟩ := mi
  obtain rfl : op = .ret := h.opcode
  exact List.not_mem_nil

/-- **A step.** -/
theorem Course.step (hQ : Inward Q) (hK : ∀ {kind arity code}, Q kind arity code → Charted K kind arity code)
    (h : m₀.Course Q W K n m r ref under) (hm : m.step = .ok false m') (hkept : m₀.Kept Q W m m') :
    ∃ r' ref' under', m₀.Course Q W K (n + 1) m' r' ref' under' ∧ m.Continues ref under m' ref' under' := by
  cases h.stage with
  | inside begins known spot guides next => exact (h.continues hQ begins known spot guides next hm hkept).2
  | receiver faces stands =>
    have hstands := stands.moves (J := fun _ _ => False) hQ hK h.tracks faces.head rfl ⟨nofun, nofun⟩ hm hkept
      (fun hspells _ _ hgoes => ret_goes hspells hgoes) nofun
    exact ⟨_, _, _, h.quiet hm (h.tracks.step hQ faces.head rfl hm hkept)
      ((faces.head.classless h.tracks rfl ⟨nofun, nofun, nofun⟩).of_ok hm) (.outside hstands)⟩
  | outside stands =>
    obtain ⟨f, rest, closure, s, J, code, hat, -, hguides, hon, hrest⟩ := stands.ahead h.tracks
    -- the instruction is on the chart, and has nothing to do with classes
    have hquiet : ∀ {i : Symbolic.Instruction}, m₀.Faces Q W m f rest closure s [i] → i.Formed →
        Symbolic.Instruction.Classless i.opcode →
        (∀ {L : Linkage} {mi : Instruction}, Spells L [i] (mi.op.toByte :: mi.args) → ∀ t d : Nat,
          ((t : Int), d) ∈ mi.successors f.ip (m.stack.size - f.base) → J t d) →
        (i.opcode.calls = true → i.opcode.needs i.count ≤ m.stack.size - f.base ∧
          J (f.ip + i.size) (i.after (m.stack.size - f.base))) →
        ∃ r' ref' under', m₀.Course Q W K (n + 1) m' r' ref' under' ∧ m.Continues m none m' ref' under' :=
      fun hat hformed hclassless hgoes hcalls => ⟨_, _, _, h.quiet hm (h.tracks.step hQ hat hformed hm hkept)
        ((hat.classless h.tracks hformed hclassless).of_ok hm)
        (.outside (hrest.moves hQ hK h.tracks hat hformed hguides hm hkept hgoes hcalls))⟩
    cases hon with
    | plain plain enough next =>
      refine hquiet hat.head plain.formed plain.classless (fun hspells t d hgoes => ?_) fun _ => ⟨enough.le, next⟩
      obtain ⟨rfl, rfl⟩ := hspells.goes plain.formed plain.straight hgoes
      exact next
    | ret free =>
      exact hquiet hat.head rfl ⟨nofun, nofun, nofun⟩ (fun hspells _ _ hgoes => absurd hgoes (ret_goes hspells)) nofun
    | receiver =>
      obtain ⟨-, hframes⟩ := hat.head.goesOn h.tracks trivial ⟨nofun, nofun, nofun, nofun⟩ rfl hm
      obtain ⟨x, hx, hstack, -⟩ := hat.head.gets h.tracks hm
      have hlt : f.base < m.stack.size := (Array.getElem?_eq_some_iff.1 hx).1
      refine ⟨_, _, _, h.quiet hm (h.tracks.step hQ hat.head trivial hm hkept)
        ((hat.head.classless h.tracks trivial ⟨nofun, nofun, nofun⟩).of_ok hm)
        (.receiver (hat.next hQ h.tracks trivial hm hkept hframes) (hrest.kept hkept fun f' hf' => ?_) ?_)⟩
      · obtain ⟨c, hstays, -⟩ := hat.head.running hQ h.tracks trivial hm (hframes ▸ List.mem_cons_of_mem _ hf')
        exact ⟨c, hstays⟩
      · change m'.stack.back? = m'.stack[f.base]?
        rw [hstack, Array.back?_push, Array.getElem?_push_lt hlt]
        exact hx.symm.trans (Array.getElem?_eq_getElem hlt)
    | jump target =>
      refine hquiet hat.head (.inl rfl) ⟨nofun, nofun, nofun⟩ (fun hspells t d hgoes => ?_) nofun
      obtain ⟨rfl, rfl⟩ := hspells.jump_goes hgoes
      exact target
    | jumpIfFalse next target =>
      refine hquiet hat.head (.inl rfl) ⟨nofun, nofun, nofun⟩ (fun hspells t d hgoes => ?_) nofun
      obtain ⟨rfl | rfl, rfl⟩ := hspells.jumpIfFalse_goes hgoes
      · exact next
      · exact target
    | @loop distance t' _ back target =>
      refine hquiet hat.head (.inr rfl) ⟨nofun, nofun, nofun⟩ (fun hspells t d hgoes => ?_) nofun
      obtain ⟨hback, rfl⟩ := hspells.loop_goes hgoes
      obtain rfl : t = t' := by omega
      exact target
    | declares known fits next =>
      obtain ⟨-, cls, hcourse⟩ := h.begins hQ hat fits hrest known hguides next hm hkept
      exact ⟨_, _, _, hcourse⟩

/-- What is next before every step. A method that is written is the closure of one of that name. -/
theorem Course.next (h : m₀.Course Q W K n m r ref under) : ∃ f rest closure s i,
    m₀.Faces Q W m f rest closure s [i] ∧ i.Formed ∧ ∀ name, i = .named .method name → m₀.Holds Q m (methodKind name) := by
  cases h.stage with
  | inside begins known spot guides next =>
    obtain ⟨i, todo, extra, values, methods, hamid, hinside, hholds⟩ := spot.next h.run
    obtain ⟨ip, -, hat⟩ := hamid.faces
    exact ⟨_, _, _, _, i, hat.head, hinside.formed, hholds⟩
  | receiver faces stands => exact ⟨_, _, _, _, _, faces.head, rfl, nofun⟩
  | outside stands =>
    obtain ⟨f, rest, closure, s, J, code, hat, -, hguides, hon, hrest⟩ := stands.ahead h.tracks
    cases hon with
    | plain plain =>
      refine ⟨_, _, _, _, _, hat.head, plain.formed, fun name hname => ?_⟩
      subst hname
      exact absurd rfl plain.2.2
    | ret | declares => exact ⟨_, _, _, _, _, hat.head, rfl, nofun⟩
    | receiver => exact ⟨_, _, _, _, _, hat.head, trivial, nofun⟩
    | jump | jumpIfFalse => exact ⟨_, _, _, _, _, hat.head, .inl rfl, nofun⟩
    | loop => exact ⟨_, _, _, _, _, hat.head, .inr rfl, nofun⟩

/-- **The last step** leaves the methods of a class as they are. -/
theorem Course.last_step (h : m₀.Course Q W K n m r ref under) (hc : m.heap.kind? c = some .cls) (hunder : under ≠ some c)
    (hmethods : ref.heap.HasMethods c methods) (hm : m.step = .ok true m' ∨ ∃ e, m.step = .error e m')
    (hc' : m'.heap.kind? c = some .cls) : m'.heap.HasMethods c methods ∧ m'.heap.Healthy := by
  have hhas := h.hasMethods hc hunder hmethods
  have hneat := Run.execute_neat h.tracks.orderly
  obtain ⟨f, rest, closure, s, i, hat, hformed, -⟩ := h.next
  rcases hm with hm | ⟨e, hm⟩
  · refine ⟨?_, (hneat.of_ok hm).sane.heap⟩
    have hret : i.opcode = .ret := by
      obtain ⟨g, mi, hg, -, hi, hspells⟩ := hat.reads h.tracks hformed
      cases Run.execute_moves h.tracks.stable hm with
      | ended before function instruction =>
        cases before.symm.trans hat.frames
        cases function.symm.trans hg
        cases instruction.symm.trans hi
        exact hspells.opcode.symm
    have hclassless : Symbolic.Instruction.Classless i.opcode := hret ▸ ⟨nofun, nofun, nofun⟩
    exact hhas.retained ((hat.classless h.tracks hformed hclassless).of_ok hm) hc' rfl (.inl rfl) (.inr rfl)
  · exact ⟨hat.fails h.tracks hformed hm (Heap.live_of_kind? hc) hc' hhas, (hneat.of_error hm).sane.heap⟩

/-! ## What a run comes to -/

/-- A run goes on from a state that it has come to. -/
theorem run_from (hrun : m₀.run n = .running m) (k : Nat) : m₀.run (n + k) = m.run k := by
  induction n generalizing m₀ with
  | zero =>
    cases hrun
    rw [Nat.zero_add]
  | succ n ih =>
    rw [run] at hrun
    split at hrun
    · cases hrun
    · rename_i hstep
      rw [Nat.add_right_comm, run, hstep]
      exact ih hrun
    · cases hrun

theorem running_of_le {j : Nat} (hrun : m₀.run n = .running m) (hle : j ≤ n) : ∃ m', m₀.run j = .running m' := by
  induction n, hle using Nat.le_induction generalizing m with
  | base => exact ⟨m, hrun⟩
  | succ n hle ih =>
    obtain ⟨m', hrun', -⟩ := run_succ_inv hrun
    exact ih hrun'

/-- A run that does not go on has come to a last step. -/
theorem run_stops (m : Machine) (k : Nat) : (∃ m', m.run k = .running m') ∨ ∃ j < k, ∃ m', m.run j = .running m' ∧
    (m'.step = .ok true (m.run k).machine ∨ ∃ e, m'.step = .error e (m.run k).machine) := by
  induction k generalizing m with
  | zero => exact .inl ⟨m, rfl⟩
  | succ k ih =>
    rw [run]
    cases hstep : m.step with
    | ok done m' =>
      cases done with
      | true => exact .inr ⟨0, k.succ_pos, m, rfl, .inl hstep⟩
      | false =>
        rcases ih m' with hgoes | ⟨j, hj, m'', hrun, hends⟩
        · exact .inl hgoes
        · refine .inr ⟨j + 1, Nat.succ_lt_succ hj, m'', ?_, hends⟩
          rw [run, hstep]
          exact hrun
    | error e m' => exact .inr ⟨0, k.succ_pos, m, rfl, .inr ⟨e, hstep⟩⟩

/-- A class is being declared before the step `n`. -/
def Declaring (m₀ : Machine) (Q : FunctionKind → Nat → Code → Prop) (W : Machine → Closure → Sheet → Prop)
    (K : ClassDeclaration → Prop) (n : Nat) (c : Handle) : Prop :=
  ∃ p : Passage, K p.declaration ∧ p.Begins m₀ Q W ∧ p.cls = c ∧ p.start < n ∧ n < p.finish

/-- **At the start** there are no classes. -/
theorem load_course (config : GcConfig) (keeps : Option Level) (sink : Sink) (clock : Nat → Number) {source : String}
    {program : List Declaration} {h : Handle} {heap : Heap} (hp : Parses source program)
    (hcompile : compile source (create { config, journal := { keeps } } sink clock).heap
      (.mk fun _ => (create { config, journal := { keeps } } sink clock).roots) = (.ok h, heap))
    (hscript : Q .script 0 (Symbolic.script program)) (hW : ∀ m c s, c.upvalues = #[] → W m c s)
    (hK : ∀ {kind arity code}, Q kind arity code → Charted K kind arity code) :
    ∃ m₀, (create { config, journal := { keeps } } sink clock).load source = (none, m₀) ∧
      m₀.Course Q W K 0 m₀ 0 m₀ none ∧ ∀ c, m₀.heap.kind? c ≠ some .cls := by
  obtain ⟨m₀, hload, htracks, hstands, hnone⟩ := load_tracks config keeps sink clock hp hcompile hscript hW hK
  exact ⟨m₀, hload, ⟨rfl, htracks, .outside hstands, rfl, le_rfl, .refl htracks.orderly.sane.heap.tidy,
    fun c hc => absurd hc (hnone c), fun c hc => absurd hc (hnone c)⟩, hnone⟩

variable (hQ : Inward Q) (hK : ∀ {kind arity code}, Q kind arity code → Charted K kind arity code)
  (hkept : ∀ {m m'}, m₀.Tracks Q W m → m.step = .ok false m' → m₀.Kept Q W m m')

include hQ hK hkept

/-- **Before every step** of a run, the classes that are not under construction have been declared. -/
theorem Course.run_to (h : m₀.Course Q W K 0 m₀ 0 m₀ none) (hrun : m₀.run n = .running m) :
    ∃ r ref under, m₀.Course Q W K n m r ref under := by
  induction n generalizing m with
  | zero =>
    cases hrun
    exact ⟨_, _, _, h⟩
  | succ n ih =>
    obtain ⟨m₁, hrun₁, hm⟩ := run_succ_inv hrun
    obtain ⟨r, ref, under, h₁⟩ := ih hrun₁
    obtain ⟨r', ref', under', h', -⟩ := h₁.step hQ hK hm (hkept h₁.tracks hm)
    exact ⟨_, _, _, h'⟩

/-- **The methods of a class that has been declared never change.** -/
theorem Course.methods_stay (h : m₀.Course Q W K k m r ref under) (hunder : under ≠ some c)
    (hmethods : ref.heap.HasMethods c methods) (hle : k ≤ n) (hlives : m₀.Lives c k n)
    (hrun : m₀.run n = .running m') : ∃ r' ref' under', m₀.Course Q W K n m' r' ref' under' ∧ under' ≠ some c ∧
      ref'.heap.HasMethods c methods := by
  induction n, hle using Nat.le_induction generalizing m' with
  | base =>
    cases h.run.symm.trans hrun
    exact ⟨_, _, _, h, hunder, hmethods⟩
  | succ n hle ih =>
    obtain ⟨m₁, hrun₁, hm⟩ := run_succ_inv hrun
    obtain ⟨r₁, ref₁, under₁, h₁, hunder₁, hmethods₁⟩ := ih (fun j hk hj => hlives j hk (Nat.le_succ_of_le hj)) hrun₁
    obtain ⟨r', ref', under', h', hcontinues⟩ := h₁.step hQ hK hm (hkept h₁.tracks hm)
    have hc := hlives n hle n.le_succ
    have hc' := hlives (n + 1) (Nat.le_succ_of_le hle) le_rfl
    rw [hrun₁] at hc
    rw [hrun] at hc'
    exact ⟨r', ref', under', h', hcontinues c methods hc hc' hunder₁ hmethods₁⟩

/-- A class that has been declared has its methods in every state that the run comes to, the last one included. -/
theorem Course.has_methods (h : m₀.Course Q W K n m r ref under) (hunder : under ≠ some c)
    (hmethods : ref.heap.HasMethods c methods) {n' : Nat} (hle : n ≤ n') (hlives : m₀.Lives c n n') :
    (m₀.run n').machine.heap.HasMethods c methods ∧ (m₀.run n').machine.heap.Healthy := by
  obtain ⟨k, rfl⟩ := Nat.exists_eq_add_of_le hle
  have hhere : ∀ {j m'}, m₀.run j = .running m' → n ≤ j → j ≤ n + k → m'.heap.kind? c = some .cls := by
    intro j m' hrun hn hj
    have hc := hlives j hn hj
    rwa [hrun] at hc
  rcases run_stops m k with ⟨m', hrun⟩ | ⟨j, hj, m', hrun, hends⟩
  · rw [← run_from h.run] at hrun
    obtain ⟨r', ref', under', h', hunder', hmethods'⟩ := h.methods_stay hQ hK hkept hunder hmethods hle hlives hrun
    rw [hrun]
    exact ⟨h'.hasMethods (hhere hrun hle le_rfl) hunder' hmethods', h'.tracks.orderly.sane.heap⟩
  · rw [← run_from h.run] at hrun
    rw [← run_from h.run] at hends
    have hlt : n + j ≤ n + k := by omega
    obtain ⟨r', ref', under', h', hunder', hmethods'⟩ := h.methods_stay hQ hK hkept hunder hmethods
      (Nat.le_add_right n j) (fun i hi hij => hlives i hi (hij.trans hlt)) hrun
    exact h'.last_step (hhere hrun (Nat.le_add_right n j) hlt) hunder' hmethods' hends (hlives _ hle le_rfl)

/-- **What is found in a class** is what its declaration and those of its superclasses tell, as long as it is there. -/
theorem Course.finds (h₀ : m₀.Course Q W K 0 m₀ 0 m₀ none) (hrun : m₀.run n = .running m)
    (hc : m.heap.kind? c = some .cls) : m₀.Declaring Q W K n c ∨ ∃ k ≤ n, ∃ methods,
      m₀.Declared Q W K k c methods ∧ m₀.Lives c k n ∧
        ∀ n' ≥ k, m₀.Lives c k n' → (m₀.run n').machine.Finds c methods := by
  obtain ⟨r, ref, under, h⟩ := h₀.run_to hQ hK hkept hrun
  by_cases hunder : under = some c
  · subst hunder
    have hle := h.le
    cases h.stage with
    | @inside p _ begins known spot =>
      refine .inl ⟨p, known, begins, rfl, lt_of_le_of_ne hle fun heq => ?_, spot.lt_finish⟩
      cases (heq ▸ begins.run).symm.trans hrun
      exact begins.ne (Heap.live_of_kind? hc) rfl
  obtain ⟨hlast, hkept'⟩ := h.kept c hc hunder
  obtain ⟨k, hk, methods, hdeclared, hold⟩ := h.settled c hlast
  have hmethods := hold.at hk le_rfl h.last
  have hhas := hold.trans (hkept' methods hmethods)
  have hkn := hk.trans h.le
  refine .inr ⟨k, hkn, methods, hdeclared, hhas.lives, fun n' hn' hlives => ?_⟩
  rcases le_total n' n with hle | hle
  · obtain ⟨m', hrun'⟩ := running_of_le hrun hle
    obtain ⟨r', ref', under', h'⟩ := h₀.run_to hQ hK hkept hrun'
    have hmethods := hhas.at hn' hle hrun'
    rw [hrun']
    exact hmethods.finds h'.tracks.orderly.sane.heap
  · obtain ⟨hmethods', hhealthy⟩ := h.has_methods hQ hK hkept hunder hmethods hle fun j hj => hlives j (hkn.trans hj)
    exact hmethods'.finds hhealthy

/-- Before the step `n`, the run of a program is in the declaration of a class. -/
abbrev DeclaringIn (m₀ : Machine) (program : List Declaration) (n : Nat) (c : Handle) : Prop :=
  m₀.Declaring (Charted (· ∈ Declaration.listClasses program)) (fun _ _ _ => True)
    (· ∈ Declaration.listClasses program) n c

/-- Before the step `n`, the run of a program has gone through the declaration of a class. -/
abbrev DeclaredIn (m₀ : Machine) (program : List Declaration) (n : Nat) (c : Handle) (methods : Methods) : Prop :=
  m₀.Declared (Charted (· ∈ Declaration.listClasses program)) (fun _ _ _ => True)
    (· ∈ Declaration.listClasses program) n c methods

end Machine

open Machine in
/-- **Lookup follows the superclasses.** In the execution of a source that compiles, every class is under construction,
or it has been declared. From then on, what is found for a name is the closure that was made for the last method of
that name in its declaration, or else what is found in the class that it inherited from, or else nothing, for as long
as the class is there. -/
theorem lookup_follows_superclasses (config : GcConfig) (keeps : Option Level) (sink : Sink) (clock : Nat → Number)
    (source : String) {h : Handle} {heap : Heap}
    (hcompile : compile source (create { config, journal := { keeps } } sink clock).heap
      (.mk fun _ => (create { config, journal := { keeps } } sink clock).roots) = (.ok h, heap)) :
    ∃ m₀, (create { config, journal := { keeps } } sink clock).load source = (none, m₀) ∧
      (∃ program, Parses source program) ∧ ∀ program, Parses source program →
        ∀ n m c, m₀.run n = .running m → m.heap.kind? c = some .cls → m₀.DeclaringIn program n c ∨
          ∃ k ≤ n, ∃ methods, m₀.DeclaredIn program k c methods ∧ m₀.Lives c k n ∧
            ∀ n' ≥ k, m₀.Lives c k n' → (m₀.run n').machine.Finds c methods := by
  generalize hload : (create { config, journal := { keeps } } sink clock).load source = loaded
  have hfinds : ∀ program, Parses source program → loaded.1 = none ∧
      ∀ n m c, loaded.2.run n = .running m → m.heap.kind? c = some .cls → loaded.2.DeclaringIn program n c ∨
        ∃ k ≤ n, ∃ methods, loaded.2.DeclaredIn program k c methods ∧ loaded.2.Lives c k n ∧
          ∀ n' ≥ k, loaded.2.Lives c k n' → (loaded.2.run n').machine.Finds c methods := by
    intro program hp
    have hcharted := charted_script hp.proper (hp.legal hcompile)
    obtain ⟨m₀, hload', hcourse, -⟩ := load_course (W := fun _ _ _ => True)
      (K := (· ∈ Declaration.listClasses program)) config keeps sink clock hp hcompile hcharted
      (fun _ _ _ _ => trivial) id
    obtain rfl := hload.symm.trans hload'
    exact ⟨rfl, fun n m c hrun hc => hcourse.finds (charted_inward _) id
      (fun _ _ => ⟨fun _ _ => trivial, fun _ _ _ _ => trivial⟩) hrun hc⟩
  obtain ⟨program, hp⟩ := exists_parses hcompile
  exact ⟨loaded.2, Prod.ext (hfinds program hp).1 rfl, ⟨program, hp⟩, fun program hp => (hfinds program hp).2⟩

namespace Routine

theorem length_listCode (methods : List Routine) (σ : Setting) (r : Receivers) :
    (listCode methods σ r).length = 2 * methods.length := by
  induction methods with
  | nil => rfl
  | cons f methods ih =>
    obtain ⟨name, parameters, body⟩ := f
    rw [listCode, List.length_cons, List.length_cons, ih, List.length_cons]
    omega

end Routine

theorem ClassDeclaration.length_code_le (d : ClassDeclaration) (σ : Setting) (r : Receivers) :
    (d.code σ r).length ≤ 7 + 2 * d.methods.length := by
  have hdefining : (σ.defining d.name).length ≤ 1 := by
    unfold Setting.defining
    split <;> simp
  unfold code classCode
  cases d.superclass <;> simp [Routine.length_listCode] <;> omega

/-- A class with a method, and one that inherits from it. -/
def inheriting : List Declaration :=
  [.cls "A" none [.mk "m" [] []], .cls "B" (some "A") [], .statement (.print (.read "B"))]

theorem parses_inheriting : Parses "class A { m() {} } class B < A {} print B;" inheriting where
  notError := by
    have hkinds : (Source.ofString "class A { m() {} } class B < A {} print B;").tokens.map Token.kind =
        [.kwClass, .identifier, .leftBrace, .identifier, .leftParen, .rightParen, .leftBrace, .rightBrace,
          .rightBrace, .kwClass, .identifier, .less, .identifier, .leftBrace, .rightBrace, .kwPrint, .identifier,
          .semicolon, .eof] := by decide +kernel
    intro t ht reason hkind
    have hmem := List.mem_map_of_mem (f := Token.kind) ht
    rw [hkinds, hkind] at hmem
    simp at hmem
  symbols_eq := by decide +kernel
  grammatical := by
    simp [inheriting, Declaration.ListGrammatical, Declaration.Grammatical, Statement.Grammatical,
      Expression.Grammatical, Routine.ListGrammatical, Routine.Grammatical]

def Machine.Outcome.isRunning : Outcome → Bool
  | .running _ => true
  | _ => false

/-- A class that has inherited a method is on the stack. It has been declared. -/
theorem lookup_follows_superclasses_printed : ∃ source h heap m₀ m c,
    source = "class A { m() {} } class B < A {} print B;" ∧
    compile source (Machine.create {}).heap (.mk fun _ => (Machine.create {}).roots) = (.ok h, heap) ∧
    Parses source inheriting ∧ (Machine.create {}).load source = (none, m₀) ∧ m₀.run 15 = .running m ∧
    m.stack.back? = some (.obj c) ∧ m.heap.kind? c = some .cls ∧ ¬m₀.DeclaringIn inheriting 15 c ∧
      ∃ k ≤ 15, ∃ methods, m₀.DeclaredIn inheriting k c methods ∧ m₀.Lives c k 15 ∧
        ∀ n' ≥ k, m₀.Lives c k n' → (m₀.run n').machine.Finds c methods := by
  have hp := parses_inheriting
  generalize hs : "class A { m() {} } class B < A {} print B;" = source at hp ⊢
  have hresult : (compile source (Machine.create {}).heap
      (.mk fun _ => (Machine.create {}).roots)).1.toOption.isSome = true := by
    subst hs
    decide +kernel
  have hclass : (((Machine.create {}).load source).2.run 15).machine.stack.back?.bind (fun v =>
      v.handle?.bind (((Machine.create {}).load source).2.run 15).machine.heap.kind?) = some .cls := by
    subst hs
    decide +kernel
  have hruns : (((Machine.create {}).load source).2.run 15).isRunning = true := by
    subst hs
    decide +kernel
  -- the class is there since its declaration has begun
  have hmade : ∀ j < 15, 6 < j → (((Machine.create {}).load source).2.run 15).machine.stack.back?.all (fun v =>
      v.handle?.all (((Machine.create {}).load source).2.run j).machine.heap.contains) = true := by
    subst hs
    decide +kernel
  rcases hcompile : compile source (Machine.create {}).heap (.mk fun _ => (Machine.create {}).roots)
    with ⟨_ | h, heap⟩
  · rw [hcompile] at hresult
    cases hresult
  · obtain ⟨m₀, hload, -, hfinds⟩ := lookup_follows_superclasses {} none {} (fun _ => ⟨0⟩) source hcompile
    rw [show ((Machine.create {}).load source).2 = m₀ from congrArg Prod.snd hload] at hclass hruns hmade
    cases hrun : m₀.run 15 with
    | running m =>
      rw [hrun] at hclass hmade
      obtain ⟨v, hv, hkind⟩ := Option.bind_eq_some_iff.1 hclass
      obtain ⟨c, hc, hkind⟩ := Option.bind_eq_some_iff.1 hkind
      obtain rfl : v = .obj c := by cases v <;> cases hc; rfl
      have hnot : ¬m₀.DeclaringIn inheriting 15 c := by
        rintro ⟨p, hknown, hbegins, rfl, hstart, hfinish⟩
        have hle : p.start ≤ 6 := by
          by_contra hlt
          have hthere := hmade p.start hstart (by omega)
          change m.stack.back? = _ at hv
          rw [hbegins.run] at hthere
          simp only [Machine.Outcome.machine, hv, Option.all_some, Value.handle?] at hthere
          exact Bool.false_ne_true (hbegins.fresh.symm.trans hthere)
        have hlength := p.declaration.length_code_le p.setting p.receivers
        have hmethods : p.declaration.methods.length ≤ 1 := by
          rcases List.mem_cons.1 hknown with h | hknown
          · simp [h]
          · rw [List.mem_singleton.1 hknown]
            simp
        unfold Passage.finish Passage.code at hfinish
        omega
      refine ⟨source, h, heap, m₀, m, c, rfl, hcompile, hp, hload, hrun, hv, hkind, hnot, ?_⟩
      exact (hfinds inheriting hp 15 m c hrun hkind).resolve_left hnot
    | _ =>
      rw [hrun] at hruns
      cases hruns

end LoxMachine
