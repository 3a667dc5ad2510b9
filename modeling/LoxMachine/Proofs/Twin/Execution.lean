import LoxMachine.Proofs.Machine.AnyCode
import LoxMachine.Proofs.Twin.Instructions

/-!
# Runs of machines that differ in their handles

* `captures_agree`: the variables that a closure captures are paired. The machines may collect between
  them, so the pairs must be held by both: `Sustains`.
* `perform_blind`: every instruction is blind.
* `execute_agree`: the two machines may report different amounts to their journals, which nothing
  reads.
* `Machine.Abreast`: sane machines that are twin. `Abreast.run`: executions of such machines come equally
  far.
-/

namespace LoxMachine

namespace Run

variable {R S : Pairing} {m m' : Machine} {v w : Value} {x y : Handle}

/-! ## Captured variables -/

/-- Paired variables are found at the same place. -/
theorem searchOpen_alike {heap heap' : Heap} (h : heap.Twin R heap') (index : Nat)
    {opened opened' : List Handle} (ho : List.Forall₂ R opened opened') :
    Alike (fun r r' => Option.Rel (fun x y => R x y ∧ x ∈ opened ∧ y ∈ opened') r.1 r'.1 ∧
      r.2 = r'.2 ∧ r.2 ≤ opened.length) (searchOpen heap index opened)
      (searchOpen heap' index opened') := by
  induction ho with
  | nil => exact .ok ⟨.none, rfl, Nat.zero_le _⟩
  | @cons x y rest rest' hxy _ ih =>
    unfold searchOpen
    refine (h.upvalue hxy).bind fun u u' hu => ?_
    have hslot : u.slot? = u'.slot? := by cases hu <;> rfl
    dsimp only
    rw [hslot]
    by_cases hplace : u'.slot? = some index
    · rw [if_pos hplace, if_pos hplace]
      exact .ok ⟨.some ⟨hxy, List.mem_cons_self, List.mem_cons_self⟩, rfl, Nat.zero_le _⟩
    rw [if_neg hplace, if_neg hplace]
    by_cases hall : u'.slot?.all (index ≤ ·) = true
    · rw [if_pos hall, if_pos hall]
      refine ih.bind fun r r' hr => .ok ⟨optionRel_mono hr.1 fun a _ b _ hab => ?_,
        congrArg (· + 1) hr.2.1, Nat.succ_le_succ hr.2.2⟩
      exact ⟨hab.1, List.mem_cons_of_mem _ hab.2.1, List.mem_cons_of_mem _ hab.2.2⟩
    · rw [if_neg hall, if_neg hall]
      exact .ok ⟨.none, rfl, Nat.zero_le _⟩

/-- Both machines still refer to the pairs that they referred to. -/
structure Sustains (R S : Pairing) (m m' n n' : Machine) : Prop where
  twin : n.Twin S n'
  held : ∀ {a b : Handle}, Held R m m' a b → Held S n n' a b

theorem Sustains.trans {T : Pairing} {n n' k k' : Machine} (h : Sustains R S m m' n n')
    (h' : Sustains S T n n' k k') : Sustains R T m m' k k' :=
  ⟨h'.twin, fun hab => h'.held (h.held hab)⟩

theorem readByte_sustains (h : m.Twin R m') : Agree readByte readByte m m' fun b b' n n' =>
    b = b' ∧ Sustains R R m m' n n' :=
  (readByte_agree h).mono fun _ _ _ _ hb => ⟨hb.1, hb.2.1, fun hab => hab.alike hb.2.2.1 hb.2.2.2⟩

theorem forall₂_insertIdx {opened opened' : List Handle} (ho : List.Forall₂ R opened opened')
    (hxy : R x y) (i : Nat) : List.Forall₂ R (opened.insertIdx i x) (opened'.insertIdx i y) := by
  induction i generalizing opened opened' with
  | zero => exact .cons hxy ho
  | succ i ih =>
    cases ho with
    | nil => exact .nil
    | cons hab hrest => exact .cons hab (ih hrest)

/-- **The variable of a slot is captured**, and held from then on. -/
theorem captureUpvalue_agree (h : m.Twin R m') (index : Nat) :
    Agree (captureUpvalue index) (captureUpvalue index) m m' fun x y n n' =>
      ∃ S, Sustains R S m m' n n' ∧ Held S n n' x y := by
  unfold captureUpvalue
  refine .get (.look_bind (searchOpen_alike h.heap index h.opened) fun r r' hr => ?_)
  obtain ⟨found, before⟩ := r
  obtain ⟨found', before'⟩ := r'
  obtain ⟨hfound, rfl, hle⟩ := hr
  cases hfound with
  | some hxy =>
    obtain ⟨hxy, hx, hy⟩ := hxy
    refine .pure ⟨R, ⟨h, id⟩, hxy, ?_, ?_⟩
    · exact .root (Machine.mem_roots.2 (Or.inr (Or.inr (Or.inl hx)))) (h.heap.contains hxy)
    · exact .root (Machine.mem_roots.2 (Or.inr (Or.inr (Or.inl hy)))) (h.heap.contains' hxy)
  | none =>
    refine (alloc_agree h (o := .upvalue (.stacked index)) (.upvalue (.stacked index))
      (by simp [Object.kind])).bind fun x y n n' hn => ?_
    obtain ⟨S, hxy, hn, heq, heq', hcarries⟩ := hn
    have hle₁ : before ≤ n.openUpvalues.length := by
      rw [heq]
      exact hle
    have hle₂ : before ≤ n'.openUpvalues.length := hn.opened.length_eq ▸ hle₁
    have hroots : n.roots = m.roots := by
      rw [heq]
      rfl
    have hroots' : n'.roots = m'.roots := by
      rw [heq']
      rfl
    refine .bind (Q := fun _ _ k k' =>
      k = { n with openUpvalues := n.openUpvalues.insertIdx before x } ∧
      k' = { n' with openUpvalues := n'.openUpvalues.insertIdx before y }) (.modify ⟨rfl, rfl⟩)
      fun _ _ k k' hk => ?_
    obtain ⟨rfl, rfl⟩ := hk
    have htwin := hn.opened_to (forall₂_insertIdx hn.opened hxy before)
    refine .pure ⟨S, ⟨htwin, fun hab => ⟨hcarries.pairs hab.pair hab.reach hab.reach', ?_, ?_⟩⟩, hxy,
      ?_, ?_⟩
    · exact (hcarries.kept.reachable hab.reach).mono fun r hr =>
        mem_roots_open hle₁ (Or.inr (hroots ▸ hr))
    · exact (hcarries.kept'.reachable hab.reach').mono fun r hr =>
        mem_roots_open hle₂ (Or.inr (hroots' ▸ hr))
    · exact .root (mem_roots_open hle₁ (Or.inl rfl)) (hn.heap.contains hxy)
    · exact .root (mem_roots_open hle₂ (Or.inl rfl)) (hn.heap.contains' hxy)

/-- **The variables that a closure captures are paired**, and held in the end. -/
theorem captures_agree (base count : Nat) {us us' : Array Handle} (h : m.Twin R m')
    (hus : Paired (Held R m m') us us') :
    Agree (captures base count us) (captures base count us') m m' fun vs vs' n n' =>
      ∃ S, Sustains R S m m' n n' ∧ Paired (Held S n n') vs vs' := by
  induction count generalizing R m m' us us' with
  | zero => exact .pure ⟨R, ⟨h, id⟩, hus⟩
  | succ count ih =>
    unfold captures
    refine (readByte_sustains h).bind fun origin origin' n n' horigin => ?_
    obtain ⟨rfl, hn⟩ := horigin
    refine (readByte_sustains hn.twin).bind fun index index' k k' hindex => ?_
    obtain ⟨rfl, hk⟩ := hindex
    have hfound : Agree
        (if origin ≠ 0 then captureUpvalue (base + index.toNat) else frameUpvalue index)
        (if origin ≠ 0 then captureUpvalue (base + index.toNat) else frameUpvalue index) k k'
        fun x y l l' => ∃ S, Sustains R S k k' l l' ∧ Held S l l' x y := by
      refine .ite Iff.rfl (fun _ => captureUpvalue_agree hk.twin _) fun _ => ?_
      refine (frameUpvalue_agree hk.twin index).mono fun x y l l' hxy => ?_
      obtain ⟨hxy, rfl, rfl⟩ := hxy
      exact ⟨R, ⟨hk.twin, id⟩, hxy⟩
    refine hfound.ite_bind fun x y l l' hxy => ?_
    obtain ⟨S, hl, hxy⟩ := hxy
    have hall : Sustains R S m m' l l' := (hn.trans hk).trans hl
    refine (ih hall.twin ((hus.mono fun a _ b _ hab => hall.held hab).push hxy)).mono
      fun vs vs' p p' hp => ?_
    obtain ⟨T, hp, hvs⟩ := hp
    exact ⟨T, hall.trans hp, hvs⟩

theorem makeClosure_blind : Blind makeClosure := by
  intro R m m' h
  unfold makeClosure
  refine (readObject_agree h .function).bind fun x y n n' hxy => ?_
  obtain ⟨hxy, hn⟩ := hxy
  refine .look_bind (hn.heap.function hxy.pair) fun f f' hf => ?_
  refine (frame_agree hn).bind fun fr fr' k k' hfr => ?_
  obtain ⟨hfr, -, -, rfl, rfl⟩ := hfr
  dsimp only
  rw [hf.upvalueCount, hfr.base]
  have hnone : Paired (Held R k k') #[] #[] := .nil
  refine (captures_agree fr'.base f'.upvalueCount hn hnone).bind fun us us' l l' hus => ?_
  obtain ⟨S, hl, hus⟩ := hus
  refine (alloc_agree hl.twin (.closure (hl.held hxy).pair (hus.mono fun a _ b _ hab => hab.pair))
    (by simp [Object.kind])).bind fun c c' p p' hp => ?_
  obtain ⟨T, hc, hp, -⟩ := hp
  exact (push_agree hp (.obj hc)).together

/-! ## Moving variables off the stack -/

theorem closeFrom_agree (last : Nat) {opened opened' : List Handle}
    (ho : List.Forall₂ R opened opened') (h : m.Twin R m') :
    Agree (closeFrom last opened) (closeFrom last opened') m m' fun _ _ n n' => n.Twin R n' := by
  induction ho generalizing m m' with
  | nil => exact .pure h
  | @cons x y rest rest' hxy hrest ih =>
    unfold closeFrom
    refine .look_bind (h.heap.upvalue hxy) fun u u' hu => ?_
    cases hu with
    | closed _ =>
      exact .modify_bind (h.opened_to hrest) fun n n' hn => ih hn
    | stacked index =>
      refine .ite Iff.rfl (fun _ => ?_) fun _ => .pure h
      refine (slot_agree h index).bind fun v w n n' hv => ?_
      refine (setUpvalue_heap_agree hv.2 hxy (.closed hv.1)).bind fun _ _ k k' hk => ?_
      exact .modify_bind (hk.opened_to hrest) fun l l' hl => ih hl

theorem closeUpvalues_agree (h : m.Twin R m') (last : Nat) :
    Agree (closeUpvalues last) (closeUpvalues last) m m' fun _ _ n n' => n.Twin R n' := by
  unfold closeUpvalues
  exact .get (closeFrom_agree last h.opened h)

theorem closeTop_blind : Blind closeTop := by
  intro R m m' h
  unfold closeTop
  refine (below_agree h 0).bind fun i j n n' hi => ?_
  obtain ⟨rfl, hn⟩ := hi
  refine (closeUpvalues_agree hn i).bind fun _ _ k k' hk => ?_
  exact (pop_agree hk).bind fun _ _ _ _ hp => .pure ⟨rfl, R, hp.2⟩

theorem ret_blind : Blind ret := by
  intro R m m' h
  unfold ret
  refine (pop_agree h).bind fun v w n n' hv => ?_
  obtain ⟨hv, hn⟩ := hv
  refine (frame_agree hn).bind fun f f' k k' hf => ?_
  obtain ⟨hf, -, -, rfl, rfl⟩ := hf
  rw [hf.base]
  have htail : List.Forall₂ (Frame.Twin R k.heap k'.heap) k.frames.tail k'.frames.tail := by
    rw [← List.drop_one, ← List.drop_one]
    exact List.forall₂_drop 1 hn.frames
  refine .modify_bind (hn.frames_to htail) fun l l' hl => ?_
  refine (closeUpvalues_agree hl f'.base).bind fun _ _ p p' hp => .get ?_
  have hempty : p.frames.isEmpty = true ↔ p'.frames.isEmpty = true := by
    rw [List.isEmpty_iff_length_eq_zero, List.isEmpty_iff_length_eq_zero, hp.frames.length_eq]
  refine .ite hempty (fun _ => ?_) fun _ => ?_
  · exact .modify_bind (hp.stack_to .nil) fun _ _ hq => .pure ⟨rfl, R, hq⟩
  · refine (truncate_agree hp f'.base).bind fun _ _ q q' hq => ?_
    exact (push_agree hq hv).bind fun _ _ _ _ ht => .pure ⟨rfl, R, ht⟩

/-! ## Classes -/

theorem makeClass_blind : Blind makeClass := by
  intro R m m' h
  unfold makeClass
  refine (readName_agree h).bind fun name name' n n' hname => ?_
  refine (alloc_agree hname.2 (.cls hname.1 Table.twin_empty) (by simp [Object.kind])).bind
    fun x y k k' hk => ?_
  obtain ⟨S, hxy, hk, -⟩ := hk
  exact (push_agree hk (.obj hxy)).together

theorem inherit_blind : Blind inherit := by
  intro R m m' h
  unfold inherit
  refine (peek_agree h 1).bind fun v w n n' hv => ?_
  refine (requireKind_agree hv.2 hv.1 .cls _).bind fun x y k k' hxy => ?_
  obtain ⟨⟨hxy, -⟩, rfl, rfl⟩ := hxy
  refine (peek_agree hv.2 0).bind fun v' w' l l' hv' => ?_
  refine (requireKind_agree hv'.2 hv'.1 .cls _).bind fun x' y' p p' hxy' => ?_
  obtain ⟨⟨hxy', -⟩, rfl, rfl⟩ := hxy'
  have hp := hv'.2
  refine .bind (Q := fun _ _ n n' => n.Twin R n') (.update ((hp.heap.cls hxy).bind fun c c' hc =>
    (hp.heap.cls hxy').answers.bind fun d d' hd => .ok ?_)) fun _ _ q q' hq => ?_
  · obtain ⟨⟨hname, hmethods⟩, hd, -⟩ := hd
    obtain ⟨bytes, hcell⟩ := Heap.cls_eq_ok_iff.1 hd
    exact hp.replace hxy' (.cls hname (hc.2.addAll hp.heap.unique hmethods)) rfl
      (Heap.kind?_of_cell? hcell)
  · exact (pop_agree hq).bind fun _ _ _ _ ht => .pure ⟨rfl, R, ht.2⟩

theorem method_blind : Blind method := by
  intro R m m' h
  unfold method
  refine (readName_agree h).bind fun name name' n n' hname => ?_
  obtain ⟨hname, hn⟩ := hname
  refine (peek_agree hn 0).bind fun v w k k' hv => ?_
  refine (peek_agree hv.2 1).bind fun v' w' l l' hv' => ?_
  refine (requireKind_agree hv'.2 hv'.1 .cls _).bind fun x y p p' hxy => ?_
  obtain ⟨⟨hxy, -⟩, rfl, rfl⟩ := hxy
  refine (requireKind_agree hv'.2 hv.1 .closure _).bind fun _ _ q q' hclosure => ?_
  obtain ⟨-, rfl, rfl⟩ := hclosure
  have hq := hv'.2
  refine .look_bind (hq.heap.key hname) fun key key' hkey => ?_
  obtain ⟨hash, rfl, rfl⟩ := hkey
  refine .bind (Q := fun _ _ n n' => n.Twin R n') (.update ((hq.heap.cls hxy).answers.bind
    fun d d' hd => .ok ?_)) fun _ _ t t' ht => ?_
  · obtain ⟨⟨hcname, hmethods⟩, hd, -⟩ := hd
    obtain ⟨bytes, hcell⟩ := Heap.cls_eq_ok_iff.1 hd
    exact hq.replace hxy (.cls hcname (hmethods.insert hq.heap.unique hname hv.1)) rfl
      (Heap.kind?_of_cell? hcell)
  · exact (pop_agree ht).bind fun _ _ _ _ hs => .pure ⟨rfl, R, hs.2⟩

/-! ## Every instruction -/

/-- An operation that does not end the outermost call. -/
theorem Blind.goOn {α : Type} {x : Run α} (h : Blind x) : Blind (do let _ ← x; return false) :=
  fun R m m' hm => (h R m m' hm).bind fun _ _ _ _ hn => .pure ⟨rfl, hn.2⟩

/-- A constant of the language is pushed. -/
theorem push_blind (hv : ∀ R : Pairing, v.Twin R v) : Blind (push v) :=
  fun R _ _ h => (push_agree h (hv R)).together

/-- **Every instruction does the same in twin states.** -/
theorem perform_blind (op : Opcode) : Blind (perform op) := by
  cases op with
  | constant =>
    exact fun R m m' h => (readConstant_agree h).bind fun v w n n' hv =>
      (push_agree hv.2 hv.1).bind fun _ _ _ _ hk => .pure ⟨rfl, R, hk⟩
  | pushNil => exact (push_blind fun _ => .nil).goOn
  | pushTrue => exact (push_blind fun _ => .bool _).goOn
  | pushFalse => exact (push_blind fun _ => .bool _).goOn
  | pop => exact fun R m m' h => (pop_agree h).bind fun _ _ _ _ hv => .pure ⟨rfl, R, hv.2⟩
  | getLocal => exact getLocal_blind.goOn
  | setLocal => exact setLocal_blind.goOn
  | getGlobal => exact getGlobal_blind.goOn
  | defineGlobal => exact defineGlobal_blind.goOn
  | setGlobal => exact setGlobal_blind.goOn
  | getUpvalue => exact getUpvalue_blind.goOn
  | setUpvalue => exact setUpvalue_blind.goOn
  | getProperty => exact getProperty_blind.goOn
  | setProperty => exact setProperty_blind.goOn
  | getSuper => exact getSuper_blind.goOn
  | equal => exact equal_blind.goOn
  | greater => exact (compare_blind _).goOn
  | less => exact (compare_blind _).goOn
  | add => exact add_blind.goOn
  | subtract => exact (arithmetic_blind _).goOn
  | multiply => exact (arithmetic_blind _).goOn
  | divide => exact (arithmetic_blind _).goOn
  | not => exact not_blind.goOn
  | negate => exact negate_blind.goOn
  | print => exact print_blind.goOn
  | jump => exact jump_blind.goOn
  | jumpIfFalse => exact jumpIfFalse_blind.goOn
  | loop => exact jumpBack_blind.goOn
  | call => exact callInstruction_blind.goOn
  | invoke => exact invoke_blind.goOn
  | superInvoke => exact superInvoke_blind.goOn
  | closure => exact makeClosure_blind.goOn
  | closeUpvalue => exact closeTop_blind.goOn
  | ret => exact ret_blind
  | cls => exact makeClass_blind.goOn
  | inherit => exact inherit_blind.goOn
  | method => exact method_blind.goOn

/-! ## Steps -/

theorem readOpcode_of_inactive (hf : m.frames = []) :
    readOpcode m = .error (.error .noActiveFrame) m := by
  let E (e : Failure) (m' : Machine) : Prop := e = .error .noActiveFrame ∧ m' = m
  have hframe : Ends E frame m fun _ _ => False := by
    unfold frame
    refine .get ?_
    rw [hf]
    exact .fail ⟨rfl, rfl⟩
  have hbyte : Ends E readByte m fun _ _ => False := by
    unfold readByte
    exact hframe.bind fun _ _ h => False.elim h
  have hends : Ends E readOpcode m fun _ _ => False := by
    unfold readOpcode
    exact hbyte.bind fun _ _ h => False.elim h
  unfold Ends at hends
  cases hx : readOpcode m with
  | ok op m' =>
    rw [hx] at hends
    exact hends.elim
  | error e m' =>
    rw [hx] at hends
    rw [hends.1, hends.2]

/-- The next instruction is performed; before, something may be written to the journal. -/
theorem execute_eq (hs : m.Sane) : ∃ events : List Event,
    execute m = (do perform (← readOpcode)) { m with heap := events.foldl Heap.record m.heap } := by
  have hexecute : execute m = (if m.heap.journal.admits .trace = true
      then (do report; perform (← readOpcode)) else (do perform (← readOpcode))) m := rfl
  rw [hexecute]
  by_cases htrace : m.heap.journal.admits .trace = true
  · rw [if_pos htrace]
    have hreport := report_ends (E := fun e m' => m' = m ∧ m.frames = [] ∧
      e = .error .noActiveFrame) hs fun hf => ⟨rfl, hf, rfl⟩
    unfold Ends at hreport
    cases hr : report m with
    | ok a m' =>
      rw [hr] at hreport
      obtain ⟨texts, text, rfl⟩ := hreport
      exact ⟨[.operands texts, .executes text], by simp [bind, EStateM.bind, hr]⟩
    | error e m' =>
      rw [hr] at hreport
      obtain ⟨rfl, hf, rfl⟩ := hreport
      exact ⟨[], by simp [bind, EStateM.bind, hr, readOpcode_of_inactive hf]⟩
  · rw [if_neg htrace]
    exact ⟨[], rfl⟩

/-- **A step of twin machines**, whatever they write to their journals. -/
theorem execute_agree (h : m.Twin R m') (hs : m.Sane) (hs' : m'.Sane) :
    Agree execute execute m m' Together := by
  obtain ⟨events, he⟩ := execute_eq hs
  obtain ⟨events', he'⟩ := execute_eq hs'
  unfold Agree
  rw [he, he']
  refine (readOpcode_agree (h.recorded events events')).bind fun op op' n n' hop => ?_
  obtain ⟨rfl, hn⟩ := hop
  exact perform_blind op R n n' hn

end Run

namespace Machine

/-! ## Runs -/

/-- Two sane machines that are in the same state, except for handles. -/
structure Abreast (m m' : Machine) : Prop where
  sane : m.Sane
  sane' : m'.Sane
  twin : ∃ R, m.Twin R m'

/-- Two executions that have come equally far. -/
inductive Outcome.Same : Outcome → Outcome → Prop
  | finished {m m' : Machine} : m.Abreast m' → Same (.finished m) (.finished m')
  | failed {m m' : Machine} (e : RuntimeError) : m.Abreast m' →
    Same (.failed (.error e) m) (.failed (.error e) m')
  | running {m m' : Machine} : m.Abreast m' → Same (.running m) (.running m')

/-- **Executions of machines that are abreast stay so.** -/
theorem Abreast.run {m m' : Machine} (h : m.Abreast m') (fuel : Nat) :
    (m.run fuel).Same (m'.run fuel) := by
  induction fuel generalizing m m' with
  | zero => exact .running h
  | succ fuel ih =>
    obtain ⟨hs, hs', R, htwin⟩ := h
    have hstep := Run.execute_agree htwin hs hs'
    have hsafe := Run.execute_safe m hs
    have hsafe' := Run.execute_safe m' hs'
    unfold Run.Tame Run.Ends at hsafe hsafe'
    unfold Run.Agree at hstep
    unfold Machine.run Machine.step
    generalize Run.execute m = r at hstep hsafe ⊢
    generalize Run.execute m' = r' at hstep hsafe' ⊢
    cases hstep with
    | @ok done done' n n' hn =>
      obtain ⟨rfl, hn⟩ := hn
      cases done with
      | true => exact .finished ⟨hsafe, hsafe', hn⟩
      | false => exact ih ⟨hsafe, hsafe', hn⟩
    | error e hn => exact .failed e ⟨hsafe.sane, hsafe'.sane, _, hn⟩
    | fault f f' n n' =>
      obtain ⟨e, he⟩ := hsafe.error
      cases he

end Machine

end LoxMachine
