import LoxMachine.Proofs.Machine.Lockstep

/-!
# How deep an instruction reaches into the stack

* `Run.Still x`: the action `x` leaves the stack as it is.
* `Run.Digs d e x`: the action `x` changes none but the `d` values on top of the stack, and leaves at
  least `e` on top of the others.
* `perform_digs`: no instruction reaches deeper than `Opcode.needs` says, apart from assignments to
  variables and from returning.
-/

namespace LoxMachine

namespace Machine

variable {m m' m'' : Machine} {lo lo' : Nat}

/-- The lowest slots have the same values. -/
def SameBelow (lo : Nat) (m m' : Machine) : Prop := ∀ p < lo, m'.stack[p]? = m.stack[p]?

theorem SameBelow.of_eq (h : m'.stack = m.stack) : m.SameBelow lo m' := fun p _ => by rw [h]

theorem SameBelow.trans (h : m.SameBelow lo m') (h' : m'.SameBelow lo m'') : m.SameBelow lo m'' :=
  fun p hp => (h' p hp).trans (h p hp)

end Machine

namespace Run

variable {α β : Type} {x : Run α} {g : α → Run β} {d e e' : Nat}

theorem bind_ok {m m'' : Machine} {b : β} (h : (x >>= g) m = .ok b m'') :
    ∃ a m', x m = .ok a m' ∧ g a m' = .ok b m'' := by
  cases hx : x m with
  | error e m' => simp [Bind.bind, EStateM.bind, hx] at h
  | ok a m' => exact ⟨a, m', rfl, by simpa [Bind.bind, EStateM.bind, hx] using h⟩

/-! ## Actions that leave the stack as it is -/

/-- The action leaves the stack as it is. -/
class Still (x : Run α) : Prop where
  same : ∀ {m a m'}, x m = .ok a m' → m'.stack = m.stack

instance [hx : Reading x] : Still x := ⟨fun h => (hx.same h).2.1⟩

theorem Still.bind [hx : Still x] (hg : ∀ a, Still (g a)) : Still (x >>= g) where
  same h := by
    obtain ⟨a, m', hm, hm'⟩ := bind_ok h
    exact ((hg a).same hm').trans (hx.same hm)

instance [Still x] [hg : ∀ a, Still (g a)] : Still (x >>= g) := Still.bind hg

theorem Still.modifyGet {f : Machine → α × Machine} (hf : ∀ m, (f m).2.stack = m.stack) :
    Still (MonadStateOf.modifyGet f : Run α) where
  same h := by
    cases h
    exact hf _

theorem Still.modify {f : Machine → Machine} (hf : ∀ m, (f m).stack = m.stack) :
    Still (modify f : Run Unit) := .modifyGet hf

theorem Still.get {g : Machine → Run β} (hg : ∀ m, Still (g m)) : Still (MonadState.get >>= g) where
  same {m} _ _ h := (hg m).same h

instance {p : Prop} [Decidable p] {y : Run α} [hx : Still x] [hy : Still y] :
    Still (if p then x else y) := by
  by_cases hp : p
  · rw [if_pos hp]
    exact hx
  · rw [if_neg hp]
    exact hy

instance (o : Object) : Still (alloc o) := .modifyGet fun _ => rfl

instance (s : String) : Still (intern s) := .modifyGet fun _ => rfl

instance (q : Heap → Except Fault α) : Still (look q) where
  same {m a m'} h := by
    cases hq : q m.heap with
    | ok a =>
      rw [look_ok hq] at h
      cases h
      rfl
    | error e =>
      rw [look_error hq] at h
      cases h

instance (u : Heap → Except Fault Heap) : Still (update u) where
  same {m a m'} h := by
    unfold update at h
    split at h
    · cases h
      rfl
    · cases h

instance (index : Nat) : Still (captureUpvalue index) := by
  unfold captureUpvalue
  refine .get fun m => .bind fun found => ?_
  obtain ⟨_ | h, before⟩ := found
  · have := fun h => Still.modify
      (f := fun m : Machine => { m with openUpvalues := m.openUpvalues.insertIdx before h }) fun _ => rfl
    exact .bind fun h => .bind fun _ => inferInstance
  · infer_instance

instance (base count : Nat) (upvalues : Array Handle) : Still (captures base count upvalues) := by
  induction count generalizing upvalues with
  | zero => exact inferInstanceAs (Still (pure upvalues))
  | succ count ih =>
    unfold captures
    exact .bind fun origin => .bind fun index => inferInstance

instance (last : Nat) (opened : List Handle) : Still (closeFrom last opened) := by
  induction opened with
  | nil => exact inferInstanceAs (Still (pure ()))
  | cons u rest ih =>
    have := Still.modify (f := fun m : Machine => { m with openUpvalues := rest }) fun _ => rfl
    unfold closeFrom
    refine .bind fun up => ?_
    cases up with
    | closed v => exact .bind fun _ => inferInstance
    | stacked index => infer_instance

instance (last : Nat) : Still (closeUpvalues last) := by
  unfold closeUpvalues
  exact .get fun m => inferInstance

instance (closure : Handle) (count : Nat) : Still (call closure count) := by
  unfold call
  refine .bind fun c => .bind fun fn => ?_
  have := fun base => Still.modify (f := fun m : Machine =>
    { m with frames := { closure, function := c.function, base } :: m.frames }) fun _ => rfl
  have hrest : Still (MonadState.get >>= fun m : Machine => (do
      if maxFrames ≤ m.frames.length then fail .stackOverflow
      let needed := wrap (count + 1)
      if m.stack.size < needed then fail .stackUnderflow
      let base := m.stack.size - needed
      modify fun m => { m with frames := { closure, function := c.function, base } :: m.frames } :
        Run Unit)) := by
    refine .get fun m => ?_
    dsimp only
    infer_instance
  dsimp only at hrest ⊢
  infer_instance

/-! ## Depths -/

/-- The action changes none but the `d` values on top of the stack, and leaves at least `e` in their
place. -/
structure Digs (d e : Nat) (x : Run α) : Prop where
  digs : ∀ {m : Machine} {a : α} {m' : Machine} {lo : Nat}, lo + d ≤ m.stack.size → x m = .ok a m' →
    m.SameBelow lo m' ∧ lo + e ≤ m'.stack.size

namespace Digs

theorem bind (hx : Digs d e x) (hg : ∀ a, Digs e e' (g a)) : Digs d e' (x >>= g) where
  digs hlo h := by
    obtain ⟨a, m', hm, hm'⟩ := bind_ok h
    obtain ⟨hsame, hlo'⟩ := hx.digs hlo hm
    obtain ⟨hsame', hlo''⟩ := (hg a).digs hlo' hm'
    exact ⟨hsame.trans hsame', hlo''⟩

theorem still (d : Nat) [hx : Still x] : Digs d d x where
  digs hlo h := by
    rw [hx.same h]
    exact ⟨.of_eq (hx.same h), hlo⟩

/-- Something else is done first. -/
theorem after [Still x] (hg : ∀ a, Digs d e (g a)) : Digs d e (x >>= g) := (still d).bind hg

theorem get {g : Machine → Run β} (hg : ∀ m, Digs d e (g m)) : Digs d e (MonadState.get >>= g) :=
  ⟨fun {m _ _ _} hlo h => (hg m).digs hlo h⟩

theorem pure {a : α} (h : e ≤ d) : Digs d e (pure a : Run α) where
  digs hlo hm := by
    cases hm
    exact ⟨.of_eq rfl, by omega⟩

theorem fail {r : RuntimeError} : Digs d e (fail r : Run α) := ⟨fun _ h => by cases h⟩

/-- Fewer values may be said to be left. -/
theorem weaken (h : Digs d e x) (he : e' ≤ e) : Digs d e' x where
  digs hlo hm := by
    obtain ⟨hsame, hle⟩ := h.digs hlo hm
    exact ⟨hsame, by omega⟩

end Digs

theorem push_digs (v : Value) : Digs d (d + 1) (push v) where
  digs {m _ _ _} hlo h := by
    rw [Cellular.push_eq] at h
    split at h
    · cases h
    · cases h
      refine ⟨fun p hp => ?_, ?_⟩
      · have hlt : p < m.stack.size := by omega
        exact (Array.getElem?_push_lt hlt).trans (Array.getElem?_eq_getElem hlt).symm
      · rw [Array.size_push]
        omega

theorem pop_digs : Digs (d + 1) d pop where
  digs {m _ _ _} hlo h := by
    rw [Cellular.pop_eq] at h
    split at h
    · cases h
      refine ⟨fun p hp => ?_, ?_⟩
      · rw [Array.getElem?_pop, if_pos (by omega)]
      · rw [Array.size_pop]
        omega
    · cases h

theorem poke_digs {distance : Nat} (v : Value) (hd : distance < d) : Digs d d (poke distance v) where
  digs {m _ _ _} hlo h := by
    unfold poke below at h
    obtain ⟨index, m₁, hindex, hset⟩ := bind_ok h
    rw [get_bind, if_pos (by omega)] at hindex
    cases hindex
    rw [Cellular.setSlot_eq, if_pos (by omega)] at hset
    cases hset
    refine ⟨fun p hp => getElem?_put_ne _ _ (by omega), ?_⟩
    rw [size_put]
    exact hlo

/-! ## Instructions -/

theorem bindMethod_digs (cls name : Handle) : Digs 1 1 (bindMethod cls name) :=
  .after fun _ => .after fun _ => .after fun _ => pop_digs.bind fun _ => push_digs _

instance : Still jump := by
  unfold jump
  infer_instance

instance : Still jumpIfFalse := by
  unfold jumpIfFalse
  infer_instance

instance : Still jumpBack := by
  unfold jumpBack
  infer_instance

theorem getProperty_digs : Digs 1 1 getProperty := by
  refine .after fun name => .after fun v => .after fun target => .after fun found => ?_
  obtain ⟨_ | v, cls⟩ := found
  · exact bindMethod_digs cls name
  · exact pop_digs.bind fun _ => push_digs _

theorem getSuper_digs : Digs 2 1 getSuper :=
  .after fun name => (pop_digs.bind fun _ => .still 1).bind fun _ => bindMethod_digs _ name

theorem popNumbers_digs : Digs 2 0 popNumbers := by
  refine .after fun a => .after fun b => ?_
  split
  · exact pop_digs.bind fun _ => pop_digs.bind fun _ => .pure le_rfl
  · exact .fail

theorem add_digs : Digs 2 1 add := by
  refine .after fun b => .after fun a => ?_
  split
  · exact pop_digs.bind fun _ => pop_digs.bind fun _ => push_digs _
  · refine .after fun s => .after fun t => ?_
    split
    · exact .after fun _ => .after fun _ => .after fun _ => pop_digs.bind fun _ =>
        pop_digs.bind fun _ => push_digs _
    · exact .fail

theorem print_digs : Digs 1 0 print := by
  refine pop_digs.bind fun v => .after fun text => ?_
  have := Still.modifyGet (f := fun m : Machine => ((m.sink.write (text ++ "\n")).1,
    { m with sink := (m.sink.write (text ++ "\n")).2 })) fun _ => rfl
  exact .after fun accepted => .still 0

theorem getGlobal_digs : Digs 0 1 getGlobal := by
  refine .after fun name => .after fun key => .get fun m => ?_
  split
  · exact push_digs _
  · exact .after fun _ => .fail

theorem defineGlobal_digs : Digs 1 0 defineGlobal := by
  refine .after fun name => .after fun v => .after fun key => ?_
  have := Still.modify (f := fun m : Machine => { m with globals := m.globals.insert key v })
    fun _ => rfl
  exact .after fun _ => pop_digs.bind fun _ => .pure le_rfl

instance : Still setGlobal := by
  unfold setGlobal
  refine .bind fun name => .bind fun key => .bind fun v => ?_
  have := Still.modifyGet (f := fun m : Machine => ((m.globals.set key v).1,
    { m with globals := (m.globals.set key v).2 })) fun _ => rfl
  have := Still.modify (f := fun m : Machine => { m with globals := (m.globals.delete key).2 })
    fun _ => rfl
  exact .bind fun isNew => inferInstance

theorem getUpvalue_digs : Digs 0 1 getUpvalue := by
  refine .after fun b => .after fun u => .after fun up => ?_
  split
  · exact .after fun _ => push_digs _
  · exact push_digs _

theorem setProperty_digs : Digs 2 1 setProperty :=
  .after fun _ => .after fun _ => .after fun _ => .after fun _ => .after fun _ => .after fun _ =>
    pop_digs.bind fun _ => pop_digs.bind fun _ => push_digs _

theorem negate_digs : Digs 1 1 negate := by
  refine .after fun v => ?_
  split
  · exact poke_digs _ Nat.one_pos
  · exact .fail

theorem makeClosure_digs : Digs 0 1 makeClosure :=
  .after fun _ => .after fun _ => .after fun _ => .after fun _ => .after fun _ => push_digs _

theorem inherit_digs : Digs 2 1 inherit :=
  .after fun _ => .after fun _ => .after fun _ => .after fun _ => .after fun _ =>
    pop_digs.bind fun _ => .pure le_rfl

theorem method_digs : Digs 2 1 method :=
  .after fun _ => .after fun _ => .after fun _ => .after fun _ => .after fun _ => .after fun _ =>
    .after fun _ => pop_digs.bind fun _ => .pure le_rfl

/-! ## Calls -/

/-- The arguments of a native function and the function itself are dropped for the result. -/
theorem callNative_digs (h : Handle) (count : Nat) : Digs (count + 1) 1 (callNative h count) where
  digs {m _ m' lo} hlo hm := by
    unfold callNative at hm
    obtain ⟨native, m₁, hnative, hm⟩ := bind_ok hm
    have hstack := Still.same hnative
    rw [get_bind] at hm
    dsimp only at hm
    rw [if_neg (by rw [hstack]; omega)] at hm
    obtain ⟨_, m₂, hcalls, hm⟩ := bind_ok hm
    cases hcalls
    obtain ⟨_, m₃, hdrop, hpush⟩ := bind_ok hm
    cases hdrop
    have hsize : lo + 0 ≤ (m₁.stack.shrink (m₁.stack.size - count - 1)).size := by
      rw [Array.size_shrink, hstack]
      omega
    obtain ⟨hsame, hle⟩ := (push_digs (d := 0) _).digs hsize hpush
    refine ⟨fun p hp => (hsame p hp).trans ?_, hle⟩
    change (m₁.stack.shrink _)[p]? = _
    rw [← Array.getElem?_toList, Array.toList_shrink, List.getElem?_take, if_pos (by rw [hstack]; omega),
      Array.getElem?_toList, hstack]

theorem instantiate_digs (cls : Handle) (count : Nat) : Digs (count + 1) 1 (instantiate cls count) := by
  refine .after fun target => (poke_digs _ count.lt_succ_self).bind fun _ => ?_
  refine Digs.weaken (e := count + 1) (.after fun c => .get fun m => .after fun key => ?_)
    (Nat.succ_le_succ count.zero_le)
  dsimp only
  cases c.methods.get? key with
  | none => exact .after fun init => by cases init <;> exact .still _
  | some v => exact .after fun init => by cases init <;> exact .still _

theorem callValue_digs (callee : Value) (count : Nat) : Digs (count + 1) 1 (callValue callee count) := by
  have hcall : ∀ closure, Digs (count + 1) 1 (call closure count) := fun closure =>
    (Digs.still _).weaken (Nat.succ_le_succ count.zero_le)
  unfold callValue
  cases callee with
  | obj h =>
    refine .after fun o => ?_
    cases o with
    | bound b => exact (poke_digs _ count.lt_succ_self).bind fun _ => hcall _
    | cls c => exact instantiate_digs h count
    | closure c => exact hcall h
    | native n => exact callNative_digs h count
    | _ => exact .fail
  | _ => exact .fail

/-! ## All instructions -/

/-- The operation neither writes variables on the stack, nor calls, nor returns. -/
def isSimple : Opcode → Bool
  | .setLocal | .setUpvalue | .call | .invoke | .superInvoke | .ret => false
  | _ => true

theorem Digs.continues {x : Run Unit} (h : Digs d e x) : Digs d e (do x; return false) :=
  h.bind fun _ => .pure le_rfl

/-- **No simple instruction reaches deeper than it needs.** -/
theorem perform_digs {op : Opcode} (hop : isSimple op = true) :
    ∃ e, Digs (op.needs 0) e (perform op) := by
  cases op with
  | constant => exact ⟨_, .after fun _ => (push_digs _).continues⟩
  | pushNil | pushTrue | pushFalse => exact ⟨_, (push_digs _).continues⟩
  | pop => exact ⟨_, pop_digs.bind fun _ => .pure le_rfl⟩
  | getLocal => exact ⟨_, Digs.continues (.after fun _ => .after fun _ => .after fun _ => push_digs _)⟩
  | getGlobal => exact ⟨_, getGlobal_digs.continues⟩
  | defineGlobal => exact ⟨_, defineGlobal_digs.continues⟩
  | setGlobal => exact ⟨_, (Digs.still 1).continues⟩
  | getUpvalue => exact ⟨_, getUpvalue_digs.continues⟩
  | getProperty => exact ⟨_, getProperty_digs.continues⟩
  | setProperty => exact ⟨_, setProperty_digs.continues⟩
  | getSuper => exact ⟨_, getSuper_digs.continues⟩
  | equal => exact ⟨_, Digs.continues (pop_digs.bind fun _ => pop_digs.bind fun _ => push_digs _)⟩
  | greater | less | subtract | multiply | divide =>
    exact ⟨_, Digs.continues (popNumbers_digs.bind fun _ => push_digs _)⟩
  | add => exact ⟨_, add_digs.continues⟩
  | not => exact ⟨_, Digs.continues (pop_digs.bind fun _ => push_digs _)⟩
  | negate => exact ⟨_, negate_digs.continues⟩
  | print => exact ⟨_, print_digs.continues⟩
  | jump => exact ⟨_, (Digs.still 0).continues⟩
  | jumpIfFalse => exact ⟨_, (Digs.still 1).continues⟩
  | loop => exact ⟨_, (Digs.still 0).continues⟩
  | closure => exact ⟨_, makeClosure_digs.continues⟩
  | closeUpvalue =>
    exact ⟨_, Digs.continues (.after fun _ => .after fun _ => pop_digs.bind fun _ => .pure le_rfl)⟩
  | cls => exact ⟨_, Digs.continues (.after fun _ => .after fun _ => push_digs _)⟩
  | inherit => exact ⟨_, inherit_digs.continues⟩
  | method => exact ⟨_, method_digs.continues⟩
  | setLocal | setUpvalue | call | invoke | superInvoke | ret => cases hop

end Run

end LoxMachine
