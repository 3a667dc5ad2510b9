import LoxMachine.Proofs.Machine.Jumps
import LoxMachine.Proofs.Meaning.Running

/-!
# Instructions on the machine

The machine executes instructions as they are executed on data.

* `Desk.Shown.obeys`: one instruction. The machine comes to the same state, or its stack is full; or it fails with
  the same error, and prints nothing.
* `Desk.Shown.runs`: any number of instructions.
-/

namespace LoxMachine.Symbolic

variable {clock : Handle} {code : Code} {g : Function} {d d' : Desk} {m m' : Machine} {i : Instruction}
  {x y : Datum} {rest : List Datum} {v w : Value} {op : Opcode} {name : String} {e : RuntimeError}

/-- The machine comes to the state, or its stack is full. -/
abbrev Reaches (clock : Handle) (code : Code) (g : Function) (d : Desk) (x : Run Bool) (m : Machine) : Prop :=
  Run.Ends Full x m fun done m' => done = false ∧ d.Shown clock code g m'

/-- The machine fails with the error, and prints nothing. -/
abbrev Breaks {α : Type} (e : RuntimeError) (x : Run α) (m : Machine) : Prop :=
  Run.Ends (fun e' m' => e' = .error e ∧ m'.sink = m.sink) x m fun _ _ => False

/-- An operation is followed by the next one. -/
theorem goOn {α : Type} {E : Failure → Machine → Prop} {Q : Machine → Prop} {x : Run α}
    (h : Run.Ends E x m fun _ m' => Q m') :
    Run.Ends E (do let _ ← x; return false) m fun done m' => done = false ∧ Q m' :=
  h.bind fun _ _ hq => .pure ⟨rfl, hq⟩

/-- Nothing follows what fails. -/
theorem breakOff {α β : Type} {E : Failure → Machine → Prop} {Q : β → Machine → Prop} {x : Run α} {f : α → Run β}
    (h : Run.Ends E x m fun _ _ => False) : Run.Ends E (x >>= f) m Q := h.bind fun _ _ hq => hq.elim

/-- The machine does what the result says, or its stack is full. -/
def Obeys (clock : Handle) (code : Code) (g : Function) (m : Machine) (x : Run Bool) : Except RuntimeError Desk → Prop
  | .ok d => Reaches clock code g d x m
  | .error e => Breaks e x m

/-- An operation without operands, once it has been read. -/
theorem Obeys.after_read {r : Except RuntimeError Desk} (hop : Run.readOpcode m = .ok op m')
    (hsink : m'.sink = m.sink) (h : Obeys clock code g m' (Run.perform op) r) :
    Obeys clock code g m (Run.readOpcode >>= Run.perform) r := by
  cases r with
  | ok d => exact after_ok hop h
  | error e => exact after_ok hop (h.weaken fun _ _ he => ⟨he.1, he.2.trans hsink⟩)

namespace Desk.Shown

/-! ## Constants and variables -/

theorem literal (h : d.Shown clock code g m) (hi : i.literal? = some x) (hat : Lies code d.ip [i]) :
    Reaches clock code g (d.next i.size (x :: d.stack)) (Run.readOpcode >>= Run.perform) m := by
  unfold Instruction.literal? at hi
  split at hi <;> cases hi
  · obtain ⟨piece, hpiece, hholds⟩ := h.spells.encodes hat (by simp)
    cases hpiece with
    | number hn =>
      obtain ⟨m₁, m₂, hop, hbyte, -, hshown, -, -, hconst⟩ := h.read_byte hholds
      exact after_ok hop (after_ok (Run.readConstant_of_consumes hbyte (hconst _ hn)) (goOn (hshown.push (.number _))))
  · obtain ⟨piece, hpiece, hholds⟩ := h.spells.encodes hat (by simp)
    cases hpiece with
    | string hs =>
      obtain ⟨c, hc, hs⟩ := hs
      obtain ⟨m₁, m₂, hop, hbyte, -, hshown, hheap, -, hconst⟩ := h.read_byte hholds
      exact after_ok hop (after_ok (Run.readConstant_of_consumes hbyte (hconst _ hc))
        (goOn (hshown.push (.string (hheap ▸ hs)))))
  all_goals
    obtain ⟨m₁, hop, hshown, -⟩ := h.read_op hat
    exact after_ok hop (goOn (hshown.push (by constructor)))

variable {slot j : Nat}

theorem getLocal (h : d.Shown clock code g m) (hat : Lies code d.ip [.get (.own slot name)])
    (hj : j + slot = d.stack.length) (hx : d.stack[j]? = some x) :
    Reaches clock code g (d.next 2 (x :: d.stack)) (Run.readOpcode >>= Run.perform) m := by
  obtain ⟨piece, hpiece, hholds⟩ := h.spells.encodes hat nofun
  cases hpiece with
  | @get _ c hc =>
    obtain rfl : c.toNat = slot := hc
    obtain ⟨m₁, m₂, hop, hbyte, -, hshown, -⟩ := h.read_byte hholds
    obtain ⟨f, hf, -, hbase, -⟩ := hshown.frames
    obtain ⟨v, hd, hv⟩ := hshown.slot hj hx
    have hslot : Run.slot (f.base + c.toNat) m₂ = .ok v m₂ := by rw [Cellular.slot_eq, hbase, Nat.zero_add, hv]
    refine after_ok hop (goOn (after_ok (Run.readByte_of_consumes hbyte) ?_))
    exact after_ok (Run.frame_of_frames hf) (after_ok hslot (hshown.push hd))

theorem setLocal (h : d.Shown clock code g m) (hat : Lies code d.ip [.set (.own slot name)])
    (hj : j + slot = d.stack.length) (hlt : j < d.stack.length) (htop : d.stack.head? = some x) :
    Reaches clock code g (d.next 2 (d.stack.set j x)) (Run.readOpcode >>= Run.perform) m := by
  obtain ⟨piece, hpiece, hholds⟩ := h.spells.encodes hat nofun
  cases hpiece with
  | @set _ c hc =>
    obtain rfl : c.toNat = slot := hc
    obtain ⟨m₁, m₂, hop, hbyte, -, hshown, -⟩ := h.read_byte hholds
    obtain ⟨f, hf, -, hbase, -⟩ := hshown.frames
    obtain ⟨v, hd, hpeek⟩ := hshown.peek (j := 0) (List.head?_eq_getElem? ▸ htop)
    obtain ⟨hset, hshown⟩ := hshown.overwrite hj hlt hd
    refine after_ok hop (goOn (after_ok (Run.readByte_of_consumes hbyte) ?_))
    have hset' : Run.setSlot (f.base + c.toNat) v m₂ = .ok () { m₂ with stack := put m₂.stack c.toNat v } := by
      rw [hbase, Nat.zero_add, hset]
    exact after_ok (Run.frame_of_frames hf) (after_ok hpeek (ends_ok hset' hshown))

theorem getGlobal (h : d.Shown clock code g m) (hat : Lies code d.ip [.get (.global name)])
    (hx : d.globals name = some x) :
    Reaches clock code g (d.next 2 (x :: d.stack)) (Run.readOpcode >>= Run.perform) m := by
  obtain ⟨piece, hpiece, hholds⟩ := h.spells.encodes hat nofun
  cases hpiece with
  | get hconst =>
    obtain ⟨m₁, m₂, z, hop, hread, hshown, hz, hname, -⟩ := h.read_name hholds hconst
    obtain ⟨v, hd, hv⟩ := hshown.global_some hz hname hx
    refine after_ok hop (goOn (after_ok hread (.look_bind (key_of_hasContents hname) (.get ?_))))
    rw [hshown.sane.keyed.sound.get? rfl, hv]
    exact hshown.push hd

/-- A name that is not there is reported. -/
theorem undefined {α : Type} {Q : α → Machine → Prop} {z : Handle} (hname : m.heap.hasContents name z = true) :
    Run.Ends (fun e m' => e = .error (.undefinedVariable name) ∧ m'.sink = m.sink)
      (do Run.fail (.undefinedVariable (← Run.look (·.contents z)))) m Q :=
  .look_bind (Heap.contents_eq_ok_iff.2 hname) (.fail ⟨rfl, rfl⟩)

theorem getUndefined (h : d.Shown clock code g m) (hat : Lies code d.ip [.get (.global name)])
    (hx : d.globals name = none) : Breaks (.undefinedVariable name) (Run.readOpcode >>= Run.perform) m := by
  obtain ⟨piece, hpiece, hholds⟩ := h.spells.encodes hat nofun
  cases hpiece with
  | get hconst =>
    obtain ⟨m₁, m₂, z, hop, hread, hshown, hz, hname, hsink⟩ := h.read_name hholds hconst
    have hnone := hshown.global_none hz hname hx
    have hfails : Run.Ends (fun e' m' => e' = .error (.undefinedVariable name) ∧ m'.sink = m.sink)
        Run.getGlobal m₁ fun _ _ => False := by
      refine after_ok hread (.look_bind (key_of_hasContents hname) (.get ?_))
      rw [hshown.sane.keyed.sound.get? rfl, hnone]
      exact hsink ▸ undefined hname
    exact after_ok hop (breakOff hfails)

theorem setGlobal (h : d.Shown clock code g m) (hat : Lies code d.ip [.set (.global name)])
    (htop : d.stack.head? = some x) (hy : d.globals name = some y) :
    Reaches clock code g { d.next 2 d.stack with globals := Plain.extend d.globals name x }
      (Run.readOpcode >>= Run.perform) m := by
  obtain ⟨piece, hpiece, hholds⟩ := h.spells.encodes hat nofun
  cases hpiece with
  | set hconst =>
    obtain ⟨m₁, m₂, z, hop, hread, hshown, hz, hname, -⟩ := h.read_name hholds hconst
    obtain ⟨v, hd, hpeek⟩ := hshown.peek (j := 0) (List.head?_eq_getElem? ▸ htop)
    obtain ⟨w, -, hw⟩ := hshown.global_some hz hname hy
    obtain ⟨-, hnew, -⟩ := hshown.sane.keyed.sound.set
      (show (⟨z, m₂.heap.hashOf z⟩ : Key).hash = _ from rfl) v
    refine after_ok hop (goOn (after_ok hread (.look_bind (key_of_hasContents hname) (after_ok hpeek ?_))))
    refine after_ok (a := (m₂.globals.set ⟨z, m₂.heap.hashOf z⟩ v).1) rfl (.ite (fun his => ?_) fun _ => ?_)
    · rw [hnew, hw] at his
      cases his
    · exact .pure (hshown.assign hname hd)

theorem setUndefined (h : d.Shown clock code g m) (hat : Lies code d.ip [.set (.global name)])
    (htop : d.stack.head? = some x) (hy : d.globals name = none) :
    Breaks (.undefinedVariable name) (Run.readOpcode >>= Run.perform) m := by
  obtain ⟨piece, hpiece, hholds⟩ := h.spells.encodes hat nofun
  cases hpiece with
  | set hconst =>
    obtain ⟨m₁, m₂, z, hop, hread, hshown, hz, hname, hsink⟩ := h.read_name hholds hconst
    obtain ⟨v, hd, hpeek⟩ := hshown.peek (j := 0) (List.head?_eq_getElem? ▸ htop)
    have hnone := hshown.global_none hz hname hy
    obtain ⟨-, hnew, -⟩ := hshown.sane.keyed.sound.set
      (show (⟨z, m₂.heap.hashOf z⟩ : Key).hash = _ from rfl) v
    have hfails : Run.Ends (fun e' m' => e' = .error (.undefinedVariable name) ∧ m'.sink = m.sink)
        Run.setGlobal m₁ fun _ _ => False := by
      refine after_ok hread (.look_bind (key_of_hasContents hname) (after_ok hpeek ?_))
      refine after_ok (a := (m₂.globals.set ⟨z, m₂.heap.hashOf z⟩ v).1) rfl (.ite (fun _ => ?_) fun hnot => ?_)
      · exact after_ok rfl (hsink ▸ undefined hname)
      · rw [hnew, hnone] at hnot
        exact absurd rfl hnot
    exact after_ok hop (breakOff hfails)

theorem define (h : d.Shown clock code g m) (hat : Lies code d.ip [.named .defineGlobal name])
    (hs : d.stack = x :: rest) : Reaches clock code g
      { d.next 2 rest with globals := Plain.extend d.globals name x } (Run.readOpcode >>= Run.perform) m := by
  obtain ⟨piece, hpiece, hholds⟩ := h.spells.encodes hat nofun
  cases hpiece with
  | named _ hconst =>
    obtain ⟨m₁, m₂, z, hop, hread, hshown, hz, hname, -⟩ := h.read_name hholds hconst
    obtain ⟨v, hd, hpeek⟩ := hshown.peek (j := 0) (x := x) (by simp [hs])
    obtain ⟨w, -, hpop, hpopped⟩ := (hshown.assign hname hd).pop hs
    refine after_ok hop (goOn (after_ok hread (after_ok hpeek (.look_bind (key_of_hasContents hname) ?_))))
    exact after_ok rfl (after_ok hpop (.pure hpopped))

/-! ## Values on the stack -/

theorem pop_top (h : d.Shown clock code g m) (hat : Lies code d.ip [.op .pop]) (hs : d.stack = x :: rest) :
    Reaches clock code g (d.next 1 rest) (Run.readOpcode >>= Run.perform) m := by
  obtain ⟨m₁, hop, hshown, -⟩ := h.read_op hat
  obtain ⟨v, -, hpop, hpopped⟩ := hshown.pop hs
  exact after_ok hop (after_ok hpop (.pure ⟨rfl, hpopped⟩))

theorem print (h : d.Shown clock code g m) (hat : Lies code d.ip [.op .print]) (hs : d.stack = x :: rest) :
    Reaches clock code g { d.next 1 rest with output := d.output ++ [x.text] } (Run.readOpcode >>= Run.perform) m := by
  obtain ⟨m₁, hop, hshown, -⟩ := h.read_op hat
  obtain ⟨v, hd, hpop, hpopped⟩ := hshown.pop hs
  have hsink := hpopped.output
  change m₁.sink = { written := printed d.output } at hsink
  have hwrite : m₁.sink.write (x.text ++ "\n") = (true, { written := printed (d.output ++ [x.text]) }) := by
    rw [hsink, printed_append]
    rfl
  have hprint := congrArg (fun p : Bool × Sink => (EStateM.Result.ok p.1
    { m₁ with stack := m₁.stack.pop, sink := p.2 } : EStateM.Result Failure Machine Bool)) hwrite
  refine after_ok hop (goOn (after_ok hpop (.look_bind hd.display_eq (after_ok hprint ?_))))
  exact .pure ⟨⟨hpopped.sane.heap, hpopped.sane.size_le, hpopped.sane.length_le, hpopped.sane.stack, hpopped.sane.frames,
      hpopped.sane.globals, hpopped.sane.keyed, hpopped.sane.opened, hpopped.sane.initName⟩, hpopped.frames,
      hpopped.spells, hpopped.stack, hpopped.globals, rfl, hpopped.opened⟩

/-! ## Operators -/

theorem unary (h : d.Shown clock code g m) (operator : UnaryOperator) (hat : Lies code d.ip [.op operator.opcode])
    (hs : d.stack = x :: rest) : Obeys clock code g m (Run.readOpcode >>= Run.perform)
      ((operator.apply x).map fun y => d.next 1 (y :: rest)) := by
  obtain ⟨m₁, hop, hshown, hsink⟩ := h.read_op hat
  cases operator with
  | not =>
    obtain ⟨v, hd, hpop, hpopped⟩ := hshown.pop hs
    exact after_ok hop (goOn (after_ok hpop (hd.isFalsey_eq ▸ hpopped.push (.bool _))))
  | negate =>
    obtain ⟨v, hd, hpeek⟩ := hshown.peek (j := 0) (x := x) (by simp [hs])
    cases hd with
    | number n =>
      obtain ⟨values, hpoke, hpoked⟩ := hshown.poke hs (.number n.neg)
      exact after_ok hop (goOn (after_ok hpeek (ends_ok hpoke hpoked)))
    | _ => exact after_ok hop (breakOff (after_ok hpeek (.fail ⟨rfl, hsink⟩)))

/-- Two values are popped. -/
theorem pop_two (h : d.Shown clock code g m) (hs : d.stack = y :: x :: rest) : ∃ v w m₁ m₂,
    m.heap.Denotes clock v x ∧ m.heap.Denotes clock w y ∧ Run.pop m = .ok w m₁ ∧ Run.pop m₁ = .ok v m₂ ∧
      { d with stack := rest }.Shown clock code g m₂ := by
  obtain ⟨w, hw, hpop, hpopped⟩ := h.pop hs
  obtain ⟨v, hv, hpop', hpopped'⟩ := hpopped.pop rfl
  exact ⟨v, w, _, _, hv, hw, hpop, hpop', hpopped'⟩

theorem equal (h : d.Shown clock code g m) (hs : d.stack = y :: x :: rest) :
    Run.Ends Full Run.equal m fun _ m' => { d with stack := .bool (x.equals y) :: rest }.Shown clock code g m' := by
  obtain ⟨v, w, m₁, m₂, hv, hw, hpop, hpop', hshown⟩ := h.pop_two hs
  exact after_ok hpop (after_ok hpop' (hv.equals_eq h.sane.heap.interned hw ▸ hshown.push (.bool _)))

/-- An operation on numbers is performed on two numbers. -/
theorem onNumbers {f : Number → Number → Value} {f' : Number → Number → Datum}
    (hf : ∀ (heap : Heap) a b, heap.Denotes clock (f a b) (f' a b)) (h : d.Shown clock code g m)
    (hs : d.stack = y :: x :: rest) : Obeys clock code g m
      (do let _ ← (do let (a, b) ← Run.popNumbers; Run.push (f a b)); return false)
      ((Datum.onNumbers f' x y).map fun z => { d with stack := z :: rest }) := by
  obtain ⟨v, hv, hpeek⟩ := h.peek (j := 1) (x := x) (by simp [hs])
  obtain ⟨w, hw, hpeek'⟩ := h.peek (j := 0) (x := y) (by simp [hs])
  cases hv with
  | number a =>
    cases hw with
    | number b =>
      obtain ⟨_, _, m₁, m₂, -, -, hpop, hpop', hshown⟩ := h.pop_two hs
      have hnumbers : Run.popNumbers m = .ok (a, b) m₂ := by
        unfold Run.popNumbers
        rw [Run.bind_of_ok hpeek, Run.bind_of_ok hpeek']
        exact (Run.bind_of_ok hpop).trans (Run.bind_of_ok hpop')
      exact goOn (after_ok hnumbers (hshown.push (hf _ a b)))
    | _ => exact breakOff (breakOff (after_ok hpeek (after_ok hpeek' (.fail ⟨rfl, rfl⟩))))
  | _ => exact breakOff (breakOff (after_ok hpeek (after_ok hpeek' (.fail ⟨rfl, rfl⟩))))

/-- A value is a string, or no object of that kind. -/
theorem asKind_string {heap : Heap} (hd : heap.Denotes clock v x) :
    (∃ z s, v = .obj z ∧ x = .string s ∧ heap.asKind .string v = .ok (some z)) ∨
      (∀ s, x ≠ .string s) ∧ heap.asKind .string v = .ok none := by
  cases hd with
  | @string z s hs =>
    obtain ⟨text, bytes, hcell, -⟩ := (Heap.hasContents_iff heap _ _).1 hs
    exact .inl ⟨z, s, rfl, rfl, by rw [Run.asKind_of_cell? hcell]; rfl⟩
  | clock hc => exact .inr ⟨nofun, by rw [Run.asKind_of_cell? hc]; rfl⟩
  | _ => exact .inr ⟨nofun, rfl⟩

/-- Strings are joined. -/
theorem concatenate {s t : String} {z z' : Handle} (h : d.Shown clock code g m)
    (hs : d.stack = .string t :: .string s :: rest) (hz : m.heap.hasContents s z = true)
    (hz' : m.heap.hasContents t z' = true) : Run.Ends Full (Run.concatenate z z') m fun _ m' =>
      { d with stack := .string (s ++ t) :: rest }.Shown clock code g m' := by
  obtain ⟨r, heap, hintern, hshown, hr⟩ := h.intern (s ++ t)
  obtain ⟨w, -, hpop, hpopped⟩ := hshown.pop hs
  obtain ⟨v, -, hpop', hpopped'⟩ := hpopped.pop rfl
  refine .look_bind (Heap.contents_eq_ok_iff.2 hz) (.look_bind (Heap.contents_eq_ok_iff.2 hz') ?_)
  exact after_ok hintern (after_ok hpop (after_ok hpop' (hpopped'.push (.string hr))))

/-- Only two numbers can be added, and only two strings joined. -/
theorem add_apply_error (hnumbers : ∀ a b, x = .number a → y ≠ .number b)
    (hstrings : ∀ s t, x = .string s → y ≠ .string t) :
    BinaryOperator.add.apply x y = .error .operandsNotNumbersOrStrings := by
  cases x <;> cases y <;>
    first | rfl | exact absurd rfl (hnumbers _ _ rfl) | exact absurd rfl (hstrings _ _ rfl)

/-- Adding tries strings where there are no numbers. -/
theorem add_texts (hv : Run.peek 1 m = .ok v m) (hw : Run.peek 0 m = .ok w m)
    (hne : ∀ a b, v = .number a → w ≠ .number b) {E : Failure → Machine → Prop} {Q : Unit → Machine → Prop}
    (h : Run.Ends E (do
      match ← Run.asKind .string v, ← Run.asKind .string w with
      | some s, some t => Run.concatenate s t
      | _, _ => Run.fail .operandsNotNumbersOrStrings) m Q) : Run.Ends E Run.add m Q := by
  refine after_ok hw (after_ok hv ?_)
  split
  · exact absurd rfl (hne _ _ rfl)
  · exact h

theorem add (h : d.Shown clock code g m) (hs : d.stack = y :: x :: rest) :
    Obeys clock code g m (do Run.add; return false)
      ((BinaryOperator.add.apply x y).map fun z => { d with stack := z :: rest }) := by
  obtain ⟨v, hv, hpeek⟩ := h.peek (j := 1) (x := x) (by simp [hs])
  obtain ⟨w, hw, hpeek'⟩ := h.peek (j := 0) (x := y) (by simp [hs])
  by_cases hnumbers : ∃ a b, v = .number a ∧ w = .number b
  · obtain ⟨a, b, rfl, rfl⟩ := hnumbers
    cases hv
    cases hw
    obtain ⟨_, _, m₁, m₂, -, -, hpop, hpop', hshown⟩ := h.pop_two hs
    exact goOn (after_ok hpeek' (after_ok hpeek (after_ok hpop (after_ok hpop' (hshown.push (.number _))))))
  have hvalues : ∀ a b, v = .number a → w ≠ .number b := fun a b ha hb => hnumbers ⟨a, b, ha, hb⟩
  have hdata : ∀ a b, x = .number a → y ≠ .number b := by
    rintro a b rfl rfl
    cases hv
    cases hw
    exact hnumbers ⟨a, b, rfl, rfl⟩
  rcases asKind_string hv with ⟨z, s, rfl, rfl, hs'⟩ | ⟨hx, hs'⟩
  · rcases asKind_string hw with ⟨z', t, rfl, rfl, ht⟩ | ⟨hy, ht⟩
    · cases hv with
      | string hz =>
        cases hw with
        | string hz' => exact goOn (add_texts hpeek hpeek' hvalues (.look_bind hs' (.look_bind ht (h.concatenate hs hz hz'))))
    · rw [add_apply_error hdata fun _ t _ => hy t]
      exact breakOff (add_texts hpeek hpeek' hvalues (.look_bind hs' (.look_bind ht (.fail ⟨rfl, rfl⟩))))
  · rw [add_apply_error hdata fun s _ h => absurd h (hx s)]
    rcases asKind_string hw with ⟨z', t, -, -, ht⟩ | ⟨-, ht⟩
    all_goals exact breakOff (add_texts hpeek hpeek' hvalues (.look_bind hs' (.look_bind ht (.fail ⟨rfl, rfl⟩))))

theorem binary {o : Opcode} {operator : BinaryOperator} (h : d.Shown clock code g m) (ho : operator.opcodes = [o])
    (hat : Lies code d.ip [.op o]) (hs : d.stack = y :: x :: rest) :
    Obeys clock code g m (Run.readOpcode >>= Run.perform)
      ((operator.apply x y).map fun z => d.next 1 (z :: rest)) := by
  obtain ⟨m₁, hop, hshown, hsink⟩ := h.read_op hat
  refine .after_read hop hsink ?_
  cases operator <;> cases ho
  · exact goOn (hshown.equal hs)
  · rw [BinaryOperator.apply]
    exact onNumbers (f := fun a b => .bool (b.lt a)) (fun _ _ _ => .bool _) hshown hs
  · rw [BinaryOperator.apply]
    exact onNumbers (f := fun a b => .bool (a.lt b)) (fun _ _ _ => .bool _) hshown hs
  · exact hshown.add hs
  · rw [BinaryOperator.apply]
    exact onNumbers (f := fun a b => .number (a.sub b)) (fun _ _ _ => .number _) hshown hs
  · rw [BinaryOperator.apply]
    exact onNumbers (f := fun a b => .number (a.mul b)) (fun _ _ _ => .number _) hshown hs
  · rw [BinaryOperator.apply]
    exact onNumbers (f := fun a b => .number (a.div b)) (fun _ _ _ => .number _) hshown hs

/-! ## Jumps -/

/-- The distance of a jump is read. -/
theorem read_jump {distance : Nat} (h : d.Shown clock code g m) (hat : Lies code d.ip [.jump op distance]) :
    ∃ m₁ m₂, Run.readOpcode m = .ok op m₁ ∧ Run.readDistance m₁ = .ok distance m₂ ∧
      { d with ip := d.ip + 3 }.Shown clock code g m₂ := by
  obtain ⟨piece, hpiece, hholds⟩ := h.spells.encodes hat nofun
  cases hpiece with
  | jump _ near =>
    obtain ⟨m₂, hconsumes, hshown, -⟩ := h.consumes hholds
    obtain ⟨m₁, hop, hbytes⟩ := hconsumes.uncons
    refine ⟨m₁, m₂, Run.readOpcode_of_consumes hop, ?_, hshown⟩
    have hlt : distance < 65536 := Nat.lt_succ_of_le near
    rw [Run.readDistance_of_consumes hbytes, Chunk.distance_ofNat hlt]

/-- The call goes on at another offset. -/
theorem goes (h : d.Shown clock code g m) : ∃ f, m.frames = [f] ∧ f.ip = d.ip ∧
    ∀ t, { d with ip := t }.Shown clock code g { m with frames := [{ f with ip := t }] } := by
  obtain ⟨f, hf, hip, hbase, hg⟩ := h.frames
  refine ⟨f, hf, hip, fun t => ?_⟩
  have hsane := ((Run.jumpTo_tame h.sane t).of_ok (Run.jumpTo_of_frames hf t)).1
  exact ⟨hsane, ⟨_, rfl, rfl, hbase, hg⟩, h.spells, h.stack, h.globals, h.output, h.opened⟩

variable {distance t : Nat}

theorem jump (h : d.Shown clock code g m) (hat : Lies code d.ip [.jump .jump distance]) :
    Reaches clock code g (d.next (3 + distance) d.stack) (Run.readOpcode >>= Run.perform) m := by
  obtain ⟨m₁, m₂, hop, hread, hshown⟩ := h.read_jump hat
  obtain ⟨f, hf, hip, hgoes⟩ := hshown.goes
  have hjump := hgoes (f.ip + distance)
  rw [hip, Nat.add_assoc] at hjump
  exact after_ok hop (goOn (ends_ok (Run.jump_eq hread hf) (by rwa [hip, Nat.add_assoc])))

theorem loop (h : d.Shown clock code g m) (hat : Lies code d.ip [.jump .loop distance])
    (ht : t + distance = d.ip + 3) :
    Reaches clock code g { d with ip := t } (Run.readOpcode >>= Run.perform) m := by
  obtain ⟨m₁, m₂, hop, hread, hshown⟩ := h.read_jump hat
  obtain ⟨f, hf, hip, hgoes⟩ := hshown.goes
  obtain rfl : f.ip - distance = t := by
    rw [hip]
    exact (Nat.sub_eq_of_eq_add ht.symm)
  have hle : distance ≤ f.ip := by
    rw [hip]
    exact ht ▸ Nat.le_add_left _ _
  exact after_ok hop (goOn (ends_ok (Run.jumpBack_eq hread hf hle) (hgoes _)))

theorem jumpIfFalse (h : d.Shown clock code g m) (hat : Lies code d.ip [.jump .jumpIfFalse distance])
    (hs : d.stack = x :: rest) :
    Reaches clock code g (d.next (if x.isFalsey then 3 + distance else 3) d.stack)
      (Run.readOpcode >>= Run.perform) m := by
  obtain ⟨m₁, m₂, hop, hread, hshown⟩ := h.read_jump hat
  obtain ⟨v, hd, hpeek⟩ := hshown.peek (j := 0) (x := x) (by simp [hs])
  obtain ⟨f, hf, hip, hgoes⟩ := hshown.goes
  refine after_ok hop (goOn (after_ok hread (after_ok hpeek (.ite (fun hfalsey => ?_) fun hfalsey => .pure ?_))))
  · rw [hd.isFalsey_eq] at hfalsey
    have hjump := hgoes (f.ip + distance)
    rw [hip, Nat.add_assoc] at hjump
    rw [if_pos hfalsey]
    exact after_ok (Run.frame_of_frames hf) (ends_ok (Run.jumpTo_of_frames hf _) (by rwa [hip, Nat.add_assoc]))
  · rw [hd.isFalsey_eq] at hfalsey
    rwa [if_neg hfalsey]

/-! ## Steps -/

/-- **An instruction is executed** on the machine as on data, or the stack is full. -/
theorem obeys {r : Except RuntimeError Desk} (h : d.Shown clock code g m) (hat : Lies code d.ip [i])
    (ha : Acts i d r) : Obeys clock code g m (Run.readOpcode >>= Run.perform) r := by
  cases ha with
  | literal hi => exact h.literal hi hat
  | getLocal hj hx => exact h.getLocal hat hj hx
  | setLocal hj hlt htop => exact h.setLocal hat hj hlt htop
  | getGlobal hx => exact h.getGlobal hat hx
  | getUndefined hx => exact h.getUndefined hat hx
  | setGlobal htop hy => exact h.setGlobal hat htop hy
  | setUndefined htop hy => exact h.setUndefined hat htop hy
  | define hs => exact h.define hat hs
  | pop hs => exact h.pop_top hat hs
  | print hs => exact h.print hat hs
  | unary operator hs => exact h.unary operator hat hs
  | binary ho hs => exact h.binary ho hat hs
  | jump distance => exact h.jump hat
  | jumpIfFalse distance hs => exact h.jumpIfFalse hat hs
  | loop ht => exact h.loop hat ht

/-- What an execution reports before an instruction changes nothing. -/
theorem execute_eq (h : d.Shown clock code g m) : ∃ m', Run.execute m = (Run.readOpcode >>= Run.perform) m' ∧
    d.Shown clock code g m' ∧ m'.sink = m.sink := by
  have hexecute : Run.execute m = (if m.heap.journal.admits .trace = true
      then (do Run.report; Run.perform (← Run.readOpcode)) else (do Run.perform (← Run.readOpcode))) m := rfl
  rw [hexecute]
  by_cases htrace : m.heap.journal.admits .trace = true
  · rw [if_pos htrace]
    obtain ⟨f, hf, -⟩ := h.frames
    have hreport := (Run.report_ends (E := fun _ _ => False) h.sane fun hnil => by simp [hf] at hnil).and
      (Run.report_tame h.sane)
    obtain ⟨_, m', hreport, ⟨texts, text, rfl⟩, hs⟩ := (hreport.weaken fun _ _ he => he.1).ok
    exact ⟨_, Run.bind_of_ok hreport, h.heap_to hs fun x _ => by simp, rfl⟩
  · rw [if_neg htrace]
    exact ⟨m, rfl, h, rfl⟩

/-- **A step** is done on the machine as on data, or the stack is full. -/
theorem step (h : d.Shown clock code g m) (hat : Lies code d.ip [i]) (ha : Acts i d (.ok d')) :
    (∃ m', m.step = .error (.error .stackOverflow) m') ∨ ∃ m', m.step = .ok false m' ∧ d'.Shown clock code g m' := by
  obtain ⟨m₁, hexecute, hshown, -⟩ := h.execute_eq
  have hobeys : Reaches clock code g d' (Run.readOpcode >>= Run.perform) m₁ := hshown.obeys hat ha
  unfold Machine.step
  rw [hexecute]
  unfold Reaches Run.Ends at hobeys
  cases hm : (Run.readOpcode >>= Run.perform) m₁ with
  | ok done m' =>
    rw [hm] at hobeys
    obtain ⟨rfl, hshown'⟩ := hobeys
    exact .inr ⟨m', rfl, hshown'⟩
  | error e m' =>
    rw [hm] at hobeys
    obtain rfl : e = .error .stackOverflow := hobeys
    exact .inl ⟨m', rfl⟩

/-- **A step that fails** on data fails on the machine. -/
theorem fails (h : d.Shown clock code g m) (hf : Fails code d e) :
    ∃ m', m.step = .error (.error e) m' ∧ m'.sink = m.sink := by
  obtain ⟨i, hat, ha⟩ := hf
  obtain ⟨m₁, hexecute, hshown, hsink⟩ := h.execute_eq
  have hobeys : Breaks e (Run.readOpcode >>= Run.perform) m₁ := hshown.obeys hat ha
  unfold Machine.step
  rw [hexecute]
  unfold Breaks Run.Ends at hobeys
  cases hm : (Run.readOpcode >>= Run.perform) m₁ with
  | ok done m' =>
    rw [hm] at hobeys
    exact hobeys.elim
  | error e' m' =>
    rw [hm] at hobeys
    obtain ⟨rfl, hsink'⟩ := hobeys
    exact ⟨m', rfl, hsink'.trans hsink⟩

/-- **A run** is the same on the machine as on data, unless the stack overflows. -/
theorem runs {n : Nat} (h : d.Shown clock code g m) (hmoves : Moves code n d d')
    (hroom : ∀ fuel m', m.run fuel ≠ .failed (.error .stackOverflow) m') :
    ∃ m', d'.Shown clock code g m' ∧ ∀ fuel, m.run (n + fuel) = m'.run fuel := by
  induction hmoves generalizing m with
  | refl => exact ⟨m, h, fun fuel => by rw [Nat.zero_add]⟩
  | @step n i d d' d'' hat ha _ ih =>
    rcases h.step hat ha with ⟨m', hstep⟩ | ⟨m₁, hstep, hshown⟩
    · refine absurd ?_ (hroom 1 m')
      rw [Machine.run, hstep]
    · have hnext : ∀ fuel, m.run (fuel + 1) = m₁.run fuel := fun fuel => by rw [Machine.run, hstep]
      obtain ⟨m', hshown', hrun⟩ := ih hshown fun fuel m' hfull => hroom (fuel + 1) m' ((hnext fuel).trans hfull)
      exact ⟨m', hshown', fun fuel => by rw [Nat.add_right_comm, hnext, hrun]⟩

/-- **The end of a script.** -/
theorem ret (h : d.Shown clock code g m) (hat : Lies code d.ip [.op .ret]) (hs : d.stack = x :: rest) :
    ∃ m', m.step = .ok true m' ∧ m'.sink = m.sink := by
  obtain ⟨m₁, hexecute, hshown, hsink⟩ := h.execute_eq
  obtain ⟨m₂, hop, hshown, hsink₂⟩ := hshown.read_op hat
  obtain ⟨v, -, hpop, hpopped⟩ := hshown.pop hs
  obtain ⟨f, hf, -⟩ := hpopped.frames
  have hret : Run.Ends (fun _ _ => False) Run.ret m₂ fun done m' => done = true ∧ m'.sink = m₂.sink := by
    refine after_ok hpop (after_ok (Run.frame_of_frames hf) (after_ok rfl ?_))
    have hclose : Run.closeFrom f.base m₂.openUpvalues { m₂ with stack := m₂.stack.pop, frames := m₂.frames.tail } =
        .ok () { m₂ with stack := m₂.stack.pop, frames := m₂.frames.tail } := by
      rw [hshown.opened]
      rfl
    have hempty : m₂.frames.tail.isEmpty = true := by
      rw [show m₂.frames = [f] from hf]
      rfl
    exact after_ok hclose <| .get <| .ite (fun _ => after_ok rfl (.pure ⟨rfl, rfl⟩)) fun hne => absurd hempty hne
  obtain ⟨_, m', hret, rfl, hsink'⟩ := hret.ok
  refine ⟨m', ?_, hsink'.trans (hsink₂.trans hsink)⟩
  unfold Machine.step
  rw [hexecute, Run.bind_of_ok hop]
  exact hret

end Desk.Shown

end LoxMachine.Symbolic
