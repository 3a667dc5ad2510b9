import LoxMachine.Proofs.Meaning.Evaluator
import LoxMachine.Proofs.Symbolic.Code
import LoxMachine.Proofs.Symbolic.Decoding

/-!
# Symbolic code at work on data

A script without calls in execution, with data in place of values.

* `Symbolic.Desk` is a state, and `Symbolic.Acts` what an instruction does to one.
* `Symbolic.Performs`: from one offset to another, the code does what an evaluation says. The rules follow
  the ways in which evaluations are put together.
-/

namespace LoxMachine.Symbolic

variable {code a b : Code} {i : Instruction} {o p o' n m : Nat}

/-! ## Instructions on data -/

/-- A script in execution. -/
structure Desk where
  ip : Nat
  /-- What is on the stack above slot `0`, its top first. -/
  stack : List Datum
  globals : String → Option Datum
  /-- The lines printed so far. -/
  output : List String

namespace Instruction

/-- The datum that an instruction pushes, if that is always the same one. -/
def literal? : Instruction → Option Datum
  | number n => some (.number n)
  | string s => some (.string s)
  | op .pushNil => some .nil
  | op .pushTrue => some (.bool true)
  | op .pushFalse => some (.bool false)
  | _ => none

end Instruction

namespace Desk

/-- Go on with another stack. -/
def next (d : Desk) (size : Nat) (stack : List Datum) : Desk := { d with ip := d.ip + size, stack }

end Desk

/-- What an instruction comes to: the next state, or an error. -/
inductive Acts : Instruction → Desk → Except RuntimeError Desk → Prop
  | literal {i : Instruction} {d : Desk} {x : Datum} (hi : i.literal? = some x) :
    Acts i d (.ok (d.next i.size (x :: d.stack)))
  | getLocal {d : Desk} {slot j : Nat} {name : String} {x : Datum} (hj : j + slot = d.stack.length)
    (hx : d.stack[j]? = some x) : Acts (.get (.own slot name)) d (.ok (d.next 2 (x :: d.stack)))
  | setLocal {d : Desk} {slot j : Nat} {name : String} {x : Datum} (hj : j + slot = d.stack.length)
    (hlt : j < d.stack.length) (htop : d.stack.head? = some x) :
    Acts (.set (.own slot name)) d (.ok (d.next 2 (d.stack.set j x)))
  | getGlobal {d : Desk} {name : String} {x : Datum} (hx : d.globals name = some x) :
    Acts (.get (.global name)) d (.ok (d.next 2 (x :: d.stack)))
  | getUndefined {d : Desk} {name : String} (hx : d.globals name = none) :
    Acts (.get (.global name)) d (.error (.undefinedVariable name))
  | setGlobal {d : Desk} {name : String} {x y : Datum} (htop : d.stack.head? = some x)
    (hy : d.globals name = some y) :
    Acts (.set (.global name)) d (.ok { d.next 2 d.stack with globals := Plain.extend d.globals name x })
  | setUndefined {d : Desk} {name : String} {x : Datum} (htop : d.stack.head? = some x)
    (hy : d.globals name = none) : Acts (.set (.global name)) d (.error (.undefinedVariable name))
  | define {d : Desk} {name : String} {x : Datum} {rest : List Datum} (hs : d.stack = x :: rest) :
    Acts (.named .defineGlobal name) d
      (.ok { d.next 2 rest with globals := Plain.extend d.globals name x })
  | pop {d : Desk} {x : Datum} {rest : List Datum} (hs : d.stack = x :: rest) :
    Acts (.op .pop) d (.ok (d.next 1 rest))
  | print {d : Desk} {x : Datum} {rest : List Datum} (hs : d.stack = x :: rest) :
    Acts (.op .print) d (.ok { d.next 1 rest with output := d.output ++ [x.text] })
  | unary {d : Desk} {x : Datum} {rest : List Datum} (operator : UnaryOperator) (hs : d.stack = x :: rest) :
    Acts (.op operator.opcode) d ((operator.apply x).map fun y => d.next 1 (y :: rest))
  | binary {d : Desk} {x y : Datum} {rest : List Datum} {o : Opcode} {operator : BinaryOperator}
    (ho : operator.opcodes = [o]) (hs : d.stack = y :: x :: rest) :
    Acts (.op o) d ((operator.apply x y).map fun z => d.next 1 (z :: rest))
  | jump {d : Desk} (distance : Nat) : Acts (.jump .jump distance) d (.ok (d.next (3 + distance) d.stack))
  | jumpIfFalse {d : Desk} {x : Datum} {rest : List Datum} (distance : Nat) (hs : d.stack = x :: rest) :
    Acts (.jump .jumpIfFalse distance) d
      (.ok (d.next (if x.isFalsey then 3 + distance else 3) d.stack))
  | loop {d : Desk} {distance t : Nat} (ht : t + distance = d.ip + 3) :
    Acts (.jump .loop distance) d (.ok { d with ip := t })

/-! ## Runs -/

/-- A number of instructions is executed. -/
inductive Moves (code : Code) : Nat → Desk → Desk → Prop
  | refl (d : Desk) : Moves code 0 d d
  | step {n : Nat} {i : Instruction} {d d' d'' : Desk} (hi : Lies code d.ip [i]) (h : Acts i d (.ok d'))
    (more : Moves code n d' d'') : Moves code (n + 1) d d''

namespace Moves

variable {d d' d'' : Desk}

theorem trans (h : Moves code n d d') (h' : Moves code m d' d'') : Moves code (n + m) d d'' := by
  induction h with
  | refl => rwa [Nat.zero_add]
  | step hi ha _ ih =>
    rw [Nat.add_right_comm]
    exact .step hi ha (ih h')

theorem single (hi : Lies code d.ip [i]) (h : Acts i d (.ok d')) : Moves code 1 d d' := .step hi h (.refl d')

end Moves

/-- An instruction fails that is executed next. -/
def Fails (code : Code) (d : Desk) (e : RuntimeError) : Prop := ∃ i, Lies code d.ip [i] ∧ Acts i d (.error e)

end LoxMachine.Symbolic

namespace LoxMachine

open Symbolic

namespace Store

/-- The names of the local variables. -/
def names (s : Store) : List String := s.locals.map Prod.fst

/-- The state of a script between two parts of an evaluation. The results that later parts need are above the
local variables. -/
def desk (s : Store) (ip : Nat) (results : List Datum) : Desk where
  ip := ip
  stack := results ++ s.locals.map Prod.snd
  globals := s.globals
  output := s.output

end Store

namespace Symbolic

variable {α β : Type} {code : Code} {i : Instruction} {fuel fuel' n o p o' : Nat} {names names' names'' : List String}
  {before : List Datum} {x : Eval α} {f : α → Eval β} {middle after : α → List Datum} {final : β → List Datum}

/-- What an evaluation comes to, the code comes to as well. If the evaluation runs out of fuel, then at least as
many instructions are executed. -/
def Comes (code : Code) (fuel : Nat) (names' : List String) (o' : Nat) (after : α → List Datum) (d : Desk) :
    EStateM.Result Interruption Store α → Prop
  | .ok a s' => s'.names = names' ∧ ∃ n, Moves code n d (s'.desk o' (after a))
  | .error (.failed e) s' => ∃ n d', Moves code n d d' ∧ Fails code d' e ∧ d'.output = s'.output
  | .error .outOfFuel _ => ∃ n d', fuel ≤ n ∧ Moves code n d d'

/-- From one offset to the other, the code does what the evaluation says. The evaluation finds the variables
`names` and leaves `names'`; before it the results `before` are on the stack, and after it those of `after`. -/
def Performs (code : Code) (fuel : Nat) (x : Eval α) (names names' : List String) (o o' : Nat)
    (before : List Datum) (after : α → List Datum) : Prop :=
  ∀ s : Store, s.names = names → Comes code fuel names' o' after (s.desk o before) (x s)

/-- After some instructions. -/
theorem Comes.after_moves {d d' : Desk} {result : EStateM.Result Interruption Store α}
    (h : Comes code fuel names' o' after d' result) (hd : Moves code n d d') :
    Comes code (n + fuel) names' o' after d result := by
  rcases result with ⟨a, s'⟩ | ⟨e | _, s'⟩
  · obtain ⟨hs', m, hm⟩ := h
    exact ⟨hs', _, hd.trans hm⟩
  · obtain ⟨m, d'', hm, hfails⟩ := h
    exact ⟨_, d'', hd.trans hm, hfails⟩
  · obtain ⟨m, d'', hle, hm⟩ := h
    exact ⟨_, d'', Nat.add_le_add_left hle n, hd.trans hm⟩

theorem Comes.mono {d : Desk} {result : EStateM.Result Interruption Store α}
    (h : Comes code fuel names' o' after d result) (hle : fuel' ≤ fuel) :
    Comes code fuel' names' o' after d result := by
  rcases result with ⟨a, s'⟩ | ⟨e | _, s'⟩
  · exact h
  · exact h
  · obtain ⟨n, d', hn, hd⟩ := h
    exact ⟨n, d', hle.trans hn, hd⟩

namespace Performs

/-- The end of a piece of code. -/
theorem done {value : α} (ho : o = o') (hafter : after value = before) :
    Performs code fuel (pure value) names names o o' before after := by
  intro s hs
  subst ho
  exact ⟨hs, 0, hafter.symm ▸ .refl (s.desk o before)⟩

theorem mono (h : Performs code fuel x names names' o o' before after) (hle : fuel' ≤ fuel) :
    Performs code fuel' x names names' o o' before after := fun s hs => (h s hs).mono hle

/-- One evaluation after another. -/
theorem bind (h : Performs code fuel x names names' o p before middle)
    (hf : ∀ value, Performs code fuel (f value) names' names'' p o' (middle value) final) :
    Performs code fuel (x >>= f) names names'' o o' before final := by
  intro s hs
  have hx := h s hs
  change Comes code fuel names'' o' final (s.desk o before) (EStateM.bind x f s)
  unfold EStateM.bind
  rcases hxs : x s with ⟨value, s'⟩ | ⟨e | _, s'⟩ <;> rw [hxs] at hx
  · obtain ⟨hs', n, hn⟩ := hx
    exact ((hf value s' hs').after_moves hn).mono (Nat.le_add_left _ _)
  · exact hx
  · exact hx

/-- An instruction before an evaluation. It counts as fuel. -/
theorem step {mid : List Datum} (hi : Lies code o [i])
    (hacts : ∀ s : Store, s.names = names → Acts i (s.desk o before) (.ok (s.desk p mid)))
    (h : Performs code fuel x names names' p o' mid after) :
    Performs code (1 + fuel) x names names' o o' before after := fun s hs =>
  (h s hs).after_moves (.single hi (hacts s hs))

/-- An instruction before an evaluation. -/
theorem after_step {mid : List Datum} (hi : Lies code o [i])
    (hacts : ∀ s : Store, s.names = names → Acts i (s.desk o before) (.ok (s.desk p mid)))
    (h : Performs code fuel x names names' p o' mid after) : Performs code fuel x names names' o o' before after :=
  (step hi hacts h).mono (Nat.le_add_left _ _)

/-- An evaluation that is a single instruction. -/
theorem single (hi : Lies code o [i])
    (hacts : ∀ s : Store, s.names = names → match x s with
      | .ok a s' => s'.names = names' ∧ Acts i (s.desk o before) (.ok (s'.desk o' (after a)))
      | .error (.failed e) s' => Acts i (s.desk o before) (.error e) ∧ s'.output = s.output
      | .error .outOfFuel _ => False) : Performs code fuel x names names' o o' before after := by
  intro s hs
  have hx := hacts s hs
  rcases hxs : x s with ⟨value, s'⟩ | ⟨e | _, s'⟩ <;> rw [hxs] at hx
  · exact ⟨hx.1, 1, .single hi hx.2⟩
  · exact ⟨0, _, .refl _, ⟨i, hi, hx.1⟩, hx.2.symm⟩
  · exact hx.elim

/-- Another way to say what an evaluation is, and where its code ends. -/
theorem congr {y : Eval α} {q : Nat} (h : Performs code fuel x names names' o o' before after) (hxy : x = y)
    (hq : o' = q) : Performs code fuel y names names' o q before after := hxy ▸ hq ▸ h

/-! ### Control -/

variable {x y : Eval α} {d : Datum} {distance : Nat}

theorem after_pop (hi : Lies code o [.op .pop]) (h : Performs code fuel x names names' (o + 1) o' before after) :
    Performs code fuel x names names' o o' (d :: before) after :=
  h.after_step hi fun _ _ => .pop rfl

/-- A value is popped before a piece of code. -/
theorem popping {a : Code} (hat : Lies code o (.op .pop :: a))
    (h : Lies code (o + 1) a → Performs code fuel x names names' (o + 1) (o + 1 + extent a) before after) :
    Performs code fuel x names names' o (o + extent (.op .pop :: a)) (d :: before) after :=
  .after_pop hat.head (.congr (h hat.tail) rfl (Nat.add_assoc o 1 (extent a)))

theorem after_jump (hi : Lies code o [.jump .jump distance])
    (h : Performs code fuel x names names' (o + (3 + distance)) o' before after) :
    Performs code fuel x names names' o o' before after :=
  h.after_step hi fun _ _ => .jump distance

/-- What is on top decides how to go on. -/
theorem choice (hi : Lies code o [.jump .jumpIfFalse distance])
    (hfalse : d.isFalsey = true → Performs code fuel x names names' (o + (3 + distance)) o' (d :: before) after)
    (htrue : d.isFalsey = false → Performs code fuel y names names' (o + 3) o' (d :: before) after) :
    Performs code fuel (if d.isFalsey then x else y) names names' o o' (d :: before) after := by
  have hacts : ∀ s : Store, Acts (.jump .jumpIfFalse distance) (s.desk o (d :: before))
      (.ok (s.desk (o + if d.isFalsey then 3 + distance else 3) (d :: before))) := fun s => .jumpIfFalse distance rfl
  cases hd : d.isFalsey with
  | true => exact (hfalse hd).after_step hi fun s _ => by simpa only [hd, if_true] using hacts s
  | false => exact (htrue hd).after_step hi fun s _ => by simpa [hd] using hacts s

/-- One of two pieces of code is executed. -/
theorem branch {p q : Code} (hat : Lies code o (Symbolic.branch p q))
    (hq : Lies code (o + 3 + extent p + 3) q → Performs code fuel x names names'
      (o + 3 + extent p + 3) (o + 3 + extent p + 3 + extent q) (d :: before) after)
    (hp : Lies code (o + 3) p →
      Performs code fuel y names names' (o + 3) (o + 3 + extent p) (d :: before) after) :
    Performs code fuel (if d.isFalsey then x else y) names names' o (o + extent (Symbolic.branch p q))
      (d :: before) after := by
  have hsize : extent (Symbolic.branch p q) = 3 + (extent p + (3 + extent q)) := by
    simp [Symbolic.branch, across, Instruction.size]
  have hrest := hat.tail
  refine .choice hat.head (fun _ => ?_) fun _ => ?_
  · rw [show o + (3 + (extent p + 3)) = o + 3 + extent p + 3 by omega]
    exact .congr (hq hrest.right.tail) rfl (by omega)
  · rw [← bind_pure y]
    exact .bind (hp hrest.left) fun _ => .after_jump hrest.right.head (.done (by omega) rfl)

end Performs

end Symbolic

end LoxMachine
