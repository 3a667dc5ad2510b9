import LoxMachine.Proofs.Code.Reading
import LoxMachine.Proofs.Machine.Listing

/-!
# Instructions in a listing

* `Listing.operation_gives`: an instruction of which all bytes are there is listed with its operands, and the
  next one begins right after them. A jump is listed with its target, and a closure with a line for each
  variable that it captures.
* `Listing.starts_of_lists`: where all instructions can be read, there is one line for each of them.
-/

namespace LoxMachine

namespace Listing

variable {α β : Type} {heap : Heap} {f : Function} {o : Nat} {i : Instruction} {c : Chunk}
  {captures : List UInt8}

/-! ## Operands -/

theorem Gives.pure (a : α) : Gives (Pure.pure a) a := rfl

theorem Gives.bind {x : ExceptT DecodeError (Except Fault) α} {g : α → ExceptT DecodeError (Except Fault) β}
    {a : α} {b : β} (hx : Gives x a) (hg : Gives (g a) b) : Gives (x >>= g) b := by
  unfold Gives
  rw [ExceptT.run_bind, hx]
  exact hg

theorem Gives.decode_bind {e : Except DecodeError α} {g : α → ExceptT DecodeError (Except Fault) β} {a : α} {b : β}
    (he : e = .ok a) (hg : Gives (g a) b) : Gives (liftM e >>= g) b :=
  .bind (by rw [he]; rfl) hg

theorem Gives.lift_bind {e : Except Fault α} {g : α → ExceptT DecodeError (Except Fault) β} {a : α} {b : β}
    (he : e = .ok a) (hg : Gives (g a) b) : Gives (liftM e >>= g) b :=
  .bind (by rw [he]; rfl) hg

/-- The lines for captured variables, each named by two bytes. -/
def captureTexts (o : Nat) : List (UInt8 × UInt8) → String
  | [] => ""
  | (origin, index) :: more => "\n" ++ offsetColumn o ++
      s!"      |                     {originText origin} {index}" ++ captureTexts (o + 2) more

theorem captureLines_of_holds {n : Nat} (h : Holds c.code o captures) (hlength : captures.length = 2 * n) :
    captureLines c n o = .ok (captureTexts o (Instruction.pairs captures), o + 2 * n) := by
  induction n generalizing o captures with
  | zero =>
    obtain rfl := List.eq_nil_of_length_eq_zero hlength
    rfl
  | succ n ih =>
    rcases captures with _ | ⟨origin, _ | ⟨index, captures⟩⟩
    · simp at hlength
    · simp at hlength
      omega
    · have hmore := ih h.tail.tail (by simpa [Nat.mul_succ] using hlength)
      simp only [captureLines, h.read8, h.tail.read8, hmore, bind, Except.bind]
      change Except.ok (_, o + 1 + 1 + 2 * n) = Except.ok (_, o + 2 * (n + 1))
      rw [show o + 1 + 1 + 2 * n = o + 2 * (n + 1) by omega]
      rfl

theorem captureCount_of_function {index : UInt8} {x : Handle} {g : Function}
    (hx : c.constants[index.toNat]? = some (.obj x)) (hg : heap.function x = .ok g) :
    captureCount heap c index = .ok g.upvalueCount := by
  obtain ⟨bytes, hcell⟩ := Heap.function_eq_ok_iff.1 hg
  simp only [captureCount, hx, Heap.object_of_cell? hcell, bind, Except.bind]
  rfl

/-- What is shown of the operands of an instruction. -/
structure Shows (i : Instruction) (o : Nat) (text : String) : Prop where
  target : ∀ t ∈ i.targets o, text = jumpLine i.op o t
  captures : ∀ c captures, i.op = .closure → i.args = c :: captures → ∃ name,
    text = mnemonicColumn .closure ++ byteColumn c ++ " " ++ name ++ captureTexts (o + 2) (Instruction.pairs captures)

theorem targets_forward {op : Opcode} (hop : op.operands = .forward) (o : Nat) (high low : UInt8) :
    Instruction.targets ⟨op, [high, low]⟩ o = [(o : Int) + 3 + distance high low] := by
  cases op <;> simp_all [Opcode.operands, Instruction.targets]

theorem targets_backward {op : Opcode} (hop : op.operands = .backward) (o : Nat) (high low : UInt8) :
    Instruction.targets ⟨op, [high, low]⟩ o = [(o : Int) + 3 - distance high low] := by
  cases op <;> simp_all [Opcode.operands, Instruction.targets]

theorem targets_eq_nil {op : Opcode} (hforward : op.operands ≠ .forward) (hbackward : op.operands ≠ .backward)
    (args : List UInt8) (o : Nat) : Instruction.targets ⟨op, args⟩ o = [] := by
  cases op <;> simp_all [Opcode.operands, Instruction.targets]

theorem Shows.of_jump {op : Opcode} {args : List UInt8} {t : Int} (ht : Instruction.targets ⟨op, args⟩ o = [t])
    (hcaptures : op.operands ≠ .captures) : Shows ⟨op, args⟩ o (jumpLine op o t) where
  target t' ht' := by
    rw [ht, List.mem_singleton] at ht'
    rw [ht']
  captures c captures hop := by
    obtain rfl : op = .closure := hop
    exact absurd rfl hcaptures

theorem Shows.of_plain {op : Opcode} (hforward : op.operands ≠ .forward) (hbackward : op.operands ≠ .backward)
    (hcaptures : op.operands ≠ .captures) (args : List UInt8) (o : Nat) (text : String) :
    Shows ⟨op, args⟩ o text where
  target t ht := by
    rw [targets_eq_nil hforward hbackward] at ht
    exact absurd ht List.not_mem_nil
  captures c captures hop := by
    obtain rfl : op = .closure := hop
    exact absurd rfl hcaptures

/-- **An instruction is listed with all its operands.** -/
theorem operation_gives (h : f.instructionAt? heap o = some i) (hd : Displays heap f.chunk) :
    ∃ text, Gives (operation heap f.chunk i.op o) (text, o + i.size) ∧ Shows i o text := by
  obtain ⟨hholds, htakes⟩ := instructionAt?_eq_some_iff.1 h
  obtain ⟨op, args⟩ := i
  have hargs : Holds f.chunk.code (o + 1) args := hholds.tail
  unfold operation
  cases htakes with
  | none hop =>
    simp only [hop]
    exact ⟨_, .pure _, .of_plain (by simp [hop]) (by simp [hop]) (by simp [hop]) _ _ _⟩
  | byte hop b =>
    simp only [hop]
    exact ⟨_, .decode_bind hargs.read8 (.pure _),
      .of_plain (by simp [hop]) (by simp [hop]) (by simp [hop]) _ _ _⟩
  | constant hop c =>
    simp only [hop]
    obtain ⟨text, htext⟩ := constantText_ok hd c
    exact ⟨_, .decode_bind hargs.read8 (.lift_bind htext (.pure _)),
      .of_plain (by simp [hop]) (by simp [hop]) (by simp [hop]) _ _ _⟩
  | forward hop high low =>
    simp only [hop]
    exact ⟨_, .decode_bind hargs.read16 (.pure _), .of_jump (targets_forward hop o high low) (by simp [hop])⟩
  | backward hop high low =>
    simp only [hop]
    exact ⟨_, .decode_bind hargs.read16 (.pure _), .of_jump (targets_backward hop o high low) (by simp [hop])⟩
  | invocation hop c count =>
    simp only [hop]
    obtain ⟨text, htext⟩ := constantText_ok hd c
    exact ⟨_, .decode_bind hargs.read8 (.decode_bind hargs.tail.read8 (.lift_bind htext (.pure _))),
      .of_plain (by simp [hop]) (by simp [hop]) (by simp [hop]) _ _ _⟩
  | @captures c captures x g hop hx hg hlength =>
    simp only [hop]
    obtain ⟨name, hname⟩ := constantText_ok hd c
    have hlines := captureLines_of_holds hargs.tail hlength
    have hsize : o + Instruction.size ⟨op, c :: captures⟩ = o + 1 + 1 + 2 * g.upvalueCount := by
      rw [Instruction.size, List.length_cons, hlength]
      omega
    rw [hsize]
    refine ⟨_, .decode_bind hargs.read8 (.lift_bind hname (.lift_bind (captureCount_of_function hx hg)
      (.decode_bind hlines (.pure _)))), ⟨fun t ht => ?_, fun c' captures' hclosure hcons => ?_⟩⟩
    · rw [targets_eq_nil (by simp [hop]) (by simp [hop])] at ht
      exact absurd ht List.not_mem_nil
    · cases hclosure
      cases hcons
      exact ⟨name, rfl⟩

theorem opcodeAt_of_instructionAt? (h : f.instructionAt? heap o = some i) : f.chunk.opcodeAt o = .ok i.op := by
  have hbyte := (instructionAt?_eq_some_iff.1 h).1.read8
  simp only [Chunk.opcodeAt, hbyte, bind, Except.bind, Opcode.ofByte?_toByte]
  rfl

theorem instruction_of_gives {op : Opcode} {text : String} {next : Nat} (hop : c.opcodeAt o = .ok op)
    (h : Gives (operation heap c op o) (text, next)) :
    instruction heap c o = .ok (offsetColumn o ++ " " ++ lineColumn c o ++ text, next) := by
  unfold instruction
  dsimp only
  rw [hop]
  dsimp only
  rw [h]
  rfl

/-! ## Whole functions -/

variable {lines : List (Nat × String)}

/-- After each line comes that of the next instruction. -/
theorem Lists.next {o' next : Nat} {text : String} (h : Lists heap c o lines) (hmem : o' ∈ lines.map Prod.fst)
    (hread : instruction heap c o' = .ok (text, next)) (hin : next < c.size) : next ∈ lines.map Prod.fst := by
  induction h with
  | stop => exact absurd hmem List.not_mem_nil
  | @line o next' text' lines inside read rest ih =>
    rw [List.map_cons, List.mem_cons] at hmem ⊢
    rcases hmem with rfl | hmem
    · cases read.symm.trans hread
      cases rest with
      | stop past => exact absurd hin (Nat.not_lt.2 past)
      | line => exact .inr List.mem_cons_self
    · exact .inr (ih hmem)

/-- **There is a line for every instruction, and for nothing else**, if the code is made of instructions. -/
theorem starts_of_lists (hd : Displays heap f.chunk)
    (hwhole : ∀ o, f.Start heap o → o = f.chunk.size ∨ ∃ i, f.instructionAt? heap o = some i)
    (h : Lists heap f.chunk 0 lines) (o : Nat) :
    o ∈ lines.map Prod.fst ↔ f.Start heap o ∧ o < f.chunk.size := by
  constructor
  · have hstarts : ∀ {o : Nat} {lines : List (Nat × String)}, f.Start heap o → Lists heap f.chunk o lines →
        ∀ o' ∈ lines.map Prod.fst, f.Start heap o' ∧ o' < f.chunk.size := by
      intro o lines hs h
      induction h with
      | stop => exact fun o' ho' => absurd ho' List.not_mem_nil
      | @line o next text lines inside read rest ih =>
        obtain ⟨i, hi⟩ := (hwhole o hs).resolve_left (Nat.ne_of_lt inside)
        obtain ⟨text', hgives, -⟩ := operation_gives hi hd
        cases (instruction_of_gives (opcodeAt_of_instructionAt? hi) hgives).symm.trans read
        intro o' ho'
        rcases List.mem_cons.1 ho' with rfl | ho'
        · exact ⟨hs, inside⟩
        · exact ih (hs.next hi) o' ho'
    exact hstarts .zero h o
  · rintro ⟨hs, hin⟩
    induction hs with
    | zero =>
      cases h with
      | stop past => exact absurd hin (Nat.not_lt.2 past)
      | line => exact List.mem_cons_self
    | @next o i hs hi ih =>
      obtain ⟨text, hgives, -⟩ := operation_gives hi hd
      have hread := instruction_of_gives (opcodeAt_of_instructionAt? hi) hgives
      have hlt : o < f.chunk.size := by
        have := (instructionAt?_eq_some_iff.1 hi).1.length_le (List.cons_ne_nil _ _)
        rw [List.length_cons] at this
        unfold Chunk.size
        omega
      exact h.next (ih hlt) hread hin

end Listing

end LoxMachine
