import LoxMachine.Proofs.Grammar.Costs
import LoxMachine.Proofs.Machine.Fetching

/-!
# Jumps, written and taken

The distance of a jump is written by the compiler, in two bytes, and read by the machine. Each of them
counts from another place: a patch from the end of the operand that it fills, a jump back from its
opcode to its own end, and the machine from the end of the operand that it has read.

* `Chunk.Sends k o t`: a machine that runs code with the three bytes of `k` at `o`, and comes to `o`, goes
  on at `t` if it takes the jump.
* `Compiler.Patched` and `Compiler.Looped` say what writing a distance does, also while an error is being
  recovered from: where the jump goes, when an error is reported, and what is left alone.
* `Compile.jumps_land`: jumps go where they are meant to, up to the longest distance; a longer one is
  reported, unless an error is being recovered from.
* `Compile.jump_astray_in_panic`: then it goes astray without a report.
-/

namespace LoxMachine

namespace Chunk

/-- The `n` bytes from `o` on are there, and are the same in both chunks. -/
def Retains (k k' : Chunk) (o n : Nat) : Prop :=
  ∀ i < n, ∃ b, k.code[o + i]? = some b ∧ k'.code[o + i]? = some b

/-- The jump at `o` goes to `t`: where the running function has its three bytes, the machine goes on from
`o` to `t`, if it takes the jump. -/
def Sends (k : Chunk) (o t : Nat) : Prop :=
  ∀ (m : Machine) (f : Frame) (rest : List Frame) (g : Function), m.frames = f :: rest → f.ip = o →
    m.heap.function f.function = .ok g → k.Retains g.chunk o 3 →
    (k.opcodeAt o = .ok .jumpIfFalse → ∃ v, m.stack.back? = some v ∧ v.isFalsey = true) →
    (Run.readOpcode >>= Run.perform) m = .ok false { m with frames := { f with ip := t } :: rest }

variable {k k' : Chunk} {o n d : Nat} {op : Opcode} {high low : UInt8} {bytes : List UInt8}

theorem Retains.holds (h : k.Retains k' o bytes.length) (hk : Holds k.code o bytes) : Holds k'.code o bytes := by
  intro i hi
  obtain ⟨b, hb, hb'⟩ := h i hi
  rw [hb', ← hb]
  exact hk i hi

theorem opcodeAt_of_holds (h : Holds k.code o (op.toByte :: bytes)) : k.opcodeAt o = .ok op := by
  unfold opcodeAt
  rw [h.read8]
  simp only [bind, Except.bind, Opcode.ofByte?_toByte]
  rfl

/-- A distance is put together again from its two bytes. -/
theorem distance_ofNat (h : d < 65536) : distance (UInt8.ofNat (d / 256)) (UInt8.ofNat d) = d := by
  simp only [distance, UInt8.toNat_ofNat']
  omega

/-- An instruction with a distance sends the machine to its target. -/
theorem sends_of_target {t : Nat} (hholds : Holds k.code o [op.toByte, high, low])
    (htakes : ∀ heap f, Function.Takes heap f op [high, low])
    (ht : (t : Int) ∈ Instruction.targets ⟨op, [high, low]⟩ o) : k.Sends o t := by
  rintro m f rest g hf rfl hg hretains hfalsey
  have hi : g.instructionAt? m.heap f.ip = some ⟨op, [high, low]⟩ :=
    instructionAt?_eq_some_iff.2 ⟨hretains.holds hholds, htakes _ _⟩
  refine Run.jump_taken ⟨f, rest, g, hf, hg, hi, rfl⟩ hf ht ?_
  rintro rfl
  exact hfalsey (opcodeAt_of_holds hholds)

/-- The machine adds the distance of a forward jump to where the jump ends. -/
theorem sends_forward (hop : op.operands = .forward) (hd : d < 65536)
    (hholds : Holds k.code o [op.toByte, UInt8.ofNat (d / 256), UInt8.ofNat d]) : k.Sends o (o + 3 + d) := by
  refine sends_of_target hholds (fun _ _ => .forward hop _ _) ?_
  cases op <;> cases hop <;> simp [Instruction.targets, distance_ofNat hd]

/-- The machine subtracts the distance of a jump back from where the jump ends. -/
theorem sends_backward {t : Nat} (hd : d < 65536) (ht : t + d = o + 3)
    (hholds : Holds k.code o [Opcode.loop.toByte, UInt8.ofNat (d / 256), UInt8.ofNat d]) : k.Sends o t := by
  refine sends_of_target hholds (fun _ _ => .backward rfl _ _) ?_
  simp only [Instruction.targets, distance_ofNat hd, List.mem_singleton]
  omega

/-- A machine that is to execute the code at `o`, with `nil` on top of its stack. -/
def poised (k : Chunk) (o : Nat) : Machine :=
  let (h, heap) := Heap.alloc {} (Thunk.pure []) (.function { chunk := k })
  { heap, stack := #[.nil], frames := [{ closure := h, function := h, ip := o, base := 0 }], initName := h }

/-- A jump goes to one place only. -/
theorem Sends.unique {t t' : Nat} (hin : o + 3 ≤ k.size) (h : k.Sends o t) (h' : k.Sends o t') : t = t' := by
  have hnew := (Heap.alloc_allocates (Heap.tidy_of_empty rfl) (Thunk.pure []) (.function { chunk := k })).new
  have hg := Heap.function_eq_ok_iff.2 ⟨_, hnew⟩
  have hretains : k.Retains k o 3 := fun i hi => by
    have hlt : o + i < k.code.size := Nat.lt_of_lt_of_le (Nat.add_lt_add_left hi o) hin
    exact ⟨k.code[o + i], Array.getElem?_eq_getElem hlt, Array.getElem?_eq_getElem hlt⟩
  have htop : k.opcodeAt o = .ok .jumpIfFalse → ∃ v, (k.poised o).stack.back? = some v ∧ v.isFalsey = true :=
    fun _ => ⟨.nil, rfl, rfl⟩
  have hrun := h (k.poised o) _ [] _ rfl rfl hg hretains htop
  rw [h' (k.poised o) _ [] _ rfl rfl hg hretains htop] at hrun
  simpa using hrun.symm

theorem getElem?_patch_of_ne {i : Nat} (h : i ≠ o) (h' : i ≠ o + 1) : (k.patch o d).code[i]? = k.code[i]? := by
  rw [patch, getElem?_put_ne _ _ h'.symm, getElem?_put_ne _ _ h.symm]

/-- The bytes of a jump after it has been patched. -/
theorem holds_patch (hop : k.code[o]? = some op.toByte) (hin : o + 2 < k.size) :
    Holds (k.patch (o + 1) d).code o [op.toByte, UInt8.ofNat (d / 256), UInt8.ofNat d] := by
  have hin : o + 1 + 1 < k.code.size := hin
  intro i hi
  match i, hi with
  | 0, _ => exact (getElem?_patch_of_ne (by omega) (by omega)).trans hop
  | 1, _ =>
    rw [patch, getElem?_put_ne _ _ (by omega), getElem?_put_self _ (by omega)]
    rfl
  | 2, _ =>
    rw [patch, getElem?_put_self _ (by simpa using hin)]
    rfl

end Chunk

namespace Compiler

/-- The state with other code in the innermost draft. -/
def withChunk (c : Compiler) (k : Chunk) : Compiler := { c with draft := { c.draft with chunk := k } }

variable {c c' : Compiler}

/-- What an action reports of a distance: nothing, unless it is too long. -/
structure Reports (c : Compiler) (distance : Nat) (d : Diagnosis) (c' : Compiler) : Prop where
  /-- Outside of panic, an error is reported exactly when the distance is too long. -/
  calm : c.panicking = false → c'.errors =
    if Compile.maxJump < distance then c.errors.push (.ofToken c.previous d) else c.errors
  /-- In panic, nothing is. -/
  panicking : c.panicking = true → c'.errors = c.errors

/-- If nothing is reported outside of panic, the distance is not too long. -/
theorem Reports.near {distance : Nat} {d : Diagnosis} (h : c.Reports distance d c') (hcalm : c.panicking = false)
    (hnone : c'.errors = c.errors) : distance ≤ Compile.maxJump := by
  by_contra hlt
  have herrors := h.calm hcalm
  rw [if_pos (Nat.lt_of_not_le hlt), hnone] at herrors
  have hsize := congrArg Array.size herrors
  simp at hsize

/-- The jump at `o` has been let go to the end of the code. -/
structure Patched (c : Compiler) (o : Nat) (c' : Compiler) : Prop where
  /-- If no error is reported, the machine continues where the code ended. -/
  lands : c.panicking = false → c'.errors = c.errors → c'.draft.chunk.Sends o c.draft.chunk.size
  /-- So it does while an error is being recovered from, unless the distance is too long. -/
  near : c.draft.chunk.size - (o + 3) ≤ Compile.maxJump → c'.draft.chunk.Sends o c.draft.chunk.size
  reports : c.Reports (c.draft.chunk.size - (o + 3)) .jumpTooFar c'
  code : ∀ i, i ≠ o + 1 → i ≠ o + 2 → c'.draft.chunk.code[i]? = c.draft.chunk.code[i]?
  size : c'.draft.chunk.size = c.draft.chunk.size
  lines : c'.draft.chunk.lines = c.draft.chunk.lines
  constants : c'.draft.chunk.constants = c.draft.chunk.constants
  /-- Nothing else changes. -/
  rest : c' = { c with panicking := c'.panicking, errors := c'.errors }.withChunk c'.draft.chunk

/-- A jump back to `start` has been written. -/
structure Looped (c : Compiler) (start : Nat) (c' : Compiler) : Prop where
  /-- If no error is reported, the machine continues at the start. -/
  lands : c.panicking = false → c'.errors = c.errors → c'.draft.chunk.Sends c.draft.chunk.size start
  near : c.draft.chunk.size + 3 - start ≤ Compile.maxJump → c'.draft.chunk.Sends c.draft.chunk.size start
  reports : c.Reports (c.draft.chunk.size + 3 - start) .loopTooLarge c'
  code : ∃ high low, c'.draft.chunk.code = c.draft.chunk.code ++ #[Opcode.loop.toByte, high, low]

end Compiler

namespace Compile

open Compiler

variable {c : Compiler} {op : Opcode} {o start : Nat}

/-- Writing a jump whose distance is not known yet. -/
theorem emitJump_eq (op : Opcode) (c : Compiler) : emitJump op c =
    (c.draft.chunk.size + 1, c.withChunk (((c.draft.chunk.write op.toByte c.previous.line).write 0xff
      c.previous.line).write 0xff c.previous.line)) := by
  refine Prod.ext ?_ rfl
  change (((c.draft.chunk.write op.toByte c.previous.line).write 0xff c.previous.line).write 0xff
    c.previous.line).size - 2 = _
  simp

/-- The state after an error that may be reported. -/
theorem errorIf_eq (p : Prop) [Decidable p] (d : Diagnosis) (c : Compiler) : ∃ c₁ : Compiler,
    errorIf p d c = ((), c₁) ∧ c₁ = { c with panicking := c₁.panicking, errors := c₁.errors } ∧
      (c.panicking = false → c₁.errors = if p then c.errors.push (.ofToken c.previous d) else c.errors) ∧
      (c.panicking = true → c₁.errors = c.errors) := by
  unfold errorIf
  by_cases hp : p
  · simp only [if_pos hp]
    refine ⟨c.errorAt c.previous d, rfl, ?_, fun hcalm => ?_, fun hpanic => ?_⟩ <;> unfold errorAt
    · split <;> rfl
    · simp [hcalm]
    · simp [hpanic]
  · simp only [if_neg hp]
    exact ⟨c, rfl, rfl, fun _ => rfl, fun _ => rfl⟩

/-- **A patch lets a jump go to the end of the code.** -/
theorem patchJump_patched (hop : c.draft.chunk.code[o]? = some op.toByte) (hforward : op.operands = .forward)
    (hin : o + 3 ≤ c.draft.chunk.size) : c.Patched o (patchJump (o + 1) c).2 := by
  have hdistance : c.draft.chunk.size - (o + 1) - 2 = c.draft.chunk.size - (o + 3) := by omega
  obtain ⟨c₁, hrun, hc₁, hcalm, hpanic⟩ :=
    errorIf_eq (maxJump < c.draft.chunk.size - (o + 3)) .jumpTooFar c
  have hresult : (patchJump (o + 1) c).2 =
      c₁.withChunk (c₁.draft.chunk.patch (o + 1) (min (c.draft.chunk.size - (o + 3)) maxJump)) := by
    rw [patchJump_eq, bind_of (rfl : codeSize c = (c.draft.chunk.size, c)), hdistance, bind_of hrun]
    rfl
  have hdraft : c₁.draft = c.draft := by rw [hc₁]
  rw [hresult, hdraft]
  have hnear : c.draft.chunk.size - (o + 3) ≤ maxJump →
      (c.draft.chunk.patch (o + 1) (min (c.draft.chunk.size - (o + 3)) maxJump)).Sends o c.draft.chunk.size := by
    intro hle
    rw [Nat.min_eq_left hle]
    have hsends := Chunk.sends_forward hforward (Nat.lt_succ_of_le hle) (Chunk.holds_patch hop hin)
    rwa [show o + 3 + (c.draft.chunk.size - (o + 3)) = c.draft.chunk.size by omega] at hsends
  have hreports : c.Reports (c.draft.chunk.size - (o + 3)) .jumpTooFar c₁ := ⟨hcalm, hpanic⟩
  refine ⟨fun hp hnone => hnear (hreports.near hp hnone), hnear, ⟨hcalm, hpanic⟩,
    fun i h h' => Chunk.getElem?_patch_of_ne h h', Chunk.size_patch .., rfl, rfl, ?_⟩
  exact congrArg (withChunk · _) hc₁

/-- In panic, a jump over more code than that goes as far as a distance can say, and nothing is reported. -/
theorem patchJump_astray (hop : c.draft.chunk.code[o]? = some op.toByte) (hforward : op.operands = .forward)
    (hin : o + 3 ≤ c.draft.chunk.size) (hpanic : c.panicking = true)
    (hfar : maxJump < c.draft.chunk.size - (o + 3)) :
    (patchJump (o + 1) c).2.errors = c.errors ∧
      (patchJump (o + 1) c).2.draft.chunk.Sends o (o + 3 + maxJump) := by
  refine ⟨(patchJump_patched hop hforward hin).reports.panicking hpanic, ?_⟩
  have hchunk : (patchJump (o + 1) c).2.draft.chunk = c.draft.chunk.patch (o + 1) maxJump := by
    have hdistance : c.draft.chunk.size - (o + 1) - 2 = c.draft.chunk.size - (o + 3) := by omega
    obtain ⟨c₁, hrun, hc₁, -⟩ := errorIf_eq (maxJump < c.draft.chunk.size - (o + 3)) .jumpTooFar c
    have hdraft : c₁.draft = c.draft := by rw [hc₁]
    rw [patchJump_eq, bind_of (rfl : codeSize c = (c.draft.chunk.size, c)), hdistance, bind_of hrun,
      Nat.min_eq_right (Nat.le_of_lt hfar)]
    exact congrArg (fun d : Draft => d.chunk.patch (o + 1) maxJump) hdraft
  rw [hchunk]
  exact Chunk.sends_forward hforward (by decide) (Chunk.holds_patch hop hin)

/-- **A jump back goes to the start of its loop.** -/
theorem emitLoop_looped (hstart : start ≤ c.draft.chunk.size + 1) : c.Looped start (emitLoop start c).2 := by
  obtain ⟨c₀, hc₀⟩ : ∃ c₀, c₀ = c.withChunk (c.draft.chunk.write Opcode.loop.toByte c.previous.line) := ⟨_, rfl⟩
  have hemit : emit .loop c = ((), c₀) := by
    rw [hc₀]
    rfl
  have hsize : c₀.draft.chunk.size = c.draft.chunk.size + 1 := by
    rw [hc₀]
    exact Chunk.size_write ..
  have hdistance : c₀.draft.chunk.size - start + 2 = c.draft.chunk.size + 3 - start := by omega
  obtain ⟨c₁, hrun, hc₁, hcalm, hpanic⟩ :=
    errorIf_eq (maxJump < c.draft.chunk.size + 3 - start) .loopTooLarge c₀
  let d := min (c.draft.chunk.size + 3 - start) maxJump
  have hresult : (emitLoop start c).2 = c₁.withChunk ((c₁.draft.chunk.write (UInt8.ofNat (d / 256))
      c₁.previous.line).write (UInt8.ofNat d) c₁.previous.line) := by
    rw [emitLoop_eq, bind_of hemit,
      bind_of (rfl : codeSize c₀ = (c₀.draft.chunk.size, c₀)), hdistance, bind_of hrun]
    rfl
  have hdraft : c₁.draft = c₀.draft := by rw [hc₁]
  have hcode : (emitLoop start c).2.draft.chunk.code =
      c.draft.chunk.code ++ #[Opcode.loop.toByte, UInt8.ofNat (d / 256), UInt8.ofNat d] := by
    rw [hresult, hdraft, hc₀]
    exact Array.ext' (by simp [withChunk, Chunk.write])
  have hnear : c.draft.chunk.size + 3 - start ≤ maxJump →
      (emitLoop start c).2.draft.chunk.Sends c.draft.chunk.size start := by
    intro hle
    have hd : d = c.draft.chunk.size + 3 - start := Nat.min_eq_left hle
    refine Chunk.sends_backward (d := d) (Nat.lt_succ_of_le (hd ▸ hle)) (by omega) fun i _ => ?_
    rw [hcode, Chunk.size, Array.getElem?_append_right (Nat.le_add_right _ _), Nat.add_sub_cancel_left]
    simp
  have hreports : c.Reports (c.draft.chunk.size + 3 - start) .loopTooLarge (emitLoop start c).2 := by
    rw [hresult]
    rw [hc₀] at hcalm hpanic
    exact ⟨hcalm, hpanic⟩
  exact ⟨fun hp hnone => hnear (hreports.near hp hnone), hnear, hreports, _, _, hcode⟩

/-- **Jumps land.** A forward jump is written into any chunk, other code follows that leaves its three bytes
alone, and it is patched; or a jump back is written to a place that is not after its opcode. Then the machine
that takes the jump continues exactly where the code ended at the patch, or where the loop starts, unless an
error is reported; and outside of panic one is reported exactly when the distance is too long. A patch
changes two bytes and nothing else. -/
theorem jumps_land :
    (∀ (op : Opcode) (c c₁ c₂ c₃ : Compiler) (o : Nat), op = .jump ∨ op = .jumpIfFalse →
      emitJump op c = (o, c₁) → c₁.draft.chunk.Retains c₂.draft.chunk c.draft.chunk.size 3 →
      patchJump o c₂ = ((), c₃) → o = c.draft.chunk.size + 1 ∧ c₂.Patched c.draft.chunk.size c₃) ∧
    ∀ (c c' : Compiler) (start : Nat), start ≤ c.draft.chunk.size + 1 → emitLoop start c = ((), c') →
      c.Looped start c' := by
  refine ⟨fun op c c₁ c₂ c₃ o hop hemit hretains hpatch => ?_, fun c c' start hstart hemit => ?_⟩
  · rw [emitJump_eq] at hemit
    obtain ⟨rfl, rfl⟩ := Prod.mk.inj hemit
    obtain ⟨b, hb, hb'⟩ := hretains 0 (by decide)
    obtain ⟨_, -, hlast⟩ := hretains 2 (by decide)
    have hin := (Array.getElem?_eq_some_iff.1 hlast).1
    have hcode : c₂.draft.chunk.code[c.draft.chunk.size]? = some op.toByte := by
      rw [Nat.add_zero] at hb hb'
      rw [hb', ← hb]
      simp [withChunk, Chunk.write, Chunk.size, Array.getElem?_push, Array.getElem_push]
      omega
    have hforward : op.operands = .forward := by rcases hop with rfl | rfl <;> rfl
    have hpatched := patchJump_patched hcode hforward hin
    rw [hpatch] at hpatched
    exact ⟨rfl, hpatched⟩
  · have hlooped := emitLoop_looped hstart
    rw [hemit] at hlooped
    exact hlooped

/-- A jump over one instruction, and a loop back to the jump. -/
theorem jumps_land_short : ∃ c c₁ c₂ c₃ c₄ : Compiler, emitJump .jumpIfFalse c = (1, c₁) ∧
    c₁.draft.chunk.Retains c₂.draft.chunk 0 3 ∧ patchJump 1 c₂ = ((), c₃) ∧ c₃.draft.chunk.Sends 0 4 ∧
    emitLoop 0 c₃ = ((), c₄) ∧ c₄.draft.chunk.Sends 4 0 := by
  let c := Compiler.start "" {} (Thunk.pure [])
  let c₁ := (emitJump .jumpIfFalse c).2
  let c₂ := (emit .pop c₁).2
  let c₃ := (patchJump 1 c₂).2
  let c₄ := (emitLoop 0 c₃).2
  have hretains : c₁.draft.chunk.Retains c₂.draft.chunk 0 3 := by
    intro i hi
    match i, hi with
    | 0, _ | 1, _ | 2, _ => exact ⟨_, rfl, rfl⟩
  obtain ⟨-, hpatched⟩ := jumps_land.1 .jumpIfFalse c c₁ c₂ c₃ 1 (.inr rfl) rfl hretains rfl
  have hlooped := jumps_land.2 c₃ c₄ 0 (Nat.zero_le _) rfl
  exact ⟨c, c₁, c₂, c₃, c₄, rfl, hretains, rfl, hpatched.lands rfl rfl, rfl, hlooped.lands rfl rfl⟩

/-- A jump whose code has grown by `n` bytes when the end of the source is met inside of a block. -/
def unclosed (n : Nat) : Compiler :=
  let c := (emitJump .jumpIfFalse (Compiler.start "" {} (Thunk.pure []))).2
  (errorAtCurrent (.expected .rightBraceAfterBlock)
    (c.withChunk ((List.replicate n 0).foldl (fun k byte => k.write byte 1) c.draft.chunk))).2

/-- More code only adds bytes. -/
theorem writes_grow (bytes : List UInt8) (k : Chunk) :
    (bytes.foldl (fun k byte => k.write byte 1) k).code = k.code ++ bytes.toArray := by
  induction bytes generalizing k with
  | nil => simp
  | cons byte bytes ih =>
    rw [List.foldl_cons, ih]
    exact Array.ext' (by simp [Chunk.write])

theorem code_unclosed (n : Nat) : (unclosed n).draft.chunk.code =
    #[Opcode.jumpIfFalse.toByte, 0xff, 0xff] ++ (List.replicate n (0 : UInt8)).toArray :=
  writes_grow _ _

/-- **A jump that is patched in panic may go astray**, although no error is reported for it: a block of
65536 bytes is met by the end of the source, so that the missing brace has been reported already. -/
theorem jump_astray_in_panic :
    ¬∀ (op : Opcode) (c c₁ c₂ c₃ : Compiler) (o : Nat), op = .jump ∨ op = .jumpIfFalse →
      emitJump op c = (o, c₁) → c₁.draft.chunk.Retains c₂.draft.chunk c.draft.chunk.size 3 →
      patchJump o c₂ = ((), c₃) → c₃.errors = c₂.errors →
      c₃.draft.chunk.Sends c.draft.chunk.size c₂.draft.chunk.size := by
  intro hlands
  let c := Compiler.start "" {} (Thunk.pure [])
  obtain ⟨n, hn⟩ : ∃ n, n = maxJump + 1 := ⟨_, rfl⟩
  have hcode := code_unclosed n
  have hsize : (unclosed n).draft.chunk.size = n + 3 := by
    rw [Chunk.size, hcode]
    simp
    omega
  have hbyte : ∀ i < 3, (unclosed n).draft.chunk.code[i]? =
      (emitJump .jumpIfFalse c).2.draft.chunk.code[i]? := fun i hi => by
    rw [hcode, Array.getElem?_append_left (by simpa using hi)]
    rfl
  have hretains : (emitJump .jumpIfFalse c).2.draft.chunk.Retains (unclosed n).draft.chunk 0 3 := fun i hi => by
    rw [Nat.zero_add, hbyte i hi]
    match i, hi with
    | 0, _ | 1, _ | 2, _ => exact ⟨_, rfl, rfl⟩
  have hop : (unclosed n).draft.chunk.code[0]? = some Opcode.jumpIfFalse.toByte := hbyte 0 (by decide)
  have hlong : 0 + 3 ≤ (unclosed n).draft.chunk.size := by omega
  obtain ⟨herrors, hastray⟩ := patchJump_astray hop rfl hlong rfl (by omega)
  have hmeant := hlands .jumpIfFalse c _ (unclosed n) (patchJump 1 (unclosed n)).2 1 (.inr rfl) rfl hretains rfl
    herrors
  have hpatched := patchJump_patched hop rfl hlong
  have htargets := Chunk.Sends.unique (by rw [hpatched.size]; exact hlong) hastray hmeant
  omega

end Compile

end LoxMachine
