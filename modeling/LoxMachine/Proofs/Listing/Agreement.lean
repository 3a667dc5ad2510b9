import LoxMachine.Proofs.Listing.Decoding
import LoxMachine.Proofs.Listing.Programs
import LoxMachine.Proofs.Machine.Fetching

/-!
# Listing and execution

The machine and the listing take code apart on their own, and come to the same instructions.

* `Listing.instruction_of_fetches`: an instruction that the machine can fetch is listed, and the next one begins
  where the machine goes on.
* `Listing.Whole`: a line that shows a whole instruction. All lines of a compiled function are such.
* `Listing.listing_follows_execution` puts this together.
-/

namespace LoxMachine

namespace Run

open Machine

variable {m m' : Machine}

/-- **What a closure captures is what its line says.** -/
theorem captures_labelled {origin index : UInt8} (ho : origin = 0 ∨ origin = 1) (h : m.Consumes [origin, index] m')
    (base count : Nat) (upvalues : Array Handle) :
    captures base (count + 1) upvalues m = (do
      let u ← if Listing.originText origin = "local" then captureUpvalue (base + index.toNat) else frameUpvalue index
      captures base count (upvalues.push u)) m' := by
  obtain ⟨m₁, horigin, hindex⟩ := h.uncons
  rw [captures, bind_of_ok (readByte_of_consumes horigin), bind_of_ok (readByte_of_consumes hindex)]
  rcases ho with rfl | rfl
  · rfl
  · rfl

end Run

namespace Listing

variable {heap : Heap} {m m' : Machine} {f : Frame} {rest : List Frame} {g : Function} {i : Instruction} {o : Nat}

/-- An instruction that the machine can fetch is listed. -/
theorem instruction_of_fetches (hf : m.frames = f :: rest) (hg : m.heap.function f.function = .ok g)
    (hd : Displays m.heap g.chunk) (h : m.Fetches i m') :
    ∃ shown, instruction m.heap g.chunk f.ip =
        .ok (offsetColumn f.ip ++ " " ++ lineColumn g.chunk f.ip ++ shown, f.ip + i.size) ∧
      Shows i f.ip shown ∧ m' = { m with frames := { f with ip := f.ip + i.size } :: rest } := by
  obtain ⟨f', rest', g', hf', hg', hi, rfl⟩ := h
  cases hf'.symm.trans hf
  cases hg'.symm.trans hg
  obtain ⟨shown, hgives, hshows⟩ := operation_gives hi hd
  exact ⟨shown, instruction_of_gives (opcodeAt_of_instructionAt? hi) hgives, hshows, rfl⟩

theorem eq_loop_of_backward {op : Opcode} (h : op.operands = .backward) : op = .loop := by
  cases op <;> simp [Opcode.operands] at h ⊢

theorem exists_target {op : Opcode} {args : List UInt8} (htakes : g.Takes heap op args)
    (hop : op.operands = .forward ∨ op.operands = .backward) (o : Nat) :
    ∃ t, Instruction.targets ⟨op, args⟩ o = [t] ∧ (op ≠ .loop → 0 ≤ t) := by
  cases htakes with
  | forward hforward high low => exact ⟨_, targets_forward hforward o high low, fun _ => by omega⟩
  | backward hbackward high low =>
    exact ⟨_, targets_backward hbackward o high low, fun hloop => absurd (eq_loop_of_backward hbackward) hloop⟩
  | _ h => simp [h] at hop

/-! ## Lines of compiled functions -/

/-- The line of an instruction that is there in full, with an index of a constant that there is. -/
structure Whole (heap : Heap) (g : Function) (o : Nat) (text : String) (i : Instruction) : Prop where
  read : g.instructionAt? heap o = some i
  decoded : g.chunk.opcodeAt o = .ok i.op
  shown : ∃ shown, text = offsetColumn o ++ " " ++ lineColumn g.chunk o ++ shown ∧
    Gives (operation heap g.chunk i.op o) (shown, o + i.size) ∧ Shows i o shown
  constant : ∀ c more, i.args = c :: more →
    i.op.operands = .constant ∨ i.op.operands = .invocation ∨ i.op.operands = .captures →
    c.toNat < g.chunk.constants.size
  origins : ∀ c captures, i.op = .closure → i.args = c :: captures →
    ∀ pair ∈ Instruction.pairs captures, pair.1 = 0 ∨ pair.1 = 1

theorem lt_size_of_pool {j : Nat} {kind : ConstantKind} (h : (g.pool heap).constants[j]? = some kind) :
    j < g.chunk.constants.size := by
  obtain ⟨hlt, -⟩ := List.getElem?_eq_some_iff.1 h
  simpa [Function.pool] using hlt

theorem whole_of_verified (hv : g.Verified heap) (hd : Displays heap g.chunk) (hs : g.Start heap o)
    (hin : o < g.chunk.size) {text : String} {next : Nat} (hread : instruction heap g.chunk o = .ok (text, next)) :
    ∃ i, Whole heap g o text i := by
  obtain ⟨i, hi⟩ := (hv.whole o hs).resolve_left (Nat.ne_of_lt hin)
  have hop := opcodeAt_of_instructionAt? hi
  have hproper := hv.operands o i hs hi
  obtain ⟨shown, hgives, hshows⟩ := operation_gives hi hd
  cases (instruction_of_gives hop hgives).symm.trans hread
  obtain ⟨-, htakes⟩ := instructionAt?_eq_some_iff.1 hi
  obtain ⟨op, args⟩ := i
  refine ⟨⟨op, args⟩, hi, hop, ⟨shown, rfl, hgives, hshows⟩, ?_, ?_⟩
  · rintro c more rfl hkind
    unfold Function.ProperOperands at hproper
    cases htakes with
    | constant h =>
      simp only [h] at hproper
      split at hproper
      · exact hproper
      · exact lt_size_of_pool hproper
    | invocation h =>
      simp only [h] at hproper
      exact lt_size_of_pool hproper
    | captures h hx => exact (Array.getElem?_eq_some_iff.1 hx).1
    | _ h => simp [h] at hkind
  · rintro c captures hclosure rfl pair hp
    obtain rfl : op = .closure := hclosure
    exact (hproper.2.2 pair hp).1

theorem displays_of_healthy {c : Chunk} (hh : heap.Healthy) (hlive : ∀ v ∈ c.constants, v.In heap.Live) :
    Displays heap c := fun v hv => ⟨hh.display (hlive v hv), hlive v hv⟩

/-- **The listing follows the machine.** Where the machine can fetch an instruction of which the constants can be
displayed, the next line is for the offset where it goes on, and a jump is listed with the offset that it goes to.
Instructions read what is fetched, and no more. Listings end. That of a compiled function has one line for each
instruction, all of them whole, and captured variables are named as the machine finds them. -/
theorem listing_follows_execution :
    (∀ (m m₁ : Machine) (f : Frame) (rest : List Frame) (g : Function) (op : Opcode), m.frames = f :: rest →
      m.heap.function f.function = .ok g → Displays m.heap g.chunk → Run.fetch m = .ok op m₁ →
      ∃ shown next, instruction m.heap g.chunk f.ip =
          .ok (offsetColumn f.ip ++ " " ++ lineColumn g.chunk f.ip ++ shown, next) ∧
        m₁ = { m with frames := { f with ip := next } :: rest } ∧
        (op.operands = .forward ∨ op.operands = .backward → ∃ target : Int, shown = jumpLine op f.ip target ∧
          (op ≠ .loop → 0 ≤ target) ∧
          ∀ t : Nat, t = target → (op = .jumpIfFalse → ∃ v, m.stack.back? = some v ∧ v.isFalsey = true) →
            (Run.readOpcode >>= Run.perform) m = .ok false { m with frames := { f with ip := t } :: rest })) ∧
    (∀ m : Machine, m.Sane →
      (∀ done m₂, (Run.readOpcode >>= Run.perform) m = .ok done m₂ →
        ∃ op m₁, Run.fetch m = .ok op m₁ ∧ op.Transfers m₁ m₂) ∧
      ∀ r m₂, (Run.readOpcode >>= Run.perform) m = .error (.error r) m₂ → r.isUser = true →
        ∃ op m₁, Run.fetch m = .ok op m₁ ∧ m₁.SameFrames m₂) ∧
    (∀ (heap : Heap) (c : Chunk), heap.Healthy → (∀ v ∈ c.constants, v.In heap.Live) → Displays heap c) ∧
    (∀ (heap : Heap) (c : Chunk), WellFounded (Leads (line heap c))) ∧
    ∀ (source : String) (heap heap' : Heap) (roots : Thunk (List Handle)) (h x : Handle), heap.Tidy →
      compile source heap roots = (.ok h, heap') → heap'.Nested h x →
      ∃ g lines, heap'.function x = .ok g ∧ Lists heap' g.chunk 0 lines ∧
        (∀ title, chunk heap' g.chunk title = .ok (s!"== {title} ==\n" ++ page lines)) ∧
        (lines.map Prod.fst).Pairwise (· < ·) ∧
        (∀ o, o ∈ lines.map Prod.fst ↔ g.Start heap' o ∧ o < g.chunk.size) ∧
        ∀ line ∈ lines, ∃ i, Whole heap' g line.1 line.2 i ∧
          ∀ c captures, i.op = .closure → i.args = c :: captures → ∀ pair ∈ Instruction.pairs captures,
            ∀ (m m₁ : Machine) (base count : Nat) (upvalues : Array Handle), m.Consumes [pair.1, pair.2] m₁ →
              Run.captures base (count + 1) upvalues m = (do
                let u ← if originText pair.1 = "local" then Run.captureUpvalue (base + pair.2.toNat)
                  else Run.frameUpvalue pair.2
                Run.captures base count (upvalues.push u)) m₁ := by
  refine ⟨fun m m₁ f rest g op hf hg hd hfetch => ?_, fun m hs => ⟨fun done m₂ hm => (Run.perform_fetches hs).of_ok hm,
    fun r m₂ hm hr => ?_⟩, fun heap c => displays_of_healthy, wellFounded_line,
    fun source heap heap' roots h x ht hok hx => ?_⟩
  · obtain ⟨i, rfl, hi⟩ := Run.fetch_eq_ok_iff.1 hfetch
    obtain ⟨shown, hread, hshows, hm₁⟩ := instruction_of_fetches hf hg hd hi
    refine ⟨shown, f.ip + i.size, hread, hm₁, fun hjump => ?_⟩
    obtain ⟨f', rest', g', hf', hg', hat, -⟩ := id hi
    cases hf'.symm.trans hf
    obtain ⟨target, htargets, hnonneg⟩ := exists_target (instructionAt?_eq_some_iff.1 hat).2 hjump f.ip
    have hmem : target ∈ i.targets f.ip := by rw [htargets]; exact List.mem_singleton_self _
    exact ⟨target, hshows.target target hmem, hnonneg, fun t ht htop =>
      Run.jump_taken hi hf (ht ▸ hmem) htop⟩
  · rcases (Run.perform_fetches hs).of_error hm with hblames | hfetched
    · rw [hblames r rfl] at hr
      cases hr
    · exact hfetched
  · have hcompiled := (compile_compiled ht hok).nested hx
    obtain ⟨g, hg, hv⟩ := hcompiled.verified .self
    have hd := hcompiled.displays hg
    obtain ⟨lines, hlines⟩ := exists_lists (instruction_ok hd) 0
    refine ⟨g, lines, hg, hlines, chunk_of_lists hlines, hlines.sorted.1, starts_of_lists hd hv.whole hlines,
      fun line hline => ?_⟩
    obtain ⟨hs, hin⟩ := (starts_of_lists hd hv.whole hlines line.1).1 (List.mem_map_of_mem hline)
    obtain ⟨next, hread⟩ := hlines.read hline
    obtain ⟨i, hwhole⟩ := whole_of_verified hv hd hs hin hread
    exact ⟨i, hwhole, fun c captures hop hargs pair hp m m₁ base count upvalues hm =>
      Run.captures_labelled (hwhole.origins c captures hop hargs pair hp) hm base count upvalues⟩

/-- A machine that is about to go back to the start of an endless loop. -/
def looping : Machine := (((Machine.create {}).load "while (true) \x7b\x7d").2.run 3).machine

theorem sane_looping : looping.Sane := by
  unfold looping
  generalize hs : "while (true) \x7b\x7d" = source
  refine (Machine.ran_of_source ?_ ?_).orderly.sane
  · subst hs
    decide +kernel
  · subst hs
    decide +kernel

/-- The jump back is listed with a target, and goes there; and a script with a captured variable is listed. -/
theorem listing_follows_execution_loop : ∃ (f : Frame) (rest : List Frame) (g : Function) (m₁ : Machine),
    looping.frames = f :: rest ∧ f.ip = 5 ∧ looping.heap.function f.function = .ok g ∧
    Displays looping.heap g.chunk ∧ Run.fetch looping = .ok .loop m₁ ∧
    (∃ (shown : String) (next : Nat) (target : Int), instruction looping.heap g.chunk f.ip =
        .ok (offsetColumn f.ip ++ " " ++ lineColumn g.chunk f.ip ++ shown, next) ∧
      m₁ = { looping with frames := { f with ip := next } :: rest } ∧ shown = jumpLine .loop f.ip target ∧
      ∀ t : Nat, t = target → (Run.readOpcode >>= Run.perform) looping =
        .ok false { looping with frames := { f with ip := t } :: rest }) ∧
    ∃ h heap' g' lines, compile "\x7b var a; fun f() \x7b return a; \x7d \x7d" {} (Thunk.pure []) = (.ok h, heap') ∧
      heap'.function h = .ok g' ∧ Lists heap' g'.chunk 0 lines ∧ (lines.map Prod.fst).Pairwise (· < ·) := by
  have hip : looping.frames.map Frame.ip = [5] := by decide +kernel
  have hloop : (match Run.fetch looping with
      | .ok op _ => op == .loop
      | .error _ _ => false) = true := by decide +kernel
  have hcompiles : (compile "\x7b var a; fun f() \x7b return a; \x7d \x7d" {} (Thunk.pure [])).1.toOption.isSome =
      true := by decide +kernel
  obtain ⟨f, hf, hip⟩ := List.map_eq_singleton_iff.1 hip
  obtain ⟨g, bytes, hcell, -⟩ := sane_looping.function (f := f) (by rw [hf]; exact List.mem_cons_self)
  have hg := Heap.function_eq_ok_iff.2 ⟨bytes, hcell⟩
  have hd : Displays looping.heap g.chunk := by
    refine listing_follows_execution.2.2.1 _ _ sane_looping.heap fun v hv => ?_
    rintro x rfl
    exact sane_looping.heap.closed hcell (Heap.mem_references_of_constant hv)
  cases hfetch : Run.fetch looping with
  | error e m₁ =>
    rw [hfetch] at hloop
    cases hloop
  | ok op m₁ =>
    rw [hfetch] at hloop
    obtain rfl : op = .loop := by simpa using hloop
    obtain ⟨shown, next, hread, hm₁, hjump⟩ := listing_follows_execution.1 _ _ _ _ _ _ hf hg hd hfetch
    obtain ⟨target, hshown, -, htaken⟩ := hjump (.inr rfl)
    rcases hcompile : compile "\x7b var a; fun f() \x7b return a; \x7d \x7d" {} (Thunk.pure []) with ⟨_ | h, heap'⟩
    · rw [hcompile] at hcompiles
      cases hcompiles
    · obtain ⟨g', lines, hg', hlines, -, hsorted, -⟩ :=
        listing_follows_execution.2.2.2.2 _ _ _ _ _ _ (Heap.tidy_of_empty rfl) hcompile .self
      exact ⟨f, [], g, m₁, hf, hip, hg, hd, rfl, ⟨shown, next, target, hread, hm₁, hshown,
        fun t ht => htaken t ht nofun⟩, h, heap', g', lines, rfl, hg', hlines, hsorted⟩

end Listing

end LoxMachine
