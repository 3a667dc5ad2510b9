import LoxMachine.Proofs.Grammar.Scanning
import LoxMachine.Proofs.Grammar.Statements

/-!
# Sources of programs

* `Parses source program`: the tokens of the source are the symbols of a grammatical program.
* `compile_eq_ok_iff`: such a source compiles if and only if compiling along the program meets no error,
  and then to the same function.
-/

namespace LoxMachine

open Compile

set_option synthInstance.maxSize 4096

/-- The source text of a program. -/
structure Parses (source : String) (program : List Declaration) : Prop where
  notError : ∀ t ∈ (Source.ofString source).tokens, ∀ reason, t.kind ≠ .error reason
  symbols_eq : (Source.ofString source).tokens.map Token.symbol =
    Declaration.listSymbols program ++ [TokenKind.eof.symbol]
  grammatical : Declaration.ListGrammatical program

/-- Compile along the declarations of a program. -/
def runProgram (program : List Declaration) : Compile Draft := do
  advance
  Declaration.runList program
  advance
  endFunction

theorem Stream.of_tokens {ts : List Token} {t : Token} (ht : t.kind = .eof)
    (hts : ∀ u ∈ ts, u.kind ≠ .eof ∧ u.Scanned) (herr : ∀ u ∈ ts, ∀ reason, u.kind ≠ .error reason) :
    Stream (ts ++ [t]) := by
  induction ts with
  | nil => exact .eof ht
  | cons u ts ih =>
    obtain ⟨hu, hts⟩ := List.forall_mem_cons.1 hts
    obtain ⟨hu', herr⟩ := List.forall_mem_cons.1 herr
    exact .cons hu.1 ⟨hu', hu.2.this⟩ (ih hts herr)

variable {source : String} {program : List Declaration} {heap heap' : Heap} {roots : Thunk (List Handle)}
  {h : Handle}

/-- After the first token, all symbols of the program are to come. -/
theorem Parses.awaits (hp : Parses source program) :
    (advance (Compiler.start source heap roots)).2.Awaits
      (Declaration.listSymbols program ++ [TokenKind.eof.symbol]) := by
  obtain ⟨ts, t, heq, ht, hts⟩ := (Source.ofString source).tokens_eq
  have hstream : Stream (Source.ofString source).tokens := by
    rw [heq]
    refine .of_tokens ht hts fun u hu => hp.notError u ?_
    rw [heq]
    exact List.mem_append_left _ hu
  have hfirst : (advance (Compiler.start source heap roots)).2.upcoming = (Source.ofString source).tokens ∧
      (advance (Compiler.start source heap roots)).2.panicking = false := by
    change (Compiler.pull (Source.ofString source).tokens _).upcoming = _ ∧
      (Compiler.pull (Source.ofString source).tokens _).panicking = _
    revert hstream
    generalize (Source.ofString source).tokens = tokens
    intro hstream
    cases hstream with
    | eof hu => simp [Compiler.pull, hu, Compiler.upcoming, Compiler.start]
    | @cons u ts hu proper more =>
      unfold Compiler.pull
      split
      · exact absurd ‹_› (proper.notError _)
      · exact absurd ‹_› hu
      · exact ⟨if_neg hu, rfl⟩
  refine ⟨⟨?_, ?_⟩, fun hpanic => ?_⟩
  · rw [hfirst.1]
    exact hstream
  · rw [hfirst.1]
    exact hp.symbols_eq
  · rw [hfirst.2] at hpanic
    cases hpanic

/-- **The parser follows the program.** -/
theorem Parses.agrees (hp : Parses source program) (heap : Heap) (roots : Thunk (List Handle)) :
    Agrees (parse (Compiler.fuel (Compiler.start source heap roots).rest.length)) (runProgram program)
      (Compiler.start source heap roots) := by
  set fuel := Compiler.fuel (Compiler.start source heap roots).rest.length with hfuel
  have hlength : (Declaration.listSymbols program).length + 1 =
      (Compiler.start source heap roots).rest.length := by
    have hlength := congrArg List.length hp.symbols_eq
    rw [List.length_map, List.length_append] at hlength
    exact hlength.symm
  have hprogram := Declaration.length_le_listSymbols program
  rw [Compiler.fuel, ← hlength] at hfuel
  have hscript : Agrees (loop (do return !(← accept .eof)) (declaration fuel) fuel)
      (do Declaration.runList program; advance) (advance (Compiler.start source heap roots)).2 := by
    refine declarations_agree (statement_declaration_agree fuel).2 _ advance ?_ ?_ (by decide)
      hp.grammatical (by omega) (by omega) hp.awaits
    · intro c s more hc hs
      rw [bind_of (accept_eq_false .eof hc.toExpects (Declaration.ne_of_starts hs).2.2)]
      rfl
    · intro c hc
      rw [bind_of (accept_eq .eof hc.toExpects rfl)]
      rfl
  unfold parse script runProgram
  rw [bind_assoc]
  refine .bind (.of_eq rfl) (.assoc (.bind hscript (.of_eq rfl)))

/-- **A source compiles if and only if compiling along its program meets no error.** -/
theorem Parses.compile_eq_ok_iff (hp : Parses source program) :
    compile source heap roots = (.ok h, heap') ↔
      (runProgram program (Compiler.start source heap roots)).2.errors = #[] ∧
        (runProgram program (Compiler.start source heap roots)).2.heap.alloc roots
          (.function (runProgram program (Compiler.start source heap roots)).1.function) = (h, heap') := by
  have hagrees := hp.agrees heap roots
  unfold Agrees at hagrees
  rw [compile_eq]
  dsimp only
  generalize hparsed : parse _ _ = parsed at hagrees ⊢
  generalize hrun : runProgram program _ = run at hagrees ⊢
  obtain ⟨d, c⟩ := parsed
  obtain ⟨d', c'⟩ := run
  dsimp only at hagrees ⊢
  constructor
  · intro hok
    split at hok
    · rename_i hempty
      obtain ⟨rfl, rfl⟩ := Prod.mk.inj (hagrees (.inl (Array.isEmpty_iff.1 hempty)))
      simp only [Prod.mk.injEq, Except.ok.injEq] at hok
      exact ⟨Array.isEmpty_iff.1 hempty, Prod.ext hok.1 hok.2⟩
    · simp at hok
  · rintro ⟨herrors, halloc⟩
    obtain ⟨rfl, rfl⟩ := Prod.mk.inj (hagrees (.inr herrors))
    rw [if_pos (Array.isEmpty_iff.2 herrors), halloc]

end LoxMachine
