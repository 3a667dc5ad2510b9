import LoxMachine.Proofs.Compile.Verified
import LoxMachine.Proofs.Scan.Spelling

/-!
# Scanned tokens

* `Token.Scanned`: what the text of a scanned token looks like.
* `Source.tokens_eq`: the tokens of a source are such tokens, and `eof` is the last one of them.
-/

namespace LoxMachine

/-- The text of a keyword, a name or a number is as the parser relies on. -/
structure Token.Scanned (t : Token) : Prop where
  this : t.kind = .kwThis → t.text = "this"
  name : t.kind = .identifier → t.text ≠ "this" ∧ t.text ≠ "super"
  text : t.text ≠ ""
  number : t.kind = .number → (Number.ofLiteral? t.text).isSome = true

/-! ## Words and numbers -/

theorem TokenKind.eq_this_of_ofWord {w : String} (h : ofWord w = .kwThis) : w = "this" := by
  unfold ofWord at h
  split at h <;> first | rfl | cases h

theorem TokenKind.ne_of_ofWord {w : String} (h : ofWord w = .identifier) : w ≠ "this" ∧ w ≠ "super" := by
  constructor <;>
  · rintro rfl
    exact absurd h (by decide)

theorem TokenKind.ofWord_ne_number (w : String) : ofWord w ≠ .number := by
  unfold ofWord
  split <;> exact nofun

theorem TokenKind.ofWord_ne_eof (w : String) : ofWord w ≠ .eof := by
  unfold ofWord
  split <;> exact nofun

namespace Number

/-- A literal without a point. -/
theorem isSome_ofLiteral?_whole {ds : List Char} (hne : ds ≠ []) (hds : ∀ d ∈ ds, d.isDigit = true) :
    (ofLiteral? (String.ofList ds)).isSome = true := by
  have htake : ds.takeWhile Char.isDigit = ds := List.takeWhile_eq_self_iff.2 hds
  have hdrop : ds.dropWhile Char.isDigit = [] := List.dropWhile_eq_nil_iff.2 hds
  unfold ofLiteral?
  rw [String.toList_ofList, htake, hdrop]
  simp [hne]

/-- A literal with a point. -/
theorem isSome_ofLiteral?_fraction {ds fs : List Char} (hne : ds ≠ []) (hds : ∀ d ∈ ds, d.isDigit = true)
    (hne' : fs ≠ []) (hfs : ∀ d ∈ fs, d.isDigit = true) :
    (ofLiteral? (String.ofList (ds ++ '.' :: fs))).isSome = true := by
  have htake : (ds ++ '.' :: fs).takeWhile Char.isDigit = ds := by
    rw [List.takeWhile_append_of_pos hds]
    simp
  have hdrop : (ds ++ '.' :: fs).dropWhile Char.isDigit = '.' :: fs := by
    rw [List.dropWhile_append_of_pos hds]
    simp
  unfold ofLiteral?
  rw [String.toList_ofList, htake, hdrop]
  simp [hne, hne', List.all_eq_true.2 hfs]

end Number

namespace Token

/-- The text of a number. -/
theorem isSome_ofLiteral?_numberTail {c : Char} {rest : List Char} (hc : c.isDigit = true) :
    (Number.ofLiteral? (String.ofList (c :: rest.take (numberTail rest)))).isSome = true := by
  have hwhole : ∀ d ∈ c :: rest.takeWhile Char.isDigit, d.isDigit = true := by
    intro d hd
    rcases List.mem_cons.1 hd with rfl | hd
    · exact hc
    · exact List.mem_takeWhile_imp hd
  rcases numberTail_cases rest with ⟨d, more, -, hd, htake, -⟩ | ⟨-, htake, -⟩
  · rw [htake, ← List.cons_append]
    refine Number.isSome_ofLiteral?_fraction (by simp) hwhole (by simp) fun x hx => ?_
    rcases List.mem_cons.1 hx with rfl | hx
    · exact hd
    · exact List.mem_takeWhile_imp hx
  · rw [htake]
    exact Number.isSome_ofLiteral?_whole (by simp) hwhole

/-- The kinds of pieces that are neither words nor numbers. -/
theorem extent_symbol {c : Char} (rest : List Char) (hword : isWordStart c = false)
    (hdigit : c.isDigit = false) :
    (extent c rest).1 ≠ .kwThis ∧ (extent c rest).1 ≠ .identifier ∧ (extent c rest).1 ≠ .number ∧
      (extent c rest).1 ≠ .eof := by
  unfold extent withEqual stringTail
  rw [if_neg (by simp [hword]), if_neg (by simp [hdigit])]
  dsimp only
  split <;> (try split) <;> exact ⟨by simp, by simp, by simp, by simp⟩

theorem scanned_extent {c : Char} {rest : List Char} {line : Nat} :
    Scanned ⟨(extent c rest).1, String.ofList (c :: rest.take (extent c rest).2), line⟩ ∧
      (extent c rest).1 ≠ .eof := by
  have htext : String.ofList (c :: rest.take (extent c rest).2) ≠ "" := by
    intro h
    have hlist := congrArg String.toList h
    simp at hlist
  by_cases hword : isWordStart c = true
  · have hextent : extent c rest = (.ofWord (String.ofList (c :: rest.takeWhile isWordPart)),
        (rest.takeWhile isWordPart).length) := by
      unfold extent
      rw [if_pos hword]
    rw [hextent, take_length_takeWhile] at htext ⊢
    refine ⟨⟨TokenKind.eq_this_of_ofWord, TokenKind.ne_of_ofWord, htext,
      fun h => absurd h (TokenKind.ofWord_ne_number _)⟩, ?_⟩
    exact TokenKind.ofWord_ne_eof _
  · by_cases hdigit : c.isDigit = true
    · have hextent : extent c rest = (.number, numberTail rest) := by
        unfold extent
        rw [if_neg hword, if_pos hdigit]
      rw [hextent] at htext ⊢
      exact ⟨⟨nofun, nofun, htext, fun _ => isSome_ofLiteral?_numberTail hdigit⟩, nofun⟩
    · obtain ⟨hthis, hname, hnumber, heof⟩ := extent_symbol rest (Bool.eq_false_iff.2 hword)
        (Bool.eq_false_iff.2 hdigit)
      exact ⟨⟨fun h => absurd h hthis, fun h => absurd h hname, htext, fun h => absurd h hnumber⟩, heof⟩

/-- What is wrong with a piece stands in the place of its text, and the parser relies on no such text. -/
theorem Scanned.lexeme {kind : TokenKind} {piece : String} {line : Nat} (h : Scanned ⟨kind, piece, line⟩) :
    Scanned ⟨kind, kind.lexeme piece, line⟩ := by
  by_cases herror : ∃ reason, kind = .error reason
  · obtain ⟨reason, rfl⟩ := herror
    have hmessage : reason.message ≠ "" := by cases reason <;> decide
    exact ⟨nofun, nofun, hmessage, nofun⟩
  · have hpiece : kind.lexeme piece = piece := by
      unfold TokenKind.lexeme
      split
      · exact absurd ⟨_, rfl⟩ herror
      · rfl
    rwa [hpiece]

end Token

/-! ## Sources -/

namespace Source

/-- One token: the end of the source, or one that the parser can rely on. -/
theorem scanned_next (s : Source) : s.next.1.kind ≠ .eof → s.next.1.Scanned := by
  unfold next
  split
  · exact fun h => absurd rfl h
  · exact fun _ => Token.scanned_extent.1.lexeme

theorem tokensOnto_eq (n : Nat) (taken : List Token) (s : Source) (h : s.rest.length < n) :
    ∃ (ts : List Token) (t : Token), tokensOnto n taken s = t :: (ts.reverse ++ taken) ∧ t.kind = .eof ∧
      ∀ u ∈ ts, u.kind ≠ .eof ∧ u.Scanned := by
  induction n generalizing taken s with
  | zero => omega
  | succ n ih =>
    unfold tokensOnto
    dsimp only
    split
    · rename_i heof
      exact ⟨[], s.next.1, rfl, heof, List.forall_mem_nil _⟩
    · rename_i hne
      have hlt := length_rest_next_lt s hne
      obtain ⟨ts, t, heq, ht, hts⟩ := ih (s.next.1 :: taken) s.next.2 (by omega)
      refine ⟨s.next.1 :: ts, t, ?_, ht, fun u hu => ?_⟩
      · rw [heq]
        simp
      · rcases List.mem_cons.1 hu with rfl | hu
        · exact ⟨hne, scanned_next s hne⟩
        · exact hts u hu

/-- **The tokens of a source** end with `eof`. -/
theorem tokens_eq (s : Source) : ∃ ts t, s.tokens = ts ++ [t] ∧ t.kind = .eof ∧
    ∀ u ∈ ts, u.kind ≠ .eof ∧ u.Scanned := by
  obtain ⟨ts, t, heq, ht, hts⟩ := tokensOnto_eq (s.rest.length + 1) [] s (Nat.lt_succ_self _)
  refine ⟨ts, t, ?_, ht, hts⟩
  rw [tokens, heq]
  simp

end Source

end LoxMachine
