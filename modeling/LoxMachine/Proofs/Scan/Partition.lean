import LoxMachine.Proofs.Scan.Spelling

/-!
# The pieces of a source

* `Blank False cs`: the text between two tokens; `Blank True cs`: the text after the last one.
* `Piece` is a token with the text that it is read from, and the text between it and the token before.
* `Piece.Stands p line after`: the token is one that stands between this line and what follows.
* `Source.token s n` is the token that is read after `n` others.
* `Source.Cut s done pieces tail`: the pieces of what is left of a source after the text `done`. They follow each
  other to its end, and their tokens are read and then `eof`, again and again.
-/

namespace LoxMachine

/-! ## Blanks and comments -/

/-- A text without tokens: spaces, tabs, carriage returns, line feeds, and comments to the end of their
line. At the end of a source a comment needs no line feed. -/
inductive Blank (atEnd : Prop) : List Char → Prop
  | nil : Blank atEnd []
  | blank {c : Char} {cs : List Char} (blank : c ∈ [' ', '\t', '\r', '\n']) (more : Blank atEnd cs) :
    Blank atEnd (c :: cs)
  | comment {text cs : List Char} (line : '\n' ∉ text) (more : Blank atEnd cs) :
    Blank atEnd ('/' :: '/' :: (text ++ '\n' :: cs))
  | lastComment {text : List Char} (last : atEnd) (line : '\n' ∉ text) : Blank atEnd ('/' :: '/' :: text)

theorem Blank.mono {atEnd atEnd' : Prop} (h : atEnd → atEnd') {cs : List Char} (hcs : Blank atEnd cs) :
    Blank atEnd' cs := by
  induction hcs with
  | nil => exact .nil
  | blank hc _ ih => exact .blank hc ih
  | comment hline _ ih => exact .comment hline ih
  | lastComment last hline => exact .lastComment (h last) hline

namespace Source

/-- What is passed over: up to the end of the line, if it starts inside a comment. -/
def Passed (inComment : Bool) (atEnd : Prop) (gap : List Char) : Prop :=
  if inComment then
    (∃ text more, gap = text ++ '\n' :: more ∧ '\n' ∉ text ∧ Blank atEnd more) ∨ atEnd ∧ '\n' ∉ gap
  else Blank atEnd gap

/-- **Only blanks and comments are passed over**, and their lines are counted. -/
theorem skip_passed (inComment : Bool) (line : Nat) (cs : List Char) :
    ∃ gap, cs = gap ++ (skip inComment line cs).rest ∧
      Passed inComment ((skip inComment line cs).rest = []) gap ∧
      (skip inComment line cs).line = line + gap.count '\n' := by
  fun_induction skip inComment line cs with
  | case1 inComment =>
    refine ⟨[], rfl, ?_, rfl⟩
    cases inComment
    · exact Blank.nil
    · exact .inr ⟨rfl, List.not_mem_nil⟩
  | case2 inComment line cs ih =>
    obtain ⟨gap, hcs, hgap, hline⟩ := ih
    refine ⟨'\n' :: gap, congrArg _ hcs, ?_, ?_⟩
    · cases inComment
      · exact Blank.blank (by decide) hgap
      · exact .inl ⟨[], gap, rfl, List.not_mem_nil, hgap⟩
    · rw [hline, List.count_cons_self, Nat.add_assoc, Nat.add_comm 1]
  | case3 line c cs hc ih =>
    obtain ⟨gap, hcs, hgap, hline⟩ := ih
    have hc : c ≠ '\n' := hc
    refine ⟨c :: gap, congrArg _ hcs, ?_, by rw [hline, List.count_cons_of_ne hc]⟩
    rcases hgap with ⟨text, more, rfl, htext, hmore⟩ | ⟨hend, hgap⟩
    · exact .inl ⟨c :: text, more, rfl, List.not_mem_cons_of_ne_of_not_mem hc.symm htext, hmore⟩
    · exact .inr ⟨hend, List.not_mem_cons_of_ne_of_not_mem hc.symm hgap⟩
  | case4 inComment line c cs hc hinside hblank ih =>
    obtain ⟨gap, hcs, hgap, hline⟩ := ih
    have hc : c ≠ '\n' := hc
    obtain rfl : inComment = false := by simpa using hinside
    refine ⟨c :: gap, congrArg _ hcs, Blank.blank ?_ hgap, by rw [hline, List.count_cons_of_ne hc]⟩
    simp only [isBlank, Bool.or_eq_true, beq_iff_eq] at hblank
    rcases hblank with (rfl | rfl) | rfl <;> decide
  | case5 inComment line c cs hc hinside _ hslashes ih =>
    obtain ⟨gap, hcs, hgap, hline⟩ := ih
    obtain rfl : inComment = false := by simpa using hinside
    simp only [Bool.and_eq_true, beq_iff_eq] at hslashes
    obtain ⟨rfl, hhead⟩ := hslashes
    refine ⟨'/' :: gap, congrArg _ hcs, ?_, by rw [hline, List.count_cons_of_ne (by decide)]⟩
    rcases hgap with ⟨text, more, rfl, htext, hmore⟩ | ⟨hend, hgap⟩
    · cases text with
      | nil =>
        rw [hcs] at hhead
        cases hhead
      | cons d text =>
        rw [hcs] at hhead
        obtain rfl : d = '/' := Option.some.inj hhead
        exact Blank.comment (List.not_mem_of_not_mem_cons htext) hmore
    · rw [hend, List.append_nil] at hcs
      subst hcs
      obtain ⟨text, rfl⟩ := List.head?_eq_some_iff.1 hhead
      exact Blank.lastComment hend (List.not_mem_of_not_mem_cons hgap)
  | case6 inComment line c cs hc hinside hblank hslashes =>
    obtain rfl : inComment = false := by simpa using hinside
    exact ⟨[], rfl, Blank.nil, rfl⟩

end Source

/-! ## Pieces -/

/-- A token of a source: the text between the token before and itself, its own text, and what is read. -/
structure Piece where
  gap : List Char
  text : List Char
  token : Token

namespace Piece

def written (p : Piece) : List Char := p.gap ++ p.text

/-- The piece is what the scanner reads between the texts `before` and `after`. -/
structure Stands (p : Piece) (before after : List Char) : Prop where
  gap : Blank False p.gap
  nonempty : p.text ≠ []
  ends : p.token.kind.Ends p.text after
  /-- The text of the token is the text of the piece, unless the piece is no token. -/
  lexeme : p.token.text = p.token.kind.lexeme (String.ofList p.text)
  /-- The line of the last character. -/
  line : p.token.line = 1 + (before ++ p.gap ++ p.text).count '\n'

end Piece

namespace Source

/-- The end of a source, after a text. -/
def ending (before : List Char) : Token := ⟨.eof, "", 1 + before.count '\n'⟩

/-- What is left of a source after some tokens. -/
def after (s : Source) : Nat → Source
  | 0 => s
  | n + 1 => s.next.2.after n

/-- The token that is read after `n` others. -/
def token (s : Source) (n : Nat) : Token := (s.after n).next.1

variable {s : Source} {before : List Char}

/-- What stands between the last token and the next one. -/
def gap (s : Source) : List Char := s.rest.take (s.rest.length - (skip false s.line s.rest).rest.length)

theorem gap_append (s : Source) : s.gap ++ (skip false s.line s.rest).rest = s.rest := by
  obtain ⟨gap, hrest, -⟩ := skip_passed false s.line s.rest
  have hlength := congrArg List.length hrest
  rw [List.length_append] at hlength
  have hgap : s.gap = gap := by
    rw [Source.gap, hlength, Nat.add_sub_cancel]
    exact (congrArg (List.take gap.length) hrest).trans List.take_left
  rw [hgap, ← hrest]

theorem next_of_end (h : (skip false s.line s.rest).rest = []) :
    s.next = (⟨.eof, "", (skip false s.line s.rest).line⟩, ⟨[], (skip false s.line s.rest).line⟩) := by
  unfold next
  split
  · rename_i line hleft
    rw [hleft]
  · rename_i hleft
    rw [hleft] at h
    cases h

theorem next_of_cons {c : Char} {rest : List Char} (h : (skip false s.line s.rest).rest = c :: rest) :
    s.next =
      let taken := c :: rest.take (Token.extent c rest).2
      let line := (skip false s.line s.rest).line + taken.count '\n'
      (⟨(Token.extent c rest).1, (Token.extent c rest).1.lexeme (String.ofList taken), line⟩,
        ⟨rest.drop (Token.extent c rest).2, line⟩) := by
  unfold next
  split
  · rename_i hleft
    rw [hleft] at h
    cases h
  · rename_i c' rest' line hleft
    rw [hleft] at h ⊢
    obtain ⟨rfl, rfl⟩ := List.cons.inj h
    rfl

/-- **One token.** Either nothing but blanks and comments is left, or a piece is taken off. -/
theorem next_cases (hline : s.line = 1 + before.count '\n') :
    (Blank True s.rest ∧ (skip false s.line s.rest).rest = [] ∧
      s.next = (ending (before ++ s.rest), ⟨[], (ending (before ++ s.rest)).line⟩)) ∨
      ∃ p : Piece, p.gap = s.gap ∧ (skip false s.line s.rest).rest = p.text ++ s.next.2.rest ∧
        p.Stands before s.next.2.rest ∧ p.token.kind ≠ .eof ∧ s.next.1 = p.token ∧
        s.next.2.line = 1 + (before ++ p.written).count '\n' := by
  obtain ⟨gap, hrest, hgap, hskip⟩ := skip_passed false s.line s.rest
  obtain rfl : gap = s.gap := List.append_cancel_right (hrest.symm.trans s.gap_append.symm)
  have hgap : Blank ((skip false s.line s.rest).rest = []) s.gap := hgap
  have hcount : (skip false s.line s.rest).line = 1 + (before ++ s.gap).count '\n' := by
    rw [hskip, hline, List.count_append, Nat.add_assoc]
  cases hleft : (skip false s.line s.rest).rest with
  | nil =>
    have hall : s.rest = s.gap := by rw [← s.gap_append, hleft, List.append_nil]
    refine .inl ⟨hall ▸ hgap.mono fun _ => trivial, rfl, ?_⟩
    rw [next_of_end hleft, hcount, ← hall]
    rfl
  | cons c rest =>
    rw [hleft] at hgap
    set taken := c :: rest.take (Token.extent c rest).2 with htaken
    have hends := TokenKind.extent_ends c rest
    have hcount' : 1 + (before ++ s.gap).count '\n' + taken.count '\n' =
        1 + (before ++ s.gap ++ taken).count '\n' := by rw [Nat.add_assoc, ← List.count_append]
    rw [next_of_cons hleft]
    dsimp only
    rw [← htaken, hcount, hcount']
    refine .inr ⟨⟨s.gap, taken, _⟩, rfl, ?_, ⟨hgap.mono nofun, List.cons_ne_nil _ _, hends, rfl, rfl⟩,
      hends.ne_eof, rfl, by rw [Piece.written, List.append_assoc]⟩
    rw [htaken, List.cons_append, List.take_append_drop]

/-- At the end the scanner stays there. -/
theorem token_of_ended {line : Nat} (n : Nat) : (⟨[], line⟩ : Source).token n = ⟨.eof, "", line⟩ := by
  induction n with
  | zero => rfl
  | succ n ih => exact ih

/-- What is left of a source after the text `done` is these pieces and no other token: `next` takes one piece
off after the other, and then it is at the end. -/
inductive Cut : Source → List Char → List Piece → List Char → Prop
  | ended {s : Source} {done : List Char} (blank : Blank True s.rest)
    (skips : (skip false s.line s.rest).rest = [])
    (next : s.next = (ending (done ++ s.rest), ⟨[], (ending (done ++ s.rest)).line⟩)) : Cut s done [] s.rest
  | cons {s : Source} {done tail : List Char} {p : Piece} {pieces : List Piece} (gap : p.gap = s.gap)
    (skips : (skip false s.line s.rest).rest = p.text ++ s.next.2.rest) (stands : p.Stands done s.next.2.rest)
    (kind : p.token.kind ≠ .eof) (token : s.next.1 = p.token)
    (more : Cut s.next.2 (done ++ p.written) pieces tail) : Cut s done (p :: pieces) tail

theorem rest_eq_of_skips {p : Piece} (hgap : p.gap = s.gap)
    (hskips : (skip false s.line s.rest).rest = p.text ++ s.next.2.rest) : s.rest = p.written ++ s.next.2.rest := by
  rw [Piece.written, List.append_assoc, ← hskips, hgap, gap_append]

namespace Cut

variable {done tail : List Char} {pieces : List Piece}

/-- The pieces are the whole source. -/
theorem covers (h : s.Cut done pieces tail) : s.rest = pieces.flatMap Piece.written ++ tail := by
  induction h with
  | ended => rfl
  | cons gap skips _ _ _ _ ih =>
    rw [rest_eq_of_skips gap skips, List.flatMap_cons, List.append_assoc, ← ih]

theorem blank (h : s.Cut done pieces tail) : Blank True tail := by
  induction h with
  | ended blank => exact blank
  | cons _ _ _ _ _ _ ih => exact ih

/-- Every piece stands between the pieces before it and those after it. -/
theorem stands (h : s.Cut done pieces tail) : ∀ before p after, pieces = before ++ p :: after →
    p.Stands (done ++ before.flatMap Piece.written) (after.flatMap Piece.written ++ tail) := by
  induction h with
  | ended => exact fun before p after h => absurd h (by simp)
  | cons _ _ stands _ _ more ih =>
    intro before q after heq
    cases before with
    | nil =>
      obtain ⟨rfl, rfl⟩ := List.cons.inj heq
      rw [List.flatMap_nil, List.append_nil, ← more.covers]
      exact stands
    | cons p' before =>
      obtain ⟨rfl, rfl⟩ := List.cons.inj heq
      rw [List.flatMap_cons, ← List.append_assoc]
      exact ih before q after rfl

theorem kind (h : s.Cut done pieces tail) : ∀ p ∈ pieces, p.token.kind ≠ .eof := by
  induction h with
  | ended => exact nofun
  | cons _ _ _ kind _ _ ih => exact List.forall_mem_cons.2 ⟨kind, ih⟩

/-- The tokens of the pieces are read in their order, and then the end. -/
theorem token (h : s.Cut done pieces tail) (n : Nat) :
    s.token n = (pieces[n]?.map Piece.token).getD (ending (done ++ s.rest)) := by
  induction h generalizing n with
  | @ended s _ _ _ next =>
    cases n with
    | zero => exact congrArg Prod.fst next
    | succ n =>
      change s.next.2.token n = _
      rw [next, token_of_ended]
      rfl
  | @cons s _ _ _ _ gap skips _ _ token _ ih =>
    cases n with
    | zero => exact token
    | succ n =>
      change s.next.2.token n = _
      rw [ih, List.append_assoc, ← rest_eq_of_skips gap skips, List.getElem?_cons_succ]

end Cut

/-- Every piece takes a character, so there are only so many. -/
theorem exists_cut (s : Source) (done : List Char) (hline : s.line = 1 + done.count '\n') :
    ∃ pieces tail, s.Cut done pieces tail := by
  induction hlength : s.rest.length using Nat.strong_induction_on generalizing s done with
  | _ length ih =>
    rcases next_cases hline with ⟨hblank, hskips, hnext⟩ | ⟨p, hgap, hskips, hstands, hkind, htoken, hline'⟩
    · exact ⟨[], s.rest, .ended hblank hskips hnext⟩
    · have hlt : s.next.2.rest.length < length := by
        rw [← hlength, rest_eq_of_skips hgap hskips, Piece.written, List.length_append, List.length_append]
        have := List.length_pos_iff.2 hstands.nonempty
        omega
      obtain ⟨pieces, tail, hcut⟩ := ih _ hlt s.next.2 (done ++ p.written) hline' rfl
      exact ⟨p :: pieces, tail, .cons hgap hskips hstands hkind htoken hcut⟩

/-- The list of the tokens ends with the first `eof`. -/
theorem tokensOnto_eq_of_token {m n : Nat} (s : Source) (taken : List Token)
    (hkind : ∀ i < m, (s.token i).kind ≠ .eof) (hend : (s.token m).kind = .eof) (hn : m < n) :
    s.tokensOnto n taken = s.token m :: (((List.range m).map s.token).reverse ++ taken) := by
  induction m generalizing s taken n with
  | zero =>
    obtain ⟨n, rfl⟩ := Nat.exists_eq_succ_of_ne_zero (Nat.ne_zero_of_lt hn)
    unfold tokensOnto
    exact if_pos hend
  | succ m ih =>
    obtain ⟨n, rfl⟩ := Nat.exists_eq_succ_of_ne_zero (Nat.ne_zero_of_lt hn)
    have hrest := ih (n := n) s.next.2 (s.next.1 :: taken) (fun i hi => hkind (i + 1) (by omega)) hend (by omega)
    unfold tokensOnto
    refine (if_neg (hkind 0 (Nat.succ_pos m))).trans (hrest.trans ?_)
    rw [List.range_succ_eq_map, List.map_cons, List.map_map, List.reverse_cons, List.append_assoc]
    exact rfl

/-- Every piece takes a character. -/
theorem length_le_of_nonempty {pieces : List Piece} (h : ∀ p ∈ pieces, p.text ≠ []) :
    pieces.length ≤ (pieces.flatMap Piece.written).length := by
  induction pieces with
  | nil => exact le_rfl
  | cons p pieces ih =>
    obtain ⟨hp, hpieces⟩ := List.forall_mem_cons.1 h
    have hle := ih hpieces
    have hpos := List.length_pos_iff.2 hp
    simp only [List.flatMap_cons, Piece.written, List.length_append, List.length_cons] at hle ⊢
    omega

theorem Cut.tokens_eq {tail : List Char} {pieces : List Piece} (h : s.Cut [] pieces tail) :
    s.tokens = pieces.map Piece.token ++ [ending s.rest] := by
  have hend : s.token pieces.length = ending s.rest := by
    rw [h.token, List.getElem?_eq_none le_rfl]
    rfl
  have hmap : (List.range pieces.length).map s.token = pieces.map Piece.token := by
    refine List.ext_getElem (by simp) fun i hi hi' => ?_
    rw [List.getElem_map, List.getElem_map, List.getElem_range, h.token, List.getElem?_eq_getElem]
    rfl
  have hlength : pieces.length ≤ s.rest.length := by
    refine (length_le_of_nonempty fun p hp => ?_).trans (h.covers ▸ List.length_append ▸ Nat.le_add_right _ _)
    obtain ⟨before, after, heq⟩ := List.append_of_mem hp
    exact (h.stands before p after heq).nonempty
  have hkind : ∀ i < pieces.length, (s.token i).kind ≠ .eof := by
    intro i hi
    rw [h.token, List.getElem?_eq_getElem hi]
    exact h.kind _ (List.getElem_mem hi)
  rw [tokens, tokensOnto_eq_of_token s [] hkind (hend ▸ rfl) (Nat.lt_succ_of_le hlength), hend, hmap]
  simp

end Source

end LoxMachine
