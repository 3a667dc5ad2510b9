import LoxMachine.Proofs.Scan.Characters
import LoxMachine.Proofs.Scan.Partition

/-!
# Scanning by bytes and by characters

* `Scanner.Reads s before rest`: the scanner stands between two texts that make up its source.
* `skipWhile_eq`, `toQuote_eq`, `skipWhitespace_eq`, `toBoundary_eq`: the loops over bytes end between characters.
* `Scanner.scanToken_of_piece`: the scanner reads from bytes the token that is read from characters; no slice of
  it fails, and the text of the token stands between its offsets.
* `source_partition`: the pieces of a source follow each other from its start to its end, and the scanner
  reads their tokens and then `eof`, again and again.
-/

namespace LoxMachine

/-! ## Scanners -/

namespace Scanner

variable {s : Scanner} {before rest : List Char} {c : Char} {test : Char → Bool}

/-- The scanner stands between two texts that make up its source. -/
structure Reads (s : Scanner) (before rest : List Char) : Prop where
  source : s.source.toList = before ++ rest
  current : s.current = width before

theorem Reads.drop (h : s.Reads before rest) : (bytes s.source.toList).drop s.current = bytes rest := by
  rw [h.source, bytes_append, h.current, width, List.drop_left]

theorem peek_eq (s : Scanner) : s.peek = ((bytes s.source.toList).drop s.current).head? := by
  rw [peek, getElem?_toByteArray, List.head?_drop]

theorem peekNext_eq (s : Scanner) : s.peekNext = ((bytes s.source.toList).drop s.current)[1]? := by
  rw [peekNext, getElem?_toByteArray, List.getElem?_drop]

theorem Reads.peek (h : s.Reads before rest) : s.peek = (bytes rest).head? := by
  rw [peek_eq, h.drop]

/-- The scanner that has read one more text. -/
def read (s : Scanner) (text : List Char) : Scanner :=
  { s with current := s.current + width text, line := s.line + text.count '\n' }

@[simp] theorem read_read (s : Scanner) (text more : List Char) :
    (s.read text).read more = s.read (text ++ more) := by
  simp only [read, width_append, List.count_append, Nat.add_assoc]

theorem Reads.read (text : List Char) (h : s.Reads before (text ++ rest)) :
    (s.read text).Reads (before ++ text) rest where
  source := by rw [List.append_assoc]; exact h.source
  current := by rw [width_append, ← h.current]; rfl

theorem Reads.read_takeWhile (test : Char → Bool) (h : s.Reads before rest) :
    (s.read (rest.takeWhile test)).Reads (before ++ rest.takeWhile test) (rest.dropWhile test) := by
  rw [← List.takeWhile_append_dropWhile (p := test) (l := rest)] at h
  exact h.read _

/-- Past a character of one byte that ends no line. -/
theorem forward_eq (hc : IsNarrow c) (hline : c ≠ '\n') (s : Scanner) : s.forward = s.read [c] := by
  rw [read, width_cons, Char.utf8Size_eq_one_iff.2 hc, List.count_singleton, beq_eq_false_iff_ne.2 hline]
  rfl

theorem Reads.peek_cons (h : s.Reads before (c :: rest)) :
    ∃ b, s.peek = some b ∧ ∀ test, Plain test → test (.ofUInt8 b) = test c := by
  rw [h.peek]
  exact exists_head c rest

theorem passes_head (ht : Plain test) (cs : List Char) : passes test (bytes cs).head? = cs.head?.any test := by
  cases cs with
  | nil => rfl
  | cons c cs =>
    obtain ⟨b, hb, hc⟩ := exists_head c cs
    rw [hb]
    exact hc test ht

theorem Reads.passes_peek (ht : Plain test) (h : s.Reads before rest) :
    passes test s.peek = rest.head?.any test := by
  rw [h.peek, passes_head ht]

/-- The byte after a character of one byte. -/
theorem Reads.passes_peekNext (ht : Plain test) (hc : IsNarrow c) (h : s.Reads before (c :: rest)) :
    passes test s.peekNext = rest.head?.any test := by
  rw [peekNext_eq, h.drop, bytes_cons, utf8EncodeChar_of_narrow hc, List.cons_append, List.nil_append,
    List.getElem?_cons_succ, ← List.head?_eq_getElem?, passes_head ht]

/-! ## Loops -/

theorem skipWhile_some {b : UInt8} (hb : s.peek = some b) :
    s.skipWhile test = if test (.ofUInt8 b) then s.forward.skipWhile test else s := by
  rw [skipWhile]
  split
  · rename_i b' hpeek
    obtain rfl : b = b' := Option.some.inj (hb.symm.trans hpeek)
    rfl
  · rename_i hpeek
    cases hb.symm.trans hpeek

theorem skipWhile_none (h : s.peek = none) : s.skipWhile test = s := by
  rw [skipWhile]
  split
  · rename_i hpeek
    cases h.symm.trans hpeek
  · rfl

theorem toQuote_some {b : UInt8} (hb : s.peek = some b) :
    s.toQuote = if Char.ofUInt8 b == '"' then s
      else toQuote { s.forward with line := if Char.ofUInt8 b == '\n' then s.line + 1 else s.line } := by
  rw [toQuote]
  split
  · rename_i hpeek
    cases hb.symm.trans hpeek
  · rename_i b' hpeek
    obtain rfl : b = b' := Option.some.inj (hb.symm.trans hpeek)
    rfl

theorem toQuote_none (h : s.peek = none) : s.toQuote = s := by
  rw [toQuote]
  split
  · rfl
  · rename_i hpeek
    cases h.symm.trans hpeek

/-- The next byte, and what follows it. -/
theorem peek_of_drop {b : UInt8} {more : List UInt8}
    (h : (bytes s.source.toList).drop s.current = b :: more) :
    s.peek = some b ∧ (bytes s.forward.source.toList).drop s.forward.current = more := by
  refine ⟨by rw [peek_eq, h]; rfl, ?_⟩
  change (bytes s.source.toList).drop (s.current + 1) = _
  rw [← List.tail_drop, h]
  rfl

/-- A loop goes over bytes that pass its test. -/
theorem skipWhile_pass {bs more : List UInt8} (hbs : ∀ b ∈ bs, test (.ofUInt8 b) = true)
    (h : (bytes s.source.toList).drop s.current = bs ++ more) :
    s.skipWhile test = ({ s with current := s.current + bs.length } : Scanner).skipWhile test := by
  induction bs generalizing s with
  | nil => rfl
  | cons b bs ih =>
    obtain ⟨hb, hbs⟩ := List.forall_mem_cons.1 hbs
    obtain ⟨hpeek, hdrop⟩ := peek_of_drop h
    rw [skipWhile_some hpeek, if_pos hb, ih hbs hdrop, List.length_cons, Nat.add_comm bs.length, ← Nat.add_assoc]
    rfl

/-- **A loop over bytes** ends where the text that passes its test ends. -/
theorem skipWhile_eq (ht : Plain test) (hline : test '\n' = false) (h : s.Reads before rest) :
    s.skipWhile test = s.read (rest.takeWhile test) := by
  induction rest generalizing s before with
  | nil => exact skipWhile_none h.peek
  | cons c rest ih =>
    by_cases hc : test c = true
    · have hne : c ≠ '\n' := by
        rintro rfl
        exact Bool.false_ne_true (hline.symm.trans hc)
      have hpass := skipWhile_pass (fun b hb => (passes_of_mem ht hb).trans hc) h.drop
      have hread : { s with current := s.current + (String.utf8EncodeChar c).length } = s.read [c] := by
        rw [read, List.count_singleton, beq_eq_false_iff_ne.2 hne, width_cons, String.length_utf8EncodeChar]
        rfl
      rw [hpass, hread, ih (h.read [c]), List.takeWhile_cons_of_pos hc, read_read]
      rfl
    · obtain ⟨b, hpeek, hb⟩ := h.peek_cons
      rw [skipWhile_some hpeek, hb test ht, if_neg hc, List.takeWhile_cons_of_neg hc]
      rfl

/-- The search for a quote goes over the bytes of a character. -/
theorem toQuote_pass {bs more : List UInt8} (hbs : ∀ b ∈ bs, 0x80 ≤ b)
    (h : (bytes s.source.toList).drop s.current = bs ++ more) :
    s.toQuote = ({ s with current := s.current + bs.length } : Scanner).toQuote := by
  induction bs generalizing s with
  | nil => rfl
  | cons b bs ih =>
    obtain ⟨hb, hbs⟩ := List.forall_mem_cons.1 hbs
    obtain ⟨hpeek, hdrop⟩ := peek_of_drop h
    have hne : ∀ c, IsNarrow c → (Char.ofUInt8 b == c) = false := fun c hc =>
      beq_eq_false_iff_ne.2 fun heq => not_isNarrow_ofUInt8 hb (heq ▸ hc)
    rw [toQuote_some hpeek, hne '"' (by decide), hne '\n' (by decide), if_neg Bool.false_ne_true,
      if_neg Bool.false_ne_true]
    rw [ih (s := { s.forward with line := s.line }) hbs hdrop, List.length_cons, Nat.add_comm bs.length,
      ← Nat.add_assoc]
    rfl

/-- **The search for a quote** ends there and counts the lines on the way. -/
theorem toQuote_eq (h : s.Reads before rest) : s.toQuote = s.read (rest.takeWhile (· != '"')) := by
  induction rest generalizing s before with
  | nil => exact toQuote_none h.peek
  | cons c rest ih =>
    have hread : c ≠ '"' → (s.read [c]).toQuote = s.read ((c :: rest).takeWhile (· != '"')) := by
      intro hquote
      rw [ih (h.read [c]), read_read, List.takeWhile_cons_of_pos (by simpa using hquote)]
      rfl
    by_cases hc : IsNarrow c
    · have hpeek : s.peek = some c.toUInt8 := by
        rw [h.peek, bytes_cons, utf8EncodeChar_of_narrow hc]
        rfl
      rw [toQuote_some hpeek, ofUInt8_toUInt8 hc]
      by_cases hquote : c = '"'
      · subst hquote
        rfl
      · rw [if_neg (by simpa using hquote), ← hread hquote]
        by_cases hline : c = '\n'
        · subst hline
          rfl
        · rw [← forward_eq hc hline, beq_eq_false_iff_ne.2 hline]
          rfl
    · obtain ⟨lead, tail, heq, hlead, htail⟩ := utf8EncodeChar_of_wide hc
      have hbytes : ∀ b ∈ String.utf8EncodeChar c, 0x80 ≤ b := by
        rw [heq]
        exact List.forall_mem_cons.2 ⟨UInt8.le_trans (by decide) hlead, fun b hb => (htail b hb).1⟩
      have hne : ∀ d, IsNarrow d → c ≠ d := fun d hd heq => hc (heq ▸ hd)
      rw [toQuote_pass hbytes h.drop, ← hread (hne '"' (by decide)), read, List.count_singleton,
        beq_eq_false_iff_ne.2 (hne '\n' (by decide)), width_cons, String.length_utf8EncodeChar]
      rfl

/-! ## Blanks and comments -/

theorem skipWhitespace_some {b : UInt8} (hb : s.peek = some b) :
    s.skipWhitespace =
      if isBlank (.ofUInt8 b) then s.forward.skipWhitespace
      else if Char.ofUInt8 b == '\n' then skipWhitespace { s.forward with line := s.line + 1 }
      else if Char.ofUInt8 b == '/' && passes (· == '/') s.peekNext then
        (s.skipWhile (· != '\n')).skipWhitespace
      else s := by
  rw [skipWhitespace]
  split
  · rename_i hpeek
    cases hb.symm.trans hpeek
  · rename_i b' hpeek
    obtain rfl : b = b' := Option.some.inj (hb.symm.trans hpeek)
    rfl

theorem skipWhitespace_none (h : s.peek = none) : s.skipWhitespace = s := by
  rw [skipWhitespace]
  split
  · rfl
  · rename_i hpeek
    cases h.symm.trans hpeek

/-- A comment goes on to the end of the line. -/
theorem skip_inComment (line : Nat) (cs : List Char) :
    Source.skip true line cs = Source.skip false line (cs.dropWhile (· != '\n')) := by
  induction cs with
  | nil => rfl
  | cons c cs ih =>
    by_cases hc : c = '\n'
    · subst hc
      rfl
    · rw [List.dropWhile_cons_of_pos (by simpa using hc), ← ih, Source.skip]
      · rfl
      · exact hc

/-- A scanner goes over a text, up to what is left of its source. -/
def Skips (s s' : Scanner) (rest : List Char) (left : Source) : Prop :=
  ∃ gap, rest = gap ++ left.rest ∧ s' = s.read gap ∧ left.line = s'.line

theorem Skips.of_read {s' : Scanner} {left : Source} {text : List Char}
    (h : Skips (s.read text) s' rest left) :
    Skips s s' (text ++ rest) left := by
  obtain ⟨gap, rfl, rfl, hline⟩ := h
  exact ⟨text ++ gap, (List.append_assoc ..).symm, read_read s text gap, hline⟩

/-- What is passed over, by the first character: a blank, the end of a line, or a comment. -/
theorem skip_cons (line : Nat) (c : Char) (rest : List Char) :
    Source.skip false line (c :: rest) =
      if isBlank c then Source.skip false line rest
      else if c == '\n' then Source.skip false (line + 1) rest
      else if c == '/' && rest.head? == some '/' then
        Source.skip false line ((c :: rest).dropWhile (· != '\n'))
      else ⟨c :: rest, line⟩ := by
  by_cases hline : c = '\n'
  · subst hline
    rfl
  · rw [Source.skip, if_neg Bool.false_ne_true, List.dropWhile_cons_of_pos (by simpa using hline),
      ← skip_inComment, beq_eq_false_iff_ne.2 hline, if_neg Bool.false_ne_true]
    exact hline

/-- The first byte tells the same cases. -/
theorem Reads.skipWhitespace_cons (h : s.Reads before (c :: rest)) :
    s.skipWhitespace =
      if isBlank c then (s.read [c]).skipWhitespace
      else if c == '\n' then (s.read [c]).skipWhitespace
      else if c == '/' && rest.head? == some '/' then
        (s.read ((c :: rest).takeWhile (· != '\n'))).skipWhitespace
      else s := by
  obtain ⟨b, hpeek, hb⟩ := h.peek_cons
  have hslash : passes (· == '/') s.peekNext = (rest.head? == some '/') ∨ c ≠ '/' := by
    by_cases hc : c = '/'
    · rw [h.passes_peekNext (plain_eq (by decide)) (hc ▸ by decide)]
      cases rest <;> exact .inl rfl
    · exact .inr hc
  rw [skipWhitespace_some hpeek, hb isBlank (.of_narrow fun _ => isNarrow_of_isBlank),
    show (Char.ofUInt8 b == '\n') = (c == '\n') from hb _ (plain_eq (by decide)),
    show (Char.ofUInt8 b == '/') = (c == '/') from hb _ (plain_eq (by decide)),
    skipWhile_eq (plain_ne (by decide)) rfl h]
  by_cases hblank : isBlank c = true
  · have hne : c ≠ '\n' := by
      rintro rfl
      cases hblank
    rw [if_pos hblank, if_pos hblank, forward_eq (isNarrow_of_isBlank hblank) hne]
  by_cases hline : c = '\n'
  · subst hline
    rfl
  rw [if_neg hblank, if_neg hblank]
  rcases hslash with hslash | hslash
  · rw [hslash, beq_eq_false_iff_ne.2 hline]
    rfl
  · rw [beq_eq_false_iff_ne.2 hslash, beq_eq_false_iff_ne.2 hline]
    rfl

theorem read_line {text : List Char} (h : '\n' ∉ text) (s : Scanner) : (s.read text).line = s.line := by
  rw [read, List.count_eq_zero.2 h]
  rfl

/-- **Blanks and comments** are passed over byte by byte. -/
theorem skipWhitespace_eq (h : s.Reads before rest) :
    Skips s s.skipWhitespace rest (Source.skip false s.line rest) := by
  induction hlength : rest.length using Nat.strong_induction_on generalizing s before rest with
  | _ length ih =>
    subst hlength
    cases rest with
    | nil => exact ⟨[], rfl, skipWhitespace_none h.peek, by rw [skipWhitespace_none h.peek]; rfl⟩
    | cons c rest =>
      have hnext : Skips s (s.read [c]).skipWhitespace (c :: rest) (Source.skip false (s.read [c]).line rest) :=
        .of_read (ih _ (Nat.lt_succ_self _) (h.read [c]) rfl)
      rw [h.skipWhitespace_cons, skip_cons]
      split
      · rename_i hblank
        have hne : '\n' ∉ [c] := fun hmem => by
          rw [← List.mem_singleton.1 hmem] at hblank
          cases hblank
        rwa [read_line hne] at hnext
      · split
        · rename_i hline
          obtain rfl := beq_iff_eq.1 hline
          exact hnext
        · rename_i hline
          split
          · set comment := (c :: rest).takeWhile (· != '\n') with hcomment
            have hne : '\n' ∉ comment := fun hmem => by simpa using List.mem_takeWhile_imp hmem
            have hlt : ((c :: rest).dropWhile (· != '\n')).length < (c :: rest).length := by
              rw [List.dropWhile_cons_of_pos (by simpa using hline)]
              exact Nat.lt_succ_of_le (List.dropWhile_suffix _).length_le
            have hrest := ih _ hlt (h.read_takeWhile (· != '\n')) rfl
            rw [← hcomment, read_line hne] at hrest
            have hsplit : c :: rest = comment ++ (c :: rest).dropWhile (· != '\n') :=
              List.takeWhile_append_dropWhile.symm
            have hall := hrest.of_read
            rwa [← hsplit] at hall
          · exact ⟨[], rfl, rfl, rfl⟩

/-! ## Tokens -/

/-- The token of a text, and the scanner that has read it. -/
def takes (s : Scanner) (kind : TokenKind) (text : List Char) : Token × Scanner :=
  (⟨kind, kind.lexeme (String.ofList text), (s.read text).line⟩, s.read text)

section Tokens

variable {text : List Char} {kind : TokenKind} (hstart : s.start = s.current)

include hstart

theorem slice?_read (h : s.Reads before (text ++ rest)) :
    slice? (s.read text).source (s.read text).start (s.read text).current = some (String.ofList text) := by
  have hslice := slice?_eq h.source
  rw [width_append, ← h.current] at hslice
  rw [show (s.read text).start = s.current from hstart]
  exact hslice

/-- **The slice is there**, and it is the text that has been read. -/
theorem makeToken_read (text : List Char) (hkind : ∀ piece, kind.lexeme piece = piece)
    (h : s.Reads before (text ++ rest)) :
    (s.read text).makeToken kind = some (s.takes kind text) := by
  rw [makeToken, slice?_read hstart h, takes, hkind]
  rfl

theorem identifier_eq (h : s.Reads before (c :: rest)) :
    (s.read [c]).identifier = some (s.takes (.ofWord (String.ofList (c :: rest.takeWhile isWordPart)))
      (c :: rest.takeWhile isWordPart)) := by
  have htail : s.Reads before ((c :: rest.takeWhile isWordPart) ++ rest.dropWhile isWordPart) := by
    rwa [List.cons_append, List.takeWhile_append_dropWhile]
  have hkind : ∀ w piece, (TokenKind.ofWord w).lexeme piece = piece := by
    intro w piece
    unfold TokenKind.ofWord
    split <;> rfl
  unfold identifier
  rw [skipWhile_eq plain_isWordPart rfl (h.read [c]), read_read, List.singleton_append]
  simp only [slice?_read hstart htail, makeToken_read hstart _ (hkind _) htail]
  rfl

theorem number_eq (h : s.Reads before (c :: rest)) :
    (s.read [c]).number = some (s.takes .number (c :: rest.take (Token.numberTail rest))) := by
  have hread := h.read [c]
  have hwhole := hread.read_takeWhile Char.isDigit
  have hsplit := List.take_append_drop (Token.numberTail rest) rest
  have htoken : s.Reads before
      ((c :: rest.take (Token.numberTail rest)) ++ rest.drop (Token.numberTail rest)) := by
    rwa [List.cons_append, hsplit]
  have hnumber : ∀ piece, TokenKind.number.lexeme piece = piece := fun _ => rfl
  rw [← makeToken_read hstart _ hnumber htoken]
  unfold number
  dsimp only
  rw [skipWhile_eq plain_isDigit rfl hread]
  rcases Token.numberTail_cases rest with ⟨d, more, hrest, hd, htake, -⟩ | ⟨hpoint, htake, -⟩
  · have hfraction : Reads _ _ ('.' :: d :: more) := hrest ▸ hwhole
    have hmore : (passes (· == '.') ((s.read [c]).read (rest.takeWhile Char.isDigit)).peek &&
        passes Char.isDigit ((s.read [c]).read (rest.takeWhile Char.isDigit)).peekNext) = true := by
      rw [hfraction.passes_peek (plain_eq (by decide)), hfraction.passes_peekNext plain_isDigit (by decide)]
      simpa using hd
    rw [if_pos hmore, forward_eq (c := '.') (by decide) (by decide),
      skipWhile_eq plain_isDigit rfl (hfraction.read ['.']), List.takeWhile_cons_of_pos hd, htake]
    simp
  · have hstop : (passes (· == '.') ((s.read [c]).read (rest.takeWhile Char.isDigit)).peek &&
        passes Char.isDigit ((s.read [c]).read (rest.takeWhile Char.isDigit)).peekNext) = false := by
      rw [hwhole.passes_peek (plain_eq (by decide))]
      cases hrest : rest.dropWhile Char.isDigit with
      | nil => rfl
      | cons e more =>
        by_cases he : e = '.'
        · subst he
          have hpeek : Reads _ _ ('.' :: more) := hrest ▸ hwhole
          rw [hpeek.passes_peekNext plain_isDigit (by decide)]
          cases more with
          | nil => rfl
          | cons d more => simpa using hpoint d more hrest
        · simp [he]
    rw [hstop, if_neg Bool.false_ne_true, htake, read_read, List.singleton_append]

theorem string_eq (h : s.Reads before ('"' :: rest)) :
    (s.read ['"']).string =
      some (s.takes (Token.stringTail rest).1 ('"' :: rest.take (Token.stringTail rest).2)) := by
  have hread := h.read ['"']
  have hpass {inside : List Char} (hinside : '"' ∉ inside) : ∀ c ∈ inside, (c != '"') = true :=
    fun c hc => bne_iff_ne.2 fun hquote => hinside (hquote ▸ hc)
  unfold string
  dsimp only
  rw [toQuote_eq hread]
  rcases Token.stringTail_cases rest with ⟨hinside, heq⟩ | ⟨inside, more, rfl, hinside, heq⟩
  · have hwhole : rest.takeWhile (· != '"') = rest := List.takeWhile_eq_self_iff.2 (hpass hinside)
    have hend : ((s.read ['"']).read rest).isAtEnd = true := by
      have hall : Reads _ _ [] := (rest.append_nil ▸ hread).read _
      rw [isAtEnd, utf8ByteSize_eq, hall.source, hall.current, List.append_nil]
      exact decide_eq_true le_rfl
    rw [hwhole, hend, if_pos rfl, heq, read_read]
    dsimp only
    rw [List.take_length]
    rfl
  · have hstop : (inside ++ '"' :: more).takeWhile (· != '"') = inside := by
      rw [List.takeWhile_append_of_pos (hpass hinside)]
      simp
    have hend : ((s.read ['"']).read inside).isAtEnd = false := by
      have hquote : Reads _ _ ('"' :: more) := hread.read _
      have hpos := Char.utf8Size_pos '"'
      rw [isAtEnd, utf8ByteSize_eq, hquote.source, hquote.current, width_append, width_cons,
        decide_eq_false_iff_not]
      omega
    have htake : (inside ++ '"' :: more).take (inside.length + 1) = inside ++ ['"'] := by
      rw [List.take_length_add_append]
      rfl
    have htoken : s.Reads before (('"' :: (inside ++ ['"'])) ++ more) := by simpa using h
    rw [hstop, hend, if_neg Bool.false_ne_true, heq]
    dsimp only
    rw [htake, ← makeToken_read hstart _ (fun _ => rfl) htoken, forward_eq (c := '"') (by decide) (by decide),
      read_read, read_read]
    rfl

theorem either_eq {long short : TokenKind} (hlong : ∀ piece, long.lexeme piece = piece)
    (hshort : ∀ piece, short.lexeme piece = piece) (h : s.Reads before (c :: rest)) :
    (s.read [c]).either long short = some (s.takes (Token.withEqual rest long short).1
      (c :: rest.take (Token.withEqual rest long short).2)) := by
  unfold either
  rw [(h.read [c]).passes_peek (plain_eq (by decide))]
  by_cases hequal : ∃ more, rest = '=' :: more
  · obtain ⟨more, rfl⟩ := hequal
    have htoken := makeToken_read hstart [c, '='] hlong h
    rw [List.head?_cons, Option.any_some, beq_self_eq_true, if_pos rfl,
      forward_eq (c := '=') (by decide) (by decide), read_read]
    exact htoken
  · have hwith : Token.withEqual rest long short = (short, 0) := by
      unfold Token.withEqual
      split
      · exact absurd ⟨_, rfl⟩ hequal
      · rfl
    have hhead : rest.head?.any (· == '=') = false := by
      cases rest with
      | nil => rfl
      | cons d rest => simpa using fun hd : d = '=' => hequal ⟨rest, hd ▸ rfl⟩
    rw [hhead, hwith]
    exact makeToken_read hstart [c] hshort h

end Tokens

/-- The search for a boundary goes over bytes within a character. -/
theorem toBoundary_pass {pre bs more : List UInt8} (h : bytes s.source.toList = pre ++ (bs ++ more))
    (hpre : pre ≠ []) (hcurrent : s.current = pre.length) (hbs : ∀ b ∈ bs, IsTail b)
    (hend : isCharBoundary s.source (s.current + bs.length) = true) :
    s.toBoundary = some { s with current := s.current + bs.length } := by
  induction bs generalizing s pre with
  | nil =>
    rw [toBoundary]
    exact if_pos hend
  | cons b bs ih =>
    obtain ⟨hb, hbs⟩ := List.forall_mem_cons.1 hbs
    have hlt : s.current < s.source.utf8ByteSize := by
      rw [utf8ByteSize_eq, width, h, hcurrent]
      simp
    have hlength : s.current + (b :: bs).length = s.forward.current + bs.length := by
      rw [List.length_cons, Nat.add_comm bs.length, ← Nat.add_assoc]
      rfl
    have hbytes : bytes s.forward.source.toList = (pre ++ [b]) ++ (bs ++ more) := h.trans (by simp)
    have hforward := ih (s := s.forward) hbytes (by simp)
      (by rw [List.length_append, ← hcurrent]; rfl) hbs (hlength ▸ hend)
    rw [toBoundary, hcurrent, not_isCharBoundary_of_tail h hpre hb, ← hcurrent, if_neg Bool.false_ne_true,
      if_pos hlt, hforward, hlength]
    rfl

/-- **The search for a boundary** ends where the character does. -/
theorem toBoundary_eq (hline : c ≠ '\n') (h : s.Reads before (c :: rest)) :
    s.forward.toBoundary = some (s.read [c]) := by
  obtain ⟨lead, tail, heq, htail⟩ := exists_tail c
  have hwidth : width [c] = 1 + tail.length := by
    rw [width, bytes_cons, heq]
    simp [Nat.add_comm]
  have hsize : s.forward.current + tail.length = width (before ++ [c]) := by
    rw [width_append, hwidth, ← h.current, ← Nat.add_assoc]
    rfl
  have hbytes : bytes s.forward.source.toList = (bytes before ++ [lead]) ++ (tail ++ bytes rest) := by
    rw [show s.forward.source = s.source from rfl, h.source, bytes_append, bytes_cons, heq]
    simp
  have hcurrent : s.forward.current = (bytes before ++ [lead]).length := by
    rw [List.length_append, ← width, ← h.current]
    rfl
  have hend : isCharBoundary s.forward.source (s.forward.current + tail.length) = true := by
    have hsplit : s.source.toList = (before ++ [c]) ++ rest := by rw [h.source, List.append_assoc]; rfl
    rw [hsize]
    exact isCharBoundary_width hsplit
  rw [toBoundary_pass hbytes (by simp) hcurrent htail hend, hsize, read, List.count_singleton,
    beq_eq_false_iff_ne.2 hline, width_append, ← h.current]
  rfl

/-- A character of more than one byte starts no token. -/
theorem extent_of_wide (hc : ¬ IsNarrow c) (rest : List Char) :
    Token.extent c rest = (.error .unexpectedCharacter, 0) := by
  unfold Token.extent
  rw [if_neg fun hword => hc (isNarrow_of_isWordStart hword),
    if_neg fun hdigit => hc (isNarrow_of_isDigit hdigit)]
  split <;> first | exact absurd (by decide) hc | rfl

theorem token_of_wide (hc : ¬ IsNarrow c) (s : Scanner) :
    s.token c = s.toBoundary.bind (errorToken .unexpectedCharacter) := by
  unfold token
  rw [if_neg fun hword => hc (isNarrow_of_isWordStart hword),
    if_neg fun hdigit => hc (isNarrow_of_isDigit hdigit)]
  split <;> first | exact absurd (by decide) hc | rfl

/-- A token whose first character has one byte. -/
theorem token_of_narrow (hstart : s.start = s.current) (hc : IsNarrow c) (hline : c ≠ '\n')
    (h : s.Reads before (c :: rest)) :
    s.forward.token c =
      some (s.takes (Token.extent c rest).1 (c :: rest.take (Token.extent c rest).2)) := by
  have hone {kind : TokenKind} (hkind : ∀ piece, kind.lexeme piece = piece) :
      s.forward.makeToken kind = some (s.takes kind [c]) := by
    rw [forward_eq hc hline]
    exact makeToken_read hstart [c] hkind h
  have htwo {long short : TokenKind} (hlong : ∀ piece, long.lexeme piece = piece)
      (hshort : ∀ piece, short.lexeme piece = piece) :
      s.forward.either long short = some (s.takes (Token.withEqual rest long short).1
        (c :: rest.take (Token.withEqual rest long short).2)) := by
    rw [forward_eq hc hline]
    exact either_eq hstart hlong hshort h
  unfold token
  fun_cases Token.extent c rest
  case case1 tail hword =>
    rw [if_pos hword, Token.take_length_takeWhile, forward_eq hc hline, identifier_eq hstart h]
  case case2 hword hdigit =>
    rw [if_neg hword, if_pos hdigit, forward_eq hc hline, number_eq hstart h]
  case case14 => exact htwo (fun _ => rfl) (fun _ => rfl)
  case case15 => exact htwo (fun _ => rfl) (fun _ => rfl)
  case case16 => exact htwo (fun _ => rfl) (fun _ => rfl)
  case case17 => exact htwo (fun _ => rfl) (fun _ => rfl)
  case case18 =>
    rw [forward_eq hc hline]
    exact string_eq hstart h
  case case19 hword hdigit _ _ _ _ _ _ _ _ _ _ _ _ _ _ _ _ =>
    rw [if_neg hword, if_neg hdigit, toBoundary_eq hline h]
    split <;> first | contradiction | rfl
  all_goals exact hone fun _ => rfl

/-- **One token** is read from bytes as it is from characters. -/
theorem token_eq (hstart : s.start = s.current) (hline : c ≠ '\n') (h : s.Reads before (c :: rest))
    {b : UInt8} (hb : s.peek = some b) :
    s.forward.token (.ofUInt8 b) =
      some (s.takes (Token.extent c rest).1 (c :: rest.take (Token.extent c rest).2)) := by
  rw [h.peek, bytes_cons] at hb
  by_cases hc : IsNarrow c
  · rw [utf8EncodeChar_of_narrow hc] at hb
    obtain rfl : c.toUInt8 = b := Option.some.inj hb
    rw [ofUInt8_toUInt8 hc, token_of_narrow hstart hc hline h]
  · obtain ⟨lead, tail, heq, hlead, -⟩ := utf8EncodeChar_of_wide hc
    rw [heq] at hb
    obtain rfl : lead = b := Option.some.inj hb
    rw [extent_of_wide hc, token_of_wide (not_isNarrow_ofUInt8 (UInt8.le_trans (by decide) hlead)),
      toBoundary_eq hline h]
    rfl

/-- What is left after blanks and comments starts no line. -/
theorem head_skip_ne (inComment : Bool) (line : Nat) (cs : List Char) {c : Char} {more : List Char}
    (h : (Source.skip inComment line cs).rest = c :: more) : c ≠ '\n' := by
  fun_induction Source.skip inComment line cs with
  | case1 => cases h
  | case2 _ _ _ ih => exact ih h
  | case3 _ _ _ _ ih => exact ih h
  | case4 _ _ _ _ _ _ _ ih => exact ih h
  | case5 _ _ _ _ _ _ _ _ ih => exact ih h
  | case6 _ _ d _ hd =>
    obtain ⟨rfl, -⟩ := List.cons.inj h
    exact hd

/-- A scanner has read a text of its source, and a source is what is left of it. -/
structure Left (s : Scanner) (before : List Char) (left : Source) : Prop extends s.Reads before left.rest where
  line : s.line = left.line

section Left

variable {left : Source}

/-- The scanner before a token: it starts here. -/
theorem Left.opens (h : s.Left before left) : ∃ s₁ : Scanner,
    ({ s.skipWhitespace with start := s.skipWhitespace.current } : Scanner) = s₁ ∧ s₁.start = s₁.current ∧
      s₁.line = (Source.skip false left.line left.rest).line ∧
      s₁.Reads (before ++ left.gap) (Source.skip false left.line left.rest).rest := by
  obtain ⟨gap, hrest, hskip, hline⟩ := skipWhitespace_eq h.toReads
  rw [h.line] at hrest hline
  obtain rfl : gap = left.gap := List.append_cancel_right (hrest.symm.trans left.gap_append.symm)
  have hreads := h.toReads
  rw [← left.gap_append] at hreads
  refine ⟨_, rfl, rfl, hline.symm, ?_⟩
  rw [hskip]
  exact ⟨(hreads.read _).source, (hreads.read _).current⟩

/-- At the end there is `eof`, of which there is no text. -/
theorem scanToken_of_end (h : s.Left before left) (hskips : (Source.skip false left.line left.rest).rest = []) :
    ∃ s', s.scanToken = some (left.next.1, s') ∧ s'.Left (before ++ left.rest) left.next.2 ∧
      s'.start = s'.current := by
  have hgap : left.gap = left.rest := by rw [← left.gap_append, hskips, List.append_nil]
  obtain ⟨s₁, heq, hstart, hline, hreads⟩ := h.opens
  rw [hskips, hgap] at hreads
  have heof : ∀ piece, TokenKind.eof.lexeme piece = piece := fun _ => rfl
  have htoken := makeToken_read hstart [] heof hreads
  have hscan : s.scanToken = some (s₁.takes .eof []) := by
    rw [← htoken]
    unfold scanToken
    dsimp only
    rw [heq, advance, hreads.peek]
    rfl
  rw [Source.next_of_end hskips, ← hline]
  exact ⟨s₁, hscan, ⟨hreads, rfl⟩, hstart⟩

/-- **The next token** is the one that is read from characters, and its text is what has been read from `start`
to `current`. -/
theorem scanToken_of_piece (h : s.Left before left) {p : Piece} (hgap : p.gap = left.gap)
    (hskips : (Source.skip false left.line left.rest).rest = p.text ++ left.next.2.rest) (hne : p.text ≠ []) :
    ∃ s', s.scanToken = some (left.next.1, s') ∧ s'.start = width (before ++ p.gap) ∧
      s'.Left (before ++ p.written) left.next.2 := by
  obtain ⟨s₁, heq, hstart, hline, hreads⟩ := h.opens
  obtain ⟨c, cs, hcs⟩ := List.exists_cons_of_ne_nil hne
  obtain ⟨more, hmore⟩ : ∃ more, (Source.skip false left.line left.rest).rest = c :: more :=
    ⟨cs ++ left.next.2.rest, by rw [hskips, hcs]; rfl⟩
  set taken := c :: more.take (Token.extent c more).2 with htaken
  have hsplit : c :: more = taken ++ more.drop (Token.extent c more).2 := by
    rw [htaken, List.cons_append, List.take_append_drop]
  have htext : p.text = taken := by
    have hrest : left.next.2.rest = more.drop (Token.extent c more).2 := by rw [Source.next_of_cons hmore]
    rw [hmore, hrest, hsplit] at hskips
    exact (List.append_cancel_right hskips).symm
  rw [hmore] at hreads
  obtain ⟨b, hpeek, -⟩ := hreads.peek_cons
  have htoken := token_eq hstart (head_skip_ne _ _ _ hmore) hreads hpeek
  have hscan : s.scanToken = some (s₁.takes (Token.extent c more).1 taken) := by
    rw [htaken, ← htoken]
    unfold scanToken
    dsimp only
    rw [heq, advance, hpeek]
    rfl
  have hlines : (s₁.read taken).line = (Source.skip false left.line left.rest).line + taken.count '\n' := by
    rw [← hline]
    rfl
  rw [hsplit] at hreads
  rw [Source.next_of_cons hmore, hgap, Piece.written, htext, hgap, ← List.append_assoc]
  refine ⟨s₁.read taken, hscan.trans ?_, hstart.trans hreads.current, hreads.read _, hlines⟩
  simp only [takes, ← htaken, hlines]

theorem scanned_succ {t : Token} {s' : Scanner} (h : s.scanToken = some (t, s')) (n : Nat) :
    s.scanned (n + 1) = s'.scanned n := by
  rw [scanned, h]
  rfl

end Left

end Scanner

namespace Source.Cut

open Scanner (scanned scanned_succ scanToken_of_end scanToken_of_piece)

variable {s : Scanner} {left : Source} {done tail : List Char} {pieces : List Piece}

/-- **The tokens are read from bytes**, each with the offsets of its text. -/
theorem scanned_piece (hcut : left.Cut done pieces tail) (h : s.Left done left) :
    ∀ before p after, pieces = before ++ p :: after →
      ∃ s', s.scanned before.length = some (p.token, s') ∧
        s'.start = width (done ++ before.flatMap Piece.written ++ p.gap) ∧
        s'.current = width (done ++ before.flatMap Piece.written ++ p.written) := by
  induction hcut generalizing s with
  | ended => exact fun before p after h => absurd h (by simp)
  | @cons left done tail p pieces hgap hskips hstands _ htoken _ ih =>
    obtain ⟨s', hscan, hstart, hleft⟩ := scanToken_of_piece h hgap hskips hstands.nonempty
    intro before q after heq
    cases before with
    | nil =>
      obtain ⟨rfl, rfl⟩ := List.cons.inj heq
      rw [List.flatMap_nil, List.append_nil]
      exact ⟨s', htoken ▸ hscan, hstart, hleft.current⟩
    | cons p' before =>
      obtain ⟨rfl, rfl⟩ := List.cons.inj heq
      rw [List.flatMap_cons, ← List.append_assoc, List.length_cons, scanned_succ hscan]
      exact ih hleft before q after rfl

theorem scanned_of_end (h : s.Left done left) (hskips : (skip false left.line left.rest).rest = [])
    (hnext : left.next = (ending (done ++ left.rest), ⟨[], (ending (done ++ left.rest)).line⟩)) (n : Nat) :
    ∃ s', s.scanned n = some (ending (done ++ left.rest), s') ∧ s'.start = width (done ++ left.rest) ∧
      s'.current = width (done ++ left.rest) := by
  induction n generalizing s done left with
  | zero =>
    obtain ⟨s', hscan, hleft, hstart⟩ := scanToken_of_end h hskips
    rw [hnext] at hscan hleft
    exact ⟨s', hscan, hstart.trans hleft.current, hleft.current⟩
  | succ n ih =>
    obtain ⟨s', hscan, hleft, -⟩ := scanToken_of_end h hskips
    rw [hnext] at hscan hleft
    -- the end of the end is the same end
    have hend := ih hleft rfl (by rw [List.append_nil]; rfl)
    rw [scanned_succ hscan]
    rwa [List.append_nil] at hend

/-- At the end `eof` is read, again and again. -/
theorem scanned_ending (hcut : left.Cut done pieces tail) (h : s.Left done left) (n : Nat) :
    ∃ s', s.scanned (pieces.length + n) = some (ending (done ++ left.rest), s') ∧
      s'.start = width (done ++ left.rest) ∧ s'.current = width (done ++ left.rest) := by
  induction hcut generalizing s with
  | ended _ hskips hnext =>
    rw [List.length_nil, Nat.zero_add]
    exact scanned_of_end h hskips hnext n
  | @cons left done tail p pieces hgap hskips hstands _ htoken _ ih =>
    obtain ⟨s', hscan, -, hleft⟩ := scanToken_of_piece h hgap hskips hstands.nonempty
    rw [List.length_cons, Nat.add_right_comm, scanned_succ hscan, rest_eq_of_skips hgap hskips,
      ← List.append_assoc]
    exact ih hleft

end Source.Cut

/-! ## The partition of a source -/

/-- Where a piece stands in the bytes of a source, after the text `before`: a scanner that has just read it has
its offsets. They are on character boundaries, and between them stands its text. -/
structure Piece.Spans (p : Piece) (source : String) (before : List Char) (s : Scanner) : Prop where
  starts : s.start = width (before ++ p.gap)
  stops : s.current = width (before ++ p.written)
  lt : s.start < s.current
  start_valid : (⟨s.start⟩ : String.Pos.Raw).IsValid source
  current_valid : (⟨s.current⟩ : String.Pos.Raw).IsValid source
  gap : source.toByteArray.extract (width before) s.start = p.gap.utf8Encode
  text : source.toByteArray.extract s.start s.current = p.text.utf8Encode

theorem Piece.spans {p : Piece} {source : String} {before after : List Char} {s : Scanner}
    (h : source.toList = before ++ (p.written ++ after)) (hne : p.text ≠ [])
    (hstart : s.start = width (before ++ p.gap)) (hcurrent : s.current = width (before ++ p.written)) :
    p.Spans source before s := by
  have hgap : source.toList = before ++ (p.gap ++ (p.text ++ after)) := by rw [h, written, List.append_assoc]
  have htext : source.toList = (before ++ p.gap) ++ (p.text ++ after) := by rw [hgap, List.append_assoc]
  have hwritten : before ++ p.written = before ++ p.gap ++ p.text := by rw [written, List.append_assoc]
  have hend : source.toList = (before ++ p.written) ++ after := by rw [h, List.append_assoc]
  have hpos : 0 < width p.text := by
    obtain ⟨c, cs, hcs⟩ := List.exists_cons_of_ne_nil hne
    rw [hcs, width_cons]
    exact Nat.add_pos_left c.utf8Size_pos _
  refine ⟨hstart, hcurrent, ?_, ?_, ?_, ?_, ?_⟩
  · rw [hstart, hcurrent, hwritten]
    exact (Nat.lt_add_of_pos_right hpos).trans_eq width_append.symm
  · rw [hstart]
    exact isCharBoundary_iff.1 (isCharBoundary_width htext)
  · rw [hcurrent]
    exact isCharBoundary_iff.1 (isCharBoundary_width hend)
  · rw [hstart]
    exact extract_width hgap
  · rw [hstart, hcurrent, hwritten]
    exact extract_width htext

/-- **A source is its pieces**, and blanks and comments between them. Reading its bytes one by one, the scanner
reads the tokens of the pieces in their order and then `eof`, again and again, and each piece is what stands
between the offsets `start` and `current` of the scanner. The parser is given the same tokens. -/
theorem source_partition (source : String) : ∃ (pieces : List Piece) (tail : List Char),
    source.toList = pieces.flatMap Piece.written ++ tail ∧ Blank True tail ∧
    (∀ before p after, pieces = before ++ p :: after →
      p.Stands (before.flatMap Piece.written) (after.flatMap Piece.written ++ tail) ∧ p.token.kind ≠ .eof ∧
      ∃ s, Scanner.scanned { source } before.length = some (p.token, s) ∧
        p.Spans source (before.flatMap Piece.written) s) ∧
    (∀ n, ∃ s, Scanner.scanned { source } (pieces.length + n) = some (Source.ending source.toList, s) ∧
      s.start = source.utf8ByteSize ∧ s.current = source.utf8ByteSize) ∧
    (Source.ofString source).tokens = pieces.map Piece.token ++ [Source.ending source.toList] := by
  obtain ⟨pieces, tail, hcut⟩ := Source.exists_cut (Source.ofString source) [] rfl
  have hleft : Scanner.Left { source } [] (Source.ofString source) := ⟨⟨rfl, rfl⟩, rfl⟩
  refine ⟨pieces, tail, hcut.covers, hcut.blank, fun before p after heq => ?_, fun n => ?_, hcut.tokens_eq⟩
  · have hstands := hcut.stands before p after heq
    have hparts : source.toList =
        before.flatMap Piece.written ++ (p.written ++ (after.flatMap Piece.written ++ tail)) := by
      rw [show source.toList = _ from hcut.covers, heq]
      simp
    obtain ⟨s, hscan, hstart, hcurrent⟩ := hcut.scanned_piece hleft before p after heq
    exact ⟨hstands, hcut.kind p (heq ▸ by simp), s, hscan, Piece.spans hparts hstands.nonempty hstart hcurrent⟩
  · rw [utf8ByteSize_eq]
    exact hcut.scanned_ending hleft n

end LoxMachine
