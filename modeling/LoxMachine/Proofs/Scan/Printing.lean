import LoxMachine.Proofs.Scan.Partition

/-!
# Scanning printed tokens

* `Lexeme` is a token as it is spelled, and `Separator` a text that may stand between two of them: a blank,
  then blanks and comments.
* `joined separator lexemes` are the lexemes in their order, with a separator between any two neighbours.
* `extent_of_spells`: a lexeme before a blank, or at the end of the text, is read as it was written.
* `tokens_joined`: the tokens of joined lexemes are these lexemes, whatever the separators, and then `eof`.
-/

namespace LoxMachine

/-- A token as it is spelled. -/
structure Lexeme where
  kind : TokenKind
  text : List Char
  spells : kind.Spells text

/-- A text between two tokens: a blank first, so that neither the token before it nor a comment in it runs
on, then blanks and comments that end with their line. -/
structure Separator where
  first : Char
  rest : List Char
  blank : first ∈ [' ', '\t', '\r', '\n']
  more : Blank False rest

namespace Separator

def text (s : Separator) : List Char := s.first :: s.rest

theorem blank_text (s : Separator) : Blank False s.text := .blank s.blank s.more

end Separator

/-- The rest of a text of joined lexemes, before the lexeme number `n`. -/
def joinedFrom (separator : Nat → Separator) : (n : Nat) → List Lexeme → List Char
  | _, [] => []
  | n, l :: ls => (separator n).text ++ (l.text ++ joinedFrom separator (n + 1) ls)

/-- The lexemes in their order; `separator n` stands between the lexeme number `n` and the next one. -/
def joined (separator : Nat → Separator) : List Lexeme → List Char
  | [] => []
  | l :: ls => l.text ++ joinedFrom separator 0 ls

/-- What may follow a lexeme: nothing, or a text that starts with a blank. -/
def Apart (after : List Char) : Prop := ∀ c ∈ after.head?, c ∈ [' ', '\t', '\r', '\n']

theorem apart_joinedFrom (separator : Nat → Separator) (n : Nat) (lexemes : List Lexeme) :
    Apart (joinedFrom separator n lexemes) := by
  cases lexemes with
  | nil => exact nofun
  | cons l ls =>
    rintro c ⟨⟩
    exact (separator n).blank

/-! ## A lexeme before a blank -/

namespace Apart

variable {after : List Char}

/-- A test that no blank passes stops at once. -/
theorem stops (h : Apart after) {p : Char → Bool} (hp : [' ', '\t', '\r', '\n'].any p = false) :
    after.takeWhile p = [] ∧ after.dropWhile p = after := by
  cases after with
  | nil => exact ⟨rfl, rfl⟩
  | cons c after =>
    have hc := List.any_eq_false.1 hp c (h c rfl)
    simp [hc]

theorem takeWhile_append (h : Apart after) {p : Char → Bool} (hp : [' ', '\t', '\r', '\n'].any p = false)
    {cs : List Char} (hcs : ∀ c ∈ cs, p c = true) :
    (cs ++ after).takeWhile p = cs ∧ (cs ++ after).dropWhile p = after := by
  rw [List.takeWhile_append_of_pos hcs, List.dropWhile_append_of_pos hcs, (h.stops hp).1, (h.stops hp).2,
    List.append_nil]
  exact ⟨rfl, rfl⟩

theorem head_ne (h : Apart after) {c : Char} (hc : c ∉ [' ', '\t', '\r', '\n']) (more : List Char) :
    after ≠ c :: more := by
  rintro rfl
  exact hc (h c rfl)

end Apart

namespace TokenKind

open Token

variable {kind : TokenKind} {c : Char} {cs after : List Char}

theorem extent_word (hc : isWordStart c = true) (hcs : ∀ d ∈ cs, isWordPart d = true) (h : Apart after) :
    extent c (cs ++ after) = (ofWord (String.ofList (c :: cs)), cs.length) := by
  have htail := (h.takeWhile_append (p := isWordPart) rfl hcs).1
  simp only [extent, hc, if_true, htail]

/-- The operators. One that could be longer is not, before a blank. -/
theorem extent_operator {s : String} (hfixed : kind.fixed? = some s) (hs : s.toList = c :: cs)
    (hc : isWordStart c = false) (h : Apart after) : extent c (cs ++ after) = (kind, cs.length) := by
  have hequal {long short : TokenKind} : withEqual after long short = (short, 0) := by
    unfold withEqual
    split
    · exact absurd rfl (h.head_ne (by decide) _)
    · rfl
  cases kind <;> simp only [fixed?, Option.some.injEq, reduceCtorEq] at hfixed
  all_goals
    subst hfixed
    obtain ⟨rfl, rfl⟩ := List.cons.inj hs
    first
      | rfl
      | exact hequal
      | exact absurd hc (by decide)

theorem numberTail_whole (hcs : ∀ d ∈ cs, d.isDigit = true) (h : Apart after) :
    numberTail (cs ++ after) = cs.length := by
  obtain ⟨htake, hdrop⟩ := h.takeWhile_append (p := Char.isDigit) rfl hcs
  simp only [numberTail, htake, hdrop]
  split
  · exact absurd rfl (h.head_ne (by decide) _)
  · rfl

theorem numberTail_fraction {d : Char} {ds : List Char} (hcs : ∀ d ∈ cs, d.isDigit = true)
    (hd : d.isDigit = true) (hds : ∀ d ∈ ds, d.isDigit = true) (h : Apart after) :
    numberTail (cs ++ '.' :: d :: ds ++ after) = (cs ++ '.' :: d :: ds).length := by
  obtain ⟨htake, hdrop⟩ := takeWhile_stop hcs (show '.'.isDigit = false from rfl) (d :: ds ++ after)
  have hfraction := (h.takeWhile_append (p := Char.isDigit) rfl hds).1
  have htext : cs ++ '.' :: d :: ds ++ after = cs ++ '.' :: (d :: ds ++ after) := by simp
  simp only [htext, numberTail, htake, hdrop]
  rw [List.cons_append]
  simp only [hd, if_true, hfraction, List.length_append, List.length_cons]
  omega

theorem stringTail_closed {inside : List Char} (closed : '"' ∉ inside) (after : List Char) :
    stringTail (inside ++ ['"'] ++ after) = (.string, (inside ++ ['"']).length) := by
  have hinside : ∀ d ∈ inside, (d != '"') = true := fun d hd => by
    rw [bne_iff_ne]
    rintro rfl
    exact closed hd
  obtain ⟨htake, hdrop⟩ := takeWhile_stop hinside (show ('"' != '"') = false from rfl) after
  rw [List.append_assoc]
  change stringTail (inside ++ '"' :: after) = _
  simp only [stringTail, htake, hdrop, List.length_append, List.length_cons, List.length_nil]

/-- **A lexeme is read as it was written**, before a blank and at the end. -/
theorem extent_of_spells (hspells : Spells kind (c :: cs)) (h : Apart after) :
    extent c (cs ++ after) = (kind, cs.length) := by
  have hnumber {n : Nat} (hc : c.isDigit = true) (hn : numberTail (cs ++ after) = n) :
      extent c (cs ++ after) = (.number, n) := by
    have hword : isWordStart c = false := by
      by_contra hword
      rw [isDigit_eq_false_of_isWordStart (by simpa using hword)] at hc
      exact Bool.false_ne_true hc
    simp [extent, hword, hc, hn]
  generalize htext : c :: cs = text at hspells
  cases hspells with
  | fixed hfixed =>
    rw [← htext] at hfixed
    by_cases hc : isWordStart c = true
    · have hcs := (Spells.fixed hfixed).of_word hc
      rw [extent_word hc hcs h, ofWord_of_fixed hfixed String.toList_ofList hc]
    · exact extent_operator hfixed String.toList_ofList (by simpa using hc) h
  | identifier start parts free =>
    obtain ⟨rfl, rfl⟩ := List.cons.inj htext
    rw [extent_word start parts h, ofWord_of_free free]
  | whole _ digits =>
    subst htext
    obtain ⟨hc, hcs⟩ := List.forall_mem_cons.1 digits
    exact hnumber hc (numberTail_whole hcs h)
  | @fraction ds fs nonempty digits nonempty' digits' =>
    obtain ⟨d, ds, rfl⟩ := List.exists_cons_of_ne_nil nonempty
    obtain ⟨f, fs, rfl⟩ := List.exists_cons_of_ne_nil nonempty'
    obtain ⟨rfl, rfl⟩ := List.cons.inj htext
    obtain ⟨hc, hds⟩ := List.forall_mem_cons.1 digits
    obtain ⟨hf, hfs⟩ := List.forall_mem_cons.1 digits'
    exact hnumber hc (numberTail_fraction hds hf hfs h)
  | string closed =>
    obtain ⟨rfl, rfl⟩ := List.cons.inj htext
    exact stringTail_closed closed after

/-- A lexeme starts with no blank, and with no comment. -/
theorem Spells.head_solid (hspells : Spells kind (c :: cs)) (h : Apart after) :
    c ≠ '\n' ∧ isBlank c = false ∧ (c == '/' && (cs ++ after).head? == some '/') = false := by
  have hsolid (p : Char → Bool) (hc : p c = true) (hp : [' ', '\t', '\r', '\n', '/'].any p = false) :
      c ≠ '\n' ∧ isBlank c = false ∧ (c == '/') = false := by
    rw [List.any_eq_false] at hp
    refine ⟨?_, ?_, ?_⟩
    · rintro rfl
      simp [hp] at hc
    · by_contra hblank
      simp only [isBlank, Bool.not_eq_false, Bool.or_eq_true, beq_iff_eq] at hblank
      rcases hblank with (rfl | rfl) | rfl <;> simp [hp] at hc
    · by_contra hslash
      obtain rfl : c = '/' := by simpa using hslash
      simp [hp] at hc
  have hother (hc : c ≠ '\n' ∧ isBlank c = false ∧ (c == '/') = false) :
      c ≠ '\n' ∧ isBlank c = false ∧ (c == '/' && (cs ++ after).head? == some '/') = false :=
    ⟨hc.1, hc.2.1, by rw [hc.2.2, Bool.false_and]⟩
  rcases hspells.cases_head with ⟨hword, -⟩ | ⟨hdigit, -⟩ | ⟨rfl, -⟩ | ⟨hop, hcs⟩
  · exact hother (hsolid isWordStart hword rfl)
  · exact hother (hsolid Char.isDigit hdigit rfl)
  · exact hother (by decide)
  · by_cases hslash : c = '/'
    · subst hslash
      obtain rfl : cs = [] := by simpa using hcs
      refine ⟨by decide, rfl, ?_⟩
      rw [List.nil_append, Bool.and_eq_false_iff]
      refine .inr (by_contra fun hhead => ?_)
      obtain ⟨more, hmore⟩ := List.head?_eq_some_iff.1 (by simpa using hhead : after.head? = some '/')
      exact h.head_ne (by decide) more hmore
    · refine hother (hsolid (fun d => operators.contains d && d != '/') ?_ rfl)
      simpa using ⟨hop, hslash⟩

end TokenKind

/-! ## One token -/

namespace Source

theorem skip_comment {text : List Char} (h : '\n' ∉ text) (line : Nat) (cs : List Char) :
    skip true line (text ++ '\n' :: cs) = skip false (line + 1) cs := by
  induction text with
  | nil => rfl
  | cons c text ih =>
    obtain ⟨hc, htext⟩ := List.ne_and_not_mem_of_not_mem_cons h
    rw [List.cons_append, skip]
    · exact ih htext
    · exact fun heq => hc heq.symm

/-- **Blanks and comments are passed over.** -/
theorem skip_blank {gap : List Char} (h : Blank False gap) (line : Nat) (cs : List Char) :
    skip false line (gap ++ cs) = skip false (line + gap.count '\n') cs := by
  induction h generalizing line with
  | nil => rfl
  | @blank c gap hc _ ih =>
    rw [List.cons_append]
    simp only [List.mem_cons, List.not_mem_nil, or_false] at hc
    rcases hc with rfl | rfl | rfl | rfl
    case inr.inr.inr =>
      rw [skip, ih, List.count_cons_self, Nat.add_assoc, Nat.add_comm 1]
    all_goals
      rw [List.count_cons_of_ne (by decide), ← ih]
      rfl
  | @comment text gap hline _ ih =>
    have hcount : ('/' :: '/' :: (text ++ '\n' :: gap)).count '\n' = 1 + gap.count '\n' := by
      simp [List.count_eq_zero.2 hline, Nat.add_comm]
    have hslash : '\n' ∉ '/' :: text := by simpa using hline
    have hskip := skip_comment hslash line (gap ++ cs)
    rw [hcount, ← Nat.add_assoc, ← ih, ← hskip, List.cons_append, List.cons_append, List.append_assoc]
    rfl
  | lastComment last => exact last.elim

theorem skip_lexeme {gap after : List Char} (hgap : Blank False gap) (l : Lexeme) (h : Apart after) (line : Nat) :
    skip false line (gap ++ (l.text ++ after)) = ⟨l.text ++ after, line + gap.count '\n'⟩ := by
  obtain ⟨kind, text, hspells⟩ := l
  obtain ⟨c, cs, rfl⟩ := List.exists_cons_of_ne_nil hspells.ne_nil
  obtain ⟨hline, hblank, hcomment⟩ := hspells.head_solid h
  rw [skip_blank hgap, List.cons_append, skip]
  · simp only [hblank, hcomment, Bool.false_eq_true, if_false]
  · exact hline

theorem gap_lexeme {gap after : List Char} (hgap : Blank False gap) (l : Lexeme) (h : Apart after) (line : Nat) :
    Source.gap ⟨gap ++ (l.text ++ after), line⟩ = gap := by
  have happend := gap_append ⟨gap ++ (l.text ++ after), line⟩
  rw [skip_lexeme hgap l h] at happend
  exact List.append_cancel_right happend

/-- **One lexeme is taken off**, with the blanks and comments before it. -/
theorem next_lexeme {gap after : List Char} (hgap : Blank False gap) (l : Lexeme) (h : Apart after)
    (line : Nat) :
    next ⟨gap ++ (l.text ++ after), line⟩ =
      (⟨l.kind, String.ofList l.text, line + (gap ++ l.text).count '\n'⟩,
        ⟨after, line + (gap ++ l.text).count '\n'⟩) := by
  have hskip := skip_lexeme hgap l h line
  obtain ⟨kind, text, hspells⟩ := l
  obtain ⟨c, cs, rfl⟩ := List.exists_cons_of_ne_nil hspells.ne_nil
  rw [List.cons_append] at hskip
  simp only [next, List.cons_append, hskip, TokenKind.extent_of_spells hspells h, List.take_left, List.drop_left,
    hspells.lexeme_eq, List.count_append, Nat.add_assoc]

/-! ## All tokens -/

/-- A lexeme after the text `done`, as a piece of the source. -/
def lexemePiece (done gap : List Char) (l : Lexeme) : Piece where
  gap := gap
  text := l.text
  token := ⟨l.kind, String.ofList l.text, 1 + (done ++ gap ++ l.text).count '\n'⟩

theorem stands_lexeme (done : List Char) {gap after : List Char} (hgap : Blank False gap) (l : Lexeme)
    (h : Apart after) : (lexemePiece done gap l).Stands done after := by
  obtain ⟨kind, text, hspells⟩ := l
  obtain ⟨c, cs, rfl⟩ := List.exists_cons_of_ne_nil hspells.ne_nil
  have hends := TokenKind.extent_ends c (cs ++ after)
  rw [TokenKind.extent_of_spells hspells h, List.take_left, List.drop_left] at hends
  exact ⟨hgap, List.cons_ne_nil _ _, hends, (hspells.lexeme_eq _).symm, rfl⟩

/-- A lexeme before a text whose pieces are known. -/
theorem Cut.lexeme {done gap after : List Char} {pieces : List Piece} (hgap : Blank False gap) (l : Lexeme)
    (h : Apart after) (hcut : Cut ⟨after, 1 + (done ++ (lexemePiece done gap l).written).count '\n'⟩
      (done ++ (lexemePiece done gap l).written) pieces []) :
    Cut ⟨gap ++ (l.text ++ after), 1 + done.count '\n'⟩ done (lexemePiece done gap l :: pieces) [] := by
  have hcount : 1 + done.count '\n' + (gap ++ l.text).count '\n' =
      1 + (done ++ (gap ++ l.text)).count '\n' := by
    rw [Nat.add_assoc, ← List.count_append]
  have hnext := next_lexeme hgap l h (1 + done.count '\n')
  rw [hcount] at hnext
  have hstands := stands_lexeme done hgap l h
  have hskip := skip_lexeme hgap l h (1 + done.count '\n')
  refine .cons (gap_lexeme hgap l h _).symm ?_ ?_ hstands.ends.ne_eof ?_ ?_ <;> rw [hnext]
  · rw [hskip]
    rfl
  · exact hstands
  · rw [lexemePiece, List.append_assoc]
  · exact hcut

/-- The pieces of joined lexemes are these lexemes. -/
theorem exists_cut_joinedFrom (separator : Nat → Separator) (n : Nat) (l : Lexeme) (ls : List Lexeme)
    {gap : List Char} (hgap : Blank False gap) (done : List Char) :
    ∃ pieces, Cut ⟨gap ++ (l.text ++ joinedFrom separator n ls), 1 + done.count '\n'⟩ done pieces [] ∧
      pieces.map (fun p => (p.token.kind, p.token.text)) =
        (l :: ls).map fun l => (l.kind, String.ofList l.text) := by
  induction ls generalizing n l gap done with
  | nil =>
    refine ⟨[lexemePiece done gap l], .lexeme hgap l nofun (.ended .nil rfl ?_), rfl⟩
    simp [next, skip, ending, joinedFrom]
  | cons l' ls ih =>
    obtain ⟨pieces, hcut, hmap⟩ :=
      ih (n + 1) l' (separator n).blank_text (done ++ (lexemePiece done gap l).written)
    exact ⟨lexemePiece done gap l :: pieces, .lexeme hgap l (apart_joinedFrom separator n _) hcut,
      congrArg (List.cons _) hmap⟩

end Source

/-- **Scanning undoes printing.** Of lexemes with separators between them the scanner reads the kinds and the
texts, in their order, and then the end of the source. -/
theorem tokens_joined (separator : Nat → Separator) (lexemes : List Lexeme) :
    (Source.ofString (String.ofList (joined separator lexemes))).tokens.map (fun t => (t.kind, t.text)) =
      lexemes.map (fun l => (l.kind, String.ofList l.text)) ++ [(.eof, "")] := by
  rw [Source.ofString, String.toList_ofList]
  cases lexemes with
  | nil => rfl
  | cons l ls =>
    obtain ⟨pieces, hcut, hmap⟩ := Source.exists_cut_joinedFrom separator 0 l ls Blank.nil []
    have htokens : Source.tokens ⟨joined separator (l :: ls), 1⟩ = _ := hcut.tokens_eq
    rw [htokens, List.map_append, List.map_map]
    exact congrArg (· ++ [(.eof, "")]) hmap

end LoxMachine
