import Mathlib.Data.List.TakeWhile
import LoxMachine.Token.Scan

/-!
# How tokens are spelled

* `TokenKind.Spells kind cs`: the text is a token of the kind, wherever it stands.
* `TokenKind.Ends kind cs after`: the text ends where a token of the kind ends that `after` follows. It is a
  token, and nothing longer is one; or it is a piece that is no token.
* `extent_ends`: the scanner ends a token there.
-/

namespace LoxMachine

namespace Token

/-- A text of which as much is taken as passes a test. -/
theorem take_length_takeWhile (p : Char → Bool) (cs : List Char) :
    cs.take (cs.takeWhile p).length = cs.takeWhile p :=
  (List.prefix_iff_eq_take.1 (List.takeWhile_prefix p)).symm

theorem drop_length_takeWhile (p : Char → Bool) (cs : List Char) :
    cs.drop (cs.takeWhile p).length = cs.dropWhile p := by
  have hsplit := List.takeWhile_append_dropWhile (p := p) (l := cs)
  calc cs.drop (cs.takeWhile p).length
      = (cs.takeWhile p ++ cs.dropWhile p).drop (cs.takeWhile p).length := by rw [hsplit]
    _ = cs.dropWhile p := List.drop_left

/-- A number goes on with digits, and with a point and more digits if there is a digit after the point. -/
theorem numberTail_cases (rest : List Char) :
    (∃ d more, rest.dropWhile Char.isDigit = '.' :: d :: more ∧ d.isDigit = true ∧
      rest.take (numberTail rest) =
        rest.takeWhile Char.isDigit ++ '.' :: d :: more.takeWhile Char.isDigit ∧
      rest.drop (numberTail rest) = more.dropWhile Char.isDigit) ∨
    ((∀ d more, rest.dropWhile Char.isDigit = '.' :: d :: more → d.isDigit = false) ∧
      rest.take (numberTail rest) = rest.takeWhile Char.isDigit ∧
      rest.drop (numberTail rest) = rest.dropWhile Char.isDigit) := by
  have hwhole := And.intro (take_length_takeWhile Char.isDigit rest) (drop_length_takeWhile Char.isDigit rest)
  unfold numberTail
  dsimp only
  split
  · rename_i d more hrest
    split
    · rename_i hd
      set whole := rest.takeWhile Char.isDigit
      set part := more.takeWhile Char.isDigit with hpart
      have hparts : (whole ++ ['.', d]) ++ more = rest := by
        have hsplit := List.takeWhile_append_dropWhile (p := Char.isDigit) (l := rest)
        rw [hrest] at hsplit
        simpa using hsplit
      have hlength : whole.length + 2 + part.length = (whole ++ ['.', d]).length + part.length := by simp
      refine .inl ⟨d, more, hrest, hd, ?_, ?_⟩
      · rw [hlength, ← hparts, List.take_length_add_append, hpart, take_length_takeWhile]
        simp
      · rw [hlength, ← hparts, List.drop_length_add_append, hpart, drop_length_takeWhile]
    · rename_i hd
      refine .inr ⟨fun d' more' hrest' => ?_, hwhole⟩
      obtain ⟨rfl, rfl⟩ := List.cons.inj (List.cons.inj (hrest.symm.trans hrest')).2
      simpa using hd
  · rename_i hrest
    exact .inr ⟨fun d more h => absurd h (hrest d more), hwhole⟩

/-- A string goes on to its closing quote, or to the end of the text if there is none. -/
theorem stringTail_cases (rest : List Char) :
    ('"' ∉ rest ∧ stringTail rest = (.error .unterminatedString, rest.length)) ∨
      ∃ inside more, rest = inside ++ '"' :: more ∧ '"' ∉ inside ∧
        stringTail rest = (.string, inside.length + 1) := by
  have hsplit := List.takeWhile_append_dropWhile (p := (· != '"')) (l := rest)
  have hhead := List.head?_dropWhile_not (· != '"') rest
  have hinside : '"' ∉ rest.takeWhile (· != '"') := fun h => by simpa using List.mem_takeWhile_imp h
  unfold stringTail
  cases hdrop : rest.dropWhile (· != '"') with
  | nil =>
    rw [hdrop, List.append_nil] at hsplit
    rw [hsplit] at hinside ⊢
    exact .inl ⟨hinside, rfl⟩
  | cons quote more =>
    rw [hdrop] at hsplit hhead
    obtain rfl : quote = '"' := by simpa using hhead
    exact .inr ⟨_, more, hsplit.symm, hinside, rfl⟩

end Token

namespace TokenKind

open Token (take_length_takeWhile drop_length_takeWhile)

/-- The text of a kind whose tokens all look the same. -/
def fixed? : TokenKind → Option String
  | leftParen => some "("
  | rightParen => some ")"
  | leftBrace => some "\x7b"
  | rightBrace => some "\x7d"
  | comma => some ","
  | dot => some "."
  | minus => some "-"
  | plus => some "+"
  | semicolon => some ";"
  | slash => some "/"
  | star => some "*"
  | bang => some "!"
  | bangEqual => some "!="
  | equal => some "="
  | equalEqual => some "=="
  | greater => some ">"
  | greaterEqual => some ">="
  | less => some "<"
  | lessEqual => some "<="
  | kwAnd => some "and"
  | kwClass => some "class"
  | kwElse => some "else"
  | kwFalse => some "false"
  | kwFor => some "for"
  | kwFun => some "fun"
  | kwIf => some "if"
  | kwNil => some "nil"
  | kwOr => some "or"
  | kwPrint => some "print"
  | kwReturn => some "return"
  | kwSuper => some "super"
  | kwThis => some "this"
  | kwTrue => some "true"
  | kwVar => some "var"
  | kwWhile => some "while"
  | identifier | string | number | error _ | eof => none

/-- The texts of tokens. A word that is a keyword is no identifier, a number has digits on both sides of
its point, and a string has no quote inside. -/
inductive Spells : TokenKind → List Char → Prop
  | fixed {kind : TokenKind} {cs : List Char} (text : kind.fixed? = some (String.ofList cs)) :
    Spells kind cs
  | identifier {c : Char} {cs : List Char} (start : isWordStart c = true)
    (parts : ∀ d ∈ cs, isWordPart d = true)
    (free : ∀ kind, fixed? kind ≠ some (String.ofList (c :: cs))) : Spells .identifier (c :: cs)
  | whole {ds : List Char} (nonempty : ds ≠ []) (digits : ∀ d ∈ ds, d.isDigit = true) : Spells .number ds
  | fraction {ds fs : List Char} (nonempty : ds ≠ []) (digits : ∀ d ∈ ds, d.isDigit = true)
    (nonempty' : fs ≠ []) (digits' : ∀ d ∈ fs, d.isDigit = true) : Spells .number (ds ++ '.' :: fs)
  | string {inside : List Char} (closed : '"' ∉ inside) : Spells .string ('"' :: (inside ++ ['"']))

/-- Where a token ends that `after` follows. A piece that is no token is one character that no token starts
with, or a string that is not closed. -/
def Ends (kind : TokenKind) (cs after : List Char) : Prop :=
  match kind with
  | .error .unexpectedCharacter => ∃ c, cs = [c] ∧ ∀ kind more, ¬ Spells kind (c :: more)
  | .error .unterminatedString => after = [] ∧ ∃ inside, cs = '"' :: inside ∧ '"' ∉ inside
  | kind => Spells kind cs ∧ ∀ more, more ≠ [] → more <+: after → ∀ kind', ¬ Spells kind' (cs ++ more)

/-! ## The first character -/

/-- The characters that are tokens, or that a token of two characters starts with. -/
def operators : List Char :=
  ['(', ')', '{', '}', ',', '.', '-', '+', ';', '/', '*', '!', '=', '<', '>']

theorem isDigit_eq_false_of_isWordStart {c : Char} (h : isWordStart c = true) : c.isDigit = false := by
  rw [Bool.eq_false_iff]
  intro hdigit
  change (decide (c.val ≥ 'A'.val ∧ c.val ≤ 'Z'.val) ||
    decide (c.val ≥ 'a'.val) && decide (c.val ≤ 'z'.val) || c == '_') = true at h
  change (decide (48 ≤ c.val) && decide (c.val ≤ 57)) = true at hdigit
  simp only [Bool.or_eq_true, Bool.and_eq_true, decide_eq_true_eq, beq_iff_eq, ge_iff_le,
    UInt32.le_iff_toNat_le] at h hdigit
  rcases h with (⟨hle, -⟩ | ⟨hle, -⟩) | rfl
  · exact absurd (hle.trans hdigit.2) (by decide)
  · exact absurd (hle.trans hdigit.2) (by decide)
  · exact absurd hdigit.2 (by decide)

theorem operators_other : ∀ c ∈ operators, isWordStart c = false ∧ c.isDigit = false ∧ c ≠ '"' := by
  have hall : operators.all (fun c => !isWordStart c && (!c.isDigit && c != '"')) = true := by decide
  simpa only [List.all_eq_true, Bool.and_eq_true, Bool.not_eq_true', bne_iff_ne] using hall

section FirstCharacter

variable {kind : TokenKind} {c : Char} {cs : List Char}

/-- Whether a text is a word, or an operator. An operator has one character, or a second one that is `=`. -/
def isFixed : List Char → Bool
  | [] => false
  | c :: cs => isWordStart c && cs.all isWordPart ||
      operators.contains c && (cs.isEmpty || cs == ['='] && ['!', '=', '<', '>'].contains c)

theorem isFixed_of_fixed {s : String} (h : kind.fixed? = some s) : isFixed s.toList = true := by
  cases kind <;> simp only [fixed?, Option.some.injEq, reduceCtorEq] at h
  all_goals
    subst h
    decide +kernel

/-- A fixed text is a word or an operator. -/
theorem fixed_cases {s : String} (h : kind.fixed? = some s) (hs : s.toList = c :: cs) :
    (isWordStart c = true ∧ ∀ d ∈ cs, isWordPart d = true) ∨
      c ∈ operators ∧ (cs = [] ∨ cs = ['='] ∧ c ∈ ['!', '=', '<', '>']) := by
  have hfixed := isFixed_of_fixed h
  rw [hs] at hfixed
  simpa only [isFixed, Bool.or_eq_true, Bool.and_eq_true, List.all_eq_true, List.contains_iff_mem,
    List.isEmpty_iff, beq_iff_eq] using hfixed

/-- The first character tells what the rest of a token looks like. -/
theorem Spells.cases_head (h : Spells kind (c :: cs)) :
    (isWordStart c = true ∧ ∀ d ∈ cs, isWordPart d = true) ∨
    (c.isDigit = true ∧ ((∀ d ∈ cs, d.isDigit = true) ∨ ∃ ds f fs, cs = ds ++ '.' :: f :: fs ∧
      (∀ d ∈ ds, d.isDigit = true) ∧ ∀ d ∈ f :: fs, d.isDigit = true)) ∨
    (c = '"' ∧ ∃ inside, cs = inside ++ ['"'] ∧ '"' ∉ inside) ∨
    c ∈ operators ∧ (cs = [] ∨ cs = ['='] ∧ c ∈ ['!', '=', '<', '>']) := by
  generalize htext : c :: cs = text at h
  cases h with
  | fixed hfixed =>
    rcases fixed_cases hfixed (by rw [String.toList_ofList, ← htext]) with hword | hop
    · exact .inl hword
    · exact .inr (.inr (.inr hop))
  | identifier start parts =>
    obtain ⟨rfl, rfl⟩ := List.cons.inj htext
    exact .inl ⟨start, parts⟩
  | whole _ digits =>
    subst htext
    exact .inr (.inl ⟨digits c List.mem_cons_self, .inl fun d hd => digits d (List.mem_cons_of_mem c hd)⟩)
  | @fraction ds fs nonempty digits nonempty' digits' =>
    obtain ⟨d, ds, rfl⟩ := List.exists_cons_of_ne_nil nonempty
    obtain ⟨f, fs, rfl⟩ := List.exists_cons_of_ne_nil nonempty'
    obtain ⟨rfl, rfl⟩ := List.cons.inj htext
    obtain ⟨hc, hds⟩ := List.forall_mem_cons.1 digits
    exact .inr (.inl ⟨hc, .inr ⟨ds, f, fs, rfl, hds, digits'⟩⟩)
  | string closed =>
    obtain ⟨rfl, rfl⟩ := List.cons.inj htext
    exact .inr (.inr (.inl ⟨rfl, _, rfl, closed⟩))

theorem Spells.ne_nil {text : List Char} (h : Spells kind text) : text ≠ [] := by
  cases h with
  | fixed hfixed =>
    rintro rfl
    cases kind <;> simp [fixed?, ← String.toList_inj] at hfixed
  | identifier => exact nofun
  | whole nonempty => exact nonempty
  | fraction => simp
  | string => exact nofun

/-- A token has its own text. -/
theorem Spells.lexeme_eq {text : List Char} (h : Spells kind text) (piece : String) :
    kind.lexeme piece = piece := by
  cases h with
  | fixed hfixed => cases kind <;> first | rfl | cases hfixed
  | _ => rfl

/-! ## Words, numbers, strings and operators -/

theorem Spells.of_word (h : Spells kind (c :: cs)) (hc : isWordStart c = true) :
    ∀ d ∈ cs, isWordPart d = true := by
  rcases h.cases_head with ⟨-, hcs⟩ | ⟨hdigit, -⟩ | ⟨rfl, -⟩ | ⟨hop, -⟩
  · exact hcs
  · rw [isDigit_eq_false_of_isWordStart hc] at hdigit
    exact absurd hdigit Bool.false_ne_true
  · exact absurd hc (by decide)
  · rw [(operators_other c hop).1] at hc
    exact absurd hc Bool.false_ne_true

theorem Spells.of_digit (h : Spells kind (c :: cs)) (hc : c.isDigit = true) :
    (∀ d ∈ cs, d.isDigit = true) ∨ ∃ ds f fs, cs = ds ++ '.' :: f :: fs ∧ (∀ d ∈ ds, d.isDigit = true) ∧
      ∀ d ∈ f :: fs, d.isDigit = true := by
  rcases h.cases_head with ⟨hword, -⟩ | ⟨-, hcs⟩ | ⟨rfl, -⟩ | ⟨hop, -⟩
  · rw [isDigit_eq_false_of_isWordStart hword] at hc
    exact absurd hc Bool.false_ne_true
  · exact hcs
  · exact absurd hc (by decide)
  · rw [(operators_other c hop).2.1] at hc
    exact absurd hc Bool.false_ne_true

theorem Spells.of_quote (h : Spells kind ('"' :: cs)) : ∃ inside, cs = inside ++ ['"'] ∧ '"' ∉ inside := by
  rcases h.cases_head with ⟨hword, -⟩ | ⟨hdigit, -⟩ | ⟨-, hcs⟩ | ⟨hop, -⟩
  · exact absurd hword (by decide)
  · exact absurd hdigit (by decide)
  · exact hcs
  · exact absurd hop (by decide)

theorem Spells.of_other (h : Spells kind (c :: cs)) (hword : isWordStart c = false)
    (hdigit : c.isDigit = false) (hquote : c ≠ '"') :
    c ∈ operators ∧ (cs = [] ∨ cs = ['='] ∧ c ∈ ['!', '=', '<', '>']) := by
  rcases h.cases_head with ⟨hword', -⟩ | ⟨hdigit', -⟩ | ⟨hquote', -⟩ | hop
  · simp [hword] at hword'
  · simp [hdigit] at hdigit'
  · exact absurd hquote' hquote
  · exact hop

/-- A word is of the kind that has it for its text. -/
theorem ofWord_of_fixed {s : String} (h : kind.fixed? = some s) (hs : s.toList = c :: cs)
    (hc : isWordStart c = true) : ofWord s = kind := by
  cases kind <;> simp only [fixed?, Option.some.injEq, reduceCtorEq] at h
  all_goals
    subst h
    first
      | rfl
      | obtain ⟨rfl, -⟩ := List.cons.inj hs
        exact absurd hc (by decide)

/-- A word that is not the text of any kind is an identifier. -/
theorem ofWord_of_free {s : String} (h : ∀ kind, fixed? kind ≠ some s) : ofWord s = .identifier := by
  unfold ofWord
  split
  · exact absurd rfl (h .kwAnd)
  · exact absurd rfl (h .kwClass)
  · exact absurd rfl (h .kwElse)
  · exact absurd rfl (h .kwFalse)
  · exact absurd rfl (h .kwFor)
  · exact absurd rfl (h .kwFun)
  · exact absurd rfl (h .kwIf)
  · exact absurd rfl (h .kwNil)
  · exact absurd rfl (h .kwOr)
  · exact absurd rfl (h .kwPrint)
  · exact absurd rfl (h .kwReturn)
  · exact absurd rfl (h .kwSuper)
  · exact absurd rfl (h .kwThis)
  · exact absurd rfl (h .kwTrue)
  · exact absurd rfl (h .kwVar)
  · exact absurd rfl (h .kwWhile)
  · rfl

/-- A word is a keyword or an identifier. -/
theorem spells_ofWord (hc : isWordStart c = true) (hcs : ∀ d ∈ cs, isWordPart d = true) :
    Spells (ofWord (String.ofList (c :: cs))) (c :: cs) := by
  by_cases hfixed : ∃ kind, fixed? kind = some (String.ofList (c :: cs))
  · obtain ⟨kind, hkind⟩ := hfixed
    rw [ofWord_of_fixed hkind String.toList_ofList hc]
    exact .fixed hkind
  · have hfree : ∀ kind, fixed? kind ≠ some (String.ofList (c :: cs)) := fun kind h => hfixed ⟨kind, h⟩
    rw [ofWord_of_free hfree]
    exact .identifier hc hcs hfree

end FirstCharacter

/-! ## Where tokens end -/

section Ends

variable {kind : TokenKind} {c : Char} {cs rest : List Char}

/-- A token that does not go on with what follows. -/
theorem Spells.ends {after : List Char} (h : Spells kind cs)
    (longest : ∀ d more, d :: more <+: after → ∀ kind', ¬ Spells kind' (cs ++ d :: more)) :
    Ends kind cs after := by
  have hlongest : ∀ more, more ≠ [] → more <+: after → ∀ kind', ¬ Spells kind' (cs ++ more) := by
    intro more hne hprefix
    obtain ⟨d, more, rfl⟩ := List.exists_cons_of_ne_nil hne
    exact longest d more hprefix
  unfold Ends
  split
  · cases h with
    | fixed text => simp [fixed?] at text
  · cases h with
    | fixed text => simp [fixed?] at text
  · exact ⟨h, hlongest⟩

theorem Ends.ne_eof {after : List Char} (h : Ends kind cs after) : kind ≠ .eof := by
  rintro rfl
  cases h.1 with
  | fixed text => simp [fixed?] at text

/-- What a text of characters that pass a test, and of another one, begins with. -/
theorem takeWhile_stop {p : Char → Bool} {ds : List Char} {e : Char} (hds : ∀ d ∈ ds, p d = true)
    (he : p e = false) (more : List Char) : (ds ++ e :: more).takeWhile p = ds ∧ (ds ++ e :: more).dropWhile p = e :: more := by
  rw [List.takeWhile_append_of_pos hds, List.dropWhile_append_of_pos hds]
  simp [he]

/-- What follows the characters that pass a test starts with another one. -/
theorem head_dropWhile {p : Char → Bool} {d : Char} {more : List Char} (h : d :: more <+: rest.dropWhile p) :
    p d = false := by
  obtain ⟨later, hlater⟩ := h
  have hhead := List.head?_dropWhile_not p rest
  rw [← hlater] at hhead
  simpa using hhead

/-- **A word** ends before a character that cannot go on with it. -/
theorem word_ends (hc : isWordStart c = true) (rest : List Char) :
    Ends (ofWord (String.ofList (c :: rest.takeWhile isWordPart))) (c :: rest.takeWhile isWordPart)
      (rest.dropWhile isWordPart) := by
  refine (spells_ofWord hc fun d hd => List.mem_takeWhile_imp hd).ends fun d more hmore kind' h => ?_
  have hword := h.of_word hc d (by simp)
  rw [head_dropWhile hmore] at hword
  exact absurd hword Bool.false_ne_true

/-- A number goes on after its point up to a character that is no digit. -/
theorem fraction_ends (hc : c.isDigit = true) {d : Char} (more : List Char) (hd : d.isDigit = true) :
    Ends .number (c :: (rest.takeWhile Char.isDigit ++ '.' :: d :: more.takeWhile Char.isDigit))
      (more.dropWhile Char.isDigit) := by
  have hwhole : ∀ e ∈ rest.takeWhile Char.isDigit, e.isDigit = true := fun e he => List.mem_takeWhile_imp he
  have hpart : ∀ e ∈ d :: more.takeWhile Char.isDigit, e.isDigit = true :=
    List.forall_mem_cons.2 ⟨hd, fun e he => List.mem_takeWhile_imp he⟩
  have hspells : Spells .number
      ((c :: rest.takeWhile Char.isDigit) ++ '.' :: d :: more.takeWhile Char.isDigit) :=
    .fraction (List.cons_ne_nil _ _) (List.forall_mem_cons.2 ⟨hc, hwhole⟩) (List.cons_ne_nil _ _) hpart
  refine hspells.ends fun e later hlater kind' h => ?_
  have hstop := head_dropWhile hlater
  rw [List.cons_append, List.cons_append, List.append_assoc] at h
  rcases h.of_digit hc with hall | ⟨ds, f, fs, heq, hds, hfs⟩
  · exact absurd (hall '.' (by simp)) (by decide)
  · have hpoint : '.'.isDigit = false := rfl
    have hsplit := (takeWhile_stop hwhole hpoint (d :: more.takeWhile Char.isDigit ++ e :: later)).2
    rw [← List.cons_append, heq, (takeWhile_stop hds rfl _).2] at hsplit
    have hmem : e ∈ f :: fs := by
      rw [(List.cons.inj hsplit).2]
      simp
    rw [hfs e hmem] at hstop
    exact absurd hstop.symm Bool.false_ne_true

/-- A number without a point ends before a character that is no digit, and no point with digits after it. -/
theorem whole_ends (hc : c.isDigit = true)
    (hrest : ∀ d more, rest.dropWhile Char.isDigit = '.' :: d :: more → d.isDigit = false) :
    Ends .number (c :: rest.takeWhile Char.isDigit) (rest.dropWhile Char.isDigit) := by
  have hwhole : ∀ e ∈ rest.takeWhile Char.isDigit, e.isDigit = true := fun e he => List.mem_takeWhile_imp he
  have hspells : Spells .number (c :: rest.takeWhile Char.isDigit) :=
    .whole (List.cons_ne_nil _ _) (List.forall_mem_cons.2 ⟨hc, hwhole⟩)
  refine hspells.ends fun e more hmore kind' h => ?_
  have hstop := head_dropWhile hmore
  rw [List.cons_append] at h
  rcases h.of_digit hc with hall | ⟨ds, f, fs, heq, hds, hfs⟩
  · rw [hall e (by simp)] at hstop
    exact absurd hstop.symm Bool.false_ne_true
  · have hsplit := (takeWhile_stop hwhole hstop more).2
    rw [heq, (takeWhile_stop hds rfl _).2] at hsplit
    obtain ⟨rfl, rfl⟩ := List.cons.inj hsplit
    obtain ⟨later, hlater⟩ := hmore
    have hf := hrest f (fs ++ later) hlater.symm
    rw [hfs f List.mem_cons_self] at hf
    exact absurd hf.symm Bool.false_ne_true

/-- **A number** has digits, and a point only between digits. -/
theorem number_ends (hc : c.isDigit = true) (rest : List Char) :
    Ends .number (c :: rest.take (Token.numberTail rest)) (rest.drop (Token.numberTail rest)) := by
  rcases Token.numberTail_cases rest with ⟨d, more, -, hd, htake, hdrop⟩ | ⟨hpoint, htake, hdrop⟩
  · rw [htake, hdrop]
    exact fraction_ends hc more hd
  · rw [htake, hdrop]
    exact whole_ends hc hpoint

/-- **A string** goes on to its closing quote, or to the end of the text. -/
theorem string_ends (rest : List Char) : Ends (Token.stringTail rest).1
    ('"' :: rest.take (Token.stringTail rest).2) (rest.drop (Token.stringTail rest).2) := by
  rcases Token.stringTail_cases rest with ⟨hinside, heq⟩ | ⟨inside, more, rfl, hinside, heq⟩
  · rw [heq]
    dsimp only
    rw [List.take_length, List.drop_length]
    exact ⟨rfl, _, rfl, hinside⟩
  · have hlength : inside.length + 1 = (inside ++ ['"']).length := by simp
    rw [heq]
    dsimp only
    rw [hlength, List.append_cons inside '"' more, List.take_left, List.drop_left]
    refine (Spells.string hinside).ends fun d later _ kind' h => ?_
    rw [List.cons_append] at h
    obtain ⟨inside', heq, hinside'⟩ := h.of_quote
    have hlast := congrArg List.dropLast heq
    rw [List.dropLast_append_of_ne_nil (List.cons_ne_nil _ _), List.dropLast_concat] at hlast
    exact hinside' (hlast ▸ by simp)

/-- An operator of one character. -/
theorem operator_ends (hfixed : kind.fixed? = some (String.ofList [c])) (hc : c ∈ operators)
    (hequal : c ∈ ['!', '=', '<', '>'] → rest.head? ≠ some '=') : Ends kind [c] rest := by
  obtain ⟨hword, hdigit, hquote⟩ := operators_other c hc
  refine (Spells.fixed hfixed).ends fun d more hmore kind' h => ?_
  rcases (h.of_other hword hdigit hquote).2 with hnil | ⟨hcons, hc⟩
  · cases hnil
  · obtain ⟨later, hlater⟩ := hmore
    obtain ⟨rfl, rfl⟩ := List.cons.inj hcons
    exact hequal hc (by rw [← hlater]; rfl)

/-- An operator whose second character is `=`. -/
theorem equal_ends (hfixed : kind.fixed? = some (String.ofList [c, '='])) (hc : c ∈ operators) :
    Ends kind [c, '='] rest := by
  obtain ⟨hword, hdigit, hquote⟩ := operators_other c hc
  refine (Spells.fixed hfixed).ends fun d more _ kind' h => ?_
  rcases (h.of_other hword hdigit hquote).2 with hnil | ⟨hcons, -⟩
  · cases hnil
  · cases (List.cons.inj hcons).2

theorem withEqual_ends {long short : TokenKind} (hlong : long.fixed? = some (String.ofList [c, '=']))
    (hshort : short.fixed? = some (String.ofList [c])) (hc : c ∈ operators) (rest : List Char) :
    Ends (Token.withEqual rest long short).1 (c :: rest.take (Token.withEqual rest long short).2)
      (rest.drop (Token.withEqual rest long short).2) := by
  unfold Token.withEqual
  split
  · exact equal_ends hlong hc
  · rename_i hnot
    refine operator_ends hshort hc fun _ hhead => ?_
    obtain ⟨more, rfl⟩ := List.head?_eq_some_iff.1 hhead
    exact hnot more rfl

/-- **A token ends where the scanner ends it.** -/
theorem extent_ends (c : Char) (rest : List Char) : Ends (Token.extent c rest).1
    (c :: rest.take (Token.extent c rest).2) (rest.drop (Token.extent c rest).2) := by
  unfold Token.extent
  split
  · rename_i hword
    dsimp only
    rw [take_length_takeWhile, drop_length_takeWhile]
    exact word_ends hword rest
  · rename_i hword
    split
    · rename_i hdigit
      exact number_ends hdigit rest
    · rename_i hdigit
      split
      case h_12 => exact withEqual_ends rfl rfl (by decide) rest
      case h_13 => exact withEqual_ends rfl rfl (by decide) rest
      case h_14 => exact withEqual_ends rfl rfl (by decide) rest
      case h_15 => exact withEqual_ends rfl rfl (by decide) rest
      case h_16 => exact string_ends rest
      case h_17 =>
        refine ⟨_, rfl, fun kind more h => ?_⟩
        have hoperator := (h.of_other (by simpa using hword) (by simpa using hdigit) (by assumption)).1
        simp only [operators, List.mem_cons, List.not_mem_nil, or_false] at hoperator
        rcases hoperator with h | h | h | h | h | h | h | h | h | h | h | h | h | h | h <;> contradiction
      all_goals exact operator_ends rfl (by decide) fun h => absurd h (by decide)

end Ends

end TokenKind

end LoxMachine
