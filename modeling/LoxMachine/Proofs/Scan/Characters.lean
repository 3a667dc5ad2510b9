import LoxMachine.Proofs.Scan.Bytes

/-!
# Characters among bytes

* `bytes cs`: the bytes of a text, and `width cs` how many there are. A character has one byte below `80`, or
  it has a first byte from `C0` on and others that are `10xxxxxx`.
* `Plain test`: a test of bytes that each byte of a character passes if the character does.
* `isCharBoundary_iff`: an offset is a boundary where a character of the text starts, or the text ends.
* `slice?_eq`: between two boundaries the slice is there, and it is the text that they enclose.
-/

namespace LoxMachine

/-! ## The bytes of a text -/

def bytes (cs : List Char) : List UInt8 := cs.flatMap String.utf8EncodeChar

def width (cs : List Char) : Nat := (bytes cs).length

section Bytes

variable {c : Char} {cs ds : List Char}

@[simp] theorem bytes_nil : bytes [] = [] := rfl

@[simp] theorem bytes_cons : bytes (c :: cs) = String.utf8EncodeChar c ++ bytes cs := rfl

@[simp] theorem bytes_append : bytes (cs ++ ds) = bytes cs ++ bytes ds := List.flatMap_append

@[simp] theorem width_nil : width [] = 0 := rfl

@[simp] theorem width_append : width (cs ++ ds) = width cs + width ds := by
  rw [width, bytes_append, List.length_append, width, width]

@[simp] theorem width_cons : width (c :: cs) = c.utf8Size + width cs := by
  rw [width, bytes_cons, List.length_append, String.length_utf8EncodeChar, width]

theorem data_utf8Encode (cs : List Char) : cs.utf8Encode.data.toList = bytes cs := by
  rw [List.utf8Encode, List.data_toByteArray, bytes]

theorem size_utf8Encode (cs : List Char) : cs.utf8Encode.size = width cs := by
  rw [← ByteArray.size_data, ← Array.length_toList, data_utf8Encode, width]

theorem toByteArray_eq (source : String) : source.toByteArray = source.toList.utf8Encode := by
  rw [← String.toByteArray_ofList, String.ofList_toList]

theorem utf8ByteSize_eq (source : String) : source.utf8ByteSize = width source.toList := by
  rw [← String.size_toByteArray, toByteArray_eq, size_utf8Encode]

theorem getElem?_toByteArray (source : String) (i : Nat) :
    source.toByteArray[i]? = (bytes source.toList)[i]? := by
  rw [← data_utf8Encode, Array.getElem?_toList, ← toByteArray_eq]
  rfl

/-- A byte within a character, after its first one. -/
def IsTail (b : UInt8) : Prop := 0x80 ≤ b ∧ b < 0xC0

theorem forall_uint8 {p : UInt8 → Prop} (h : ∀ n < 256, p (UInt8.ofNat n)) (b : UInt8) : p b := by
  simpa using h b.toNat b.toNat_lt

theorem isTail_tail (b : UInt8) : IsTail (b &&& 0x3F ||| 0x80) := by
  exact forall_uint8 (p := fun b => 0x80 ≤ b &&& 0x3F ||| 0x80 ∧ b &&& 0x3F ||| 0x80 < 0xC0)
    (by decide +kernel) b

theorem le_lead (b : UInt8) : 0xC0 ≤ b &&& 0x1F ||| 0xC0 ∧ 0xC0 ≤ b &&& 0x0F ||| 0xE0 ∧
    0xC0 ≤ b &&& 0x07 ||| 0xF0 :=
  forall_uint8 (p := fun b => 0xC0 ≤ b &&& 0x1F ||| 0xC0 ∧ 0xC0 ≤ b &&& 0x0F ||| 0xE0 ∧
    0xC0 ≤ b &&& 0x07 ||| 0xF0) (by decide +kernel) b

/-- A character of one byte. -/
def IsNarrow (c : Char) : Prop := c.val ≤ 0x7F

instance (c : Char) : Decidable (IsNarrow c) := inferInstanceAs (Decidable (c.val ≤ 0x7F))

theorem utf8EncodeChar_of_narrow (h : IsNarrow c) : String.utf8EncodeChar c = [c.toUInt8] :=
  String.utf8EncodeChar_eq_singleton (Char.utf8Size_eq_one_iff.2 h)

/-- **A character of more than one byte** shows where it starts. -/
theorem utf8EncodeChar_of_wide (h : ¬ IsNarrow c) : ∃ lead tail, String.utf8EncodeChar c = lead :: tail ∧
    0xC0 ≤ lead ∧ ∀ b ∈ tail, IsTail b := by
  rcases c.utf8Size_eq with hsize | hsize | hsize | hsize
  · exact absurd (Char.utf8Size_eq_one_iff.1 hsize) h
  · exact ⟨_, _, String.utf8EncodeChar_eq_cons_cons hsize, (le_lead _).1, by simp [isTail_tail]⟩
  · exact ⟨_, _, String.utf8EncodeChar_eq_cons_cons_cons hsize, (le_lead _).2.1, by simp [isTail_tail]⟩
  · exact ⟨_, _, String.utf8EncodeChar_eq_cons_cons_cons_cons hsize, (le_lead _).2.2, by simp [isTail_tail]⟩

/-- A character has a first byte, and others within it. -/
theorem exists_tail (c : Char) :
    ∃ lead tail, String.utf8EncodeChar c = lead :: tail ∧ ∀ b ∈ tail, IsTail b := by
  by_cases hc : IsNarrow c
  · exact ⟨_, [], utf8EncodeChar_of_narrow hc, nofun⟩
  · obtain ⟨lead, tail, heq, -, htail⟩ := utf8EncodeChar_of_wide hc
    exact ⟨lead, tail, heq, htail⟩

/-! ## Tests of bytes -/

/-- A test that tells no two characters of more than one byte apart. -/
def Plain (test : Char → Bool) : Prop := ∀ c d, ¬ IsNarrow c → ¬ IsNarrow d → test c = test d

theorem Plain.of_narrow {test : Char → Bool} (h : ∀ c, test c = true → IsNarrow c) : Plain test := by
  intro c d hc hd
  rw [Bool.eq_false_iff.2 fun htest => hc (h c htest), Bool.eq_false_iff.2 fun htest => hd (h d htest)]

theorem plain_eq (h : IsNarrow c) : Plain (· == c) :=
  .of_narrow fun d hd => by rwa [beq_iff_eq.1 hd]

theorem plain_ne (h : IsNarrow c) : Plain (· != c) := fun d e hd he =>
  congrArg not (plain_eq h d e hd he)

theorem isNarrow_of_isDigit (h : c.isDigit = true) : IsNarrow c := by
  simp only [Char.isDigit, Bool.and_eq_true, decide_eq_true_eq, ge_iff_le] at h
  exact UInt32.le_trans h.2 (by decide)

theorem isNarrow_of_isWordStart (h : isWordStart c = true) : IsNarrow c := by
  have h : (c.isUpper || c.isLower || c == '_') = true := h
  simp only [Bool.or_eq_true, beq_iff_eq] at h
  rcases h with (hupper | hlower) | rfl
  · exact UInt32.le_trans (of_decide_eq_true hupper).2 (by decide)
  · exact UInt32.le_trans (of_decide_eq_true (Bool.and_eq_true_iff.1 hlower).2) (by decide)
  · decide

theorem plain_isDigit : Plain Char.isDigit := .of_narrow fun _ => isNarrow_of_isDigit

theorem isNarrow_of_isBlank (h : isBlank c = true) : IsNarrow c := by
  simp only [isBlank, Bool.or_eq_true, beq_iff_eq] at h
  rcases h with (rfl | rfl) | rfl <;> decide

theorem plain_isWordPart : Plain isWordPart := .of_narrow fun _ h => by
  rw [isWordPart, Bool.or_eq_true] at h
  exact h.elim isNarrow_of_isWordStart isNarrow_of_isDigit

theorem ofUInt8_toUInt8 (h : IsNarrow c) : Char.ofUInt8 c.toUInt8 = c := by
  refine Char.ext (UInt32.toNat_inj.1 ?_)
  have hlt : c.val.toNat < 256 := (UInt32.le_iff_toNat_le.1 h).trans_lt (by decide)
  change c.val.toUInt8.toUInt32.toNat = c.val.toNat
  rw [UInt8.toNat_toUInt32, UInt32.toNat_toUInt8, Nat.mod_eq_of_lt hlt]

theorem not_isNarrow_ofUInt8 {b : UInt8} (h : 0x80 ≤ b) : ¬ IsNarrow (.ofUInt8 b) := by
  intro hnarrow
  have hle : b.toNat ≤ 0x7F := UInt32.le_iff_toNat_le.1 hnarrow
  exact absurd ((UInt8.le_iff_toNat_le.1 h).trans hle) (by decide)

theorem not_isTail_head {b : UInt8} {tail : List UInt8} (h : String.utf8EncodeChar c = b :: tail) :
    ¬ IsTail b := by
  by_cases hc : IsNarrow c
  · rw [utf8EncodeChar_of_narrow hc] at h
    obtain ⟨rfl, -⟩ := List.cons.inj h
    intro htail
    exact not_isNarrow_ofUInt8 htail.1 ((ofUInt8_toUInt8 hc).symm ▸ hc)
  · obtain ⟨lead, tail', heq, hlead, -⟩ := utf8EncodeChar_of_wide hc
    obtain ⟨rfl, -⟩ := List.cons.inj (h.symm.trans heq)
    exact fun hb => UInt8.not_le.2 hb.2 hlead

/-- **Every byte of a character** passes the tests that the character passes. -/
theorem passes_of_mem {test : Char → Bool} (ht : Plain test) {b : UInt8}
    (hb : b ∈ String.utf8EncodeChar c) :
    test (.ofUInt8 b) = test c := by
  by_cases hc : IsNarrow c
  · rw [utf8EncodeChar_of_narrow hc, List.mem_singleton] at hb
    rw [hb, ofUInt8_toUInt8 hc]
  · obtain ⟨lead, tail, heq, hlead, htail⟩ := utf8EncodeChar_of_wide hc
    rw [heq] at hb
    refine ht _ _ (not_isNarrow_ofUInt8 ?_) hc
    rcases List.mem_cons.1 hb with rfl | hb
    · exact UInt8.le_trans (by decide) hlead
    · exact (htail b hb).1

/-- The first byte tells as much about a character as these tests do. -/
theorem exists_head (c : Char) (cs : List Char) :
    ∃ b, (bytes (c :: cs)).head? = some b ∧ ∀ test, Plain test → test (.ofUInt8 b) = test c := by
  obtain ⟨b, tail, heq⟩ := List.exists_cons_of_ne_nil (String.utf8EncodeChar_ne_nil (c := c))
  exact ⟨b, by rw [bytes_cons, heq]; rfl, fun _ ht => passes_of_mem ht (heq ▸ List.mem_cons_self)⟩

end Bytes

/-! ## Boundaries -/

theorem isCharBoundary_width {source : String} {before after : List Char}
    (h : source.toList = before ++ after) : isCharBoundary source (width before) = true := by
  unfold isCharBoundary
  rw [getElem?_toByteArray, h, bytes_append, List.getElem?_append_right (Nat.le_refl (width before)),
    ← width, Nat.sub_self, Bool.or_eq_true]
  right
  cases after with
  | nil => simp [utf8ByteSize_eq, h, width]
  | cons c after =>
    obtain ⟨b, tail, heq⟩ := List.exists_cons_of_ne_nil (String.utf8EncodeChar_ne_nil (c := c))
    have hb := not_isTail_head heq
    rw [bytes_cons, heq]
    simpa [IsTail, UInt8.not_le, UInt8.not_lt, imp_iff_not_or] using hb

/-- Within a character no character starts. -/
theorem not_isCharBoundary_of_tail {source : String} {pre post : List UInt8} {b : UInt8}
    (h : bytes source.toList = pre ++ b :: post) (hne : pre ≠ []) (hb : IsTail b) :
    isCharBoundary source pre.length = false := by
  have hlength : pre.length ≠ 0 := by simpa using hne
  unfold isCharBoundary
  rw [getElem?_toByteArray, h, List.getElem?_append_right le_rfl, Nat.sub_self]
  simpa [IsTail, hlength, UInt8.not_le, UInt8.not_lt] using hb

/-- The bytes between two boundaries. -/
theorem extract_width {source : String} {before text after : List Char}
    (h : source.toList = before ++ (text ++ after)) :
    source.toByteArray.extract (width before) (width (before ++ text)) = text.utf8Encode := by
  have hrest : (text ++ after).utf8Encode.extract 0 (width text) = text.utf8Encode := by
    rw [List.utf8Encode_append, ByteArray.extract_append_eq_left (size_utf8Encode text).symm]
  rw [← hrest, toByteArray_eq, h, List.utf8Encode_append, width_append, ← size_utf8Encode before]
  exact ByteArray.extract_append_size_add (i := 0)

/-- The text between two boundaries. -/
theorem slice?_eq {source : String} {before text after : List Char}
    (h : source.toList = before ++ (text ++ after)) :
    slice? source (width before) (width (before ++ text)) = some (String.ofList text) := by
  have hstop : source.toList = (before ++ text) ++ after := by rw [h, List.append_assoc]
  have hle : width before ≤ width (before ++ text) := width_append ▸ Nat.le_add_right _ _
  have hvalid : text.utf8Encode.IsValidUTF8 := ByteArray.isValidUTF8_utf8Encode
  unfold slice?
  rw [isCharBoundary_width h, isCharBoundary_width hstop, decide_eq_true hle, extract_width h]
  exact dif_pos hvalid

/-- An offset is where a character of the text starts, or within a character. -/
theorem width_or_tail (cs : List Char) {i : Nat} (hi : i ≤ width cs) :
    (∃ before after, cs = before ++ after ∧ i = width before) ∨
      ∃ pre b post, bytes cs = pre ++ b :: post ∧ pre.length = i ∧ pre ≠ [] ∧ IsTail b := by
  induction cs generalizing i with
  | nil => exact .inl ⟨[], [], rfl, Nat.le_zero.1 hi⟩
  | cons c cs ih =>
    rcases Nat.eq_zero_or_pos i with rfl | hpos
    · exact .inl ⟨[], c :: cs, rfl, rfl⟩
    rw [width_cons] at hi
    by_cases hwithin : i < c.utf8Size
    · obtain ⟨lead, tail, heq, htail⟩ := exists_tail c
      have hlength : c.utf8Size = tail.length + 1 := by
        rw [← String.length_utf8EncodeChar, heq, List.length_cons]
      obtain ⟨k, rfl⟩ := Nat.exists_eq_succ_of_ne_zero hpos.ne'
      have hk : k < tail.length := by omega
      have hsplit : tail.take k ++ (tail[k] :: tail.drop (k + 1)) = tail := by
        rw [← List.drop_eq_getElem_cons hk, List.take_append_drop]
      refine .inr ⟨lead :: tail.take k, tail[k], tail.drop (k + 1) ++ bytes cs, ?_, ?_, List.cons_ne_nil _ _,
        htail _ (List.getElem_mem hk)⟩
      · calc bytes (c :: cs)
            = (lead :: (tail.take k ++ (tail[k] :: tail.drop (k + 1)))) ++ bytes cs := by
              rw [hsplit, bytes_cons, heq]
          _ = lead :: tail.take k ++ tail[k] :: (tail.drop (k + 1) ++ bytes cs) := by
            simp only [List.cons_append, List.append_assoc]
      · rw [List.length_cons, List.length_take, Nat.min_eq_left hk.le]
    · rcases ih (i := i - c.utf8Size) (by omega) with
        ⟨before, after, rfl, hwidth⟩ | ⟨pre, b, post, hbytes, hlength, -, hb⟩
      · exact .inl ⟨c :: before, after, rfl, by rw [width_cons, ← hwidth]; omega⟩
      · refine .inr ⟨String.utf8EncodeChar c ++ pre, b, post, ?_, ?_, ?_, hb⟩
        · rw [bytes_cons, hbytes, List.append_assoc]
        · rw [List.length_append, hlength, String.length_utf8EncodeChar]
          omega
        · exact List.append_ne_nil_of_left_ne_nil String.utf8EncodeChar_ne_nil _

/-- **A boundary** is where a character of the text starts, or the text ends. -/
theorem isCharBoundary_iff {source : String} {i : Nat} :
    isCharBoundary source i = true ↔ (⟨i⟩ : String.Pos.Raw).IsValid source := by
  rw [String.Pos.Raw.isValid_iff_exists_append]
  constructor
  · intro h
    have hi : i ≤ width source.toList := by
      by_contra hlt
      have hnone : (bytes source.toList)[i]? = none := List.getElem?_eq_none (Nat.le_of_not_le hlt)
      unfold isCharBoundary at h
      rw [getElem?_toByteArray, hnone, utf8ByteSize_eq, Bool.or_eq_true, beq_iff_eq, beq_iff_eq] at h
      omega
    rcases width_or_tail source.toList hi with
      ⟨before, after, heq, rfl⟩ | ⟨pre, b, post, heq, rfl, hne, hb⟩
    · refine ⟨String.ofList before, String.ofList after, ?_, ?_⟩
      · rw [← String.ofList_append, ← heq, String.ofList_toList]
      · rw [String.Pos.Raw.ext_iff, String.byteIdx_rawEndPos, utf8ByteSize_eq, String.toList_ofList]
    · rw [not_isCharBoundary_of_tail heq hne hb] at h
      cases h
  · rintro ⟨before, after, rfl, heq⟩
    have hi : i = width before.toList := by
      rw [← utf8ByteSize_eq]
      exact congrArg String.Pos.Raw.byteIdx heq
    rw [hi]
    exact isCharBoundary_width (String.toList_append ..)

end LoxMachine
