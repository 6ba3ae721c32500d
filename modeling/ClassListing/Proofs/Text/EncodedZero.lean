import ClassListing.Proofs.Text.CodeUnits

/-!
# Plain UTF-8 beside an encoded zero

Well-formed UTF-8 is read as such. A single encoded zero makes all the bytes around it be read unit
by unit. Characters of one unit come out the same by both rules. A character of four bytes does
not: no unit starts with any of its bytes, and each of them is replaced.
-/

namespace ClassListing.Text

def utf8 (text : String) : Bytes := text.toUTF8.data.toList

/-- What a character of plain UTF-8 gives where it is read unit by unit. -/
def readByUnits (char : Char) : List Char :=
  if char.toNat < 0x10000 then [char] else List.replicate 4 replacement

theorem utf8_eq (text : String) : utf8 text = text.toList.flatMap String.utf8EncodeChar := by
  rw [utf8, String.toUTF8_eq_toByteArray, ← String.utf8Encode_toList, List.utf8Encode,
    List.data_toByteArray]

theorem decodeModifiedUtf8_utf8 (text : String) : decodeModifiedUtf8 (utf8 text) = text := by
  rw [decodeModifiedUtf8, utf8_eq, fromUTF8?_flatMap, String.ofList_toList]

/-! ## The encoded zero is not UTF-8 -/

theorem encodeUnit_zero : encodeUnit 0 = [0xC0, 0x80] := by decide

/-- No character starts with this byte: two bytes are for numbers of more than seven bits. -/
theorem utf8EncodeChar_lead_ne (char : Char) :
    ∃ lead tail, String.utf8EncodeChar char = lead :: tail ∧ lead ≠ 0xC0 := by
  fun_cases String.utf8EncodeChar char
  all_goals
    refine ⟨_, _, rfl, ?_⟩
    intro h
    have hvalue := congrArg UInt8.toNat h
    rw [UInt8.toNat_ofNat'] at hvalue
    change _ = 0xC0 at hvalue
    omega

theorem fromUTF8?_encodedZero (chars : List Char) (rest : Bytes) :
    String.fromUTF8? ⟨(chars.flatMap String.utf8EncodeChar ++ ([0xC0, 0x80] ++ rest)).toArray⟩ =
      none := by
  apply Classical.byContradiction
  intro h
  obtain ⟨others, hothers⟩ := exists_of_fromUTF8? h
  have hfront : chars <+: others := by
    apply List.isPrefix_of_utf8Encode_append_eq_utf8Encode ([0xC0, 0x80] ++ rest).toByteArray
    rw [List.utf8Encode, List.utf8Encode, ← List.toByteArray_append, hothers]
  obtain ⟨more, rfl⟩ := hfront
  rw [List.flatMap_append, List.append_cancel_left_eq] at hothers
  cases more with
  | nil => cases hothers
  | cons char more =>
      obtain ⟨lead, tail, hchar, hlead⟩ := utf8EncodeChar_lead_ne char
      rw [List.flatMap_cons, hchar] at hothers
      exact hlead (List.cons.inj hothers).1.symm

/-! ## Reading unit by unit -/

theorem firstUnit_other {lead : UInt8} (rest : Bytes) (hl : 0x80 ≤ lead.toNat)
    (ho : lead.toNat < 0xC0 ∨ 0xF0 ≤ lead.toNat) : firstUnit lead rest = (0xFFFD, rest) := by
  have hone : ¬lead < 0x80 := by
    intro h
    have hlead : lead.toNat < 0x80 := UInt8.lt_iff_toNat_lt.mp h
    omega
  have htwo : (0xC0 ≤ lead && lead < 0xE0) = false := by
    rw [← Bool.not_eq_true, between_iff]
    change ¬(0xC0 ≤ lead.toNat ∧ lead.toNat < 0xE0)
    omega
  have hthree : (0xE0 ≤ lead && lead < 0xF0) = false := by
    rw [← Bool.not_eq_true, between_iff]
    change ¬(0xE0 ≤ lead.toNat ∧ lead.toNat < 0xF0)
    omega
  simp only [firstUnit, hone, htwo, hthree, if_false, Bool.false_eq_true]

theorem units_other {value : Nat} (rest : Bytes) (hl : 0x80 ≤ value) (hlt : value < 0x100)
    (ho : value < 0xC0 ∨ 0xF0 ≤ value) : units (.ofNat value :: rest) = 0xFFFD :: units rest := by
  have hvalue : (UInt8.ofNat value).toNat = value := UInt8.toNat_ofNat_of_lt' hlt
  rw [units, firstUnit_other rest (by omega) (by omega)]

theorem readByUnits_of_lt {char : Char} (h : char.toNat < 0x10000) : readByUnits char = [char] :=
  if_pos h

theorem charUnits_of_lt {char : Char} (h : char.toNat < 0x10000) :
    charUnits char = [.ofNat char.toNat] :=
  if_pos h

theorem units_utf8EncodeChar_append (char : Char) (rest : Bytes) :
    units (String.utf8EncodeChar char ++ rest) =
      (readByUnits char).flatMap charUnits ++ units rest := by
  have hvalue : char.val.toNat = char.toNat := rfl
  by_cases hbasic : char.toNat < 0x10000
  · rw [readByUnits_of_lt hbasic, List.flatMap_singleton, charUnits_of_lt hbasic,
      List.singleton_append]
    by_cases hzero : char.toNat = 0
    · -- Plain UTF-8 writes a zero in one byte, so that no written unit stands here.
      rw [String.utf8EncodeChar]
      simp only [hvalue, hzero]
      rw [if_pos (by omega), List.singleton_append, units, firstUnit_one rest (by decide)]
      rfl
    · rw [utf8EncodeChar_eq (by omega) hbasic, units_encodeUnit_append]
  · -- The first byte is beyond those of three, and the others only continue a sequence.
    have hunits : (List.replicate 4 replacement).flatMap charUnits =
        [0xFFFD, 0xFFFD, 0xFFFD, 0xFFFD] := by decide
    rw [readByUnits, if_neg hbasic, hunits, String.utf8EncodeChar]
    simp only [hvalue]
    rw [if_neg (by omega), if_neg (by omega), if_neg (by omega)]
    simp only [List.cons_append, List.nil_append]
    simp (disch := omega) only [units_other]

theorem units_flatMap_append (chars : List Char) (rest : Bytes) :
    units (chars.flatMap String.utf8EncodeChar ++ rest) =
      (chars.flatMap readByUnits).flatMap charUnits ++ units rest := by
  induction chars with
  | nil => rfl
  | cons char chars ih =>
      rw [List.flatMap_cons, List.append_assoc, units_utf8EncodeChar_append, ih, List.flatMap_cons,
        List.flatMap_append, List.append_assoc]

theorem units_around_zero (front back : List Char) :
    units (front.flatMap String.utf8EncodeChar ++
        ([0xC0, 0x80] ++ back.flatMap String.utf8EncodeChar)) =
      (front.flatMap readByUnits ++ '\x00' :: back.flatMap readByUnits).flatMap charUnits := by
  have hback := units_flatMap_append back []
  rw [List.append_nil, units, List.append_nil] at hback
  rw [units_flatMap_append, ← encodeUnit_zero, units_encodeUnit_append, hback, List.flatMap_append,
    List.flatMap_cons]
  rfl

theorem decodeModifiedUtf8_around_zero (front back : String) :
    decodeModifiedUtf8 (utf8 front ++ [0xC0, 0x80] ++ utf8 back) =
      String.ofList (front.toList.flatMap readByUnits ++
        '\x00' :: back.toList.flatMap readByUnits) := by
  rw [utf8_eq, utf8_eq, List.append_assoc, decodeModifiedUtf8, fromUTF8?_encodedZero,
    units_around_zero]
  exact congrArg String.ofList (utf16_charUnits _).eq_ofUnits.symm

/-! ## The characters that are kept -/

/-- Each character beyond those of one unit leaves three more than itself. -/
theorem length_flatMap_readByUnits (chars : List Char) :
    (chars.flatMap readByUnits).length =
      chars.length + 3 * chars.countP fun char => 0x10000 ≤ char.toNat := by
  induction chars with
  | nil => rfl
  | cons char chars ih =>
      rw [List.flatMap_cons, List.length_append, ih, List.length_cons]
      by_cases h : char.toNat < 0x10000
      · rw [readByUnits_of_lt h, List.length_singleton, List.countP_cons_of_neg (by simpa using h)]
        omega
      · rw [readByUnits, if_neg h, List.length_replicate,
          List.countP_cons_of_pos (by simpa using h)]
        omega

theorem flatMap_readByUnits_of_lt {chars : List Char} (h : ∀ char ∈ chars, char.toNat < 0x10000) :
    chars.flatMap readByUnits = chars := by
  induction chars with
  | nil => rfl
  | cons char chars ih =>
      obtain ⟨hchar, hchars⟩ := List.forall_mem_cons.mp h
      rw [List.flatMap_cons, readByUnits_of_lt hchar, ih hchars, List.singleton_append]

/-- A text is read unit by unit as it is if it has characters of one unit only. -/
theorem around_zero_kept_iff {front back : List Char} :
    front.flatMap readByUnits ++ '\x00' :: back.flatMap readByUnits = front ++ '\x00' :: back ↔
      ∀ char ∈ front ++ back, char.toNat < 0x10000 := by
  constructor
  · intro h
    have hlength := congrArg List.length h
    simp only [List.length_append, List.length_cons, length_flatMap_readByUnits] at hlength
    have hnone : (front ++ back).countP (fun char => 0x10000 ≤ char.toNat) = 0 := by
      rw [List.countP_append]
      omega
    intro char hchar
    simpa using List.countP_eq_zero.mp hnone char hchar
  · intro h
    obtain ⟨hfront, hback⟩ := List.forall_mem_append.mp h
    rw [flatMap_readByUnits_of_lt hfront, flatMap_readByUnits_of_lt hback]

/--
A text that stands alone as plain UTF-8 is read as it is. With an encoded zero behind it, and any
other text behind that, exactly the characters of one unit are read as they are, and every other
character is read as four replacements. So both texts are kept if and only if they have characters
of one unit only.
-/
theorem decodeModifiedUtf8_beside_zero (front back : String) :
    decodeModifiedUtf8 (utf8 front) = front ∧
    decodeModifiedUtf8 (utf8 front ++ [0xC0, 0x80] ++ utf8 back) =
      String.ofList (front.toList.flatMap readByUnits ++
        '\x00' :: back.toList.flatMap readByUnits) ∧
    (decodeModifiedUtf8 (utf8 front ++ [0xC0, 0x80] ++ utf8 back) = front ++ "\x00" ++ back ↔
      ∀ char ∈ front.toList ++ back.toList, char.toNat < 0x10000) := by
  refine ⟨decodeModifiedUtf8_utf8 front, decodeModifiedUtf8_around_zero front back, ?_⟩
  have hzero : "\x00".toList = ['\x00'] := rfl
  rw [decodeModifiedUtf8_around_zero, ← String.toList_inj, String.toList_ofList,
    String.toList_append, String.toList_append, hzero, List.append_assoc, List.singleton_append,
    around_zero_kept_iff]

/-- Alone the character is read as it is; with a zero behind it nothing of it is left. -/
theorem decodeModifiedUtf8_loses_character :
    decodeModifiedUtf8 (utf8 "😀") = "😀" ∧
      decodeModifiedUtf8 (utf8 "😀" ++ [0xC0, 0x80] ++ utf8 "") =
        "\ufffd\ufffd\ufffd\ufffd\x00" ∧
      decodeModifiedUtf8 (utf8 "😀" ++ [0xC0, 0x80] ++ utf8 "") ≠ "😀" ++ "\x00" ++ "" := by
  have hread : decodeModifiedUtf8 (utf8 "😀" ++ [0xC0, 0x80] ++ utf8 "") =
      "\ufffd\ufffd\ufffd\ufffd\x00" := by
    rw [decodeModifiedUtf8_around_zero]
    decide
  refine ⟨decodeModifiedUtf8_utf8 "😀", hread, ?_⟩
  rw [hread]
  decide

end ClassListing.Text
