import ClassListing.Text
import Mathlib

/-!
# Writing text as modified UTF-8

Each code unit of a text is written on its own, in one to three bytes, and zero takes two of them.
Reading gives back the characters that the code units stand for. It makes no difference that bytes
which happen to be well-formed UTF-8 are read by another rule: they are those of the texts without
zeros and surrogates, and on these both rules agree.
-/

namespace ClassListing.Text

/-- A byte that carries the last six bits of `value` behind the first byte of a sequence. -/
def continuation (value : Nat) : UInt8 := .ofNat (0x80 + value % 0x40)

def encodeUnit (unit : UInt16) : Bytes :=
  let value := unit.toNat
  if 0 < value ∧ value < 0x80 then [.ofNat value]
  else if value < 0x800 then [.ofNat (0xC0 + value / 0x40), continuation value]
  else [.ofNat (0xE0 + value / 0x1000), continuation (value / 0x40), continuation value]

def encodeUnits (units : List UInt16) : Bytes := units.flatMap encodeUnit

def isSurrogate (unit : UInt16) : Bool := isHighSurrogate unit || isLowSurrogate unit

def charUnits (char : Char) : List UInt16 :=
  if char.toNat < 0x10000 then [.ofNat char.toNat]
  else [.ofNat (0xD800 + (char.toNat - 0x10000) / 0x400),
    .ofNat (0xDC00 + (char.toNat - 0x10000) % 0x400)]

def encodeModifiedUtf8 (text : String) : Bytes := encodeUnits (text.toList.flatMap charUnits)

/-- The characters that code units stand for. A high surrogate is unpaired if no low one follows,
and a low one if it was not needed for the character before it. -/
inductive Utf16 : List UInt16 → List Char → Prop
  | nil : Utf16 [] []
  | char {units : List UInt16} {chars : List Char} (char : Char) (h : Utf16 units chars) :
      Utf16 (charUnits char ++ units) (char :: chars)
  | unpaired {unit : UInt16} {units : List UInt16} {chars : List Char}
      (surrogate : isSurrogate unit)
      (alone : isHighSurrogate unit → ∀ low ∈ units.head?, ¬isLowSurrogate low)
      (h : Utf16 units chars) : Utf16 (unit :: units) (replacement :: chars)

/-! ## One code unit -/

theorem toNat_continuation (value : Nat) : (continuation value).toNat = 0x80 + value % 0x40 := by
  rw [continuation, UInt8.toNat_ofNat']
  omega

/-- Bounds on a byte as they are tested. -/
theorem between_iff {byte low high : UInt8} :
    (low ≤ byte && byte < high) = true ↔ low.toNat ≤ byte.toNat ∧ byte.toNat < high.toNat := by
  rw [Bool.and_eq_true, decide_eq_true_eq, decide_eq_true_eq, UInt8.le_iff_toNat_le,
    UInt8.lt_iff_toNat_lt]

theorem isContinuation_continuation (value : Nat) : isContinuation (continuation value) := by
  have hvalue := toNat_continuation value
  apply between_iff.mpr
  show 0x80 ≤ (continuation value).toNat ∧ (continuation value).toNat < 0xC0
  omega

section FirstUnit

variable {lead : UInt8} (rest : Bytes)

theorem firstUnit_one (h : lead.toNat < 0x80) : firstUnit lead rest = (lead.toUInt16, rest) := by
  have hone : lead < 0x80 := UInt8.lt_iff_toNat_lt.mpr h
  simp only [firstUnit, hone, if_true]

theorem not_oneByte (h : 0xC0 ≤ lead.toNat) : ¬lead < 0x80 := by
  intro hone
  have hlead : lead.toNat < 0x80 := UInt8.lt_iff_toNat_lt.mp hone
  omega

theorem firstUnit_two (hl : 0xC0 ≤ lead.toNat) (hu : lead.toNat < 0xE0) (value : Nat) :
    firstUnit lead (continuation value :: rest) =
      (twoByteUnit lead (continuation value), rest) := by
  have hone := not_oneByte hl
  have htwo : (0xC0 ≤ lead && lead < 0xE0) = true := between_iff.mpr ⟨hl, hu⟩
  simp only [firstUnit, hone, htwo, isContinuation_continuation, if_true, if_false]

theorem firstUnit_three (hl : 0xE0 ≤ lead.toNat) (hu : lead.toNat < 0xF0) (value last : Nat) :
    firstUnit lead (continuation value :: continuation last :: rest) =
      (threeByteUnit lead (continuation value) (continuation last), rest) := by
  have hone : ¬lead < 0x80 := not_oneByte (by omega)
  have htwo : ¬(0xC0 ≤ lead && lead < 0xE0) = true := by
    intro h
    have hlead : lead.toNat < 0xE0 := (between_iff.mp h).2
    omega
  have hthree : (0xE0 ≤ lead && lead < 0xF0) = true := between_iff.mpr ⟨hl, hu⟩
  rw [Bool.not_eq_true] at htwo
  simp only [firstUnit, hone, htwo, hthree, isContinuation_continuation, Bool.and_self, if_true,
    if_false, Bool.false_eq_true]

end FirstUnit

/-- A written unit is read back, and its first byte is neither zero nor that of four. -/
theorem encodeUnit_cases (unit : UInt16) : ∃ lead tail, encodeUnit unit = lead :: tail ∧
    0 < lead.toNat ∧ lead.toNat < 0xF0 ∧
    ∀ rest, firstUnit lead (tail ++ rest) = (unit, rest) := by
  have hlt := unit.toNat_lt
  unfold encodeUnit
  by_cases hone : 0 < unit.toNat ∧ unit.toNat < 0x80
  · have hlead : (UInt8.ofNat unit.toNat).toNat = unit.toNat := by
      rw [UInt8.toNat_ofNat']
      omega
    have hunit : (UInt8.ofNat unit.toNat).toUInt16 = unit := by
      apply UInt16.toNat_inj.mp
      rw [UInt8.toNat_toUInt16, hlead]
    refine ⟨_, [], if_pos hone, by omega, by omega, fun rest => ?_⟩
    rw [List.nil_append, firstUnit_one rest (by omega), hunit]
  by_cases htwo : unit.toNat < 0x800
  · have hlead : (UInt8.ofNat (0xC0 + unit.toNat / 0x40)).toNat = 0xC0 + unit.toNat / 0x40 := by
      rw [UInt8.toNat_ofNat']
      omega
    have hunit : twoByteUnit (.ofNat (0xC0 + unit.toNat / 0x40)) (continuation unit.toNat) =
        unit := by
      apply UInt16.toNat_inj.mp
      rw [twoByteUnit, hlead, toNat_continuation, UInt16.toNat_ofNat']
      omega
    refine ⟨_, [continuation unit.toNat], (if_neg hone).trans (if_pos htwo), by omega, by omega,
      fun rest => ?_⟩
    rw [List.singleton_append, firstUnit_two rest (by omega) (by omega), hunit]
  · have hlead : (UInt8.ofNat (0xE0 + unit.toNat / 0x1000)).toNat =
        0xE0 + unit.toNat / 0x1000 := by
      rw [UInt8.toNat_ofNat']
      omega
    have hunit : threeByteUnit (.ofNat (0xE0 + unit.toNat / 0x1000))
        (continuation (unit.toNat / 0x40)) (continuation unit.toNat) = unit := by
      apply UInt16.toNat_inj.mp
      rw [threeByteUnit, hlead, toNat_continuation, toNat_continuation, UInt16.toNat_ofNat']
      omega
    refine ⟨_, [continuation (unit.toNat / 0x40), continuation unit.toNat],
      (if_neg hone).trans (if_neg htwo), by omega, by omega, fun rest => ?_⟩
    rw [List.cons_append, List.singleton_append, firstUnit_three rest (by omega) (by omega), hunit]

/-- No writing of a unit starts another one. -/
theorem encodeUnit_append_inj {first second : UInt16} {more rest : Bytes}
    (h : encodeUnit first ++ more = encodeUnit second ++ rest) : first = second ∧ more = rest := by
  obtain ⟨lead, tail, hfirst, -, -, hread⟩ := encodeUnit_cases first
  obtain ⟨other, back, hsecond, -, -, hreadOther⟩ := encodeUnit_cases second
  rw [hfirst, hsecond, List.cons_append, List.cons_append] at h
  obtain ⟨rfl, htails⟩ := List.cons.inj h
  have hsame := hread more
  rw [htails, hreadOther rest] at hsame
  exact ⟨congrArg Prod.fst hsame.symm, congrArg Prod.snd hsame.symm⟩

theorem units_encodeUnit_append (unit : UInt16) (rest : Bytes) :
    units (encodeUnit unit ++ rest) = unit :: units rest := by
  obtain ⟨lead, tail, hunit, -, -, hread⟩ := encodeUnit_cases unit
  rw [hunit, List.cons_append, units]
  simp only [hread]

theorem units_encodeUnits (list : List UInt16) : units (encodeUnits list) = list := by
  induction list with
  | nil => rw [encodeUnits, List.flatMap_nil, units]
  | cons unit list ih =>
      rw [encodeUnits, List.flatMap_cons, units_encodeUnit_append]
      exact congrArg (unit :: ·) ih

/-! ## Characters and their code units -/

theorem isHighSurrogate_iff {unit : UInt16} :
    isHighSurrogate unit ↔ 0xD800 ≤ unit.toNat ∧ unit.toNat < 0xDC00 := by
  rw [isHighSurrogate, Bool.and_eq_true, decide_eq_true_eq, decide_eq_true_eq,
    UInt16.le_iff_toNat_le, UInt16.lt_iff_toNat_lt]
  rfl

theorem isLowSurrogate_iff {unit : UInt16} :
    isLowSurrogate unit ↔ 0xDC00 ≤ unit.toNat ∧ unit.toNat < 0xE000 := by
  rw [isLowSurrogate, Bool.and_eq_true, decide_eq_true_eq, decide_eq_true_eq,
    UInt16.le_iff_toNat_le, UInt16.lt_iff_toNat_lt]
  rfl

theorem isSurrogate_iff {unit : UInt16} :
    isSurrogate unit ↔ 0xD800 ≤ unit.toNat ∧ unit.toNat < 0xE000 := by
  rw [isSurrogate, Bool.or_eq_true, isHighSurrogate_iff, isLowSurrogate_iff]
  omega

theorem isValidChar_of_not_isSurrogate {unit : UInt16} (h : ¬isSurrogate unit) :
    unit.toNat.isValidChar := by
  have hlt := unit.toNat_lt
  rw [isSurrogate_iff] at h
  unfold Nat.isValidChar
  omega

theorem charUnits_ofNat {unit : UInt16} (h : ¬isSurrogate unit) :
    charUnits (.ofNat unit.toNat) = [unit] := by
  have hlt : unit.toNat < 0x10000 := unit.toNat_lt
  rw [charUnits, Char.toNat_ofNat, if_pos (isValidChar_of_not_isSurrogate h), if_pos hlt,
    UInt16.ofNat_toNat]

theorem charUnits_pairedUnits {high low : UInt16} (hh : isHighSurrogate high)
    (hl : isLowSurrogate low) : charUnits (pairedUnits high low) = [high, low] := by
  rw [isHighSurrogate_iff] at hh
  rw [isLowSurrogate_iff] at hl
  have hvalue : (pairedUnits high low).toNat =
      0x10000 + (high.toNat - 0xD800) * 0x400 + (low.toNat - 0xDC00) := by
    rw [pairedUnits, Char.toNat_ofNat, if_pos]
    unfold Nat.isValidChar
    omega
  have hhigh : 0xD800 + ((pairedUnits high low).toNat - 0x10000) / 0x400 = high.toNat := by omega
  have hlow : 0xDC00 + ((pairedUnits high low).toNat - 0x10000) % 0x400 = low.toNat := by omega
  rw [charUnits, if_neg (by omega), hhigh, hlow, UInt16.ofNat_toNat, UInt16.ofNat_toNat]

theorem loneUnit_of_isSurrogate {unit : UInt16} (h : isSurrogate unit) :
    loneUnit unit = replacement :=
  if_pos h

theorem loneUnit_of_not_isSurrogate {unit : UInt16} (h : ¬isSurrogate unit) :
    loneUnit unit = .ofNat unit.toNat :=
  if_neg h

/-- A unit that does not start a pair is read on its own. -/
theorem ofUnits_cons {unit : UInt16} {rest : List UInt16}
    (h : isHighSurrogate unit → ∀ low ∈ rest.head?, ¬isLowSurrogate low) :
    ofUnits (unit :: rest) = loneUnit unit :: ofUnits rest := by
  cases rest with
  | nil => rfl
  | cons next rest =>
      have hpair : ¬(isHighSurrogate unit && isLowSurrogate next) = true := by
        rw [Bool.and_eq_true]
        intro hboth
        exact h hboth.1 next rfl hboth.2
      rw [ofUnits, if_neg hpair]

theorem ofUnits_charUnits_append (char : Char) (rest : List UInt16) :
    ofUnits (charUnits char ++ rest) = char :: ofUnits rest := by
  have hvalid : char.toNat.isValidChar := char.valid
  unfold Nat.isValidChar at hvalid
  by_cases hbasic : char.toNat < 0x10000
  · have hunit : (UInt16.ofNat char.toNat).toNat = char.toNat :=
      UInt16.toNat_ofNat_of_lt' hbasic
    have hplain : ¬isSurrogate (.ofNat char.toNat) := by
      rw [isSurrogate_iff, hunit]
      omega
    have hlone : loneUnit (.ofNat char.toNat) = char := by
      rw [loneUnit_of_not_isSurrogate hplain, hunit, Char.ofNat_toNat]
    have hhigh : ¬isHighSurrogate (.ofNat char.toNat) := by
      intro h
      exact hplain (by rw [isSurrogate, h, Bool.true_or])
    rw [charUnits, if_pos hbasic, List.singleton_append, ofUnits_cons (fun h => (hhigh h).elim),
      hlone]
  · have hhigh : (UInt16.ofNat (0xD800 + (char.toNat - 0x10000) / 0x400)).toNat =
        0xD800 + (char.toNat - 0x10000) / 0x400 := by
      rw [UInt16.toNat_ofNat']
      omega
    have hlow : (UInt16.ofNat (0xDC00 + (char.toNat - 0x10000) % 0x400)).toNat =
        0xDC00 + (char.toNat - 0x10000) % 0x400 := by
      rw [UInt16.toNat_ofNat']
      omega
    have hpair : (isHighSurrogate (.ofNat (0xD800 + (char.toNat - 0x10000) / 0x400)) &&
        isLowSurrogate (.ofNat (0xDC00 + (char.toNat - 0x10000) % 0x400))) = true := by
      rw [Bool.and_eq_true, isHighSurrogate_iff, isLowSurrogate_iff, hhigh, hlow]
      omega
    have hvalue : 0x10000 + (0xD800 + (char.toNat - 0x10000) / 0x400 - 0xD800) * 0x400 +
        (0xDC00 + (char.toNat - 0x10000) % 0x400 - 0xDC00) = char.toNat := by omega
    rw [charUnits, if_neg hbasic, List.cons_append, List.singleton_append, ofUnits, if_pos hpair,
      pairedUnits, hhigh, hlow, hvalue, Char.ofNat_toNat]

theorem utf16_ofUnits (list : List UInt16) : Utf16 list (ofUnits list) := by
  have hlone (unit : UInt16) (rest : List UInt16) (chars : List Char)
      (h : isHighSurrogate unit → ∀ low ∈ rest.head?, ¬isLowSurrogate low)
      (hrest : Utf16 rest chars) : Utf16 (unit :: rest) (loneUnit unit :: chars) := by
    by_cases hs : isSurrogate unit
    · rw [loneUnit_of_isSurrogate hs]
      exact .unpaired hs h hrest
    · have hchar := Utf16.char (.ofNat unit.toNat) hrest
      rw [charUnits_ofNat hs] at hchar
      rw [loneUnit_of_not_isSurrogate hs]
      exact hchar
  induction list using ofUnits.induct with
  | case1 => exact .nil
  | case2 unit => exact hlone unit [] [] nofun .nil
  | case3 high low rest hpair ih =>
      have hchar := Utf16.char (pairedUnits high low) ih
      rw [Bool.and_eq_true] at hpair
      rw [charUnits_pairedUnits hpair.1 hpair.2] at hchar
      rw [ofUnits, if_pos (by rw [hpair.1, hpair.2, Bool.and_self])]
      exact hchar
  | case4 unit next rest hpair ih =>
      rw [ofUnits, if_neg hpair]
      apply hlone unit (next :: rest) _ _ ih
      intro hhigh low hlow hislow
      cases hlow
      exact hpair (by rw [hhigh, hislow, Bool.and_self])

/-- Code units stand for one text only. -/
theorem Utf16.eq_ofUnits {list : List UInt16} {chars : List Char} (h : Utf16 list chars) :
    chars = ofUnits list := by
  induction h with
  | nil => rfl
  | char char _ ih => rw [ofUnits_charUnits_append, ← ih]
  | unpaired surrogate alone _ ih =>
      rw [ofUnits_cons alone, loneUnit_of_isSurrogate surrogate, ← ih]

theorem utf16_iff {list : List UInt16} {chars : List Char} :
    Utf16 list chars ↔ chars = ofUnits list := by
  constructor
  · exact Utf16.eq_ofUnits
  · intro h
    rw [h]
    exact utf16_ofUnits list

theorem utf16_charUnits (chars : List Char) : Utf16 (chars.flatMap charUnits) chars := by
  induction chars with
  | nil => exact .nil
  | cons char chars ih => exact .char char ih

/-! ## Bytes that are well-formed UTF-8 -/

/-- Units that are written alike in both forms. -/
def Plain (unit : UInt16) : Prop := unit ≠ 0 ∧ ¬isSurrogate unit

theorem fromUTF8?_flatMap (chars : List Char) :
    String.fromUTF8? ⟨(chars.flatMap String.utf8EncodeChar).toArray⟩ =
      some (String.ofList chars) := by
  have hbytes : (⟨(chars.flatMap String.utf8EncodeChar).toArray⟩ : ByteArray) =
      (String.ofList chars).toByteArray := by
    apply ByteArray.ext
    rw [String.toByteArray_ofList, List.utf8Encode, List.data_toByteArray]
  rw [hbytes, String.fromUTF8?, dif_pos (String.ofList chars).isValidUTF8]
  rfl

theorem exists_of_fromUTF8? {bytes : Bytes} (h : String.fromUTF8? ⟨bytes.toArray⟩ ≠ none) :
    ∃ chars : List Char, bytes = chars.flatMap String.utf8EncodeChar := by
  by_cases hvalid : ByteArray.IsValidUTF8 ⟨bytes.toArray⟩
  · obtain ⟨chars, hchars⟩ := hvalid
    have hdata := congrArg ByteArray.data hchars
    rw [List.utf8Encode, List.data_toByteArray] at hdata
    exact ⟨chars, congrArg Array.toList hdata⟩
  · rw [String.fromUTF8?, dif_neg hvalid] at h
    exact (h rfl).elim

/-- A character of one unit other than zero is written alike in both forms. -/
theorem utf8EncodeChar_eq {char : Char} (pos : 0 < char.toNat) (basic : char.toNat < 0x10000) :
    String.utf8EncodeChar char = encodeUnit (.ofNat char.toNat) := by
  have hunit : (UInt16.ofNat char.toNat).toNat = char.toNat := UInt16.toNat_ofNat_of_lt' basic
  have hvalue : char.val.toNat = char.toNat := rfl
  unfold String.utf8EncodeChar encodeUnit continuation
  simp only [hunit, hvalue]
  by_cases hone : char.toNat < 0x80
  · rw [if_pos (by omega), if_pos (by omega)]
  by_cases htwo : char.toNat < 0x800
  · have hlead : char.toNat / 64 % 32 + 192 = 0xC0 + char.toNat / 0x40 := by omega
    rw [if_neg (by omega), if_pos (by omega), if_neg (by omega), if_pos htwo, hlead,
      Nat.add_comm (char.toNat % 64)]
  · have hlead : char.toNat / 4096 % 16 + 224 = 0xE0 + char.toNat / 0x1000 := by omega
    rw [if_neg (by omega), if_neg (by omega), if_pos (by omega), if_neg (by omega), if_neg htwo,
      hlead, Nat.add_comm (char.toNat / 64 % 64), Nat.add_comm (char.toNat % 64)]

/-- Any other character starts with a byte that starts no unit. -/
theorem utf8EncodeChar_lead {char : Char} (h : char.toNat = 0 ∨ 0x10000 ≤ char.toNat) :
    ∃ lead tail, String.utf8EncodeChar char = lead :: tail ∧
      (lead.toNat = 0 ∨ 0xF0 ≤ lead.toNat) := by
  have hvalue : char.val.toNat = char.toNat := rfl
  unfold String.utf8EncodeChar
  simp only [hvalue]
  rcases h with hzero | hlong
  · rw [if_pos (by omega), hzero]
    exact ⟨_, _, rfl, .inl rfl⟩
  · rw [if_neg (by omega), if_neg (by omega), if_neg (by omega)]
    refine ⟨_, _, rfl, .inr ?_⟩
    rw [UInt8.toNat_ofNat']
    omega

theorem plain_ofNat {char : Char} (pos : 0 < char.toNat) (basic : char.toNat < 0x10000) :
    Plain (.ofNat char.toNat) := by
  have hunit : (UInt16.ofNat char.toNat).toNat = char.toNat := UInt16.toNat_ofNat_of_lt' basic
  have hvalid : char.toNat.isValidChar := char.valid
  unfold Nat.isValidChar at hvalid
  constructor
  · intro hzero
    rw [hzero] at hunit
    exact absurd hunit (Nat.ne_of_lt pos)
  · rw [isSurrogate_iff, hunit]
    omega

/-- Units whose writing is well-formed UTF-8 are plain, from the first to the last. -/
theorem plain_of_encodeUnits_eq {list : List UInt16} {chars : List Char}
    (h : encodeUnits list = chars.flatMap String.utf8EncodeChar) : ∀ unit ∈ list, Plain unit := by
  induction list generalizing chars with
  | nil => nofun
  | cons unit list ih =>
      obtain ⟨lead, tail, hunit, hpos, hlt, -⟩ := encodeUnit_cases unit
      cases chars with
      | nil =>
          rw [encodeUnits, List.flatMap_cons, hunit] at h
          cases h
      | cons char chars =>
          rw [encodeUnits, List.flatMap_cons, List.flatMap_cons] at h
          by_cases hbasic : 0 < char.toNat ∧ char.toNat < 0x10000
          · rw [utf8EncodeChar_eq hbasic.1 hbasic.2] at h
            obtain ⟨rfl, hrest⟩ := encodeUnit_append_inj h
            exact List.forall_mem_cons.mpr ⟨plain_ofNat hbasic.1 hbasic.2, ih hrest⟩
          · have houter : char.toNat = 0 ∨ 0x10000 ≤ char.toNat := by omega
            obtain ⟨other, more, hchar, hother⟩ := utf8EncodeChar_lead houter
            rw [hunit, hchar] at h
            obtain ⟨rfl, -⟩ := List.cons.inj h
            omega

theorem utf8EncodeChar_ofNat {unit : UInt16} (h : Plain unit) :
    String.utf8EncodeChar (.ofNat unit.toNat) = encodeUnit unit := by
  have hvalue : (Char.ofNat unit.toNat).toNat = unit.toNat := by
    rw [Char.toNat_ofNat, if_pos (isValidChar_of_not_isSurrogate h.2)]
  have hlt : unit.toNat < 0x10000 := unit.toNat_lt
  have hpos : 0 < unit.toNat := by
    apply Nat.pos_of_ne_zero
    intro hzero
    exact h.1 (UInt16.toNat_inj.mp hzero)
  rw [utf8EncodeChar_eq (by omega) (by omega), hvalue, UInt16.ofNat_toNat]

/-- Plain units stand for themselves, and their writing is that of these characters. -/
theorem encodeUnits_of_plain {list : List UInt16} (h : ∀ unit ∈ list, Plain unit) :
    encodeUnits list = (ofUnits list).flatMap String.utf8EncodeChar := by
  induction list with
  | nil => rfl
  | cons unit list ih =>
      obtain ⟨hunit, hrest⟩ := List.forall_mem_cons.mp h
      have hhigh : ¬isHighSurrogate unit := by
        intro hhigh
        exact hunit.2 (by rw [isSurrogate, hhigh, Bool.true_or])
      rw [ofUnits_cons (fun h => (hhigh h).elim), loneUnit_of_not_isSurrogate hunit.2,
        List.flatMap_cons, utf8EncodeChar_ofNat hunit, ← ih hrest]
      rfl

theorem fromUTF8?_of_plain {list : List UInt16} (h : ∀ unit ∈ list, Plain unit) :
    String.fromUTF8? ⟨(encodeUnits list).toArray⟩ = some (String.ofList (ofUnits list)) := by
  rw [encodeUnits_of_plain h, fromUTF8?_flatMap]

theorem fromUTF8?_eq_none_iff {list : List UInt16} :
    String.fromUTF8? ⟨(encodeUnits list).toArray⟩ = none ↔ ¬∀ unit ∈ list, Plain unit := by
  constructor
  · intro hnone hplain
    rw [fromUTF8?_of_plain hplain] at hnone
    cases hnone
  · intro hodd
    by_cases hnone : String.fromUTF8? ⟨(encodeUnits list).toArray⟩ = none
    · exact hnone
    · obtain ⟨chars, hchars⟩ := exists_of_fromUTF8? hnone
      exact (hodd (plain_of_encodeUnits_eq hchars)).elim

theorem decodeModifiedUtf8_encodeUnits (list : List UInt16) :
    decodeModifiedUtf8 (encodeUnits list) = String.ofList (ofUnits list) := by
  unfold decodeModifiedUtf8
  by_cases h : ∀ unit ∈ list, Plain unit
  · rw [fromUTF8?_of_plain h]
  · rw [fromUTF8?_eq_none_iff.mpr h, units_encodeUnits]

/--
Reading undoes writing, for all code units: the text read is the one that they stand for, and a text
that was written as such is read as it was. Bytes that are taken for plain UTF-8 are read as the
units in them would be; this happens unless a zero or a surrogate was written.
-/
theorem decodeModifiedUtf8_undoes_encoding (list : List UInt16) :
    (∀ text, decodeModifiedUtf8 (encodeUnits list) = text ↔ Utf16 list text.toList) ∧
    (∀ text, decodeModifiedUtf8 (encodeModifiedUtf8 text) = text) ∧
    (∀ text, String.fromUTF8? ⟨(encodeUnits list).toArray⟩ = some text →
      text = String.ofList (ofUnits (units (encodeUnits list)))) ∧
    (String.fromUTF8? ⟨(encodeUnits list).toArray⟩ = none ↔
      ∃ unit ∈ list, unit = 0 ∨ isSurrogate unit) := by
  refine ⟨fun text => ?_, fun text => ?_, fun text h => ?_, ?_⟩
  · rw [decodeModifiedUtf8_encodeUnits, utf16_iff, ← String.toList_inj, String.toList_ofList,
      eq_comm]
  · have hchars := (utf16_charUnits text.toList).eq_ofUnits
    rw [encodeModifiedUtf8, decodeModifiedUtf8_encodeUnits, ← hchars, String.ofList_toList]
  · have hfast : decodeModifiedUtf8 (encodeUnits list) = text := by
      rw [decodeModifiedUtf8, h]
    rw [← hfast, decodeModifiedUtf8_encodeUnits, units_encodeUnits]
  · rw [fromUTF8?_eq_none_iff]
    simp [Plain, Classical.or_iff_not_imp_left]

/-- An unpaired surrogate between a zero, a pair and other units; and units that are plain. -/
theorem decodeModifiedUtf8_undoes_encoding_mixed :
    decodeModifiedUtf8 (encodeUnits [0x41, 0, 0xD800, 0xD83D, 0xDE00, 0x20AC]) = "A\x00\ufffd😀€" ∧
      String.fromUTF8? ⟨(encodeUnits [0x41, 0xE9, 0x20AC]).toArray⟩ = some "Aé€" ∧
      "Aé€" = String.ofList (ofUnits (units (encodeUnits [0x41, 0xE9, 0x20AC]))) := by
  have hmixed := (decodeModifiedUtf8_undoes_encoding [0x41, 0, 0xD800, 0xD83D, 0xDE00, 0x20AC]).1
  have hplain : String.fromUTF8? ⟨(encodeUnits [0x41, 0xE9, 0x20AC]).toArray⟩ = some "Aé€" :=
    fromUTF8?_of_plain (by simp [Plain]; decide)
  have halone : ∀ low ∈ some 0xD83D, ¬isLowSurrogate low := by
    intro low hlow
    cases hlow
    decide
  refine ⟨(hmixed _).mpr ?_, hplain, ?_⟩
  · exact .char 'A' (.char '\x00' (.unpaired rfl (fun _ => halone) (.char '😀' (.char '€' .nil))))
  · exact (decodeModifiedUtf8_undoes_encoding [0x41, 0xE9, 0x20AC]).2.2.1 _ hplain

end ClassListing.Text
