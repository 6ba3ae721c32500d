import ClassListing.Proofs.Text.CodeUnits

/-!
# Reading quoted text back

A quoted text is a string literal: what stands between its quotes gives the code units of the text
once the escapes are undone, and none of its characters is a control character. The reader is the
usual one for literals; it refuses a bare quote, an escape that it does not know, and one that is
cut short.
-/

namespace ClassListing.Text

/-! ## The reader -/

def hexValue? (digit : Char) : Option Nat :=
  if '0' ≤ digit ∧ digit ≤ '9' then some (digit.toNat - '0'.toNat)
  else if 'a' ≤ digit ∧ digit ≤ 'f' then some (10 + (digit.toNat - 'a'.toNat))
  else if 'A' ≤ digit ∧ digit ≤ 'F' then some (10 + (digit.toNat - 'A'.toNat))
  else none

def hexUnit? (digits : List Char) : Option UInt16 := do
  let value ← digits.foldlM (fun value digit => (16 * value + ·) <$> hexValue? digit) 0
  return .ofNat value

def letterUnit? : Char → Option UInt16
  | '"' => some 0x22
  | '\\' => some 0x5C
  | 'n' => some 0x0A
  | 'r' => some 0x0D
  | 't' => some 0x09
  | 'b' => some 0x08
  | 'f' => some 0x0C
  | _ => none

/-- The code units that the inside of a string literal stands for. -/
def unescape : List Char → Option (List UInt16)
  | [] => some []
  | '\\' :: 'u' :: first :: second :: third :: fourth :: rest => do
      let unit ← hexUnit? [first, second, third, fourth]
      return unit :: (← unescape rest)
  | '\\' :: letter :: rest => do
      let unit ← letterUnit? letter
      return unit :: (← unescape rest)
  | char :: rest =>
      if char = '"' ∨ char = '\\' then none
      else do return charUnits char ++ (← unescape rest)

theorem unescape_letter {letter : Char} {unit : UInt16} (h : letterUnit? letter = some unit)
    (rest : List Char) :
    unescape ('\\' :: letter :: rest) = (unescape rest).map ([unit] ++ ·) := by
  have hu : letter ≠ 'u' := by
    intro hu
    rw [hu] at h
    cases h
  rw [unescape, h]
  · cases unescape rest <;> rfl
  · intro first second third fourth more hletter
    exact absurd hletter hu

theorem unescape_hex {first second third fourth : Char} {unit : UInt16}
    (h : hexUnit? [first, second, third, fourth] = some unit) (rest : List Char) :
    unescape ('\\' :: 'u' :: first :: second :: third :: fourth :: rest) =
      (unescape rest).map ([unit] ++ ·) := by
  rw [unescape, h]
  cases unescape rest <;> rfl

theorem unescape_plain {char : Char} (hquote : char ≠ '"') (hslash : char ≠ '\\')
    (rest : List Char) :
    unescape (char :: rest) = (unescape rest).map (charUnits char ++ ·) := by
  rw [unescape, if_neg (not_or.mpr ⟨hquote, hslash⟩)]
  · cases unescape rest <;> rfl
  · intro first second third fourth more hchar
    exact absurd hchar hslash
  · intro letter more hchar
    exact absurd hchar hslash

/-! ## Numerals -/

theorem hexValue?_digitChar : ∀ digit < 16, hexValue? (Nat.digitChar digit) = some digit := by
  decide

theorem isControl_digitChar : ∀ digit < 16, isControl (Nat.digitChar digit) = false := by
  decide

theorem hexPadded_one {n : Nat} (h : n < 16) : (hexPadded 1 n).toList = [Nat.digitChar n] := by
  simp only [hexPadded, String.toList_ofList, Nat.toDigits_of_lt_base h]
  rfl

theorem hexPadded_succ {width : Nat} (hw : 0 < width) (n : Nat) :
    (hexPadded (width + 1) n).toList =
      (hexPadded width (n / 16)).toList ++ [Nat.digitChar (n % 16)] := by
  simp only [hexPadded, String.toList_ofList]
  by_cases hn : n < 16
  · obtain ⟨width, rfl⟩ := Nat.exists_eq_succ_of_ne_zero (Nat.ne_of_gt hw)
    rw [Nat.toDigits_of_lt_base hn, Nat.div_eq_of_lt hn, Nat.mod_eq_of_lt hn, Nat.toDigits_zero]
    simp [List.replicate_succ']
  · rw [Nat.toDigits_of_base_le (by decide) (Nat.le_of_not_lt hn), List.length_append,
      List.length_singleton, Nat.add_sub_add_right, List.append_assoc]

theorem hexPadded_four {n : Nat} (h : n < 0x10000) :
    (hexPadded 4 n).toList = [Nat.digitChar (n / 16 / 16 / 16), Nat.digitChar (n / 16 / 16 % 16),
      Nat.digitChar (n / 16 % 16), Nat.digitChar (n % 16)] := by
  rw [hexPadded_succ (by decide), hexPadded_succ (by decide), hexPadded_succ (by decide),
    hexPadded_one (by omega)]
  rfl

theorem hexUnit?_hexPadded {n : Nat} (h : n < 0x10000) :
    hexUnit? (hexPadded 4 n).toList = some (.ofNat n) := by
  have hfirst := hexValue?_digitChar (n / 16 / 16 / 16) (by omega)
  have hsecond := hexValue?_digitChar (n / 16 / 16 % 16) (by omega)
  have hthird := hexValue?_digitChar (n / 16 % 16) (by omega)
  have hfourth := hexValue?_digitChar (n % 16) (by omega)
  have hvalue : 16 * (16 * (16 * (n / 16 / 16 / 16) + n / 16 / 16 % 16) + n / 16 % 16) + n % 16 =
      n := by omega
  rw [hexPadded_four h]
  simp [hexUnit?, hfirst, hsecond, hthird, hfourth, hvalue]

/-! ## Escapes -/

/-- The three ways in which a character is written. -/
theorem escape_cases (char : Char) :
    (∃ letter unit, escape char = ['\\', letter] ∧ isControl letter = false ∧
      letterUnit? letter = some unit ∧ charUnits char = [unit]) ∨
    (isControl char = true ∧ escape char = '\\' :: 'u' :: (hexPadded 4 char.toNat).toList) ∨
    (isControl char = false ∧ char ≠ '"' ∧ char ≠ '\\' ∧ escape char = [char]) := by
  by_cases hquote : char = '"'
  · subst hquote
    exact .inl ⟨'"', 0x22, rfl, rfl, rfl, rfl⟩
  by_cases hslash : char = '\\'
  · subst hslash
    exact .inl ⟨'\\', 0x5C, rfl, rfl, rfl, rfl⟩
  by_cases hfeed : char = '\n'
  · subst hfeed
    exact .inl ⟨'n', 0x0A, rfl, rfl, rfl, rfl⟩
  by_cases hreturn : char = '\r'
  · subst hreturn
    exact .inl ⟨'r', 0x0D, rfl, rfl, rfl, rfl⟩
  by_cases htab : char = '\t'
  · subst htab
    exact .inl ⟨'t', 0x09, rfl, rfl, rfl, rfl⟩
  by_cases hback : char = '\x08'
  · subst hback
    exact .inl ⟨'b', 0x08, rfl, rfl, rfl, rfl⟩
  by_cases hform : char = '\x0c'
  · subst hform
    exact .inl ⟨'f', 0x0C, rfl, rfl, rfl, rfl⟩
  rw [escape, if_neg hquote, if_neg hslash, if_neg hfeed, if_neg hreturn, if_neg htab,
    if_neg hback, if_neg hform]
  cases hcontrol : isControl char with
  | true => exact .inr (.inl ⟨rfl, rfl⟩)
  | false => exact .inr (.inr ⟨rfl, hquote, hslash, rfl⟩)

theorem toNat_lt_of_isControl {char : Char} (h : isControl char = true) : char.toNat < 0xA0 := by
  simp only [isControl, Bool.or_eq_true, Bool.and_eq_true, decide_eq_true_eq] at h
  omega

theorem unescape_escape_append (char : Char) (rest : List Char) :
    unescape (escape char ++ rest) = (unescape rest).map (charUnits char ++ ·) := by
  rcases escape_cases char with
    ⟨letter, unit, hescape, -, hletter, hunits⟩ | ⟨hcontrol, hescape⟩ | ⟨-, hquote, hslash, hescape⟩
  · rw [hescape, hunits]
    exact unescape_letter hletter rest
  · have hlt := toNat_lt_of_isControl hcontrol
    have hunits : charUnits char = [.ofNat char.toNat] := if_pos (by omega)
    have hdigits := hexUnit?_hexPadded (show char.toNat < 0x10000 by omega)
    rw [hescape, hunits]
    rw [hexPadded_four (by omega)] at hdigits ⊢
    exact unescape_hex hdigits rest
  · rw [hescape]
    exact unescape_plain hquote hslash rest

theorem unescape_escaped (text : String) :
    unescape (escaped text) = some (text.toList.flatMap charUnits) := by
  rw [escaped]
  induction text.toList with
  | nil => rfl
  | cons char chars ih =>
      rw [List.flatMap_cons, List.flatMap_cons, unescape_escape_append, ih, Option.map_some]

theorem ofUnits_flatMap_charUnits (text : String) :
    String.ofList (ofUnits (text.toList.flatMap charUnits)) = text := by
  rw [← (utf16_charUnits text.toList).eq_ofUnits, String.ofList_toList]

/-- Nothing that is written in place of a character is a control character. -/
theorem isControl_of_mem_escape {char written : Char} (h : written ∈ escape char) :
    isControl written = false := by
  rcases escape_cases char with
    ⟨letter, unit, hescape, hplain, -⟩ | ⟨hcontrol, hescape⟩ | ⟨hplain, -, -, hescape⟩
  · rw [hescape, List.mem_cons, List.mem_singleton] at h
    rcases h with rfl | rfl
    · rfl
    · exact hplain
  · have hlt := toNat_lt_of_isControl hcontrol
    rw [hescape, hexPadded_four (by omega)] at h
    simp only [List.mem_cons, List.not_mem_nil, or_false] at h
    rcases h with rfl | rfl | rfl | rfl | rfl | rfl
    · rfl
    · rfl
    all_goals exact isControl_digitChar _ (by omega)
  · rw [hescape, List.mem_singleton] at h
    rw [h, hplain]

theorem toList_quote (text : String) : (quote text).toList = '"' :: (escaped text ++ ['"']) := by
  rw [quote, String.toList_ofList]

theorem isControl_of_mem_quote {text : String} {char : Char} (h : char ∈ (quote text).toList) :
    isControl char = false := by
  rw [toList_quote, List.mem_cons, List.mem_append, List.mem_singleton] at h
  rcases h with rfl | h | rfl
  · rfl
  · obtain ⟨source, -, hwritten⟩ := List.mem_flatMap.mp h
    exact isControl_of_mem_escape hwritten
  · rfl

theorem quote_injective : Function.Injective quote := by
  intro first second h
  have hlists := congrArg String.toList h
  rw [toList_quote, toList_quote, List.cons.injEq, List.append_cancel_right_eq] at hlists
  have hunits := congrArg unescape hlists.2
  rw [unescape_escaped, unescape_escaped, Option.some.injEq] at hunits
  rw [← ofUnits_flatMap_charUnits first, hunits, ofUnits_flatMap_charUnits]

/--
Quoting loses nothing and stays on one line. The quotes at the ends enclose a text without control
characters, and reading it as the inside of a string literal gives the code units of the original,
hence the original; so no two texts are quoted alike.
-/
theorem quote_invertible :
    (∀ text, ∃ body, (quote text).toList = '"' :: (body ++ ['"']) ∧
      (∀ char ∈ (quote text).toList, 0x20 ≤ char.toNat ∧ (char.toNat < 0x7F ∨ 0xA0 ≤ char.toNat)) ∧
      unescape body = some (text.toList.flatMap charUnits) ∧
      String.ofList (ofUnits (text.toList.flatMap charUnits)) = text) ∧
    Function.Injective quote := by
  constructor
  · intro text
    refine ⟨escaped text, toList_quote text, fun char hchar => ?_, unescape_escaped text,
      ofUnits_flatMap_charUnits text⟩
    have hplain := isControl_of_mem_quote hchar
    simp only [isControl, Bool.or_eq_false_iff, Bool.and_eq_false_iff, decide_eq_false_iff_not]
      at hplain
    omega
  · exact quote_injective

/-- A quote, a backslash in front of what looks like an escape, and two control characters. -/
theorem quote_invertible_mixed :
    unescape "a\\\"\\\\u0041\\n\\u0085".toList =
        some [0x61, 0x22, 0x5C, 0x75, 0x30, 0x30, 0x34, 0x31, 0x0A, 0x85] ∧
      (∀ char ∈ (quote "a\"\\u0041\n\u0085").toList,
        0x20 ≤ char.toNat ∧ (char.toNat < 0x7F ∨ 0xA0 ≤ char.toNat)) ∧
      quote "\n" ≠ quote "\\n" := by
  obtain ⟨hread, hinjective⟩ := quote_invertible
  obtain ⟨body, hbody, hplain, hunits, -⟩ := hread "a\"\\u0041\n\u0085"
  have hquoted : (quote "a\"\\u0041\n\u0085").toList =
      '"' :: ("a\\\"\\\\u0041\\n\\u0085".toList ++ ['"']) := by decide
  rw [hquoted, List.cons.injEq, List.append_cancel_right_eq] at hbody
  rw [← hbody.2] at hunits
  refine ⟨hunits.trans (by decide), hplain, fun h => ?_⟩
  exact absurd (hinjective h) (by decide)

end ClassListing.Text
