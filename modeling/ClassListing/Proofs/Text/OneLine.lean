import ClassListing.Listing.Layout

/-!
# Texts without a line feed

Numbers, words and quoted texts stay on one line, and so does whatever is put together from texts
that do.
-/

namespace ClassListing.Text

def OneLine (text : String) : Prop := '\n' ∉ text.toList

instance : DecidablePred OneLine := fun _ => inferInstanceAs (Decidable (¬_))

namespace OneLine

/-- For texts whose characters are known. -/
@[simp low] theorem of_all {text : String} (h : text.toList.all (· != '\n') = true) :
    OneLine text := by
  intro hmem
  have hchar := List.all_eq_true.mp h '\n' hmem
  simp at hchar

@[simp] theorem append_iff {first second : String} :
    OneLine (first ++ second) ↔ OneLine first ∧ OneLine second := by
  simp [OneLine, not_or]

@[simp] theorem ofList_iff {chars : List Char} : OneLine (String.ofList chars) ↔ '\n' ∉ chars := by
  rw [OneLine, String.toList_ofList]

@[simp] theorem toString_iff {text : String} : OneLine (toString text) ↔ OneLine text := Iff.rfl

theorem intercalate {separator : String} {texts : List String} (hs : OneLine separator)
    (h : ∀ text ∈ texts, OneLine text) : OneLine (String.intercalate separator texts) := by
  induction texts with
  | nil => simp [OneLine]
  | cons first rest ih =>
      obtain ⟨hfirst, hrest⟩ := List.forall_mem_cons.mp h
      cases rest with
      | nil => simpa using hfirst
      | cons second more =>
          rw [String.intercalate_cons_cons, append_iff, append_iff]
          exact ⟨⟨hfirst, hs⟩, ih hrest⟩

theorem commaList {texts : List String} (h : ∀ text ∈ texts, OneLine text) :
    OneLine (commaList texts) :=
  intercalate (by decide) h

theorem bracketed {texts : List String} (h : ∀ text ∈ texts, OneLine text) :
    OneLine (bracketed texts) := by
  rw [ClassListing.bracketed, append_iff, append_iff]
  exact ⟨⟨by decide, intercalate (by decide) h⟩, by decide⟩

theorem getD {text : Option String} {default : String} (h : ∀ found ∈ text, OneLine found)
    (hd : OneLine default) : OneLine (text.getD default) := by
  cases text with
  | none => exact hd
  | some found => exact h found rfl

theorem join {texts : List String} (h : ∀ text ∈ texts, OneLine text) :
    OneLine (String.join texts) := by
  rw [OneLine, String.toList_join, List.mem_flatMap]
  rintro ⟨text, htext, hmem⟩
  exact h text htext hmem

/-! ## Columns -/

theorem not_mem_replicate {char : Char} (h : '\n' ≠ char) (count : Nat) :
    '\n' ∉ List.replicate count char :=
  fun hmem => h (List.eq_of_mem_replicate hmem)

@[simp] theorem alignRight_iff {width : Nat} {text : String} :
    OneLine (alignRight width text) ↔ OneLine text := by
  rw [alignRight, ofList_iff, List.leftpad, List.mem_append, not_or]
  exact and_iff_right (not_mem_replicate (by decide) _)

@[simp] theorem alignLeft_iff {width : Nat} {text : String} :
    OneLine (alignLeft width text) ↔ OneLine text := by
  rw [alignLeft, ofList_iff, List.rightpad, List.mem_append, not_or]
  exact and_iff_left (not_mem_replicate (by decide) _)

/-! ## Numbers -/

theorem not_mem_toDigitsCore (base fuel number : Nat) {digits : List Char} (h : '\n' ∉ digits) :
    '\n' ∉ Nat.toDigitsCore base fuel number digits := by
  induction fuel generalizing number digits with
  | zero => exact h
  | succ fuel ih =>
      have hdigit : '\n' ∉ (number % base).digitChar :: digits := by
        rw [List.mem_cons, not_or]
        exact ⟨(Nat.digitChar_ne '\n' (by decide)).symm, h⟩
      unfold Nat.toDigitsCore
      dsimp only
      split
      · exact hdigit
      · exact ih _ hdigit

theorem not_mem_toDigits (base number : Nat) : '\n' ∉ Nat.toDigits base number :=
  not_mem_toDigitsCore _ _ _ nofun

@[simp] theorem repr (number : Nat) : OneLine number.repr := by
  rw [OneLine, Nat.toList_repr]
  exact not_mem_toDigits 10 number

@[simp] theorem intRepr (number : Int) : OneLine number.repr := by
  cases number with
  | ofNat size => exact repr size
  | negSucc size => exact append_iff.mpr ⟨by decide, repr _⟩

@[simp] theorem toString_u1 (word : UInt8) : OneLine (toString word) := repr word.toNat

@[simp] theorem toString_u2 (word : UInt16) : OneLine (toString word) := repr word.toNat

@[simp] theorem toString_u4 (word : UInt32) : OneLine (toString word) := repr word.toNat

@[simp] theorem toString_i1 (word : Int8) : OneLine (toString word) := intRepr word.toInt

@[simp] theorem toString_i2 (word : Int16) : OneLine (toString word) := intRepr word.toInt

@[simp] theorem toString_i4 (word : Int32) : OneLine (toString word) := intRepr word.toInt

@[simp] theorem toString_i8 (word : Int64) : OneLine (toString word) := intRepr word.toInt

@[simp] theorem hexPadded (width number : Nat) : OneLine (hexPadded width number) := by
  rw [Text.hexPadded, ofList_iff, List.mem_append, not_or]
  exact ⟨not_mem_replicate (by decide) _, not_mem_toDigits 16 number⟩

@[simp] theorem hexByte (byte : UInt8) : OneLine (hexByte byte) := hexPadded 2 byte.toNat

theorem hexBytes (bytes : List UInt8) : OneLine (hexBytes bytes) := by
  apply join
  rw [List.forall_mem_map]
  intro byte _
  exact hexByte byte

/-! ## Floating point -/

theorem not_mem_positional {digits : List Char} (h : '\n' ∉ digits) (exponent : Int) :
    '\n' ∉ Decimal.positional digits exponent := by
  have htake (count : Nat) : '\n' ∉ digits.take count := fun hmem => h (List.mem_of_mem_take hmem)
  have hdrop (count : Nat) : '\n' ∉ digits.drop count := fun hmem => h (List.mem_of_mem_drop hmem)
  have hzeros (count : Nat) : '\n' ∉ List.replicate count '0' := not_mem_replicate (by decide) count
  unfold Decimal.positional
  dsimp only
  repeat' split
  · simp [h, hzeros]
  · simp [htake, hdrop]
  · simp [h, hzeros]

theorem not_mem_scientific {digits : List Char} (h : '\n' ∉ digits) (exponent : Int) :
    '\n' ∉ Decimal.scientific digits exponent := by
  have htake : '\n' ∉ digits.take 1 := fun hmem => h (List.mem_of_mem_take hmem)
  have htail : '\n' ∉ digits.tail := fun hmem => h (List.mem_of_mem_tail hmem)
  have hexponent : '\n' ∉ exponent.repr.toList := intRepr exponent
  unfold Decimal.scientific
  dsimp only
  split
  · simp [htake, hexponent]
  · simp [htake, htail, hexponent]

theorem binaryValue {words : Decimal.Words} (hnan : OneLine words.nan)
    (hinfinity : OneLine words.infinity) (value : Decimal.BinaryValue) :
    OneLine (value.text words) := by
  have hlayout (magnitude : Decimal.Magnitude) : '\n' ∉ magnitude.layout := by
    unfold Decimal.Magnitude.layout Decimal.Numeral.layout
    dsimp only
    repeat' split
    · decide
    · exact not_mem_positional (not_mem_toDigits 10 _) _
    · exact not_mem_scientific (not_mem_toDigits 10 _) _
  have hsign (negative : Bool) : OneLine (if negative then "-" else "") := by
    cases negative <;> decide
  cases value with
  | nan => exact hnan
  | infinite negative => exact append_iff.mpr ⟨hsign negative, hinfinity⟩
  | finite negative magnitude =>
      exact append_iff.mpr ⟨hsign negative, ofList_iff.mpr (hlayout magnitude)⟩

/-! ## Quoting -/

theorem not_mem_escape (char : Char) : '\n' ∉ escape char := by
  have hhex : '\n' ∉ (Text.hexPadded 4 char.toNat).toList := hexPadded 4 char.toNat
  unfold escape
  by_cases hline : char = '\n'
  · subst hline
    decide
  · have hother : '\n' ≠ char := fun h => hline h.symm
    repeat' split
    all_goals simp [hhex, hother]

@[simp] theorem quote (text : String) : OneLine (quote text) := by
  rw [Text.quote, ofList_iff]
  simp [escaped, not_mem_escape]

theorem not_mem_closedLine {line : List Char} (h : '\n' ∉ line) : '\n' ∉ closedLine line := by
  unfold closedLine
  split
  · intro hmem
    exact h (List.mem_cons_of_mem _ (List.mem_reverse.mp hmem))
  · intro hmem
    exact h (List.mem_reverse.mp hmem)

theorem not_mem_linesFrom {line : List Char} (h : '\n' ∉ line) (chars : List Char) :
    ∀ found ∈ linesFrom line chars, '\n' ∉ found := by
  induction chars generalizing line with
  | nil =>
      unfold linesFrom
      split
      · nofun
      · simpa using h
  | cons char rest ih =>
      unfold linesFrom
      split
      · exact List.forall_mem_cons.mpr ⟨not_mem_closedLine h, ih List.not_mem_nil⟩
      · rename_i hchar
        exact ih (List.not_mem_cons_of_ne_of_not_mem (Ne.symm hchar) h)

/-- The lines of a text are texts of one line. -/
theorem lines (text : String) : ∀ line ∈ lines text, OneLine line := by
  simp only [Text.lines, List.forall_mem_map, ofList_iff]
  exact not_mem_linesFrom List.not_mem_nil text.toList

/-! ## Names and flags -/

theorem map {text : String} (h : OneLine text) {change : Char → Char}
    (hc : ∀ char, change char = '\n' → char = '\n') : OneLine (text.map change) := by
  rw [OneLine, String.toList_map, List.mem_map]
  intro hmem
  obtain ⟨char, hchar, hchange⟩ := hmem
  rw [hc char hchange] at hchar
  exact h hchar

@[simp] theorem describe (context : FlagContext) (bits : UInt16) :
    OneLine (Access.describe context bits) := by
  have hflags : ∀ flag ∈ context.flags, OneLine flag.name := by cases context <;> decide
  have hknown : ∀ name ∈ (context.flags.filter fun flag => Access.hasFlag bits flag.bit).map
      ("ACC_" ++ ·.name), OneLine name := by
    simp only [List.forall_mem_map, append_iff]
    intro flag hflag
    exact ⟨by decide, hflags flag (List.mem_filter.mp hflag).1⟩
  have hunknown : OneLine ("0x" ++ Text.hexPadded 4 (Access.unknownBits context bits).toNat) :=
    append_iff.mpr ⟨by decide, hexPadded _ _⟩
  have hnumber : OneLine ("(0x" ++ Text.hexPadded 4 bits.toNat ++ ")") :=
    append_iff.mpr ⟨append_iff.mpr ⟨by decide, hexPadded _ _⟩, by decide⟩
  have hjoin {names : List String} (h : ∀ name ∈ names, OneLine name) :
      OneLine ("(0x" ++ Text.hexPadded 4 bits.toNat ++ ")" ++ " " ++
        String.intercalate ", " names) :=
    append_iff.mpr ⟨append_iff.mpr ⟨hnumber, by decide⟩, intercalate (by decide) h⟩
  have hall : ∀ name ∈ (context.flags.filter fun flag => Access.hasFlag bits flag.bit).map
      ("ACC_" ++ ·.name) ++ ["0x" ++ Text.hexPadded 4 (Access.unknownBits context bits).toNat],
      OneLine name :=
    List.forall_mem_append.mpr ⟨hknown, List.forall_mem_singleton.mpr hunknown⟩
  unfold Access.describe
  dsimp only
  repeat' split
  · exact hnumber
  · exact hjoin hknown
  · exact hnumber
  · exact hjoin hall

theorem visibility (bits : UInt16) : ∀ word ∈ Access.visibility bits, OneLine word := by
  unfold Access.visibility
  repeat' split
  all_goals decide

theorem keywords {table : List (UInt16 × String)} (h : ∀ row ∈ table, OneLine row.2)
    (bits : UInt16) : ∀ word ∈ Access.keywords bits table, OneLine word := by
  simp only [Access.keywords, List.forall_mem_map]
  intro row hrow
  exact h row (List.mem_filter.mp hrow).1

theorem classModifiers (bits : UInt16) : ∀ word ∈ Access.classModifiers bits, OneLine word := by
  unfold Access.classModifiers
  repeat' split
  all_goals decide

theorem fieldModifiers (bits : UInt16) : ∀ word ∈ Access.fieldModifiers bits, OneLine word :=
  List.forall_mem_append.mpr ⟨visibility bits, keywords (by decide) bits⟩

theorem methodModifiers (bits : UInt16) : ∀ word ∈ Access.methodModifiers bits, OneLine word :=
  List.forall_mem_append.mpr ⟨visibility bits, keywords (by decide) bits⟩

end OneLine

end ClassListing.Text
