import ClassListing.Descriptor
import ClassListing.Proofs.Traversal
import Mathlib.Data.List.Basic

/-!
# The texts that are accepted as descriptors

Every type has one spelling. A class type is read up to its semicolon, and then as many characters
more are lost as its name has bytes beyond its characters. Where all names are ASCII nothing is
lost, and a text is accepted exactly if it is the spelling of the result.
-/

namespace ClassListing

namespace Primitive

def letter : Primitive → Char
  | .byte => 'B'
  | .char => 'C'
  | .double => 'D'
  | .float => 'F'
  | .int => 'I'
  | .long => 'J'
  | .short => 'S'
  | .boolean => 'Z'

theorem ofLetter?_eq_some_iff {char : Char} {primitive : Primitive} :
    ofLetter? char = some primitive ↔ char = primitive.letter := by
  constructor
  · intro h
    unfold ofLetter? at h
    split at h <;> cases h <;> rfl
  · rintro rfl
    cases primitive <;> rfl

/-- No primitive type starts like a class, an array, the end of a parameter list or `void`. -/
theorem letter_not_mem (primitive : Primitive) : primitive.letter ∉ ['L', '[', ')', 'V'] := by
  cases primitive <;> decide

end Primitive

namespace FieldType

def encode : FieldType → List Char
  | .primitive type => [type.letter]
  | .object name => 'L' :: (name.toList ++ [';'])
  | .array component => '[' :: component.encode

def descriptor (type : FieldType) : String := String.ofList type.encode

/-- The type has a spelling that the format allows. -/
def Valid (type : FieldType) : Prop :=
  type.dimensions ≤ 255 ∧ ∀ name ∈ type.className?, name ≠ "" ∧ ';' ∉ name.toList

instance : DecidablePred Valid := fun _ => inferInstanceAs (Decidable (_ ∧ _))

/-- How many characters behind the spelling are consumed with it. -/
def overrun : FieldType → Nat
  | .primitive _ => 0
  | .object name => name.utf8ByteSize - name.length
  | .array component => component.overrun

/-- Every character of a class name takes one byte. -/
def Ascii (type : FieldType) : Prop :=
  ∀ name ∈ type.className?, ∀ char ∈ name.toList, char.val ≤ 127

instance : DecidablePred Ascii := fun _ => inferInstanceAs (Decidable (∀ _ ∈ _, _))

/-! ## Bytes and characters of a name -/

theorem utf8ByteSize_cons (char : Char) (chars : List Char) :
    (String.ofList (char :: chars)).utf8ByteSize =
      char.utf8Size + (String.ofList chars).utf8ByteSize := by
  have hsplit : String.ofList (char :: chars) = String.singleton char ++ String.ofList chars := by
    rw [String.singleton_eq_ofList, ← String.ofList_append]
    rfl
  rw [hsplit, String.utf8ByteSize_append, String.utf8ByteSize_singleton]

theorem length_le_utf8ByteSize (chars : List Char) :
    chars.length ≤ (String.ofList chars).utf8ByteSize := by
  induction chars with
  | nil => simp
  | cons char chars ih =>
      have hpos := char.utf8Size_pos
      rw [utf8ByteSize_cons, List.length_cons]
      omega

theorem utf8ByteSize_le_length_iff (chars : List Char) :
    (String.ofList chars).utf8ByteSize ≤ chars.length ↔ ∀ char ∈ chars, char.val ≤ 127 := by
  induction chars with
  | nil => simp
  | cons char chars ih =>
      have hpos := char.utf8Size_pos
      have hle := length_le_utf8ByteSize chars
      rw [utf8ByteSize_cons, List.length_cons, List.forall_mem_cons, ← ih,
        ← Char.utf8Size_eq_one_iff]
      omega

theorem overrun_eq_zero_iff (type : FieldType) : type.overrun = 0 ↔ type.Ascii := by
  induction type with
  | primitive type => simp [overrun, Ascii, className?]
  | object name =>
      have hiff := utf8ByteSize_le_length_iff name.toList
      rw [String.ofList_toList, String.length_toList] at hiff
      simpa [overrun, Ascii, className?, Nat.sub_eq_zero_iff_le] using hiff
  | array component ih => exact ih

/-! ## Arrays -/

section ArrayOf

variable (count : Nat) (type : FieldType)

@[simp] theorem encode_arrayOf :
    (arrayOf count type).encode = List.replicate count '[' ++ type.encode := by
  induction count with
  | zero => rfl
  | succ count ih => rw [arrayOf, encode, ih, List.replicate_succ, List.cons_append]

@[simp] theorem dimensions_arrayOf : (arrayOf count type).dimensions = count + type.dimensions := by
  induction count with
  | zero => rw [arrayOf, Nat.zero_add]
  | succ count ih =>
      rw [arrayOf, dimensions, ih]
      omega

@[simp] theorem className?_arrayOf : (arrayOf count type).className? = type.className? := by
  induction count with
  | zero => rfl
  | succ count ih => rw [arrayOf, className?, ih]

@[simp] theorem overrun_arrayOf : (arrayOf count type).overrun = type.overrun := by
  induction count with
  | zero => rfl
  | succ count ih => rw [arrayOf, overrun, ih]

end ArrayOf

theorem valid_arrayOf_iff {count : Nat} {component : FieldType} (h : component.dimensions = 0) :
    (arrayOf count component).Valid ↔ count ≤ 255 ∧ component.Valid := by
  simp [Valid, h]

/-- Every type is some number of brackets around a type that is no array. -/
theorem exists_arrayOf (type : FieldType) :
    ∃ component : FieldType, component.dimensions = 0 ∧
      type = arrayOf type.dimensions component := by
  induction type with
  | primitive type => exact ⟨.primitive type, rfl, rfl⟩
  | object name => exact ⟨.object name, rfl, rfl⟩
  | array inner ih =>
      obtain ⟨component, hc, hinner⟩ := ih
      exact ⟨component, hc, congrArg FieldType.array hinner⟩

/-! ## Reading one type -/

theorem readObject_of_not_mem {chars : List Char} (h : ';' ∉ chars) :
    readObject chars = .error .unterminatedClass := by
  simp [readObject, h]

/-- The name is all that stands before the semicolon. -/
theorem readObject_append {name after : List Char} (h : ';' ∉ name) :
    readObject (name ++ ';' :: after) =
      if name = [] then .error .emptyClass
      else .ok (.object (.ofList name), after.drop (FieldType.object (.ofList name)).overrun) := by
  have htake : (name ++ ';' :: after).takeWhile (· != ';') = name := by
    rw [List.takeWhile_append_of_pos]
    · simp
    · intro char hm
      have hne : char ≠ ';' := fun heq => h (heq ▸ hm)
      simpa using hne
  have hle := length_le_utf8ByteSize name
  have hdrop : (name ++ ';' :: after).drop ((String.ofList name).utf8ByteSize + 1) =
      after.drop (FieldType.object (.ofList name)).overrun := by
    have hsize : (String.ofList name).utf8ByteSize + 1 =
        (name ++ [';']).length + (FieldType.object (.ofList name)).overrun := by
      simp only [overrun, String.length_ofList, List.length_append, List.length_singleton]
      omega
    rw [hsize, List.append_cons name ';' after, ← List.drop_drop, List.drop_left]
  by_cases hn : name = []
  · simp [readObject, hn]
  · simp [readObject, htake, hn, hdrop]

theorem readObject_eq_ok_iff {chars rest : List Char} {type : FieldType} :
    readObject chars = .ok (type, rest) ↔
      ∃ name after, type = .object name ∧ name ≠ "" ∧ ';' ∉ name.toList ∧
        chars = name.toList ++ ';' :: after ∧ rest = after.drop type.overrun := by
  constructor
  · intro h
    by_cases hm : ';' ∈ chars
    · obtain ⟨name, after, rfl, hn⟩ := List.eq_append_cons_of_mem hm
      rw [readObject_append hn] at h
      by_cases he : name = []
      · rw [if_pos he] at h
        cases h
      · rw [if_neg he] at h
        cases h
        have hne : String.ofList name ≠ "" := by simpa using he
        exact ⟨.ofList name, after, rfl, hne, by simpa using hn, by simp, rfl⟩
    · rw [readObject_of_not_mem hm] at h
      cases h
  · intro h
    rcases h with ⟨name, after, rfl, hne, hn, rfl, rfl⟩
    have he : name.toList ≠ [] := by simpa using hne
    rw [readObject_append hn, if_neg he, String.ofList_toList]

theorem readComponent_letter (type : Primitive) (rest : List Char) :
    readComponent (type.letter :: rest) = .ok (.primitive type, rest) := by
  have hclass : type.letter ≠ 'L' := by
    intro h
    exact type.letter_not_mem (by simp [h])
  rw [readComponent]
  · rw [Primitive.ofLetter?_eq_some_iff.mpr rfl]
  · exact hclass

theorem readComponent_eq_ok_iff {chars rest : List Char} {type : FieldType} :
    readComponent chars = .ok (type, rest) ↔ type.dimensions = 0 ∧ type.Valid ∧
      ∃ after, chars = type.encode ++ after ∧ rest = after.drop type.overrun := by
  constructor
  · intro h
    unfold readComponent at h
    split at h
    · cases h
    · obtain ⟨name, after, rfl, hne, hn, rfl, rfl⟩ := readObject_eq_ok_iff.mp h
      have hvalid : (FieldType.object name).Valid := by
        simp [Valid, dimensions, className?, hne, hn]
      exact ⟨rfl, hvalid, after, by simp [encode], rfl⟩
    · split at h
      · rename_i hletter
        cases h
        have hvalid (type : Primitive) : (FieldType.primitive type).Valid := by
          simp [Valid, dimensions, className?]
        exact ⟨rfl, hvalid _, _, by rw [Primitive.ofLetter?_eq_some_iff.mp hletter]; rfl, rfl⟩
      · cases h
  · intro h
    rcases h with ⟨hd, hvalid, after, rfl, rfl⟩
    cases type with
    | primitive type => exact readComponent_letter type after
    | object name =>
        obtain ⟨hne, hn⟩ := hvalid.2 name rfl
        exact readObject_eq_ok_iff.mpr ⟨name, after, rfl, hne, hn, by simp, rfl⟩
    | array component => cases hd

/-- A type starts neither like the end of a parameter list nor like `void`, and only an array
starts with a bracket. -/
theorem head_encode (type : FieldType) :
    ∃ first more, type.encode = first :: more ∧ first ≠ ')' ∧ first ≠ 'V' ∧
      (type.dimensions = 0 → first ≠ '[') := by
  cases type with
  | primitive type =>
      have hfirst := type.letter_not_mem
      simp only [List.mem_cons, List.not_mem_nil, or_false, not_or] at hfirst
      obtain ⟨-, hbracket, hclose, hvoid⟩ := hfirst
      exact ⟨type.letter, [], rfl, hclose, hvoid, fun _ => hbracket⟩
  | object name => exact ⟨'L', _, rfl, by decide, by decide, fun _ => by decide⟩
  | array component => exact ⟨'[', _, rfl, by decide, by decide, nofun⟩

theorem exists_brackets (chars : List Char) :
    ∃ count more, chars = List.replicate count '[' ++ more ∧ more.head? ≠ some '[' := by
  induction chars with
  | nil => exact ⟨0, [], rfl, nofun⟩
  | cons first chars ih =>
      by_cases hf : first = '['
      · obtain ⟨count, more, rfl, hmore⟩ := ih
        exact ⟨count + 1, more, by rw [hf, List.replicate_succ, List.cons_append], hmore⟩
      · exact ⟨0, first :: chars, rfl, by simpa using hf⟩

/-- The brackets in front are counted, and what follows them is read on its own. -/
theorem read_replicate {count : Nat} {chars : List Char} (h : chars.head? ≠ some '[') :
    read (List.replicate count '[' ++ chars) =
      if 255 < count then .error .dimensions
      else (readComponent chars).map fun found => (arrayOf count found.1, found.2) := by
  have hstop : chars.takeWhile (· == '[') = [] := by
    cases chars with
    | nil => rfl
    | cons first more =>
        have hne : first ≠ '[' := by simpa using h
        simp [hne]
  have hcount : ((List.replicate count '[' ++ chars).takeWhile (· == '[')).length = count := by
    rw [List.takeWhile_append_of_pos (by simp), hstop, List.append_nil, List.length_replicate]
  have hdrop : (List.replicate count '[' ++ chars).drop count = chars := by
    rw [List.drop_left' List.length_replicate]
  simp only [read, hcount, hdrop, maxDimensions]
  by_cases hc : 255 < count
  · simp only [if_pos hc]
    rfl
  · simp only [if_neg hc]
    cases readComponent chars <;> rfl

/-- A type is read from its spelling, and what it loses of the characters behind is gone. -/
theorem read_eq_ok_iff {chars rest : List Char} {type : FieldType} :
    read chars = .ok (type, rest) ↔ type.Valid ∧
      ∃ after, chars = type.encode ++ after ∧ rest = after.drop type.overrun := by
  constructor
  · intro h
    obtain ⟨count, more, rfl, hmore⟩ := exists_brackets chars
    rw [read_replicate hmore] at h
    by_cases hc : 255 < count
    · rw [if_pos hc] at h
      cases h
    · rw [if_neg hc] at h
      cases hr : readComponent more with
      | error fault =>
          rw [hr] at h
          cases h
      | ok found =>
          rw [hr] at h
          cases h
          obtain ⟨hd, hvalid, after, rfl, hrest⟩ := readComponent_eq_ok_iff.mp hr
          refine ⟨(valid_arrayOf_iff hd).mpr ⟨Nat.le_of_not_gt hc, hvalid⟩, after, ?_, ?_⟩
          · rw [encode_arrayOf, List.append_assoc]
          · rw [overrun_arrayOf, hrest]
  · intro h
    rcases h with ⟨hvalid, after, rfl, rfl⟩
    obtain ⟨component, hd, htype⟩ := exists_arrayOf type
    obtain ⟨first, more, hencode, -, -, hfirst⟩ := head_encode component
    have hhead : (component.encode ++ after).head? ≠ some '[' := by
      rw [hencode]
      simpa using hfirst hd
    rw [htype, valid_arrayOf_iff hd] at hvalid
    have hread := readComponent_eq_ok_iff.mpr ⟨hd, hvalid.2, after, rfl, rfl⟩
    rw [htype, encode_arrayOf, overrun_arrayOf, List.append_assoc, read_replicate hhead,
      if_neg (Nat.not_lt.mpr hvalid.1), hread]
    rfl

theorem parseChars_eq_ok_iff {chars : List Char} {type : FieldType} :
    parseChars chars = .ok type ↔ type.Valid ∧
      ∃ lost, chars = type.encode ++ lost ∧ lost.length ≤ type.overrun := by
  constructor
  · intro h
    obtain ⟨⟨found, rest⟩, hread, hend⟩ := bind_eq_ok_iff.mp h
    by_cases hr : rest.isEmpty
    · simp only [hr, if_true] at hend
      cases hend
      obtain ⟨hvalid, lost, rfl, rfl⟩ := read_eq_ok_iff.mp hread
      exact ⟨hvalid, lost, rfl, by simpa using hr⟩
    · simp only [hr] at hend
      cases hend
  · intro h
    rcases h with ⟨hvalid, lost, rfl, hl⟩
    refine bind_eq_ok_iff.mpr ⟨(type, []), ?_, rfl⟩
    exact read_eq_ok_iff.mpr ⟨hvalid, lost, rfl, (List.drop_eq_nil_of_le hl).symm⟩

theorem parseChars_eq_ok_iff_of_ascii {chars : List Char} {type : FieldType} (h : type.Ascii) :
    parseChars chars = .ok type ↔ type.Valid ∧ chars = type.encode := by
  have hnone : type.overrun = 0 := (overrun_eq_zero_iff type).mpr h
  rw [parseChars_eq_ok_iff]
  simp [hnone]

end FieldType

namespace MethodType

open FieldType

def types (type : MethodType) : List FieldType := type.parameters ++ type.result.toList

def Valid (type : MethodType) : Prop := ∀ part ∈ type.types, part.Valid

instance : DecidablePred Valid := fun _ => inferInstanceAs (Decidable (∀ _ ∈ _, _))

def Ascii (type : MethodType) : Prop := ∀ part ∈ type.types, part.Ascii

instance : DecidablePred Ascii := fun _ => inferInstanceAs (Decidable (∀ _ ∈ _, _))

def encodeResult : Option FieldType → List Char
  | some type => type.encode
  | none => ['V']

def encode (type : MethodType) : List Char :=
  '(' :: (type.parameters.flatMap FieldType.encode ++ ')' :: encodeResult type.result)

def descriptor (type : MethodType) : String := String.ofList type.encode

/-- The spellings of the types in a row, each with the characters behind it that are lost. -/
def Spelled : List FieldType → List Char → Prop
  | [], used => used = []
  | type :: types, used => ∃ lost more, used = type.encode ++ (lost ++ more) ∧
      lost.length = type.overrun ∧ Spelled types more

theorem spelled_iff_of_ascii {types : List FieldType} (h : ∀ type ∈ types, type.Ascii)
    {used : List Char} : Spelled types used ↔ used = types.flatMap FieldType.encode := by
  induction types generalizing used with
  | nil => rfl
  | cons type types ih =>
      obtain ⟨htype, htypes⟩ := List.forall_mem_cons.mp h
      have hnone : type.overrun = 0 := (overrun_eq_zero_iff type).mpr htype
      simp [Spelled, hnone, ih htypes]

/-! ## Reading parameters -/

theorem readParameters_close (fuel : Nat) (rest : List Char) (types : List FieldType) :
    readParameters fuel (')' :: rest) types = .ok (types.reverse, rest) := by
  cases fuel <;> rfl

theorem readParameters_next {fuel : Nat} {first : Char} {more : List Char} {types : List FieldType}
    (h : first ≠ ')') :
    readParameters (fuel + 1) (first :: more) types = (do
      let (type, rest) ← FieldType.read (first :: more)
      readParameters fuel rest (type :: types)) := by
  rw [readParameters]
  · nofun
  · intro rest hcons
    exact h (List.cons.inj hcons).1

/-- Where something is left, exactly `count` characters were lost before it. -/
theorem exists_lost {after rest : List Char} {count : Nat} (h : after.drop count = rest)
    (hne : rest ≠ []) : ∃ lost, after = lost ++ rest ∧ lost.length = count := by
  have hlong : count < after.length := by
    rw [← h] at hne
    simpa using hne
  refine ⟨after.take count, ?_, ?_⟩
  · rw [← h, List.take_append_drop]
  · rw [List.length_take]
    omega

theorem spelled_of_readParameters {fuel : Nat} {chars rest : List Char}
    {before found : List FieldType} (h : readParameters fuel chars before = .ok (found, rest)) :
    ∃ types used, found = before.reverse ++ types ∧ (∀ type ∈ types, type.Valid) ∧
      Spelled types used ∧ chars = used ++ ')' :: rest := by
  fun_induction readParameters fuel chars before with
  | case1 fuel before => cases h
  | case2 fuel more before =>
      cases h
      exact ⟨[], [], by simp, nofun, rfl, rfl⟩
  | case3 chars before => cases h
  | case4 fuel chars before hne hopen ih =>
      obtain ⟨⟨type, middle⟩, hread, hmore⟩ := bind_eq_ok_iff.mp h
      obtain ⟨types, used, rfl, hvalid, hspelled, hmiddle⟩ := ih type middle hmore
      obtain ⟨htype, after, rfl, hdrop⟩ := read_eq_ok_iff.mp hread
      -- The end of the list is still to come, so all that can be lost behind the type was there.
      obtain ⟨lost, rfl, hlost⟩ := exists_lost (hdrop.symm.trans hmiddle) (by simp)
      exact ⟨type :: types, type.encode ++ (lost ++ used), by simp,
        List.forall_mem_cons.mpr ⟨htype, hvalid⟩, ⟨lost, used, rfl, hlost, hspelled⟩, by simp⟩

theorem readParameters_of_spelled {types : List FieldType} (hvalid : ∀ type ∈ types, type.Valid)
    {used : List Char} (hspelled : Spelled types used) (rest : List Char)
    (before : List FieldType) {fuel : Nat} (hf : types.length ≤ fuel) :
    readParameters fuel (used ++ ')' :: rest) before = .ok (before.reverse ++ types, rest) := by
  induction types generalizing used before fuel with
  | nil =>
      cases hspelled
      rw [List.nil_append, readParameters_close, List.append_nil]
  | cons type types ih =>
      obtain ⟨lost, more, rfl, hlost, hmore⟩ := hspelled
      obtain ⟨htype, htypes⟩ := List.forall_mem_cons.mp hvalid
      obtain ⟨first, tail, hencode, hfirst, -⟩ := head_encode type
      cases fuel with
      | zero => cases hf
      | succ fuel =>
          have hread : FieldType.read (type.encode ++ (lost ++ more) ++ ')' :: rest) =
              .ok (type, more ++ ')' :: rest) := by
            refine read_eq_ok_iff.mpr ⟨htype, lost ++ (more ++ ')' :: rest), by simp, ?_⟩
            rw [← hlost, List.drop_left]
          rw [hencode] at hread ⊢
          rw [List.cons_append, List.cons_append] at hread ⊢
          rw [readParameters_next hfirst, hread]
          have hrest := ih htypes hmore (type :: before) (Nat.le_of_succ_le_succ hf)
          rw [List.reverse_cons, List.append_assoc] at hrest
          exact hrest

theorem Spelled.length_le {types : List FieldType} {used : List Char} (h : Spelled types used) :
    types.length ≤ used.length := by
  induction types generalizing used with
  | nil => exact Nat.zero_le _
  | cons type types ih =>
      obtain ⟨lost, more, rfl, -, hmore⟩ := h
      obtain ⟨first, tail, hencode, -⟩ := head_encode type
      have hle := ih hmore
      simp only [hencode, List.length_cons, List.length_append]
      omega

/-! ## Method types -/

/-- How many characters the result type may lose at the end. -/
def resultOverrun : Option FieldType → Nat
  | some type => type.overrun
  | none => 0

theorem readResult_eq_ok_iff {chars rest : List Char} {result : Option FieldType} :
    readResult chars = .ok (result, rest) ↔ (∀ type ∈ result, type.Valid) ∧
      ∃ after, chars = encodeResult result ++ after ∧ rest = after.drop (resultOverrun result) := by
  constructor
  · intro h
    unfold readResult at h
    split at h
    · cases h
      exact ⟨nofun, rest, rfl, rfl⟩
    · obtain ⟨⟨type, middle⟩, hread, hpure⟩ := bind_eq_ok_iff.mp h
      cases hpure
      obtain ⟨hvalid, hafter⟩ := read_eq_ok_iff.mp hread
      exact ⟨by simpa using hvalid, hafter⟩
  · intro h
    rcases h with ⟨hvalid, after, rfl, rfl⟩
    cases result with
    | none => rfl
    | some type =>
        obtain ⟨first, more, hencode, -, hfirst, -⟩ := head_encode type
        have hread : FieldType.read (type.encode ++ after) = .ok (type, after.drop type.overrun) :=
          read_eq_ok_iff.mpr ⟨hvalid type rfl, after, rfl, rfl⟩
        rw [encodeResult, readResult, hread]
        · rfl
        · intro rest hv
          rw [hencode] at hv
          exact hfirst (List.cons.inj hv).1

theorem valid_iff {parameters : List FieldType} {result : Option FieldType} :
    Valid ⟨parameters, result⟩ ↔
      (∀ type ∈ parameters, type.Valid) ∧ ∀ type ∈ result, type.Valid := by
  simp [Valid, types, or_imp, forall_and]

theorem parseChars_eq_ok_iff {chars : List Char} {type : MethodType} :
    parseChars chars = .ok type ↔ type.Valid ∧
      ∃ used lost, Spelled type.parameters used ∧ lost.length ≤ resultOverrun type.result ∧
        chars = '(' :: (used ++ ')' :: (encodeResult type.result ++ lost)) := by
  constructor
  · intro h
    unfold parseChars at h
    split at h
    · obtain ⟨⟨parameters, middle⟩, hparameters, h⟩ := bind_eq_ok_iff.mp h
      obtain ⟨⟨result, rest⟩, hresult, hend⟩ := bind_eq_ok_iff.mp h
      by_cases hr : rest.isEmpty
      · simp only [hr, if_true] at hend
        cases hend
        obtain ⟨types, used, rfl, htypes, hspelled, rfl⟩ := spelled_of_readParameters hparameters
        obtain ⟨hvalid, lost, rfl, rfl⟩ := readResult_eq_ok_iff.mp hresult
        exact ⟨valid_iff.mpr ⟨htypes, hvalid⟩, used, lost, hspelled, by simpa using hr, rfl⟩
      · simp only [hr] at hend
        cases hend
    · cases h
  · intro h
    rcases h with ⟨hvalid, used, lost, hspelled, hlost, rfl⟩
    obtain ⟨htypes, hresult⟩ := valid_iff.mp hvalid
    have hfuel : type.parameters.length ≤
        (used ++ ')' :: (encodeResult type.result ++ lost)).length := by
      have hle := hspelled.length_le
      rw [List.length_append]
      omega
    have hparameters := readParameters_of_spelled htypes hspelled
      (encodeResult type.result ++ lost) [] hfuel
    have hread : readResult (encodeResult type.result ++ lost) = .ok (type.result, []) :=
      readResult_eq_ok_iff.mpr ⟨hresult, lost, rfl, (List.drop_eq_nil_of_le hlost).symm⟩
    exact bind_eq_ok_iff.mpr ⟨_, hparameters, bind_eq_ok_iff.mpr ⟨_, hread, rfl⟩⟩

theorem parseChars_eq_ok_iff_of_ascii {chars : List Char} {type : MethodType} (h : type.Ascii) :
    parseChars chars = .ok type ↔ type.Valid ∧ chars = type.encode := by
  have hparameters : ∀ part ∈ type.parameters, part.Ascii := by
    intro part hm
    exact h part (List.mem_append_left _ hm)
  have hnone : resultOverrun type.result = 0 := by
    cases hr : type.result with
    | none => rfl
    | some result => exact (overrun_eq_zero_iff result).mpr (h result (by simp [types, hr]))
  rw [parseChars_eq_ok_iff]
  simp [hnone, spelled_iff_of_ascii hparameters, encode]

end MethodType

open FieldType MethodType

theorem ofDescriptor_eq_ok_iff {text : String} {parse : List Char → Except DescriptorFault α}
    {value : α} : ofDescriptor text parse = .ok value ↔ parse text.toList = .ok value := by
  unfold ofDescriptor
  cases parse text.toList <;> simp

/--
A method type is accepted from its spelling with some characters lost behind each class type, as
many as the name has bytes beyond its characters; at the end of the text also fewer. So is a field
type. Types whose names are ASCII are accepted from their spelling and from nothing else.
-/
theorem parse_accepts_spellings (text : String) :
    (∀ type : MethodType, MethodType.parse text = .ok type ↔ type.Valid ∧
      ∃ used lost, Spelled type.parameters used ∧ lost.length ≤ resultOverrun type.result ∧
        text.toList = '(' :: (used ++ ')' :: (encodeResult type.result ++ lost))) ∧
    (∀ type : FieldType, FieldType.parse text = .ok type ↔ type.Valid ∧
      ∃ lost, text.toList = type.encode ++ lost ∧ lost.length ≤ type.overrun) ∧
    (∀ type : MethodType, type.Ascii →
      (MethodType.parse text = .ok type ↔ type.Valid ∧ text = type.descriptor)) ∧
    (∀ type : FieldType, type.Ascii →
      (FieldType.parse text = .ok type ↔ type.Valid ∧ text = type.descriptor)) := by
  have hspelling (chars : List Char) : text = String.ofList chars ↔ text.toList = chars := by
    rw [← String.toList_inj, String.toList_ofList]
  refine ⟨fun type => ?_, fun type => ?_, fun type h => ?_, fun type h => ?_⟩
  · rw [MethodType.parse, ofDescriptor_eq_ok_iff, MethodType.parseChars_eq_ok_iff]
  · rw [FieldType.parse, ofDescriptor_eq_ok_iff, FieldType.parseChars_eq_ok_iff]
  · rw [MethodType.parse, ofDescriptor_eq_ok_iff, MethodType.parseChars_eq_ok_iff_of_ascii h,
      MethodType.descriptor, hspelling]
  · rw [FieldType.parse, ofDescriptor_eq_ok_iff, FieldType.parseChars_eq_ok_iff_of_ascii h,
      FieldType.descriptor, hspelling]

/-- A method with one parameter, whose name takes two bytes for one character. -/
def accented : MethodType := ⟨[.object "é"], none⟩

/-- The parameter behind the class type is lost. Where none stands there the end of the list is. -/
theorem parse_loses_parameter :
    MethodType.parse "(Lé;I)V" = .ok accented ∧ "(Lé;I)V" ≠ accented.descriptor ∧
      accented.Valid ∧ "(Lé;)V" = accented.descriptor ∧
      MethodType.parse "(Lé;)V" = .error (.format (.descriptor (.unexpected 'V') "(Lé;)V")) ∧
      FieldType.parse "Lé;I" = .ok (.object "é") ∧ "Lé;I" ≠ (FieldType.object "é").descriptor := by
  decide +kernel

end ClassListing
