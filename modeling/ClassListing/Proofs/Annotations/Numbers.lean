import ClassListing.Proofs.Annotations.Depth
import ClassListing.Proofs.Listing.Bootstrap

/-!
# Numbers in annotations

A number that stands in an annotation is a constant, and it is written in the annotation as it is
written elsewhere: the same digits, the same suffix, the same word for what is not a number. The
infinities are the exception, since annotations abbreviate them.
-/

namespace ClassListing

open Decimal Decoder

/-! ## Infinite bit patterns -/

namespace Decimal

/-- A bit pattern is infinite if its exponent field is full and its fraction is zero. -/
theorem BinaryFormat.decode_infinite_iff (format : BinaryFormat) (bits : Nat) :
    (∃ negative, format.decode bits = .infinite negative) ↔
      bits / Nat.pow 2 format.fractionBits % Nat.pow 2 format.exponentBits + 1 =
          Nat.pow 2 format.exponentBits ∧
        bits % Nat.pow 2 format.fractionBits = 0 := by
  unfold BinaryFormat.decode
  dsimp only
  repeat' split
  all_goals simp_all

/-- Annotations and constants have the same word for what is not a number, and only the infinities
have two words. -/
theorem BinaryValue.text_eq_iff (value : BinaryValue) (suffix : String) :
    value.text elementWords ++ suffix = value.text Pool.constantWords ++ suffix ↔
      ¬∃ negative, value = .infinite negative := by
  cases value with
  | nan => exact ⟨fun _ => nofun, fun _ => rfl⟩
  | finite negative magnitude => exact ⟨fun _ => nofun, fun _ => rfl⟩
  | infinite negative =>
      constructor
      · intro h
        have hwords := (String.append_left_inj suffix).mp h
        cases negative <;> exact absurd hwords (by decide)
      · intro h
        exact (h ⟨negative, rfl⟩).elim

end Decimal

namespace Constant

def isInfinite : Constant → Bool
  | .float bits => bits.toNat % 2 ^ 31 == 0x7F800000
  | .double bits => bits.toNat % 2 ^ 63 == 0x7FF0000000000000
  | _ => false

theorem isInfinite_float_iff {bits : UInt32} : (Constant.float bits).isInfinite = true ↔
    ∃ negative, BinaryFormat.single.decode bits.toNat = .infinite negative := by
  rw [BinaryFormat.decode_infinite_iff, isInfinite, beq_iff_eq]
  show bits.toNat % 2147483648 = 2139095040 ↔
    bits.toNat / 8388608 % 256 + 1 = 256 ∧ bits.toNat % 8388608 = 0
  omega

theorem isInfinite_double_iff {bits : UInt64} : (Constant.double bits).isInfinite = true ↔
    ∃ negative, BinaryFormat.double.decode bits.toNat = .infinite negative := by
  rw [BinaryFormat.decode_infinite_iff, isInfinite, beq_iff_eq]
  show bits.toNat % 9223372036854775808 = 9218868437227405312 ↔
    bits.toNat / 4503599627370496 % 2048 + 1 = 2048 ∧ bits.toNat % 4503599627370496 = 0
  omega

def numberTag? : Constant → Option ElementValue.Scalar
  | .integer _ => some .int
  | .long _ => some .long
  | .float _ => some .float
  | .double _ => some .double
  | _ => none

end Constant

/-! ## Two spellings -/

structure SpelledAlike (constant : Constant) (inside outside : String) : Prop where
  same_iff : inside = outside ↔ constant.isInfinite = false
  infinite : constant.isInfinite = true → ∃ sign suffix,
    inside = sign ++ "inf" ++ suffix ∧ outside = sign ++ "Infinity" ++ suffix

namespace SpelledAlike

variable {constant : Constant}

theorem of_same (h : constant.isInfinite = false) (text : String) :
    SpelledAlike constant text text := by
  constructor
  · exact ⟨fun _ => h, fun _ => rfl⟩
  · intro hinfinite
    rw [h] at hinfinite
    cases hinfinite

theorem of_binary {value : BinaryValue}
    (h : constant.isInfinite = true ↔ ∃ negative, value = .infinite negative) (suffix : String) :
    SpelledAlike constant (value.text elementWords ++ suffix)
      (value.text Pool.constantWords ++ suffix) := by
  constructor
  · rw [value.text_eq_iff suffix, ← h, Bool.not_eq_true]
  · intro hinfinite
    obtain ⟨negative, rfl⟩ := h.mp hinfinite
    exact ⟨if negative then "-" else "", suffix, rfl, rfl⟩

end SpelledAlike

namespace ElementValue

variable {pool : Pool} {index : UInt16} {constant : Constant} {tag : Scalar}

theorem decode_scalar {value : ElementValue} (hget : pool.get index = .ok constant)
    (hvalue : tag.value? constant = some value) (pos : Nat) (rest : Bytes) :
    decode pool ⟨pos, tagByte tag.letter :: (Bytes.ofNat 2 index.toNat ++ rest)⟩ =
      .ok value ⟨pos + 3, rest⟩ := by
  have hdepth : value.depth < maxAnnotationDepth + 1 := by
    rw [Scalar.depth_of_value? hvalue]
    decide
  have hread := ((decodeWithin_admits pool (maxAnnotationDepth + 1)).2
    (.scalar hget hvalue)).value hdepth pos rest
  rw [Raw.encode, List.length_cons, Bytes.length_ofNat] at hread
  exact hread

/-- The value of a number under its own tag, and its two texts. -/
theorem exists_value (htag : constant.numberTag? = some tag)
    (argument : UInt16 → Except Error String) :
    ∃ value text, tag.value? constant = some value ∧
      pool.resolveConstant argument index constant = .ok text ∧
      SpelledAlike constant value.text text := by
  cases constant with
  | integer value =>
      cases htag
      exact ⟨.int value, _, rfl, rfl, .of_same rfl _⟩
  | long value =>
      cases htag
      exact ⟨.long value, _, rfl, rfl, .of_same rfl _⟩
  | float bits =>
      cases htag
      exact ⟨.float bits, _, rfl, rfl, .of_binary Constant.isInfinite_float_iff "f"⟩
  | double bits =>
      cases htag
      exact ⟨.double bits, _, rfl, rfl, .of_binary Constant.isInfinite_double_iff "d"⟩
  | _ => cases htag

/--
A number at any index of a pool is read under its own tag, it has a text as a constant, and the two
texts are the same exactly if it is not infinite. Of an infinity only the word differs.
-/
theorem text_eq_resolve_iff (hget : pool.get index = .ok constant)
    (htag : constant.numberTag? = some tag) (pos : Nat) (rest : Bytes) :
    ∃ value text,
      decode pool ⟨pos, tagByte tag.letter :: (Bytes.ofNat 2 index.toNat ++ rest)⟩ =
        .ok value ⟨pos + 3, rest⟩ ∧
      pool.resolve index = .ok text ∧
      (value.text = text ↔ constant.isInfinite = false) ∧
      (constant.isInfinite = true → ∃ sign suffix,
        value.text = sign ++ "inf" ++ suffix ∧ text = sign ++ "Infinity" ++ suffix) := by
  obtain ⟨value, text, hvalue, htext, hspelled⟩ :=
    exists_value htag (pool.resolveWithin 63 [index])
  refine ⟨value, text, decode_scalar hget hvalue pos rest, ?_, hspelled.same_iff,
    hspelled.infinite⟩
  rw [Pool.resolve_of_get hget, htext]

/-- A `Double` that is infinite, and a `Float` that is not a number. -/
def extremes : Pool :=
  ⟨#[none, some (.double 0x7FF0000000000000), none, some (.float 0xFFC00001)], []⟩

theorem text_eq_resolve_iff_extremes :
    ∃ value text, decode extremes ⟨0, tagByte 'F' :: (Bytes.ofNat 2 3 ++ [7])⟩ =
        .ok value ⟨3, [7]⟩ ∧
      extremes.resolve 3 = .ok text ∧ value.text = text := by
  obtain ⟨value, text, hvalue, htext, hsame, -⟩ :=
    text_eq_resolve_iff (show extremes.get 3 = .ok (.float 0xFFC00001) from rfl) rfl 0 [7]
  exact ⟨value, text, hvalue, htext, hsame.mpr rfl⟩

/-- The infinite one is abbreviated in an annotation and spelled out as a constant. -/
theorem text_ne_resolve_infinity :
    decode extremes ⟨0, [0x44, 0, 1]⟩ = .ok (.double 0x7FF0000000000000) ⟨3, []⟩ ∧
      (ElementValue.double 0x7FF0000000000000).text = "infd" ∧
      extremes.resolve 1 = .ok "Infinityd" := by
  refine ⟨?_, ?_, ?_⟩
  · rfl
  · rfl
  · rfl

end ElementValue

end ClassListing
