import ClassListing.Text
import Mathlib.Algebra.Group.Nat.Defs
import Mathlib.Data.List.Induction

/-!
# Writing numbers as bytes

Big-endian digits of a fixed width, and two's complement for numbers with a sign. What is
written at a width reads back modulo the numbers of that width, and every byte string is the
writing of the number that it spells.
-/

namespace ClassListing.Bytes

/-- The last `width` digits of `value`, the most significant first. -/
def ofNat : (width value : Nat) → Bytes
  | 0, _ => []
  | width + 1, value => ofNat width (value / 256) ++ [.ofNat value]

/-- Two's complement in `width` bytes. -/
def ofInt (width : Nat) (value : Int) : Bytes :=
  ofNat width (value % (256 ^ width : Nat)).toNat

def HoldsInt (width : Nat) (value : Int) : Prop :=
  -(256 ^ width : Nat) ≤ 2 * value ∧ 2 * value < (256 ^ width : Nat)

@[simp] theorem length_ofNat (width value : Nat) : (ofNat width value).length = width := by
  induction width generalizing value with
  | zero => rfl
  | succ width ih => simp [ofNat, ih]

@[simp] theorem length_ofInt (width : Nat) (value : Int) : (ofInt width value).length = width :=
  length_ofNat width _

theorem ofNat_one (value : Nat) : ofNat 1 value = [.ofNat value] := rfl

theorem toNat_concat (bytes : Bytes) (last : UInt8) :
    toNat (bytes ++ [last]) = toNat bytes * 256 + last.toNat := by
  simp only [toNat, List.foldl_append, List.foldl_cons, List.foldl_nil]

theorem toNat_lt (bytes : Bytes) : toNat bytes < 256 ^ bytes.length := by
  induction bytes using List.reverseRecOn with
  | nil => decide
  | append_singleton front last ih =>
      have hlast := last.toNat_lt
      rw [toNat_concat, List.length_append, List.length_singleton, Nat.pow_succ]
      omega

theorem toNat_ofNat (width value : Nat) : toNat (ofNat width value) = value % 256 ^ width := by
  induction width generalizing value with
  | zero => simp [ofNat, toNat, Nat.mod_one]
  | succ width ih =>
      have hsplit : value % 256 ^ (width + 1) =
          value % 256 + 256 * (value / 256 % 256 ^ width) := by
        rw [Nat.pow_succ, Nat.mul_comm, Nat.mod_mul]
      rw [ofNat, toNat_concat, ih, hsplit, UInt8.toNat_ofNat']
      omega

theorem toNat_ofNat_of_lt {width value : Nat} (h : value < 256 ^ width) :
    toNat (ofNat width value) = value := by
  rw [toNat_ofNat, Nat.mod_eq_of_lt h]

@[simp] theorem ofNat_toNat (bytes : Bytes) : ofNat bytes.length (toNat bytes) = bytes := by
  induction bytes using List.reverseRecOn with
  | nil => rfl
  | append_singleton front last ih =>
      have hlast := last.toNat_lt
      have hfront : (toNat front * 256 + last.toNat) / 256 = toNat front := by omega
      have hdigit : UInt8.ofNat (toNat front * 256 + last.toNat) = last := by
        apply UInt8.toNat_inj.mp
        rw [UInt8.toNat_ofNat']
        omega
      rw [List.length_append, List.length_singleton, ofNat, toNat_concat, hfront, hdigit, ih]

theorem ofNat_inj {width first second : Nat} (hf : first < 256 ^ width)
    (hs : second < 256 ^ width) (h : ofNat width first = ofNat width second) : first = second := by
  rw [← toNat_ofNat_of_lt hf, h, toNat_ofNat_of_lt hs]

/-! ## Signed words -/

theorem ofInt_natCast {width value : Nat} (h : value < 256 ^ width) :
    ofInt width value = ofNat width value := by
  rw [ofInt, ← Int.natCast_emod, Int.toNat_natCast, Nat.mod_eq_of_lt h]

theorem ofInt_bmod (width : Nat) (value : Int) :
    ofInt width (value.bmod (256 ^ width)) = ofInt width value := by
  rw [ofInt, Int.bmod_emod, ofInt]

/-- A number fits if it is that of a word, of whatever type the words of the width are. -/
theorem holdsInt_iff {width : Nat} (hwidth : 0 < width) {word : Type}
    (toBits : word → BitVec (8 * width)) (hbits : toBits.Surjective) {value : Int} :
    HoldsInt width value ↔ ∃ item, (toBits item).toInt = value := by
  have hbound : 256 ^ width = 2 * 2 ^ (8 * width - 1) := by
    have hexponent : 8 * width = 8 * width - 1 + 1 := by omega
    calc
      256 ^ width = 2 ^ (8 * width) := (Nat.pow_mul 2 8 width).symm
      _ = 2 ^ (8 * width - 1 + 1) := congrArg (2 ^ ·) hexponent
      _ = 2 * 2 ^ (8 * width - 1) := Nat.pow_succ'
  rw [HoldsInt, hbound]
  push_cast
  constructor
  · intro h
    rcases h with ⟨hl, hu⟩
    obtain ⟨item, hitem⟩ := hbits (.ofInt _ value)
    exact ⟨item, hitem ▸ BitVec.toInt_ofInt_eq_self (by omega) (by omega) (by omega)⟩
  · intro h
    rcases h with ⟨item, rfl⟩
    have hl := (toBits item).le_toInt
    have hu := (toBits item).toInt_lt
    omega

theorem holdsInt_one_iff {value : Int} : HoldsInt 1 value ↔ ∃ word : Int8, word.toInt = value :=
  holdsInt_iff Nat.one_pos Int8.toBitVec fun bits => ⟨.ofBitVec bits, rfl⟩

theorem holdsInt_two_iff {value : Int} : HoldsInt 2 value ↔ ∃ word : Int16, word.toInt = value :=
  holdsInt_iff Nat.two_pos Int16.toBitVec fun bits => ⟨.ofBitVec bits, rfl⟩

theorem holdsInt_four_iff {value : Int} : HoldsInt 4 value ↔ ∃ word : Int32, word.toInt = value :=
  holdsInt_iff (Nat.succ_pos 3) Int32.toBitVec fun bits => ⟨.ofBitVec bits, rfl⟩

theorem toInt_eq_bmod (width : Nat) (bits : BitVec (8 * width)) :
    bits.toInt = (bits.toNat : Int).bmod (256 ^ width) := by
  rw [BitVec.toInt_eq_toNat_bmod, Nat.pow_mul]

theorem ofInt_toInt (width : Nat) (bits : BitVec (8 * width)) :
    ofInt width bits.toInt = ofNat width bits.toNat := by
  have hlt : bits.toNat < 256 ^ width := Nat.pow_mul 2 8 width ▸ bits.isLt
  rw [toInt_eq_bmod, ofInt_bmod, ofInt_natCast hlt]

end ClassListing.Bytes
