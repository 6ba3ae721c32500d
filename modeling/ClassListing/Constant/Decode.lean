import ClassListing.Constant.Pool
import ClassListing.Cursor

/-!
# Decoding a constant pool

A two-byte slot count, then one tagged constant after another until every slot is taken.
-/

namespace ClassListing

open Constant Decoder

def Constant.decodeFields (index : Nat) (tag : UInt8) : Decoder Constant :=
  match tag.toNat with
  | 1 => return .utf8 (← text (← u2).toNat)
  | 3 => return .integer (← i4)
  | 4 => return .float (← u4)
  | 5 => return .long (← i8)
  | 6 => return .double (← u8)
  | 7 => return .classInfo (← u2)
  | 8 => return .string (← u2)
  | 9 => return .fieldRef (← u2) (← u2)
  | 10 => return .methodRef (← u2) (← u2)
  | 11 => return .interfaceMethodRef (← u2) (← u2)
  | 12 => return .nameAndType (← u2) (← u2)
  | 15 => do
      let kind ← u1
      match HandleKind.ofCode? kind with
      | some access => return .methodHandle access (← u2)
      | none => throw (.format (.handleKind kind index))
  | 16 => return .methodType (← u2)
  | 17 => return .dynamic (← u2) (← u2)
  | 18 => return .invokeDynamic (← u2) (← u2)
  | 19 => return .moduleInfo (← u2)
  | 20 => return .packageInfo (← u2)
  | _ => throw (.format (.unknownTag tag index))

def Constant.decode (index : Nat) : Decoder Constant := do
  decodeFields index (← u1)

namespace Pool

/-- Fills the `count` slots that follow `slots`. -/
def decodeSlots (slots : Array (Option Constant)) : Nat → Decoder (Array (Option Constant))
  | 0 => pure slots
  | 1 => do
      let constant ← Constant.decode slots.size
      if constant.isWide then throw (.format (.wideInLastSlot slots.size))
      else pure (slots.push constant)
  | count + 2 => do
      let constant ← Constant.decode slots.size
      if constant.isWide then decodeSlots ((slots.push constant).push none) count
      else decodeSlots (slots.push constant) (count + 1)

def decode : Decoder Pool := do
  let count ← u2
  if count = 0 then throw (.format .emptyPool)
  return ⟨← decodeSlots #[none] (count.toNat - 1), []⟩

end Pool

end ClassListing
