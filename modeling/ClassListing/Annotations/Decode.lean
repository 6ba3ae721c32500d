import ClassListing.Annotations
import ClassListing.Descriptor

/-!
# Decoding annotations

Names and constants are looked up while decoding. Values nest no deeper than
`maxAnnotationDepth`.
-/

namespace ClassListing

open Decoder

def maxAnnotationDepth : Nat := 64

/-- The source spelling of the field descriptor at a pool index. -/
def Pool.typeName (pool : Pool) (index : UInt16) : Except Error String := do
  return (← FieldType.parse (← pool.utf8 index)).text

/-- The type of a class literal, which may also be `void`. -/
def Pool.literalType (pool : Pool) (index : UInt16) : Except Error String := do
  let descriptor ← pool.utf8 index
  if descriptor = "V" then return "void" else return (← FieldType.parse descriptor).text

/-- The character with the given code, or U+FFFD if there is none. -/
def charOfCode (code : Int32) : Char :=
  if 0 ≤ code.toInt ∧ code.toInt.toNat.isValidChar then Char.ofNat code.toInt.toNat
  else Text.replacement

/-- A value that holds no other, by its tag; `none` for any other tag. -/
def ElementValue.decodeScalar? (pool : Pool) (tag : Char) : Option (Decoder ElementValue) :=
  match tag with
  | 'B' => some (return .byte (← reference pool.integer).toInt8)
  | 'C' => some (return .char (charOfCode (← reference pool.integer)))
  | 'D' => some (return .double (← reference pool.double))
  | 'F' => some (return .float (← reference pool.float))
  | 'I' => some (return .int (← reference pool.integer))
  | 'J' => some (return .long (← reference pool.long))
  | 'S' => some (return .short (← reference pool.integer).toInt16)
  | 'Z' => some (return .boolean ((← reference pool.integer) != 0))
  | 's' => some (return .string (← reference pool.utf8))
  | 'e' => some (return .enumConstant (← reference pool.typeName) (← reference pool.utf8))
  | 'c' => some (return .classLiteral (← reference pool.literalType))
  | _ => none

mutual

/-- An annotation below which `budget` more levels may be entered. -/
def AnnotationUse.decodeWithin (pool : Pool) (budget : Nat) : Decoder AnnotationUse :=
  match budget with
  | 0 => throw (.tooDeep maxAnnotationDepth)
  | budget + 1 => do
      let typeName ← reference pool.typeName
      let elements ← countedU2 do
        let name ← reference pool.utf8
        return (name, ← ElementValue.decodeWithin pool budget)
      return ⟨typeName, elements⟩

def ElementValue.decodeWithin (pool : Pool) (budget : Nat) : Decoder ElementValue :=
  match budget with
  | 0 => throw (.tooDeep maxAnnotationDepth)
  | budget + 1 => do
      let tag ← u1
      match Char.ofNat tag.toNat with
      | '@' => return .nested (← AnnotationUse.decodeWithin pool budget)
      | '[' => return .array (← countedU2 (ElementValue.decodeWithin pool budget))
      | char =>
          match ElementValue.decodeScalar? pool char with
          | some decoder => decoder
          | none => throw (.format (.elementTag tag))

end

def AnnotationUse.decode (pool : Pool) : Decoder AnnotationUse :=
  AnnotationUse.decodeWithin pool (maxAnnotationDepth + 1)

def ElementValue.decode (pool : Pool) : Decoder ElementValue :=
  ElementValue.decodeWithin pool (maxAnnotationDepth + 1)

def AnnotationUse.decodeList (pool : Pool) : Decoder (List AnnotationUse) :=
  countedU2 (AnnotationUse.decode pool)

def AnnotationUse.decodeParameters (pool : Pool) : Decoder (List (List AnnotationUse)) :=
  countedU1 (AnnotationUse.decodeList pool)

def VariableRange.decode : Decoder VariableRange := return ⟨← u2, ← u2, ← u2⟩

def TypeTarget.decode (type : UInt8) : Decoder TypeTarget := do
  if type ≤ 0x01 then return .typeParameter (← u1)
  else if type = 0x10 then return .supertype (← u2)
  else if type = 0x11 || type = 0x12 then return .typeParameterBound (← u1) (← u1)
  else if 0x13 ≤ type && type ≤ 0x15 then return .empty
  else if type = 0x16 then return .formalParameter (← u1)
  else if type = 0x17 then return .throws (← u2)
  else if type = 0x40 || type = 0x41 then
    return .localVariable (← countedU2 VariableRange.decode)
  else if type = 0x42 then return .handler (← u2)
  else if 0x43 ≤ type && type ≤ 0x46 then return .instruction (← u2)
  else if 0x47 ≤ type && type ≤ 0x4B then return .typeArgument (← u2) (← u1)
  else throw (.format (.annotationTarget type))

def TypeAnnotationUse.decode (pool : Pool) : Decoder TypeAnnotationUse := do
  let targetType ← u1
  let target ← TypeTarget.decode targetType
  let path ← countedU1 (return ⟨← u1, ← u1⟩)
  let body ← AnnotationUse.decode pool
  return ⟨targetType, target, path, body⟩

def TypeAnnotationUse.decodeList (pool : Pool) : Decoder (List TypeAnnotationUse) :=
  countedU2 (TypeAnnotationUse.decode pool)

end ClassListing
