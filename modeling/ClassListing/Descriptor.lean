import ClassListing.Error

/-!
# Descriptors

The compact spelling of field and method types, and the source spelling that a listing shows.
-/

namespace ClassListing

inductive Primitive
  | byte
  | char
  | double
  | float
  | int
  | long
  | short
  | boolean
deriving DecidableEq

namespace Primitive

def name : Primitive → String
  | .byte => "byte"
  | .char => "char"
  | .double => "double"
  | .float => "float"
  | .int => "int"
  | .long => "long"
  | .short => "short"
  | .boolean => "boolean"

def ofLetter? : Char → Option Primitive
  | 'B' => some .byte
  | 'C' => some .char
  | 'D' => some .double
  | 'F' => some .float
  | 'I' => some .int
  | 'J' => some .long
  | 'S' => some .short
  | 'Z' => some .boolean
  | _ => none

end Primitive

inductive FieldType
  | primitive (type : Primitive)
  | object (name : String)
  | array (component : FieldType)
deriving DecidableEq

/-- The source spelling of a class name: dots between the packages. -/
def sourceName (name : String) : String :=
  name.map fun char => if char = '/' then '.' else char

namespace FieldType

def text : FieldType → String
  | .primitive type => type.name
  | .object name => sourceName name
  | .array component => component.text ++ "[]"

def dimensions : FieldType → Nat
  | .array component => component.dimensions + 1
  | _ => 0

/-- The name of the innermost type, if it is a class. -/
def className? : FieldType → Option String
  | .primitive _ => none
  | .object name => some name
  | .array component => component.className?

def maxDimensions : Nat := 255

def arrayOf : Nat → FieldType → FieldType
  | 0, type => type
  | count + 1, type => .array (arrayOf count type)

/--
A class type after its `L`: the name runs up to the first semicolon. The characters consumed are
as many as the name has bytes, and one more.
-/
def readObject (chars : List Char) : Except DescriptorFault (FieldType × List Char) :=
  let name := chars.takeWhile (· != ';')
  if !chars.contains ';' then .error .unterminatedClass
  else if name.isEmpty then .error .emptyClass
  else
    let name := String.ofList name
    .ok (.object name, chars.drop (name.utf8ByteSize + 1))

def readComponent : List Char → Except DescriptorFault (FieldType × List Char)
  | [] => .error .endedEarly
  | 'L' :: rest => readObject rest
  | char :: rest =>
      match Primitive.ofLetter? char with
      | some type => .ok (.primitive type, rest)
      | none => .error (.unexpected char)

def read (chars : List Char) : Except DescriptorFault (FieldType × List Char) := do
  let brackets := (chars.takeWhile (· == '[')).length
  if brackets > maxDimensions then .error .dimensions
  let (component, rest) ← readComponent (chars.drop brackets)
  return (arrayOf brackets component, rest)

def parseChars (chars : List Char) : Except DescriptorFault FieldType := do
  let (type, rest) ← read chars
  if rest.isEmpty then return type else .error .trailingField

end FieldType

/-- A method's parameter types and its result type, which is absent for `void`. -/
structure MethodType where
  parameters : List FieldType
  result : Option FieldType
deriving DecidableEq

namespace MethodType

open FieldType

/--
The types up to a closing parenthesis, and the characters after it. Each type takes at least one
character, so `fuel` characters hold no more than `fuel` types.
-/
def readParameters : (fuel : Nat) → List Char → List FieldType →
    Except DescriptorFault (List FieldType × List Char)
  | _, [], _ => .error .unterminatedParameters
  | _, ')' :: rest, types => .ok (types.reverse, rest)
  | 0, _, _ => .error .unterminatedParameters
  | fuel + 1, chars, types => do
      let (type, rest) ← FieldType.read chars
      readParameters fuel rest (type :: types)

def readResult : List Char → Except DescriptorFault (Option FieldType × List Char)
  | 'V' :: rest => .ok (none, rest)
  | chars => do
      let (type, rest) ← FieldType.read chars
      return (some type, rest)

def parseChars : List Char → Except DescriptorFault MethodType
  | '(' :: chars => do
      let (parameters, rest) ← readParameters chars.length chars []
      let (result, rest) ← readResult rest
      if rest.isEmpty then return ⟨parameters, result⟩ else .error .trailingMethod
  | _ => .error .noParameters

def parameterList (type : MethodType) : String :=
  String.intercalate ", " (type.parameters.map FieldType.text)

def resultText (type : MethodType) : String :=
  match type.result with
  | some result => result.text
  | none => "void"

def text (type : MethodType) : String :=
  "(" ++ type.parameterList ++ ")" ++ type.resultText

end MethodType

/-- A fault in a descriptor, reported with the whole of it. -/
def ofDescriptor (descriptor : String) (parse : List Char → Except DescriptorFault α) :
    Except Error α :=
  match parse descriptor.toList with
  | .ok value => .ok value
  | .error fault => .error (.format (.descriptor fault descriptor))

def FieldType.parse (descriptor : String) : Except Error FieldType :=
  ofDescriptor descriptor parseChars

def MethodType.parse (descriptor : String) : Except Error MethodType :=
  ofDescriptor descriptor parseChars

/-- The type that a class constant names: an array descriptor or a plain class name. -/
def FieldType.ofClassName (name : String) : Except Error FieldType :=
  if name.toList.head? = some '[' then FieldType.parse name else .ok (.object name)

end ClassListing
