import ClassListing.Decimal
import ClassListing.Frame

/-!
# Annotations

An annotation gives values to named elements; a value may itself be an annotation or an array
of values. A type annotation also says which type it belongs to.
-/

namespace ClassListing

open Text Decimal

mutual

structure AnnotationUse where
  typeName : String
  elements : List (String × ElementValue)

inductive ElementValue
  | byte (value : Int8)
  | char (value : Char)
  | double (bits : UInt64)
  | float (bits : UInt32)
  | int (value : Int32)
  | long (value : Int64)
  | short (value : Int16)
  | boolean (value : Bool)
  | string (text : String)
  | enumConstant (typeName constant : String)
  | classLiteral (name : String)
  | nested (inner : AnnotationUse)
  | array (values : List ElementValue)

end

/-- Element values abbreviate infinity. -/
def elementWords : Words := ⟨"NaN", "inf"⟩

mutual

def AnnotationUse.text : AnnotationUse → String
  | ⟨typeName, elements⟩ =>
      let texts := elementTexts elements
      "@" ++ typeName ++
        if texts.isEmpty then "" else "(" ++ String.intercalate ", " texts ++ ")"

def elementTexts : List (String × ElementValue) → List String
  | [] => []
  | (name, value) :: rest => (name ++ "=" ++ value.text) :: elementTexts rest

def ElementValue.text : ElementValue → String
  | .byte value => s!"(byte) {value}"
  | .char value => "'" ++ String.ofList (escape value) ++ "'"
  | .double bits => doubleText elementWords bits ++ "d"
  | .float bits => floatText elementWords bits ++ "f"
  | .int value => toString value
  | .long value => toString value ++ "L"
  | .short value => s!"(short) {value}"
  | .boolean value => if value then "true" else "false"
  | .string text => quote text
  | .enumConstant typeName constant => typeName ++ "." ++ constant
  | .classLiteral name => name ++ ".class"
  | .nested inner => inner.text
  | .array values => "\x7b" ++ String.intercalate ", " (valueTexts values) ++ "\x7d"

def valueTexts : List ElementValue → List String
  | [] => []
  | value :: rest => value.text :: valueTexts rest

end

/-- The code range in which a local variable has an annotated type. -/
structure VariableRange where
  start : UInt16
  length : UInt16
  slot : UInt16
deriving DecidableEq

def VariableRange.text (range : VariableRange) : String :=
  s!"start={range.start} length={range.length} index={range.slot}"

inductive TypeTarget
  | typeParameter (index : UInt8)
  | supertype (index : UInt16)
  | typeParameterBound (index bound : UInt8)
  | empty
  | formalParameter (index : UInt8)
  | throws (index : UInt16)
  | localVariable (ranges : List VariableRange)
  | handler (index : UInt16)
  | instruction (offset : UInt16)
  | typeArgument (offset : UInt16) (index : UInt8)
deriving DecidableEq

def TypeTarget.text : TypeTarget → String
  | .typeParameter index => s!"type parameter {index}"
  | .supertype index => s!"supertype {index}"
  | .typeParameterBound index bound => s!"type parameter {index} bound {bound}"
  | .empty => "empty"
  | .formalParameter index => s!"formal parameter {index}"
  | .throws index => s!"throws {index}"
  | .localVariable ranges => "local variable " ++ bracketed (ranges.map VariableRange.text)
  | .handler index => s!"catch {index}"
  | .instruction offset => s!"offset {offset}"
  | .typeArgument offset index => s!"type argument {index} at offset {offset}"

structure PathStep where
  kind : UInt8
  argument : UInt8
deriving DecidableEq

def PathStep.text (step : PathStep) : String := s!"{step.kind}:{step.argument}"

structure TypeAnnotationUse where
  targetType : UInt8
  target : TypeTarget
  path : List PathStep
  body : AnnotationUse

def TypeAnnotationUse.text (item : TypeAnnotationUse) : String :=
  let path :=
    if item.path.isEmpty then "" else " path " ++ bracketed (item.path.map PathStep.text)
  "0x" ++ hexByte item.targetType ++ " " ++ item.target.text ++ path ++ " " ++ item.body.text

end ClassListing
