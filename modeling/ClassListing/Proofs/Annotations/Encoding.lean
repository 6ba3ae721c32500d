import ClassListing.Annotations.Decode
import ClassListing.Proofs.Cursor.Limit
import ClassListing.Proofs.Descriptor.RoundTrip

/-!
# Annotations as they are written

An annotation is written as a tree whose leaves are pool indices. A tree stands for an annotation
when each index holds a constant of the kind that its place asks for and every type is the
descriptor of a field type. The depth of a value counts the levels that are entered below it.
-/

namespace ClassListing

namespace ElementValue

/-- The tags of the values that are one constant. -/
inductive Scalar
  | byte | char | double | float | int | long | short | boolean | string
deriving DecidableEq

namespace Scalar

def letter : Scalar → Char
  | .byte => 'B'
  | .char => 'C'
  | .double => 'D'
  | .float => 'F'
  | .int => 'I'
  | .long => 'J'
  | .short => 'S'
  | .boolean => 'Z'
  | .string => 's'

/-- The Unicode scalar with a code. The surrogates and all that no plane holds have none. -/
def charWithCode (code : Int32) : Char :=
  if 0 ≤ code.toInt ∧ code.toInt ≤ 0xD7FF ∨ 0xE000 ≤ code.toInt ∧ code.toInt ≤ 0x10FFFF then
    .ofNat code.toInt.toNat
  else '\ufffd'

theorem charOfCode_eq (code : Int32) : charOfCode code = charWithCode code := by
  have hscalar : (0 ≤ code.toInt ∧ code.toInt.toNat.isValidChar) ↔
      0 ≤ code.toInt ∧ code.toInt ≤ 0xD7FF ∨ 0xE000 ≤ code.toInt ∧ code.toInt ≤ 0x10FFFF := by
    unfold Nat.isValidChar
    omega
  simp only [charOfCode, charWithCode, hscalar, Text.replacement]

/-- The value that a constant is under a tag, if it is of the kind that the tag asks for. -/
def value? : Scalar → Constant → Option ElementValue
  | .byte, .integer value => some (.byte value.toInt8)
  | .char, .integer value => some (.char (charWithCode value))
  | .double, .double bits => some (.double bits)
  | .float, .float bits => some (.float bits)
  | .int, .integer value => some (.int value)
  | .long, .long value => some (.long value)
  | .short, .integer value => some (.short value.toInt16)
  | .boolean, .integer value => some (.boolean (value != 0))
  | .string, .utf8 text => some (.string text)
  | _, _ => none

end Scalar

end ElementValue

mutual

structure AnnotationUse.Raw where
  type : UInt16
  elements : List (UInt16 × ElementValue.Raw)

inductive ElementValue.Raw
  | scalar (tag : ElementValue.Scalar) (index : UInt16)
  | enumConstant (type constant : UInt16)
  | classLiteral (type : UInt16)
  | nested (inner : AnnotationUse.Raw)
  | array (values : List ElementValue.Raw)

end

/-! ## Writing -/

def tagByte (letter : Char) : UInt8 := .ofNat letter.toNat

mutual

def AnnotationUse.Raw.encode : AnnotationUse.Raw → Bytes
  | ⟨type, elements⟩ =>
      Bytes.ofNat 2 type.toNat ++
        (Bytes.ofNat 2 elements.length ++ AnnotationUse.Raw.encodeElements elements)

def AnnotationUse.Raw.encodeElements : List (UInt16 × ElementValue.Raw) → Bytes
  | [] => []
  | (name, value) :: rest =>
      (Bytes.ofNat 2 name.toNat ++ value.encode) ++ AnnotationUse.Raw.encodeElements rest

def ElementValue.Raw.encode : ElementValue.Raw → Bytes
  | .scalar tag index => tagByte tag.letter :: Bytes.ofNat 2 index.toNat
  | .enumConstant type constant =>
      tagByte 'e' :: (Bytes.ofNat 2 type.toNat ++ Bytes.ofNat 2 constant.toNat)
  | .classLiteral type => tagByte 'c' :: Bytes.ofNat 2 type.toNat
  | .nested inner => tagByte '@' :: inner.encode
  | .array values =>
      tagByte '[' :: (Bytes.ofNat 2 values.length ++ ElementValue.Raw.encodeValues values)

def ElementValue.Raw.encodeValues : List ElementValue.Raw → Bytes
  | [] => []
  | value :: rest => value.encode ++ ElementValue.Raw.encodeValues rest

end

def AnnotationUse.Raw.encodeElement (element : UInt16 × ElementValue.Raw) : Bytes :=
  Bytes.ofNat 2 element.1.toNat ++ element.2.encode

theorem AnnotationUse.Raw.encode_eq (type : UInt16) (elements : List (UInt16 × ElementValue.Raw)) :
    (AnnotationUse.Raw.mk type elements).encode =
      Bytes.ofNat 2 type.toNat ++ Bytes.counted encodeElement elements := by
  have hitems : encodeElements elements = elements.flatMap encodeElement := by
    induction elements with
    | nil => rfl
    | cons element elements ih => rw [encodeElements, ih, List.flatMap_cons, encodeElement]
  rw [encode, hitems, Bytes.counted]

theorem ElementValue.Raw.encode_array (values : List ElementValue.Raw) :
    (Raw.array values).encode = tagByte '[' :: Bytes.counted encode values := by
  have hitems : encodeValues values = values.flatMap encode := by
    induction values with
    | nil => rfl
    | cons value values ih => rw [encodeValues, ih, List.flatMap_cons]
  rw [encode, hitems, Bytes.counted]

/-! ## Meaning -/

namespace Pool

/-- The index holds the descriptor of a field type, which is `name` in a program. -/
def HoldsFieldType (pool : Pool) (index : UInt16) (name : String) : Prop :=
  ∃ type : FieldType, type.Valid ∧ pool.get index = .ok (.utf8 type.descriptor) ∧
    name = type.spelling

def HoldsLiteralType (pool : Pool) (index : UInt16) (name : String) : Prop :=
  pool.HoldsFieldType index name ∨ pool.get index = .ok (.utf8 "V") ∧ name = "void"

end Pool

mutual

inductive AnnotationUse.Raw.Denotes (pool : Pool) : AnnotationUse.Raw → AnnotationUse → Prop
  | intro {type : UInt16} {typeName : String} {raws : List (UInt16 × ElementValue.Raw)}
      {elements : List (String × ElementValue)} (few : raws.length < 2 ^ 16)
      (htype : pool.HoldsFieldType type typeName)
      (hnames : List.Forall₂ (fun raw element => pool.get raw.1 = .ok (.utf8 element.1))
        raws elements)
      (hvalues : List.Forall₂ (fun raw element => ElementValue.Raw.Denotes pool raw.2 element.2)
        raws elements) :
      AnnotationUse.Raw.Denotes pool ⟨type, raws⟩ ⟨typeName, elements⟩

inductive ElementValue.Raw.Denotes (pool : Pool) : ElementValue.Raw → ElementValue → Prop
  | scalar {tag : ElementValue.Scalar} {index : UInt16} {constant : Constant}
      {value : ElementValue} (hget : pool.get index = .ok constant)
      (hvalue : tag.value? constant = some value) :
      ElementValue.Raw.Denotes pool (.scalar tag index) value
  | enumConstant {type index : UInt16} {typeName constant : String}
      (htype : pool.HoldsFieldType type typeName)
      (hget : pool.get index = .ok (.utf8 constant)) :
      ElementValue.Raw.Denotes pool (.enumConstant type index) (.enumConstant typeName constant)
  | classLiteral {type : UInt16} {name : String} (htype : pool.HoldsLiteralType type name) :
      ElementValue.Raw.Denotes pool (.classLiteral type) (.classLiteral name)
  | nested {raw : AnnotationUse.Raw} {inner : AnnotationUse}
      (hinner : AnnotationUse.Raw.Denotes pool raw inner) :
      ElementValue.Raw.Denotes pool (.nested raw) (.nested inner)
  | array {raws : List ElementValue.Raw} {values : List ElementValue} (few : raws.length < 2 ^ 16)
      (hvalues : List.Forall₂ (ElementValue.Raw.Denotes pool) raws values) :
      ElementValue.Raw.Denotes pool (.array raws) (.array values)

end

/-! ## Depth -/

mutual

/-- The number of levels below an annotation. Each element is one level further down. -/
def AnnotationUse.depth : AnnotationUse → Nat
  | ⟨_, elements⟩ => AnnotationUse.elementsDepth elements

def AnnotationUse.elementsDepth : List (String × ElementValue) → Nat
  | [] => 0
  | (_, value) :: rest => max (value.depth + 1) (AnnotationUse.elementsDepth rest)

/-- The number of levels below a value: into an annotation, or to the values of an array. -/
def ElementValue.depth : ElementValue → Nat
  | .nested inner => inner.depth + 1
  | .array values => ElementValue.valuesDepth values
  | _ => 0

def ElementValue.valuesDepth : List ElementValue → Nat
  | [] => 0
  | value :: rest => max (value.depth + 1) (ElementValue.valuesDepth rest)

end

theorem AnnotationUse.depth_le_iff {typeName : String} {elements : List (String × ElementValue)}
    {bound : Nat} :
    (AnnotationUse.mk typeName elements).depth ≤ bound ↔
      ∀ element ∈ elements, element.2.depth < bound := by
  rw [depth]
  induction elements with
  | nil => simp [elementsDepth]
  | cons element elements ih =>
      rw [elementsDepth, List.forall_mem_cons, ← ih]
      omega

theorem ElementValue.depth_array_le_iff {values : List ElementValue} {bound : Nat} :
    (ElementValue.array values).depth ≤ bound ↔ ∀ value ∈ values, value.depth < bound := by
  rw [depth]
  induction values with
  | nil => simp [valuesDepth]
  | cons value values ih =>
      rw [valuesDepth, List.forall_mem_cons, ← ih]
      omega

theorem ElementValue.Scalar.depth_of_value? {tag : Scalar} {constant : Constant}
    {value : ElementValue} (h : tag.value? constant = some value) : value.depth = 0 := by
  unfold value? at h
  split at h <;> cases h <;> rfl

/-! ## Type annotations -/

namespace TypeTarget

def types : TypeTarget → List UInt8
  | .typeParameter _ => [0x00, 0x01]
  | .supertype _ => [0x10]
  | .typeParameterBound .. => [0x11, 0x12]
  | .empty => [0x13, 0x14, 0x15]
  | .formalParameter _ => [0x16]
  | .throws _ => [0x17]
  | .localVariable _ => [0x40, 0x41]
  | .handler _ => [0x42]
  | .instruction _ => [0x43, 0x44, 0x45, 0x46]
  | .typeArgument .. => [0x47, 0x48, 0x49, 0x4A, 0x4B]

def ranges : TypeTarget → List VariableRange
  | .localVariable ranges => ranges
  | _ => []

end TypeTarget

def VariableRange.encode (range : VariableRange) : Bytes :=
  Bytes.ofNat 2 range.start.toNat ++
    (Bytes.ofNat 2 range.length.toNat ++ Bytes.ofNat 2 range.slot.toNat)

def TypeTarget.encode : TypeTarget → Bytes
  | .typeParameter index | .formalParameter index => [index]
  | .supertype index | .throws index | .handler index | .instruction index =>
      Bytes.ofNat 2 index.toNat
  | .typeParameterBound index bound => [index, bound]
  | .empty => []
  | .localVariable ranges => Bytes.counted VariableRange.encode ranges
  | .typeArgument offset index => Bytes.ofNat 2 offset.toNat ++ [index]

def PathStep.encode (step : PathStep) : Bytes := [step.kind, step.argument]

structure TypeAnnotationUse.Raw where
  targetType : UInt8
  target : TypeTarget
  path : List PathStep
  body : AnnotationUse.Raw

namespace TypeAnnotationUse.Raw

def encode (raw : Raw) : Bytes :=
  raw.targetType ::
    (raw.target.encode ++ (Bytes.shortCounted PathStep.encode raw.path ++ raw.body.encode))

structure Denotes (pool : Pool) (raw : Raw) (item : TypeAnnotationUse) : Prop where
  announced : raw.targetType ∈ raw.target.types
  fewRanges : raw.target.ranges.length < 2 ^ 16
  fewSteps : raw.path.length < 256
  targetType : item.targetType = raw.targetType
  target : item.target = raw.target
  path : item.path = raw.path
  body : raw.body.Denotes pool item.body

end TypeAnnotationUse.Raw

end ClassListing
