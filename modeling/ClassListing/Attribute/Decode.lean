import ClassListing.Annotations.Decode
import ClassListing.Attribute
import ClassListing.Code.Decode

/-!
# Decoding attributes

Every attribute declares the length of its body, and the decoder of the body sees those bytes
and no others: it must read all of them. Attribute lists nest no deeper than
`maxAttributeDepth`.
-/

namespace ClassListing

open Decoder

def maxAttributeDepth : Nat := 16

def maxCodeLength : Nat := 65535

def InnerClass.decode (pool : Pool) : Decoder InnerClass :=
  return ⟨← reference pool.className, ← reference (Pool.optional pool.className),
    ← reference (Pool.optional pool.utf8), ← u2⟩

def LineNumber.decode : Decoder LineNumber := return ⟨← u2, ← u2⟩

def LocalVariable.decode (pool : Pool) : Decoder LocalVariable :=
  return ⟨← u2, ← u2, ← reference pool.utf8, ← reference pool.utf8, ← u2⟩

def MethodParameter.decode (pool : Pool) : Decoder MethodParameter :=
  return ⟨← reference (Pool.optional pool.utf8), ← u2⟩

def BootstrapMethod.decode : Decoder BootstrapMethod := return ⟨← u2, ← countedU2 u2⟩

def ExceptionHandler.decode (pool : Pool) : Decoder ExceptionHandler :=
  return ⟨← u2, ← u2, ← u2, ← reference (Pool.optional pool.className)⟩

def Instruction.constants (instruction : Instruction) : List UInt16 :=
  instruction.operands.filterMap fun
    | .constant index => some index
    | _ => none

/-- Fails at the first operand whose constant is not of the kind that the opcode expects. -/
def Pool.checkOperands (pool : Pool) (instruction : Instruction) : Except Error Unit :=
  match Opcode.role? instruction.opcode with
  | some role => instruction.constants.forM fun index => do
      let _ ← pool.operand index role
  | none => .ok ()

def Pool.checkCode (pool : Pool) (instructions : List Instruction) : Except Error Unit :=
  instructions.forM pool.checkOperands

def Code.decode (pool : Pool) (nested : Decoder (List Attribute)) : Decoder Code := do
  let maxStack ← u2
  let maxLocals ← u2
  let length ← u4
  if length = 0 || length.toNat > maxCodeLength then throw (.format (.codeLength length))
  let bytes ← take length.toNat
  let instructions ← Instruction.decodeAll bytes
  pool.checkCode instructions
  let handlers ← countedU2 (ExceptionHandler.decode pool)
  let attributes ← nested
  return ⟨maxStack, maxLocals, length, instructions, handlers, attributes⟩

def RecordComponent.decode (pool : Pool) (nested : Decoder (List Attribute)) :
    Decoder RecordComponent :=
  return ⟨← reference pool.utf8, ← reference pool.utf8, ← nested⟩

/-- A text that takes up all the bytes that are left. -/
def remainingText : Decoder String := do
  text (← remaining)

namespace Attribute

/-- The body of an attribute of the given kind. `nested` decodes attribute lists within it. -/
def decodeBody (pool : Pool) (nested : Decoder (List Attribute)) :
    AttributeKind → Decoder Attribute
  | .constantValue => return .constantValue (← reference pool.constantValue)
  | .code => return .code (← Code.decode pool nested)
  | .stackMapTable => return .stackMapTable (← Frame.decodeTable pool)
  | .exceptions => return .exceptions (← countedU2 (reference pool.className))
  | .innerClasses => return .innerClasses (← countedU2 (InnerClass.decode pool))
  | .enclosingMethod =>
      return .enclosingMethod (← reference pool.className)
        (← reference (Pool.optional pool.nameAndType))
  | .synthetic => return .synthetic
  | .signature => return .signature (← reference pool.utf8)
  | .sourceFile => return .sourceFile (← reference pool.utf8)
  | .sourceDebugExtension => return .sourceDebugExtension (← remainingText)
  | .lineNumberTable => return .lineNumberTable (← countedU2 LineNumber.decode)
  | .localVariableTable => return .localVariableTable (← countedU2 (LocalVariable.decode pool))
  | .localVariableTypeTable =>
      return .localVariableTypeTable (← countedU2 (LocalVariable.decode pool))
  | .deprecated => return .deprecated
  | .annotations visible => return .annotations visible (← AnnotationUse.decodeList pool)
  | .parameterAnnotations visible =>
      return .parameterAnnotations visible (← AnnotationUse.decodeParameters pool)
  | .typeAnnotations visible =>
      return .typeAnnotations visible (← TypeAnnotationUse.decodeList pool)
  | .annotationDefault => return .annotationDefault (← ElementValue.decode pool)
  | .bootstrapMethods => return .bootstrapMethods (← countedU2 BootstrapMethod.decode)
  | .methodParameters => return .methodParameters (← countedU1 (MethodParameter.decode pool))
  | .moduleInfo => return .moduleInfo (← ModuleDeclaration.decode pool)
  | .modulePackages => return .modulePackages (← countedU2 (reference pool.packageName))
  | .moduleMainClass => return .moduleMainClass (← reference pool.className)
  | .nestHost => return .nestHost (← reference pool.className)
  | .nestMembers => return .nestMembers (← countedU2 (reference pool.className))
  | .record => return .record (← countedU2 (RecordComponent.decode pool nested))
  | .permittedSubclasses =>
      return .permittedSubclasses (← countedU2 (reference pool.className))

/-- The value of a body that `decoder` must read to its end, with faults put on the attribute. -/
def wholeBody (name : String) (body : Bytes) (decoder : Decoder Attribute) :
    Except Error Attribute :=
  match decoder.run (.start body) with
  | .ok value stopped =>
      if stopped.rest.isEmpty then .ok value
      else .error (.attributeBody name (.leftUnread stopped.rest.length body.length))
  | .error .truncated _ => .error (.attributeBody name (.needsMore body.length))
  | .error (.format fault) _ => .error (.attributeBody name (.format fault))
  | .error error _ => .error error

def ofBody (pool : Pool) (nested : Decoder (List Attribute)) (name : String) (body : Bytes) :
    Except Error Attribute :=
  match AttributeKind.ofName? name with
  | some kind => wholeBody name body (decodeBody pool nested kind)
  | none => .ok (.unrecognized name body)

/-- One attribute: the index of its name, the length of its body, the body. -/
def decodeOne (pool : Pool) (nested : Decoder (List Attribute)) : Decoder Attribute := do
  let index ← u2
  let length ← u4
  let body ← take length.toNat
  let name ← pool.utf8 index
  ofBody pool nested name body

/-- An attribute list, below which `budget` more levels of lists may be entered. -/
def decodeWithin (pool : Pool) : (budget : Nat) → Decoder (List Attribute)
  | 0 => throw (.tooDeep maxAttributeDepth)
  | budget + 1 => countedU2 (decodeOne pool (decodeWithin pool budget))

def decodeList (pool : Pool) : Decoder (List Attribute) :=
  decodeWithin pool (maxAttributeDepth + 1)

end Attribute

end ClassListing
