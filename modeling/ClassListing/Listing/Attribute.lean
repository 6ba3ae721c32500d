import ClassListing.Constant.Resolve
import ClassListing.Listing.Layout

/-!
# Attributes in a listing

Each attribute starts a line with its name. Constants are resolved here; the first one that
does not resolve ends the listing with its error.
-/

namespace ClassListing.Listing

open Access Constant

def named (kind : AttributeKind) (text : String) : String := kind.name ++ ": " ++ text

def orNone (text : Option String) : String := text.getD "none"

def innerClassText (row : InnerClass) : String :=
  row.inner ++ " outer=" ++ orNone row.outer ++ " name=" ++ orNone row.name ++ " flags=" ++
    describe .innerClass row.flags

def enclosingText (owner : String) : Option NameAndType → String
  | some method => owner ++ "." ++ method.text
  | none => owner

def lineNumberText (row : LineNumber) : String := s!"line {row.line}: {row.start}"

def variableText (row : LocalVariable) : String :=
  s!"{row.start} {row.length} {row.slot} {row.name} {row.descriptor}"

def variableLines (indent : Nat) (kind : AttributeKind) (rows : List LocalVariable) : List Line :=
  titled indent kind.name ("start length slot name descriptor" :: rows.map variableText)

def parameterText (row : MethodParameter) : String :=
  row.name.getD "<no name>" ++ " " ++ describe .parameter row.flags

def parameterAnnotationLines (indent : Nat) (parameters : List (List AnnotationUse)) : List Line :=
  parameters.zipIdx.flatMap fun (annotations, number) =>
    titled indent s!"parameter {number}" (annotations.map AnnotationUse.text)

/-- The handle of a bootstrap row with its number, and its arguments one level below. -/
def bootstrapLines (pool : Pool) (indent : Nat) (row : BootstrapMethod) (number : Nat) :
    Except Error (List Line) := do
  let handle ← pool.resolve row.handle
  let arguments ← row.arguments.mapM pool.resolve
  return [⟨indent, s!"#{number} {handle}"⟩,
    ⟨indent + step, "arguments: " ++ bracketed arguments⟩]

def bootstrapTableLines (pool : Pool) (indent : Nat) (rows : List BootstrapMethod) :
    Except Error (List Line) := do
  let blocks ← rows.zipIdx.mapM fun (row, number) =>
    bootstrapLines pool (indent + step) row number
  return ⟨indent, AttributeKind.bootstrapMethods.name ++ ":"⟩ :: blocks.flatten

def requirementText (row : Requirement) : String :=
  let version := match row.version with
    | some version => " version " ++ version
    | none => ""
  "requires " ++ row.name ++ " " ++ describe .requires row.flags ++ version

def grantText (keyword : String) (row : PackageGrant) : String :=
  let targets := if row.targets.isEmpty then "" else " to " ++ commaList row.targets
  keyword ++ " " ++ row.package ++ " " ++ describe .exports row.flags ++ targets

def provisionText (row : Provision) : String :=
  "provides " ++ row.service ++ " with " ++ commaList row.implementations

def moduleRows (declaration : ModuleDeclaration) : List String :=
  ["name: " ++ declaration.name, "flags: " ++ describe .moduleInfo declaration.flags,
    "version: " ++ orNone declaration.version] ++
    declaration.requires.map requirementText ++
    declaration.exports.map (grantText "exports") ++
    declaration.opens.map (grantText "opens") ++
    declaration.uses.map ("uses " ++ ·) ++
    declaration.provides.map provisionText

def maxFrameOffset : Nat := 0xFFFFFFFF

/-- The offset of each frame: its distance, counted from after the frame before it. -/
def frameOffsets : (previous : Option Nat) → List Frame → List Nat
  | _, [] => []
  | previous, frame :: rest =>
      let delta := frame.delta.toNat
      let offset := match previous with
        | none => delta
        | some before => min (before + (delta + 1)) maxFrameOffset
      offset :: frameOffsets (some offset) rest

def frameLines (options : Options) (indent : Nat) (frames : List Frame) : List Line :=
  let title := AttributeKind.stackMapTable.name ++ s!": {frames.length} frames"
  let rows := (frameOffsets none frames).zip frames
  ⟨indent, title⟩ :: if options.showFrames then
    rows.map fun (offset, frame) => ⟨indent + step, s!"offset {offset}: " ++ frame.text⟩
  else []

/-- The bytes of a line in a dump. -/
def dumpWidth : Nat := 16

def dumpText (bytes : Bytes) : String :=
  String.intercalate " " (bytes.map Text.hexByte)

def unrecognizedLines (options : Options) (indent : Nat) (name : String) (body : Bytes) :
    List Line :=
  ⟨indent, name ++ s!": {body.length} bytes"⟩ :: if options.verbose then
    (Bytes.pieces dumpWidth body).map fun piece => ⟨indent + step, dumpText piece⟩
  else []

/-- The text of an operand, unless it is a switch table. -/
def operandText? (pool : Pool) (opcode : UInt8) : Operand → Except Error (Option String)
  | .constant index => do
      if let some role := Opcode.role? opcode then
        let _ ← pool.operand index role
      return some (← pool.resolve index)
  | .slot index => .ok (some (toString index))
  | .immediate value => .ok (some (toString value))
  | .arrayType code => .ok (some ((arrayTypeName? code).getD (toString code)))
  | .branch target => .ok (some (toString target))
  | .switch .. => .ok none

/-- The last switch table among the operands, one case a line and the default at the end. -/
def switchLines (indent : Nat) (operands : List Operand) : List Line :=
  let table := operands.reverse.findSome? fun
    | .switch otherwise cases => some (otherwise, cases)
    | _ => none
  match table with
  | none => []
  | some (otherwise, cases) =>
      (cases.map fun (value, target) => ⟨indent, s!"{value}: {target}"⟩) ++
        [⟨indent, s!"default: {otherwise}"⟩]

def instructionLines (pool : Pool) (indent : Nat) (instruction : Instruction) :
    Except Error (List Line) := do
  let texts ← instruction.operands.mapM (operandText? pool instruction.opcode)
  let operands := texts.filterMap id
  let marker := if instruction.wide then "wide " else ""
  let start := s!"{instruction.offset}: " ++ marker ++ instruction.mnemonic
  let text := if operands.isEmpty then start else start ++ " " ++ commaList operands
  return ⟨indent, text⟩ :: switchLines (indent + 2 * step) instruction.operands

def handlerText (row : ExceptionHandler) : String :=
  s!"{row.start} {row.stop} {row.handler} " ++ row.caught.getD "any"

def handlerLines (indent : Nat) (rows : List ExceptionHandler) : List Line :=
  if rows.isEmpty then []
  else titled indent "Exception table" ("from to target type" :: rows.map handlerText)

def codeSizes (options : Options) (body : Code) : String :=
  let length := if options.verbose then s!", code_length={body.length}" else ""
  s!"stack={body.maxStack}, locals={body.maxLocals}" ++ length

/-- The lines of a code attribute before its own attributes. -/
def codeLines (pool : Pool) (options : Options) (indent : Nat) (body : Code) :
    Except Error (List Line) := do
  let inner := indent + step
  let instructions ← body.instructions.mapM (instructionLines pool inner)
  return ⟨indent, AttributeKind.code.name ++ ":"⟩ :: ⟨inner, codeSizes options body⟩ ::
    (instructions.flatten ++ handlerLines inner body.handlers)

def componentLines (indent : Nat) (name descriptor : String) : Except Error (List Line) := do
  let type ← FieldType.parse descriptor
  return [⟨indent, "component: " ++ type.text ++ " " ++ name⟩,
    ⟨indent + step, "descriptor: " ++ descriptor⟩]

mutual

def attributeLines (pool : Pool) (options : Options) (indent : Nat) :
    Attribute → Except Error (List Line)
  | .constantValue index => return [⟨indent, named .constantValue (← pool.resolve index)⟩]
  | .code ⟨maxStack, maxLocals, length, instructions, handlers, attributes⟩ => do
      let own ← codeLines pool options indent
        ⟨maxStack, maxLocals, length, instructions, handlers, []⟩
      return own ++ (← attributeListLines pool options (indent + step) attributes)
  | .stackMapTable frames => .ok (frameLines options indent frames)
  | .exceptions classes => .ok [⟨indent, named .exceptions (commaList classes)⟩]
  | .innerClasses rows =>
      .ok (titled indent AttributeKind.innerClasses.name (rows.map innerClassText))
  | .enclosingMethod owner method =>
      .ok [⟨indent, named .enclosingMethod (enclosingText owner method)⟩]
  | .synthetic => .ok [⟨indent, named .synthetic "true"⟩]
  | .signature text => .ok [⟨indent, named .signature text⟩]
  | .sourceFile text => .ok [⟨indent, named .sourceFile text⟩]
  | .sourceDebugExtension text =>
      .ok (titled indent AttributeKind.sourceDebugExtension.name (Text.lines text))
  | .lineNumberTable rows =>
      .ok (titled indent AttributeKind.lineNumberTable.name (rows.map lineNumberText))
  | .localVariableTable rows => .ok (variableLines indent .localVariableTable rows)
  | .localVariableTypeTable rows => .ok (variableLines indent .localVariableTypeTable rows)
  | .deprecated => .ok [⟨indent, named .deprecated "true"⟩]
  | .annotations visible list =>
      .ok (titled indent (AttributeKind.annotations visible).name (list.map AnnotationUse.text))
  | .parameterAnnotations visible parameters =>
      .ok (⟨indent, (AttributeKind.parameterAnnotations visible).name ++ ":"⟩ ::
        parameterAnnotationLines (indent + step) parameters)
  | .typeAnnotations visible list =>
      .ok (titled indent (AttributeKind.typeAnnotations visible).name
        (list.map TypeAnnotationUse.text))
  | .annotationDefault value => .ok [⟨indent, named .annotationDefault value.text⟩]
  | .bootstrapMethods rows => bootstrapTableLines pool indent rows
  | .methodParameters rows =>
      .ok (titled indent AttributeKind.methodParameters.name (rows.map parameterText))
  | .moduleInfo declaration =>
      .ok (titled indent AttributeKind.moduleInfo.name (moduleRows declaration))
  | .modulePackages names => .ok [⟨indent, named .modulePackages (commaList names)⟩]
  | .moduleMainClass name => .ok [⟨indent, named .moduleMainClass name⟩]
  | .nestHost name => .ok [⟨indent, named .nestHost name⟩]
  | .nestMembers names => .ok [⟨indent, named .nestMembers (commaList names)⟩]
  | .record components => do
      let rows ← componentListLines pool options (indent + step) components
      return ⟨indent, AttributeKind.record.name ++ ":"⟩ :: rows
  | .permittedSubclasses names =>
      .ok (titled indent AttributeKind.permittedSubclasses.name names)
  | .unrecognized name body => .ok (unrecognizedLines options indent name body)

def attributeListLines (pool : Pool) (options : Options) (indent : Nat) :
    List Attribute → Except Error (List Line)
  | [] => .ok []
  | item :: rest => do
      let first ← attributeLines pool options indent item
      return first ++ (← attributeListLines pool options indent rest)

def componentListLines (pool : Pool) (options : Options) (indent : Nat) :
    List RecordComponent → Except Error (List Line)
  | [] => .ok []
  | ⟨name, descriptor, attributes⟩ :: rest => do
      let own ← componentLines indent name descriptor
      let nested ← attributeListLines pool options (indent + step) attributes
      return own ++ nested ++ (← componentListLines pool options indent rest)

end

end ClassListing.Listing
