import ClassListing.Annotations
import ClassListing.Code.Instruction
import ClassListing.ModuleDeclaration

/-!
# Attributes

Thirty attribute names are recognised and decoded. The body of any other attribute is kept as
bytes. Code and record components carry attribute lists of their own.
-/

namespace ClassListing

structure InnerClass where
  inner : String
  outer : Option String
  name : Option String
  flags : UInt16
deriving DecidableEq

structure LineNumber where
  start : UInt16
  line : UInt16
deriving DecidableEq

structure LocalVariable where
  start : UInt16
  length : UInt16
  name : String
  descriptor : String
  slot : UInt16
deriving DecidableEq

structure MethodParameter where
  name : Option String
  flags : UInt16
deriving DecidableEq

/-- A handler for the offsets from `start` up to `stop`; it catches everything if no class is
given. -/
structure ExceptionHandler where
  start : UInt16
  stop : UInt16
  handler : UInt16
  caught : Option String
deriving DecidableEq

mutual

inductive Attribute
  | constantValue (index : UInt16)
  | code (body : Code)
  | stackMapTable (frames : List Frame)
  | exceptions (classes : List String)
  | innerClasses (rows : List InnerClass)
  | enclosingMethod (owner : String) (method : Option NameAndType)
  | synthetic
  | signature (text : String)
  | sourceFile (text : String)
  | sourceDebugExtension (text : String)
  | lineNumberTable (rows : List LineNumber)
  | localVariableTable (rows : List LocalVariable)
  | localVariableTypeTable (rows : List LocalVariable)
  | deprecated
  | annotations (visible : Bool) (list : List AnnotationUse)
  | parameterAnnotations (visible : Bool) (parameters : List (List AnnotationUse))
  | typeAnnotations (visible : Bool) (list : List TypeAnnotationUse)
  | annotationDefault (value : ElementValue)
  | bootstrapMethods (rows : List BootstrapMethod)
  | methodParameters (rows : List MethodParameter)
  | moduleInfo (declaration : ModuleDeclaration)
  | modulePackages (names : List String)
  | moduleMainClass (name : String)
  | nestHost (name : String)
  | nestMembers (names : List String)
  | record (components : List RecordComponent)
  | permittedSubclasses (names : List String)
  | unrecognized (name : String) (body : Bytes)

structure Code where
  maxStack : UInt16
  maxLocals : UInt16
  length : UInt32
  instructions : List Instruction
  handlers : List ExceptionHandler
  attributes : List Attribute

structure RecordComponent where
  name : String
  descriptor : String
  attributes : List Attribute

end

inductive AttributeKind
  | constantValue
  | code
  | stackMapTable
  | exceptions
  | innerClasses
  | enclosingMethod
  | synthetic
  | signature
  | sourceFile
  | sourceDebugExtension
  | lineNumberTable
  | localVariableTable
  | localVariableTypeTable
  | deprecated
  | annotations (visible : Bool)
  | parameterAnnotations (visible : Bool)
  | typeAnnotations (visible : Bool)
  | annotationDefault
  | bootstrapMethods
  | methodParameters
  | moduleInfo
  | modulePackages
  | moduleMainClass
  | nestHost
  | nestMembers
  | record
  | permittedSubclasses
deriving DecidableEq

namespace AttributeKind

def name : AttributeKind → String
  | .constantValue => "ConstantValue"
  | .code => "Code"
  | .stackMapTable => "StackMapTable"
  | .exceptions => "Exceptions"
  | .innerClasses => "InnerClasses"
  | .enclosingMethod => "EnclosingMethod"
  | .synthetic => "Synthetic"
  | .signature => "Signature"
  | .sourceFile => "SourceFile"
  | .sourceDebugExtension => "SourceDebugExtension"
  | .lineNumberTable => "LineNumberTable"
  | .localVariableTable => "LocalVariableTable"
  | .localVariableTypeTable => "LocalVariableTypeTable"
  | .deprecated => "Deprecated"
  | .annotations true => "RuntimeVisibleAnnotations"
  | .annotations false => "RuntimeInvisibleAnnotations"
  | .parameterAnnotations true => "RuntimeVisibleParameterAnnotations"
  | .parameterAnnotations false => "RuntimeInvisibleParameterAnnotations"
  | .typeAnnotations true => "RuntimeVisibleTypeAnnotations"
  | .typeAnnotations false => "RuntimeInvisibleTypeAnnotations"
  | .annotationDefault => "AnnotationDefault"
  | .bootstrapMethods => "BootstrapMethods"
  | .methodParameters => "MethodParameters"
  | .moduleInfo => "Module"
  | .modulePackages => "ModulePackages"
  | .moduleMainClass => "ModuleMainClass"
  | .nestHost => "NestHost"
  | .nestMembers => "NestMembers"
  | .record => "Record"
  | .permittedSubclasses => "PermittedSubclasses"

def all : List AttributeKind :=
  [.constantValue, .code, .stackMapTable, .exceptions, .innerClasses, .enclosingMethod,
    .synthetic, .signature, .sourceFile, .sourceDebugExtension, .lineNumberTable,
    .localVariableTable, .localVariableTypeTable, .deprecated, .annotations true,
    .annotations false, .parameterAnnotations true, .parameterAnnotations false,
    .typeAnnotations true, .typeAnnotations false, .annotationDefault, .bootstrapMethods,
    .methodParameters, .moduleInfo, .modulePackages, .moduleMainClass, .nestHost, .nestMembers,
    .record, .permittedSubclasses]

theorem mem_all (kind : AttributeKind) : kind ∈ all := by
  cases kind with
  | annotations visible => cases visible <;> decide
  | parameterAnnotations visible => cases visible <;> decide
  | typeAnnotations visible => cases visible <;> decide
  | _ => decide

def ofName? (name : String) : Option AttributeKind :=
  all.find? fun kind => kind.name == name

theorem ofName?_name (kind : AttributeKind) : ofName? kind.name = some kind := by
  cases kind with
  | annotations visible => cases visible <;> decide
  | parameterAnnotations visible => cases visible <;> decide
  | typeAnnotations visible => cases visible <;> decide
  | _ => decide

theorem nodup_names : (all.map AttributeKind.name).Nodup := by decide

theorem name_of_ofName? {name : String} {kind : AttributeKind} (h : ofName? name = some kind) :
    kind.name = name := by
  simpa using List.find?_some h

theorem ofName?_eq_none_iff {name : String} :
    ofName? name = none ↔ name ∉ all.map AttributeKind.name := by
  simp [ofName?]

end AttributeKind

namespace Attribute

def kind? : Attribute → Option AttributeKind
  | .constantValue _ => some .constantValue
  | .code _ => some .code
  | .stackMapTable _ => some .stackMapTable
  | .exceptions _ => some .exceptions
  | .innerClasses _ => some .innerClasses
  | .enclosingMethod .. => some .enclosingMethod
  | .synthetic => some .synthetic
  | .signature _ => some .signature
  | .sourceFile _ => some .sourceFile
  | .sourceDebugExtension _ => some .sourceDebugExtension
  | .lineNumberTable _ => some .lineNumberTable
  | .localVariableTable _ => some .localVariableTable
  | .localVariableTypeTable _ => some .localVariableTypeTable
  | .deprecated => some .deprecated
  | .annotations visible _ => some (.annotations visible)
  | .parameterAnnotations visible _ => some (.parameterAnnotations visible)
  | .typeAnnotations visible _ => some (.typeAnnotations visible)
  | .annotationDefault _ => some .annotationDefault
  | .bootstrapMethods _ => some .bootstrapMethods
  | .methodParameters _ => some .methodParameters
  | .moduleInfo _ => some .moduleInfo
  | .modulePackages _ => some .modulePackages
  | .moduleMainClass _ => some .moduleMainClass
  | .nestHost _ => some .nestHost
  | .nestMembers _ => some .nestMembers
  | .record _ => some .record
  | .permittedSubclasses _ => some .permittedSubclasses
  | .unrecognized .. => none

def name : Attribute → String
  | .unrecognized name _ => name
  | other => (other.kind?.map AttributeKind.name).getD ""

theorem name_of_kind? {item : Attribute} {kind : AttributeKind} (h : item.kind? = some kind) :
    item.name = kind.name := by
  cases item with
  | unrecognized => cases h
  | _ => simp [name, h]

def find? (attributes : List Attribute) (name : String) : Option Attribute :=
  attributes.find? fun item => item.name == name

def bootstrapRows? : Attribute → Option (List BootstrapMethod)
  | .bootstrapMethods rows => some rows
  | _ => none

def constantIndex? : Attribute → Option UInt16
  | .constantValue index => some index
  | _ => none

def code? : Attribute → Option Code
  | .code body => some body
  | _ => none

def moduleDeclaration? : Attribute → Option ModuleDeclaration
  | .moduleInfo declaration => some declaration
  | _ => none

end Attribute

end ClassListing
