/-!
# Constant kinds

The seventeen kinds of constant that a pool slot can hold, the nine ways in which a method handle
can reach its member, and what an instruction expects of the constant that its operand names.
-/

namespace ClassListing.Constant

inductive Kind
  | utf8
  | integer
  | float
  | long
  | double
  | classInfo
  | string
  | fieldRef
  | methodRef
  | interfaceMethodRef
  | nameAndType
  | methodHandle
  | methodType
  | dynamic
  | invokeDynamic
  | moduleInfo
  | packageInfo
deriving DecidableEq

def Kind.name : Kind → String
  | .utf8 => "Utf8"
  | .integer => "Integer"
  | .float => "Float"
  | .long => "Long"
  | .double => "Double"
  | .classInfo => "Class"
  | .string => "String"
  | .fieldRef => "Fieldref"
  | .methodRef => "Methodref"
  | .interfaceMethodRef => "InterfaceMethodref"
  | .nameAndType => "NameAndType"
  | .methodHandle => "MethodHandle"
  | .methodType => "MethodType"
  | .dynamic => "Dynamic"
  | .invokeDynamic => "InvokeDynamic"
  | .moduleInfo => "Module"
  | .packageInfo => "Package"

/-- How a method handle accesses its member. -/
inductive HandleKind
  | getField
  | getStatic
  | putField
  | putStatic
  | invokeVirtual
  | invokeStatic
  | invokeSpecial
  | newInvokeSpecial
  | invokeInterface
deriving DecidableEq

namespace HandleKind

def code : HandleKind → UInt8
  | .getField => 1
  | .getStatic => 2
  | .putField => 3
  | .putStatic => 4
  | .invokeVirtual => 5
  | .invokeStatic => 6
  | .invokeSpecial => 7
  | .newInvokeSpecial => 8
  | .invokeInterface => 9

def ofCode? (code : UInt8) : Option HandleKind :=
  match code.toNat with
  | 1 => some .getField
  | 2 => some .getStatic
  | 3 => some .putField
  | 4 => some .putStatic
  | 5 => some .invokeVirtual
  | 6 => some .invokeStatic
  | 7 => some .invokeSpecial
  | 8 => some .newInvokeSpecial
  | 9 => some .invokeInterface
  | _ => none

theorem ofCode?_code (kind : HandleKind) : ofCode? kind.code = some kind := by
  cases kind <;> rfl

def name : HandleKind → String
  | .getField => "REF_getField"
  | .getStatic => "REF_getStatic"
  | .putField => "REF_putField"
  | .putStatic => "REF_putStatic"
  | .invokeVirtual => "REF_invokeVirtual"
  | .invokeStatic => "REF_invokeStatic"
  | .invokeSpecial => "REF_invokeSpecial"
  | .newInvokeSpecial => "REF_newInvokeSpecial"
  | .invokeInterface => "REF_invokeInterface"

def accessesField : HandleKind → Bool
  | .getField | .getStatic | .putField | .putStatic => true
  | _ => false

def accepts (kind : HandleKind) (target : Kind) : Bool :=
  if kind.accessesField then target == .fieldRef
  else target == .methodRef || target == .interfaceMethodRef

end HandleKind

inductive Role
  | classInfo
  | field
  | method
  | interfaceMethod
  | callSite
  | loadable
  | wideLoadable
deriving DecidableEq

namespace Role

def accepts : Role → Kind → Bool
  | .classInfo, kind => kind == .classInfo
  | .field, kind => kind == .fieldRef
  | .method, kind => kind == .methodRef || kind == .interfaceMethodRef
  | .interfaceMethod, kind => kind == .interfaceMethodRef
  | .callSite, kind => kind == .invokeDynamic
  | .loadable, kind =>
      [.integer, .float, .string, .classInfo, .methodType, .methodHandle, .dynamic].contains kind
  | .wideLoadable, kind => [.long, .double, .dynamic].contains kind

def expected : Role → String
  | .classInfo => "Class"
  | .field => "FieldRef"
  | .method => "MethodRef or InterfaceMethodRef"
  | .interfaceMethod => "InterfaceMethodRef"
  | .callSite => "InvokeDynamic"
  | .loadable => "a loadable single-slot constant"
  | .wideLoadable => "Long, Double or Dynamic"

end Role

end ClassListing.Constant
