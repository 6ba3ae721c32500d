import ClassListing.Error

/-!
# The constant pool

Constants refer to one another by slot index. A `Long` or `Double` takes two slots, of which
the second holds nothing; slot zero holds nothing either. Lookups check the kind of every
constant on the way to a text.
-/

namespace ClassListing

open Constant

inductive Constant
  | utf8 (text : String)
  | integer (value : Int32)
  | float (bits : UInt32)
  | long (value : Int64)
  | double (bits : UInt64)
  | classInfo (name : UInt16)
  | string (text : UInt16)
  | fieldRef (owner member : UInt16)
  | methodRef (owner member : UInt16)
  | interfaceMethodRef (owner member : UInt16)
  | nameAndType (name descriptor : UInt16)
  | methodHandle (access : HandleKind) (target : UInt16)
  | methodType (descriptor : UInt16)
  | dynamic (bootstrap member : UInt16)
  | invokeDynamic (bootstrap member : UInt16)
  | moduleInfo (name : UInt16)
  | packageInfo (name : UInt16)
deriving DecidableEq

namespace Constant

def kind : Constant → Kind
  | .utf8 _ => .utf8
  | .integer _ => .integer
  | .float _ => .float
  | .long _ => .long
  | .double _ => .double
  | .classInfo _ => .classInfo
  | .string _ => .string
  | .fieldRef .. => .fieldRef
  | .methodRef .. => .methodRef
  | .interfaceMethodRef .. => .interfaceMethodRef
  | .nameAndType .. => .nameAndType
  | .methodHandle .. => .methodHandle
  | .methodType _ => .methodType
  | .dynamic .. => .dynamic
  | .invokeDynamic .. => .invokeDynamic
  | .moduleInfo _ => .moduleInfo
  | .packageInfo _ => .packageInfo

/-- Whether the constant takes two slots. -/
def isWide : Constant → Bool
  | .long _ | .double _ => true
  | _ => false

def references : Constant → String
  | .utf8 _ | .integer _ | .float _ | .long _ | .double _ => ""
  | .classInfo index | .string index | .methodType index | .moduleInfo index
  | .packageInfo index => s!"#{index}"
  | .fieldRef owner member | .methodRef owner member | .interfaceMethodRef owner member =>
      s!"#{owner}.#{member}"
  | .nameAndType name descriptor => s!"#{name}:#{descriptor}"
  | .methodHandle access target => s!"{access.code}:#{target}"
  | .dynamic bootstrap member | .invokeDynamic bootstrap member => s!"#{bootstrap}:#{member}"

end Constant

/-- One row of the bootstrap table: a method handle and its static arguments. -/
structure BootstrapMethod where
  handle : UInt16
  arguments : List UInt16
deriving DecidableEq

structure NameAndType where
  name : String
  descriptor : String
deriving DecidableEq

def NameAndType.text (member : NameAndType) : String :=
  member.name ++ ":" ++ member.descriptor

structure MemberRef where
  owner : String
  member : NameAndType
deriving DecidableEq

def MemberRef.text (ref : MemberRef) : String :=
  ref.owner ++ "." ++ ref.member.text

structure Pool where
  slots : Array (Option Constant)
  bootstrap : List BootstrapMethod
deriving DecidableEq

namespace Pool

/-- The number of slots, one more than the highest index. -/
def size (pool : Pool) : Nat := pool.slots.size

def isEmpty (pool : Pool) : Bool := pool.size ≤ 1

/-- The constants with their indices, in increasing order, as far as two bytes hold the index. -/
def entries (pool : Pool) : List (UInt16 × Constant) :=
  pool.slots.toList.zipIdx.filterMap fun (slot, index) =>
    if index < UInt16.size then slot.map fun constant => (UInt16.ofNat index, constant) else none

def get (pool : Pool) (index : UInt16) : Except Error Constant :=
  if index = 0 then .error (.reference index .zero)
  else match pool.slots[index.toNat]? with
    | some (some constant) => .ok constant
    | some none => .error (.reference index .secondHalf)
    | none => .error (.reference index (.pastEnd pool.size))

def wrongKind (index : UInt16) (expected : String) (found : Constant) : Except Error α :=
  .error (.reference index (.wrongKind expected found.kind))

/-- The constant that an operand names, if the instruction accepts its kind. -/
def operand (pool : Pool) (index : UInt16) (role : Role) : Except Error Constant := do
  let constant ← pool.get index
  if role.accepts constant.kind then .ok constant else wrongKind index role.expected constant

def utf8 (pool : Pool) (index : UInt16) : Except Error String := do
  match ← pool.get index with
  | .utf8 text => .ok text
  | other => wrongKind index "Utf8" other

def className (pool : Pool) (index : UInt16) : Except Error String := do
  match ← pool.get index with
  | .classInfo name => pool.utf8 name
  | other => wrongKind index "Class" other

def moduleName (pool : Pool) (index : UInt16) : Except Error String := do
  match ← pool.get index with
  | .moduleInfo name => pool.utf8 name
  | other => wrongKind index "Module" other

def packageName (pool : Pool) (index : UInt16) : Except Error String := do
  match ← pool.get index with
  | .packageInfo name => pool.utf8 name
  | other => wrongKind index "Package" other

/-- A lookup for which index zero means that nothing is there. -/
def optional (lookup : UInt16 → Except Error α) (index : UInt16) : Except Error (Option α) :=
  if index = 0 then .ok none else some <$> lookup index

def nameAndType (pool : Pool) (index : UInt16) : Except Error NameAndType := do
  match ← pool.get index with
  | .nameAndType name descriptor => return ⟨← pool.utf8 name, ← pool.utf8 descriptor⟩
  | other => wrongKind index "NameAndType" other

def memberRef (pool : Pool) (index : UInt16) : Except Error MemberRef := do
  match ← pool.get index with
  | .fieldRef owner member | .methodRef owner member | .interfaceMethodRef owner member =>
      return ⟨← pool.className owner, ← pool.nameAndType member⟩
  | other => wrongKind index "Fieldref or Methodref" other

def integer (pool : Pool) (index : UInt16) : Except Error Int32 := do
  match ← pool.get index with
  | .integer value => .ok value
  | other => wrongKind index "Integer" other

def float (pool : Pool) (index : UInt16) : Except Error UInt32 := do
  match ← pool.get index with
  | .float bits => .ok bits
  | other => wrongKind index "Float" other

def long (pool : Pool) (index : UInt16) : Except Error Int64 := do
  match ← pool.get index with
  | .long value => .ok value
  | other => wrongKind index "Long" other

def double (pool : Pool) (index : UInt16) : Except Error UInt64 := do
  match ← pool.get index with
  | .double bits => .ok bits
  | other => wrongKind index "Double" other

def constantValue (pool : Pool) (index : UInt16) : Except Error UInt16 := do
  match ← pool.get index with
  | .integer _ | .float _ | .long _ | .double _ | .string _ => .ok index
  | other => wrongKind index "a constant value" other

end Pool

end ClassListing
