import ClassListing.Constant.Pool
import ClassListing.Decimal

/-!
# The text of a constant

References are followed down to their texts. Only dynamic constants nest, through the static
arguments of their bootstrap row; a chain of them may neither come back to itself nor grow
beyond `maxResolveDepth`.
-/

namespace ClassListing.Pool

open Constant Text Decimal

def maxResolveDepth : Nat := 64

/-- Infinities and NaN are spelled out. -/
def constantWords : Words := ⟨"NaN", "Infinity"⟩

def handleText (pool : Pool) (access : HandleKind) (target : UInt16) : Except Error String := do
  let found ← pool.get target
  if access.accepts found.kind then
    let ref ← pool.memberRef target
    return access.name ++ " " ++ ref.text
  else wrongKind target access.name found

def bootstrapHandle (pool : Pool) (row : BootstrapMethod) : Except Error String := do
  match ← pool.get row.handle with
  | .methodHandle access target => pool.handleText access target
  | other => wrongKind row.handle "MethodHandle" other

def bootstrapRow (pool : Pool) (index row : UInt16) : Except Error BootstrapMethod :=
  match pool.bootstrap[row.toNat]? with
  | some method => .ok method
  | none => .error (.reference index (.noBootstrap row pool.bootstrap.length))

def dynamicText (member : NameAndType) (row : UInt16) (handle : String)
    (arguments : List String) : String :=
  member.text ++ s!" bootstrap #{row} " ++ handle ++ " arguments [" ++
    String.intercalate ", " arguments ++ "]"

def resolveDynamic (pool : Pool) (argument : UInt16 → Except Error String)
    (index row member : UInt16) : Except Error String := do
  let member ← pool.nameAndType member
  let method ← pool.bootstrapRow index row
  let handle ← pool.bootstrapHandle method
  let arguments ← method.arguments.mapM argument
  return dynamicText member row handle arguments

/-- The text of a constant. `argument` resolves the static arguments of a dynamic one. -/
def resolveConstant (pool : Pool) (argument : UInt16 → Except Error String) (index : UInt16) :
    Constant → Except Error String
  | .utf8 text => .ok text
  | .integer value => .ok (toString value)
  | .float bits => .ok (floatText constantWords bits ++ "f")
  | .long value => .ok (toString value ++ "L")
  | .double bits => .ok (doubleText constantWords bits ++ "d")
  | .classInfo name => pool.utf8 name
  | .string text => return quote (← pool.utf8 text)
  | .fieldRef .. | .methodRef .. | .interfaceMethodRef .. => return (← pool.memberRef index).text
  | .nameAndType .. => return (← pool.nameAndType index).text
  | .methodHandle access target => pool.handleText access target
  | .methodType descriptor => pool.utf8 descriptor
  | .dynamic row member | .invokeDynamic row member =>
      pool.resolveDynamic argument index row member
  | .moduleInfo name | .packageInfo name => pool.utf8 name

/--
The text of the constant at `index`, reached through the dynamic constants `visiting`, when
at most `budget` more may be entered.
-/
def resolveWithin (pool : Pool) (budget : Nat) (visiting : List UInt16) (index : UInt16) :
    Except Error String :=
  if visiting.contains index then .error (.reference index .cyclic)
  else match budget with
    | 0 => .error (.tooDeep maxResolveDepth)
    | budget + 1 => do
        let constant ← pool.get index
        pool.resolveConstant (pool.resolveWithin budget (index :: visiting)) index constant

def resolve (pool : Pool) (index : UInt16) : Except Error String :=
  pool.resolveWithin maxResolveDepth [] index

end ClassListing.Pool
