import ClassListing.Constant.Pool
import ClassListing.Cursor

/-!
# Stack map frames

The types of the locals and the operand stack at a branch target, each frame as a change from
the one before it.
-/

namespace ClassListing

open Decoder

inductive VerificationType
  | top
  | integer
  | float
  | double
  | long
  | null
  | uninitializedThis
  | object (name : String)
  | uninitialized (offset : UInt16)
deriving DecidableEq

def bracketed (texts : List String) : String :=
  "[" ++ String.intercalate ", " texts ++ "]"

namespace VerificationType

def text : VerificationType → String
  | .top => "top"
  | .integer => "int"
  | .float => "float"
  | .double => "double"
  | .long => "long"
  | .null => "null"
  | .uninitializedThis => "this"
  | .object name => "class " ++ name
  | .uninitialized offset => s!"uninitialized {offset}"

def decode (pool : Pool) : Decoder VerificationType := do
  let tag ← u1
  match tag.toNat with
  | 0 => return .top
  | 1 => return .integer
  | 2 => return .float
  | 3 => return .double
  | 4 => return .long
  | 5 => return .null
  | 6 => return .uninitializedThis
  | 7 => return .object (← reference pool.className)
  | 8 => return .uninitialized (← u2)
  | _ => throw (.format (.verificationTag tag))

/-- Each type takes at least one byte, so the bytes left must be as many as the types. -/
def decodeMany (pool : Pool) (count : Nat) : Decoder (List VerificationType) := do
  ensure count
  many count (decode pool)

end VerificationType

/-- The extended forms hold in two bytes a distance that others pack into the frame type. -/
inductive Frame
  | same (delta : UInt16) (extended : Bool)
  | sameLocals (delta : UInt16) (stack : VerificationType) (extended : Bool)
  | chop (delta : UInt16) (count : UInt8)
  | append (delta : UInt16) (locals : List VerificationType)
  | full (delta : UInt16) (locals stack : List VerificationType)
deriving DecidableEq

namespace Frame

/-- The distance to the frame before, less one. -/
def delta : Frame → UInt16
  | .same delta _ | .sameLocals delta _ _ | .chop delta _ | .append delta _ | .full delta _ _ =>
      delta

def typesText (types : List VerificationType) : String :=
  bracketed (types.map VerificationType.text)

def formName (name : String) (extended : Bool) : String :=
  if extended then name ++ "_extended" else name

def text : Frame → String
  | .same delta extended => formName "same_frame" extended ++ s!" offset_delta={delta}"
  | .sameLocals delta stack extended =>
      formName "same_locals_1_stack_item_frame" extended ++ s!" offset_delta={delta} stack=" ++
        typesText [stack]
  | .chop delta count => s!"chop_frame offset_delta={delta} chopped={count}"
  | .append delta locals => s!"append_frame offset_delta={delta} locals=" ++ typesText locals
  | .full delta locals stack =>
      s!"full_frame offset_delta={delta} locals=" ++ typesText locals ++ " stack=" ++
        typesText stack

def decode (pool : Pool) : Decoder Frame := do
  let type ← u1
  if type < 64 then return .same type.toUInt16 false
  else if type < 128 then
    return .sameLocals (type - 64).toUInt16 (← VerificationType.decode pool) false
  else if type < 247 then throw (.format (.reservedFrame type))
  else if type = 247 then return .sameLocals (← u2) (← VerificationType.decode pool) true
  else if type < 251 then return .chop (← u2) (251 - type)
  else if type = 251 then return .same (← u2) true
  else if type < 255 then
    return .append (← u2) (← VerificationType.decodeMany pool (type - 251).toNat)
  else
    let delta ← u2
    let locals ← VerificationType.decodeMany pool (← u2).toNat
    let stack ← VerificationType.decodeMany pool (← u2).toNat
    return .full delta locals stack

def decodeTable (pool : Pool) : Decoder (List Frame) :=
  countedU2 (decode pool)

end Frame

end ClassListing
