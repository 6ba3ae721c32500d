import ClassListing.Constant.Kind
import ClassListing.Text

/-!
# Why a class file is refused

Each fault is a cause with the values that describe it. The wording of a cause stands in one
place, its `message`.
-/

namespace ClassListing

open Constant Text

/-- What is wrong with a reference into the constant pool. -/
inductive IndexFault
  | zero
  | secondHalf
  | pastEnd (slots : Nat)
  | wrongKind (expected : String) (found : Kind)
  | cyclic
  | noBootstrap (row : UInt16) (rows : Nat)
deriving DecidableEq

def IndexFault.message : IndexFault → String
  | .zero => "index 0 is not a valid entry"
  | .secondHalf => "slot is the second half of an 8-byte constant"
  | .pastEnd slots => s!"past the end of a pool with {slots} slots"
  | .wrongKind expected found => "expected " ++ expected ++ ", found " ++ found.name
  | .cyclic => "cyclic constant reference"
  | .noBootstrap row rows => s!"bootstrap method #{row} is outside a table of {rows} entries"

/-- What is wrong with one instruction of a code array. -/
inductive CodeFault
  | cutOff
  | unknownOpcode (opcode : UInt8)
  | wideBefore (opcode : UInt8)
  | wideAlone
  | arrayType (code : UInt8)
  | invertedTable (high low : Int32)
  | negativePairs (count : Int32)
  | targetOutside (target : Int)
  | targetInside (mnemonic : String) (target : UInt32)
  | pastLimit
deriving DecidableEq

def CodeFault.message : CodeFault → String
  | .cutOff => "instruction runs past the end of the code array"
  | .unknownOpcode opcode => "unknown opcode 0x" ++ hexByte opcode
  | .wideBefore opcode => "wide prefix before opcode 0x" ++ hexByte opcode
  | .wideAlone => "wide prefix applied to wide"
  | .arrayType code => s!"invalid newarray type {code}"
  | .invertedTable high low => s!"tableswitch high {high} is below low {low}"
  | .negativePairs count => s!"negative lookupswitch pair count {count}"
  | .targetOutside target => s!"branch target {target} is outside the code array"
  | .targetInside mnemonic target =>
      s!"{mnemonic} targets offset {target} which is not an instruction boundary"
  | .pastLimit => "offset exceeds the code length limit"

/-- What is wrong with a field or method descriptor. -/
inductive DescriptorFault
  | dimensions
  | unterminatedClass
  | emptyClass
  | unexpected (char : Char)
  | endedEarly
  | trailingField
  | noParameters
  | unterminatedParameters
  | trailingMethod
deriving DecidableEq

def DescriptorFault.message : DescriptorFault → String
  | .dimensions => "More than 255 array dimensions"
  | .unterminatedClass => "Unterminated class type"
  | .emptyClass => "Empty class name"
  | .unexpected char => "Unexpected '" ++ char.toString ++ "' in descriptor"
  | .endedEarly => "Descriptor ended early"
  | .trailingField => "Trailing characters in field descriptor"
  | .noParameters => "Method descriptor does not start with '('"
  | .unterminatedParameters => "Unterminated parameter list"
  | .trailingMethod => "Trailing characters in method descriptor"

/-- What is wrong with a value that was read in full. -/
inductive FormatFault
  | emptyPool
  | unknownTag (tag : UInt8) (index : Nat)
  | handleKind (kind : UInt8) (index : Nat)
  | wideInLastSlot (index : Nat)
  | codeLength (length : UInt32)
  | reservedFrame (type : UInt8)
  | verificationTag (tag : UInt8)
  | elementTag (tag : UInt8)
  | annotationTarget (type : UInt8)
  | descriptor (fault : DescriptorFault) (text : String)
deriving DecidableEq

def FormatFault.message : FormatFault → String
  | .emptyPool => "constant_pool_count must be at least 1"
  | .unknownTag tag index => s!"Unknown constant pool tag {tag} at index {index}"
  | .handleKind kind index =>
      s!"Invalid method handle kind {kind} at constant pool index {index}"
  | .wideInLastSlot index => s!"8-byte constant at index {index} occupies the last pool slot"
  | .codeLength length => s!"Invalid code length {length}"
  | .reservedFrame type => s!"Reserved stack map frame type {type}"
  | .verificationTag tag => s!"Unknown verification type tag {tag}"
  | .elementTag tag => "Unknown element value tag 0x" ++ hexByte tag
  | .annotationTarget type => "Unknown type annotation target 0x" ++ hexByte type
  | .descriptor fault text => fault.message ++ " - " ++ text

/-- What is wrong with the body of an attribute. -/
inductive AttributeFault
  | needsMore (declared : Nat)
  | leftUnread (left declared : Nat)
  | format (fault : FormatFault)
deriving DecidableEq

def AttributeFault.message : AttributeFault → String
  | .needsMore declared => s!"body needs more than the declared {declared} bytes"
  | .leftUnread left declared => s!"{left} of {declared} declared bytes left unread"
  | .format fault => fault.message

inductive Error
  | truncated
  | notAClassFile (magic : UInt32)
  | reference (index : UInt16) (fault : IndexFault)
  | attributeBody (name : String) (fault : AttributeFault)
  | code (offset : Nat) (fault : CodeFault)
  | format (fault : FormatFault)
  | trailing (count : Nat)
  | tooDeep (limit : Nat)
  | unreadable
deriving DecidableEq

/-- The text of an error. A source that could not be read has none of its own. -/
def Error.message? : Error → Option String
  | .truncated => some "Truncated input - a read exceeded the remaining buffer"
  | .notAClassFile magic => some ("Not a class file - magic 0x" ++ hexPadded 8 magic.toNat)
  | .reference index fault => some (s!"Invalid constant pool index #{index}: " ++ fault.message)
  | .attributeBody name fault => some ("Malformed attribute " ++ name ++ ": " ++ fault.message)
  | .code offset fault => some (s!"Malformed code at offset {offset}: " ++ fault.message)
  | .format fault => some fault.message
  | .trailing count => some s!"{count} trailing bytes after the end of the class file"
  | .tooDeep limit => some s!"Reach the maximum recursion level allowed - {limit}"
  | .unreadable => none

end ClassListing
