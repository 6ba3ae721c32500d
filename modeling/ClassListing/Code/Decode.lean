import ClassListing.Code.Instruction
import ClassListing.Cursor

/-!
# Decoding code arrays

Every byte of a code array belongs to one instruction, so the array is swept from front to
back. Afterwards each branch target is looked up among the offsets where instructions start.
-/

namespace ClassListing

/-! ## Sets of offsets -/

structure OffsetSet where
  size : Nat
  words : Array UInt64
deriving DecidableEq

namespace OffsetSet

def empty (size : Nat) : OffsetSet :=
  ⟨size, Array.replicate ((size + 63) / 64) 0⟩

def bit (offset : Nat) : UInt64 := 1 <<< UInt64.ofNat (offset % 64)

/-- An offset that is not below the size is never in the set. -/
def contains (set : OffsetSet) (offset : Nat) : Bool :=
  offset < set.size && match set.words[offset / 64]? with
    | some word => word &&& bit offset != 0
    | none => false

/-- An offset that is not below the size is left out. -/
def insert (set : OffsetSet) (offset : Nat) : OffsetSet :=
  if offset < set.size then
    { set with words := set.words.modify (offset / 64) (· ||| bit offset) }
  else set

end OffsetSet

/-! ## Instructions -/

open Decoder

namespace Instruction

def fault (start : Nat) (cause : CodeFault) : Decoder α :=
  throw (.code start cause)

def offsetBound : Nat := 0x100000000

def checkedOffset (count : Nat) : Decoder UInt32 :=
  if count < offsetBound then pure (.ofNat count) else fault count .pastLimit

/-- The absolute target `delta` bytes from `start`. -/
def target (start : Nat) (delta : Int) : Decoder UInt32 :=
  let offset := (start : Int) + delta
  if 0 ≤ offset ∧ offset < offsetBound then pure (.ofNat offset.toNat)
  else fault start (.targetOutside offset)

def wideTarget (start : Nat) : Decoder UInt32 := do
  target start (← i4).toInt

def slotIndex (wide : Bool) : Decoder UInt16 := do
  if wide then u2 else return (← u1).toUInt16

def incrementValue (wide : Bool) : Decoder Int32 := do
  if wide then return (← i2).toInt32 else return (← i1).toInt32

def tableCases (start : Nat) (low : Int) (count : Nat) : Decoder (List (Int32 × UInt32)) := do
  let targets ← many count (wideTarget start)
  return targets.zipIdx.map fun (target, step) => (Int32.ofInt (low + step), target)

def tableSwitch (start : Nat) : Decoder Operand := do
  align 4
  let otherwise ← wideTarget start
  let low ← i4
  let high ← i4
  if high < low then fault start (.invertedTable high low)
  let count := (high.toInt - low.toInt + 1).toNat
  ensure (count * 4)
  return .switch otherwise (← tableCases start low.toInt count)

def lookupSwitch (start : Nat) : Decoder Operand := do
  align 4
  let otherwise ← wideTarget start
  let pairs ← i4
  if pairs < 0 then fault start (.negativePairs pairs)
  let count := pairs.toInt.toNat
  ensure (count * 8)
  return .switch otherwise (← many count (return (← i4, ← wideTarget start)))

def operandsOf (start : Nat) (wide : Bool) : Layout → Decoder (List Operand)
  | .plain => return []
  | .byte => return [.immediate (← i1).toInt32]
  | .short => return [.immediate (← i2).toInt32]
  | .constantU1 => return [.constant (← u1).toUInt16]
  | .constantU2 => return [.constant (← u2)]
  | .slot => return [.slot (← slotIndex wide)]
  | .increment => return [.slot (← slotIndex wide), .immediate (← incrementValue wide)]
  | .branch => return [.branch (← target start (← i2).toInt)]
  | .branchWide => return [.branch (← wideTarget start)]
  | .arrayType => do
      let code ← u1
      if (arrayTypeName? code).isNone then fault start (.arrayType code)
      return [.arrayType code]
  | .interfaceCall => do
      let index ← u2
      let count ← u1
      skip 1
      return [.constant index, .immediate (.ofNat count.toNat)]
  | .dynamicCall => do
      let index ← u2
      skip 2
      return [.constant index]
  | .multiArray => return [.constant (← u2), .immediate (.ofNat (← u1).toNat)]
  | .tableSwitch => return [← tableSwitch start]
  | .lookupSwitch => return [← lookupSwitch start]
  | .wide => fault start .wideAlone

/-- The opcode that a `wide` marker at `start` stands before. -/
def widened (start : Nat) : Decoder UInt8 := do
  let code ← peek
  if (Opcode.ofCode? code).any (·.layout.widens) then
    skip 1
    return code
  else fault start (.wideBefore code)

/-- The instruction with opcode `code`, of which only the operands are still to be read. -/
def complete (start : Nat) (offset : UInt32) (wide : Bool) (code : UInt8) :
    Decoder Instruction :=
  match Opcode.ofCode? code with
  | none => fault start (.unknownOpcode code)
  | some opcode => do
      let operands ← operandsOf start wide opcode.layout
      let size ← checkedOffset ((← pos) - start)
      return ⟨offset, code, wide, size, operands⟩

def decodeFrom (start : Nat) : Decoder Instruction := do
  let offset ← checkedOffset start
  let first ← u1
  if first = Opcode.wideCode then complete start offset true (← widened start)
  else complete start offset false first

/-- The next instruction. One that needs more bytes than are left is a fault of the code. -/
def decode : Decoder Instruction := fun cursor =>
  match decodeFrom cursor.pos cursor with
  | .error .truncated stopped => .error (.code cursor.pos .cutOff) stopped
  | result => result

/--
Instructions up to the end of the bytes. Each takes at least one byte, so `fuel` bytes hold no
more than `fuel` instructions.
-/
def sweepAux : (fuel : Nat) → List Instruction → Decoder (List Instruction)
  | 0, decoded => pure decoded.reverse
  | fuel + 1, decoded => do
      if ← hasMore then
        let instruction ← decode
        sweepAux fuel (instruction :: decoded)
      else pure decoded.reverse

def sweep (code : Bytes) : Except Error (List Instruction) :=
  (sweepAux code.length []).runOn code

def starts (size : Nat) (instructions : List Instruction) : OffsetSet :=
  instructions.foldl (fun set instruction => set.insert instruction.offset.toNat) (.empty size)

def checkTargets (boundaries : OffsetSet) (instruction : Instruction) : Except Error Unit :=
  match instruction.targets.find? fun target => !boundaries.contains target.toNat with
  | some target =>
      .error (.code instruction.offset.toNat (.targetInside instruction.mnemonic target))
  | none => .ok ()

/-- The instructions of a code array, every branch of which leads to one of them. -/
def decodeAll (code : Bytes) : Except Error (List Instruction) := do
  let instructions ← sweep code
  let boundaries := starts code.length instructions
  instructions.forM (checkTargets boundaries)
  return instructions

end Instruction

end ClassListing
