import ClassListing.Code.Instruction
import ClassListing.Proofs.Bytes
import Mathlib.Data.List.Chain

/-!
# Writing code arrays

The bytes of an instruction: the `wide` marker if there is one, the opcode, and the operands in
the layout of the opcode. Targets are written as distances from the start of the instruction.
Some operand bytes mean nothing: the padding in front of a switch, and the reserved bytes at the
end of two call instructions. The writing takes them as a parameter; they are zeros in code that
is written for its own sake.
-/

namespace ClassListing

/--
The places that an operand leads to: that of a branch, and the default and every case of a
switch.
-/
inductive Operand.LeadsTo : Operand → UInt32 → Prop
  | branch (target : UInt32) : LeadsTo (.branch target) target
  | otherwise (target : UInt32) (cases : List (Int32 × UInt32)) :
      LeadsTo (.switch target cases) target
  | case (otherwise : UInt32) {cases : List (Int32 × UInt32)} {item : Int32 × UInt32}
      (h : item ∈ cases) : LeadsTo (.switch otherwise cases) item.2

theorem Operand.mem_targets_iff {operand : Operand} {target : UInt32} :
    target ∈ operand.targets ↔ operand.LeadsTo target := by
  constructor
  · intro h
    cases operand with
    | branch target =>
        obtain rfl := List.mem_singleton.mp h
        exact .branch target
    | switch otherwise cases =>
        rcases List.mem_cons.mp h with rfl | hcase
        · exact .otherwise target cases
        · obtain ⟨item, hitem, rfl⟩ := List.mem_map.mp hcase
          exact .case otherwise hitem
    | _ => cases h
  · intro h
    cases h with
    | branch target => exact List.mem_singleton.mpr rfl
    | otherwise target cases => exact List.mem_cons_self
    | case otherwise hitem => exact List.mem_cons_of_mem _ (List.mem_map_of_mem hitem)

theorem Instruction.forall_targets_iff {instruction : Instruction} {holds : UInt32 → Prop} :
    (∀ target ∈ instruction.targets, holds target) ↔
      ∀ operand ∈ instruction.operands, ∀ target, operand.LeadsTo target → holds target := by
  simp only [targets, List.mem_flatMap, Operand.mem_targets_iff]
  exact ⟨fun h operand hm target ht => h target ⟨operand, hm, ht⟩,
    fun h target ⟨operand, hm, ht⟩ => h operand hm target ht⟩

namespace Layout

/-- The bytes without meaning in a layout whose operands start at `pos`. -/
def slack (pos : Nat) : Layout → Nat
  | .interfaceCall => 1
  | .dynamicCall => 2
  | .tableSwitch | .lookupSwitch => (4 - pos % 4) % 4
  | _ => 0

def slackStart (start : Nat) : Layout → Nat
  | .interfaceCall => start + 4
  | .dynamicCall => start + 3
  | _ => start + 1

def slotWidth (wide : Bool) : Nat := if wide then 2 else 1

def distance (start : Nat) (target : UInt32) : Int := (target.toNat : Int) - start

def bounds (cases : List (Int32 × UInt32)) : Int × Int :=
  ((cases.head?.map (·.1.toInt)).getD 0, (cases.getLast?.map (·.1.toInt)).getD 0)

def write (start : Nat) (wide : Bool) (filler : Bytes) : Layout → List Operand → Bytes
  | .byte, [.immediate value] => Bytes.ofInt 1 value.toInt
  | .short, [.immediate value] => Bytes.ofInt 2 value.toInt
  | .constantU1, [.constant index] => Bytes.ofNat 1 index.toNat
  | .constantU2, [.constant index] => Bytes.ofNat 2 index.toNat
  | .slot, [.slot index] => Bytes.ofNat (slotWidth wide) index.toNat
  | .increment, [.slot index, .immediate value] =>
      Bytes.ofNat (slotWidth wide) index.toNat ++ Bytes.ofInt (slotWidth wide) value.toInt
  | .branch, [.branch target] => Bytes.ofInt 2 (distance start target)
  | .branchWide, [.branch target] => Bytes.ofInt 4 (distance start target)
  | .arrayType, [.arrayType code] => [code]
  | .interfaceCall, [.constant index, .immediate count] =>
      Bytes.ofNat 2 index.toNat ++ Bytes.ofInt 1 count.toInt ++ filler
  | .dynamicCall, [.constant index] => Bytes.ofNat 2 index.toNat ++ filler
  | .multiArray, [.constant index, .immediate count] =>
      Bytes.ofNat 2 index.toNat ++ Bytes.ofInt 1 count.toInt
  | .tableSwitch, [.switch otherwise cases] =>
      filler ++ Bytes.ofInt 4 (distance start otherwise) ++ Bytes.ofInt 4 (bounds cases).1 ++
        Bytes.ofInt 4 (bounds cases).2 ++
        cases.flatMap fun item => Bytes.ofInt 4 (distance start item.2)
  | .lookupSwitch, [.switch otherwise cases] =>
      filler ++ Bytes.ofInt 4 (distance start otherwise) ++ Bytes.ofInt 4 cases.length ++
        cases.flatMap fun item =>
          Bytes.ofInt 4 item.1.toInt ++ Bytes.ofInt 4 (distance start item.2)
  | _, _ => []

/-- The operands have the shape and the range that the layout can hold. -/
inductive Fits (start : Nat) (wide : Bool) : Layout → List Operand → Prop
  | plain : Fits start wide .plain []
  | byte {value : Int32} (hv : Bytes.HoldsInt 1 value.toInt) :
      Fits start wide .byte [.immediate value]
  | short {value : Int32} (hv : Bytes.HoldsInt 2 value.toInt) :
      Fits start wide .short [.immediate value]
  | constantU1 {index : UInt16} (hi : index.toNat < 256) :
      Fits start wide .constantU1 [.constant index]
  | constantU2 {index : UInt16} : Fits start wide .constantU2 [.constant index]
  | slot {index : UInt16} (hi : index.toNat < 256 ^ slotWidth wide) :
      Fits start wide .slot [.slot index]
  | increment {index : UInt16} {value : Int32} (hi : index.toNat < 256 ^ slotWidth wide)
      (hv : Bytes.HoldsInt (slotWidth wide) value.toInt) :
      Fits start wide .increment [.slot index, .immediate value]
  | branch {target : UInt32} (ht : Bytes.HoldsInt 2 (distance start target)) :
      Fits start wide .branch [.branch target]
  | branchWide {target : UInt32} (ht : Bytes.HoldsInt 4 (distance start target)) :
      Fits start wide .branchWide [.branch target]
  | arrayType {code : UInt8} (hl : 4 ≤ code) (hu : code ≤ 11) :
      Fits start wide .arrayType [.arrayType code]
  | interfaceCall {index : UInt16} {count : Int32} (hl : 0 ≤ count.toInt)
      (hu : count.toInt < 256) :
      Fits start wide .interfaceCall [.constant index, .immediate count]
  | dynamicCall {index : UInt16} : Fits start wide .dynamicCall [.constant index]
  | multiArray {index : UInt16} {count : Int32} (hl : 0 ≤ count.toInt) (hu : count.toInt < 256) :
      Fits start wide .multiArray [.constant index, .immediate count]
  | tableSwitch {otherwise : UInt32} {cases : List (Int32 × UInt32)}
      (ho : Bytes.HoldsInt 4 (distance start otherwise)) (hne : cases ≠ [])
      (hc : cases.IsChain fun item next => next.1.toInt = item.1.toInt + 1)
      (ht : ∀ item ∈ cases, Bytes.HoldsInt 4 (distance start item.2)) :
      Fits start wide .tableSwitch [.switch otherwise cases]
  -- The number of pairs is a signed word too; code below the offset bound never reaches its limit.
  | lookupSwitch {otherwise : UInt32} {cases : List (Int32 × UInt32)}
      (ho : Bytes.HoldsInt 4 (distance start otherwise)) (hn : Bytes.HoldsInt 4 cases.length)
      (ht : ∀ item ∈ cases, Bytes.HoldsInt 4 (distance start item.2)) :
      Fits start wide .lookupSwitch [.switch otherwise cases]

end Layout

namespace Instruction

/-- The layout of the opcode; that of an instruction without operands if there is no such opcode. -/
def layout (instruction : Instruction) : Layout :=
  match Opcode.ofCode? instruction.opcode with
  | some opcode => opcode.layout
  | none => .plain

def Fits (instruction : Instruction) : Prop :=
  (Opcode.ofCode? instruction.opcode).isSome ∧
    (instruction.wide = true → instruction.layout = .slot ∨ instruction.layout = .increment) ∧
    instruction.layout.Fits instruction.offset.toNat instruction.wide instruction.operands

def slack (instruction : Instruction) : Nat :=
  instruction.layout.slack (instruction.offset.toNat + 1)

/-- The bytes of an instruction, with `filler` in the places that mean nothing. -/
def write (filler : Bytes) (instruction : Instruction) : Bytes :=
  (if instruction.wide then [0xC4] else []) ++ instruction.opcode ::
    instruction.layout.write instruction.offset.toNat instruction.wide filler instruction.operands

def encode (instruction : Instruction) : Bytes :=
  instruction.write (List.replicate instruction.slack 0)

def encodeAll (instructions : List Instruction) : Bytes :=
  instructions.flatMap encode

/-- The positions in the code array of the bytes without meaning. -/
def unused (instruction : Instruction) : List Nat :=
  List.range' (instruction.layout.slackStart instruction.offset.toNat) instruction.slack

end Instruction

end ClassListing
