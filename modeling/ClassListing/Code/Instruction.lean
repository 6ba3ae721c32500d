import ClassListing.Constant.Kind

/-!
# Instructions

The mnemonic and operand layout of every opcode from 0x00 to 0xC9 (the bytes above them are no
opcodes), and an instruction with the operands that its layout asks for.
-/

namespace ClassListing

open Constant

/-- The operand bytes that follow an opcode. -/
inductive Layout
  | plain
  | byte
  | short
  | constantU1
  | constantU2
  | slot
  | increment
  | branch
  | branchWide
  | arrayType
  | interfaceCall
  | dynamicCall
  | multiArray
  | tableSwitch
  | lookupSwitch
  | wide
deriving DecidableEq

/-- Whether the `wide` marker may stand before an opcode with this layout. -/
def Layout.widens : Layout → Bool
  | .slot | .increment => true
  | _ => false

structure Opcode where
  mnemonic : String
  layout : Layout
deriving DecidableEq

namespace Opcode

/-- The mnemonics in the order of their opcodes, in runs of one layout. -/
def runs : List (Layout × List String) :=
  [
    (.plain, ["nop", "aconst_null", "iconst_m1", "iconst_0", "iconst_1", "iconst_2", "iconst_3",
      "iconst_4", "iconst_5", "lconst_0", "lconst_1", "fconst_0", "fconst_1", "fconst_2",
      "dconst_0", "dconst_1"]),
    (.byte, ["bipush"]),
    (.short, ["sipush"]),
    (.constantU1, ["ldc"]),
    (.constantU2, ["ldc_w", "ldc2_w"]),
    (.slot, ["iload", "lload", "fload", "dload", "aload"]),
    (.plain, ["iload_0", "iload_1", "iload_2", "iload_3", "lload_0", "lload_1", "lload_2",
      "lload_3", "fload_0", "fload_1", "fload_2", "fload_3", "dload_0", "dload_1", "dload_2",
      "dload_3", "aload_0", "aload_1", "aload_2", "aload_3", "iaload", "laload", "faload",
      "daload", "aaload", "baload", "caload", "saload"]),
    (.slot, ["istore", "lstore", "fstore", "dstore", "astore"]),
    (.plain, ["istore_0", "istore_1", "istore_2", "istore_3", "lstore_0", "lstore_1",
      "lstore_2", "lstore_3", "fstore_0", "fstore_1", "fstore_2", "fstore_3", "dstore_0",
      "dstore_1", "dstore_2", "dstore_3", "astore_0", "astore_1", "astore_2", "astore_3",
      "iastore", "lastore", "fastore", "dastore", "aastore", "bastore", "castore", "sastore",
      "pop", "pop2", "dup", "dup_x1", "dup_x2", "dup2", "dup2_x1", "dup2_x2", "swap", "iadd",
      "ladd", "fadd", "dadd", "isub", "lsub", "fsub", "dsub", "imul", "lmul", "fmul", "dmul",
      "idiv", "ldiv", "fdiv", "ddiv", "irem", "lrem", "frem", "drem", "ineg", "lneg", "fneg",
      "dneg", "ishl", "lshl", "ishr", "lshr", "iushr", "lushr", "iand", "land", "ior", "lor",
      "ixor", "lxor"]),
    (.increment, ["iinc"]),
    (.plain, ["i2l", "i2f", "i2d", "l2i", "l2f", "l2d", "f2i", "f2l", "f2d", "d2i", "d2l",
      "d2f", "i2b", "i2c", "i2s", "lcmp", "fcmpl", "fcmpg", "dcmpl", "dcmpg"]),
    (.branch, ["ifeq", "ifne", "iflt", "ifge", "ifgt", "ifle", "if_icmpeq", "if_icmpne",
      "if_icmplt", "if_icmpge", "if_icmpgt", "if_icmple", "if_acmpeq", "if_acmpne", "goto",
      "jsr"]),
    (.slot, ["ret"]),
    (.tableSwitch, ["tableswitch"]),
    (.lookupSwitch, ["lookupswitch"]),
    (.plain, ["ireturn", "lreturn", "freturn", "dreturn", "areturn", "return"]),
    (.constantU2, ["getstatic", "putstatic", "getfield", "putfield", "invokevirtual",
      "invokespecial", "invokestatic"]),
    (.interfaceCall, ["invokeinterface"]),
    (.dynamicCall, ["invokedynamic"]),
    (.constantU2, ["new"]),
    (.arrayType, ["newarray"]),
    (.constantU2, ["anewarray"]),
    (.plain, ["arraylength", "athrow"]),
    (.constantU2, ["checkcast", "instanceof"]),
    (.plain, ["monitorenter", "monitorexit"]),
    (.wide, ["wide"]),
    (.multiArray, ["multianewarray"]),
    (.branch, ["ifnull", "ifnonnull"]),
    (.branchWide, ["goto_w", "jsr_w"])
  ]

def table : Array Opcode :=
  (runs.flatMap fun (layout, mnemonics) => mnemonics.map (Opcode.mk · layout)).toArray

def ofCode? (code : UInt8) : Option Opcode := table[code.toNat]?

def wideCode : UInt8 := 0xC4

def role? (code : UInt8) : Option Role :=
  if code = 0x12 || code = 0x13 then some .loadable
  else if code = 0x14 then some .wideLoadable
  else if 0xB2 ≤ code && code ≤ 0xB5 then some .field
  else if 0xB6 ≤ code && code ≤ 0xB8 then some .method
  else if code = 0xB9 then some .interfaceMethod
  else if code = 0xBA then some .callSite
  else if [0xBB, 0xBD, 0xC0, 0xC1, 0xC5].contains code then some .classInfo
  else none

end Opcode

def arrayTypeName? (code : UInt8) : Option String :=
  match code.toNat with
  | 4 => some "boolean"
  | 5 => some "char"
  | 6 => some "float"
  | 7 => some "double"
  | 8 => some "byte"
  | 9 => some "short"
  | 10 => some "int"
  | 11 => some "long"
  | _ => none

/-- Targets are absolute offsets in the code array. -/
inductive Operand
  | constant (index : UInt16)
  | slot (index : UInt16)
  | immediate (value : Int32)
  | arrayType (code : UInt8)
  | branch (target : UInt32)
  | switch (otherwise : UInt32) (cases : List (Int32 × UInt32))
deriving DecidableEq

def Operand.targets : Operand → List UInt32
  | .branch target => [target]
  | .switch otherwise cases => otherwise :: cases.map (·.2)
  | _ => []

/-- An instruction after a `wide` marker has the opcode that the marker stands before. -/
structure Instruction where
  offset : UInt32
  opcode : UInt8
  wide : Bool
  size : UInt32
  operands : List Operand
deriving DecidableEq

namespace Instruction

def mnemonic (instruction : Instruction) : String :=
  match Opcode.ofCode? instruction.opcode with
  | some opcode => opcode.mnemonic
  | none => ""

/-- Every offset that the instruction may jump to; of a switch, the default comes first. -/
def targets (instruction : Instruction) : List UInt32 :=
  instruction.operands.flatMap Operand.targets

def nextOffset (instruction : Instruction) : UInt32 :=
  instruction.offset + instruction.size

end Instruction

end ClassListing
