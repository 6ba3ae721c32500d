import ClassListing.ClassFile

/-!
# Editing classes

Changes to a decoded class that leave everything else as it is.
-/

namespace ClassListing

/-- Changes the first code attribute of a list. -/
def Attribute.modifyCode (change : Code → Code) : List Attribute → List Attribute
  | [] => []
  | .code body :: rest => .code (change body) :: rest
  | other :: rest => other :: modifyCode change rest

def Code.modifyInstruction (position : Nat) (change : Instruction → Instruction) (body : Code) :
    Code :=
  { body with instructions := body.instructions.modify position change }

def Member.modifyInstruction (position : Nat) (change : Instruction → Instruction)
    (member : Member) : Member :=
  { member with
    attributes := Attribute.modifyCode (Code.modifyInstruction position change) member.attributes }

/-- Puts other operands in the place of an instruction, which keeps its offset and size. -/
def Instruction.substitute (opcode : UInt8) (wide : Bool) (operands : List Operand)
    (instruction : Instruction) : Instruction :=
  { instruction with opcode, wide, operands }

namespace ClassFile

def modifyInstruction (file : ClassFile) (method position : Nat)
    (change : Instruction → Instruction) : ClassFile :=
  { file with methods := file.methods.modify method (Member.modifyInstruction position change) }

/-- The class with another bootstrap table beside its constants. -/
def withBootstrap (file : ClassFile) (rows : List BootstrapMethod) : ClassFile :=
  { file with pool := { file.pool with bootstrap := rows } }

end ClassFile

end ClassListing
