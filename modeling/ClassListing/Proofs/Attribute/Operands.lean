import ClassListing.Proofs.Code.Tiling
import ClassListing.Proofs.Cursor.Isolation
import ClassListing.Attribute.Decode

/-!
# Operands that name constants

Every instruction with a constant operand asks for constants of some kind, and the code of a decoded
attribute names constants of that kind only.
-/

namespace ClassListing

open Decoder

namespace Layout

def namesConstant : Layout → Bool
  | .constantU1 | .constantU2 | .interfaceCall | .dynamicCall | .multiArray => true
  | _ => false

theorem Fits.namesConstant {start : Nat} {wide : Bool} {layout : Layout} {operands : List Operand}
    (h : layout.Fits start wide operands) {index : UInt16} (hmem : .constant index ∈ operands) :
    layout.namesConstant = true := by
  cases h <;> first | rfl | simp at hmem

end Layout

/-- The table of layouts and the table of roles agree on which opcodes name a constant. -/
theorem Opcode.exists_role {code : UInt8} {opcode : Opcode} (h : ofCode? code = some opcode)
    (hnames : opcode.layout.namesConstant = true) : ∃ role, role? code = some role := by
  have htable : ∀ position < 256, ((ofCode? (UInt8.ofNat position)).any fun found =>
      found.layout.namesConstant) = true → (role? (UInt8.ofNat position)).isSome = true := by
    decide +kernel
  have hcode := htable code.toNat code.toNat_lt
  rw [UInt8.ofNat_toNat, h] at hcode
  exact Option.isSome_iff_exists.mp (hcode hnames)

theorem Instruction.exists_role_of_decodeAll {code : Bytes} {instructions : List Instruction}
    (h : decodeAll code = .ok instructions) {instruction : Instruction}
    (hmem : instruction ∈ instructions) {index : UInt16}
    (hindex : .constant index ∈ instruction.operands) :
    ∃ role, Opcode.role? instruction.opcode = some role := by
  obtain ⟨_, _, _, _, ⟨hcode, _, hfits⟩, _⟩ := (decodeAll_eq_ok_iff.mp h).1.exists_of_mem hmem
  obtain ⟨opcode, hopcode⟩ := Option.isSome_iff_exists.mp hcode
  have hnames := hfits.namesConstant hindex
  rw [layout_of_ofCode? instruction rfl hopcode] at hnames
  exact Opcode.exists_role hopcode hnames

theorem Pool.operand_of_checkCode {pool : Pool} {instructions : List Instruction}
    (h : pool.checkCode instructions = .ok ()) {instruction : Instruction}
    (hmem : instruction ∈ instructions) {role : Constant.Role}
    (hrole : Opcode.role? instruction.opcode = some role) {index : UInt16}
    (hindex : .constant index ∈ instruction.operands) :
    ∃ constant, pool.operand index role = .ok constant := by
  have hcheck := Instruction.forM_eq_ok_iff.mp h instruction hmem
  simp only [Pool.checkOperands, hrole] at hcheck
  have hconstant : index ∈ instruction.constants :=
    List.mem_filterMap.mpr ⟨.constant index, hindex, rfl⟩
  obtain ⟨constant, hoperand, -⟩ :=
    bind_eq_ok_iff.mp (Instruction.forM_eq_ok_iff.mp hcheck index hconstant)
  exact ⟨constant, hoperand⟩

namespace Attribute

/-- Every constant operand has an opcode that asks for a constant, and is of the kind asked for. -/
def OperandsFit (pool : Pool) : Attribute → Prop
  | .code body => ∀ instruction ∈ body.instructions, ∀ index,
      .constant index ∈ instruction.operands → ∃ role constant,
        Opcode.role? instruction.opcode = some role ∧ pool.operand index role = .ok constant
  | _ => True

theorem decodeBody_gives_fit (pool : Pool) (nested : Decoder (List Attribute))
    (kind : AttributeKind) : Gives (OperandsFit pool) (decodeBody pool nested kind) := by
  cases kind with
  | code =>
      have hcode : Gives (fun body => OperandsFit pool (.code body)) (Code.decode pool nested) := by
        refine .bind fun _ => .bind fun _ => .bind fun length => ?_
        dsimp only
        split
        case isTrue => exact .throw _
        refine .bind fun bytes => ?_
        have hdecoded : Gives (fun instructions => Instruction.decodeAll bytes = .ok instructions)
            (lookup (Instruction.decodeAll bytes)) := .lookup fun _ h => h
        refine hdecoded.andThen fun instructions hinstructions => ?_
        have hchecked : Gives (fun _ => pool.checkCode instructions = .ok ())
            (lookup (pool.checkCode instructions)) := .lookup fun _ h => h
        refine hchecked.andThen fun _ hcheck => .bind fun _ => .bind fun _ => .pure ?_
        intro instruction hmem index hindex
        obtain ⟨role, hrole⟩ := Instruction.exists_role_of_decodeAll hinstructions hmem hindex
        obtain ⟨constant, hconstant⟩ := pool.operand_of_checkCode hcheck hmem hrole hindex
        exact ⟨role, constant, hrole, hconstant⟩
      exact hcode.map fun _ hbody => hbody
  | synthetic => exact .pure trivial
  | deprecated => exact .pure trivial
  | enclosingMethod => exact .bind fun _ => .bind fun _ => .pure trivial
  | _ => exact .bind fun _ => .pure trivial

end Attribute

end ClassListing
