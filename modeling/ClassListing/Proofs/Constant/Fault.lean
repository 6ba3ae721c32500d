import ClassListing.Constant.Decode
import ClassListing.Proofs.Cursor.Fault

/-!
# The errors of the constant pool

A lookup fails only with an error that names an index of the pool. A pool that is decoded is
refused for what stands in it.
-/

namespace ClassListing

open Decoder Error

namespace Pool

theorem get_blames (pool : Pool) (index : UInt16) : Blames OfReference (pool.get index) := by
  unfold get
  split
  · exact .error trivial
  · split
    · exact .ok _
    · exact .error trivial
    · exact .error trivial

/-- A lookup that takes one kind of constant and refuses every other. -/
theorem get_bind_blames (pool : Pool) (index : UInt16) {next : Constant → Except Error α}
    (h : ∀ constant, Blames OfReference (next constant)) :
    Blames OfReference (pool.get index >>= next) :=
  .bind (pool.get_blames index) h

theorem optional_blames {lookup : UInt16 → Except Error α}
    (h : ∀ index, Blames OfReference (lookup index)) (index : UInt16) :
    Blames OfReference (optional lookup index) := by
  unfold optional
  split
  · exact .ok none
  · exact .bind (h index) fun _ => .ok _

variable (pool : Pool) (index : UInt16)

theorem operand_blames (role : Constant.Role) : Blames OfReference (pool.operand index role) := by
  refine get_bind_blames pool index fun constant => ?_
  split
  · exact .ok constant
  · exact .error trivial

theorem utf8_blames : Blames OfReference (pool.utf8 index) := by
  refine get_bind_blames pool index fun constant => ?_
  cases constant with
  | utf8 text => exact .ok text
  | _ => exact .error trivial

theorem className_blames : Blames OfReference (pool.className index) := by
  refine get_bind_blames pool index fun constant => ?_
  cases constant with
  | classInfo name => exact pool.utf8_blames name
  | _ => exact .error trivial

theorem moduleName_blames : Blames OfReference (pool.moduleName index) := by
  refine get_bind_blames pool index fun constant => ?_
  cases constant with
  | moduleInfo name => exact pool.utf8_blames name
  | _ => exact .error trivial

theorem packageName_blames : Blames OfReference (pool.packageName index) := by
  refine get_bind_blames pool index fun constant => ?_
  cases constant with
  | packageInfo name => exact pool.utf8_blames name
  | _ => exact .error trivial

theorem nameAndType_blames : Blames OfReference (pool.nameAndType index) := by
  refine get_bind_blames pool index fun constant => ?_
  cases constant with
  | nameAndType name descriptor =>
      exact .bind (pool.utf8_blames name) fun _ =>
        .bind (pool.utf8_blames descriptor) fun _ => .ok _
  | _ => exact .error trivial

theorem integer_blames : Blames OfReference (pool.integer index) := by
  refine get_bind_blames pool index fun constant => ?_
  cases constant with
  | integer value => exact .ok value
  | _ => exact .error trivial

theorem float_blames : Blames OfReference (pool.float index) := by
  refine get_bind_blames pool index fun constant => ?_
  cases constant with
  | float bits => exact .ok bits
  | _ => exact .error trivial

theorem long_blames : Blames OfReference (pool.long index) := by
  refine get_bind_blames pool index fun constant => ?_
  cases constant with
  | long value => exact .ok value
  | _ => exact .error trivial

theorem double_blames : Blames OfReference (pool.double index) := by
  refine get_bind_blames pool index fun constant => ?_
  cases constant with
  | double bits => exact .ok bits
  | _ => exact .error trivial

theorem constantValue_blames : Blames OfReference (pool.constantValue index) := by
  refine get_bind_blames pool index fun constant => ?_
  cases constant with
  | integer _ | float _ | long _ | double _ | string _ => exact .ok index
  | _ => exact .error trivial

end Pool

/-! ## Decoding -/

theorem Constant.decodeFields_blames (index : Nat) (tag : UInt8) :
    Decoder.Blames OfContent (Constant.decodeFields index tag) := by
  have hone : Decoder.Blames OfContent u2 := .u2 trivial
  have htwo (wrap : UInt16 → UInt16 → Constant) : Decoder.Blames OfContent (do
      return wrap (← u2) (← u2)) := .bind hone fun _ => .map hone _
  unfold Constant.decodeFields
  split
  · exact .bind hone fun length => .map (.text trivial length.toNat) _
  · exact .map (.i4 trivial) _
  · exact .map (.u4 trivial) _
  · exact .map (.i8 trivial) _
  · exact .map (.u8 trivial) _
  · exact .map hone _
  · exact .map hone _
  · exact htwo _
  · exact htwo _
  · exact htwo _
  · exact htwo _
  · refine .bind (.u1 trivial) fun kind => ?_
    split
    · exact .map hone _
    · exact .throw trivial
  · exact .map hone _
  · exact htwo _
  · exact htwo _
  · exact .map hone _
  · exact .map hone _
  · exact .throw trivial

theorem Constant.decode_blames (index : Nat) :
    Decoder.Blames OfContent (Constant.decode index) :=
  .bind (.u1 trivial) fun tag => Constant.decodeFields_blames index tag

theorem Pool.decodeSlots_blames (slots : Array (Option Constant)) (count : Nat) :
    Decoder.Blames OfContent (Pool.decodeSlots slots count) := by
  induction slots, count using Pool.decodeSlots.induct with
  | case1 slots => exact .pure slots
  | case2 slots => exact .bind (Constant.decode_blames _) fun _ => .ite (.throw trivial) (.pure _)
  | case3 slots count ihWide ihNarrow =>
      exact .bind (Constant.decode_blames _) fun constant =>
        .ite (ihWide constant) (ihNarrow constant)

theorem Pool.decode_blames : Decoder.Blames OfContent Pool.decode :=
  .bind (.u2 trivial) fun _ => .ite (.throw trivial) (.map (Pool.decodeSlots_blames _ _) _)

end ClassListing
