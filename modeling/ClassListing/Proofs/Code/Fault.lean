import ClassListing.Code.Decode
import ClassListing.Proofs.Cursor.Fault

/-!
# The errors of code arrays

Every error of a code array is one of its instructions, and names the offset where that instruction
starts. Inside an instruction missing bytes may still be blamed; the instruction turns them into a
fault of its own.
-/

namespace ClassListing

open Decoder Error

namespace Instruction

section Parts

variable (start : Nat) (wide : Bool)

theorem fault_blames (cause : CodeFault) :
    Decoder.Blames (OfInstruction start) (fault start cause : Decoder α) :=
  .throw rfl

theorem target_blames (delta : Int) :
    Decoder.Blames (OfInstruction start) (target start delta) :=
  .ite (.pure _) (fault_blames start _)

theorem wideTarget_blames : Decoder.Blames (OfInstruction start) (wideTarget start) :=
  .bind (.i4 trivial) fun _ => target_blames start _

theorem slotIndex_blames : Decoder.Blames (OfInstruction start) (slotIndex wide) := by
  cases wide with
  | false => exact .map (.u1 trivial) _
  | true => exact .u2 trivial

theorem incrementValue_blames : Decoder.Blames (OfInstruction start) (incrementValue wide) := by
  cases wide with
  | false => exact .map (.i1 trivial) _
  | true => exact .map (.i2 trivial) _

theorem tableSwitch_blames : Decoder.Blames (OfInstruction start) (tableSwitch start) := by
  refine .bind (.align trivial 4) fun _ => .bind (wideTarget_blames start) fun _ =>
    .bind (.i4 trivial) fun low => .bind (.i4 trivial) fun high => .ite (fault_blames start _) ?_
  exact .bind (.ensure trivial _) fun _ => .map (.map (.many (wideTarget_blames start) _) _) _

theorem lookupSwitch_blames : Decoder.Blames (OfInstruction start) (lookupSwitch start) := by
  refine .bind (.align trivial 4) fun _ => .bind (wideTarget_blames start) fun _ =>
    .bind (.i4 trivial) fun pairs => .ite (fault_blames start _) ?_
  exact .bind (.ensure trivial _) fun _ =>
    .map (.many (.bind (.i4 trivial) fun _ => .map (wideTarget_blames start) _) _) _

theorem operandsOf_blames (layout : Layout) :
    Decoder.Blames (OfInstruction start) (operandsOf start wide layout) := by
  cases layout with
  | plain => exact .pure []
  | byte => exact .map (.i1 trivial) _
  | short => exact .map (.i2 trivial) _
  | constantU1 => exact .map (.u1 trivial) _
  | constantU2 => exact .map (.u2 trivial) _
  | slot => exact .map (slotIndex_blames start wide) _
  | increment =>
      exact .bind (slotIndex_blames start wide) fun _ => .map (incrementValue_blames start wide) _
  | branch => exact .bind (.i2 trivial) fun _ => .map (target_blames start _) _
  | branchWide => exact .map (wideTarget_blames start) _
  | arrayType =>
      exact .bind (.u1 trivial) fun code => .ite (fault_blames start _) (.pure _)
  | interfaceCall =>
      exact .bind (.u2 trivial) fun _ => .bind (.u1 trivial) fun _ => .map (.skip trivial 1) _
  | dynamicCall => exact .bind (.u2 trivial) fun _ => .map (.skip trivial 2) _
  | multiArray => exact .bind (.u2 trivial) fun _ => .map (.u1 trivial) _
  | tableSwitch => exact .map (tableSwitch_blames start) _
  | lookupSwitch => exact .map (lookupSwitch_blames start) _
  | wide => exact fault_blames start _

theorem widened_blames : Decoder.Blames (OfInstruction start) (widened start) :=
  .bind (.peek trivial) fun _ => .ite (.map (.skip trivial 1) _) (fault_blames start _)

end Parts

/-- The offset that is out of bounds is the one that is blamed. -/
theorem checkedOffset_blames (count : Nat) :
    Decoder.Blames (OfInstruction count) (checkedOffset count) :=
  .ite (.pure _) (fault_blames count _)

theorem complete_blames (start : Nat) (offset : UInt32) (wide : Bool) (code : UInt8) :
    Decoder.Blames OfCode (complete start offset wide code) := by
  unfold complete
  split
  · exact (fault_blames start _).mono OfInstruction.ofCode
  · exact .bind ((operandsOf_blames start wide _).mono OfInstruction.ofCode) fun operands =>
      .bind .pos fun stop => .map ((checkedOffset_blames _).mono OfInstruction.ofCode) _

theorem decodeFrom_blames (start : Nat) : Decoder.Blames OfCode (decodeFrom start) := by
  refine .bind ((checkedOffset_blames start).mono OfInstruction.ofCode) fun offset =>
    .bind (.u1 trivial) fun first => ?_
  exact .ite (.bind ((widened_blames start).mono OfInstruction.ofCode)
    (complete_blames start offset true)) (complete_blames start offset false first)

theorem decode_blames : Decoder.Blames OfCode decode := by
  intro cursor stopped error h
  simp only [decode] at h
  split at h
  · cases h
    trivial
  · exact decodeFrom_blames cursor.pos cursor stopped error h

theorem sweepAux_blames (fuel : Nat) (decoded : List Instruction) :
    Decoder.Blames OfCode (sweepAux fuel decoded) := by
  induction fuel generalizing decoded with
  | zero => exact .pure _
  | succ fuel ih =>
      exact .bind .hasMore fun more =>
        .ite (.bind decode_blames fun instruction => ih (instruction :: decoded)) (.pure _)

theorem sweep_blames (code : Bytes) : Blames OfCode (sweep code) := by
  intro error h
  simp only [sweep, runOn, EStateM.run] at h
  split at h <;> try contradiction
  rename_i hr
  cases h
  exact sweepAux_blames code.length [] _ _ _ hr

theorem checkTargets_blames (boundaries : OffsetSet) (instruction : Instruction) :
    Blames OfCode (checkTargets boundaries instruction) := by
  unfold checkTargets
  split
  · exact .error trivial
  · exact .ok ()

theorem decodeAll_blames (code : Bytes) : Blames OfCode (decodeAll code) :=
  .bind (sweep_blames code) fun instructions =>
    .bind (.forM (checkTargets_blames _) instructions) fun _ => .ok _

end Instruction

end ClassListing
