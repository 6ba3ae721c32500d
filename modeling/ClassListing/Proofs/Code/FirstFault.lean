import ClassListing.Proofs.Code.Fault
import ClassListing.Proofs.Code.Tiling
import ClassListing.Proofs.Traversal

/-!
# The first instruction at fault

The sweep stops at the first instruction that does not decode. Only if there is none are the targets
looked up, from the front again. So an error of a code array is about the first instruction that
gives rise to one, and it names the offset at which that instruction starts.
-/

namespace ClassListing

open Decoder Error

namespace Instruction

/-! ## One instruction -/

theorem checkedOffset_of_lt {count : Nat} (h : count < offsetBound) :
    checkedOffset count = pure (.ofNat count) := if_pos h

section Bounded

variable {start : Nat} {cursor stopped : Cursor} {error : Error}
  (hbound : cursor.pos + cursor.rest.length < offsetBound)
include hbound

/-- The size is in bounds as well, so only the start of the instruction can be blamed. -/
theorem complete_error {offset : UInt32} {wide : Bool} {code : UInt8}
    (h : complete start offset wide code cursor = .error error stopped) :
    OfInstruction start error := by
  unfold complete at h
  cases hcode : Opcode.ofCode? code with
  | none =>
      rw [hcode] at h
      exact fault_blames start _ _ _ _ h
  | some opcode =>
      rw [hcode] at h
      rcases run_bind_eq_error_iff.mp h with hoperands | ⟨operands, middle, hoperands, hsize⟩
      · exact operandsOf_blames start wide _ _ _ _ hoperands
      · have htotal := (operandsOf_reads start wide _).total hoperands
        have hlt : middle.pos - start < offsetBound := by omega
        have hpos : pos middle = .ok middle.pos middle := rfl
        rw [bind_of_ok hpos, checkedOffset_of_lt hlt] at hsize
        cases hsize

theorem decodeFrom_error (h : decodeFrom cursor.pos cursor = .error error stopped) :
    OfInstruction cursor.pos error := by
  rw [decodeFrom, checkedOffset_of_lt (by omega), pure_bind] at h
  rcases run_bind_eq_error_iff.mp h with hfirst | ⟨first, middle, hfirst, hrest⟩
  · exact Decoder.Blames.u1 trivial _ _ _ hfirst
  · have htotal := Reads.u1.total hfirst
    by_cases hwide : first = Opcode.wideCode
    · rw [if_pos hwide] at hrest
      rcases run_bind_eq_error_iff.mp hrest with hmarked | ⟨code, after, hmarked, hcomplete⟩
      · exact widened_blames cursor.pos _ _ _ hmarked
      · have hafter := (widened_reads cursor.pos).total hmarked
        exact complete_error (by omega) hcomplete
    · rw [if_neg hwide] at hrest
      exact complete_error (by omega) hrest

theorem decode_error (h : decode cursor = .error error stopped) :
    ∃ cause, error = .code cursor.pos cause := by
  unfold decode at h
  split at h
  · cases h
    exact ⟨.cutOff, rfl⟩
  · rename_i hwhole
    have hcause := decodeFrom_error hbound h
    cases error with
    | truncated => exact (hwhole stopped h).elim
    | code offset cause =>
        obtain rfl : offset = cursor.pos := hcause
        exact ⟨cause, rfl⟩
    | _ => cases hcause

end Bounded

/-! ## The sweep -/

inductive Sweeps : Cursor → List Instruction → Cursor → Prop
  | nil (cursor : Cursor) : Sweeps cursor [] cursor
  | cons {cursor middle stopped : Cursor} {first : Instruction} {rest : List Instruction}
      (hfirst : decode cursor = .ok first middle) (hrest : Sweeps middle rest stopped) :
      Sweeps cursor (first :: rest) stopped

theorem sequence_of_sweeps {cursor stopped : Cursor} {instructions : List Instruction}
    (h : Sweeps cursor instructions stopped) :
    ∃ used, grammar.Sequence cursor.pos instructions used ∧ cursor.rest = used ++ stopped.rest ∧
      stopped.pos = cursor.pos + used.length := by
  induction h with
  | nil cursor => exact ⟨[], rfl, rfl, rfl⟩
  | @cons cursor middle stopped first rest hfirst hrest ih =>
      obtain ⟨bytes, hg, hb, hp⟩ := (decode_reads cursor.pos cursor.rest first middle).mp hfirst
      obtain ⟨more, hs, hm, hq⟩ := ih
      rw [hp] at hs hq
      refine ⟨bytes ++ more, ⟨bytes, more, rfl, hg, hs⟩, ?_, ?_⟩
      · rw [hb, hm, List.append_assoc]
      · rw [hq, List.length_append, Nat.add_assoc]

theorem sweeps_of_sequence {pos : Nat} {instructions : List Instruction} {used : Bytes}
    (h : grammar.Sequence pos instructions used) :
    Sweeps ⟨pos, used⟩ instructions ⟨pos + used.length, []⟩ := by
  induction instructions generalizing pos used with
  | nil =>
      obtain rfl : used = [] := h
      exact .nil _
  | cons first others ih =>
      obtain ⟨bytes, more, rfl, hg, hs⟩ := h
      have hrest := ih hs
      rw [Nat.add_assoc, ← List.length_append] at hrest
      exact .cons (decode_reads.complete hg more) hrest

/-- The sweep fails where the instructions before have led it, and with the error found there. -/
theorem sweepAux_error {fuel : Nat} {decoded : List Instruction} {cursor stopped : Cursor}
    {error : Error} (h : sweepAux fuel decoded cursor = .error error stopped) :
    ∃ earlier middle, Sweeps cursor earlier middle ∧ middle.rest ≠ [] ∧
      decode middle = .error error stopped := by
  induction fuel generalizing decoded cursor with
  | zero => cases h
  | succ fuel ih =>
      obtain ⟨pos, bytes⟩ := cursor
      cases bytes with
      | nil =>
          rw [sweepAux_nil] at h
          cases h
      | cons byte rest =>
          rw [sweepAux_cons] at h
          rcases run_bind_eq_error_iff.mp h with hfirst | ⟨first, next, hfirst, hrest⟩
          · exact ⟨[], _, .nil _, by simp, hfirst⟩
          · obtain ⟨earlier, middle, hsweeps, hne, herror⟩ := ih hrest
            exact ⟨first :: earlier, middle, .cons hfirst hsweeps, hne, herror⟩

theorem sweep_error {code : Bytes} {error : Error} (h : sweep code = .error error) :
    ∃ earlier middle stopped, Sweeps (.start code) earlier middle ∧ middle.rest ≠ [] ∧
      decode middle = .error error stopped := by
  simp only [sweep, runOn, EStateM.run] at h
  split at h <;> try contradiction
  rename_i stopped hrun
  cases h
  obtain ⟨earlier, middle, hsweeps, hne, herror⟩ := sweepAux_error hrun
  exact ⟨earlier, middle, stopped, hsweeps, hne, herror⟩

theorem Sweeps.split {cursor stopped : Cursor} {earlier others : List Instruction}
    (h : Sweeps cursor (earlier ++ others) stopped) :
    ∃ middle, Sweeps cursor earlier middle ∧ Sweeps middle others stopped := by
  induction earlier generalizing cursor with
  | nil => exact ⟨cursor, .nil cursor, h⟩
  | cons first earlier ih =>
      cases h with
      | cons hfirst hrest =>
          obtain ⟨middle, hearlier, hothers⟩ := ih hrest
          exact ⟨middle, .cons hfirst hearlier, hothers⟩

/-- The first instruction starts at the cursor, and takes bytes from there. -/
theorem Sweeps.head {cursor stopped : Cursor} {first : Instruction} {rest : List Instruction}
    (h : Sweeps cursor (first :: rest) stopped) :
    first.offset.toNat = cursor.pos ∧ 0 < cursor.rest.length := by
  cases h with
  | cons hfirst _ =>
      obtain ⟨bytes, hg, hb, -⟩ := (decode_reads cursor.pos cursor.rest first _).mp hfirst
      have hpos := length_pos_of_grammar hg
      rw [hb, List.length_append]
      exact ⟨hg.1, by omega⟩

/-- Where a sweep of the array has come to, and what it has covered until then. -/
theorem Sweeps.from_start {code : Bytes} {earlier : List Instruction} {middle : Cursor}
    (h : Sweeps (.start code) earlier middle) :
    middle = ⟨middle.pos, code.drop middle.pos⟩ ∧ Tile 0 earlier middle.pos ∧
      middle.pos + middle.rest.length = code.length := by
  obtain ⟨used, hseq, hcode, hpos⟩ := sequence_of_sweeps h
  have htile := tile_of_sequence hseq
  obtain ⟨pos, rest⟩ := middle
  simp only [Cursor.start, Nat.zero_add] at hcode hpos htile
  subst hpos hcode
  exact ⟨by rw [List.drop_left], htile, List.length_append.symm⟩

/-! ## Targets -/

def Lands (instructions : List Instruction) (target : UInt32) : Prop :=
  ∃ other ∈ instructions, other.offset = target

theorem checkTargets_error {boundaries : OffsetSet} {instruction : Instruction} {error : Error}
    (h : checkTargets boundaries instruction = .error error) :
    ∃ target ∈ instruction.targets, ¬boundaries.contains target.toNat = true ∧
      error = .code instruction.offset.toNat (.targetInside instruction.mnemonic target) := by
  unfold checkTargets at h
  split at h
  · rename_i target hfound
    cases h
    have hstray := List.find?_some hfound
    exact ⟨target, List.mem_of_find?_eq_some hfound, by simpa using hstray, rfl⟩
  · cases h

/--
An error of a code array is that of the first instruction at fault, and points at its start. The
instructions before it decode and fill the array up to there. It either does not decode itself; or
all do, and it has a target where none of them starts, while the targets of those before it all are
starts.
-/
theorem decodeAll_blames_first {code : Bytes} {error : Error} (hcode : code.length < 2 ^ 32)
    (h : decodeAll code = .error error) :
    ∃ (earlier : List Instruction) (offset : Nat) (cause : CodeFault),
      error = .code offset cause ∧ offset < code.length ∧
      Sweeps (.start code) earlier ⟨offset, code.drop offset⟩ ∧ Tile 0 earlier offset ∧
      ((∃ stopped, decode ⟨offset, code.drop offset⟩ = .error error stopped) ∨
        ∃ instruction later,
          sweep code = .ok (earlier ++ instruction :: later) ∧
          instruction.offset.toNat = offset ∧
          (∃ target ∈ instruction.targets, ¬Lands (earlier ++ instruction :: later) target ∧
            cause = .targetInside instruction.mnemonic target) ∧
          ∀ other ∈ earlier, ∀ target ∈ other.targets,
            Lands (earlier ++ instruction :: later) target) := by
  rcases bind_eq_error_iff.mp h with hsweep | ⟨instructions, hsweep, hchecks⟩
  · obtain ⟨earlier, middle, stopped, hsweeps, hne, herror⟩ := sweep_error hsweep
    obtain ⟨hmiddle, htile, htotal⟩ := hsweeps.from_start
    have hleft := List.length_pos_iff.mpr hne
    have hbound : middle.pos + middle.rest.length < offsetBound := htotal.trans_lt hcode
    obtain ⟨cause, hcause⟩ := decode_error hbound herror
    rw [hmiddle] at hsweeps herror
    exact ⟨earlier, middle.pos, cause, hcause, by omega, hsweeps, htile, .inl ⟨stopped, herror⟩⟩
  · rcases bind_eq_error_iff.mp hchecks with hcheck | ⟨_, _, hpure⟩
    · obtain ⟨earlier, instruction, later, rfl, hearlier, hfault⟩ := forM_eq_error_iff.mp hcheck
      have hseq := sweep_eq_ok_iff.mp hsweep
      obtain ⟨target, htarget, hstray, hcause⟩ := checkTargets_error hfault
      obtain ⟨middle, hsweeps, hrest⟩ := (sweeps_of_sequence hseq).split
      obtain ⟨hmiddle, htile, htotal⟩ := hsweeps.from_start
      obtain ⟨hoffset, hleft⟩ := hrest.head
      rw [hmiddle] at hsweeps
      rw [contains_starts_of_sequence hseq] at hstray
      rw [hoffset] at hcause
      refine ⟨earlier, middle.pos, _, hcause, by omega, hsweeps, htile, .inr ⟨instruction, later,
        hsweep, hoffset, ⟨target, htarget, hstray, rfl⟩, fun other hother found hfound => ?_⟩⟩
      have hlands := checkTargets_eq_ok_iff.mp (hearlier other hother) found hfound
      exact (contains_starts_of_sequence hseq found).mp hlands
    · cases hpure

/-- A jump behind which the operand of another instruction stands where it leads to. -/
def astray : Bytes := [0x00, 0xA7, 0x00, 0x04, 0x11, 0x00, 0x01, 0xB1]

theorem decodeAll_blames_first_astray :
    astray.length < 2 ^ 32 ∧ decodeAll astray = .error (.code 1 (.targetInside "goto" 5)) ∧
      ∃ earlier, Sweeps (.start astray) earlier ⟨1, astray.drop 1⟩ ∧ Tile 0 earlier 1 := by
  have hcode : astray.length < 2 ^ 32 := by decide
  have herror : decodeAll astray = .error (.code 1 (.targetInside "goto" 5)) := by decide +kernel
  obtain ⟨earlier, offset, cause, hcause, -, hsweeps, htile, -⟩ :=
    decodeAll_blames_first hcode herror
  cases hcause
  exact ⟨hcode, herror, earlier, hsweeps, htile⟩

end Instruction

end ClassListing
