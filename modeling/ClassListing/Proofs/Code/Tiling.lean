import ClassListing.Proofs.Code.Grammar
import ClassListing.Proofs.Code.OffsetSet

/-!
# Code arrays and their instructions

The sweep reads a code array as instructions one after the other, without a gap and without an
overlap, and the packed set of offsets stands for the offsets of these instructions. So every
branch of an accepted code array leads to the start of an instruction.
-/

namespace ClassListing

open Decoder

namespace Instruction

/-! ## The sweep -/

theorem length_pos_of_grammar {pos : Nat} {instruction : Instruction} {used : Bytes}
    (h : grammar pos instruction used) : 0 < used.length := by
  obtain ⟨-, -, -, filler, -, rfl⟩ := h
  rw [write, List.length_append, List.length_cons]
  omega

theorem sequence_nil_iff {pos : Nat} {instructions : List Instruction} :
    grammar.Sequence pos instructions [] ↔ instructions = [] := by
  cases instructions with
  | nil => simp [Grammar.Sequence]
  | cons first rest =>
      simp only [reduceCtorEq, iff_false]
      intro h
      rcases h with ⟨used, more, happend, hfirst, -⟩
      have hpos := length_pos_of_grammar hfirst
      obtain ⟨rfl, -⟩ := List.append_eq_nil_iff.mp happend.symm
      exact absurd hpos (by decide)

theorem sweepAux_nil (fuel : Nat) (decoded : List Instruction) (pos : Nat) :
    sweepAux fuel decoded ⟨pos, []⟩ = .ok decoded.reverse ⟨pos, []⟩ := by
  cases fuel <;> rfl

theorem sweepAux_cons (fuel : Nat) (decoded : List Instruction) (pos : Nat) (byte : UInt8)
    (rest : Bytes) :
    sweepAux (fuel + 1) decoded ⟨pos, byte :: rest⟩ =
      (do let instruction ← decode; sweepAux fuel (instruction :: decoded) : Decoder _)
        ⟨pos, byte :: rest⟩ := rfl

/-- One instruction takes at least a byte, so fuel for every byte is enough. -/
theorem sweepAux_eq_ok_iff {fuel : Nat} {bytes : Bytes} (hf : bytes.length ≤ fuel) (pos : Nat)
    (decoded instructions : List Instruction) (stopped : Cursor) :
    sweepAux fuel decoded ⟨pos, bytes⟩ = .ok instructions stopped ↔
      ∃ found, instructions = decoded.reverse ++ found ∧ grammar.Sequence pos found bytes ∧
        stopped = ⟨pos + bytes.length, []⟩ := by
  induction fuel generalizing pos bytes decoded with
  | zero =>
      obtain rfl := List.length_eq_zero_iff.mp (Nat.le_zero.mp hf)
      simp only [sweepAux_nil, sequence_nil_iff]
      simp [eq_comm]
  | succ fuel ih =>
      cases bytes with
      | nil => 
          simp only [sweepAux_nil, sequence_nil_iff]
          simp [eq_comm]
      | cons byte rest =>
          rw [sweepAux_cons]
          constructor
          · intro h
            cases hd : decode ⟨pos, byte :: rest⟩ with
            | error error middle =>
                rw [bind_of_error hd] at h
                cases h
            | ok instruction middle =>
                rw [bind_of_ok hd] at h
                obtain ⟨used, hg, hb, hp⟩ := (decode_reads _ _ _ _).mp hd
                have hpos := length_pos_of_grammar hg
                have hlen := congrArg List.length hb
                rw [List.length_append] at hlen
                obtain ⟨found, rfl, hs, rfl⟩ := (ih (by omega) _ _).mp h
                refine ⟨instruction :: found, by simp, ⟨used, middle.rest, hb, hg, hp ▸ hs⟩, ?_⟩
                rw [hp, hlen, Nat.add_assoc]
          · intro h
            rcases h with ⟨found, rfl, hs, rfl⟩
            cases found with
            | nil => cases hs
            | cons instruction found =>
                obtain ⟨used, more, hb, hg, hs⟩ := hs
                have hpos := length_pos_of_grammar hg
                have hlen := congrArg List.length hb
                rw [List.length_append] at hlen
                have hd := decode_reads.complete hg more
                rw [← hb] at hd
                rw [bind_of_ok hd]
                refine (ih (by omega) _ _).mpr ⟨found, by simp, hs, ?_⟩
                rw [hlen, Nat.add_assoc]

theorem sweep_eq_ok_iff {code : Bytes} {instructions : List Instruction} :
    sweep code = .ok instructions ↔ grammar.Sequence 0 instructions code := by
  have h := sweepAux_eq_ok_iff (Nat.le_refl code.length) 0 [] instructions
  rw [sweep, runOn_eq_ok_iff]
  constructor
  · intro h
    rcases h with ⟨stopped, hrun⟩
    obtain ⟨found, rfl, hseq, -⟩ := (h stopped).mp hrun
    exact hseq
  · intro hseq
    exact ⟨_, (h _).mpr ⟨instructions, rfl, hseq, rfl⟩⟩

/-! ## Tilings -/

/-- The instructions fill the positions from `start` to `stop`, one right after the other. -/
def Tile : (start : Nat) → List Instruction → (stop : Nat) → Prop
  | start, [], stop => start = stop
  | start, first :: rest, stop => first.offset.toNat = start ∧ 0 < first.size.toNat ∧
      Tile (start + first.size.toNat) rest stop

theorem tile_of_sequence {pos : Nat} {instructions : List Instruction} {bytes : Bytes}
    (h : grammar.Sequence pos instructions bytes) :
    Tile pos instructions (pos + bytes.length) := by
  induction instructions generalizing pos bytes with
  | nil =>
      obtain rfl : bytes = [] := h
      rfl
  | cons first rest ih =>
      obtain ⟨used, more, rfl, hg, hs⟩ := h
      have hpos := length_pos_of_grammar hg
      obtain ⟨hoffset, hsize, -⟩ := hg
      refine ⟨hoffset, by omega, ?_⟩
      rw [hsize, List.length_append, ← Nat.add_assoc]
      exact ih hs

namespace Tile

variable {start stop : Nat} {instructions : List Instruction}

theorem le (h : Tile start instructions stop) : start ≤ stop := by
  induction instructions generalizing start with
  | nil => exact Nat.le_of_eq h
  | cons first rest ih =>
      have hrest := ih h.2.2
      omega

theorem bounds (h : Tile start instructions stop) {instruction : Instruction}
    (hm : instruction ∈ instructions) :
    start ≤ instruction.offset.toNat ∧ 0 < instruction.size.toNat ∧
      instruction.offset.toNat + instruction.size.toNat ≤ stop := by
  induction instructions generalizing start with
  | nil => cases hm
  | cons first rest ih =>
      obtain ⟨hoffset, hsize, hrest⟩ := h
      cases hm with
      | head =>
          have hle := hrest.le
          omega
      | tail _ hm =>
          obtain ⟨hl, hs, hu⟩ := ih hrest hm
          exact ⟨by omega, hs, hu⟩

theorem toNat_nextOffset (h : Tile start instructions stop) (hstop : stop < 2 ^ 32)
    {instruction : Instruction} (hm : instruction ∈ instructions) :
    instruction.nextOffset.toNat = instruction.offset.toNat + instruction.size.toNat := by
  have hb := h.bounds hm
  rw [nextOffset, UInt32.toNat_add, Nat.mod_eq_of_lt (by omega)]

theorem head (h : Tile start instructions stop) :
    ∀ first ∈ instructions.head?, first.offset.toNat = start := by
  cases instructions with
  | nil => simp
  | cons first rest =>
      intro _ h
      cases h
      exact h.1

theorem last (h : Tile start instructions stop) (hstop : stop < 2 ^ 32) :
    ∀ last ∈ instructions.getLast?, last.nextOffset.toNat = stop := by
  induction instructions generalizing start with
  | nil => simp
  | cons first rest ih =>
      have hnext := h.toNat_nextOffset hstop (List.mem_cons_self ..)
      obtain ⟨hoffset, -, hrest⟩ := h
      cases rest with
      | nil =>
          intro _ h
          cases h
          rw [List.getLast_singleton, hnext, hoffset]
          exact hrest
      | cons second rest =>
          rw [List.getLast?_cons_cons]
          exact ih hrest

theorem chain (h : Tile start instructions stop) (hstop : stop < 2 ^ 32) :
    instructions.IsChain fun instruction next => instruction.nextOffset = next.offset := by
  induction instructions generalizing start with
  | nil => exact .nil
  | cons first rest ih =>
      have hnext := h.toNat_nextOffset hstop (List.mem_cons_self ..)
      obtain ⟨hoffset, -, hrest⟩ := h
      cases rest with
      | nil => exact .singleton _
      | cons second rest =>
          refine .cons_cons ?_ (ih hrest)
          rw [← UInt32.toNat_inj, hnext, hoffset, hrest.1]

end Tile

/-! ## Targets -/

theorem forM_eq_ok_iff {check : α → Except ε Unit} {items : List α} :
    items.forM check = .ok () ↔ ∀ item ∈ items, check item = .ok () := by
  induction items with
  | nil => simp [List.forM, pure, Except.pure]
  | cons item items ih =>
      rw [List.forall_mem_cons, ← ih, List.forM]
      cases hc : check item <;> simp [bind, Except.bind]

theorem checkTargets_eq_ok_iff {boundaries : OffsetSet} {instruction : Instruction} :
    checkTargets boundaries instruction = .ok () ↔
      ∀ target ∈ instruction.targets, boundaries.contains target.toNat = true := by
  unfold checkTargets
  split
  · rename_i target hfound
    have hm := List.mem_of_find?_eq_some hfound
    have hn := List.find?_some hfound
    simp only [reduceCtorEq, false_iff]
    intro hall
    rw [hall target hm] at hn
    cases hn
  · rename_i hnone
    simpa using hnone

theorem contains_starts (size : Nat) (instructions : List Instruction) (offset : Nat) :
    (starts size instructions).contains offset = true ↔
      (∃ instruction ∈ instructions, instruction.offset.toNat = offset) ∧ offset < size := by
  rw [starts, ← List.foldl_map (f := fun instruction : Instruction => instruction.offset.toNat),
    OffsetSet.contains_foldl_insert (OffsetSet.packed_empty size), OffsetSet.contains_empty]
  simp [OffsetSet.empty]

theorem decodeAll_of_sweep {code : Bytes} {found instructions : List Instruction}
    (hs : sweep code = .ok found) :
    decodeAll code = .ok instructions ↔
      found = instructions ∧ ∀ instruction ∈ found, ∀ target ∈ instruction.targets,
        (starts code.length found).contains target.toNat = true := by
  simp only [← checkTargets_eq_ok_iff, ← forM_eq_ok_iff]
  simp only [decodeAll, hs, bind, Except.bind]
  cases hf : found.forM (checkTargets (starts code.length found)) <;>
    simp [pure, Except.pure]

/-- The bound in the set of starts excludes nothing: instructions start inside the array. -/
theorem contains_starts_of_sequence {code : Bytes} {instructions : List Instruction}
    (h : grammar.Sequence 0 instructions code) (target : UInt32) :
    (starts code.length instructions).contains target.toNat = true ↔
      ∃ other ∈ instructions, other.offset = target := by
  simp only [contains_starts, UInt32.toNat_inj]
  refine ⟨fun ht => ht.1, fun ht => ⟨ht, ?_⟩⟩
  obtain ⟨other, hm, rfl⟩ := ht
  have hb := (tile_of_sequence h).bounds hm
  omega

/-- A code array is accepted for the instructions that it spells, if their jumps stay among them. -/
theorem decodeAll_eq_ok_iff {code : Bytes} {instructions : List Instruction} :
    decodeAll code = .ok instructions ↔
      grammar.Sequence 0 instructions code ∧
        ∀ instruction ∈ instructions, ∀ target ∈ instruction.targets,
          ∃ other ∈ instructions, other.offset = target := by
  constructor
  · intro h
    cases hs : sweep code with
    | error error =>
        simp only [decodeAll, hs, bind, Except.bind] at h
        cases h
    | ok found =>
        obtain ⟨rfl, ht⟩ := (decodeAll_of_sweep hs).mp h
        have hseq := sweep_eq_ok_iff.mp hs
        simp only [contains_starts_of_sequence hseq] at ht
        exact ⟨hseq, ht⟩
  · intro h
    rcases h with ⟨hseq, ht⟩
    simp only [← contains_starts_of_sequence hseq] at ht
    exact (decodeAll_of_sweep (sweep_eq_ok_iff.mpr hseq)).mpr ⟨rfl, ht⟩

/--
The instructions of an accepted code array tile it. Wherever an operand leads to is among the
targets of its instruction, and every target is the offset of one of the instructions.
-/
theorem decodeAll_tiles {code : Bytes} {instructions : List Instruction}
    (hcode : code.length < 2 ^ 32) (h : decodeAll code = .ok instructions) :
    (instructions = [] ↔ code = []) ∧
    (∀ first ∈ instructions.head?, first.offset = 0) ∧
    (∀ instruction ∈ instructions, 1 ≤ instruction.size ∧
      instruction.nextOffset.toNat = instruction.offset.toNat + instruction.size.toNat) ∧
    (instructions.IsChain fun instruction next => instruction.nextOffset = next.offset) ∧
    (∀ last ∈ instructions.getLast?, last.nextOffset.toNat = code.length) ∧
    (∀ instruction ∈ instructions, ∀ target ∈ instruction.targets,
      ∃ other ∈ instructions, other.offset = target) ∧
    (∀ instruction ∈ instructions, ∀ operand ∈ instruction.operands, ∀ target,
      operand.LeadsTo target →
        target ∈ instruction.targets ∧ ∃ other ∈ instructions, other.offset = target) := by
  obtain ⟨hseq, htargets⟩ := decodeAll_eq_ok_iff.mp h
  have htile := tile_of_sequence hseq
  rw [Nat.zero_add] at htile
  refine ⟨?_, ?_, ?_, htile.chain hcode, htile.last hcode, htargets, ?_⟩
  · constructor
    · intro h
      subst h
      exact hseq
    · intro h
      subst h
      exact sequence_nil_iff.mp hseq
  · intro first hf
    exact UInt32.toNat_inj.mp (htile.head first hf)
  · intro instruction hm
    exact ⟨UInt32.le_iff_toNat_le.mpr (htile.bounds hm).2.1, htile.toNat_nextOffset hcode hm⟩
  · intro instruction hm
    exact forall_targets_iff.mp fun target ht => ⟨ht, htargets instruction hm target ht⟩

/--
A jump table after padding that is not zero. Its one case leads to a wide increment, and its default
to the `return` behind that.
-/
def table : Bytes :=
  [0xAA, 7, 8, 9, 0, 0, 0, 26, 0, 0, 0, 1, 0, 0, 0, 1, 0, 0, 0, 20, 0xC4, 0x84, 1, 0x2C, 0xFF, 0xFE,
    0xB1]

def tableInstructions : List Instruction :=
  [⟨0, 0xAA, false, 20, [.switch 26 [(1, 20)]]⟩, ⟨20, 0x84, true, 6, [.slot 300, .immediate (-2)]⟩,
    ⟨26, 0xB1, false, 1, []⟩]

theorem decodeAll_table : decodeAll table = .ok tableInstructions := by decide +kernel

theorem decodeAll_tiles_table :
    table.length < 2 ^ 32 ∧ decodeAll table = .ok tableInstructions ∧
      (∀ last ∈ tableInstructions.getLast?, last.nextOffset.toNat = 27) ∧
      (∃ other ∈ tableInstructions, other.offset = 20) ∧
      ∃ other ∈ tableInstructions, other.offset = 26 := by
  have hcode : table.length < 2 ^ 32 := by decide
  obtain ⟨-, -, -, -, hlast, -, hleads⟩ := decodeAll_tiles hcode decodeAll_table
  have hswitch := hleads _ List.mem_cons_self (.switch 26 [(1, 20)]) List.mem_cons_self
  exact ⟨hcode, decodeAll_table, hlast, (hswitch 20 (.case 26 List.mem_cons_self)).2,
    (hswitch 26 (.otherwise 26 _)).2⟩

end Instruction

end ClassListing
