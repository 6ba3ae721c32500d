import ClassListing.Proofs.Code.Tiling

/-!
# Writing and reading code arrays

Writing and decoding are inverse to each other. Instructions that fit their layouts and stand one
right after the other are read back from their writing. A code array that decodes is the writing
of what it decodes to, except for the bytes that mean nothing.
-/

namespace ClassListing

open Layout

namespace Instruction

/-- Instructions that make up a code array. -/
structure Writable (instructions : List Instruction) : Prop where
  first : ∀ first ∈ instructions.head?, first.offset = 0
  next : instructions.IsChain fun instruction next => instruction.nextOffset = next.offset
  size : ∀ instruction ∈ instructions, instruction.size.toNat = instruction.encode.length
  fits : ∀ instruction ∈ instructions, instruction.Fits
  targets : ∀ instruction ∈ instructions, ∀ operand ∈ instruction.operands, ∀ target,
    operand.LeadsTo target → ∃ other ∈ instructions, other.offset = target
  total : (encodeAll instructions).length < 2 ^ 32

/-! ## The bytes without meaning -/

/-- The operand bytes without meaning stand together, at the place that is known for the layout. -/
theorem Layout.Fits.exists_split {start : Nat} {wide : Bool} {layout : Layout}
    {operands : List Operand} (h : layout.Fits start wide operands) (pos : Nat) :
    ∃ before after,
      (∀ filler : Bytes, filler.length = layout.slack pos →
        layout.write start wide filler operands = before ++ filler ++ after) ∧
      (layout.slack pos ≠ 0 → start + 1 + before.length = layout.slackStart start) := by
  by_cases hs : layout.slack pos = 0
  · refine ⟨layout.write start wide [] operands, [], fun filler hf => ?_, fun hne => absurd hs hne⟩
    obtain rfl := List.length_eq_zero_iff.mp (hf.trans hs)
    simp
  · cases h with
    | @interfaceCall index count =>
        exact ⟨Bytes.ofNat 2 index.toNat ++ Bytes.ofInt 1 count.toInt, [],
          fun filler _ => (List.append_nil _).symm, fun _ => by simp [slackStart]⟩
    | @dynamicCall index =>
        exact ⟨Bytes.ofNat 2 index.toNat, [],
          fun filler _ => (List.append_nil _).symm, fun _ => by simp [slackStart]⟩
    | @tableSwitch otherwise cases =>
        refine ⟨[], Layout.write start wide [] .tableSwitch [.switch otherwise cases],
          fun filler _ => ?_, fun _ => rfl⟩
        simp only [Layout.write, List.append_assoc, List.nil_append]
    | @lookupSwitch otherwise cases =>
        refine ⟨[], Layout.write start wide [] .lookupSwitch [.switch otherwise cases],
          fun filler _ => ?_, fun _ => rfl⟩
        simp only [Layout.write, List.append_assoc, List.nil_append]
    | _ => exact absurd rfl hs

theorem Fits.exists_split {instruction : Instruction} (h : instruction.Fits) :
    ∃ before after,
      (∀ filler : Bytes, filler.length = instruction.slack →
        instruction.write filler = before ++ filler ++ after) ∧
      (instruction.slack ≠ 0 → instruction.offset.toNat + before.length =
        instruction.layout.slackStart instruction.offset.toNat) := by
  obtain ⟨-, hwide, hfits⟩ := h
  obtain ⟨before, after, hwrite, hstart⟩ :=
    Layout.Fits.exists_split hfits (instruction.offset.toNat + 1)
  refine ⟨(if instruction.wide then [0xC4] else []) ++ instruction.opcode :: before,
    after, fun filler hf => ?_, fun hs => ?_⟩
  · rw [write, hwrite filler hf]
    simp only [List.append_assoc, List.cons_append]
  · have hnarrow : instruction.wide ≠ true := fun hw => hs (slack_of_widens (hwide hw) _)
    rw [← hstart hs, if_neg hnarrow, List.nil_append, List.length_cons]
    omega

/-- Lists that differ in the middle only. -/
theorem getElem?_of_split {before first second after : Bytes} (hl : first.length = second.length)
    {k : Nat} (hk : k < before.length ∨ before.length + first.length ≤ k) :
    (before ++ first ++ after)[k]? = (before ++ second ++ after)[k]? := by
  simp only [List.append_assoc]
  rcases hk with hk | hk
  · rw [List.getElem?_append_left hk, List.getElem?_append_left hk]
  · rw [List.getElem?_append_right (by omega), List.getElem?_append_right (by omega),
      List.getElem?_append_right (by omega), List.getElem?_append_right (by omega), hl]

/-- The bytes of an instruction are those of its encoding but for the unused ones. -/
theorem Fits.encode_agrees {instruction : Instruction} (h : instruction.Fits) {filler : Bytes}
    (hf : filler.length = instruction.slack) :
    instruction.encode.length = (instruction.write filler).length ∧
      ∀ k, instruction.offset.toNat + k ∉ instruction.unused →
        instruction.encode[k]? = (instruction.write filler)[k]? := by
  obtain ⟨before, after, hwrite, hstart⟩ := h.exists_split
  have hzeros : (List.replicate instruction.slack (0 : UInt8)).length = instruction.slack :=
    List.length_replicate
  rw [encode, hwrite _ hzeros, hwrite _ hf]
  constructor
  · simp only [List.length_append, hzeros, hf]
  · intro k hk
    apply getElem?_of_split (hzeros.trans hf.symm)
    rw [unused, List.mem_range'_1] at hk
    by_cases hs : instruction.slack = 0
    · omega
    · have hplace := hstart hs
      omega

/-! ## Whole code arrays -/

theorem encodeAll_cons (first : Instruction) (rest : List Instruction) :
    encodeAll (first :: rest) = first.encode ++ encodeAll rest := rfl

theorem sequence_encodeAll {pos : Nat} {instructions : List Instruction}
    (hfirst : ∀ first ∈ instructions.head?, first.offset.toNat = pos)
    (hnext : instructions.IsChain fun instruction next => instruction.nextOffset = next.offset)
    (hsize : ∀ instruction ∈ instructions, instruction.size.toNat = instruction.encode.length)
    (hfits : ∀ instruction ∈ instructions, instruction.Fits)
    (htotal : pos + (encodeAll instructions).length < 2 ^ 32) :
    grammar.Sequence pos instructions (encodeAll instructions) := by
  induction instructions generalizing pos with
  | nil => rfl
  | cons first rest ih =>
      rw [List.forall_mem_cons] at hsize hfits
      rw [encodeAll_cons, List.length_append] at htotal
      have hoffset := hfirst first rfl
      refine ⟨first.encode, encodeAll rest, rfl, ⟨hoffset, hsize.1, hfits.1, _,
        List.length_replicate, rfl⟩, ?_⟩
      obtain ⟨hrel, hnext⟩ := List.isChain_cons.mp hnext
      refine ih (fun second hsecond => ?_) hnext hsize.2 hfits.2 (by omega)
      rw [← hrel second hsecond, nextOffset, UInt32.toNat_add, hoffset, hsize.1,
        Nat.mod_eq_of_lt (by omega)]

theorem encodeAll_agrees {pos : Nat} {instructions : List Instruction} {bytes : Bytes}
    (h : grammar.Sequence pos instructions bytes) :
    (encodeAll instructions).length = bytes.length ∧
      ∀ k, (∀ instruction ∈ instructions, pos + k ∉ instruction.unused) →
        (encodeAll instructions)[k]? = bytes[k]? := by
  induction instructions generalizing pos bytes with
  | nil =>
      obtain rfl : bytes = [] := h
      exact ⟨rfl, fun _ _ => rfl⟩
  | cons first rest ih =>
      obtain ⟨_, more, rfl, ⟨rfl, -, hfits, filler, hfill, rfl⟩, hs⟩ := h
      obtain ⟨hlen, hagree⟩ := hfits.encode_agrees hfill
      obtain ⟨hlens, hagrees⟩ := ih hs
      rw [encodeAll_cons]
      constructor
      · rw [List.length_append, List.length_append, hlen, hlens]
      · intro k hk
        rw [List.forall_mem_cons] at hk
        by_cases hlt : k < first.encode.length
        · rw [List.getElem?_append_left hlt, List.getElem?_append_left (hlen ▸ hlt)]
          exact hagree k hk.1
        · have hle := Nat.not_lt.mp hlt
          rw [List.getElem?_append_right hle, List.getElem?_append_right (hlen ▸ hle), hlen]
          refine hagrees _ ?_
          have hsum : first.offset.toNat + (first.write filler).length +
              (k - (first.write filler).length) = first.offset.toNat + k := by omega
          rw [hsum]
          exact hk.2

theorem writable_of_sequence {instructions : List Instruction} {code : Bytes}
    (hcode : code.length < 2 ^ 32) (h : grammar.Sequence 0 instructions code)
    (htargets : ∀ instruction ∈ instructions, ∀ target ∈ instruction.targets,
      ∃ other ∈ instructions, other.offset = target) : Writable instructions where
  first := fun first hf => UInt32.toNat_inj.mp ((tile_of_sequence h).head first hf)
  next := (tile_of_sequence h).chain (by omega)
  size := by
    intro instruction hm
    obtain ⟨_, _, -, hsize, hfits, filler, hfill, rfl⟩ := h.exists_of_mem hm
    rw [hsize, (hfits.encode_agrees hfill).1]
  fits := by
    intro instruction hm
    obtain ⟨_, _, -, -, hfits, -⟩ := h.exists_of_mem hm
    exact hfits
  targets := fun instruction hm => forall_targets_iff.mp (htargets instruction hm)
  total := (encodeAll_agrees h).1 ▸ hcode

/--
Decoding undoes writing, and writing undoes decoding but for the bytes without meaning: what
decodes is exactly what is writable.
-/
theorem decodeAll_encodeAll_inverse :
    (∀ instructions : List Instruction, Writable instructions →
      decodeAll (encodeAll instructions) = .ok instructions) ∧
    (∀ (code : Bytes) (instructions : List Instruction), code.length < 2 ^ 32 →
      decodeAll code = .ok instructions →
        Writable instructions ∧ (encodeAll instructions).length = code.length ∧
          ∀ k, (∀ instruction ∈ instructions, k ∉ instruction.unused) →
            (encodeAll instructions)[k]? = code[k]?) := by
  constructor
  · intro instructions h
    refine decodeAll_eq_ok_iff.mpr
      ⟨?_, fun instruction hm => forall_targets_iff.mpr (h.targets instruction hm)⟩
    refine sequence_encodeAll (fun first hf => ?_) h.next h.size h.fits ?_
    · rw [h.first first hf]
      rfl
    · rw [Nat.zero_add]
      exact h.total
  · intro code instructions hcode h
    obtain ⟨hseq, htargets⟩ := decodeAll_eq_ok_iff.mp h
    obtain ⟨hlen, hagree⟩ := encodeAll_agrees hseq
    simp only [Nat.zero_add] at hagree
    exact ⟨writable_of_sequence hcode hseq htargets, hlen, hagree⟩

/-- The array is written with zeros for the padding, and the wide increment comes back as it was. -/
theorem decodeAll_encodeAll_inverse_table :
    Writable tableInstructions ∧
      decodeAll (encodeAll tableInstructions) = .ok tableInstructions ∧
      (encodeAll tableInstructions).length = table.length ∧
      (∀ k, k ∉ [1, 2, 3] → (encodeAll tableInstructions)[k]? = table[k]?) ∧
      encodeAll tableInstructions = [0xAA, 0, 0, 0, 0, 0, 0, 26, 0, 0, 0, 1, 0, 0, 0, 1, 0, 0, 0,
        20, 0xC4, 0x84, 1, 0x2C, 0xFF, 0xFE, 0xB1] := by
  obtain ⟨hread, hwrite⟩ := decodeAll_encodeAll_inverse
  obtain ⟨hw, hlen, hagree⟩ := hwrite table _ (by decide) decodeAll_table
  refine ⟨hw, hread _ hw, hlen, fun k hk => hagree k fun instruction hm hunused => hk ?_, ?_⟩
  · have hall : tableInstructions.flatMap unused = [1, 2, 3] := by decide +kernel
    exact hall ▸ List.mem_flatMap.mpr ⟨instruction, hm, hunused⟩
  · decide +kernel

end Instruction

end ClassListing
