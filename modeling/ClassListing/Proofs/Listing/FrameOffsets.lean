import ClassListing.Listing.Attribute
import ClassListing.Proofs.Frame.RoundTrip
import Mathlib.Algebra.Order.BigOperators.Group.List
import Mathlib.Algebra.Order.Ring.Nat

/-!
# The offsets of stack map frames

The offsets of a table are counted up from frame to frame and capped at the largest number that is
ever shown. A table that was read has so few frames, and their distances are so small, that the cap
is never reached: each frame is shown with the sum of the distances up to it, and one more for each
frame before it.
-/

namespace ClassListing.Listing

open Decoder

/-- The distances of the frames up to `index`, and one more for each frame before it. -/
def frameOffset (frames : List Frame) (index : Nat) : Nat :=
  ((frames.take (index + 1)).map fun frame => frame.delta.toNat).sum + index

theorem frameOffset_zero (frame : Frame) (rest : List Frame) :
    frameOffset (frame :: rest) 0 = frame.delta.toNat := by
  simp [frameOffset]

theorem frameOffset_succ {frames : List Frame} {index : Nat} {frame : Frame}
    (h : frames[index + 1]? = some frame) :
    frameOffset frames (index + 1) = frameOffset frames index + (frame.delta.toNat + 1) := by
  unfold frameOffset
  rw [List.take_add_one, h, Option.toList_some, List.map_append, List.sum_append,
    List.map_singleton, List.sum_singleton]
  omega

theorem frameOffset_lt {frames : List Frame} {first second : Nat} (hlt : first < second)
    (h : second < frames.length) : frameOffset frames first < frameOffset frames second := by
  induction second, hlt using Nat.le_induction with
  | base =>
      rw [frameOffset_succ (List.getElem?_eq_getElem h)]
      omega
  | succ second _ ih =>
      have hbefore := ih (Nat.lt_of_succ_lt h)
      rw [frameOffset_succ (List.getElem?_eq_getElem h)]
      omega

theorem sum_deltas_le (frames : List Frame) :
    (frames.map fun frame => frame.delta.toNat).sum ≤ frames.length * 0xFFFF := by
  have hdelta : ∀ delta ∈ frames.map fun frame => frame.delta.toNat, delta ≤ 0xFFFF := by
    rw [List.forall_mem_map]
    intro frame _
    exact Nat.le_of_lt_succ frame.delta.toNat_lt
  simpa using List.sum_le_card_nsmul _ _ hdelta

/-- A table of the greatest length leaves room for one more step of the greatest distance. -/
theorem frameOffset_le {frames : List Frame} {index : Nat} (few : frames.length < 2 ^ 16)
    (h : index < frames.length) : frameOffset frames index + 2 ^ 16 ≤ 2 ^ 32 - 1 := by
  have hsum := sum_deltas_le (frames.take (index + 1))
  have hlength : (frames.take (index + 1)).length = index + 1 := by
    rw [List.length_take]
    omega
  rw [hlength] at hsum
  unfold frameOffset
  omega

theorem frameOffset_replicate {count index : Nat} (h : index < count) (frame : Frame) :
    frameOffset (List.replicate count frame) index =
      (index + 1) * frame.delta.toNat + index := by
  rw [frameOffset, List.take_replicate, Nat.min_eq_left h, List.map_replicate,
    List.sum_replicate_nat]

/-! ## The offsets as they are counted -/

theorem frameOffsets_cons_of_le {before : Nat} {frame : Frame} {rest : List Frame}
    (h : before + (frame.delta.toNat + 1) ≤ 2 ^ 32 - 1) :
    frameOffsets (some before) (frame :: rest) =
      (before + (frame.delta.toNat + 1)) ::
        frameOffsets (some (before + (frame.delta.toNat + 1))) rest := by
  have hmost : before + (frame.delta.toNat + 1) ≤ maxFrameOffset := h
  rw [frameOffsets]
  simp only [Nat.min_eq_left hmost]

/-- What is counted behind the frame at `index` are the offsets of the frames that are left. -/
theorem frameOffsets_after {frames rest : List Frame} {index : Nat} (few : frames.length < 2 ^ 16)
    (hrest : frames.drop (index + 1) = rest) :
    frameOffsets (some (frameOffset frames index)) rest =
      (List.range' (index + 1) rest.length).map (frameOffset frames) := by
  induction rest generalizing index with
  | nil => rfl
  | cons frame rest ih =>
      have hframe : frames[index + 1]? = some frame := by
        rw [← List.head?_drop, hrest, List.head?_cons]
      have hindex : index + 1 < frames.length := (List.getElem?_eq_some_iff.mp hframe).1
      have hnext := frameOffset_succ hframe
      have hmost := frameOffset_le few hindex
      have hdrop : frames.drop (index + 1 + 1) = rest := by
        rw [← List.tail_drop, hrest, List.tail_cons]
      rw [frameOffsets_cons_of_le (by omega), ← hnext, ih hdrop, List.length_cons, List.range'_succ,
        List.map_cons]

theorem frameOffsets_eq {frames : List Frame} (few : frames.length < 2 ^ 16) :
    frameOffsets none frames = (List.range frames.length).map (frameOffset frames) := by
  cases frames with
  | nil => rfl
  | cons frame rest =>
      have hafter := frameOffsets_after few (List.drop_one (l := frame :: rest))
      rw [List.tail_cons] at hafter
      rw [frameOffsets, ← frameOffset_zero frame rest, hafter, List.range_eq_range',
        List.length_cons, List.range'_succ, List.map_cons]

theorem getElem?_frameOffsets {frames : List Frame} (few : frames.length < 2 ^ 16) {index : Nat}
    {offset : Nat} (h : (frameOffsets none frames)[index]? = some offset) :
    index < frames.length ∧ offset = frameOffset frames index := by
  rw [frameOffsets_eq few, List.getElem?_map, Option.map_eq_some_iff] at h
  obtain ⟨place, hplace, rfl⟩ := h
  obtain ⟨hindex, hvalue⟩ := List.getElem?_eq_some_iff.mp hplace
  rw [List.length_range] at hindex
  rw [List.getElem_range] at hvalue
  exact ⟨hindex, by rw [hvalue]⟩

theorem frameLines_eq {options : Options} (shown : options.showFrames) (indent : Nat)
    {frames : List Frame} (few : frames.length < 2 ^ 16) :
    frameLines options indent frames =
      ⟨indent, AttributeKind.stackMapTable.name ++ s!": {frames.length} frames"⟩ ::
        frames.mapIdx fun index frame =>
          ⟨indent + step, s!"offset {frameOffset frames index}: " ++ frame.text⟩ := by
  rw [frameLines, if_pos shown, frameOffsets_eq few]
  congr 1
  apply List.ext_getElem?
  intro index
  by_cases h : index < frames.length <;> simp [h]

theorem length_lt_of_decodeTable {pool : Pool} {cursor stopped : Cursor} {frames : List Frame}
    (h : Frame.decodeTable pool cursor = .ok frames stopped) : frames.length < 2 ^ 16 := by
  have hreads : Reads (Frame.decodeTable pool) _ := .countedU2 (Frame.decode_reads pool)
  obtain ⟨_, ⟨raws, few, -, hframes⟩, -⟩ := (hreads cursor.pos cursor.rest frames stopped).mp h
  rwa [← hframes.length_eq]

theorem denotes_replicate {pool : Pool} {raw : Frame.Raw} {frame : Frame}
    (means : raw.Denotes pool frame) (count : Nat) :
    List.Forall₂ (Frame.Raw.Denotes pool) (List.replicate count raw)
      (List.replicate count frame) := by
  induction count with
  | zero => exact .nil
  | succ count ih => exact .cons means ih

/--
The frames of a table that was read are shown at their exact offsets: where frames are shown at
all, each has a line with the sum of the distances up to it and the number of frames before it. No
step from one offset to the next goes beyond the largest number that is shown, and each offset is
greater than those before it.
-/
theorem frames_shown_at_exact_offsets {pool : Pool} {cursor stopped : Cursor} {frames : List Frame}
    (decoded : Frame.decodeTable pool cursor = .ok frames stopped) :
    (∀ (names : Pool) (options : Options) (indent : Nat), options.showFrames →
      attributeLines names options indent (.stackMapTable frames) =
        .ok (⟨indent, s!"StackMapTable: {frames.length} frames"⟩ ::
          frames.mapIdx fun index frame =>
            ⟨indent + step, s!"offset {frameOffset frames index}: " ++ frame.text⟩)) ∧
    (∀ index before frame, (frameOffsets none frames)[index]? = some before →
      frames[index + 1]? = some frame → before + (frame.delta.toNat + 1) ≤ 2 ^ 32 - 1) ∧
    ∀ first second, first < second → second < frames.length →
      frameOffset frames first < frameOffset frames second := by
  have few := length_lt_of_decodeTable decoded
  refine ⟨fun names options indent shown => ?_, fun index before frame hbefore hframe => ?_,
    fun first second hlt h => frameOffset_lt hlt h⟩
  · rw [attributeLines, frameLines_eq shown indent few]
    rfl
  · obtain ⟨hindex, rfl⟩ := getElem?_frameOffsets few hbefore
    have hmost := frameOffset_le few hindex
    have hdelta := frame.delta.toNat_lt
    omega

/-- As many frames as a table can have, each as far from the one before it as can be. -/
def longestTable : List Frame := List.replicate 0xFFFF (.same 0xFFFF true)

def longestBytes : Bytes :=
  Bytes.counted Frame.Raw.encode (List.replicate 0xFFFF (.sameExtended 0xFFFF))

theorem decodeTable_longest : ∃ stopped,
    Frame.decodeTable ⟨#[none], []⟩ (.start longestBytes) = .ok longestTable stopped := by
  have few : (List.replicate 0xFFFF (Frame.Raw.sameExtended 0xFFFF)).length < 2 ^ 16 := by
    rw [List.length_replicate]
    decide
  have fits : ∀ raw ∈ List.replicate 0xFFFF (Frame.Raw.sameExtended 0xFFFF), raw.Fits := by
    intro raw hraw
    rw [List.eq_of_mem_replicate hraw]
    trivial
  have means : Frame.Raw.Denotes ⟨#[none], []⟩ (.sameExtended 0xFFFF) (.same 0xFFFF true) :=
    .sameExtended 0xFFFF
  have decoded := Frame.decodeTable_of_denotes few fits (denotes_replicate means _) 0 []
  rw [List.append_nil] at decoded
  exact ⟨_, decoded⟩

/--
The last frame of the longest table stands one step away from the largest number, and frames of
every form are counted alike.
-/
theorem frames_shown_at_exact_offsets_longest :
    (∃ stopped, Frame.decodeTable ⟨#[none], []⟩ (.start longestBytes) = .ok longestTable stopped ∧
      (∃ title rows, attributeLines ⟨#[none], []⟩ .detailed 0 (.stackMapTable longestTable) =
          .ok (title :: rows) ∧
        rows[0xFFFE]? =
          some ⟨2, "offset 4294901759: same_frame_extended offset_delta=65535"⟩) ∧
      frameOffset longestTable 0xFFFD < frameOffset longestTable 0xFFFE) ∧
    Frame.decodeTable Frame.stringPool (.start Frame.allFormsBytes) =
      .ok Frame.allForms ⟨36, []⟩ ∧
    attributeLines Frame.stringPool .detailed 0 (.stackMapTable Frame.allForms) =
      .ok [⟨0, "StackMapTable: 7 frames"⟩,
        ⟨2, "offset 5: same_frame offset_delta=5"⟩,
        ⟨2, "offset 8: same_locals_1_stack_item_frame offset_delta=2 stack=[int]"⟩,
        ⟨2, "offset 16: chop_frame offset_delta=7 chopped=2"⟩,
        ⟨2, "offset 317: same_frame_extended offset_delta=300"⟩,
        ⟨2, "offset 322: append_frame offset_delta=4 locals=[int, float]"⟩,
        ⟨2, "offset 332: full_frame offset_delta=9 locals=[class java/lang/String, long] " ++
          "stack=[uninitialized 3]"⟩,
        ⟨2, "offset 397: same_locals_1_stack_item_frame_extended offset_delta=64 " ++
          "stack=[class java/lang/String]"⟩] := by
  constructor
  · obtain ⟨stopped, decoded⟩ := decodeTable_longest
    obtain ⟨hlines, -, hgrows⟩ := frames_shown_at_exact_offsets decoded
    have hlength : longestTable.length = 0xFFFF := List.length_replicate
    have hlast : longestTable[0xFFFE]? = some (.same 0xFFFF true) := by
      rw [longestTable, List.getElem?_replicate, if_pos (by decide)]
    have hoffset : frameOffset longestTable 0xFFFE = 4294901759 :=
      frameOffset_replicate (by decide) _
    refine ⟨stopped, decoded, ⟨_, _, hlines _ .detailed 0 rfl, ?_⟩, hgrows _ _ (by decide) ?_⟩
    · rw [List.getElem?_mapIdx, hlast, Option.map_some, hoffset]
      decide
    · rw [hlength]
      decide
  · have decoded := Frame.decodeTable_of_denotes (by decide)
      (fun raw hraw => (Frame.rawAllForms_valid raw hraw).fits) Frame.rawAllForms_denotes 0 []
    rw [Frame.encode_rawAllForms] at decoded
    obtain ⟨hlines, -⟩ := frames_shown_at_exact_offsets decoded
    have hshown := hlines Frame.stringPool .detailed 0 rfl
    refine ⟨decoded, ?_⟩
    rw [hshown]
    apply congrArg Except.ok
    decide +kernel

end ClassListing.Listing
