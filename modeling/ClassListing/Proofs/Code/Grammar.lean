import ClassListing.Code.Decode
import ClassListing.Proofs.Code.Encoding
import ClassListing.Proofs.Cursor.Grammar
import Mathlib.Algebra.Group.Int.Defs

/-!
# What the decoder of instructions accepts

An instruction is read from exactly the byte strings that are a writing of it, with anything at
all in the places that mean nothing; a code array is read from such strings one after the other.
-/

namespace ClassListing

open Decoder Layout

namespace Instruction

def operandGrammar (start : Nat) (wide : Bool) (layout : Layout) : Grammar (List Operand) :=
  fun pos operands used => layout.Fits start wide operands ∧
    ∃ filler, filler.length = layout.slack pos ∧ used = layout.write start wide filler operands

/-! ## Targets and small operands -/

theorem checkedOffset_reads (count : Nat) :
    Reads (checkedOffset count) fun _ offset used => offset.toNat = count ∧ used = [] := by
  by_cases hc : count < offsetBound
  · rw [checkedOffset, if_pos hc]
    refine (Reads.pure (UInt32.ofNat count)).congr fun _ offset used => and_congr_left fun _ => ?_
    rw [← UInt32.toNat_inj, UInt32.toNat_ofNat_of_lt' hc]
  · rw [checkedOffset, if_neg hc]
    refine (Reads.throw _).congr fun _ offset used => ⟨False.elim, ?_⟩
    intro h
    rcases h with ⟨rfl, -⟩
    exact hc offset.toNat_lt

theorem target_reads (start : Nat) (delta : Int) :
    Reads (target start delta) fun _ found used => distance start found = delta ∧ used = [] := by
  by_cases hc : 0 ≤ (start : Int) + delta ∧ (start : Int) + delta < offsetBound
  · have hlt : ((start : Int) + delta).toNat < UInt32.size := by
      have hb : offsetBound = UInt32.size := rfl
      omega
    simp only [target, if_pos hc]
    refine (Reads.pure (UInt32.ofNat ((start : Int) + delta).toNat)).congr fun _ found used =>
      and_congr_left fun _ => ?_
    rw [← UInt32.toNat_inj, UInt32.toNat_ofNat_of_lt' hlt, distance]
    omega
  · simp only [target, if_neg hc]
    refine (Reads.throw _).congr fun _ found used => ⟨False.elim, ?_⟩
    intro h
    rcases h with ⟨hd, -⟩
    have hlt := found.toNat_lt
    have hb : offsetBound = 4294967296 := rfl
    simp only [distance] at hd
    omega

/-- A distance that is read and then made a target. -/
theorem jump_reads {read : Decoder δ} {toInt : δ → Int} {width : Nat}
    (hr : Reads read fun _ delta used => used = Bytes.ofInt width (toInt delta))
    (hh : ∀ value, Bytes.HoldsInt width value ↔ ∃ delta, toInt delta = value) (start : Nat) :
    Reads (do target start (toInt (← read))) fun _ found used =>
      Bytes.HoldsInt width (distance start found) ∧
        used = Bytes.ofInt width (distance start found) := by
  refine (Reads.bind hr fun delta => target_reads start (toInt delta)).congr
    fun _ found used => ?_
  constructor
  · intro h
    rcases h with ⟨delta, first, more, rfl, rfl, hd, rfl⟩
    exact ⟨(hh _).mpr ⟨delta, hd.symm⟩, by rw [hd, List.append_nil]⟩
  · intro h
    rcases h with ⟨hholds, rfl⟩
    obtain ⟨delta, hd⟩ := (hh _).mp hholds
    exact ⟨delta, _, [], (List.append_nil _).symm, by rw [hd], hd.symm, rfl⟩

theorem wideTarget_reads (start : Nat) :
    Reads (wideTarget start) fun _ found used =>
      Bytes.HoldsInt 4 (distance start found) ∧ used = Bytes.ofInt 4 (distance start found) :=
  jump_reads .i4 (fun _ => Bytes.holdsInt_four_iff) start

theorem shortTarget_reads (start : Nat) :
    Reads (do target start (← i2).toInt) fun _ found used =>
      Bytes.HoldsInt 2 (distance start found) ∧ used = Bytes.ofInt 2 (distance start found) :=
  jump_reads .i2 (fun _ => Bytes.holdsInt_two_iff) start

theorem slotIndex_reads (wide : Bool) :
    Reads (slotIndex wide) fun _ index used =>
      index.toNat < 256 ^ slotWidth wide ∧ used = Bytes.ofNat (slotWidth wide) index.toNat := by
  cases wide with
  | true =>
      refine Reads.u2.congr fun _ index used => ?_
      exact ⟨fun h => ⟨index.toNat_lt, h⟩, fun h => h.2⟩
  | false =>
      refine (Reads.map .u1 UInt8.toUInt16).congr fun _ index used => ?_
      constructor
      · intro h
        rcases h with ⟨byte, rfl, rfl⟩
        rw [UInt8.toNat_toUInt16]
        exact ⟨byte.toNat_lt, by rw [slotWidth]; simp [Bytes.ofNat_one]⟩
      · intro h
        rcases h with ⟨hi, rfl⟩
        refine ⟨.ofNat index.toNat, ?_, rfl⟩
        rw [← UInt16.toNat_inj, UInt8.toNat_toUInt16, UInt8.toNat_ofNat_of_lt' hi]

theorem byteIndex_reads :
    Reads (do return (← u1).toUInt16) fun _ index used =>
      index.toNat < 256 ∧ used = Bytes.ofNat 1 index.toNat :=
  slotIndex_reads false

/-- A value with a sign that is read in fewer bytes than it is kept in. -/
theorem immediate_reads {read : Decoder δ} {toInt : δ → Int} {widen : δ → Int32} {width : Nat}
    (hr : Reads read fun _ value used => used = Bytes.ofInt width (toInt value))
    (hh : ∀ value, Bytes.HoldsInt width value ↔ ∃ word, toInt word = value)
    (hw : ∀ word, (widen word).toInt = toInt word) :
    Reads (do return widen (← read)) fun _ value used =>
      Bytes.HoldsInt width value.toInt ∧ used = Bytes.ofInt width value.toInt := by
  refine (Reads.map hr widen).congr fun _ value used => ?_
  constructor
  · intro h
    rcases h with ⟨word, rfl, rfl⟩
    rw [hw]
    exact ⟨(hh _).mpr ⟨word, rfl⟩, rfl⟩
  · intro h
    rcases h with ⟨hholds, rfl⟩
    obtain ⟨word, hword⟩ := (hh _).mp hholds
    exact ⟨word, Int32.toInt_inj.mp (by rw [hw, hword]), by rw [hword]⟩

theorem byteValue_reads :
    Reads (do return (← i1).toInt32) fun _ value used =>
      Bytes.HoldsInt 1 value.toInt ∧ used = Bytes.ofInt 1 value.toInt :=
  immediate_reads .i1 (fun _ => Bytes.holdsInt_one_iff) Int8.toInt_toInt32

theorem shortValue_reads :
    Reads (do return (← i2).toInt32) fun _ value used =>
      Bytes.HoldsInt 2 value.toInt ∧ used = Bytes.ofInt 2 value.toInt :=
  immediate_reads .i2 (fun _ => Bytes.holdsInt_two_iff) Int16.toInt_toInt32

theorem incrementValue_reads (wide : Bool) :
    Reads (incrementValue wide) fun _ value used =>
      Bytes.HoldsInt (slotWidth wide) value.toInt ∧
        used = Bytes.ofInt (slotWidth wide) value.toInt := by
  cases wide with
  | true => exact shortValue_reads
  | false => exact byteValue_reads

/-- A one-byte count that is kept as a value. -/
theorem count_reads :
    Reads (do return Int32.ofNat (← u1).toNat) fun _ count used =>
      (0 ≤ count.toInt ∧ count.toInt < 256) ∧ used = Bytes.ofInt 1 count.toInt := by
  refine (Reads.map .u1 fun byte : UInt8 => Int32.ofNat byte.toNat).congr fun _ count used => ?_
  constructor
  · intro h
    rcases h with ⟨byte, rfl, rfl⟩
    have hb := byte.toNat_lt
    rw [Int32.toInt_ofNat_of_lt (by omega), Bytes.ofInt_natCast hb, Bytes.ofNat_one,
      UInt8.ofNat_toNat]
    exact ⟨by omega, rfl⟩
  · intro h
    rcases h with ⟨⟨hl, hu⟩, rfl⟩
    have hnat : ((count.toInt.toNat : Nat) : Int) = count.toInt := by omega
    have hlt : count.toInt.toNat < UInt8.size := by
      have hs : UInt8.size = 256 := rfl
      omega
    refine ⟨.ofNat count.toInt.toNat, ?_, ?_⟩
    · rw [← Int32.toInt_inj, UInt8.toNat_ofNat_of_lt' hlt, Int32.toInt_ofNat_of_lt (by omega), hnat]
    · rw [← hnat, Bytes.ofInt_natCast hlt]
      rfl

/-! ## Switches -/

def Consecutive (low : Int) (cases : List (Int32 × UInt32)) : Prop :=
  ∀ (k : Nat) (h : k < cases.length), cases[k].1.toInt = low + k

theorem isChain_iff_consecutive (first : Int32 × UInt32) (rest : List (Int32 × UInt32)) :
    (first :: rest).IsChain (fun item next => next.1.toInt = item.1.toInt + 1) ↔
      Consecutive first.1.toInt (first :: rest) := by
  rw [List.isChain_iff_getElem]
  constructor
  · intro h k hk
    induction k with
    | zero => simp
    | succ k ih =>
        rw [h k hk, ih (by omega)]
        omega
  · intro h k hk
    rw [h (k + 1) hk, h k (by omega)]
    omega

theorem Consecutive.bounds {low : Int} {cases : List (Int32 × UInt32)} (h : Consecutive low cases)
    (hne : cases ≠ []) : bounds cases = (low, low + cases.length - 1) := by
  have hpos : 0 < cases.length := List.length_pos_iff.mpr hne
  have hhead := h 0 hpos
  have hlast := h (cases.length - 1) (by omega)
  rw [Layout.bounds, List.head?_eq_getElem?, List.getElem?_eq_getElem hpos,
    List.getLast?_eq_getElem?, List.getElem?_eq_getElem (by omega)]
  simp only [Option.map_some, Option.getD_some, hhead, hlast, Prod.mk.injEq]
  omega

/-- Numbering targets from `low` on, as long as the numbers stay in range. -/
theorem numbered_iff {low : Int} {targets : List UInt32} {cases : List (Int32 × UInt32)}
    (hl : -2 ^ 31 ≤ low) (hu : low + targets.length ≤ 2 ^ 31) :
    cases = (targets.zipIdx.map fun (target, step) => (Int32.ofInt (low + step), target)) ↔
      cases.map (·.2) = targets ∧ Consecutive low cases := by
  constructor
  · intro h
    subst h
    constructor
    · simp [List.map_map, Function.comp_def]
    · intro k hk
      rw [List.length_map, List.length_zipIdx] at hk
      simp only [List.getElem_map, List.getElem_zipIdx, Nat.zero_add]
      exact Int32.toInt_ofInt_of_le (by omega) (by omega)
  · intro h
    rcases h with ⟨rfl, hc⟩
    apply List.ext_getElem
    · simp
    · intro k hk _
      simp only [List.getElem_map, List.getElem_zipIdx, Nat.zero_add, ← hc k hk, Int32.ofInt_toInt]

theorem tableCases_reads (start : Nat) {low : Int} {count : Nat} (hl : -2 ^ 31 ≤ low)
    (hu : low + count ≤ 2 ^ 31) :
    Reads (tableCases start low count) fun _ cases used =>
      cases.length = count ∧ Consecutive low cases ∧
        (∀ item ∈ cases, Bytes.HoldsInt 4 (distance start item.2)) ∧
        used = cases.flatMap fun item => Bytes.ofInt 4 (distance start item.2) := by
  refine (Reads.map (.many (wideTarget_reads start) count) _).congr fun _ cases used => ?_
  simp only [Grammar.sequence_iff]
  constructor
  · intro h
    rcases h with ⟨targets, hcases, rfl, ht, rfl⟩
    obtain ⟨rfl, hc⟩ := (numbered_iff hl hu).mp hcases
    refine ⟨by rw [List.length_map], hc, fun _ hm => ht _ (List.mem_map_of_mem hm), ?_⟩
    rw [List.flatMap_map]
  · intro h
    rcases h with ⟨rfl, hc, ht, rfl⟩
    refine ⟨cases.map (·.2), (numbered_iff hl (by simpa using hu)).mpr ⟨rfl, hc⟩, by simp, ?_, ?_⟩
    · simpa only [List.forall_mem_map] using ht
    · rw [List.flatMap_map]

theorem length_cases {α : Type} {write : α → Bytes} {width count : Nat} {cases : List α}
    (hw : ∀ item, (write item).length = width) (hc : cases.length = count) :
    (cases.flatMap write).length = count * width := by
  rw [List.length_flatMap, List.map_congr_left fun item _ => hw item, List.map_const',
    List.sum_replicate_nat, hc]

theorem exists_bounds {cases : List (Int32 × UInt32)} (hne : cases ≠ []) :
    ∃ low high : Int32, bounds cases = (low.toInt, high.toInt) := by
  refine ⟨(cases.head hne).1, (cases.getLast hne).1, ?_⟩
  rw [Layout.bounds, List.head?_eq_some_head hne, List.getLast?_eq_some_getLast hne]
  rfl

/-- The bounds of a table and the number of its cases say the same. -/
theorem table_iff {cases : List (Int32 × UInt32)} {low high : Int32} :
    (¬high < low ∧ cases.length = (high.toInt - low.toInt + 1).toNat ∧
        Consecutive low.toInt cases) ↔
      cases ≠ [] ∧ cases.IsChain (fun item next => next.1.toInt = item.1.toInt + 1) ∧
        bounds cases = (low.toInt, high.toInt) := by
  rw [Int32.lt_iff_toInt_lt]
  constructor
  · intro h
    rcases h with ⟨hle, hlen, hc⟩
    cases cases with
    | nil =>
        rw [List.length_nil] at hlen
        omega
    | cons first rest =>
        have hlow : first.1.toInt = low.toInt := (hc 0 (Nat.succ_pos _)).trans (Int.add_zero _)
        refine ⟨List.cons_ne_nil _ _, ?_, ?_⟩
        · rw [isChain_iff_consecutive, hlow]
          exact hc
        · rw [hc.bounds (List.cons_ne_nil _ _), hlen, Prod.mk.injEq]
          omega
  · intro h
    rcases h with ⟨hne, hchain, hb⟩
    cases cases with
    | nil => exact absurd rfl hne
    | cons first rest =>
        have hc := (isChain_iff_consecutive first rest).mp hchain
        rw [hc.bounds hne, Prod.mk.injEq] at hb
        obtain ⟨hlow, hhigh⟩ := hb
        rw [List.length_cons] at hhigh ⊢
        exact ⟨by omega, by omega, hlow ▸ hc⟩

theorem tableSwitch_reads (start : Nat) (wide : Bool) :
    Reads (do return [← tableSwitch start]) (operandGrammar start wide .tableSwitch) := by
  have hcases (otherwise : UInt32) (low high : Int32) :=
    have hl := low.le_toInt
    have hu := low.toInt_lt
    have hh := high.toInt_lt
    Reads.ensure_bind (.map (tableCases_reads start hl
        (show low.toInt + (high.toInt - low.toInt + 1).toNat ≤ 2 ^ 31 by omega))
      (Operand.switch otherwise)) (by
        intro _ _ _ h
        rcases h with ⟨cases, -, hlen, -, -, rfl⟩
        exact (length_cases (fun _ => Bytes.length_ofInt _ _) hlen).ge)
  refine (Reads.map (.bind (.align 4) fun _ => .bind (wideTarget_reads start) fun otherwise =>
    .bind .i4 fun low => .bind .i4 fun high => .refuse _ (hcases otherwise low high))
    fun operand => [operand]).congr fun pos operands used => ?_
  constructor
  · intro h
    rcases h with ⟨_, rfl, -, filler, _, rfl, hfill, otherwise, _, _, rfl, ⟨ho, rfl⟩,
      low, _, _, rfl, rfl, high, _, _, rfl, rfl, hle, cases, rfl, hlen, hc, ht, rfl⟩
    obtain ⟨hne, hchain, hb⟩ := table_iff.mp ⟨hle, hlen, hc⟩
    refine ⟨.tableSwitch ho hne hchain ht, filler, hfill, ?_⟩
    simp only [Layout.write, hb, List.append_assoc]
  · intro h
    rcases h with ⟨hfits, filler, hfill, rfl⟩
    cases hfits with
    | @tableSwitch otherwise cases ho hne hchain ht =>
        obtain ⟨low, high, hb⟩ := exists_bounds hne
        obtain ⟨hle, hlen, hc⟩ := table_iff.mpr ⟨hne, hchain, hb⟩
        refine ⟨_, rfl, (), filler, _, ?_, hfill, otherwise, _, _, rfl, ⟨ho, rfl⟩, low, _, _, rfl,
          rfl, high, _, _, rfl, rfl, hle, cases, rfl, hlen, hc, ht, rfl⟩
        simp only [Layout.write, hb, List.append_assoc]

theorem pair_reads (start : Nat) :
    Reads (do return (← i4, ← wideTarget start)) fun _ item used =>
      Bytes.HoldsInt 4 (distance start item.2) ∧
        used = Bytes.ofInt 4 item.1.toInt ++ Bytes.ofInt 4 (distance start item.2) := by
  refine (Reads.bind .i4 fun value => .map (wideTarget_reads start) (Prod.mk value)).congr
    fun _ item used => ?_
  constructor
  · intro h
    rcases h with ⟨value, _, _, rfl, rfl, found, rfl, ht, rfl⟩
    exact ⟨ht, rfl⟩
  · intro h
    rcases h with ⟨ht, rfl⟩
    exact ⟨item.1, _, _, rfl, rfl, item.2, rfl, ht, rfl⟩

/-- The counts that are not negative are those of the lists that are short enough. -/
theorem pairs_iff {cases : List (Int32 × UInt32)} {pairs : Int32} :
    (¬pairs < 0 ∧ cases.length = pairs.toInt.toNat) ↔ (cases.length : Int) = pairs.toInt := by
  rw [Int32.lt_iff_toInt_lt, Int32.toInt_zero]
  omega

theorem lookupSwitch_reads (start : Nat) (wide : Bool) :
    Reads (do return [← lookupSwitch start]) (operandGrammar start wide .lookupSwitch) := by
  have hcases (otherwise : UInt32) (pairs : Int32) :=
    Reads.ensure_bind (.map (.many (pair_reads start) pairs.toInt.toNat)
      (Operand.switch otherwise)) (by
        intro _ _ _ h
        rcases h with ⟨cases, -, hlen, hs⟩
        rw [Grammar.sequence_iff] at hs
        rw [hs.2]
        exact (length_cases (fun _ => by rw [List.length_append, Bytes.length_ofInt,
          Bytes.length_ofInt]) hlen).ge)
  refine (Reads.map (.bind (.align 4) fun _ => .bind (wideTarget_reads start) fun otherwise =>
    .bind .i4 fun pairs => .refuse _ (hcases otherwise pairs))
    fun operand => [operand]).congr fun pos operands used => ?_
  simp only [Grammar.sequence_iff]
  constructor
  · intro h
    rcases h with ⟨_, rfl, -, filler, _, rfl, hfill, otherwise, _, _, rfl, ⟨ho, rfl⟩,
      pairs, _, _, rfl, rfl, hle, cases, rfl, hlen, ht, rfl⟩
    have hpairs := pairs_iff.mp ⟨hle, hlen⟩
    refine ⟨.lookupSwitch ho (Bytes.holdsInt_four_iff.mpr ⟨pairs, hpairs.symm⟩) ht, filler,
      hfill, ?_⟩
    simp only [Layout.write, hpairs, List.append_assoc]
  · intro h
    rcases h with ⟨hfits, filler, hfill, rfl⟩
    cases hfits with
    | @lookupSwitch otherwise cases ho hn ht =>
        obtain ⟨pairs, hpairs⟩ := Bytes.holdsInt_four_iff.mp hn
        obtain ⟨hle, hlen⟩ := pairs_iff.mpr hpairs.symm
        refine ⟨_, rfl, (), filler, _, ?_, hfill, otherwise, _, _, rfl, ⟨ho, rfl⟩, pairs, _, _,
          rfl, rfl, hle, cases, rfl, hlen, ht, rfl⟩
        simp only [Layout.write, hpairs, List.append_assoc]

/-! ## Operands -/

theorem operandGrammar_of_slack {layout : Layout} (hs : ∀ pos, layout.slack pos = 0)
    {start : Nat} {wide : Bool} {pos : Nat} {operands : List Operand} {used : Bytes} :
    operandGrammar start wide layout pos operands used ↔
      layout.Fits start wide operands ∧ used = layout.write start wide [] operands := by
  simp only [operandGrammar, hs, List.length_eq_zero_iff, exists_eq_left]

/-- A layout of one operand without padding. -/
theorem single_reads (start : Nat) (wide : Bool) {layout : Layout} {decoder : Decoder α}
    {valid : α → Prop} {write : α → Bytes} (wrap : α → Operand)
    (hr : Reads decoder fun _ value used => valid value ∧ used = write value)
    (hs : ∀ pos, layout.slack pos = 0)
    (hf : ∀ operands, layout.Fits start wide operands →
      ∃ value, operands = [wrap value] ∧ valid value)
    (hv : ∀ value, valid value → layout.Fits start wide [wrap value])
    (hw : ∀ value, layout.write start wide [] [wrap value] = write value) :
    Reads (do return [wrap (← decoder)]) (operandGrammar start wide layout) := by
  refine (hr.map fun value => [wrap value]).congr fun pos operands used => ?_
  rw [operandGrammar_of_slack hs]
  constructor
  · intro h
    rcases h with ⟨value, rfl, hvalid, rfl⟩
    exact ⟨hv value hvalid, (hw value).symm⟩
  · intro h
    rcases h with ⟨hfits, rfl⟩
    rcases hf operands hfits with ⟨value, rfl, hvalid⟩
    exact ⟨value, rfl, hvalid, hw value⟩

theorem plain_reads (start : Nat) (wide : Bool) :
    Reads (operandsOf start wide .plain) (operandGrammar start wide .plain) := by
  refine (Reads.pure []).congr fun pos operands used => ?_
  rw [operandGrammar_of_slack fun _ => rfl]
  constructor
  · intro h
    rcases h with ⟨rfl, rfl⟩
    exact ⟨.plain, rfl⟩
  · intro h
    rcases h with ⟨⟨⟩, rfl⟩
    exact ⟨rfl, rfl⟩

theorem increment_reads (start : Nat) (wide : Bool) :
    Reads (operandsOf start wide .increment) (operandGrammar start wide .increment) := by
  refine (Reads.bind (slotIndex_reads wide) fun index => .map (incrementValue_reads wide)
    fun value => [Operand.slot index, .immediate value]).congr fun pos operands used => ?_
  rw [operandGrammar_of_slack fun _ => rfl]
  constructor
  · intro h
    rcases h with ⟨index, _, _, rfl, ⟨hi, rfl⟩, value, rfl, hv, rfl⟩
    exact ⟨.increment hi hv, rfl⟩
  · intro h
    rcases h with ⟨hfits, rfl⟩
    cases hfits with
    | increment hi hv => exact ⟨_, _, _, rfl, ⟨hi, rfl⟩, _, rfl, hv, rfl⟩

theorem not_isNone_arrayTypeName?_iff (code : UInt8) :
    ¬(arrayTypeName? code).isNone = true ↔ 4 ≤ code ∧ code ≤ 11 := by
  rw [UInt8.le_iff_toNat_le, UInt8.le_iff_toNat_le]
  unfold arrayTypeName?
  split <;> simp_all
  omega

theorem arrayType_reads (start : Nat) (wide : Bool) :
    Reads (operandsOf start wide .arrayType) (operandGrammar start wide .arrayType) := by
  refine (Reads.bind .u1 fun code => .refuse (.code start (.arrayType code))
    (.pure [Operand.arrayType code])).congr fun pos operands used => ?_
  rw [operandGrammar_of_slack fun _ => rfl]
  constructor
  · intro h
    rcases h with ⟨code, _, _, rfl, rfl, hcode, rfl, rfl⟩
    obtain ⟨hl, hu⟩ := (not_isNone_arrayTypeName?_iff code).mp hcode
    exact ⟨.arrayType hl hu, rfl⟩
  · intro h
    rcases h with ⟨hfits, rfl⟩
    cases hfits with
    | @arrayType code hl hu =>
        have hcode := (not_isNone_arrayTypeName?_iff code).mpr ⟨hl, hu⟩
        exact ⟨code, [code], [], rfl, rfl, hcode, rfl, rfl⟩

theorem interfaceCall_reads (start : Nat) (wide : Bool) :
    Reads (operandsOf start wide .interfaceCall) (operandGrammar start wide .interfaceCall) := by
  have hr := Reads.bind .u2 fun index => .bind count_reads fun count =>
    .map (.skip 1) fun _ => [Operand.constant index, .immediate count]
  simp only [bind_assoc, pure_bind] at hr
  refine hr.congr fun pos operands used => ?_
  constructor
  · intro h
    rcases h with ⟨index, _, _, rfl, rfl, count, _, filler, rfl, ⟨⟨hl, hu⟩, rfl⟩, -, rfl, hfill⟩
    exact ⟨.interfaceCall hl hu, filler, hfill, (List.append_assoc ..).symm⟩
  · intro h
    rcases h with ⟨hfits, filler, hfill, rfl⟩
    cases hfits with
    | interfaceCall hl hu =>
        exact ⟨_, _, _, List.append_assoc .., rfl, _, _, filler, rfl, ⟨⟨hl, hu⟩, rfl⟩, (), rfl,
          hfill⟩

theorem dynamicCall_reads (start : Nat) (wide : Bool) :
    Reads (operandsOf start wide .dynamicCall) (operandGrammar start wide .dynamicCall) := by
  refine (Reads.bind .u2 fun index => .map (.skip 2) fun _ => [Operand.constant index]).congr
    fun pos operands used => ?_
  constructor
  · intro h
    rcases h with ⟨index, _, filler, rfl, rfl, -, rfl, hfill⟩
    exact ⟨.dynamicCall, filler, hfill, rfl⟩
  · intro h
    rcases h with ⟨⟨⟩, filler, hfill, rfl⟩
    exact ⟨_, _, filler, rfl, rfl, (), rfl, hfill⟩

theorem multiArray_reads (start : Nat) (wide : Bool) :
    Reads (operandsOf start wide .multiArray) (operandGrammar start wide .multiArray) := by
  have hr := Reads.bind .u2 fun index =>
    .map count_reads fun count => [Operand.constant index, .immediate count]
  simp only [bind_assoc, pure_bind] at hr
  refine hr.congr fun pos operands used => ?_
  rw [operandGrammar_of_slack fun _ => rfl]
  constructor
  · intro h
    rcases h with ⟨index, _, _, rfl, rfl, count, rfl, ⟨hl, hu⟩, rfl⟩
    exact ⟨.multiArray hl hu, rfl⟩
  · intro h
    rcases h with ⟨hfits, rfl⟩
    cases hfits with
    | multiArray hl hu => exact ⟨_, _, _, rfl, rfl, _, rfl, ⟨hl, hu⟩, rfl⟩

theorem operandsOf_reads (start : Nat) (wide : Bool) (layout : Layout) :
    Reads (operandsOf start wide layout) (operandGrammar start wide layout) := by
  cases layout with
  | plain => exact plain_reads start wide
  | byte =>
      have hr := single_reads start wide .immediate byteValue_reads (fun _ => rfl)
        (fun | _, .byte hv => ⟨_, rfl, hv⟩) (fun _ => .byte) fun _ => rfl
      simpa only [operandsOf, bind_assoc, pure_bind] using hr
  | short =>
      have hr := single_reads start wide .immediate shortValue_reads (fun _ => rfl)
        (fun | _, .short hv => ⟨_, rfl, hv⟩) (fun _ => .short) fun _ => rfl
      simpa only [operandsOf, bind_assoc, pure_bind] using hr
  | constantU1 =>
      have hr := single_reads start wide .constant byteIndex_reads (fun _ => rfl)
        (fun | _, .constantU1 hi => ⟨_, rfl, hi⟩) (fun _ => .constantU1) fun _ => rfl
      simpa only [operandsOf, bind_assoc, pure_bind] using hr
  | constantU2 =>
      have hu2 : Reads u2 fun _ index used => True ∧ used = Bytes.ofNat 2 index.toNat :=
        Reads.u2.congr fun _ _ _ => (true_and _).symm.to_iff
      exact single_reads start wide .constant hu2 (fun _ => rfl)
        (fun | _, .constantU2 => ⟨_, rfl, trivial⟩) (fun _ _ => .constantU2) fun _ => rfl
  | slot =>
      exact single_reads start wide .slot (slotIndex_reads wide) (fun _ => rfl)
        (fun | _, .slot hi => ⟨_, rfl, hi⟩) (fun _ => .slot) fun _ => rfl
  | increment => exact increment_reads start wide
  | branch =>
      have hr := single_reads start wide .branch (shortTarget_reads start) (fun _ => rfl)
        (fun | _, .branch ht => ⟨_, rfl, ht⟩) (fun _ => .branch) fun _ => rfl
      simpa only [operandsOf, bind_assoc, pure_bind] using hr
  | branchWide =>
      exact single_reads start wide .branch (wideTarget_reads start) (fun _ => rfl)
        (fun | _, .branchWide ht => ⟨_, rfl, ht⟩) (fun _ => .branchWide) fun _ => rfl
  | arrayType => exact arrayType_reads start wide
  | interfaceCall => exact interfaceCall_reads start wide
  | dynamicCall => exact dynamicCall_reads start wide
  | multiArray => exact multiArray_reads start wide
  | tableSwitch => exact tableSwitch_reads start wide
  | lookupSwitch => exact lookupSwitch_reads start wide
  | wide =>
      refine (Reads.throw _).congr fun _ _ _ => ⟨False.elim, ?_⟩
      intro h
      rcases h with ⟨⟨⟩, -⟩

/-! ## Instructions -/

/-- An instruction that stands where it says it does and takes the bytes that it says it takes. -/
def grammar : Grammar Instruction := fun pos instruction used =>
  instruction.offset.toNat = pos ∧ instruction.size.toNat = used.length ∧ instruction.Fits ∧
    ∃ filler, filler.length = instruction.slack ∧ used = instruction.write filler

theorem widened_reads (start : Nat) :
    Reads (widened start) fun _ code used =>
      (Opcode.ofCode? code).any (·.layout.widens) = true ∧ used = [code] := by
  intro pos bytes code stopped
  cases bytes with
  | nil =>
      constructor
      · intro h
        cases h
      · intro h
        rcases h with ⟨_, ⟨-, rfl⟩, hb, -⟩
        cases hb
  | cons first rest =>
      have hfirst : peek ⟨pos, first :: rest⟩ = .ok first ⟨pos, first :: rest⟩ := rfl
      rw [widened, bind_of_ok hfirst]
      split
      · rename_i hw
        have hrest : skip 1 ⟨pos, first :: rest⟩ = .ok () ⟨pos + 1, rest⟩ := rfl
        rw [bind_of_ok hrest]
        constructor
        · intro h
          cases h
          exact ⟨[code], ⟨hw, rfl⟩, rfl, rfl⟩
        · intro h
          rcases h with ⟨_, ⟨-, rfl⟩, hb, hp⟩
          cases stopped
          cases hb
          cases hp
          rfl
      · rename_i hw
        constructor
        · intro h
          cases h
        · intro h
          rcases h with ⟨_, ⟨hcode, rfl⟩, hb, -⟩
          cases hb
          exact absurd hcode hw

theorem layout_of_ofCode? (instruction : Instruction) {code : UInt8} {opcode : Opcode}
    (hc : instruction.opcode = code) (h : Opcode.ofCode? code = some opcode) :
    instruction.layout = opcode.layout := by
  unfold layout
  rw [hc, h]

theorem complete_reads (start : Nat) (offset : UInt32) (wide : Bool) (code : UInt8) :
    Reads (complete start offset wide code) fun pos instruction used =>
      (instruction.offset = offset ∧ instruction.wide = wide ∧ instruction.opcode = code) ∧
        (Opcode.ofCode? code).isSome ∧
        operandGrammar start wide instruction.layout pos instruction.operands used ∧
        instruction.size.toNat = pos + used.length - start := by
  unfold complete
  cases hcode : Opcode.ofCode? code with
  | none =>
      exact (Reads.throw _).congr fun _ _ _ => by simp
  | some opcode =>
      refine (Reads.bind (operandsOf_reads start wide opcode.layout) fun operands => .bind .pos
        fun stop => .map (checkedOffset_reads (stop - start)) fun size =>
          Instruction.mk offset code wide size operands).congr fun pos instruction used => ?_
      constructor
      · intro h
        rcases h with ⟨operands, used, _, rfl, hops, _, _, _, rfl, ⟨rfl, rfl⟩, size, rfl, hsize,
          rfl⟩
        have hl := layout_of_ofCode? ⟨offset, code, wide, size, operands⟩ rfl hcode
        rw [List.append_nil, List.append_nil, hl]
        exact ⟨⟨rfl, rfl, rfl⟩, rfl, hops, hsize⟩
      · intro h
        rcases h with ⟨⟨rfl, rfl, rfl⟩, -, hops, hsize⟩
        rw [layout_of_ofCode? instruction rfl hcode] at hops
        exact ⟨instruction.operands, used, [], (List.append_nil _).symm, hops, _, [], [], rfl,
          ⟨rfl, rfl⟩, instruction.size, rfl, hsize, rfl⟩

/-- The operands by themselves, after the marker and the opcode. -/
theorem grammar_iff {pos : Nat} {instruction : Instruction} {used : Bytes} :
    grammar pos instruction used ↔
      instruction.offset.toNat = pos ∧ instruction.size.toNat = used.length ∧
        (Opcode.ofCode? instruction.opcode).isSome ∧
        (instruction.wide = true → instruction.layout = .slot ∨ instruction.layout = .increment) ∧
        ∃ more, used = (if instruction.wide then [0xC4] else []) ++ instruction.opcode :: more ∧
          operandGrammar pos instruction.wide instruction.layout (pos + 1) instruction.operands
            more := by
  constructor
  · intro h
    rcases h with ⟨rfl, hsize, ⟨hcode, hw, hfits⟩, filler, hfill, hused⟩
    exact ⟨rfl, hsize, hcode, hw, _, hused, hfits, filler, hfill, rfl⟩
  · intro h
    rcases h with ⟨rfl, hsize, hcode, hw, more, hused, hfits, filler, hfill, hmore⟩
    exact ⟨rfl, hsize, ⟨hcode, hw, hfits⟩, filler, hfill, by rw [hused, hmore, write]⟩

theorem widens_iff {layout : Layout} :
    layout.widens = true ↔ layout = .slot ∨ layout = .increment := by
  cases layout <;> decide

theorem slack_of_widens {layout : Layout} (h : layout = .slot ∨ layout = .increment) (pos : Nat) :
    layout.slack pos = 0 := by
  rcases h with rfl | rfl <;> rfl

theorem ofCode?_wideCode : (Opcode.ofCode? Opcode.wideCode).map (·.layout) = some .wide := by
  decide +kernel

/-- The marker is no instruction of its own. -/
theorem opcode_ne_wideCode {instruction : Instruction} {start : Nat} {wide : Bool}
    (h : instruction.layout.Fits start wide instruction.operands) :
    instruction.opcode ≠ Opcode.wideCode := by
  intro hw
  obtain ⟨opcode, ho, hlayout⟩ := Option.map_eq_some_iff.mp ofCode?_wideCode
  rw [layout_of_ofCode? instruction hw ho, hlayout] at h
  cases h

theorem any_widens_iff {instruction : Instruction} :
    (Opcode.ofCode? instruction.opcode).any (·.layout.widens) = true ↔
      (Opcode.ofCode? instruction.opcode).isSome ∧
        (instruction.layout = .slot ∨ instruction.layout = .increment) := by
  rw [← widens_iff]
  unfold layout
  cases Opcode.ofCode? instruction.opcode <;> simp

/-- The places of the operands matter only where there is padding. -/
theorem operandGrammar_of_widens {start : Nat} {wide : Bool} {layout : Layout}
    (h : layout = .slot ∨ layout = .increment) (pos other : Nat)
    {operands : List Operand} {used : Bytes} :
    operandGrammar start wide layout pos operands used ↔
      operandGrammar start wide layout other operands used := by
  rw [operandGrammar_of_slack (slack_of_widens h), operandGrammar_of_slack (slack_of_widens h)]

theorem decode_eq_ok_iff {cursor stopped : Cursor} {instruction : Instruction} :
    decode cursor = .ok instruction stopped ↔
      decodeFrom cursor.pos cursor = .ok instruction stopped := by
  unfold decode
  split <;> simp_all

theorem decode_reads : Reads decode grammar := by
  intro pos bytes instruction stopped
  have h : Reads (decodeFrom pos) _ := Reads.bind (checkedOffset_reads pos) fun offset =>
    .bind .u1 fun first =>
      .ite (.bind (widened_reads pos) fun code => complete_reads pos offset true code)
        (complete_reads pos offset false first)
  rw [decode_eq_ok_iff]
  refine (h pos bytes instruction stopped).trans (exists_congr fun used =>
    and_congr_left fun _ => ?_)
  rw [grammar_iff]
  constructor
  · intro h
    rcases h with ⟨offset, _, _, rfl, ⟨hoffset, rfl⟩, first, _, rest, rfl, rfl,
      ⟨rfl, code, _, more, rfl, ⟨hwidens, rfl⟩, ⟨rfl, hwide, rfl⟩, hcode, hops, hsize⟩ |
      ⟨hne, ⟨rfl, hwide, rfl⟩, hcode, hops, hsize⟩⟩
    · obtain ⟨-, hw⟩ := any_widens_iff.mp hwidens
      refine ⟨hoffset, ?_, hcode, fun _ => hw, more, ?_, ?_⟩
      · rw [hsize]
        simp only [List.length_append, List.length_cons, List.length_nil]
        omega
      · rw [hwide]
        rfl
      · rw [hwide]
        exact (operandGrammar_of_widens hw _ _).mp hops
    · refine ⟨hoffset, ?_, hcode, fun hw => ?_, rest, ?_, ?_⟩
      · rw [hsize]
        simp only [List.length_append, List.length_cons, List.length_nil]
        omega
      · rw [hwide] at hw
        cases hw
      · rw [hwide]
        rfl
      · rw [hwide]
        exact hops
  · intro h
    rcases h with ⟨hoffset, hsize, hcode, hw, more, rfl, hops⟩
    refine ⟨instruction.offset, [], _, rfl, ⟨hoffset, rfl⟩, ?_⟩
    cases hwide : instruction.wide with
    | true =>
        have hwidens := hw hwide
        rw [hwide] at hsize hops
        refine ⟨Opcode.wideCode, _, _, rfl, rfl, .inl ⟨rfl, instruction.opcode, _, more, rfl,
          ⟨any_widens_iff.mpr ⟨hcode, hwidens⟩, rfl⟩, ⟨rfl, rfl, rfl⟩, hcode,
          (operandGrammar_of_widens hwidens _ _).mp hops, ?_⟩⟩
        rw [hsize]
        simp only [if_true, List.length_append, List.length_cons, List.length_nil]
        omega
    | false =>
        rw [hwide] at hsize hops
        refine ⟨instruction.opcode, [_], more, rfl, rfl, .inr ⟨opcode_ne_wideCode hops.1,
          ⟨rfl, rfl, rfl⟩, hcode, hops, ?_⟩⟩
        rw [hsize]
        simp only [Bool.false_eq_true, if_false, List.length_append, List.length_cons,
          List.length_nil]
        omega

end Instruction

end ClassListing
