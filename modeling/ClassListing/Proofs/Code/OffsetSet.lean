import ClassListing.Code.Decode
import Mathlib.Data.Nat.Bitwise

/-!
# Offset sets as sets

The packed words represent exactly the offsets below the size that were inserted: an insertion
adds its own offset and leaves every other answer as it was, also for offsets that share its word.
The bits behind the size stay zero, so sets with the same offsets are equal, whatever the order in
which these were inserted.
-/

namespace ClassListing.OffsetSet

/-! ## Bits of a word -/

theorem toNat_bit (offset : Nat) : (bit offset).toNat = 2 ^ (offset % 64) := by
  have hlt : 2 ^ (offset % 64) < 2 ^ 64 := Nat.pow_lt_pow_right (by decide) (by omega)
  have hmod : offset % 64 % 64 = offset % 64 := Nat.mod_mod offset 64
  simpa [bit, UInt64.toNat_shiftLeft, Nat.shiftLeft_eq, hmod] using hlt

theorem and_bit_ne_zero (word : UInt64) (offset : Nat) :
    (word &&& bit offset != 0) = word.toNat.testBit (offset % 64) := by
  rw [Bool.eq_iff_iff, bne_iff_ne, ne_eq, ← UInt64.toNat_inj, UInt64.toNat_and, toNat_bit,
    Nat.and_two_pow]
  cases word.toNat.testBit (offset % 64) <;> simp

theorem testBit_or_bit (word : UInt64) (added offset : Nat) :
    (word ||| bit added).toNat.testBit (offset % 64) =
      (word.toNat.testBit (offset % 64) || decide (added % 64 = offset % 64)) := by
  rw [UInt64.toNat_or, Nat.testBit_or, toNat_bit, Nat.testBit_two_pow]

/-! ## Insertion -/

def Packed (set : OffsetSet) : Prop := set.words.size = (set.size + 63) / 64

theorem packed_empty (size : Nat) : Packed (empty size) := by
  simp [Packed, empty]

@[simp] theorem size_insert (set : OffsetSet) (offset : Nat) :
    (set.insert offset).size = set.size := by
  unfold insert
  split <;> rfl

theorem Packed.insert {set : OffsetSet} (h : set.Packed) (offset : Nat) :
    (set.insert offset).Packed := by
  unfold OffsetSet.insert
  split
  · simpa [Packed] using h
  · exact h

theorem Packed.contains_eq {set : OffsetSet} (h : set.Packed) (offset : Nat)
    (hlt : offset < set.size) :
    ∃ word, set.words[offset / 64]? = some word ∧
      set.contains offset = word.toNat.testBit (offset % 64) := by
  have hw : offset / 64 < set.words.size := by
    unfold Packed at h
    omega
  refine ⟨set.words[offset / 64], Array.getElem?_eq_getElem hw, ?_⟩
  simp only [contains, hlt, decide_true, Bool.true_and, Array.getElem?_eq_getElem hw,
    and_bit_ne_zero]

theorem contains_of_size_le {set : OffsetSet} {offset : Nat} (h : set.size ≤ offset) :
    set.contains offset = false := by
  simp [contains, Nat.not_lt.mpr h]

theorem contains_empty (size offset : Nat) : (empty size).contains offset = false := by
  by_cases hlt : offset < size
  · obtain ⟨word, hw, hc⟩ := (packed_empty size).contains_eq offset hlt
    have hz : word = 0 := by
      simp only [empty, Array.getElem?_replicate] at hw
      split at hw <;> cases hw
      rfl
    rw [hc, hz]
    simp
  · exact contains_of_size_le (Nat.not_lt.mp hlt)

/-- An insertion changes the answer for its own offset and for no other. -/
theorem contains_insert {set : OffsetSet} (h : set.Packed) (added offset : Nat) :
    (set.insert added).contains offset =
      (set.contains offset || decide (added = offset ∧ offset < set.size)) := by
  by_cases hlt : offset < set.size
  · obtain ⟨word, hw, hc⟩ := h.contains_eq offset hlt
    by_cases ha : added < set.size
    · obtain ⟨word', hw', hc'⟩ := (h.insert added).contains_eq offset (by simpa using hlt)
      simp only [insert, ha, if_true, Array.getElem?_modify, hw, Option.map_some] at hw'
      rw [hc', hc]
      by_cases hq : added / 64 = offset / 64
      · rw [if_pos hq] at hw'
        cases hw'
        rw [testBit_or_bit]
        congr 2
        exact propext ⟨fun hr => ⟨by omega, hlt⟩, fun hr => by rw [hr.1]⟩
      · rw [if_neg hq] at hw'
        cases hw'
        have hne : ¬(added = offset ∧ offset < set.size) := by
          intro h
          rcases h with ⟨rfl, -⟩
          exact hq rfl
        simp [hne]
    · have hne : ¬(added = offset ∧ offset < set.size) := by omega
      simp [insert, ha, hne]
  · have hle := Nat.not_lt.mp hlt
    rw [contains_of_size_le hle, contains_of_size_le (by simpa using hle)]
    simp [hlt]

/-- After any insertions the set holds exactly the inserted offsets below its size. -/
theorem contains_foldl_insert {set : OffsetSet} (h : set.Packed) (offsets : List Nat)
    (offset : Nat) :
    (offsets.foldl insert set).contains offset =
      (set.contains offset || decide (offset ∈ offsets ∧ offset < set.size)) := by
  induction offsets generalizing set with
  | nil => simp
  | cons added offsets ih =>
      have hmem : (added = offset ∧ offset < set.size ∨ offset ∈ offsets ∧ offset < set.size) ↔
          offset ∈ added :: offsets ∧ offset < set.size := by
        rw [List.mem_cons, ← or_and_right, eq_comm]
      rw [List.foldl_cons, ih (h.insert added), contains_insert h, size_insert, Bool.or_assoc,
        ← Bool.decide_or, decide_eq_decide.mpr hmem]

/-! ## Equality -/

/-- Every offset below the size has its word, and no bit is set behind the last of them. -/
structure Canonical (set : OffsetSet) : Prop where
  packed : set.Packed
  padding : ∀ {offset word}, set.size ≤ offset → set.words[offset / 64]? = some word →
    word.toNat.testBit (offset % 64) = false

theorem canonical_empty (size : Nat) : Canonical (empty size) := by
  refine ⟨packed_empty size, fun _ hword => ?_⟩
  simp only [empty, Array.getElem?_replicate] at hword
  split at hword <;> cases hword
  simp

theorem Canonical.insert {set : OffsetSet} (h : set.Canonical) (added : Nat) :
    (set.insert added).Canonical := by
  refine ⟨h.packed.insert added, fun {offset word} hle hword => ?_⟩
  rw [size_insert] at hle
  by_cases ha : added < set.size
  · simp only [OffsetSet.insert, ha, if_true, Array.getElem?_modify] at hword
    by_cases hq : added / 64 = offset / 64
    · rw [if_pos hq, Option.map_eq_some_iff] at hword
      obtain ⟨before, hbefore, rfl⟩ := hword
      -- The word may be shared, but the place is not: the added offset lies below the size.
      have hplace : added % 64 ≠ offset % 64 := by omega
      rw [testBit_or_bit, h.padding hle hbefore]
      simp [hplace]
    · rw [if_neg hq] at hword
      exact h.padding hle hword
  · simp only [OffsetSet.insert, ha, if_false] at hword
    exact h.padding hle hword

theorem size_foldl_insert (set : OffsetSet) (offsets : List Nat) :
    (offsets.foldl insert set).size = set.size := by
  induction offsets generalizing set with
  | nil => rfl
  | cons added offsets ih => rw [List.foldl_cons, ih, size_insert]

theorem Canonical.foldl_insert {set : OffsetSet} (h : set.Canonical) (offsets : List Nat) :
    (offsets.foldl OffsetSet.insert set).Canonical := by
  induction offsets generalizing set with
  | nil => exact h
  | cons added offsets ih => exact ih (h.insert added)

theorem word_eq_of_testBit_eq {first second : UInt64}
    (h : ∀ place < 64, first.toNat.testBit place = second.toNat.testBit place) :
    first = second := by
  apply UInt64.toNat_inj.mp
  apply Nat.eq_of_testBit_eq
  intro place
  by_cases hplace : place < 64
  · exact h place hplace
  · have hlarge : 2 ^ 64 ≤ 2 ^ place := Nat.pow_le_pow_right (by decide) (by omega)
    rw [Nat.testBit_lt_two_pow (Nat.lt_of_lt_of_le first.toNat_lt hlarge),
      Nat.testBit_lt_two_pow (Nat.lt_of_lt_of_le second.toNat_lt hlarge)]

/-- Sets that give the same answers have the same words. -/
theorem Canonical.eq_of_contains_eq {first second : OffsetSet} (hf : first.Canonical)
    (hs : second.Canonical) (hsize : first.size = second.size)
    (h : ∀ offset, first.contains offset = second.contains offset) : first = second := by
  have hcount : first.words.size = second.words.size := by
    rw [hf.packed, hs.packed, hsize]
  have hwords : first.words = second.words := by
    apply Array.ext hcount
    intro index hfirst hsecond
    apply word_eq_of_testBit_eq
    intro place hplace
    -- The bit is that of one offset, which is answered for below the size and padding behind it.
    have hdiv : (64 * index + place) / 64 = index := by omega
    have hmod : (64 * index + place) % 64 = place := by omega
    have hword := Array.getElem?_eq_getElem hfirst
    have hother := Array.getElem?_eq_getElem hsecond
    by_cases hlt : 64 * index + place < first.size
    · obtain ⟨_, hget, hcontains⟩ := hf.packed.contains_eq _ hlt
      obtain ⟨_, hget', hcontains'⟩ := hs.packed.contains_eq _ (hsize ▸ hlt)
      rw [hdiv, hword] at hget
      rw [hdiv, hother] at hget'
      cases hget
      cases hget'
      rw [← hmod, ← hcontains, ← hcontains', h]
    · have hle := Nat.le_of_not_lt hlt
      have hzero := hf.padding hle (by rw [hdiv, hword])
      have hzero' := hs.padding (hsize ▸ hle) (by rw [hdiv, hother])
      rw [hmod] at hzero hzero'
      rw [hzero, hzero']
  cases first
  cases second
  cases hsize
  cases hwords
  rfl

/--
A set is told by the offsets that were inserted into it: it contains those of them that are below
its size and nothing else, the next insertion changes no answer but the one for its own offset, and
equal offsets give equal words, in any order and however often they were inserted.
-/
theorem holds_inserted_offsets (size : Nat) (offsets : List Nat) :
    (∀ offset, (offsets.foldl insert (empty size)).contains offset ↔
      offset < size ∧ offset ∈ offsets) ∧
    (∀ added other, other ≠ added →
      ((offsets.foldl insert (empty size)).insert added).contains other =
        (offsets.foldl insert (empty size)).contains other) ∧
    ∀ others : List Nat, others.foldl insert (empty size) = offsets.foldl insert (empty size) ↔
      ∀ offset < size, offset ∈ others ↔ offset ∈ offsets := by
  have hcontains (list : List Nat) (offset : Nat) :
      (list.foldl insert (empty size)).contains offset =
        decide (offset ∈ list ∧ offset < size) := by
    rw [contains_foldl_insert (packed_empty size), contains_empty, Bool.false_or]
    rfl
  have hcanonical (list : List Nat) := (canonical_empty size).foldl_insert list
  refine ⟨fun offset => ?_, fun added other hne => ?_, fun others => ?_⟩
  · rw [hcontains, decide_eq_true_eq, and_comm]
  · have hadded : ¬(added = other ∧ other < (offsets.foldl insert (empty size)).size) :=
      fun h => hne h.1.symm
    rw [contains_insert (hcanonical offsets).packed, decide_eq_false hadded, Bool.or_false]
  · constructor
    · intro heq offset hlt
      have hanswers := hcontains others offset
      rw [heq, hcontains, decide_eq_decide] at hanswers
      simpa [hlt] using hanswers.symm
    · intro hsame
      apply (hcanonical others).eq_of_contains_eq (hcanonical offsets)
      · rw [size_foldl_insert, size_foldl_insert]
      · intro offset
        rw [hcontains, hcontains, decide_eq_decide]
        constructor
        · intro h
          exact ⟨(hsame offset h.2).mp h.1, h.2⟩
        · intro h
          exact ⟨(hsame offset h.2).mpr h.1, h.2⟩

/-- The last offset of a word, the first of the next, the last of all, and one behind them. -/
theorem holds_inserted_offsets_boundary :
    ([63, 64, 69, 70].foldl insert (empty 70)).contains 69 ∧
      (([63, 64, 69, 70].foldl insert (empty 70)).insert 65).contains 64 ∧
      [64, 69, 63, 64, 127].foldl insert (empty 70) =
        [63, 64, 69, 70].foldl insert (empty 70) := by
  obtain ⟨hcontains, hframe, hequal⟩ := holds_inserted_offsets 70 [63, 64, 69, 70]
  refine ⟨(hcontains 69).mpr (by decide), ?_, (hequal _).mpr (by decide)⟩
  rw [hframe 65 64 (by decide)]
  exact (hcontains 64).mpr (by decide)

end ClassListing.OffsetSet
