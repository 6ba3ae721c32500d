import ClassListing.Proofs.Bytes
import ClassListing.Proofs.Cursor.Extension
import Mathlib.Data.List.Forall2

/-!
# Decoders and the grammars that they read

A grammar says which byte strings stand for a value. A decoder reads a grammar when it gives a
value exactly on the byte strings that the grammar lists for it, consumes those bytes and leaves
what follows them alone. One statement covers both directions: nothing else is accepted, and
nothing of the grammar is refused.
-/

namespace ClassListing

/-- The byte strings that stand for a value at a position. -/
abbrev Grammar (α : Type) := (pos : Nat) → α → Bytes → Prop

namespace Grammar

def Sequence (grammar : Grammar α) : Grammar (List α)
  | _, [], used => used = []
  | pos, value :: values, used => ∃ first more, used = first ++ more ∧ grammar pos value first ∧
      Sequence grammar (pos + first.length) values more

theorem Sequence.exists_of_mem {grammar : Grammar α} {pos : Nat} {values : List α} {used : Bytes}
    (h : grammar.Sequence pos values used) {value : α} (hm : value ∈ values) :
    ∃ place bytes, grammar place value bytes := by
  induction values generalizing pos used with
  | nil => cases hm
  | cons head values ih =>
      obtain ⟨first, more, -, hg, hs⟩ := h
      cases hm with
      | head => exact ⟨pos, first, hg⟩
      | tail _ hm => exact ih hs hm

/-- Where a value has one writing of its own, so has a list of values. -/
theorem sequence_iff {valid : α → Prop} {write : α → Bytes} {pos : Nat} {values : List α}
    {used : Bytes} :
    Sequence (fun _ value used => valid value ∧ used = write value) pos values used ↔
      (∀ value ∈ values, valid value) ∧ used = values.flatMap write := by
  induction values generalizing pos used with
  | nil => simp [Sequence]
  | cons value values ih =>
      simp only [Sequence, ih, List.forall_mem_cons, List.flatMap_cons]
      constructor
      · intro h
        rcases h with ⟨first, more, rfl, ⟨hv, rfl⟩, hvs, rfl⟩
        exact ⟨⟨hv, hvs⟩, rfl⟩
      · intro h
        rcases h with ⟨⟨hv, hvs⟩, rfl⟩
        exact ⟨_, _, rfl, ⟨hv, rfl⟩, hvs, rfl⟩

/-- The writings of the items that stand for a value. -/
def coded (write : ρ → Bytes) (means : ρ → α → Prop) : Grammar α := fun _ value used =>
  ∃ item, used = write item ∧ means item value

/-- What a row of values is written as, item by item. -/
theorem sequence_coded_iff {write : ρ → Bytes} {means : ρ → α → Prop} {pos : Nat}
    {values : List α} {used : Bytes} :
    (coded write means).Sequence pos values used ↔
      ∃ items, used = items.flatMap write ∧ List.Forall₂ means items values := by
  induction values generalizing pos used with
  | nil => simp [Sequence]
  | cons value values ih =>
      simp only [Sequence, ih, List.forall₂_cons_right_iff]
      constructor
      · intro h
        rcases h with ⟨_, _, rfl, ⟨item, rfl, hitem⟩, items, rfl, hitems⟩
        exact ⟨item :: items, rfl, item, items, hitem, hitems, rfl⟩
      · intro h
        rcases h with ⟨_, rfl, item, items, hitem, hitems, rfl⟩
        exact ⟨write item, items.flatMap write, rfl, ⟨item, rfl, hitem⟩, items, rfl, hitems⟩

/-- The writings of `count` items that stand for a list of values. -/
def row (write : ρ → Bytes) (means : ρ → α → Prop) (count : Nat) : Grammar (List α) :=
  fun _ values used => ∃ items : List ρ, items.length = count ∧ used = items.flatMap write ∧
    List.Forall₂ means items values

def behind (first : ρ → UInt8) (write : ρ → Bytes) (means : ρ → α → Prop) (byte : UInt8) :
    Grammar α := fun _ value used =>
  ∃ item, first item = byte ∧ used = write item ∧ means item value

end Grammar

namespace Bytes

/-- A list with its count in two bytes in front. -/
def counted (write : α → Bytes) (items : List α) : Bytes :=
  ofNat 2 items.length ++ items.flatMap write

end Bytes

namespace Decoder

theorem runOn_eq_ok_iff {decoder : Decoder α} {bytes : Bytes} {value : α} :
    decoder.runOn bytes = .ok value ↔ ∃ stopped, decoder ⟨0, bytes⟩ = .ok value stopped := by
  have hrun : decoder.run (.start bytes) = decoder ⟨0, bytes⟩ := rfl
  rw [runOn, hrun]
  cases decoder ⟨0, bytes⟩ <;> simp

def Reads (decoder : Decoder α) (grammar : Grammar α) : Prop :=
  ∀ (pos : Nat) (bytes : Bytes) (value : α) (stopped : Cursor),
    decoder ⟨pos, bytes⟩ = .ok value stopped ↔
      ∃ used, grammar pos value used ∧ bytes = used ++ stopped.rest ∧
        stopped.pos = pos + used.length

namespace Reads

variable {grammar other : Grammar α} {decoder : Decoder α}

/-- What the grammar lists is read, whatever follows it. -/
theorem complete (h : Reads decoder grammar) {pos : Nat} {value : α} {used : Bytes}
    (hg : grammar pos value used) (rest : Bytes) :
    decoder ⟨pos, used ++ rest⟩ = .ok value ⟨pos + used.length, rest⟩ :=
  (h pos (used ++ rest) value ⟨pos + used.length, rest⟩).mpr ⟨used, hg, rfl, rfl⟩

/-- What is consumed is no longer left. -/
theorem total (h : Reads decoder grammar) {cursor stopped : Cursor} {value : α}
    (hr : decoder cursor = .ok value stopped) :
    stopped.pos + stopped.rest.length = cursor.pos + cursor.rest.length := by
  obtain ⟨used, -, hbytes, hpos⟩ := (h cursor.pos cursor.rest value stopped).mp hr
  rw [hpos, hbytes, List.length_append, Nat.add_assoc]

theorem congr (h : Reads decoder grammar)
    (heq : ∀ pos value used, grammar pos value used ↔ other pos value used) :
    Reads decoder other := by
  intro pos bytes value stopped
  simp only [h pos bytes value stopped, heq]

protected theorem pure (value : α) :
    Reads (pure value) fun _ result used => result = value ∧ used = [] := by
  intro pos bytes result stopped
  constructor
  · intro h
    cases h
    exact ⟨[], ⟨rfl, rfl⟩, rfl, rfl⟩
  · intro h
    rcases h with ⟨used, ⟨rfl, rfl⟩, hb, hp⟩
    cases stopped
    cases hb
    cases hp
    rfl

protected theorem throw (error : Error) : Reads (throw error : Decoder α) fun _ _ _ => False := by
  intro pos bytes result stopped
  constructor
  · intro h
    cases h
  · intro h
    rcases h with ⟨used, hfalse, -⟩
    exact hfalse.elim

protected theorem bind {next : α → Decoder β} {after : α → Grammar β} (hf : Reads decoder grammar)
    (hn : ∀ value, Reads (next value) (after value)) :
    Reads (decoder >>= next) fun pos result used => ∃ value first more, used = first ++ more ∧
      grammar pos value first ∧ after value (pos + first.length) result more := by
  intro pos bytes result stopped
  constructor
  · intro h
    cases hr : decoder ⟨pos, bytes⟩ with
    | error error middle =>
        rw [bind_of_error hr] at h
        cases h
    | ok value middle =>
        rw [bind_of_ok hr] at h
        obtain ⟨first, hg, hb, hp⟩ := (hf _ _ _ _).mp hr
        obtain ⟨more, ha, hm, hs⟩ := (hn value _ _ _ _).mp h
        refine ⟨first ++ more, ⟨value, first, more, rfl, hg, hp ▸ ha⟩, ?_, ?_⟩
        · rw [hb, hm, List.append_assoc]
        · rw [hs, hp, List.length_append, Nat.add_assoc]
  · intro h
    rcases h with ⟨used, ⟨value, first, more, rfl, hg, ha⟩, hb, hs⟩
    rw [hb, List.append_assoc, bind_of_ok (hf.complete hg _)]
    refine (hn value _ _ _ _).mpr ⟨more, ha, rfl, ?_⟩
    rw [hs, List.length_append, Nat.add_assoc]

/-- A value that is only put into another one. -/
protected theorem map (h : Reads decoder grammar) (wrap : α → β) :
    Reads (do return wrap (← decoder)) fun pos result used =>
      ∃ value, result = wrap value ∧ grammar pos value used := by
  refine (Reads.bind h fun value => .pure (wrap value)).congr fun pos result used => ?_
  constructor
  · intro h
    rcases h with ⟨value, first, more, rfl, hg, rfl, rfl⟩
    exact ⟨value, rfl, by rwa [List.append_nil]⟩
  · intro h
    rcases h with ⟨value, rfl, hg⟩
    exact ⟨value, used, [], by rw [List.append_nil], hg, rfl, rfl⟩

protected theorem lookup (found : Except Error α) :
    Reads (lookup found) fun _ value used => found = .ok value ∧ used = [] := by
  cases found with
  | ok value => exact (Reads.pure value).congr fun _ _ _ => by simp [eq_comm]
  | error error => exact (Reads.throw error).congr fun _ _ _ => by simp

/-- Which of two decoders goes on may depend on what was read before. -/
protected theorem ite {cond : Prop} [Decidable cond] {second : Decoder α}
    (hf : Reads decoder grammar) (hs : Reads second other) :
    Reads (if cond then decoder else second) fun pos value used =>
      cond ∧ grammar pos value used ∨ ¬cond ∧ other pos value used := by
  by_cases hc : cond
  · rw [if_pos hc]
    exact hf.congr fun _ _ _ => by simp [hc]
  · rw [if_neg hc]
    exact hs.congr fun _ _ _ => by simp [hc]

/-- A value that is refused when `bad` holds. -/
theorem refuse {bad : Prop} [Decidable bad] (error : Error) (h : Reads decoder grammar) :
    Reads (if bad then throw error else decoder) fun pos value used =>
      ¬bad ∧ grammar pos value used :=
  (Reads.ite (.throw error) h).congr fun _ _ _ => by simp

/-! ## Reads -/

theorem pos : Reads pos fun pos value used => value = pos ∧ used = [] := by
  intro pos bytes value stopped
  exact Reads.pure pos pos bytes value stopped

theorem take (count : Nat) :
    Reads (take count) fun _ value used => value.length = count ∧ used = value := by
  intro pos bytes value stopped
  constructor
  · intro h
    simp only [Decoder.take] at h
    split at h <;> try contradiction
    rename_i hl
    cases h
    exact ⟨_, ⟨hl, rfl⟩, (List.take_append_drop count bytes).symm, by rw [hl]⟩
  · intro h
    rcases h with ⟨used, ⟨rfl, rfl⟩, rfl, hp⟩
    cases stopped
    cases hp
    exact take_append _ _ _

theorem skip (count : Nat) : Reads (skip count) fun _ _ used => used.length = count :=
  (Reads.map (.take count) fun _ => ()).congr fun _ _ used => by simp

theorem align (unit : Nat) :
    Reads (align unit) fun pos _ used => used.length = (unit - pos % unit) % unit := by
  intro pos bytes value stopped
  exact Reads.skip ((unit - pos % unit) % unit) pos bytes value stopped

theorem number (width : Nat) :
    Reads (number width) fun _ value used =>
      value < 256 ^ width ∧ used = Bytes.ofNat width value := by
  refine (Reads.map (.take width) Bytes.toNat).congr fun _ value used => ?_
  constructor
  · intro h
    rcases h with ⟨bytes, rfl, rfl, rfl⟩
    exact ⟨Bytes.toNat_lt used, (Bytes.ofNat_toNat used).symm⟩
  · intro h
    rcases h with ⟨hlt, rfl⟩
    exact ⟨_, (Bytes.toNat_ofNat_of_lt hlt).symm, Bytes.length_ofNat width value, rfl⟩

/-- A word is a number of its width. -/
theorem word {ofNat : Nat → α} {toNat : α → Nat} {width : Nat}
    (hlt : ∀ value, toNat value < 256 ^ width) (hof : ∀ value, ofNat (toNat value) = value)
    (hto : ∀ value, value < 256 ^ width → toNat (ofNat value) = value) :
    Reads (do return ofNat (← Decoder.number width)) fun _ value used =>
      used = Bytes.ofNat width (toNat value) := by
  refine (Reads.map (.number width) ofNat).congr fun _ value used => ?_
  constructor
  · intro h
    rcases h with ⟨digits, rfl, hd, rfl⟩
    rw [hto digits hd]
  · intro h
    subst h
    exact ⟨toNat value, (hof value).symm, hlt value, rfl⟩

theorem u1_number : Reads u1 fun _ value used => used = Bytes.ofNat 1 value.toNat :=
  .word UInt8.toNat_lt (fun _ => UInt8.ofNat_toNat) fun _ => UInt8.toNat_ofNat_of_lt'

theorem u1 : Reads u1 fun _ value used => used = [value] := by
  refine u1_number.congr fun _ value used => ?_
  rw [Bytes.ofNat_one, UInt8.ofNat_toNat]

theorem u2 : Reads u2 fun _ value used => used = Bytes.ofNat 2 value.toNat :=
  .word UInt16.toNat_lt (fun _ => UInt16.ofNat_toNat) fun _ => UInt16.toNat_ofNat_of_lt'

theorem u4 : Reads u4 fun _ value used => used = Bytes.ofNat 4 value.toNat :=
  .word UInt32.toNat_lt (fun _ => UInt32.ofNat_toNat) fun _ => UInt32.toNat_ofNat_of_lt'

theorem u8 : Reads u8 fun _ value used => used = Bytes.ofNat 8 value.toNat :=
  .word UInt64.toNat_lt (fun _ => UInt64.ofNat_toNat) fun _ => UInt64.toNat_ofNat_of_lt'

/-- A word with a sign is the same bytes. -/
theorem signed {wrap : α → β} {unwrap : β → α} {write : α → Bytes} {writeSigned : β → Bytes}
    (h : Reads decoder fun _ value used => used = write value)
    (hw : ∀ value, wrap (unwrap value) = value)
    (hs : ∀ value, writeSigned (wrap value) = write value) :
    Reads (do return wrap (← decoder)) fun _ value used => used = writeSigned value := by
  refine (h.map wrap).congr fun _ value used => ?_
  constructor
  · intro h
    rcases h with ⟨unsigned, rfl, rfl⟩
    exact (hs unsigned).symm
  · intro h
    subst h
    exact ⟨unwrap value, (hw value).symm, by rw [← hs, hw]⟩

theorem i1 : Reads i1 fun _ value used => used = Bytes.ofInt 1 value.toInt :=
  .signed u1_number Int8.toInt8_toUInt8 fun word => Bytes.ofInt_toInt 1 word.toBitVec

theorem i2 : Reads i2 fun _ value used => used = Bytes.ofInt 2 value.toInt :=
  .signed u2 Int16.toInt16_toUInt16 fun word => Bytes.ofInt_toInt 2 word.toBitVec

theorem i4 : Reads i4 fun _ value used => used = Bytes.ofInt 4 value.toInt :=
  .signed u4 Int32.toInt32_toUInt32 fun word => Bytes.ofInt_toInt 4 word.toBitVec

theorem i8 : Reads i8 fun _ value used => used = Bytes.ofInt 8 value.toInt :=
  .signed u8 Int64.toInt64_toUInt64 fun word => Bytes.ofInt_toInt 8 word.toBitVec

theorem many (h : Reads decoder grammar) (count : Nat) :
    Reads (many count decoder) fun pos values used =>
      values.length = count ∧ grammar.Sequence pos values used := by
  induction count with
  | zero =>
      refine (Reads.pure []).congr fun pos values used => ?_
      rw [List.length_eq_zero_iff]
      constructor
      · intro h
        rcases h with ⟨rfl, rfl⟩
        exact ⟨rfl, rfl⟩
      · intro h
        rcases h with ⟨rfl, hs⟩
        exact ⟨rfl, hs⟩
  | succ count ih =>
      rw [many_succ]
      refine (Reads.bind h fun value => .map ih (value :: ·)).congr fun pos values used => ?_
      constructor
      · intro h
        rcases h with ⟨value, first, more, rfl, hv, rest, rfl, hl, hs⟩
        exact ⟨by rw [List.length_cons, hl], first, more, rfl, hv, hs⟩
      · intro h
        rcases h with ⟨hl, hs⟩
        cases values with
        | nil => cases hl
        | cons value rest =>
            obtain ⟨first, more, hu, hv, hr⟩ := hs
            exact ⟨value, first, more, hu, hv, rest, rfl, Nat.succ.inj hl, hr⟩

/-- An index that is looked up at once. -/
theorem reference (find : UInt16 → Except Error α) :
    Reads (reference find) (.coded (fun index => Bytes.ofNat 2 index.toNat)
      fun index value => find index = .ok value) := by
  refine (Reads.bind .u2 fun index => .lookup (find index)).congr fun _ value used => ?_
  constructor
  · intro h
    rcases h with ⟨index, _, _, rfl, rfl, hfind, rfl⟩
    exact ⟨index, List.append_nil _, hfind⟩
  · intro h
    rcases h with ⟨index, rfl, hfind⟩
    exact ⟨index, _, [], (List.append_nil _).symm, rfl, hfind, rfl⟩

/-- Items whose first byte decides how the others are read. -/
theorem headed {next : UInt8 → Decoder α} {first : ρ → UInt8} {write : ρ → Bytes}
    {means : ρ → α → Prop} (h : ∀ byte, Reads (next byte) (.behind first write means byte)) :
    Reads (do next (← Decoder.u1)) (.coded (fun item => first item :: write item) means) := by
  refine (Reads.bind .u1 h).congr fun _ value used => ?_
  constructor
  · intro h
    rcases h with ⟨_, _, _, rfl, rfl, item, rfl, rfl, hmeans⟩
    exact ⟨item, rfl, hmeans⟩
  · intro h
    rcases h with ⟨item, rfl, hmeans⟩
    exact ⟨first item, [first item], write item, rfl, rfl, item, rfl, rfl, hmeans⟩

/-- A known number of values, item by item. -/
theorem row {write : ρ → Bytes} {means : ρ → α → Prop} (h : Reads decoder (.coded write means))
    (count : Nat) : Reads (Decoder.many count decoder) (.row write means count) := by
  refine (h.many count).congr fun pos values used => ?_
  rw [Grammar.sequence_coded_iff]
  constructor
  · intro h
    rcases h with ⟨hlength, items, rfl, hitems⟩
    exact ⟨items, hitems.length_eq.trans hlength, rfl, hitems⟩
  · intro h
    rcases h with ⟨items, hlength, rfl, hitems⟩
    exact ⟨hitems.length_eq.symm.trans hlength, items, rfl, hitems⟩

/-- A count and that many items, however those are read. -/
theorem counted {next : Nat → Decoder (List α)} {write : ρ → Bytes} {means : ρ → α → Prop}
    (h : ∀ count, Reads (next count) (.row write means count)) :
    Reads (do next (← Decoder.u2).toNat) fun _ values used => ∃ items : List ρ,
      items.length < 2 ^ 16 ∧ used = Bytes.counted write items ∧
        List.Forall₂ means items values := by
  refine (Reads.bind .u2 fun count => h count.toNat).congr fun pos values used => ?_
  constructor
  · intro h
    rcases h with ⟨count, _, _, rfl, rfl, items, hcount, rfl, hitems⟩
    exact ⟨items, hcount ▸ count.toNat_lt, by rw [Bytes.counted, hcount], hitems⟩
  · intro h
    rcases h with ⟨items, hlt, rfl, hitems⟩
    have hcount : (UInt16.ofNat items.length).toNat = items.length := UInt16.toNat_ofNat_of_lt' hlt
    exact ⟨.ofNat items.length, Bytes.ofNat 2 items.length, items.flatMap write, rfl,
      by rw [hcount], items, hcount.symm, rfl, hitems⟩

theorem countedU2 {write : ρ → Bytes} {means : ρ → α → Prop}
    (h : Reads decoder (.coded write means)) :
    Reads (countedU2 decoder) fun _ values used => ∃ items : List ρ, items.length < 2 ^ 16 ∧
      used = Bytes.counted write items ∧ List.Forall₂ means items values :=
  .counted h.row

/-- Asking beforehand for bytes that a decoder will take in any case changes nothing. -/
theorem ensure_bind {count : Nat} (h : Reads decoder grammar)
    (hl : ∀ pos value used, grammar pos value used → count ≤ used.length) :
    Reads (do ensure count; decoder) grammar := by
  intro pos bytes value stopped
  rw [← h pos bytes value stopped]
  by_cases hc : count ≤ bytes.length
  · have hok : ensure count ⟨pos, bytes⟩ = .ok () ⟨pos, bytes⟩ := by
      simp only [ensure, List.length_take, Nat.min_eq_left hc, if_true]
    rw [bind_of_ok hok]
  · have hfail : ensure count ⟨pos, bytes⟩ = .error .truncated ⟨pos, bytes⟩ := by
      have hne : min count bytes.length ≠ count := by omega
      simp only [ensure, List.length_take, hne, if_false]
    rw [bind_of_error hfail]
    constructor
    · intro he
      cases he
    · intro he
      obtain ⟨used, hg, rfl, -⟩ := (h _ _ _ _).mp he
      have hu := hl _ _ _ hg
      rw [List.length_append] at hc
      omega

end Reads

theorem u2_append (pos : Nat) (value : UInt16) (rest : Bytes) :
    u2 ⟨pos, Bytes.ofNat 2 value.toNat ++ rest⟩ = .ok value ⟨pos + 2, rest⟩ := by
  have h : u2 ⟨pos, Bytes.ofNat 2 value.toNat ++ rest⟩ =
      .ok value ⟨pos + (Bytes.ofNat 2 value.toNat).length, rest⟩ := Reads.u2.complete rfl rest
  rwa [Bytes.length_ofNat] at h

theorem u4_append (pos : Nat) (value : UInt32) (rest : Bytes) :
    u4 ⟨pos, Bytes.ofNat 4 value.toNat ++ rest⟩ = .ok value ⟨pos + 4, rest⟩ := by
  have h : u4 ⟨pos, Bytes.ofNat 4 value.toNat ++ rest⟩ =
      .ok value ⟨pos + (Bytes.ofNat 4 value.toNat).length, rest⟩ := Reads.u4.complete rfl rest
  rwa [Bytes.length_ofNat] at h

end Decoder

end ClassListing
