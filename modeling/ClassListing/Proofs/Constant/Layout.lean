import ClassListing.Proofs.Constant.Grammar

/-!
# The layout of constant pools

A decoded pool has its entries at the indices that they take one after the other; the slots that
hold nothing are slot zero and the second halves of the wide constants. Looking up an index and
listing all constants agree with that layout, and the bytes of a pool leave no choice of entries.
-/

namespace ClassListing.Pool

open Decoder

/-- The pool has the entries in their places and nothing else. -/
structure LaidOut (entries : List Entry) (pool : Pool) : Prop where
  size : pool.size = 1 + slotCount entries
  zero : pool.slots[0]? = some none
  entry : ∀ k entry, entries[k]? = some entry →
    pool.slots[indexOf entries k]? = some (some entry.constant)
  second : ∀ k entry, entries[k]? = some entry → entry.isWide = true →
    pool.slots[indexOf entries k + 1]? = some none
  usable : ∀ index, pool.slots[index]? = some none →
    index = 0 ∨ ∃ k entry, entries[k]? = some entry ∧ entry.isWide = true ∧
      index = indexOf entries k + 1

/-! ## Slots -/

theorem length_flatMap_slots (entries : List Entry) :
    (entries.flatMap Entry.slots).length = slotCount entries := by
  induction entries with
  | nil => rfl
  | cons entry entries ih => simp [ih]

theorem Entry.getElem?_slots_some {entry : Entry} {j : Nat} {constant : Constant} :
    entry.slots[j]? = some (some constant) ↔ j = 0 ∧ constant = entry.constant := by
  unfold slots
  split <;> match j with
    | 0 => simp [eq_comm]
    | 1 => simp
    | j + 2 => simp

theorem Entry.getElem?_slots_none {entry : Entry} {j : Nat} :
    entry.slots[j]? = some none ↔ j = 1 ∧ entry.isWide = true := by
  unfold slots
  split <;> match j with
    | 0 => simp
    | 1 => simp [*]
    | j + 2 => simp

/-- A slot belongs to one entry, at its distance from the first slot of that entry. -/
theorem getElem?_flatMap_slots {entries : List Entry} {index : Nat} {slot : Option Constant} :
    (entries.flatMap Entry.slots)[index]? = some slot ↔
      ∃ k entry j, entries[k]? = some entry ∧ entry.slots[j]? = some slot ∧
        index = slotCount (entries.take k) + j := by
  induction entries generalizing index with
  | nil => simp
  | cons first entries ih =>
      rw [List.flatMap_cons, List.getElem?_append]
      constructor
      · intro h
        split at h
        · exact ⟨0, first, index, rfl, h, by simp⟩
        · rename_i hlt
          rw [Entry.length_slots] at hlt h
          obtain ⟨k, entry, j, hk, hj, hindex⟩ := ih.mp h
          refine ⟨k + 1, entry, j, by simpa using hk, hj, ?_⟩
          rw [List.take_succ_cons, slotCount_cons]
          omega
      · intro h
        rcases h with ⟨k, entry, j, hk, hj, rfl⟩
        cases k with
        | zero =>
            obtain rfl : first = entry := by simpa using hk
            have hlt : j < first.slots.length := (List.getElem?_eq_some_iff.mp hj).1
            rw [List.take_zero, slotCount_nil, Nat.zero_add, if_pos hlt]
            exact hj
        | succ k =>
            rw [List.take_succ_cons, slotCount_cons, Entry.length_slots, if_neg (by omega)]
            exact ih.mpr ⟨k, entry, j, by simpa using hk, hj, by omega⟩

theorem getElem?_layOut_some {entries : List Entry} {index : Nat} {constant : Constant} :
    (layOut entries)[index]? = some (some constant) ↔
      ∃ k entry, entries[k]? = some entry ∧ index = indexOf entries k ∧
        constant = entry.constant := by
  cases index with
  | zero =>
      constructor
      · intro h
        cases h
      · intro h
        rcases h with ⟨k, entry, -, hindex, -⟩
        rw [indexOf] at hindex
        omega
  | succ index =>
      simp only [layOut, List.getElem?_cons_succ, getElem?_flatMap_slots,
        Entry.getElem?_slots_some, indexOf]
      constructor
      · intro h
        rcases h with ⟨k, entry, j, hk, ⟨rfl, rfl⟩, rfl⟩
        exact ⟨k, entry, hk, by omega, rfl⟩
      · intro h
        rcases h with ⟨k, entry, hk, hindex, rfl⟩
        exact ⟨k, entry, 0, hk, ⟨rfl, rfl⟩, by omega⟩

theorem getElem?_layOut_none {entries : List Entry} {index : Nat} :
    (layOut entries)[index]? = some none ↔
      index = 0 ∨ ∃ k entry, entries[k]? = some entry ∧ entry.isWide = true ∧
        index = indexOf entries k + 1 := by
  cases index with
  | zero => simp [layOut]
  | succ index =>
      simp only [layOut, List.getElem?_cons_succ, getElem?_flatMap_slots,
        Entry.getElem?_slots_none, indexOf, Nat.add_one_ne_zero, false_or]
      constructor
      · intro h
        rcases h with ⟨k, entry, j, hk, ⟨rfl, hwide⟩, rfl⟩
        exact ⟨k, entry, hk, hwide, by omega⟩
      · intro h
        rcases h with ⟨k, entry, hk, hwide, hindex⟩
        exact ⟨k, entry, 1, hk, ⟨rfl, hwide⟩, by omega⟩

theorem laidOut {entries : List Entry} {pool : Pool} (h : pool.slots.toList = layOut entries) :
    LaidOut entries pool := by
  have hslot (index : Nat) : pool.slots[index]? = (layOut entries)[index]? := by
    rw [← h, Array.getElem?_toList]
  refine ⟨?_, ?_, fun k entry hk => ?_, fun k entry hk hwide => ?_, fun index hi => ?_⟩
  · rw [Pool.size, ← Array.length_toList, h, layOut, List.length_cons, length_flatMap_slots]
    omega
  · rw [hslot]
    rfl
  · rw [hslot]
    exact getElem?_layOut_some.mpr ⟨k, entry, hk, rfl, rfl⟩
  · rw [hslot]
    exact getElem?_layOut_none.mpr (.inr ⟨k, entry, hk, hwide, rfl⟩)
  · rw [hslot] at hi
    exact getElem?_layOut_none.mp hi

/-! ## Lookups -/

theorem get_eq_ok_iff {pool : Pool} (hzero : pool.slots[0]? = some none) {index : UInt16}
    {constant : Constant} :
    pool.get index = .ok constant ↔ pool.slots[index.toNat]? = some (some constant) := by
  unfold get
  split
  · rename_i hi
    rw [hi, UInt16.toNat_zero, hzero]
    simp
  · split <;> simp_all

theorem indexOf_le (entries : List Entry) (k : Nat) :
    indexOf entries k ≤ 1 + slotCount entries := by
  have hsum := slotCount_append (entries.take k) (entries.drop k)
  rw [List.take_append_drop] at hsum
  rw [indexOf]
  omega

theorem indexOf_succ {entries : List Entry} {k : Nat} (h : k < entries.length) :
    indexOf entries (k + 1) = indexOf entries k + entries[k].width := by
  rw [indexOf, indexOf, List.take_succ_eq_append_getElem h, slotCount_append, slotCount_cons,
    slotCount_nil]
  omega

theorem indexOf_lt {entries : List Entry} {i j : Nat} (hij : i < j) (hj : j ≤ entries.length) :
    indexOf entries i < indexOf entries j := by
  induction j with
  | zero => omega
  | succ j ih =>
      have hw := entries[j].width_pos
      rw [indexOf_succ hj]
      by_cases hi : i = j
      · subst hi
        omega
      · have hlt := ih (by omega) (by omega)
        omega

/-- A slot as a listing shows it. -/
def listed (item : Option Constant × Nat) : Option (UInt16 × Constant) :=
  if item.2 < UInt16.size then item.1.map fun constant => (UInt16.ofNat item.2, constant) else none

theorem entries_eq (pool : Pool) : pool.entries = pool.slots.toList.zipIdx.filterMap listed := rfl

/-- A listed constant is found at its index. -/
theorem get_of_mem_entries {pool : Pool} (hzero : pool.slots[0]? = some none) {index : UInt16}
    {constant : Constant} (h : (index, constant) ∈ pool.entries) :
    pool.get index = .ok constant := by
  rw [entries_eq, List.mem_filterMap] at h
  obtain ⟨⟨slot, position⟩, hslot, hlisted⟩ := h
  rw [List.mem_zipIdx_iff_getElem?, Array.getElem?_toList] at hslot
  unfold listed at hlisted
  split at hlisted
  · rename_i hbound
    obtain ⟨_, rfl, hpair⟩ := Option.map_eq_some_iff.mp hlisted
    cases hpair
    rw [get_eq_ok_iff hzero, UInt16.toNat_ofNat_of_lt' hbound]
    exact hslot
  · cases hlisted

/-- A constant that is found is listed: its index is no larger than two bytes hold. -/
theorem mem_entries_of_get {pool : Pool} (hzero : pool.slots[0]? = some none) {index : UInt16}
    {constant : Constant} (h : pool.get index = .ok constant) :
    (index, constant) ∈ pool.entries := by
  have hslot := (get_eq_ok_iff hzero).mp h
  rw [entries_eq, List.mem_filterMap]
  refine ⟨(some constant, index.toNat), ?_, ?_⟩
  · rwa [List.mem_zipIdx_iff_getElem?, Array.getElem?_toList]
  · simp [listed, index.toNat_lt]

theorem Entry.filterMap_listed (entry : Entry) {start : Nat} (h : start < UInt16.size) :
    (entry.slots.zipIdx start).filterMap listed = [(UInt16.ofNat start, entry.constant)] := by
  unfold slots
  split <;> simp [listed, h]

/-- The constants that are listed for the slots from `start` on. -/
theorem filterMap_listed {entries : List Entry} {start : Nat}
    (h : start + slotCount entries ≤ UInt16.size) :
    ((entries.flatMap Entry.slots).zipIdx start).filterMap listed =
      entries.mapIdx fun k entry =>
        (UInt16.ofNat (start + slotCount (entries.take k)), entry.constant) := by
  induction entries generalizing start with
  | nil => rfl
  | cons entry entries ih =>
      have hw := entry.width_pos
      rw [slotCount_cons] at h
      rw [List.flatMap_cons, List.zipIdx_append, List.filterMap_append, List.mapIdx_cons,
        Entry.length_slots, ih (by omega), entry.filterMap_listed (by omega)]
      simp only [List.take_zero, slotCount_nil, Nat.add_zero, List.take_succ_cons, slotCount_cons,
        Nat.add_assoc, List.singleton_append]

theorem entries_of_slots {entries : List Entry} {pool : Pool} (hc : slotCount entries ≤ 65534)
    (h : pool.slots.toList = layOut entries) :
    pool.entries = entries.mapIdx fun k entry =>
      (UInt16.ofNat (indexOf entries k), entry.constant) := by
  have hsize : UInt16.size = 65536 := rfl
  rw [entries_eq, h, layOut, List.zipIdx_cons, List.filterMap_cons]
  exact filterMap_listed (by omega)

/-- Two bytes hold the index of every entry. -/
theorem toNat_indexOf {entries : List Entry} (hc : slotCount entries ≤ 65534) (k : Nat) :
    (UInt16.ofNat (indexOf entries k)).toNat = indexOf entries k := by
  have hle := indexOf_le entries k
  exact UInt16.toNat_ofNat_of_lt' (show _ < 65536 by omega)

theorem map_entries {entries : List Entry} {pool : Pool} (hc : slotCount entries ≤ 65534)
    (h : pool.slots.toList = layOut entries) :
    pool.entries.map (fun item => (item.1.toNat, item.2)) =
      entries.mapIdx fun k entry => (indexOf entries k, entry.constant) := by
  rw [entries_of_slots hc h]
  apply List.ext_getElem
  · simp
  · intro k _ _
    simp only [List.getElem_map, List.getElem_mapIdx, toNat_indexOf hc]

theorem pairwise_entries {entries : List Entry} {pool : Pool} (hc : slotCount entries ≤ 65534)
    (h : pool.slots.toList = layOut entries) :
    pool.entries.Pairwise fun item next => item.1 < next.1 := by
  rw [entries_of_slots hc h, List.pairwise_iff_getElem]
  intro i j hi hj hij
  rw [List.length_mapIdx] at hj
  simp only [List.getElem_mapIdx, UInt16.lt_iff_toNat_lt, toNat_indexOf hc]
  exact indexOf_lt hij (Nat.le_of_lt hj)

/-! ## Uniqueness -/

theorem Entry.eq_of_encode_eq {first second : Entry} (hc : first.constant = second.constant)
    (he : first.encode = second.encode) : first = second := by
  cases first with
  | utf8 raw short =>
      cases second with
      | utf8 other short =>
          obtain ⟨-, hbody⟩ := List.cons.inj he
          obtain ⟨-, rfl⟩ := List.append_inj hbody (by simp)
          rfl
      | plain constant other => exact absurd (congrArg Constant.kind hc.symm) other
  | plain constant other =>
      cases second with
      | utf8 raw short => exact absurd (congrArg Constant.kind hc) other
      | plain constant other =>
          obtain rfl := hc
          rfl

/-- No entry starts with another one. -/
theorem Entry.encode_append_inj {first second : Entry} {rest other : Bytes}
    (h : first.encode ++ rest = second.encode ++ other) : first = second ∧ rest = other := by
  -- The decoder finds one constant and stops at one place.
  have hread (entry : Entry) (rest : Bytes) : Constant.decode 0 ⟨0, entry.encode ++ rest⟩ =
      .ok entry.constant ⟨0 + entry.encode.length, rest⟩ :=
    (Constant.decode_reads 0).complete ⟨entry, rfl, rfl⟩ rest
  have hfirst := hread first rest
  rw [h, hread second other] at hfirst
  injection hfirst with hconstant hcursor
  injection hcursor with hpos hrest
  rw [hrest] at h
  exact ⟨eq_of_encode_eq hconstant.symm (List.append_cancel_right h), hrest.symm⟩

theorem flatMap_encode_append_inj {first second : List Entry} {rest other : Bytes}
    (hc : slotCount first = slotCount second)
    (h : first.flatMap Entry.encode ++ rest = second.flatMap Entry.encode ++ other) :
    first = second ∧ rest = other := by
  induction first generalizing second with
  | nil =>
      obtain rfl := slotCount_eq_zero_iff.mp hc.symm
      exact ⟨rfl, h⟩
  | cons entry first ih =>
      cases second with
      | nil => cases slotCount_eq_zero_iff.mp hc
      | cons head second =>
          simp only [List.flatMap_cons, List.append_assoc] at h
          obtain ⟨rfl, hmore⟩ := Entry.encode_append_inj h
          rw [slotCount_cons, slotCount_cons] at hc
          obtain ⟨rfl, hrest⟩ := ih (by omega) hmore
          exact ⟨rfl, hrest⟩

theorem encodeAll_append_inj {first second : List Entry} {rest other : Bytes}
    (hf : slotCount first ≤ 65534) (hs : slotCount second ≤ 65534)
    (h : encodeAll first ++ rest = encodeAll second ++ other) : first = second := by
  simp only [encodeAll, List.append_assoc] at h
  obtain ⟨hcount, hmore⟩ := List.append_inj h (by simp)
  have hsum := Bytes.ofNat_inj (show _ < 65536 by omega) (show _ < 65536 by omega) hcount
  exact (flatMap_encode_append_inj (by omega) hmore).1

/--
Decoding accepts exactly the written pools, lays the entries out by index, and leaves what follows
alone. The entries of an accepted byte string are the only ones; lookups and the listing of the
pool give them and nothing else.
-/
theorem decode_lays_out :
    (∀ (entries : List Entry) (pos : Nat) (rest : Bytes), slotCount entries ≤ 65534 →
      ∃ pool, decode ⟨pos, encodeAll entries ++ rest⟩ =
        .ok pool ⟨pos + (encodeAll entries).length, rest⟩ ∧ LaidOut entries pool) ∧
    (∀ (pos : Nat) (bytes : Bytes) (pool : Pool) (stopped : Cursor),
      decode ⟨pos, bytes⟩ = .ok pool stopped →
        ∃ entries, slotCount entries ≤ 65534 ∧ bytes = encodeAll entries ++ stopped.rest ∧
          (∀ other rest, slotCount other ≤ 65534 → bytes = encodeAll other ++ rest →
            other = entries) ∧
          LaidOut entries pool ∧
          (∀ index constant, pool.get index = .ok constant ↔
            ∃ k entry, entries[k]? = some entry ∧ index.toNat = indexOf entries k ∧
              constant = entry.constant) ∧
          pool.entries.map (fun item => (item.1.toNat, item.2)) =
            (entries.mapIdx fun k entry => (indexOf entries k, entry.constant)) ∧
          pool.entries.Pairwise fun item next => item.1 < next.1) := by
  constructor
  · intro entries pos rest hc
    exact ⟨_, decode_reads.complete ⟨entries, hc, rfl, rfl⟩ rest, laidOut rfl⟩
  · intro pos bytes pool stopped h
    obtain ⟨_, ⟨entries, hc, rfl, rfl⟩, hbytes, -⟩ := (decode_reads _ _ _ _).mp h
    refine ⟨entries, hc, hbytes, fun other rest ho hother => ?_, laidOut rfl,
      fun index constant => ?_, map_entries hc rfl, pairwise_entries hc rfl⟩
    · exact encodeAll_append_inj ho hc (hother.symm.trans hbytes)
    · rw [get_eq_ok_iff rfl, List.getElem?_toArray]
      exact getElem?_layOut_some

def entriesAroundWide : List Entry :=
  [.utf8 [65] (by decide), .plain (.long 5) nofun, .plain (.double 0x3FF0000000000000) nofun,
    .plain (.classInfo 1) nofun]

theorem decode_lays_out_sample :
    ∃ pool, decode ⟨0, encodeAll entriesAroundWide ++ [7]⟩ = .ok pool ⟨27, [7]⟩ ∧
      LaidOut entriesAroundWide pool ∧
      pool.get 6 = .ok (.classInfo 1) ∧ pool.entries.map (·.1.toNat) = [1, 2, 4, 6] := by
  obtain ⟨hwrite, hread⟩ := decode_lays_out
  obtain ⟨pool, hpool, hlaid⟩ := hwrite entriesAroundWide 0 [7] (by decide)
  obtain ⟨entries, -, -, hunique, -, hget, hlist, -⟩ := hread _ _ _ _ hpool
  obtain rfl := hunique entriesAroundWide [7] (by decide) rfl
  refine ⟨pool, hpool, hlaid, (hget 6 _).mpr ⟨3, _, rfl, rfl, rfl⟩, ?_⟩
  have hindices := congrArg (List.map Prod.fst) hlist
  rw [List.map_map] at hindices
  exact hindices

end ClassListing.Pool
