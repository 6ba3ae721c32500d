import ClassListing.Constant.Decode
import ClassListing.Proofs.Constant.Encoding
import ClassListing.Proofs.Cursor.Grammar

/-!
# What the decoder of constant pools accepts

A constant is read from exactly the byte strings that are an entry standing for it, and a pool
from exactly the byte strings that are the number of slots followed by entries that take them.
-/

namespace ClassListing

open Decoder Pool

namespace Constant

theorem HandleKind.ofCode?_eq_some_iff {code : UInt8} {access : HandleKind} :
    ofCode? code = some access ↔ code = access.code := by
  constructor
  · intro h
    apply UInt8.toNat_inj.mp
    unfold ofCode? at h
    split at h <;> cases h <;> assumption
  · intro h
    subst h
    exact ofCode?_code access

def fieldGrammar (kind : Kind) : Grammar Constant := fun _ constant used =>
  constant.kind = kind ∧ used = constant.fields

/-- A kind with one field. -/
theorem one_reads {kind : Kind} {decoder : Decoder α} {write : α → Bytes} (wrap : α → Constant)
    (h : Reads decoder fun _ value used => used = write value)
    (hk : ∀ constant : Constant, constant.kind = kind → ∃ value, constant = wrap value)
    (hw : ∀ value, (wrap value).kind = kind ∧ (wrap value).fields = write value) :
    Reads (do return wrap (← decoder)) (fieldGrammar kind) := by
  refine (h.map wrap).congr fun _ constant used => ?_
  constructor
  · intro h
    rcases h with ⟨value, rfl, rfl⟩
    exact ⟨(hw value).1, (hw value).2.symm⟩
  · intro h
    rcases h with ⟨hkind, rfl⟩
    obtain ⟨value, rfl⟩ := hk constant hkind
    exact ⟨value, rfl, (hw value).2⟩

/-- A kind that holds two indices. -/
theorem two_reads {kind : Kind} (wrap : UInt16 → UInt16 → Constant)
    (hk : ∀ constant : Constant, constant.kind = kind →
      ∃ first second, constant = wrap first second)
    (hw : ∀ first second, (wrap first second).kind = kind ∧ (wrap first second).fields =
      Bytes.ofNat 2 first.toNat ++ Bytes.ofNat 2 second.toNat) :
    Reads (do return wrap (← u2) (← u2)) (fieldGrammar kind) := by
  refine (Reads.bind .u2 fun first => .map .u2 (wrap first)).congr fun _ constant used => ?_
  constructor
  · intro h
    rcases h with ⟨first, _, _, rfl, rfl, second, rfl, rfl⟩
    exact ⟨(hw first second).1, (hw first second).2.symm⟩
  · intro h
    rcases h with ⟨hkind, rfl⟩
    obtain ⟨first, second, rfl⟩ := hk constant hkind
    exact ⟨first, _, _, (hw first second).2, rfl, second, rfl, rfl⟩

theorem methodHandle_reads (index : Nat) :
    Reads (do
        let kind ← u1
        match HandleKind.ofCode? kind with
        | some access => return Constant.methodHandle access (← u2)
        | none => throw (.format (.handleKind kind index)))
      (fieldGrammar .methodHandle) := by
  have hrest (code : UInt8) : Reads (match HandleKind.ofCode? code with
        | some access => do return Constant.methodHandle access (← u2)
        | none => throw (.format (.handleKind code index)))
      fun _ constant used => ∃ access target, constant = .methodHandle access target ∧
        code = access.code ∧ used = Bytes.ofNat 2 target.toNat := by
    cases hc : HandleKind.ofCode? code with
    | none =>
        refine (Reads.throw _).congr fun _ constant used => ⟨False.elim, ?_⟩
        intro h
        rcases h with ⟨access, target, -, hcode, -⟩
        rw [HandleKind.ofCode?_eq_some_iff.mpr hcode] at hc
        cases hc
    | some access =>
        have hcode := HandleKind.ofCode?_eq_some_iff.mp hc
        refine (Reads.map .u2 (Constant.methodHandle access)).congr fun _ constant used => ?_
        constructor
        · intro h
          rcases h with ⟨target, rfl, rfl⟩
          exact ⟨access, target, rfl, hcode, rfl⟩
        · intro h
          rcases h with ⟨other, target, rfl, hother, rfl⟩
          rw [HandleKind.ofCode?_eq_some_iff.mpr hother] at hc
          cases hc
          exact ⟨target, rfl, rfl⟩
  refine (Reads.bind .u1 hrest).congr fun _ constant used => ?_
  constructor
  · intro h
    rcases h with ⟨code, _, _, rfl, rfl, access, target, rfl, rfl, rfl⟩
    exact ⟨rfl, rfl⟩
  · intro h
    rcases h with ⟨hk, rfl⟩
    cases constant <;> cases hk
    exact ⟨_, [_], _, rfl, rfl, _, _, rfl, rfl, rfl⟩

def bodyGrammar (tag : UInt8) : Grammar Constant := fun _ constant used =>
  ∃ entry : Entry, entry.constant = constant ∧ constant.kind.tag = tag ∧ used = entry.body

theorem Kind.tag_inj {first second : Kind} (h : first.tag = second.tag) : first = second := by
  revert h
  cases first <;> cases second <;> decide

theorem plain_reads (kind : Kind) {decoder : Decoder Constant} {tag : UInt8} (hk : kind ≠ .utf8)
    (ht : tag.toNat = kind.tag.toNat) (h : Reads decoder (fieldGrammar kind)) :
    Reads decoder (bodyGrammar tag) := by
  obtain rfl := UInt8.toNat_inj.mp ht
  refine h.congr fun _ constant used => ?_
  constructor
  · intro h
    rcases h with ⟨rfl, rfl⟩
    exact ⟨.plain constant hk, rfl, rfl, rfl⟩
  · intro h
    rcases h with ⟨entry, rfl, htag, rfl⟩
    have hkind := Kind.tag_inj htag
    cases entry with
    | utf8 raw short => exact absurd hkind.symm hk
    | plain constant other => exact ⟨hkind, rfl⟩

theorem utf8_reads {tag : UInt8} (ht : tag.toNat = Kind.utf8.tag.toNat) :
    Reads (do return Constant.utf8 (← text (← u2).toNat)) (bodyGrammar tag) := by
  obtain rfl := UInt8.toNat_inj.mp ht
  refine (Reads.bind .u2 fun length => .map (.map (.take length.toNat) Text.decodeModifiedUtf8)
    Constant.utf8).congr fun _ constant used => ?_
  constructor
  · intro h
    rcases h with ⟨length, _, raw, rfl, rfl, _, rfl, _, rfl, hl, rfl⟩
    exact ⟨.utf8 raw (hl ▸ length.toNat_lt), rfl, rfl, by rw [Entry.body, hl]⟩
  · intro h
    rcases h with ⟨entry, rfl, htag, rfl⟩
    cases entry with
    | utf8 raw short =>
        have hl : (UInt16.ofNat raw.length).toNat = raw.length := UInt16.toNat_ofNat_of_lt' short
        exact ⟨.ofNat raw.length, _, raw, rfl, by rw [hl], _, rfl, raw, rfl, hl.symm, rfl⟩
    | plain constant other => exact absurd (Kind.tag_inj htag) other

theorem decodeFields_reads (index : Nat) (tag : UInt8) :
    Reads (decodeFields index tag) (bodyGrammar tag) := by
  unfold decodeFields
  split
  · exact utf8_reads ‹_›
  · exact plain_reads .integer nofun ‹_› (one_reads _ .i4
      (fun | .integer value, rfl => ⟨value, rfl⟩) fun _ => ⟨rfl, rfl⟩)
  · exact plain_reads .float nofun ‹_› (one_reads _ .u4
      (fun | .float value, rfl => ⟨value, rfl⟩) fun _ => ⟨rfl, rfl⟩)
  · exact plain_reads .long nofun ‹_› (one_reads _ .i8
      (fun | .long value, rfl => ⟨value, rfl⟩) fun _ => ⟨rfl, rfl⟩)
  · exact plain_reads .double nofun ‹_› (one_reads _ .u8
      (fun | .double value, rfl => ⟨value, rfl⟩) fun _ => ⟨rfl, rfl⟩)
  · exact plain_reads .classInfo nofun ‹_› (one_reads _ .u2
      (fun | .classInfo value, rfl => ⟨value, rfl⟩) fun _ => ⟨rfl, rfl⟩)
  · exact plain_reads .string nofun ‹_› (one_reads _ .u2
      (fun | .string value, rfl => ⟨value, rfl⟩) fun _ => ⟨rfl, rfl⟩)
  · exact plain_reads .fieldRef nofun ‹_› (two_reads _
      (fun | .fieldRef first second, rfl => ⟨first, second, rfl⟩) fun _ _ => ⟨rfl, rfl⟩)
  · exact plain_reads .methodRef nofun ‹_› (two_reads _
      (fun | .methodRef first second, rfl => ⟨first, second, rfl⟩) fun _ _ => ⟨rfl, rfl⟩)
  · exact plain_reads .interfaceMethodRef nofun ‹_› (two_reads _
      (fun | .interfaceMethodRef first second, rfl => ⟨first, second, rfl⟩) fun _ _ => ⟨rfl, rfl⟩)
  · exact plain_reads .nameAndType nofun ‹_› (two_reads _
      (fun | .nameAndType first second, rfl => ⟨first, second, rfl⟩) fun _ _ => ⟨rfl, rfl⟩)
  · exact plain_reads .methodHandle nofun ‹_› (methodHandle_reads index)
  · exact plain_reads .methodType nofun ‹_› (one_reads _ .u2
      (fun | .methodType value, rfl => ⟨value, rfl⟩) fun _ => ⟨rfl, rfl⟩)
  · exact plain_reads .dynamic nofun ‹_› (two_reads _
      (fun | .dynamic first second, rfl => ⟨first, second, rfl⟩) fun _ _ => ⟨rfl, rfl⟩)
  · exact plain_reads .invokeDynamic nofun ‹_› (two_reads _
      (fun | .invokeDynamic first second, rfl => ⟨first, second, rfl⟩) fun _ _ => ⟨rfl, rfl⟩)
  · exact plain_reads .moduleInfo nofun ‹_› (one_reads _ .u2
      (fun | .moduleInfo value, rfl => ⟨value, rfl⟩) fun _ => ⟨rfl, rfl⟩)
  · exact plain_reads .packageInfo nofun ‹_› (one_reads _ .u2
      (fun | .packageInfo value, rfl => ⟨value, rfl⟩) fun _ => ⟨rfl, rfl⟩)
  · refine (Reads.throw _).congr fun _ constant used => ⟨False.elim, ?_⟩
    intro h
    rcases h with ⟨entry, -, rfl, -⟩
    cases hk : constant.kind <;> simp_all [Kind.tag]

theorem decode_reads (index : Nat) :
    Reads (decode index) fun _ constant used =>
      ∃ entry : Entry, entry.constant = constant ∧ used = entry.encode := by
  refine (Reads.bind .u1 fun tag => decodeFields_reads index tag).congr fun _ constant used => ?_
  constructor
  · intro h
    rcases h with ⟨tag, _, _, rfl, rfl, entry, rfl, rfl, rfl⟩
    exact ⟨entry, rfl, rfl⟩
  · intro h
    rcases h with ⟨entry, rfl, rfl⟩
    exact ⟨_, [_], _, rfl, rfl, entry, rfl, rfl, rfl⟩

end Constant

namespace Pool

def slotGrammar (slots : Array (Option Constant)) (count : Nat) :
    Grammar (Array (Option Constant)) := fun _ filled used =>
  ∃ entries, slotCount entries = count ∧ filled = slots ++ (entries.flatMap Entry.slots).toArray ∧
    used = entries.flatMap Entry.encode

/-- The first entry and those that fill the remaining slots. -/
theorem slotGrammar_iff {slots : Array (Option Constant)} {count pos : Nat} (hc : 0 < count)
    {filled : Array (Option Constant)} {used : Bytes} :
    slotGrammar slots count pos filled used ↔
      ∃ (entry : Entry) (more : Bytes), used = entry.encode ++ more ∧ entry.width ≤ count ∧
        slotGrammar (slots ++ entry.slots.toArray) (count - entry.width) pos filled more := by
  constructor
  · intro h
    rcases h with ⟨entries, hcount, rfl, rfl⟩
    cases entries with
    | nil => exact absurd hcount (Nat.ne_of_lt hc)
    | cons entry entries =>
        rw [slotCount_cons] at hcount
        refine ⟨entry, _, rfl, by omega, entries, by omega, ?_, rfl⟩
        simp
  · intro h
    rcases h with ⟨entry, _, rfl, hw, entries, hcount, rfl, rfl⟩
    refine ⟨entry :: entries, ?_, by simp, rfl⟩
    rw [slotCount_cons]
    omega

theorem slotGrammar_zero {slots filled : Array (Option Constant)} {pos : Nat} {used : Bytes} :
    slotGrammar slots 0 pos filled used ↔ filled = slots ∧ used = [] := by
  simp [slotGrammar, slotCount_eq_zero_iff]

theorem append_slots (slots : Array (Option Constant)) (entry : Entry) :
    slots ++ entry.slots.toArray =
      if entry.constant.isWide then (slots.push entry.constant).push none
      else slots.push entry.constant := by
  apply Array.toList_inj.mp
  rw [entry.isWide_constant]
  cases hw : entry.isWide <;> simp [Entry.slots, hw]

theorem Entry.width_eq (entry : Entry) :
    entry.width = if entry.constant.isWide then 2 else 1 := by
  rw [entry.isWide_constant, width]

theorem decodeSlots_reads (slots : Array (Option Constant)) (count : Nat) :
    Reads (decodeSlots slots count) (slotGrammar slots count) := by
  induction slots, count using decodeSlots.induct with
  | case1 slots => exact (Reads.pure slots).congr fun _ _ _ => slotGrammar_zero.symm
  | case2 slots =>
      refine (Reads.bind (Constant.decode_reads _) fun constant => .refuse _
        (.pure (slots.push constant))).congr fun pos filled used => ?_
      rw [slotGrammar_iff Nat.one_pos]
      constructor
      · intro h
        rcases h with ⟨_, _, more, rfl, ⟨entry, rfl, rfl⟩, hnarrow, rfl, rfl⟩
        have hw : entry.width = 1 := entry.width_eq.trans (if_neg hnarrow)
        refine ⟨entry, [], rfl, Nat.le_of_eq hw, ?_⟩
        rw [hw, append_slots, if_neg hnarrow]
        exact slotGrammar_zero.mpr ⟨rfl, rfl⟩
      · intro h
        rcases h with ⟨entry, more, rfl, hw, hrest⟩
        have hnarrow : ¬entry.constant.isWide = true := by
          intro hwide
          have hw2 : entry.width = 2 := entry.width_eq.trans (if_pos hwide)
          omega
        have hw1 : entry.width = 1 := entry.width_eq.trans (if_neg hnarrow)
        rw [hw1, append_slots, if_neg hnarrow] at hrest
        exact ⟨_, _, more, rfl, ⟨entry, rfl, rfl⟩, hnarrow, slotGrammar_zero.mp hrest⟩
  | case3 slots count ihWide ihNarrow =>
      refine (Reads.bind (Constant.decode_reads _) fun constant =>
        .ite (ihWide constant) (ihNarrow constant)).congr fun pos filled used => ?_
      rw [slotGrammar_iff (Nat.succ_pos _)]
      constructor
      · intro h
        rcases h with ⟨_, _, more, rfl, ⟨entry, rfl, rfl⟩, hrest⟩
        refine ⟨entry, more, rfl, ?_⟩
        rw [append_slots]
        rcases hrest with ⟨hwide, hrest⟩ | ⟨hnarrow, hrest⟩
        · have hw : entry.width = 2 := entry.width_eq.trans (if_pos hwide)
          rw [hw, if_pos hwide]
          exact ⟨by omega, hrest⟩
        · have hw : entry.width = 1 := entry.width_eq.trans (if_neg hnarrow)
          rw [hw, if_neg hnarrow]
          exact ⟨by omega, hrest⟩
      · intro h
        rcases h with ⟨entry, more, rfl, -, hrest⟩
        refine ⟨_, _, more, rfl, ⟨entry, rfl, rfl⟩, ?_⟩
        rw [append_slots] at hrest
        by_cases hwide : entry.constant.isWide = true
        · have hw : entry.width = 2 := entry.width_eq.trans (if_pos hwide)
          rw [hw, if_pos hwide] at hrest
          exact .inl ⟨hwide, hrest⟩
        · have hw : entry.width = 1 := entry.width_eq.trans (if_neg hwide)
          rw [hw, if_neg hwide] at hrest
          exact .inr ⟨hwide, hrest⟩

/-- A pool is what its entries lay out, and is read from their writing alone. -/
theorem decode_reads :
    Reads decode fun _ pool used => ∃ entries, slotCount entries ≤ 65534 ∧
      pool = ⟨(layOut entries).toArray, []⟩ ∧ used = encodeAll entries := by
  refine (Reads.bind .u2 fun count => .refuse _ (.map (decodeSlots_reads _ _)
    fun slots => Pool.mk slots [])).congr fun _ pool used => ?_
  constructor
  · intro h
    rcases h with ⟨count, _, _, rfl, rfl, hne, _, rfl, entries, hcount, rfl, rfl⟩
    have hpos : count.toNat ≠ 0 := fun h => hne (UInt16.toNat_inj.mp h)
    have hlt := count.toNat_lt
    have hsum : count.toNat = 1 + slotCount entries := by omega
    exact ⟨entries, by omega, by simp [layOut], by rw [encodeAll, hsum]⟩
  · intro h
    rcases h with ⟨entries, hcount, rfl, rfl⟩
    have hsum : (UInt16.ofNat (1 + slotCount entries)).toNat = 1 + slotCount entries :=
      UInt16.toNat_ofNat_of_lt' (show _ < 65536 by omega)
    refine ⟨.ofNat (1 + slotCount entries), _, _, rfl, by rw [hsum], ?_, _, ?_, entries, ?_, rfl,
      rfl⟩
    · intro h
      rw [h, UInt16.toNat_zero] at hsum
      omega
    · simp [layOut]
    · rw [hsum]
      omega

end Pool

end ClassListing
