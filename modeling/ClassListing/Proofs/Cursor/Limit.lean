import ClassListing.Proofs.Cursor.Isolation

/-!
# Decoders with a limit

A decoder admits a writing up to a limit when it reads the value back as long as the value keeps
to the limit, and stops with the error for the limit, and no other, as soon as the value does not.
What follows the writing plays no part.
-/

namespace ClassListing

namespace Bytes

def shortCounted (write : α → Bytes) (items : List α) : Bytes :=
  .ofNat items.length :: items.flatMap write

end Bytes

namespace Decoder

structure Admits (limit : Error) (decoder : Decoder α) (bytes : Bytes) (value : α)
    (allowed : Prop) : Prop where
  value : allowed → ∀ pos rest,
    decoder ⟨pos, bytes ++ rest⟩ = .ok value ⟨pos + bytes.length, rest⟩
  fault : ¬allowed → ∀ pos rest, ∃ stopped, decoder ⟨pos, bytes ++ rest⟩ = .error limit stopped

namespace Admits

variable {limit : Error} {decoder : Decoder α} {bytes : Bytes} {value : α} {allowed : Prop}

theorem congr {other : Prop} (h : Admits limit decoder bytes value allowed)
    (hiff : allowed ↔ other) : Admits limit decoder bytes value other := by
  rwa [← propext hiff]

protected theorem throw (hno : ¬allowed) :
    Admits limit (throw limit) bytes value allowed := by
  constructor
  · intro hyes
    exact (hno hyes).elim
  · intro _ pos rest
    exact ⟨⟨pos, bytes ++ rest⟩, rfl⟩

/-- What belongs to the grammar of a decoder has no limit. -/
theorem of_reads {grammar : Grammar α} (h : Reads decoder grammar)
    (hg : ∀ pos, grammar pos value bytes) : Admits limit decoder bytes value True := by
  constructor
  · intro _ pos rest
    exact h.complete (hg pos) rest
  · intro hno
    exact (hno trivial).elim

protected theorem pure (value : α) : Admits limit (pure value) [] value True :=
  of_reads (.pure value) fun _ => ⟨rfl, rfl⟩

theorem u1 (byte : UInt8) : Admits limit u1 [byte] byte True := of_reads .u1 fun _ => rfl

theorem u2 (word : UInt16) : Admits limit u2 (Bytes.ofNat 2 word.toNat) word True :=
  of_reads .u2 fun _ => rfl

theorem reference {find : UInt16 → Except Error α} {index : UInt16}
    (h : find index = .ok value) :
    Admits limit (reference find) (Bytes.ofNat 2 index.toNat) value True :=
  of_reads (.reference find) fun _ => ⟨index, rfl, h⟩

protected theorem bind {next : α → Decoder β} {more : Bytes} {result : β} {alsoAllowed : Prop}
    (hf : Admits limit decoder bytes value allowed)
    (hn : Admits limit (next value) more result alsoAllowed) :
    Admits limit (decoder >>= next) (bytes ++ more) result (allowed ∧ alsoAllowed) := by
  constructor
  · intro hyes pos rest
    have hfirst := hf.value hyes.1 pos (more ++ rest)
    have hnext := hn.value hyes.2 (pos + bytes.length) rest
    rw [List.append_assoc, bind_of_ok hfirst, hnext, List.length_append, Nat.add_assoc]
  · intro hno pos rest
    rw [List.append_assoc]
    by_cases hyes : allowed
    · obtain ⟨stopped, hstopped⟩ :=
        hn.fault (fun h => hno ⟨hyes, h⟩) (pos + bytes.length) rest
      exact ⟨stopped, (bind_of_ok (hf.value hyes pos (more ++ rest))).trans hstopped⟩
    · obtain ⟨stopped, hstopped⟩ := hf.fault hyes pos (more ++ rest)
      exact ⟨stopped, bind_of_error hstopped⟩

/-- A read that always succeeds, and then something with a limit. -/
theorem after {next : α → Decoder β} {more : Bytes} {result : β}
    (hf : Admits limit decoder bytes value True)
    (hn : Admits limit (next value) more result allowed) :
    Admits limit (decoder >>= next) (bytes ++ more) result allowed :=
  (hf.bind hn).congr (by simp)

/-- A value that is only put into another one. -/
protected theorem map (h : Admits limit decoder bytes value allowed) (wrap : α → β) :
    Admits limit (do return wrap (← decoder)) bytes (wrap value) allowed := by
  have hbind : Admits limit (do return wrap (← decoder)) (bytes ++ []) (wrap value)
      (allowed ∧ True) := h.bind (.pure (wrap value))
  rw [List.append_nil] at hbind
  exact hbind.congr (by simp)

/-! ## Runs of items -/

section Items

variable {write : ρ → Bytes} {kept : α → Prop} {items : List ρ} {values : List α}
  (h : List.Forall₂ (fun item value => Admits limit decoder (write item) value (kept value))
    items values)
include h

theorem many :
    Admits limit (many items.length decoder) (items.flatMap write) values
      (∀ value ∈ values, kept value) := by
  induction h with
  | nil => exact (Admits.pure []).congr (by simp)
  | @cons item value items values hfirst _ ih =>
      rw [List.length_cons, many_succ, List.flatMap_cons]
      exact (hfirst.bind (ih.map (value :: ·))).congr List.forall_mem_cons.symm

theorem countedU1 (few : items.length < 256) :
    Admits limit (countedU1 decoder) (Bytes.shortCounted write items) values
      (∀ value ∈ values, kept value) := by
  have hcount : (UInt8.ofNat items.length).toNat = items.length := UInt8.toNat_ofNat_of_lt' few
  have hitems := many h
  rw [← hcount] at hitems
  exact after (u1 (.ofNat items.length)) hitems

theorem countedU2 (few : items.length < 2 ^ 16) :
    Admits limit (countedU2 decoder) (Bytes.counted write items) values
      (∀ value ∈ values, kept value) := by
  have hcount : (UInt16.ofNat items.length).toNat = items.length :=
    UInt16.toNat_ofNat_of_lt' few
  have hfirst : Admits limit Decoder.u2 (Bytes.ofNat 2 (UInt16.ofNat items.length).toNat)
      (.ofNat items.length) True := u2 (.ofNat items.length)
  have hitems := many h
  rw [hcount] at hfirst
  rw [← hcount] at hitems
  exact after hfirst hitems

end Items

end Admits

end Decoder

end ClassListing
