import ClassListing.Proofs.Cursor.Grammar
import ClassListing.Proofs.Traversal

/-!
# Decoding items one at a time

Where the bytes of an item alone decide what a decoder makes of it, a run of items is decoded as if
each stood apart: all their values in order, or the error of the first that has none.
-/

namespace ClassListing

namespace Decoder

def Gives (property : α → Prop) (decoder : Decoder α) : Prop :=
  ∀ cursor stopped value, decoder cursor = .ok value stopped → property value

namespace Gives

variable {property : α → Prop} {decoder : Decoder α}

protected theorem pure {value : α} (h : property value) : Gives property (pure value) := by
  intro cursor stopped result hr
  cases hr
  exact h

protected theorem throw (error : Error) : Gives property (throw error) := by
  intro cursor stopped result hr
  cases hr

/-- The second part may rely on what the first part gives. -/
theorem andThen {first : Decoder β} {next : β → Decoder α} {given : β → Prop}
    (hf : Gives given first) (hn : ∀ value, given value → Gives property (next value)) :
    Gives property (first >>= next) := by
  intro cursor stopped result h
  cases hr : first cursor with
  | ok value middle =>
      rw [bind_of_ok hr] at h
      exact hn value (hf cursor middle value hr) middle stopped result h
  | error error middle =>
      rw [bind_of_error hr] at h
      cases h

protected theorem bind {first : Decoder β} {next : β → Decoder α}
    (hn : ∀ value, Gives property (next value)) : Gives property (first >>= next) := by
  have hfirst : Gives (fun _ => True) first := fun _ _ _ _ => trivial
  exact hfirst.andThen fun value _ => hn value

theorem ite {condition : Prop} [Decidable condition] {second : Decoder α}
    (hf : Gives property decoder) (hs : Gives property second) :
    Gives property (if condition then decoder else second) := by
  by_cases h : condition
  · simpa only [if_pos h] using hf
  · simpa only [if_neg h] using hs

/-- A value that is only put into another one. -/
protected theorem map {wrap : α → β} {wrapped : β → Prop} (h : Gives property decoder)
    (hw : ∀ value, property value → wrapped (wrap value)) :
    Gives wrapped (do return wrap (← decoder)) :=
  h.andThen fun value hvalue => .pure (hw value hvalue)

protected theorem lookup {found : Except Error α} (h : Yields property found) :
    Gives property (lookup found) := by
  cases found with
  | ok value => exact .pure (h value rfl)
  | error error => exact .throw error

theorem reference {find : UInt16 → Except Error α} (h : ∀ index, Yields property (find index)) :
    Gives property (reference find) :=
  .bind fun index => .lookup (h index)

theorem many (h : Gives property decoder) (count : Nat) :
    Gives (fun values => ∀ value ∈ values, property value) (many count decoder) := by
  induction count with
  | zero => exact .pure nofun
  | succ count ih =>
      rw [many_succ]
      exact h.andThen fun value hvalue =>
        ih.map fun values hvalues => List.forall_mem_cons.mpr ⟨hvalue, hvalues⟩

theorem countedU1 (h : Gives property decoder) :
    Gives (fun values => ∀ value ∈ values, property value) (countedU1 decoder) :=
  .bind fun count => h.many count.toNat

theorem countedU2 (h : Gives property decoder) :
    Gives (fun values => ∀ value ∈ values, property value) (countedU2 decoder) :=
  .bind fun count => h.many count.toNat

end Gives

/-! ## Items that are decoded apart -/

/-- The bytes of an item alone decide what the decoder makes of it, and it stops behind them. -/
def Isolates (decoder : Decoder β) (write : α → Bytes) (meaning : α → Except Error β) : Prop :=
  ∀ (item : α) (pos : Nat) (rest : Bytes),
    decoder ⟨pos, write item ++ rest⟩ = lookup (meaning item) ⟨pos + (write item).length, rest⟩

namespace Isolates

variable {decoder : Decoder β} {write : α → Bytes} {meaning : α → Except Error β}
  (h : Isolates decoder write meaning)
include h

theorem many_ok {items : List α} {values : List β} (hv : items.mapM meaning = .ok values)
    (pos : Nat) (rest : Bytes) :
    many items.length decoder ⟨pos, items.flatMap write ++ rest⟩ =
      .ok values ⟨pos + (items.flatMap write).length, rest⟩ := by
  induction items generalizing pos values with
  | nil =>
      cases hv
      rfl
  | cons item items ih =>
      rw [List.mapM_cons, bind_eq_ok_iff] at hv
      obtain ⟨value, hvalue, hv⟩ := hv
      obtain ⟨more, hmore, hpure⟩ := bind_eq_ok_iff.mp hv
      cases hpure
      have hfirst := h item pos (items.flatMap write ++ rest)
      rw [hvalue] at hfirst
      rw [List.length_cons, many_succ, List.flatMap_cons, List.append_assoc, bind_of_ok hfirst,
        bind_of_ok (ih hmore _), List.length_append, Nat.add_assoc]
      rfl

/-- The first item that fails ends the run, whatever comes after it. -/
theorem many_error {items : List α} {error : Error} (he : items.mapM meaning = .error error)
    (pos : Nat) (rest : Bytes) :
    ∃ stopped,
      many items.length decoder ⟨pos, items.flatMap write ++ rest⟩ = .error error stopped := by
  induction items generalizing pos with
  | nil => cases he
  | cons item items ih =>
      have hfirst := h item pos (items.flatMap write ++ rest)
      rw [List.length_cons, many_succ, List.flatMap_cons, List.append_assoc]
      rw [List.mapM_cons, bind_eq_error_iff] at he
      rcases he with hitem | ⟨value, hvalue, he⟩
      · rw [hitem] at hfirst
        exact ⟨_, bind_of_error hfirst⟩
      · rw [hvalue] at hfirst
        rw [bind_of_ok hfirst]
        rcases bind_eq_error_iff.mp he with hmore | ⟨_, _, hpure⟩
        · obtain ⟨stopped, hstopped⟩ := ih hmore _
          exact ⟨stopped, bind_of_error hstopped⟩
        · cases hpure

end Isolates

/-- A count that fits two bytes is read back. -/
theorem countedU2_append {decoder : Decoder β} {count : Nat} (hc : count < 2 ^ 16) (pos : Nat)
    (bytes : Bytes) :
    countedU2 decoder ⟨pos, Bytes.ofNat 2 count ++ bytes⟩ =
      many count decoder ⟨pos + 2, bytes⟩ := by
  have hsize : (UInt16.ofNat count).toNat = count := UInt16.toNat_ofNat_of_lt' hc
  have hcount := u2_append pos (.ofNat count) bytes
  rw [hsize] at hcount
  rw [countedU2, bind_of_ok hcount, hsize]

end Decoder

end ClassListing
