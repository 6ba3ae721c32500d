import ClassListing.Proofs.Cursor.Extension

/-!
# Which errors a decoder can give

`Blames cause` says that every error satisfies `cause`. Reads blame missing bytes and nothing
else; lookups blame whatever the table that they search blames; a sequence blames what its parts
blame.
-/

namespace ClassListing

namespace Error

def OfReference : Error → Prop
  | .reference .. => True
  | _ => False

def OfCode : Error → Prop
  | .truncated | .code .. => True
  | _ => False

def OfInstruction (start : Nat) : Error → Prop
  | .truncated => True
  | .code offset _ => offset = start
  | _ => False

def OfContent : Error → Prop
  | .notAClassFile _ | .trailing _ | .unreadable => False
  | _ => True

theorem OfReference.ofContent (error : Error) (h : OfReference error) : OfContent error := by
  cases error <;> trivial

theorem OfCode.ofContent (error : Error) (h : OfCode error) : OfContent error := by
  cases error <;> trivial

theorem OfInstruction.ofCode {start : Nat} (error : Error) (h : OfInstruction start error) :
    OfCode error := by
  cases error <;> trivial

end Error

def Blames (cause : Error → Prop) (found : Except Error α) : Prop :=
  ∀ error, found = .error error → cause error

namespace Blames

variable {cause weaker : Error → Prop}

theorem mono {found : Except Error α} (h : Blames cause found)
    (hw : ∀ error, cause error → weaker error) : Blames weaker found := by
  intro error he
  exact hw error (h error he)

theorem ok (value : α) : Blames cause (.ok value) := by
  intro error h
  cases h

theorem error {error : Error} (h : cause error) : Blames cause (.error error : Except Error α) := by
  intro found he
  cases he
  exact h

protected theorem bind {first : Except Error α} {next : α → Except Error β}
    (hf : Blames cause first) (hn : ∀ value, Blames cause (next value)) :
    Blames cause (first >>= next) := by
  intro error h
  cases hr : first with
  | ok value =>
      rw [hr] at h
      exact hn value error h
  | error found =>
      rw [hr] at h
      cases h
      exact hf error hr

theorem forM {check : α → Except Error Unit} (h : ∀ item, Blames cause (check item))
    (items : List α) : Blames cause (items.forM check) := by
  induction items with
  | nil => exact .ok ()
  | cons item items ih => exact .bind (h item) fun _ => ih

end Blames

namespace Decoder

def Blames (cause : Error → Prop) (decoder : Decoder α) : Prop :=
  ∀ cursor stopped error, decoder cursor = .error error stopped → cause error

namespace Blames

variable {cause weaker : Error → Prop}

theorem mono {decoder : Decoder α} (h : Blames cause decoder)
    (hw : ∀ error, cause error → weaker error) : Blames weaker decoder := by
  intro cursor stopped error he
  exact hw error (h cursor stopped error he)

protected theorem pure (value : α) : Blames cause (pure value : Decoder α) := by
  intro cursor stopped error h
  cases h

protected theorem throw {error : Error} (h : cause error) :
    Blames cause (throw error : Decoder α) := by
  intro cursor stopped found he
  cases he
  exact h

protected theorem lookup {found : Except Error α} (h : ClassListing.Blames cause found) :
    Blames cause (lookup found) := by
  cases found with
  | ok value => exact .pure value
  | error error => exact .throw (h error rfl)

protected theorem bind {first : Decoder α} {next : α → Decoder β} (hf : Blames cause first)
    (hn : ∀ value, Blames cause (next value)) : Blames cause (first >>= next) := by
  intro cursor stopped error h
  cases hr : first cursor with
  | ok value middle =>
      rw [bind_of_ok hr] at h
      exact hn value middle stopped error h
  | error found middle =>
      rw [bind_of_error hr] at h
      cases h
      exact hf cursor stopped error hr

theorem ite {condition : Prop} [Decidable condition] {first second : Decoder α}
    (hf : Blames cause first) (hs : Blames cause second) :
    Blames cause (if condition then first else second) := by
  by_cases h : condition
  · simpa only [if_pos h] using hf
  · simpa only [if_neg h] using hs

/-- A value that is only put into another one. -/
protected theorem map {decoder : Decoder α} (h : Blames cause decoder) (wrap : α → β) :
    Blames cause (do return wrap (← decoder)) :=
  .bind h fun _ => .pure _

theorem pos : Blames cause pos := by
  intro cursor stopped error h
  cases h

theorem remaining : Blames cause remaining := by
  intro cursor stopped error h
  cases h

theorem hasMore : Blames cause hasMore := by
  intro cursor stopped error h
  cases h

/-! ## Reads -/

section Reads

variable (short : cause .truncated)
include short

theorem take (count : Nat) : Blames cause (take count) := by
  intro cursor stopped error h
  simp only [Decoder.take] at h
  split at h <;> try contradiction
  cases h
  exact short

theorem ensure (count : Nat) : Blames cause (ensure count) := by
  intro cursor stopped error h
  simp only [Decoder.ensure] at h
  split at h <;> try contradiction
  cases h
  exact short

theorem peek : Blames cause peek := by
  intro cursor stopped error h
  simp only [Decoder.peek] at h
  split at h <;> try contradiction
  cases h
  exact short

theorem skip (count : Nat) : Blames cause (skip count) :=
  .map (.take short count) _

theorem align (unit : Nat) : Blames cause (align unit) :=
  .bind .pos fun _ => .skip short _

theorem number (width : Nat) : Blames cause (number width) := .map (.take short width) _

theorem u1 : Blames cause u1 := .map (.number short 1) _

theorem u2 : Blames cause u2 := .map (.number short 2) _

theorem u4 : Blames cause u4 := .map (.number short 4) _

theorem u8 : Blames cause u8 := .map (.number short 8) _

theorem i1 : Blames cause i1 := .map (.u1 short) _

theorem i2 : Blames cause i2 := .map (.u2 short) _

theorem i4 : Blames cause i4 := .map (.u4 short) _

theorem i8 : Blames cause i8 := .map (.u8 short) _

theorem text (count : Nat) : Blames cause (text count) := .map (.take short count) _

theorem reference {find : UInt16 → Except Error α}
    (h : ∀ index, ClassListing.Blames cause (find index)) : Blames cause (reference find) :=
  .bind (.u2 short) fun index => .lookup (h index)

end Reads

theorem many {decoder : Decoder α} (h : Blames cause decoder) (count : Nat) :
    Blames cause (many count decoder) := by
  induction count with
  | zero => exact .pure []
  | succ count ih =>
      rw [many_succ]
      exact .bind h fun value => .map ih _

theorem countedU1 {decoder : Decoder α} (short : cause .truncated) (h : Blames cause decoder) :
    Blames cause (countedU1 decoder) :=
  .bind (.u1 short) fun count => h.many count.toNat

theorem countedU2 {decoder : Decoder α} (short : cause .truncated) (h : Blames cause decoder) :
    Blames cause (countedU2 decoder) :=
  .bind (.u2 short) fun count => h.many count.toNat

end Blames

end Decoder

end ClassListing
