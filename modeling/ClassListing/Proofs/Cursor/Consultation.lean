import ClassListing.Proofs.Cursor.Grammar
import ClassListing.Proofs.Verdict

/-!
# Decoders that look things up on their way

A writing may hold references that are looked up as soon as they are read. If all of them fit, the
decoder gives the value and stops behind the writing. Otherwise the first one that does not fit
ends the run with its error, whatever stands behind it.
-/

namespace ClassListing

section First

variable {fits : π → Prop} {place : π}

/-- The first of the places that does not fit. -/
def FirstUnfit (fits : π → Prop) (places : List π) (place : π) : Prop :=
  ∃ before after, places = before ++ place :: after ∧
    (∀ earlier ∈ before, fits earlier) ∧ ¬fits place

theorem not_firstUnfit_nil : ¬FirstUnfit fits [] place := by
  intro h
  obtain ⟨before, after, hsplit, -⟩ := h
  cases before <;> cases hsplit

theorem firstUnfit_cons_iff {head : π} {tail : List π} :
    FirstUnfit fits (head :: tail) place ↔
      ¬fits head ∧ place = head ∨ fits head ∧ FirstUnfit fits tail place := by
  constructor
  · intro h
    rcases h with ⟨before, after, hsplit, hbefore, hplace⟩
    cases before with
    | nil =>
        obtain ⟨rfl, -⟩ := List.cons.inj hsplit
        exact .inl ⟨hplace, rfl⟩
    | cons first before =>
        obtain ⟨rfl, hrest⟩ := List.cons.inj hsplit
        obtain ⟨hfirst, hbefore⟩ := List.forall_mem_cons.mp hbefore
        exact .inr ⟨hfirst, before, after, hrest, hbefore, hplace⟩
  · intro h
    rcases h with ⟨hhead, rfl⟩ | ⟨hhead, before, after, rfl, hbefore, hplace⟩
    · exact ⟨[], tail, rfl, nofun, hhead⟩
    · exact ⟨head :: before, after, rfl, List.forall_mem_cons.mpr ⟨hhead, hbefore⟩, hplace⟩

theorem firstUnfit_append_iff {front back : List π} :
    FirstUnfit fits (front ++ back) place ↔
      FirstUnfit fits front place ∨ (∀ earlier ∈ front, fits earlier) ∧
        FirstUnfit fits back place := by
  induction front with
  | nil => simp [not_firstUnfit_nil]
  | cons head front ih =>
      rw [List.cons_append, firstUnfit_cons_iff, firstUnfit_cons_iff, ih, List.forall_mem_cons]
      tauto

theorem exists_firstUnfit {places : List π} (hmem : place ∈ places) (h : ¬fits place) :
    ∃ first, FirstUnfit fits places first := by
  induction places with
  | nil => cases hmem
  | cons head tail ih =>
      by_cases hhead : fits head
      · have htail : place ∈ tail := by
          rcases List.mem_cons.mp hmem with rfl | htail
          · exact (h hhead).elim
          · exact htail
        obtain ⟨first, hfirst⟩ := ih htail
        exact ⟨first, firstUnfit_cons_iff.mpr (.inr ⟨hhead, hfirst⟩)⟩
      · exact ⟨head, firstUnfit_cons_iff.mpr (.inl ⟨hhead, rfl⟩)⟩

end First

namespace Decoder

/-- The decoder reads `bytes` and looks up the places in their order. -/
structure Consults (fits : π → Prop) (cause : π → Error → Prop) (decoder : Decoder α)
    (bytes : Bytes) (places : List π) (means : α → Prop) : Prop where
  value : (∀ place ∈ places, fits place) → ∀ pos rest, ∃ value, means value ∧
    decoder ⟨pos, bytes ++ rest⟩ = .ok value ⟨pos + bytes.length, rest⟩
  fault : ∀ place, FirstUnfit fits places place → ∀ pos rest, ∃ error stopped,
    cause place error ∧ decoder ⟨pos, bytes ++ rest⟩ = .error error stopped

namespace Consults

variable {fits : π → Prop} {cause : π → Error → Prop} {decoder : Decoder α} {bytes more : Bytes}
  {places others : List π} {means : α → Prop} {result : β → Prop}

protected theorem pure {value : α} (h : means value) :
    Consults fits cause (pure value) [] [] means := by
  constructor
  · intro _ pos rest
    exact ⟨value, h, rfl⟩
  · intro place hplace
    exact (not_firstUnfit_nil hplace).elim

/-- A reference fits exactly if its lookup succeeds. -/
theorem reference {find : UInt16 → Except Error α} {index : UInt16} {place : π}
    (h : Hinges (cause place) (find index) (fits place)) (hm : Yields means (find index)) :
    Consults fits cause (reference find) (Bytes.ofNat 2 index.toNat) [place] means := by
  have hread (pos : Nat) (rest : Bytes) :
      Decoder.reference find ⟨pos, Bytes.ofNat 2 index.toNat ++ rest⟩ =
        lookup (find index) ⟨pos + 2, rest⟩ :=
    bind_of_ok (u2_append pos index rest)
  constructor
  · intro hfits pos rest
    obtain ⟨value, hvalue⟩ := h.value (hfits place (List.mem_singleton.mpr rfl))
    refine ⟨value, hm value hvalue, ?_⟩
    rw [hread, hvalue, Bytes.length_ofNat]
    rfl
  · intro other hother pos rest
    rcases firstUnfit_cons_iff.mp hother with ⟨hunfit, rfl⟩ | ⟨-, hnone⟩
    · obtain ⟨error, herror, hcause⟩ := h.fault hunfit
      refine ⟨error, ⟨pos + 2, rest⟩, hcause, ?_⟩
      rw [hread, herror]
      rfl
    · exact (not_firstUnfit_nil hnone).elim

/-- The second part may rely on what the value of the first part means. -/
protected theorem bind {next : α → Decoder β} (hf : Consults fits cause decoder bytes places means)
    (hn : ∀ value, means value → Consults fits cause (next value) more others result) :
    Consults fits cause (decoder >>= next) (bytes ++ more) (places ++ others) result := by
  constructor
  · intro hfits pos rest
    obtain ⟨hplaces, hothers⟩ := List.forall_mem_append.mp hfits
    obtain ⟨value, hmeans, hvalue⟩ := hf.value hplaces pos (more ++ rest)
    obtain ⟨last, hresult, hlast⟩ := (hn value hmeans).value hothers (pos + bytes.length) rest
    refine ⟨last, hresult, ?_⟩
    rw [List.append_assoc, bind_of_ok hvalue, hlast, List.length_append, Nat.add_assoc]
  · intro place hplace pos rest
    rw [List.append_assoc]
    rcases firstUnfit_append_iff.mp hplace with hfirst | ⟨hplaces, hsecond⟩
    · obtain ⟨error, stopped, hcause, herror⟩ := hf.fault place hfirst pos (more ++ rest)
      exact ⟨error, stopped, hcause, bind_of_error herror⟩
    · obtain ⟨value, hmeans, hvalue⟩ := hf.value hplaces pos (more ++ rest)
      obtain ⟨error, stopped, hcause, herror⟩ :=
        (hn value hmeans).fault place hsecond (pos + bytes.length) rest
      exact ⟨error, stopped, hcause, (bind_of_ok hvalue).trans herror⟩

/-- A value that is only put into another one. -/
protected theorem map {wrap : α → β} (h : Consults fits cause decoder bytes places means)
    (hw : ∀ value, means value → result (wrap value)) :
    Consults fits cause (do return wrap (← decoder)) bytes places result := by
  have hbind : Consults fits cause (do return wrap (← decoder)) (bytes ++ []) (places ++ [])
      result := h.bind fun value hmeans => .pure (hw value hmeans)
  rwa [List.append_nil, List.append_nil] at hbind

/-- A word is read as it is and refers to nothing. -/
theorem word (word : UInt16) {next : UInt16 → Decoder β}
    (hn : Consults fits cause (next word) more others result) :
    Consults fits cause (u2 >>= next) (Bytes.ofNat 2 word.toNat ++ more) others result := by
  have hread : Consults fits cause u2 (Bytes.ofNat 2 word.toNat) [] (· = word) := by
    constructor
    · intro _ pos rest
      exact ⟨word, rfl, by rw [u2_append, Bytes.length_ofNat]⟩
    · intro place hplace
      exact (not_firstUnfit_nil hplace).elim
  exact hread.bind fun value hvalue => hvalue ▸ hn

section Items

variable {write : ρ → Bytes} {consulted : ρ → List π} {stands : ρ → α → Prop} {items : List ρ}
  (h : ∀ item ∈ items, Consults fits cause decoder (write item) (consulted item) (stands item))
include h

theorem many : Consults fits cause (many items.length decoder) (items.flatMap write)
    (items.flatMap consulted) (List.Forall₂ stands items) := by
  induction items with
  | nil => exact .pure .nil
  | cons item items ih =>
      obtain ⟨hitem, hitems⟩ := List.forall_mem_cons.mp h
      rw [List.length_cons, many_succ, List.flatMap_cons, List.flatMap_cons]
      exact hitem.bind fun value hvalue => (ih hitems).map fun values hvalues =>
        .cons hvalue hvalues

theorem countedU2 (few : items.length < 2 ^ 16) :
    Consults fits cause (countedU2 decoder) (Bytes.counted write items)
      (items.flatMap consulted) (List.Forall₂ stands items) := by
  have hcount : (UInt16.ofNat items.length).toNat = items.length :=
    UInt16.toNat_ofNat_of_lt' few
  have hitems := many h
  rw [← hcount] at hitems
  have hword : Consults fits cause (Decoder.countedU2 decoder)
      (Bytes.ofNat 2 (UInt16.ofNat items.length).toNat ++ items.flatMap write)
      (items.flatMap consulted) (List.Forall₂ stands items) := word (.ofNat items.length) hitems
  rwa [hcount] at hword

end Items

end Consults

end Decoder

end ClassListing
