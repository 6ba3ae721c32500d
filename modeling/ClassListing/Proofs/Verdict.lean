import ClassListing.Proofs.Cursor.Fault
import ClassListing.Proofs.Traversal

/-!
# Computations that turn on a condition

A computation hinges on a condition when it succeeds if the condition holds and fails, for a cause
of the given sort, if it does not. What a sequence of computations and what going through a list
hinge on follows from their parts.
-/

namespace ClassListing

structure Hinges (cause : Error → Prop) (found : Except Error α) (good : Prop) : Prop where
  value : good → ∃ value, found = .ok value
  fault : ¬good → ∃ error, found = .error error ∧ cause error

namespace Hinges

variable {cause : Error → Prop} {found : Except Error α} {good better : Prop}

theorem congr (h : Hinges cause found good) (hiff : good ↔ better) : Hinges cause found better := by
  rwa [← propext hiff]

theorem ok (value : α) (h : good) : Hinges cause (.ok value) good := by
  constructor
  · intro _
    exact ⟨value, rfl⟩
  · intro hnot
    exact (hnot h).elim

/-- Every computation hinges on its own success. -/
theorem of_blames (h : Blames cause found) : Hinges cause found (∃ value, found = .ok value) := by
  constructor
  · intro hvalue
    exact hvalue
  · intro hnot
    cases hf : found with
    | ok value => exact (hnot ⟨value, hf⟩).elim
    | error error => exact ⟨error, rfl, h error hf⟩

theorem succeeds_iff (h : Hinges cause found good) : (∃ value, found = .ok value) ↔ good := by
  constructor
  · intro hvalue
    obtain ⟨value, hvalue⟩ := hvalue
    by_cases hg : good
    · exact hg
    · obtain ⟨error, herror, -⟩ := h.fault hg
      rw [hvalue] at herror
      cases herror
  · exact h.value

theorem blames (h : Hinges cause found good) : Blames cause found := by
  intro error herror
  have hnot : ¬good := by
    intro hg
    obtain ⟨value, hvalue⟩ := h.value hg
    rw [hvalue] at herror
    cases herror
  obtain ⟨other, hother, hcause⟩ := h.fault hnot
  rw [herror] at hother
  cases hother
  exact hcause

protected theorem bind {next : α → Except Error β} (hf : Hinges cause found good)
    (hn : ∀ value, found = .ok value → Hinges cause (next value) better) :
    Hinges cause (found >>= next) (good ∧ better) := by
  constructor
  · intro hboth
    obtain ⟨value, hvalue⟩ := hf.value hboth.1
    obtain ⟨result, hresult⟩ := (hn value hvalue).value hboth.2
    exact ⟨result, bind_eq_ok_iff.mpr ⟨value, hvalue, hresult⟩⟩
  · intro hnot
    by_cases hg : good
    · obtain ⟨value, hvalue⟩ := hf.value hg
      obtain ⟨error, herror, hcause⟩ := (hn value hvalue).fault fun hb => hnot ⟨hg, hb⟩
      exact ⟨error, bind_eq_error_iff.mpr (.inr ⟨value, hvalue, herror⟩), hcause⟩
    · obtain ⟨error, herror, hcause⟩ := hf.fault hg
      exact ⟨error, bind_eq_error_iff.mpr (.inl herror), hcause⟩

/-- A value that is only put into another one. -/
protected theorem map (h : Hinges cause found good) (wrap : α → β) :
    Hinges cause (do return wrap (← found)) good :=
  (Hinges.bind h fun value _ => .ok (wrap value) trivial).congr (and_iff_left trivial)

theorem mapM {f : β → Except Error α} {each : β → Prop} {items : List β}
    (h : ∀ item ∈ items, Hinges cause (f item) (each item)) :
    Hinges cause (items.mapM f) (∀ item ∈ items, each item) := by
  induction items with
  | nil => exact .ok [] nofun
  | cons item items ih =>
      obtain ⟨hfirst, hrest⟩ := List.forall_mem_cons.mp h
      rw [List.mapM_cons]
      exact (hfirst.bind fun value _ => (ih hrest).map (value :: ·)).congr
        List.forall_mem_cons.symm

end Hinges

end ClassListing
