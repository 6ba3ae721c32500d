import Mathlib.Data.List.Forall2

/-!
# Computations that can fail

What a sequence of two steps gives, and what going through a list gives: either every item gives a
value, and these are the result in their order, or the first item that fails decides.
-/

namespace ClassListing

theorem bind_eq_ok_iff {first : Except ε α} {next : α → Except ε β} {result : β} :
    first >>= next = .ok result ↔ ∃ value, first = .ok value ∧ next value = .ok result := by
  cases first <;> simp [bind, Except.bind]

theorem bind_eq_error_iff {first : Except ε α} {next : α → Except ε β} {error : ε} :
    first >>= next = .error error ↔
      first = .error error ∨ ∃ value, first = .ok value ∧ next value = .error error := by
  cases first <;> simp [bind, Except.bind]

def Yields (property : α → Prop) (found : Except ε α) : Prop :=
  ∀ value, found = .ok value → property value

namespace Yields

variable {property : α → Prop} {found : Except ε α}

theorem ok {value : α} (h : property value) : Yields property (.ok value : Except ε α) := by
  intro result hresult
  cases hresult
  exact h

theorem error (cause : ε) : Yields property (.error cause) := by
  intro result hresult
  cases hresult

/-- The second step may rely on what the first one yields. -/
protected theorem bind {next : α → Except ε β} {result : β → Prop} (hf : Yields property found)
    (hn : ∀ value, property value → Yields result (next value)) :
    Yields result (found >>= next) := by
  intro value hvalue
  obtain ⟨middle, hmiddle, hvalue⟩ := bind_eq_ok_iff.mp hvalue
  exact hn middle (hf middle hmiddle) value hvalue

/-- A value that is only put into another one. -/
protected theorem map {wrap : α → β} {wrapped : β → Prop} (h : Yields property found)
    (hw : ∀ value, property value → wrapped (wrap value)) :
    Yields wrapped (do return wrap (← found)) :=
  h.bind fun value hvalue => .ok (hw value hvalue)

theorem mapM {step : β → Except ε α} {items : List β}
    (h : ∀ item ∈ items, Yields property (step item)) :
    Yields (fun values => ∀ value ∈ values, property value) (items.mapM step) := by
  induction items with
  | nil => exact .ok nofun
  | cons item items ih =>
      obtain ⟨hfirst, hrest⟩ := List.forall_mem_cons.mp h
      rw [List.mapM_cons]
      exact hfirst.bind fun value hvalue => (ih hrest).map fun values hvalues =>
        List.forall_mem_cons.mpr ⟨hvalue, hvalues⟩

end Yields

variable {f : α → Except ε β} {items : List α}

theorem mapM_eq_ok_iff {values : List β} :
    items.mapM f = .ok values ↔ items.map f = values.map .ok := by
  induction items generalizing values with
  | nil => cases values <;> simp [pure, Except.pure]
  | cons item items ih =>
      simp only [List.mapM_cons, bind_eq_ok_iff, ih, List.map_cons]
      constructor
      · intro h
        rcases h with ⟨value, hvalue, more, hmore, hpure⟩
        cases hpure
        rw [List.map_cons, hvalue, hmore]
      · intro h
        cases values with
        | nil => cases h
        | cons value more =>
            obtain ⟨hvalue, hmore⟩ := List.cons.inj h
            exact ⟨value, hvalue, more, hmore, rfl⟩

/-- Each item and its value. -/
theorem forall₂_of_mapM {values : List β} (h : items.mapM f = .ok values) :
    List.Forall₂ (fun item value => f item = .ok value) items values := by
  have hmaps : List.Forall₂ Eq (items.map f) (values.map .ok) := by
    rw [List.forall₂_eq_eq_eq]
    exact mapM_eq_ok_iff.mp h
  exact List.forall₂_map_right_iff.mp (List.forall₂_map_left_iff.mp hmaps)

theorem mapM_eq_error_iff {error : ε} :
    items.mapM f = .error error ↔ ∃ before item after, items = before ++ item :: after ∧
      (∀ earlier ∈ before, ∃ value, f earlier = .ok value) ∧ f item = .error error := by
  induction items with
  | nil => simp [pure, Except.pure]
  | cons first items ih =>
      simp only [List.mapM_cons, bind_eq_error_iff, ih]
      constructor
      · intro h
        rcases h with hfirst | ⟨value, hvalue, hrest | ⟨_, _, hpure⟩⟩
        · exact ⟨[], first, items, rfl, nofun, hfirst⟩
        · obtain ⟨before, item, after, rfl, hbefore, hitem⟩ := hrest
          exact ⟨first :: before, item, after, rfl,
            List.forall_mem_cons.mpr ⟨⟨value, hvalue⟩, hbefore⟩, hitem⟩
        · cases hpure
      · intro h
        rcases h with ⟨before, item, after, hsplit, hbefore, hitem⟩
        cases before with
        | nil =>
            obtain ⟨rfl, rfl⟩ := List.cons.inj hsplit
            exact .inl hitem
        | cons head before =>
            obtain ⟨rfl, rfl⟩ := List.cons.inj hsplit
            obtain ⟨⟨value, hvalue⟩, hbefore⟩ := List.forall_mem_cons.mp hbefore
            exact .inr ⟨value, hvalue, .inl ⟨before, item, after, rfl, hbefore, hitem⟩⟩

/-- Checks are steps whose values say nothing. -/
theorem forM_eq_mapM (check : α → Except ε Unit) (items : List α) :
    items.forM check = (do let _ ← items.mapM check; return ()) := by
  induction items with
  | nil => rfl
  | cons item items ih =>
      rw [List.mapM_cons, List.forM]
      simp only [ih, bind_assoc, pure_bind]

theorem forM_eq_error_iff {check : α → Except ε Unit} {error : ε} :
    items.forM check = .error error ↔ ∃ before item after, items = before ++ item :: after ∧
      (∀ earlier ∈ before, check earlier = .ok ()) ∧ check item = .error error := by
  have hunit (item : α) : (∃ value, check item = .ok value) ↔ check item = .ok () :=
    ⟨fun ⟨(), hitem⟩ => hitem, fun hitem => ⟨(), hitem⟩⟩
  rw [forM_eq_mapM, bind_eq_error_iff, mapM_eq_error_iff]
  simp [hunit, pure, Except.pure]

end ClassListing
