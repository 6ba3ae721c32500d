import ClassListing.Proofs.Cursor.Isolation

/-!
# Comparing decoders

Two ways in which one decoder can stand for another. They agree below a size if they do the same
wherever fewer bytes than that are left. And one cuts off the other if it gives the same values as
far as these are allowed, stops with the error for the limit at any other value, and fails wherever
the other fails.
-/

namespace ClassListing.Decoder

/-! ## Decoders that give no bytes back -/

def NonGrowing (decoder : Decoder α) : Prop :=
  ∀ cursor value stopped, decoder cursor = .ok value stopped →
    stopped.rest.length ≤ cursor.rest.length

namespace NonGrowing

protected theorem pure (value : α) : NonGrowing (pure value) := by
  intro cursor result stopped h
  cases h
  exact Nat.le_refl _

protected theorem throw (error : Error) : NonGrowing (throw error : Decoder α) := by
  intro cursor result stopped h
  cases h

protected theorem lookup (found : Except Error α) : NonGrowing (lookup found) := by
  cases found with
  | ok value => exact .pure value
  | error error => exact .throw error

protected theorem bind {first : Decoder α} {next : α → Decoder β} (hf : NonGrowing first)
    (hn : ∀ value, NonGrowing (next value)) : NonGrowing (first >>= next) := by
  intro cursor result stopped h
  cases hr : first cursor with
  | ok value middle =>
      rw [bind_of_ok hr] at h
      exact Nat.le_trans (hn value middle result stopped h) (hf cursor value middle hr)
  | error error middle =>
      rw [bind_of_error hr] at h
      cases h

/-- A value that is only put into another one. -/
protected theorem map {decoder : Decoder α} (h : NonGrowing decoder) (wrap : α → β) :
    NonGrowing (do return wrap (← decoder)) :=
  .bind h fun _ => .pure _

theorem of_reads {decoder : Decoder α} {grammar : Grammar α} (h : Reads decoder grammar) :
    NonGrowing decoder := by
  intro cursor value stopped hok
  obtain ⟨used, -, hbytes, -⟩ := (h cursor.pos cursor.rest value stopped).mp hok
  rw [hbytes, List.length_append]
  omega

theorem u2 : NonGrowing u2 := of_reads .u2

theorem u4 : NonGrowing u4 := of_reads .u4

theorem take (count : Nat) : NonGrowing (take count) := of_reads (.take count)

theorem reference (find : UInt16 → Except Error α) : NonGrowing (reference find) :=
  of_reads (.reference find)

theorem many {decoder : Decoder α} (h : NonGrowing decoder) (count : Nat) :
    NonGrowing (many count decoder) := by
  induction count with
  | zero => exact .pure []
  | succ count ih =>
      rw [many_succ]
      exact .bind h fun value => .map ih _

theorem countedU2 {decoder : Decoder α} (h : NonGrowing decoder) :
    NonGrowing (countedU2 decoder) :=
  .bind u2 fun count => h.many count.toNat

end NonGrowing

/-! ## Decoders that do the same on short inputs -/

def AgreeBelow (size : Nat) (first second : Decoder α) : Prop :=
  ∀ cursor, cursor.rest.length < size → first cursor = second cursor

namespace AgreeBelow

variable {size : Nat} {first second : Decoder α}

theorem refl (decoder : Decoder α) : AgreeBelow size decoder decoder := fun _ _ => rfl

protected theorem bind {next other : α → Decoder β} (h : AgreeBelow size first second)
    (hf : NonGrowing first) (hn : ∀ value, AgreeBelow size (next value) (other value)) :
    AgreeBelow size (first >>= next) (second >>= other) := by
  intro cursor hlt
  have hsame := h cursor hlt
  cases hr : first cursor with
  | ok value stopped =>
      rw [hr] at hsame
      rw [bind_of_ok hr, bind_of_ok hsame.symm]
      exact hn value stopped (Nat.lt_of_le_of_lt (hf cursor value stopped hr) hlt)
  | error error stopped =>
      rw [hr] at hsame
      rw [bind_of_error hr, bind_of_error hsame.symm]

/-- What stands in front of the decoders is the same for both. -/
theorem after {front : Decoder β} {next other : β → Decoder α} (hf : NonGrowing front)
    (hn : ∀ value, AgreeBelow size (next value) (other value)) :
    AgreeBelow size (front >>= next) (front >>= other) :=
  (refl front).bind hf hn

/-- Bytes that were taken are as few as those that were left. -/
theorem after_take {count : Nat} {next other : Bytes → Decoder α}
    (hn : ∀ taken, taken.length < size → AgreeBelow size (next taken) (other taken)) :
    AgreeBelow size (take count >>= next) (take count >>= other) := by
  intro cursor hlt
  cases hr : take count cursor with
  | error error stopped => rw [bind_of_error hr, bind_of_error hr]
  | ok taken stopped =>
      have htaken : cursor.rest = taken ++ stopped.rest := by
        obtain ⟨used, ⟨-, rfl⟩, hbytes, -⟩ := (Reads.take count _ _ _ _).mp hr
        exact hbytes
      have hlength : cursor.rest.length = taken.length + stopped.rest.length := by
        rw [htaken, List.length_append]
      rw [bind_of_ok hr, bind_of_ok hr]
      exact hn taken (by omega) stopped (by omega)

/-- Behind a number fewer bytes are left than before it. -/
theorem after_u2 {next other : UInt16 → Decoder α}
    (hn : ∀ value, AgreeBelow size (next value) (other value)) :
    AgreeBelow (size + 1) (u2 >>= next) (u2 >>= other) := by
  intro cursor hlt
  cases hr : Decoder.u2 cursor with
  | error error stopped => rw [bind_of_error hr, bind_of_error hr]
  | ok value stopped =>
      obtain ⟨used, rfl, hbytes, -⟩ := (Reads.u2 _ _ _ _).mp hr
      have hlength : cursor.rest.length = 2 + stopped.rest.length := by
        rw [hbytes, List.length_append, Bytes.length_ofNat]
      rw [bind_of_ok hr, bind_of_ok hr]
      exact hn value stopped (by omega)

/-- A value that is only put into another one. -/
protected theorem map (h : AgreeBelow size first second) (wrap : α → β) :
    AgreeBelow size (do return wrap (← first)) (do return wrap (← second)) := by
  intro cursor hlt
  simp only [bind, EStateM.bind, h cursor hlt]

theorem many (h : AgreeBelow size first second) (hf : NonGrowing first) (count : Nat) :
    AgreeBelow size (many count first) (many count second) := by
  induction count with
  | zero => exact refl _
  | succ count ih =>
      rw [many_succ, many_succ]
      exact h.bind hf fun value => ih.map _

theorem countedU2 (h : AgreeBelow size first second) (hf : NonGrowing first) :
    AgreeBelow size (countedU2 first) (countedU2 second) :=
  after .u2 fun count => h.many hf count.toNat

end AgreeBelow

/-! ## Decoders with and without a limit -/

structure CutsOff (limit : Error) (free bounded : Decoder α) (allowed : α → Prop) : Prop where
  value : ∀ {cursor stopped value}, free cursor = .ok value stopped → allowed value →
    bounded cursor = .ok value stopped
  limit : ∀ {cursor stopped value}, free cursor = .ok value stopped → ¬allowed value →
    ∃ halted, bounded cursor = .error limit halted
  fault : ∀ {cursor stopped error}, free cursor = .error error stopped →
    ∃ other halted, bounded cursor = .error other halted

namespace CutsOff

variable {limit : Error} {free bounded : Decoder α} {allowed : α → Prop}

theorem congr {other : α → Prop} (h : CutsOff limit free bounded allowed)
    (hiff : ∀ value, allowed value ↔ other value) : CutsOff limit free bounded other := by
  have hsame : allowed = other := funext fun value => propext (hiff value)
  rwa [← hsame]

/-- Where every value is allowed nothing is cut off. -/
theorem same {decoder : Decoder α} (h : Gives allowed decoder) :
    CutsOff limit decoder decoder allowed := by
  constructor
  · intro cursor stopped value hok _
    exact hok
  · intro cursor stopped value hok hno
    exact (hno (h cursor stopped value hok)).elim
  · intro cursor stopped error herror
    exact ⟨error, stopped, herror⟩

/-- Where no value is allowed the limit is all that is left. -/
protected theorem throw (h : Gives (fun value => ¬allowed value) free) :
    CutsOff limit free (throw limit) allowed := by
  constructor
  · intro cursor stopped value hok hyes
    exact (h cursor stopped value hok hyes).elim
  · intro cursor stopped value _ _
    exact ⟨cursor, rfl⟩
  · intro cursor stopped error _
    exact ⟨limit, cursor, rfl⟩

protected theorem lookup {found other : Except Error α}
    (hv : ∀ value, found = .ok value → allowed value → other = .ok value)
    (hl : ∀ value, found = .ok value → ¬allowed value → other = .error limit)
    (hf : ∀ error, found = .error error → ∃ cause, other = .error cause) :
    CutsOff limit (lookup found) (lookup other) allowed := by
  cases found with
  | error error =>
      obtain ⟨cause, hcause⟩ := hf error rfl
      rw [hcause]
      constructor
      · nofun
      · nofun
      · intro cursor stopped _ _
        exact ⟨cause, cursor, rfl⟩
  | ok value =>
      by_cases hallowed : allowed value
      · rw [hv value rfl hallowed]
        exact same (.pure hallowed)
      · rw [hl value rfl hallowed]
        exact .throw (.pure hallowed)

/-- A value that was cut off in the first part must not be allowed in the result. -/
protected theorem bind {next other : α → Decoder β} {good : β → Prop}
    (h : CutsOff limit free bounded allowed)
    (hyes : ∀ value, allowed value → CutsOff limit (next value) (other value) good)
    (hno : ∀ value, ¬allowed value → Gives (fun result => ¬good result) (next value)) :
    CutsOff limit (free >>= next) (bounded >>= other) good := by
  constructor
  · intro cursor stopped result hok hgood
    cases hr : free cursor with
    | error error middle =>
        rw [bind_of_error hr] at hok
        cases hok
    | ok value middle =>
        rw [bind_of_ok hr] at hok
        by_cases hallowed : allowed value
        · rw [bind_of_ok (h.value hr hallowed)]
          exact (hyes value hallowed).value hok hgood
        · exact (hno value hallowed middle stopped result hok hgood).elim
  · intro cursor stopped result hok hbad
    cases hr : free cursor with
    | error error middle =>
        rw [bind_of_error hr] at hok
        cases hok
    | ok value middle =>
        rw [bind_of_ok hr] at hok
        by_cases hallowed : allowed value
        · rw [bind_of_ok (h.value hr hallowed)]
          exact (hyes value hallowed).limit hok hbad
        · obtain ⟨halted, hhalted⟩ := h.limit hr hallowed
          exact ⟨halted, bind_of_error hhalted⟩
  · intro cursor stopped error herror
    cases hr : free cursor with
    | error found middle =>
        obtain ⟨cause, halted, hhalted⟩ := h.fault hr
        exact ⟨cause, halted, bind_of_error hhalted⟩
    | ok value middle =>
        rw [bind_of_ok hr] at herror
        by_cases hallowed : allowed value
        · rw [bind_of_ok (h.value hr hallowed)]
          exact (hyes value hallowed).fault herror
        · obtain ⟨halted, hhalted⟩ := h.limit hr hallowed
          exact ⟨limit, halted, bind_of_error hhalted⟩

/-- What stands in front of the decoders is the same for both. -/
theorem after {front : Decoder β} {next other : β → Decoder α}
    (h : ∀ value, CutsOff limit (next value) (other value) allowed) :
    CutsOff limit (front >>= next) (front >>= other) allowed := by
  have hfront : CutsOff limit front front fun _ => True := same fun _ _ _ _ => trivial
  exact hfront.bind (fun value _ => h value) fun _ hno => (hno trivial).elim

/-- A value that is only put into another one. -/
protected theorem map {wrap : α → β} {good : β → Prop} (h : CutsOff limit free bounded allowed)
    (hw : ∀ value, good (wrap value) ↔ allowed value) :
    CutsOff limit (do return wrap (← free)) (do return wrap (← bounded)) good := by
  apply h.bind
  · intro value hallowed
    exact same (.pure ((hw value).mpr hallowed))
  · intro value hno
    exact .pure fun hgood => hno ((hw value).mp hgood)

theorem many (h : CutsOff limit free bounded allowed) (count : Nat) :
    CutsOff limit (many count free) (many count bounded)
      (fun values => ∀ value ∈ values, allowed value) := by
  induction count with
  | zero => exact same (.pure nofun)
  | succ count ih =>
      rw [many_succ, many_succ]
      apply h.bind
      · intro value hallowed
        apply ih.map
        intro values
        rw [List.forall_mem_cons]
        exact and_iff_right hallowed
      · intro value hno
        refine .bind fun values => .pure fun hall => ?_
        exact hno (List.forall_mem_cons.mp hall).1

theorem countedU2 (h : CutsOff limit free bounded allowed) :
    CutsOff limit (countedU2 free) (countedU2 bounded)
      (fun values => ∀ value ∈ values, allowed value) :=
  after fun count => h.many count.toNat

/-- What is read within the limit is read without it. -/
theorem of_bounded (h : CutsOff limit free bounded allowed) {cursor stopped : Cursor} {value : α}
    (hok : bounded cursor = .ok value stopped) :
    free cursor = .ok value stopped ∧ allowed value := by
  cases hr : free cursor with
  | error error middle =>
      obtain ⟨other, halted, hhalted⟩ := h.fault hr
      rw [hok] at hhalted
      cases hhalted
  | ok found middle =>
      by_cases hallowed : allowed found
      · have hsame := h.value hr hallowed
        rw [hok] at hsame
        cases hsame
        exact ⟨rfl, hallowed⟩
      · obtain ⟨halted, hhalted⟩ := h.limit hr hallowed
        rw [hok] at hhalted
        cases hhalted

end CutsOff

end ClassListing.Decoder
