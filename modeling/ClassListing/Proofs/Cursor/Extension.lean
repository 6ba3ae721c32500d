import ClassListing.Cursor

/-!
# Decoders and the bytes behind their input

A decoder streams when its verdict is final: once it has given a value, or an error other than
the one for missing bytes, more bytes behind its input neither change that verdict nor are
touched. The primitive reads stream, and so does everything that is put together from reads
that do. Only a decoder that asks how much is left can fail to.
-/

namespace ClassListing

/-- The same position, with `suffix` behind the bytes that are left. -/
def Cursor.extend (cursor : Cursor) (suffix : Bytes) : Cursor :=
  ⟨cursor.pos, cursor.rest ++ suffix⟩

@[simp] theorem Cursor.extend_rest (cursor : Cursor) (suffix : Bytes) :
    (cursor.extend suffix).rest = cursor.rest ++ suffix := rfl

theorem Cursor.start_append (front back : Bytes) :
    Cursor.start (front ++ back) = (Cursor.start front).extend back := rfl

namespace Decoder

/-! ## Running a sequence -/

theorem bind_of_ok {first : Decoder α} {next : α → Decoder β} {cursor stopped : Cursor}
    {value : α} (h : first cursor = .ok value stopped) :
    (first >>= next) cursor = next value stopped := by
  simp only [bind, EStateM.bind, h]

theorem bind_of_error {first : Decoder α} {next : α → Decoder β} {cursor stopped : Cursor}
    {error : Error} (h : first cursor = .error error stopped) :
    (first >>= next) cursor = .error error stopped := by
  simp only [bind, EStateM.bind, h]

theorem run_bind_eq_error_iff {first : Decoder α} {next : α → Decoder β}
    {cursor stopped : Cursor} {error : Error} :
    (first >>= next) cursor = .error error stopped ↔ first cursor = .error error stopped ∨
      ∃ value middle, first cursor = .ok value middle ∧
        next value middle = .error error stopped := by
  cases hr : first cursor with
  | ok value middle =>
      rw [bind_of_ok hr]
      constructor
      · intro hnext
        exact .inr ⟨value, middle, rfl, hnext⟩
      · intro h
        rcases h with hfirst | ⟨_, _, hsame, hnext⟩
        · cases hfirst
        · cases hsame
          exact hnext
  | error found middle =>
      rw [bind_of_error hr]
      simp

@[simp] theorem pure_run (value : α) (cursor : Cursor) :
    (pure value : Decoder α) cursor = .ok value cursor := rfl

@[simp] theorem throw_run (error : Error) (cursor : Cursor) :
    (throw error : Decoder α) cursor = .error error cursor := rfl

theorem remaining_bind (next : Nat → Decoder α) (cursor : Cursor) :
    (remaining >>= next) cursor = next cursor.rest.length cursor := rfl

@[simp] theorem throw_bind (error : Error) (next : α → Decoder β) :
    ((throw error : Decoder α) >>= next) = throw error := rfl

/-! ## Streaming decoders -/

structure Streams (decoder : Decoder α) : Prop where
  value : ∀ {cursor stopped : Cursor} {value : α} (suffix : Bytes),
    decoder cursor = .ok value stopped →
      decoder (cursor.extend suffix) = .ok value (stopped.extend suffix)
  fault : ∀ {cursor stopped : Cursor} {error : Error} (suffix : Bytes),
    decoder cursor = .error error stopped → error ≠ .truncated →
      decoder (cursor.extend suffix) = .error error (stopped.extend suffix)

namespace Streams

protected theorem pure (value : α) : Streams (pure value : Decoder α) := by
  constructor
  · intro cursor stopped result suffix h
    cases h
    rfl
  · intro cursor stopped error suffix h
    cases h

protected theorem throw (error : Error) : Streams (throw error : Decoder α) := by
  constructor
  · intro cursor stopped result suffix h
    cases h
  · intro cursor stopped found suffix h hne
    cases h
    rfl

protected theorem lookup (found : Except Error α) : Streams (lookup found) := by
  cases found with
  | ok value => exact .pure value
  | error error => exact .throw error

protected theorem bind {first : Decoder α} {next : α → Decoder β} (hf : Streams first)
    (hn : ∀ value, Streams (next value)) : Streams (first >>= next) := by
  constructor
  · intro cursor stopped result suffix h
    cases hr : first cursor with
    | ok value middle =>
        rw [bind_of_ok hr] at h
        rw [bind_of_ok (hf.value suffix hr)]
        exact (hn value).value suffix h
    | error error middle =>
        rw [bind_of_error hr] at h
        cases h
  · intro cursor stopped error suffix h hne
    cases hr : first cursor with
    | ok value middle =>
        rw [bind_of_ok hr] at h
        rw [bind_of_ok (hf.value suffix hr)]
        exact (hn value).fault suffix h hne
    | error found middle =>
        rw [bind_of_error hr] at h
        cases h
        exact bind_of_error (hf.fault suffix hr hne)

theorem ite {condition : Prop} [Decidable condition] {first second : Decoder α}
    (hf : Streams first) (hs : Streams second) :
    Streams (if condition then first else second) := by
  by_cases h : condition
  · simpa only [if_pos h] using hf
  · simpa only [if_neg h] using hs

/-- A value that is only put into another one. -/
protected theorem map {decoder : Decoder α} (h : Streams decoder) (wrap : α → β) :
    Streams (do return wrap (← decoder)) :=
  .bind h fun _ => .pure _

theorem take (count : Nat) : Streams (take count) := by
  constructor
  · intro cursor stopped result suffix h
    simp only [Decoder.take] at h
    split at h <;> try contradiction
    rename_i hl
    cases h
    have hle : count ≤ cursor.rest.length := by
      rw [List.length_take] at hl
      omega
    simp only [Decoder.take, Cursor.extend, List.take_append_of_le_length hle,
      List.drop_append_of_le_length hle, hl, if_true]
  · intro cursor stopped error suffix h hne
    simp only [Decoder.take] at h
    split at h <;> try contradiction
    cases h
    exact (hne rfl).elim

theorem ensure (count : Nat) : Streams (ensure count) := by
  constructor
  · intro cursor stopped result suffix h
    simp only [Decoder.ensure] at h
    split at h <;> try contradiction
    rename_i hl
    cases h
    have hle : count ≤ cursor.rest.length := by
      rw [List.length_take] at hl
      omega
    simp only [Decoder.ensure, Cursor.extend, List.take_append_of_le_length hle, hl, if_true]
  · intro cursor stopped error suffix h hne
    simp only [Decoder.ensure] at h
    split at h <;> try contradiction
    cases h
    exact (hne rfl).elim

theorem number (width : Nat) : Streams (number width) := .map (.take width) _

theorem u1 : Streams u1 := .map (.number 1) _

theorem u2 : Streams u2 := .map (.number 2) _

theorem u4 : Streams u4 := .map (.number 4) _

theorem u8 : Streams u8 := .map (.number 8) _

theorem i4 : Streams i4 := .map .u4 _

theorem i8 : Streams i8 := .map .u8 _

theorem text (count : Nat) : Streams (text count) := .map (.take count) _

theorem reference (find : UInt16 → Except Error α) : Streams (reference find) :=
  .bind .u2 fun index => .lookup (find index)

theorem many {decoder : Decoder α} (h : Streams decoder) (count : Nat) :
    Streams (many count decoder) := by
  induction count with
  | zero => exact .pure []
  | succ count ih =>
      rw [many_succ]
      exact .bind h fun value => .map ih _

theorem countedU1 {decoder : Decoder α} (h : Streams decoder) : Streams (countedU1 decoder) :=
  .bind .u1 fun count => h.many count.toNat

theorem countedU2 {decoder : Decoder α} (h : Streams decoder) : Streams (countedU2 decoder) :=
  .bind .u2 fun count => h.many count.toNat

end Streams

end Decoder

end ClassListing
