import ClassListing.Proofs.Bytes
import ClassListing.Proofs.Cursor.Extension
import Mathlib.Data.Nat.Digits.Defs
import Mathlib.Order.Bounds.Defs

/-!
# Runs of a cursor

A run asks a cursor for one thing after another, whatever became of the request before. A request
that needs more bytes than are left fails and leaves the cursor where it is. Any other one is
answered from exactly the bytes that it needs, and those that it consumes follow without a gap on
those that were consumed before it.
-/

namespace ClassListing

open Decoder

/-! ## Requests -/

/-- The numbers of fixed width. A floating-point number is read as its bits. -/
inductive Word
  | u1 | u2 | u4 | u8 | i1 | i2 | i4 | i8 | f4 | f8
deriving DecidableEq

namespace Word

def width : Word → Nat
  | .u1 | .i1 => 1
  | .u2 | .i2 => 2
  | .u4 | .i4 | .f4 => 4
  | .u8 | .i8 | .f8 => 8

def signed : Word → Bool
  | .i1 | .i2 | .i4 | .i8 => true
  | _ => false

def decode : Word → Decoder Int
  | .u1 => return (← Decoder.u1).toNat
  | .u2 => return (← Decoder.u2).toNat
  | .u4 | .f4 => return (← Decoder.u4).toNat
  | .u8 | .f8 => return (← Decoder.u8).toNat
  | .i1 => return (← Decoder.i1).toInt
  | .i2 => return (← Decoder.i2).toInt
  | .i4 => return (← Decoder.i4).toInt
  | .i8 => return (← Decoder.i8).toInt

def value (type : Word) (bytes : Bytes) : Int :=
  let magnitude : Nat := Nat.ofDigits 256 (bytes.reverse.map UInt8.toNat)
  if type.signed ∧ 256 ^ type.width ≤ 2 * magnitude then magnitude - (256 ^ type.width : Nat)
  else magnitude

end Word

/-- What can be asked of a cursor. -/
inductive Request
  | word (type : Word)
  | bytes (count : Nat)
  | text (count : Nat)
  | skip (count : Nat)
  | align (unit : Nat)
  | ensure (count : Nat)
  | peek
deriving DecidableEq

inductive Answer
  | number (value : Int)
  | bytes (value : Bytes)
  | text (value : String)
  | done
deriving DecidableEq

namespace Request

def run : Request → Decoder Answer
  | .word type => return .number (← type.decode)
  | .bytes count => return .bytes (← take count)
  | .text count => return .text (← Decoder.text count)
  | .skip count => do Decoder.skip count; return .done
  | .align unit => do Decoder.align unit; return .done
  | .ensure count => do Decoder.ensure count; return .done
  | .peek => return .number (← Decoder.peek).toNat

def needs (pos : Nat) : Request → Nat
  | .word type => type.width
  | .bytes count | .text count | .skip count | .ensure count => count
  | .align unit => (unit - pos % unit) % unit
  | .peek => 1

def consumes (pos : Nat) : Request → Nat
  | .ensure _ | .peek => 0
  | request => request.needs pos

/-- The answer that the bytes spell which the request needs. -/
def answer (needed : Bytes) : Request → Answer
  | .word type => .number (type.value needed)
  | .bytes _ => .bytes needed
  | .text _ => .text (Text.decodeModifiedUtf8 needed)
  | .skip _ | .align _ | .ensure _ => .done
  | .peek => .number (Word.u1.value needed)

end Request

/-! ## Runs -/

/-- A request with the cursor before it, its result, and the cursor after it. -/
structure Step where
  request : Request
  before : Cursor
  result : Except Error Answer
  after : Cursor
deriving DecidableEq

def Request.perform (request : Request) (cursor : Cursor) : Step :=
  match request.run cursor with
  | .ok answer after => ⟨request, cursor, .ok answer, after⟩
  | .error error after => ⟨request, cursor, .error error, after⟩

/-- The steps of a run. A request that fails does not end it. -/
def trace : Cursor → List Request → List Step
  | _, [] => []
  | cursor, request :: rest =>
      request.perform cursor :: trace (request.perform cursor).after rest

def finish (cursor : Cursor) (requests : List Request) : Cursor :=
  requests.foldl (fun cursor request => (request.perform cursor).after) cursor

namespace Step

def piece (buffer : Bytes) (step : Step) : Bytes :=
  (buffer.drop step.before.pos).take (step.after.pos - step.before.pos)

/-- The step keeps to the buffer and to what its request asks for. -/
structure Sound (buffer : Bytes) (step : Step) : Prop where
  bounds : step.before.pos ≤ buffer.length ∧ step.after.pos ≤ buffer.length
  fails_iff : (∃ error, step.result = .error error) ↔
    buffer.length - step.before.pos < step.request.needs step.before.pos
  failure : ∀ error, step.result = .error error →
    error = .truncated ∧ step.after = step.before
  success : ∀ answer, step.result = .ok answer →
    step.before.pos + step.request.needs step.before.pos ≤ buffer.length ∧
    step.after.pos = step.before.pos + step.request.consumes step.before.pos ∧
    answer = step.request.answer
      ((buffer.drop step.before.pos).take (step.request.needs step.before.pos))

end Step

/-! ## Single reads -/

theorem Bytes.toNat_eq_ofDigits (bytes : Bytes) :
    bytes.toNat = Nat.ofDigits 256 (bytes.reverse.map UInt8.toNat) := by
  induction bytes using List.reverseRecOn with
  | nil => rfl
  | append_singleton front last ih =>
      rw [toNat_concat, List.reverse_append, List.reverse_singleton, List.singleton_append,
        List.map_cons, Nat.ofDigits_cons, ih]
      omega

/-- The decoder needs `count` bytes, consumes them and gives what they mean. -/
def Decoder.Takes (count : Nat) (meaning : Bytes → α) (decoder : Decoder α) : Prop :=
  ∀ cursor, decoder cursor =
    if cursor.rest.length < count then .error .truncated cursor
    else .ok (meaning (cursor.rest.take count)) ⟨cursor.pos + count, cursor.rest.drop count⟩

namespace Decoder.Takes

variable {count : Nat} {meaning : Bytes → α} {decoder : Decoder α}

theorem take (count : Nat) : Takes count id (take count) := by
  intro cursor
  by_cases hshort : cursor.rest.length < count
  · rw [if_pos hshort]
    exact take_of_length_lt hshort
  · have hlength : (cursor.rest.take count).length = count := by
      rw [List.length_take]
      omega
    rw [if_neg hshort]
    simp only [Decoder.take, hlength, if_true, id]

/-- A value that is only put into another one. -/
protected theorem map (h : Takes count meaning decoder) (wrap : α → β) :
    Takes count (fun bytes => wrap (meaning bytes)) (do return wrap (← decoder)) := by
  intro cursor
  have hrun := h cursor
  by_cases hshort : cursor.rest.length < count
  · rw [if_pos hshort] at hrun ⊢
    exact bind_of_error hrun
  · rw [if_neg hshort] at hrun ⊢
    exact bind_of_ok hrun

theorem congr {other : Bytes → α} (h : Takes count meaning decoder)
    (hsame : ∀ bytes, bytes.length = count → meaning bytes = other bytes) :
    Takes count other decoder := by
  intro cursor
  rw [h cursor]
  by_cases hshort : cursor.rest.length < count
  · rw [if_pos hshort, if_pos hshort]
  · have hlength : (cursor.rest.take count).length = count := by
      rw [List.length_take]
      omega
    rw [if_neg hshort, if_neg hshort, hsame _ hlength]

end Decoder.Takes

/-! ## Numbers -/

/-- Two's complement takes the numbers of the upper half for negative ones. -/
theorem bmod_eq {value size : Nat} (h : value < size) :
    (value : Int).bmod size = if size ≤ 2 * value then (value : Int) - size else value := by
  have hmod : (value : Int) % size = value := Int.emod_eq_of_lt (by omega) (by omega)
  simp only [Int.bmod, hmod]
  split <;> split <;> omega

namespace Word

variable {type : Word} {bytes : Bytes}

theorem value_of_unsigned (h : type.signed = false) : type.value bytes = bytes.toNat := by
  simp only [value, h, Bytes.toNat_eq_ofDigits, Bool.false_eq_true, false_and, if_false]

theorem value_of_signed (h : type.signed = true) (hl : bytes.length = type.width) :
    type.value bytes = (bytes.toNat : Int).bmod (256 ^ type.width : Nat) := by
  have hlt : bytes.toNat < 256 ^ type.width := hl ▸ bytes.toNat_lt
  rw [bmod_eq hlt]
  simp only [value, h, Bytes.toNat_eq_ofDigits, true_and]

theorem decode_takes (type : Word) : Takes type.width type.value type.decode := by
  have hnumber (width : Nat) : Takes width Bytes.toNat (number width) := (Takes.take width).map _
  have hlt {bytes : Bytes} {width : Nat} (hl : bytes.length = width) :
      bytes.toNat < 256 ^ width := hl ▸ bytes.toNat_lt
  have hsigned (hs : type.signed = true) {bytes : Bytes} (hl : bytes.length = type.width)
      (bits : BitVec (8 * type.width)) (hbits : bits.toNat = bytes.toNat) :
      bits.toInt = type.value bytes := by
    rw [value_of_signed hs hl, Bytes.toInt_eq_bmod, hbits]
  have hu1 := (hnumber 1).map UInt8.ofNat
  have hu2 := (hnumber 2).map UInt16.ofNat
  have hu4 := (hnumber 4).map UInt32.ofNat
  have hu8 := (hnumber 8).map UInt64.ofNat
  cases type with
  | u1 =>
      refine (hu1.map _).congr fun bytes hl => ?_
      rw [value_of_unsigned rfl, UInt8.toNat_ofNat_of_lt' (hlt hl)]
  | u2 =>
      refine (hu2.map _).congr fun bytes hl => ?_
      rw [value_of_unsigned rfl, UInt16.toNat_ofNat_of_lt' (hlt hl)]
  | u4 | f4 =>
      refine (hu4.map _).congr fun bytes hl => ?_
      rw [value_of_unsigned rfl, UInt32.toNat_ofNat_of_lt' (hlt hl)]
  | u8 | f8 =>
      refine (hu8.map _).congr fun bytes hl => ?_
      rw [value_of_unsigned rfl, UInt64.toNat_ofNat_of_lt' (hlt hl)]
  | i1 =>
      refine ((hu1.map UInt8.toInt8).map _).congr fun bytes hl => ?_
      exact hsigned rfl hl (UInt8.ofNat bytes.toNat).toBitVec (UInt8.toNat_ofNat_of_lt' (hlt hl))
  | i2 =>
      refine ((hu2.map UInt16.toInt16).map _).congr fun bytes hl => ?_
      exact hsigned rfl hl (UInt16.ofNat bytes.toNat).toBitVec (UInt16.toNat_ofNat_of_lt' (hlt hl))
  | i4 =>
      refine ((hu4.map UInt32.toInt32).map _).congr fun bytes hl => ?_
      exact hsigned rfl hl (UInt32.ofNat bytes.toNat).toBitVec (UInt32.toNat_ofNat_of_lt' (hlt hl))
  | i8 =>
      refine ((hu8.map UInt64.toInt64).map _).congr fun bytes hl => ?_
      exact hsigned rfl hl (UInt64.ofNat bytes.toNat).toBitVec (UInt64.toNat_ofNat_of_lt' (hlt hl))

end Word

/-! ## Single requests -/

theorem Decoder.ensure_eq (count : Nat) (cursor : Cursor) :
    ensure count cursor =
      if cursor.rest.length < count then .error .truncated cursor else .ok () cursor := by
  have hlength : (cursor.rest.take count).length = count ↔ ¬cursor.rest.length < count := by
    rw [List.length_take]
    omega
  simp only [ensure, hlength, ite_not]

theorem Decoder.peek_eq (cursor : Cursor) :
    (do return Answer.number (← peek).toNat) cursor =
      if cursor.rest.length < 1 then .error .truncated cursor
      else .ok (.number (Word.u1.value (cursor.rest.take 1))) cursor := by
  obtain ⟨pos, rest⟩ := cursor
  cases rest with
  | nil => rfl
  | cons byte rest =>
      have hvalue : Word.u1.value [byte] = byte.toNat := by
        rw [Word.value_of_unsigned rfl]
        simp [Bytes.toNat]
      have hshort : ¬(byte :: rest).length < 1 := by simp
      simp only [if_neg hshort, List.take_succ_cons, List.take_zero, hvalue]
      rfl

namespace Request

/-- What becomes of a request, in all cases. -/
theorem run_eq (request : Request) (cursor : Cursor) :
    request.run cursor =
      if cursor.rest.length < request.needs cursor.pos then .error .truncated cursor
      else .ok (request.answer (cursor.rest.take (request.needs cursor.pos)))
        ⟨cursor.pos + request.consumes cursor.pos,
          cursor.rest.drop (request.consumes cursor.pos)⟩ := by
  have hskip (count : Nat) : Takes count (fun _ => Answer.done)
      (do Decoder.skip count; return .done) :=
    ((Takes.take count).map fun _ => ()).map fun _ => Answer.done
  cases request with
  | word type => exact (type.decode_takes.map Answer.number) cursor
  | bytes count => exact ((Takes.take count).map Answer.bytes) cursor
  | text count =>
      exact (((Takes.take count).map Text.decodeModifiedUtf8).map Answer.text) cursor
  | skip count => exact hskip count cursor
  | align unit => exact hskip ((unit - cursor.pos % unit) % unit) cursor
  | ensure count =>
      have hensure := Decoder.ensure_eq count cursor
      by_cases hshort : cursor.rest.length < count
      · rw [if_pos hshort] at hensure
        rw [needs, if_pos hshort]
        exact bind_of_error hensure
      · rw [if_neg hshort] at hensure
        rw [needs, if_neg hshort]
        exact bind_of_ok hensure
  | peek => exact Decoder.peek_eq cursor

theorem consumes_le_needs (request : Request) (pos : Nat) :
    request.consumes pos ≤ request.needs pos := by
  cases request with
  | ensure count => exact Nat.zero_le _
  | peek => exact Nat.zero_le _
  | _ => exact Nat.le_refl _

/-- The next multiple is reached and none is left out. -/
theorem isLeast_align {unit : Nat} (h : 0 < unit) (pos : Nat) :
    IsLeast {stop | pos ≤ stop ∧ unit ∣ stop} (pos + (align unit).needs pos) := by
  have hdiv := Nat.div_add_mod pos unit
  have hlt := Nat.mod_lt pos h
  by_cases hzero : pos % unit = 0
  · have hneeds : (align unit).needs pos = 0 := by
      rw [needs, hzero, Nat.sub_zero, Nat.mod_self]
    rw [hneeds]
    exact ⟨⟨Nat.le_refl _, Nat.dvd_of_mod_eq_zero hzero⟩, fun stop hstop => hstop.1⟩
  · have hneeds : (align unit).needs pos = unit - pos % unit := Nat.mod_eq_of_lt (by omega)
    have hnext : pos + (align unit).needs pos = unit * (pos / unit + 1) := by
      rw [hneeds, Nat.mul_succ]
      omega
    rw [hnext]
    refine ⟨⟨by rw [Nat.mul_succ]; omega, Nat.dvd_mul_right _ _⟩, ?_⟩
    rintro stop ⟨hle, factor, rfl⟩
    apply Nat.mul_le_mul_left
    by_contra hfew
    have hmul : unit * factor ≤ unit * (pos / unit) := Nat.mul_le_mul_left unit (by omega)
    omega

end Request

/-! ## Steps and runs -/

/-- The cursor stands in the buffer, and what follows it there is what it has left. -/
structure Cursor.In (buffer : Bytes) (cursor : Cursor) : Prop where
  pos_le : cursor.pos ≤ buffer.length
  rest_eq : cursor.rest = buffer.drop cursor.pos

theorem Cursor.start_in (buffer : Bytes) : (Cursor.start buffer).In buffer :=
  ⟨Nat.zero_le _, rfl⟩

theorem Cursor.In.length_rest {buffer : Bytes} {cursor : Cursor} (h : cursor.In buffer) :
    cursor.rest.length = buffer.length - cursor.pos := by
  rw [h.rest_eq, List.length_drop]

namespace Request

variable {buffer : Bytes} {cursor : Cursor} (request : Request)

theorem perform_of_short (h : cursor.rest.length < request.needs cursor.pos) :
    request.perform cursor = ⟨request, cursor, .error .truncated, cursor⟩ := by
  simp only [perform, run_eq, if_pos h]

theorem perform_of_enough (h : ¬cursor.rest.length < request.needs cursor.pos) :
    request.perform cursor = ⟨request, cursor,
      .ok (request.answer (cursor.rest.take (request.needs cursor.pos))),
      ⟨cursor.pos + request.consumes cursor.pos,
        cursor.rest.drop (request.consumes cursor.pos)⟩⟩ := by
  simp only [perform, run_eq, if_neg h]

variable (hc : cursor.In buffer)
include hc

theorem perform_sound : (request.perform cursor).Sound buffer := by
  have hlength := hc.length_rest
  have hpos := hc.pos_le
  have hfew := request.consumes_le_needs cursor.pos
  by_cases hshort : cursor.rest.length < request.needs cursor.pos
  · rw [perform_of_short request hshort]
    refine ⟨⟨hpos, hpos⟩, ⟨fun _ => by dsimp only; omega, fun _ => ⟨_, rfl⟩⟩, ?_, nofun⟩
    intro error herror
    cases herror
    exact ⟨rfl, rfl⟩
  · rw [perform_of_enough request hshort]
    refine ⟨⟨hpos, by dsimp only; omega⟩, ⟨nofun, fun h => ?_⟩, nofun, ?_⟩
    · dsimp only at h
      omega
    · intro answer hanswer
      cases hanswer
      rw [hc.rest_eq]
      exact ⟨by dsimp only; omega, rfl, rfl⟩

/-- The cursor stays in the buffer, and never goes back. -/
theorem perform_in :
    (request.perform cursor).after.In buffer ∧ cursor.pos ≤ (request.perform cursor).after.pos := by
  have hlength := hc.length_rest
  have hpos := hc.pos_le
  have hfew := request.consumes_le_needs cursor.pos
  by_cases hshort : cursor.rest.length < request.needs cursor.pos
  · rw [perform_of_short request hshort]
    exact ⟨hc, Nat.le_refl _⟩
  · rw [perform_of_enough request hshort]
    refine ⟨⟨by dsimp only; omega, ?_⟩, Nat.le_add_right _ _⟩
    rw [hc.rest_eq, List.drop_drop]

end Request

theorem before_perform (request : Request) (cursor : Cursor) :
    (request.perform cursor).before = cursor ∧ (request.perform cursor).request = request := by
  unfold Request.perform
  cases request.run cursor with
  | ok answer after => exact ⟨rfl, rfl⟩
  | error error after => exact ⟨rfl, rfl⟩

theorem request_mem_of_mem_trace (cursor : Cursor) (requests : List Request) :
    ∀ step ∈ trace cursor requests, step.request ∈ requests := by
  induction requests generalizing cursor with
  | nil => exact List.forall_mem_nil _
  | cons request rest ih =>
      refine List.forall_mem_cons.mpr ⟨?_, fun step hstep => ?_⟩
      · rw [(before_perform request cursor).2]
        exact List.mem_cons_self
      · exact List.mem_cons_of_mem _ (ih _ step hstep)

section Runs

variable {buffer : Bytes} {cursor : Cursor} (hc : cursor.In buffer) (requests : List Request)
include hc

theorem trace_sound : ∀ step ∈ trace cursor requests, step.Sound buffer := by
  induction requests generalizing cursor with
  | nil => exact List.forall_mem_nil _
  | cons request rest ih =>
      exact List.forall_mem_cons.mpr
        ⟨request.perform_sound hc, ih (request.perform_in hc).1⟩

theorem le_before_of_mem_trace :
    ∀ step ∈ trace cursor requests, cursor.pos ≤ step.before.pos := by
  induction requests generalizing cursor with
  | nil => exact List.forall_mem_nil _
  | cons request rest ih =>
      obtain ⟨hafter, hle⟩ := request.perform_in hc
      refine List.forall_mem_cons.mpr ⟨?_, fun step hstep => ?_⟩
      · rw [(before_perform request cursor).1]
      · exact Nat.le_trans hle (ih hafter step hstep)

theorem trace_pairwise :
    (trace cursor requests).Pairwise fun first second => first.after.pos ≤ second.before.pos := by
  induction requests generalizing cursor with
  | nil => exact .nil
  | cons request rest ih =>
      obtain ⟨hafter, -⟩ := request.perform_in hc
      exact .cons (le_before_of_mem_trace hafter rest) (ih hafter)

theorem le_finish : cursor.pos ≤ (finish cursor requests).pos := by
  induction requests generalizing cursor with
  | nil => exact Nat.le_refl _
  | cons request rest ih =>
      obtain ⟨hafter, hle⟩ := request.perform_in hc
      exact Nat.le_trans hle (ih hafter)

/-- By the requests: what a run consumes is what its first step consumes and then the rest. -/
theorem flatten_pieces :
    ((trace cursor requests).map (Step.piece buffer)).flatten =
      (buffer.drop cursor.pos).take ((finish cursor requests).pos - cursor.pos) := by
  induction requests generalizing cursor with
  | nil =>
      have hsame : (finish cursor []).pos - cursor.pos = 0 := Nat.sub_self _
      rw [hsame, List.take_zero]
      rfl
  | cons request rest ih =>
      obtain ⟨hafter, hle⟩ := request.perform_in hc
      have hmore := le_finish hafter rest
      have hsplit : (finish cursor (request :: rest)).pos - cursor.pos =
          ((request.perform cursor).after.pos - cursor.pos) +
            ((finish (request.perform cursor).after rest).pos -
              (request.perform cursor).after.pos) := by
        show (finish (request.perform cursor).after rest).pos - cursor.pos = _
        omega
      have hdrop : cursor.pos + ((request.perform cursor).after.pos - cursor.pos) =
          (request.perform cursor).after.pos := by omega
      rw [trace, List.map_cons, List.flatten_cons, ih hafter, hsplit, List.take_add, List.drop_drop,
        hdrop, Step.piece, (before_perform request cursor).1]

end Runs

/--
Whatever is asked of a cursor, and in whatever order, it stays in its buffer. A request fails
exactly if fewer bytes are left than it needs, then for this reason and without moving. Otherwise
the bytes that it needs are there, it is answered from them, and the cursor moves behind those that
it consumes; aligning ends at the next multiple. The sum of a position and of the bytes needed
behind it fits into 64 bits whenever it is made use of. The pieces that were consumed lie one after
the other and make up the buffer up to where the run ends.
-/
theorem trace_keeps_bounds (buffer : Bytes) (fits : buffer.length < 2 ^ 64)
    (requests : List Request) (aligned : ∀ unit, .align unit ∈ requests → 0 < unit) :
    (∀ step ∈ trace (.start buffer) requests, step.Sound buffer ∧
      (∀ unit, step.request = .align unit →
        IsLeast {stop | step.before.pos ≤ stop ∧ unit ∣ stop}
          (step.before.pos + step.request.needs step.before.pos)) ∧
      (∀ answer, step.result = .ok answer →
        (UInt64.ofNat step.before.pos +
          UInt64.ofNat (step.request.needs step.before.pos)).toNat =
            step.before.pos + step.request.needs step.before.pos)) ∧
    (trace (.start buffer) requests).Pairwise
      (fun first second => first.after.pos ≤ second.before.pos) ∧
    ((trace (.start buffer) requests).map (Step.piece buffer)).flatten =
      buffer.take (finish (.start buffer) requests).pos := by
  have hstart := Cursor.start_in buffer
  refine ⟨fun step hstep => ?_, trace_pairwise hstart requests, flatten_pieces hstart requests⟩
  have hsound := trace_sound hstart requests step hstep
  refine ⟨hsound, fun unit hunit => ?_, fun answer hanswer => ?_⟩
  · have hmem := request_mem_of_mem_trace _ requests step hstep
    rw [hunit] at hmem ⊢
    exact Request.isLeast_align (aligned unit hmem) _
  · have hle := (hsound.success answer hanswer).1
    have hsize : UInt64.size = 2 ^ 64 := rfl
    rw [UInt64.toNat_add, UInt64.toNat_ofNat_of_lt' (by omega),
      UInt64.toNat_ofNat_of_lt' (by omega)]
    exact Nat.mod_eq_of_lt (by omega)

/-- A number, a request that asks for too much, the padding up to the next word, the number behind
it, and a look at the byte that is not there. -/
def paddedRequests : List Request :=
  [.word .u1, .skip (2 ^ 64 - 1), .align 4, .word .i2, .peek]

theorem trace_keeps_bounds_padded :
    (∀ step ∈ trace (.start [1, 2, 3, 4, 255, 254]) paddedRequests,
      step.Sound [1, 2, 3, 4, 255, 254]) ∧
    (trace (.start [1, 2, 3, 4, 255, 254]) paddedRequests).map Step.result =
      [.ok (.number 1), .error .truncated, .ok .done, .ok (.number (-2)), .error .truncated] ∧
    (finish (.start [1, 2, 3, 4, 255, 254]) paddedRequests).pos = 6 := by
  have haligned : ∀ unit, .align unit ∈ paddedRequests → 0 < unit := by
    simp [paddedRequests]
  have hrun := trace_keeps_bounds [1, 2, 3, 4, 255, 254] (by decide) paddedRequests haligned
  exact ⟨fun step hstep => (hrun.1 step hstep).1, by decide, by decide⟩

end ClassListing
