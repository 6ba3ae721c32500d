import ClassListing.ClassFile
import ClassListing.Proofs.Attribute.Extension
import ClassListing.Proofs.Attribute.Fault

/-!
# Class files and the bytes behind them

A class file is read as a stream. Its bytes decide whether it is accepted, and if not for which
reason, and bytes behind them only add to what is left over. Hence no class file is the
beginning of another.
-/

namespace ClassListing

open Decoder Error

/-! ## The parts of a class file stream -/

theorem Constant.decodeFields_streams (index : Nat) (tag : UInt8) :
    Streams (Constant.decodeFields index tag) := by
  unfold Constant.decodeFields
  split
  · exact .bind .u2 fun length => .map (.text length.toNat) _
  · exact .map .i4 _
  · exact .map .u4 _
  · exact .map .i8 _
  · exact .map .u8 _
  · exact .map .u2 _
  · exact .map .u2 _
  · exact .bind .u2 fun _ => .map .u2 _
  · exact .bind .u2 fun _ => .map .u2 _
  · exact .bind .u2 fun _ => .map .u2 _
  · exact .bind .u2 fun _ => .map .u2 _
  · refine .bind .u1 fun kind => ?_
    split
    · exact .map .u2 _
    · exact .throw _
  · exact .map .u2 _
  · exact .bind .u2 fun _ => .map .u2 _
  · exact .bind .u2 fun _ => .map .u2 _
  · exact .map .u2 _
  · exact .map .u2 _
  · exact .throw _

theorem Constant.decode_streams (index : Nat) : Streams (Constant.decode index) :=
  .bind .u1 fun tag => Constant.decodeFields_streams index tag

theorem Pool.decodeSlots_streams (slots : Array (Option Constant)) (count : Nat) :
    Streams (Pool.decodeSlots slots count) := by
  induction slots, count using Pool.decodeSlots.induct with
  | case1 slots => exact .pure slots
  | case2 slots => exact .bind (Constant.decode_streams _) fun _ => .ite (.throw _) (.pure _)
  | case3 slots count ihWide ihNarrow =>
      exact .bind (Constant.decode_streams _) fun constant =>
        .ite (ihWide constant) (ihNarrow constant)

theorem Pool.decode_streams : Streams Pool.decode :=
  .bind .u2 fun _ => .ite (.throw _) (.map (Pool.decodeSlots_streams _ _) _)

theorem Member.decode_streams (pool : Pool) : Streams (Member.decode pool) :=
  .bind .u2 fun _ => .bind (.reference _) fun _ => .bind (.reference _) fun _ =>
    .map (Attribute.decodeWithin_streams pool _) _

namespace ClassFile

theorem decodeBody_streams : Streams decodeBody :=
  .bind .u2 fun _ => .bind .u2 fun _ => .bind Pool.decode_streams fun pool =>
    .bind .u2 fun _ => .bind (.reference _) fun _ => .bind (.reference _) fun _ =>
    .bind (.countedU2 (.reference _)) fun _ =>
    .bind (.countedU2 (Member.decode_streams pool)) fun _ =>
    .bind (.countedU2 (Member.decode_streams pool)) fun _ =>
    .map (Attribute.decodeWithin_streams pool _) _

theorem decodeFirst_streams : Streams decodeFirst :=
  .bind .u4 fun _ => .ite (.throw _) decodeBody_streams

theorem decodeBody_blames : Decoder.Blames OfContent decodeBody := by
  have hclass (pool : Pool) : Decoder.Blames OfContent (reference pool.className) :=
    .referenceTo pool.className_blames
  have hmembers (pool : Pool) : Decoder.Blames OfContent (countedU2 (Member.decode pool)) :=
    .countedU2 trivial (.bind (.u2 trivial) fun _ => .bind (.referenceTo pool.utf8_blames) fun _ =>
      .bind (.referenceTo pool.utf8_blames) fun _ =>
      .map (Attribute.decodeWithin_blames pool _) _)
  exact .bind (.u2 trivial) fun _ => .bind (.u2 trivial) fun _ =>
    .bind Pool.decode_blames fun pool => .bind (.u2 trivial) fun _ => .bind (hclass pool) fun _ =>
    .bind (.referenceTo (Pool.optional_blames pool.className_blames)) fun _ =>
    .bind (.countedU2 trivial (hclass pool)) fun _ => .bind (hmembers pool) fun _ =>
    .bind (hmembers pool) fun _ => .map (Attribute.decodeWithin_blames pool _) _

/-- Left-over bytes are blamed only after the class file, so never by its own decoder. -/
theorem decodeFirst_blames : Decoder.Blames (fun error => ∀ count, error ≠ .trailing count)
    decodeFirst := by
  refine .bind (.u4 nofun) fun _ => .ite (.throw nofun) (decodeBody_blames.mono ?_)
  intro error hcontent count h
  subst h
  exact hcontent

/-! ## The verdict on a byte string -/

theorem parse_of_ok {bytes : Bytes} {file : ClassFile} {stopped : Cursor}
    (hl : 4 ≤ bytes.length) (h : decodeFirst (.start bytes) = .ok file stopped) :
    parse bytes =
      if stopped.rest = [] then .ok file else .error (.trailing stopped.rest.length) := by
  have hrun : decode (.start bytes) =
      if stopped.rest = [] then .ok file stopped
      else .error (.trailing stopped.rest.length) stopped := by
    rw [decode, bind_of_ok h, remaining_bind]
    by_cases hr : stopped.rest = []
    · simp only [hr, List.length_nil, ne_eq, not_true_eq_false, if_false, if_true, pure_run]
    · have hne : stopped.rest.length ≠ 0 := by simpa using hr
      simp only [hr, hne, ne_eq, not_false_eq_true, if_false, if_true, throw_bind, throw_run]
  simp only [parse, Nat.not_lt.mpr hl, if_false, runOn, EStateM.run, hrun]
  by_cases hr : stopped.rest = []
  · simp only [hr, if_true]
  · simp only [hr, if_false]

theorem parse_of_error {bytes : Bytes} {error : Error} {stopped : Cursor}
    (hl : 4 ≤ bytes.length) (h : decodeFirst (.start bytes) = .error error stopped) :
    parse bytes = .error error := by
  have hrun : decode (.start bytes) = .error error stopped := by
    rw [decode, bind_of_error h]
  simp only [parse, Nat.not_lt.mpr hl, if_false, runOn, EStateM.run, hrun]

/-- A byte string of at least four bytes is refused either by the decoder of its first class
file, for a reason other than left-over bytes, or for the bytes that the decoder left over. -/
theorem parse_cases {bytes : Bytes} (hl : 4 ≤ bytes.length) :
    (∃ file stopped, decodeFirst (.start bytes) = .ok file stopped ∧ parse bytes =
      if stopped.rest = [] then .ok file else .error (.trailing stopped.rest.length)) ∨
    (∃ error stopped, decodeFirst (.start bytes) = .error error stopped ∧
      (∀ count, error ≠ .trailing count) ∧ parse bytes = .error error) := by
  cases h : decodeFirst (.start bytes) with
  | ok file stopped => exact .inl ⟨file, stopped, rfl, parse_of_ok hl h⟩
  | error error stopped =>
      exact .inr ⟨error, stopped, rfl, decodeFirst_blames _ _ _ h, parse_of_error hl h⟩

section Append

variable {bytes suffix : Bytes} (hl : 4 ≤ bytes.length) (hs : suffix ≠ [])
include hl hs

theorem parse_append_of_ok {file : ClassFile} (h : parse bytes = .ok file) :
    parse (bytes ++ suffix) = .error (.trailing suffix.length) := by
  have hl' : 4 ≤ (bytes ++ suffix).length := by rw [List.length_append]; omega
  obtain ⟨found, stopped, hd, hp⟩ | ⟨error, stopped, hd, hne, hp⟩ := parse_cases hl
  · rw [hp] at h
    split at h <;> cases h
    rename_i hr
    have he := parse_of_ok hl' (decodeFirst_streams.value suffix hd)
    simpa only [Cursor.extend_rest, hr, List.nil_append, if_neg hs] using he
  · rw [hp] at h
    cases h

theorem parse_append_of_trailing {count : Nat} (h : parse bytes = .error (.trailing count)) :
    parse (bytes ++ suffix) = .error (.trailing (count + suffix.length)) := by
  have hl' : 4 ≤ (bytes ++ suffix).length := by rw [List.length_append]; omega
  obtain ⟨found, stopped, hd, hp⟩ | ⟨error, stopped, hd, hne, hp⟩ := parse_cases hl
  · rw [hp] at h
    split at h <;> cases h
    have he := parse_of_ok hl' (decodeFirst_streams.value suffix hd)
    have hr : stopped.rest ++ suffix ≠ [] := by simp [hs]
    simpa only [Cursor.extend_rest, if_neg hr, List.length_append] using he
  · rw [hp] at h
    cases h
    exact (hne count rfl).elim

omit hs in
theorem parse_append_of_error {error : Error} (h : parse bytes = .error error)
    (ht : error ≠ .truncated) (hn : ∀ count, error ≠ .trailing count) :
    parse (bytes ++ suffix) = .error error := by
  have hl' : 4 ≤ (bytes ++ suffix).length := by rw [List.length_append]; omega
  obtain ⟨found, stopped, hd, hp⟩ | ⟨cause, stopped, hd, hne, hp⟩ := parse_cases hl
  · rw [hp] at h
    split at h <;> cases h
    exact (hn _ rfl).elim
  · rw [hp] at h
    cases h
    exact parse_of_error hl' (decodeFirst_streams.fault suffix hd ht)

end Append

theorem parse_of_length_lt {bytes : Bytes} (hl : bytes.length < 4) :
    parse bytes = .error (.notAClassFile (leadingWord bytes)) := by
  simp only [parse, hl, if_true]

/-- An accepted byte string has at least the four bytes of the magic number. -/
theorem length_of_parse_ok {bytes : Bytes} {file : ClassFile} (h : parse bytes = .ok file) :
    4 ≤ bytes.length := by
  by_cases hl : bytes.length < 4
  · rw [parse_of_length_lt hl] at h
    cases h
  · omega

/-- What is cut off from an accepted byte string is missed. -/
theorem parse_front_of_ok {front back : Bytes} {file : ClassFile}
    (h : parse (front ++ back) = .ok file) (hb : back ≠ []) (hl : 4 ≤ front.length) :
    parse front = .error .truncated := by
  cases hp : parse front with
  | ok found =>
      rw [parse_append_of_ok hl hb hp] at h
      cases h
  | error error =>
      cases error with
      | truncated => rfl
      | trailing count =>
          rw [parse_append_of_trailing hl hb hp] at h
          cases h
      | _ =>
          rw [parse_append_of_error hl hp nofun nofun] at h
          cases h

/--
The verdict on a byte string is final. More bytes are left over, or add to those left over, or
leave the error as it is; conversely every proper front of an accepted byte string lacks bytes,
so no accepted byte string is the front of another.
-/
theorem parse_verdict_final (bytes : Bytes) :
    (∀ suffix : Bytes, 4 ≤ bytes.length → suffix ≠ [] →
      (∀ file, parse bytes = .ok file →
        parse (bytes ++ suffix) = .error (.trailing suffix.length)) ∧
      (∀ count, parse bytes = .error (.trailing count) →
        parse (bytes ++ suffix) = .error (.trailing (count + suffix.length))) ∧
      (∀ error, parse bytes = .error error → error ≠ .truncated →
        (∀ count, error ≠ .trailing count) → parse (bytes ++ suffix) = .error error)) ∧
    (∀ file front back, parse bytes = .ok file → bytes = front ++ back → back ≠ [] →
      (4 ≤ front.length → parse front = .error .truncated) ∧
      (front.length < 4 → parse front = .error (.notAClassFile (leadingWord front)))) ∧
    (∀ file longer other, parse bytes = .ok file → parse longer = .ok other →
      bytes <+: longer → bytes = longer) := by
  refine ⟨?_, ?_, ?_⟩
  · intro suffix hl hs
    exact ⟨fun _ => parse_append_of_ok hl hs, fun _ => parse_append_of_trailing hl hs,
      fun _ => parse_append_of_error hl⟩
  · rintro file front back h rfl hb
    exact ⟨parse_front_of_ok h hb, parse_of_length_lt⟩
  · intro file longer other h ho h
    rcases h with ⟨back, rfl⟩
    by_cases hb : back = []
    · rw [hb, List.append_nil]
    · rw [parse_append_of_ok (length_of_parse_ok h) hb h] at ho
      cases ho

def smallest : Bytes :=
  [0xCA, 0xFE, 0xBA, 0xBE, 0, 0, 0, 65, 0, 3, 7, 0, 2, 1, 0, 1, 65, 0, 0x20, 0, 1, 0, 0,
    0, 0, 0, 0, 0, 0, 0, 0]

theorem parse_verdict_final_smallest :
    (∃ file, parse smallest = .ok file) ∧
      parse (smallest ++ [7, 7]) = .error (.trailing 2) ∧
      parse (smallest.take 30) = .error .truncated := by
  obtain ⟨file, h⟩ : ∃ file, parse smallest = .ok file := ⟨_, rfl⟩
  obtain ⟨happend, hfront, -⟩ := parse_verdict_final smallest
  refine ⟨⟨file, h⟩, (happend [7, 7] (by decide) (by decide)).1 file h, ?_⟩
  exact (hfront file (smallest.take 30) (smallest.drop 30) h (by decide) (by decide)).1 (by decide)

end ClassFile

end ClassListing
