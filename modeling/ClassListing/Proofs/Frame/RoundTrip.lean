import ClassListing.Proofs.Frame.Encoding

/-!
# Reading stack map tables

Reading a table gives the frames that were written, with the names of the classes, and every table
that can be read was written in this way. There is one lemma for each branch on the first byte of a
type or a frame.
-/

namespace ClassListing

open Decoder

namespace VerificationType

def fieldGrammar (pool : Pool) : UInt8 → Grammar VerificationType :=
  .behind Raw.tag Raw.fields (Raw.Denotes pool)

variable {pool : Pool} {tag : UInt8}

theorem simple_reads (kind : Simple) (ht : tag.toNat = kind.tag.toNat) :
    Reads (pure kind.type) (fieldGrammar pool tag) := by
  obtain rfl := UInt8.toNat_inj.mp ht
  refine (Reads.pure kind.type).congr fun _ type used => ?_
  constructor
  · intro h
    rcases h with ⟨rfl, rfl⟩
    exact ⟨.simple kind, rfl, rfl, .simple kind⟩
  · intro h
    rcases h with ⟨raw, htag, rfl, hmeans⟩
    cases hmeans with
    | simple other => exact ⟨congrArg Simple.type (Simple.tag_inj htag), rfl⟩
    | object => cases kind <;> cases htag
    | uninitialized => cases kind <;> cases htag

theorem object_reads (ht : tag.toNat = 7) :
    Reads (do return .object (← reference pool.className)) (fieldGrammar pool tag) := by
  obtain rfl : tag = 7 := UInt8.toNat_inj.mp ht
  refine (Reads.map (.reference pool.className) VerificationType.object).congr
    fun _ type used => ?_
  constructor
  · intro h
    rcases h with ⟨name, rfl, index, rfl, hname⟩
    obtain ⟨text, hclass, htext⟩ := Pool.className_eq_ok_iff.mp hname
    exact ⟨.object index, rfl, rfl, .object hclass htext⟩
  · intro h
    rcases h with ⟨raw, htag, rfl, hmeans⟩
    cases hmeans with
    | simple kind => cases kind <;> cases htag
    | object hclass htext =>
        exact ⟨_, rfl, _, rfl, Pool.className_eq_ok_iff.mpr ⟨_, hclass, htext⟩⟩
    | uninitialized => cases htag

theorem uninitialized_reads (ht : tag.toNat = 8) :
    Reads (do return .uninitialized (← u2)) (fieldGrammar pool tag) := by
  obtain rfl : tag = 8 := UInt8.toNat_inj.mp ht
  refine (Reads.map .u2 VerificationType.uninitialized).congr fun _ type used => ?_
  constructor
  · intro h
    rcases h with ⟨offset, rfl, rfl⟩
    exact ⟨.uninitialized offset, rfl, rfl, .uninitialized offset⟩
  · intro h
    rcases h with ⟨raw, htag, rfl, hmeans⟩
    cases hmeans with
    | simple kind => cases kind <;> cases htag
    | object => cases htag
    | uninitialized offset => exact ⟨offset, rfl, rfl⟩

theorem decode_reads (pool : Pool) :
    Reads (decode pool) (.coded Raw.encode (Raw.Denotes pool)) := by
  refine .headed fun tag => ?_
  split
  · exact simple_reads .top ‹_›
  · exact simple_reads .integer ‹_›
  · exact simple_reads .float ‹_›
  · exact simple_reads .double ‹_›
  · exact simple_reads .long ‹_›
  · exact simple_reads .null ‹_›
  · exact simple_reads .uninitializedThis ‹_›
  · exact object_reads ‹_›
  · exact uninitialized_reads ‹_›
  · refine (Reads.throw _).congr fun _ type used => ⟨False.elim, ?_⟩
    intro h
    rcases h with ⟨raw, rfl, -, -⟩
    cases raw with
    | simple kind => cases kind <;> simp_all [Raw.tag, Simple.tag]
    | object => simp_all [Raw.tag]
    | uninitialized => simp_all [Raw.tag]

/-- The early look at the bytes that are left refuses nothing. -/
theorem decodeMany_reads (pool : Pool) (count : Nat) :
    Reads (decodeMany pool count) (.row Raw.encode (Raw.Denotes pool) count) := by
  refine Reads.ensure_bind ((decode_reads pool).row count) fun _ types used h => ?_
  rcases h with ⟨raws, rfl, rfl, -⟩
  exact Raw.length_le_flatMap_encode raws

end VerificationType

namespace Frame

def bodyGrammar (pool : Pool) (type : UInt8) : Grammar Frame := fun _ frame used =>
  ∃ raw : Raw, raw.number = type.toNat ∧ raw.Fits ∧ used = raw.body ∧ raw.Denotes pool frame

variable {pool : Pool} {type : UInt8}

theorem same_reads (hu : type.toNat < 64) :
    Reads (pure (.same type.toUInt16 false)) (bodyGrammar pool type) := by
  have hword : type.toUInt16.toNat = type.toNat := UInt8.toNat_toUInt16 type
  refine (Reads.pure _).congr fun _ frame used => ?_
  constructor
  · intro h
    rcases h with ⟨rfl, rfl⟩
    refine ⟨.same type.toUInt16, hword, ?_, rfl, .same _⟩
    rw [Raw.Fits, hword]
    omega
  · intro h
    rcases h with ⟨raw, hnumber, hfits, rfl, hmeans⟩
    cases hmeans with
    | same delta =>
        have hdelta : delta = type.toUInt16 := UInt16.toNat_inj.mp (hnumber.trans hword.symm)
        rw [hdelta]
        exact ⟨rfl, rfl⟩
    | _ => simp only [Raw.number, Raw.Fits] at hnumber hfits; omega

theorem sameLocals_reads (hl : 64 ≤ type.toNat) (hu : type.toNat < 128) :
    Reads (do return .sameLocals (type - 64).toUInt16 (← VerificationType.decode pool) false)
      (bodyGrammar pool type) := by
  have hword : (type - 64).toUInt16.toNat = type.toNat - 64 := by
    rw [UInt8.toNat_toUInt16, UInt8.toNat_sub_of_le _ _ hl]
    rfl
  refine (Reads.map (VerificationType.decode_reads pool) fun stack =>
    Frame.sameLocals (type - 64).toUInt16 stack false).congr fun _ frame used => ?_
  constructor
  · intro h
    rcases h with ⟨stack, rfl, raw, rfl, hstack⟩
    refine ⟨.sameLocals (type - 64).toUInt16 raw, ?_, ?_, rfl, .sameLocals _ hstack⟩
    · rw [Raw.number, hword]
      omega
    · rw [Raw.Fits, hword]
      omega
  · intro h
    rcases h with ⟨raw, hnumber, hfits, rfl, hmeans⟩
    cases hmeans with
    | sameLocals delta hstack =>
        have hdelta : delta = (type - 64).toUInt16 := by
          apply UInt16.toNat_inj.mp
          rw [hword, ← hnumber, Raw.number, Nat.add_sub_cancel_left]
        rw [hdelta]
        exact ⟨_, rfl, _, rfl, hstack⟩
    | _ => simp only [Raw.number, Raw.Fits] at hnumber hfits; omega

theorem sameLocalsExtended_reads (ht : type.toNat = 247) :
    Reads (do return .sameLocals (← u2) (← VerificationType.decode pool) true)
      (bodyGrammar pool type) := by
  refine (Reads.bind .u2 fun delta => .map (VerificationType.decode_reads pool) fun stack =>
    Frame.sameLocals delta stack true).congr fun _ frame used => ?_
  constructor
  · intro h
    rcases h with ⟨delta, _, _, rfl, rfl, stack, rfl, raw, rfl, hstack⟩
    exact ⟨.sameLocalsExtended delta raw, ht.symm, trivial, rfl, .sameLocalsExtended _ hstack⟩
  · intro h
    rcases h with ⟨raw, hnumber, hfits, rfl, hmeans⟩
    cases hmeans with
    | sameLocalsExtended delta hstack =>
        exact ⟨delta, _, _, rfl, rfl, _, rfl, _, rfl, hstack⟩
    | _ => simp only [Raw.number, Raw.Fits] at hnumber hfits; omega

theorem chop_reads (hl : 247 < type.toNat) (hu : type.toNat < 251) :
    Reads (do return .chop (← u2) (251 - type)) (bodyGrammar pool type) := by
  have hcount : (251 - type).toNat = 251 - type.toNat :=
    UInt8.toNat_sub_of_le _ _ (Nat.le_of_lt hu)
  refine (Reads.map .u2 fun delta => Frame.chop delta (251 - type)).congr fun _ frame used => ?_
  constructor
  · intro h
    rcases h with ⟨delta, rfl, rfl⟩
    refine ⟨.chop delta (251 - type), ?_, ?_, rfl, .chop _ _⟩
    · rw [Raw.number, hcount]
      omega
    · rw [Raw.Fits, hcount]
      omega
  · intro h
    rcases h with ⟨raw, hnumber, hfits, rfl, hmeans⟩
    cases hmeans with
    | chop delta count =>
        have hsame : count = 251 - type := by
          apply UInt8.toNat_inj.mp
          simp only [Raw.number, Raw.Fits] at hnumber hfits
          omega
        rw [hsame]
        exact ⟨delta, rfl, rfl⟩
    | _ => simp only [Raw.number, Raw.Fits] at hnumber hfits; omega

theorem sameExtended_reads (ht : type.toNat = 251) :
    Reads (do return .same (← u2) true) (bodyGrammar pool type) := by
  refine (Reads.map .u2 fun delta => Frame.same delta true).congr fun _ frame used => ?_
  constructor
  · intro h
    rcases h with ⟨delta, rfl, rfl⟩
    exact ⟨.sameExtended delta, ht.symm, trivial, rfl, .sameExtended _⟩
  · intro h
    rcases h with ⟨raw, hnumber, hfits, rfl, hmeans⟩
    cases hmeans with
    | sameExtended delta => exact ⟨delta, rfl, rfl⟩
    | _ => simp only [Raw.number, Raw.Fits] at hnumber hfits; omega

theorem append_reads (hl : 251 < type.toNat) (hu : type.toNat < 255) :
    Reads (do return .append (← u2) (← VerificationType.decodeMany pool (type - 251).toNat))
      (bodyGrammar pool type) := by
  have hcount : (type - 251).toNat = type.toNat - 251 :=
    UInt8.toNat_sub_of_le _ _ (Nat.le_of_lt hl)
  refine (Reads.bind .u2 fun delta => .map (VerificationType.decodeMany_reads pool _) fun locals =>
    Frame.append delta locals).congr fun _ frame used => ?_
  constructor
  · intro h
    rcases h with ⟨delta, _, _, rfl, rfl, locals, rfl, raws, hlength, rfl, hlocals⟩
    refine ⟨.append delta raws, ?_, ?_, rfl, .append _ hlocals⟩
    · rw [Raw.number]
      omega
    · rw [Raw.Fits]
      omega
  · intro h
    rcases h with ⟨raw, hnumber, hfits, rfl, hmeans⟩
    cases hmeans with
    | append delta hlocals =>
        rw [Raw.number] at hnumber
        exact ⟨delta, _, _, rfl, rfl, _, rfl, _, by omega, rfl, hlocals⟩
    | _ => simp only [Raw.number, Raw.Fits] at hnumber hfits; omega

theorem reserved_reads (error : Error) (hl : 128 ≤ type.toNat) (hu : type.toNat < 247) :
    Reads (throw error) (bodyGrammar pool type) := by
  refine (Reads.throw error).congr fun _ frame used => ⟨False.elim, ?_⟩
  intro h
  rcases h with ⟨raw, hnumber, hfits, -, -⟩
  have hrange := hfits.not_reserved
  omega

theorem full_reads (ht : type.toNat = 255) :
    Reads (do
        let delta ← u2
        let locals ← VerificationType.decodeMany pool (← u2).toNat
        let stack ← VerificationType.decodeMany pool (← u2).toNat
        return .full delta locals stack)
      (bodyGrammar pool type) := by
  have hlist := Reads.counted (VerificationType.decodeMany_reads pool)
  have hparts := Reads.bind .u2 fun delta => hlist.bind fun locals => hlist.map fun stack =>
    Frame.full delta locals stack
  -- A list and the count in front of it are one reading only after regrouping.
  simp only [bind_assoc] at hparts
  refine hparts.congr fun _ frame used => ?_
  constructor
  · intro h
    rcases h with ⟨delta, _, _, rfl, rfl, locals, _, _, rfl, ⟨rawLocals, hfew, rfl, hlocals⟩,
      stack, rfl, rawStack, hfew', rfl, hstack⟩
    exact ⟨.full delta rawLocals rawStack, ht.symm, ⟨hfew, hfew'⟩, rfl, .full _ hlocals hstack⟩
  · intro h
    rcases h with ⟨raw, hnumber, hfits, rfl, hmeans⟩
    cases hmeans with
    | full delta hlocals hstack =>
        exact ⟨delta, _, _, rfl, rfl, _, _, _, rfl, ⟨_, hfits.1, rfl, hlocals⟩, _, rfl, _, hfits.2,
          rfl, hstack⟩
    | _ => simp only [Raw.number, Raw.Fits] at hnumber hfits; omega

theorem decode_reads (pool : Pool) :
    Reads (decode pool) (.coded Raw.encode fun raw frame => raw.Fits ∧ raw.Denotes pool frame) := by
  refine .headed fun type => .congr (?_ : Reads _ (bodyGrammar pool type)) fun _ frame used => ?_
  · split_ifs with hsame hone hreserved hextended hchop hlong happend
    · exact same_reads hsame
    · exact sameLocals_reads (Nat.le_of_not_lt hsame) hone
    · exact reserved_reads _ (Nat.le_of_not_lt hone) hreserved
    · exact sameLocalsExtended_reads (congrArg UInt8.toNat hextended)
    · have hl : 247 < type := by grind
      exact chop_reads hl hchop
    · exact sameExtended_reads (congrArg UInt8.toNat hlong)
    · have hl : 251 < type := by grind
      exact append_reads hl happend
    · have ht : type = 255 := by grind
      exact full_reads (congrArg UInt8.toNat ht)
  · constructor
    · intro h
      rcases h with ⟨raw, hnumber, hfits, rfl, hmeans⟩
      have htype : UInt8.ofNat raw.number = type := by rw [hnumber, UInt8.ofNat_toNat]
      exact ⟨raw, htype, rfl, hfits, hmeans⟩
    · intro h
      rcases h with ⟨raw, rfl, rfl, hfits, hmeans⟩
      exact ⟨raw, (UInt8.toNat_ofNat_of_lt' hfits.number_lt).symm, hfits, rfl, hmeans⟩

theorem decode_reserved (hl : 128 ≤ type) (hu : type ≤ 246) (pos : Nat) (rest : Bytes) :
    decode pool ⟨pos, type :: rest⟩ = .error (.format (.reservedFrame type)) ⟨pos + 1, rest⟩ := by
  have htype : u1 ⟨pos, type :: rest⟩ = .ok type ⟨pos + 1, rest⟩ := Reads.u1.complete rfl rest
  have hsame : ¬type < 64 := by grind
  have hone : ¬type < 128 := by grind
  have hreserved : type < 247 := by grind
  rw [decode, bind_of_ok htype, if_neg hsame, if_neg hone, if_pos hreserved]
  rfl

theorem decodeTable_of_denotes {raws : List Raw} {frames : List Frame} (few : raws.length < 2 ^ 16)
    (fits : ∀ raw ∈ raws, raw.Fits) (means : List.Forall₂ (Raw.Denotes pool) raws frames)
    (pos : Nat) (rest : Bytes) :
    decodeTable pool ⟨pos, Bytes.counted Raw.encode raws ++ rest⟩ =
      .ok frames ⟨pos + (Bytes.counted Raw.encode raws).length, rest⟩ := by
  have hreads : Reads (decodeTable pool) _ := .countedU2 (decode_reads pool)
  exact hreads.complete
    ⟨raws, few, rfl, (List.forall₂_and_left raws frames).mpr ⟨fits, means⟩⟩ rest

/--
Reading a table undoes writing it. Any frames that fit their forms, with classes that the pool has,
are read back with the names of the classes, and nothing behind them is touched. Whatever is read
was written so: the consumed bytes are the writing of the frames that were given, with indices for
the names. The numbers from 128 to 246 start no frame.
-/
theorem decodeTable_undoes_encoding (pool : Pool) :
    (∀ raws : List Raw, raws.length < 2 ^ 16 → (∀ raw ∈ raws, raw.Valid pool) →
      (∃ frames, List.Forall₂ (Raw.Denotes pool) raws frames) ∧
      ∀ frames, List.Forall₂ (Raw.Denotes pool) raws frames → ∀ pos rest,
        decodeTable pool ⟨pos, Bytes.counted Raw.encode raws ++ rest⟩ =
          .ok frames ⟨pos + (Bytes.counted Raw.encode raws).length, rest⟩) ∧
    (∀ pos bytes frames stopped, decodeTable pool ⟨pos, bytes⟩ = .ok frames stopped →
      ∃ raws : List Raw, raws.length < 2 ^ 16 ∧ (∀ raw ∈ raws, raw.Valid pool) ∧
        List.Forall₂ (Raw.Denotes pool) raws frames ∧
        bytes = Bytes.counted Raw.encode raws ++ stopped.rest ∧
        stopped.pos = pos + (Bytes.counted Raw.encode raws).length ∧
        ∀ raw ∈ raws, raw.number < 128 ∨ 246 < raw.number) ∧
    ∀ type : UInt8, 128 ≤ type → type ≤ 246 → ∀ pos rest,
      decode pool ⟨pos, type :: rest⟩ =
        .error (.format (.reservedFrame type)) ⟨pos + 1, rest⟩ := by
  have hreads : Reads (decodeTable pool) _ := .countedU2 (decode_reads pool)
  refine ⟨fun raws few valid => ?_, fun pos bytes frames stopped h => ?_,
    fun type hl hu => decode_reserved hl hu⟩
  · constructor
    · apply exists_forall₂_iff.mpr
      intro raw hraw
      exact Raw.exists_denotes_iff.mpr (valid raw hraw).classes
    · intro frames hframes
      exact decodeTable_of_denotes few (fun raw hraw => (valid raw hraw).fits) hframes
  · obtain ⟨_, ⟨raws, few, rfl, hmeans⟩, hbytes, hpos⟩ := (hreads pos bytes frames stopped).mp h
    obtain ⟨hfits, hframes⟩ := (List.forall₂_and_left raws frames).mp hmeans
    have hclasses := exists_forall₂_iff.mp ⟨frames, hframes⟩
    refine ⟨raws, few, fun raw hraw => ?_, hframes, hbytes, hpos, fun raw hraw => ?_⟩
    · exact ⟨hfits raw hraw, Raw.exists_denotes_iff.mp (hclasses raw hraw)⟩
    · exact (hfits raw hraw).not_reserved

def stringPool : Pool := ⟨#[none, some (.utf8 "java/lang/String"), some (.classInfo 1)], []⟩

def rawAllForms : List Raw :=
  [.same 5, .sameLocals 2 (.simple .integer), .chop 7 2, .sameExtended 300,
    .append 4 [.simple .integer, .simple .float],
    .full 9 [.object 2, .simple .long] [.uninitialized 3], .sameLocalsExtended 64 (.object 2)]

def allFormsBytes : Bytes :=
  [0, 7, 5, 66, 1, 249, 0, 7, 251, 1, 44, 253, 0, 4, 1, 2, 255, 0, 9, 0, 2, 7, 0, 2, 4, 0, 1, 8, 0,
    3, 247, 0, 64, 7, 0, 2]

def allForms : List Frame :=
  [.same 5 false, .sameLocals 2 .integer false, .chop 7 2, .same 300 true,
    .append 4 [.integer, .float],
    .full 9 [.object "java/lang/String", .long] [.uninitialized 3],
    .sameLocals 64 (.object "java/lang/String") true]

theorem stringPool_holdsClass : stringPool.HoldsClass 2 := ⟨1, rfl, "java/lang/String", rfl⟩

theorem rawAllForms_valid : ∀ raw ∈ rawAllForms, raw.Valid stringPool := by
  intro raw hraw
  constructor
  · revert raw
    simp [rawAllForms, Raw.Fits]
  · revert raw
    simp [rawAllForms, Raw.classes, Raw.types, VerificationType.Raw.classes, stringPool_holdsClass]

theorem rawAllForms_denotes :
    List.Forall₂ (Raw.Denotes stringPool) rawAllForms allForms := by
  have hstring : VerificationType.Raw.Denotes stringPool (.object 2) (.object "java/lang/String") :=
    .object rfl rfl
  exact .cons (.same 5) <| .cons (.sameLocals 2 (.simple .integer)) <| .cons (.chop 7 2) <|
    .cons (.sameExtended 300) <|
    .cons (.append 4 (.cons (.simple .integer) (.cons (.simple .float) .nil))) <|
    .cons (.full 9 (.cons hstring (.cons (.simple .long) .nil))
      (.cons (.uninitialized 3) .nil)) <|
    .cons (.sameLocalsExtended 64 hstring) .nil

theorem encode_rawAllForms : Bytes.counted Raw.encode rawAllForms = allFormsBytes := by decide

theorem decodeTable_undoes_encoding_sample :
    decodeTable stringPool ⟨0, allFormsBytes ++ [1]⟩ = .ok allForms ⟨36, [1]⟩ ∧
      (∃ raws, List.Forall₂ (Raw.Denotes stringPool) raws allForms ∧
        allFormsBytes = Bytes.counted Raw.encode raws) ∧
      decode stringPool ⟨0, [200]⟩ = .error (.format (.reservedFrame 200)) ⟨1, []⟩ := by
  obtain ⟨hwritten, hread, hreserved⟩ := decodeTable_undoes_encoding stringPool
  have hdecoded := (hwritten rawAllForms (by decide) rawAllForms_valid).2 allForms
    rawAllForms_denotes 0 [1]
  rw [encode_rawAllForms] at hdecoded
  obtain ⟨raws, -, -, hmeans, hused, -⟩ := hread _ _ _ _ hdecoded
  exact ⟨hdecoded, ⟨raws, hmeans, List.append_cancel_right hused⟩,
    hreserved 200 (by decide) (by decide) 0 []⟩

end Frame

end ClassListing
