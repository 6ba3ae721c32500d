import ClassListing.Frame
import ClassListing.Proofs.Constant.References
import ClassListing.Proofs.Cursor.Grammar

/-!
# Stack map tables as they are written

A frame takes one of seven forms, and the number that it starts with tells the form. Its types are
written with the indices of their classes; they stand for types with the names of these classes.
-/

namespace ClassListing

theorem exists_forall₂_iff {means : ρ → α → Prop} {items : List ρ} :
    (∃ values, List.Forall₂ means items values) ↔ ∀ item ∈ items, ∃ value, means item value := by
  induction items with
  | nil => simp
  | cons item items ih =>
      rw [List.forall_mem_cons, ← ih]
      constructor
      · intro h
        obtain ⟨_, hvalues⟩ := h
        cases hvalues with
        | cons hvalue hvalues => exact ⟨⟨_, hvalue⟩, _, hvalues⟩
      · intro h
        rcases h with ⟨⟨value, hvalue⟩, values, hvalues⟩
        exact ⟨value :: values, .cons hvalue hvalues⟩

namespace VerificationType

/-- The types that are a tag and nothing else. -/
inductive Simple
  | top | integer | float | double | long | null | uninitializedThis
deriving DecidableEq

namespace Simple

def tag : Simple → UInt8
  | .top => 0
  | .integer => 1
  | .float => 2
  | .double => 3
  | .long => 4
  | .null => 5
  | .uninitializedThis => 6

def type : Simple → VerificationType
  | .top => .top
  | .integer => .integer
  | .float => .float
  | .double => .double
  | .long => .long
  | .null => .null
  | .uninitializedThis => .uninitializedThis

theorem tag_inj {kind other : Simple} (h : kind.tag = other.tag) : kind = other := by
  revert h
  cases kind <;> cases other <;> decide

end Simple

/-- A type whose class is an index. -/
inductive Raw
  | simple (kind : Simple)
  | object (index : UInt16)
  | uninitialized (offset : UInt16)

namespace Raw

def tag : Raw → UInt8
  | .simple kind => kind.tag
  | .object _ => 7
  | .uninitialized _ => 8

def fields : Raw → Bytes
  | .simple _ => []
  | .object word | .uninitialized word => Bytes.ofNat 2 word.toNat

def encode (raw : Raw) : Bytes := raw.tag :: raw.fields

theorem length_le_flatMap_encode (raws : List Raw) :
    raws.length ≤ (raws.flatMap encode).length := by
  induction raws with
  | nil => simp
  | cons raw raws ih =>
      rw [List.flatMap_cons, List.length_append, List.length_cons, encode, List.length_cons]
      omega

def classes : Raw → List UInt16
  | .object index => [index]
  | _ => []

inductive Denotes (pool : Pool) : Raw → VerificationType → Prop
  | simple (kind : Simple) : Denotes pool (.simple kind) kind.type
  | object {index text : UInt16} {name : String} (hclass : pool.get index = .ok (.classInfo text))
      (hname : pool.get text = .ok (.utf8 name)) : Denotes pool (.object index) (.object name)
  | uninitialized (offset : UInt16) : Denotes pool (.uninitialized offset) (.uninitialized offset)

theorem exists_denotes_iff {pool : Pool} {raw : Raw} :
    (∃ type, raw.Denotes pool type) ↔ ∀ index ∈ raw.classes, pool.HoldsClass index := by
  cases raw with
  | simple kind => exact ⟨nofun, fun _ => ⟨_, .simple kind⟩⟩
  | uninitialized offset => exact ⟨nofun, fun _ => ⟨_, .uninitialized offset⟩⟩
  | object index =>
      rw [classes, List.forall_mem_singleton]
      constructor
      · intro h
        obtain ⟨_, hmeans⟩ := h
        cases hmeans with
        | object hclass hname => exact ⟨_, hclass, _, hname⟩
      · intro h
        rcases h with ⟨text, hclass, name, hname⟩
        exact ⟨.object name, .object hclass hname⟩

end Raw

end VerificationType

namespace Frame

/-- The seven forms of a frame. -/
inductive Raw
  | same (delta : UInt16)
  | sameLocals (delta : UInt16) (stack : VerificationType.Raw)
  | sameLocalsExtended (delta : UInt16) (stack : VerificationType.Raw)
  | chop (delta : UInt16) (count : UInt8)
  | sameExtended (delta : UInt16)
  | append (delta : UInt16) (locals : List VerificationType.Raw)
  | full (delta : UInt16) (locals stack : List VerificationType.Raw)

namespace Raw

def number : Raw → Nat
  | .same delta => delta.toNat
  | .sameLocals delta _ => 64 + delta.toNat
  | .sameLocalsExtended .. => 247
  | .chop _ count => 251 - count.toNat
  | .sameExtended _ => 251
  | .append _ locals => 251 + locals.length
  | .full .. => 255

def body : Raw → Bytes
  | .same _ => []
  | .sameLocals _ stack => stack.encode
  | .sameLocalsExtended delta stack => Bytes.ofNat 2 delta.toNat ++ stack.encode
  | .chop delta _ | .sameExtended delta => Bytes.ofNat 2 delta.toNat
  | .append delta locals => Bytes.ofNat 2 delta.toNat ++ locals.flatMap VerificationType.Raw.encode
  | .full delta locals stack =>
      Bytes.ofNat 2 delta.toNat ++ (Bytes.counted VerificationType.Raw.encode locals ++
        Bytes.counted VerificationType.Raw.encode stack)

def encode (raw : Raw) : Bytes := .ofNat raw.number :: raw.body

def Fits : Raw → Prop
  | .same delta | .sameLocals delta _ => delta.toNat ≤ 63
  | .sameLocalsExtended .. | .sameExtended _ => True
  | .chop _ count => 1 ≤ count.toNat ∧ count.toNat ≤ 3
  | .append _ locals => 1 ≤ locals.length ∧ locals.length ≤ 3
  | .full _ locals stack => locals.length < 2 ^ 16 ∧ stack.length < 2 ^ 16

def types : Raw → List VerificationType.Raw
  | .same _ | .chop .. | .sameExtended _ => []
  | .sameLocals _ stack | .sameLocalsExtended _ stack => [stack]
  | .append _ locals => locals
  | .full _ locals stack => locals ++ stack

inductive Denotes (pool : Pool) : Raw → Frame → Prop
  | same (delta : UInt16) : Denotes pool (.same delta) (.same delta false)
  | sameLocals (delta : UInt16) {raw : VerificationType.Raw} {stack : VerificationType}
      (hstack : raw.Denotes pool stack) :
      Denotes pool (.sameLocals delta raw) (.sameLocals delta stack false)
  | sameLocalsExtended (delta : UInt16) {raw : VerificationType.Raw} {stack : VerificationType}
      (hstack : raw.Denotes pool stack) :
      Denotes pool (.sameLocalsExtended delta raw) (.sameLocals delta stack true)
  | chop (delta : UInt16) (count : UInt8) : Denotes pool (.chop delta count) (.chop delta count)
  | sameExtended (delta : UInt16) : Denotes pool (.sameExtended delta) (.same delta true)
  | append (delta : UInt16) {raws : List VerificationType.Raw} {locals : List VerificationType}
      (hlocals : List.Forall₂ (VerificationType.Raw.Denotes pool) raws locals) :
      Denotes pool (.append delta raws) (.append delta locals)
  | full (delta : UInt16) {rawLocals rawStack : List VerificationType.Raw}
      {locals stack : List VerificationType}
      (hlocals : List.Forall₂ (VerificationType.Raw.Denotes pool) rawLocals locals)
      (hstack : List.Forall₂ (VerificationType.Raw.Denotes pool) rawStack stack) :
      Denotes pool (.full delta rawLocals rawStack) (.full delta locals stack)

def classes (raw : Raw) : List UInt16 := raw.types.flatMap VerificationType.Raw.classes

/-- The frame fits its form and its classes are there. -/
structure Valid (pool : Pool) (raw : Raw) : Prop where
  fits : raw.Fits
  classes : ∀ index ∈ raw.classes, pool.HoldsClass index

theorem exists_denotes_iff {pool : Pool} {raw : Raw} :
    (∃ frame, raw.Denotes pool frame) ↔ ∀ index ∈ raw.classes, pool.HoldsClass index := by
  have htypes : (∀ index ∈ raw.classes, pool.HoldsClass index) ↔
      ∀ type ∈ raw.types, ∃ value, type.Denotes pool value := by
    simp only [classes, List.forall_mem_flatMap, VerificationType.Raw.exists_denotes_iff]
  rw [htypes]
  constructor
  · intro h
    obtain ⟨frame, hmeans⟩ := h
    cases hmeans with
    | same | chop | sameExtended => nofun
    | sameLocals _ hstack => exact List.forall_mem_singleton.mpr ⟨_, hstack⟩
    | sameLocalsExtended _ hstack => exact List.forall_mem_singleton.mpr ⟨_, hstack⟩
    | append _ hlocals => exact exists_forall₂_iff.mp ⟨_, hlocals⟩
    | full _ hlocals hstack =>
        have hfirst := exists_forall₂_iff.mp ⟨_, hlocals⟩
        have hsecond := exists_forall₂_iff.mp ⟨_, hstack⟩
        exact List.forall_mem_append.mpr ⟨hfirst, hsecond⟩
  · intro h
    cases raw with
    | same delta => exact ⟨_, .same delta⟩
    | sameLocals delta stack =>
        obtain ⟨_, hstack⟩ := List.forall_mem_singleton.mp h
        exact ⟨_, .sameLocals delta hstack⟩
    | sameLocalsExtended delta stack =>
        obtain ⟨_, hstack⟩ := List.forall_mem_singleton.mp h
        exact ⟨_, .sameLocalsExtended delta hstack⟩
    | chop delta count => exact ⟨_, .chop delta count⟩
    | sameExtended delta => exact ⟨_, .sameExtended delta⟩
    | append delta locals =>
        obtain ⟨_, hlocals⟩ := exists_forall₂_iff.mpr h
        exact ⟨_, .append delta hlocals⟩
    | full delta locals stack =>
        obtain ⟨hlocals, hstack⟩ := List.forall_mem_append.mp h
        obtain ⟨_, hlocals⟩ := exists_forall₂_iff.mpr hlocals
        obtain ⟨_, hstack⟩ := exists_forall₂_iff.mpr hstack
        exact ⟨_, .full delta hlocals hstack⟩

theorem Fits.number_lt {raw : Raw} (h : raw.Fits) : raw.number < 256 := by
  cases raw <;> simp only [number, Fits] at h ⊢ <;> omega

/-- No form starts with one of the numbers in between. -/
theorem Fits.not_reserved {raw : Raw} (h : raw.Fits) : raw.number < 128 ∨ 246 < raw.number := by
  cases raw <;> simp only [number, Fits] at h ⊢ <;> omega

end Raw

end Frame

end ClassListing
