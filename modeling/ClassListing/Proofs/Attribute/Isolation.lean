import ClassListing.Proofs.Attribute.Extension
import ClassListing.Proofs.Attribute.Fault
import ClassListing.Proofs.Cursor.Isolation

/-!
# Attribute lists, one attribute at a time

The declared lengths cut a list into its attributes. What each of them stands for is settled by its
name and its own body, so a list is decoded as if its attributes were decoded apart and in order.
-/

namespace ClassListing

open Decoder

namespace Error

/-- The error of an attribute whose body is there in full. -/
def OfBody : Error → Prop
  | .attributeBody .. | .code .. | .reference .. | .tooDeep _ => True
  | _ => False

end Error

namespace Attribute

/-! ## What a body can stand for -/

def recognizedNames : List String :=
  ["ConstantValue", "Code", "StackMapTable", "Exceptions", "InnerClasses", "EnclosingMethod",
    "Synthetic", "Signature", "SourceFile", "SourceDebugExtension", "LineNumberTable",
    "LocalVariableTable", "LocalVariableTypeTable", "Deprecated", "RuntimeVisibleAnnotations",
    "RuntimeInvisibleAnnotations", "RuntimeVisibleParameterAnnotations",
    "RuntimeInvisibleParameterAnnotations", "RuntimeVisibleTypeAnnotations",
    "RuntimeInvisibleTypeAnnotations", "AnnotationDefault", "BootstrapMethods", "MethodParameters",
    "Module", "ModulePackages", "ModuleMainClass", "NestHost", "NestMembers", "Record",
    "PermittedSubclasses"]

theorem map_name_all : AttributeKind.all.map AttributeKind.name = recognizedNames := rfl

theorem decodeBody_kind? (pool : Pool) (nested : Decoder (List Attribute)) (kind : AttributeKind) :
    Gives (fun value => value.kind? = some kind) (decodeBody pool nested kind) := by
  cases kind with
  | synthetic => exact .pure rfl
  | deprecated => exact .pure rfl
  | enclosingMethod => exact .bind fun _ => .bind fun _ => .pure rfl
  | _ => exact .bind fun _ => .pure rfl

/-- A recognised name gives a value of its kind, and any other keeps the body as it is. -/
theorem ofBody_cases {pool : Pool} {nested : Decoder (List Attribute)} {name : String}
    {body : Bytes} {value : Attribute} (h : ofBody pool nested name body = .ok value) :
    (∃ kind, AttributeKind.ofName? name = some kind ∧ value.kind? = some kind) ∨
      AttributeKind.ofName? name = none ∧ value = .unrecognized name body := by
  cases hk : AttributeKind.ofName? name with
  | none =>
      simp only [ofBody, hk] at h
      cases h
      exact .inr ⟨rfl, rfl⟩
  | some kind =>
      simp only [ofBody, hk] at h
      obtain ⟨stopped, hd, -⟩ := wholeBody_eq_ok_iff.mp h
      exact .inl ⟨kind, rfl, decodeBody_kind? pool nested kind _ _ _ hd⟩

theorem ofBody_name {pool : Pool} {nested : Decoder (List Attribute)} {name : String}
    {body : Bytes} {value : Attribute} (h : ofBody pool nested name body = .ok value) :
    value.name = name := by
  rcases ofBody_cases h with ⟨kind, hname, hkind⟩ | ⟨-, rfl⟩
  · rw [name_of_kind? hkind, AttributeKind.name_of_ofName? hname]
  · rfl

theorem ofBody_unrecognized_iff {pool : Pool} {nested : Decoder (List Attribute)} {name : String}
    {body : Bytes} {value : Attribute} (h : ofBody pool nested name body = .ok value) :
    (∃ text bytes, value = .unrecognized text bytes) ↔ name ∉ recognizedNames := by
  rw [← map_name_all, ← AttributeKind.ofName?_eq_none_iff]
  rcases ofBody_cases h with ⟨kind, hname, hkind⟩ | ⟨hname, hvalue⟩
  · rw [hname]
    constructor
    · intro hopaque
      rcases hopaque with ⟨text, bytes, rfl⟩
      cases hkind
    · nofun
  · exact ⟨fun _ => hname, fun _ => ⟨name, body, hvalue⟩⟩

/-- Missing bytes and malformed values inside a body are put on the attribute. -/
theorem ofBody_blames_body {pool : Pool} {nested : Decoder (List Attribute)}
    (hnested : Decoder.Blames Error.OfContent nested) (name : String) (body : Bytes) :
    Blames Error.OfBody (ofBody pool nested name body) := by
  intro error h
  cases hk : AttributeKind.ofName? name with
  | none => simp [ofBody, hk] at h
  | some kind =>
      simp only [ofBody, hk] at h
      cases hd : decodeBody pool nested kind (.start body) with
      | ok value stopped =>
          rw [wholeBody_of_ok hd] at h
          split at h <;> cases h
          trivial
      | error found stopped =>
          have hfound := decodeBody_blames pool hnested kind _ _ _ hd
          simp only [wholeBody, EStateM.run, hd] at h
          cases found <;> cases h <;> trivial

/-! ## Lists -/

/-- An attribute as it stands in a list: the index of its name, and its body as bytes. -/
structure Raw where
  name : UInt16
  body : Bytes
  sized : body.length < 2 ^ 32

namespace Raw

def encode (raw : Raw) : Bytes :=
  Bytes.ofNat 2 raw.name.toNat ++ Bytes.ofNat 4 raw.body.length ++ raw.body

def encodeList (list : List Raw) : Bytes :=
  Bytes.ofNat 2 list.length ++ list.flatMap encode

/-- What the attribute stands for on its own, with `budget` levels of lists below it. -/
def meaning (pool : Pool) (budget : Nat) (raw : Raw) : Except Error Attribute := do
  ofBody pool (decodeWithin pool budget) (← pool.utf8 raw.name) raw.body

end Raw

theorem decodeOne_isolates (pool : Pool) (budget : Nat) :
    Isolates (decodeOne pool (decodeWithin pool budget)) Raw.encode (Raw.meaning pool budget) := by
  intro raw pos rest
  have hsize : (UInt32.ofNat raw.body.length).toNat = raw.body.length :=
    UInt32.toNat_ofNat_of_lt' raw.sized
  have hname := u2_append pos raw.name (Bytes.ofNat 4 raw.body.length ++ (raw.body ++ rest))
  have hlength := u4_append (pos + 2) (.ofNat raw.body.length) (raw.body ++ rest)
  have hbody := take_append raw.body rest (pos + 2 + 4)
  have hpos : pos + 2 + 4 + raw.body.length = pos + raw.encode.length := by
    simp only [Raw.encode, List.length_append, Bytes.length_ofNat]
    omega
  rw [hsize] at hlength
  rw [hpos] at hbody
  rw [Raw.encode, List.append_assoc, List.append_assoc, decodeOne, bind_of_ok hname,
    bind_of_ok hlength, hsize, bind_of_ok hbody, Raw.meaning]
  cases pool.utf8 raw.name <;> rfl

/-- The count of a list is read, and its attributes follow. -/
theorem decodeWithin_encodeList (pool : Pool) (budget : Nat) {list : List Raw}
    (hl : list.length < 2 ^ 16) (pos : Nat) (rest : Bytes) :
    decodeWithin pool (budget + 1) ⟨pos, Raw.encodeList list ++ rest⟩ =
      many list.length (decodeOne pool (decodeWithin pool budget))
        ⟨pos + 2, list.flatMap Raw.encode ++ rest⟩ := by
  rw [Raw.encodeList, List.append_assoc]
  exact countedU2_append hl pos _

theorem decodeWithin_ok {pool : Pool} {budget : Nat} {list : List Raw} (hl : list.length < 2 ^ 16)
    {values : List Attribute} (hv : list.mapM (Raw.meaning pool budget) = .ok values) (pos : Nat)
    (rest : Bytes) :
    decodeWithin pool (budget + 1) ⟨pos, Raw.encodeList list ++ rest⟩ =
      .ok values ⟨pos + (Raw.encodeList list).length, rest⟩ := by
  rw [decodeWithin_encodeList pool budget hl, (decodeOne_isolates pool budget).many_ok hv,
    Raw.encodeList, List.length_append, Bytes.length_ofNat, Nat.add_assoc]

theorem decodeWithin_error {pool : Pool} {budget : Nat} {list : List Raw}
    (hl : list.length < 2 ^ 16) {error : Error}
    (he : list.mapM (Raw.meaning pool budget) = .error error) (pos : Nat) (rest : Bytes) :
    ∃ stopped, decodeWithin pool (budget + 1) ⟨pos, Raw.encodeList list ++ rest⟩ =
      .error error stopped := by
  rw [decodeWithin_encodeList pool budget hl]
  exact (decodeOne_isolates pool budget).many_error he _ _

/-- A value has the name that its index stands for, and a body that nothing decodes is kept. -/
theorem Raw.meaning_ok {pool : Pool} {budget : Nat} {raw : Raw} {value : Attribute}
    (h : raw.meaning pool budget = .ok value) :
    pool.utf8 raw.name = .ok value.name ∧
    ((∃ name body, value = .unrecognized name body) ↔ value.name ∉ recognizedNames) ∧
    ∀ name body, value = .unrecognized name body → body = raw.body := by
  obtain ⟨name, hname, hbody⟩ := bind_eq_ok_iff.mp h
  have hsame := ofBody_name hbody
  rw [hsame]
  refine ⟨hname, ofBody_unrecognized_iff hbody, ?_⟩
  intro text bytes hvalue
  rcases ofBody_cases hbody with ⟨kind, -, hkind⟩ | ⟨-, hkept⟩
  · rw [hvalue] at hkind
    cases hkind
  · rw [hvalue] at hkept
    cases hkept
    rfl

/--
A list is decoded attribute by attribute. Either all of them stand for something on their own, and
these values are the result, with the cursor behind the list; or the first that does not decides.
A value has the name that its index stands for, and keeps its body where that name is not one of
the thirty. No failing body is taken for missing bytes or a malformed file, at any level.
-/
theorem decodeList_isolates (pool : Pool) (list : List Raw) (hl : list.length < 2 ^ 16) (pos : Nat)
    (rest : Bytes) :
    (∀ values, list.map (Raw.meaning pool maxAttributeDepth) = values.map .ok →
      decodeList pool ⟨pos, Raw.encodeList list ++ rest⟩ =
        .ok values ⟨pos + (Raw.encodeList list).length, rest⟩) ∧
    (∀ before raw after error, list = before ++ raw :: after →
      (∀ earlier ∈ before, ∃ value, earlier.meaning pool maxAttributeDepth = .ok value) →
      raw.meaning pool maxAttributeDepth = .error error →
      ∃ stopped, decodeList pool ⟨pos, Raw.encodeList list ++ rest⟩ = .error error stopped) ∧
    (∀ raw ∈ list, ∀ value, raw.meaning pool maxAttributeDepth = .ok value →
      pool.utf8 raw.name = .ok value.name ∧
      ((∃ name body, value = .unrecognized name body) ↔ value.name ∉ recognizedNames) ∧
      ∀ name body, value = .unrecognized name body → body = raw.body) ∧
    (recognizedNames.length = 30 ∧ recognizedNames.Nodup ∧
      AttributeKind.all.map AttributeKind.name = recognizedNames) ∧
    (∀ budget name body error,
      ofBody pool (decodeWithin pool budget) name body = .error error → error.OfBody) := by
  refine ⟨?_, ?_, ?_, ⟨rfl, map_name_all ▸ AttributeKind.nodup_names, map_name_all⟩, ?_⟩
  · intro values hv
    exact decodeWithin_ok hl (mapM_eq_ok_iff.mpr hv) pos rest
  · intro before raw after error hsplit hbefore hraw
    have he := mapM_eq_error_iff.mpr ⟨before, raw, after, hsplit, hbefore, hraw⟩
    exact decodeWithin_error hl he pos rest
  · intro raw _ value hv
    exact Raw.meaning_ok hv
  · intro budget name body error he
    exact ofBody_blames_body (decodeWithin_blames pool budget) name body error he

def sourceFilePool : Pool := ⟨#[none, some (.utf8 "SourceFile"), some (.utf8 "Extra")], []⟩

def Raw.source : Raw := ⟨1, [0, 2], by decide⟩

def Raw.extra : Raw := ⟨2, [1, 2, 3], by decide⟩

def Raw.shortSource : Raw := ⟨1, [0], by decide⟩

theorem decodeList_isolates_sample :
    decodeList sourceFilePool ⟨10, Raw.encodeList [.source, .extra] ++ [9]⟩ =
        .ok [.sourceFile "Extra", .unrecognized "Extra" [1, 2, 3]] ⟨29, [9]⟩ ∧
      ∃ stopped,
        decodeList sourceFilePool ⟨10, Raw.encodeList [.extra, .shortSource, .source] ++ [9]⟩ =
          .error (.attributeBody "SourceFile" (.needsMore 1)) stopped := by
  have hgood := (decodeList_isolates sourceFilePool [.source, .extra] (by decide) 10 [9]).1
  have hbad :=
    (decodeList_isolates sourceFilePool [.extra, .shortSource, .source] (by decide) 10 [9]).2.1
  refine ⟨hgood _ rfl, hbad [.extra] .shortSource [.source] _ rfl ?_ rfl⟩
  intro earlier hm
  cases List.mem_singleton.mp hm
  exact ⟨_, rfl⟩

end Attribute

end ClassListing
