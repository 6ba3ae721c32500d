import ClassListing.Proofs.ClassFile.Grammar

/-!
# The attributes of a class at any depth

Code and record components have attributes of their own. What the decoder of a body gives for every
kind of attribute, whatever decodes the lists inside it, holds of every attribute of a class,
however deep it stands.
-/

namespace ClassListing

open Decoder

namespace Attribute

def nestedLists : Attribute → List (List Attribute)
  | .code body => [body.attributes]
  | .record components => components.map RecordComponent.attributes
  | _ => []

/-- The attribute stands in the list, or in a list inside one that occurs in it. -/
inductive Occurs (item : Attribute) : List Attribute → Prop
  | here {list : List Attribute} (h : item ∈ list) : Occurs item list
  | inside {list inner : List Attribute} {holder : Attribute} (hholder : holder ∈ list)
      (hinner : inner ∈ holder.nestedLists) (h : Occurs item inner) : Occurs item list

/-- Every attribute in the list and in the lists inside it satisfies `property`. -/
def Everywhere (property : Attribute → Prop) (list : List Attribute) : Prop :=
  ∀ item, Occurs item list → property item

def Throughout (property : Attribute → Prop) (item : Attribute) : Prop :=
  property item ∧ ∀ inner ∈ item.nestedLists, Everywhere property inner

variable {property : Attribute → Prop}

theorem everywhere_iff {list : List Attribute} :
    Everywhere property list ↔ ∀ item ∈ list, Throughout property item := by
  constructor
  · intro h holder hholder
    refine ⟨h holder (.here hholder), ?_⟩
    intro inner hinner item hitem
    exact h item (.inside hholder hinner hitem)
  · intro h item hitem
    cases hitem with
    | here hmem => exact (h item hmem).1
    | inside hholder hinner hitem => exact (h _ hholder).2 _ hinner item hitem

theorem throughout_iff_of_nil {item : Attribute} (h : item.nestedLists = []) :
    Throughout property item ↔ property item := by
  simp [Throughout, h]

theorem throughout_code_iff {body : Code} :
    Throughout property (.code body) ↔
      property (.code body) ∧ Everywhere property body.attributes := by
  simp [Throughout, nestedLists]

theorem throughout_record_iff {components : List RecordComponent} :
    Throughout property (.record components) ↔ property (.record components) ∧
      ∀ component ∈ components, Everywhere property component.attributes := by
  simp [Throughout, nestedLists]

theorem everywhere_nil : Everywhere property [] :=
  everywhere_iff.mpr nofun

theorem everywhere_cons_iff {first : Attribute} {rest : List Attribute} :
    Everywhere property (first :: rest) ↔
      Throughout property first ∧ Everywhere property rest := by
  simp only [everywhere_iff, List.forall_mem_cons]

/-! ## Decoding -/

section Decoding

variable {pool : Pool} {nested : Decoder (List Attribute)}

theorem decodeBody_gives_nested {good : List Attribute → Prop} (h : Gives good nested)
    (kind : AttributeKind) :
    Gives (fun value => ∀ inner ∈ value.nestedLists, good inner) (decodeBody pool nested kind) := by
  cases kind with
  | code =>
      have hcode : Gives (fun body => good body.attributes) (Code.decode pool nested) := by
        refine .bind fun _ => .bind fun _ => .bind fun length => ?_
        dsimp only
        split
        · exact .throw _
        · exact .bind fun _ => .bind fun _ => .bind fun _ => .bind fun _ =>
            h.map fun _ hlist => hlist
      exact hcode.map fun body hbody => List.forall_mem_singleton.mpr hbody
  | record =>
      have hcomponent : Gives (fun component => good component.attributes)
          (RecordComponent.decode pool nested) :=
        .bind fun _ => .bind fun _ => h.map fun _ hlist => hlist
      exact hcomponent.countedU2.map fun _ hcomponents => List.forall_mem_map.mpr hcomponents
  | synthetic => exact .pure nofun
  | deprecated => exact .pure nofun
  | enclosingMethod => exact .bind fun _ => .bind fun _ => .pure nofun
  | _ => exact .bind fun _ => .pure nofun

variable
  (hkind : ∀ (nested : Decoder (List Attribute)) (kind : AttributeKind),
    Gives property (decodeBody pool nested kind))
  (hunknown : ∀ (index : UInt16) (name : String) (body : Bytes), pool.utf8 index = .ok name →
    property (.unrecognized name body))
include hkind hunknown

theorem ofBody_gives (h : Gives (Everywhere property) nested) {index : UInt16} {name : String}
    (hname : pool.utf8 index = .ok name) {body : Bytes} {value : Attribute}
    (hvalue : ofBody pool nested name body = .ok value) : Throughout property value := by
  unfold ofBody at hvalue
  split at hvalue
  · obtain ⟨stopped, hbody, -⟩ := wholeBody_eq_ok_iff.mp hvalue
    exact ⟨hkind nested _ _ _ _ hbody, decodeBody_gives_nested h _ _ _ _ hbody⟩
  · cases hvalue
    exact ⟨hunknown index name body hname, nofun⟩

theorem decodeWithin_gives (budget : Nat) :
    Gives (Everywhere property) (decodeWithin pool budget) := by
  induction budget with
  | zero => exact .throw _
  | succ budget ih =>
      have hname (index : UInt16) : Gives (fun name => pool.utf8 index = .ok name)
          (lookup (pool.utf8 index)) := .lookup fun _ h => h
      have hone : Gives (Throughout property) (decodeOne pool (decodeWithin pool budget)) :=
        .bind fun index => .bind fun _ => .bind fun _ => (hname index).andThen fun _ hname =>
          .lookup fun _ hvalue => ofBody_gives hkind hunknown ih hname hvalue
      intro cursor stopped values h
      exact everywhere_iff.mpr (hone.countedU2 cursor stopped values h)

/-- What stands for itself in a list keeps to the property, with all that is inside it. -/
theorem Raw.meaning_gives {raw : Raw} {budget : Nat} {value : Attribute}
    (h : raw.meaning pool budget = .ok value) : Throughout property value := by
  obtain ⟨name, hname, hvalue⟩ := bind_eq_ok_iff.mp h
  exact ofBody_gives hkind hunknown (decodeWithin_gives hkind hunknown budget) hname hvalue

end Decoding

end Attribute

/-! ## Classes -/

namespace ClassFile

open Attribute

/-- The attribute belongs to the class, to one of its members, or stands inside one that does. -/
def Holds (file : ClassFile) (item : Attribute) : Prop :=
  Occurs item file.attributes ∨
    ∃ member ∈ file.fields ++ file.methods, Occurs item member.attributes

variable {property : Attribute → Prop}

theorem forall_holds_iff {file : ClassFile} :
    (∀ item, file.Holds item → property item) ↔
      (∀ field ∈ file.fields, Everywhere property field.attributes) ∧
      (∀ method ∈ file.methods, Everywhere property method.attributes) ∧
      Everywhere property file.attributes := by
  constructor
  · intro h
    refine ⟨fun field hfield item hitem => ?_, fun method hmethod item hitem => ?_,
      fun item hitem => h item (.inl hitem)⟩
    · exact h item (.inr ⟨field, List.mem_append_left _ hfield, hitem⟩)
    · exact h item (.inr ⟨method, List.mem_append_right _ hmethod, hitem⟩)
  · intro h item hitem
    obtain ⟨hfields, hmethods, hattributes⟩ := h
    rcases hitem with hitem | ⟨member, hmember, hitem⟩
    · exact hattributes item hitem
    · rcases List.mem_append.mp hmember with hfield | hmethod
      · exact hfields member hfield item hitem
      · exact hmethods member hmethod item hitem

theorem forall_of_forall₂ {means : ρ → α → Prop} {good : α → Prop} {items : List ρ}
    {values : List α} (h : List.Forall₂ means items values)
    (hgood : ∀ item value, means item value → good value) : ∀ value ∈ values, good value := by
  induction h with
  | nil => nofun
  | cons hfirst _ ih => exact List.forall_mem_cons.mpr ⟨hgood _ _ hfirst, ih⟩

/-- The constants of a class are known before its attributes are decoded; its bootstrap table is
not. -/
theorem Raw.Denotes.forall_holds {raw : Raw} {file : ClassFile} (h : raw.Denotes file)
    (hkind : ∀ (nested : Decoder (List Attribute)) (kind : AttributeKind),
      Gives property (Attribute.decodeBody raw.pool nested kind))
    (hunknown : ∀ (index : UInt16) (name : String) (body : Bytes),
      raw.pool.utf8 index = .ok name → property (.unrecognized name body)) :
    ∀ item, file.Holds item → property item := by
  have hlist {items : List Attribute.Raw} {values : List Attribute}
      (hvalues : List.Forall₂
        (fun item value => item.meaning raw.pool maxAttributeDepth = .ok value) items values) :
      Everywhere property values :=
    everywhere_iff.mpr (forall_of_forall₂ hvalues fun _ _ hvalue =>
      Attribute.Raw.meaning_gives hkind hunknown hvalue)
  have hmembers {items : List Member.Raw} {members : List Member}
      (hdenotes : List.Forall₂ (Member.Raw.Denotes raw.pool) items members) :
      ∀ member ∈ members, Everywhere property member.attributes :=
    forall_of_forall₂ hdenotes fun _ _ hmember => hlist hmember.attributes
  exact forall_holds_iff.mpr ⟨hmembers h.fields, hmembers h.methods, hlist h.attributes⟩

end ClassFile

end ClassListing
