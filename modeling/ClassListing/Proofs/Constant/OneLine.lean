import ClassListing.Constant.Resolve
import ClassListing.Proofs.Descriptor.Grammar
import ClassListing.Proofs.Text.OneLine

/-!
# Constants and types without line feeds

If no text among the constants has a line feed, neither has the text of any other constant, nor the
source spelling of a type whose descriptor is one of these texts.
-/

namespace ClassListing

open Text

/-! ## Types -/

theorem OneLine.sourceName {name : String} (h : OneLine name) : OneLine (sourceName name) := by
  refine h.map fun char hchar => ?_
  split at hchar
  · cases hchar
  · exact hchar

namespace FieldType

theorem oneLine_text {type : FieldType} (h : '\n' ∉ type.encode) : OneLine type.text := by
  induction type with
  | primitive type => cases type <;> decide
  | object name =>
      have hname : OneLine name := by
        intro hmem
        exact h (List.mem_cons_of_mem _ (List.mem_append_left _ hmem))
      exact OneLine.sourceName hname
  | array component ih =>
      exact OneLine.append_iff.mpr ⟨ih fun hmem => h (List.mem_cons_of_mem _ hmem), by decide⟩

theorem parse_oneLine {descriptor : String} (h : OneLine descriptor) :
    Yields (fun type : FieldType => OneLine type.text) (FieldType.parse descriptor) := by
  intro type htype
  obtain ⟨-, lost, hchars, -⟩ := parseChars_eq_ok_iff.mp (ofDescriptor_eq_ok_iff.mp htype)
  apply oneLine_text
  intro hmem
  apply h
  rw [hchars]
  exact List.mem_append_left _ hmem

end FieldType

namespace MethodType

theorem encode_subset_of_spelled {types : List FieldType} {used : List Char}
    (h : Spelled types used) : ∀ type ∈ types, type.encode ⊆ used := by
  induction types generalizing used with
  | nil => nofun
  | cons type types ih =>
      obtain ⟨lost, more, rfl, -, hmore⟩ := h
      rw [List.forall_mem_cons]
      constructor
      · exact List.subset_append_left _ _
      · intro other hother char hchar
        have hmem := ih hmore other hother hchar
        simp [hmem]

theorem parse_oneLine {descriptor : String} (h : OneLine descriptor) :
    Yields (fun type : MethodType => OneLine type.parameterList ∧ OneLine type.resultText)
      (MethodType.parse descriptor) := by
  intro type htype
  obtain ⟨-, used, lost, hspelled, -, hchars⟩ :=
    parseChars_eq_ok_iff.mp (ofDescriptor_eq_ok_iff.mp htype)
  rw [OneLine, hchars] at h
  simp only [List.mem_cons, List.mem_append, not_or] at h
  obtain ⟨-, hused, -, hresult, -⟩ := h
  constructor
  · apply OneLine.intercalate (by decide)
    rw [List.forall_mem_map]
    intro part hpart
    have hsubset := encode_subset_of_spelled hspelled part hpart
    exact FieldType.oneLine_text fun hmem => hused (hsubset hmem)
  · unfold resultText
    split
    · rename_i result hsome
      rw [hsome] at hresult
      exact FieldType.oneLine_text hresult
    · decide

end MethodType

/-! ## Constants -/

namespace Constant

theorem oneLine_kindName (kind : Kind) : OneLine kind.name := by
  cases kind <;> decide

theorem oneLine_references (constant : Constant) : OneLine constant.references := by
  cases constant <;> simp [references]

/-- The listing shows a number or a quoted text, and no name. -/
def isLiteral : Constant → Bool
  | .utf8 _ | .integer _ | .float _ | .long _ | .double _ | .string _ => true
  | _ => false

theorem kind_ne_utf8_of_not_isLiteral {constant : Constant} (h : constant.isLiteral = false) :
    constant.kind ≠ .utf8 := by
  cases constant with
  | utf8 text => cases h
  | _ => simp [kind]

end Constant

namespace Pool

/-- Whatever the texts among the constants are. -/
theorem resolveConstant_literal {pool : Pool} {argument : UInt16 → Except Error String}
    {index : UInt16} {constant : Constant} (h : constant.isLiteral = true)
    (hkind : constant.kind ≠ .utf8) :
    Yields Text.OneLine (pool.resolveConstant argument index constant) := by
  cases constant with
  | utf8 text => exact absurd rfl hkind
  | integer value => exact .ok (by simp)
  | float bits => exact .ok (by simp [Decimal.floatText, OneLine.binaryValue, constantWords])
  | long value => exact .ok (by simp)
  | double bits =>
      exact .ok (by simp [Decimal.doubleText, OneLine.binaryValue, constantWords])
  | string text =>
      have hany : Yields (fun _ => True) (pool.utf8 text) := fun _ _ => trivial
      exact hany.map fun text _ => OneLine.quote text
  | _ => cases h

def OneLine (pool : Pool) : Prop :=
  ∀ index text, pool.get index = .ok (.utf8 text) → Text.OneLine text

variable {pool : Pool} (h : pool.OneLine) (index : UInt16)
include h

theorem get_oneLine : Yields (fun constant => ∀ text, constant = .utf8 text → Text.OneLine text)
    (pool.get index) := by
  intro constant hget text htext
  exact h index text (htext ▸ hget)

theorem utf8_oneLine : Yields Text.OneLine (pool.utf8 index) := by
  refine (get_oneLine h index).bind fun constant hconstant => ?_
  split
  · exact .ok (hconstant _ rfl)
  · exact .error _

theorem className_oneLine : Yields Text.OneLine (pool.className index) := by
  refine (get_oneLine h index).bind fun constant _ => ?_
  split
  · exact utf8_oneLine h _
  · exact .error _

theorem moduleName_oneLine : Yields Text.OneLine (pool.moduleName index) := by
  refine (get_oneLine h index).bind fun constant _ => ?_
  split
  · exact utf8_oneLine h _
  · exact .error _

theorem packageName_oneLine : Yields Text.OneLine (pool.packageName index) := by
  refine (get_oneLine h index).bind fun constant _ => ?_
  split
  · exact utf8_oneLine h _
  · exact .error _

theorem nameAndType_oneLine :
    Yields (fun member => Text.OneLine member.text) (pool.nameAndType index) := by
  refine (get_oneLine h index).bind fun constant _ => ?_
  split
  · refine (utf8_oneLine h _).bind fun name hname => (utf8_oneLine h _).map fun type htype => ?_
    simp [NameAndType.text, hname, htype]
  · exact .error _

theorem memberRef_oneLine : Yields (fun ref => Text.OneLine ref.text) (pool.memberRef index) := by
  have hparts (owner member : UInt16) : Yields (fun ref => Text.OneLine ref.text) (do
      return (⟨← pool.className owner, ← pool.nameAndType member⟩ : MemberRef)) := by
    refine (className_oneLine h owner).bind fun _ howner =>
      (nameAndType_oneLine h member).map fun _ hmember => ?_
    simp [MemberRef.text, howner, hmember]
  refine (get_oneLine h index).bind fun constant _ => ?_
  split
  case h_4 => exact .error _
  all_goals exact hparts _ _

theorem handleText_oneLine (access : Constant.HandleKind) :
    Yields Text.OneLine (pool.handleText access index) := by
  refine (get_oneLine h index).bind fun constant _ => ?_
  split
  · refine (memberRef_oneLine h index).map fun _ href => ?_
    have hname : Text.OneLine access.name := by cases access <;> decide
    simp [hname, href]
  · exact .error _

theorem bootstrapHandle_oneLine (row : BootstrapMethod) :
    Yields Text.OneLine (pool.bootstrapHandle row) := by
  refine (get_oneLine h row.handle).bind fun constant _ => ?_
  split
  · exact handleText_oneLine h _ _
  · exact .error _

theorem resolveDynamic_oneLine {argument : UInt16 → Except Error String}
    (hargument : ∀ index, Yields Text.OneLine (argument index)) (row member : UInt16) :
    Yields Text.OneLine (pool.resolveDynamic argument index row member) := by
  refine (nameAndType_oneLine h member).bind fun _ hmember => ?_
  have hany : Yields (fun _ => True) (pool.bootstrapRow index row) := fun _ _ => trivial
  refine hany.bind fun method _ => (bootstrapHandle_oneLine h method).bind fun _ hhandle => ?_
  refine (Yields.mapM fun other _ => hargument other).map fun arguments harguments => ?_
  have hlist : Text.OneLine (String.intercalate ", " arguments) :=
    OneLine.intercalate (by decide) harguments
  simp [dynamicText, hmember, hhandle, hlist]

theorem resolveConstant_oneLine {argument : UInt16 → Except Error String}
    (hargument : ∀ index, Yields Text.OneLine (argument index)) {constant : Constant}
    (hconstant : ∀ text, constant = .utf8 text → Text.OneLine text) :
    Yields Text.OneLine (pool.resolveConstant argument index constant) := by
  cases constant with
  | utf8 text => exact .ok (hconstant text rfl)
  | integer | float | long | double | string =>
      exact resolveConstant_literal rfl (by simp [Constant.kind])
  | classInfo name => exact utf8_oneLine h name
  | fieldRef | methodRef | interfaceMethodRef =>
      exact (memberRef_oneLine h index).map fun _ href => href
  | nameAndType => exact (nameAndType_oneLine h index).map fun _ hmember => hmember
  | methodHandle access target => exact handleText_oneLine h target access
  | methodType descriptor => exact utf8_oneLine h descriptor
  | dynamic row member | invokeDynamic row member =>
      exact resolveDynamic_oneLine h index hargument row member
  | moduleInfo name | packageInfo name => exact utf8_oneLine h name

theorem resolveWithin_oneLine (budget : Nat) (visiting : List UInt16) :
    Yields Text.OneLine (pool.resolveWithin budget visiting index) := by
  induction budget generalizing visiting index with
  | zero =>
      unfold resolveWithin
      split
      · exact .error _
      · exact .error _
  | succ budget ih =>
      unfold resolveWithin
      split
      · exact .error _
      · exact (get_oneLine h index).bind fun constant hconstant =>
          resolveConstant_oneLine h index (fun other => ih other (index :: visiting)) hconstant

theorem resolve_oneLine : Yields Text.OneLine (pool.resolve index) :=
  resolveWithin_oneLine h index _ _

end Pool

end ClassListing
