import ClassListing.Attribute.Decode
import ClassListing.Listing.Attribute
import ClassListing.Proofs.Constant.OneLine
import ClassListing.Proofs.Cursor.Isolation

/-!
# Attributes without line feeds

All texts of a decoded attribute come from the constants, except for the debug extension, which is
cut into lines. So if no constant has a line feed, every row that an attribute has in a listing is
one line.
-/

namespace ClassListing

open Decoder Text Listing

/-! ## Annotations -/

theorem elementTexts_eq (elements : List (String × ElementValue)) :
    elementTexts elements = elements.map fun element => element.1 ++ "=" ++ element.2.text := by
  induction elements with
  | nil => rfl
  | cons element elements ih => rw [elementTexts, ih, List.map_cons]

theorem valueTexts_eq (values : List ElementValue) :
    valueTexts values = values.map ElementValue.text := by
  induction values with
  | nil => rfl
  | cons value values ih => rw [valueTexts, ih, List.map_cons]

theorem AnnotationUse.oneLine_text {typeName : String} {elements : List (String × ElementValue)}
    (hname : OneLine typeName)
    (helements : ∀ element ∈ elements, OneLine element.1 ∧ OneLine element.2.text) :
    OneLine (AnnotationUse.mk typeName elements).text := by
  have htexts : OneLine (String.intercalate ", " (elementTexts elements)) := by
    rw [elementTexts_eq]
    apply OneLine.intercalate (by decide)
    rw [List.forall_mem_map]
    intro element hmem
    obtain ⟨hfirst, hsecond⟩ := helements element hmem
    simp [hfirst, hsecond]
  unfold AnnotationUse.text
  dsimp only
  split <;> simp [hname, htexts]

/-! ## Lookups -/

theorem Yields.optional {find : UInt16 → Except Error α} {property : α → Prop}
    (h : ∀ index, Yields property (find index)) (index : UInt16) :
    Yields (fun found => ∀ value ∈ found, property value) (Pool.optional find index) := by
  unfold Pool.optional
  split
  · exact .ok nofun
  · have hmap : some <$> find index = do return some (← find index) := by
      cases find index <;> rfl
    rw [hmap]
    exact (h index).map fun value hvalue => by simpa using hvalue

theorem Decoder.Gives.optional {find : UInt16 → Except Error α} {property : α → Prop}
    (h : ∀ index, Yields property (find index)) :
    Gives (fun found => ∀ value ∈ found, property value)
      (Decoder.reference (Pool.optional find)) :=
  .reference (Yields.optional h)

section Decoding

variable {pool : Pool} (h : pool.OneLine)
include h

namespace Pool

theorem utf8_gives : Gives Text.OneLine (reference pool.utf8) := .reference (utf8_oneLine h)

theorem className_gives : Gives Text.OneLine (reference pool.className) :=
  .reference (className_oneLine h)

theorem moduleName_gives : Gives Text.OneLine (reference pool.moduleName) :=
  .reference (moduleName_oneLine h)

theorem packageName_gives : Gives Text.OneLine (reference pool.packageName) :=
  .reference (packageName_oneLine h)

theorem typeName_gives : Gives Text.OneLine (reference pool.typeName) :=
  .reference fun index => (utf8_oneLine h index).bind fun _ htext =>
    (FieldType.parse_oneLine htext).map fun _ htype => htype

theorem literalType_gives : Gives Text.OneLine (reference pool.literalType) := by
  refine .reference fun index => (utf8_oneLine h index).bind fun descriptor htext => ?_
  split
  · exact .ok (by decide)
  · exact (FieldType.parse_oneLine htext).map fun _ htype => htype

end Pool

/-! ## Decoding annotations -/

theorem ElementValue.decodeScalar?_gives {tag : Char} {decoder : Decoder ElementValue}
    (hs : decodeScalar? pool tag = some decoder) :
    Gives (fun value => OneLine value.text) decoder := by
  unfold decodeScalar? at hs
  split at hs <;> cases hs
  case h_9 => exact .bind fun _ => .pure (OneLine.quote _)
  case h_10 =>
    refine (Pool.typeName_gives h).andThen fun _ htype =>
      (Pool.utf8_gives h).map fun _ hconstant => ?_
    simp [ElementValue.text, htype, hconstant]
  case h_11 =>
    refine (Pool.literalType_gives h).map fun _ hname => ?_
    simp [ElementValue.text, hname]
  case h_8 =>
    refine .bind fun value => .pure ?_
    cases value != 0 <;> decide
  all_goals
    refine .bind fun _ => .pure ?_
    simp [ElementValue.text, Decimal.floatText, Decimal.doubleText, OneLine.binaryValue,
      elementWords, OneLine.not_mem_escape]

theorem decodeWithin_gives_oneLine (budget : Nat) :
    Gives (fun value => OneLine value.text) (AnnotationUse.decodeWithin pool budget) ∧
      Gives (fun value => OneLine value.text) (ElementValue.decodeWithin pool budget) := by
  induction budget with
  | zero =>
      unfold AnnotationUse.decodeWithin ElementValue.decodeWithin
      exact ⟨.throw _, .throw _⟩
  | succ budget ih =>
      constructor
      · unfold AnnotationUse.decodeWithin
        have helement : Gives (fun element : String × ElementValue =>
            OneLine element.1 ∧ OneLine element.2.text) (do
            let name ← reference pool.utf8
            return (name, ← ElementValue.decodeWithin pool budget)) :=
          (Pool.utf8_gives h).andThen fun _ hname => ih.2.map fun _ hvalue => ⟨hname, hvalue⟩
        exact (Pool.typeName_gives h).andThen fun _ hname =>
          helement.countedU2.map fun _ helements => AnnotationUse.oneLine_text hname helements
      · unfold ElementValue.decodeWithin
        refine .bind fun tag => ?_
        split
        · exact ih.1.map fun _ hinner => hinner
        · refine ih.2.countedU2.map fun values hvalues => ?_
          have hlist : OneLine (String.intercalate ", " (valueTexts values)) := by
            rw [valueTexts_eq]
            exact OneLine.intercalate (by decide) (List.forall_mem_map.mpr hvalues)
          simp [ElementValue.text, hlist]
        · split
          · exact ElementValue.decodeScalar?_gives h ‹_›
          · exact .throw _

theorem TypeAnnotationUse.decode_gives_oneLine :
    Gives (fun item => OneLine item.text) (TypeAnnotationUse.decode pool) := by
  have htarget (target : TypeTarget) : OneLine target.text := by
    unfold TypeTarget.text
    cases target with
    | localVariable ranges =>
        have hranges : OneLine (bracketed (ranges.map VariableRange.text)) := by
          apply OneLine.bracketed
          rw [List.forall_mem_map]
          intro range _
          simp [VariableRange.text]
        simp [hranges]
    | _ => simp
  refine .bind fun type => .bind fun target => .bind fun path =>
    (decodeWithin_gives_oneLine h _).1.map fun body hbody => ?_
  have hpath : OneLine (bracketed (path.map PathStep.text)) := by
    apply OneLine.bracketed
    rw [List.forall_mem_map]
    intro step _
    simp [PathStep.text]
  unfold TypeAnnotationUse.text
  dsimp only
  split <;> simp [htarget, hpath, hbody]

/-! ## Frames -/

theorem VerificationType.decode_gives_oneLine :
    Gives (fun type => OneLine type.text) (VerificationType.decode pool) := by
  refine .bind fun tag => ?_
  split
  case h_8 =>
    refine (Pool.className_gives h).map fun name hname => ?_
    unfold VerificationType.text
    simp [hname]
  case h_9 =>
    refine .bind fun offset => .pure ?_
    unfold VerificationType.text
    simp
  case h_10 => exact .throw _
  all_goals exact .pure (by decide)

def Frame.types : Frame → List VerificationType
  | .same .. | .chop .. => []
  | .sameLocals _ stack _ => [stack]
  | .append _ locals => locals
  | .full _ locals stack => locals ++ stack

omit h in
theorem Frame.oneLine_text {frame : Frame} (hframe : ∀ type ∈ frame.types, OneLine type.text) :
    OneLine frame.text := by
  have htypes {types : List VerificationType} (htexts : ∀ type ∈ types, OneLine type.text) :
      OneLine (Frame.typesText types) :=
    OneLine.bracketed (List.forall_mem_map.mpr htexts)
  have hform (name : String) (hname : OneLine name) (extended : Bool) :
      OneLine (Frame.formName name extended) := by
    cases extended
    · exact hname
    · exact OneLine.append_iff.mpr ⟨hname, by decide⟩
  unfold Frame.text
  cases frame with
  | same delta extended =>
      have hstart := hform "same_frame" (by decide) extended
      simp [hstart]
  | sameLocals delta stack extended =>
      have hstart := hform "same_locals_1_stack_item_frame" (by decide) extended
      have hstack : OneLine (Frame.typesText [stack]) := htypes hframe
      simp [hstart, hstack]
  | chop delta count => simp
  | append delta locals =>
      have hlocals : OneLine (Frame.typesText locals) := htypes hframe
      simp [hlocals]
  | full delta locals stack =>
      obtain ⟨hlocals, hstack⟩ := List.forall_mem_append.mp hframe
      have hfirst := htypes hlocals
      have hsecond := htypes hstack
      simp [hfirst, hsecond]

theorem Frame.decode_gives_oneLine :
    Gives (fun frame => OneLine frame.text) (Frame.decode pool) := by
  have htype := VerificationType.decode_gives_oneLine h
  have hmany (count : Nat) : Gives (fun types => ∀ type ∈ types, OneLine type.text)
      (VerificationType.decodeMany pool count) := .bind fun _ => htype.many count
  have hone {wrap : VerificationType → Frame} (hwrap : ∀ type, (wrap type).types = [type]) :
      Gives (fun frame => OneLine frame.text) (do
        return wrap (← VerificationType.decode pool)) :=
    htype.map fun type htext => Frame.oneLine_text (by
      rw [hwrap]
      exact List.forall_mem_singleton.mpr htext)
  refine .bind fun type => ?_
  refine .ite (.pure (Frame.oneLine_text nofun)) ?_
  refine .ite (hone fun _ => rfl) ?_
  refine .ite (.throw _) ?_
  refine .ite (.bind fun _ => hone fun _ => rfl) ?_
  refine .ite (.bind fun _ => .pure (Frame.oneLine_text nofun)) ?_
  refine .ite (.bind fun _ => .pure (Frame.oneLine_text nofun)) ?_
  refine .ite (.bind fun _ => (hmany _).map fun _ hlocals => Frame.oneLine_text hlocals) ?_
  exact .bind fun _ => .bind fun _ => (hmany _).andThen fun _ hlocals => .bind fun _ =>
    (hmany _).map fun _ hstack =>
      Frame.oneLine_text (List.forall_mem_append.mpr ⟨hlocals, hstack⟩)

/-! ## Modules -/

theorem ModuleDeclaration.decode_gives_oneLine :
    Gives (fun declaration => ∀ row ∈ moduleRows declaration, OneLine row)
      (ModuleDeclaration.decode pool) := by
  have hversion := Gives.optional (Pool.utf8_oneLine h)
  have hrequires : Gives (fun row => OneLine (requirementText row)) (Requirement.decode pool) := by
    refine (Pool.moduleName_gives h).andThen fun name hname => .bind fun flags =>
      hversion.map fun version hversion => ?_
    cases version with
    | none => simp [requirementText, hname]
    | some version =>
        have htext := hversion version rfl
        simp [requirementText, hname, htext]
  have hgrants : Gives (fun row => ∀ keyword, OneLine keyword → OneLine (grantText keyword row))
      (PackageGrant.decode pool) := by
    refine (Pool.packageName_gives h).andThen fun package hpackage => .bind fun flags =>
      (Pool.moduleName_gives h).countedU2.map fun targets htargets keyword hkeyword => ?_
    have hlist := OneLine.commaList htargets
    unfold grantText
    dsimp only
    split <;> simp [hkeyword, hpackage, hlist]
  have hprovides : Gives (fun row => OneLine (provisionText row)) (Provision.decode pool) := by
    refine (Pool.className_gives h).andThen fun service hservice =>
      (Pool.className_gives h).countedU2.map fun names hnames => ?_
    have hlist := OneLine.commaList hnames
    simp [provisionText, hservice, hlist]
  refine (Pool.moduleName_gives h).andThen fun name hname => .bind fun flags =>
    hversion.andThen fun version hversion => hrequires.countedU2.andThen fun requires hrequires =>
    hgrants.countedU2.andThen fun exports hexports => hgrants.countedU2.andThen fun opens hopens =>
    (Pool.className_gives h).countedU2.andThen fun uses huses =>
    hprovides.countedU2.map fun provides hprovides => ?_
  have hversionText : OneLine (orNone version) := OneLine.getD hversion (by decide)
  simp only [moduleRows, List.forall_mem_append, List.forall_mem_map, List.forall_mem_cons]
  refine ⟨⟨⟨⟨⟨⟨?_, ?_, ?_, nofun⟩, hrequires⟩, ?_⟩, ?_⟩, ?_⟩, hprovides⟩
  · simp [hname]
  · simp
  · simp [hversionText]
  · intro row hrow
    exact hexports row hrow "exports" (by decide)
  · intro row hrow
    exact hopens row hrow "opens" (by decide)
  · intro name hname
    simp [huses name hname]

/-! ## Attributes -/

/-- The rows of an attribute that no constant is resolved for have no line feed, those of the
attributes inside it apart. -/
def Attribute.OneLine : Attribute → Prop
  | .code body => ∀ row ∈ body.handlers, Text.OneLine (handlerText row)
  | .stackMapTable frames => ∀ frame ∈ frames, Text.OneLine frame.text
  | .exceptions names | .modulePackages names | .nestMembers names | .permittedSubclasses names =>
      ∀ name ∈ names, Text.OneLine name
  | .innerClasses rows => ∀ row ∈ rows, Text.OneLine (innerClassText row)
  | .enclosingMethod owner method => Text.OneLine (enclosingText owner method)
  | .signature text | .sourceFile text | .moduleMainClass text | .nestHost text => Text.OneLine text
  | .localVariableTable rows | .localVariableTypeTable rows =>
      ∀ row ∈ rows, Text.OneLine (variableText row)
  | .annotations _ list => ∀ item ∈ list, Text.OneLine item.text
  | .parameterAnnotations _ parameters => ∀ list ∈ parameters, ∀ item ∈ list,
      Text.OneLine item.text
  | .typeAnnotations _ list => ∀ item ∈ list, Text.OneLine item.text
  | .annotationDefault value => Text.OneLine value.text
  | .methodParameters rows => ∀ row ∈ rows, Text.OneLine (parameterText row)
  | .moduleInfo declaration => ∀ row ∈ moduleRows declaration, Text.OneLine row
  | .record components => ∀ component ∈ components,
      Text.OneLine component.name ∧ Text.OneLine component.descriptor
  | .unrecognized name _ => Text.OneLine name
  | .constantValue _ | .synthetic | .sourceDebugExtension _ | .lineNumberTable _ | .deprecated
  | .bootstrapMethods _ => True

theorem Code.decode_gives_oneLine (nested : Decoder (List Attribute)) :
    Gives (fun body => ∀ row ∈ body.handlers, OneLine (handlerText row))
      (Code.decode pool nested) := by
  have hhandler : Gives (fun row => OneLine (handlerText row)) (ExceptionHandler.decode pool) := by
    refine .bind fun start => .bind fun stop => .bind fun handler =>
      (Gives.optional (Pool.className_oneLine h)).map fun caught hcaught => ?_
    have hname : OneLine (caught.getD "any") := OneLine.getD hcaught (by decide)
    simp [handlerText, hname]
  refine .bind fun _ => .bind fun _ => .bind fun length => .ite (.throw _) ?_
  exact .bind fun _ => .bind fun _ => .bind fun _ => hhandler.countedU2.andThen fun _ hhandlers =>
    .bind fun _ => .pure hhandlers

theorem LocalVariable.decode_gives_oneLine :
    Gives (fun row => OneLine (variableText row)) (LocalVariable.decode pool) := by
  refine .bind fun start => .bind fun length => (Pool.utf8_gives h).andThen fun name hname =>
    (Pool.utf8_gives h).andThen fun type htype => .bind fun slot => .pure ?_
  simp [variableText, hname, htype]

theorem InnerClass.decode_gives_oneLine :
    Gives (fun row => OneLine (innerClassText row)) (InnerClass.decode pool) := by
  refine (Pool.className_gives h).andThen fun inner hinner =>
    (Gives.optional (Pool.className_oneLine h)).andThen fun outer houter =>
    (Gives.optional (Pool.utf8_oneLine h)).andThen fun name hname => .bind fun flags => .pure ?_
  have houterText : OneLine (orNone outer) := OneLine.getD houter (by decide)
  have hnameText : OneLine (orNone name) := OneLine.getD hname (by decide)
  simp [innerClassText, hinner, houterText, hnameText]

theorem MethodParameter.decode_gives_oneLine :
    Gives (fun row => OneLine (parameterText row)) (MethodParameter.decode pool) := by
  refine (Gives.optional (Pool.utf8_oneLine h)).andThen fun name hname =>
    .bind fun flags => .pure ?_
  have hnameText : OneLine (name.getD "<no name>") := OneLine.getD hname (by decide)
  simp [parameterText, hnameText]

theorem Attribute.decodeBody_gives_oneLine (nested : Decoder (List Attribute))
    (kind : AttributeKind) : Gives Attribute.OneLine (decodeBody pool nested kind) := by
  have hclasses := (Pool.className_gives h).countedU2
  have hannotations := (decodeWithin_gives_oneLine h (maxAnnotationDepth + 1)).1.countedU2
  cases kind with
  | code => exact (Code.decode_gives_oneLine h nested).map fun _ hbody => hbody
  | stackMapTable => exact (Frame.decode_gives_oneLine h).countedU2.map fun _ hframes => hframes
  | exceptions => exact hclasses.map fun _ hnames => hnames
  | innerClasses => exact (InnerClass.decode_gives_oneLine h).countedU2.map fun _ hrows => hrows
  | enclosingMethod =>
      refine (Pool.className_gives h).andThen fun owner howner =>
        (Gives.optional (Pool.nameAndType_oneLine h)).map fun method hmethod => ?_
      cases method with
      | none => exact howner
      | some method =>
          have htext := hmethod method rfl
          simp [Attribute.OneLine, enclosingText, howner, htext]
  | signature => exact (Pool.utf8_gives h).map fun _ htext => htext
  | sourceFile => exact (Pool.utf8_gives h).map fun _ htext => htext
  | localVariableTable =>
      exact (LocalVariable.decode_gives_oneLine h).countedU2.map fun _ hrows => hrows
  | localVariableTypeTable =>
      exact (LocalVariable.decode_gives_oneLine h).countedU2.map fun _ hrows => hrows
  | annotations visible => exact hannotations.map fun _ hlist => hlist
  | parameterAnnotations visible => exact hannotations.countedU1.map fun _ hlists => hlists
  | typeAnnotations visible =>
      exact (TypeAnnotationUse.decode_gives_oneLine h).countedU2.map fun _ hlist => hlist
  | annotationDefault => exact (decodeWithin_gives_oneLine h _).2.map fun _ hvalue => hvalue
  | methodParameters =>
      exact (MethodParameter.decode_gives_oneLine h).countedU1.map fun _ hrows => hrows
  | moduleInfo => exact (ModuleDeclaration.decode_gives_oneLine h).map fun _ hrows => hrows
  | modulePackages => exact (Pool.packageName_gives h).countedU2.map fun _ hnames => hnames
  | moduleMainClass => exact (Pool.className_gives h).map fun _ hname => hname
  | nestHost => exact (Pool.className_gives h).map fun _ hname => hname
  | nestMembers => exact hclasses.map fun _ hnames => hnames
  | record =>
      have hcomponent : Gives (fun component : RecordComponent =>
          Text.OneLine component.name ∧ Text.OneLine component.descriptor)
          (RecordComponent.decode pool nested) :=
        (Pool.utf8_gives h).andThen fun _ hname => (Pool.utf8_gives h).andThen fun _ htype =>
          .bind fun _ => .pure ⟨hname, htype⟩
      exact hcomponent.countedU2.map fun _ hcomponents => hcomponents
  | permittedSubclasses => exact hclasses.map fun _ hnames => hnames
  | synthetic => exact .pure trivial
  | deprecated => exact .pure trivial
  | _ => exact .bind fun _ => .pure trivial

end Decoding

end ClassListing
