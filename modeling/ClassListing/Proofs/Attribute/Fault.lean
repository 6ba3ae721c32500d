import ClassListing.Attribute.Decode
import ClassListing.Proofs.Code.Fault
import ClassListing.Proofs.Constant.Fault

/-!
# The errors of attributes

What stands between the magic number and the last attribute of a class file is refused for a
reason that lies in it. No decoder of an attribute, at any depth, blames the magic number of the
class file or what follows its end.
-/

namespace ClassListing

open Decoder Error

namespace Decoder.Blames

/-- An index that is looked up in the constant pool. -/
theorem referenceTo {find : UInt16 → Except Error α}
    (h : ∀ index, ClassListing.Blames OfReference (find index)) :
    Blames OfContent (Decoder.reference find) :=
  .reference trivial fun index => (h index).mono OfReference.ofContent

end Decoder.Blames

/-! ## Stack map frames -/

theorem VerificationType.decode_blames (pool : Pool) :
    Decoder.Blames OfContent (VerificationType.decode pool) := by
  refine .bind (.u1 trivial) fun tag => ?_
  split
  case h_8 => exact .map (.referenceTo pool.className_blames) _
  case h_9 => exact .map (.u2 trivial) _
  case h_10 => exact .throw trivial
  all_goals exact .pure _

theorem VerificationType.decodeMany_blames (pool : Pool) (count : Nat) :
    Decoder.Blames OfContent (VerificationType.decodeMany pool count) :=
  .bind (.ensure trivial count) fun _ => .many (VerificationType.decode_blames pool) count

theorem Frame.decode_blames (pool : Pool) : Decoder.Blames OfContent (Frame.decode pool) := by
  have htype := VerificationType.decode_blames pool
  have htypes := VerificationType.decodeMany_blames pool
  refine .bind (.u1 trivial) fun type => ?_
  refine .ite (.pure _) ?_
  refine .ite (.map htype _) ?_
  refine .ite (.throw trivial) ?_
  refine .ite (.bind (.u2 trivial) fun _ => .map htype _) ?_
  refine .ite (.map (.u2 trivial) _) ?_
  refine .ite (.map (.u2 trivial) _) ?_
  refine .ite (.bind (.u2 trivial) fun _ => .map (htypes _) _) ?_
  exact .bind (.u2 trivial) fun _ => .bind (.u2 trivial) fun _ => .bind (htypes _) fun _ =>
    .bind (.u2 trivial) fun _ => .map (htypes _) _

/-! ## Annotations -/

theorem FieldType.parse_blames (descriptor : String) :
    Blames OfContent (FieldType.parse descriptor) := by
  unfold FieldType.parse ofDescriptor
  split
  · exact .ok _
  · exact .error trivial

theorem Pool.typeName_blames (pool : Pool) (index : UInt16) :
    Blames OfContent (pool.typeName index) :=
  .bind ((pool.utf8_blames index).mono OfReference.ofContent) fun descriptor =>
    .bind (FieldType.parse_blames descriptor) fun _ => .ok _

theorem Pool.literalType_blames (pool : Pool) (index : UInt16) :
    Blames OfContent (pool.literalType index) := by
  refine .bind ((pool.utf8_blames index).mono OfReference.ofContent) fun descriptor => ?_
  split
  · exact .ok _
  · exact .bind (FieldType.parse_blames descriptor) fun _ => .ok _

theorem ElementValue.decodeScalar?_blames {pool : Pool} {tag : Char}
    {decoder : Decoder ElementValue} (h : decodeScalar? pool tag = some decoder) :
    Decoder.Blames OfContent decoder := by
  unfold decodeScalar? at h
  split at h <;> cases h
  case h_3 => exact .map (.referenceTo pool.double_blames) _
  case h_4 => exact .map (.referenceTo pool.float_blames) _
  case h_6 => exact .map (.referenceTo pool.long_blames) _
  case h_9 => exact .map (.referenceTo pool.utf8_blames) _
  case h_10 =>
    exact .bind (.reference trivial pool.typeName_blames) fun _ =>
      .map (.referenceTo pool.utf8_blames) _
  case h_11 => exact .map (.reference trivial pool.literalType_blames) _
  all_goals exact .map (.referenceTo pool.integer_blames) _

/-- Annotations and element values together, by the levels that are still allowed. -/
theorem decodeWithin_blames (pool : Pool) (budget : Nat) :
    Decoder.Blames OfContent (AnnotationUse.decodeWithin pool budget) ∧
      Decoder.Blames OfContent (ElementValue.decodeWithin pool budget) := by
  induction budget with
  | zero =>
      unfold AnnotationUse.decodeWithin ElementValue.decodeWithin
      exact ⟨.throw trivial, .throw trivial⟩
  | succ budget ih =>
      constructor
      · unfold AnnotationUse.decodeWithin
        exact .bind (.reference trivial pool.typeName_blames) fun _ =>
          .map (.countedU2 trivial (.bind (.referenceTo pool.utf8_blames) fun _ =>
            .map ih.2 _)) _
      · unfold ElementValue.decodeWithin
        refine .bind (.u1 trivial) fun tag => ?_
        split
        · exact .map ih.1 _
        · exact .map (.countedU2 trivial ih.2) _
        · split
          · exact ElementValue.decodeScalar?_blames ‹_›
          · exact .throw trivial

theorem TypeTarget.decode_blames (type : UInt8) :
    Decoder.Blames OfContent (TypeTarget.decode type) := by
  unfold TypeTarget.decode
  refine .ite (.map (.u1 trivial) _) ?_
  refine .ite (.map (.u2 trivial) _) ?_
  refine .ite (.bind (.u1 trivial) fun _ => .map (.u1 trivial) _) ?_
  refine .ite (.pure _) ?_
  refine .ite (.map (.u1 trivial) _) ?_
  refine .ite (.map (.u2 trivial) _) ?_
  refine .ite (.map (.countedU2 trivial (.bind (.u2 trivial) fun _ => .bind (.u2 trivial) fun _ =>
    .map (.u2 trivial) _)) _) ?_
  refine .ite (.map (.u2 trivial) _) ?_
  refine .ite (.map (.u2 trivial) _) ?_
  refine .ite (.bind (.u2 trivial) fun _ => .map (.u1 trivial) _) ?_
  exact .throw trivial

theorem AnnotationUse.decodeList_blames (pool : Pool) :
    Decoder.Blames OfContent (AnnotationUse.decodeList pool) :=
  .countedU2 trivial (decodeWithin_blames pool _).1

theorem TypeAnnotationUse.decode_blames (pool : Pool) :
    Decoder.Blames OfContent (TypeAnnotationUse.decode pool) :=
  .bind (.u1 trivial) fun type => .bind (TypeTarget.decode_blames type) fun _ =>
    .bind (.countedU1 trivial (.bind (.u1 trivial) fun _ => .map (.u1 trivial) _)) fun _ =>
      .map (decodeWithin_blames pool _).1 _

/-! ## Module declarations -/

theorem ModuleDeclaration.decode_blames (pool : Pool) :
    Decoder.Blames OfContent (ModuleDeclaration.decode pool) := by
  have hversion : Decoder.Blames OfContent (reference (Pool.optional pool.utf8)) :=
    .referenceTo (Pool.optional_blames pool.utf8_blames)
  have hclasses : Decoder.Blames OfContent (countedU2 (reference pool.className)) :=
    .countedU2 trivial (.referenceTo pool.className_blames)
  have hgrants : Decoder.Blames OfContent (countedU2 (PackageGrant.decode pool)) :=
    .countedU2 trivial (.bind (.referenceTo pool.packageName_blames) fun _ =>
      .bind (.u2 trivial) fun _ =>
        .map (.countedU2 trivial (.referenceTo pool.moduleName_blames)) _)
  refine .bind (.referenceTo pool.moduleName_blames) fun _ => .bind (.u2 trivial) fun _ =>
    .bind hversion fun _ => .bind (.countedU2 trivial ?_) fun _ => .bind hgrants fun _ =>
    .bind hgrants fun _ => .bind hclasses fun _ => .map (.countedU2 trivial ?_) _
  · exact .bind (.referenceTo pool.moduleName_blames) fun _ => .bind (.u2 trivial) fun _ =>
      .map hversion _
  · exact .bind (.referenceTo pool.className_blames) fun _ => .map hclasses _

/-! ## Attributes -/

theorem Pool.checkOperands_blames (pool : Pool) (instruction : Instruction) :
    Blames OfReference (pool.checkOperands instruction) := by
  unfold checkOperands
  split
  · exact .forM (fun index => .bind (pool.operand_blames index _) fun _ => .ok ()) _
  · exact .ok ()

theorem Pool.checkCode_blames (pool : Pool) (instructions : List Instruction) :
    Blames OfReference (pool.checkCode instructions) :=
  .forM pool.checkOperands_blames instructions

section Nested

variable (pool : Pool) {nested : Decoder (List Attribute)}
  (hnested : Decoder.Blames OfContent nested)
include hnested

theorem Code.decode_blames : Decoder.Blames OfContent (Code.decode pool nested) := by
  refine .bind (.u2 trivial) fun _ => .bind (.u2 trivial) fun _ => .bind (.u4 trivial) fun length =>
    .ite (.throw trivial) ?_
  refine .bind (.take trivial length.toNat) fun bytes =>
    .bind (.lookup ((Instruction.decodeAll_blames bytes).mono OfCode.ofContent)) fun instructions =>
    .bind (.lookup ((pool.checkCode_blames instructions).mono OfReference.ofContent)) fun _ =>
    .bind (.countedU2 trivial ?_) fun _ => .map hnested _
  exact .bind (.u2 trivial) fun _ => .bind (.u2 trivial) fun _ => .bind (.u2 trivial) fun _ =>
    .map (.referenceTo (Pool.optional_blames pool.className_blames)) _

theorem RecordComponent.decode_blames :
    Decoder.Blames OfContent (RecordComponent.decode pool nested) :=
  .bind (.referenceTo pool.utf8_blames) fun _ => .bind (.referenceTo pool.utf8_blames) fun _ =>
    .map hnested _

theorem Attribute.decodeBody_blames (kind : AttributeKind) :
    Decoder.Blames OfContent (Attribute.decodeBody pool nested kind) := by
  have hutf8 := Decoder.Blames.referenceTo pool.utf8_blames
  have hclass := Decoder.Blames.referenceTo pool.className_blames
  have hclasses := Decoder.Blames.countedU2 trivial hclass
  have hvariables : Decoder.Blames OfContent (countedU2 (LocalVariable.decode pool)) :=
    .countedU2 trivial (.bind (.u2 trivial) fun _ => .bind (.u2 trivial) fun _ =>
      .bind hutf8 fun _ => .bind hutf8 fun _ => .map (.u2 trivial) _)
  cases kind with
  | constantValue => exact .map (.referenceTo pool.constantValue_blames) _
  | code => exact .map (Code.decode_blames pool hnested) _
  | stackMapTable => exact .map (.countedU2 trivial (Frame.decode_blames pool)) _
  | exceptions => exact .map hclasses _
  | innerClasses =>
      exact .map (.countedU2 trivial (.bind hclass fun _ =>
        .bind (.referenceTo (Pool.optional_blames pool.className_blames)) fun _ =>
        .bind (.referenceTo (Pool.optional_blames pool.utf8_blames)) fun _ =>
        .map (.u2 trivial) _)) _
  | enclosingMethod =>
      exact .bind hclass fun _ =>
        .map (.referenceTo (Pool.optional_blames pool.nameAndType_blames)) _
  | synthetic => exact .pure _
  | signature => exact .map hutf8 _
  | sourceFile => exact .map hutf8 _
  | sourceDebugExtension => exact .map (.bind (.remaining) fun count => .text trivial count) _
  | lineNumberTable =>
      exact .map (.countedU2 trivial (.bind (.u2 trivial) fun _ => .map (.u2 trivial) _)) _
  | localVariableTable => exact .map hvariables _
  | localVariableTypeTable => exact .map hvariables _
  | deprecated => exact .pure _
  | annotations visible => exact .map (AnnotationUse.decodeList_blames pool) _
  | parameterAnnotations visible =>
      exact .map (.countedU1 trivial (AnnotationUse.decodeList_blames pool)) _
  | typeAnnotations visible =>
      exact .map (.countedU2 trivial (TypeAnnotationUse.decode_blames pool)) _
  | annotationDefault => exact .map (decodeWithin_blames pool _).2 _
  | bootstrapMethods =>
      exact .map (.countedU2 trivial (.bind (.u2 trivial) fun _ =>
        .map (.countedU2 trivial (.u2 trivial)) _)) _
  | methodParameters =>
      exact .map (.countedU1 trivial (.bind
        (.referenceTo (Pool.optional_blames pool.utf8_blames)) fun _ => .map (.u2 trivial) _)) _
  | moduleInfo => exact .map (ModuleDeclaration.decode_blames pool) _
  | modulePackages => exact .map (.countedU2 trivial (.referenceTo pool.packageName_blames)) _
  | moduleMainClass => exact .map hclass _
  | nestHost => exact .map hclass _
  | nestMembers => exact .map hclasses _
  | record => exact .map (.countedU2 trivial (RecordComponent.decode_blames pool hnested)) _
  | permittedSubclasses => exact .map hclasses _

theorem Attribute.ofBody_blames (name : String) (body : Bytes) :
    Blames OfContent (Attribute.ofBody pool nested name body) := by
  intro error h
  unfold Attribute.ofBody at h
  cases hk : AttributeKind.ofName? name with
  | none => simp [hk] at h
  | some kind =>
      simp only [hk, wholeBody, EStateM.run] at h
      split at h
      · split at h <;> cases h
        trivial
      · cases h
        trivial
      · cases h
        trivial
      · cases h
        exact Attribute.decodeBody_blames pool hnested kind _ _ _ ‹_›

theorem Attribute.decodeOne_blames : Decoder.Blames OfContent (Attribute.decodeOne pool nested) :=
  .bind (.u2 trivial) fun index => .bind (.u4 trivial) fun length =>
    .bind (.take trivial length.toNat) fun body =>
    .bind (.lookup ((pool.utf8_blames index).mono OfReference.ofContent)) fun name =>
    .lookup (Attribute.ofBody_blames pool hnested name body)

end Nested

theorem Attribute.decodeWithin_blames (pool : Pool) (budget : Nat) :
    Decoder.Blames OfContent (Attribute.decodeWithin pool budget) := by
  induction budget with
  | zero => exact .throw trivial
  | succ budget ih => exact .countedU2 trivial (Attribute.decodeOne_blames pool ih)

end ClassListing
