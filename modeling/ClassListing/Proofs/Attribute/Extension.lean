import ClassListing.Attribute.Decode
import ClassListing.Proofs.Cursor.Extension

/-!
# Attributes and the bytes behind them

Every body but that of a source debug extension says by its own contents where it ends: its decoder
streams. The declared length must therefore be exact. With more bytes some are left unread, with
fewer some are missing, and in both cases it is the attribute itself that is blamed, whatever stands
in it.
-/

namespace ClassListing

open Decoder

/-! ## The parts of a body -/

theorem VerificationType.decode_streams (pool : Pool) :
    Streams (VerificationType.decode pool) := by
  refine .bind .u1 fun tag => ?_
  split
  case h_8 => exact .map (.reference _) _
  case h_9 => exact .map .u2 _
  case h_10 => exact .throw _
  all_goals exact .pure _

theorem VerificationType.decodeMany_streams (pool : Pool) (count : Nat) :
    Streams (VerificationType.decodeMany pool count) :=
  .bind (.ensure count) fun _ => .many (VerificationType.decode_streams pool) count

theorem Frame.decode_streams (pool : Pool) : Streams (Frame.decode pool) := by
  have htype := VerificationType.decode_streams pool
  have htypes := VerificationType.decodeMany_streams pool
  refine .bind .u1 fun type => ?_
  refine .ite (.pure _) ?_
  refine .ite (.map htype _) ?_
  refine .ite (.throw _) ?_
  refine .ite (.bind .u2 fun _ => .map htype _) ?_
  refine .ite (.map .u2 _) ?_
  refine .ite (.map .u2 _) ?_
  refine .ite (.bind .u2 fun _ => .map (htypes _) _) ?_
  exact .bind .u2 fun _ => .bind .u2 fun _ => .bind (htypes _) fun _ => .bind .u2 fun _ =>
    .map (htypes _) _

theorem ElementValue.decodeScalar?_streams {pool : Pool} {tag : Char}
    {decoder : Decoder ElementValue} (h : decodeScalar? pool tag = some decoder) :
    Streams decoder := by
  unfold decodeScalar? at h
  split at h <;> cases h
  case h_10 => exact .bind (.reference _) fun _ => .map (.reference _) _
  all_goals exact .map (.reference _) _

/-- Annotations and element values together, by the levels that are still allowed. -/
theorem decodeWithin_streams (pool : Pool) (budget : Nat) :
    Streams (AnnotationUse.decodeWithin pool budget) ∧
      Streams (ElementValue.decodeWithin pool budget) := by
  induction budget with
  | zero =>
      unfold AnnotationUse.decodeWithin ElementValue.decodeWithin
      exact ⟨.throw _, .throw _⟩
  | succ budget ih =>
      constructor
      · unfold AnnotationUse.decodeWithin
        exact .bind (.reference _) fun _ =>
          .map (.countedU2 (.bind (.reference _) fun _ => .map ih.2 _)) _
      · unfold ElementValue.decodeWithin
        refine .bind .u1 fun tag => ?_
        split
        · exact .map ih.1 _
        · exact .map (.countedU2 ih.2) _
        · split
          · exact ElementValue.decodeScalar?_streams ‹_›
          · exact .throw _

theorem AnnotationUse.decodeList_streams (pool : Pool) :
    Streams (AnnotationUse.decodeList pool) :=
  .countedU2 (decodeWithin_streams pool _).1

theorem TypeTarget.decode_streams (type : UInt8) : Streams (TypeTarget.decode type) := by
  unfold TypeTarget.decode
  refine .ite (.map .u1 _) ?_
  refine .ite (.map .u2 _) ?_
  refine .ite (.bind .u1 fun _ => .map .u1 _) ?_
  refine .ite (.pure _) ?_
  refine .ite (.map .u1 _) ?_
  refine .ite (.map .u2 _) ?_
  refine .ite (.map (.countedU2 (.bind .u2 fun _ => .bind .u2 fun _ => .map .u2 _)) _) ?_
  refine .ite (.map .u2 _) ?_
  refine .ite (.map .u2 _) ?_
  refine .ite (.bind .u2 fun _ => .map .u1 _) ?_
  exact .throw _

theorem TypeAnnotationUse.decode_streams (pool : Pool) :
    Streams (TypeAnnotationUse.decode pool) :=
  .bind .u1 fun type => .bind (TypeTarget.decode_streams type) fun _ =>
    .bind (.countedU1 (.bind .u1 fun _ => .map .u1 _)) fun _ =>
    .map (decodeWithin_streams pool _).1 _

theorem ModuleDeclaration.decode_streams (pool : Pool) :
    Streams (ModuleDeclaration.decode pool) := by
  have hgrants : Streams (countedU2 (PackageGrant.decode pool)) :=
    .countedU2 (.bind (.reference _) fun _ => .bind .u2 fun _ =>
      .map (.countedU2 (.reference _)) _)
  refine .bind (.reference _) fun _ => .bind .u2 fun _ => .bind (.reference _) fun _ =>
    .bind (.countedU2 ?_) fun _ => .bind hgrants fun _ => .bind hgrants fun _ =>
    .bind (.countedU2 (.reference _)) fun _ => .map (.countedU2 ?_) _
  · exact .bind (.reference _) fun _ => .bind .u2 fun _ => .map (.reference _) _
  · exact .bind (.reference _) fun _ => .map (.countedU2 (.reference _)) _

/-- The bytecode is taken in full before it is looked at. -/
theorem Code.decode_streams (pool : Pool) {nested : Decoder (List Attribute)}
    (hnested : Streams nested) : Streams (Code.decode pool nested) := by
  refine .bind .u2 fun _ => .bind .u2 fun _ => .bind .u4 fun length => .ite (.throw _) ?_
  refine .bind (.take length.toNat) fun bytes => .bind (.lookup _) fun _ =>
    .bind (.lookup _) fun _ => .bind (.countedU2 ?_) fun _ => .map hnested _
  exact .bind .u2 fun _ => .bind .u2 fun _ => .bind .u2 fun _ => .map (.reference _) _

namespace Attribute

/-- The body of an attribute is decoded apart, so only its declared length matters. -/
theorem decodeOne_streams (pool : Pool) (nested : Decoder (List Attribute)) :
    Streams (decodeOne pool nested) :=
  .bind .u2 fun index => .bind .u4 fun length => .bind (.take length.toNat) fun body =>
    .bind (.lookup (pool.utf8 index)) fun name => .lookup (ofBody pool nested name body)

theorem decodeWithin_streams (pool : Pool) (budget : Nat) :
    Streams (decodeWithin pool budget) := by
  cases budget with
  | zero => exact .throw _
  | succ budget => exact .countedU2 (decodeOne_streams pool _)

/-! ## Bodies -/

theorem decodeBody_streams (pool : Pool) {nested : Decoder (List Attribute)}
    (hnested : Streams nested) {kind : AttributeKind} (hk : kind ≠ .sourceDebugExtension) :
    Streams (decodeBody pool nested kind) := by
  have hclasses : Streams (countedU2 (reference pool.className)) := .countedU2 (.reference _)
  have hvariables : Streams (countedU2 (LocalVariable.decode pool)) :=
    .countedU2 (.bind .u2 fun _ => .bind .u2 fun _ => .bind (.reference _) fun _ =>
      .bind (.reference _) fun _ => .map .u2 _)
  cases kind with
  | constantValue => exact .map (.reference _) _
  | code => exact .map (Code.decode_streams pool hnested) _
  | stackMapTable => exact .map (.countedU2 (Frame.decode_streams pool)) _
  | exceptions => exact .map hclasses _
  | innerClasses =>
      exact .map (.countedU2 (.bind (.reference _) fun _ => .bind (.reference _) fun _ =>
        .bind (.reference _) fun _ => .map .u2 _)) _
  | enclosingMethod => exact .bind (.reference _) fun _ => .map (.reference _) _
  | synthetic => exact .pure _
  | signature => exact .map (.reference _) _
  | sourceFile => exact .map (.reference _) _
  | sourceDebugExtension => exact (hk rfl).elim
  | lineNumberTable => exact .map (.countedU2 (.bind .u2 fun _ => .map .u2 _)) _
  | localVariableTable => exact .map hvariables _
  | localVariableTypeTable => exact .map hvariables _
  | deprecated => exact .pure _
  | annotations visible => exact .map (AnnotationUse.decodeList_streams pool) _
  | parameterAnnotations visible =>
      exact .map (.countedU1 (AnnotationUse.decodeList_streams pool)) _
  | typeAnnotations visible =>
      exact .map (.countedU2 (TypeAnnotationUse.decode_streams pool)) _
  | annotationDefault => exact .map (ClassListing.decodeWithin_streams pool _).2 _
  | bootstrapMethods =>
      exact .map (.countedU2 (.bind .u2 fun _ => .map (.countedU2 .u2) _)) _
  | methodParameters => exact .map (.countedU1 (.bind (.reference _) fun _ => .map .u2 _)) _
  | moduleInfo => exact .map (ModuleDeclaration.decode_streams pool) _
  | modulePackages => exact .map (.countedU2 (.reference _)) _
  | moduleMainClass => exact .map (.reference _) _
  | nestHost => exact .map (.reference _) _
  | nestMembers => exact .map hclasses _
  | record =>
      exact .map (.countedU2 (.bind (.reference _) fun _ => .bind (.reference _) fun _ =>
        .map hnested _)) _
  | permittedSubclasses => exact .map hclasses _

section WholeBody

variable {name : String} {decoder : Decoder Attribute}

theorem wholeBody_of_ok {body : Bytes} {value : Attribute} {stopped : Cursor}
    (h : decoder (.start body) = .ok value stopped) :
    wholeBody name body decoder =
      if stopped.rest = [] then .ok value
      else .error (.attributeBody name (.leftUnread stopped.rest.length body.length)) := by
  simp only [wholeBody, EStateM.run, h, List.isEmpty_iff]

theorem wholeBody_eq_ok_iff {body : Bytes} {value : Attribute} :
    wholeBody name body decoder = .ok value ↔
      ∃ stopped, decoder (.start body) = .ok value stopped ∧ stopped.rest = [] := by
  cases hd : decoder (.start body) with
  | ok found stopped =>
      rw [wholeBody_of_ok hd]
      constructor
      · intro h
        split at h <;> cases h
        exact ⟨stopped, rfl, ‹_›⟩
      · intro h
        rcases h with ⟨_, hsame, hr⟩
        cases hsame
        rw [if_pos hr]
  | error error stopped => cases error <;> simp [wholeBody, EStateM.run, hd]

variable (hs : Streams decoder)
include hs

/-- Bytes behind an accepted body are left unread. -/
theorem wholeBody_append {body suffix : Bytes} {value : Attribute}
    (h : wholeBody name body decoder = .ok value) (hne : suffix ≠ []) :
    wholeBody name (body ++ suffix) decoder =
      .error (.attributeBody name (.leftUnread suffix.length (body.length + suffix.length))) := by
  obtain ⟨stopped, hd, hr⟩ := wholeBody_eq_ok_iff.mp h
  have hlonger := hs.value suffix hd
  have hrest : (stopped.extend suffix).rest = suffix := by
    rw [Cursor.extend_rest, hr, List.nil_append]
  rw [← Cursor.start_append] at hlonger
  rw [wholeBody_of_ok hlonger, hrest, if_neg hne, List.length_append]

/-- What is cut off from an accepted body is missed. -/
theorem wholeBody_front {front back : Bytes} {value : Attribute}
    (h : wholeBody name (front ++ back) decoder = .ok value) (hne : back ≠ []) :
    wholeBody name front decoder = .error (.attributeBody name (.needsMore front.length)) := by
  obtain ⟨stopped, hd, hr⟩ := wholeBody_eq_ok_iff.mp h
  rw [Cursor.start_append] at hd
  cases hf : decoder (.start front) with
  | ok found middle =>
      -- The same value is found, with all of `back` unread.
      rw [hs.value back hf] at hd
      cases hd
      rw [Cursor.extend_rest, List.append_eq_nil_iff] at hr
      exact (hne hr.2).elim
  | error error middle =>
      by_cases ht : error = .truncated
      · simp only [wholeBody, EStateM.run, hf, ht]
      · rw [hs.fault back hf ht] at hd
        cases hd

end WholeBody

/--
The declared length of a body is the one that its contents ask for. Behind an accepted body
nothing may follow, and no part of it can be missing, at any depth and whatever is nested in it.
-/
theorem ofBody_self_delimiting (pool : Pool) (budget : Nat) (kind : AttributeKind)
    (hk : kind ≠ .sourceDebugExtension) (body : Bytes) (value : Attribute)
    (h : ofBody pool (decodeWithin pool budget) kind.name body = .ok value) :
    (∀ suffix, suffix ≠ [] →
      ofBody pool (decodeWithin pool budget) kind.name (body ++ suffix) = .error
        (.attributeBody kind.name (.leftUnread suffix.length (body.length + suffix.length)))) ∧
    (∀ front back, body = front ++ back → back ≠ [] →
      ofBody pool (decodeWithin pool budget) kind.name front =
        .error (.attributeBody kind.name (.needsMore front.length))) := by
  have hwhole (bytes : Bytes) : ofBody pool (decodeWithin pool budget) kind.name bytes =
      wholeBody kind.name bytes (decodeBody pool (decodeWithin pool budget) kind) := by
    simp only [ofBody, kind.ofName?_name]
  have hs := decodeBody_streams pool (decodeWithin_streams pool budget) hk
  simp only [hwhole] at h ⊢
  constructor
  · intro suffix hne
    exact wholeBody_append hs h hne
  · rintro front back rfl hne
    exact wholeBody_front hs h hne

def codePool : Pool := ⟨#[none, some (.utf8 "LineNumberTable")], []⟩

def codeBody : Bytes :=
  [0, 0, 0, 1, 0, 0, 0, 1, 0xB1, 0, 0, 0, 1, 0, 1, 0, 0, 0, 6, 0, 1, 0, 0, 0, 9]

theorem ofBody_self_delimiting_code :
    (ofBody codePool (decodeWithin codePool 1) "Code" codeBody).isOk ∧
      ofBody codePool (decodeWithin codePool 1) "Code" (codeBody ++ [7]) =
        .error (.attributeBody "Code" (.leftUnread 1 26)) ∧
      ofBody codePool (decodeWithin codePool 1) "Code" (codeBody.take 21) =
        .error (.attributeBody "Code" (.needsMore 21)) := by
  have hok : (ofBody codePool (decodeWithin codePool 1) "Code" codeBody).isOk := by decide +kernel
  cases h : ofBody codePool (decodeWithin codePool 1) "Code" codeBody with
  | error error =>
      rw [h] at hok
      cases hok
  | ok value =>
      have hself := ofBody_self_delimiting codePool 1 .code nofun codeBody value h
      exact ⟨rfl, hself.1 [7] nofun, hself.2 _ (codeBody.drop 21) rfl nofun⟩

end Attribute

end ClassListing
