import ClassListing.Proofs.Attribute.Extension
import ClassListing.Proofs.Cursor.Comparison

/-!
# Attribute lists without a limit on their depth

A list inside another one has fewer bytes, so lists of any depth can be decoded without counting
the levels. The limit on the depth only cuts this off: a list that keeps to it is decoded to the
same value, one that does not is refused for this reason, and nothing else is accepted.
-/

namespace ClassListing

open Decoder

namespace Attribute

/-- An attribute list of any depth. The bytes of a list inside it are fewer than its own; the
decoder is never asked for any other. -/
def decodeUnlimited (pool : Pool) (cursor : Cursor) :
    EStateM.Result Error Cursor (List Attribute) :=
  countedU2 (decodeOne pool fun inner =>
    if inner.rest.length < cursor.rest.length then decodeUnlimited pool inner
    else .error .truncated inner) cursor
termination_by cursor.rest.length

/-! ## Levels of lists -/

mutual

def innerLevels : Attribute → Nat
  | .code ⟨_, _, _, _, _, attributes⟩ => levels attributes
  | .record components => componentLevels components
  | _ => 0

/-- The levels of a list, which is one of them even if it is empty. -/
def levels : List Attribute → Nat
  | [] => 1
  | item :: rest => max (innerLevels item + 1) (levels rest)

def componentLevels : List RecordComponent → Nat
  | [] => 0
  | ⟨_, _, attributes⟩ :: rest => max (levels attributes) (componentLevels rest)

end

theorem componentLevels_le_iff {components : List RecordComponent} {limit : Nat} :
    componentLevels components ≤ limit ↔
      ∀ component ∈ components, levels component.attributes ≤ limit := by
  induction components with
  | nil => simp [componentLevels]
  | cons component components ih =>
      cases component
      rw [componentLevels, Nat.max_le, ih, List.forall_mem_cons]

@[simp] theorem innerLevels_code (body : Code) :
    innerLevels (.code body) = levels body.attributes := by
  cases body
  rw [innerLevels]

theorem levels_le_succ_iff {list : List Attribute} {limit : Nat} :
    levels list ≤ limit + 1 ↔ ∀ item ∈ list, innerLevels item ≤ limit := by
  induction list with
  | nil => simp [levels]
  | cons item list ih => rw [levels, Nat.max_le, ih, List.forall_mem_cons, Nat.succ_le_succ_iff]

theorem levels_pos (list : List Attribute) : 0 < levels list := by
  cases list with
  | nil => simp [levels]
  | cons item rest =>
      rw [levels]
      omega

/-! ## The equation of the decoder -/

section Agreement

variable {pool : Pool} {first second : Decoder (List Attribute)} {size : Nat}

theorem decodeOne_nonGrowing (pool : Pool) (nested : Decoder (List Attribute)) :
    NonGrowing (decodeOne pool nested) :=
  .bind .u2 fun _ => .bind .u4 fun _ => .bind (.take _) fun _ => .bind (.lookup _) fun _ =>
    .lookup _

theorem decodeUnlimited_nonGrowing (pool : Pool) : NonGrowing (decodeUnlimited pool) := by
  intro cursor values stopped h
  rw [decodeUnlimited] at h
  exact (decodeOne_nonGrowing pool _).countedU2 cursor values stopped h

variable (h : AgreeBelow size first second) (hf : NonGrowing first)
include h hf

theorem decodeBody_agree (kind : AttributeKind) :
    AgreeBelow size (decodeBody pool first kind) (decodeBody pool second kind) := by
  cases kind with
  | code =>
      have hhandler : NonGrowing (ExceptionHandler.decode pool) :=
        .bind .u2 fun _ => .bind .u2 fun _ => .bind .u2 fun _ => .map (.reference _) _
      have hcode : AgreeBelow size (Code.decode pool first) (Code.decode pool second) := by
        refine .after .u2 fun _ => .after .u2 fun _ => .after .u4 fun length => ?_
        dsimp only
        split
        · exact .refl _
        · exact .after (.take _) fun _ => .after (.lookup _) fun _ => .after (.lookup _) fun _ =>
            .after hhandler.countedU2 fun _ => h.map _
      exact hcode.map _
  | record =>
      have hgrowth : NonGrowing (RecordComponent.decode pool first) :=
        .bind (.reference _) fun _ => .bind (.reference _) fun _ => hf.map _
      have hcomponent : AgreeBelow size (RecordComponent.decode pool first)
          (RecordComponent.decode pool second) :=
        .after (.reference _) fun _ => .after (.reference _) fun _ => h.map _
      exact (hcomponent.countedU2 hgrowth).map _
  | _ => exact .refl _

theorem ofBody_agree (name : String) {body : Bytes} (hlt : body.length < size) :
    ofBody pool first name body = ofBody pool second name body := by
  have hbody (kind : AttributeKind) : decodeBody pool first kind (.start body) =
      decodeBody pool second kind (.start body) := decodeBody_agree h hf kind _ hlt
  unfold ofBody
  cases AttributeKind.ofName? name with
  | none => rfl
  | some kind => simp only [wholeBody, EStateM.run, hbody kind]

/-- The header of an attribute is not part of its body, so the body is shorter. -/
theorem decodeOne_agree :
    AgreeBelow (size + 1) (decodeOne pool first) (decodeOne pool second) := by
  refine .after_u2 fun _ => .after .u4 fun _ => .after_take fun body hlt =>
    .after (.lookup _) fun name => ?_
  rw [ofBody_agree h hf name hlt]
  exact .refl _

end Agreement

/-- The decoder has no other limit than the one that the bytes set: it calls itself as it is. -/
theorem decodeUnlimited_eq (pool : Pool) :
    decodeUnlimited pool = countedU2 (decodeOne pool (decodeUnlimited pool)) := by
  funext cursor
  have hguarded : AgreeBelow cursor.rest.length (fun inner =>
      if inner.rest.length < cursor.rest.length then decodeUnlimited pool inner
      else .error .truncated inner) (decodeUnlimited pool) := by
    intro inner hlt
    exact if_pos hlt
  have hgrowth : NonGrowing fun inner =>
      if inner.rest.length < cursor.rest.length then decodeUnlimited pool inner
      else .error .truncated inner := by
    intro inner values stopped h
    dsimp only at h
    split at h
    · exact decodeUnlimited_nonGrowing pool inner values stopped h
    · cases h
  have hone : AgreeBelow (cursor.rest.length + 1) (decodeOne pool fun inner =>
      if inner.rest.length < cursor.rest.length then decodeUnlimited pool inner
      else .error .truncated inner) (decodeOne pool (decodeUnlimited pool)) :=
    decodeOne_agree hguarded hgrowth
  rw [decodeUnlimited]
  exact hone.countedU2 (decodeOne_nonGrowing pool _) cursor (Nat.lt_succ_self _)

/-! ## Cutting off at a level -/

section Limit

variable {pool : Pool} {free bounded : Decoder (List Attribute)} {limit budget : Nat}
  (h : CutsOff (.tooDeep limit) free bounded fun list => levels list ≤ budget)
include h

theorem decodeBody_cutsOff (kind : AttributeKind) :
    CutsOff (.tooDeep limit) (decodeBody pool free kind) (decodeBody pool bounded kind)
      fun value => innerLevels value ≤ budget := by
  cases kind with
  | code =>
      have hcode : CutsOff (.tooDeep limit) (Code.decode pool free) (Code.decode pool bounded)
          fun body => levels body.attributes ≤ budget := by
        refine .after fun _ => .after fun _ => .after fun length => ?_
        dsimp only
        split
        · exact .same (.throw _)
        · exact .after fun _ => .after fun _ => .after fun _ => .after fun _ =>
            h.map fun _ => Iff.rfl
      exact hcode.map fun body => by rw [innerLevels_code]
  | record =>
      have hcomponent : CutsOff (.tooDeep limit) (RecordComponent.decode pool free)
          (RecordComponent.decode pool bounded) fun component =>
            levels component.attributes ≤ budget :=
        .after fun _ => .after fun _ => h.map fun _ => Iff.rfl
      exact hcomponent.countedU2.map fun _ => componentLevels_le_iff
  | synthetic => exact .same (.pure (Nat.zero_le _))
  | deprecated => exact .same (.pure (Nat.zero_le _))
  | enclosingMethod => exact .same (.bind fun _ => .bind fun _ => .pure (Nat.zero_le _))
  | _ => exact .same (.bind fun _ => .pure (Nat.zero_le _))

/-- The error for the limit is passed on by the attribute around it. -/
theorem ofBody_cutsOff (name : String) (body : Bytes) :
    CutsOff (.tooDeep limit) (lookup (ofBody pool free name body))
      (lookup (ofBody pool bounded name body)) fun value => innerLevels value ≤ budget := by
  unfold ofBody
  cases AttributeKind.ofName? name with
  | none => exact .same (.pure (Nat.zero_le _))
  | some kind =>
      have hbody : CutsOff (.tooDeep limit) (decodeBody pool free kind)
          (decodeBody pool bounded kind) fun value => innerLevels value ≤ budget :=
        decodeBody_cutsOff h kind
      show CutsOff _ (lookup (wholeBody name body _)) (lookup (wholeBody name body _)) _
      apply CutsOff.lookup
      · intro value hvalue hallowed
        obtain ⟨stopped, hok, hrest⟩ := wholeBody_eq_ok_iff.mp hvalue
        exact wholeBody_eq_ok_iff.mpr ⟨stopped, hbody.value hok hallowed, hrest⟩
      · intro value hvalue hno
        obtain ⟨stopped, hok, -⟩ := wholeBody_eq_ok_iff.mp hvalue
        obtain ⟨halted, hhalted⟩ := hbody.limit hok hno
        simp only [wholeBody, EStateM.run, hhalted]
      · intro error herror
        cases hbounded : wholeBody name body (decodeBody pool bounded kind) with
        | error cause => exact ⟨cause, rfl⟩
        | ok value =>
            obtain ⟨stopped, hok, hrest⟩ := wholeBody_eq_ok_iff.mp hbounded
            have hfree : wholeBody name body (decodeBody pool free kind) = .ok value :=
              wholeBody_eq_ok_iff.mpr ⟨stopped, (hbody.of_bounded hok).1, hrest⟩
            rw [herror] at hfree
            cases hfree

theorem decodeOne_cutsOff :
    CutsOff (.tooDeep limit) (decodeOne pool free) (decodeOne pool bounded)
      fun value => innerLevels value ≤ budget :=
  .after fun _ => .after fun _ => .after fun body => .after fun name => ofBody_cutsOff h name body

end Limit

/-- By the levels that may still be entered: without one left nothing is decoded. -/
theorem decodeUnlimited_cutsOff (pool : Pool) (budget : Nat) :
    CutsOff (.tooDeep maxAttributeDepth) (decodeUnlimited pool) (decodeWithin pool budget)
      fun list => levels list ≤ budget := by
  induction budget with
  | zero =>
      refine .throw fun _ _ list _ hle => ?_
      have hpos := levels_pos list
      omega
  | succ budget ih =>
      rw [decodeUnlimited_eq, decodeWithin]
      exact (decodeOne_cutsOff ih).countedU2.congr fun _ => levels_le_succ_iff.symm

/--
The limit on nested lists takes nothing but deep lists away. Where the decoder without a limit,
which calls itself for the lists inside, gives a list of at most seventeen levels, the same list is
decoded up to the same byte; where it gives a deeper one, the error is that for the limit; and
where it fails, so does the decoder with the limit.
-/
theorem decodeList_cuts_off_depth (pool : Pool) :
    decodeUnlimited pool = countedU2 (decodeOne pool (decodeUnlimited pool)) ∧
    (∀ cursor stopped list, decodeUnlimited pool cursor = .ok list stopped → levels list ≤ 17 →
      decodeList pool cursor = .ok list stopped) ∧
    (∀ cursor stopped list, decodeUnlimited pool cursor = .ok list stopped → 17 < levels list →
      ∃ halted, decodeList pool cursor = .error (.tooDeep 16) halted) ∧
    (∀ cursor stopped error, decodeUnlimited pool cursor = .error error stopped →
      ∃ other halted, decodeList pool cursor = .error other halted) := by
  have hlimit := decodeUnlimited_cutsOff pool (maxAttributeDepth + 1)
  refine ⟨decodeUnlimited_eq pool, ?_, ?_, ?_⟩
  · intro cursor stopped list hok hfew
    exact hlimit.value hok hfew
  · intro cursor stopped list hok hdeep
    exact hlimit.limit hok (Nat.not_le.mpr hdeep)
  · intro cursor stopped error herror
    exact hlimit.fault herror

def recordPool : Pool := ⟨#[none, some (.utf8 "Record"), some (.utf8 "x")], []⟩

/-- An empty list inside `records` records of one component, each in a list of its own. -/
def nestedRecordBytes : (records : Nat) → Bytes
  | 0 => [0, 0]
  | records + 1 => [0, 1, 0, 1] ++ Bytes.ofNat 4 (6 + (nestedRecordBytes records).length) ++
      [0, 1, 0, 2, 0, 2] ++ nestedRecordBytes records

def nestedRecordLevels? (budget records : Nat) : Option Nat :=
  match decodeWithin recordPool budget ⟨0, nestedRecordBytes records⟩ with
  | .ok list _ => some (levels list)
  | .error .. => none

theorem exists_of_nestedRecordLevels {budget records count : Nat}
    (h : nestedRecordLevels? budget records = some count) :
    ∃ list stopped, decodeUnlimited recordPool ⟨0, nestedRecordBytes records⟩ = .ok list stopped ∧
      levels list = count := by
  unfold nestedRecordLevels? at h
  cases hd : decodeWithin recordPool budget ⟨0, nestedRecordBytes records⟩ with
  | error error stopped =>
      rw [hd] at h
      cases h
  | ok list stopped =>
      rw [hd] at h
      cases h
      exact ⟨list, stopped, ((decodeUnlimited_cutsOff recordPool budget).of_bounded hd).1, rfl⟩

/-- Seventeen lists in each other are decoded, eighteen are too many, and no bytes are too few. -/
theorem decodeList_cuts_off_depth_nested :
    (∃ list stopped, levels list = 17 ∧
        decodeList recordPool ⟨0, nestedRecordBytes 16⟩ = .ok list stopped) ∧
      (∃ halted, decodeList recordPool ⟨0, nestedRecordBytes 17⟩ = .error (.tooDeep 16) halted) ∧
      ∃ other halted, decodeList recordPool ⟨0, []⟩ = .error other halted := by
  have hnone : decodeUnlimited recordPool ⟨0, []⟩ = .error .truncated ⟨0, []⟩ := by
    rw [decodeUnlimited_eq]
    rfl
  obtain ⟨-, hvalue, hlimit, hfault⟩ := decodeList_cuts_off_depth recordPool
  obtain ⟨list, stopped, hlist, hfew⟩ : ∃ list stopped,
      decodeUnlimited recordPool ⟨0, nestedRecordBytes 16⟩ = .ok list stopped ∧ levels list = 17 :=
    exists_of_nestedRecordLevels (by decide +kernel : nestedRecordLevels? 17 16 = some 17)
  obtain ⟨deep, ended, hdeep, hmany⟩ : ∃ list stopped,
      decodeUnlimited recordPool ⟨0, nestedRecordBytes 17⟩ = .ok list stopped ∧ levels list = 18 :=
    exists_of_nestedRecordLevels (by decide +kernel : nestedRecordLevels? 18 17 = some 18)
  refine ⟨⟨list, stopped, hfew, hvalue _ _ _ hlist (by omega)⟩, ?_, ?_⟩
  · exact hlimit _ _ _ hdeep (by omega)
  · exact hfault _ _ _ hnone

end Attribute

end ClassListing
