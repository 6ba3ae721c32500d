import ClassListing.Constant.Resolve
import ClassListing.Proofs.Traversal
import Mathlib.Data.List.Chain
import Mathlib.Logic.Relation

/-!
# What constants refer to

A constant is sound when its references lead to constants of the right kinds, down to the texts.
The static arguments of a dynamic constant are no part of that: they are constants to be resolved
on their own, and form the edges of a graph on the indices of the pool. A lookup succeeds exactly
where the pool holds what it looks for.
-/

namespace ClassListing

open Constant

namespace Pool

/-! ## Sound constants -/

def HoldsText (pool : Pool) (index : UInt16) : Prop :=
  ∃ text, pool.get index = .ok (.utf8 text)

def HoldsClass (pool : Pool) (index : UInt16) : Prop :=
  ∃ name, pool.get index = .ok (.classInfo name) ∧ pool.HoldsText name

def HoldsNameAndType (pool : Pool) (index : UInt16) : Prop :=
  ∃ name descriptor, pool.get index = .ok (.nameAndType name descriptor) ∧
    pool.HoldsText name ∧ pool.HoldsText descriptor

def HoldsParts (pool : Pool) (owner member : UInt16) : Prop :=
  pool.HoldsClass owner ∧ pool.HoldsNameAndType member

/-- What a handle of the given access may point at: a field for the codes up to four, else a
method. -/
def HoldsTarget (pool : Pool) (access : HandleKind) (index : UInt16) : Prop :=
  ∃ owner member, pool.HoldsParts owner member ∧
    if access.code ≤ 4 then pool.get index = .ok (.fieldRef owner member)
    else pool.get index = .ok (.methodRef owner member) ∨
      pool.get index = .ok (.interfaceMethodRef owner member)

def HoldsHandle (pool : Pool) (index : UInt16) : Prop :=
  ∃ access target, pool.get index = .ok (.methodHandle access target) ∧
    pool.HoldsTarget access target

/-- The bootstrap table has the row, and the row has a method handle. -/
def HoldsRow (pool : Pool) (row : UInt16) : Prop :=
  ∃ method, pool.bootstrap[row.toNat]? = some method ∧ pool.HoldsHandle method.handle

/-- What the constant refers to is there and of the right kind. -/
def Sound (pool : Pool) : Constant → Prop
  | .utf8 _ | .integer _ | .float _ | .long _ | .double _ => True
  | .classInfo text | .string text | .methodType text | .moduleInfo text | .packageInfo text =>
      pool.HoldsText text
  | .fieldRef owner member | .methodRef owner member | .interfaceMethodRef owner member =>
      pool.HoldsParts owner member
  | .nameAndType name descriptor => pool.HoldsText name ∧ pool.HoldsText descriptor
  | .methodHandle access target => pool.HoldsTarget access target
  | .dynamic row member | .invokeDynamic row member =>
      pool.HoldsNameAndType member ∧ pool.HoldsRow row

def WellFormed (pool : Pool) (index : UInt16) : Prop :=
  ∃ constant, pool.get index = .ok constant ∧ pool.Sound constant

/-! ## The graph of static arguments -/

def arguments (pool : Pool) : Constant → List UInt16
  | .dynamic row _ | .invokeDynamic row _ =>
      (pool.bootstrap[row.toNat]?.map BootstrapMethod.arguments).getD []
  | _ => []

def Edge (pool : Pool) (source target : UInt16) : Prop :=
  ∃ constant, pool.get source = .ok constant ∧ target ∈ pool.arguments constant

def Reaches (pool : Pool) : UInt16 → UInt16 → Prop :=
  Relation.ReflTransGen pool.Edge

/-- The index can be reached from itself in one or more steps. -/
def OnCycle (pool : Pool) (index : UInt16) : Prop :=
  Relation.TransGen pool.Edge index index

/-- A way through the graph, as the list of the indices that it visits from `index` on. -/
def Walk (pool : Pool) (index : UInt16) (visited : List UInt16) : Prop :=
  visited.head? = some index ∧ visited.IsChain pool.Edge

def Bounded (pool : Pool) (limit : Nat) (index : UInt16) : Prop :=
  ∀ visited, pool.Walk index visited → visited.length ≤ limit

/-! ## Lookups -/

end Pool

/-- The error of a lookup that follows references without coming back to them. -/
def Error.OfLookup : Error → Prop
  | .reference _ fault => fault ≠ .cyclic
  | _ => False

/-- A lookup succeeds exactly if `good` holds, and blames a reference otherwise. -/
structure Decides (found : Except Error α) (good : Prop) : Prop where
  value : ∀ result, found = .ok result → good
  fault : ∀ error, found = .error error → ¬good ∧ error.OfLookup

namespace Decides

variable {found : Except Error α} {good better : Prop}

theorem congr (h : Decides found good) (hiff : good ↔ better) : Decides found better := by
  rwa [← propext hiff]

theorem ok (result : α) (h : good) : Decides (.ok result) good := by
  constructor
  · intro _ _
    exact h
  · intro error he
    cases he

theorem error {error : Error} (hg : ¬good) (he : error.OfLookup) :
    Decides (.error error : Except Error α) good := by
  constructor
  · intro result h
    cases h
  · intro other h
    cases h
    exact ⟨hg, he⟩

/-- What comes second is looked up only if the first was found. -/
protected theorem bind {next : α → Except Error β} (hf : Decides found good)
    (hn : ∀ value, found = .ok value → Decides (next value) better) :
    Decides (found >>= next) (good ∧ better) := by
  constructor
  · intro result h
    obtain ⟨value, hvalue, hresult⟩ := bind_eq_ok_iff.mp h
    exact ⟨hf.value value hvalue, (hn value hvalue).value result hresult⟩
  · intro error h
    rcases bind_eq_error_iff.mp h with he | ⟨value, hvalue, he⟩
    · obtain ⟨hnot, hlookup⟩ := hf.fault error he
      exact ⟨fun hboth => hnot hboth.1, hlookup⟩
    · obtain ⟨hnot, hlookup⟩ := (hn value hvalue).fault error he
      exact ⟨fun hboth => hnot hboth.2, hlookup⟩

/-- A value that is only put into another one. -/
protected theorem map (h : Decides found good) (wrap : α → β) :
    Decides (do return wrap (← found)) good :=
  (Decides.bind h fun value _ => .ok (wrap value) trivial).congr (and_iff_left trivial)

end Decides

namespace Pool

variable (pool : Pool) (index : UInt16)

theorem get_decides : Decides (pool.get index) (∃ constant, pool.get index = .ok constant) := by
  cases hg : pool.get index with
  | ok constant => exact .ok constant ⟨constant, rfl⟩
  | error error =>
      refine .error nofun ?_
      unfold get at hg
      split at hg
      · cases hg
        exact nofun
      · split at hg <;> cases hg <;> exact nofun

variable {pool index}

/-- A lookup that goes on from the constant at the index. -/
theorem get_bind_decides {next : Constant → Except Error α} {good : Prop}
    (hg : good → ∃ constant, pool.get index = .ok constant)
    (hn : ∀ constant, pool.get index = .ok constant → Decides (next constant) good) :
    Decides (pool.get index >>= next) good :=
  (Decides.bind (pool.get_decides index) hn).congr
    ⟨fun h => h.2, fun h => ⟨hg h, h⟩⟩

theorem wrongKind_decides {expected : String} {found : Constant} {good : Prop} (h : ¬good) :
    Decides (wrongKind index expected found : Except Error α) good :=
  .error h nofun

theorem holdsNameAndType_iff {name descriptor : UInt16}
    (hget : pool.get index = .ok (.nameAndType name descriptor)) :
    pool.HoldsNameAndType index ↔ pool.HoldsText name ∧ pool.HoldsText descriptor := by
  constructor
  · intro h
    rcases h with ⟨_, _, hsame, htexts⟩
    rw [hget] at hsame
    cases hsame
    exact htexts
  · intro h
    exact ⟨name, descriptor, hget, h⟩

theorem utf8_eq_ok_iff {text : String} :
    pool.utf8 index = .ok text ↔ pool.get index = .ok (.utf8 text) := by
  cases hget : pool.get index with
  | error error => simp [utf8, hget, bind, Except.bind]
  | ok constant => cases constant <;> simp [utf8, hget, wrongKind, bind, Except.bind]

theorem className_eq_ok_iff {name : String} :
    pool.className index = .ok name ↔
      ∃ text, pool.get index = .ok (.classInfo text) ∧ pool.get text = .ok (.utf8 name) := by
  cases hget : pool.get index with
  | error error => simp [className, hget, bind, Except.bind]
  | ok constant =>
      cases constant <;> simp [className, hget, wrongKind, bind, Except.bind, utf8_eq_ok_iff]

variable (pool index)

theorem utf8_decides : Decides (pool.utf8 index) (pool.HoldsText index) := by
  refine get_bind_decides (fun h => ?_) fun constant hget => ?_
  · obtain ⟨text, hget⟩ := h
    exact ⟨_, hget⟩
  · cases constant with
    | utf8 text => exact .ok text ⟨text, hget⟩
    | _ =>
        apply wrongKind_decides
        simp [HoldsText, hget]

theorem className_decides : Decides (pool.className index) (pool.HoldsClass index) := by
  refine get_bind_decides (fun h => ?_) fun constant hget => ?_
  · obtain ⟨name, hget, -⟩ := h
    exact ⟨_, hget⟩
  · cases constant with
    | classInfo name =>
        refine (pool.utf8_decides name).congr ?_
        simp [HoldsClass, hget]
    | _ =>
        apply wrongKind_decides
        simp [HoldsClass, hget]

theorem nameAndType_decides :
    Decides (pool.nameAndType index) (pool.HoldsNameAndType index) := by
  refine get_bind_decides (fun h => ?_) fun constant hget => ?_
  · obtain ⟨name, descriptor, hget, -⟩ := h
    exact ⟨_, hget⟩
  · cases constant with
    | nameAndType name descriptor =>
        refine (Decides.bind (pool.utf8_decides name) fun _ _ =>
          .map (pool.utf8_decides descriptor) _).congr ?_
        exact (holdsNameAndType_iff hget).symm
    | _ =>
        apply wrongKind_decides
        simp [HoldsNameAndType, hget]

end Pool

def Constant.IsMember (constant : Constant) (owner member : UInt16) : Prop :=
  constant = .fieldRef owner member ∨ constant = .methodRef owner member ∨
    constant = .interfaceMethodRef owner member

theorem Constant.HandleKind.accepts_iff (access : HandleKind) (target : Kind) :
    access.accepts target = true ↔
      if access.code ≤ 4 then target = .fieldRef
      else target = .methodRef ∨ target = .interfaceMethodRef := by
  have hfield : access.accessesField = true ↔ access.code ≤ 4 := by
    cases access <;> decide
  simp only [accepts, hfield]
  split <;> simp

namespace Pool

variable {pool : Pool} {index : UInt16} {constant : Constant}

section Member

variable {owner member : UInt16} (hget : pool.get index = .ok constant)
  (hm : constant.IsMember owner member)
include hget hm

theorem memberRef_decides : Decides (pool.memberRef index) (pool.HoldsParts owner member) := by
  have hparts : pool.memberRef index =
      (do return ⟨← pool.className owner, ← pool.nameAndType member⟩) := by
    rw [memberRef, hget]
    rcases hm with rfl | rfl | rfl <;> rfl
  rw [hparts]
  exact .bind (pool.className_decides owner) fun _ _ => .map (pool.nameAndType_decides member) _

theorem holdsTarget_iff (access : HandleKind) :
    pool.HoldsTarget access index ↔
      access.accepts constant.kind = true ∧ pool.HoldsParts owner member := by
  rw [access.accepts_iff]
  rcases hm with rfl | rfl | rfl <;> by_cases hcode : access.code ≤ 4 <;>
    simp [HoldsTarget, hcode, hget, Constant.kind]

theorem memberText_decides (access : HandleKind) :
    Decides (if access.accepts constant.kind then do
        let ref ← pool.memberRef index
        return access.name ++ " " ++ ref.text
      else wrongKind index access.name constant) (pool.HoldsTarget access index) := by
  have hiff := holdsTarget_iff hget hm access
  split
  · rename_i haccept
    exact (Decides.map (memberRef_decides hget hm) _).congr (by simp [hiff, haccept])
  · rename_i hrefuse
    exact wrongKind_decides (by simp [hiff, hrefuse])

end Member

theorem handleText_decides (pool : Pool) (access : HandleKind) (target : UInt16) :
    Decides (pool.handleText access target) (pool.HoldsTarget access target) := by
  refine get_bind_decides (fun h => ?_) fun constant hget => ?_
  · obtain ⟨owner, member, -, htarget⟩ := h
    split at htarget
    · exact ⟨_, htarget⟩
    · rcases htarget with hget | hget <;> exact ⟨_, hget⟩
  · cases constant with
    | fieldRef owner member => exact memberText_decides hget (.inl rfl) access
    | methodRef owner member => exact memberText_decides hget (.inr (.inl rfl)) access
    | interfaceMethodRef owner member => exact memberText_decides hget (.inr (.inr rfl)) access
    | _ =>
        rw [if_neg (by simp [access.accepts_iff, Constant.kind])]
        apply wrongKind_decides
        simp [HoldsTarget, hget]

theorem bootstrapHandle_decides (pool : Pool) (method : BootstrapMethod) :
    Decides (pool.bootstrapHandle method) (pool.HoldsHandle method.handle) := by
  refine get_bind_decides (fun h => ?_) fun constant hget => ?_
  · obtain ⟨access, target, hget, -⟩ := h
    exact ⟨_, hget⟩
  · cases constant with
    | methodHandle access target =>
        refine (pool.handleText_decides access target).congr
          ⟨fun h => ⟨access, target, hget, h⟩, ?_⟩
        intro h
        rcases h with ⟨_, _, hsame, htarget⟩
        rw [hget] at hsame
        cases hsame
        exact htarget
    | _ =>
        apply wrongKind_decides
        simp [HoldsHandle, hget]

end Pool

end ClassListing
