import ClassListing.ModuleDeclaration
import ClassListing.Proofs.Constant.References
import ClassListing.Proofs.Cursor.Consultation

/-!
# Module declarations as they are written

A declaration is written with an index for each of its names. If every index holds a constant of
the kind that its place asks for, decoding puts the names in their places and keeps all the rest.
Otherwise the first index in the order of writing that does not is the one to blame, or the index
of the text that its constant refers to.
-/

namespace ClassListing

open Decoder

/-! ## Names -/

inductive NameKind
  | moduleInfo
  | packageInfo
  | classInfo
deriving DecidableEq

namespace NameKind

def textIndex? : NameKind → Constant → Option UInt16
  | .moduleInfo, .moduleInfo text => some text
  | .packageInfo, .packageInfo text => some text
  | .classInfo, .classInfo text => some text
  | _, _ => none

def name : NameKind → String
  | .moduleInfo => "Module"
  | .packageInfo => "Package"
  | .classInfo => "Class"

def find (pool : Pool) : NameKind → UInt16 → Except Error String
  | .moduleInfo => pool.moduleName
  | .packageInfo => pool.packageName
  | .classInfo => pool.className

theorem find_eq (pool : Pool) (kind : NameKind) (index : UInt16) :
    kind.find pool index = (do
      let constant ← pool.get index
      match kind.textIndex? constant with
      | some text => pool.utf8 text
      | none => Pool.wrongKind index kind.name constant) := by
  cases kind <;> refine bind_congr fun constant => ?_ <;> cases constant <;> rfl

end NameKind

namespace Pool

def HoldsName (pool : Pool) (kind : NameKind) (index : UInt16) (name : String) : Prop :=
  ∃ constant text, pool.get index = .ok constant ∧ kind.textIndex? constant = some text ∧
    pool.get text = .ok (.utf8 name)

/-- Index zero stands for no version. -/
def HoldsVersion (pool : Pool) (index : UInt16) : Option String → Prop
  | none => index = 0
  | some version => pool.get index = .ok (.utf8 version)

end Pool

namespace ModuleDeclaration

/-- An index in a declaration and what it has to hold. -/
inductive Place
  | name (kind : NameKind) (index : UInt16)
  | version (index : UInt16)
deriving DecidableEq

namespace Place

def index : Place → UInt16
  | .name _ index | .version index => index

def Fits (pool : Pool) : Place → Prop
  | .name kind index => ∃ name, pool.HoldsName kind index name
  | .version index => ∃ version, pool.HoldsVersion index version

def textIndex? (pool : Pool) : Place → Option UInt16
  | .name kind index => (pool.get index).toOption.bind kind.textIndex?
  | .version _ => none

/-- The error names the index of the place, or the one to which its constant refers. -/
def Blames (pool : Pool) (place : Place) (error : Error) : Prop :=
  ∃ index fault, error = .reference index fault ∧
    (index = place.index ∨ place.textIndex? pool = some index)

end Place

end ModuleDeclaration

/-! ## Lookups -/

namespace Pool

open ModuleDeclaration

variable {pool : Pool} {index : UInt16}

theorem get_error {error : Error} (h : pool.get index = .error error) :
    ∃ fault, error = .reference index fault := by
  unfold get at h
  split at h
  · cases h
    exact ⟨_, rfl⟩
  · split at h <;> cases h <;> exact ⟨_, rfl⟩

theorem utf8_error {error : Error} (h : pool.utf8 index = .error error) :
    ∃ fault, error = .reference index fault := by
  rcases bind_eq_error_iff.mp h with hget | ⟨constant, -, hkind⟩
  · exact get_error hget
  · cases constant with
    | utf8 text => cases hkind
    | _ =>
        cases hkind
        exact ⟨_, rfl⟩

theorem find_eq_ok_iff {kind : NameKind} {name : String} :
    kind.find pool index = .ok name ↔ pool.HoldsName kind index name := by
  rw [NameKind.find_eq, bind_eq_ok_iff]
  constructor
  · intro h
    obtain ⟨constant, hget, hname⟩ := h
    cases htext : kind.textIndex? constant with
    | none =>
        rw [htext] at hname
        cases hname
    | some text =>
        rw [htext] at hname
        exact ⟨constant, text, hget, htext, utf8_eq_ok_iff.mp hname⟩
  · intro h
    obtain ⟨constant, text, hget, htext, hname⟩ := h
    refine ⟨constant, hget, ?_⟩
    rw [htext]
    exact utf8_eq_ok_iff.mpr hname

theorem find_blames (pool : Pool) (kind : NameKind) (index : UInt16) :
    Blames (Place.Blames pool (.name kind index)) (kind.find pool index) := by
  intro error h
  rw [NameKind.find_eq] at h
  rcases bind_eq_error_iff.mp h with hget | ⟨constant, hget, hname⟩
  · obtain ⟨fault, rfl⟩ := get_error hget
    exact ⟨index, fault, rfl, .inl rfl⟩
  · cases htext : kind.textIndex? constant with
    | none =>
        rw [htext] at hname
        cases hname
        exact ⟨index, _, rfl, .inl rfl⟩
    | some text =>
        rw [htext] at hname
        obtain ⟨fault, rfl⟩ := utf8_error hname
        have hplace : (Place.name kind index).textIndex? pool = some text := by
          simp [Place.textIndex?, hget, Except.toOption, htext]
        exact ⟨text, fault, rfl, .inr hplace⟩

theorem optional_utf8_eq_ok_iff {version : Option String} :
    optional pool.utf8 index = .ok version ↔ pool.HoldsVersion index version := by
  unfold optional
  by_cases hzero : index = 0
  · rw [if_pos hzero, hzero]
    cases version with
    | none => exact ⟨fun _ => rfl, fun _ => rfl⟩
    | some text => exact ⟨nofun, nofun⟩
  · rw [if_neg hzero]
    cases version with
    | none =>
        have hsome : some <$> pool.utf8 index ≠ .ok none := by
          cases pool.utf8 index <;> nofun
        exact ⟨fun h => (hsome h).elim, fun h => (hzero h).elim⟩
    | some text =>
        rw [HoldsVersion, ← utf8_eq_ok_iff]
        cases pool.utf8 index <;> simp [Functor.map, Except.map]

theorem optional_utf8_blames (pool : Pool) (index : UInt16) :
    Blames (Place.Blames pool (.version index)) (optional pool.utf8 index) := by
  intro error h
  unfold optional at h
  split at h
  · cases h
  · cases htext : pool.utf8 index with
    | ok text =>
        rw [htext] at h
        cases h
    | error found =>
        rw [htext] at h
        cases h
        obtain ⟨fault, rfl⟩ := utf8_error htext
        exact ⟨index, fault, rfl, .inl rfl⟩

end Pool

/-! ## Declarations with indices -/

open ModuleDeclaration

structure Requirement.Raw where
  name : UInt16
  flags : UInt16
  version : UInt16

structure PackageGrant.Raw where
  package : UInt16
  flags : UInt16
  targets : List UInt16
  few : targets.length < 2 ^ 16

structure Provision.Raw where
  service : UInt16
  implementations : List UInt16
  few : implementations.length < 2 ^ 16

structure ModuleDeclaration.Raw where
  name : UInt16
  flags : UInt16
  version : UInt16
  requires : List Requirement.Raw
  exports : List PackageGrant.Raw
  opens : List PackageGrant.Raw
  uses : List UInt16
  provides : List Provision.Raw
  fewRequires : requires.length < 2 ^ 16
  fewExports : exports.length < 2 ^ 16
  fewOpens : opens.length < 2 ^ 16
  fewUses : uses.length < 2 ^ 16
  fewProvides : provides.length < 2 ^ 16

def Bytes.ofIndex (index : UInt16) : Bytes := ofNat 2 index.toNat

namespace Requirement.Raw

def encode (raw : Raw) : Bytes :=
  Bytes.ofIndex raw.name ++ (Bytes.ofNat 2 raw.flags.toNat ++ Bytes.ofIndex raw.version)

def places (raw : Raw) : List Place := [.name .moduleInfo raw.name, .version raw.version]

structure Denotes (pool : Pool) (raw : Raw) (row : Requirement) : Prop where
  name : pool.HoldsName .moduleInfo raw.name row.name
  flags : row.flags = raw.flags
  version : pool.HoldsVersion raw.version row.version

end Requirement.Raw

namespace PackageGrant.Raw

def encode (raw : Raw) : Bytes :=
  Bytes.ofIndex raw.package ++ (Bytes.ofNat 2 raw.flags.toNat ++
    Bytes.counted Bytes.ofIndex raw.targets)

def places (raw : Raw) : List Place :=
  .name .packageInfo raw.package :: raw.targets.map (.name .moduleInfo)

structure Denotes (pool : Pool) (raw : Raw) (row : PackageGrant) : Prop where
  package : pool.HoldsName .packageInfo raw.package row.package
  flags : row.flags = raw.flags
  targets : List.Forall₂ (pool.HoldsName .moduleInfo) raw.targets row.targets

end PackageGrant.Raw

namespace Provision.Raw

def encode (raw : Raw) : Bytes :=
  Bytes.ofIndex raw.service ++ Bytes.counted Bytes.ofIndex raw.implementations

def places (raw : Raw) : List Place :=
  .name .classInfo raw.service :: raw.implementations.map (.name .classInfo)

structure Denotes (pool : Pool) (raw : Raw) (row : Provision) : Prop where
  service : pool.HoldsName .classInfo raw.service row.service
  implementations :
    List.Forall₂ (pool.HoldsName .classInfo) raw.implementations row.implementations

end Provision.Raw

namespace ModuleDeclaration.Raw

def encode (raw : Raw) : Bytes :=
  Bytes.ofIndex raw.name ++ (Bytes.ofNat 2 raw.flags.toNat ++ (Bytes.ofIndex raw.version ++
    (Bytes.counted Requirement.Raw.encode raw.requires ++
      (Bytes.counted PackageGrant.Raw.encode raw.exports ++
        (Bytes.counted PackageGrant.Raw.encode raw.opens ++
          (Bytes.counted Bytes.ofIndex raw.uses ++
            Bytes.counted Provision.Raw.encode raw.provides))))))

def places (raw : Raw) : List Place :=
  .name .moduleInfo raw.name :: .version raw.version ::
    (raw.requires.flatMap Requirement.Raw.places ++ (raw.exports.flatMap PackageGrant.Raw.places ++
      (raw.opens.flatMap PackageGrant.Raw.places ++ (raw.uses.map (.name .classInfo) ++
        raw.provides.flatMap Provision.Raw.places))))

/-- The declaration has the names in place of the indices and is otherwise the same. -/
structure Denotes (pool : Pool) (raw : Raw) (declaration : ModuleDeclaration) : Prop where
  name : pool.HoldsName .moduleInfo raw.name declaration.name
  flags : declaration.flags = raw.flags
  version : pool.HoldsVersion raw.version declaration.version
  requires : List.Forall₂ (Requirement.Raw.Denotes pool) raw.requires declaration.requires
  exports : List.Forall₂ (PackageGrant.Raw.Denotes pool) raw.exports declaration.exports
  opens : List.Forall₂ (PackageGrant.Raw.Denotes pool) raw.opens declaration.opens
  uses : List.Forall₂ (pool.HoldsName .classInfo) raw.uses declaration.uses
  provides : List.Forall₂ (Provision.Raw.Denotes pool) raw.provides declaration.provides

end ModuleDeclaration.Raw

/-! ## Decoding -/

section Decoding

variable (pool : Pool)

theorem name_consults (kind : NameKind) (index : UInt16) :
    Consults (Place.Fits pool) (Place.Blames pool) (reference (kind.find pool))
      (Bytes.ofIndex index) [.name kind index] (pool.HoldsName kind index) := by
  refine .reference ?_ fun _ => Pool.find_eq_ok_iff.mp
  refine (Hinges.of_blames (Pool.find_blames pool kind index)).congr ?_
  exact exists_congr fun _ => Pool.find_eq_ok_iff

theorem version_consults (index : UInt16) :
    Consults (Place.Fits pool) (Place.Blames pool) (reference (Pool.optional pool.utf8))
      (Bytes.ofIndex index) [.version index] (pool.HoldsVersion index) := by
  refine .reference ?_ fun _ => Pool.optional_utf8_eq_ok_iff.mp
  refine (Hinges.of_blames (Pool.optional_utf8_blames pool index)).congr ?_
  exact exists_congr fun _ => Pool.optional_utf8_eq_ok_iff

theorem names_consult (kind : NameKind) {indices : List UInt16} (few : indices.length < 2 ^ 16) :
    Consults (Place.Fits pool) (Place.Blames pool) (countedU2 (reference (kind.find pool)))
      (Bytes.counted Bytes.ofIndex indices) (indices.map (.name kind))
      (List.Forall₂ (pool.HoldsName kind) indices) := by
  rw [List.map_eq_flatMap]
  exact .countedU2 (fun index _ => name_consults pool kind index) few

theorem Requirement.decode_consults (raw : Raw) :
    Consults (Place.Fits pool) (Place.Blames pool) (decode pool) raw.encode raw.places
      (raw.Denotes pool) :=
  .bind (name_consults pool .moduleInfo raw.name) fun _ hname => .word raw.flags <|
    .map (version_consults pool raw.version) fun _ hversion => ⟨hname, rfl, hversion⟩

theorem PackageGrant.decode_consults (raw : Raw) :
    Consults (Place.Fits pool) (Place.Blames pool) (decode pool) raw.encode raw.places
      (raw.Denotes pool) :=
  .bind (name_consults pool .packageInfo raw.package) fun _ hpackage => .word raw.flags <|
    .map (names_consult pool .moduleInfo raw.few) fun _ htargets => ⟨hpackage, rfl, htargets⟩

theorem Provision.decode_consults (raw : Raw) :
    Consults (Place.Fits pool) (Place.Blames pool) (decode pool) raw.encode raw.places
      (raw.Denotes pool) :=
  .bind (name_consults pool .classInfo raw.service) fun _ hservice =>
    .map (names_consult pool .classInfo raw.few) fun _ himplementations =>
      ⟨hservice, himplementations⟩

theorem ModuleDeclaration.decode_consults (raw : Raw) :
    Consults (Place.Fits pool) (Place.Blames pool) (decode pool) raw.encode raw.places
      (raw.Denotes pool) := by
  have hgrants {grants : List PackageGrant.Raw} (few : grants.length < 2 ^ 16) :=
    Consults.countedU2 (fun grant _ => PackageGrant.decode_consults pool grant) few
  have hrequires :=
    Consults.countedU2 (fun row _ => Requirement.decode_consults pool row) raw.fewRequires
  have hprovides :=
    Consults.countedU2 (fun row _ => Provision.decode_consults pool row) raw.fewProvides
  exact .bind (name_consults pool .moduleInfo raw.name) fun _ hname => .word raw.flags <|
    .bind (version_consults pool raw.version) fun _ hversion =>
    .bind hrequires fun _ hrequires => .bind (hgrants raw.fewExports) fun _ hexports =>
    .bind (hgrants raw.fewOpens) fun _ hopens =>
    .bind (names_consult pool .classInfo raw.fewUses) fun _ huses =>
    .map hprovides fun _ hprovides =>
      ⟨hname, rfl, hversion, hrequires, hexports, hopens, huses, hprovides⟩

end Decoding

namespace ModuleDeclaration

/--
A declaration whose indices all hold what their places ask for is decoded with the names in place of
the indices, every list in its order, the flags as they were, and nothing consumed of what follows.
If an index does not, the error is that of the first such index in the order of writing.
-/
theorem decode_keeps_directives (pool : Pool) (raw : Raw) (pos : Nat) (rest : Bytes) :
    ((∀ place ∈ raw.places, place.Fits pool) → ∃ declaration, raw.Denotes pool declaration ∧
      decode pool ⟨pos, raw.encode ++ rest⟩ = .ok declaration ⟨pos + raw.encode.length, rest⟩) ∧
    (∀ place ∈ raw.places, ¬place.Fits pool →
      ∃ first, FirstUnfit (Place.Fits pool) raw.places first ∧ ∃ index fault stopped,
        decode pool ⟨pos, raw.encode ++ rest⟩ = .error (.reference index fault) stopped ∧
          (index = first.index ∨ first.textIndex? pool = some index)) := by
  have hconsults := decode_consults pool raw
  constructor
  · intro hfits
    exact hconsults.value hfits pos rest
  · intro place hplace hunfit
    obtain ⟨first, hfirst⟩ := exists_firstUnfit hplace hunfit
    obtain ⟨_, stopped, ⟨index, fault, rfl, hindex⟩, herror⟩ :=
      hconsults.fault first hfirst pos rest
    exact ⟨first, hfirst, index, fault, stopped, herror, hindex⟩

def openModulePool : Pool :=
  ⟨#[none, some (.utf8 "m"), some (.moduleInfo 1), some (.utf8 "p"), some (.packageInfo 3),
    some (.utf8 "C"), some (.classInfo 5), some (.utf8 "9")], []⟩

/-- An open module with directives of all kinds. The class at `use` is the second that it uses. -/
def rawOpenModule (use : UInt16) : Raw where
  name := 2
  flags := 0x0020
  version := 7
  requires := [⟨2, 0x8000, 0⟩, ⟨2, 0, 7⟩]
  exports := [⟨4, 0, [2, 2], by decide⟩]
  opens := [⟨4, 0, [], by decide⟩]
  uses := [6, use]
  provides := [⟨6, [6], by decide⟩]
  fewRequires := by simp
  fewExports := by simp
  fewOpens := by simp
  fewUses := by simp
  fewProvides := by simp

/-- With a class all is well; with a package in its place that package is to blame. -/
theorem decode_keeps_directives_sample :
    (∃ declaration, (rawOpenModule 6).Denotes openModulePool declaration ∧
      decode openModulePool ⟨0, (rawOpenModule 6).encode ++ [7]⟩ = .ok declaration ⟨54, [7]⟩) ∧
    ∃ index fault stopped,
      decode openModulePool ⟨0, (rawOpenModule 4).encode ++ [7]⟩ =
          .error (.reference index fault) stopped ∧
        index = 4 := by
  have hmodule : Place.Fits openModulePool (.name .moduleInfo 2) := ⟨"m", _, _, rfl, rfl, rfl⟩
  have hpackage : Place.Fits openModulePool (.name .packageInfo 4) := ⟨"p", _, _, rfl, rfl, rfl⟩
  have hclass : Place.Fits openModulePool (.name .classInfo 6) := ⟨"C", _, _, rfl, rfl, rfl⟩
  have hversion : Place.Fits openModulePool (.version 7) := ⟨some "9", rfl⟩
  have hnone : Place.Fits openModulePool (.version 0) := ⟨none, rfl⟩
  have hwrong : ¬Place.Fits openModulePool (.name .classInfo 4) := by
    rintro ⟨_, _, _, hget, htext, -⟩
    cases hget
    cases htext
  constructor
  · refine (decode_keeps_directives openModulePool (rawOpenModule 6) 0 [7]).1 ?_
    simp [rawOpenModule, Raw.places, Requirement.Raw.places, PackageGrant.Raw.places,
      Provision.Raw.places, hmodule, hpackage, hclass, hversion, hnone]
  · obtain ⟨first, hfirst, index, fault, stopped, herror, hindex⟩ :=
      (decode_keeps_directives openModulePool (rawOpenModule 4) 0 [7]).2 (.name .classInfo 4)
        (by simp [rawOpenModule, Raw.places]) hwrong
    obtain rfl : first = .name .classInfo 4 := by
      simpa [rawOpenModule, Raw.places, Requirement.Raw.places, PackageGrant.Raw.places,
        Provision.Raw.places, firstUnfit_cons_iff, hmodule, hpackage, hclass, hversion, hnone,
        hwrong] using hfirst
    refine ⟨index, fault, stopped, herror, ?_⟩
    rcases hindex with hindex | htext
    · exact hindex
    · cases htext

end ModuleDeclaration

end ClassListing
