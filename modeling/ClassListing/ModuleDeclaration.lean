import ClassListing.Constant.Pool
import ClassListing.Cursor

/-!
# Module declarations

What a module requires, exports, opens, uses and provides.
-/

namespace ClassListing

open Decoder

structure Requirement where
  name : String
  flags : UInt16
  version : Option String
deriving DecidableEq

/-- A package that is exported or opened, to everyone when `targets` is empty. -/
structure PackageGrant where
  package : String
  flags : UInt16
  targets : List String
deriving DecidableEq

structure Provision where
  service : String
  implementations : List String
deriving DecidableEq

structure ModuleDeclaration where
  name : String
  flags : UInt16
  version : Option String
  requires : List Requirement
  exports : List PackageGrant
  opens : List PackageGrant
  uses : List String
  provides : List Provision
deriving DecidableEq

def Requirement.decode (pool : Pool) : Decoder Requirement :=
  return ⟨← reference pool.moduleName, ← u2, ← reference (Pool.optional pool.utf8)⟩

def PackageGrant.decode (pool : Pool) : Decoder PackageGrant :=
  return ⟨← reference pool.packageName, ← u2, ← countedU2 (reference pool.moduleName)⟩

def Provision.decode (pool : Pool) : Decoder Provision :=
  return ⟨← reference pool.className, ← countedU2 (reference pool.className)⟩

def ModuleDeclaration.decode (pool : Pool) : Decoder ModuleDeclaration := do
  let name ← reference pool.moduleName
  let flags ← u2
  let version ← reference (Pool.optional pool.utf8)
  let requires ← countedU2 (Requirement.decode pool)
  let exports ← countedU2 (PackageGrant.decode pool)
  let opens ← countedU2 (PackageGrant.decode pool)
  let uses ← countedU2 (reference pool.className)
  let provides ← countedU2 (Provision.decode pool)
  return ⟨name, flags, version, requires, exports, opens, uses, provides⟩

end ClassListing
