import ClassListing.Access
import ClassListing.Attribute.Decode
import ClassListing.Constant.Decode

/-!
# Class files

A class file is decoded from its first byte to its last: the header, the constant pool, the
declaration, the members and the attributes, with nothing after them.
-/

namespace ClassListing

open Decoder

/-- A field or a method. -/
structure Member where
  flags : UInt16
  name : String
  descriptor : String
  attributes : List Attribute

namespace Member

def decode (pool : Pool) : Decoder Member :=
  return ⟨← u2, ← reference pool.utf8, ← reference pool.utf8, ← Attribute.decodeList pool⟩

def constantIndex? (member : Member) : Option UInt16 :=
  member.attributes.findSome? Attribute.constantIndex?

def code? (member : Member) : Option Code :=
  member.attributes.findSome? Attribute.code?

def isInitializer (member : Member) : Bool :=
  member.name == "<init>" || member.name == "<clinit>"

end Member

structure ClassFile where
  minor : UInt16
  major : UInt16
  pool : Pool
  flags : UInt16
  name : String
  superName : Option String
  interfaces : List String
  fields : List Member
  methods : List Member
  attributes : List Attribute

namespace ClassFile

def magic : UInt32 := 0xCAFEBABE

/-- The minor version of a class that uses preview features. -/
def previewMinor : UInt16 := 0xFFFF

/-- The bootstrap table of a class: its first, or none at all. -/
def bootstrapTable (attributes : List Attribute) : List BootstrapMethod :=
  (attributes.findSome? Attribute.bootstrapRows?).getD []

/-- The class that follows the magic number, up to its last attribute. -/
def decodeBody : Decoder ClassFile := do
  let minor ← u2
  let major ← u2
  let pool ← Pool.decode
  let flags ← u2
  let name ← reference pool.className
  let superName ← reference (Pool.optional pool.className)
  let interfaces ← countedU2 (reference pool.className)
  let fields ← countedU2 (Member.decode pool)
  let methods ← countedU2 (Member.decode pool)
  let attributes ← Attribute.decodeList pool
  let pool := { pool with bootstrap := bootstrapTable attributes }
  return ⟨minor, major, pool, flags, name, superName, interfaces, fields, methods, attributes⟩

/-- The class file at the front of the bytes, whatever follows it. -/
def decodeFirst : Decoder ClassFile := do
  let found ← u4
  if found ≠ magic then throw (.notAClassFile found)
  decodeBody

/-- A class file that ends with its last attribute. -/
def decode : Decoder ClassFile := do
  let file ← decodeFirst
  let left ← remaining
  if left ≠ 0 then throw (.trailing left)
  return file

/-- The number that the first four bytes spell, with zeros for those that are missing. -/
def leadingWord (bytes : Bytes) : UInt32 :=
  .ofNat (Bytes.toNat ((bytes ++ List.replicate 4 0).take 4))

def parse (bytes : Bytes) : Except Error ClassFile :=
  if bytes.length < 4 then .error (.notAClassFile (leadingWord bytes)) else decode.runOn bytes

def isPreview (file : ClassFile) : Bool := file.minor == previewMinor

def languageVersion (file : ClassFile) : String :=
  let major := file.major.toNat
  if major ≤ 44 then "unknown"
  else if major = 45 then "Java 1.1"
  else if major ≤ 48 then s!"Java 1.{major - 44}"
  else s!"Java {major - 44}"

def isModule (file : ClassFile) : Bool := Access.hasFlag file.flags 0x8000

def isInterface (file : ClassFile) : Bool := Access.hasFlag file.flags 0x0200

def isAnnotationType (file : ClassFile) : Bool := Access.hasFlag file.flags 0x2000

def isEnum (file : ClassFile) : Bool := Access.hasFlag file.flags 0x4000

def isRecord (file : ClassFile) : Bool :=
  file.attributes.any fun item => item.kind? == some .record

def isSealed (file : ClassFile) : Bool :=
  file.attributes.any fun item => item.kind? == some .permittedSubclasses

def moduleDeclaration? (file : ClassFile) : Option ModuleDeclaration :=
  file.attributes.findSome? Attribute.moduleDeclaration?

end ClassFile

end ClassListing
