import ClassListing.Text

/-!
# Access flags

The same sixteen bits are read differently for a class, a field, a method and so on. Bits
without a meaning are kept and shown as a number.
-/

namespace ClassListing

/-- What a set of access flags belongs to. -/
inductive FlagContext
  | classFile
  | field
  | method
  | innerClass
  | parameter
  | moduleInfo
  | requires
  | exports
deriving DecidableEq

structure Flag where
  bit : UInt16
  name : String
deriving DecidableEq

/-- The flags that have a meaning in a context, by increasing bit. -/
def FlagContext.flags : FlagContext → List Flag
  | .classFile =>
      [⟨0x0001, "PUBLIC"⟩, ⟨0x0010, "FINAL"⟩, ⟨0x0020, "SUPER"⟩, ⟨0x0200, "INTERFACE"⟩,
        ⟨0x0400, "ABSTRACT"⟩, ⟨0x1000, "SYNTHETIC"⟩, ⟨0x2000, "ANNOTATION"⟩, ⟨0x4000, "ENUM"⟩,
        ⟨0x8000, "MODULE"⟩]
  | .field =>
      [⟨0x0001, "PUBLIC"⟩, ⟨0x0002, "PRIVATE"⟩, ⟨0x0004, "PROTECTED"⟩, ⟨0x0008, "STATIC"⟩,
        ⟨0x0010, "FINAL"⟩, ⟨0x0040, "VOLATILE"⟩, ⟨0x0080, "TRANSIENT"⟩, ⟨0x1000, "SYNTHETIC"⟩,
        ⟨0x4000, "ENUM"⟩]
  | .method =>
      [⟨0x0001, "PUBLIC"⟩, ⟨0x0002, "PRIVATE"⟩, ⟨0x0004, "PROTECTED"⟩, ⟨0x0008, "STATIC"⟩,
        ⟨0x0010, "FINAL"⟩, ⟨0x0020, "SYNCHRONIZED"⟩, ⟨0x0040, "BRIDGE"⟩, ⟨0x0080, "VARARGS"⟩,
        ⟨0x0100, "NATIVE"⟩, ⟨0x0400, "ABSTRACT"⟩, ⟨0x0800, "STRICT"⟩, ⟨0x1000, "SYNTHETIC"⟩]
  | .innerClass =>
      [⟨0x0001, "PUBLIC"⟩, ⟨0x0002, "PRIVATE"⟩, ⟨0x0004, "PROTECTED"⟩, ⟨0x0008, "STATIC"⟩,
        ⟨0x0010, "FINAL"⟩, ⟨0x0200, "INTERFACE"⟩, ⟨0x0400, "ABSTRACT"⟩, ⟨0x1000, "SYNTHETIC"⟩,
        ⟨0x2000, "ANNOTATION"⟩, ⟨0x4000, "ENUM"⟩]
  | .parameter => [⟨0x0010, "FINAL"⟩, ⟨0x1000, "SYNTHETIC"⟩, ⟨0x8000, "MANDATED"⟩]
  | .moduleInfo => [⟨0x0020, "OPEN"⟩, ⟨0x1000, "SYNTHETIC"⟩, ⟨0x8000, "MANDATED"⟩]
  | .requires =>
      [⟨0x0020, "TRANSITIVE"⟩, ⟨0x0040, "STATIC_PHASE"⟩, ⟨0x1000, "SYNTHETIC"⟩,
        ⟨0x8000, "MANDATED"⟩]
  | .exports => [⟨0x1000, "SYNTHETIC"⟩, ⟨0x8000, "MANDATED"⟩]

namespace Access

def hasFlag (bits bit : UInt16) : Bool := bits &&& bit != 0

def unknownBits (context : FlagContext) (bits : UInt16) : UInt16 :=
  context.flags.foldl (fun left flag => left &&& ~~~flag.bit) bits

/-- The bits as a number, then the name of each flag that is set and the bits without one. -/
def describe (context : FlagContext) (bits : UInt16) : String :=
  let known := (context.flags.filter fun flag => hasFlag bits flag.bit).map ("ACC_" ++ ·.name)
  let unknown := unknownBits context bits
  let names := if unknown = 0 then known else known ++ ["0x" ++ Text.hexPadded 4 unknown.toNat]
  let number := "(0x" ++ Text.hexPadded 4 bits.toNat ++ ")"
  if names.isEmpty then number else number ++ " " ++ String.intercalate ", " names

/-- The keyword of the widest access that is granted. -/
def visibility (bits : UInt16) : List String :=
  if hasFlag bits 0x0001 then ["public"]
  else if hasFlag bits 0x0002 then ["private"]
  else if hasFlag bits 0x0004 then ["protected"]
  else []

def keywords (bits : UInt16) (table : List (UInt16 × String)) : List String :=
  (table.filter fun row => hasFlag bits row.1).map (·.2)

/-- The source keywords of a class. Every interface is abstract, so it is not said of one. -/
def classModifiers (bits : UInt16) : List String :=
  (if hasFlag bits 0x0001 then ["public"] else []) ++
    (if hasFlag bits 0x0400 && !hasFlag bits 0x0200 then ["abstract"] else []) ++
    (if hasFlag bits 0x0010 then ["final"] else [])

def fieldModifiers (bits : UInt16) : List String :=
  visibility bits ++ keywords bits
    [(0x0008, "static"), (0x0010, "final"), (0x0080, "transient"), (0x0040, "volatile")]

def methodModifiers (bits : UInt16) : List String :=
  visibility bits ++ keywords bits
    [(0x0400, "abstract"), (0x0008, "static"), (0x0010, "final"), (0x0020, "synchronized"),
      (0x0100, "native"), (0x0800, "strictfp")]

def modifiers? (context : FlagContext) (bits : UInt16) : Option (List String) :=
  match context with
  | .classFile => some (classModifiers bits)
  | .field => some (fieldModifiers bits)
  | .method => some (methodModifiers bits)
  | _ => none

end Access

end ClassListing
