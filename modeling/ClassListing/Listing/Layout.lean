import ClassListing.ClassFile

/-!
# What a listing is made of

The switches of a listing, each of which adds detail and removes none, its lines, and the source
form in which a class and its members are declared.
-/

namespace ClassListing

/-! ## Switches -/

structure Options where
  verbose : Bool
  constantPool : Bool
  hash : Bool
  frames : Bool
deriving DecidableEq

namespace Options

def minimal : Options := ⟨false, false, false, false⟩

/-- All detail on members and attributes, but neither the pool table nor the digest. -/
def detailed : Options := ⟨true, false, false, true⟩

def full : Options := ⟨true, true, true, true⟩

/-- Stack map frames are shown on their own switch and with all other detail. -/
def showFrames (options : Options) : Bool := options.verbose || options.frames

end Options

/-! ## Lines -/

structure Line where
  indent : Nat
  text : String
deriving DecidableEq

namespace Line

def blank : Line := ⟨0, ""⟩

def render (line : Line) : String :=
  String.ofList (List.replicate line.indent ' ') ++ line.text ++ "\n"

def renderAll (lines : List Line) : String :=
  String.join (lines.map render)

end Line

/-- The spaces that a nesting level adds. -/
def step : Nat := 2

/-- A title, and rows one level below it. -/
def titled (indent : Nat) (title : String) (rows : List String) : List Line :=
  ⟨indent, title ++ ":"⟩ :: rows.map fun row => ⟨indent + step, row⟩

def commaList (texts : List String) : String := String.intercalate ", " texts

/-! ## Declarations -/

namespace Listing

open Access

/--
What a class is declared as, and what goes without saying. The interface forms have no
superclass to imply: they extend interfaces only.
-/
structure DeclarationForm where
  keyword : String
  impliedSuper : Option String
  impliedInterface : Option String
  impliedFinal : Bool
deriving DecidableEq

def declarationForm (file : ClassFile) : DeclarationForm :=
  if file.isAnnotationType then
    ⟨"@interface", none, some "java/lang/annotation/Annotation", false⟩
  else if file.isInterface then ⟨"interface", none, none, false⟩
  else if file.isEnum then ⟨"enum", some "java/lang/Enum", none, true⟩
  else if file.isRecord then ⟨"record", some "java/lang/Record", none, true⟩
  else ⟨"class", some "java/lang/Object", none, false⟩

/-- A keyword and the names that follow it, or nothing if there are none. -/
def clause (keyword : String) (names : List String) : List String :=
  if names.isEmpty then [] else [keyword ++ " " ++ commaList names]

def extendedClass (form : DeclarationForm) (file : ClassFile) : List String :=
  (file.superName.toList.filter fun name => form.impliedSuper != some name).map sourceName

def inheritance (form : DeclarationForm) (file : ClassFile) : List String :=
  let interfaces := (file.interfaces.filter fun name => form.impliedInterface != some name).map
    sourceName
  if form.impliedSuper.isSome then
    clause "extends" (extendedClass form file) ++ clause "implements" interfaces
  else clause "extends" interfaces

def classDeclaration (file : ClassFile) : String :=
  let form := declarationForm file
  let modifiers := (classModifiers file.flags).filter fun word =>
    !(word == "final" && form.impliedFinal)
  let words := modifiers ++ (if file.isSealed then ["sealed"] else []) ++
    [form.keyword, sourceName file.name] ++ inheritance form file
  String.intercalate " " words ++ " \x7b"

def moduleDeclaration (file : ClassFile) : String :=
  match file.moduleDeclaration? with
  | some declaration =>
      (if hasFlag declaration.flags 0x0020 then "open " else "") ++ "module " ++
        declaration.name ++ " \x7b"
  | none => "module module-info \x7b"

def declaration (file : ClassFile) : String :=
  if file.isModule then moduleDeclaration file else classDeclaration file

def fieldDeclaration (field : Member) (type : FieldType) : String :=
  String.intercalate " " (fieldModifiers field.flags ++ [type.text, field.name])

/-- A constructor is named for its class, and a class initialiser has no name at all. -/
def methodDeclaration (className : String) (method : Member) (type : MethodType) : String :=
  let modifiers := methodModifiers method.flags
  let parameters := "(" ++ type.parameterList ++ ")"
  if method.name = "<clinit>" then "static \x7b\x7d"
  else if method.name = "<init>" then
    String.intercalate " " (modifiers ++ [sourceName className ++ parameters])
  else String.intercalate " " (modifiers ++ [type.resultText, method.name ++ parameters])

end Listing

end ClassListing
