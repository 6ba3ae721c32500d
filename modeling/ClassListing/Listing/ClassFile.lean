import ClassListing.Listing.Attribute

/-!
# The listing of a class

The header, the constant pool table if it is asked for, the declaration, and then each field,
each method and the class attributes after a blank line.
-/

namespace ClassListing.Listing

open Access Constant

def header (file : ClassFile) (digest : Option String) : List Line :=
  let preview := if file.isPreview then ", preview" else ""
  let version := s!"version: {file.major}.{file.minor} ({file.languageVersion}{preview})"
  let texts := (digest.toList.map ("md5: " ++ ·)) ++
    [version, "access: " ++ describe .classFile file.flags, "this: " ++ file.name,
      "super: " ++ orNone file.superName] ++
    (if file.interfaces.isEmpty then [] else ["interfaces: " ++ commaList file.interfaces])
  texts.map (⟨0, ·⟩) ++ [.blank]

def entryText (pool : Pool) (index : UInt16) : Constant → Except Error String
  | .utf8 text => .ok (Text.quote text)
  | _ => pool.resolve index

def entryLine (pool : Pool) (index : UInt16) (constant : Constant) : Except Error Line := do
  let text ← entryText pool index constant
  let references := constant.references
  let value := if references.isEmpty then text
    else Text.alignLeft 14 references ++ " // " ++ text
  let slot := Text.alignRight 6 s!"#{index}"
  let kind := Text.alignLeft 18 constant.kind.name
  return ⟨step, slot ++ " = " ++ kind ++ " " ++ value⟩

def poolLines (pool : Pool) : Except Error (List Line) := do
  let rows ← pool.entries.mapM fun (index, constant) => entryLine pool index constant
  return ⟨0, s!"constant pool: {pool.size} slots"⟩ :: rows ++ [.blank]

/-- The lines that a field and a method have in common. -/
def memberLines (pool : Pool) (options : Options) (context : FlagContext) (title : String)
    (member : Member) : Except Error (List Line) := do
  let attributes ← attributeListLines pool options (2 * step) member.attributes
  let flags : List Line :=
    if options.verbose then [⟨2 * step, "flags: " ++ describe context member.flags⟩] else []
  return .blank :: ⟨step, title⟩ :: ⟨2 * step, "descriptor: " ++ member.descriptor⟩ ::
    (flags ++ attributes)

def fieldLines (pool : Pool) (options : Options) (field : Member) : Except Error (List Line) := do
  let type ← FieldType.parse field.descriptor
  memberLines pool options .field ("field: " ++ fieldDeclaration field type) field

def methodLines (pool : Pool) (options : Options) (className : String) (method : Member) :
    Except Error (List Line) := do
  let type ← MethodType.parse method.descriptor
  memberLines pool options .method ("method: " ++ methodDeclaration className method type) method

def classAttributeLines (pool : Pool) (options : Options) (attributes : List Attribute) :
    Except Error (List Line) := do
  if attributes.isEmpty then return []
  return .blank :: (← attributeListLines pool options step attributes)

/-- The lines of a class, headed by `digest` if there is one. -/
def lines (file : ClassFile) (options : Options) (digest : Option String) :
    Except Error (List Line) := do
  let table ← if options.constantPool then poolLines file.pool else pure []
  let fields ← file.fields.mapM (fieldLines file.pool options)
  let methods ← file.methods.mapM (methodLines file.pool options file.name)
  let attributes ← classAttributeLines file.pool options file.attributes
  return header file digest ++ table ++ [⟨0, declaration file⟩] ++ fields.flatten ++
    methods.flatten ++ attributes ++ [⟨0, "\x7d"⟩]

def print (file : ClassFile) (options : Options) (digest : Option String) :
    Except Error String := do
  return Line.renderAll (← lines file options digest)

end ClassListing.Listing
