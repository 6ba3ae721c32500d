import ClassListing.Listing.ClassFile
import ClassListing.Proofs.Attribute.OneLine
import ClassListing.Proofs.ClassFile.Contents

/-!
# Classes without line feeds

A decoded class whose constants have no line feed has none in its names, in its descriptors and in
the rows of its attributes. Its declaration and the declarations of its members are then one line
each, and so is every line of its header.
-/

namespace ClassListing

open Text Listing

/-- The texts of a class have no line feed, those of debug extensions apart. -/
structure ClassFile.OneLine (file : ClassFile) : Prop where
  constants : file.pool.OneLine
  name : Text.OneLine file.name
  superName : ∀ name ∈ file.superName, Text.OneLine name
  interfaces : ∀ name ∈ file.interfaces, Text.OneLine name
  members : ∀ member ∈ file.fields ++ file.methods,
    Text.OneLine member.name ∧ Text.OneLine member.descriptor
  attributes : ∀ item, file.Holds item → item.OneLine

/-- The class, its superclass and its interfaces are named by constants. -/
theorem ClassFile.names_of_parse {bytes : Bytes} {file : ClassFile}
    (h : ClassFile.parse bytes = .ok file) {property : String → Prop}
    (hp : ∀ index, Yields property (file.pool.className index)) :
    property file.name ∧ (∀ name ∈ file.superName, property name) ∧
      ∀ name ∈ file.interfaces, property name := by
  obtain ⟨raw, -, hraw⟩ := ClassFile.parse_eq_ok_iff.mp h
  have hname (index : UInt16) : Yields property (raw.pool.className index) := by
    have hsame : raw.pool.className index = file.pool.className index := by
      simp only [Pool.className, Pool.utf8, hraw.get_eq]
    rw [hsame]
    exact hp index
  exact ⟨hname _ _ hraw.name, Yields.optional hname _ _ hraw.superName,
    ClassFile.forall_of_forall₂ hraw.interfaces fun index name => hname index name⟩

theorem ClassFile.oneLine_of_parse {bytes : Bytes} {file : ClassFile}
    (h : ClassFile.parse bytes = .ok file) (hc : file.pool.OneLine) : file.OneLine := by
  obtain ⟨hname, hsuperName, hinterfaces⟩ := names_of_parse h (Pool.className_oneLine hc)
  obtain ⟨raw, -, hraw⟩ := ClassFile.parse_eq_ok_iff.mp h
  have hpool : raw.pool.OneLine := by
    intro index text htext
    exact hc index text (hraw.get_eq ▸ htext)
  have hmember (item : Member.Raw) (member : Member) (hdenotes : item.Denotes raw.pool member) :
      Text.OneLine member.name ∧ Text.OneLine member.descriptor :=
    ⟨Pool.utf8_oneLine hpool _ _ hdenotes.name, Pool.utf8_oneLine hpool _ _ hdenotes.descriptor⟩
  exact {
    constants := hc
    name := hname
    superName := hsuperName
    interfaces := hinterfaces
    members := List.forall_mem_append.mpr
      ⟨ClassFile.forall_of_forall₂ hraw.fields hmember,
        ClassFile.forall_of_forall₂ hraw.methods hmember⟩
    attributes := hraw.forall_holds (Attribute.decodeBody_gives_oneLine hpool)
      fun index name _ hname => Pool.utf8_oneLine hpool index name hname }

namespace Listing

/-! ## Declarations -/

theorem oneLine_words {words : List String} (h : ∀ word ∈ words, OneLine word) :
    OneLine (String.intercalate " " words) :=
  OneLine.intercalate (by decide) h

theorem oneLine_clause {keyword : String} {names : List String} (hk : OneLine keyword)
    (h : ∀ name ∈ names, OneLine name) : ∀ text ∈ clause keyword names, OneLine text := by
  have hlist := OneLine.commaList h
  unfold clause
  split
  · nofun
  · simp [hk, hlist]

theorem oneLine_classDeclaration {file : ClassFile} (h : file.OneLine) :
    OneLine (classDeclaration file) := by
  have hnames {names : List String} {keep : String → Bool} (hall : ∀ name ∈ names, OneLine name) :
      ∀ name ∈ (names.filter keep).map sourceName, OneLine name := by
    rw [List.forall_mem_map]
    intro name hname
    exact OneLine.sourceName (hall name (List.mem_filter.mp hname).1)
  have hsuper : ∀ name ∈ file.superName.toList, OneLine name := by
    intro name hname
    exact h.superName name (Option.mem_toList.mp hname)
  have hinheritance (form : DeclarationForm) : ∀ text ∈ inheritance form file, OneLine text := by
    unfold inheritance
    dsimp only
    split
    · exact List.forall_mem_append.mpr ⟨oneLine_clause (by decide) (hnames hsuper),
        oneLine_clause (by decide) (hnames h.interfaces)⟩
    · exact oneLine_clause (by decide) (hnames h.interfaces)
  have hmodifiers {keep : String → Bool} :
      ∀ word ∈ (Access.classModifiers file.flags).filter keep, OneLine word := by
    intro word hword
    exact OneLine.classModifiers file.flags word (List.mem_filter.mp hword).1
  have hsealed : ∀ word ∈ if file.isSealed then ["sealed"] else [], OneLine word := by
    cases file.isSealed <;> decide
  have hkeyword : OneLine (declarationForm file).keyword := by
    unfold declarationForm
    repeat' split
    all_goals decide
  refine OneLine.append_iff.mpr ⟨oneLine_words ?_, by decide⟩
  simp only [List.forall_mem_append, List.forall_mem_cons]
  exact ⟨⟨⟨hmodifiers, hsealed⟩, hkeyword, OneLine.sourceName h.name, nofun⟩, hinheritance _⟩

theorem oneLine_moduleDeclaration {file : ClassFile} (h : file.OneLine) :
    OneLine (moduleDeclaration file) := by
  unfold moduleDeclaration
  split
  · rename_i declaration hdeclaration
    obtain ⟨item, hitem, hfound⟩ := List.exists_of_findSome?_eq_some hdeclaration
    have hrows := h.attributes item (.inl (.here hitem))
    cases item <;> cases hfound
    have hname : OneLine ("name: " ++ declaration.name) := hrows _ (by simp [moduleRows])
    have hopen : OneLine (if Access.hasFlag declaration.flags 0x0020 then "open " else "") := by
      split <;> decide
    simp only [OneLine.append_iff] at hname ⊢
    exact ⟨⟨⟨hopen, by decide⟩, hname.2⟩, by decide⟩
  · decide

theorem oneLine_declaration {file : ClassFile} (h : file.OneLine) : OneLine (declaration file) := by
  unfold declaration
  split
  · exact oneLine_moduleDeclaration h
  · exact oneLine_classDeclaration h

theorem oneLine_fieldDeclaration {field : Member} {type : FieldType} (hname : OneLine field.name)
    (htype : OneLine type.text) : OneLine (fieldDeclaration field type) := by
  apply oneLine_words
  simp only [List.forall_mem_append, List.forall_mem_cons]
  exact ⟨OneLine.fieldModifiers field.flags, htype, hname, nofun⟩

theorem oneLine_methodDeclaration {className : String} {method : Member} {type : MethodType}
    (hclass : OneLine className) (hname : OneLine method.name)
    (htype : OneLine type.parameterList ∧ OneLine type.resultText) :
    OneLine (methodDeclaration className method type) := by
  have hmodifiers := OneLine.methodModifiers method.flags
  have hparameters : OneLine ("(" ++ type.parameterList ++ ")") := by simp [htype.1]
  unfold methodDeclaration
  dsimp only
  repeat' split
  · decide
  · apply oneLine_words
    rw [List.forall_mem_append, List.forall_mem_singleton, OneLine.append_iff]
    exact ⟨hmodifiers, OneLine.sourceName hclass, hparameters⟩
  · apply oneLine_words
    simp only [List.forall_mem_append, List.forall_mem_cons]
    exact ⟨hmodifiers, htype.2, OneLine.append_iff.mpr ⟨hname, hparameters⟩, nofun⟩

end Listing

end ClassListing
