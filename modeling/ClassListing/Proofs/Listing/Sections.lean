import ClassListing.Proofs.ClassFile.OneLine
import ClassListing.Proofs.Listing.Blocks
import ClassListing.Proofs.Listing.Success
import ClassListing.Proofs.Text.Sections

/-!
# The sections of a listing

The empty lines of a listing stand between its parts and nowhere else: the header, the declaration,
each field, each method and the class attributes. Within a part, the lines at its own level name the
attributes one by one, since all that belongs to an attribute stands further to the right.
-/

namespace ClassListing.Listing

open Attribute Text

/-! ## Lines at one level -/

def linesAt (indent : Nat) (lines : List String) : List String :=
  lines.filter fun line => indentation line == indent

def Labels (indent : Nat) (item : Attribute) (line : String) : Prop :=
  ∃ rest, line = Line.content ⟨indent, item.name ++ ":" ++ rest⟩

def Flush (text : String) : Prop := text.toList.head? ≠ some ' '

instance : DecidablePred Flush := fun _ => inferInstanceAs (Decidable (¬_))

theorem indentation_of_flush {text : String} (h : Flush text) : indentation text = 0 := by
  unfold Flush at h
  unfold indentation
  cases hchars : text.toList with
  | nil => rfl
  | cons first rest =>
      have hfirst : first ≠ ' ' := by simpa [hchars] using h
      simp [hfirst]

theorem Flush.append {first second : String} (hf : Flush first) (hs : Flush second) :
    Flush (first ++ second) := by
  unfold Flush at *
  cases hchars : first.toList with
  | nil => simpa [hchars] using hs
  | cons char rest => simpa [hchars] using hf

section Levels

variable {indent : Nat} {first second : List String}

theorem linesAt_append : linesAt indent (first ++ second) =
    linesAt indent first ++ linesAt indent second :=
  List.filter_append ..

theorem indentation_content_of_flush {text : String} (h : Flush text) :
    indentation (Line.content ⟨indent, text⟩) = indent := by
  rw [Line.indentation_content, indentation_of_flush h, Nat.add_zero]

theorem linesAt_content {text : String} {more : List Line} (h : Flush text) :
    linesAt indent ((⟨indent, text⟩ :: more : List Line).map Line.content) =
      Line.content ⟨indent, text⟩ :: linesAt indent (more.map Line.content) := by
  simp [linesAt, indentation_content_of_flush h]

theorem linesAt_other {outer : Nat} {text : String} {more : List String} (h : Flush text)
    (hne : outer ≠ indent) :
    linesAt indent (Line.content ⟨outer, text⟩ :: more) = linesAt indent more := by
  simp [linesAt, indentation_content_of_flush h, hne]

theorem linesAt_within {lines : List Line} (h : Within (indent + step) lines) :
    linesAt indent (lines.map Line.content) = [] := by
  rw [linesAt, List.filter_eq_nil_iff, List.forall_mem_map]
  intro line hline
  have hindent := (h line hline).1
  rw [Line.indentation_content, beq_iff_eq]
  unfold step at hindent
  omega

theorem flush_kindName (kind : AttributeKind) : Flush kind.name := by
  have hall : ∀ kind ∈ AttributeKind.all, Flush kind.name := by decide
  exact hall kind kind.mem_all

/-- Only a name that stands in the class can start with a space. -/
theorem flush_name {item : Attribute}
    (h : ∀ name body, item = .unrecognized name body → Flush name) : Flush item.name := by
  cases hkind : item.kind? with
  | some kind =>
      rw [name_of_kind? hkind]
      exact flush_kindName kind
  | none =>
      cases item with
      | unrecognized name body => exact h name body rfl
      | _ => cases hkind

/-- At their own level, blocks show one line for each attribute. -/
theorem Blocks.labels {list : List Attribute} {lines : List Line} (h : Blocks indent list lines)
    (hf : ∀ item ∈ list, Flush item.name) :
    List.Forall₂ (Labels indent) list (linesAt indent (lines.map Line.content)) := by
  obtain ⟨blocks, rfl, hblocks⟩ := h
  induction hblocks with
  | nil => exact .nil
  | @cons item block list blocks hblock _ ih =>
      obtain ⟨hitem, hlist⟩ := List.forall_mem_cons.mp hf
      obtain ⟨rest, more, rfl, -, hmore⟩ := hblock
      have htitle : Flush (item.name ++ ":" ++ rest) := by
        have hmark : Flush (":" ++ rest) := by simp [Flush]
        rw [String.append_assoc]
        exact hitem.append hmark
      rw [List.flatten_cons, List.cons_append, linesAt_content htitle, List.map_append,
        linesAt_append, linesAt_within hmore, List.nil_append]
      exact .cons ⟨rest, rfl⟩ (ih hlist)

end Levels

/-! ## Parts -/

inductive Part
  | header
  | declaration
  | field (member : Member)
  | method (member : Member)
  | attributes (list : List Attribute)

def parts (file : ClassFile) : List Part :=
  .header :: .declaration :: (file.fields.map .field ++ file.methods.map .method ++
    if file.attributes.isEmpty then [] else [.attributes file.attributes])

theorem length_parts (file : ClassFile) : (parts file).length =
    2 + file.fields.length + file.methods.length + if file.attributes.isEmpty then 0 else 1 := by
  unfold parts
  cases file.attributes.isEmpty <;> simp <;> omega

/-- The lines are a section that starts with `label` and has, at the level below it, the descriptor,
the flags if all detail is asked for, and the attributes. -/
structure MemberShown (options : Options) (context : FlagContext) (label : String)
    (member : Member) (lines : List String) : Prop where
  title : ∃ rest, lines.head? = some (Line.content ⟨2, label ++ rest⟩)
  rows : ∃ labels, List.Forall₂ (Labels 4) member.attributes labels ∧
    linesAt 4 lines = Line.content ⟨4, "descriptor: " ++ member.descriptor⟩ ::
      ((if options.verbose then
        [Line.content ⟨4, "flags: " ++ Access.describe context member.flags⟩] else []) ++ labels)

/-- The lines are a section that shows the part. -/
def Part.Shown (file : ClassFile) (options : Options) : Part → List String → Prop
  | .header, lines => ∃ rest, lines.head? = some ("version: " ++ rest)
  | .declaration, lines => lines.head? = some (Listing.declaration file)
  | .field member, lines => MemberShown options .field "field: " member lines
  | .method member, lines => MemberShown options .method "method: " member lines
  | .attributes list, lines => List.Forall₂ (Labels 2) list (linesAt 2 lines)

/-- The closing brace of the class belongs to no part. -/
theorem Part.Shown.append_brace {file : ClassFile} {options : Options} {part : Part}
    {lines : List String} (h : part.Shown file options lines) :
    part.Shown file options (lines ++ ["\x7d"]) := by
  have hhead {text : String} (hfirst : lines.head? = some text) :
      (lines ++ ["\x7d"]).head? = some text := by
    rw [List.head?_append, hfirst]
    rfl
  have hlevel {indent : Nat} (hpos : 0 < indent) :
      linesAt indent (lines ++ ["\x7d"]) = linesAt indent lines := by
    have hbrace : indentation "\x7d" ≠ indent := by
      show 0 ≠ indent
      omega
    have hnone : linesAt indent ["\x7d"] = [] := by simp [linesAt, hbrace]
    rw [linesAt_append, hnone, List.append_nil]
  have hmember {context : FlagContext} {label : String} {member : Member}
      (hshown : MemberShown options context label member lines) :
      MemberShown options context label member (lines ++ ["\x7d"]) := by
    obtain ⟨⟨rest, hfirst⟩, hrows⟩ := hshown
    refine ⟨⟨rest, hhead hfirst⟩, ?_⟩
    rw [hlevel (by decide)]
    exact hrows
  cases part with
  | header =>
      obtain ⟨rest, hfirst⟩ := h
      exact ⟨rest, hhead hfirst⟩
  | declaration => exact hhead h
  | field member => exact hmember h
  | method member => exact hmember h
  | attributes list =>
      have hlabels : List.Forall₂ (Labels 2) list (linesAt 2 lines) := h
      show List.Forall₂ (Labels 2) list (linesAt 2 (lines ++ ["\x7d"]))
      rwa [hlevel (by decide)]

def Solid (lines : List Line) : Prop := ∀ line ∈ lines, OneLine line.text ∧ line.content ≠ ""

theorem Solid.not_mem {lines : List Line} (h : Solid lines) : "" ∉ lines.map Line.content := by
  rw [List.mem_map]
  rintro ⟨line, hline, hempty⟩
  exact (h line hline).2 hempty

theorem Within.solid {indent : Nat} {lines : List Line} (h : Within indent lines)
    (hpos : 0 < indent) : Solid lines := by
  intro line hline
  obtain ⟨hindent, htext⟩ := h line hline
  exact ⟨htext, Line.content_ne_empty (.inl (by omega))⟩

/-- The lines of a part before they are rendered. -/
structure Shows (file : ClassFile) (options : Options) (part : Part) (body : List Line) : Prop where
  solid : Solid body
  shown : part.Shown file options (body.map Line.content)

/-- An empty line before each part, and no other empty line. -/
def Separated (file : ClassFile) (options : Options) (parts : List Part) (lines : List Line) :
    Prop :=
  ∃ bodies, lines = bodies.flatMap (.blank :: ·) ∧ List.Forall₂ (Shows file options) parts bodies

namespace Separated

variable {file : ClassFile} {options : Options} {front back : List Part} {first second : List Line}

theorem nil : Separated file options [] [] := ⟨[], rfl, .nil⟩

theorem one {part : Part} {body : List Line} (h : Shows file options part body) :
    Separated file options [part] (.blank :: body) :=
  ⟨[body], by simp, .cons h .nil⟩

theorem append (hf : Separated file options front first)
    (hb : Separated file options back second) :
    Separated file options (front ++ back) (first ++ second) := by
  obtain ⟨bodies, rfl, hbodies⟩ := hf
  obtain ⟨others, rfl, hothers⟩ := hb
  exact ⟨bodies ++ others, List.flatMap_append.symm, List.rel_append hbodies hothers⟩

/-- One part for each item of a list. -/
theorem mapM {step : α → Except Error (List Line)} {part : α → Part} {items : List α}
    (h : ∀ item ∈ items, Yields (Separated file options [part item]) (step item)) :
    Yields (fun blocks => Separated file options (items.map part) blocks.flatten)
      (items.mapM step) := by
  induction items with
  | nil => exact .ok nil
  | cons item items ih =>
      obtain ⟨hfirst, hrest⟩ := List.forall_mem_cons.mp h
      rw [List.mapM_cons]
      exact hfirst.bind fun _ hlines => (ih hrest).map fun _ hblocks => hlines.append hblocks

/-- The sections of the text are the parts. -/
theorem sections_shown {start : Part} {opening lines : List Line}
    (ho : Shows file options start opening) (h : Separated file options back lines) :
    List.Forall₂ (Part.Shown file options) (start :: back)
      (sections (Line.renderAll (opening ++ lines ++ [⟨0, "\x7d"⟩]))) := by
  obtain ⟨bodies, rfl, hbodies⟩ := h
  have hsolid : ∀ body ∈ bodies, Solid body :=
    ClassFile.forall_of_forall₂ hbodies fun _ _ hbody => hbody.solid
  have hbroken : Text.brokenLines (Line.renderAll
      (opening ++ bodies.flatMap (.blank :: ·) ++ [⟨0, "\x7d"⟩])) =
      opening.map Line.content ++ (bodies.map (List.map Line.content)).flatMap ("" :: ·) ++
        ["\x7d"] := by
    rw [Line.brokenLines_renderAll]
    · simp only [List.map_append, List.map_flatMap, List.flatMap_map, List.map_cons,
        Line.content_blank]
      rfl
    · simp only [List.forall_mem_append, List.forall_mem_flatMap, List.forall_mem_cons]
      refine ⟨⟨fun line hline => (ho.solid line hline).1, fun body hbody => ⟨by decide, ?_⟩⟩,
        by decide, nofun⟩
      intro line hline
      exact (hsolid body hbody line hline).1
  have hrest : ∀ block ∈ bodies.map (List.map Line.content), "" ∉ block := by
    rw [List.forall_mem_map]
    intro body hbody
    exact (hsolid body hbody).not_mem
  rw [sections, hbroken, splitOn_blocks ho.solid.not_mem hrest (by decide)]
  have hshown : List.Forall₂ (Part.Shown file options) back (bodies.map (List.map Line.content)) :=
    List.forall₂_map_right_iff.mpr (hbodies.imp fun _ _ hbody => hbody.shown)
  exact forall₂_appendLast nofun (.cons ho.shown hshown) fun _ _ hpart => hpart.append_brace

end Separated

/-! ## The lines of each part -/

section Lines

variable {file : ClassFile} (options : Options)

theorem versionText_eq (major minor : UInt16) (language preview : String) :
    s!"version: {major}.{minor} ({language}{preview})" = "version: " ++
      (toString major ++ "." ++ toString minor ++ " (" ++ language ++ preview ++ ")") := by
  show "version: " ++ toString major ++ "." ++ toString minor ++ " (" ++ language ++ preview ++
    ")" = _
  simp only [String.append_assoc]

/-- The words that the lines of a header start with. -/
def headerLabels : List String :=
  ["md5: ", "version: ", "access: ", "this: ", "super: ", "interfaces: "]

theorem header_eq_dropLast (file : ClassFile) (digest : Option String) :
    header file digest = (header file digest).dropLast ++ [.blank] := by
  rw [header, List.dropLast_concat]

theorem header_labelled {digest : Option String} (hdigest : ∀ line ∈ digest, OneLine line)
    (hname : OneLine file.name) (hsuper : ∀ name ∈ file.superName, OneLine name)
    (hinterfaces : ∀ name ∈ file.interfaces, OneLine name) :
    ∀ line ∈ (header file digest).dropLast,
      OneLine line.text ∧ ∃ label ∈ headerLabels, ∃ rest, line = ⟨0, label ++ rest⟩ := by
  have hnone : OneLine (orNone file.superName) := OneLine.getD hsuper (by decide)
  have hlist := OneLine.commaList hinterfaces
  have hversion : OneLine file.languageVersion := by
    unfold ClassFile.languageVersion
    dsimp only
    repeat' split
    all_goals simp
  have hpreview : OneLine (if file.isPreview then ", preview" else "") := by
    cases file.isPreview <;> decide
  have hline {label rest : String} (hlabel : label ∈ headerLabels)
      (htext : OneLine (label ++ rest)) : OneLine (Line.mk 0 (label ++ rest)).text ∧
        ∃ other ∈ headerLabels, ∃ more, Line.mk 0 (label ++ rest) = ⟨0, other ++ more⟩ :=
    ⟨htext, label, hlabel, rest, rfl⟩
  simp only [header, List.dropLast_concat, List.forall_mem_map, List.forall_mem_append,
    List.forall_mem_cons, versionText_eq]
  refine ⟨⟨?_, hline (by decide) ?_, hline (by decide) (by simp), hline (by decide) ?_,
    hline (by decide) ?_, nofun⟩, ?_⟩
  · intro found hfound
    have hfoundLine := hdigest found (Option.mem_toList.mp hfound)
    exact hline (by decide) (by simp [hfoundLine])
  · simp [hversion, hpreview]
  · simp [hname]
  · simp [hnone]
  · split
    · nofun
    · exact List.forall_mem_singleton.mpr (hline (by decide) (by simp [hlist]))

theorem header_shows (h : file.OneLine) : ∃ opening, header file none = opening ++ [.blank] ∧
    Shows file options .header opening := by
  have hnone : ∀ line ∈ (none : Option String), OneLine line := by simp
  refine ⟨_, header_eq_dropLast file none, ?_, ?_⟩
  · intro line hline
    obtain ⟨htext, label, hlabel, rest, rfl⟩ :=
      header_labelled hnone h.name h.superName h.interfaces line hline
    have hne : ∀ label ∈ headerLabels, label ++ rest ≠ "" := by simp [headerLabels]
    exact ⟨htext, Line.content_ne_empty (.inr (hne label hlabel))⟩
  · exact ⟨_, congrArg some ((String.empty_append).trans (versionText_eq ..))⟩

theorem declaration_shows (h : file.OneLine) :
    Shows file options .declaration [⟨0, declaration file⟩] := by
  have hne : declaration file ≠ "" := by
    unfold declaration moduleDeclaration classDeclaration
    dsimp only
    repeat' split
    all_goals simp
  refine ⟨List.forall_mem_singleton.mpr ⟨oneLine_declaration h, ?_⟩, ?_⟩
  · exact Line.content_ne_empty (.inr hne)
  · show some (Line.content ⟨0, declaration file⟩) = some (declaration file)
    simp [Line.content]

section Members

variable (h : file.OneLine) (hn : ∀ item, file.Holds item → Flush item.name)
include h hn

theorem memberLines_separated {part : Part} {context : FlagContext} {label rest : String}
    {member : Member} (hmember : member ∈ file.fields ++ file.methods)
    (ht : Text.OneLine (label ++ rest)) (hf : Flush (label ++ rest))
    (hpart : ∀ lines, MemberShown options context label member lines →
      part.Shown file options lines) :
    Yields (Separated file options [part])
      (memberLines file.pool options context (label ++ rest) member) := by
  have hattributes : Everywhere Attribute.OneLine member.attributes := by
    intro item hitem
    exact h.attributes item (.inr ⟨member, hmember, hitem⟩)
  have hnames : ∀ item ∈ member.attributes, Flush item.name := by
    intro item hitem
    exact hn item (.inr ⟨member, hmember, .here hitem⟩)
  have hdescriptor : Flush ("descriptor: " ++ member.descriptor) := by simp [Flush]
  have hflags : linesAt 4 ((if options.verbose then
      [⟨2 * step, "flags: " ++ Access.describe context member.flags⟩] else [] : List Line).map
        Line.content) = if options.verbose then
      [Line.content ⟨4, "flags: " ++ Access.describe context member.flags⟩] else [] := by
    cases options.verbose with
    | false => rfl
    | true => exact linesAt_content (by simp [Flush])
  have hle : step ≤ 2 * step := by decide
  refine (attributeListLines_blocks h.constants options (2 * step) member.attributes
    hattributes).map fun attributes hblocks => .one ⟨Within.solid ?_ (show 0 < step by decide),
      hpart _ ⟨⟨rest, rfl⟩, linesAt 4 (attributes.map Line.content), hblocks.labels hnames, ?_⟩⟩
  · have hd := (h.members member hmember).2
    rw [Within.cons_iff, Within.cons_iff]
    refine ⟨⟨Nat.le_refl _, ht⟩, ⟨hle, by simp [hd]⟩, .append ?_ (hblocks.within.mono hle)⟩
    split
    · exact List.forall_mem_singleton.mpr ⟨hle, by simp⟩
    · exact .nil
  · rw [List.map_cons, linesAt_other hf (by decide)]
    show linesAt 4 ((⟨4, "descriptor: " ++ member.descriptor⟩ :: _ : List Line).map _) = _
    rw [linesAt_content hdescriptor, List.map_append, linesAt_append, hflags]

theorem fieldLines_separated {field : Member} (hfield : field ∈ file.fields) :
    Yields (Separated file options [.field field]) (fieldLines file.pool options field) := by
  have hmember : field ∈ file.fields ++ file.methods := List.mem_append_left _ hfield
  obtain ⟨hname, hdescriptor⟩ := h.members field hmember
  refine (FieldType.parse_oneLine hdescriptor).bind fun type htype => ?_
  have hdeclaration := oneLine_fieldDeclaration hname htype
  exact memberLines_separated options h hn hmember (by simp [hdeclaration]) (by simp [Flush])
    fun _ hshown => hshown

theorem methodLines_separated {method : Member} (hmethod : method ∈ file.methods) :
    Yields (Separated file options [.method method])
      (methodLines file.pool options file.name method) := by
  have hmember : method ∈ file.fields ++ file.methods := List.mem_append_right _ hmethod
  obtain ⟨hname, hdescriptor⟩ := h.members method hmember
  refine (MethodType.parse_oneLine hdescriptor).bind fun type htype => ?_
  have hdeclaration := oneLine_methodDeclaration h.name hname htype
  exact memberLines_separated options h hn hmember (by simp [hdeclaration]) (by simp [Flush])
    fun _ hshown => hshown

theorem classAttributeLines_separated :
    Yields (Separated file options
        (if file.attributes.isEmpty then [] else [.attributes file.attributes]))
      (classAttributeLines file.pool options file.attributes) := by
  have hattributes : Everywhere Attribute.OneLine file.attributes := by
    intro item hitem
    exact h.attributes item (.inl hitem)
  have hnames : ∀ item ∈ file.attributes, Flush item.name := by
    intro item hitem
    exact hn item (.inl (.here hitem))
  unfold classAttributeLines
  cases hempty : file.attributes.isEmpty with
  | true => exact .ok .nil
  | false =>
      refine (attributeListLines_blocks h.constants options step file.attributes hattributes).map
        fun lines hblocks => ?_
      exact .one ⟨hblocks.within.solid (by decide), hblocks.labels hnames⟩

theorem lines_separated (hoff : options.constantPool = false) :
    Yields (fun lines => ∃ opening rest, lines = opening ++ rest ++ [⟨0, "\x7d"⟩] ∧
        Shows file options .header opening ∧ Separated file options (parts file).tail rest)
      (lines file options none) := by
  obtain ⟨opening, hheader, hopening⟩ := header_shows options h
  have htable : tableLines file.pool options = .ok [] := by simp [tableLines, hoff]
  rw [lines_eq, htable]
  refine (Separated.mapM fun field hmem => fieldLines_separated options h hn hmem).bind
    fun fields hfields => (Separated.mapM fun method hmem =>
      methodLines_separated options h hn hmem).bind fun methods hmethods =>
    (classAttributeLines_separated options h hn).map fun attributes hattributes => ?_
  have hdeclaration := Separated.one (declaration_shows options h)
  refine ⟨opening, _, ?_, hopening,
    hdeclaration.append ((hfields.append hmethods).append hattributes)⟩
  rw [hheader]
  simp

end Members

end Lines

/--
If no text of a decoded class has a line feed and no name of an unknown attribute starts with a
space, then the empty lines of its listing cut it into the parts in their order. Each member has a
section to itself, and the attributes of a member or of the class have one line each at their level.
-/
theorem print_sections {bytes : Bytes} {file : ClassFile} (h : ClassFile.parse bytes = .ok file)
    (hline : file.pool.OneLine)
    (hname : ∀ name body, file.Holds (.unrecognized name body) → Flush name) {options : Options}
    (hoff : options.constantPool = false) {text : String}
    (htext : print file options none = .ok text) :
    (sections text).length = 2 + file.fields.length + file.methods.length +
        (if file.attributes.isEmpty then 0 else 1) ∧
      List.Forall₂ (Part.Shown file options) (parts file) (sections text) := by
  have honeLine := ClassFile.oneLine_of_parse h hline
  have hnames : ∀ item, file.Holds item → Flush item.name := by
    intro item hitem
    exact flush_name fun name body hsame => hname name body (hsame ▸ hitem)
  obtain ⟨found, hfound, hrender⟩ := bind_eq_ok_iff.mp htext
  cases hrender
  obtain ⟨opening, rest, rfl, hopening, hrest⟩ :=
    lines_separated options honeLine hnames hoff found hfound
  have hshown := hrest.sections_shown hopening
  exact ⟨hshown.length_eq.symm.trans (length_parts file), hshown⟩

theorem loading_oneLine : loadingPool.OneLine := by
  intro index text hget
  have hmem := Array.mem_of_getElem? ((Pool.get_eq_ok_iff rfl).mp hget)
  simp [loadingPool] at hmem
  rcases hmem with rfl | rfl | rfl | rfl | rfl <;> decide

theorem loading_flush (name : String) (body : Bytes)
    (h : (loadingFile "I").Holds (.unrecognized name body)) : Flush name := by
  have hall : ∀ item, (loadingFile "I").Holds item →
      ∀ name body, item = .unrecognized name body → Flush name := by
    have hunknown : Flush "A" := by decide
    rw [ClassFile.forall_holds_iff]
    simp [loadingFile, loadingCode, everywhere_cons_iff, everywhere_nil, Throughout, nestedLists,
      hunknown]
  exact hall _ h name body rfl

/-- Five sections: beside the first two one for each member, and one for the attribute. -/
theorem print_sections_loading :
    ClassFile.parse (loadingBytes 3) = .ok (loadingFile "I") ∧
      ∃ text, print (loadingFile "I") .detailed none = .ok text ∧ (sections text).length = 5 ∧
        List.Forall₂ (Part.Shown (loadingFile "I") .detailed) (parts (loadingFile "I"))
          (sections text) := by
  have hparse : ClassFile.parse (loadingBytes 3) = .ok (loadingFile "I") := parse_loading rfl
  obtain ⟨text, htext⟩ : ∃ text, print (loadingFile "I") .detailed none = .ok text := ⟨_, rfl⟩
  exact ⟨hparse, text, htext, print_sections hparse loading_oneLine loading_flush rfl htext⟩

end ClassListing.Listing
