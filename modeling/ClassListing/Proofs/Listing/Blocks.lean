import ClassListing.Proofs.Attribute.OneLine
import ClassListing.Proofs.ClassFile.Contents

/-!
# The lines of an attribute

An attribute starts with a line that names it. All its other lines, those of the attributes inside
it included, stand further to the right, and none has a line feed.
-/

namespace ClassListing.Listing

open Attribute

/-- The lines stand at `indent` or further to the right, and none has a line feed. -/
def Within (indent : Nat) (lines : List Line) : Prop :=
  ∀ line ∈ lines, indent ≤ line.indent ∧ Text.OneLine line.text

namespace Within

variable {indent : Nat} {first second : List Line}

theorem nil : Within indent [] := nofun

theorem cons_iff {line : Line} :
    Within indent (line :: first) ↔
      (indent ≤ line.indent ∧ Text.OneLine line.text) ∧ Within indent first :=
  List.forall_mem_cons

theorem append (hf : Within indent first) (hs : Within indent second) :
    Within indent (first ++ second) :=
  List.forall_mem_append.mpr ⟨hf, hs⟩

theorem flatten {blocks : List (List Line)} (h : ∀ block ∈ blocks, Within indent block) :
    Within indent blocks.flatten :=
  List.forall_mem_flatten.mpr h

theorem rows {texts : List String} (h : ∀ text ∈ texts, Text.OneLine text) :
    Within indent (texts.map fun text => ⟨indent, text⟩) := by
  rw [Within, List.forall_mem_map]
  intro text htext
  exact ⟨Nat.le_refl indent, h text htext⟩

theorem mono {outer : Nat} (h : Within indent first) (hle : outer ≤ indent) :
    Within outer first := by
  intro line hline
  obtain ⟨hindent, htext⟩ := h line hline
  exact ⟨Nat.le_trans hle hindent, htext⟩

end Within

/-- The first line names the attribute, and the others stand further to the right. -/
def Block (indent : Nat) (item : Attribute) (lines : List Line) : Prop :=
  ∃ rest more, lines = ⟨indent, item.name ++ ":" ++ rest⟩ :: more ∧
    Text.OneLine (item.name ++ ":" ++ rest) ∧ Within (indent + step) more

section Shapes

variable {indent : Nat} {item : Attribute} {kind : AttributeKind}

theorem oneLine_kindName (kind : AttributeKind) : Text.OneLine kind.name := by
  have hall : ∀ kind ∈ AttributeKind.all, Text.OneLine kind.name := by decide +kernel
  exact hall kind kind.mem_all

/-- A line that goes on behind the name, and lines below it. -/
theorem block_of_rest {rest : String} {more : List Line} (hn : Text.OneLine item.name)
    (hr : Text.OneLine rest) (h : Within (indent + step) more) :
    Block indent item (⟨indent, item.name ++ ": " ++ rest⟩ :: more) := by
  have hmark : ": " = ":" ++ " " := rfl
  refine ⟨" " ++ rest, more, ?_, ?_, h⟩
  · rw [hmark]
    simp only [String.append_assoc]
  · simp [hn, hr]

/-- A line that counts what the attribute has, and lines below it. -/
theorem block_of_count {count : Nat} {unit : String} {more : List Line}
    (hn : Text.OneLine item.name) (hu : Text.OneLine unit) (h : Within (indent + step) more) :
    Block indent item (⟨indent, item.name ++ s!": {count}{unit}"⟩ :: more) := by
  have htitle : item.name ++ s!": {count}{unit}" = item.name ++ ": " ++ (count.repr ++ unit) := by
    show _ ++ (": " ++ count.repr ++ unit) = _
    simp only [String.append_assoc]
  rw [htitle]
  exact block_of_rest hn (by simp [hu]) h

theorem block_of_named (hkind : item.kind? = some kind) {text : String} (h : Text.OneLine text) :
    Block indent item [⟨indent, named kind text⟩] := by
  have hname := name_of_kind? hkind
  rw [named, ← hname]
  exact block_of_rest (hname ▸ oneLine_kindName kind) h .nil

/-- A line with the name only, and lines below it. -/
theorem block_of_lines (hkind : item.kind? = some kind) {more : List Line}
    (h : Within (indent + step) more) : Block indent item (⟨indent, kind.name ++ ":"⟩ :: more) := by
  have hname := oneLine_kindName kind
  refine ⟨"", more, ?_, ?_, h⟩
  · rw [name_of_kind? hkind, String.append_empty]
  · simp [name_of_kind? hkind, hname]

theorem block_of_titled (hkind : item.kind? = some kind) {rows : List String}
    (h : ∀ row ∈ rows, Text.OneLine row) : Block indent item (titled indent kind.name rows) :=
  block_of_lines hkind (.rows h)

end Shapes

/-! ## The lines of each kind -/

section Kinds

variable {pool : Pool} (indent : Nat)

theorem switchLines_within (operands : List Operand) :
    Within indent (switchLines indent operands) := by
  unfold switchLines
  dsimp only
  split
  · exact .nil
  · refine .append (List.forall_mem_map.mpr ?_) (List.forall_mem_singleton.mpr ?_)
    · intro row _
      exact ⟨Nat.le_refl indent, by simp⟩
    · exact ⟨Nat.le_refl indent, by simp⟩

theorem oneLine_mnemonic (instruction : Instruction) : Text.OneLine instruction.mnemonic := by
  have htable : ∀ opcode ∈ Opcode.table.toList, Text.OneLine opcode.mnemonic := by decide +kernel
  unfold Instruction.mnemonic
  split
  · rename_i opcode hopcode
    exact htable opcode (Array.mem_toList_iff.mpr (Array.mem_of_getElem? hopcode))
  · decide

theorem operandText?_oneLine (h : pool.OneLine) (opcode : UInt8) (operand : Operand) :
    Yields (fun found => ∀ text ∈ found, Text.OneLine text) (operandText? pool opcode operand) := by
  have hsome {text : String} (htext : Text.OneLine text) :
      ∀ found ∈ some text, Text.OneLine found := by simpa using htext
  cases operand with
  | constant index =>
      have htext : Yields (fun found => ∀ text ∈ found, Text.OneLine text)
          (do return some (← pool.resolve index)) :=
        (Pool.resolve_oneLine h index).map fun _ htext => hsome htext
      have hchecked (role : Constant.Role) : Yields (fun found => ∀ text ∈ found, Text.OneLine text)
          (do
            let _ ← pool.operand index role
            return some (← pool.resolve index)) :=
        Yields.bind (fun _ _ => trivial) fun _ (_ : True) => htext
      cases hrole : Opcode.role? opcode with
      | none => simpa only [operandText?, hrole] using htext
      | some role => simpa only [operandText?, hrole] using hchecked role
  | slot index => exact .ok (hsome (by simp))
  | immediate value => exact .ok (hsome (by simp))
  | arrayType code =>
      have hname : ∀ name ∈ arrayTypeName? code, Text.OneLine name := by
        unfold arrayTypeName?
        split <;> decide
      exact .ok (hsome (Text.OneLine.getD hname (by simp)))
  | branch target => exact .ok (hsome (by simp))
  | switch otherwise cases => exact .ok nofun

theorem instructionLines_within (h : pool.OneLine) (instruction : Instruction) :
    Yields (Within indent) (instructionLines pool indent instruction) := by
  refine (Yields.mapM fun operand _ => operandText?_oneLine h instruction.opcode operand).map
    fun texts htexts => ?_
  have hoperands : Text.OneLine (commaList (texts.filterMap id)) := by
    apply Text.OneLine.commaList
    intro text htext
    obtain ⟨found, hfound, hsome⟩ := List.mem_filterMap.mp htext
    exact htexts found hfound text hsome
  have hmarker : Text.OneLine (if instruction.wide then "wide " else "") := by
    cases instruction.wide <;> decide
  have hmnemonic := oneLine_mnemonic instruction
  have hswitch := switchLines_within (indent + 2 * step) instruction.operands
  refine Within.cons_iff.mpr ⟨⟨Nat.le_refl indent, ?_⟩, hswitch.mono (Nat.le_add_right _ _)⟩
  dsimp only
  split
  · simp [hmarker, hmnemonic]
  · refine Text.OneLine.append_iff.mpr ⟨?_, hoperands⟩
    simp [hmarker, hmnemonic]

theorem handlerLines_within {rows : List ExceptionHandler}
    (h : ∀ row ∈ rows, Text.OneLine (handlerText row)) :
    Within indent (handlerLines indent rows) := by
  unfold handlerLines
  split
  · exact .nil
  · have hrows : ∀ text ∈ "from to target type" :: rows.map handlerText, Text.OneLine text :=
      List.forall_mem_cons.mpr ⟨by decide, List.forall_mem_map.mpr h⟩
    have hinner : Within (indent + step) _ := .rows hrows
    exact Within.cons_iff.mpr ⟨⟨Nat.le_refl indent, by simp⟩, hinner.mono (Nat.le_add_right _ _)⟩

theorem oneLine_codeSizes (options : Options) (body : Code) :
    Text.OneLine (codeSizes options body) := by
  unfold codeSizes
  cases options.verbose <;> simp

theorem codeLines_block (h : pool.OneLine) (options : Options) {outer body : Code}
    (hhandlers : ∀ row ∈ body.handlers, Text.OneLine (handlerText row)) :
    Yields (Block indent (.code outer)) (codeLines pool options indent body) := by
  refine (Yields.mapM fun instruction _ => instructionLines_within _ h instruction).map
    fun instructions hinstructions => ?_
  have hsizes := oneLine_codeSizes options body
  refine block_of_lines rfl (Within.cons_iff.mpr ⟨⟨Nat.le_refl _, hsizes⟩, ?_⟩)
  exact (Within.flatten hinstructions).append (handlerLines_within _ hhandlers)

theorem frameLines_block (options : Options) {frames : List Frame}
    (h : ∀ frame ∈ frames, Text.OneLine frame.text) :
    Block indent (.stackMapTable frames) (frameLines options indent frames) := by
  refine block_of_count (oneLine_kindName .stackMapTable) (by decide) ?_
  split
  · refine List.forall_mem_map.mpr fun row hrow => ⟨Nat.le_refl _, ?_⟩
    have hframe := h row.2 (List.of_mem_zip hrow).2
    simp [hframe]
  · exact .nil

theorem unrecognizedLines_block (options : Options) {name : String} (h : Text.OneLine name)
    (body : Bytes) :
    Block indent (.unrecognized name body) (unrecognizedLines options indent name body) := by
  refine block_of_count h (by decide) ?_
  split
  · refine List.forall_mem_map.mpr fun piece _ => ⟨Nat.le_refl _, ?_⟩
    apply Text.OneLine.intercalate (by decide)
    exact List.forall_mem_map.mpr fun byte _ => Text.OneLine.hexByte byte
  · exact .nil

theorem parameterAnnotationLines_within {parameters : List (List AnnotationUse)}
    (h : ∀ list ∈ parameters, ∀ item ∈ list, Text.OneLine item.text) :
    Within indent (parameterAnnotationLines indent parameters) := by
  refine List.forall_mem_flatMap.mpr fun row hrow => ?_
  have hitems := h row.1 (List.fst_mem_of_mem_zipIdx hrow)
  have hinner : Within (indent + step) _ := .rows (List.forall_mem_map.mpr hitems)
  exact Within.cons_iff.mpr ⟨⟨Nat.le_refl indent, by simp⟩, hinner.mono (Nat.le_add_right _ _)⟩

theorem bootstrapTableLines_block (h : pool.OneLine) (rows : List BootstrapMethod) :
    Yields (Block indent (.bootstrapMethods rows)) (bootstrapTableLines pool indent rows) := by
  have hrow (row : BootstrapMethod) (number : Nat) :
      Yields (Within (indent + step)) (bootstrapLines pool (indent + step) row number) := by
    refine (Pool.resolve_oneLine h row.handle).bind fun handle hhandle =>
      (Yields.mapM fun argument _ => Pool.resolve_oneLine h argument).map
        fun arguments harguments => ?_
    have hlist := Text.OneLine.bracketed harguments
    rw [Within.cons_iff, Within.cons_iff]
    exact ⟨⟨Nat.le_refl _, by simp [hhandle]⟩, ⟨Nat.le_add_right _ _, by simp [hlist]⟩, .nil⟩
  exact (Yields.mapM fun row _ => hrow row.1 row.2).map fun blocks hblocks =>
    block_of_lines rfl (.flatten hblocks)

theorem componentLines_within {name descriptor : String} (hname : Text.OneLine name)
    (hdescriptor : Text.OneLine descriptor) :
    Yields (Within indent) (componentLines indent name descriptor) := by
  refine (FieldType.parse_oneLine hdescriptor).map fun type htype => ?_
  rw [Within.cons_iff, Within.cons_iff]
  exact ⟨⟨Nat.le_refl _, by simp [hname, htype]⟩, ⟨Nat.le_add_right _ _, by simp [hdescriptor]⟩,
    .nil⟩

end Kinds

/-! ## Attributes with those inside them -/

theorem Block.append {indent : Nat} {item : Attribute} {lines more : List Line}
    (h : Block indent item lines) (hm : Within (indent + step) more) :
    Block indent item (lines ++ more) := by
  obtain ⟨rest, below, rfl, htitle, hbelow⟩ := h
  exact ⟨rest, below ++ more, rfl, htitle, hbelow.append hm⟩

theorem Block.within {indent : Nat} {item : Attribute} {lines : List Line}
    (h : Block indent item lines) : Within indent lines := by
  obtain ⟨rest, below, rfl, htitle, hbelow⟩ := h
  exact Within.cons_iff.mpr ⟨⟨Nat.le_refl _, htitle⟩, hbelow.mono (Nat.le_add_right _ _)⟩

def Blocks (indent : Nat) (list : List Attribute) (lines : List Line) : Prop :=
  ∃ blocks, lines = blocks.flatten ∧ List.Forall₂ (Block indent) list blocks

theorem Blocks.within {indent : Nat} {list : List Attribute} {lines : List Line}
    (h : Blocks indent list lines) : Within indent lines := by
  obtain ⟨blocks, rfl, hblocks⟩ := h
  apply Within.flatten
  exact ClassFile.forall_of_forall₂ hblocks fun _ _ hblock => hblock.within

mutual

theorem attributeLines_block {pool : Pool} (h : pool.OneLine) (options : Options) (indent : Nat) :
    (item : Attribute) → Throughout Attribute.OneLine item →
      Yields (Block indent item) (attributeLines pool options indent item)
  | .constantValue index, _ =>
      (Pool.resolve_oneLine h index).map fun _ htext => block_of_named rfl htext
  | .code ⟨maxStack, maxLocals, length, instructions, handlers, attributes⟩, hitem => by
      obtain ⟨hhandlers, hnested⟩ := throughout_code_iff.mp hitem
      have hown : Yields
          (Block indent (.code ⟨maxStack, maxLocals, length, instructions, handlers, attributes⟩))
          (codeLines pool options indent
            ⟨maxStack, maxLocals, length, instructions, handlers, []⟩) :=
        codeLines_block indent h options hhandlers
      have hinner := attributeListLines_blocks h options (indent + step) attributes hnested
      exact hown.bind fun _ hblock => hinner.map fun _ hblocks => hblock.append hblocks.within
  | .record components, hitem => by
      obtain ⟨hown, hnested⟩ := throughout_record_iff.mp hitem
      have hinner := componentListLines_within h options (indent + step) components hown hnested
      exact hinner.map fun _ hrows => block_of_lines rfl hrows
  | .bootstrapMethods rows, _ => bootstrapTableLines_block indent h rows
  | .stackMapTable _, hitem => .ok (frameLines_block indent options hitem.1)
  | .exceptions _, hitem | .modulePackages _, hitem | .nestMembers _, hitem =>
      .ok (block_of_named rfl (.commaList hitem.1))
  | .permittedSubclasses _, hitem | .moduleInfo _, hitem => .ok (block_of_titled rfl hitem.1)
  | .innerClasses _, hitem | .annotations .., hitem | .typeAnnotations .., hitem
  | .methodParameters _, hitem => .ok (block_of_titled rfl (List.forall_mem_map.mpr hitem.1))
  | .localVariableTable _, hitem | .localVariableTypeTable _, hitem =>
      .ok (block_of_titled rfl (List.forall_mem_cons.mpr
        ⟨by decide, List.forall_mem_map.mpr hitem.1⟩))
  | .signature _, hitem | .sourceFile _, hitem | .moduleMainClass _, hitem | .nestHost _, hitem
  | .enclosingMethod .., hitem | .annotationDefault _, hitem => .ok (block_of_named rfl hitem.1)
  | .synthetic, _ | .deprecated, _ => .ok (block_of_named rfl (by decide))
  | .sourceDebugExtension text, _ => .ok (block_of_titled rfl (Text.OneLine.lines text))
  | .lineNumberTable _, _ =>
      .ok (block_of_titled rfl (List.forall_mem_map.mpr fun row _ => by simp [lineNumberText]))
  | .parameterAnnotations .., hitem =>
      .ok (block_of_lines rfl (parameterAnnotationLines_within _ hitem.1))
  | .unrecognized _ body, hitem => .ok (unrecognizedLines_block indent options hitem.1 body)

theorem attributeListLines_blocks {pool : Pool} (h : pool.OneLine) (options : Options)
    (indent : Nat) : (list : List Attribute) → Everywhere Attribute.OneLine list →
      Yields (Blocks indent list) (attributeListLines pool options indent list)
  | [], _ => .ok ⟨[], rfl, .nil⟩
  | item :: rest, hlist => by
      obtain ⟨hitem, hrest⟩ := everywhere_cons_iff.mp hlist
      have hfirst := attributeLines_block h options indent item hitem
      have hmore := attributeListLines_blocks h options indent rest hrest
      refine hfirst.bind fun first hblock => hmore.map fun more hblocks => ?_
      obtain ⟨blocks, rfl, hblocks⟩ := hblocks
      exact ⟨first :: blocks, rfl, .cons hblock hblocks⟩

theorem componentListLines_within {pool : Pool} (h : pool.OneLine) (options : Options)
    (indent : Nat) : (components : List RecordComponent) →
      (∀ component ∈ components,
        Text.OneLine component.name ∧ Text.OneLine component.descriptor) →
      (∀ component ∈ components, Everywhere Attribute.OneLine component.attributes) →
      Yields (Within indent) (componentListLines pool options indent components)
  | [], _, _ => .ok .nil
  | ⟨name, descriptor, attributes⟩ :: rest, htexts, hnested => by
      obtain ⟨⟨hname, hdescriptor⟩, hrest⟩ := List.forall_mem_cons.mp htexts
      obtain ⟨hattributes, hmore⟩ := List.forall_mem_cons.mp hnested
      have hown := componentLines_within indent hname hdescriptor
      have hinner := attributeListLines_blocks h options (indent + step) attributes hattributes
      have hothers := componentListLines_within h options indent rest hrest hmore
      refine hown.bind fun own hlines => hinner.bind fun inner hblocks =>
        hothers.map fun more hwithin => ?_
      exact (hlines.append (hblocks.within.mono (Nat.le_add_right _ _))).append hwithin

end

end ClassListing.Listing
