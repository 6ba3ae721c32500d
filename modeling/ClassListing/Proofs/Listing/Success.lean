import ClassListing.Listing.ClassFile
import ClassListing.Proofs.Attribute.Operands
import ClassListing.Proofs.ClassFile.Contents
import ClassListing.Proofs.Constant.Resolution
import ClassListing.Proofs.Verdict

/-!
# When a class has a listing

A listing needs the text of every constant that it shows and the types that its descriptors spell.
If all of these are there it succeeds, and otherwise it fails with the error of one of them. That an
operand has the kind which its instruction asks for was settled when the class was decoded.
-/

namespace ClassListing

open Decoder Attribute

def Error.OfListing : Error → Prop
  | .reference .. | .tooDeep _ | .format (.descriptor ..) => True
  | _ => False

namespace Pool

def Resolves (pool : Pool) (index : UInt16) : Prop := ∃ text, pool.resolve index = .ok text

theorem resolve_hinges (pool : Pool) (index : UInt16) :
    Hinges Error.OfListing (pool.resolve index) (pool.Resolves index) := by
  refine .of_blames fun error h => ?_
  rcases resolveWithin_error h with ⟨hlookup, -⟩ | ⟨rfl, -⟩ | ⟨other, rfl, -⟩
  · cases error <;> trivial
  · trivial
  · trivial

end Pool

theorem ofDescriptor_hinges (descriptor : String)
    (parse : List Char → Except DescriptorFault α) :
    Hinges Error.OfListing (ofDescriptor descriptor parse)
      (∃ type, ofDescriptor descriptor parse = .ok type) := by
  refine .of_blames fun error h => ?_
  unfold ofDescriptor at h
  split at h <;> cases h
  trivial

namespace Attribute

/-- What an attribute itself needs of the constants, those inside it apart. -/
def Resolves (pool : Pool) : Attribute → Prop
  | .constantValue index => pool.Resolves index
  | .code body => ∀ instruction ∈ body.instructions, ∀ index,
      .constant index ∈ instruction.operands → pool.Resolves index
  | .bootstrapMethods rows => ∀ row ∈ rows, pool.Resolves row.handle ∧
      ∀ argument ∈ row.arguments, pool.Resolves argument
  | .record components => ∀ component ∈ components,
      ∃ type, FieldType.parse component.descriptor = .ok type
  | _ => True

end Attribute

namespace Listing

/-! ## One attribute without those inside it -/

theorem instructionLines_hinges {pool : Pool} (indent : Nat) {instruction : Instruction}
    (hfit : ∀ index, .constant index ∈ instruction.operands → ∃ role constant,
      Opcode.role? instruction.opcode = some role ∧ pool.operand index role = .ok constant) :
    Hinges Error.OfListing (instructionLines pool indent instruction)
      (∀ index, .constant index ∈ instruction.operands → pool.Resolves index) := by
  have hoperand (operand : Operand) (hmem : operand ∈ instruction.operands) :
      Hinges Error.OfListing (operandText? pool instruction.opcode operand)
        (∀ index, operand = .constant index → pool.Resolves index) := by
    cases operand with
    | constant index =>
        obtain ⟨role, constant, hrole, hconstant⟩ := hfit index hmem
        have htext : operandText? pool instruction.opcode (.constant index) =
            (do return some (← pool.resolve index)) := by
          simp only [operandText?, hrole, hconstant]
          rfl
        rw [htext]
        exact ((pool.resolve_hinges index).map some).congr (by simp)
    | _ => exact .ok _ nofun
  refine ((Hinges.mapM hoperand).map _).congr ?_
  constructor
  · intro h index hmem
    exact h _ hmem index rfl
  · intro h operand hmem index hsame
    exact h index (hsame ▸ hmem)

theorem codeLines_hinges {pool : Pool} (options : Options) (indent : Nat) (body : Code)
    (hfit : (Attribute.code body).OperandsFit pool) :
    Hinges Error.OfListing (codeLines pool options indent body)
      ((Attribute.code body).Resolves pool) :=
  .map (.mapM fun instruction hmem => instructionLines_hinges _ (hfit instruction hmem)) _

theorem bootstrapTableLines_hinges (pool : Pool) (indent : Nat) (rows : List BootstrapMethod) :
    Hinges Error.OfListing (bootstrapTableLines pool indent rows)
      ((Attribute.bootstrapMethods rows).Resolves pool) := by
  have hrow (row : BootstrapMethod) (number : Nat) :
      Hinges Error.OfListing (bootstrapLines pool (indent + step) row number)
        (pool.Resolves row.handle ∧ ∀ argument ∈ row.arguments, pool.Resolves argument) :=
    (pool.resolve_hinges row.handle).bind fun _ _ =>
      .map (.mapM fun argument _ => pool.resolve_hinges argument) _
  have hrows := List.forall_mem_map (l := rows.zipIdx) (f := Prod.fst) (P := fun row =>
    pool.Resolves row.handle ∧ ∀ argument ∈ row.arguments, pool.Resolves argument)
  rw [List.zipIdx_map_fst] at hrows
  exact .congr (.map (.mapM fun item _ => hrow item.1 item.2) _) hrows.symm

theorem componentLines_hinges (indent : Nat) (name descriptor : String) :
    Hinges Error.OfListing (componentLines indent name descriptor)
      (∃ type, FieldType.parse descriptor = .ok type) :=
  .map (ofDescriptor_hinges descriptor _) _

/-! ## Attributes with those inside them -/

mutual

theorem attributeLines_hinges (pool : Pool) (options : Options) (indent : Nat) :
    (item : Attribute) → Throughout (OperandsFit pool) item →
      Hinges Error.OfListing (attributeLines pool options indent item)
        (Throughout (Resolves pool) item)
  | .constantValue index, _ => by
      have hleaf : Throughout (Resolves pool) (.constantValue index) ↔ pool.Resolves index :=
        throughout_iff_of_nil rfl
      exact ((pool.resolve_hinges index).map _).congr hleaf.symm
  | .code ⟨maxStack, maxLocals, length, instructions, handlers, attributes⟩, h => by
      obtain ⟨hfit, hnested⟩ := throughout_code_iff.mp h
      have hown := codeLines_hinges options indent
        ⟨maxStack, maxLocals, length, instructions, handlers, []⟩ hfit
      have hinner := attributeListLines_hinges pool options (indent + step) attributes hnested
      rw [throughout_code_iff]
      exact hown.bind fun _ _ => hinner.map _
  | .record components, h => by
      have hinner := componentListLines_hinges pool options (indent + step) components
        (throughout_record_iff.mp h).2
      rw [throughout_record_iff]
      exact (hinner.map _).congr forall₂_and
  | .bootstrapMethods rows, _ =>
      (bootstrapTableLines_hinges pool indent rows).congr (throughout_iff_of_nil rfl).symm
  | .stackMapTable _, _ | .exceptions _, _ | .innerClasses _, _ | .enclosingMethod .., _
  | .synthetic, _ | .signature _, _ | .sourceFile _, _ | .sourceDebugExtension _, _
  | .lineNumberTable _, _ | .localVariableTable _, _ | .localVariableTypeTable _, _
  | .deprecated, _ | .annotations .., _ | .parameterAnnotations .., _ | .typeAnnotations .., _
  | .annotationDefault _, _ | .methodParameters _, _ | .moduleInfo _, _ | .modulePackages _, _
  | .moduleMainClass _, _ | .nestHost _, _ | .nestMembers _, _ | .permittedSubclasses _, _
  | .unrecognized .., _ => .ok _ ((throughout_iff_of_nil rfl).mpr trivial)

theorem attributeListLines_hinges (pool : Pool) (options : Options) (indent : Nat) :
    (list : List Attribute) → Everywhere (OperandsFit pool) list →
      Hinges Error.OfListing (attributeListLines pool options indent list)
        (Everywhere (Resolves pool) list)
  | [], _ => .ok [] everywhere_nil
  | item :: rest, h => by
      obtain ⟨hitem, hrest⟩ := everywhere_cons_iff.mp h
      have hfirst := attributeLines_hinges pool options indent item hitem
      have hmore := attributeListLines_hinges pool options indent rest hrest
      exact (hfirst.bind fun _ _ => hmore.map _).congr everywhere_cons_iff.symm

theorem componentListLines_hinges (pool : Pool) (options : Options) (indent : Nat) :
    (components : List RecordComponent) →
      (∀ component ∈ components, Everywhere (OperandsFit pool) component.attributes) →
      Hinges Error.OfListing (componentListLines pool options indent components)
        (∀ component ∈ components, (∃ type, FieldType.parse component.descriptor = .ok type) ∧
          Everywhere (Resolves pool) component.attributes)
  | [], _ => .ok [] nofun
  | ⟨name, descriptor, attributes⟩ :: rest, h => by
      obtain ⟨hfirst, hrest⟩ := List.forall_mem_cons.mp h
      have hown := componentLines_hinges indent name descriptor
      have hnested := attributeListLines_hinges pool options (indent + step) attributes hfirst
      have hmore := componentListLines_hinges pool options indent rest hrest
      refine (hown.bind fun _ _ => hnested.bind fun _ _ => hmore.map _).congr ?_
      rw [List.forall_mem_cons, and_assoc]

end

/-! ## Members and the pool table -/

section Classes

variable {pool : Pool} (options : Options)

theorem memberLines_hinges {context : FlagContext} {title : String} {member : Member}
    (hfit : Everywhere (OperandsFit pool) member.attributes) :
    Hinges Error.OfListing (memberLines pool options context title member)
      (Everywhere (Resolves pool) member.attributes) :=
  .map (attributeListLines_hinges pool options (2 * step) member.attributes hfit) _

theorem fieldLines_hinges {field : Member}
    (hfit : Everywhere (OperandsFit pool) field.attributes) :
    Hinges Error.OfListing (fieldLines pool options field)
      ((∃ type, FieldType.parse field.descriptor = .ok type) ∧
        Everywhere (Resolves pool) field.attributes) :=
  (ofDescriptor_hinges field.descriptor _).bind fun _ _ => memberLines_hinges options hfit

theorem methodLines_hinges (className : String) {method : Member}
    (hfit : Everywhere (OperandsFit pool) method.attributes) :
    Hinges Error.OfListing (methodLines pool options className method)
      ((∃ type, MethodType.parse method.descriptor = .ok type) ∧
        Everywhere (Resolves pool) method.attributes) :=
  (ofDescriptor_hinges method.descriptor _).bind fun _ _ => memberLines_hinges options hfit

theorem classAttributeLines_hinges {attributes : List Attribute}
    (hfit : Everywhere (OperandsFit pool) attributes) :
    Hinges Error.OfListing (classAttributeLines pool options attributes)
      (Everywhere (Resolves pool) attributes) := by
  cases attributes with
  | nil => exact .ok [] everywhere_nil
  | cons first rest =>
      exact .map (attributeListLines_hinges pool options step (first :: rest) hfit) _

omit options in
/-- A text in the table is quoted and not resolved, but it would resolve. -/
theorem entryText_hinges {index : UInt16} {constant : Constant}
    (hget : pool.get index = .ok constant) :
    Hinges Error.OfListing (entryText pool index constant) (pool.Resolves index) := by
  cases constant with
  | utf8 text =>
      have htext : pool.resolve index = .ok text := by
        show (do pool.resolveConstant _ index (← pool.get index)) = Except.ok text
        rw [hget]
        rfl
      exact .ok _ ⟨text, htext⟩
  | _ => exact pool.resolve_hinges index

theorem poolLines_hinges (hzero : pool.slots[0]? = some none) :
    Hinges Error.OfListing (poolLines pool) (∀ entry ∈ pool.entries, pool.Resolves entry.1) :=
  .map (.mapM fun _ hentry =>
    .map (entryText_hinges (Pool.get_of_mem_entries hzero hentry)) _) _

end Classes

def tableLines (pool : Pool) (options : Options) : Except Error (List Line) :=
  if options.constantPool then poolLines pool else .ok []

theorem tableLines_hinges {pool : Pool} (hzero : pool.slots[0]? = some none) (options : Options) :
    Hinges Error.OfListing (tableLines pool options)
      (options.constantPool = true → ∀ entry ∈ pool.entries, pool.Resolves entry.1) := by
  unfold tableLines
  by_cases hon : options.constantPool = true
  · rw [if_pos hon]
    exact (poolLines_hinges hzero).congr (by simp [hon])
  · rw [if_neg hon]
    exact .ok [] fun h => (hon h).elim

theorem lines_eq (file : ClassFile) (options : Options) (digest : Option String) :
    lines file options digest = do
      let table ← tableLines file.pool options
      let fields ← file.fields.mapM (fieldLines file.pool options)
      let methods ← file.methods.mapM (methodLines file.pool options file.name)
      let attributes ← classAttributeLines file.pool options file.attributes
      return header file digest ++ table ++ [⟨0, declaration file⟩] ++ fields.flatten ++
        methods.flatten ++ attributes ++ [⟨0, "\x7d"⟩] := by
  unfold lines tableLines
  by_cases hon : options.constantPool = true
  · simp only [hon, if_true]
  · simp only [hon]
    rfl

theorem print_hinges {file : ClassFile} (options : Options) (digest : Option String)
    (hzero : file.pool.slots[0]? = some none)
    (hfit : ∀ item, file.Holds item → item.OperandsFit file.pool) :
    Hinges Error.OfListing (print file options digest)
      ((options.constantPool = true → ∀ entry ∈ file.pool.entries, file.pool.Resolves entry.1) ∧
        (∀ field ∈ file.fields, (∃ type, FieldType.parse field.descriptor = .ok type) ∧
          Everywhere (Resolves file.pool) field.attributes) ∧
        (∀ method ∈ file.methods, (∃ type, MethodType.parse method.descriptor = .ok type) ∧
          Everywhere (Resolves file.pool) method.attributes) ∧
        Everywhere (Resolves file.pool) file.attributes) := by
  obtain ⟨hfields, hmethods, hattributes⟩ := ClassFile.forall_holds_iff.mp hfit
  have hfieldLines := Hinges.mapM fun field hmem =>
    fieldLines_hinges options (hfields field hmem)
  have hmethodLines := Hinges.mapM fun method hmem =>
    methodLines_hinges options file.name (hmethods method hmem)
  refine Hinges.map ?_ Line.renderAll
  rw [lines_eq]
  exact (tableLines_hinges hzero options).bind fun _ _ => hfieldLines.bind fun _ _ =>
    hmethodLines.bind fun _ _ => .map (classAttributeLines_hinges options hattributes) _

/-! ## Decoded classes -/

/-- Slot zero holds nothing, and every operand has the kind that its instruction asks for. The
bootstrap table, which is only known at the end, plays no part in either. -/
theorem fit_of_parse {bytes : Bytes} {file : ClassFile} (h : ClassFile.parse bytes = .ok file) :
    file.pool.slots[0]? = some none ∧
      ∀ item, file.Holds item → item.OperandsFit file.pool := by
  obtain ⟨raw, -, hraw⟩ := ClassFile.parse_eq_ok_iff.mp h
  have hoperand : file.pool.operand = raw.pool.operand := by
    funext index role
    simp only [Pool.operand, hraw.get_eq]
  constructor
  · rw [hraw.constants]
    rfl
  · refine hraw.forall_holds (fun nested kind => ?_) fun _ _ _ _ => trivial
    intro cursor stopped value hvalue
    have hfit := decodeBody_gives_fit raw.pool nested kind cursor stopped value hvalue
    cases value with
    | code body =>
        intro instruction hmem index hindex
        rw [hoperand]
        exact hfit instruction hmem index hindex
    | _ => trivial

/--
A decoded class has a listing exactly if its descriptors spell types and every constant that the
listing shows has a text. The kinds of operands never stand in the way: each belongs to an opcode
that asks for a constant and is of the kind asked for. Whatever fails is a reference, a chain of
references that is too long, or a descriptor.
-/
theorem print_succeeds_iff {bytes : Bytes} {file : ClassFile}
    (h : ClassFile.parse bytes = .ok file) (options : Options) (digest : Option String) :
    ((∃ text, print file options digest = .ok text) ↔
      (∀ field ∈ file.fields, ∃ type, FieldType.parse field.descriptor = .ok type) ∧
      (∀ method ∈ file.methods, ∃ type, MethodType.parse method.descriptor = .ok type) ∧
      (∀ item, file.Holds item → item.Resolves file.pool) ∧
      (options.constantPool = true →
        ∀ entry ∈ file.pool.entries, file.pool.Resolves entry.1)) ∧
    (∀ item, file.Holds item → item.OperandsFit file.pool) ∧
    (∀ error, print file options digest = .error error → error.OfListing) := by
  obtain ⟨hzero, hfit⟩ := fit_of_parse h
  have hprint := print_hinges options digest hzero hfit
  refine ⟨?_, hfit, hprint.blames⟩
  rw [hprint.succeeds_iff, ClassFile.forall_holds_iff]
  simp only [forall₂_and]
  tauto

def loadingPool : Pool :=
  ⟨#[none, some (.utf8 "A"), some (.classInfo 1), some (.utf8 "I"), some (.utf8 "ConstantValue"),
    some (.integer 7), some (.utf8 "()V"), some (.utf8 "Code")], []⟩

def loadingCode : Code :=
  ⟨1, 0, 3, [⟨0, 0x12, false, 2, [.constant 5]⟩, ⟨2, 0xB1, false, 1, []⟩], [], []⟩

/-- A class with a constant field, a method that loads the constant, and an attribute of no known
kind. -/
def loadingFile (descriptor : String) : ClassFile :=
  ⟨0, 65, loadingPool, 0x21, "A", none, [], [⟨0x0018, "A", descriptor, [.constantValue 5]⟩],
    [⟨0x0008, "A", "()V", [.code loadingCode]⟩], [.unrecognized "A" [7]]⟩

/-- The descriptor of the field is the constant at `type`. -/
def loadingBytes (type : UInt16) : Bytes :=
  [0xCA, 0xFE, 0xBA, 0xBE, 0, 0, 0, 65] ++
  -- The constants.
  [0, 8, 1, 0, 1, 65, 7, 0, 1, 1, 0, 1, 73] ++
  [1, 0, 13, 67, 111, 110, 115, 116, 97, 110, 116, 86, 97, 108, 117, 101] ++
  [3, 0, 0, 0, 7, 1, 0, 3, 40, 41, 86, 1, 0, 4, 67, 111, 100, 101] ++
  -- The declaration, the field, the method and the attribute.
  [0, 0x21, 0, 2, 0, 0, 0, 0] ++
  [0, 1, 0, 0x18, 0, 1] ++ Bytes.ofNat 2 type.toNat ++ [0, 1, 0, 4, 0, 0, 0, 2, 0, 5] ++
  [0, 1, 0, 8, 0, 1, 0, 6, 0, 1, 0, 7, 0, 0, 0, 15] ++
  [0, 1, 0, 0, 0, 0, 0, 3, 0x12, 5, 0xB1, 0, 0, 0, 0] ++
  [0, 1, 0, 1, 0, 0, 0, 1, 7]

set_option maxRecDepth 8000 in
theorem parse_loading {type : UInt16} {descriptor : String}
    (h : loadingPool.utf8 type = .ok descriptor) :
    ClassFile.parse (loadingBytes type) = .ok (loadingFile descriptor) := by
  have hparts : ∃ raw : ClassFile.Raw, raw.encode = loadingBytes type ∧
      raw.Denotes (loadingFile descriptor) := by
    refine ⟨{
      minor := 0
      major := 65
      entries := [.utf8 [65] (by decide), .plain (.classInfo 1) (by decide), .utf8 [73] (by decide),
        .utf8 [67, 111, 110, 115, 116, 97, 110, 116, 86, 97, 108, 117, 101] (by decide),
        .plain (.integer 7) (by decide), .utf8 [40, 41, 86] (by decide),
        .utf8 [67, 111, 100, 101] (by decide)]
      flags := 0x21
      name := 2
      superName := 0
      interfaces := []
      fields := [⟨0x0018, 1, type, [⟨4, [0, 5], by decide⟩], by decide⟩]
      methods := [⟨0x0008, 1, 6, [⟨7, [0, 1, 0, 0, 0, 0, 0, 3, 0x12, 5, 0xB1, 0, 0, 0, 0],
        by decide⟩], by decide⟩]
      attributes := [⟨1, [7], by decide⟩]
      fewSlots := by decide
      fewInterfaces := by decide
      fewFields := by simp
      fewMethods := by decide
      fewAttributes := by decide }, ?_, rfl, rfl, rfl, .inr ⟨rfl, by simp [loadingFile]⟩, rfl, rfl,
      rfl, .nil, .cons ⟨rfl, rfl, h, .cons ?_ .nil⟩ .nil,
      .cons ⟨rfl, rfl, rfl, .cons ?_ .nil⟩ .nil, .cons ?_ .nil⟩
    · simp only [ClassFile.Raw.encode, ClassFile.Raw.encodeBody, Member.Raw.encode,
        Attribute.Raw.encode, Bytes.counted, loadingBytes, List.append_assoc, List.append_nil,
        List.cons_append, List.nil_append, List.flatMap_cons, List.flatMap_nil, List.length_cons,
        List.length_nil, UInt16.reduceToNat, Nat.reduceAdd]
      rfl
    all_goals rfl
  exact ClassFile.parse_eq_ok_iff.mpr hparts

/-- With the descriptor of a number the class has a listing; with its own name for it, none. -/
theorem print_succeeds_iff_loading :
    ClassFile.parse (loadingBytes 3) = .ok (loadingFile "I") ∧
      (∃ text, print (loadingFile "I") .full none = .ok text) ∧
      (Attribute.code loadingCode).OperandsFit (loadingFile "I").pool ∧
      (Attribute.code loadingCode).Resolves (loadingFile "I").pool ∧
      ClassFile.parse (loadingBytes 1) = .ok (loadingFile "A") ∧
      ¬∃ text, print (loadingFile "A") .minimal none = .ok text := by
  have hgood : ClassFile.parse (loadingBytes 3) = .ok (loadingFile "I") := parse_loading rfl
  have hbad : ClassFile.parse (loadingBytes 1) = .ok (loadingFile "A") := parse_loading rfl
  obtain ⟨hiff, hfit, -⟩ := print_succeeds_iff hgood .full none
  have htext : ∃ text, print (loadingFile "I") .full none = .ok text := ⟨_, rfl⟩
  have hholds : (loadingFile "I").Holds (.code loadingCode) :=
    .inr ⟨_, List.mem_append_right _ (List.mem_singleton.mpr rfl),
      .here (List.mem_singleton.mpr rfl)⟩
  refine ⟨hgood, htext, hfit _ hholds, (hiff.mp htext).2.2.1 _ hholds, hbad, ?_⟩
  intro hlisted
  have hfields := ((print_succeeds_iff hbad .minimal none).1.mp hlisted).1
  obtain ⟨type, htype⟩ := hfields _ (List.mem_singleton.mpr rfl)
  cases htype

end Listing

end ClassListing
