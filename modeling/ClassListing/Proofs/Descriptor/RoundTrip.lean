import ClassListing.Proofs.Descriptor.Grammar

/-!
# Types and their descriptors

A field type is read back from its descriptor whatever characters the name of its class has: what is
lost behind a name is lost at the end of the text, where nothing stands. Brackets beyond the limit
are refused. A class constant names either a class or, by its descriptor, an array.
-/

namespace ClassListing

/-- The word for a primitive type in a program. -/
def Primitive.keyword : Primitive → String
  | .byte => "byte"
  | .char => "char"
  | .double => "double"
  | .float => "float"
  | .int => "int"
  | .long => "long"
  | .short => "short"
  | .boolean => "boolean"

theorem Primitive.name_eq (primitive : Primitive) : primitive.name = primitive.keyword := by
  cases primitive <;> rfl

namespace FieldType

/-! ## Reading a descriptor back -/

theorem toList_descriptor (type : FieldType) : type.descriptor.toList = type.encode := by
  rw [descriptor, String.toList_ofList]

theorem parse_descriptor {type : FieldType} (h : type.Valid) :
    FieldType.parse type.descriptor = .ok type := by
  rw [FieldType.parse, ofDescriptor_eq_ok_iff, toList_descriptor, parseChars_eq_ok_iff]
  exact ⟨h, [], (List.append_nil _).symm, Nat.zero_le _⟩

/-- The brackets are counted before anything behind them is looked at. -/
theorem read_encode_of_lt {type : FieldType} (h : 255 < type.dimensions) :
    read type.encode = .error .dimensions := by
  obtain ⟨component, hcomponent, htype⟩ := exists_arrayOf type
  obtain ⟨first, more, hencode, -, -, hfirst⟩ := head_encode component
  have hhead : component.encode.head? ≠ some '[' := by
    rw [hencode]
    simpa using hfirst hcomponent
  rw [htype, encode_arrayOf, read_replicate hhead, if_pos h]

theorem parse_descriptor_of_lt {type : FieldType} (h : 255 < type.dimensions) :
    FieldType.parse type.descriptor =
      .error (.format (.descriptor .dimensions type.descriptor)) := by
  have hchars : parseChars type.encode = .error .dimensions := by
    rw [parseChars, read_encode_of_lt h]
    rfl
  rw [FieldType.parse, ofDescriptor, toList_descriptor, hchars]

/-! ## The source spelling -/

/-- The name of the innermost type in a program, where dots divide the parts of a class name. -/
def innermostName : FieldType → String
  | .primitive type => type.keyword
  | .object name => .ofList (name.toList.map fun char => if char = '/' then '.' else char)
  | .array component => component.innermostName

/-- The type in a program: its innermost type, and a pair of brackets for each dimension. -/
def spelling (type : FieldType) : String :=
  type.innermostName ++ String.join (List.replicate type.dimensions "[]")

theorem text_eq (type : FieldType) : type.text = type.spelling := by
  unfold spelling
  induction type with
  | primitive type =>
      rw [text, type.name_eq]
      exact String.append_empty.symm
  | object name =>
      rw [text, sourceName, innermostName, ← String.toList_map, String.ofList_toList]
      exact String.append_empty.symm
  | array component ih =>
      rw [text, innermostName, dimensions, ih, List.replicate_succ', String.join_append,
        String.append_assoc]
      rfl

/-! ## Class constants -/

theorem ofClassName_of_head {name : String} (h : name.toList.head? ≠ some '[') :
    FieldType.ofClassName name = .ok (.object name) := by
  rw [FieldType.ofClassName, if_neg h]

theorem ofClassName_descriptor {type : FieldType} (h : type.Valid) (ha : 0 < type.dimensions) :
    FieldType.ofClassName type.descriptor = .ok type := by
  have hhead : type.descriptor.toList.head? = some '[' := by
    rw [toList_descriptor]
    cases type with
    | array component => rfl
    | primitive type => cases ha
    | object name => cases ha
  rw [FieldType.ofClassName, if_pos hhead, parse_descriptor h]

/--
Every type with at most 255 dimensions and a proper class name is read back from its descriptor, and
its text is the name of the innermost type with a pair of brackets for each dimension. With more
dimensions the descriptor is refused. A class constant that starts with a bracket is the descriptor
of an array, and any other is a class name.
-/
theorem parse_undoes_descriptor :
    (∀ type : FieldType, type.dimensions ≤ 255 →
      (∀ name ∈ type.className?, name ≠ "" ∧ ';' ∉ name.toList) →
      FieldType.parse type.descriptor = .ok type ∧
        type.text = type.innermostName ++ String.join (List.replicate type.dimensions "[]")) ∧
    (∀ type : FieldType, 256 ≤ type.dimensions → FieldType.parse type.descriptor =
      .error (.format (.descriptor .dimensions type.descriptor))) ∧
    (∀ name : String, name.toList.head? ≠ some '[' →
      FieldType.ofClassName name = .ok (.object name)) ∧
    (∀ type : FieldType, 0 < type.dimensions → type.dimensions ≤ 255 →
      (∀ name ∈ type.className?, name ≠ "" ∧ ';' ∉ name.toList) →
      FieldType.ofClassName type.descriptor = .ok type) := by
  refine ⟨fun type hfew hname => ?_, fun type hdeep => ?_, fun name hname => ?_,
    fun type harray hfew hname => ?_⟩
  · exact ⟨parse_descriptor ⟨hfew, hname⟩, text_eq type⟩
  · exact parse_descriptor_of_lt hdeep
  · exact ofClassName_of_head hname
  · exact ofClassName_descriptor ⟨hfew, hname⟩ harray

/--
The class name takes more bytes than characters, the primitive arrays show two of the eight words,
and the deep type is one dimension over the limit.
-/
theorem parse_undoes_descriptor_accented :
    FieldType.parse "[[Lé/ü;" = .ok (.array (.array (.object "é/ü"))) ∧
      FieldType.text (.array (.array (.object "é/ü"))) = "é.ü[][]" ∧
      FieldType.parse "[I" = .ok (.array (.primitive .int)) ∧
      FieldType.text (.array (.primitive .int)) = "int[]" ∧
      FieldType.parse "[[Z" = .ok (.array (.array (.primitive .boolean))) ∧
      FieldType.text (.array (.array (.primitive .boolean))) = "boolean[][]" ∧
      (∃ error, FieldType.parse (arrayOf 256 (.object "é/ü")).descriptor = .error error) ∧
      FieldType.ofClassName "é/ü" = .ok (.object "é/ü") ∧
      FieldType.ofClassName "[[Lé/ü;" = .ok (.array (.array (.object "é/ü"))) := by
  obtain ⟨hparse, hdeep, hclass, harray⟩ := parse_undoes_descriptor
  have hspelled : (FieldType.array (.array (.object "é/ü"))).descriptor = "[[Lé/ü;" := rfl
  obtain ⟨hread, htext⟩ := hparse (.array (.array (.object "é/ü"))) (by decide) (by decide)
  have hname := harray (.array (.array (.object "é/ü"))) (by decide) (by decide) (by decide)
  rw [hspelled] at hread hname
  obtain ⟨hint, hintText⟩ := hparse (.array (.primitive .int)) (by decide) (by decide)
  obtain ⟨hflags, hflagsText⟩ :=
    hparse (.array (.array (.primitive .boolean))) (by decide) (by decide)
  refine ⟨hread, htext, hint, hintText, hflags, hflagsText, ⟨_, hdeep _ ?_⟩,
    hclass "é/ü" (by decide), hname⟩
  rw [dimensions_arrayOf]
  decide

end FieldType

end ClassListing
