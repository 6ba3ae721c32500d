import ClassListing.Proofs.Annotations.Encoding

/-!
# Annotations up to the depth limit

What is written for an annotation is read back, with every index looked up and all elements in
order, as long as no level exceeds the limit. One level more, anywhere in the tree, and the only
error is the one for the limit. Nothing deeper than the limit is ever accepted.
-/

namespace ClassListing

open Decoder

/-! ## Lookups -/

namespace FieldType

theorem descriptor_ne_void (type : FieldType) : type.descriptor ≠ "V" := by
  intro h
  have hchars : type.encode = ['V'] := by
    rw [← toList_descriptor, h]
    rfl
  cases type with
  | primitive type => cases type <;> cases hchars
  | object name => cases hchars
  | array component => cases hchars

end FieldType

namespace Pool

variable {pool : Pool} {index : UInt16} {name : String}

theorem utf8_of_get {text : String} (h : pool.get index = .ok (.utf8 text)) :
    pool.utf8 index = .ok text := by
  rw [utf8, h]
  rfl

theorem HoldsFieldType.typeName (h : pool.HoldsFieldType index name) :
    pool.typeName index = .ok name := by
  obtain ⟨type, hvalid, hget, rfl⟩ := h
  rw [Pool.typeName, utf8_of_get hget]
  show (do return (← FieldType.parse type.descriptor).text) = Except.ok type.spelling
  rw [FieldType.parse_descriptor hvalid, ← type.text_eq]
  rfl

theorem HoldsLiteralType.literalType (h : pool.HoldsLiteralType index name) :
    pool.literalType index = .ok name := by
  rcases h with ⟨type, hvalid, hget, rfl⟩ | ⟨hget, rfl⟩
  · rw [Pool.literalType, utf8_of_get hget]
    show (if type.descriptor = "V" then pure "void"
      else do return (← FieldType.parse type.descriptor).text) = Except.ok type.spelling
    rw [if_neg type.descriptor_ne_void, FieldType.parse_descriptor hvalid, ← type.text_eq]
    rfl
  · rw [Pool.literalType, utf8_of_get hget]
    rfl

end Pool

/-! ## Values and annotations -/

namespace ElementValue

def tooDeep : Error := .tooDeep maxAnnotationDepth

theorem Scalar.decode_admits {pool : Pool} {tag : Scalar} {index : UInt16} {constant : Constant}
    {value : ElementValue} (hget : pool.get index = .ok constant)
    (hvalue : tag.value? constant = some value) :
    ∃ decoder, decodeScalar? pool tag.letter = some decoder ∧
      Admits tooDeep decoder (Bytes.ofNat 2 index.toNat) value True := by
  unfold value? at hvalue
  simp only [← charOfCode_eq] at hvalue
  split at hvalue <;> cases hvalue <;> refine ⟨_, rfl, .map (.reference ?_) _⟩
  all_goals
    simp only [Pool.integer, Pool.double, Pool.float, Pool.long, Pool.utf8, hget]
    rfl

end ElementValue

open ElementValue (tooDeep)

section Levels

variable {pool : Pool} {budget : Nat}
  (hvalue : ∀ {raw : ElementValue.Raw} {value : ElementValue}, raw.Denotes pool value →
    Admits tooDeep (ElementValue.decodeWithin pool budget) raw.encode value (value.depth < budget))
include hvalue

/-- Every element of an annotation is one level further down. -/
theorem AnnotationUse.decodeWithin_succ_admits {raw : Raw} {value : AnnotationUse}
    (h : raw.Denotes pool value) : Admits tooDeep (decodeWithin pool (budget + 1)) raw.encode value
      (value.depth < budget + 1) := by
  cases h with
  | @intro type typeName raws elements few htype hnames hvalues =>
      have helements : List.Forall₂ (fun raw element => Admits tooDeep (do
          let name ← reference pool.utf8
          return (name, ← ElementValue.decodeWithin pool budget))
          (Raw.encodeElement raw) element (element.2.depth < budget)) raws elements := by
        refine List.Forall₂.mp (fun raw element hname hdenotes => ?_) hnames hvalues
        exact .after (.reference (Pool.utf8_of_get hname)) (.map (hvalue hdenotes) _)
      rw [Raw.encode_eq, Nat.lt_succ_iff, depth_le_iff]
      unfold decodeWithin
      exact .after (.reference htype.typeName) (.map (.countedU2 helements few) _)

/-- An annotation and the values of an array are one level below the value that holds them. -/
theorem ElementValue.decodeWithin_succ_admits
    (huse : ∀ {raw : AnnotationUse.Raw} {value : AnnotationUse}, raw.Denotes pool value →
      Admits tooDeep (AnnotationUse.decodeWithin pool budget) raw.encode value
        (value.depth < budget))
    {raw : Raw} {value : ElementValue} (h : raw.Denotes pool value) :
    Admits tooDeep (decodeWithin pool (budget + 1)) raw.encode value
      (value.depth < budget + 1) := by
  unfold decodeWithin
  cases h with
  | @scalar tag index constant value hget hscalar =>
      obtain ⟨decoder, hdecoder, hadmits⟩ := Scalar.decode_admits hget hscalar
      have hdepth : True ↔ value.depth < budget + 1 := by
        simp [Scalar.depth_of_value? hscalar]
      have hrest : Admits tooDeep ((decodeScalar? pool tag.letter).getD
          (throw (.format (.elementTag (tagByte tag.letter)))))
          (Bytes.ofNat 2 index.toNat) value (value.depth < budget + 1) := by
        rw [hdecoder]
        exact hadmits.congr hdepth
      -- With the letter at hand the tag is neither that of an annotation nor that of an array.
      cases tag <;> exact .after (.u1 _) hrest
  | @enumConstant type index typeName constant htype hget =>
      have hdepth : True ↔ (enumConstant typeName constant).depth < budget + 1 := by simp [depth]
      exact .after (.u1 (tagByte 'e')) (.congr (.after (.reference htype.typeName)
        (.map (.reference (Pool.utf8_of_get hget)) _)) hdepth)
  | @classLiteral type name htype =>
      have hdepth : True ↔ (classLiteral name).depth < budget + 1 := by simp [depth]
      exact .after (.u1 (tagByte 'c')) (.congr (.map (.reference htype.literalType) _) hdepth)
  | @nested raw inner hinner =>
      have hdepth : inner.depth < budget ↔ (nested inner).depth < budget + 1 := by simp [depth]
      exact .after (.u1 (tagByte '@')) (.congr (.map (huse hinner) _) hdepth)
  | @array raws values few hvalues =>
      have hitems := hvalues.imp fun raw value h => hvalue h
      rw [Raw.encode_array, Nat.lt_succ_iff, depth_array_le_iff]
      exact .after (.u1 (tagByte '[')) (.map (.countedU2 hitems few) _)

end Levels

/-- By the levels that are still allowed: a level may be entered exactly if one is left. -/
theorem decodeWithin_admits (pool : Pool) (budget : Nat) :
    (∀ {raw : AnnotationUse.Raw} {value : AnnotationUse}, raw.Denotes pool value →
      Admits tooDeep (AnnotationUse.decodeWithin pool budget) raw.encode value
        (value.depth < budget)) ∧
    (∀ {raw : ElementValue.Raw} {value : ElementValue}, raw.Denotes pool value →
      Admits tooDeep (ElementValue.decodeWithin pool budget) raw.encode value
        (value.depth < budget)) := by
  induction budget with
  | zero =>
      unfold AnnotationUse.decodeWithin ElementValue.decodeWithin
      exact ⟨fun _ => .throw (Nat.not_lt_zero _), fun _ => .throw (Nat.not_lt_zero _)⟩
  | succ budget ih =>
      exact ⟨AnnotationUse.decodeWithin_succ_admits ih.2,
        ElementValue.decodeWithin_succ_admits ih.2 ih.1⟩

/-! ## Lists of annotations -/

namespace AnnotationUse

theorem decode_admits {pool : Pool} {raw : Raw} {value : AnnotationUse}
    (h : raw.Denotes pool value) :
    Admits tooDeep (decode pool) raw.encode value (value.depth ≤ maxAnnotationDepth) :=
  ((decodeWithin_admits pool _).1 h).congr Nat.lt_succ_iff

theorem decodeList_admits {pool : Pool} {raws : List Raw} {values : List AnnotationUse}
    (few : raws.length < 2 ^ 16) (h : List.Forall₂ (Raw.Denotes pool) raws values) :
    Admits tooDeep (decodeList pool) (Bytes.counted Raw.encode raws) values
      (∀ value ∈ values, value.depth ≤ maxAnnotationDepth) :=
  .countedU2 (h.imp fun _ _ hdenotes => decode_admits hdenotes) few

end AnnotationUse

/-! ## Type annotations -/

theorem VariableRange.decode_admits (range : VariableRange) :
    Admits tooDeep VariableRange.decode range.encode range True :=
  .after (.u2 range.start) (.after (.u2 range.length) (.map (.u2 range.slot) _))

theorem TypeTarget.decode_admits {type : UInt8} {target : TypeTarget} (h : type ∈ target.types)
    (few : target.ranges.length < 2 ^ 16) :
    Admits tooDeep (TypeTarget.decode type) target.encode target True := by
  cases target <;> simp only [types, List.mem_cons, List.not_mem_nil, or_false] at h
  case typeParameter index => rcases h with rfl | rfl <;> exact .map (.u1 index) _
  case supertype index => rcases h with rfl; exact .map (.u2 index) _
  case typeParameterBound index bound =>
    rcases h with rfl | rfl <;> exact .after (.u1 index) (.map (.u1 bound) _)
  case empty => rcases h with rfl | rfl | rfl <;> exact .pure _
  case formalParameter index => rcases h with rfl; exact .map (.u1 index) _
  case throws index => rcases h with rfl; exact .map (.u2 index) _
  case localVariable ranges =>
    have hranges : Admits tooDeep (countedU2 VariableRange.decode)
        (Bytes.counted VariableRange.encode ranges) ranges (∀ range ∈ ranges, True) :=
      .countedU2 (List.forall₂_same.mpr fun range _ => range.decode_admits) few
    have hall := hranges.congr (iff_true_intro fun _ _ => trivial)
    rcases h with rfl | rfl <;> exact .map hall _
  case handler index => rcases h with rfl; exact .map (.u2 index) _
  case instruction offset => rcases h with rfl | rfl | rfl | rfl <;> exact .map (.u2 offset) _
  case typeArgument offset index =>
    rcases h with rfl | rfl | rfl | rfl | rfl <;> exact .after (.u2 offset) (.map (.u1 index) _)

namespace TypeAnnotationUse

theorem decode_admits {pool : Pool} {raw : Raw} {item : TypeAnnotationUse}
    (h : raw.Denotes pool item) :
    Admits tooDeep (decode pool) raw.encode item (item.body.depth ≤ maxAnnotationDepth) := by
  obtain ⟨targetType, target, path, body⟩ := item
  obtain ⟨announced, fewRanges, fewSteps, rfl, rfl, rfl, hbody⟩ := h
  have hpath : Admits tooDeep (countedU1 (return ⟨← u1, ← u1⟩))
      (Bytes.shortCounted PathStep.encode raw.path) raw.path (∀ step ∈ raw.path, True) :=
    .countedU1 (List.forall₂_same.mpr fun step _ =>
      .after (.u1 step.kind) (.map (.u1 step.argument) _)) fewSteps
  exact .after (.u1 raw.targetType) (.after (TypeTarget.decode_admits announced fewRanges)
    (.after (hpath.congr (by simp)) (.map (AnnotationUse.decode_admits hbody) _)))

end TypeAnnotationUse

/-! ## What is accepted at all -/

theorem ElementValue.decodeScalar?_gives_depth {pool : Pool} {tag : Char}
    {decoder : Decoder ElementValue} (h : decodeScalar? pool tag = some decoder) :
    Gives (fun value => value.depth = 0) decoder := by
  unfold decodeScalar? at h
  split at h <;> cases h
  case h_10 => exact .bind fun _ => .bind fun _ => .pure rfl
  all_goals exact .bind fun _ => .pure rfl

/-- Whatever the bytes are, a level that is not allowed is not entered. -/
theorem decodeWithin_gives_depth (pool : Pool) (budget : Nat) :
    Gives (fun value => value.depth < budget) (AnnotationUse.decodeWithin pool budget) ∧
      Gives (fun value => value.depth < budget) (ElementValue.decodeWithin pool budget) := by
  induction budget with
  | zero =>
      unfold AnnotationUse.decodeWithin ElementValue.decodeWithin
      exact ⟨.throw _, .throw _⟩
  | succ budget ih =>
      simp only [Nat.lt_succ_iff]
      constructor
      · unfold AnnotationUse.decodeWithin
        have helement : Gives (fun element : String × ElementValue => element.2.depth < budget) (do
            let name ← reference pool.utf8
            return (name, ← ElementValue.decodeWithin pool budget)) :=
          .bind fun _ => ih.2.map fun _ hvalue => hvalue
        exact .bind fun _ => helement.countedU2.map fun _ helements =>
          AnnotationUse.depth_le_iff.mpr helements
      · unfold ElementValue.decodeWithin
        refine .bind fun tag => ?_
        split
        · exact ih.1.map fun _ hinner => Nat.succ_le_of_lt hinner
        · exact ih.2.countedU2.map fun _ hvalues => ElementValue.depth_array_le_iff.mpr hvalues
        · split
          · rename_i hscalar
            intro cursor stopped value hvalue
            rw [ElementValue.decodeScalar?_gives_depth hscalar cursor stopped value hvalue]
            exact Nat.zero_le budget
          · exact .throw _

theorem AnnotationUse.decode_gives_depth (pool : Pool) :
    Gives (fun value => value.depth ≤ maxAnnotationDepth) (AnnotationUse.decode pool) := by
  intro cursor stopped value h
  exact Nat.le_of_lt_succ ((decodeWithin_gives_depth pool _).1 cursor stopped value h)

theorem ElementValue.decode_gives_depth (pool : Pool) :
    Gives (fun value => value.depth ≤ maxAnnotationDepth) (ElementValue.decode pool) := by
  intro cursor stopped value h
  exact Nat.le_of_lt_succ ((decodeWithin_gives_depth pool _).2 cursor stopped value h)

theorem TypeAnnotationUse.decode_gives_depth (pool : Pool) :
    Gives (fun item => item.body.depth ≤ maxAnnotationDepth) (TypeAnnotationUse.decode pool) :=
  .bind fun _ => .bind fun _ => .bind fun _ =>
    (AnnotationUse.decode_gives_depth pool).map fun _ hbody => hbody

/--
Decoding undoes writing up to a depth of 64, for a value, a list of annotations, the lists of a
method's parameters and a list of type annotations, whatever bytes follow. Beyond that depth the
only error is the one for the limit, and no bytes at all are decoded to anything deeper.
-/
theorem decode_undoes_writing_within_depth (pool : Pool) :
    (∀ (raw : ElementValue.Raw) (value : ElementValue), raw.Denotes pool value →
      Admits (.tooDeep 64) (ElementValue.decode pool) raw.encode value (value.depth ≤ 64)) ∧
    (∀ (raws : List AnnotationUse.Raw) (values : List AnnotationUse), raws.length < 2 ^ 16 →
      List.Forall₂ (AnnotationUse.Raw.Denotes pool) raws values →
      Admits (.tooDeep 64) (AnnotationUse.decodeList pool)
        (Bytes.counted AnnotationUse.Raw.encode raws) values
        (∀ value ∈ values, value.depth ≤ 64)) ∧
    (∀ (raws : List (List AnnotationUse.Raw)) (values : List (List AnnotationUse)),
      raws.length < 256 → (∀ raw ∈ raws, raw.length < 2 ^ 16) →
      List.Forall₂ (List.Forall₂ (AnnotationUse.Raw.Denotes pool)) raws values →
      Admits (.tooDeep 64) (AnnotationUse.decodeParameters pool)
        (Bytes.shortCounted (Bytes.counted AnnotationUse.Raw.encode) raws) values
        (∀ list ∈ values, ∀ value ∈ list, value.depth ≤ 64)) ∧
    (∀ (raws : List TypeAnnotationUse.Raw) (values : List TypeAnnotationUse),
      raws.length < 2 ^ 16 → List.Forall₂ (TypeAnnotationUse.Raw.Denotes pool) raws values →
      Admits (.tooDeep 64) (TypeAnnotationUse.decodeList pool)
        (Bytes.counted TypeAnnotationUse.Raw.encode raws) values
        (∀ value ∈ values, value.body.depth ≤ 64)) ∧
    Gives (fun value => value.depth ≤ 64) (ElementValue.decode pool) ∧
    Gives (fun values => ∀ value ∈ values, value.depth ≤ 64) (AnnotationUse.decodeList pool) ∧
    Gives (fun values => ∀ list ∈ values, ∀ value ∈ list, value.depth ≤ 64)
      (AnnotationUse.decodeParameters pool) ∧
    Gives (fun values => ∀ value ∈ values, value.body.depth ≤ 64)
      (TypeAnnotationUse.decodeList pool) := by
  have huses := (AnnotationUse.decode_gives_depth pool).countedU2
  refine ⟨?_, ?_, ?_, ?_, ElementValue.decode_gives_depth pool, huses,
    huses.countedU1, (TypeAnnotationUse.decode_gives_depth pool).countedU2⟩
  · intro raw value h
    exact ((decodeWithin_admits pool _).2 h).congr Nat.lt_succ_iff
  · intro raws values few h
    exact AnnotationUse.decodeList_admits few h
  · intro raws values few fewEach h
    have hlists := (List.forall₂_and_left raws values).mpr ⟨fewEach, h⟩
    exact .countedU1 (hlists.imp fun _ _ hlist =>
      AnnotationUse.decodeList_admits hlist.1 hlist.2) few
  · intro raws values few h
    exact .countedU2 (h.imp fun _ _ hdenotes => TypeAnnotationUse.decode_admits hdenotes) few

/-- A type, an element name, a number, the codes of a letter and of a surrogate, and two types. -/
def annotationPool : Pool :=
  ⟨#[none, some (.utf8 "LA;"), some (.utf8 "x"), some (.integer 5), some (.integer 0xE9),
    some (.integer 0xD800), some (.utf8 "[I"), some (.utf8 "Lp/E;")], []⟩

def rawMixture : ElementValue.Raw :=
  .array [.scalar .char 4, .scalar .char 5, .classLiteral 6, .enumConstant 7 2]

def mixture : ElementValue :=
  .array [.char 'é', .char '\ufffd', .classLiteral "int[]", .enumConstant "p.E" "x"]

theorem rawMixture_denotes : rawMixture.Denotes annotationPool mixture := by
  have hints : annotationPool.HoldsFieldType 6 "int[]" :=
    ⟨.array (.primitive .int), by decide +kernel, rfl, by decide +kernel⟩
  have henum : annotationPool.HoldsFieldType 7 "p.E" :=
    ⟨.object "p/E", by decide +kernel, rfl, by decide +kernel⟩
  exact .array (by decide) (.cons (.scalar rfl rfl) (.cons (.scalar rfl rfl)
    (.cons (.classLiteral (.inl hints)) (.cons (.enumConstant henum rfl) .nil))))

def rawArraysAroundNumber : (levels : Nat) → ElementValue.Raw
  | 0 => .scalar .int 3
  | levels + 1 => .array [rawArraysAroundNumber levels]

def arraysAroundNumber : (levels : Nat) → ElementValue
  | 0 => .int 5
  | levels + 1 => .array [arraysAroundNumber levels]

theorem rawArraysAroundNumber_denotes (levels : Nat) :
    (rawArraysAroundNumber levels).Denotes annotationPool (arraysAroundNumber levels) := by
  induction levels with
  | zero => exact .scalar rfl rfl
  | succ levels ih => exact .array (by simp) (.cons ih .nil)

theorem depth_arraysAroundNumber (levels : Nat) : (arraysAroundNumber levels).depth = levels := by
  induction levels with
  | zero => rfl
  | succ levels ih => simp [arraysAroundNumber, ElementValue.depth, ElementValue.valuesDepth, ih]

def rawAnnotationWithArrays (levels : Nat) : AnnotationUse.Raw :=
  ⟨1, [(2, rawArraysAroundNumber levels)]⟩

def annotationWithArrays (levels : Nat) : AnnotationUse := ⟨"A", [("x", arraysAroundNumber levels)]⟩

theorem rawAnnotationWithArrays_denotes (levels : Nat) :
    (rawAnnotationWithArrays levels).Denotes annotationPool (annotationWithArrays levels) :=
  .intro (by simp) ⟨.object "A", by decide +kernel, rfl, by decide +kernel⟩ (.cons rfl .nil)
    (.cons (rawArraysAroundNumber_denotes levels) .nil)

theorem depth_annotationWithArrays (levels : Nat) :
    (annotationWithArrays levels).depth = levels + 1 := by
  simp [annotationWithArrays, AnnotationUse.depth, AnnotationUse.elementsDepth,
    depth_arraysAroundNumber]

/-- A local variable that lives in two ranges. -/
def splitVariable : TypeTarget := .localVariable [⟨0, 4, 1⟩, ⟨9, 2, 1⟩]

/--
The values of `mixture` from the bytes that stand for them, a value as deep as can be and one that
is a level deeper, the parameters of a method of which one is too deep, and a type annotation.
-/
theorem decode_undoes_writing_within_depth_sample :
    ElementValue.decode annotationPool
        ⟨0, [0x5B, 0, 4, 0x43, 0, 4, 0x43, 0, 5, 0x63, 0, 6, 0x65, 0, 7, 0, 2, 0xFF]⟩ =
        .ok (.array [.char 'é', .char '\ufffd', .classLiteral "int[]", .enumConstant "p.E" "x"])
          ⟨17, [0xFF]⟩ ∧
      ElementValue.decode annotationPool ⟨0, (rawArraysAroundNumber 64).encode ++ [0xFF]⟩ =
        .ok (arraysAroundNumber 64) ⟨0 + (rawArraysAroundNumber 64).encode.length, [0xFF]⟩ ∧
      (∃ stopped, ElementValue.decode annotationPool
        ⟨0, (rawArraysAroundNumber 65).encode ++ [0xFF]⟩ = .error (.tooDeep 64) stopped) ∧
      (∃ stopped, AnnotationUse.decodeParameters annotationPool
        ⟨0, Bytes.shortCounted (Bytes.counted AnnotationUse.Raw.encode)
          [[], [rawAnnotationWithArrays 63, rawAnnotationWithArrays 64]] ++ [0xFF]⟩ =
            .error (.tooDeep 64) stopped) ∧
      TypeAnnotationUse.decodeList annotationPool
        ⟨0, Bytes.counted TypeAnnotationUse.Raw.encode
          [⟨0x40, splitVariable, [⟨3, 0⟩], rawAnnotationWithArrays 63⟩] ++ [0xFF]⟩ =
        .ok [⟨0x40, splitVariable, [⟨3, 0⟩], annotationWithArrays 63⟩]
          ⟨0 + (Bytes.counted TypeAnnotationUse.Raw.encode
            [⟨0x40, splitVariable, [⟨3, 0⟩], rawAnnotationWithArrays 63⟩]).length, [0xFF]⟩ := by
  obtain ⟨hvalue, -, hparameters, htypes, -⟩ := decode_undoes_writing_within_depth annotationPool
  have hmixture := (hvalue _ _ rawMixture_denotes).value (by decide) 0 [0xFF]
  have hparameters := hparameters [[], [rawAnnotationWithArrays 63, rawAnnotationWithArrays 64]]
    [[], [annotationWithArrays 63, annotationWithArrays 64]] (by decide) (by decide)
    (.cons .nil (.cons (.cons (rawAnnotationWithArrays_denotes 63)
      (.cons (rawAnnotationWithArrays_denotes 64) .nil)) .nil))
  have htypes := htypes [⟨0x40, splitVariable, [⟨3, 0⟩], rawAnnotationWithArrays 63⟩]
    [⟨0x40, splitVariable, [⟨3, 0⟩], annotationWithArrays 63⟩] (by decide)
    (.cons ⟨by decide, by decide, by decide, rfl, rfl, rfl,
      rawAnnotationWithArrays_denotes 63⟩ .nil)
  refine ⟨hmixture, (hvalue _ _ (rawArraysAroundNumber_denotes 64)).value ?_ 0 [0xFF],
    (hvalue _ _ (rawArraysAroundNumber_denotes 65)).fault ?_ 0 [0xFF],
    hparameters.fault ?_ 0 [0xFF], htypes.value ?_ 0 [0xFF]⟩
  · simp [depth_arraysAroundNumber]
  · simp [depth_arraysAroundNumber]
  · simp [depth_annotationWithArrays]
  · simp [depth_annotationWithArrays]

end ClassListing
