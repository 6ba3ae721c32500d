import ClassListing.Disassemble
import ClassListing.Proofs.Listing.Blocks
import ClassListing.Proofs.Listing.Success
import ClassListing.Proofs.Text.Sections
import Mathlib.Data.List.NodupEquivFin

/-!
# What options add to a listing

Two listings of the same class are made side by side, the second with every switch that the first
has and perhaps with more. They take the same steps, so they fail alike, but for the pool table that
only one of them may show. What the first shows stands in the second in the same order, and only
the sizes of a code attribute may go on there.
-/

namespace ClassListing

/-! ## Two computations side by side -/

inductive Alike (related : α → β → Prop) : Except ε α → Except ε β → Prop
  | ok {left : α} {right : β} (h : related left right) : Alike related (.ok left) (.ok right)
  | error (cause : ε) : Alike related (.error cause) (.error cause)

namespace Alike

variable {related : α → β → Prop} {first : Except ε α} {second : Except ε β}

theorem refl {related : α → α → Prop} (h : ∀ value, related value value) (found : Except ε α) :
    Alike related found found := by
  cases found with
  | ok value => exact .ok (h value)
  | error cause => exact .error cause

protected theorem bind {result : γ → δ → Prop} {next : α → Except ε γ} {other : β → Except ε δ}
    (h : Alike related first second)
    (hn : ∀ left right, related left right → Alike result (next left) (other right)) :
    Alike result (first >>= next) (second >>= other) := by
  cases h with
  | ok h => exact hn _ _ h
  | error cause => exact .error cause

/-- A step that both take gives both the same value. -/
theorem after {result : γ → δ → Prop} {next : α → Except ε γ} {other : α → Except ε δ}
    (found : Except ε α) (hn : ∀ value, Alike result (next value) (other value)) :
    Alike result (found >>= next) (found >>= other) := by
  cases found with
  | ok value => exact hn value
  | error cause => exact .error cause

/-- Values that are only put into others. -/
protected theorem map {result : γ → δ → Prop} {wrap : α → γ} {other : β → δ}
    (h : Alike related first second)
    (hw : ∀ left right, related left right → result (wrap left) (other right)) :
    Alike result (do return wrap (← first)) (do return other (← second)) :=
  h.bind fun left right hrelated => .ok (hw left right hrelated)

theorem mapM {step : γ → Except ε α} {other : γ → Except ε β} {items : List γ}
    (h : ∀ item ∈ items, Alike related (step item) (other item)) :
    Alike (List.Forall₂ related) (items.mapM step) (items.mapM other) := by
  induction items with
  | nil => exact .ok .nil
  | cons item items ih =>
      obtain ⟨hfirst, hrest⟩ := List.forall_mem_cons.mp h
      rw [List.mapM_cons, List.mapM_cons]
      exact hfirst.bind fun _ _ hvalue => (ih hrest).map fun _ _ hvalues => .cons hvalue hvalues

theorem eq_ok {right : β} (h : Alike related first second) (hsecond : second = .ok right) :
    ∃ left, first = .ok left ∧ related left right := by
  cases h with
  | ok h =>
      cases hsecond
      exact ⟨_, rfl, h⟩
  | error cause => cases hsecond

theorem verdict (h : Alike related first second) :
    (∃ left right, first = .ok left ∧ second = .ok right) ∨
      ∃ cause, first = .error cause ∧ second = .error cause := by
  cases h with
  | ok h => exact .inl ⟨_, _, rfl, rfl⟩
  | error cause => exact .inr ⟨cause, rfl, rfl⟩

end Alike

namespace Listing

open Attribute Text

/-! ## Lines that are added -/

/-- The line in the second listing for one in the first: the same line, or the sizes of a code
attribute with the length of the code behind them. -/
inductive Grown (shown : Code → Prop) : String → String → Prop
  | same (line : String) : Grown shown line line
  | sizes {body : Code} (h : shown body) (indent : Nat) :
      Grown shown (Line.content ⟨indent, s!"stack={body.maxStack}, locals={body.maxLocals}"⟩)
        (Line.content ⟨indent, s!"stack={body.maxStack}, locals={body.maxLocals}"⟩ ++
          s!", code_length={body.length}")

/-- The lines of the first text stand in the second in the same order. -/
def Adds (shown : Code → Prop) (first second : List Line) : Prop :=
  List.SublistForall₂ (Grown shown) (brokenLines (Line.renderAll first))
    (brokenLines (Line.renderAll second))

namespace Adds

variable {shown : Code → Prop} {first second : List Line}

theorem of_nil : Adds shown [] second := .nil

theorem refl (lines : List Line) : Adds shown lines lines :=
  List.sublistForall₂_iff.mpr ⟨_, List.forall₂_same.mpr fun line _ => .same line, .refl _⟩

theorem append {third fourth : List Line} (h : Adds shown first second)
    (hm : Adds shown third fourth) : Adds shown (first ++ third) (second ++ fourth) := by
  obtain ⟨middle, hgrown, hsublist⟩ := List.sublistForall₂_iff.mp h
  obtain ⟨more, hmoreGrown, hmoreSublist⟩ := List.sublistForall₂_iff.mp hm
  rw [Adds, Line.brokenLines_renderAll_append, Line.brokenLines_renderAll_append]
  exact List.sublistForall₂_iff.mpr
    ⟨middle ++ more, List.rel_append hgrown hmoreGrown, hsublist.append hmoreSublist⟩

theorem cons (line : Line) (h : Adds shown first second) :
    Adds shown (line :: first) (line :: second) :=
  (refl [line]).append h

theorem flatten {blocks others : List (List Line)} (h : List.Forall₂ (Adds shown) blocks others) :
    Adds shown blocks.flatten others.flatten := by
  induction h with
  | nil => exact .of_nil
  | cons hfirst _ ih => exact hfirst.append ih

/-- Lines that stand behind a switch. -/
theorem switched {less more : Bool} (h : less ≤ more) (lines : List Line) :
    Adds shown (if less then lines else []) (if more then lines else []) := by
  cases less with
  | false => exact .of_nil
  | true =>
      rw [h rfl]
      exact .refl lines

end Adds

end Listing

/-! ## Options -/

/-- Every switch that is set on the left is set on the right. -/
instance : LE Options where
  le less more := less.verbose ≤ more.verbose ∧ less.constantPool ≤ more.constantPool ∧
    less.hash ≤ more.hash ∧ less.frames ≤ more.frames

namespace Options

variable {less more : Options}

theorem verbose_le (h : less ≤ more) : less.verbose ≤ more.verbose := h.1

theorem constantPool_le (h : less ≤ more) : less.constantPool ≤ more.constantPool := h.2.1

theorem hash_le (h : less ≤ more) : less.hash ≤ more.hash := h.2.2.1

theorem showFrames_le (h : less ≤ more) : less.showFrames ≤ more.showFrames :=
  sup_le_sup h.1 h.2.2.2

end Options

namespace Listing

open Attribute Text

/-! ## Attributes -/

section Lines

variable {less more : Options} (hle : less ≤ more) {shown : Code → Prop}

theorem codeSizes_eq (options : Options) (body : Code) :
    codeSizes options body = s!"stack={body.maxStack}, locals={body.maxLocals}" ++
      if options.verbose then s!", code_length={body.length}" else "" := rfl

include hle

theorem codeSizes_adds {body : Code} (h : shown body) (indent : Nat) :
    Adds shown [⟨indent, codeSizes less body⟩] [⟨indent, codeSizes more body⟩] := by
  have hverbose := Options.verbose_le hle
  have hline (options : Options) :
      brokenLines (Line.renderAll [⟨indent, codeSizes options body⟩]) =
        [Line.content ⟨indent, codeSizes options body⟩] :=
    Line.brokenLines_renderAll (List.forall_mem_singleton.mpr (oneLine_codeSizes options body))
  have hgrown : Grown shown (Line.content ⟨indent, codeSizes less body⟩)
      (Line.content ⟨indent, codeSizes more body⟩) := by
    simp only [codeSizes_eq]
    cases hless : less.verbose with
    | true =>
        rw [hverbose hless]
        exact .same _
    | false =>
        cases more.verbose with
        | false => exact .same _
        | true =>
            have hsizes : Grown shown _ _ := .sizes h indent
            simpa [Line.content, String.append_assoc] using hsizes
  rw [Adds, hline, hline]
  exact .cons hgrown .nil

theorem frameLines_adds (indent : Nat) (frames : List Frame) :
    Adds shown (frameLines less indent frames) (frameLines more indent frames) :=
  .cons _ (.switched (Options.showFrames_le hle) _)

theorem unrecognizedLines_adds (indent : Nat) (name : String) (body : Bytes) :
    Adds shown (unrecognizedLines less indent name body)
      (unrecognizedLines more indent name body) :=
  .cons _ (.switched (Options.verbose_le hle) _)

/-- The attributes inside the code play no part in its own lines. -/
theorem codeLines_alike (pool : Pool) (indent : Nat) {body : Code} (h : shown body) :
    Alike (Adds shown) (codeLines pool less indent { body with attributes := [] })
      (codeLines pool more indent { body with attributes := [] }) :=
  .after _ fun _ => .ok (.cons _ ((codeSizes_adds hle h _).append (.refl _)))

end Lines

/-- The attribute is no code, or code that is `shown`. -/
def CodeIn (shown : Code → Prop) : Attribute → Prop
  | .code body => shown body
  | _ => True

mutual

theorem attributeLines_alike {less more : Options} (hle : less ≤ more) {shown : Code → Prop}
    (pool : Pool) (indent : Nat) : (item : Attribute) → Throughout (CodeIn shown) item →
      Alike (Adds shown) (attributeLines pool less indent item)
        (attributeLines pool more indent item)
  | .code ⟨maxStack, maxLocals, length, instructions, handlers, attributes⟩, h => by
      obtain ⟨hshown, hnested⟩ := throughout_code_iff.mp h
      have hown := codeLines_alike hle pool indent hshown
      have hinner := attributeListLines_alike hle pool (indent + step) attributes hnested
      exact hown.bind fun _ _ hlines => hinner.map fun _ _ hmore => hlines.append hmore
  | .record components, h =>
      (componentListLines_alike hle pool (indent + step) components
        (throughout_record_iff.mp h).2).map fun _ _ hrows => hrows.cons _
  | .stackMapTable frames, _ => .ok (frameLines_adds hle indent frames)
  | .unrecognized name body, _ => .ok (unrecognizedLines_adds hle indent name body)
  -- No other attribute looks at the options.
  | .constantValue _, _ | .exceptions _, _ | .innerClasses _, _ | .enclosingMethod .., _
  | .synthetic, _ | .signature _, _ | .sourceFile _, _ | .sourceDebugExtension _, _
  | .lineNumberTable _, _ | .localVariableTable _, _ | .localVariableTypeTable _, _
  | .deprecated, _ | .annotations .., _ | .parameterAnnotations .., _ | .typeAnnotations .., _
  | .annotationDefault _, _ | .bootstrapMethods _, _ | .methodParameters _, _ | .moduleInfo _, _
  | .modulePackages _, _ | .moduleMainClass _, _ | .nestHost _, _ | .nestMembers _, _
  | .permittedSubclasses _, _ => .refl .refl _

theorem attributeListLines_alike {less more : Options} (hle : less ≤ more) {shown : Code → Prop}
    (pool : Pool) (indent : Nat) : (list : List Attribute) → Everywhere (CodeIn shown) list →
      Alike (Adds shown) (attributeListLines pool less indent list)
        (attributeListLines pool more indent list)
  | [], _ => .ok .of_nil
  | item :: rest, h => by
      obtain ⟨hitem, hrest⟩ := everywhere_cons_iff.mp h
      have hfirst := attributeLines_alike hle pool indent item hitem
      have hmore := attributeListLines_alike hle pool indent rest hrest
      exact hfirst.bind fun _ _ hlines => hmore.map fun _ _ hothers => hlines.append hothers

theorem componentListLines_alike {less more : Options} (hle : less ≤ more) {shown : Code → Prop}
    (pool : Pool) (indent : Nat) : (components : List RecordComponent) →
      (∀ component ∈ components, Everywhere (CodeIn shown) component.attributes) →
      Alike (Adds shown) (componentListLines pool less indent components)
        (componentListLines pool more indent components)
  | [], _ => .ok .of_nil
  | ⟨name, descriptor, attributes⟩ :: rest, h => by
      obtain ⟨hfirst, hrest⟩ := List.forall_mem_cons.mp h
      have hnested := attributeListLines_alike hle pool (indent + step) attributes hfirst
      have hmore := componentListLines_alike hle pool indent rest hrest
      exact .after _ fun own => hnested.bind fun _ _ hinner =>
        hmore.map fun _ _ hothers => ((Adds.refl own).append hinner).append hothers

end

/-! ## Classes -/

section Classes

variable {less more : Options} (hle : less ≤ more) {shown : Code → Prop}

/-- The digest is a line in front of the others. -/
theorem header_adds {less more : Bool} (h : less ≤ more) (file : ClassFile) (digest : String) :
    Adds shown (header file (if less then some digest else none))
      (header file (if more then some digest else none)) := by
  have hheader (on : Bool) : header file (if on then some digest else none) =
      (if on then [⟨0, "md5: " ++ digest⟩] else []) ++ header file none := by
    cases on <;> rfl
  rw [hheader, hheader]
  exact (Adds.switched h _).append (.refl _)

include hle

theorem memberLines_alike (pool : Pool) (context : FlagContext) (title : String) {member : Member}
    (h : Everywhere (CodeIn shown) member.attributes) :
    Alike (Adds shown) (memberLines pool less context title member)
      (memberLines pool more context title member) := by
  refine (attributeListLines_alike hle pool (2 * step) member.attributes h).map
    fun _ _ hattributes => ?_
  exact .cons _ (.cons _ (.cons _ ((Adds.switched (Options.verbose_le hle) _).append hattributes)))

theorem fieldLines_alike (pool : Pool) {field : Member}
    (h : Everywhere (CodeIn shown) field.attributes) :
    Alike (Adds shown) (fieldLines pool less field) (fieldLines pool more field) :=
  .after _ fun _ => memberLines_alike hle pool _ _ h

theorem methodLines_alike (pool : Pool) (className : String) {method : Member}
    (h : Everywhere (CodeIn shown) method.attributes) :
    Alike (Adds shown) (methodLines pool less className method)
      (methodLines pool more className method) :=
  .after _ fun _ => memberLines_alike hle pool _ _ h

theorem classAttributeLines_alike (pool : Pool) {attributes : List Attribute}
    (h : Everywhere (CodeIn shown) attributes) :
    Alike (Adds shown) (classAttributeLines pool less attributes)
      (classAttributeLines pool more attributes) := by
  cases attributes with
  | nil => exact .ok .of_nil
  | cons first rest =>
      exact (attributeListLines_alike hle pool step (first :: rest) h).map
        fun _ _ hlines => hlines.cons _

def bodyLines (file : ClassFile) (options : Options) : Except Error (List Line) := do
  let fields ← file.fields.mapM (fieldLines file.pool options)
  let methods ← file.methods.mapM (methodLines file.pool options file.name)
  let attributes ← classAttributeLines file.pool options file.attributes
  return ⟨0, declaration file⟩ :: (fields.flatten ++ methods.flatten ++ attributes ++
    [⟨0, "\x7d"⟩])

omit hle in
theorem lines_eq_body (file : ClassFile) (options : Options) (digest : Option String) :
    lines file options digest = do
      let table ← tableLines file.pool options
      let body ← bodyLines file options
      return header file digest ++ table ++ body := by
  rw [lines_eq]
  simp [bodyLines]

theorem bodyLines_alike {file : ClassFile}
    (h : ∀ item, file.Holds item → CodeIn shown item) :
    Alike (Adds shown) (bodyLines file less) (bodyLines file more) := by
  obtain ⟨hfields, hmethods, hattributes⟩ := ClassFile.forall_holds_iff.mp h
  have hfieldLines := Alike.mapM fun field hmem =>
    fieldLines_alike hle file.pool (hfields field hmem)
  have hmethodLines := Alike.mapM fun method hmem =>
    methodLines_alike hle file.pool file.name (hmethods method hmem)
  refine hfieldLines.bind fun _ _ hfields => hmethodLines.bind fun _ _ hmethods =>
    (classAttributeLines_alike hle file.pool hattributes).map fun _ _ hattributes => ?_
  have hmembers := (Adds.flatten hfields).append (.flatten hmethods)
  exact .cons _ ((hmembers.append hattributes).append (.refl _))

/-- A table that is shown on the left is shown on the right. -/
theorem tableLines_adds {pool : Pool} {large : List Line} (h : tableLines pool more = .ok large) :
    ∃ small, tableLines pool less = .ok small ∧ Adds shown small large := by
  unfold tableLines at *
  cases hless : less.constantPool with
  | false => exact ⟨[], rfl, .of_nil⟩
  | true =>
      rw [Options.constantPool_le hle hless] at h
      exact ⟨large, h, .refl large⟩

section Comparison

variable {file : ClassFile} (h : ∀ item, file.Holds item → CodeIn shown item) (digest : String)
include h

theorem lines_adds {large : List Line}
    (hlarge : lines file more (if more.hash then some digest else none) = .ok large) :
    ∃ small, lines file less (if less.hash then some digest else none) = .ok small ∧
      Adds shown small large := by
  rw [lines_eq_body] at hlarge ⊢
  obtain ⟨table, htable, hrest⟩ := bind_eq_ok_iff.mp hlarge
  obtain ⟨body, hbody, hpure⟩ := bind_eq_ok_iff.mp hrest
  cases hpure
  obtain ⟨smallTable, hsmallTable, htables⟩ := tableLines_adds hle htable
  obtain ⟨smallBody, hsmallBody, hbodies⟩ := (bodyLines_alike hle h).eq_ok hbody
  rw [hsmallTable, hsmallBody]
  exact ⟨_, rfl, ((header_adds (Options.hash_le hle) file digest).append htables).append hbodies⟩

theorem lines_alike (hsame : less.constantPool = more.constantPool) :
    Alike (Adds shown) (lines file less (if less.hash then some digest else none))
      (lines file more (if more.hash then some digest else none)) := by
  have htable : tableLines file.pool less = tableLines file.pool more := by
    rw [tableLines, tableLines, hsame]
  rw [lines_eq_body, lines_eq_body, htable]
  refine .after _ fun table => (bodyLines_alike hle h).map fun _ _ hbody => ?_
  exact ((header_adds (Options.hash_le hle) file digest).append (.refl table)).append hbody

end Comparison

end Classes

end Listing

/-! ## Texts -/

open Listing Text

theorem exists_place {related : α → β → Prop} {first : List α} {second : List β}
    (h : List.SublistForall₂ related first second) :
    ∃ place : Fin first.length ↪o Fin second.length,
      ∀ number, related (first.get number) (second.get (place number)) := by
  obtain ⟨middle, hrelated, hsublist⟩ := List.sublistForall₂_iff.mp h
  obtain ⟨hlength, hget⟩ := List.forall₂_iff_get.mp hrelated
  obtain ⟨place, hplace⟩ := List.sublist_iff_exists_fin_orderEmbedding_get_eq.mp hsublist
  refine ⟨(Fin.castOrderIso hlength).toOrderEmbedding.trans place, fun number => ?_⟩
  have hnumber := hget number number.isLt (hlength ▸ number.isLt)
  rw [hplace] at hnumber
  exact hnumber

/--
More switches only add to a listing. If it can be made with them, it can be made without, and each
line of the shorter text has a line of its own in the longer one, the order kept: the same line,
except that the sizes of a code attribute may be followed by the length of its code there. If both
show the pool table or neither does, both can be made or both fail with the same error. All this
holds whatever text stands for the digest of the bytes; `disassemble` is the case of their MD5.
-/
theorem disassemble_adds_detail {less more : Options} (hle : less ≤ more)
    (digest : Bytes → String) (bytes : Bytes) :
    (∀ detailed, disassembleBy digest more bytes = .ok detailed →
      ∃ file plain, ClassFile.parse bytes = .ok file ∧
        disassembleBy digest less bytes = .ok plain ∧
        ∃ place : Fin (brokenLines plain).length ↪o Fin (brokenLines detailed).length,
          ∀ number, Grown (fun body => file.Holds (.code body))
            ((brokenLines plain).get number) ((brokenLines detailed).get (place number))) ∧
    (less.constantPool = more.constantPool →
      (∃ plain detailed, disassembleBy digest less bytes = .ok plain ∧
        disassembleBy digest more bytes = .ok detailed) ∨
      ∃ error, disassembleBy digest less bytes = .error error ∧
        disassembleBy digest more bytes = .error error) := by
  have hcode (file : ClassFile) :
      ∀ item, file.Holds item → CodeIn (fun body => file.Holds (.code body)) item := by
    intro item hitem
    cases item with
    | code body => exact hitem
    | _ => trivial
  constructor
  · intro detailed hdetailed
    obtain ⟨file, hfile, hprint⟩ := bind_eq_ok_iff.mp hdetailed
    obtain ⟨large, hlarge, hpure⟩ := bind_eq_ok_iff.mp hprint
    cases hpure
    obtain ⟨small, hsmall, hadds⟩ := lines_adds hle (hcode file) _ hlarge
    have hplain : disassembleBy digest less bytes = .ok (Line.renderAll small) :=
      bind_eq_ok_iff.mpr ⟨file, hfile, bind_eq_ok_iff.mpr ⟨small, hsmall, rfl⟩⟩
    exact ⟨file, _, hfile, hplain, exists_place hadds⟩
  · intro hsame
    have halike : Alike (fun _ _ => True) (disassembleBy digest less bytes)
        (disassembleBy digest more bytes) :=
      .after _ fun file => (lines_alike hle (hcode file) _ hsame).map fun _ _ _ => trivial
    exact halike.verdict

/-- All detail against none, for a class that has code. -/
theorem disassemble_adds_detail_loading :
    Options.minimal ≤ Options.full ∧
      ∃ plain detailed, disassemble .minimal (loadingBytes 3) = .ok plain ∧
        disassemble .full (loadingBytes 3) = .ok detailed ∧
        ∃ place : Fin (brokenLines plain).length ↪o Fin (brokenLines detailed).length,
          ∀ number, Grown (fun body => (loadingFile "I").Holds (.code body))
            ((brokenLines plain).get number) ((brokenLines detailed).get (place number)) := by
  have hle : Options.minimal ≤ Options.full := ⟨nofun, nofun, nofun, nofun⟩
  have hparse : ClassFile.parse (loadingBytes 3) = .ok (loadingFile "I") := parse_loading rfl
  obtain ⟨detailed, hprint⟩ : ∃ detailed, print (loadingFile "I") .full
      (some (Md5.hexDigest (loadingBytes 3))) = .ok detailed := ⟨_, rfl⟩
  have hdetailed : disassemble .full (loadingBytes 3) = .ok detailed :=
    bind_eq_ok_iff.mpr ⟨_, hparse, hprint⟩
  obtain ⟨file, plain, hfile, hplain, hplace⟩ :=
    (disassemble_adds_detail hle Md5.hexDigest (loadingBytes 3)).1 detailed hdetailed
  rw [hparse] at hfile
  cases hfile
  exact ⟨hle, plain, detailed, hplain, hdetailed, hplace⟩

end ClassListing
