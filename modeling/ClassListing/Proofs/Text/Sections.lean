import ClassListing.Proofs.Text.OneLine
import Mathlib.Data.List.Forall2

/-!
# Lines and sections of a text

A text falls into lines at its line feeds, and into sections at its empty lines. Lines that were
rendered one after the other are found again, provided that none has a line feed inside, and so are
blocks of lines with an empty line between them.
-/

namespace ClassListing

namespace Text

/-- The lines of a text. What stands behind the last line feed is a line if it is not empty. -/
def brokenLines (text : String) : List String :=
  let pieces := (text.toList.splitOn '\n').map String.ofList
  if pieces.getLast? = some "" then pieces.dropLast else pieces

/-- The runs of lines between the empty lines of a text. -/
def sections (text : String) : List (List String) := (brokenLines text).splitOn ""

def indentation (line : String) : Nat := (line.toList.takeWhile (· == ' ')).length

theorem length_splitOn [BEq α] [LawfulBEq α] (mark : α) (items : List α) :
    (items.splitOn mark).length = items.count mark + 1 := by
  induction items with
  | nil => simp
  | cons item items ih =>
      rw [List.splitOn_cons_eq_if_modifyHead, List.count_cons]
      split <;> simp [ih]

/-- What stands before the first mark belongs to the first piece. -/
theorem splitOn_append_of_not_mem [BEq α] [LawfulBEq α] {mark : α} {front : List α}
    (h : mark ∉ front) (back : List α) :
    (front ++ back).splitOn mark = (back.splitOn mark).modifyHead (front ++ ·) := by
  induction front with
  | nil =>
      cases hback : back.splitOn mark with
      | nil => exact absurd hback (List.splitOn_ne_nil mark back)
      | cons first more => simp [hback]
  | cons item front ih =>
      rw [List.mem_cons, not_or] at h
      obtain ⟨hitem, hfront⟩ := h
      rw [List.cons_append, List.splitOn_cons_eq_if_modifyHead,
        if_neg (by simpa using Ne.symm hitem), ih hfront, List.modifyHead_modifyHead]
      rfl

theorem splitOn_ended (pieces : List (List Char)) :
    (pieces.flatMap (· ++ ['\n'])).splitOn '\n' = pieces.flatMap (·.splitOn '\n') ++ [[]] := by
  induction pieces with
  | nil => rfl
  | cons piece pieces ih =>
      rw [List.flatMap_cons, List.flatMap_cons, List.append_assoc, List.singleton_append,
        List.splitOn_append_cons_self, ih, List.append_assoc]

/-- Each text with a line feed behind it gives lines of its own. -/
theorem brokenLines_join_eq (texts : List String) :
    brokenLines (String.join (texts.map (· ++ "\n"))) =
      texts.flatMap fun text => (text.toList.splitOn '\n').map String.ofList := by
  have hchars : (String.join (texts.map (· ++ "\n"))).toList =
      (texts.map String.toList).flatMap (· ++ ['\n']) := by
    simp [String.toList_join, List.flatMap_map]
  unfold brokenLines
  rw [hchars, splitOn_ended]
  simp [List.flatMap_map, List.map_flatMap]

/-- Lines that are written with a line feed behind each are found again. -/
theorem brokenLines_join {lines : List String} (h : ∀ line ∈ lines, OneLine line) :
    brokenLines (String.join (lines.map (· ++ "\n"))) = lines := by
  have hline : ∀ line ∈ lines, (line.toList.splitOn '\n').map String.ofList = [line] := by
    intro line hmem
    rw [List.splitOn_eq_singleton (h line hmem), List.map_singleton, String.ofList_toList]
  rw [brokenLines_join_eq, List.flatMap_congr hline, List.flatMap_singleton']

/-! ## Sections -/

/-- The last of the blocks with `tail` behind it. -/
def appendLast (tail : List α) : List (List α) → List (List α)
  | [] => [tail]
  | [last] => [last ++ tail]
  | block :: next :: rest => block :: appendLast tail (next :: rest)

/-- Blocks with a mark before each but the first, and something behind the last. -/
theorem splitOn_blocks [BEq α] [LawfulBEq α] {mark : α} {first tail : List α}
    {rest : List (List α)} (hfirst : mark ∉ first) (hrest : ∀ block ∈ rest, mark ∉ block)
    (htail : mark ∉ tail) :
    (first ++ rest.flatMap (mark :: ·) ++ tail).splitOn mark = appendLast tail (first :: rest) := by
  induction rest generalizing first with
  | nil =>
      have hlast : mark ∉ first ++ tail := by simp [hfirst, htail]
      simpa [appendLast] using List.splitOn_eq_singleton hlast
  | cons block rest ih =>
      obtain ⟨hblock, hmore⟩ := List.forall_mem_cons.mp hrest
      have hsplit := ih hblock hmore
      rw [List.append_assoc] at hsplit
      rw [List.flatMap_cons, List.append_assoc, List.append_assoc, List.cons_append,
        List.splitOn_append_cons_self, List.splitOn_eq_singleton hfirst, hsplit]
      rfl

/-- What holds of each block, and survives `tail` behind it, still holds with `tail` at the end. -/
theorem forall₂_appendLast {means : ρ → List α → Prop} {items : List ρ} {blocks : List (List α)}
    {tail : List α} (hne : blocks ≠ []) (h : List.Forall₂ means items blocks)
    (htail : ∀ item block, means item block → means item (block ++ tail)) :
    List.Forall₂ means items (appendLast tail blocks) := by
  induction h with
  | nil => exact (hne rfl).elim
  | @cons item block items blocks hfirst hrest ih =>
      cases blocks with
      | nil =>
          cases hrest
          exact .cons (htail _ _ hfirst) .nil
      | cons next more => exact .cons hfirst (ih nofun)

end Text

/-! ## Rendered lines -/

namespace Line

open Text

def content (line : Line) : String := String.ofList (List.replicate line.indent ' ') ++ line.text

theorem renderAll_eq (lines : List Line) :
    renderAll lines = String.join ((lines.map content).map (· ++ "\n")) := by
  rw [renderAll, List.map_map]
  rfl

theorem brokenLines_renderAll_append (first second : List Line) :
    brokenLines (renderAll (first ++ second)) =
      brokenLines (renderAll first) ++ brokenLines (renderAll second) := by
  rw [renderAll_eq, renderAll_eq, renderAll_eq, brokenLines_join_eq, brokenLines_join_eq,
    brokenLines_join_eq, List.map_append, List.flatMap_append]

theorem brokenLines_renderAll_singleton (line : Line) :
    brokenLines (renderAll [line]) = (line.content.toList.splitOn '\n').map String.ofList := by
  rw [renderAll_eq, brokenLines_join_eq]
  simp

/-- Each line gives a block of lines, whether or not it has line feeds inside. -/
theorem brokenLines_renderAll_eq_flatten (lines : List Line) :
    brokenLines (renderAll lines) =
      (lines.map fun line => brokenLines (renderAll [line])).flatten := by
  simp only [brokenLines_renderAll_singleton]
  rw [renderAll_eq, brokenLines_join_eq, List.flatMap_map, List.flatMap_def]

theorem oneLine_content {line : Line} (h : OneLine line.text) : OneLine line.content := by
  rw [content, OneLine.append_iff, OneLine.ofList_iff]
  exact ⟨OneLine.not_mem_replicate (by decide) _, h⟩

theorem brokenLines_renderAll {lines : List Line} (h : ∀ line ∈ lines, OneLine line.text) :
    brokenLines (renderAll lines) = lines.map content := by
  rw [renderAll_eq]
  apply brokenLines_join
  rw [List.forall_mem_map]
  intro line hline
  exact oneLine_content (h line hline)

/-- A start without a line feed stays whole, and each line feed behind it adds a line. -/
theorem brokenLines_renderAll_start {start : String} (h : OneLine start) (indent : Nat)
    (text : String) : ∃ rest more, more.length = text.toList.count '\n' ∧
      brokenLines (renderAll [⟨indent, start ++ text⟩]) =
        (content ⟨indent, start⟩ ++ rest) :: more := by
  have hstart : OneLine (content ⟨indent, start⟩) := oneLine_content h
  have hchars : (content ⟨indent, start ++ text⟩).toList =
      (content ⟨indent, start⟩).toList ++ text.toList := by
    simp [content]
  rw [brokenLines_renderAll_singleton, hchars, splitOn_append_of_not_mem hstart]
  have hlength := length_splitOn '\n' text.toList
  cases hpieces : text.toList.splitOn '\n' with
  | nil => exact absurd hpieces (List.splitOn_ne_nil _ _)
  | cons first more =>
      refine ⟨String.ofList first, more.map String.ofList, ?_, ?_⟩
      · rw [hpieces, List.length_cons] at hlength
        simpa using hlength
      · simp

@[simp] theorem content_blank : content blank = "" := rfl

theorem brokenLines_blank : brokenLines (renderAll [blank]) = [""] := rfl

theorem content_ne_empty {line : Line} (h : 0 < line.indent ∨ line.text ≠ "") :
    line.content ≠ "" := by
  intro hempty
  have hchars : List.replicate line.indent ' ' ++ line.text.toList = [] := by
    rw [← String.toList_ofList (l := List.replicate line.indent ' '), ← String.toList_append]
    exact congrArg String.toList hempty
  obtain ⟨hindent, htext⟩ := List.append_eq_nil_iff.mp hchars
  rcases h with hpos | hne
  · rw [List.replicate_eq_nil_iff] at hindent
    omega
  · exact hne (String.toList_eq_nil_iff.mp htext)

theorem indentation_content (line : Line) :
    indentation line.content = line.indent + indentation line.text := by
  simp [indentation, content]

end Line

end ClassListing
