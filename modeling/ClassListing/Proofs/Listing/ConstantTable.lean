import ClassListing.Proofs.Listing.Bootstrap
import ClassListing.Proofs.Listing.Detail
import ClassListing.Proofs.Listing.Sections

/-!
# The constant pool table

Each constant begins a row of the table with its index and its kind. Numbers and quoted texts stay
on that row. Names are shown as they are, so a line feed in a name breaks the row that shows it. If
no name has one, the lines from the title of the table down to the next empty line are the rows.
-/

namespace ClassListing

open Text

namespace Listing

/-! ## Texts -/

theorem entryText_eq_resolve {pool : Pool} {index : UInt16} {constant : Constant}
    (h : constant.kind ≠ .utf8) : entryText pool index constant = pool.resolve index := by
  cases constant with
  | utf8 text => exact absurd rfl h
  | _ => rfl

theorem entryText_literal {pool : Pool} {index : UInt16} {constant : Constant}
    (hget : pool.get index = .ok constant) (h : constant.isLiteral = true) :
    Yields OneLine (entryText pool index constant) := by
  by_cases hkind : constant.kind = .utf8
  · cases constant with
    | utf8 text => exact .ok (.quote text)
    | _ => cases hkind
  · rw [entryText_eq_resolve hkind, Pool.resolve_of_get hget]
    exact Pool.resolveConstant_literal h hkind

/-! ## Rows -/

def rowStart (index : UInt16) (constant : Constant) : String :=
  alignRight 6 s!"#{index}" ++ " = " ++ (alignLeft 18 constant.kind.name ++ " ") ++
    if constant.references.isEmpty then "" else alignLeft 14 constant.references ++ " // "

theorem entryLine_eq (pool : Pool) (index : UInt16) (constant : Constant) :
    entryLine pool index constant = do
      return ⟨step, rowStart index constant ++ (← entryText pool index constant)⟩ := by
  unfold entryLine rowStart
  by_cases hempty : constant.references.isEmpty = true
  · simp only [hempty, if_true, String.append_empty, String.append_assoc]
  · simp only [hempty, Bool.false_eq_true, if_false, String.append_assoc]

theorem oneLine_rowStart (index : UInt16) (constant : Constant) :
    OneLine (rowStart index constant) := by
  have hkind := Constant.oneLine_kindName constant.kind
  have hreferences := Constant.oneLine_references constant
  unfold rowStart
  split <;> simp [hkind, hreferences]

/-- The line starts with the index of the constant in its column, and with its kind. -/
def BeginsRow (entry : UInt16 × Constant) (line : String) : Prop :=
  ∃ rest, line = Line.content
    ⟨step, alignRight 6 s!"#{entry.1}" ++ " = " ++ entry.2.kind.name ++ " " ++ rest⟩

theorem BeginsRow.ne_empty {entry : UInt16 × Constant} {line : String} (h : BeginsRow entry line) :
    line ≠ "" := by
  obtain ⟨rest, rfl⟩ := h
  exact Line.content_ne_empty (.inl (show 0 < step by decide))

theorem alignLeft_append_space (width : Nat) (text : String) :
    ∃ rest, alignLeft width text ++ " " = text ++ " " ++ rest := by
  refine ⟨String.ofList (List.replicate (width - text.toList.length) ' '), ?_⟩
  apply String.toList_injective
  simp [alignLeft, List.rightpad, ← List.replicate_succ', List.replicate_succ]

theorem beginsRow_rowStart (index : UInt16) (constant : Constant) (rest : String) :
    BeginsRow (index, constant) (Line.content ⟨step, rowStart index constant⟩ ++ rest) := by
  obtain ⟨spaces, hspaces⟩ := alignLeft_append_space 18 constant.kind.name
  refine ⟨spaces ++ (if constant.references.isEmpty then "" else
    alignLeft 14 constant.references ++ " // ") ++ rest, ?_⟩
  rw [rowStart, hspaces]
  simp only [Line.content, String.append_assoc]

/-- The lines show the constant: the first one begins its row, and each line feed in its text adds
another. Literals never take more than one. -/
structure RowShown (pool : Pool) (entry : UInt16 × Constant) (block : List String) : Prop where
  begins : ∃ line more, block = line :: more ∧ BeginsRow entry line
  length : ∃ text, entryText pool entry.1 entry.2 = .ok text ∧
    block.length = text.toList.count '\n' + 1
  literal : entry.2.isLiteral = true → block.length = 1

theorem entryLine_shown {pool : Pool} {index : UInt16} {constant : Constant} {row : Line}
    (hget : pool.get index = .ok constant) (h : entryLine pool index constant = .ok row) :
    RowShown pool (index, constant) (brokenLines (Line.renderAll [row])) := by
  rw [entryLine_eq] at h
  obtain ⟨text, htext, hpure⟩ := bind_eq_ok_iff.mp h
  cases hpure
  obtain ⟨rest, more, hmore, hbroken⟩ :=
    Line.brokenLines_renderAll_start (oneLine_rowStart index constant) step text
  rw [hbroken]
  refine ⟨⟨_, more, rfl, beginsRow_rowStart index constant rest⟩, ⟨text, htext, ?_⟩, ?_⟩
  · rw [List.length_cons, hmore]
  · intro hliteral
    have hline : OneLine text := entryText_literal hget hliteral text htext
    rw [List.length_cons, hmore, List.count_eq_zero.mpr hline]

/-- A text of one line leaves the row whole. -/
theorem RowShown.single {pool : Pool} {entry : UInt16 × Constant} {block : List String}
    (h : RowShown pool entry block)
    (hline : entry.2.isLiteral = false → Yields OneLine (pool.resolve entry.1)) :
    ∃ line, block = [line] ∧ BeginsRow entry line := by
  obtain ⟨line, more, rfl, hbegins⟩ := h.begins
  have hlength : (line :: more).length = 1 := by
    cases hliteral : entry.2.isLiteral with
    | true => exact h.literal hliteral
    | false =>
        obtain ⟨text, htext, hcount⟩ := h.length
        rw [entryText_eq_resolve (Constant.kind_ne_utf8_of_not_isLiteral hliteral)] at htext
        rw [hcount, List.count_eq_zero.mpr (hline hliteral text htext)]
  obtain rfl : more = [] := by simpa using hlength
  exact ⟨line, rfl, hbegins⟩

theorem beginsRow_flatten {entries : List (UInt16 × Constant)} {blocks : List (List String)}
    (h : List.Forall₂ (fun entry block => ∃ line, block = [line] ∧ BeginsRow entry line)
      entries blocks) : List.Forall₂ BeginsRow entries blocks.flatten := by
  induction h with
  | nil => exact .nil
  | cons hfirst _ ih =>
      obtain ⟨line, rfl, hbegins⟩ := hfirst
      exact .cons hbegins ih

/-! ## The table -/

def tableTitle (pool : Pool) : String := "constant pool: " ++ toString pool.size ++ " slots"

theorem head?_tableTitle (pool : Pool) : (tableTitle pool).toList.head? = some 'c' := by
  have htitle : tableTitle pool = "constant pool: " ++ (toString pool.size ++ " slots") :=
    String.append_assoc
  rw [htitle]
  simp

def below (title : String) (lines : List String) : List String :=
  ((lines.dropWhile (· != title)).drop 1).takeWhile (· != "")

theorem below_eq {title : String} {before rows after : List String} (hbefore : title ∉ before)
    (hrows : "" ∉ rows) : below title (before ++ title :: (rows ++ "" :: after)) = rows := by
  have hpass : ∀ line ∈ before, (line != title) = true := by
    intro line hline
    exact bne_iff_ne.mpr fun hsame => hbefore (hsame ▸ hline)
  have hkeep : ∀ line ∈ rows, (line != "") = true := by
    intro line hline
    exact bne_iff_ne.mpr fun hempty => hrows (hempty ▸ hline)
  rw [below, List.dropWhile_append_of_pos hpass, List.dropWhile_cons_of_neg (by simp),
    List.drop_one, List.tail_cons, List.takeWhile_append_of_pos hkeep]
  simp

theorem brokenLines_tableTitle (pool : Pool) :
    brokenLines (Line.renderAll [⟨0, tableTitle pool⟩]) = [tableTitle pool] := by
  have hline : OneLine (tableTitle pool) :=
    OneLine.append_iff.mpr ⟨OneLine.append_iff.mpr ⟨by decide, .repr pool.size⟩, by decide⟩
  have hlines : ∀ line ∈ [(⟨0, tableTitle pool⟩ : Line)], OneLine line.text :=
    List.forall_mem_singleton.mpr hline
  rw [Line.brokenLines_renderAll hlines]
  exact congrArg ([·]) String.empty_append

theorem poolLines_eq (pool : Pool) : poolLines pool = do
    let rows ← pool.entries.mapM fun entry => entryLine pool entry.1 entry.2
    return [⟨0, tableTitle pool⟩] ++ rows ++ [.blank] := rfl

theorem poolLines_shown {pool : Pool} (hzero : pool.slots[0]? = some none) {table : List Line}
    (h : poolLines pool = .ok table) : ∃ blocks,
      brokenLines (Line.renderAll table) = tableTitle pool :: (blocks.flatten ++ [""]) ∧
        List.Forall₂ (RowShown pool) pool.entries blocks := by
  rw [poolLines_eq] at h
  obtain ⟨rows, hrows, hpure⟩ := bind_eq_ok_iff.mp h
  cases hpure
  have hget : ∀ entry ∈ pool.entries, pool.get entry.1 = .ok entry.2 := by
    intro entry hentry
    exact Pool.get_of_mem_entries hzero hentry
  have hshown := (List.forall₂_and_left _ _).mpr ⟨hget, forall₂_of_mapM hrows⟩
  refine ⟨rows.map fun row => brokenLines (Line.renderAll [row]), ?_, ?_⟩
  · rw [Line.brokenLines_renderAll_append, Line.brokenLines_renderAll_append,
      brokenLines_tableTitle, Line.brokenLines_blank, ← Line.brokenLines_renderAll_eq_flatten,
      List.singleton_append, List.cons_append]
  · exact List.forall₂_map_right_iff.mpr (hshown.imp fun _ _ hboth =>
      entryLine_shown hboth.1 hboth.2)

/-- The lines of a header start with their labels. -/
theorem tableTitle_not_mem_header {file : ClassFile} {digest : Option String}
    (hdigest : ∀ line ∈ digest, OneLine line) (hname : OneLine file.name)
    (hsuper : ∀ name ∈ file.superName, OneLine name)
    (hinterfaces : ∀ name ∈ file.interfaces, OneLine name) (pool : Pool) :
    tableTitle pool ∉ brokenLines (Line.renderAll (header file digest)) := by
  have hlabelled := header_labelled hdigest hname hsuper hinterfaces
  have hfirst (rest : String) : ∀ label ∈ headerLabels,
      (Line.content ⟨0, label ++ rest⟩).toList.head? ≠ some 'c' := by
    simp [headerLabels, Line.content]
  have hall : ∀ line ∈ (header file digest).dropLast.map Line.content ++ [""],
      line.toList.head? ≠ some 'c' := by
    rw [List.forall_mem_append, List.forall_mem_map, List.forall_mem_singleton]
    refine ⟨fun line hline => ?_, by decide⟩
    obtain ⟨-, label, hlabel, rest, rfl⟩ := hlabelled line hline
    exact hfirst rest label hlabel
  rw [header_eq_dropLast, Line.brokenLines_renderAll_append, Line.brokenLines_blank,
    Line.brokenLines_renderAll fun line hline => (hlabelled line hline).1]
  intro hmem
  exact hall _ hmem (head?_tableTitle pool)

/-- The names of classes stand in rows of their own. -/
theorem className_oneLine_of_rows {pool : Pool} (hzero : pool.slots[0]? = some none)
    (h : ∀ entry ∈ pool.entries, entry.2.isLiteral = false →
      Yields OneLine (pool.resolve entry.1)) (index : UInt16) :
    Yields OneLine (pool.className index) := by
  intro name hname
  obtain ⟨text, hclass, htext⟩ := Pool.className_eq_ok_iff.mp hname
  have hresolve : pool.resolve index = .ok name := by
    rw [Pool.resolve_of_get hclass]
    exact Pool.utf8_eq_ok_iff.mpr htext
  exact h _ (Pool.mem_entries_of_get hzero hclass) rfl name hresolve

theorem pairwise_entries_of_parse {bytes : Bytes} {file : ClassFile}
    (h : ClassFile.parse bytes = .ok file) :
    file.pool.entries.Pairwise fun entry next => entry.1 < next.1 := by
  obtain ⟨raw, -, hraw⟩ := ClassFile.parse_eq_ok_iff.mp h
  exact Pool.pairwise_entries raw.fewSlots (congrArg Array.toList hraw.constants)

/--
The pool table of a decoded class has a row for each constant that a lookup finds, in the order of
the indices. A row begins with the index and the kind, and each line feed in the text of the
constant adds a line to it; numbers and quoted texts have none. If no name has one either, nor the
digest, the lines between the title and the next empty line are exactly one for each constant.
-/
theorem print_lists_constants {bytes : Bytes} {file : ClassFile}
    (h : ClassFile.parse bytes = .ok file) {options : Options}
    (hon : options.constantPool = true) {digest : Option String} {text : String}
    (htext : print file options digest = .ok text) :
    (∀ index constant,
      (index, constant) ∈ file.pool.entries ↔ file.pool.get index = .ok constant) ∧
    (file.pool.entries.Pairwise fun entry next => entry.1 < next.1) ∧
    (∃ blocks after, brokenLines text = brokenLines (Line.renderAll (header file digest)) ++
        tableTitle file.pool :: (blocks.flatten ++ "" :: after) ∧
      List.Forall₂ (RowShown file.pool) file.pool.entries blocks) ∧
    ((∀ line ∈ digest, OneLine line) →
      (∀ entry ∈ file.pool.entries, entry.2.isLiteral = false →
        Yields OneLine (file.pool.resolve entry.1)) →
      List.Forall₂ BeginsRow file.pool.entries
        (below (tableTitle file.pool) (brokenLines text))) := by
  obtain ⟨hzero, -⟩ := fit_of_parse h
  obtain ⟨found, hfound, hrender⟩ := bind_eq_ok_iff.mp htext
  cases hrender
  rw [lines_eq_body] at hfound
  obtain ⟨table, htable, hrest⟩ := bind_eq_ok_iff.mp hfound
  obtain ⟨body, -, hpure⟩ := bind_eq_ok_iff.mp hrest
  cases hpure
  rw [tableLines, if_pos hon] at htable
  obtain ⟨blocks, htableLines, hblocks⟩ := poolLines_shown hzero htable
  have hbroken : brokenLines (Line.renderAll (header file digest ++ table ++ body)) =
      brokenLines (Line.renderAll (header file digest)) ++ tableTitle file.pool ::
        (blocks.flatten ++ "" :: brokenLines (Line.renderAll body)) := by
    rw [Line.brokenLines_renderAll_append, Line.brokenLines_renderAll_append, htableLines]
    simp
  refine ⟨fun index constant => ?_, pairwise_entries_of_parse h, ⟨blocks, _, hbroken, hblocks⟩,
    fun hdigest hnames => ?_⟩
  · exact ⟨Pool.get_of_mem_entries hzero, Pool.mem_entries_of_get hzero⟩
  · obtain ⟨hname, hsuper, hinterfaces⟩ :=
      ClassFile.names_of_parse h (className_oneLine_of_rows hzero hnames)
    have hsingle := (List.forall₂_and_left _ _).mpr ⟨hnames, hblocks⟩
    have hrows : List.Forall₂ BeginsRow file.pool.entries blocks.flatten :=
      beginsRow_flatten (hsingle.imp fun _ _ hboth => hboth.2.single hboth.1)
    have hempty : "" ∉ blocks.flatten := by
      intro hmem
      exact ClassFile.forall_of_forall₂ hrows (fun _ _ hbegins => hbegins.ne_empty) "" hmem rfl
    rw [hbroken, below_eq (tableTitle_not_mem_header hdigest hname hsuper hinterfaces _) hempty]
    exact hrows

/-- A text of two lines that is the name of a class or the text of a string. -/
def feedPool (named : Bool) : Pool :=
  ⟨#[none, some (.utf8 "A"), some (.classInfo 1), some (.utf8 "B\nC"),
    some (if named then .classInfo 3 else .string 3)], []⟩

def feedFile (named : Bool) : ClassFile :=
  ⟨0, 65, feedPool named, 0x21, "A", none, [], [], [], []⟩

def feedBytes (named : Bool) : Bytes :=
  [0xCA, 0xFE, 0xBA, 0xBE, 0, 0, 0, 65] ++
  -- The constants.
  [0, 5, 1, 0, 1, 65, 7, 0, 1, 1, 0, 3, 66, 10, 67] ++ [if named then 7 else 8, 0, 3] ++
  -- The declaration, without members or attributes.
  [0, 0x21, 0, 2, 0, 0, 0, 0, 0, 0, 0, 0, 0, 0]

theorem parse_feed (named : Bool) :
    ClassFile.parse (feedBytes named) = .ok (feedFile named) := by
  have hparts : ∃ raw : ClassFile.Raw, raw.encode = feedBytes named ∧
      raw.Denotes (feedFile named) := by
    refine ⟨{
      minor := 0
      major := 65
      entries := [.utf8 [65] (by decide), .plain (.classInfo 1) (by decide),
        .utf8 [66, 10, 67] (by decide),
        .plain (if named then .classInfo 3 else .string 3) (by cases named <;> decide)]
      flags := 0x21
      name := 2
      superName := 0
      interfaces := []
      fields := []
      methods := []
      attributes := []
      fewSlots := by cases named <;> decide
      fewInterfaces := by decide
      fewFields := by simp
      fewMethods := by simp
      fewAttributes := by simp }, ?_, rfl, rfl, ?_, .inr ⟨?_, nofun⟩, rfl, ?_, rfl, .nil, .nil,
      .nil, .nil⟩
    all_goals cases named <;> rfl
  exact ClassFile.parse_eq_ok_iff.mpr hparts

/-- A string of two lines is quoted, so all four constants have a line each. -/
theorem print_lists_constants_feed :
    ClassFile.parse (feedBytes false) = .ok (feedFile false) ∧
      ∃ text, disassemble .full (feedBytes false) = .ok text ∧
        List.Forall₂ BeginsRow (feedPool false).entries
          (below (tableTitle (feedPool false)) (brokenLines text)) := by
  have hparse := parse_feed false
  obtain ⟨text, htext⟩ : ∃ text, print (feedFile false) .full
      (some (Md5.hexDigest (feedBytes false))) = .ok text := ⟨_, rfl⟩
  have hdisassemble : disassemble .full (feedBytes false) = .ok text :=
    bind_eq_ok_iff.mpr ⟨_, hparse, htext⟩
  obtain ⟨-, -, -, hrows⟩ := print_lists_constants hparse rfl htext
  refine ⟨hparse, text, hdisassemble, hrows ?_ ?_⟩
  · intro line hline
    cases hline
    exact .hexBytes _
  · have hentries : (feedFile false).pool.entries = [(1, .utf8 "A"), (2, .classInfo 1),
        (3, .utf8 "B\nC"), (4, .string 3)] := rfl
    have hclass : Yields OneLine ((feedFile false).pool.resolve 2) := .ok (by decide)
    simp [hentries, Constant.isLiteral, hclass]

/-- A class of that name breaks its row: there are four constants, but the second half of the name
stands as a fifth line in the table. -/
theorem print_breaks_row :
    ClassFile.parse (feedBytes true) = .ok (feedFile true) ∧
      ∃ text, disassemble { Options.minimal with constantPool := true } (feedBytes true) =
          .ok text ∧
        (below (tableTitle (feedPool true)) (brokenLines text)).drop 4 = ["C"] ∧
        ¬List.Forall₂ BeginsRow (feedPool true).entries
          (below (tableTitle (feedPool true)) (brokenLines text)) := by
  have hparse := parse_feed true
  obtain ⟨text, htext, hbelow⟩ : ∃ text, print (feedFile true)
      { Options.minimal with constantPool := true } none = .ok text ∧
        (below (tableTitle (feedPool true)) (brokenLines text)).drop 4 = ["C"] := by
    refine ⟨_, rfl, ?_⟩
    rw [Line.brokenLines_renderAll_eq_flatten]
    simp only [Line.brokenLines_renderAll_singleton]
    decide +kernel
  refine ⟨hparse, text, bind_eq_ok_iff.mpr ⟨_, hparse, htext⟩, hbelow, fun hrows => ?_⟩
  have hlength : (feedPool true).entries.length = 4 := rfl
  have hfifth := congrArg List.length hbelow
  rw [List.length_drop, ← hrows.length_eq, hlength] at hfifth
  cases hfifth

end Listing

end ClassListing
