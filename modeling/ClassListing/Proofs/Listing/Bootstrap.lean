import ClassListing.Listing.Attribute
import ClassListing.Proofs.Constant.Resolution

/-!
# Dynamic constants and the bootstrap table

A dynamic constant shows the handle and the arguments of its bootstrap row. The arguments are
resolved further down a chain, with less room left and with more constants that must not come up
again. Where that succeeds, so does a resolution that starts at the argument, with the same text. So
the constant and the row in the listing of the table show the same texts.
-/

namespace ClassListing

/-! ## Computations that give no less -/

def Kept (first second : Except ε α) : Prop :=
  ∀ value, first = .ok value → second = .ok value

namespace Kept

theorem refl (found : Except ε α) : Kept found found := fun _ h => h

/-- A step that both take gives both the same value. -/
theorem after {next other : α → Except ε β} (found : Except ε α)
    (h : ∀ value, Kept (next value) (other value)) :
    Kept (found >>= next) (found >>= other) := by
  intro result hresult
  obtain ⟨value, hvalue, hnext⟩ := bind_eq_ok_iff.mp hresult
  exact bind_eq_ok_iff.mpr ⟨value, hvalue, h value result hnext⟩

theorem mapM {step other : α → Except ε β} (h : ∀ item, Kept (step item) (other item))
    (items : List α) : Kept (items.mapM step) (items.mapM other) := by
  intro values hvalues
  induction items generalizing values with
  | nil => exact hvalues
  | cons item items ih =>
      rw [List.mapM_cons] at hvalues ⊢
      obtain ⟨value, hvalue, hrest⟩ := bind_eq_ok_iff.mp hvalues
      obtain ⟨more, hmore, hpure⟩ := bind_eq_ok_iff.mp hrest
      rw [h item value hvalue, ih more hmore]
      exact hpure

/-- Values that are only put into others. -/
protected theorem map {first second : Except ε α} (h : Kept first second) (wrap : α → β) :
    Kept (do return wrap (← first)) (do return wrap (← second)) := by
  intro result hresult
  obtain ⟨value, hvalue, hpure⟩ := bind_eq_ok_iff.mp hresult
  exact bind_eq_ok_iff.mpr ⟨value, h value hvalue, hpure⟩

end Kept

namespace Pool

variable {pool : Pool}

theorem resolveDynamic_kept {argument other : UInt16 → Except Error String}
    (h : ∀ index, Kept (argument index) (other index)) (index row member : UInt16) :
    Kept (pool.resolveDynamic argument index row member)
      (pool.resolveDynamic other index row member) :=
  .after _ fun _ => .after _ fun _ => .after _ fun _ => .map (.mapM h _) _

/-- Only dynamic constants have arguments. -/
theorem resolveConstant_kept {argument other : UInt16 → Except Error String}
    (h : ∀ index, Kept (argument index) (other index)) (index : UInt16) (constant : Constant) :
    Kept (pool.resolveConstant argument index constant)
      (pool.resolveConstant other index constant) := by
  cases constant with
  | dynamic row member => exact resolveDynamic_kept h index row member
  | invokeDynamic row member => exact resolveDynamic_kept h index row member
  | _ => exact .refl _

/-- A text that a chain allows is the same on every chain with more room and fewer constants. -/
theorem resolveWithin_kept {budget larger : Nat} (hroom : budget ≤ larger)
    {visiting fewer : List UInt16} (hfewer : fewer ⊆ visiting) (index : UInt16) :
    Kept (pool.resolveWithin budget visiting index) (pool.resolveWithin larger fewer index) := by
  induction budget generalizing larger visiting fewer index with
  | zero =>
      intro text h
      unfold resolveWithin at h
      split at h <;> cases h
  | succ budget ih =>
      intro text h
      obtain ⟨room, rfl⟩ : ∃ room, larger = room + 1 := ⟨larger - 1, by omega⟩
      unfold resolveWithin at h ⊢
      by_cases hseen : visiting.contains index = true
      · rw [if_pos hseen] at h
        cases h
      · have hnew : ¬fewer.contains index = true := by
          rw [List.contains_iff_mem] at hseen ⊢
          exact fun hmem => hseen (hfewer hmem)
        rw [if_neg hseen] at h
        rw [if_neg hnew]
        have hchain : index :: fewer ⊆ index :: visiting := List.cons_subset_cons index hfewer
        have hargument (other : UInt16) := ih (Nat.le_of_succ_le_succ hroom) hchain other
        exact Kept.after (pool.get index) (resolveConstant_kept hargument index) text h

/-- The way to a constant plays no part in its text. -/
theorem resolve_eq_of_resolveWithin {budget : Nat} {visiting : List UInt16} {index : UInt16}
    {text found : String} (h : pool.resolveWithin budget visiting index = .ok text)
    (hfound : pool.resolve index = .ok found) : found = text := by
  have hlong := resolveWithin_kept (Nat.le_max_left budget maxResolveDepth)
    (List.nil_subset visiting) index text h
  have hshort := resolveWithin_kept (Nat.le_max_right budget maxResolveDepth)
    (List.Subset.refl []) index found hfound
  exact Except.ok.inj (hshort.symm.trans hlong)

theorem resolve_of_get {index : UInt16} {constant : Constant}
    (h : pool.get index = .ok constant) :
    pool.resolve index =
      pool.resolveConstant (pool.resolveWithin 63 [index]) index constant := by
  rw [resolve, maxResolveDepth, resolveWithin, h]
  rfl

/-- The handle of a row is a constant like any other. -/
theorem resolve_handle {method : BootstrapMethod} {handle : String}
    (h : pool.bootstrapHandle method = .ok handle) : pool.resolve method.handle = .ok handle := by
  obtain ⟨constant, hget, hconstant⟩ := bind_eq_ok_iff.mp h
  cases constant with
  | methodHandle access target =>
      rw [resolve_of_get hget]
      exact hconstant
  | _ => cases hconstant

/-- A dynamic constant is made of its member, its row, and the texts of what is in the row. -/
theorem resolve_dynamic {index row member : UInt16} {text : String}
    (hget : pool.get index = .ok (.dynamic row member) ∨
      pool.get index = .ok (.invokeDynamic row member))
    (h : pool.resolve index = .ok text) :
    ∃ (named : NameAndType) (method : BootstrapMethod) (handle : String) (arguments : List String),
      pool.nameAndType member = .ok named ∧ pool.bootstrap[row.toNat]? = some method ∧
      pool.resolve method.handle = .ok handle ∧
      method.arguments.mapM pool.resolve = .ok arguments ∧
      text = dynamicText named row handle arguments := by
  have hdynamic :
      pool.resolveDynamic (pool.resolveWithin 63 [index]) index row member = .ok text := by
    rcases hget with hget | hget
    · rw [resolve_of_get hget] at h
      exact h
    · rw [resolve_of_get hget] at h
      exact h
  obtain ⟨named, hnamed, hdynamic⟩ := bind_eq_ok_iff.mp hdynamic
  obtain ⟨method, hmethod, hdynamic⟩ := bind_eq_ok_iff.mp hdynamic
  obtain ⟨handle, hhandle, hdynamic⟩ := bind_eq_ok_iff.mp hdynamic
  obtain ⟨arguments, harguments, htext⟩ := bind_eq_ok_iff.mp hdynamic
  cases htext
  have hkept (argument : UInt16) : Kept (pool.resolveWithin 63 [index] argument)
      (pool.resolve argument) :=
    resolveWithin_kept (by decide) (List.nil_subset [index]) argument
  exact ⟨named, method, handle, arguments, hnamed, bootstrap_of_bootstrapRow hmethod,
    resolve_handle hhandle, Kept.mapM hkept _ arguments harguments, rfl⟩

end Pool

namespace Listing

/-! ## The table in a listing -/

/-- Blocks of one size stand at the multiples of that size. -/
theorem getElem?_flatten_blocks {blocks : List (List α)} {size : Nat}
    (h : ∀ block ∈ blocks, block.length = size) {place : Nat} {block : List α}
    (hblock : blocks[place]? = some block) {offset : Nat} (hoffset : offset < size) :
    blocks.flatten[size * place + offset]? = block[offset]? := by
  induction blocks generalizing place with
  | nil => cases hblock
  | cons first blocks ih =>
      obtain ⟨hfirst, hrest⟩ := List.forall_mem_cons.mp h
      rw [List.flatten_cons]
      cases place with
      | zero =>
          cases hblock
          rw [Nat.mul_zero, Nat.zero_add, List.getElem?_append_left (by omega)]
      | succ place =>
          have hplace : size * (place + 1) + offset - first.length = size * place + offset := by
            rw [Nat.mul_succ]
            omega
          rw [List.getElem?_append_right (by rw [Nat.mul_succ]; omega), hplace]
          exact ih hrest hblock

theorem bootstrapLines_eq_ok {pool : Pool} {row : BootstrapMethod} {handle : String}
    {arguments : List String} (hhandle : pool.resolve row.handle = .ok handle)
    (harguments : row.arguments.mapM pool.resolve = .ok arguments) (indent number : Nat) :
    bootstrapLines pool indent row number = .ok [⟨indent, s!"#{number} {handle}"⟩,
      ⟨indent + step, "arguments: " ++ bracketed arguments⟩] := by
  rw [bootstrapLines, hhandle, harguments]
  rfl

theorem bootstrapLines_yields_pair (pool : Pool) (indent : Nat) (row : BootstrapMethod)
    (number : Nat) : Yields (·.length = 2) (bootstrapLines pool indent row number) := by
  intro lines h
  obtain ⟨handle, -, h⟩ := bind_eq_ok_iff.mp h
  obtain ⟨arguments, -, h⟩ := bind_eq_ok_iff.mp h
  cases h
  rfl

/-- The two lines of a row, below the title and the lines of the rows before it. -/
theorem bootstrapTableLines_row {pool : Pool} {indent : Nat} {rows : List BootstrapMethod}
    {lines block : List Line} (h : bootstrapTableLines pool indent rows = .ok lines)
    {place : Nat} {row : BootstrapMethod} (hrow : rows[place]? = some row)
    (hblock : bootstrapLines pool (indent + step) row place = .ok block) :
    lines[2 * place + 1]? = block[0]? ∧ lines[2 * place + 2]? = block[1]? := by
  obtain ⟨blocks, hblocks, hlines⟩ := bind_eq_ok_iff.mp h
  cases hlines
  have hpairs : ∀ block ∈ blocks, block.length = 2 :=
    Yields.mapM (fun item _ => bootstrapLines_yields_pair pool _ item.1 item.2) blocks hblocks
  have hplace : blocks[place]? = some block := by
    have hmaps := congrArg (·[place]?) (mapM_eq_ok_iff.mp hblocks)
    simp only [List.getElem?_map, List.getElem?_zipIdx, hrow, Option.map_some, Nat.zero_add,
      hblock] at hmaps
    cases hfound : blocks[place]? with
    | none => simp [hfound] at hmaps
    | some found => simpa [hfound, eq_comm] using hmaps
  have hat (offset : Nat) (hoffset : offset < 2) :
      blocks.flatten[2 * place + offset]? = block[offset]? :=
    getElem?_flatten_blocks hpairs hplace hoffset
  rw [List.getElem?_cons_succ, List.getElem?_cons_succ]
  exact ⟨hat 0 (by decide), hat 1 (by decide)⟩

/--
A dynamic constant and its bootstrap row show the same texts: the handle and each argument of the
row have a text of their own, the constant is put together from these, and a listing of the table
shows the same ones for the row. How an argument was reached plays no part.
-/
theorem dynamic_shows_row {pool : Pool} {index row member : UInt16} {text : String}
    (hget : pool.get index = .ok (.dynamic row member) ∨
      pool.get index = .ok (.invokeDynamic row member))
    (h : pool.resolve index = .ok text) :
    ∃ (named : NameAndType) (method : BootstrapMethod) (handle : String) (arguments : List String),
      pool.nameAndType member = .ok named ∧ pool.bootstrap[row.toNat]? = some method ∧
      pool.resolve method.handle = .ok handle ∧
      method.arguments.map pool.resolve = arguments.map .ok ∧
      text = named.name ++ ":" ++ named.descriptor ++ s!" bootstrap #{row} " ++ handle ++
        " arguments [" ++ String.intercalate ", " arguments ++ "]" ∧
      (∀ argument ∈ method.arguments, ∀ budget visiting found,
        pool.resolveWithin budget visiting argument = .ok found →
          pool.resolve argument = .ok found) ∧
      ∀ options indent lines,
        attributeLines pool options indent (.bootstrapMethods pool.bootstrap) = .ok lines →
          lines[2 * row.toNat + 1]? = some ⟨indent + step, s!"#{row} {handle}"⟩ ∧
          lines[2 * row.toNat + 2]? = some ⟨indent + step + step,
            "arguments: [" ++ String.intercalate ", " arguments ++ "]"⟩ := by
  obtain ⟨named, method, handle, arguments, hnamed, hmethod, hhandle, harguments, rfl⟩ :=
    Pool.resolve_dynamic hget h
  have htexts := mapM_eq_ok_iff.mp harguments
  refine ⟨named, method, handle, arguments, hnamed, hmethod, hhandle, htexts, rfl, ?_, ?_⟩
  · intro argument hargument budget visiting found hfound
    have hmem : pool.resolve argument ∈ arguments.map .ok := by
      rw [← htexts]
      exact List.mem_map_of_mem hargument
    obtain ⟨shown, -, hshown⟩ := List.mem_map.mp hmem
    rw [← Pool.resolve_eq_of_resolveWithin hfound hshown.symm, hshown]
  · intro options indent lines hlines
    rw [attributeLines] at hlines
    exact bootstrapTableLines_row hlines hmethod (bootstrapLines_eq_ok hhandle harguments _ _)

/-- The constant at 9 takes that at 8 twice, which in turn takes that at 7. -/
def chained : Pool :=
  { Pool.nested with bootstrap := [⟨6, [3]⟩, ⟨6, [7, 2]⟩, ⟨6, [8, 8]⟩] }

theorem dynamic_shows_row_chained :
    chained.get 9 = .ok (.invokeDynamic 2 4) ∧
      ∃ text handle arguments lines, chained.resolve 9 = .ok text ∧
        [8, 8].map chained.resolve = arguments.map .ok ∧
        text = "Boot:()V bootstrap #2 " ++ handle ++ " arguments [" ++
          String.intercalate ", " arguments ++ "]" ∧
        attributeLines chained .minimal 0 (.bootstrapMethods chained.bootstrap) = .ok lines ∧
        lines[5]? = some ⟨2, s!"#2 {handle}"⟩ ∧
        lines[6]? = some ⟨4, "arguments: [" ++ String.intercalate ", " arguments ++ "]"⟩ := by
  have hget : chained.get 9 = .ok (.invokeDynamic 2 4) := rfl
  obtain ⟨text, htext⟩ : ∃ text, chained.resolve 9 = .ok text := ⟨_, rfl⟩
  obtain ⟨lines, hlines⟩ : ∃ lines, attributeLines chained .minimal 0
      (.bootstrapMethods chained.bootstrap) = .ok lines := ⟨_, rfl⟩
  obtain ⟨named, method, handle, arguments, hnamed, hmethod, -, harguments, hshown, -, htable⟩ :=
    dynamic_shows_row (.inr hget) htext
  obtain rfl : ⟨"Boot", "()V"⟩ = named := Except.ok.inj hnamed
  obtain rfl : ⟨6, [8, 8]⟩ = method := Option.some.inj hmethod
  obtain ⟨hfirst, hsecond⟩ := htable .minimal 0 lines hlines
  exact ⟨hget, text, handle, arguments, lines, htext, harguments, hshown, hlines, hfirst, hsecond⟩

end Listing

end ClassListing
