import ClassListing.Proofs.Constant.References

/-!
# Which constants have a text

Resolving goes depth first through the graph of static arguments, on a chain that neither comes
back to itself nor visits more than `maxResolveDepth` constants. It gives a text exactly if all that
can be reached is well formed and no walk is longer than that; where it reports a cycle, there is
one.
-/

namespace ClassListing

open Error

/-- A step that looks up what is `sound`, then resolves `arguments` by `argument`. -/
structure Expands (found : Except Error β) (sound : Prop) (argument : UInt16 → Except Error α)
    (arguments : List UInt16) : Prop where
  value : ∀ result, found = .ok result →
    sound ∧ ∀ index ∈ arguments, ∃ text, argument index = .ok text
  fault : ∀ error, found = .error error →
    (¬sound ∧ error.OfLookup) ∨ ∃ index ∈ arguments, argument index = .error error

namespace Expands

variable {found : Except Error β} {sound better : Prop} {argument : UInt16 → Except Error α}
  {arguments : List UInt16}

theorem congr (h : Expands found sound argument arguments) (hiff : sound ↔ better) :
    Expands found better argument arguments := by
  rwa [← propext hiff]

theorem of_decides (h : Decides found sound) : Expands found sound argument [] := by
  constructor
  · intro result hr
    exact ⟨h.value result hr, nofun⟩
  · intro error he
    exact .inl (h.fault error he)

protected theorem bind {next : β → Except Error γ} (hf : Decides found sound)
    (hn : ∀ value, found = .ok value → Expands (next value) better argument arguments) :
    Expands (found >>= next) (sound ∧ better) argument arguments := by
  constructor
  · intro result h
    obtain ⟨value, hvalue, hresult⟩ := bind_eq_ok_iff.mp h
    obtain ⟨hbetter, hall⟩ := (hn value hvalue).value result hresult
    exact ⟨⟨hf.value value hvalue, hbetter⟩, hall⟩
  · intro error h
    rcases bind_eq_error_iff.mp h with he | ⟨value, hvalue, he⟩
    · obtain ⟨hnot, hlookup⟩ := hf.fault error he
      exact .inl ⟨fun hboth => hnot hboth.1, hlookup⟩
    · rcases (hn value hvalue).fault error he with ⟨hnot, hlookup⟩ | hargument
      · exact .inl ⟨fun hboth => hnot hboth.2, hlookup⟩
      · exact .inr hargument

theorem mapM (wrap : List α → β) :
    Expands (do return wrap (← arguments.mapM argument)) True argument arguments := by
  constructor
  · intro result h
    obtain ⟨texts, htexts, -⟩ := bind_eq_ok_iff.mp h
    refine ⟨trivial, fun index hi => ?_⟩
    have hmem : argument index ∈ texts.map .ok := by
      rw [← mapM_eq_ok_iff.mp htexts]
      exact List.mem_map_of_mem hi
    obtain ⟨text, -, htext⟩ := List.mem_map.mp hmem
    exact ⟨text, htext.symm⟩
  · intro error h
    rcases bind_eq_error_iff.mp h with he | ⟨_, _, he⟩
    · obtain ⟨before, index, after, rfl, -, hindex⟩ := mapM_eq_error_iff.mp he
      exact .inr ⟨index, by simp, hindex⟩
    · cases he

end Expands

namespace Pool

/-! ## One constant -/

theorem bootstrapRow_decides (pool : Pool) (index row : UInt16) :
    Decides (pool.bootstrapRow index row) (∃ method, pool.bootstrap[row.toNat]? = some method) := by
  unfold bootstrapRow
  cases hrow : pool.bootstrap[row.toNat]? with
  | some method => exact .ok method ⟨method, rfl⟩
  | none => exact .error nofun nofun

theorem bootstrap_of_bootstrapRow {pool : Pool} {index row : UInt16} {method : BootstrapMethod}
    (h : pool.bootstrapRow index row = .ok method) :
    pool.bootstrap[row.toNat]? = some method := by
  unfold bootstrapRow at h
  split at h <;> cases h
  assumption

/-- The row, its handle and its arguments. -/
theorem resolveDynamic_expands (pool : Pool) (argument : UInt16 → Except Error String)
    (index row member : UInt16) :
    Expands (pool.resolveDynamic argument index row member)
      (pool.HoldsNameAndType member ∧ pool.HoldsRow row) argument
      (pool.arguments (.dynamic row member)) := by
  refine .bind (pool.nameAndType_decides member) fun _ _ => ?_
  have hexists : (∃ method, pool.bootstrap[row.toNat]? = some method) ∧ pool.HoldsRow row ↔
      pool.HoldsRow row :=
    and_iff_right_of_imp fun h => h.imp fun _ => And.left
  refine Expands.congr (.bind (pool.bootstrapRow_decides index row) fun method hmethod => ?_)
    hexists
  have hrow := bootstrap_of_bootstrapRow hmethod
  have harguments : pool.arguments (.dynamic row member) = method.arguments := by
    simp [arguments, hrow]
  rw [harguments]
  refine (Expands.bind (pool.bootstrapHandle_decides method) fun _ _ => .mapM _).congr ?_
  simp [HoldsRow, hrow]

theorem resolveConstant_expands {pool : Pool} {index : UInt16} {constant : Constant}
    (hget : pool.get index = .ok constant) (argument : UInt16 → Except Error String) :
    Expands (pool.resolveConstant argument index constant) (pool.Sound constant) argument
      (pool.arguments constant) := by
  cases constant with
  | classInfo text => exact .of_decides (pool.utf8_decides text)
  | methodType text => exact .of_decides (pool.utf8_decides text)
  | moduleInfo text => exact .of_decides (pool.utf8_decides text)
  | packageInfo text => exact .of_decides (pool.utf8_decides text)
  | string text => exact .of_decides (.map (pool.utf8_decides text) _)
  | fieldRef owner member => exact .of_decides (.map (memberRef_decides hget (.inl rfl)) _)
  | methodRef owner member => exact .of_decides (.map (memberRef_decides hget (.inr (.inl rfl))) _)
  | interfaceMethodRef owner member =>
      exact .of_decides (.map (memberRef_decides hget (.inr (.inr rfl))) _)
  | nameAndType name descriptor =>
      exact .of_decides ((Decides.map (pool.nameAndType_decides index) _).congr
        (holdsNameAndType_iff hget))
  | methodHandle access target => exact .of_decides (pool.handleText_decides access target)
  | dynamic row member => exact pool.resolveDynamic_expands argument index row member
  | invokeDynamic row member => exact pool.resolveDynamic_expands argument index row member
  | _ => exact .of_decides (.ok _ trivial)

/-- A constant is well formed and its arguments have texts, or something among these fails. -/
theorem resolveAt_ok {pool : Pool} {argument : UInt16 → Except Error String} {index : UInt16}
    {text : String}
    (h : (do pool.resolveConstant argument index (← pool.get index)) = .ok text) :
    pool.WellFormed index ∧
      ∀ target, pool.Edge index target → ∃ text, argument target = .ok text := by
  obtain ⟨constant, hget, hconstant⟩ := bind_eq_ok_iff.mp h
  obtain ⟨hsound, hall⟩ := (resolveConstant_expands hget argument).value text hconstant
  refine ⟨⟨constant, hget, hsound⟩, ?_⟩
  intro target he
  obtain ⟨found, hfound, hmem⟩ := he
  rw [hget] at hfound
  cases hfound
  exact hall target hmem

theorem resolveAt_error {pool : Pool} {argument : UInt16 → Except Error String} {index : UInt16}
    {error : Error}
    (h : (do pool.resolveConstant argument index (← pool.get index)) = .error error) :
    (¬pool.WellFormed index ∧ error.OfLookup) ∨
      ∃ target, pool.Edge index target ∧ argument target = .error error := by
  rcases bind_eq_error_iff.mp h with hget | ⟨constant, hget, hconstant⟩
  · obtain ⟨hnone, hlookup⟩ := (pool.get_decides index).fault error hget
    exact .inl ⟨fun hwell => hnone (hwell.imp fun _ => And.left), hlookup⟩
  · rcases (resolveConstant_expands hget argument).fault error hconstant with
      ⟨hunsound, hlookup⟩ | ⟨target, hmem, htarget⟩
    · refine .inl ⟨?_, hlookup⟩
      intro hwell
      obtain ⟨found, hfound, hsound⟩ := hwell
      rw [hget] at hfound
      cases hfound
      exact hunsound hsound
    · exact .inr ⟨target, ⟨constant, hget, hmem⟩, htarget⟩

/-! ## Walks -/

variable {pool : Pool} {index : UInt16}

theorem walk_singleton (pool : Pool) (index : UInt16) : pool.Walk index [index] :=
  ⟨rfl, List.isChain_singleton _⟩

theorem Walk.cons {source target : UInt16} {visited : List UInt16} (h : pool.Walk target visited)
    (he : pool.Edge source target) : pool.Walk source (source :: visited) := by
  obtain ⟨hhead, hchain⟩ := h
  cases visited with
  | nil => cases hhead
  | cons first rest =>
      cases hhead
      exact ⟨rfl, List.isChain_cons_cons.mpr ⟨he, hchain⟩⟩

theorem not_bounded_zero (pool : Pool) (index : UInt16) : ¬pool.Bounded 0 index := by
  intro h
  have hle := h [index] (walk_singleton pool index)
  cases hle

/-- One more index may be visited than from each of the arguments. -/
theorem bounded_succ_iff {limit : Nat} :
    pool.Bounded (limit + 1) index ↔
      ∀ target, pool.Edge index target → pool.Bounded limit target := by
  constructor
  · intro h target he visited hw
    exact Nat.le_of_succ_le_succ (h (index :: visited) (hw.cons he))
  · intro h visited hw
    obtain ⟨hhead, hchain⟩ := hw
    match visited, hhead with
    | [_], rfl => exact Nat.succ_le_succ (Nat.zero_le limit)
    | _ :: target :: rest, rfl =>
        obtain ⟨he, hrest⟩ := List.isChain_cons_cons.mp hchain
        exact Nat.succ_le_succ (h target he (target :: rest) ⟨rfl, hrest⟩)

theorem Bounded.of_edge {limit : Nat} {target : UInt16} (h : pool.Bounded limit index)
    (he : pool.Edge index target) : ∃ smaller < limit, pool.Bounded smaller target := by
  cases limit with
  | zero => exact absurd h (not_bounded_zero pool index)
  | succ limit => exact ⟨limit, Nat.lt_succ_self limit, bounded_succ_iff.mp h target he⟩

theorem Bounded.of_path {limit : Nat} {target : UInt16} (h : pool.Bounded limit index)
    (hp : Relation.TransGen pool.Edge index target) :
    ∃ smaller < limit, pool.Bounded smaller target := by
  induction hp with
  | single he => exact h.of_edge he
  | tail _ he ih =>
      obtain ⟨middle, hmiddle, hbounded⟩ := ih
      obtain ⟨smaller, hsmaller, htarget⟩ := hbounded.of_edge he
      exact ⟨smaller, Nat.lt_trans hsmaller hmiddle, htarget⟩

/-- Going around a cycle, a walk grows beyond any limit. -/
theorem not_bounded_of_onCycle (h : pool.OnCycle index) (limit : Nat) :
    ¬pool.Bounded limit index := by
  induction limit using Nat.strongRecOn with
  | ind limit ih =>
      intro hbounded
      obtain ⟨smaller, hlt, hsmaller⟩ := hbounded.of_path h
      exact ih smaller hlt hsmaller

theorem not_onCycle_of_bounded {limit : Nat} {other : UInt16} (h : pool.Bounded limit index)
    (hr : pool.Reaches index other) : ¬pool.OnCycle other := by
  intro hcycle
  rcases Relation.reflTransGen_iff_eq_or_transGen.mp hr with rfl | hpath
  · exact not_bounded_of_onCycle hcycle limit h
  · obtain ⟨smaller, -, hsmaller⟩ := h.of_path hpath
    exact not_bounded_of_onCycle hcycle smaller hsmaller

/-! ## A whole resolution -/

/-- What is on the way is well formed, and the budget covers every walk. -/
theorem resolveWithin_ok {budget : Nat} {visiting : List UInt16} {text : String}
    (h : pool.resolveWithin budget visiting index = .ok text) :
    (∀ other, pool.Reaches index other → pool.WellFormed other) ∧ pool.Bounded budget index := by
  induction budget generalizing visiting index text with
  | zero =>
      unfold resolveWithin at h
      split at h <;> cases h
  | succ budget ih =>
      unfold resolveWithin at h
      split at h
      · cases h
      · obtain ⟨hwell, hall⟩ := resolveAt_ok h
        constructor
        · intro other hr
          rcases hr.cases_head with rfl | ⟨target, he, hrest⟩
          · exact hwell
          · obtain ⟨text, htext⟩ := hall target he
            exact (ih htext).1 other hrest
        · refine bounded_succ_iff.mpr fun target he => ?_
          obtain ⟨text, htext⟩ := hall target he
          exact (ih htext).2

/--
Why a resolution fails. The chain `visiting` is what it must not come back to, so a cycle either
closes there or is one of the graph below `index`.
-/
theorem resolveWithin_error {budget : Nat} {visiting : List UInt16} {error : Error}
    (h : pool.resolveWithin budget visiting index = .error error) :
    (error.OfLookup ∧ ∃ other, pool.Reaches index other ∧ ¬pool.WellFormed other) ∨
    (error = .tooDeep maxResolveDepth ∧ ¬pool.Bounded budget index) ∨
    ∃ other, error = .reference other .cyclic ∧ pool.Reaches index other ∧
      (other ∈ visiting ∨ pool.OnCycle other) := by
  induction budget generalizing visiting index with
  | zero =>
      unfold resolveWithin at h
      split at h <;> cases h
      · rename_i hmem
        exact .inr (.inr ⟨index, rfl, .refl, .inl (List.contains_iff_mem.mp hmem)⟩)
      · exact .inr (.inl ⟨rfl, not_bounded_zero pool index⟩)
  | succ budget ih =>
      unfold resolveWithin at h
      split at h
      · cases h
        rename_i hmem
        exact .inr (.inr ⟨index, rfl, .refl, .inl (List.contains_iff_mem.mp hmem)⟩)
      · rcases resolveAt_error h with ⟨hill, hlookup⟩ | ⟨target, he, htarget⟩
        · exact .inl ⟨hlookup, index, .refl, hill⟩
        · rcases ih htarget with ⟨hlookup, other, hr, hill⟩ | ⟨rfl, hlong⟩ | ⟨other, rfl, hr, hback⟩
          · exact .inl ⟨hlookup, other, hr.head he, hill⟩
          · exact .inr (.inl ⟨rfl, fun hbounded => hlong (bounded_succ_iff.mp hbounded target he)⟩)
          · refine .inr (.inr ⟨other, rfl, hr.head he, ?_⟩)
            rcases hback with hmem | hcycle
            · rcases List.mem_cons.mp hmem with rfl | hmem
              · exact .inr (.head' he hr)
              · exact .inl hmem
            · exact .inr hcycle

/--
A constant has a text exactly if all that it reaches is well formed and no walk from it visits more
than 64 constants, so that there is no cycle among them. Where only the second condition fails the
error says so, and a constant that is reported as cyclic lies on a cycle.
-/
theorem resolve_succeeds_iff (pool : Pool) (index : UInt16) :
    ((∃ text, pool.resolve index = .ok text) ↔
      (∀ other, pool.Reaches index other → pool.WellFormed other) ∧ pool.Bounded 64 index) ∧
    (∀ text other, pool.resolve index = .ok text → pool.Reaches index other →
      ¬pool.OnCycle other) ∧
    (∀ error, pool.resolve index = .error error →
      (∀ other, pool.Reaches index other → pool.WellFormed other) →
      error = .tooDeep 64 ∨ ∃ other, error = .reference other .cyclic) ∧
    (∀ other, pool.resolve index = .error (.reference other .cyclic) →
      pool.Reaches index other ∧ pool.OnCycle other) := by
  refine ⟨⟨?_, ?_⟩, ?_, ?_, ?_⟩
  · intro h
    rcases h with ⟨text, htext⟩
    exact resolveWithin_ok htext
  · intro h
    rcases h with ⟨hwell, hbounded⟩
    cases hr : pool.resolve index with
    | ok text => exact ⟨text, rfl⟩
    | error error =>
        rcases resolveWithin_error hr with
          ⟨-, other, hreach, hill⟩ | ⟨-, hlong⟩ | ⟨other, -, hreach, hmem | hcycle⟩
        · exact absurd (hwell other hreach) hill
        · exact absurd hbounded hlong
        · cases hmem
        · exact absurd hcycle (not_onCycle_of_bounded hbounded hreach)
  · intro text other h hreach
    exact not_onCycle_of_bounded (resolveWithin_ok h).2 hreach
  · intro error h hwell
    rcases resolveWithin_error h with ⟨-, other, hreach, hill⟩ | ⟨rfl, -⟩ | ⟨other, rfl, -⟩
    · exact absurd (hwell other hreach) hill
    · exact .inl rfl
    · exact .inr ⟨other, rfl⟩
  · intro other h
    rcases resolveWithin_error h with ⟨hlookup, -⟩ | ⟨hdeep, -⟩ | ⟨found, hsame, hreach, hback⟩
    · exact absurd rfl hlookup
    · cases hdeep
    · cases hsame
      exact ⟨hreach, hback.resolve_left nofun⟩

/-- The constant at 7 has itself as an argument; that at 9 has the one at 8 twice. -/
def nested : Pool where
  slots := #[none, some (.utf8 "Boot"), some (.classInfo 1), some (.utf8 "()V"),
    some (.nameAndType 1 3), some (.methodRef 2 4), some (.methodHandle .invokeStatic 5),
    some (.dynamic 0 4), some (.dynamic 1 4), some (.invokeDynamic 2 4)]
  bootstrap := [⟨6, [7]⟩, ⟨6, [3, 2]⟩, ⟨6, [8, 8]⟩]

theorem nested_wellFormed : ∀ other, nested.Reaches 7 other → nested.WellFormed other := by
  have hmember : nested.HoldsNameAndType 4 := ⟨1, 3, rfl, ⟨_, rfl⟩, ⟨_, rfl⟩⟩
  have hhandle : nested.HoldsHandle 6 :=
    ⟨.invokeStatic, 5, rfl, 2, 4, ⟨⟨1, rfl, _, rfl⟩, hmember⟩, .inl rfl⟩
  intro other hr
  have hself : other = 7 := by
    induction hr with
    | refl => rfl
    | tail _ he ih =>
        subst ih
        obtain ⟨_, hget, hmem⟩ := he
        cases hget
        exact List.mem_singleton.mp hmem
  subst hself
  exact ⟨.dynamic 0 4, rfl, hmember, _, rfl, hhandle⟩

theorem resolve_succeeds_iff_nested :
    (∃ text, nested.resolve 9 = .ok text) ∧ nested.Bounded 64 9 ∧ ¬nested.OnCycle 8 ∧
      nested.resolve 7 = .error (.reference 7 .cyclic) ∧ nested.OnCycle 7 := by
  obtain ⟨hiff, hacyclic, -⟩ := resolve_succeeds_iff nested 9
  obtain ⟨-, -, hfault, hcyclic⟩ := resolve_succeeds_iff nested 7
  obtain ⟨text, htext⟩ : ∃ text, nested.resolve 9 = .ok text := ⟨_, rfl⟩
  obtain ⟨error, herror⟩ : ∃ error, nested.resolve 7 = .error error := ⟨_, rfl⟩
  have hedge : nested.Edge 9 8 := ⟨.invokeDynamic 2 4, rfl, by decide⟩
  have hloop : nested.resolve 7 = .error (.reference 7 .cyclic) := by
    rcases hfault error herror nested_wellFormed with rfl | ⟨other, rfl⟩
    · cases herror
    · cases herror
      rfl
  exact ⟨⟨text, htext⟩, (hiff.mp ⟨text, htext⟩).2, hacyclic text 8 htext (.single hedge), hloop,
    (hcyclic 7 hloop).2⟩

end Pool

end ClassListing
