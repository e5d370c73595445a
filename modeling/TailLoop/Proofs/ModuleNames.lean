import Mathlib.Data.List.Nodup
import TailLoop.Proofs.BlockEnds
import TailLoop.Proofs.EmissionLoops
import TailLoop.Proofs.NameSupply

/-!
# Names at module scope

A script module declares the aliases of its imports, the names of its bindings, and a function for
each group of bindings that share a loop. The shared functions get names that nothing else has; all
other names are taken over from the unit as they are.

* `declared_group`: the names that the declarations of a top-level group declare.
* `declared_module`: the names that the declarations of a module declare.
* `nodup_declared_module`: they are distinct.
* `import_names_distinct`: when the names of imports meet no other name.
-/

namespace TailLoop.Lower

open Script Lowering

/-! ## Loops -/

/-- `entries` declares the names of its `members`. -/
theorem declared_entries (label : String) (i : Nat) (members : List Member) :
    Gives (entries label i members) fun decls => declared decls = members.map Member.ident := by
  induction members generalizing i with
  | nil => exact .pure rfl
  | cons m rest ih =>
    refine (Gives.any (copyNames m.params)).bind fun copies _ => ?_
    exact (ih (i + 1)).map fun others hothers => congrArg (m.ident :: ·) hothers

/-- `sharedLoop` declares `label` first and then the names of the `members`. -/
theorem declared_sharedLoop (members : List Member) (label : String) :
    Gives (sharedLoop members label) fun decls =>
      declared decls = label :: members.map Member.ident := by
  refine (Gives.any _).bind fun selector _ => (Gives.any _).bind fun slots _ => ?_
  refine (Gives.any _).bind fun body _ => ?_
  exact (declared_entries label 0 members).map fun rest hrest => congrArg (label :: ·) hrest

/-- `loopDeclarations` declares the `members` and, unless there is a single one, at most one more
name: `dispatcher`, or else one that is not taken. -/
theorem declared_loopDeclarations (members : List Member) (dispatcher : Option String)
    (p : Progress) :
    ∃ label? : Option String,
      declared (loopDeclarations members dispatcher p).1 =
        label?.toList ++ members.map Member.ident ∧
      ∀ label, label? = some label → members.length ≠ 1 ∧
        (dispatcher = some label ∨ dispatcher = none ∧ p.env.isTaken label = false) := by
  unfold loopDeclarations
  split
  · exact ⟨none, rfl, nofun⟩
  · rename_i hmany
    have hlen : members.length ≠ 1 := fun hone => by
      obtain ⟨m, rfl⟩ := List.length_eq_one_iff.1 hone
      exact hmany m rfl
    rw [groupLoop_eq]
    cases dispatcher with
    | some label =>
      refine ⟨some label, declared_sharedLoop _ _ _, ?_⟩
      rintro _ ⟨⟩
      exact ⟨hlen, .inl rfl⟩
    | none =>
      refine ⟨some _, declared_sharedLoop _ _ _, ?_⟩
      rintro _ ⟨⟩
      exact ⟨hlen, .inr ⟨rfl, p.env.isTaken_fresh_fst _⟩⟩

/-! ## Groups -/

variable {c : Context}

/-- Bindings that `binding` lowers one by one are declared under their names. -/
theorem declared_bindings (c : Context) (bindings : List (String × Analyzed)) :
    declared (Outcome.concat (bindings.map fun b => binding c b.1 b.2)).result =
      bindings.map Prod.fst := by
  let value (b : String × Analyzed) : Script.Expr := ((code c b.2).value ⟨.ofContext c, [], none⟩).1
  have hresult : (Outcome.concat (bindings.map fun b => binding c b.1 b.2)).result =
      bindings.map fun b => .const b.1 (value b) := by
    rw [Outcome.result_concat, List.flatMap_map, List.map_eq_flatMap]
    rfl
  rw [hresult]
  exact declared_map (fun _ => rfl) bindings

/-- `group` declares the bindings of `g` and, if `g` is a loop and has not a single one, at most one
more name: its `dispatcher?`, or else one that is not in `c.reserved`. -/
theorem declared_group (c : Context) (g : AnalyzedGroup) :
    ∃ label? : Option String,
      declared (group c g).result = label?.toList ++ g.bindings.map Prod.fst ∧
      ∀ label, label? = some label → g.isLoop = true ∧ g.bindings.length ≠ 1 ∧
        (groupDispatcher? c g.bindings = some label ∨
          groupDispatcher? c g.bindings = none ∧ label ∉ c.reserved) := by
  unfold group
  split
  · rename_i members hloop hmembers
    rw [topMembers?, bindingCodes_eq, loopMembers?_eq] at hmembers
    split at hmembers
    · obtain rfl := Option.some.inj hmembers
      obtain ⟨label?, hdeclared, hlabel⟩ := declared_loopDeclarations _
        (groupDispatcher? c g.bindings) ⟨.ofContext c, [], none⟩
      refine ⟨label?, hdeclared.trans (congrArg (label?.toList ++ ·) ?_), fun label h => ?_⟩
      · rw [List.map_map]
        exact (map_zip_zip (by simp) (by simp [topRefs])).1
      · obtain ⟨hlen, hname⟩ := hlabel label h
        refine ⟨(Bool.and_eq_true_iff.1 hloop).1, by simpa [topRefs] using hlen,
          hname.imp_right (And.imp_right fun hfree hmem => ?_)⟩
        rw [Env.isTaken_ofContext.2 hmem] at hfree
        cases hfree
    · cases hmembers
  · exact ⟨none, declared_bindings c g.bindings, fun _ h => by cases h⟩

/-! ## Contexts -/

/-- The names that `u` brings to module scope: bindings, foreign names and the aliases of
imports. -/
def scopeNames (u : CompilationUnit) : List String :=
  foreignAlias :: (u.imports.map moduleAlias ++ u.foreignNames ++ u.bindings.map Prod.fst)

/-- `c.reserved` contains `names`, and no `dispatcher?` of `c` is one of them. -/
structure Context.Keeps (names : List String) (c : Context) : Prop where
  /-- The names are taken. -/
  reserved : names ⊆ c.reserved
  /-- No shared function has one of them. -/
  dispatcher : ∀ first label, c.dispatcher? first = some label → label ∉ names

/-- `addGroup` names the shared function of a group of mutually recursive bindings by the first
candidate that `c.reserved` lacks, and does nothing for other groups. -/
theorem Context.addGroup_cases (c : Context) (g : BindingGroup) :
    (mutualMembers g = none ∧ c.addGroup g = c) ∨
      ∃ first members label, mutualMembers g = some (first, members) ∧
        IsFirstFree c.reserved ("$" ++ "_".intercalate members) label ∧
        c.addGroup g = { c with
          reserved := c.reserved ++ [label], dispatchers := c.dispatchers.insert first label } := by
  unfold Context.addGroup
  split
  · exact .inl ⟨by assumption, rfl⟩
  · rename_i first members hmembers
    exact .inr ⟨first, members, _, hmembers, isFirstFree_firstFree c.reserved _, rfl⟩

/-- `dispatcher?` after `label` was inserted for `first`. -/
theorem Context.dispatcher?_insert (c : Context) (names : List String) (first label x : String) :
    Context.dispatcher? { c with
        reserved := names, dispatchers := c.dispatchers.insert first label } x =
      if x = first then some label else c.dispatcher? x := by
  rw [dispatcher?, dispatcher?, Table.insert, Table.get?_alter]

/-- `addGroup` maintains `Keeps names`. -/
theorem Context.Keeps.addGroup {names : List String} (h : c.Keeps names) (g : BindingGroup) :
    (c.addGroup g).Keeps names := by
  obtain ⟨-, heq⟩ | ⟨first, members, label, -, hfirst, heq⟩ := c.addGroup_cases g
  · rw [heq]
    exact h
  · have hfree := hfirst.not_mem
    rw [heq]
    refine ⟨fun x hx => List.mem_append_left _ (h.reserved hx), fun first' label' hlabel => ?_⟩
    rw [dispatcher?_insert] at hlabel
    split at hlabel
    · obtain rfl := Option.some.inj hlabel
      exact fun hmem => hfree (h.reserved hmem)
    · exact h.dispatcher first' label' hlabel

/-- `ofUnit u` keeps `scopeNames u`. -/
theorem Context.keeps_ofUnit (u : CompilationUnit) (loops : Bool) :
    (ofUnit u loops).Keeps (scopeNames u) := by
  have hfold (gs : List BindingGroup) (c : Context) (h : c.Keeps (scopeNames u)) :
      (gs.foldl Context.addGroup c).Keeps (scopeNames u) := by
    induction gs generalizing c with
    | nil => exact h
    | cons g rest ih => exact ih _ (h.addGroup g)
  exact hfold u.groups _ ⟨List.Subset.refl _, fun first label hlabel => nomatch hlabel⟩

/-! ## Modules -/

/-- `module` declares what `group` declares for each analyzed group of `u`. -/
theorem declared_module_eq (u : CompilationUnit) (loops : Bool) :
    declared (Lower.module u loops).result.declarations =
      u.analyze.flatMap fun g => declared (group (.ofUnit u loops) g).result := by
  rw [declarations_module]
  exact List.filterMap_flatMap

/-- `module` declares all bindings of `u`, and none of its other declarations has a name of
`scopeNames u`. -/
theorem declared_module (u : CompilationUnit) (loops : Bool) :
    (∀ x ∈ u.bindings.map Prod.fst, x ∈ declared (Lower.module u loops).result.declarations) ∧
      ∀ x ∈ declared (Lower.module u loops).result.declarations,
        x ∈ u.bindings.map Prod.fst ∨ x ∉ scopeNames u := by
  have hkeeps := Context.keeps_ofUnit u loops
  have hbindings : u.bindings.map Prod.fst =
      u.analyze.flatMap fun g => g.bindings.map Prod.fst := by
    rw [CompilationUnit.analyze, List.flatMap_map, CompilationUnit.bindings, List.map_flatMap]
    simp only [BindingGroup.map_fst_analyze]
  rw [declared_module_eq, hbindings]
  simp only [List.mem_flatMap]
  constructor
  · rintro x ⟨g, hg, hx⟩
    obtain ⟨label?, heq, -⟩ := declared_group (.ofUnit u loops) g
    exact ⟨g, hg, heq ▸ List.mem_append_right _ hx⟩
  · rintro x ⟨g, hg, hx⟩
    obtain ⟨label?, heq, hlabel⟩ := declared_group (.ofUnit u loops) g
    rw [heq, List.mem_append, Option.mem_toList] at hx
    refine hx.symm.imp (fun hx => ⟨g, hg, hx⟩) fun hx => ?_
    rcases (hlabel x hx).2.2 with hdispatcher | ⟨-, hfree⟩
    · obtain ⟨b, -, hb⟩ := Option.bind_eq_some_iff.1 hdispatcher
      exact hkeeps.dispatcher b.1 x hb
    · exact fun hmem => hfree (hkeeps.reserved hmem)

/-! ## Distinct names -/

/-- `c` has a reserved `dispatcher?` for each group of `gs` with mutual recursion, and groups with
different first members have different ones. -/
structure Context.Assigns (gs : List BindingGroup) (c : Context) : Prop where
  /-- The names are reserved. -/
  reserved : ∀ {first label}, c.dispatcher? first = some label → label ∈ c.reserved
  /-- They differ. -/
  injective : ∀ {first first' label}, c.dispatcher? first = some label →
    c.dispatcher? first' = some label → first = first'
  /-- Every group of mutually recursive bindings has one. -/
  assigned : ∀ g ∈ gs, ∀ {first members}, mutualMembers g = some (first, members) →
    (c.dispatcher? first).isSome = true

/-- If `c` assigns names to `gs`, `c.addGroup g` assigns names to `gs ++ [g]`. -/
theorem Context.Assigns.addGroup {gs : List BindingGroup} (h : c.Assigns gs) (g : BindingGroup) :
    (c.addGroup g).Assigns (gs ++ [g]) := by
  obtain ⟨hnone, heq⟩ | ⟨first, members, label, hmembers, hfirst, heq⟩ := c.addGroup_cases g
  · rw [heq]
    refine ⟨h.reserved, h.injective, fun g' hg' first members hsome => ?_⟩
    rcases List.mem_append.1 hg' with hg' | hg'
    · exact h.assigned g' hg' hsome
    · obtain rfl := List.mem_singleton.1 hg'
      rw [hnone] at hsome
      cases hsome
  -- the new name was not in scope, so no other group has it
  · have hnew {x : String} (hx : c.dispatcher? x = some label) : False :=
      hfirst.not_mem (h.reserved hx)
    rw [heq]
    refine ⟨fun {x label'} hx => ?_, fun {x x' label'} hx hx' => ?_,
      fun g' hg' x members' hsome => ?_⟩
    · rw [dispatcher?_insert] at hx
      split at hx
      · obtain rfl := Option.some.inj hx
        exact List.mem_append_right _ (List.mem_singleton.2 rfl)
      · exact List.mem_append_left _ (h.reserved hx)
    · rw [dispatcher?_insert] at hx hx'
      split at hx <;> split at hx'
      · subst x x'
        rfl
      · exact (hnew (hx'.trans hx.symm)).elim
      · exact (hnew (hx.trans hx'.symm)).elim
      · exact h.injective hx hx'
    · rw [dispatcher?_insert]
      split
      · rfl
      · rename_i hne
        rcases List.mem_append.1 hg' with hg' | hg'
        · exact h.assigned g' hg' hsome
        · obtain rfl := List.mem_singleton.1 hg'
          rw [hmembers] at hsome
          exact (hne (Prod.mk.inj (Option.some.inj hsome)).1.symm).elim

/-- `ofUnit u` assigns names to all of `u.groups`. -/
theorem Context.assigns_ofUnit (u : CompilationUnit) (loops : Bool) :
    (ofUnit u loops).Assigns u.groups := by
  have hfold (gs done : List BindingGroup) (c : Context) (h : c.Assigns done) :
      (gs.foldl Context.addGroup c).Assigns (done ++ gs) := by
    induction gs generalizing done c with
    | nil => rwa [List.append_nil]
    | cons g rest ih => simpa using ih _ _ (h.addGroup g)
  exact hfold u.groups [] _ ⟨nofun, nofun, nofun⟩

/-- If `g` is a loop and has not a single binding, `mutualMembers g` is its members. -/
theorem exists_mutualMembers {m : String} {g : BindingGroup} (hloop : (g.analyze m).isLoop = true)
    (hlen : g.bindings.length ≠ 1) :
    ∃ b rest members, g.bindings = b :: rest ∧ Context.mutualMembers g = some (b.1, members) := by
  obtain ⟨recursive, bindings⟩ := g
  cases recursive with
  | false => cases hloop
  | true =>
    match bindings, hlen with
    | [], _ => cases hloop
    | b :: b' :: rest, _ => exact ⟨b, b' :: rest, _, rfl, rfl⟩

/-- `group` declares the bindings of a `g` of `u` and at most the `dispatcher?` that is reserved for
it. -/
theorem declared_unitGroup {u : CompilationUnit} (loops : Bool) {g : BindingGroup}
    (hg : g ∈ u.groups) :
    ∃ label? : Option String,
      declared (group (.ofUnit u loops) (g.analyze u.name)).result =
        label?.toList ++ g.bindings.map Prod.fst ∧
      ∀ label, label? = some label →
        ∃ first ∈ g.bindings.map Prod.fst,
          (Context.ofUnit u loops).dispatcher? first = some label := by
  have hnames := g.map_fst_analyze u.name
  obtain ⟨label?, hdeclared, hlabel⟩ := declared_group (.ofUnit u loops) (g.analyze u.name)
  refine ⟨label?, hnames ▸ hdeclared, fun label hsome => ?_⟩
  obtain ⟨hloop, hlen, hname⟩ := hlabel label hsome
  obtain ⟨b, rest, members, hbindings, hmembers⟩ := exists_mutualMembers hloop
    (by simpa [BindingGroup.analyze] using hlen)
  have hfirst : groupDispatcher? (.ofUnit u loops) (g.analyze u.name).bindings =
      (Context.ofUnit u loops).dispatcher? b.1 := by
    rw [groupDispatcher?_eq, hnames, hbindings]
    rfl
  have hassigned := (Context.assigns_ofUnit u loops).assigned g hg hmembers
  rw [hfirst] at hname
  refine ⟨b.1, hbindings ▸ List.mem_cons_self .., hname.resolve_right fun hnone => ?_⟩
  rw [hnone.1] at hassigned
  cases hassigned

/-- `module` declares no name twice if the bindings of `u` have different names. -/
theorem nodup_declared_module (u : CompilationUnit) (loops : Bool)
    (h : (u.bindings.map Prod.fst).Nodup) :
    (declared (Lower.module u loops).result.declarations).Nodup := by
  have hkeeps := Context.keeps_ofUnit u loops
  have hassigns := Context.assigns_ofUnit u loops
  have hscope {g : BindingGroup} (hg : g ∈ u.groups) {x : String}
    (hx : x ∈ g.bindings.map Prod.fst) :
      x ∈ scopeNames u := by
    obtain ⟨b, hb, rfl⟩ := List.mem_map.1 hx
    exact List.mem_cons_of_mem _ (List.mem_append_right _
      (List.mem_map_of_mem (List.mem_flatMap.2 ⟨g, hg, hb⟩)))
  rw [CompilationUnit.bindings, List.map_flatMap, List.nodup_flatMap] at h
  rw [declared_module_eq, CompilationUnit.analyze, List.flatMap_map, List.nodup_flatMap]
  refine ⟨fun g hg => ?_, h.2.imp_of_mem fun {g g'} hg hg' hdisjoint => ?_⟩
  · obtain ⟨label?, hdeclared, hlabel⟩ := declared_unitGroup loops hg
    rw [hdeclared]
    refine List.nodup_append.2 ⟨by cases label? <;> simp, h.1 g hg, fun x hx y hy heq => ?_⟩
    obtain ⟨first, -, hfirst⟩ := hlabel x (Option.mem_toList.1 hx)
    exact hkeeps.dispatcher first x hfirst (hscope hg (heq ▸ hy))
  · obtain ⟨label?, hdeclared, hlabel⟩ := declared_unitGroup loops hg
    obtain ⟨label'?, hdeclared', hlabel'⟩ := declared_unitGroup loops hg'
    rw [Function.onFun, hdeclared, hdeclared']
    intro x hx hx'
    -- names of two groups: each is that of a shared function or that of a member
    rcases List.mem_append.1 hx with hx | hx <;> rcases List.mem_append.1 hx' with hx' | hx'
    · obtain ⟨first, hmem, hfirst⟩ := hlabel x (Option.mem_toList.1 hx)
      obtain ⟨first', hmem', hfirst'⟩ := hlabel' x (Option.mem_toList.1 hx')
      exact hdisjoint hmem (hassigns.injective hfirst hfirst' ▸ hmem')
    · obtain ⟨first, -, hfirst⟩ := hlabel x (Option.mem_toList.1 hx)
      exact hkeeps.dispatcher first x hfirst (hscope hg' hx')
    · obtain ⟨first, -, hfirst⟩ := hlabel' x (Option.mem_toList.1 hx')
      exact hkeeps.dispatcher first x hfirst (hscope hg hx)
    · exact hdisjoint hx hx'

/-! ## Imports -/

/-- Names `m` and `n` without a dollar sign are equal if their `moduleAlias` is. -/
theorem moduleAlias_injective {m n : String} (hm : '$' ∉ m.toList) (hn : '$' ∉ n.toList)
    (h : moduleAlias m = moduleAlias n) : m = n := by
  have hchars := String.ofList_injective h
  refine String.toList_inj.1 ?_
  generalize m.toList = cs at *
  generalize n.toList = ds at *
  induction cs generalizing ds with
  | nil =>
    cases ds with
    | nil => rfl
    | cons d ds =>
      rw [List.flatMap_nil, List.flatMap_cons] at hchars
      split at hchars <;> cases hchars
  | cons c cs ih =>
    cases ds with
    | nil =>
      rw [List.flatMap_nil, List.flatMap_cons] at hchars
      split at hchars <;> cases hchars
    | cons d ds =>
      simp only [List.mem_cons, not_or] at hm hn
      simp only [List.flatMap_cons] at hchars
      have htail := ih hm.2 ds hn.2
      by_cases hc : c = '.' <;> by_cases hd : d = '.' <;> simp only [hc, hd, if_true, if_false,
        List.cons_append, List.nil_append, List.cons.injEq] at hchars
      -- aliases differ in the first place at which the names do, as a dollar sign comes from a dot
      -- only
      · rw [hc, hd, htail hchars.2.2]
      · exact absurd hchars.1 hn.1
      · exact absurd hchars.1.symm hm.1
      · rw [hchars.1, htail hchars.2]

/-- `foreignAlias`, under which the foreign module is imported, is no `moduleAlias` of a name
without a dollar sign. -/
theorem moduleAlias_ne_foreignAlias {m : String} (hm : '$' ∉ m.toList) :
    moduleAlias m ≠ foreignAlias := by
  intro h
  have hchars : m.toList.flatMap (fun c => if c = '.' then ['$', 'd'] else [c]) =
      foreignAlias.toList := by
    rw [← h, moduleAlias, String.toList_ofList]
  cases hcs : m.toList with
  | nil =>
    rw [hcs] at hchars
    cases hchars
  | cons c cs =>
    rw [hcs, List.mem_cons, not_or] at hm
    rw [hcs, List.flatMap_cons] at hchars
    split at hchars
    · cases hchars
    · exact hm.1 (List.cons.inj hchars).1.symm

/-- Names at module scope do not collide, if the imported modules differ and have no dollar sign in
their names, and no binding has the name of an import. Shared functions never collide with them. -/
theorem import_names_distinct (u : CompilationUnit) (loops : Bool) (himports : u.imports.Nodup)
    (hdollar : ∀ m ∈ u.imports, '$' ∉ m.toList)
    (hbindings : ∀ x ∈ (importList u).map Import.name, x ∉ u.bindings.map Prod.fst) :
    let m := (Lower.module u loops).result
    (m.imports.map Import.name).Nodup ∧
      ∀ x ∈ m.imports.map Import.name, x ∉ declared m.declarations := by
  have hnames : (importList u).map Import.name =
      u.imports.map moduleAlias ++ if u.foreignNames.isEmpty then [] else [foreignAlias] := by
    rw [importList, List.map_append, List.map_map]
    split <;> rfl
  refine ⟨?_, fun x hx hdeclared => ?_⟩
  · have haliases : (u.imports.map moduleAlias).Nodup := by
      refine List.pairwise_map.2 (himports.imp_of_mem fun {m n} hm hn hne h => hne ?_)
      exact moduleAlias_injective (hdollar m hm) (hdollar n hn) h
    show ((importList u).map Import.name).Nodup
    rw [hnames]
    split
    · rwa [List.append_nil]
    · refine List.nodup_append.2 ⟨haliases, List.pairwise_singleton .., fun x hx y hy heq => ?_⟩
      obtain ⟨m, hm, rfl⟩ := List.mem_map.1 hx
      exact moduleAlias_ne_foreignAlias (hdollar m hm) (heq.trans (List.mem_singleton.1 hy))
  · have hscope : x ∈ scopeNames u := by
      have hx' : x ∈ (importList u).map Import.name := hx
      rw [hnames, List.mem_append] at hx'
      rcases hx' with halias | hforeign
      · exact List.mem_cons_of_mem _ (List.mem_append_left _ (List.mem_append_left _ halias))
      · split at hforeign
        · cases hforeign
        · exact List.mem_singleton.1 hforeign ▸ List.mem_cons_self ..
    -- what is declared is a binding or was chosen apart from all names at module scope
    rcases (declared_module u loops).2 x hdeclared with hbinding | hfree
    · exact hbindings x hx hbinding
    · exact hfree hscope

/-- A unit that imports the module `Maybe` and declares a constructor `Maybe`. -/
def maybeUnit : CompilationUnit :=
  { CompilationUnit.empty "Main" with
    imports := ["Maybe"]
    groups := [⟨false, [("Maybe", .constructor () "Maybe" [])]⟩] }

/-- The imports of `maybeUnit` are distinct, and so are its bindings, and yet its module declares
`Maybe` twice. -/
theorem names_collide_maybeUnit :
    maybeUnit.imports.Nodup ∧ (maybeUnit.bindings.map Prod.fst).Nodup ∧
      (Lower.module maybeUnit true).result.names = ["Maybe", "Maybe"] := by decide

end TailLoop.Lower
