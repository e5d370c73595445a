import TailLoop.Proofs.LoopIndependence

/-!
# Loops of lowered units

The analysis and the lowering of a unit agree on its loops: lowering never meets a call that leaves
a loop or has the wrong number of arguments, each group that the analysis flags becomes a loop with
one jump for every reference to its members, and no reference to a member is left in it.

* `lower_loops`: the statement for whole units.
-/

namespace TailLoop

open Term

/-- The sizes of the loops of `g`: its own, if it is flagged as a loop, and those in its
bindings. -/
def AnalyzedGroup.loopSizes (m : String) (g : AnalyzedGroup) : List Nat :=
  (if g.isLoop then [groupMentions (some m) (topRefs m g.bindings) (g.bindings.map Prod.snd)]
    else []) ++ (g.bindings.map Prod.snd).flatMap (Term.loopSizes (some m))

/-- All groups of `u` bind every binder once on a way from the root of a binding to a leaf. -/
def CompilationUnit.BindsOnce (u : CompilationUnit) : Prop :=
  ∀ b ∈ u.bindings, b.2.bindsOnce [] = true

namespace Lower

open Script Lowering

/-! ## Contexts -/

/-- `addGroup` changes neither name nor mode nor foreign names. -/
theorem Context.addGroup_fields (c : Context) (g : BindingGroup) :
    (c.addGroup g).name = c.name ∧ (c.addGroup g).loops = c.loops ∧
      (c.addGroup g).foreignNames = c.foreignNames := by
  unfold addGroup
  split <;> exact ⟨rfl, rfl, rfl⟩

/-- `ofUnit` has the name and the foreign names of `u`. -/
theorem Context.ofUnit_fields (u : CompilationUnit) (loops : Bool) :
    (ofUnit u loops).name = u.name ∧ (ofUnit u loops).loops = loops ∧
      (ofUnit u loops).foreignNames = u.foreignNames := by
  have hfold (gs : List BindingGroup) (c : Context) : (gs.foldl addGroup c).name = c.name ∧
      (gs.foldl addGroup c).loops = c.loops ∧
        (gs.foldl addGroup c).foreignNames = c.foreignNames := by
    induction gs generalizing c with
    | nil => exact ⟨rfl, rfl, rfl⟩
    | cons g rest ih =>
      obtain ⟨hname, hloops, hforeign⟩ := addGroup_fields c g
      obtain ⟨hname', hloops', hforeign'⟩ := ih (c.addGroup g)
      exact ⟨hname'.trans hname, hloops'.trans hloops, hforeign'.trans hforeign⟩
  exact hfold u.groups _

/-! ## Outcomes -/

/-- The outcome `o` met no clash, reports no call that leaves a loop, and has loops with the jump
counts `ns`. -/
structure Outcome.Calm (o : Outcome (List Stmt)) (ns : List Nat) : Prop where
  /-- No clash was met. -/
  clash : o.clash = none
  /-- No call was reported to leave a loop. -/
  reports : ∀ rep ∈ o.reports, ¬IsLeaving rep
  /-- Every loop has its jumps. -/
  jumps : jumpCounts o.result = ns

/-- `m` has a calm outcome if it starts without loops and reports. -/
theorem calm_runIn {m : Lowering (List Stmt)} {ns : List Nat} {env : Env} (henv : env.scopes = [])
    (h : CalmStep [] m fun b => jumpCounts b = ns) : (m.runIn env).Calm ns := by
  obtain ⟨hcalm, hjumps⟩ := h ⟨env, [], none⟩ henv
  refine ⟨hcalm.clash, ?_, hjumps⟩
  intro rep hrep
  rcases hcalm.reports rep (List.mem_reverse.1 hrep) with h | h
  · cases h
  · exact h

/-- Calm outcomes after each other. -/
theorem calm_concat {ι : Type} {xs : List ι} {f : ι → Outcome (List Stmt)} {g : ι → List Nat}
    (h : ∀ x ∈ xs, (f x).Calm (g x)) : (Outcome.concat (xs.map f)).Calm (xs.flatMap g) := by
  induction xs with
  | nil => exact ⟨rfl, by nofun, rfl⟩
  | cons x rest ih =>
    have hx := h x (List.mem_cons_self ..)
    have hrest := ih fun y hy => h y (List.mem_cons_of_mem _ hy)
    refine ⟨?_, ?_, ?_⟩
    · have hclash : (Outcome.concat ((x :: rest).map f)).clash =
          (f x).clash.or (Outcome.concat (rest.map f)).clash := rfl
      rw [hclash, hx.clash, hrest.clash]
      rfl
    · intro rep hrep
      rcases List.mem_append.1 hrep with hrep | hrep
      · exact hx.reports rep hrep
      · exact hrest.reports rep hrep
    · have hresult : (Outcome.concat ((x :: rest).map f)).result =
          (f x).result ++ (Outcome.concat (rest.map f)).result := rfl
      rw [hresult, jumpCounts_eq, List.flatMap_append, ← jumpCounts_eq, ← jumpCounts_eq, hx.jumps,
        hrest.jumps, List.flatMap_cons]

/-! ## Reports of the analysis -/

/-- The reports on a decision come from the analysis. -/
theorem stage_verdictReports {members : List Ref} {v : Verdict} {rep : Report}
    (h : rep ∈ v.reports members) : rep.stage = .analysis := by
  cases v with
  | noMembers => cases h
  | _ =>
    obtain rfl := List.mem_singleton.1 h
    rfl

/-- A report on `ts` is on one of them. -/
theorem mem_reportsList {ts : List Analyzed} {rep : Report} (h : rep ∈ reportsList ts) :
    ∃ s ∈ ts, rep ∈ s.reports := by
  induction ts with
  | nil => cases h
  | cons t rest ih =>
    rcases List.mem_append.1 h with h | h
    · exact ⟨t, List.mem_cons_self .., h⟩
    · obtain ⟨s, hs, h⟩ := ih h
      exact ⟨s, List.mem_cons_of_mem _ hs, h⟩

/-- A report on `fields` is on one of them. -/
theorem mem_reportsFields {fields : List (String × Analyzed)} {rep : Report}
    (h : rep ∈ reportsFields fields) : ∃ s ∈ fields.map Prod.snd, rep ∈ s.reports := by
  induction fields with
  | nil => cases h
  | cons f rest ih =>
    rcases List.mem_append.1 h with h | h
    · exact ⟨f.2, List.mem_cons_self .., h⟩
    · obtain ⟨s, hs, h⟩ := ih h
      exact ⟨s, List.mem_cons_of_mem _ hs, h⟩

/-- A report on `arms` is on one of their parts. -/
theorem mem_reportsArms {arms : List (Analyzed × Analyzed)} {rep : Report}
    (h : rep ∈ reportsArms arms) :
    ∃ s ∈ arms.flatMap fun arm => [arm.1, arm.2], rep ∈ s.reports := by
  induction arms with
  | nil => cases h
  | cons arm rest ih =>
    rcases List.mem_append.1 h with h | h
    · exact ⟨arm.1, by simp, h⟩
    · rcases List.mem_append.1 h with h | h
      · exact ⟨arm.2, by simp, h⟩
      · obtain ⟨s, hs, h⟩ := ih h
        exact ⟨s, List.mem_append_right _ hs, h⟩

/-- A report on `t` is on a child, or else it comes from the analysis of the node. -/
theorem mem_reports {t : Analyzed} {rep : Report} (h : rep ∈ t.reports) :
    (∃ s ∈ t.children, rep ∈ s.reports) ∨ rep.stage = .analysis := by
  cases t with
  | array _ items => exact .inl (mem_reportsList h)
  | record _ fields | construct _ _ _ fields => exact .inl (mem_reportsFields h)
  | app _ _ head args =>
    rcases List.mem_append.1 h with h | h
    · exact .inl ⟨head, List.mem_cons_self .., h⟩
    · obtain ⟨s, hs, h⟩ := mem_reportsList h
      exact .inl ⟨s, List.mem_cons_of_mem _ hs, h⟩
  | update _ subject fields =>
    rcases List.mem_append.1 h with h | h
    · exact .inl ⟨subject, List.mem_cons_self .., h⟩
    · obtain ⟨s, hs, h⟩ := mem_reportsFields h
      exact .inl ⟨s, List.mem_cons_of_mem _ hs, h⟩
  -- besides those of the children, only joining the summaries of a binding and the decision on a
  -- group report anything
  | letIn _ b value body =>
    rcases List.mem_append.1 h with h | h
    · exact .inl ⟨value, by simp [children], h⟩
    · rcases List.mem_append.1 h with h | h
      · exact .inl ⟨body, by simp [children], h⟩
      · rw [joinReports] at h
        split at h
        · obtain rfl := List.mem_singleton.1 h
          exact .inr rfl
        · cases h
  | letRec _ level bindings body =>
    rcases List.mem_append.1 h with h | h
    · obtain ⟨s, hs, h⟩ := mem_reportsFields h
      exact .inl ⟨s, List.mem_append_left _ hs, h⟩
    · rcases List.mem_append.1 h with h | h
      · exact .inl ⟨body, by simp [children], h⟩
      · exact .inr (stage_verdictReports h)
  | bindEffect _ _ left right | binary _ _ left right =>
    rcases List.mem_append.1 h with h | h
    · exact .inl ⟨left, by simp [children], h⟩
    · exact .inl ⟨right, by simp [children], h⟩
  | branch _ arms default =>
    rcases List.mem_append.1 h with h | h
    · obtain ⟨s, hs, h⟩ := mem_reportsArms h
      exact .inl ⟨s, List.mem_append_left _ hs, h⟩
    · exact .inl ⟨default, by simp [children], h⟩
  | abs _ _ _ s | access _ s _ | pureEffect _ s | deferEffect _ s | test _ s _ | unary _ _ s =>
    exact .inl ⟨s, List.mem_singleton.2 rfl, h⟩
  | _ => cases h

/-- By induction on `t`: its reports come from the analysis. -/
theorem stage_reports {t : Analyzed} {rep : Report} (h : rep ∈ t.reports) :
    rep.stage = .analysis := by
  induction t using children_induction with
  | step t ih =>
  rcases mem_reports h with ⟨s, hs, h⟩ | h
  · exact ih s hs h
  · exact h

/-- The reports on the group `g` come from the analysis. -/
theorem stage_groupReports {m : String} {g : AnalyzedGroup} {rep : Report} (h : rep ∈ g.reports m) :
    rep.stage = .analysis := by
  rcases List.mem_append.1 h with h | h
  · obtain ⟨s, -, h⟩ := mem_reportsFields h
    exact stage_reports h
  · exact stage_verdictReports h

/-! ## Groups -/

/-- If the bindings of `g` bind every binder once, all flagged groups in them are called in the way
of a loop. -/
theorem flagged_group {m : String} {g : BindingGroup}
    (h : ∀ b ∈ g.bindings, b.2.bindsOnce [] = true) {t : Analyzed}
    (ht : t ∈ (g.analyze m).bindings.map Prod.snd) : t.Flagged (some m) := by
  obtain ⟨b, hb, rfl⟩ := BindingGroup.exists_of_mem_analyze ht
  exact flagged_analyze _ b.2 (h b hb)

/-- An analysed top-level group has the members of `g`. -/
theorem topRefs_analyze {m : String} {g : BindingGroup} :
    topRefs m (g.analyze m).bindings = topRefs m g.bindings := by
  simp [topRefs, BindingGroup.analyze]

/-- The name reserved for the shared function of a group is known by its first member. -/
theorem groupDispatcher?_eq (c : Context) (bindings : List (String × Analyzed)) :
    groupDispatcher? c bindings = (bindings.map Prod.fst).head?.bind c.dispatcher? := by
  rw [groupDispatcher?, List.head?_map, Option.bind_map]
  rfl

/-- If the top-level group `g` is flagged as a loop, it is called in the way of a loop. -/
theorem loopsFully_group {m : String} {g : BindingGroup} (h : (g.analyze m).isLoop = true) :
    LoopsFully (some m) (topRefs m g.bindings) ((g.analyze m).bindings.map Prod.snd) := by
  simp only [BindingGroup.analyze, AnalyzedGroup.isLoop] at h ⊢
  cases hrec : g.recursive with
  | false =>
    rw [hrec] at h
    cases h
  | true =>
    simp only [hrec, if_true] at h ⊢
    refine loopsFully_of_isLoop (by simp [topRefs]) (fun r hr => ?_) h
    refine countsSites_bodies hr fun b _ => ?_
    obtain ⟨x, -, rfl⟩ := List.mem_map.1 hr
    exact not_rebinds_global _ _

/-- The lowering of a top-level group `g` is calm, and its loops have their jumps. -/
theorem calm_group {c : Context} (hc : c.loops = true) {g : BindingGroup}
    (h : ∀ b ∈ g.bindings, b.2.bindsOnce [] = true) :
    (group c (g.analyze c.name)).Calm ((g.analyze c.name).loopSizes c.name) := by
  have hlowered (t : Analyzed) (ht : t ∈ (g.analyze c.name).bindings.map Prod.snd) : Lowered c t :=
    lowered_code hc t (flagged_group h ht)
  rw [group, hc, Bool.and_true, topMembers?, bindingCodes_eq]
  cases hloop : (g.analyze c.name).isLoop with
  | true =>
    have hfully := loopsFully_group hloop
    rw [loopMembers?_of_functions hfully.functions, topRefs_analyze]
    refine calm_runIn rfl ((calmStep_loopDeclarations_memberOf _ ?_ ?_ hfully hlowered ?_).mono ?_)
    · rw [List.length_map, List.length_map]
    · simp [topRefs, BindingGroup.analyze]
    · exact fun t _ s hs => absurd hs List.not_mem_nil
    · intro b hb
      rw [hb.1, AnalyzedGroup.loopSizes, hloop, topRefs_analyze]
      rfl
  | false =>
    have hbinding (b : String × Analyzed) (hb : b ∈ (g.analyze c.name).bindings) :
        (binding c b.1 b.2).Calm (b.2.loopSizes (some c.name)) := by
      have hemits := (hlowered b.2 (List.mem_map.2 ⟨b, hb, rfl⟩)).emits [] fun s hs =>
        absurd hs List.not_mem_nil
      exact calm_runIn rfl (hemits.value.map fun e he => by simpa using he)
    have hall := calm_concat hbinding
    rw [AnalyzedGroup.loopSizes, hloop, List.flatMap_map]
    exact hall

/-- The lowering of `u` is calm, and its loops have their jumps. -/
theorem calm_unit {u : CompilationUnit} (h : u.BindsOnce) :
    (Outcome.concat (u.analyze.map (group (.ofUnit u true)))).Calm
      (u.analyze.flatMap (AnalyzedGroup.loopSizes u.name)) := by
  obtain ⟨hname, hloops, -⟩ := Context.ofUnit_fields u true
  refine calm_concat fun g' hg' => ?_
  obtain ⟨g, hg, rfl⟩ := List.mem_map.1 hg'
  rw [← hname]
  exact calm_group hloops fun b hb => h b (List.mem_flatMap.2 ⟨g, hg, hb⟩)

/-! ## Lowering without loops -/

section

variable {c : Context}

/-- The values of terms that are lowered to scripts without loops. -/
theorem calmStep_values_nil {S : List LoopScope} {ts : List Analyzed}
    (h : ∀ t ∈ ts, (code c t).Emits S []) :
    CalmStep S (all (ts.map fun t => (code c t).value)) fun es =>
      es.flatMap Expr.jumpCounts = [] := by
  refine (calmStep_all (f := Expr.jumpCounts) (g := fun _ => []) fun t ht =>
    (h t ht).value).mono fun es hes => ?_
  rw [hes.2]
  simp

/-- The fields of terms that are lowered to scripts without loops. -/
theorem calmStep_fields_nil {S : List LoopScope} {fields : List (String × Analyzed)}
    (h : ∀ f ∈ fields, (code c f.2).Emits S []) :
    CalmStep S (all (fieldCodes c fields)) fun fs => fs.flatMap Field.jumpCounts = [] := by
  rw [fieldCodes_eq_map]
  refine (calmStep_all (f := Field.jumpCounts) (g := fun _ => []) fun f hf => ?_).mono
    fun fs hfs => ?_
  · exact (h f hf).value.map fun e he => by simpa using he
  · rw [hfs.2]
    simp

/-- `recursiveDeclarations` of bindings that are lowered to scripts without loops. -/
theorem calmStep_plainDeclarations {S : List LoopScope} (functions : Bool) (idents : List String)
    {ts : List Analyzed} (h : ∀ t ∈ ts, (code c t).Emits S []) :
    CalmStep S (recursiveDeclarations functions (idents.zip (ts.map (code c)))) fun b =>
      jumpCounts b = [] ∧ jumpsIn b = 0 := by
  have hzip : idents.zip (ts.map (code c)) = (idents.zip ts).map fun b => (b.1, code c b.2) :=
    List.zip_map_right ..
  rw [hzip]
  refine (calmStep_recursiveDeclarations functions (g := fun _ => []) (idents.zip ts)
    fun b hb => h b.2 (List.of_mem_zip hb).2).mono fun b hb => ⟨hb.1.trans ?_, hb.2⟩
  simp

/-- If `c` has no loops, `code c t` writes none, and no call becomes a jump. -/
theorem emits_code_nil (hc : c.loops = false) (t : Analyzed) : (code c t).Emits [] [] := by
  induction t using children_induction with
  | step t ih =>
  cases t with
  | global a q =>
    refine emits_ofValue (.pure ?_)
    rw [globalExpr]
    split
    · rfl
    · split <;> rfl
  | bound a b => exact emits_ofValue ((calmStep_nameOf b).map fun _ _ => rfl)
  | lit a value => exact emits_ofValue (.pure (by cases value <;> rfl))
  | constructor a tag fields =>
    refine emits_ofValue ((calmStep_freshNames fields).map fun names _ => ?_)
    rw [constructorExpr]
    split <;> simp [tagField, List.flatMap_map]
  | undefined a => exact emits_ofReturn (.pure rfl) (.pure ⟨rfl, rfl⟩)
  | fail a message => exact emits_ofBlock fun _ => .pure ⟨rfl, rfl⟩
  | array a items =>
    rw [code, valueCodes_eq_map]
    refine emits_ofValue ((calmStep_values_nil ih).map fun es hes => ?_)
    rw [Expr.jumpCounts_array, hes]
  | record a fields =>
    refine emits_ofObject ((calmStep_fields_nil fun f hf => ih f.2 (List.mem_map_of_mem hf)).map
      fun fs hfs => ?_)
    rw [Expr.jumpCounts_object, hfs]
  | construct a type tag fields =>
    refine emits_ofObject ((calmStep_fields_nil fun f hf => ih f.2 (List.mem_map_of_mem hf)).map
      fun fs hfs => ?_)
    rw [Expr.jumpCounts_object, List.flatMap_cons, hfs]
    rfl
  | update a subject fields =>
    refine emits_ofObject ((ih subject (List.mem_cons_self ..)).value.bind fun e he => ?_)
    refine (calmStep_fields_nil fun f hf => ih f.2
      (List.mem_cons_of_mem _ (List.mem_map_of_mem hf))).map fun fs hfs => ?_
    rw [Expr.jumpCounts_object, List.flatMap_cons, hfs, Field.jumpCounts_spread, he]
    rfl
  -- the sizes of a call are those of head and arguments together, of which there are none
  | app a calling head args =>
    have hhead := (ih head (List.mem_cons_self ..)).value
    have hargs (u : Analyzed) (hu : u ∈ args) : CalmStep [] (code c u).value fun e =>
        e.jumpCounts = (fun _ => []) u := (ih u (List.mem_cons_of_mem _ hu)).value
    have hnil : [] ++ args.flatMap (fun _ => []) = ([] : List Nat) := by simp
    cases calling with
    | curried =>
      rw [code, valueCodes_eq_map, ← hnil]
      exact emits_appCode (fun _ _ _ hs => absurd hs List.not_mem_nil) hhead hargs
    | uncurried =>
      rw [code, valueCodes_eq_map, ← hnil]
      exact emits_ofValue (calmStep_callAll hhead hargs)
    | effectful =>
      rw [code, valueCodes_eq_map, ← hnil]
      exact emits_effectAppCode hhead hargs
  | abs a calling params body =>
    have hbody := ih body (List.mem_singleton.2 rfl)
    cases calling with
    | curried => exact emits_curriedCode hbody
    | uncurried => exact emits_arrowCode (hbody.block .plain)
    | effectful => exact emits_arrowCode (hbody.block .effectful)
  | letIn a b value body =>
    exact emits_letCode (ih value (by simp [children])) (ih body (by simp [children]))
  | letRec a level bindings body =>
    -- no group is written as a loop
    rw [code, bindingCodes_eq, hc, Bool.and_false]
    refine emits_ofBlock fun mode => ?_
    refine CalmStep.bind ((calmStep_bindNames _).bind fun idents _ =>
      calmStep_plainDeclarations _ idents fun t ht => ih t (List.mem_append_left _ ht))
      fun declarations hdeclarations => ?_
    refine ((ih body (by simp [children])).block mode).map fun rest hrest => ?_
    simp only [jumpCounts_eq, jumpsIn_eq] at hdeclarations hrest
    simp [hdeclarations, hrest]
  | branch a arms default =>
    have harm {arm : Analyzed × Analyzed} (harm : arm ∈ arms) {u : Analyzed}
        (hu : u ∈ [arm.1, arm.2]) : (code c u).Emits [] ((fun _ => []) arm) :=
      ih u (List.mem_append_left _ (List.mem_flatMap.2 ⟨arm, harm, hu⟩))
    have hnil : arms.flatMap (fun _ => [] ++ []) ++ [] = ([] : List Nat) := by simp
    rw [code, armCodes_eq_map, ← hnil]
    exact emits_branchCode (fun arm h => harm h (.head _))
      (fun arm h => harm h (.tail _ (.head _))) (ih default (by simp [children]))
  | access a subject accessor =>
    refine emits_ofValue ((ih subject (by simp [children])).value.map fun e he => ?_)
    cases accessor <;> simp [accessExpr, he, wordLit]
  | test a subject guard =>
    refine emits_ofValue ((ih subject (by simp [children])).value.map fun e he => ?_)
    cases guard with
    | boolean value => cases value <;> simp [testExpr, he]
    | _ => simp [testExpr, he, wordLit]
  | unary a op operand =>
    refine emits_ofValue ((ih operand (by simp [children])).value.map fun e he => ?_)
    simp [he]
  | binary a op left right =>
    refine emits_ofValue ((ih left (by simp [children])).value.bind fun e he => ?_)
    refine (ih right (by simp [children])).value.map fun e' he' => ?_
    simp [he, he']
  | bindEffect a b effect body =>
    exact emits_bindCode (ih effect (by simp [children])) (ih body (by simp [children]))
  | pureEffect a value => exact emits_pureCode (ih value (by simp [children]))
  | deferEffect a effect => exact emits_deferCode (ih effect (by simp [children]))

/-- Without loops, the lowering of a top-level group is calm. -/
theorem calm_group_nil (hc : c.loops = false) (g : AnalyzedGroup) : (group c g).Calm [] := by
  have hbinding (b : String × Analyzed) (_ : b ∈ g.bindings) : (binding c b.1 b.2).Calm [] :=
    calm_runIn rfl ((emits_code_nil hc b.2).value.map fun e he => by simpa using he)
  have hall := calm_concat hbinding
  have hnil : g.bindings.flatMap (fun _ => []) = ([] : List Nat) := by simp
  rw [group, hc, Bool.and_false, ← hnil]
  exact hall

/-- Without loops, the lowering of a unit is calm, whatever it binds. -/
theorem calm_unit_nil (u : CompilationUnit) :
    (Outcome.concat (u.analyze.map (group (.ofUnit u false)))).Calm [] := by
  have hgroup (g : AnalyzedGroup) (_ : g ∈ u.analyze) : (group (.ofUnit u false) g).Calm [] :=
    calm_group_nil (Context.ofUnit_fields u false).2.1 g
  have hall := calm_concat hgroup
  have hnil : u.analyze.flatMap (fun _ => []) = ([] : List Nat) := by simp
  rwa [hnil] at hall

end

/-- What is written for the loop of `ts` is the same for all modules and states that agree except on
where the members come from and which names they have. A reference to a member that is written as an
expression would show it. -/
def WritesNoMember (c : Context) (refs : List Ref) (ts : List Analyzed) : Prop :=
  ∀ (c' : Context) (p p' : Progress) (idents : List String) (dispatcher : Option String),
    idents.length = ts.length → c.AgreeOff refs c' → p.AgreeOff refs p' →
      ∃ members members', loopMembers? idents refs (ts.map (code c)) = some members ∧
        loopMembers? idents refs (ts.map (code c')) = some members' ∧
          (loopDeclarations members dispatcher p).1 = (loopDeclarations members' dispatcher p').1

/-- Where `ts` is called in the way of a loop, no reference to a member is written. -/
theorem writesNoMember_of_loopsFully {c : Context} {refs : List Ref} {ts : List Analyzed}
    (hrefs : refs.length = ts.length) (h : LoopsFully (some c.name) refs ts) :
    WritesNoMember c refs ts := by
  intro c' p p' idents dispatcher hidents hc hp
  refine ⟨_, _, loopMembers?_of_functions h.functions, loopMembers?_of_functions h.functions, ?_⟩
  exact (alikeIn_loopGroup hidents hrefs h hc p p' rfl hp).1

end Lower

/-- Lowering succeeds if it meets no clash. -/
theorem CompilationUnit.lower_eq_ok {u : CompilationUnit} {loops : Bool}
    (h : (Lower.module u loops).clash = none) :
    u.lower loops = .ok ((Lower.module u loops).result, (Lower.module u loops).reports) := by
  rw [CompilationUnit.lower, h]

/-- If `u` binds every binder once, it can be lowered, with loops and without. -/
theorem CompilationUnit.BindsOnce.lower {u : CompilationUnit} (h : u.BindsOnce) (loops : Bool) :
    u.lower loops = .ok ((Lower.module u loops).result, (Lower.module u loops).reports) := by
  cases loops with
  | true => exact lower_eq_ok (Lower.calm_unit h).clash
  | false => exact lower_eq_ok (Lower.calm_unit_nil u).clash

/-- Analysis and lowering agree on loops. Lowering a unit that binds every binder once succeeds and
never reports a call that leaves a loop; the loops that it writes are the groups that the analysis
flags, in order, each with as many jumps as there are references to its members in their bodies; and
no reference to a member is written in the loop of a group. -/
theorem lower_loops (u : CompilationUnit) (h : u.BindsOnce) :
    u.lower true = .ok ((Lower.module u true).result, (Lower.module u true).reports) ∧
    (∀ rep ∈ (Lower.module u true).reports, ¬Lower.IsLeaving rep) ∧
    Script.jumpCounts (Lower.module u true).result.declarations =
      u.analyze.flatMap (AnalyzedGroup.loopSizes u.name) ∧
    ∀ g ∈ u.analyze,
      (g.isLoop = true → Lower.WritesNoMember (.ofUnit u true) (topRefs u.name g.bindings)
        (g.bindings.map Prod.snd)) ∧
      ∀ t ∈ g.bindings.map Prod.snd, ∀ a level bindings body,
        .letRec a level bindings body ∈ t.subterms → a.isLoop = true →
          Lower.WritesNoMember (.ofUnit u true) (groupRefs level bindings)
            (bindings.map Prod.snd) := by
  obtain ⟨hname, -, -⟩ := Lower.Context.ofUnit_fields u true
  have hbinds (g : BindingGroup) (hg : g ∈ u.groups) : ∀ b ∈ g.bindings, b.2.bindsOnce [] = true :=
    fun b hb => h b (List.mem_flatMap.2 ⟨g, hg, hb⟩)
  have hcalm := Lower.calm_unit h
  refine ⟨h.lower true, ?_, hcalm.jumps, ?_⟩
  · intro rep hrep
    rcases List.mem_append.1 hrep with hrep | hrep
    · obtain ⟨g, -, hrep⟩ := List.mem_flatMap.1 hrep
      rintro ⟨r, exited, rfl⟩
      exact nomatch Lower.stage_groupReports hrep
    · exact hcalm.reports rep hrep
  · intro g' hg'
    obtain ⟨g, hg, rfl⟩ := List.mem_map.1 hg'
    refine ⟨fun hloop => ?_, fun t ht a level bindings body hmem hloop => ?_⟩
    · refine Lower.writesNoMember_of_loopsFully (by simp [topRefs]) ?_
      rw [Lower.topRefs_analyze, hname]
      exact Lower.loopsFully_group hloop
    · refine Lower.writesNoMember_of_loopsFully (by simp [groupRefs]) ?_
      rw [hname]
      exact Lower.flagged_group (hbinds g hg) ht a level bindings body hmem hloop

/-- A unit with a function that counts down and then enters the group `even`, `odd`. -/
def countdown : CompilationUnit :=
  let n : Binder := ⟨some "n", 4⟩
  { CompilationUnit.empty "Main" with
    groups := [⟨true, [("go", .abs () .curried [n]
      (.branch ()
        [(.test () (.bound () n) (.int 0),
          .letRec () 0 parityGroup
            (.app () .curried (.bound () ⟨some "even", 0⟩) [.bound () n]))]
        (.app () .curried (.global () ⟨none, "go"⟩)
          [.binary () .sub (.bound () n) (.lit () (.int 1))])))]⟩] }

/-- The loop of the unit `countdown` has one jump, and the loop in it has two. -/
theorem lower_loops_countdown :
    countdown.BindsOnce ∧
      Script.jumpCounts (Lower.module countdown true).result.declarations = [1, 2] := by
  have h : countdown.BindsOnce := by
    unfold CompilationUnit.BindsOnce
    decide
  refine ⟨h, (lower_loops countdown h).2.2.1.trans ?_⟩
  decide

end TailLoop
