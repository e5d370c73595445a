import TailLoop.Proofs.EmissionLoops
import TailLoop.Proofs.LoopLowering

/-!
# Names of lowered units

In the script that a unit is lowered to, every name refers to the right declaration: a variable to
the declaration that was written for its binder, a top-level name to the module, the variables of a
loop to those of the loop around. No block declares a name twice.

* `CompilationUnit.WellNamed`: what is asked of the names of a unit.
* `emit_module`: the statement for whole units.
-/

namespace TailLoop

open Term

/-! ## Terms whose names are in order -/

/-- Whether the node is no variable, or one whose binder is in `scope`. -/
def Term.inScope {α : Type} (scope : List Binder) : Term α → Bool
  | .bound _ b => decide (b ∈ scope)
  | _ => true

/-- Whether the node is no top-level name, or one that is `known`. -/
def Term.knownBy {α : Type} (known : Qualified → Bool) : Term α → Bool
  | .global _ q => known q
  | _ => true

namespace Lower

open Script Lowering Emit

/-- The names in `t` are in order: variables lie in the scope of their binders, no binder is bound
twice on a way from the root to a leaf, top-level names are `known`, and names of binders are
regular. -/
structure WellScoped (known : Qualified → Bool) (E : Setting) (scope : List Binder) (t : Expr) :
    Prop where
  /-- No binder is bound twice. -/
  bindsOnce : t.bindsOnce scope = true
  /-- Variables lie in the scope of their binders. -/
  inScope : t.everywhere (fun scope s => s.inScope scope) scope = true
  /-- Top-level names are known. -/
  globals : t.everywhere (fun _ s => s.knownBy known) scope = true
  /-- In a closed unit, top-level names are not provided from outside. -/
  own : E.closed → t.everywhere (fun _ s => s.isLocalIn E.context) scope = true
  /-- Names of binders are regular. -/
  regular : ∀ x ∈ t.identifiers, Regular E.closed x
  /-- Recursive groups are not too large. -/
  sizes : ∀ n ∈ t.groupSizes, n ≤ E.size

variable {known : Qualified → Bool} {E : Setting} {scope : List Binder} {t : Expr}

/-- The nodes of a child `x` are nodes of the term. -/
theorem mem_subterms_of_scopedChildren {x : List Binder × Expr} (hx : x ∈ t.scopedChildren)
    {s : Expr} (hs : s ∈ x.2.subterms) : s ∈ t.subterms := by
  refine mem_subterms_iff.2 (.inr ⟨x.2, ?_, hs⟩)
  rw [← map_snd_scopedChildren]
  exact List.mem_map.2 ⟨x, hx, rfl⟩

/-- The names in a child `x` are in order, in the scope of the binders `x.1` as well. -/
theorem WellScoped.child (h : WellScoped known E scope t) {x : List Binder × Expr}
    (hx : x ∈ t.scopedChildren) : WellScoped known E (x.1 ++ scope) x.2 where
  bindsOnce := (bindsOnce_iff.1 h.bindsOnce).2 x hx
  inScope := (everywhere_iff.1 h.inScope).2 x hx
  globals := (everywhere_iff.1 h.globals).2 x hx
  own hclosed := (everywhere_iff.1 (h.own hclosed)).2 x hx
  regular y hy := by
    obtain ⟨s, hs, hy⟩ := List.mem_flatMap.1 hy
    exact h.regular y (List.mem_flatMap.2 ⟨s, mem_subterms_of_scopedChildren hx hs, hy⟩)
  sizes n hn := by
    obtain ⟨s, hs, hn⟩ := List.mem_map.1 hn
    exact h.sizes n (List.mem_map.2 ⟨s, mem_subterms_of_scopedChildren hx hs, hn⟩)

/-- The `binders` of a node are fresh. -/
theorem WellScoped.fresh (h : WellScoped known E scope t) : Fresh E.closed scope t.binders where
  nodup := (bindsOnce_iff.1 h.bindsOnce).1.1
  notMem := (bindsOnce_iff.1 h.bindsOnce).1.2
  regular b hb x hx := h.regular x
    (List.mem_flatMap.2 ⟨t, mem_subterms_iff.2 (.inl rfl), List.mem_filterMap.2 ⟨b, hb, hx⟩⟩)

/-- The term `t` is lowered to scripts that stand for it, and so is its body if it is a curried
function. -/
structure Resolved (E : Setting) (scope : List Binder)
    (t : Analyzed) : Prop where
  /-- The term is lowered to scripts that stand for it. -/
  code : (code E.context t).StandsFor E scope t
  /-- So is the body of a function. -/
  function : ∀ a params body, t = .abs a .curried params body → Fresh E.closed scope params ∧
    (Lower.code E.context body).StandsFor E (params ++ scope) body

/-- Of a term that is no curried function, only its own lowering matters. -/
theorem Resolved.of_code {t : Analyzed} (h : (Lower.code E.context t).StandsFor E scope t)
    (hnot : t.body? = none) : Resolved E scope t := by
  refine ⟨h, ?_⟩
  rintro a params body rfl
  cases hnot

/-- The bindings `ts` of a group that is called in the way of a loop can be members of the loop. -/
theorem memberFits_of_loopsFully {m : Option String} {refs : List Ref} {ts : List Analyzed}
    (hlen : refs.length = ts.length) (h : LoopsFully m refs ts)
    (hts : ∀ t ∈ ts, Resolved E scope t) {t : Analyzed} (ht : t ∈ ts) :
    t.body?.isSome = true ∧ MemberFits E scope t := by
  obtain ⟨a, params, body, hfun⟩ := h.functions t ht
  obtain ⟨hfresh, hbody⟩ := (hts t ht).function a params body hfun
  have hpos : 0 < t.arity := by
    obtain ⟨i, hi⟩ := List.mem_iff_getElem?.1 ht
    have hlt : i < refs.length := by
      rw [hlen]
      exact (List.getElem?_eq_some_iff.1 hi).1
    have hmem : (refs[i], t.arity) ∈ refs.zip (ts.map arity) := by
      refine List.mem_iff_getElem?.2 ⟨i, ?_⟩
      rw [List.getElem?_zip_eq_some]
      exact ⟨List.getElem?_eq_getElem hlt, by rw [List.getElem?_map, hi]; rfl⟩
    exact h.pos _ hmem
  subst hfun
  exact ⟨rfl, hpos, hfresh, hbody⟩

/-- The name `q` refers to the module wherever the names `Γ₀` of the module are declared. -/
structure Resolvable (c : Context) (Γ₀ : List String) (q : Qualified) : Prop where
  /-- Its head is a name of the module. -/
  reserved : globalHead c q ∈ c.reserved
  /-- The head does not look like the name of a binder without a name. -/
  form : isUnnamed (globalHead c q) = false
  /-- The head is declared. -/
  declared : (resolve (globalHead c q) Γ₀).isSome = true

/-! ## Analysed terms -/

section

variable {cs : Candidates} {u : Unit}

/-- An application of an analysed `head`. In a closed unit, the head is no name from outside. -/
theorem resolved_app {calling : Calling} {head : Expr} {args : List Expr}
    (h : WellScoped known E scope (.app u calling head args))
    (hhead : (code E.context (analyze cs head)).StandsFor E scope (analyze cs head))
    (hargs : ∀ v ∈ args.map (analyze cs), (code E.context v).StandsFor E scope v) :
    Resolved E scope (analyze cs (.app u calling head args)) := by
  refine .of_code ?_ rfl
  simp only [analyze, analyzeList_eq_map]
  cases calling with
  | curried =>
    refine standsFor_app (fun hclosed => ?_) hhead hargs
    have hlocal := (everywhere_iff.1 (h.own hclosed)).2 ([], head)
      (by simp [scopedChildren, children])
    have hroot := (everywhere_iff.1 hlocal).1
    cases head with
    | global b q => exact hroot
    | app _ calling => cases calling <;> rfl
    | _ => rfl
  | uncurried => exact standsFor_appAll hhead hargs
  | effectful => exact standsFor_appEffect hhead hargs

/-- A function of `params` whose analysed `body` is lowered where they are in scope. -/
theorem resolved_abs {calling : Calling} {params : List Binder} {body : Expr}
    (hfresh : Fresh E.closed scope params)
    (hbody : (code E.context (analyze cs body)).StandsFor E (params ++ scope) (analyze cs body)) :
    Resolved E scope (analyze cs (.abs u calling params body)) := by
  rw [analyze]
  cases calling with
  | curried =>
    refine ⟨standsFor_curried hfresh hbody, ?_⟩
    rintro _ _ _ ⟨⟩
    exact ⟨hfresh, hbody⟩
  | uncurried => exact .of_code (standsFor_arrow hfresh hbody) rfl
  | effectful => exact .of_code (standsFor_effectArrow hfresh hbody) rfl

/-- A recursive group. If it is flagged, it is called in the way of a loop, and its `bindings` can
be members of one. -/
theorem resolved_letRec {level : UInt32} {bindings : List (String × Expr)} {body : Expr}
    (h : WellScoped known E scope (.letRec u level bindings body))
    (hbindings : ∀ f ∈ bindings, Resolved E (groupBinders level bindings ++ scope)
      (analyze (cs.extend (groupRefs level bindings)) f.2))
    (hbody : Resolved E (groupBinders level bindings ++ scope)
      (analyze (cs.extend (groupRefs level bindings)) body)) :
    Resolved E scope (analyze cs (.letRec u level bindings body)) := by
  let cs' := cs.extend (groupRefs level bindings)
  have hresolved (v : Analyzed) (hv : v ∈ (bindings.map fun f => (f.1, analyze cs' f.2)).map
      Prod.snd) : Resolved E (groupBinders level bindings ++ scope) v := by
    rw [List.map_map] at hv
    obtain ⟨f, hf, rfl⟩ := List.mem_map.1 hv
    exact hbindings f hf
  have hbinders : groupBinders level (bindings.map fun f => (f.1, analyze cs' f.2)) =
      groupBinders level bindings := by
    rw [groupBinders, List.map_map]
    rfl
  have hflagged := flagged_analyze cs _ h.bindsOnce
  have hfresh := h.fresh
  refine .of_code ?_ rfl
  rw [analyze, analyzeFields_eq_map] at hflagged ⊢
  have hsize : (bindings.map fun f => (f.1, analyze cs' f.2)).length ≤ E.size := by
    rw [List.length_map]
    exact h.sizes _ (List.mem_map.2 ⟨_, mem_subterms_iff.2 (.inl rfl), rfl⟩)
  -- values of all bindings, members of a loop if the group is flagged, and the body
  refine standsFor_letRec hsize (hbinders ▸ hfresh) (fun v hv => ?_) (fun hloop v hv => ?_) ?_
  · rw [hbinders]
    exact (hresolved v hv).code
  · rw [hbinders]
    have hfully := hflagged _ _ _ _ (mem_subterms_iff.2 (.inl rfl)) hloop
    exact memberFits_of_loopsFully (by simp [groupRefs]) hfully hresolved hv
  · rw [hbinders]
    exact hbody.code

/-- A branch of analysed `arms` and `default`. -/
theorem resolved_branch {arms : List (Expr × Expr)} {default : Expr}
    (harms : ∀ arm ∈ arms, ∀ t ∈ [arm.1, arm.2],
      (code E.context (analyze cs t)).StandsFor E scope (analyze cs t))
    (hdefault : (code E.context (analyze cs default)).StandsFor E scope (analyze cs default)) :
    Resolved E scope (analyze cs (.branch u arms default)) := by
  refine .of_code ?_ rfl
  rw [analyze, analyzeArms_eq_map]
  refine standsFor_branch (fun arm harm => ?_) hdefault
  obtain ⟨arm, hmem, rfl⟩ := List.mem_map.1 harm
  exact ⟨harms arm hmem _ (by simp), harms arm hmem _ (by simp)⟩

end

/-- An analysed term whose names are in order is lowered to scripts that stand for it. -/
theorem resolved_analyze (hknown : ∀ q, known q = true → Resolvable E.context E.names q)
    (cs : Candidates)
    (hcs : cs.module = some E.context.name) (t : Expr) (h : WellScoped known E scope t) :
    Resolved E scope (analyze cs t) := by
  induction t using children_induction generalizing cs scope with
  | step t ih =>
  have hchild (x : List Binder × Expr) (hx : x ∈ t.scopedChildren) (cs' : Candidates)
      (hcs' : cs'.module = some E.context.name) : Resolved E (x.1 ++ scope) (analyze cs' x.2) := by
    refine ih x.2 ?_ cs' hcs' (h.child hx)
    rw [← map_snd_scopedChildren]
    exact List.mem_map.2 ⟨x, hx, rfl⟩
  -- children outside the scope of the binders of the node
  have hplain (u : Expr) (hu : ([], u) ∈ t.scopedChildren) :
      (code E.context (analyze cs u)).StandsFor E scope (analyze cs u) :=
    (hchild _ hu cs hcs).code
  have hlist (us : List Expr) (hus : ∀ u ∈ us, ([], u) ∈ t.scopedChildren) :
      ∀ v ∈ us.map (analyze cs), (code E.context v).StandsFor E scope v := by
    intro v hv
    obtain ⟨u, hu, rfl⟩ := List.mem_map.1 hv
    exact hplain u (hus u hu)
  have hfields (fs : List (String × Expr)) (hfs : ∀ f ∈ fs, ([], f.2) ∈ t.scopedChildren) :
      ∀ v ∈ (analyzeFields cs fs).map Prod.snd, (code E.context v).StandsFor E scope v := by
    intro v hv
    rw [analyzeFields_eq_map, List.map_map] at hv
    obtain ⟨f, hf, rfl⟩ := List.mem_map.1 hv
    exact hplain f.2 (hfs f hf)
  cases t with
  | global a q =>
    have hq := hknown q (everywhere_iff.1 h.globals).1
    obtain ⟨k, hk⟩ := Option.isSome_iff_exists.1 hq.declared
    exact .of_code (standsFor_global hq.reserved hq.form hk) rfl
  | bound a b =>
    exact .of_code (standsFor_bound (of_decide_eq_true (everywhere_iff.1 h.inScope).1)) rfl
  | lit a value => exact .of_code standsFor_lit rfl
  | constructor a tag fields => exact .of_code standsFor_constructor rfl
  | undefined a => exact .of_code standsFor_undefined rfl
  | fail a message => exact .of_code standsFor_fail rfl
  | array a items =>
    have hitems := hlist items fun u hu => by simp [scopedChildren, children, hu]
    rw [analyze, analyzeList_eq_map]
    exact .of_code (standsFor_array hitems) rfl
  | record a fields =>
    refine .of_code (standsFor_record (hfields fields fun f hf => ?_)) rfl
    simpa [scopedChildren, children] using ⟨f.1, hf⟩
  | construct a type tag fields =>
    refine .of_code (standsFor_construct (hfields fields fun f hf => ?_)) rfl
    simpa [scopedChildren, children] using ⟨f.1, hf⟩
  | update a subject fields =>
    have hsubject := hplain subject (by simp [scopedChildren, children])
    refine .of_code (standsFor_update (hfields fields fun f hf => ?_) hsubject) rfl
    have : ∃ x, (x, f.2) ∈ fields := ⟨f.1, hf⟩
    simp [scopedChildren, children, this]
  | access a subject accessor =>
    exact .of_code (standsFor_access (hplain subject (by simp [scopedChildren, children]))) rfl
  | test a subject guard =>
    exact .of_code (standsFor_test (hplain subject (by simp [scopedChildren, children]))) rfl
  | unary a op operand =>
    exact .of_code (standsFor_unary (hplain operand (by simp [scopedChildren, children]))) rfl
  | binary a op left right =>
    exact .of_code (standsFor_binary (hplain left (by simp [scopedChildren, children]))
      (hplain right (by simp [scopedChildren, children]))) rfl
  | app a calling head args =>
    exact resolved_app h (hplain head (by simp [scopedChildren, children]))
      (hlist args fun u hu => by simp [scopedChildren, children, hu])
  | abs a calling params body =>
    exact resolved_abs h.fresh (hchild (params, body) (by simp [scopedChildren]) cs hcs).code
  | letIn a b value body =>
    have hbody := hchild ([b], body) (by simp [scopedChildren]) (cs.extend [.bound b]) hcs
    exact .of_code (standsFor_let h.fresh (hplain value (by simp [scopedChildren])) hbody.code) rfl
  | letRec a level bindings body =>
    refine resolved_letRec h (fun f hf => ?_)
      (hchild (groupBinders level bindings, body) (by simp [scopedChildren]) _ hcs)
    refine hchild (groupBinders level bindings, f.2) ?_ _ hcs
    exact List.mem_append_left _ (List.mem_map.2 ⟨f, hf, rfl⟩)
  | bindEffect a b effect body =>
    have hbody := hchild (resultBinders b, body) (by simp [scopedChildren]) cs hcs
    exact .of_code
      (standsFor_bindEffect h.fresh (hplain effect (by simp [scopedChildren])) hbody.code) rfl
  | pureEffect a value =>
    exact .of_code (standsFor_pure (hplain value (by simp [scopedChildren, children]))) rfl
  | deferEffect a effect =>
    exact .of_code (standsFor_defer (hplain effect (by simp [scopedChildren, children]))) rfl
  | branch a arms default =>
    refine resolved_branch (fun arm harm u hu => ?_)
      (hplain default (by simp [scopedChildren, children]))
    refine hplain u (List.mem_map.2 ⟨u, List.mem_append_left _ ?_, rfl⟩)
    exact List.mem_flatMap.2 ⟨arm, harm, hu⟩

/-! ## Top-level groups -/

/-- The state in which the lowering of a top-level binding of `c` starts. -/
def startProgress (c : Context) : Progress := ⟨.ofContext c, [], none⟩

/-- At the start, the names that `c` reserves are taken and no binder is in scope. -/
theorem ready_start (c : Context) : Ready c [] (startProgress c) where
  reserved _ hx := Env.isTaken_ofContext.2 hx
  named := by nofun
  loops := by nofun
  members := by nofun
  slots := by nofun

/-- At the start, all declarations are those of the module, `E.names`. -/
theorem fits_start (h : E.closed → resolve "Error" E.names = none) :
    Fits E [] (startProgress E.context) .plain .plain E.names [] :=
  ⟨⟨by nofun, fun _ _ _ => rfl, h⟩, .plain⟩

/-- The names of shared functions in `c` are names of the module and have a dollar sign. -/
def Context.SharesWell (c : Context) : Prop :=
  ∀ first label, c.dispatcher? first = some label → label ∈ c.reserved ∧ '$' ∈ label.toList

/-- Top-level `bindings` that are lowered one by one are declared one by one, with values that stand
for them. -/
theorem topGroup_bindings {bindings : List (String × Analyzed)}
    (h : ∀ v ∈ bindings.map Prod.snd, (code E.context v).StandsFor E [] v) :
    declared (Outcome.concat (bindings.map fun b => binding E.context b.1 b.2)).result =
        bindings.map Prod.fst ∧
      ((E.closed → resolve "Error" E.names = none) →
        ∃ es, Values E E.names [] (bindings.map Prod.snd) es ∧
          (Outcome.concat (bindings.map fun b => binding E.context b.1 b.2)).result =
            ((bindings.map Prod.fst).zip es).map fun q => .const q.1 q.2) := by
  induction bindings with
  | nil => exact ⟨rfl, fun _ => ⟨[], .nil, rfl⟩⟩
  | cons b rest ih =>
    obtain ⟨hdeclared, hvalues⟩ := ih fun v hv => h v (List.mem_cons_of_mem _ hv)
    have hresult : (Outcome.concat ((b :: rest).map fun b => binding E.context b.1 b.2)).result =
        .const b.1 ((code E.context b.2).value (startProgress E.context)).1 ::
          (Outcome.concat (rest.map fun b => binding E.context b.1 b.2)).result := rfl
    rw [hresult]
    refine ⟨?_, fun herror => ?_⟩
    · rw [declared, List.filterMap_cons]
      exact congrArg (b.1 :: ·) hdeclared
    · obtain ⟨es, hes, heq⟩ := hvalues herror
      have hvalue := (h b.2 (List.mem_cons_self ..)).value _ (ready_start E.context)
      refine ⟨_ :: es, .cons (hvalue.2 .plain E.names [] (fits_start herror)) hes, ?_⟩
      rw [heq]
      rfl

/-- What `group` declares of `g`, and that it stands for `g` where the names of the module are
declared. -/
theorem topGroup_group (hknown : ∀ q, known q = true → Resolvable E.context E.names q)
    (hshares : E.context.SharesWell)
    {g : BindingGroup} (hsize : g.bindings.length ≤ E.size)
    (h : ∀ b ∈ g.bindings, WellScoped known E [] b.2) :
    ∃ extra, declared (group E.context (g.analyze E.context.name)).result =
        extra ++ g.bindings.map Prod.fst ∧
      (∀ x ∈ extra, '$' ∈ x.toList) ∧
      ((E.closed → resolve "Error" E.names = none) →
        (∀ x ∈ extra ++ g.bindings.map Prod.fst, x ∈ E.names) →
          TopGroup E (g.analyze E.context.name)
            (group E.context (g.analyze E.context.name)).result) := by
  have hresolved (v : Analyzed) (hv : v ∈ (g.analyze E.context.name).bindings.map Prod.snd) :
      Resolved E [] v := by
    obtain ⟨b, hb, rfl⟩ := BindingGroup.exists_of_mem_analyze hv
    exact resolved_analyze hknown _ rfl b.2 (h b hb)
  have hnames := g.map_fst_analyze E.context.name
  -- a group that is no loop, or not written as one, is converted binding by binding
  cases hloop : (g.analyze E.context.name).isLoop && E.context.loops with
  | false =>
    have hgroup : group E.context (g.analyze E.context.name) =
        .concat ((g.analyze E.context.name).bindings.map fun b => binding E.context b.1 b.2) := by
      rw [group, hloop]
    rw [hgroup, ← hnames]
    obtain ⟨hdeclared, hvalues⟩ := topGroup_bindings fun v hv => (hresolved v hv).code
    refine ⟨[], hdeclared, List.forall_mem_nil _, fun herror _ => ?_⟩
    obtain ⟨es, hes, heq⟩ := hvalues herror
    rw [heq]
    exact .bindings hloop hes
  | true =>
    obtain ⟨hflag, hloops⟩ : (g.analyze E.context.name).isLoop = true ∧ E.context.loops = true := by
      simpa using hloop
    -- a flagged group consists of functions that are only called in full, so its members can be
    -- loops
    have hfully := loopsFully_group hflag
    rw [← topRefs_analyze] at hfully
    generalize g.analyze E.context.name = g' at *
    let qs := ((g'.bindings.map Prod.fst).zip (topRefs E.context.name g'.bindings)).zip
      (g'.bindings.map Prod.snd)
    have hgroup : (group E.context g').result = (loopDeclarations (qs.map (memberOf E.context))
        (groupDispatcher? E.context g'.bindings) (startProgress E.context)).1 := by
      rw [group, hloop, topMembers?, bindingCodes_eq, loopMembers?_of_functions hfully.functions]
      rfl
    have hidents : (g'.bindings.map Prod.fst).length = (g'.bindings.map Prod.snd).length := by simp
    have hrefs : (topRefs E.context.name g'.bindings).length =
        (g'.bindings.map Prod.snd).length := by
      simp [topRefs]
    obtain ⟨hfst, hsnd, hthd⟩ := map_zip_zip hidents hrefs
    have hfits (q : (String × Ref) × Analyzed) (hq : q ∈ qs) : MemberFits E [] q.2 :=
      (memberFits_of_loopsFully hrefs hfully hresolved (List.of_mem_zip hq).2).2
    -- top-level members are no binders, so nothing has to be named for them
    have hmember (q : (String × Ref) × Analyzed) (hq : q ∈ qs) (b : Binder)
        (hb : q.1.2 = .bound b) : b ∈ [] := by
      obtain ⟨x, -, hx⟩ := List.mem_map.1 (List.of_mem_zip (List.of_mem_zip hq).1).2
      rw [hb] at hx
      cases hx
    have hdispatcher (label : String)
        (hlabel : groupDispatcher? E.context g'.bindings = some label) :
        Used [] (startProgress E.context) label ∧ '$' ∈ label.toList := by
      obtain ⟨b, -, hb⟩ := Option.bind_eq_some_iff.1 hlabel
      obtain ⟨hreserved, hdollar⟩ := hshares b.1 label hb
      have hregular : Regular True label := regular_of_dollar hdollar
      exact ⟨.inl ⟨Env.isTaken_ofContext.2 hreserved, hregular.1⟩, hdollar⟩
    have hlength : qs.length ≤ E.size := by
      rw [← List.length_map Prod.snd, hthd, List.length_map, ← List.length_map Prod.fst, hnames,
        List.length_map]
      exact hsize
    obtain ⟨extra, hat, -, -, hextra⟩ := groupAt_loopDeclarations
      (groupDispatcher? E.context g'.bindings) hlength hfits (ready_start E.context) hmember
      hdispatcher
    rw [hfst, hsnd, hthd] at hat
    rw [hgroup, ← hnames]
    refine ⟨extra, hat.declared, hextra, fun herror hmem => ?_⟩
    -- the names at module scope refer to the declarations of the whole module
    obtain ⟨ks, hks⟩ := exists_map_resolve fun x hx => hmem x (List.mem_append_right _ hx)
    have htop : (topRefs E.context.name g'.bindings).map (declaration? E.names []) =
        ks.map some := by
      rw [← hks, topRefs, List.map_map, List.map_map]
      rfl
    refine .loop hflag hloops (by rw [← hks, List.map_map]; rfl) ?_
    exact hat.out E.names [] ks (fits_start herror) hks htop fun x hx =>
      hmem x (List.mem_append_left _ hx)

/-! ## Contexts -/

/-- `addGroup` keeps the names of the module and adds one with a dollar sign at most. -/
theorem Context.SharesWell.addGroup {c : Context} (h : c.SharesWell) (g : BindingGroup) :
    (c.addGroup g).SharesWell ∧ c.reserved ⊆ (c.addGroup g).reserved := by
  unfold Context.addGroup
  split
  · exact ⟨h, List.Subset.refl _⟩
  · rename_i first members _
    refine ⟨fun first' label hlabel => ?_, List.subset_append_left ..⟩
    simp only [dispatcher?, Table.insert, Table.get?_alter] at hlabel
    split at hlabel
    · obtain rfl := Option.some.inj hlabel
      refine ⟨List.mem_append_right _ (List.mem_singleton.2 rfl), ?_⟩
      unfold candidate
      split <;> simp
    · obtain ⟨hreserved, hdollar⟩ := h first' label hlabel
      exact ⟨List.mem_append_left _ hreserved, hdollar⟩

/-- The names of `u` are names of its module. -/
theorem Context.sharesWell_ofUnit (u : CompilationUnit) (loops : Bool) :
    (ofUnit u loops).SharesWell ∧ foreignAlias :: (u.imports.map moduleAlias ++ u.foreignNames
      ++ u.bindings.map Prod.fst) ⊆ (ofUnit u loops).reserved := by
  have hfold (gs : List BindingGroup) (c : Context) (h : c.SharesWell) :
      (gs.foldl Context.addGroup c).SharesWell ∧
        c.reserved ⊆ (gs.foldl Context.addGroup c).reserved := by
    induction gs generalizing c with
    | nil => exact ⟨h, List.Subset.refl _⟩
    | cons g rest ih =>
      obtain ⟨hg, hsub⟩ := h.addGroup g
      obtain ⟨hrest, hsub'⟩ := ih (c.addGroup g) hg
      exact ⟨hrest, fun x hx => hsub' (hsub hx)⟩
  exact hfold u.groups _ fun first label hlabel => nomatch hlabel

end Lower

/-! ## Units -/

/-- Whether `q` is a name of the unit or of its foreign names, or belongs to an imported module. -/
def CompilationUnit.knows (u : CompilationUnit) (q : Qualified) : Bool :=
  match q.module with
  | none => decide (q.ident ∈ u.bindings.map Prod.fst ++ u.foreignNames)
  | some m =>
    if m = u.name then decide (q.ident ∈ u.bindings.map Prod.fst ++ u.foreignNames)
    else decide (m ∈ u.imports)

/-- The names of `u` are in order: variables lie in the scope of their binders, no binder is bound
twice on a way from the root of a binding to a leaf, top-level names are known, and no name has the
form that is kept for binders without a name. -/
structure CompilationUnit.WellNamed (u : CompilationUnit) : Prop where
  /-- Variables lie in the scope of their binders. -/
  inScope : ∀ b ∈ u.bindings, b.2.everywhere (fun scope s => s.inScope scope) [] = true
  /-- No binder is bound twice. -/
  bindsOnce : u.BindsOnce
  /-- Top-level names are known. -/
  globals : ∀ b ∈ u.bindings, b.2.everywhere (fun _ s => s.knownBy u.knows) [] = true
  /-- No name has the form of an underscore and digits. -/
  names : ∀ x ∈ u.identifiers, Lower.isUnnamed x = false

namespace Lower

open Script Emit

/-- A condition `P` on nodes can be weakened to `Q`. -/
theorem everywhere_imp {α : Type} {P Q : List Binder → Term α → Bool}
    (h : ∀ scope s, P scope s = true → Q scope s = true) {scope : List Binder} {t : Term α}
    (ht : t.everywhere P scope = true) : t.everywhere Q scope = true := by
  induction t using children_induction generalizing scope with
  | step t ih =>
    obtain ⟨hroot, hchildren⟩ := everywhere_iff.1 ht
    refine everywhere_iff.2 ⟨h scope t hroot, fun x hx => ih x.2 ?_ (hchildren x hx)⟩
    rw [← map_snd_scopedChildren]
    exact List.mem_map.2 ⟨x, hx, rfl⟩

/-- No group of `u` has more members than `largestGroup`. -/
theorem le_largestGroup {u : CompilationUnit} {n : Nat}
    (h : n ∈ u.groups.map (fun g => g.bindings.length) ++
      u.bindings.flatMap fun b => b.2.groupSizes) :
    n ≤ u.largestGroup := by
  unfold CompilationUnit.largestGroup
  generalize u.groups.map _ ++ u.bindings.flatMap _ = ns at h
  induction ns with
  | nil => cases h
  | cons m rest ih =>
    rw [List.foldr_cons]
    rcases List.mem_cons.1 h with rfl | h
    · exact Nat.le_max_left ..
    · exact Nat.le_trans (ih h) (Nat.le_max_right ..)

/-- The bindings of a unit that is `WellNamed` are terms whose names are in order. -/
theorem wellScoped_of_wellNamed {u : CompilationUnit} (h : u.WellNamed) (loops : Bool)
    (names : List String) {b : String × Expr} (hb : b ∈ u.bindings) :
    WellScoped u.knows (u.setting loops names) [] b.2 where
  bindsOnce := h.bindsOnce b hb
  inScope := h.inScope b hb
  globals := h.globals b hb
  own hclosed := by
    refine everywhere_imp (fun scope s hs => ?_) (hclosed.globals b hb)
    cases s with
    | global a q =>
      obtain ⟨-, -, hforeign⟩ := Context.ofUnit_fields u loops
      simp only [Term.ownIn, Bool.and_eq_true, decide_eq_true_eq] at hs
      simp only [Term.isLocalIn, CompilationUnit.setting, Context.isForeign, hforeign]
      simpa using hs.2
    | _ => rfl
  regular x hx := by
    have hmem : x ∈ u.identifiers :=
      List.mem_append_right _ (List.mem_flatMap.2 ⟨b, hb, hx⟩)
    refine ⟨h.names x hmem, ?_⟩
    rintro hclosed rfl
    exact hclosed.error hmem
  sizes n hn := le_largestGroup (List.mem_append_right _ (List.mem_flatMap.2 ⟨b, hb, hn⟩))

/-- The head of a name `q` that the unit knows is a name of the module. -/
theorem reserved_of_knows {u : CompilationUnit} (loops : Bool) {q : Qualified}
    (hq : u.knows q = true) :
    globalHead (.ofUnit u loops) q ∈ (Context.ofUnit u loops).reserved := by
  obtain ⟨hname, -, hforeign⟩ := Context.ofUnit_fields u loops
  obtain ⟨-, hreserved⟩ := Context.sharesWell_ofUnit u loops
  -- a name of the unit itself
  have hown (hident : q.ident ∈ u.bindings.map Prod.fst ++ u.foreignNames) :
      (if (Context.ofUnit u loops).isForeign q.ident then foreignAlias else q.ident) ∈
        (Context.ofUnit u loops).reserved := by
    refine hreserved ?_
    rw [Context.isForeign, hforeign]
    split
    · exact List.mem_cons_self ..
    · rename_i hcontains
      have hmem := (List.mem_append.1 hident).resolve_right fun hmem =>
        hcontains (List.contains_iff_mem.2 hmem)
      exact List.mem_cons_of_mem _ (List.mem_append_right _ hmem)
  -- a name with another module is reached through the alias of that module
  obtain ⟨module, ident⟩ := q
  cases module with
  | none => exact hown (of_decide_eq_true hq)
  | some m =>
    simp only [CompilationUnit.knows] at hq
    split at hq
    · rename_i hm
      have hlocal : (Context.ofUnit u loops).isLocal ⟨some m, ident⟩ = true := by
        simp [Context.isLocal, hname, hm]
      rw [globalHead, hlocal]
      exact hown (of_decide_eq_true hq)
    · rename_i hm
      have hlocal : (Context.ofUnit u loops).isLocal ⟨some m, ident⟩ = false := by
        simp [Context.isLocal, hname, hm]
      rw [globalHead, hlocal]
      have halias : moduleAlias m ∈ u.imports.map moduleAlias :=
        List.mem_map.2 ⟨m, of_decide_eq_true hq, rfl⟩
      exact hreserved (by simp [halias])

/-- A name `q` that the unit knows is resolvable where the names of the module are declared. -/
theorem resolvable_of_knows {u : CompilationUnit} (h : u.WellNamed) (loops : Bool)
    {Γ₀ : List String}
    (himports : ∀ i ∈ importList u, i.name ∈ Γ₀) (hnames : ∀ x ∈ u.bindings.map Prod.fst, x ∈ Γ₀)
    (q : Qualified) (hq : u.knows q = true) : Resolvable (.ofUnit u loops) Γ₀ q := by
  obtain ⟨hname, -, hforeign⟩ := Context.ofUnit_fields u loops
  have hreserved := reserved_of_knows loops hq
  -- a name of the unit itself
  have hown (hq : q.ident ∈ u.bindings.map Prod.fst ++ u.foreignNames)
      (hhead : globalHead (.ofUnit u loops) q =
        if (Context.ofUnit u loops).isForeign q.ident then foreignAlias else q.ident) :
      Resolvable (.ofUnit u loops) Γ₀ q := by
    rw [Context.isForeign, hforeign] at hhead
    split at hhead
    · rename_i hcontains
      have hne : u.foreignNames.isEmpty = false := by
        cases hnames : u.foreignNames with
        | nil =>
          rw [hnames] at hcontains
          cases hcontains
        | cons => rfl
      refine ⟨hreserved, ?_, ?_⟩
      · rw [hhead]
        decide
      · rw [hhead]
        refine isSome_resolve (himports ⟨foreignAlias, foreignPath⟩ ?_)
        simp [importList, hne]
    · rename_i hcontains
      have hmem : q.ident ∈ u.bindings.map Prod.fst := by
        refine (List.mem_append.1 hq).resolve_right fun hmem => hcontains ?_
        rw [List.contains_iff_mem]
        exact hmem
      refine ⟨hreserved, ?_, ?_⟩
      · rw [hhead]
        refine h.names _ (List.mem_append_left _ (List.mem_append_right _ hmem))
      · rw [hhead]
        exact isSome_resolve (hnames _ hmem)
  have himported (m : String) (hm : m ∈ u.imports)
      (hhead : globalHead (.ofUnit u loops) q = moduleAlias m) :
      Resolvable (.ofUnit u loops) Γ₀ q := by
    have halias : moduleAlias m ∈ u.imports.map moduleAlias := List.mem_map.2 ⟨m, hm, rfl⟩
    refine ⟨hreserved, ?_, ?_⟩
    · rw [hhead]
      exact h.names _ (by simp [CompilationUnit.identifiers, halias])
    · rw [hhead]
      refine isSome_resolve (himports ⟨moduleAlias m, modulePath m⟩ ?_)
      exact List.mem_append_left _ (List.mem_map.2 ⟨m, hm, rfl⟩)
  obtain ⟨module, ident⟩ := q
  cases module with
  | none => exact hown (of_decide_eq_true hq) rfl
  | some m =>
    simp only [CompilationUnit.knows] at hq
    split at hq
    · rename_i hm
      refine hown (of_decide_eq_true hq) ?_
      have hlocal : (Context.ofUnit u loops).isLocal ⟨some m, ident⟩ = true := by
        simp [Context.isLocal, hname, hm]
      rw [globalHead, hlocal]
    · rename_i hm
      refine himported m (of_decide_eq_true hq) ?_
      have hlocal : (Context.ofUnit u loops).isLocal ⟨some m, ident⟩ = false := by
        simp [Context.isLocal, hname, hm]
      rw [globalHead, hlocal]

/-- The groups `gs` are declared one after the other, and the declarations stand for them. -/
theorem topGroups_concat {known : Qualified → Bool} {E : Setting}
    (hknown : ∀ q, known q = true → Resolvable E.context E.names q)
    (hshares : E.context.SharesWell) {gs : List BindingGroup}
    (hsize : ∀ g ∈ gs, g.bindings.length ≤ E.size)
    (h : ∀ g ∈ gs, ∀ b ∈ g.bindings, WellScoped known E [] b.2) :
    let decls := (Outcome.concat ((gs.map (·.analyze E.context.name)).map (group E.context))).result
    (∀ x ∈ (gs.flatMap BindingGroup.bindings).map Prod.fst, x ∈ declared decls) ∧
      (∀ x ∈ declared decls, x ∈ (gs.flatMap BindingGroup.bindings).map Prod.fst ∨ '$' ∈ x.toList) ∧
      ((E.closed → resolve "Error" E.names = none) → (∀ x ∈ declared decls, x ∈ E.names) →
        TopGroups E (gs.map (·.analyze E.context.name)) decls) := by
  induction gs with
  | nil => exact ⟨by nofun, by nofun, fun _ _ => .nil⟩
  | cons g rest ih =>
    obtain ⟨hnames, hdeclared, htop⟩ := ih (fun g' hg' => hsize g' (List.mem_cons_of_mem _ hg'))
      fun g' hg' => h g' (List.mem_cons_of_mem _ hg')
    obtain ⟨extra, hfirst, hdollar, hgroup⟩ := topGroup_group hknown hshares
      (hsize g (List.mem_cons_self ..)) (h g (List.mem_cons_self ..))
    intro decls
    have hdecls : decls = (group E.context (g.analyze E.context.name)).result ++
        (Outcome.concat ((rest.map (·.analyze E.context.name)).map (group E.context))).result := rfl
    rw [hdecls, declared_append, hfirst, List.flatMap_cons, List.map_append]
    -- all members are declared, nothing else without a dollar sign is, and the groups stand in
    -- order
    refine ⟨fun x hx => ?_, fun x hx => ?_, fun herror hmem => ?_⟩
    · rcases List.mem_append.1 hx with hx | hx
      · exact List.mem_append_left _ (List.mem_append_right _ hx)
      · exact List.mem_append_right _ (hnames x hx)
    · rcases List.mem_append.1 hx with hx | hx
      · rcases List.mem_append.1 hx with hx | hx
        · exact .inr (hdollar x hx)
        · exact .inl (List.mem_append_left _ hx)
      · exact (hdeclared x hx).imp_left (List.mem_append_right _)
    · simp only [List.mem_append] at hmem
      refine .cons (hgroup herror fun x hx => hmem x ?_) (htop herror fun x hx => hmem x (.inr hx))
      exact .inl (List.mem_append.1 hx)

/-- The declarations of a unit that is `WellNamed` stand for its groups. -/
theorem topGroups_module (u : CompilationUnit) (loops : Bool) (h : u.WellNamed) :
    TopGroups (u.setting loops (Lower.module u loops).result.names) u.analyze
      (Lower.module u loops).result.declarations := by
  obtain ⟨hname, -, -⟩ := Context.ofUnit_fields u loops
  obtain ⟨hshares, hreserved⟩ := Context.sharesWell_ofUnit u loops
  have hscoped (names : List String) (g : BindingGroup) (hg : g ∈ u.groups) (b : String × Expr)
      (hb : b ∈ g.bindings) : WellScoped u.knows (u.setting loops names) [] b.2 :=
    wellScoped_of_wellNamed h loops names (List.mem_flatMap.2 ⟨g, hg, hb⟩)
  have hsize (g : BindingGroup) (hg : g ∈ u.groups) : g.bindings.length ≤ u.largestGroup :=
    le_largestGroup (List.mem_append_left _ (List.mem_map.2 ⟨g, hg, rfl⟩))
  have hgroups : u.analyze = u.groups.map (·.analyze (Context.ofUnit u loops).name) := by
    rw [hname]
    rfl
  have hresult : (Lower.module u loops).result.declarations = (Outcome.concat ((u.groups.map
      (·.analyze (Context.ofUnit u loops).name)).map (group (.ofUnit u loops)))).result := by
    rw [← hgroups]
    rfl
  have hmem {x : String} {names : List String} (hx : x ∈ names) : x ∈ Script.enter [] names := by
    simpa [Script.enter] using hx
  -- what is declared does not depend on what the names of the module refer to
  have hknown (q : Qualified) (hq : u.knows q = true) : Resolvable (.ofUnit u loops)
      (Script.enter [] ((importList u).map Script.Import.name ++ u.bindings.map Prod.fst)) q :=
    resolvable_of_knows h loops
      (fun i hi => hmem (List.mem_append_left _ (List.mem_map.2 ⟨i, hi, rfl⟩)))
      (fun x hx => hmem (List.mem_append_right _ hx)) q hq
  obtain ⟨hnames, hdeclared, -⟩ := topGroups_concat (E := u.setting loops _) hknown hshares hsize
    (hscoped _)
  replace hnames (x : String) (hx : x ∈ u.bindings.map Prod.fst) :
      x ∈ Script.declared (Lower.module u loops).result.declarations := by
    rw [hresult]
    exact hnames x hx
  replace hdeclared (x : String)
      (hx : x ∈ Script.declared (Lower.module u loops).result.declarations) :
      x ∈ u.bindings.map Prod.fst ∨ '$' ∈ x.toList := by
    rw [hresult] at hx
    exact hdeclared x hx
  have hknown₀ := resolvable_of_knows h loops
    (fun i hi => hmem (List.mem_append_left _ (List.mem_map.2 ⟨i, hi, rfl⟩)))
    fun x hx => hmem (List.mem_append_right _ (hnames x hx))
  -- now with the names that the module really declares
  obtain ⟨-, -, htop⟩ := topGroups_concat
    (E := u.setting loops (Lower.module u loops).result.names) hknown₀ hshares hsize (hscoped _)
  rw [hgroups, hresult]
  -- in a closed unit nothing at module scope is called `Error`
  refine htop (fun hclosed => Script.resolve_eq_none fun hx => ?_) fun x hx => ?_
  · have herror := hclosed.error
    rcases List.mem_append.1 (show "Error" ∈ (Lower.module u loops).result.names by
      simpa [CompilationUnit.setting, Script.enter] using hx) with hx | hx
    · obtain ⟨i, hi, heq⟩ := List.mem_map.1 hx
      rcases List.mem_append.1 hi with hi | hi
      · obtain ⟨m, hm, rfl⟩ := List.mem_map.1 hi
        exact herror (List.mem_append_left _ (List.mem_append_left _ (List.mem_append_left _
          (List.mem_map.2 ⟨m, hm, heq⟩))))
      · split at hi
        · cases hi
        · obtain rfl := List.mem_singleton.1 hi
          revert heq
          decide
    · rcases hdeclared _ hx with hx | hx
      · exact herror (List.mem_append_left _ (List.mem_append_right _ hx))
      · revert hx
        decide
  · refine hmem (List.mem_append_right _ ?_)
    rw [hresult]
    exact hx

end Lower

/-- Names refer to their own declarations. In the script that a unit whose names are in order is
lowered to, with or without loops, every variable refers to the declaration that was written for its
binder and every top-level name to the module, and no block declares a name twice. -/
theorem emit_module (u : CompilationUnit) (loops : Bool) (h : u.WellNamed) :
    Emit.Module u loops (Lower.module u loops).result :=
  ⟨rfl, Lower.topGroups_module u loops h⟩

/-- The names of the unit `countdown` are in order, so every name in its script refers to its own
declaration. -/
theorem emit_module_countdown :
    countdown.WellNamed ∧ Emit.Module countdown true (Lower.module countdown true).result ∧
      Emit.Module countdown false (Lower.module countdown false).result := by
  have h : countdown.WellNamed := by
    refine ⟨?_, ?_, ?_, ?_⟩
    · decide
    · unfold CompilationUnit.BindsOnce
      decide
    · decide
    · decide
  exact ⟨h, emit_module countdown true h, emit_module countdown false h⟩

end TailLoop
