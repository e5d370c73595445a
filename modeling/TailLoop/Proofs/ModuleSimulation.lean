import TailLoop.Proofs.BlockSimulation
import TailLoop.Proofs.ModuleNames
import TailLoop.Proofs.NameResolution

/-!
# Simulation of modules

A unit can be lowered with loops and without, and both scripts do the same. The declarations of a
module run group by group, in cells that the top-level names have from the beginning, so functions
can refer to groups that come later. After the declarations, calls of a top-level name end in the
same way in both scripts.

* `owns_analyze`: the terms of a closed unit refer to the unit only.
* `sim_topGroups`: the declarations of a module.
* `sim_module`: calls of the names of a module.
* `loops_keep_ends`: whatever becomes a loop, calls without functions among their arguments come to
  the same.
-/

namespace TailLoop

/-- `u` lowered twice: to the left with loops if `l`, to the right with loops if `r`. -/
def CompilationUnit.versions (u : CompilationUnit) (l r : Bool) : Emit.Versions where
  left := u.setting l (Lower.module u l).result.names
  right := u.setting r (Lower.module u r).result.names
  tops := u.bindings.map Prod.fst

namespace Emit

open Script Lower

variable {S : Type}

/-! ## References to the unit -/

/-- A name `q` of the unit itself, if it is not foreign, is written as `q.ident`. -/
theorem global_of_own {u : CompilationUnit} (loops : Bool) {q : Qualified}
    (hmodule : q.module = none ∨ q.module = some u.name) (hforeign : q.ident ∉ u.foreignNames) :
    globalHead (.ofUnit u loops) q = q.ident ∧ globalExpr (.ofUnit u loops) q = .ident q.ident ∧
      (Context.ofUnit u loops).isForeign q.ident = false := by
  obtain ⟨hname, -, hnames⟩ := Context.ofUnit_fields u loops
  have hown : (Context.ofUnit u loops).isForeign q.ident = false := by
    rw [Context.isForeign, hnames]
    simpa using hforeign
  have hlocal : (Context.ofUnit u loops).isLocal q = true := by
    rcases hmodule with h | h <;> simp [Context.isLocal, h, hname]
  refine ⟨?_, ?_, hown⟩
  · simp [globalHead, hlocal, hown]
  · simp [globalExpr, hlocal, hown]

/-- If `ownIn u` accepts the reference `q`, it is an `OwnName` of `u.versions l r`. -/
theorem ownName_of_ownIn {u : CompilationUnit} (l r : Bool) {a : Unit} {q : Qualified}
    (h : (Term.global a q).ownIn u = true) : OwnName (u.versions l r) q := by
  simp only [Term.ownIn, Bool.and_eq_true, decide_eq_true_eq] at h
  obtain ⟨⟨hmodule, hident⟩, hforeign⟩ := h
  exact ⟨hident, global_of_own l hmodule hforeign, global_of_own r hmodule hforeign⟩

/-- `analyze c t` owns its references if `ownIn u` accepts every node of `t`. -/
theorem owns_analyze {u : CompilationUnit} (l r : Bool) {t : Expr} {scope : List Binder}
    (h : t.everywhere (fun _ s => s.ownIn u) scope = true) (c : Candidates) :
    Owns (u.versions l r) (analyze c t) := by
  induction t using Term.children_induction generalizing scope c with
  | step t ih =>
    obtain ⟨hroot, hchildren⟩ := Term.everywhere_iff.1 h
    intro a q hq
    rcases Term.mem_subterms_iff.1 hq with heq | ⟨s, hs, hq⟩
    · cases t with
      | global a' q' =>
        obtain ⟨-, rfl⟩ := Term.global.inj heq
        exact ownName_of_ownIn l r hroot
      | _ => simp [analyze] at heq
    · obtain ⟨x, hx, c', -, rfl⟩ := Term.mem_children_analyze hs
      refine ih x.2 ?_ (hchildren x hx) c' a q hq
      rw [← Term.map_snd_scopedChildren]
      exact List.mem_map_of_mem hx

/-- The scripts of a `Closed` unit `Fit` primitives that tell numbers up to `largestGroup` apart. -/
theorem fit_versions {u : CompilationUnit} (l r : Bool) {P : Primitives S} (h : u.Closed)
    (hP : P.TellsApart u.largestGroup) : (u.versions l r).Fit P where
  closed_left := h
  closed_right := h
  apart_left := hP
  apart_right := hP
  name := (Context.ofUnit_fields u l).1.trans (Context.ofUnit_fields u r).1.symm

/-! ## Cells of several groups -/

section

variable {P : Primitives S} {V : Versions} {W : World S} {n : Nat} {ρ ρ' : Scope}
  {s s' s₁ : Store S}
  {own own' : Nat → Prop} {α β : Type}

/-- If the names `xs` are among `ys`, the cells `cs` of `xs` are among the cells `ds` of `ys`. -/
theorem mem_cells_of_subset {xs ys : List String} {cs ds : List Nat}
    (hcs : xs.map (ρ.lookup ·) = cs.map some) (hds : ys.map (ρ.lookup ·) = ds.map some)
    (h : ∀ x ∈ xs, x ∈ ys) {ℓ : Nat} (hℓ : ℓ ∈ cs) : ℓ ∈ ds := by
  have hmem : some ℓ ∈ xs.map (ρ.lookup ·) := hcs ▸ List.mem_map_of_mem hℓ
  obtain ⟨x, hx, heq⟩ := List.mem_map.1 hmem
  have hmem' : some ℓ ∈ ds.map some := hds ▸ heq ▸ List.mem_map_of_mem (h x hx)
  obtain ⟨m, hm, heq⟩ := List.mem_map.1 hmem'
  exact Option.some.inj heq ▸ hm

/-- If the declarations of `xs ++ ys` are `Placed`, those of `xs` are, and those of `ys` are placed
before `rest`. -/
theorem Placed.split {uses : Nat → Prop} {xs ys : List String} {ks cs ics : List Nat}
    {decls rest : List Stmt} (h : Placed own uses s ρ (xs ++ ys) ks (decls ++ rest) cs ics)
    (hks : (xs ++ ys).map (resolve · (namesOf ρ)) = ks.map some)
    (hys : ∀ y ∈ ys, y ∈ Script.declared rest) (hxs : ∀ x ∈ xs, x ∈ Script.declared decls) :
    ∃ ks₁ ks₂ cs₁ cs₂ ics₁ ics₂, xs.map (resolve · (namesOf ρ)) = ks₁.map some ∧
      ys.map (resolve · (namesOf ρ)) = ks₂.map some ∧ cs = cs₁ ++ cs₂ ∧ ics = ics₁ ++ ics₂ ∧
      Placed own uses s ρ xs ks₁ decls cs₁ ics₁ ∧ Placed own uses s ρ ys ks₂ rest cs₂ ics₂ := by
  have hdeclared := h.declared
  have hmembers := h.members
  rw [declared_append, List.map_append] at hdeclared
  rw [List.map_append] at hmembers hks
  obtain ⟨cs₁, cs₂, rfl, hcs₁, hcs₂⟩ := List.append_eq_map_iff.1 hdeclared
  obtain ⟨ics₁, ics₂, rfl, hics₁, hics₂⟩ := List.append_eq_map_iff.1 hmembers
  obtain ⟨ks₁, ks₂, rfl, hks₁, hks₂⟩ := List.append_eq_map_iff.1 hks
  -- names that are resolved have the cells in which they are looked up
  have hnumbers {zs : List String} {ls ms : List Nat}
    (hls : ls.map some = zs.map (resolve · (namesOf ρ)))
      (hms : ms.map some = zs.map (ρ.lookup ·)) : ls.map (cellOf ρ) = ms.map some := by
    obtain ⟨ms', hms', hcells⟩ := map_lookup_of_resolve hls.symm
    rw [hcells, ← hms', hms]
  obtain ⟨hnodup₁, hnodup₂, hdisjoint⟩ := List.nodup_append.1 h.nodup
  refine ⟨ks₁, ks₂, cs₁, cs₂, ics₁, ics₂, hks₁.symm, hks₂.symm, rfl, rfl,
    ⟨hcs₁.symm, hnodup₁, fun ℓ hℓ => h.empty ℓ (List.mem_append_left _ hℓ), hics₁.symm,
      hnumbers hks₁ hics₁, fun ℓ hℓ => ?_⟩,
    ⟨hcs₂.symm, hnodup₂, fun ℓ hℓ => h.empty ℓ (List.mem_append_right _ hℓ), hics₂.symm,
      hnumbers hks₂ hics₂, fun ℓ hℓ => ?_⟩⟩
  · refine (h.free ℓ (List.mem_append_left _ hℓ)).imp_left fun hmem => ?_
    refine (List.mem_append.1 hmem).resolve_right fun hmem => ?_
    exact hdisjoint ℓ hℓ ℓ (mem_cells_of_subset hics₂.symm hcs₂.symm hys hmem) rfl
  · refine (h.free ℓ (List.mem_append_right _ hℓ)).imp_left fun hmem => ?_
    refine (List.mem_append.1 hmem).resolve_left fun hmem => ?_
    exact hdisjoint ℓ (mem_cells_of_subset hics₁.symm hcs₁.symm hxs hmem) ℓ hℓ rfl

/-- `Placed` is kept when only cells `cs₁` are written that are not among `cs`. -/
theorem Placed.later {uses uses₁ : Nat → Prop} {xs : List String} {ks cs ics cs₁ : List Nat}
    {decls : List Stmt} (h : Placed own uses s ρ xs ks decls cs ics)
    (hs : Extends (· ∈ cs₁) s s₁) (hdisjoint : ∀ ℓ ∈ cs, ℓ ∉ cs₁)
    (huses : ∀ ℓ < s.length, ℓ ∉ cs₁ → uses₁ ℓ → uses ℓ) :
    Placed (fun ℓ => own ℓ ∨ s.length ≤ ℓ) uses₁ s₁ ρ xs ks decls cs ics where
  declared := h.declared
  nodup := h.nodup
  empty ℓ hℓ := by
    obtain ⟨hown, hempty⟩ := h.empty ℓ hℓ
    rw [hs.old (List.getElem?_eq_some_iff.1 hempty).1 (hdisjoint ℓ hℓ)]
    exact ⟨.inl hown, hempty⟩
  members := h.members
  numbers := h.numbers
  free ℓ hℓ := by
    have hlt := (List.getElem?_eq_some_iff.1 (h.empty ℓ hℓ).2).1
    exact (h.free ℓ hℓ).imp_right fun hnot hu => hnot (huses ℓ hlt (hdisjoint ℓ hℓ) hu)

/-! ## Declarations of modules -/

/-- The declarations of a `TopGroup` declare its members last. -/
theorem declared_of_topGroup {E : Setting} {g : AnalyzedGroup} {decls : List Stmt}
    (h : TopGroup E g decls) :
    ∃ extra, Script.declared decls = extra ++ g.bindings.map Prod.fst := by
  cases h with
  | loop _ _ _ hgroup => exact declared_of_group hgroup (by simp)
  | bindings _ hes =>
    refine ⟨[], declared_consts (Nat.le_of_eq ?_)⟩
    rw [length_values hes, List.length_map, List.length_map]

/-- The declarations of `TopGroups` declare all members of `gs`. -/
theorem mem_declared_of_topGroups {E : Setting} {gs : List AnalyzedGroup} {decls : List Stmt}
    (h : TopGroups E gs decls) {x : String} (hx : x ∈ gs.flatMap fun g => g.bindings.map Prod.fst) :
    x ∈ Script.declared decls := by
  induction h with
  | nil => cases hx
  | cons hg _ ih =>
    obtain ⟨extra, hdeclared⟩ := declared_of_topGroup hg
    rw [declared_append, hdeclared]
    rw [List.flatMap_cons] at hx
    rcases List.mem_append.1 hx with hx | hx
    · exact List.mem_append_left _ (List.mem_append_right _ hx)
    · exact List.mem_append_right _ (ih hx)

/-- A `TopGroup` whose bindings are functions is declared as a `Group`, whether it is a loop or
not. -/
theorem TopGroup.group {E : Setting} {g : AnalyzedGroup} {decls : List Stmt}
    (h : TopGroup E g decls)
    (harity : ∀ t ∈ g.bindings.map Prod.snd, 0 < t.arity) {ks : List Nat}
    (hks : (g.bindings.map Prod.fst).map (resolve · E.names) = ks.map some) :
    ∃ flag, (flag = true → E.context.loops = true) ∧
      Group E flag E.names [] (g.bindings.map Prod.fst) ks (topRefs E.context.name g.bindings)
        (g.bindings.map Prod.snd) decls := by
  cases h with
  | @loop ks' decls _ hloops hks' hgroup =>
    rw [List.map_map] at hks
    obtain rfl : ks' = ks := eq_of_map_some (hks'.symm.trans hks)
    exact ⟨true, fun _ => hloops, hgroup⟩
  | bindings _ hes =>
    refine ⟨false, nofun, .functions ?_ hes⟩
    rw [List.all_eq_true]
    intro t ht
    obtain ⟨a, params, body, rfl⟩ := exists_abs_of_arity (harity t ht)
    rfl

/-- Both scripts simulate each other over the declarations of the top-level group `g`, if they do
over what follows. -/
theorem sim_topGroup {g : AnalyzedGroup} {ks ks' cs cs' ics ics' : List Nat}
    {decls decls' rest rest' : List Stmt} {K : Nat → Completion S → Compute S α}
    {K' : Nat → Completion S → Compute S β} {Q : World S → Store S → Store S → α → β → Prop}
    (hname : V.left.context.name = V.right.context.name)
    (hts : ∀ t ∈ g.bindings.map Prod.snd, ValueSim P V n t ∧ Owns V t)
    (h : TopGroup V.left g decls) (h' : TopGroup V.right g decls')
    (hρ : namesOf ρ = V.left.names) (hρ' : namesOf ρ' = V.right.names)
    (hks : (g.bindings.map Prod.fst).map (resolve · (namesOf ρ)) = ks.map some)
    (hks' : (g.bindings.map Prod.fst).map (resolve · (namesOf ρ')) = ks'.map some)
    (hplaced : Placed own W.usesLeft s ρ (g.bindings.map Prod.fst) ks decls cs ics)
    (hplaced' : Placed own' W.usesRight s' ρ' (g.bindings.map Prod.fst) ks' decls' cs' ics')
    (hpaired : List.Forall₂ W.paired ics ics') (hagree : Agree V W [] ρ [] ρ')
    (hstores : Stores V W s s')
    (hrest : ∀ W₁ s₁ s₁', Grows (· ∈ cs) (· ∈ cs') s s' W W₁ → Extends (· ∈ cs) s s₁ →
      Extends (· ∈ cs') s' s₁' → Stores V W₁ s₁ s₁' →
      SimAt V (fun ℓ => own ℓ ∨ s.length ≤ ℓ) (fun ℓ => own' ℓ ∨ s'.length ≤ ℓ) W₁ s₁ s₁'
        (exec P (engine P n) ρ rest >>= K n) (fun m => exec P (engine P m) ρ' rest' >>= K' m) Q) :
    SimAt V own own' W s s' (exec P (engine P n) ρ (decls ++ rest) >>= K n)
      (fun m => exec P (engine P m) ρ' (decls' ++ rest') >>= K' m) Q := by
  have hlen : ics.length = (g.bindings.map Prod.snd).length := by
    simpa using (congrArg List.length hplaced.members).symm
  -- a group of functions may be a loop in one of the scripts only
  by_cases harity : ∀ t ∈ g.bindings.map Prod.snd, 0 < t.arity
  · rw [hρ] at hks
    rw [hρ'] at hks'
    obtain ⟨flag, hflag, hgroup⟩ := h.group harity hks
    obtain ⟨flag', hflag', hgroup'⟩ := h'.group harity hks'
    rw [← hρ] at hgroup
    rw [← hρ', ← hname] at hgroup'
    exact sim_functions hgroup hgroup' hflag hflag' harity
      (fun t ht => (hts t ht).2.inner (harity t ht)) (by simp [topRefs]) hlen hplaced
        hplaced' hpaired
      hagree hstores hrest
  · cases h with
    | loop _ _ _ hgroup => exact (harity (arity_of_group hgroup)).elim
    | bindings _ hes =>
      cases h' with
      | loop _ _ _ hgroup => exact (harity (arity_of_group hgroup)).elim
      | bindings _ hes' =>
        rw [← hρ] at hes
        rw [← hρ'] at hes'
        exact sim_consts hts hes hes' hlen hplaced hplaced' hpaired hagree hstores hrest

/-- Both scripts simulate each other over the declarations of `gs`, by induction over `gs` with
`sim_topGroup`. -/
theorem sim_topGroups {gs : List AnalyzedGroup} {ks ks' cs cs' ics ics' : List Nat}
    {decls decls' : List Stmt} {K : Nat → Completion S → Compute S α}
    {K' : Nat → Completion S → Compute S β} {Q : World S → Store S → Store S → α → β → Prop}
    (hname : V.left.context.name = V.right.context.name)
    (hts : ∀ g ∈ gs, ∀ t ∈ g.bindings.map Prod.snd, ValueSim P V n t ∧ Owns V t)
    (h : TopGroups V.left gs decls) (h' : TopGroups V.right gs decls')
    (hρ : namesOf ρ = V.left.names) (hρ' : namesOf ρ' = V.right.names)
    (hks : (gs.flatMap fun g => g.bindings.map Prod.fst).map (resolve · (namesOf ρ)) = ks.map some)
    (hks' : (gs.flatMap fun g => g.bindings.map Prod.fst).map (resolve · (namesOf ρ')) =
      ks'.map some)
    (hplaced : Placed own W.usesLeft s ρ (gs.flatMap fun g => g.bindings.map Prod.fst) ks decls cs
      ics)
    (hplaced' : Placed own' W.usesRight s' ρ' (gs.flatMap fun g => g.bindings.map Prod.fst) ks'
      decls' cs' ics')
    (hpaired : List.Forall₂ W.paired ics ics') (hagree : Agree V W [] ρ [] ρ')
    (hstores : Stores V W s s')
    (hrest : ∀ W₁ s₁ s₁', W ≤ W₁ → Stores V W₁ s₁ s₁' →
      SimAt V (fun ℓ => own ℓ ∨ s.length ≤ ℓ) (fun ℓ => own' ℓ ∨ s'.length ≤ ℓ) W₁ s₁ s₁'
        (K n .normal) (fun m => K' m .normal) Q) :
    SimAt V own own' W s s' (exec P (engine P n) ρ decls >>= K n)
      (fun m => exec P (engine P m) ρ' decls' >>= K' m) Q := by
  induction gs generalizing W s s' own own' ks ks' cs cs' ics ics' decls decls' with
  | nil =>
    cases h
    cases h'
    exact .step (.refl s) (.refl s') (.refl W) (hrest W s s' (World.le_refl W) hstores)
      rfl fun _ => id
  | cons g gs ih =>
    cases h with
    | @cons _ _ decls rest hg hgs =>
    cases h' with
    | @cons _ _ decls' rest' hg' hgs' =>
      have hnames {E : Setting} {decls : List Stmt} (hg : TopGroup E g decls) (x : String)
          (hx : x ∈ g.bindings.map Prod.fst) : x ∈ Script.declared decls := by
        obtain ⟨extra, hdeclared⟩ := declared_of_topGroup hg
        exact hdeclared ▸ List.mem_append_right _ hx
      obtain ⟨ks₁, ks₂, cs₁, cs₂, ics₁, ics₂, hks₁, hks₂, rfl, rfl, hplaced₁, hplaced₂⟩ :=
        hplaced.split hks (fun _ => mem_declared_of_topGroups hgs) (hnames hg)
      obtain ⟨ks₁', ks₂', cs₁', cs₂', ics₁', ics₂', hks₁', hks₂', rfl, rfl, hplaced₁', hplaced₂'⟩ :=
        hplaced'.split hks' (fun _ => mem_declared_of_topGroups hgs') (hnames hg')
      have hlen : ics₁.length = ics₁'.length := by
        have hleft := congrArg List.length hplaced₁.members
        have hright := congrArg List.length hplaced₁'.members
        simp only [List.length_map] at hleft hright
        exact hleft.symm.trans hright
      obtain ⟨hpaired₁, hpaired₂⟩ : List.Forall₂ W.paired ics₁ ics₁' ∧
          List.Forall₂ W.paired ics₂ ics₂' := by
        have hfirst := List.forall₂_take_append _ _ _ hpaired
        have hlast := List.forall₂_drop_append _ _ _ hpaired
        rw [← hlen, List.take_left] at hfirst
        rw [← hlen, List.drop_left] at hlast
        exact ⟨hfirst, hlast⟩
      refine sim_topGroup hname (hts g (List.mem_cons_self ..)) hg hg' hρ hρ' hks₁ hks₁' hplaced₁
        hplaced₁' hpaired₁ hagree hstores fun W₁ s₁ s₁' hgrows hs hs' hstores₁ => ?_
      -- the cells of the later groups are still empty
      have hdisjoint {as bs : List Nat} (h : (as ++ bs).Nodup) (ℓ : Nat) (hℓ : ℓ ∈ bs) : ℓ ∉ as :=
        fun hmem => (List.nodup_append.1 h).2.2 ℓ hmem ℓ hℓ rfl
      refine ih (fun g hg => hts g (List.mem_cons_of_mem _ hg)) hgs hgs' hks₂ hks₂'
        (hplaced₂.later hs (hdisjoint hplaced.nodup) fun ℓ hlt hnot => hgrows.left hlt hnot)
        (hplaced₂'.later hs' (hdisjoint hplaced'.nodup) fun ℓ hlt hnot => hgrows.right hlt hnot)
        (hpaired₂.imp fun _ _ => hgrows.le.paired) (hagree.mono hgrows.le) hstores₁
        fun W₂ s₂ s₂' hle hstores₂ => ?_
      exact (hrest W₂ s₂ s₂' (World.le_trans hgrows.le hle) hstores₂).mono
        (fun _ _ h => .inl h) (fun _ _ h => .inl h) fun _ _ _ _ _ _ => id

/-! ## Modules -/

/-- The world that relates no cells. -/
def World.blank : World S :=
  ⟨fun _ _ => False, fun _ _ => False, fun _ _ => False, fun _ _ => False⟩

theorem Stores.blank (s s' : Store S) : Stores V World.blank s s' where
  cells h := h.elim False.elim False.elim
  paired_left := nofun
  paired_right := nofun
  filled := nofun
  settled_left := nofun
  settled_right := nofun
  left := nofun
  right := nofun

theorem World.not_usesLeft_blank {ℓ : Nat} : ¬(blank : World S).usesLeft ℓ := by
  rintro (⟨_, h | h⟩ | ⟨_, h⟩) <;> exact h

theorem World.not_usesRight_blank {ℓ : Nat} : ¬(blank : World S).usesRight ℓ := by
  rintro (⟨_, h | h⟩ | ⟨_, h⟩) <;> exact h

/-- The names `xs` of `decls`, not written yet, are `Placed` in cells of their own. -/
theorem exists_placed {xs : List String} {decls : List Stmt}
    (hroom : Room own s ρ (Script.declared decls)) (hnodup : xs.Nodup)
    (hxs : ∀ x ∈ xs, x ∈ Script.declared decls)
    (hnames : ∀ x ∈ Script.declared decls, x ∈ namesOf ρ) :
    ∃ ks cs ics, xs.map (resolve · (namesOf ρ)) = ks.map some ∧
      xs.map (ρ.lookup ·) = ics.map some ∧ ics.Nodup ∧ (∀ ℓ ∈ ics, s[ℓ]? = some .empty) ∧
      ∀ uses, (∀ ℓ, uses ℓ → ℓ ∈ ics) → Placed own uses s ρ xs ks decls cs ics := by
  obtain ⟨cs, hcs, hcsnodup, hcells⟩ := hroom
  obtain ⟨ks, hks⟩ : ∃ ks : List Nat, xs.map (resolve · (namesOf ρ)) = ks.map some := by
    refine ⟨xs.map fun x => (resolve x (namesOf ρ)).getD 0, ?_⟩
    rw [List.map_map]
    refine List.map_congr_left fun x hx => ?_
    obtain ⟨k, hk⟩ := Option.isSome_iff_exists.1 (isSome_resolve (hnames x (hxs x hx)))
    simp [hk]
  obtain ⟨ics, hics, hnumbers⟩ := map_lookup_of_resolve hks
  have hsub {ℓ : Nat} (hℓ : ℓ ∈ ics) : ℓ ∈ cs := mem_cells_of_subset hics hcs hxs hℓ
  -- different names have different cells
  have hinj := List.inj_on_of_nodup_map (hcs ▸ hcsnodup.map fun _ _ => Option.some.inj)
  have hicsnodup : (ics.map some).Nodup :=
    hics ▸ hnodup.map_on fun x hx y hy => hinj (hxs x hx) (hxs y hy)
  refine ⟨ks, cs, ics, hks, hics, .of_map _ hicsnodup, fun ℓ hℓ => (hcells ℓ (hsub hℓ)).2,
    fun uses huses => ⟨hcs, hcsnodup, hcells, hics, hnumbers, fun ℓ _ => ?_⟩⟩
  by_cases hu : uses ℓ
  · exact .inl (huses ℓ hu)
  · exact .inr hu

/-- If the cells `ics` and `ics'` of `V.tops` are paired, `Agree` holds at the start of both
modules. -/
theorem agree_tops {ics ics' : List Nat} (hρ : namesOf ρ = V.left.names)
    (hρ' : namesOf ρ' = V.right.names) (hics : V.tops.map (ρ.lookup ·) = ics.map some)
    (hics' : V.tops.map (ρ'.lookup ·) = ics'.map some) (hpaired : List.Forall₂ W.paired ics ics') :
    Agree V W [] ρ [] ρ' where
  bound := nofun
  global {x k k'} hx hk hk' := by
    rw [← hρ] at hk
    rw [← hρ'] at hk'
    obtain ⟨ℓ, hℓ, hcell⟩ := lookup_of_resolve hk
    obtain ⟨ℓ', hℓ', hcell'⟩ := lookup_of_resolve hk'
    obtain ⟨i, hi⟩ := List.mem_iff_getElem?.1 hx
    have hget {ρ : Scope} {ics : List Nat} {ℓ : Nat} (hics : V.tops.map (ρ.lookup ·) = ics.map some)
        (hℓ : ρ.lookup x = some ℓ) : ics[i]? = some ℓ := by
      have hat := congrArg (·[i]?) hics
      simp only [List.getElem?_map, hi, Option.map_some, hℓ] at hat
      obtain ⟨m, hm, heq⟩ := Option.map_eq_some_iff.1 hat.symm
      rw [hm, Option.some.inj heq]
    refine ⟨ℓ, ℓ', hcell, hcell', .inr ((List.forall₂_iff_zip.1 hpaired).2 ?_)⟩
    exact List.mem_of_getElem? (List.getElem?_zip_eq_some.2 ⟨hget hics hℓ, hget hics' hℓ'⟩)

/-- What follows the declarations of a module: the value of `x` is called with the lists `calls` of
arguments. -/
def answer (P : Primitives S) (ρ : Scope) (x : String) (calls : List (List (Val S))) (n : Nat) :
    Completion S → Compute S (Val S)
  | .normal => do
    let v ← Compute.read ρ x
    callChain (engine P n) v calls
  | _ => .stuck

/-- `runCalls` of a module executes its declarations in a scope of their names and then `answer`. -/
theorem runCalls_apply (P : Primitives S) (m : Script.Module) (link : Import → Val S) (x : String)
    (calls : List (List (Val S))) (h : (Script.declared m.declarations).Nodup) :
    ∃ (ρ : Scope) (s : Store S), namesOf ρ = enter [] m.names ∧
      Room (fun _ => True) s ρ (Script.declared m.declarations) ∧
      ∀ n, m.runCalls P (engine P n) link x calls [] =
        (exec P (engine P n) ρ m.declarations >>= answer P ρ x calls n) s := by
  let names := m.imports.map Import.name
  let ρ : Scope := extend [] (names.zip (List.range' 0 names.length))
  let s : Store S := [] ++ m.imports.map fun i => .constant (link i)
  refine ⟨blockScope ρ s m.declarations, blockStore s m.declarations, ?_,
    room_block _ ρ s h fun _ _ => trivial, fun n => ?_⟩
  · rw [namesOf_blockScope, namesOf_extend _ (by simp)]
    simp [enter, Module.names, names]
  · rw [Module.runCalls, Compute.bind_ok (enterWith_apply ..),
      Compute.bind_ok (enterBlock_apply ..)]
    have hanswer : (fun c => match c with
        | Completion.normal => do
          let v ← Compute.read (blockScope ρ s m.declarations) x
          callChain (engine P n) v calls
        | _ => Compute.stuck) = answer P (blockScope ρ s m.declarations) x calls n := by
      funext c
      cases c <;> rfl
    rw [← hanswer]
    rfl

/-- Values `v` and `v'` that are the `Same` simulate each other when they are called with
`calls`. -/
theorem sim_callChain (hfit : V.Fit P) {calls : List (List (Val S))}
    (hcalls : ∀ args ∈ calls, Val.isDataAll args = true) {v v' : Val S} (h : Same V W v v') :
    Sim V W (callChain (engine P n) v calls) (fun m => callChain (engine P m) v' calls)
      (Same V) := by
  induction calls generalizing W v v' with
  | nil => exact .pure h
  | cons args rest ih =>
    have hargs : SameAll V W args args := .of_isData (hcalls args (List.mem_cons_self ..))
    have hcall := sim_call hfit (fun m _ u => (simulation P hfit m u).1) h hargs (n := n)
    simp only [callChain]
    exact hcall.bind fun W₁ _ a b hsame => ih (fun args h => hcalls args (List.mem_cons_of_mem _ h))
      hsame

/-- `runCalls` of the two scripts `m` and `m'` of one unit simulate each other. -/
theorem sim_module (hfit : V.Fit P) {gs : List AnalyzedGroup} {m m' : Script.Module}
    (hleft : V.left.names = enter [] m.names) (hright : V.right.names = enter [] m'.names)
    (htops : V.tops = gs.flatMap fun g => g.bindings.map Prod.fst) (hnodup : V.tops.Nodup)
    (howns : ∀ g ∈ gs, ∀ t ∈ g.bindings.map Prod.snd, Owns V t)
    (hgs : TopGroups V.left gs m.declarations) (hgs' : TopGroups V.right gs m'.declarations)
    (hm : (Script.declared m.declarations).Nodup) (hm' : (Script.declared m'.declarations).Nodup)
    (link link' : Import → Val S) {x : String} (hx : x ∈ V.tops) {calls : List (List (Val S))}
    (hcalls : ∀ args ∈ calls, Val.isDataAll args = true) (n : Nat) :
    SimAt V (fun _ => True) (fun _ => True) World.blank [] []
      (m.runCalls P (engine P n) link x calls) (fun k => m'.runCalls P (engine P k) link' x calls)
      fun W₁ _ _ => Same V W₁ := by
  obtain ⟨ρ, s, hρ, hroom, hrun⟩ := runCalls_apply P m link x calls hm
  obtain ⟨ρ', s', hρ', hroom', hrun'⟩ := runCalls_apply P m' link' x calls hm'
  have hdeclared {m : Script.Module} {ρ : Scope} (hρ : namesOf ρ = enter [] m.names) (y : String)
      (hy : y ∈ Script.declared m.declarations) : y ∈ namesOf ρ := by
    rw [hρ]
    simp [enter, Module.names, hy]
  have hsub {E : Setting} {m : Script.Module} (hgs : TopGroups E gs m.declarations) (y : String)
      (hy : y ∈ V.tops) : y ∈ Script.declared m.declarations :=
    mem_declared_of_topGroups hgs (htops ▸ hy)
  obtain ⟨ks, cs, ics, hks, hics, hicsnodup, hempty, hplaced⟩ :=
    exists_placed hroom hnodup (hsub hgs) (hdeclared hρ)
  obtain ⟨ks', cs', ics', hks', hics', hicsnodup', hempty', hplaced'⟩ :=
    exists_placed hroom' hnodup (hsub hgs') (hdeclared hρ')
  -- the cells of the top-level names belong together from the beginning
  obtain ⟨W, hW⟩ : ∃ W : World S, W = World.blank.pair (ics.zip ics') := ⟨_, rfl⟩
  have hlen : ics.length = ics'.length := by
    have hleft := congrArg List.length hics
    have hright := congrArg List.length hics'
    simp only [List.length_map] at hleft hright
    exact hleft.symm.trans hright
  have hpaired : List.Forall₂ W.paired ics ics' :=
    List.forall₂_iff_zip.2 ⟨hlen, fun hq => hW ▸ .inr hq⟩
  -- nothing else is spoken of
  have huses (ℓ : Nat) (hu : W.usesLeft ℓ) : ℓ ∈ ics := by
    rcases World.usesLeft_pair (hW ▸ hu) with hu | ⟨q, hq, rfl⟩
    · exact (World.not_usesLeft_blank hu).elim
    · exact (List.of_mem_zip hq).1
  have huses' (ℓ : Nat) (hu : W.usesRight ℓ) : ℓ ∈ ics' := by
    rcases World.usesRight_pair (hW ▸ hu) with hu | ⟨q, hq, rfl⟩
    · exact (World.not_usesRight_blank hu).elim
    · exact (List.of_mem_zip hq).2
  have hstores : Stores V W s s' := by
    rw [hW]
    exact (Stores.blank s s').pairEmpty hicsnodup hicsnodup'
      (fun ℓ hℓ => ⟨World.not_usesLeft_blank, hempty ℓ hℓ⟩)
      fun ℓ hℓ => ⟨World.not_usesRight_blank, hempty' ℓ hℓ⟩
  have hagree : Agree V W [] ρ [] ρ' :=
    agree_tops (hρ.trans hleft.symm) (hρ'.trans hright.symm) hics hics' hpaired
  -- the declarations fill the cells, and then the name is looked up and called
  have hstart : SimAt V (fun _ => True) (fun _ => True) W s s'
      (exec P (engine P n) ρ m.declarations >>= answer P ρ x calls n)
      (fun k => exec P (engine P k) ρ' m'.declarations >>= answer P ρ' x calls k)
      fun W₁ _ _ => Same V W₁ := by
    rw [htops] at hks hks' hplaced hplaced'
    refine sim_topGroups hfit.name (fun g hg t ht => ⟨(simulation P hfit n t).2.1, howns g hg t ht⟩)
      hgs hgs' (hρ.trans hleft.symm) (hρ'.trans hright.symm) hks hks' (hplaced _ huses)
      (hplaced' _ huses') hpaired hagree hstores fun W₁ s₁ s₁' hle hstores₁ => ?_
    obtain ⟨k, hk⟩ := Option.isSome_iff_exists.1 (isSome_resolve (hdeclared hρ x (hsub hgs x hx)))
    obtain ⟨k', hk'⟩ := Option.isSome_iff_exists.1
      (isSome_resolve (hdeclared hρ' x (hsub hgs' x hx)))
    have hcells := (hagree.mono hle).global hx (by rwa [hleft, ← hρ]) (by rwa [hright, ← hρ'])
    have hread : Sim V W₁ (Compute.read ρ x) (fun _ => Compute.read ρ' x) (Same V) := by
      simpa only [eval] using sim_ident (P := P) (n := n) hk hk' hcells
    exact (hread.bind fun _ _ _ _ hsame => sim_callChain hfit hcalls hsame).at hstores₁
  refine .step ⟨Nat.zero_le _, fun _ hnot => (hnot trivial).elim⟩
    ⟨Nat.zero_le _, fun _ hnot => (hnot trivial).elim⟩
    ⟨hW ▸ World.le_pair _ _, fun _ hnot => (hnot trivial).elim, fun _ hnot => (hnot trivial).elim⟩
    (hstart.mono (fun _ _ _ => .inl trivial) (fun _ _ _ => .inl trivial) fun _ _ _ _ _ _ => id)
    (hrun n) fun o h => h.imp fun N hN k hk => (hrun' k).trans (hN k hk)

/-- If `x` ends with the outcome `o` without functions and `y` simulates it, `y` ends with `o`
too. -/
theorem SimAt.outcome {x : Compute S (Val S)} {y : Nat → Compute S (Val S)}
    (h : SimAt V own own' W s s' x y fun W₁ _ _ => Same V W₁) {o : Except (Val S) (Val S)}
    (hdata : isDataOutcome o = true) (ho : x.outcome? s = some o) :
    ∃ N, (y N).outcome? s' = some o := by
  cases hx : x s with
  | none =>
    rw [Compute.outcome?, hx] at ho
    cases ho
  | some o₁ =>
    obtain ⟨o₁', ⟨N, hN⟩, hmatch⟩ := h o₁ hx
    refine ⟨N, ?_⟩
    rw [Compute.outcome?, hx] at ho
    rw [Compute.outcome?, hN N (Nat.le_refl N)]
    cases hmatch with
    | error hsame =>
      obtain rfl := Option.some.inj ho
      rw [hsame.eq_of_isData hdata]
    | ok _ _ _ _ hsame =>
      obtain rfl := Option.some.inj ho
      rw [hsame.eq_of_isData hdata]

end

/-- What a call comes to in the script of `u` with loops iff `l`, it comes to in the one with loops
iff `r`. -/
theorem ends_of_ends {u : CompilationUnit} (hnames : u.WellNamed) (hclosed : u.Closed)
    (hnodup : (u.bindings.map Prod.fst).Nodup) {P : Primitives S} (hP : P.TellsApart u.largestGroup)
    (l r : Bool) {link : Import → Val S} {x : String} (hx : x ∈ u.bindings.map Prod.fst)
    {calls : List (List (Val S))} (hcalls : ∀ args ∈ calls, Val.isDataAll args = true)
    {outcome : Except (Val S) (Val S)} (hdata : isDataOutcome outcome = true)
    (h : (Lower.module u l).result.Ends P link x calls outcome) :
    (Lower.module u r).result.Ends P link x calls outcome := by
  obtain ⟨n, hn⟩ := h
  have htops : (u.versions l r).tops = u.analyze.flatMap fun g => g.bindings.map Prod.fst := by
    rw [CompilationUnit.analyze, List.flatMap_map]
    simp only [BindingGroup.map_fst_analyze]
    rw [CompilationUnit.versions, CompilationUnit.bindings, List.map_flatMap]
  have howns (g : AnalyzedGroup) (hg : g ∈ u.analyze) (t : Analyzed)
      (ht : t ∈ g.bindings.map Prod.snd) : Owns (u.versions l r) t := by
    obtain ⟨g', hg', rfl⟩ := List.mem_map.1 hg
    obtain ⟨b, hb, rfl⟩ := BindingGroup.exists_of_mem_analyze ht
    exact owns_analyze l r (hclosed.globals b (List.mem_flatMap.2 ⟨g', hg', hb⟩)) _
  have hsim := sim_module (fit_versions l r hclosed hP) rfl rfl htops hnodup howns
    (topGroups_module u l hnames) (topGroups_module u r hnames) (nodup_declared_module u l hnodup)
    (nodup_declared_module u r hnodup) link link hx hcalls n
  exact hsim.outcome hdata hn

end Emit

open Script Emit in
/-- Loops keep what scripts do. A unit whose names are in order and that refers to itself only can
be lowered with loops and without. Whatever values without parts and their operators are, as long as
they tell the members of a group apart by their numbers: a call of a top-level name with arguments
that contain no functions ends with a result or a thrown value without functions in the one script
if and only if it does in the other. -/
theorem loops_keep_ends (u : CompilationUnit) (hnames : u.WellNamed) (hclosed : u.Closed)
    (hnodup : (u.bindings.map Prod.fst).Nodup) :
    ∃ looped reports plain reports', u.lower true = .ok (looped, reports) ∧
      u.lower false = .ok (plain, reports') ∧
      ∀ {S : Type} (P : Primitives S), P.TellsApart u.largestGroup →
        ∀ (link : Import → Val S), ∀ x ∈ u.bindings.map Prod.fst, ∀ calls : List (List (Val S)),
          (∀ args ∈ calls, Val.isDataAll args = true) → ∀ outcome, isDataOutcome outcome = true →
            (looped.Ends P link x calls outcome ↔ plain.Ends P link x calls outcome) := by
  refine ⟨_, _, _, _, hnames.bindsOnce.lower true, hnames.bindsOnce.lower false,
    fun P hP link x hx calls hcalls outcome hdata => ⟨?_, ?_⟩⟩
  · exact ends_of_ends hnames hclosed hnodup hP true false hx hcalls hdata
  · exact ends_of_ends hnames hclosed hnodup hP false true hx hcalls hdata

/-- Truth values, integers and texts with some of their operators; `none` is the undefined value. -/
def Script.literals : Script.Primitives (Option Literal) where
  undefined := none
  boolean b := some (.boolean b)
  int i := some (.int i)
  number x := some (.number x)
  text s := some (.text s)
  truthy
    | some (.boolean b) => b
    | some (.int i) => i ≠ 0
    | some (.text s) => s ≠ ""
    | some _ => true
    | none => false
  truthy_boolean _ := rfl
  unary
    | .not, .scalar (some (.boolean b)) => some (some (.boolean !b))
    | _, _ => none
  binary
    | .eq, .scalar (some (.int i)), .scalar (some (.int j)) => some (some (.boolean (i = j)))
    | .sub, .scalar (some (.int i)), .scalar (some (.int j)) => some (some (.int (i - j)))
    | _, _, _ => none
  property _ _ := none
  position
    | some (.int i) => some i.toNatClampNeg
    | _ => none
  element _ _ := none
  fields _ := []

open Script in
/-- The unit `countdown` counts down to zero, which is even, with loops and without. -/
theorem loops_keep_ends_countdown :
    countdown.WellNamed ∧ countdown.Closed ∧ (countdown.bindings.map Prod.fst).Nodup ∧
      literals.TellsApart countdown.largestGroup ∧
      ∃ looped reports plain reports', countdown.lower true = .ok (looped, reports) ∧
        countdown.lower false = .ok (plain, reports') ∧
        plain.Ends literals (fun _ => default) "go" [[.scalar (some (.int 2))]]
          (.ok (.scalar (some (.boolean true)))) ∧
        looped.Ends literals (fun _ => default) "go" [[.scalar (some (.int 2))]]
          (.ok (.scalar (some (.boolean true)))) := by
  have hnames : countdown.WellNamed := by
    refine ⟨by decide, ?_, by decide, by decide⟩
    unfold CompilationUnit.BindsOnce
    decide
  have hclosed : countdown.Closed := ⟨by decide, by decide⟩
  have hnodup : (countdown.bindings.map Prod.fst).Nodup := by decide
  have hsize : countdown.largestGroup = 2 := by decide
  have htells : literals.TellsApart countdown.largestGroup := by
    rw [hsize]
    intro i j hi hj
    obtain rfl | rfl : i = 0 ∨ i = 1 := by omega
    all_goals
      obtain rfl | rfl : j = 0 ∨ j = 1 := by omega
      all_goals rfl
  have hplain : (Lower.module countdown false).result.Ends literals (fun _ => default) "go"
      [[.scalar (some (.int 2))]] (.ok (.scalar (some (.boolean true)))) := ⟨9, by cbv⟩
  obtain ⟨looped, reports, plain, reports', hlooped, hlower, hends⟩ :=
    loops_keep_ends countdown hnames hclosed hnodup
  obtain rfl : plain = (Lower.module countdown false).result := by
    rw [hnames.bindsOnce.lower false] at hlower
    cases hlower
    rfl
  refine ⟨hnames, hclosed, hnodup, htells, looped, reports, _, reports', hlooped,
    hlower, hplain, ?_⟩
  exact (hends literals htells _ "go" (by decide) _ (by decide) _ rfl).2 hplain

end TailLoop
