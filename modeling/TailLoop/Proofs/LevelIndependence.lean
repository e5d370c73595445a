import TailLoop.Proofs.BlockEnds
import TailLoop.Proofs.Levels
import TailLoop.Proofs.LoopIndependence
import TailLoop.Proofs.NameResolution

/-!
# Levels are only identities

The lowering of a unit does not depend on the levels of its binders, as long as different binders of
one name keep different levels: they are keys of the table of names and parts of the references of
loop members, and neither is written. This is stated for two runs of the lowering, of a term and of
the renumbered term. The state of the second run is that of the first one, renumbered, and all that
is written is the same. Only a variable without a binder would be named by its level, so variables
have to lie in the scope of their binders.

* `Mirror`: the states of the two runs.
* `Mirrors`: two steps that write the same.
* `mirrors_code`: a term and the renumbered term are lowered to the same.
* `module_relevel`: the statement for whole units.
-/

namespace TailLoop

/-- The binders of `t` have names of their own, and `t` is no variable or one whose binder is in
`scope`. -/
def Term.namedIn {α : Type} (scope : List Binder) (t : Term α) : Bool :=
  (t.binders.all fun b => b.name.isSome) && t.inScope scope

namespace Lower

open Script Lowering Term

variable {α β ι : Type} {s : Renumbering} {Γ : List Binder}

/-! ## States -/

/-- The loop `scope` with the references of its members renumbered by `s`. -/
def LoopScope.relevel (s : Renumbering) (scope : LoopScope) : LoopScope :=
  { scope with members := scope.members.map fun m => (m.1.relevel s, m.2) }

/-- The jump `j` with the references of its loop renumbered by `s`. -/
def Jump.relevel (s : Renumbering) (j : Jump) : Jump := { j with scope := j.scope.relevel s }

/-- The environment `e` with its binders and references renumbered by `s`. -/
def Env.relevel (s : Renumbering) (e : Env) : Env where
  counters := e.counters
  names := e.names.mapKeys (Binder.relevel s) (Binder.relevel_injective s)
  scopes := e.scopes.map (LoopScope.relevel s)

/-- `p'` is `p` renumbered by `s`, up to the journal and the texts of clashes. -/
structure Mirror (s : Renumbering) (p p' : Progress) : Prop where
  /-- The environments. -/
  env : p'.env = p.env.relevel s
  /-- There was a clash in both runs or in none. -/
  clash : p'.clash.isSome = p.clash.isSome

/-- All binders of `bs` have names in the environment of `p`. -/
def Knows (bs : List Binder) (p : Progress) : Prop := ∀ b ∈ bs, p.env.names.contains b = true

/-- The binders with names in `p` have names in `q`, which need not be the same. -/
def Remembers (p q : Progress) : Prop :=
  ∀ b, p.env.names.contains b = true → q.env.names.contains b = true

theorem Remembers.refl (p : Progress) : Remembers p p := fun _ h => h

theorem Remembers.trans {p q r : Progress} (h : Remembers p q) (h' : Remembers q r) :
    Remembers p r := fun b hb => h' b (h b hb)

theorem Knows.remembers {bs : List Binder} {p q : Progress} (h : Knows bs p) (hq : Remembers p q) :
    Knows bs q := fun b hb => hq b (h b hb)

/-! ## Steps -/

/-- Where the binders `Γ` have names, the two steps have the same result, and their states stay
renumbered. Afterwards the binders `bs` have names as well. -/
def Names (s : Renumbering) (Γ bs : List Binder) (m m' : Lowering α) : Prop :=
  ∀ p p', Mirror s p p' → Knows Γ p →
    (m' p').1 = (m p).1 ∧ Mirror s (m p).2 (m' p').2 ∧ Remembers p (m p).2 ∧ Knows bs (m p).2

/-- Where the binders `Γ` have names, the two steps have the same result, and their states stay
renumbered. -/
abbrev Mirrors (s : Renumbering) (Γ : List Binder) (m m' : Lowering α) : Prop := Names s Γ [] m m'

section Steps

variable {m m' : Lowering α} {bs bs' : List Binder}

/-- `pure` has no effect, so it names no binder. -/
theorem Names.pure (a : α) : Mirrors s Γ (pure a) (pure a) :=
  fun p _ hp _ => ⟨rfl, hp, .refl p, by nofun⟩

/-- `f` may wrap the results. -/
theorem Names.map (f : α → β) (hm : Names s Γ bs m m') :
    Names s Γ bs (do return f (← m)) (do return f (← m')) := by
  intro p p' hp hknows
  obtain ⟨hresult, hstates⟩ := hm p p' hp hknows
  exact ⟨congrArg f hresult, hstates⟩

/-- If `m` names the binders `bs`, it names any of them and of those in `Γ`. -/
theorem Names.mono (hm : Names s Γ bs m m') (h : bs' ⊆ bs ++ Γ) : Names s Γ bs' m m' := by
  intro p p' hp hknows
  obtain ⟨hresult, hmirror, hremembers, hbs⟩ := hm p p' hp hknows
  refine ⟨hresult, hmirror, hremembers, fun b hb => ?_⟩
  exact List.forall_mem_append.2 ⟨hbs, hknows.remembers hremembers⟩ b (h hb)

/-- A step with the binders `bs ++ Γ` around it still has names for `bs` when it is done. -/
theorem Mirrors.names (hm : Mirrors s (bs ++ Γ) m m') : Names s (bs ++ Γ) bs m m' :=
  hm.mono (List.subset_append_left bs Γ)

/-- If `m` names `bs` and its result satisfies `out`, then `k` runs with `bs` around it and may
assume `out` of its argument. -/
theorem Names.bind_gives {k k' : α → Lowering β} {out : α → Prop} (hm : Names s Γ bs m m')
    (hout : Gives m out) (hk : ∀ a, out a → Names s (bs ++ Γ) bs' (k a) (k' a)) :
    Names s Γ bs' (m >>= k) (m' >>= k') := by
  intro p p' hp hknows
  obtain ⟨hresult, hmirror, hremembers, hbs⟩ := hm p p' hp hknows
  have hnext := hk (m p).1 (hout p) (m p).2 (m' p').2 hmirror
    (List.forall_mem_append.2 ⟨hbs, hknows.remembers hremembers⟩)
  have hsame : k' (m p).1 (m' p').2 = (m' >>= k') p' := by
    rw [← hresult]
    rfl
  rw [hsame] at hnext
  obtain ⟨hresult', hmirror', hremembers', hbs'⟩ := hnext
  exact ⟨hresult', hmirror', hremembers.trans hremembers', hbs'⟩

/-- If `m` names `bs`, then `k` runs with `bs` around it. -/
theorem Names.bind {k k' : α → Lowering β} (hm : Names s Γ bs m m')
    (hk : ∀ a, Names s (bs ++ Γ) bs' (k a) (k' a)) : Names s Γ bs' (m >>= k) (m' >>= k') :=
  hm.bind_gives (.any m) fun a _ => hk a

/-- `report` adds a report. -/
theorem mirrors_report (detail : Detail) (message message' : String) :
    Mirrors s Γ (report detail message) (report detail message') :=
  fun p _ hp _ => ⟨rfl, ⟨hp.env, hp.clash⟩, .refl p, by nofun⟩

/-- `clash` notes a call with the wrong number of arguments. -/
theorem mirrors_clash (x x' : ArityClash) : Mirrors s Γ (clash x) (clash x') :=
  fun p _ hp _ => ⟨rfl, ⟨hp.env, rfl⟩, .refl p, by nofun⟩

/-- `Env.fresh` reads the taken names only, and these are not renumbered. -/
theorem Env.fresh_relevel (e : Env) (base : String) :
    (e.relevel s).fresh base = ((e.fresh base).1, (e.fresh base).2.relevel s) := rfl

/-- `freshName`: a name that is not taken. -/
theorem mirrors_freshName (base : String) : Mirrors s Γ (freshName base) (freshName base) := by
  intro p p' hp _
  have hrun (p : Progress) : freshName base p =
      ((p.env.fresh base).1, { p with env := (p.env.fresh base).2 }) := rfl
  rw [hrun, hrun, hp.env, Env.fresh_relevel]
  exact ⟨rfl, ⟨rfl, hp.clash⟩, fun b hb => hb, by nofun⟩

/-- `freshNames`: a name for each base. -/
theorem mirrors_freshNames (bases : List String) :
    Mirrors s Γ (freshNames bases) (freshNames bases) := by
  induction bases with
  | nil => exact .pure []
  | cons base rest ih => exact (mirrors_freshName base).bind fun name => ih.map _

/-- `bindName`: a name for a binder. -/
theorem names_bindName {b : Binder} (hb : b.name.isSome = true) :
    Names s Γ [b] (bindName b) (bindName (b.relevel s)) := by
  intro p p' hp _
  obtain ⟨name, hname⟩ := Option.isSome_iff_exists.1 hb
  have hrun (b : Binder) (hb : b.name = some name) (p : Progress) : bindName b p =
      ((p.env.fresh name).1, { p with
        env := { (p.env.fresh name).2 with
          names := p.env.names.insert b (p.env.fresh name).1 } }) := by
    simp only [bindName, Env.bind, hb]
    rfl
  rw [hrun b hname, hrun (b.relevel s) hname, hp.env, Env.fresh_relevel]
  have hcontains (x : Binder) : (p.env.names.insert b (p.env.fresh name).1).contains x = true ↔
      x = b ∨ p.env.names.contains x = true := by
    simp only [Table.contains, Table.insert, Table.get?_alter]
    by_cases hx : x = b <;> simp [hx]
  refine ⟨rfl, ⟨?_, hp.clash⟩, fun x hx => (hcontains x).2 (.inr hx), ?_⟩
  · simp [Env.relevel]
  · exact List.forall_mem_singleton.2 ((hcontains b).2 (.inl rfl))

/-- `bindNames`: names for binders. -/
theorem names_bindNames {bs : List Binder} (hbs : ∀ b ∈ bs, b.name.isSome = true) :
    Names s Γ bs (bindNames bs) (bindNames (bs.map (Binder.relevel s))) := by
  induction bs generalizing Γ with
  | nil => exact .pure []
  | cons b rest ih =>
    obtain ⟨hb, hrest⟩ := List.forall_mem_cons.1 hbs
    refine (names_bindName hb).bind fun name => ?_
    refine ((ih hrest).map (name :: ·)).mono fun x hx => ?_
    rcases List.mem_cons.1 hx with rfl | hx
    · exact List.mem_append_right _ (List.mem_cons_self ..)
    · exact List.mem_append_left _ hx

/-- `nameOf` finds the name of a binder of `Γ` under its renumbered binder. -/
theorem mirrors_nameOf {b : Binder} (hb : b ∈ Γ) :
    Mirrors s Γ (nameOf b) (nameOf (b.relevel s)) := by
  intro p p' hp hknows
  obtain ⟨name, hname⟩ := Option.isSome_iff_exists.1 (hknows b hb)
  have hlookup : p'.env.lookup (b.relevel s) = p.env.lookup b := by
    rw [hp.env, Env.lookup, Env.lookup, Env.relevel, Table.get?_mapKeys, hname]
    rfl
  exact ⟨hlookup, hp, .refl p, List.forall_mem_nil _⟩

/-- `Env.findIn` finds a renumbered reference where it found the reference `r`. -/
theorem findIn_relevel (r : Ref) (n : Nat) (S : List LoopScope) :
    Env.findIn (r.relevel s) n (S.map (LoopScope.relevel s)) =
      (Env.findIn r n S).map (Jump.relevel s) := by
  induction S generalizing n with
  | nil => rfl
  | cons scope rest ih =>
    have hindex : ((scope.relevel s).members.findIdx? fun m => decide (m.1 = r.relevel s)) =
        scope.members.findIdx? fun m => decide (m.1 = r) := by
      rw [LoopScope.relevel, List.findIdx?_map]
      congr 1
      funext m
      simp [(Ref.relevel_injective s).eq_iff]
    rw [List.map_cons, Env.findIn, Env.findIn, hindex, ih]
    cases scope.members.findIdx? fun m => decide (m.1 = r) with
    | none => rfl
    | some i =>
      simp [Jump.relevel, LoopScope.relevel, List.getElem?_map, Function.comp_def]

/-- `jumpTo?` finds the same jump, renumbered, so `k'` has to follow `k` on renumbered jumps
only. -/
theorem names_jumpTo? {r : Ref} {k k' : Option Jump → Lowering β}
    (hk : ∀ j?, Names s Γ bs (k j?) (k' (j?.map (Jump.relevel s)))) :
    Names s Γ bs (jumpTo? r >>= k) (jumpTo? (r.relevel s) >>= k') := by
  intro p p' hp hknows
  have hfind : p'.env.findJump? (r.relevel s) = (p.env.findJump? r).map (Jump.relevel s) := by
    rw [hp.env]
    exact findIn_relevel r 0 p.env.scopes
  have hrun (r : Ref) (k : Option Jump → Lowering β) (p : Progress) :
      (jumpTo? r >>= k) p = k (p.env.findJump? r) p := rfl
  rw [hrun, hrun, hfind]
  exact hk _ p p' hp hknows

/-- `inLoop`: a step inside a loop. -/
theorem names_inLoop {scope : LoopScope} (hm : Names s Γ bs m m') :
    Names s Γ bs (inLoop scope m) (inLoop (scope.relevel s) m') := by
  intro p p' hp hknows
  have henter : Mirror s (enterLoop scope p) (enterLoop (scope.relevel s) p') :=
    ⟨congrArg (Env.push · (scope.relevel s)) hp.env, hp.clash⟩
  obtain ⟨hresult, hmirror, hremembers, hbs⟩ := hm _ _ henter hknows
  have htruncate (e : Env) (depth : Nat) :
      (e.relevel s).truncate depth = (e.truncate depth).relevel s := by
    simp [Env.truncate, Env.relevel]
  have hdepth : p'.env.depth = p.env.depth := by
    rw [hp.env]
    exact List.length_map ..
  refine ⟨hresult, ⟨?_, hmirror.clash⟩, hremembers, hbs⟩
  show (m' (enterLoop (scope.relevel s) p')).2.env.truncate p'.env.depth = _
  rw [hmirror.env, hdepth, htruncate]
  rfl

variable {xs : List ι} {f f' : ι → Lowering α}

/-- `all`: steps one after the other. -/
theorem mirrors_all (h : ∀ x ∈ xs, Mirrors s Γ (f x) (f' x)) :
    Mirrors s Γ (all (xs.map f)) (all (xs.map f')) := by
  induction xs with
  | nil => exact .pure []
  | cons x rest ih =>
    obtain ⟨hx, hrest⟩ := List.forall_mem_cons.1 h
    exact hx.bind fun a => (ih hrest).map _

end Steps

/-! ## Ways to lower a term -/

/-- `K'` writes in all its ways what `K` writes, once the binders of `Γ` have names. -/
structure Code.Mirrors (s : Renumbering) (Γ : List Binder) (K K' : Code) : Prop where
  /-- The expressions are the same. -/
  value : Lower.Mirrors s Γ K.value K'.value
  /-- The statements are the same. -/
  returned : Lower.Mirrors s Γ K.returned K'.returned
  /-- The effects are the same. -/
  run : Lower.Mirrors s Γ K.run K'.run
  /-- The blocks are the same. -/
  block : ∀ mode, Lower.Mirrors s Γ (K.block mode) (K'.block mode)

section Combinators

variable {value value' : Lowering Script.Expr} {K K' L L' : Code} {xs : List ι}
  {f f' : ι → Lowering Script.Expr}

/-- `Code.ofReturn`: a value with a returning statement of its own. -/
theorem mirrors_ofReturn {returned returned' : Lowering Stmt} (hv : Mirrors s Γ value value')
    (hr : Mirrors s Γ returned returned') :
    (Code.ofReturn value returned).Mirrors s Γ (Code.ofReturn value' returned') where
  value := hv
  returned := hr
  run := hv.map _
  block mode := by
    simp only [Code.ofReturn]
    split
    · exact hv.map _
    · exact hr.map _

/-- `Code.ofValue`: a term that is an expression. -/
theorem mirrors_ofValue (hv : Mirrors s Γ value value') :
    (Code.ofValue value).Mirrors s Γ (Code.ofValue value') := mirrors_ofReturn hv (hv.map _)

/-- `Code.ofObject`: a term that is an object literal. -/
theorem mirrors_ofObject (hv : Mirrors s Γ value value') :
    (Code.ofObject value).Mirrors s Γ (Code.ofObject value') := mirrors_ofReturn hv (hv.map _)

/-- `Code.ofBlock`: a term that is written as statements. -/
theorem mirrors_ofBlock {block block' : Mode → Lowering (List Stmt)}
    (h : ∀ mode, Mirrors s Γ (block mode) (block' mode)) :
    (Code.ofBlock block).Mirrors s Γ (Code.ofBlock block') where
  value := (h .plain).map _
  returned := (h .plain).map _
  run := (h .plain).map _
  block := h

/-- `Code.ofEffect`: an effect, which is a function where it is not run. -/
theorem mirrors_ofEffect {body body' : Lowering (List Stmt)} {run run' : Lowering Script.Expr}
    {block block' : Mode → Lowering (List Stmt)} (hbody : Mirrors s Γ body body')
    (hrun : Mirrors s Γ run run') (hblock : ∀ mode, Mirrors s Γ (block mode) (block' mode)) :
    (Code.ofEffect body run block).Mirrors s Γ (Code.ofEffect body' run' block') where
  value := hbody.map _
  returned := hbody.map _
  run := hrun
  block mode := by
    simp only [Code.ofEffect]
    split
    · exact hblock mode
    · exact hbody.map _

/-- `callEach`: a call with arguments one by one. -/
theorem mirrors_callEach (hf : Mirrors s Γ value value')
    (hxs : ∀ x ∈ xs, Mirrors s Γ (f x) (f' x)) :
    Mirrors s Γ (callEach value (xs.map f)) (callEach value' (xs.map f')) := by
  induction xs generalizing value value' with
  | nil => exact hf
  | cons x rest ih =>
    obtain ⟨hx, hrest⟩ := List.forall_mem_cons.1 hxs
    exact ih (hf.bind fun callee => hx.map _) hrest

/-- `callAll`: a call with all arguments. -/
theorem mirrors_callAll (hf : Mirrors s Γ value value')
    (hxs : ∀ x ∈ xs, Mirrors s Γ (f x) (f' x)) :
    Mirrors s Γ (callAll value (xs.map f)) (callAll value' (xs.map f')) :=
  hf.bind fun _ => (mirrors_all hxs).map _

/-- `jump?`: what a call becomes in a loop. -/
theorem mirrors_jump? (r? : Option Ref) (hxs : ∀ x ∈ xs, Mirrors s Γ (f x) (f' x)) :
    Mirrors s Γ (jump? r? (xs.map f)) (jump? (r?.map (Ref.relevel s)) (xs.map f')) := by
  cases r? with
  | none => exact .pure none
  | some r =>
    refine names_jumpTo? fun j? => ?_
    cases j? with
    | none => exact .pure none
    | some j =>
      simp only [Option.map_some, List.length_map, Jump.relevel]
      split
      · exact (mirrors_report _ _ _).bind fun _ => .pure none
      · split
        · exact (mirrors_clash _ _).bind fun _ => .pure none
        · exact (mirrors_all hxs).map fun values => some (jumpStmts j values)

/-- `appCode`: an application to arguments one by one, which a loop can make a jump. -/
theorem mirrors_appCode (r? : Option Ref) (hf : Mirrors s Γ value value')
    (hxs : ∀ x ∈ xs, Mirrors s Γ (f x) (f' x)) :
    (appCode r? value (xs.map f)).Mirrors s Γ
      (appCode (r?.map (Ref.relevel s)) value' (xs.map f')) := by
  have hplain := mirrors_ofValue (mirrors_callEach hf hxs)
  refine ⟨hplain.value, hplain.returned, hplain.run, fun mode => ?_⟩
  simp only [appCode]
  split
  · refine (mirrors_jump? r? hxs).bind fun stmts? => ?_
    cases stmts? with
    | none => exact hplain.returned.map _
    | some stmts => exact .pure stmts
  · exact hplain.block mode

variable {params : List Binder}

/-- `curriedCode`: a function that takes its parameters one by one. -/
theorem mirrors_curriedCode (hparams : ∀ b ∈ params, b.name.isSome = true)
    (h : K.Mirrors s (params ++ Γ) K') :
    (curriedCode params K).Mirrors s Γ (curriedCode (params.map (Binder.relevel s)) K') := by
  have hvalue := mirrors_ofValue ((names_bindNames hparams).bind fun names =>
    (h.block .plain).map (Script.Expr.curried names))
  exact ⟨hvalue.value, hvalue.returned, hvalue.run, hvalue.block⟩

/-- `arrowCode`: a function that takes its parameters at once. -/
theorem mirrors_arrowCode {body body' : Lowering (List Stmt)}
    (hparams : ∀ b ∈ params, b.name.isSome = true) (h : Mirrors s (params ++ Γ) body body') :
    (arrowCode params body).Mirrors s Γ (arrowCode (params.map (Binder.relevel s)) body') :=
  mirrors_ofValue ((names_bindNames hparams).bind fun _ => h.map _)

/-- `effectAppCode`: an application that is an effect. -/
theorem mirrors_effectAppCode (hf : Mirrors s Γ value value')
    (hxs : ∀ x ∈ xs, Mirrors s Γ (f x) (f' x)) :
    (effectAppCode value (xs.map f)).Mirrors s Γ (effectAppCode value' (xs.map f')) := by
  have hrun := mirrors_callAll hf hxs
  exact mirrors_ofEffect (hrun.map _) hrun fun _ => hrun.map _

/-- `letCode`: a binding in front of the block of its body. -/
theorem mirrors_letCode {b : Binder} (hb : b.name.isSome = true) (hvalue : K.Mirrors s Γ K')
    (hbody : L.Mirrors s ([b] ++ Γ) L') :
    (letCode b K L).Mirrors s Γ (letCode (b.relevel s) K' L') :=
  mirrors_ofBlock fun mode => hvalue.value.bind fun _ =>
    (names_bindName hb).bind fun _ => (hbody.block mode).map _

/-- `bindStmt`: an effect that is run, whose result is bound if the binder has a name. -/
theorem names_bindStmt (b : Binder) (e : Script.Expr) :
    Names s Γ (resultBinders b) (bindStmt b e) (bindStmt (b.relevel s) e) := by
  obtain ⟨name, level⟩ := b
  cases name with
  | none => exact .pure _
  | some name => exact (names_bindName rfl).map _

/-- `bindCode`: an effect that goes on with the result of another. -/
theorem mirrors_bindCode {b : Binder} (heffect : K.Mirrors s Γ K')
    (hbody : L.Mirrors s (resultBinders b ++ Γ) L') :
    (bindCode b K L).Mirrors s Γ (bindCode (b.relevel s) K' L') := by
  have hblock (mode : Mode) : Mirrors s Γ (do
      let x ← K.run
      let s ← bindStmt b x
      let rest ← L.block mode
      return s :: rest) (do
      let x ← K'.run
      let s ← bindStmt (b.relevel s) x
      let rest ← L'.block mode
      return s :: rest) :=
    heffect.run.bind fun x => (names_bindStmt b x).bind fun _ => (hbody.block mode).map _
  exact mirrors_ofEffect (hblock .effectful) ((hblock .effectful).map _) hblock

/-- `pureCode`: an effect that gives a value. -/
theorem mirrors_pureCode (h : K.Mirrors s Γ K') : (pureCode K).Mirrors s Γ (pureCode K') :=
  mirrors_ofEffect (h.returned.map _) h.value fun _ => h.returned.map _

/-- `deferCode`: an effect that is built when it runs. -/
theorem mirrors_deferCode (h : K.Mirrors s Γ K') : (deferCode K).Mirrors s Γ (deferCode K') :=
  mirrors_ofEffect (h.block .effectful) ((h.block .effectful).map _) h.block

variable {κ : Type} {arms : List κ} {cond cond' body body' : κ → Code}

/-- `armBlocks`: the arms of a branch with blocks of their own. -/
theorem mirrors_armBlocks (mode : Mode) (hcond : ∀ a ∈ arms, (cond a).Mirrors s Γ (cond' a))
    (hbody : ∀ a ∈ arms, (body a).Mirrors s Γ (body' a)) :
    Mirrors s Γ (armBlocks mode (arms.map fun a => (cond a, body a)))
      (armBlocks mode (arms.map fun a => (cond' a, body' a))) := by
  induction arms with
  | nil => exact .pure []
  | cons a rest ih =>
    obtain ⟨hcond₀, hcond⟩ := List.forall_mem_cons.1 hcond
    obtain ⟨hbody₀, hbody⟩ := List.forall_mem_cons.1 hbody
    refine hcond₀.value.bind fun x => (hbody₀.block mode).bind fun block => ?_
    exact (ih hcond hbody).map _

/-- `conditionalExpr`: the arms of a branch as a conditional expression. -/
theorem mirrors_conditionalExpr (hcond : ∀ a ∈ arms, (cond a).Mirrors s Γ (cond' a))
    (hbody : ∀ a ∈ arms, (body a).Mirrors s Γ (body' a)) (hdefault : K.Mirrors s Γ K') :
    Mirrors s Γ (conditionalExpr (arms.map fun a => (cond a, body a)) K)
      (conditionalExpr (arms.map fun a => (cond' a, body' a)) K') := by
  induction arms with
  | nil => exact hdefault.value
  | cons a rest ih =>
    obtain ⟨hcond₀, hcond⟩ := List.forall_mem_cons.1 hcond
    obtain ⟨hbody₀, hbody⟩ := List.forall_mem_cons.1 hbody
    exact hcond₀.value.bind fun x => hbody₀.value.bind fun yes => (ih hcond hbody).map _

/-- `branchCode`: a branch, as an expression or as a chain of blocks. -/
theorem mirrors_branchCode (simple : Bool) (hcond : ∀ a ∈ arms, (cond a).Mirrors s Γ (cond' a))
    (hbody : ∀ a ∈ arms, (body a).Mirrors s Γ (body' a)) (hdefault : K.Mirrors s Γ K') :
    (branchCode simple (arms.map fun a => (cond a, body a)) K).Mirrors s Γ
      (branchCode simple (arms.map fun a => (cond' a, body' a)) K') := by
  have hblock := mirrors_ofBlock fun mode => (mirrors_armBlocks mode hcond hbody).bind fun blocks =>
    (hdefault.block mode).map ((if blocks.isEmpty then [] else [Stmt.chain blocks]) ++ ·)
  cases simple with
  | true =>
    have hvalue := mirrors_ofValue (mirrors_conditionalExpr hcond hbody hdefault)
    exact ⟨hvalue.value, hvalue.returned, hvalue.run, hblock.block⟩
  | false => exact hblock

/-! ## Recursive groups -/

variable {code code' : ι → Code}

/-- `declareValues`: declarations of values, one by one. -/
theorem mirrors_declareValues (declaration : String → Script.Expr → Stmt)
    (bindings : List (String × ι)) (h : ∀ b ∈ bindings, (code b.2).Mirrors s Γ (code' b.2)) :
    Mirrors s Γ (declareValues declaration (bindings.map fun b => (b.1, code b.2)))
      (declareValues declaration (bindings.map fun b => (b.1, code' b.2))) := by
  induction bindings with
  | nil => exact .pure []
  | cons b rest ih =>
    obtain ⟨hb, hrest⟩ := List.forall_mem_cons.1 h
    exact hb.value.bind fun e => (ih hrest).map _

/-- `recursiveDeclarations`: a group that is no loop. -/
theorem mirrors_recursiveDeclarations (functions : Bool) (bindings : List (String × ι))
    (h : ∀ b ∈ bindings, (code b.2).Mirrors s Γ (code' b.2)) :
    Mirrors s Γ (recursiveDeclarations functions (bindings.map fun b => (b.1, code b.2)))
      (recursiveDeclarations functions (bindings.map fun b => (b.1, code' b.2))) := by
  unfold recursiveDeclarations
  split
  · exact mirrors_declareValues .const bindings h
  · refine (mirrors_declareValues .assign bindings h).bind fun assigns => ?_
    rw [List.map_map, List.map_map]
    exact .pure _

/-- `bindParams`: constants for parameters, with the values of the slots. -/
theorem names_bindParams {slots : List String} (hparams : ∀ b ∈ params, b.name.isSome = true)
    (hslots : params.length ≤ slots.length) :
    Names s Γ params (bindParams params slots)
      (bindParams (params.map (Binder.relevel s)) slots) := by
  intro p p' hp hknows
  obtain ⟨hresult, hstates⟩ := names_bindNames hparams p p' hp hknows
  rw [bindParams_eq hslots, bindParams_eq (by rwa [List.length_map]), hresult]
  exact ⟨rfl, hstates⟩

/-- `mem'` is the member `mem`, renumbered by `s`, and their bodies write the same once the
parameters have names. -/
structure Member.Mirrors (s : Renumbering) (Γ : List Binder) (mem mem' : Member) : Prop where
  /-- The names are the same. -/
  ident : mem'.ident = mem.ident
  /-- The reference is renumbered. -/
  ref : mem'.ref = mem.ref.relevel s
  /-- The parameters are renumbered. -/
  params : mem'.params = mem.params.map (Binder.relevel s)
  /-- The parameters have names of their own. -/
  named : ∀ b ∈ mem.params, b.name.isSome = true
  /-- The bodies are lowered to the same. -/
  body : Lower.Mirrors s (mem.params ++ Γ) mem.body mem'.body

/-- `memberBody`: the body of a loop member after constants for its parameters. -/
theorem mirrors_memberBody {mem mem' : Member} {slots : List String} (h : mem.Mirrors s Γ mem')
    (hslots : mem.params.length ≤ slots.length) :
    Mirrors s Γ (memberBody mem slots) (memberBody mem' slots) := by
  unfold memberBody
  rw [h.params]
  exact (names_bindParams h.named hslots).bind fun binds => h.body.map _

variable {mk mk' : ι → Member}

/-- `dispatchBody`: the bodies of all members behind tests of the selector. -/
theorem mirrors_dispatchBody {selector : String} {slots : List String} {i : Nat}
    (h : ∀ x ∈ xs, (mk x).Mirrors s Γ (mk' x))
    (hslots : ∀ x ∈ xs, (mk x).params.length ≤ slots.length) :
    Mirrors s Γ (dispatchBody selector slots i (xs.map mk))
      (dispatchBody selector slots i (xs.map mk')) := by
  induction xs generalizing i with
  | nil => exact .pure []
  | cons x rest ih =>
    obtain ⟨hx, hrest⟩ := List.forall_mem_cons.1 h
    obtain ⟨hslots₀, hslots⟩ := List.forall_mem_cons.1 hslots
    have hfirst := mirrors_memberBody hx hslots₀
    cases rest with
    | nil => exact hfirst
    | cons y rest => exact hfirst.bind fun block => (ih hrest hslots).map _

/-- `paramBases` makes names from the names of parameters, whatever their levels. -/
theorem paramBases_relevel (start : String) (params : List Binder) :
    paramBases start (params.map (Binder.relevel s)) = paramBases start params := by
  simp [paramBases, paramBase, Binder.relevel, List.zipIdx_map]

/-- `entries`: the functions that enter a shared loop. -/
theorem mirrors_entries (label : String) (i : Nat) (h : ∀ x ∈ xs, (mk x).Mirrors s Γ (mk' x)) :
    Mirrors s Γ (entries label i (xs.map mk)) (entries label i (xs.map mk')) := by
  induction xs generalizing i with
  | nil => exact .pure []
  | cons x rest ih =>
    obtain ⟨hx, hrest⟩ := List.forall_mem_cons.1 h
    rw [List.map_cons, List.map_cons, entries, entries, hx.ident, hx.params, copyNames, copyNames,
      paramBases_relevel]
    exact (mirrors_freshNames _).bind fun copies => (ih (i + 1) hrest).map _

/-- `selfLoop`: a single function as a loop. -/
theorem mirrors_selfLoop {mem mem' : Member} (h : mem.Mirrors s Γ mem') :
    Mirrors s Γ (selfLoop mem) (selfLoop mem') := by
  unfold selfLoop
  rw [h.ident, h.ref, h.params, copyNames, copyNames, List.length_map]
  simp only [paramBases_relevel]
  refine (mirrors_freshName _).bind fun label => (mirrors_freshNames _).bind fun copies => ?_
  refine (mirrors_freshNames _).bind_gives (gives_freshNames _) fun slots hslots => ?_
  refine (names_inLoop (mirrors_memberBody h ?_)).map _
  simp [hslots, paramBases]

/-- The numbers of parameters of `mk'` are those of `mk`, and the references are renumbered. -/
theorem members_relevel (h : ∀ x ∈ xs, (mk x).Mirrors s Γ (mk' x)) :
    ((xs.map mk').map fun m => (m.ref, m.params.length)) =
      ((xs.map mk).map fun m => (m.ref, m.params.length)).map fun m => (m.1.relevel s, m.2) := by
  simp only [List.map_map]
  refine List.map_congr_left fun x hx => ?_
  simp [(h x hx).ref, (h x hx).params]

/-- `sharedLoop`: several functions as one loop, once the shared function has a name. -/
theorem mirrors_sharedLoop (label : String) (h : ∀ x ∈ xs, (mk x).Mirrors s Γ (mk' x)) :
    Mirrors s Γ (sharedLoop (xs.map mk) label) (sharedLoop (xs.map mk') label) := by
  have hslots : slotCount (xs.map mk') = slotCount (xs.map mk) := by
    have hcount (members : List Member) : slotCount members =
        ((members.map fun m => (m.ref, m.params.length)).map Prod.snd).foldl max 0 := by
      rw [List.map_map, List.foldl_map]
      rfl
    rw [hcount, hcount, members_relevel h, List.map_map (f := fun m : Ref × Nat => _)]
    rfl
  unfold sharedLoop
  rw [hslots, members_relevel h]
  refine (mirrors_freshName _).bind fun selector => ?_
  refine (mirrors_freshNames _).bind_gives (gives_freshNames _) fun slots hslots => ?_
  refine (names_inLoop (mirrors_dispatchBody h fun x hx => ?_)).bind fun body =>
    (mirrors_entries label 0 h).map _
  rw [hslots, List.length_map, List.length_range]
  exact le_slotCount (List.mem_map_of_mem hx)

/-- `loopDeclarations`: the loop of a group, be it one function or several. -/
theorem mirrors_loopDeclarations (dispatcher : Option String)
    (h : ∀ x ∈ xs, (mk x).Mirrors s Γ (mk' x)) :
    Mirrors s Γ (loopDeclarations (xs.map mk) dispatcher)
      (loopDeclarations (xs.map mk') dispatcher) := by
  have hidents : (xs.map mk').map Member.ident = (xs.map mk).map Member.ident := by
    simp only [List.map_map]
    exact List.map_congr_left fun x hx => (h x hx).ident
  have hgroup : Mirrors s Γ (groupLoop (xs.map mk) dispatcher)
      (groupLoop (xs.map mk') dispatcher) := by
    have hlabel : Mirrors s Γ (sharedLabel (xs.map mk) dispatcher)
        (sharedLabel (xs.map mk') dispatcher) := by
      simp only [sharedLabel, hidents]
      cases dispatcher with
      | some label => exact .pure label
      | none => exact mirrors_freshName _
    rw [groupLoop_eq, groupLoop_eq]
    exact (mirrors_report _ _ _).bind fun _ => hlabel.bind fun label => mirrors_sharedLoop label h
  match xs, h, hgroup with
  | [], _, hgroup => exact hgroup
  | [x], h, _ =>
    have hx := h x (List.mem_singleton.2 rfl)
    simp only [List.map_singleton, loopDeclarations, hx.ident]
    exact (mirrors_report _ _ _).bind fun _ => (mirrors_selfLoop hx).map _
  | _ :: _ :: _, _, hgroup => exact hgroup

end Combinators

/-! ## Terms -/

variable {c : Context} {t : Analyzed}

/-- `t` and its renumbering by `s` write the same. If `t` is a curried function, so do their bodies,
in which the parameters have names as well. -/
structure TermMirrors (s : Renumbering) (Γ : List Binder) (c : Context) (t : Analyzed) : Prop where
  /-- The term is lowered to the same. -/
  code : (code c t).Mirrors s Γ (Lower.code c (t.relevelNotes s))
  /-- The parameters have names of their own. -/
  named : ∀ b ∈ t.params, b.name.isSome = true
  /-- The body of a function is lowered to the same. -/
  inner : (Lower.code c t.inner).Mirrors s (t.params ++ Γ) (Lower.code c (t.inner.relevelNotes s))

/-- The parameters of a renumbered term are the renumbered parameters of `t`. -/
theorem params_relevel (t : Analyzed) :
    (t.relevelNotes s).params = t.params.map (Binder.relevel s) := by
  cases t with
  | abs _ calling => cases calling <;> rfl
  | _ => rfl

/-- The body of a renumbered function is the renumbered body of `t`. -/
theorem inner_relevel (t : Analyzed) : (t.relevelNotes s).inner = t.inner.relevelNotes s := by
  cases t with
  | abs _ calling => cases calling <;> rfl
  | _ => rfl

/-- `memberOf` makes mirrored members of a binding `p` and its renumbering. -/
theorem memberOf_relevel {p : (String × Ref) × Analyzed} (h : TermMirrors s Γ c p.2) :
    (memberOf c p).Mirrors s Γ (memberOf c ((p.1.1, p.1.2.relevel s), p.2.relevelNotes s)) where
  ident := rfl
  ref := rfl
  params := params_relevel p.2
  named := h.named
  body := by
    have hinner := h.inner.block .looping
    rw [← inner_relevel] at hinner
    exact hinner

/-- Whether `t` is simple does not depend on levels. -/
theorem isSimple_relevel (t : Analyzed) : isSimple (t.relevelNotes s) = isSimple t := by
  induction t using children_induction with
  | step t ih =>
  cases t with
  | branch a arms default =>
    have harms : ∀ arm ∈ arms, isSimple (arm.2.relevelNotes s) = isSimple arm.2 := fun arm harm =>
      ih arm.2 (List.mem_append_left _ (List.mem_flatMap.2 ⟨arm, harm, by simp⟩))
    rw [relevelNotes, relevel, isSimple, isSimple, ih default (by simp [children]),
      armsSimple_eq_all, armsSimple_eq_all, relevelArms_eq_map, List.map_map]
    exact congrArg (fun bs => List.all bs id && isSimple default) (List.map_congr_left harms)
  | _ => rfl

/-- `loopMembers?` finds members for the renumbered `ts` exactly where it finds members for `ts`,
and then the loops are the same. -/
theorem loopMembers?_relevel {ts : List Analyzed} (idents : List String) (refs : List Ref)
    (h : ∀ t ∈ ts, TermMirrors s Γ c t) :
    (loopMembers? idents refs (ts.map (code c)) = none ∧
      loopMembers? idents (refs.map (Ref.relevel s))
        ((ts.map (relevelNotes s)).map (code c)) = none) ∨
    ∃ ms ms', loopMembers? idents refs (ts.map (code c)) = some ms ∧
      loopMembers? idents (refs.map (Ref.relevel s))
        ((ts.map (relevelNotes s)).map (code c)) = some ms' ∧
      ∀ dispatcher, Mirrors s Γ (loopDeclarations ms dispatcher)
        (loopDeclarations ms' dispatcher) := by
  have hzip : (idents.zip (refs.map (Ref.relevel s))).zip (ts.map (relevelNotes s)) =
      ((idents.zip refs).zip ts).map fun p => ((p.1.1, p.1.2.relevel s), p.2.relevelNotes s) := by
    simp only [List.zip_map_right, List.zip_map_left, List.map_map]
    rfl
  rw [loopMembers?_eq, loopMembers?_eq, hzip, List.all_map, List.map_map]
  simp only [Function.comp_def, body?_relevel, Option.isSome_map]
  cases ((idents.zip refs).zip ts).all fun p => p.2.body?.isSome with
  | false => exact .inl ⟨rfl, rfl⟩
  | true =>
    refine .inr ⟨_, _, rfl, rfl, fun dispatcher => ?_⟩
    exact mirrors_loopDeclarations dispatcher
      fun p hp => memberOf_relevel (h p.2 (List.of_mem_zip hp).2)

/-- `groupDeclarations`: a recursive group, which may be a loop. -/
theorem names_groupDeclarations {loop functions : Bool} {refs : List Ref} {binders : List Binder}
    {ts : List Analyzed} (hbinders : ∀ b ∈ binders, b.name.isSome = true)
    (h : ∀ t ∈ ts, TermMirrors s (binders ++ Γ) c t) :
    Names s Γ binders (groupDeclarations loop functions refs binders (ts.map (code c)))
      (groupDeclarations loop functions (refs.map (Ref.relevel s))
        (binders.map (Binder.relevel s)) ((ts.map (relevelNotes s)).map (code c))) := by
  refine (names_bindNames hbinders).bind fun idents => ?_
  refine Mirrors.names ?_
  have hplain : Mirrors s (binders ++ Γ)
      (recursiveDeclarations functions (idents.zip (ts.map (code c))))
      (recursiveDeclarations functions (idents.zip ((ts.map (relevelNotes s)).map (code c)))) := by
    rw [List.map_map, List.zip_map_right, List.zip_map_right]
    exact mirrors_recursiveDeclarations functions (idents.zip ts)
      fun b hb => (h b.2 (List.of_mem_zip hb).2).code
  rcases loopMembers?_relevel idents refs h with ⟨hms, hms'⟩ | ⟨ms, ms', hms, hms', hloop⟩
  · rw [hms, hms']
    cases loop <;> exact hplain
  · rw [hms, hms']
    cases loop with
    | false => exact hplain
    | true => exact hloop none

/-- Of a term that is no curried function, `TermMirrors` asks nothing but what `Code.Mirrors`
says. -/
theorem TermMirrors.of_code (hparams : t.params = []) (hinner : t.inner = t)
    (h : (Lower.code c t).Mirrors s Γ (Lower.code c (t.relevelNotes s))) : TermMirrors s Γ c t :=
  ⟨h, by rw [hparams]; exact List.forall_mem_nil _, by rw [hparams, hinner]; exact h⟩

/-! ### Lists and fields -/

section

variable {a : Analysis}

/-- The `items` of an array, one after the other. -/
theorem mirrors_array {items : List Analyzed}
    (h : ∀ u ∈ items, (code c u).Mirrors s Γ (code c (u.relevelNotes s))) :
    (code c (.array a items)).Mirrors s Γ (code c ((Term.array a items).relevelNotes s)) := by
  rw [relevelNotes, relevel, code, code, valueCodes_eq_map, valueCodes_eq_map, relevelList_eq_map,
    List.map_map]
  exact mirrors_ofValue ((mirrors_all fun u hu => (h u hu).value).map _)

variable {fields : List (String × Analyzed)}
  (h : ∀ f ∈ fields, (code c f.2).Mirrors s Γ (code c (f.2.relevelNotes s)))

include h

/-- `fieldCodes`: the parts of an object literal. -/
theorem mirrors_fieldCodes : Mirrors s Γ (all (fieldCodes c fields))
    (all (fieldCodes c (relevelFields s (Analysis.relevel s) fields))) := by
  rw [fieldCodes_eq_map, fieldCodes_eq_map, relevelFields_eq_map, List.map_map]
  exact mirrors_all fun f hf => (h f hf).value.map _

/-- The `fields` of a record. -/
theorem mirrors_record : (code c (.record a fields)).Mirrors s Γ
    (code c ((Term.record a fields).relevelNotes s)) :=
  mirrors_ofObject ((mirrors_fieldCodes h).map _)

/-- The `fields` of a constructor that is applied, after its `tag`. -/
theorem mirrors_construct {type : Qualified} {tag : String} :
    (code c (.construct a type tag fields)).Mirrors s Γ
    (code c ((Term.construct a type tag fields).relevelNotes s)) :=
  mirrors_ofObject ((mirrors_fieldCodes h).map _)

/-- A record that is `subject` but for its `fields`. -/
theorem mirrors_update {subject : Analyzed}
    (hsubject : (code c subject).Mirrors s Γ (code c (subject.relevelNotes s))) :
    (code c (.update a subject fields)).Mirrors s Γ
      (code c ((Term.update a subject fields).relevelNotes s)) :=
  mirrors_ofObject (hsubject.value.bind fun _ => (mirrors_fieldCodes h).map _)

end

/-! ### Applications and functions -/

/-- An application of `head`, whatever `calling` says. The members of loops that it could call are
renumbered with it. -/
theorem mirrors_app {a : Analysis} {calling : Calling} {head : Analyzed} {args : List Analyzed}
    (hhead : (code c head).Mirrors s Γ (code c (head.relevelNotes s)))
    (hargs : ∀ u ∈ args, (code c u).Mirrors s Γ (code c (u.relevelNotes s))) :
    (code c (.app a calling head args)).Mirrors s Γ
      (code c ((Term.app a calling head args).relevelNotes s)) := by
  have hvalues : ∀ u ∈ args, Mirrors s Γ (code c u).value (code c (u.relevelNotes s)).value :=
    fun u hu => (hargs u hu).value
  have href : (head.relevelNotes s).ref?.map (Ref.within c.name) =
      (head.ref?.map (Ref.within c.name)).map (Ref.relevel s) := by
    rw [ref?_relevel, Option.map_map, Option.map_map]
    exact congrArg (head.ref?.map ·) (funext fun r => Ref.within_relevel s c.name r)
  cases calling with
  | curried =>
    rw [relevelNotes, relevel, code, code, href, valueCodes_eq_map, valueCodes_eq_map,
      relevelList_eq_map, List.map_map]
    exact mirrors_appCode _ hhead.value hvalues
  | uncurried =>
    rw [relevelNotes, relevel, code, code, valueCodes_eq_map, valueCodes_eq_map,
      relevelList_eq_map, List.map_map]
    exact mirrors_ofValue (mirrors_callAll hhead.value hvalues)
  | effectful =>
    rw [relevelNotes, relevel, code, code, valueCodes_eq_map, valueCodes_eq_map,
      relevelList_eq_map, List.map_map]
    exact mirrors_effectAppCode hhead.value hvalues

/-- A function of `params` whose `body` is lowered where they have names. -/
theorem mirrors_abs {a : Analysis} {calling : Calling} {params : List Binder} {body : Analyzed}
    (hnamed : ∀ b ∈ params, b.name.isSome = true)
    (h : (code c body).Mirrors s (params ++ Γ) (code c (body.relevelNotes s))) :
    TermMirrors s Γ c (.abs a calling params body) := by
  cases calling with
  | curried => exact ⟨mirrors_curriedCode hnamed h, hnamed, h⟩
  | uncurried => exact .of_code rfl rfl (mirrors_arrowCode hnamed (h.block .plain))
  | effectful => exact .of_code rfl rfl (mirrors_arrowCode hnamed (h.block .effectful))

/-! ### Groups and branches -/

/-- A recursive group, whose `bindings` and `body` are lowered where its members have names. -/
theorem mirrors_letRec {a : Analysis} {level : UInt32} {bindings : List (String × Analyzed)}
    {body : Analyzed} (hnamed : ∀ b ∈ groupBinders level bindings, b.name.isSome = true)
    (hbindings : ∀ u ∈ bindings.map Prod.snd, TermMirrors s (groupBinders level bindings ++ Γ) c u)
    (hbody : (code c body).Mirrors s (groupBinders level bindings ++ Γ)
      (code c (body.relevelNotes s))) :
    (code c (.letRec a level bindings body)).Mirrors s Γ
      (code c ((Term.letRec a level bindings body).relevelNotes s)) := by
  have hbinders : (relevelFields s (Analysis.relevel s) bindings).map
      (fun b => (⟨some b.1, s.level level⟩ : Binder)) =
        (groupBinders level bindings).map (Binder.relevel s) := by
    simp [groupBinders, Binder.relevel]
  have hfunctions : ((relevelFields s (Analysis.relevel s) bindings).all
      fun b => isFunction b.2) = bindings.all fun b => isFunction b.2 := by
    simp [List.all_map, Function.comp_def]
  simp only [relevelNotes, relevel, code, bindingCodes_eq, hbinders, hfunctions, groupRefs_relevel,
    map_snd_relevelFields]
  exact mirrors_ofBlock fun mode => (names_groupDeclarations hnamed hbindings).bind fun _ =>
    (hbody.block mode).map _

/-- A branch of `arms` and `default`, which is an expression after renumbering if it was before. -/
theorem mirrors_branch {a : Analysis} {arms : List (Analyzed × Analyzed)} {default : Analyzed}
    (harms : ∀ arm ∈ arms, ∀ u ∈ [arm.1, arm.2],
      (code c u).Mirrors s Γ (code c (u.relevelNotes s)))
    (hdefault : (code c default).Mirrors s Γ (code c (default.relevelNotes s))) :
    (code c (.branch a arms default)).Mirrors s Γ
      (code c ((Term.branch a arms default).relevelNotes s)) := by
  have hsimple := isSimple_relevel (s := s) (branch a arms default)
  rw [relevelNotes, relevel, isSimple, isSimple] at hsimple
  rw [relevelNotes, relevel, code, code, hsimple, armCodes_eq_map, armCodes_eq_map,
    relevelArms_eq_map, List.map_map]
  exact mirrors_branchCode _ (fun arm harm => harms arm harm _ (by simp))
    (fun arm harm => harms arm harm _ (by simp)) hdefault

/-! ### All terms -/

/-- Where the binders of `Γ` have names, `t` and its renumbering by `s` are lowered to the same. -/
theorem mirrors_code (c : Context) (t : Analyzed) (h : t.everywhere namedIn Γ = true) :
    TermMirrors s Γ c t := by
  induction t using children_induction generalizing Γ with
  | step t ih =>
  obtain ⟨hroot, hchildren⟩ := everywhere_iff.1 h
  rw [namedIn, Bool.and_eq_true, List.all_eq_true] at hroot
  obtain ⟨hnamed, hscope⟩ := hroot
  have hchild (bs : List Binder) (u : Analyzed) (hu : (bs, u) ∈ t.scopedChildren) :
      TermMirrors s (bs ++ Γ) c u := by
    refine ih u ?_ (hchildren _ hu)
    rw [← map_snd_scopedChildren]
    exact List.mem_map.2 ⟨_, hu, rfl⟩
  -- children outside the scope of the binders of the node
  have hplain (u : Analyzed) (hu : ([], u) ∈ t.scopedChildren) :
      (code c u).Mirrors s Γ (code c (u.relevelNotes s)) := (hchild [] u hu).code
  cases t with
  | global => exact .of_code rfl rfl (mirrors_ofValue (.pure _))
  | bound a b =>
    exact .of_code rfl rfl
      (mirrors_ofValue ((mirrors_nameOf (of_decide_eq_true hscope)).map _))
  | lit => exact .of_code rfl rfl (mirrors_ofValue (.pure _))
  | constructor a tag fields =>
    exact .of_code rfl rfl (mirrors_ofValue ((mirrors_freshNames fields).map _))
  | undefined => exact .of_code rfl rfl (mirrors_ofReturn (.pure _) (.pure _))
  | fail => exact .of_code rfl rfl (mirrors_ofBlock fun _ => .pure _)
  | array a items =>
    refine .of_code rfl rfl (mirrors_array fun u hu => hplain u ?_)
    simp [scopedChildren, children, hu]
  | record a fields =>
    refine .of_code rfl rfl (mirrors_record fun f hf => hplain f.2 ?_)
    simpa [scopedChildren, children] using ⟨f.1, hf⟩
  | construct a type tag fields =>
    refine .of_code rfl rfl (mirrors_construct fun f hf => hplain f.2 ?_)
    simpa [scopedChildren, children] using ⟨f.1, hf⟩
  | update a subject fields =>
    have hsubject := hplain subject (by simp [scopedChildren, children])
    refine .of_code rfl rfl (mirrors_update (fun f hf => hplain f.2 ?_) hsubject)
    have : ∃ x, (x, f.2) ∈ fields := ⟨f.1, hf⟩
    simp [scopedChildren, children, this]
  | access a subject accessor =>
    have hsubject := hplain subject (by simp [scopedChildren, children])
    exact .of_code rfl rfl (mirrors_ofValue (hsubject.value.map _))
  | test a subject guard =>
    have hsubject := hplain subject (by simp [scopedChildren, children])
    exact .of_code rfl rfl (mirrors_ofValue (hsubject.value.map _))
  | unary a op operand =>
    have hoperand := hplain operand (by simp [scopedChildren, children])
    exact .of_code rfl rfl (mirrors_ofValue (hoperand.value.map _))
  | binary a op left right =>
    have hleft := hplain left (by simp [scopedChildren, children])
    have hright := hplain right (by simp [scopedChildren, children])
    exact .of_code rfl rfl
      (mirrors_ofValue (hleft.value.bind fun x => hright.value.map _))
  | app a calling head args =>
    have hhead := hplain head (by simp [scopedChildren, children])
    have hargs (u : Analyzed) (hu : u ∈ args) := hplain u (by simp [scopedChildren, children, hu])
    exact .of_code (by cases calling <;> rfl) (by cases calling <;> rfl) (mirrors_app hhead hargs)
  | abs a calling params body =>
    exact mirrors_abs hnamed (hchild params body (by simp [scopedChildren])).code
  | letIn a b value body =>
    have hvalue := hplain value (by simp [scopedChildren])
    have hbody := (hchild [b] body (by simp [scopedChildren])).code
    exact .of_code rfl rfl
      (mirrors_letCode (hnamed b (List.mem_singleton.2 rfl)) hvalue hbody)
  | letRec a level bindings body =>
    refine .of_code rfl rfl (mirrors_letRec hnamed (fun u hu => ?_)
      (hchild (groupBinders level bindings) body (by simp [scopedChildren])).code)
    obtain ⟨f, hf, rfl⟩ := List.mem_map.1 hu
    exact hchild _ _ (List.mem_append_left _ (List.mem_map.2 ⟨f, hf, rfl⟩))
  | bindEffect a b effect body =>
    have heffect := hplain effect (by simp [scopedChildren])
    have hbody := (hchild (resultBinders b) body (by simp [scopedChildren])).code
    exact .of_code rfl rfl (mirrors_bindCode heffect hbody)
  | pureEffect a value =>
    exact .of_code rfl rfl (mirrors_pureCode (hplain value (by simp [scopedChildren, children])))
  | deferEffect a effect =>
    exact .of_code rfl rfl (mirrors_deferCode (hplain effect (by simp [scopedChildren, children])))
  | branch a arms default =>
    refine .of_code rfl rfl (mirrors_branch (fun arm harm u hu => hplain u ?_)
      (hplain default (by simp [scopedChildren, children])))
    refine List.mem_map.2 ⟨u, List.mem_append_left _ ?_, rfl⟩
    exact List.mem_flatMap.2 ⟨arm, harm, hu⟩

/-! ## Analysed terms -/

/-- The analysis with `cs` leaves the binders of a group as they are. -/
theorem groupBinders_analyzeFields (cs : Candidates) (level : UInt32)
    (bindings : List (String × Expr)) :
    groupBinders level (analyzeFields cs bindings) = groupBinders level bindings := by
  simp [groupBinders]

/-- The children of an analysed node are the analysed children of `t`, each in the same scope. -/
theorem mem_scopedChildren_analyze {cs : Candidates} {t : Expr} {x : List Binder × Analyzed}
    (h : x ∈ (analyze cs t).scopedChildren) :
    ∃ cs' u, (x.1, u) ∈ t.scopedChildren ∧ x.2 = analyze cs' u := by
  -- most nodes bring nothing into the scope of their children
  have hmap (hscoped : (analyze cs t).scopedChildren = (analyze cs t).children.map ([], ·))
      (hscoped' : t.scopedChildren = t.children.map ([], ·)) (hlet : t.letRefs = []) :
      ∃ cs' u, (x.1, u) ∈ t.scopedChildren ∧ x.2 = analyze cs' u := by
    rw [hscoped, children_analyze hlet, List.map_map] at h
    obtain ⟨u, hu, rfl⟩ := List.mem_map.1 h
    exact ⟨cs, u, hscoped' ▸ List.mem_map.2 ⟨u, hu, rfl⟩, rfl⟩
  cases t with
  | abs a calling params body =>
    obtain rfl := List.mem_singleton.1 h
    exact ⟨cs, body, List.mem_singleton.2 rfl, rfl⟩
  | letIn a b value body =>
    simp only [analyze, scopedChildren, List.mem_cons, List.not_mem_nil, or_false] at h
    rcases h with rfl | rfl
    · exact ⟨cs, value, by simp [scopedChildren], rfl⟩
    · exact ⟨_, body, by simp [scopedChildren], rfl⟩
  | letRec a level bindings body =>
    rw [analyze, scopedChildren, groupBinders_analyzeFields] at h
    simp only [List.mem_append, List.mem_singleton, analyzeFields_eq_map, List.map_map] at h
    rcases h with h | rfl
    · obtain ⟨f, hf, rfl⟩ := List.mem_map.1 h
      exact ⟨_, f.2, List.mem_append_left _ (List.mem_map.2 ⟨f, hf, rfl⟩), rfl⟩
    · exact ⟨_, body, List.mem_append_right _ (List.mem_singleton.2 rfl), rfl⟩
  | bindEffect a b effect body =>
    simp only [analyze, scopedChildren, List.mem_cons, List.not_mem_nil, or_false] at h
    rcases h with rfl | rfl
    · exact ⟨cs, effect, by simp [scopedChildren], rfl⟩
    · exact ⟨cs, body, by simp [scopedChildren], rfl⟩
  | _ => exact hmap rfl rfl rfl

/-- The analysis with `cs` keeps the names of the node `t`. -/
theorem namedIn_analyze (cs : Candidates) (t : Expr) (scope : List Binder) :
    (analyze cs t).namedIn scope = t.namedIn scope := by
  have hbinders : (analyze cs t).binders = t.binders := by
    cases t with
    | letRec a level bindings body => exact groupBinders_analyzeFields _ level bindings
    | _ => rfl
  have hscope : (analyze cs t).inScope scope = t.inScope scope := by cases t <;> rfl
  rw [namedIn, namedIn, hbinders, hscope]

/-- The analysis with `cs` keeps the names of all nodes of `t`. -/
theorem everywhere_namedIn_analyze (cs : Candidates) {t : Expr}
    (h : t.everywhere namedIn Γ = true) : (analyze cs t).everywhere namedIn Γ = true := by
  induction t using children_induction generalizing cs Γ with
  | step t ih =>
  obtain ⟨hroot, hchildren⟩ := everywhere_iff.1 h
  refine everywhere_iff.2 ⟨(namedIn_analyze cs t Γ).trans hroot, fun x hx => ?_⟩
  obtain ⟨cs', u, hu, heq⟩ := mem_scopedChildren_analyze hx
  rw [heq]
  refine ih u ?_ cs' (hchildren _ hu)
  rw [← map_snd_scopedChildren]
  exact List.mem_map.2 ⟨_, hu, rfl⟩

/-! ## Units -/

/-- `o` and `o'` have the same result, up to their reports and the text of a clash. -/
structure Outcome.Agree (o o' : Outcome α) : Prop where
  /-- The results are the same. -/
  result : o'.result = o.result
  /-- There was a clash in both runs or in none. -/
  clash : o'.clash.isSome = o.clash.isSome

/-- Run from the names of the unit, which know no binder, mirrored steps agree. -/
theorem Mirrors.agree {m m' : Lowering α} (h : Mirrors s [] m m') (c : Context) :
    (m.runIn (.ofContext c)).Agree (m'.runIn (.ofContext c)) := by
  have hstart : Mirror s ⟨.ofContext c, [], none⟩ ⟨.ofContext c, [], none⟩ := ⟨rfl, rfl⟩
  obtain ⟨hresult, hmirror, -⟩ := h _ _ hstart (by nofun)
  exact ⟨hresult, hmirror.clash⟩

/-- `Outcome.concat` keeps agreement: it stops at the same clash. -/
theorem Outcome.Agree.concat {f f' : ι → Outcome (List α)} {xs : List ι}
    (h : ∀ x ∈ xs, (f x).Agree (f' x)) :
    (Outcome.concat (xs.map f)).Agree (Outcome.concat (xs.map f')) := by
  induction xs with
  | nil => exact ⟨rfl, rfl⟩
  | cons x rest ih =>
    obtain ⟨hx, hrest⟩ := List.forall_mem_cons.1 h
    obtain ⟨hresult, hclash⟩ := ih hrest
    refine ⟨?_, ?_⟩
    · show (f' x).result ++ _ = (f x).result ++ _
      rw [hx.result]
      exact congrArg (_ ++ ·) hresult
    · show ((f' x).clash.or _).isSome = ((f x).clash.or _).isSome
      rw [Option.isSome_or, Option.isSome_or, hx.clash]
      exact congrArg (_ || ·) hclash

/-- The group `g` is lowered to the same as its renumbering by `s`. -/
theorem agree_group (c : Context) {g : AnalyzedGroup}
    (h : ∀ b ∈ g.bindings, b.2.everywhere namedIn [] = true) :
    (group c g).Agree (group c (g.relevel s)) := by
  have hts (t : Analyzed) (ht : t ∈ g.bindings.map Prod.snd) : TermMirrors s [] c t := by
    obtain ⟨b, hb, rfl⟩ := List.mem_map.1 ht
    exact mirrors_code c b.2 (h b hb)
  -- binding by binding, for groups that are no loops
  have hplain : (Outcome.concat (g.bindings.map fun b => binding c b.1 b.2)).Agree
      (Outcome.concat ((g.relevel s).bindings.map fun b => binding c b.1 b.2)) := by
    rw [AnalyzedGroup.relevel, relevelFields_eq_map, List.map_map]
    exact .concat fun b hb => Mirrors.agree ((hts _ (List.mem_map_of_mem hb)).code.value.map _) c
  have hisLoop : (g.relevel s).isLoop = g.isLoop := Verdict.isLoop_relevel s g.verdict
  have hidents : (g.relevel s).bindings.map Prod.fst = g.bindings.map Prod.fst := by
    simp [AnalyzedGroup.relevel]
  have hrefs : topRefs c.name (g.relevel s).bindings =
      (topRefs c.name g.bindings).map (Ref.relevel s) :=
    (topRefs_relevel s c.name g.bindings _).trans (map_relevel_topRefs s c.name g.bindings).symm
  have hterms : (g.relevel s).bindings.map Prod.snd =
      (g.bindings.map Prod.snd).map (relevelNotes s) := map_snd_relevelFields s g.bindings
  have hdispatcher : groupDispatcher? c (g.relevel s).bindings = groupDispatcher? c g.bindings := by
    rw [groupDispatcher?_eq, groupDispatcher?_eq, hidents]
  rw [group, group, hisLoop, hdispatcher, topMembers?, topMembers?, hidents, hrefs, bindingCodes_eq,
    bindingCodes_eq, hterms]
  -- the members can be those of a loop before if and only if they can after
  rcases loopMembers?_relevel (g.bindings.map Prod.fst) (topRefs c.name g.bindings) hts with
    ⟨hms, hms'⟩ | ⟨ms, ms', hms, hms', hloop⟩
  · rw [hms, hms']
    cases g.isLoop && c.loops <;> exact hplain
  · rw [hms, hms']
    cases g.isLoop && c.loops with
    | false => exact hplain
    | true => exact (hloop _).agree c

/-- The context of a unit has no levels. -/
theorem Context.ofUnit_relevel (u : CompilationUnit) (loops : Bool) :
    ofUnit (u.relevel s) loops = ofUnit u loops := by
  have hidents (g : BindingGroup) :
      (g.relevel s).bindings.map Prod.fst = g.bindings.map Prod.fst := by
    simp [BindingGroup.relevel]
  have hgroup (c : Context) (g : BindingGroup) : c.addGroup (g.relevel s) = c.addGroup g := by
    simp only [addGroup, mutualMembers, hidents]
    rfl
  have hnames : (u.relevel s).bindings.map Prod.fst = u.bindings.map Prod.fst := by
    simp only [CompilationUnit.bindings, CompilationUnit.relevel, List.map_flatMap,
      List.flatMap_map, hidents]
  simp only [ofUnit, hnames]
  simp only [CompilationUnit.relevel, List.foldl_map, hgroup]

/-- The unit `u` is lowered to the same script as its renumbering, with a clash if there was one. -/
theorem agree_module {u : CompilationUnit} (loops : Bool)
    (h : ∀ b ∈ u.bindings, b.2.everywhere namedIn [] = true) :
    (module u loops).Agree (module (u.relevel s) loops) := by
  have hgroups (g : AnalyzedGroup) (hg : g ∈ u.analyze) (c : Context) :
      (group c g).Agree (group c (g.relevel s)) := by
    obtain ⟨g, hmem, rfl⟩ := List.mem_map.1 hg
    refine agree_group c fun b hb => ?_
    have hanalyzed (cs : Candidates) :
        ∀ b ∈ analyzeFields cs g.bindings, b.2.everywhere namedIn [] = true := by
      rw [analyzeFields_eq_map, List.forall_mem_map]
      exact fun b hb => everywhere_namedIn_analyze cs (h b (List.mem_flatMap.2 ⟨g, hmem, hb⟩))
    unfold BindingGroup.analyze at hb
    split at hb
    · exact hanalyzed _ b hb
    · exact hanalyzed _ b hb
  have hconcat : (Outcome.concat (u.analyze.map (group (.ofUnit u loops)))).Agree
      (Outcome.concat (u.analyze.map fun g => group (.ofUnit u loops) (g.relevel s))) :=
    .concat fun g hg => hgroups g hg _
  simp only [module, Context.ofUnit_relevel, u.analyze_relevel s, List.map_map]
  exact ⟨congrArg (Script.Module.mk _ · _) hconcat.result, hconcat.clash⟩

end Lower

/-- Levels are only identities. If all binders of a unit have names of their own and all variables
lie in the scope of their binders, then renumbering all levels, different ones to different ones,
leaves the script unchanged, with loops and without, and the lowering completes for one unit if it
does for the other. -/
theorem module_relevel (s : Renumbering) (u : CompilationUnit)
    (h : ∀ b ∈ u.bindings, b.2.everywhere Term.namedIn [] = true) (loops : Bool) :
    ((u.relevel s).lower loops).toOption.map Prod.fst =
      (u.lower loops).toOption.map Prod.fst := by
  obtain ⟨hresult, hclash⟩ := Lower.agree_module (s := s) loops h
  rw [CompilationUnit.lower, CompilationUnit.lower]
  cases hc : (Lower.module u loops).clash with
  | none =>
    rw [hc, Option.isSome_none, Option.isSome_eq_false_iff, Option.isNone_iff_eq_none] at hclash
    simp only [hclash, hresult]
    rfl
  | some clash =>
    rw [hc, Option.isSome_some] at hclash
    obtain ⟨clash', hclash⟩ := Option.isSome_iff_exists.1 hclash
    simp only [hclash]
    rfl

/-- The levels of the unit `countdown` can be raised by one. -/
theorem module_relevel_countdown :
    (∀ b ∈ countdown.bindings, b.2.everywhere Term.namedIn [] = true) ∧
      ∀ loops, ((countdown.relevel ⟨(· + 1), fun _ _ h => by simpa using h⟩).lower
        loops).toOption.map Prod.fst = (countdown.lower loops).toOption.map Prod.fst := by
  have h : ∀ b ∈ countdown.bindings, b.2.everywhere Term.namedIn [] = true := by decide
  exact ⟨h, module_relevel _ countdown h⟩

end TailLoop
