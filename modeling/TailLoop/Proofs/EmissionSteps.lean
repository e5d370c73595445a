import TailLoop.Proofs.LoopAgreement
import TailLoop.Proofs.Naming

/-!
# Lowering steps and the scripts they write

A lowering step is described by what it writes wherever the declarations around it are adequate. A
block declares new names only, each of them once; it is described for the places where its own names
are declared as well.

* `Serves`: what a block in a mode is for.
* `Yields`, `YieldsBlock`: what a step writes.
* `Code.StandsFor`: the ways to lower a term write scripts that stand for it.
-/

namespace TailLoop.Lower

open Script Lowering Emit

/-! ## Places -/

/-- What a block in a mode is for. In the body of a loop, the members and the variables of the
innermost of `scopes` refer to the declarations in the frame. -/
inductive Serves (Γ₀ Γ : List String) (σ : Naming) (scopes : List LoopScope) : Mode → Purpose → Prop
  | plain : Serves Γ₀ Γ σ scopes .plain .plain
  | effect : Serves Γ₀ Γ σ scopes .effectful .effect
  | loop {s : LoopScope} {S : List LoopScope} {frame : LoopFrame} : scopes = s :: S →
      frame.members = s.members →
      (s.members.map fun m => declaration? Γ₀ σ m.1) = frame.functions.map some →
      s.selector.map (resolve · Γ) = frame.selector.map some →
      s.slots.map (resolve · Γ) = frame.slots.map some →
      Serves Γ₀ Γ σ scopes .looping (.loop frame)

/-- A place for a script: the declarations `Γ` and `σ` around it are adequate for the state `p` and
serve `purpose`. -/
structure Fits (E : Setting) (scope : List Binder)
    (p : Progress) (mode : Mode) (purpose : Purpose) (Γ : List String) (σ : Naming) : Prop where
  /-- The declarations are adequate. -/
  adequate : Adequate E.context E.names E.closed scope p Γ σ
  /-- They serve the purpose. -/
  serves : Serves E.names Γ σ p.env.scopes mode purpose

variable {E : Setting} {scope : List Binder}
  {p p' p'' : Progress} {mode : Mode} {purpose : Purpose} {Γ : List String} {σ : Naming}
  {bs : List Binder} {xs names : List String} {ks : List Nat}

/-- A place fits the state `p'` after a step if it fits the one before. -/
theorem Fits.kept (h : Fits E scope p mode purpose Γ σ) (hk : Kept scope p p') :
    Fits E scope p' mode purpose Γ σ :=
  ⟨h.adequate.kept hk, hk.scopes ▸ h.serves⟩

/-- Every place is one for an expression, which is written in the mode `.plain`. -/
theorem Fits.plain (h : Fits E scope p mode purpose Γ σ) :
    Fits E scope p .plain .plain Γ σ := ⟨h.adequate, .plain⟩

/-- A place stays one where new `names` are declared. -/
theorem Fits.enter (h : Fits E scope p mode purpose Γ σ) (hready : Ready E.context scope p)
    (hnew : ∀ x ∈ names, New E.closed scope p x) :
    Fits E scope p mode purpose (enter Γ names) σ := by
  refine ⟨h.adequate.enter hready hnew, ?_⟩
  cases h.serves with
  | plain => exact .plain
  | effect => exact .effect
  | @loop s S frame hscopes hmembers hfunctions hselector hslots =>
    have hvars (x : String) (hx : x ∈ s.variables) :
        resolve x (Script.enter Γ names) = resolve x Γ :=
      resolve_enter fun hmem => (hnew x hmem).ne
        (hready.loops s (hscopes ▸ List.mem_cons_self ..) x hx) rfl
    refine .loop hscopes hmembers hfunctions ?_ ?_
    · rw [← hselector]
      cases hsel : s.selector with
      | none => rfl
      | some x =>
        rw [Option.map_some, Option.map_some, hvars x (by simp [LoopScope.variables, hsel])]
    · rw [← hslots]
      exact List.map_congr_left fun x hx => hvars x (List.mem_append_right _ hx)

/-- Where the names `xs` of binders `bs` refer to the declarations `ks`, the binders are in
scope. -/
theorem Fits.bind (h : Fits E scope p mode purpose Γ σ) (hready : Ready E.context scope p)
    (hnamed : Named E.context E.closed scope bs xs p p') (hbs : bs.Nodup)
      (hscope : ∀ b ∈ bs, b ∉ scope)
    (hks : xs.map (resolve · Γ) = ks.map some) :
    Fits E (bs ++ scope) p' mode purpose Γ (bs.zip ks ++ σ) := by
  refine ⟨h.adequate.bind hnamed hbs hks, ?_⟩
  have hlen : bs.length = ks.length := by
    rw [← hnamed.length_eq]
    simpa using congrArg List.length hks
  rw [hnamed.kept.scopes]
  cases h.serves with
  | plain => exact .plain
  | effect => exact .effect
  | @loop s S frame hscopes hmembers hfunctions hselector hslots =>
    refine .loop hscopes hmembers ?_ hselector hslots
    rw [← hfunctions]
    refine List.map_congr_left fun m hm => ?_
    cases href : m.1 with
    | global q => rfl
    | bound b =>
      -- the members are in scope, and what is bound now was not
      have hb : b ∈ scope := hready.members s (hscopes ▸ List.mem_cons_self ..) m hm b href
      exact (lookup_zip_append hbs hlen).1 fun hmem => hscope b hmem hb

/-! ## Steps -/

/-- Wherever the step `m` is taken, what it writes is as `out` says of the place. -/
def Yields (E : Setting) (scope : List Binder) (mode : Mode)
    {α : Type} (m : Lowering α) (out : Purpose → List String → Naming → α → Prop) : Prop :=
  ∀ p, Ready E.context scope p → Kept scope p (m p).2 ∧
    ∀ purpose Γ σ, Fits E scope p mode purpose Γ σ → out purpose Γ σ (m p).1

variable {α β : Type} {out : Purpose → List String → Naming → α → Prop}
  {out' : Purpose → List String → Naming → β → Prop}

/-- `pure a` writes `a`. -/
theorem Yields.pure {a : α} (h : ∀ purpose Γ σ, out purpose Γ σ a) :
    Yields E scope mode (pure a) out :=
  fun p _ => ⟨.refl scope p, fun purpose Γ σ _ => h purpose Γ σ⟩

/-- One step after the other: `k` may rely on what `m` has written. -/
theorem Yields.bind {m : Lowering α} {k : α → Lowering β}
    (hm : Yields E scope mode m out)
    (hk : ∀ a, Yields E scope mode (k a) fun purpose Γ σ b =>
      out purpose Γ σ a → out' purpose Γ σ b) :
    Yields E scope mode (m >>= k) out' := by
  intro p hp
  obtain ⟨hkept, hout⟩ := hm p hp
  obtain ⟨hkept', hout'⟩ := hk (m p).1 (m p).2 (hp.kept hkept)
  exact ⟨hkept.trans hkept', fun purpose Γ σ h =>
    hout' purpose Γ σ (h.kept hkept) (hout purpose Γ σ h)⟩

/-- What `m` writes is wrapped in `f`. -/
theorem Yields.map {m : Lowering α} {f : α → β} (hm : Yields E scope mode m out)
    (hf : ∀ purpose Γ σ a, out purpose Γ σ a → out' purpose Γ σ (f a)) :
    Yields E scope mode (do return f (← m)) out' :=
  hm.bind fun a => .pure fun purpose Γ σ => hf purpose Γ σ a

/-- Expressions do not depend on the mode, so `.plain` is enough. -/
theorem Yields.of_plain {m : Lowering α} {out : List String → Naming → α → Prop}
    (hm : Yields E scope .plain m fun _ => out) :
    Yields E scope mode m fun _ => out :=
  fun p hp => ⟨(hm p hp).1, fun _ Γ σ h => (hm p hp).2 .plain Γ σ h.plain⟩

/-- Where `mode` runs effects, only the purpose `.effect` matters. -/
theorem Yields.of_effect {m : Lowering α} (hmode : mode.effect = true)
    (hm : Yields E scope .plain m fun _ => out .effect) :
    Yields E scope mode m out := by
  refine fun p hp => ⟨(hm p hp).1, fun purpose Γ σ h => ?_⟩
  have hout := (hm p hp).2 .plain Γ σ h.plain
  cases h.serves with
  | effect => exact hout
  | _ => cases hmode

/-- In other modes it does not matter. -/
theorem Yields.of_not_effect {m : Lowering α} (hmode : mode.effect = false)
    (hm : Yields E scope .plain m fun _ Γ σ a =>
      out .plain Γ σ a ∧ ∀ frame, out (.loop frame) Γ σ a) :
    Yields E scope mode m out := by
  refine fun p hp => ⟨(hm p hp).1, fun purpose Γ σ h => ?_⟩
  obtain ⟨hplain, hloop⟩ := (hm p hp).2 .plain Γ σ h.plain
  cases h.serves with
  | plain => exact hplain
  | effect => cases hmode
  | loop => exact hloop _

/-- From the state `p`, a block is written that declares new names only, each of them once, and is
as `out` says where these are declared. -/
structure BlockAt (E : Setting) (scope : List Binder)
    (mode : Mode) (p p' : Progress) (block : List Stmt)
    (out : Purpose → List String → Naming → List Stmt → Prop) : Prop where
  /-- What was there before stays as it is. -/
  kept : Kept scope p p'
  /-- No name is declared twice. -/
  nodup : (declared block).Nodup
  /-- Only new names are declared. -/
  new : ∀ x ∈ declared block, New E.closed scope p x
  /-- The block is as it should be. -/
  out : ∀ purpose Γ σ, Fits E scope p mode purpose Γ σ → (∀ x ∈ declared block, x ∈ Γ) →
    out purpose Γ σ block

/-- Wherever the step `m` is taken, the block that it writes is as `out` says. -/
def YieldsBlock (E : Setting) (scope : List Binder)
    (mode : Mode) (m : Lowering (List Stmt))
    (out : Purpose → List String → Naming → List Stmt → Prop) : Prop :=
  ∀ p, Ready E.context scope p → BlockAt E scope mode p (m p).2 (m p).1 out

variable {outs outs' : Purpose → List String → Naming → List Stmt → Prop}

/-- A step `m` whose statements declare nothing writes a block. -/
theorem Yields.block {m : Lowering (List Stmt)} (hm : Yields E scope mode m outs)
    (hdeclared : ∀ p, declared (m p).1 = []) : YieldsBlock E scope mode m outs := by
  intro p hp
  obtain ⟨hkept, hout⟩ := hm p hp
  refine ⟨hkept, ?_, ?_, fun purpose Γ σ h _ => hout purpose Γ σ h⟩
  · rw [hdeclared p]
    exact .nil
  · rw [hdeclared p]
    nofun

/-- A block that `m` writes for `t` is a `Body` of its own. -/
theorem YieldsBlock.body {t : Analyzed} {m : Lowering (List Stmt)}
    (hm : YieldsBlock E scope mode m fun purpose Γ σ => Block E purpose Γ σ t) :
    Yields E scope mode m fun purpose Γ σ => Body E purpose [] Γ σ t := by
  intro p hp
  have h := hm p hp
  refine ⟨h.kept, fun purpose Γ σ hfits => .mk (by simpa using h.nodup) ?_⟩
  exact h.out purpose _ σ (hfits.enter hp h.new) fun x hx => by simp [Script.enter, hx]

/-- So is one whose mode serves a `purpose` in all places, in whatever mode it stands. -/
theorem YieldsBlock.body_as {t : Analyzed} {m : Lowering (List Stmt)} {mode' : Mode}
    (hserves : ∀ Γ σ S, Serves E.names Γ σ S mode purpose)
    (hm : YieldsBlock E scope mode m fun purpose Γ σ => Block E purpose Γ σ t) :
    Yields E scope mode' m fun _ Γ σ => Body E purpose [] Γ σ t :=
  fun p hp => ⟨(hm.body p hp).1,
    fun _ Γ σ h => (hm.body p hp).2 purpose Γ σ ⟨h.adequate, hserves ..⟩⟩

/-- The binders `bs` of a node: distinct, not in `scope` yet, and with regular names. -/
structure Fresh (closed : Prop) (scope bs : List Binder) : Prop where
  /-- They are distinct. -/
  nodup : bs.Nodup
  /-- They are not in scope. -/
  notMem : ∀ b ∈ bs, b ∉ scope
  /-- Their names are regular. -/
  regular : ∀ b ∈ bs, ∀ x, b.name = some x → Regular closed x

/-- Fresh binders get names of their own by `bindNames`. -/
theorem Fresh.named (h : Fresh E.closed scope bs) (hp : Ready E.context scope p) :
    Named E.context E.closed scope bs (bindNames bs p).1 p (bindNames bs p).2 :=
  named_bindNames hp h.nodup h.notMem h.regular

/-- A function `f` of names for `params` and of the block that `m` writes where they are in
scope. -/
theorem yields_function {params : List Binder} {t : Analyzed} {m : Lowering (List Stmt)}
    {f : List String → List Stmt → Script.Expr} (hfresh : Fresh E.closed scope params)
    (hserves : ∀ Γ σ S, Serves E.names Γ σ S mode purpose)
    (hm : YieldsBlock E (params ++ scope) mode m
      fun purpose Γ σ => Block E purpose Γ σ t)
    {out : List String → Naming → Script.Expr → Prop}
    (hout : ∀ Γ σ names block, names.length = params.length → names.Nodup →
      Body E purpose names (enter Γ names) (params.zipIdx Γ.length ++ σ) t block →
      out Γ σ (f names block)) :
    Yields E scope .plain (do
      let names ← bindNames params
      return f names (← m)) fun _ => out := by
  intro p hp
  have hnamed := hfresh.named hp
  have h := hm _ hnamed.ready
  refine ⟨hnamed.kept.trans (h.kept.mono (List.subset_append_right ..)), fun _ Γ σ hfits => ?_⟩
  have hks := map_resolve_enter Γ hnamed.nodup
  rw [hnamed.length_eq] at hks
  have hplace : Fits E (params ++ scope) (bindNames params p).2 mode purpose
      (enter Γ (bindNames params p).1) (params.zipIdx Γ.length ++ σ) := by
    rw [List.zipIdx_eq_zip_range']
    have hentered := hfits.enter hp hnamed.new
    exact ⟨(hentered.bind hp hnamed hfresh.nodup hfresh.notMem hks).adequate, hserves ..⟩
  refine hout Γ σ _ _ hnamed.length_eq hnamed.nodup (.mk ?_ ?_)
  -- A body may not declare a name of a parameter again: what it declares is new where the
  -- parameters are in use.
  · exact List.nodup_append.2 ⟨hnamed.nodup, h.nodup,
      fun x hx y hy => (h.new y hy).ne (hnamed.used x hx)⟩
  · exact h.out purpose _ _ (hplace.enter hnamed.ready h.new) fun x hx => by
      simp [Script.enter, hx]

/-- Names `xs` that are declared in `Γ` refer to something. -/
theorem exists_map_resolve {Γ xs : List String} (h : ∀ x ∈ xs, x ∈ Γ) :
    ∃ ks : List Nat, xs.map (resolve · Γ) = ks.map some := by
  induction xs with
  | nil => exact ⟨[], rfl⟩
  | cons x rest ih =>
    obtain ⟨ks, hks⟩ := ih fun y hy => h y (List.mem_cons_of_mem _ hy)
    obtain ⟨k, hk⟩ := Option.isSome_iff_exists.1 (isSome_resolve (h x (List.mem_cons_self ..)))
    exact ⟨k :: ks, by rw [List.map_cons, hk, hks, List.map_cons]⟩

/-- Declarations `pre` before a block: the binders `bs` have got the names `xs`, `pre` declares
these after `extra` ones, and `rest` is written in the scope of the binders. -/
theorem BlockAt.prepend {pre rest : List Stmt} {extra : List String} {p₁ p₂ p₃ : Progress}
    (hp : Ready E.context scope p) (hkept : Kept scope p p₁) (hfresh : Fresh E.closed scope bs)
    (hnamed : Named E.context E.closed scope bs xs p₁ p₂)
      (htook : Took E.closed (bs ++ scope) extra p₂ p₃)
    (hrest : BlockAt E (bs ++ scope) mode p₃ p' rest outs')
    (hdeclared : declared pre = extra ++ xs)
    (hout : ∀ purpose Γ σ ks, Fits E scope p mode purpose Γ σ →
      Fits E (bs ++ scope) p₂ mode purpose Γ (bs.zip ks ++ σ) →
      xs.map (resolve · Γ) = ks.map some → (∀ x ∈ extra, x ∈ Γ) →
      outs' purpose Γ (bs.zip ks ++ σ) rest → outs purpose Γ σ (pre ++ rest)) :
    BlockAt E scope mode p p' (pre ++ rest) outs := by
  have hsub : scope ⊆ bs ++ scope := List.subset_append_right ..
  have hall : declared (pre ++ rest) = extra ++ xs ++ declared rest := by
    rw [declared_append, hdeclared]
  have hrestNew (x : String) (hx : x ∈ declared rest) : New E.closed (bs ++ scope) p₂ x :=
    (hrest.new x hx).of_kept htook.kept
  refine ⟨?_, ?_, ?_, ?_⟩
  · exact hkept.trans (hnamed.kept.trans ((htook.kept.trans hrest.kept).mono hsub))
  -- Names come in three groups: those of the binders, the others that the declarations take and
  -- those of the block. Each later group is new where the earlier are in use.
  · rw [hall]
    refine List.nodup_append.2
      ⟨List.nodup_append.2 ⟨htook.nodup, hnamed.nodup, ?_⟩, hrest.nodup, ?_⟩
    · exact fun x hx y hy => ((htook.new x hx).ne (hnamed.used y hy)).symm
    · intro x hx y hy
      rcases List.mem_append.1 hx with hx | hx
      · exact (hrest.new y hy).ne (htook.used x hx)
      · exact (hrestNew y hy).ne (hnamed.used x hx)
  · intro x hx
    rw [hall] at hx
    have hearlier (y : String) (hy : New E.closed (bs ++ scope) p₂ y) : New E.closed scope p y :=
      ((hy.mono hsub).of_kept hnamed.kept).of_kept hkept
    rcases List.mem_append.1 hx with hx | hx
    · rcases List.mem_append.1 hx with hx | hx
      · exact hearlier x (htook.new x hx)
      · exact (hnamed.new x hx).of_kept hkept
    · exact hearlier x (hrestNew x hx)
  · intro purpose Γ σ hfits hmem
    rw [hall] at hmem
    simp only [List.mem_append] at hmem
    obtain ⟨ks, hks⟩ := exists_map_resolve fun x hx => hmem x (.inl (.inr hx))
    have hbound := (hfits.kept hkept).bind (hp.kept hkept) hnamed hfresh.nodup hfresh.notMem hks
    refine hout purpose Γ σ ks hfits hbound hks (fun x hx => hmem x (.inl (.inl hx))) ?_
    exact hrest.out purpose Γ _ (hbound.kept htook.kept) fun x hx => hmem x (.inr hx)

/-- A single name `x` refers to a single declaration. -/
theorem eq_singleton_of_map_resolve {x : String} {Γ : List String} {ks : List Nat}
    (h : [x].map (resolve · Γ) = ks.map some) : ∃ k, ks = [k] ∧ resolve x Γ = some k := by
  obtain ⟨k, hk⟩ : ∃ k, ks = [k] := by
    rw [← List.length_eq_one_iff]
    simpa using (congrArg List.length h).symm
  subst hk
  exact ⟨k, rfl, by simpa using h⟩

/-- The declaration `s` of one binder `b` before the block `rest`. -/
theorem BlockAt.cons {s : Stmt} {rest : List Stmt} {b : Binder} {x : String} {p₁ p₂ : Progress}
    (hp : Ready E.context scope p) (hkept : Kept scope p p₁) (hfresh : Fresh E.closed scope [b])
    (hnamed : Named E.context E.closed scope [b] [x] p₁ p₂)
    (hrest : BlockAt E ([b] ++ scope) mode p₂ p' rest outs')
    (hdeclares : s.declares? = some x)
    (hout : ∀ purpose Γ σ k, Fits E scope p mode purpose Γ σ → resolve x Γ = some k →
      outs' purpose Γ ((b, k) :: σ) rest → outs purpose Γ σ (s :: rest)) :
    BlockAt E scope mode p p' (s :: rest) outs := by
  have hdeclared : declared [s] = [] ++ [x] := by simp [declared, hdeclares]
  refine BlockAt.prepend hp hkept hfresh hnamed (.nil ..) hrest hdeclared ?_
  intro purpose Γ σ ks hfits hbound hks _ hrest
  obtain ⟨k, rfl, hk⟩ := eq_singleton_of_map_resolve hks
  exact hout purpose Γ σ k hfits hk hrest

/-! ## Ways to lower a term -/

/-- The ways `K` to lower a term write scripts that stand for `t`. -/
structure Code.StandsFor (E : Setting) (scope : List Binder)
    (t : Analyzed) (K : Code) : Prop where
  /-- The expression stands for it. -/
  value : Yields E scope .plain K.value fun _ Γ σ => Value E Γ σ t
  /-- The statement returns its value. -/
  returned : Yields E scope .plain K.returned fun _ Γ σ s =>
    ∃ e, s = returnStmt t e ∧ Value E Γ σ t e
  /-- The statement declares nothing. -/
  declares : ∀ p, (K.returned p).1.declares? = none
  /-- The expression runs it as an effect. -/
  run : Yields E scope .plain K.run fun _ Γ σ => Run E Γ σ t
  /-- The block stands for it. -/
  block : ∀ mode, YieldsBlock E scope mode (K.block mode)
    fun purpose Γ σ => Block E purpose Γ σ t

section Combinators

variable {t : Analyzed} {value run : Lowering Script.Expr} {returned : Lowering Stmt}

/-- The statement of `returned`, in a mode other than that of effects. -/
theorem yieldsBlock_returned (hstmt : t.isStatement = false) (hmode : mode.effect = false)
    (hr : Yields E scope .plain returned fun _ Γ σ s =>
      ∃ e, s = returnStmt t e ∧ Value E Γ σ t e)
    (hnone : ∀ p, (returned p).1.declares? = none) :
    YieldsBlock E scope mode (do return [← returned])
      fun purpose Γ σ => Block E purpose Γ σ t := by
  refine Yields.block (.of_not_effect hmode (hr.map ?_)) fun p => ?_
  · rintro - Γ σ s ⟨e, rfl, he⟩
    exact ⟨.returned hstmt he, fun frame => .loopReturned hstmt he⟩
  · have hresult : declared [(returned p).1] = [] := by simp [declared, hnone p]
    exact hresult

/-- A term with a `returned` statement of its own. -/
theorem standsFor_ofReturn (hstmt : t.isStatement = false) (heffect : t.isEffect = false)
    (hv : Yields E scope .plain value fun _ Γ σ => Value E Γ σ t)
    (hr : Yields E scope .plain returned fun _ Γ σ s =>
      ∃ e, s = returnStmt t e ∧ Value E Γ σ t e)
    (hnone : ∀ p, (returned p).1.declares? = none) :
    (Code.ofReturn value returned).StandsFor E scope t where
  value := hv
  returned := hr
  declares := hnone
  run := hv.map fun _ _ _ _ he => .value heffect he
  block mode := by
    simp only [Code.ofReturn]
    split
    · rename_i hmode
      refine Yields.block (.of_effect hmode (hv.map ?_)) fun _ => rfl
      exact fun _ Γ σ e he => .runReturned hstmt heffect he
    · rename_i hmode
      exact yieldsBlock_returned hstmt (by simpa using hmode) hr hnone

/-- A term that is lowered to an expression by `value`. -/
theorem standsFor_ofValue (hstmt : t.isStatement = false) (heffect : t.isEffect = false)
    (hret : ∀ e, returnStmt t e = .ret e)
    (hv : Yields E scope .plain value fun _ Γ σ => Value E Γ σ t) :
    (Code.ofValue value).StandsFor E scope t :=
  standsFor_ofReturn hstmt heffect hv (hv.map fun _ _ _ e he => ⟨e, (hret e).symm, he⟩)
    fun _ => rfl

/-- A term that is lowered to an object literal by `value`. -/
theorem standsFor_ofObject (hstmt : t.isStatement = false) (heffect : t.isEffect = false)
    (hret : ∀ e, returnStmt t e = .retObject e)
    (hv : Yields E scope .plain value fun _ Γ σ => Value E Γ σ t) :
    (Code.ofObject value).StandsFor E scope t :=
  standsFor_ofReturn hstmt heffect hv (hv.map fun _ _ _ e he => ⟨e, (hret e).symm, he⟩)
    fun _ => rfl

/-- A term that is lowered to statements by `block`. -/
theorem standsFor_ofBlock {block : Mode → Lowering (List Stmt)} (hsimple : isSimple t = false)
    (heffect : t.isEffect = false) (hret : ∀ e, returnStmt t e = .ret e)
    (h : ∀ mode, YieldsBlock E scope mode (block mode)
      fun purpose Γ σ => Block E purpose Γ σ t) :
    (Code.ofBlock block).StandsFor E scope t := by
  have hbody : Yields E scope .plain (block .plain)
      fun _ Γ σ => Body E .plain [] Γ σ t :=
    (h .plain).body_as fun _ _ _ => .plain
  exact {
    value := hbody.map fun _ _ _ _ hb => .block hsimple hb
    returned := hbody.map fun _ _ _ b hb => ⟨_, (hret _).symm, .block hsimple hb⟩
    declares := fun _ => rfl
    run := hbody.map fun _ _ _ _ hb => .value heffect (.block hsimple hb)
    block := h }

/-- An effect: `body` is that of the function it is, `run` runs it in an expression, and `block`
where effects are run. -/
theorem standsFor_ofEffect {body : Lowering (List Stmt)} {block : Mode → Lowering (List Stmt)}
    (heffect : t.isEffect = true) (hstmt : t.isStatement = false)
    (hret : ∀ e, returnStmt t e = .ret e)
    (hbody : YieldsBlock E scope .effectful body
      fun purpose Γ σ => Block E purpose Γ σ t)
    (hrun : Yields E scope .plain run fun _ Γ σ => Run E Γ σ t)
    (hblock : ∀ mode, mode.effect = true → YieldsBlock E scope mode (block mode)
      fun purpose Γ σ => Block E purpose Γ σ t) :
    (Code.ofEffect body run block).StandsFor E scope t := by
  -- an effect is a function without parameters whose body runs it
  have hvalue : Yields E scope .plain body
      fun _ Γ σ b => Value E Γ σ t (.arrow [] b) := by
    have hbody' : Yields E scope .plain body
        fun _ Γ σ => Body E .effect [] Γ σ t := hbody.body_as fun _ _ _ => .effect
    exact fun p hp => ⟨(hbody' p hp).1, fun q Γ σ h => .effect heffect ((hbody' p hp).2 q Γ σ h)⟩
  exact {
    value := hvalue.map fun _ _ _ _ hb => hb
    returned := hvalue.map fun _ _ _ b hb => ⟨_, (hret _).symm, hb⟩
    declares := fun _ => rfl
    run := hrun
    block := fun mode => by
      simp only [Code.ofEffect]
      split
      · exact hblock mode ‹_›
      · rename_i hmode
        refine Yields.block (.of_not_effect (by simpa using hmode) (hvalue.map ?_)) fun _ => rfl
        intro _ Γ σ b hb
        rw [← hret]
        exact ⟨.returned hstmt hb, fun frame => .loopReturned hstmt hb⟩ }

/-! ### Several terms -/

variable {ts : List Analyzed} {callee : Lowering Script.Expr}

/-- `all` writes the values of `ts`, one after the other. -/
theorem yields_all
    (h : ∀ t ∈ ts, Yields E scope .plain (code E.context t).value
      fun _ Γ σ => Value E Γ σ t) :
    Yields E scope mode (all (ts.map fun t => (code E.context t).value))
      fun _ Γ σ => Values E Γ σ ts := by
  induction ts with
  | nil => exact .pure fun _ _ _ => .nil
  | cons t rest ih =>
    refine (h t (List.mem_cons_self ..)).of_plain.bind fun e => ?_
    refine (ih fun u hu => h u (List.mem_cons_of_mem _ hu)).bind fun es => ?_
    exact .pure fun _ _ _ hes he => .cons he hes

/-- The `fields` of an object literal, one after the other. -/
theorem yields_fields {fields : List (String × Analyzed)}
    (h : ∀ t ∈ fields.map Prod.snd, Yields E scope .plain (code E.context t).value
      fun _ Γ σ => Value E Γ σ t) :
    Yields E scope mode
      (all (fields.map fun f => do return Field.field f.1 (← (code E.context f.2).value)))
      fun _ Γ σ => Fields E Γ σ fields := by
  induction fields with
  | nil => exact .pure fun _ _ _ => .nil
  | cons f rest ih =>
    have hfirst : Yields E scope mode
        (do return Field.field f.1 (← (code E.context f.2).value)) fun _ Γ σ s =>
          ∃ e, s = .field f.1 e ∧ Value E Γ σ f.2 e :=
      (h f.2 (List.mem_cons_self ..)).of_plain.map fun _ _ _ e he => ⟨e, rfl, he⟩
    refine hfirst.bind fun s => (ih fun u hu => h u (List.mem_cons_of_mem _ hu)).bind fun fs => ?_
    refine .pure fun _ Γ σ hfs hs => ?_
    obtain ⟨e, rfl, he⟩ := hs
    exact .cons he hfs

/-- `callEach` applies what `callee` writes to the values of `ts`, one by one. -/
theorem yields_callEach {out : List String → Naming → Script.Expr → Prop}
    (hf : Yields E scope .plain callee fun _ => out)
    (h : ∀ t ∈ ts, Yields E scope .plain (code E.context t).value
      fun _ Γ σ => Value E Γ σ t) :
    Yields E scope .plain (callEach callee (ts.map fun t => (code E.context t).value))
      fun _ Γ σ e => ∃ f es, out Γ σ f ∧ Values E Γ σ ts es ∧
        e = es.foldl (fun f e => .call f [e]) f := by
  induction ts generalizing callee out with
  | nil => exact fun p hp => ⟨(hf p hp).1, fun q Γ σ h => ⟨_, [], (hf p hp).2 q Γ σ h, .nil, rfl⟩⟩
  | cons t rest ih =>
    have hfirst : Yields E scope .plain
        (do let f ← callee; let x ← (code E.context t).value; return Script.Expr.call f [x])
        fun _ Γ σ e => ∃ f x, e = Script.Expr.call f [x] ∧ out Γ σ f ∧ Value E Γ σ t x := by
      refine hf.bind fun f => (h t (List.mem_cons_self ..)).map fun _ _ _ x hx hf => ?_
      exact ⟨f, x, rfl, hf, hx⟩
    have hrest := ih hfirst fun u hu => h u (List.mem_cons_of_mem _ hu)
    refine fun p hp => ⟨(hrest p hp).1, fun q Γ σ hfits => ?_⟩
    obtain ⟨-, es, ⟨f, x, rfl, hf, hx⟩, hes, heq⟩ := (hrest p hp).2 q Γ σ hfits
    exact ⟨f, x :: es, hf, .cons hx hes, heq⟩

/-- `callAll` applies it to all of them at once. -/
theorem yields_callAll {out : List String → Naming → Script.Expr → Prop}
    (hf : Yields E scope .plain callee fun _ => out)
    (h : ∀ t ∈ ts, Yields E scope .plain (code E.context t).value
      fun _ Γ σ => Value E Γ σ t) :
    Yields E scope .plain (callAll callee (ts.map fun t => (code E.context t).value))
      fun _ Γ σ e => ∃ f es, out Γ σ f ∧ Values E Γ σ ts es ∧ e = .call f es :=
  hf.bind fun f => (yields_all h).map fun _ _ _ es hes hf => ⟨f, es, hf, hes, rfl⟩

end Combinators

end TailLoop.Lower
