import TailLoop.Proofs.CallSimulation

/-!
# Simulation of expressions

Expressions that stand for the same term evaluate to the same, if the expressions of the parts of
the term do and blocks are simulated by smaller engines. The cases follow the forms of terms: at
most one kind of expression stands for the value of a term, whatever becomes a loop.

* `ValueSim`, `RunSim`: what it means that the values and the effects of a term are simulated.
* `value_sim`, `run_sim`: the step from the parts of a term to the term.
-/

namespace TailLoop.Emit

open Script Lower

variable {S : Type}

/-- The values of a term are simulated with an engine of size `n`. -/
def ValueSim (P : Primitives S) (V : Versions) (n : Nat) (t : Analyzed) : Prop :=
  ∀ {W : World S} {σ σ' : Naming} {ρ ρ' : Scope} {e e' : Script.Expr}, Agree V W σ ρ σ' ρ' →
    Owns V t → Value V.left (namesOf ρ) σ t e → Value V.right (namesOf ρ') σ' t e' →
    Sim V W (eval P (engine P n).call ρ e) (fun m => eval P (engine P m).call ρ' e') (Same V)

/-- The effects of a term are simulated with an engine of size `n`. -/
def RunSim (P : Primitives S) (V : Versions) (n : Nat) (t : Analyzed) : Prop :=
  ∀ {W : World S} {σ σ' : Naming} {ρ ρ' : Scope} {e e' : Script.Expr}, Agree V W σ ρ σ' ρ' →
    Owns V t → Run V.left (namesOf ρ) σ t e → Run V.right (namesOf ρ') σ' t e' →
    Sim V W (eval P (engine P n).call ρ e) (fun m => eval P (engine P m).call ρ' e') (Same V)

/-- The part `u` refers to the unit only where `t` does. -/
theorem Owns.child {V : Versions} {t u : Analyzed} (h : Owns V t) (hu : u ∈ t.children) :
    Owns V u := fun a q hq => h a q (Term.mem_subterms_iff.2 (.inr ⟨u, hu, hq⟩))

section

variable {P : Primitives S} {V : Versions} {W : World S} {n : Nat} {σ σ' : Naming} {ρ ρ' : Scope}

/-! ## Variables -/

/-- Cells `ℓ` and `ℓ'` that belong together are read in the same way. -/
theorem sim_read {x x' : String} {ℓ ℓ' : Nat} (hx : ρ.lookup x = some ℓ)
    (hx' : ρ'.lookup x' = some ℓ') (hj : W.joins ℓ ℓ') :
    Sim V W (Compute.read ρ x) (fun _ => Compute.read ρ' x') (Same V) := by
  intro s s' hstores o ho
  obtain ⟨c, c', hc, hc', hcell⟩ := hstores.cells hj
  cases hcell with
  | empty =>
    rw [Compute.read, hx, Option.bind_some, hc] at ho
    cases ho
  | @value _ _ v v' hv hv' hsame =>
    rw [read_apply hx (by rw [hc]; exact hv)] at ho
    obtain rfl := Option.some.inj ho
    exact ⟨_, .of_eq fun _ => read_apply hx' (by rw [hc']; exact hv'),
      .ok (.refl W) (.refl s) (.refl s') hstores hsame⟩

/-- Names that refer to declarations `k` and `k'` whose cells belong together. -/
theorem sim_ident {x x' : String} {k k' : Nat} (hx : resolve x (namesOf ρ) = some k)
    (hx' : resolve x' (namesOf ρ') = some k')
    (hj : ∃ ℓ ℓ', cellOf ρ k = some ℓ ∧ cellOf ρ' k' = some ℓ' ∧ W.joins ℓ ℓ') :
    Sim V W (eval P (engine P n).call ρ (.ident x))
      (fun m => eval P (engine P m).call ρ' (.ident x')) (Same V) := by
  obtain ⟨ℓ, ℓ', hk, hk', hj⟩ := hj
  obtain ⟨m, hm, hcell⟩ := lookup_of_resolve hx
  obtain ⟨m', hm', hcell'⟩ := lookup_of_resolve hx'
  obtain rfl := Option.some.inj (hcell.symm.trans hk)
  obtain rfl := Option.some.inj (hcell'.symm.trans hk')
  simp only [eval]
  exact sim_read hm hm' hj

/-! ## Several expressions -/

/-- `evalAll`: the terms `ts` are evaluated one by one, each in a later world. -/
theorem sim_evalAll {ts : List Analyzed} {es es' : List Script.Expr} (hagree : Agree V W σ ρ σ' ρ')
    (hts : ∀ t ∈ ts, ValueSim P V n t ∧ Owns V t) (h : Values V.left (namesOf ρ) σ ts es)
    (h' : Values V.right (namesOf ρ') σ' ts es') :
    Sim V W (evalAll P (engine P n).call ρ es) (fun m => evalAll P (engine P m).call ρ' es')
      (SameAll V) := by
  induction ts generalizing W es es' with
  | nil =>
    cases h
    cases h'
    simp only [evalAll]
    exact .pure .nil
  | cons t ts ih =>
    cases h with
    | cons hv h =>
      cases h' with
      | cons hv' h' =>
        obtain ⟨hsim, howns⟩ := hts t (List.mem_cons_self ..)
        simp only [evalAll]
        refine (hsim hagree howns hv hv').bind fun W₁ hle v v' hsame => ?_
        refine (ih (hagree.mono hle) (fun u hu => hts u (List.mem_cons_of_mem _ hu)) h h').bind
          fun W₂ hle₂ vs vs' hrest => ?_
        exact .pure (.cons (hsame.mono hle₂) hrest)

/-- `evalFields`: the `fields` are set one by one, behind what was `built` so far. -/
theorem sim_evalFields {fields : List (String × Analyzed)} {fs fs' : List Field}
    {built built' : List (String × Val S)} (hagree : Agree V W σ ρ σ' ρ')
    (hts : ∀ t ∈ fields.map Prod.snd, ValueSim P V n t ∧ Owns V t)
    (h : Fields V.left (namesOf ρ) σ fields fs) (h' : Fields V.right (namesOf ρ') σ' fields fs')
    (hbuilt : SameFields V W built built') :
    Sim V W (evalFields P (engine P n).call ρ built fs)
      (fun m => evalFields P (engine P m).call ρ' built' fs') (SameFields V) := by
  induction fields generalizing W fs fs' built built' with
  | nil =>
    cases h
    cases h'
    simp only [evalFields]
    exact .pure hbuilt
  | cons field fields ih =>
    cases h with
    | cons hv h =>
      cases h' with
      | cons hv' h' =>
        obtain ⟨hsim, howns⟩ := hts _ (List.mem_cons_self ..)
        simp only [evalFields]
        refine (hsim hagree howns hv hv').bind fun W₁ hle v v' hsame => ?_
        exact ih (hagree.mono hle) (fun u hu => hts u (List.mem_cons_of_mem _ hu)) h h'
          ((hbuilt.mono hle).setField hsame _)

/-- A call of `f` with all arguments. -/
theorem sim_callAll {ts : List Analyzed} {f f' : Script.Expr} {es es' : List Script.Expr}
    (hfit : V.Fit P) (ih : ∀ m < n, ∀ u, BlockSim P V m u) (hagree : Agree V W σ ρ σ' ρ')
    (hf : Sim V W (eval P (engine P n).call ρ f) (fun m => eval P (engine P m).call ρ' f') (Same V))
    (hts : ∀ t ∈ ts, ValueSim P V n t ∧ Owns V t) (h : Values V.left (namesOf ρ) σ ts es)
    (h' : Values V.right (namesOf ρ') σ' ts es') :
    Sim V W (eval P (engine P n).call ρ (.call f es))
      (fun m => eval P (engine P m).call ρ' (.call f' es')) (Same V) := by
  simp only [eval]
  refine hf.bind fun W₁ hle v v' hsame => ?_
  exact (sim_evalAll (hagree.mono hle) hts h h').bind fun W₂ hle₂ vs vs' hvs =>
    sim_call hfit ih (hsame.mono hle₂) hvs

/-- A call of `f` with arguments one by one. -/
theorem sim_callEach {ts : List Analyzed} {f f' : Script.Expr} {es es' : List Script.Expr}
    (hfit : V.Fit P) (ih : ∀ m < n, ∀ u, BlockSim P V m u) (hagree : Agree V W σ ρ σ' ρ')
    (hf : Sim V W (eval P (engine P n).call ρ f) (fun m => eval P (engine P m).call ρ' f') (Same V))
    (hts : ∀ t ∈ ts, ValueSim P V n t ∧ Owns V t) (h : Values V.left (namesOf ρ) σ ts es)
    (h' : Values V.right (namesOf ρ') σ' ts es') :
    Sim V W (eval P (engine P n).call ρ (es.foldl (fun f e => .call f [e]) f))
      (fun m => eval P (engine P m).call ρ' (es'.foldl (fun f e => .call f [e]) f')) (Same V) := by
  induction ts generalizing f f' es es' with
  | nil =>
    cases h
    cases h'
    exact hf
  | cons t ts ihts =>
    cases h with
    | cons hv h =>
      cases h' with
      | cons hv' h' =>
        simp only [List.foldl_cons]
        refine ihts (sim_callAll hfit ih hagree hf (fun u hu => hts u ?_) (.cons hv .nil)
          (.cons hv' .nil)) (fun u hu => hts u (List.mem_cons_of_mem _ hu)) h h'
        exact List.mem_singleton.1 hu ▸ List.mem_cons_self ..

/-! ## Functions -/

/-- Functions of `t` that take their arguments one by one. -/
theorem same_curriedFn {t : Analyzed} {names names' : List String} {block block' : List Stmt}
    (hagree : Agree V W σ ρ σ' ρ') (howns : Owns V t.inner) (hlen : names.length = t.params.length)
    (hnodup : names.Nodup) (hlen' : names'.length = t.params.length) (hnodup' : names'.Nodup)
    (hbody : Body V.left .plain names (enter (namesOf ρ) names)
      (t.params.zipIdx (namesOf ρ).length ++ σ) t.inner block)
    (hbody' : Body V.right .plain names' (enter (namesOf ρ') names')
      (t.params.zipIdx (namesOf ρ').length ++ σ') t.inner block') :
    Same V W (curriedFn ρ names block) (curriedFn ρ' names' block') := by
  have htaken : List.Forall₂ (fun p p' : String × Nat => W.settled p.2 p'.2) [] [] := .nil
  exact .function (@SameFn.curried _ _ _ [] [] ⟨σ, ρ, []⟩ ⟨σ', ρ', []⟩ 0 t [] [] names names' block
    block' (.nil hagree) (.plain hlen hnodup hbody) (.plain hlen' hnodup' hbody') howns htaken
    (hlen.trans hlen'.symm))

/-- Functions of `t` without parameters, which run a block for the purpose `p`. -/
theorem same_function {t : Analyzed} {block block' : List Stmt} {p : Purpose}
    (hp : p = .plain ∨ p = .effect) (hagree : Agree V W σ ρ σ' ρ') (howns : Owns V t)
    (h : Body V.left p [] (namesOf ρ) σ t block) (h' : Body V.right p [] (namesOf ρ') σ' t block') :
    Same V W (.function [] block ρ) (.function [] block' ρ') :=
  .function (@SameFn.arrow _ _ _ p σ ρ σ' ρ' [] [] t block block' [] hp hagree howns rfl
    .nil rfl .nil
    h h')

/-- The block of `t`, called where it stands. -/
theorem sim_immediate {t : Analyzed} {block block' : List Stmt} {p : Purpose} (hfit : V.Fit P)
    (ih : ∀ m < n, ∀ u, BlockSim P V m u) (hp : p = .plain ∨ p = .effect)
    (hagree : Agree V W σ ρ σ' ρ') (howns : Owns V t) (h : Body V.left p [] (namesOf ρ) σ t block)
    (h' : Body V.right p [] (namesOf ρ') σ' t block') :
    Sim V W (eval P (engine P n).call ρ (.immediate block))
      (fun m => eval P (engine P m).call ρ' (.immediate block')) (Same V) := by
  simp only [Script.Expr.immediate, eval, evalAll, pure_bind]
  exact sim_call hfit ih (same_function hp hagree howns h h') .nil

/-! ## Operators -/

/-- All operators but `and` and `or` evaluate both operands. -/
theorem eval_binary {op : BinaryOp} (hand : op ≠ .and) (hor : op ≠ .or)
    (call : Val S → List (Val S) → Compute S (Val S)) (ρ : Scope) (e f : Script.Expr) :
    eval P call ρ (.binary op e f) = eval P call ρ e >>= fun v => eval P call ρ f >>= fun w =>
      .given ((P.binary op v.mask w.mask).map .scalar) := by
  rw [eval]
  · exact hand
  · exact hor

section

variable {e e' f f' : Script.Expr}
  (he : Sim V W (eval P (engine P n).call ρ e) (fun m => eval P (engine P m).call ρ' e') (Same V))

include he

/-- An operator of one operand. -/
theorem sim_unary (op : UnaryOp) :
    Sim V W (eval P (engine P n).call ρ (.unary op e))
      (fun m => eval P (engine P m).call ρ' (.unary op e')) (Same V) := by
  simp only [eval]
  refine he.bind fun W₁ _ v v' hsame => .given fun w hw => ?_
  rw [← hsame.mask_eq]
  exact exists_same_scalar hw

/-- A property `name` of a value. -/
theorem sim_access (name : String) :
    Sim V W (eval P (engine P n).call ρ (.access e name))
      (fun m => eval P (engine P m).call ρ' (.access e' name)) (Same V) := by
  simp only [eval]
  exact he.bind fun W₁ _ v v' hsame => .given fun w hw => hsame.property hw

/-- An operator of two operands. The second is evaluated in a later world `W₁`, or not at all. -/
theorem sim_binary (op : BinaryOp) (hf : ∀ W₁, W ≤ W₁ → Sim V W₁ (eval P (engine P n).call ρ f)
      (fun m => eval P (engine P m).call ρ' f') (Same V)) :
    Sim V W (eval P (engine P n).call ρ (.binary op e f))
      (fun m => eval P (engine P m).call ρ' (.binary op e' f')) (Same V) := by
  by_cases hand : op = .and
  · subst hand
    simp only [eval]
    refine he.bind fun W₁ hle v v' hsame => ?_
    rw [← hsame.holds_eq]
    split
    · exact hf W₁ hle
    · exact .pure hsame
  by_cases hor : op = .or
  · subst hor
    simp only [eval]
    refine he.bind fun W₁ hle v v' hsame => ?_
    rw [← hsame.holds_eq]
    split
    · exact .pure hsame
    · exact hf W₁ hle
  simp only [eval_binary hand hor]
  refine he.bind fun W₁ hle v v' hsame => (hf W₁ hle).bind fun W₂ hle₂ w w' hsame' => ?_
  rw [← (hsame.mono hle₂).mask_eq, ← hsame'.mask_eq]
  exact .given fun u hu => exists_same_scalar hu

/-- A condition, and its two outcomes in a later world. -/
theorem sim_conditional {g g' : Script.Expr}
    (hf : ∀ W₁, W ≤ W₁ → Sim V W₁ (eval P (engine P n).call ρ f)
      (fun m => eval P (engine P m).call ρ' f') (Same V))
    (hg : ∀ W₁, W ≤ W₁ → Sim V W₁ (eval P (engine P n).call ρ g)
      (fun m => eval P (engine P m).call ρ' g') (Same V)) :
    Sim V W (eval P (engine P n).call ρ (.conditional e f g))
      (fun m => eval P (engine P m).call ρ' (.conditional e' f' g')) (Same V) := by
  simp only [eval]
  refine he.bind fun W₁ hle v v' hsame => ?_
  rw [← hsame.holds_eq]
  split
  · exact hf W₁ hle
  · exact hg W₁ hle

/-- `accessExpr`: what `accessor` reads from a value. -/
theorem sim_accessExpr (accessor : Accessor) :
    Sim V W (eval P (engine P n).call ρ (accessExpr e accessor))
      (fun m => eval P (engine P m).call ρ' (accessExpr e' accessor)) (Same V) := by
  cases accessor with
  | property name => exact sim_access he name
  | field tag name => exact sim_access he name
  | index i =>
    simp only [accessExpr, wordLit, eval, pure_bind]
    exact he.bind fun W₁ _ v v' hsame => .given fun w hw => hsame.element .scalar hw

/-- `testExpr`: whether a value passes `guard`. -/
theorem sim_testExpr (guard : Guard) :
    Sim V W (eval P (engine P n).call ρ (testExpr e guard))
      (fun m => eval P (engine P m).call ρ' (testExpr e' guard)) (Same V) := by
  have hlit (x : Literal) (W₁ : World S) : Sim V W₁ (eval P (engine P n).call ρ (literalExpr x))
      (fun m => eval P (engine P m).call ρ' (literalExpr x)) (Same V) := by
    cases x <;> simp only [literalExpr, eval] <;> exact .pure .scalar
  cases guard with
  | number x => exact sim_binary he .eq fun W₁ _ => hlit (.number x) W₁
  | int i => exact sim_binary he .eq fun W₁ _ => hlit (.int i) W₁
  | text s => exact sim_binary he .eq fun W₁ _ => hlit (.text s) W₁
  | char c => exact sim_binary he .eq fun W₁ _ => hlit (.char c) W₁
  | boolean b =>
    cases b with
    | true => exact he
    | false => exact sim_unary he .not
  | tag name => exact sim_binary (sim_access he _) .eq fun W₁ _ => hlit (.text name) W₁
  | length i => exact sim_binary (sim_access he _) .eq fun W₁ _ => hlit (.int _) W₁

end

/-! ## Values of terms -/

/-- The `arms` of a branch as a conditional expression. By induction on the arms. -/
theorem sim_conditionals {arms : List (Analyzed × Analyzed)} {default : Analyzed}
    {e e' : Script.Expr} (hagree : Agree V W σ ρ σ' ρ')
    (hts : ∀ t ∈ arms.flatMap (fun arm => [arm.1, arm.2]) ++ [default],
      ValueSim P V n t ∧ Owns V t) (h : Conditional V.left (namesOf ρ) σ arms default e)
    (h' : Conditional V.right (namesOf ρ') σ' arms default e') :
    Sim V W (eval P (engine P n).call ρ e) (fun m => eval P (engine P m).call ρ' e') (Same V) := by
  induction arms generalizing W e e' with
  | nil =>
    cases h with
    | default hv =>
      cases h' with
      | default hv' =>
        obtain ⟨hsim, howns⟩ := hts default (List.mem_singleton.2 rfl)
        exact hsim hagree howns hv hv'
  | cons arm arms ih =>
    cases h with
    | arm hcond hbody hrest =>
      cases h' with
      | arm hcond' hbody' hrest' =>
        obtain ⟨hsim, howns⟩ := hts _ (List.mem_cons_self ..)
        obtain ⟨hsim', howns'⟩ := hts _ (List.mem_cons_of_mem _ (List.mem_cons_self ..))
        refine sim_conditional (hsim hagree howns hcond hcond')
          (fun W₁ hle => hsim' (hagree.mono hle) howns' hbody hbody') fun W₁ hle =>
            ih (hagree.mono hle) (fun u hu => hts u ?_) hrest hrest'
        exact List.mem_cons_of_mem _ (List.mem_cons_of_mem _ hu)

/-- The functions of a constructor, with the parameters `names` and `names'`. -/
theorem sim_constructor {tag : String} {fields names names' : List String}
    (hlen : names.length = fields.length) (hnodup : names.Nodup)
    (hlen' : names'.length = fields.length) (hnodup' : names'.Nodup) :
    Sim V W (eval P (engine P n).call ρ (constructorExpr tag fields names))
      (fun m => eval P (engine P m).call ρ' (constructorExpr tag fields names')) (Same V) := by
  cases fields with
  | nil =>
    obtain rfl := List.eq_nil_of_length_eq_zero hlen
    obtain rfl := List.eq_nil_of_length_eq_zero hlen'
    simp only [constructorExpr, tagField, List.zip_nil_left, List.map_nil, List.isEmpty_nil, eval,
      evalFields, pure_bind, if_true]
    exact .pure (.object (.cons .scalar .nil))
  | cons field fields =>
    obtain ⟨x, names, rfl⟩ := List.exists_cons_of_length_eq_add_one hlen
    obtain ⟨x', names', rfl⟩ := List.exists_cons_of_length_eq_add_one hlen'
    simp only [constructorExpr, List.isEmpty_cons, eval_curried, Bool.false_eq_true, if_false]
    exact .pure (.function (@SameFn.constructor _ _ _ tag ρ ρ' [] [] (x :: names) (x' :: names')
      (field :: fields) hlen hnodup hlen' hnodup' .nil (List.cons_ne_nil _ _)))

/-! ### Leaves -/

section

variable {a : Analysis}

/-- `global` is read from the module in both scripts. -/
theorem valueSim_global {q : Qualified} : ValueSim P V n (.global a q) := by
  intro W σ σ' ρ ρ' e e' hagree howns hleft hright
  cases hleft with
  | global hk hk₁ =>
    cases hright with
    | global hk' hk₁' =>
      obtain ⟨htop, ⟨hhead, hexpr, -⟩, hhead', hexpr', -⟩ :=
        howns a q (Term.mem_subterms_iff.2 (.inl rfl))
      rw [hhead] at hk hk₁
      rw [hhead'] at hk' hk₁'
      rw [hexpr, hexpr']
      exact sim_ident hk₁ hk₁' (hagree.global htop hk hk')
    | _ => contradiction
  | _ => contradiction

/-- A variable is read from the cells that belong to its binder `b`. -/
theorem valueSim_bound {b : Binder} : ValueSim P V n (.bound a b) := by
  intro W σ σ' ρ ρ' e e' hagree howns hleft hright
  cases hleft with
  | bound hb hx =>
    cases hright with
    | bound hb' hx' => exact sim_ident hx hx' (hagree.bound hb hb')
    | _ => contradiction
  | _ => contradiction

/-- `lit` is the same constant in both scripts. -/
theorem valueSim_lit {value : Literal} : ValueSim P V n (.lit a value) := by
  intro W σ σ' ρ ρ' e e' hagree howns hleft hright
  cases hleft with
  | lit =>
    cases hright with
    | lit => cases value <;> simp only [literalExpr, eval] <;> exact .pure .scalar
    | _ => contradiction
  | _ => contradiction

/-- `constructor` is a function, whose parameters can have other names in the second script. -/
theorem valueSim_constructor {tag : String} {fields : List String} :
    ValueSim P V n (.constructor a tag fields) := by
  intro W σ σ' ρ ρ' e e' hagree howns hleft hright
  cases hleft with
  | constructor hlen hnodup =>
    cases hright with
    | constructor hlen' hnodup' => exact sim_constructor hlen hnodup hlen' hnodup'
    | _ => contradiction
  | _ => contradiction

/-- `undefined`. -/
theorem valueSim_undefined : ValueSim P V n (.undefined a) := by
  intro W σ σ' ρ ρ' e e' hagree howns hleft hright
  cases hleft with
  | undefined =>
    cases hright with
    | undefined =>
      simp only [eval]
      exact .pure .scalar
    | _ => contradiction
  | _ => contradiction

end

/-! ### Lists and fields -/

section

variable {a : Analysis}

/-- The `items` of an array, one after the other. -/
theorem valueSim_array {items : List Analyzed} (h : ∀ u ∈ items, ValueSim P V n u) :
    ValueSim P V n (.array a items) := by
  intro W σ σ' ρ ρ' e e' hagree howns hleft hright
  cases hleft with
  | array hes =>
    cases hright with
    | array hes' =>
      simp only [eval]
      exact (sim_evalAll hagree (fun u hu => ⟨h u hu, howns.child hu⟩) hes hes').bind
        fun _ _ vs vs' hvs => .pure (.array hvs)
    | _ => contradiction
  | _ => contradiction

variable {fields : List (String × Analyzed)} (h : ∀ u ∈ fields.map Prod.snd, ValueSim P V n u)

include h

/-- The `fields` of a record. -/
theorem valueSim_record : ValueSim P V n (.record a fields) := by
  intro W σ σ' ρ ρ' e e' hagree howns hleft hright
  cases hleft with
  | record hfs =>
    cases hright with
    | record hfs' =>
      simp only [eval]
      exact (sim_evalFields hagree (fun u hu => ⟨h u hu, howns.child hu⟩) hfs hfs' .nil).bind
        fun _ _ fs fs' hsame => .pure (.object hsame)
    | _ => contradiction
  | _ => contradiction

/-- The `fields` of a constructor that is applied, after its `tag`. -/
theorem valueSim_construct {type : Qualified} {tag : String} :
    ValueSim P V n (.construct a type tag fields) := by
  intro W σ σ' ρ ρ' e e' hagree howns hleft hright
  cases hleft with
  | construct hfs =>
    cases hright with
    | construct hfs' =>
      have hparts : ∀ u ∈ fields.map Prod.snd, ValueSim P V n u ∧ Owns V u :=
        fun u hu => ⟨h u hu, howns.child hu⟩
      simp only [eval, tagField, evalFields, pure_bind]
      exact (sim_evalFields hagree hparts hfs hfs' (.cons .scalar .nil)).bind
        fun _ _ fs fs' hsame => .pure (.object hsame)
    | _ => contradiction
  | _ => contradiction

/-- A record that is `subject` but for its `fields`. -/
theorem valueSim_update {subject : Analyzed} (hsubject : ValueSim P V n subject) :
    ValueSim P V n (.update a subject fields) := by
  intro W σ σ' ρ ρ' e e' hagree howns hleft hright
  cases hleft with
  | update hv hfs =>
    cases hright with
    | update hv' hfs' =>
      have hparts : ∀ u ∈ fields.map Prod.snd, ValueSim P V n u ∧ Owns V u :=
        fun u hu => ⟨h u hu, howns.child (List.mem_cons_of_mem _ hu)⟩
      have hspread := hsubject hagree (howns.child (List.mem_cons_self ..)) hv hv'
      simp only [eval, evalFields]
      refine Sim.bind (hspread.bind fun W₁ hle v v' hsame => ?_)
        fun _ _ fs fs' hsame => .pure (.object hsame)
      exact sim_evalFields (hagree.mono hle) hparts hfs hfs'
        (SameFields.nil.setFields hsame.ownFields)
    | _ => contradiction
  | _ => contradiction

end

/-! ### Operators -/

section

variable {a : Analysis} {t : Analyzed} (h : ValueSim P V n t)

include h

/-- What `accessor` reads from a value. -/
theorem valueSim_access {accessor : Accessor} : ValueSim P V n (.access a t accessor) := by
  intro W σ σ' ρ ρ' e e' hagree howns hleft hright
  cases hleft with
  | access hv =>
    cases hright with
    | access hv' =>
      exact sim_accessExpr (h hagree (howns.child (List.mem_singleton.2 rfl)) hv hv') accessor
    | _ => contradiction
  | _ => contradiction

/-- Whether a value passes `guard`. -/
theorem valueSim_test {guard : Guard} : ValueSim P V n (.test a t guard) := by
  intro W σ σ' ρ ρ' e e' hagree howns hleft hright
  cases hleft with
  | test hv =>
    cases hright with
    | test hv' =>
      exact sim_testExpr (h hagree (howns.child (List.mem_singleton.2 rfl)) hv hv') guard
    | _ => contradiction
  | _ => contradiction

/-- `unary` has the operand `t`. -/
theorem valueSim_unary {op : UnaryOp} : ValueSim P V n (.unary a op t) := by
  intro W σ σ' ρ ρ' e e' hagree howns hleft hright
  cases hleft with
  | unary hv =>
    cases hright with
    | unary hv' => exact sim_unary (h hagree (howns.child (List.mem_singleton.2 rfl)) hv hv') op
    | _ => contradiction
  | _ => contradiction

/-- `binary` has the operands `t` and `t'`. -/
theorem valueSim_binary {op : BinaryOp} {t' : Analyzed} (h' : ValueSim P V n t') :
    ValueSim P V n (.binary a op t t') := by
  intro W σ σ' ρ ρ' e e' hagree howns hleft hright
  cases hleft with
  | binary hv hw =>
    cases hright with
    | binary hv' hw' =>
      refine sim_binary (h hagree (howns.child (List.mem_cons_self ..)) hv hv') op fun W₁ hle => ?_
      exact h' (hagree.mono hle)
        (howns.child (List.mem_cons_of_mem _ (List.mem_singleton.2 rfl))) hw hw'
    | _ => contradiction
  | _ => contradiction

end

/-! ### Applications and functions -/

section

variable {a : Analysis} {head : Analyzed} {args : List Analyzed} (hfit : V.Fit P)
  (ih : ∀ m < n, ∀ u, BlockSim P V m u) (hhead : ValueSim P V n head)
  (hargs : ∀ u ∈ args, ValueSim P V n u)

include hfit ih hhead hargs

/-- `app` to `args` one by one. The functions run with smaller engines. -/
theorem valueSim_app : ValueSim P V n (.app a .curried head args) := by
  intro W σ σ' ρ ρ' e e' hagree howns hleft hright
  cases hleft with
  | apply hf hes =>
    cases hright with
    | apply hf' hes' =>
      exact sim_callEach hfit ih hagree
        (hhead hagree (howns.child (List.mem_cons_self ..)) hf hf')
        (fun u hu => ⟨hargs u hu, howns.child (List.mem_cons_of_mem _ hu)⟩) hes hes'
    | _ => contradiction
  | _ => contradiction

/-- `app` to all `args` at once. -/
theorem valueSim_appAll : ValueSim P V n (.app a .uncurried head args) := by
  intro W σ σ' ρ ρ' e e' hagree howns hleft hright
  cases hleft with
  | applyAll hf hes =>
    cases hright with
    | applyAll hf' hes' =>
      exact sim_callAll hfit ih hagree
        (hhead hagree (howns.child (List.mem_cons_self ..)) hf hf')
        (fun u hu => ⟨hargs u hu, howns.child (List.mem_cons_of_mem _ hu)⟩) hes hes'
    | _ => contradiction
  | _ => contradiction

end

/-- A function of `params`, whatever `calling` says. Its `body` runs only when it is called. -/
theorem valueSim_abs {a : Analysis} {calling : Calling} {params : List Binder} {body : Analyzed} :
    ValueSim P V n (.abs a calling params body) := by
  intro W σ σ' ρ ρ' e e' hagree howns hleft hright
  have hbody : Owns V body := howns.child (List.mem_singleton.2 rfl)
  cases hleft with
  | curried hlen hnodup h =>
    cases hright with
    | curried hlen' hnodup' h' =>
      simp only [eval_curried]
      exact .pure (same_curriedFn (t := .abs a .curried params body) hagree hbody hlen hnodup hlen'
        hnodup' h h')
    | _ => contradiction
  | arrow hlen hnodup h =>
    cases hright with
    | arrow hlen' hnodup' h' =>
      simp only [eval]
      exact .pure (.function (.arrow (.inl rfl) hagree hbody hlen hnodup hlen' hnodup' h h'))
    | _ => contradiction
  | effectArrow hlen hnodup h =>
    cases hright with
    | effectArrow hlen' hnodup' h' =>
      simp only [eval]
      exact .pure (.function (.arrow (.inr rfl) hagree hbody hlen hnodup hlen' hnodup' h h'))
    | _ => contradiction
  | _ => contradiction

/-! ### Blocks, effects and branches -/

variable {t : Analyzed}

/-- If `t` is no expression, its value is a block that is called where it stands. -/
theorem valueSim_block (hfit : V.Fit P) (ih : ∀ m < n, ∀ u, BlockSim P V m u)
    (hsimple : isSimple t = false) : ValueSim P V n t := by
  intro W σ σ' ρ ρ' e e' hagree howns hleft hright
  cases hleft with
  | block _ h =>
    cases hright with
    | block _ h' => exact sim_immediate hfit ih (.inl rfl) hagree howns h h'
    | conditional hsimple' =>
      rw [hsimple] at hsimple'
      cases hsimple'
    | effect heffect => cases t <;> contradiction
    | _ => contradiction
  | conditional hsimple' =>
    rw [hsimple] at hsimple'
    cases hsimple'
  | effect heffect => cases t <;> contradiction
  | _ => contradiction

/-- If `t` is an effect, its value is a function that runs it. -/
theorem valueSim_effect (heffect : t.isEffect = true) : ValueSim P V n t := by
  intro W σ σ' ρ ρ' e e' hagree howns hleft hright
  cases hleft with
  | effect _ h =>
    cases hright with
    | effect _ h' =>
      simp only [eval]
      exact .pure (same_function (.inr rfl) hagree howns h h')
    | block hsimple => cases t <;> contradiction
    | _ => contradiction
  | block hsimple => cases t <;> contradiction
  | _ => contradiction

/-- A branch of `arms` and `default` is a conditional expression if all of them are expressions. -/
theorem valueSim_branch {a : Analysis} {arms : List (Analyzed × Analyzed)} {default : Analyzed}
    (hfit : V.Fit P) (ih : ∀ m < n, ∀ u, BlockSim P V m u)
    (hparts : ∀ u ∈ (Term.branch a arms default).children, ValueSim P V n u) :
    ValueSim P V n (.branch a arms default) := by
  intro W σ σ' ρ ρ' e e' hagree howns hleft hright
  by_cases hsimple : isSimple (.branch a arms default) = false
  · exact valueSim_block hfit ih hsimple hagree howns hleft hright
  cases hleft with
  | conditional _ h =>
    cases hright with
    | conditional _ h' =>
      exact sim_conditionals hagree (fun u hu => ⟨hparts u hu, howns.child hu⟩) h h'
    | block hblock => exact absurd hblock hsimple
    | effect heffect => cases heffect
  | block hblock => exact absurd hblock hsimple
  | effect heffect => cases heffect

/-! ### All terms -/

/-- The values of `t` are simulated if those of its parts are, and blocks by smaller engines. -/
theorem value_sim (hfit : V.Fit P) (ih : ∀ m < n, ∀ u, BlockSim P V m u)
    (hparts : ∀ u ∈ t.children, ValueSim P V n u) : ValueSim P V n t := by
  cases t with
  | global => exact valueSim_global
  | bound => exact valueSim_bound
  | lit => exact valueSim_lit
  | constructor => exact valueSim_constructor
  | undefined => exact valueSim_undefined
  | array => exact valueSim_array hparts
  | record => exact valueSim_record hparts
  | construct => exact valueSim_construct hparts
  | update a subject fields =>
    exact valueSim_update (fun u hu => hparts u (List.mem_cons_of_mem _ hu))
      (hparts subject (List.mem_cons_self ..))
  | access a subject => exact valueSim_access (hparts subject (List.mem_singleton.2 rfl))
  | test a subject => exact valueSim_test (hparts subject (List.mem_singleton.2 rfl))
  | unary a op operand => exact valueSim_unary (hparts operand (List.mem_singleton.2 rfl))
  | binary a op left right =>
    exact valueSim_binary (hparts left (List.mem_cons_self ..))
      (hparts right (List.mem_cons_of_mem _ (List.mem_singleton.2 rfl)))
  | app a calling head args =>
    cases calling with
    | curried =>
      exact valueSim_app hfit ih (hparts head (List.mem_cons_self ..))
        fun u hu => hparts u (List.mem_cons_of_mem _ hu)
    | uncurried =>
      exact valueSim_appAll hfit ih (hparts head (List.mem_cons_self ..))
        fun u hu => hparts u (List.mem_cons_of_mem _ hu)
    | effectful => exact valueSim_effect rfl
  | abs => exact valueSim_abs
  | letIn | letRec | fail => exact valueSim_block hfit ih rfl
  | bindEffect | pureEffect | deferEffect => exact valueSim_effect rfl
  | branch => exact valueSim_branch hfit ih hparts

/-- The effects of `t` are simulated if its values and those of its parts are, and blocks by smaller
engines. -/
theorem run_sim (hfit : V.Fit P) (ih : ∀ m < n, ∀ u, BlockSim P V m u) (hvalue : ValueSim P V n t)
    (hparts : ∀ u ∈ t.children, ValueSim P V n u) : RunSim P V n t := by
  intro W σ σ' ρ ρ' e e' hagree howns hleft hright
  cases hleft with
  | value heffect h =>
    cases hright with
    | value _ h' =>
      have hnone : ∀ u ∈ ([] : List Analyzed), ValueSim P V n u ∧ Owns V u := by nofun
      exact sim_callAll hfit ih hagree (hvalue hagree howns h h') hnone .nil .nil
    | _ => contradiction
  | apply hhead hargs =>
    cases hright with
    | apply hhead' hargs' =>
      exact sim_callAll hfit ih hagree (hparts _ (List.mem_cons_self ..) hagree
        (howns.child (List.mem_cons_self ..)) hhead hhead')
        (fun u hu => ⟨hparts u (List.mem_cons_of_mem _ hu),
          howns.child (List.mem_cons_of_mem _ hu)⟩)
        hargs hargs'
    | _ => contradiction
  | pure h =>
    cases hright with
    | pure h' =>
      exact hparts _ (List.mem_singleton.2 rfl) hagree (howns.child (List.mem_singleton.2 rfl)) h h'
    | _ => contradiction
  | bind h =>
    cases hright with
    | bind h' => exact sim_immediate hfit ih (.inr rfl) hagree howns h h'
    | _ => contradiction
  | defer h =>
    cases hright with
    | defer h' =>
      exact sim_immediate hfit ih (.inr rfl) hagree (howns.child (List.mem_singleton.2 rfl)) h h'
    | _ => contradiction

end

end TailLoop.Emit
