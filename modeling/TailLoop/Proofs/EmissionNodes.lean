import TailLoop.Proofs.EmissionSteps

/-!
# Lowering nodes and the scripts they become

For each kind of node, the ways to lower it write scripts that stand for it, if those of its
children do.

* `standsFor_array`, `standsFor_record`, `standsFor_binary`: nodes that are written as expressions.
* `standsFor_app`: calls, which become jumps in loops.
* `standsFor_let`, `standsFor_bindEffect`, `standsFor_branch`: nodes that are written as statements.
-/

namespace TailLoop.Lower

open Script Lowering Emit

variable {E : Setting} {scope : List Binder} {a : Analysis}
  {mode : Mode}

/-! ## Leaves -/

/-- A variable is named after its binder `b`. -/
theorem standsFor_bound {b : Binder} (hb : b ∈ scope) :
    (code E.context (.bound a b)).StandsFor E scope (.bound a b) := by
  rw [code]
  refine standsFor_ofValue rfl rfl (fun _ => rfl) fun p hp => ⟨.refl scope p, ?_⟩
  intro purpose Γ σ hfits
  obtain ⟨x, k, hx, hk, hr⟩ := hfits.adequate.bound b hb
  have hname : p.env.lookup b = x := by rw [Env.lookup, hx, Option.getD_some]
  have hvalue : Value E Γ σ (.bound a b) (.ident x) := .bound hk hr
  rw [← hname] at hvalue
  exact hvalue

/-- A top-level name `q` refers to the module, where `globalHead` is declared. -/
theorem standsFor_global {q : Qualified} {k : Nat}
    (hreserved : globalHead E.context q ∈ E.context.reserved)
      (hform : isUnnamed (globalHead E.context q) = false)
    (hk : resolve (globalHead E.context q) E.names = some k) :
    (code E.context (.global a q)).StandsFor E scope (.global a q) := by
  rw [code]
  refine standsFor_ofValue rfl rfl (fun _ => rfl) fun p hp => ⟨.refl scope p, ?_⟩
  intro purpose Γ σ hfits
  exact .global hk ((hfits.adequate.global _ hreserved hform).trans hk)

/-- A failure is thrown with its `message`, where `Error` is not declared anew. -/
theorem standsFor_fail {message : String} :
    (code E.context (.fail a message)).StandsFor E scope (.fail a message) := by
  rw [code]
  refine standsFor_ofBlock rfl rfl (fun _ => rfl) fun mode p hp =>
    ⟨.refl scope p, .nil, List.forall_mem_nil _, ?_⟩
  exact fun purpose Γ σ hfits _ => .fail hfits.adequate.error

/-- A literal is written as it is. -/
theorem standsFor_lit {value : Literal} :
    (code E.context (.lit a value)).StandsFor E scope (.lit a value) := by
  rw [code]
  exact standsFor_ofValue rfl rfl (fun _ => rfl) (.pure fun _ _ _ => .lit)

/-- The function of a constructor has fresh names for its `fields`. -/
theorem standsFor_constructor {tag : String} {fields : List String} :
    (code E.context (.constructor a tag fields)).StandsFor E scope (.constructor a tag fields) := by
  rw [code]
  refine standsFor_ofValue rfl rfl (fun _ => rfl) fun p _ => ?_
  obtain ⟨hlen, hkept, hnodup, -⟩ := freshNames_spec scope p fields
  exact ⟨hkept, fun _ Γ σ _ => .constructor hlen hnodup⟩

/-- `undefined` is returned without a value. -/
theorem standsFor_undefined :
    (code E.context (.undefined a)).StandsFor E scope (.undefined a) := by
  rw [code]
  refine standsFor_ofReturn rfl rfl (.pure fun _ _ _ => .undefined) (.pure fun _ _ _ => ?_)
    fun _ => rfl
  exact ⟨.undefined, rfl, .undefined⟩

/-! ## Lists and fields -/

/-- The `items` of an array, one after the other. -/
theorem standsFor_array {items : List Analyzed}
    (h : ∀ t ∈ items, (code E.context t).StandsFor E scope t) :
    (code E.context (.array a items)).StandsFor E scope (.array a items) := by
  rw [code, valueCodes_eq_map]
  refine standsFor_ofValue rfl rfl (fun _ => rfl) ?_
  exact (yields_all fun t ht => (h t ht).value).map fun _ _ _ es hes => .array hes

section

variable {fields : List (String × Analyzed)}
  (h : ∀ t ∈ fields.map Prod.snd, (code E.context t).StandsFor E scope t)

include h

/-- The `fields` of a record. -/
theorem standsFor_record :
    (code E.context (.record a fields)).StandsFor E scope (.record a fields) := by
  rw [code, fieldCodes_eq_map]
  refine standsFor_ofObject rfl rfl (fun _ => rfl) ?_
  exact (yields_fields fun t ht => (h t ht).value).map fun _ _ _ fs hfs => .record hfs

/-- The `fields` of a constructor that is applied, after its `tag`. -/
theorem standsFor_construct {type : Qualified} {tag : String} :
    (code E.context (.construct a type tag fields)).StandsFor E scope
      (.construct a type tag fields) := by
  rw [code, fieldCodes_eq_map]
  refine standsFor_ofObject rfl rfl (fun _ => rfl) ?_
  exact (yields_fields fun t ht => (h t ht).value).map fun _ _ _ fs hfs => .construct hfs

/-- A record that is `subject` but for its `fields`. -/
theorem standsFor_update {subject : Analyzed}
    (hsubject : (code E.context subject).StandsFor E scope subject) :
    (code E.context (.update a subject fields)).StandsFor E scope (.update a subject fields) := by
  rw [code, fieldCodes_eq_map]
  refine standsFor_ofObject rfl rfl (fun _ => rfl) ?_
  refine hsubject.value.bind fun e => ?_
  exact (yields_fields fun t ht => (h t ht).value).map fun _ _ _ fs hfs he => .update he hfs

end

/-! ## Operators -/

section

variable {t : Analyzed} (h : (code E.context t).StandsFor E scope t)

include h

/-- What `accessor` reads from a value. -/
theorem standsFor_access {accessor : Accessor} :
    (code E.context (.access a t accessor)).StandsFor E scope (.access a t accessor) := by
  rw [code]
  refine standsFor_ofValue rfl rfl (fun _ => rfl) ?_
  exact h.value.map fun _ _ _ e he => .access he

/-- Whether a value passes `guard`. -/
theorem standsFor_test {guard : Guard} :
    (code E.context (.test a t guard)).StandsFor E scope (.test a t guard) := by
  rw [code]
  refine standsFor_ofValue rfl rfl (fun _ => rfl) ?_
  exact h.value.map fun _ _ _ e he => .test he

/-- Operators of one operand. -/
theorem standsFor_unary {op : UnaryOp} :
    (code E.context (.unary a op t)).StandsFor E scope (.unary a op t) := by
  rw [code]
  refine standsFor_ofValue rfl rfl (fun _ => rfl) ?_
  exact h.value.map fun _ _ _ e he => .unary he

/-- Operators of two operands. -/
theorem standsFor_binary {op : BinaryOp} {t' : Analyzed}
    (h' : (code E.context t').StandsFor E scope t') :
    (code E.context (.binary a op t t')).StandsFor E scope (.binary a op t t') := by
  rw [code]
  refine standsFor_ofValue rfl rfl (fun _ => rfl) ?_
  refine h.value.bind fun e => h'.value.bind fun e' => ?_
  exact .pure fun _ _ _ he' he => .binary he he'

end

/-! ## Calls and jumps -/

/-- The loop that `Env.findIn` finds lies inside as many loops as `j.exited` says. -/
theorem le_exited_findIn {r : Ref} {n : Nat} {scopes : List LoopScope} {j : Jump}
    (h : Env.findIn r n scopes = some j) : n ≤ j.exited := by
  induction scopes generalizing n with
  | nil => cases h
  | cons s rest ih =>
    rw [Env.findIn] at h
    split at h
    · cases h
      exact Nat.le_refl _
    · exact Nat.le_of_succ_le (ih h)

/-- A search by `Env.findIn` that leaves no loop finds a member of the innermost one. -/
theorem findIn_exited {r : Ref} {n : Nat} {scopes : List LoopScope} {j : Jump}
    (h : Env.findIn r n scopes = some j) (hexited : j.exited = n) :
    ∃ S, scopes = j.scope :: S ∧ j.scope.members[j.member]? = some (r, j.arity) := by
  cases scopes with
  | nil => cases h
  | cons s rest =>
    rw [Env.findIn] at h
    split at h
    · rename_i i hi
      cases h
      obtain ⟨hlt, hr, -⟩ := List.findIdx?_eq_some_iff_getElem.1 hi
      refine ⟨rest, rfl, ?_⟩
      have hget : s.members[i]? = some s.members[i] := List.getElem?_eq_getElem hlt
      rw [hget, Option.map_some, Option.getD_some]
      exact congrArg some (Prod.ext (of_decide_eq_true hr) rfl)
    · have := le_exited_findIn h
      omega

/-- `jumpStmts` declares nothing. -/
theorem declared_jumpStmts (j : Jump) (values : List Script.Expr) :
    declared (jumpStmts j values) = [] := by
  rw [declared, List.filterMap_eq_nil_iff]
  intro s hs
  simp only [jumpStmts, List.mem_append, Option.mem_toList, Option.map_eq_some_iff, List.mem_map,
    List.mem_singleton] at hs
  rcases hs with (⟨x, -, rfl⟩ | ⟨q, -, rfl⟩) | rfl <;> rfl

/-- What `jump?` makes of a call of `r` is decided by the loops in the state `p`. -/
theorem jump?_run (r : Ref) (args : List (Lowering Script.Expr)) (p : Progress) :
    jump? (some r) args p = (match p.env.findJump? r with
      | none => pure none
      | some j =>
        if 0 < j.exited then do
          report .debug ("call to " ++ r.text ++ " leaves " ++ Decimal.digitsText j.exited
            ++ " nested loop(s), emitting a call")
          return none
        else if j.arity ≠ args.length then do
          clash ⟨r, args.length, j.arity⟩
          return none
        else do
          let values ← all args
          return some (jumpStmts j values) : Lowering (Option (List Stmt))) p := rfl

/-- If `jump?` makes a jump of a call of `head`, it is one to a member of the innermost loop, with
all of `args`. -/
theorem yields_jump? (a : Analysis) (mode : Mode) {head : Analyzed} {args : List Analyzed}
    (hlocal : E.closed → head.isLocalIn E.context = true)
    (hargs : ∀ t ∈ args, (code E.context t).StandsFor E scope t) :
    Yields E scope mode
      (jump? (head.refIn? (some E.context.name)) (args.map fun t => (code E.context t).value))
      fun purpose Γ σ stmts? => ∀ stmts frame, stmts? = some stmts → purpose = .loop frame →
        Block E purpose Γ σ (.app a .curried head args) stmts := by
  intro p hp
  cases href : head.refIn? (some E.context.name) with
  | none => exact ⟨.refl scope p, by nofun⟩
  | some r =>
  rw [jump?_run]
  -- A jump is written only to a member of a loop that has not been left since, and only with as
  -- many arguments as the member takes; in any other case the calls are written.
  cases hfind : p.env.findJump? r with
  | none => exact ⟨.refl scope p, by nofun⟩
  | some j =>
    simp only
    split
    · exact ⟨⟨fun _ h => h, fun _ _ => rfl, rfl⟩, by nofun⟩
    · rename_i hexited
      split
      · exact ⟨⟨fun _ h => h, fun _ _ => rfl, rfl⟩, by nofun⟩
      · rename_i harity
        obtain ⟨S, hscopes, hmember⟩ := findIn_exited hfind (by omega)
        have harity : j.arity = args.length := by simpa using harity
        have hall : Yields E scope mode (all (args.map fun t => (code E.context t).value))
            fun _ Γ σ => Values E Γ σ args := yields_all fun t ht => (hargs t ht).value
        obtain ⟨hkept, hvalues⟩ := hall p hp
        refine ⟨hkept, ?_⟩
        intro purpose Γ σ hfits stmts frame hstmts hpurpose
        subst hpurpose
        have hes := hvalues _ Γ σ hfits
        obtain rfl : jumpStmts j _ = stmts := Option.some.inj hstmts
        obtain ⟨-, hserves⟩ := hfits
        cases hserves with
        | @loop s S' _ hscopes' hmembers hfunctions hselector hslots =>
        -- The loop that the jump finds is the innermost one, which the purpose of the block is to
        -- run.
        obtain ⟨rfl, rfl⟩ : j.scope = s ∧ S = S' := by simpa [hscopes] using hscopes'
        have hfunction := congrArg (·[j.member]?) hfunctions
        simp only [List.getElem?_map, hmember, Option.map_some] at hfunction
        obtain ⟨k, hk, hdecl⟩ := Option.map_eq_some_iff.1 hfunction.symm
        refine .jump (i := j.member) href ?_ hlocal hk hdecl.symm hselector
          hslots ?_ hes
        · rw [hmembers, hmember, harity]
        · rw [← harity]
          exact hp.slots j.scope (hscopes ▸ List.mem_cons_self ..) _ (List.mem_of_getElem? hmember)

/-- What `jump?` makes of a call declares nothing. -/
theorem declared_of_jump? {r? : Option Ref} {args : List (Lowering Script.Expr)} {p : Progress}
    {stmts : List Stmt} (h : (jump? r? args p).1 = some stmts) : declared stmts = [] := by
  cases r? with
  | none => cases h
  | some r =>
    rw [jump?_run] at h
    cases hfind : p.env.findJump? r with
    | none =>
      rw [hfind] at h
      cases h
    | some j =>
      simp only [hfind] at h
      split at h
      · cases h
      · split at h
        · cases h
        · cases h
          exact declared_jumpStmts ..

/-- In a loop, `appCode` writes what `jump?` makes of the call, if it makes something of it. -/
theorem appCode_loop {r? : Option Ref} {args : List (Lowering Script.Expr)} {mode : Mode}
    {p p' : Progress} {stmts? : Option (List Stmt)} (callee : Lowering Script.Expr)
    (hmode : mode.loop = true) (hjump : jump? r? args p = (stmts?, p')) :
    (appCode r? callee args).block mode p = stmts?.elim
      ((do return [← (Code.ofValue (callEach callee args)).returned] : Lowering (List Stmt)) p')
      fun stmts => (stmts, p') := by
  have hrun (k : Option (List Stmt) → Lowering (List Stmt)) :
      (jump? r? args >>= k) p = k stmts? p' := by
    rw [show (jump? r? args >>= k) p = k (jump? r? args p).1 (jump? r? args p).2 from rfl, hjump]
  show (if mode.loop = true then _ else _ : Lowering (List Stmt)) p = _
  rw [if_pos hmode, hrun]
  cases stmts? <;> rfl

/-- Outside of loops, `appCode` writes a value. -/
theorem appCode_plain (r? : Option Ref) (callee : Lowering Script.Expr)
    (args : List (Lowering Script.Expr)) {mode : Mode} (hmode : ¬mode.loop = true) :
    (appCode r? callee args).block mode = (Code.ofValue (callEach callee args)).block mode :=
  if_neg hmode

/-- An application of `head` to `args` one by one, which in a loop can be a jump. -/
theorem standsFor_app {head : Analyzed} {args : List Analyzed}
    (hlocal : E.closed → head.isLocalIn E.context = true)
    (hhead : (code E.context head).StandsFor E scope head)
    (hargs : ∀ t ∈ args, (code E.context t).StandsFor E scope t) :
    (code E.context (.app a .curried head args)).StandsFor E scope (.app a .curried head args) := by
  have hvalue : Yields E scope .plain
      (callEach (code E.context head).value (args.map fun t => (code E.context t).value))
      fun _ Γ σ => Value E Γ σ (.app a .curried head args) := by
    have hcall := yields_callEach hhead.value fun t ht => (hargs t ht).value
    refine fun p hp => ⟨(hcall p hp).1, fun q Γ σ hfits => ?_⟩
    obtain ⟨f, es, hf, hes, heq⟩ := (hcall p hp).2 q Γ σ hfits
    rw [heq]
    exact .apply hf hes
  -- outside of a loop, or if no member is called, the call is a value like any other
  have hplain := standsFor_ofValue rfl rfl (fun _ => rfl) hvalue
  have hcode : code E.context (.app a .curried head args) =
      appCode (head.refIn? (some E.context.name)) (code E.context head).value
        (args.map fun t => (code E.context t).value) := by
    rw [code, valueCodes_eq_map]
    rfl
  rw [hcode]
  refine { hplain with block := fun mode => ?_ }
  by_cases hmode : mode.loop = true
  · intro p hp
    have hjump := yields_jump? a mode hlocal hargs p hp
    rcases hr : jump? (head.refIn? (some E.context.name))
      (args.map fun t => (code E.context t).value) p with ⟨stmts?, p'⟩
    rw [hr] at hjump
    rw [appCode_loop _ hmode hr]
    -- with a jump the block is that jump; without one the call is returned
    cases stmts? with
    | some stmts =>
      have hnone : declared stmts = [] := declared_of_jump? (by rw [hr])
      refine ⟨hjump.1, hnone ▸ .nil, hnone ▸ List.forall_mem_nil _, fun purpose Γ σ hfits _ => ?_⟩
      have hout := hjump.2 purpose Γ σ hfits stmts
      cases hfits.serves with
      | loop => exact hout _ rfl rfl
      | _ => cases hmode
    | none =>
      have hreturned := hplain.returned p' (hp.kept hjump.1)
      refine ⟨hjump.1.trans hreturned.1, .nil, List.forall_mem_nil _, fun purpose Γ σ hfits _ => ?_⟩
      obtain ⟨e, hs, he⟩ := hreturned.2 .plain Γ σ (hfits.kept hjump.1).plain
      have hblock : Block E purpose Γ σ (.app a .curried head args)
          [returnStmt (.app a .curried head args) e] := by
        cases hfits.serves with
        | loop => exact .loopReturned rfl he
        | _ => cases hmode
      rw [← hs] at hblock
      exact hblock
  · rw [appCode_plain _ _ _ hmode]
    exact hplain.block mode

/-- An application of `head` to all `args` at once. -/
theorem standsFor_appAll {head : Analyzed} {args : List Analyzed}
    (hhead : (code E.context head).StandsFor E scope head)
    (hargs : ∀ t ∈ args, (code E.context t).StandsFor E scope t) :
    (code E.context (.app a .uncurried head args)).StandsFor E scope
      (.app a .uncurried head args) := by
  rw [code, valueCodes_eq_map]
  refine standsFor_ofValue rfl rfl (fun _ => rfl) ?_
  have hcall := yields_callAll hhead.value fun t ht => (hargs t ht).value
  refine fun p hp => ⟨(hcall p hp).1, fun q Γ σ hfits => ?_⟩
  obtain ⟨f, es, hf, hes, heq⟩ := (hcall p hp).2 q Γ σ hfits
  rw [heq]
  exact .applyAll hf hes

/-- An application of `head` to `args` that is an effect: a function that calls when it is run. -/
theorem standsFor_appEffect {head : Analyzed} {args : List Analyzed}
    (hhead : (code E.context head).StandsFor E scope head)
    (hargs : ∀ t ∈ args, (code E.context t).StandsFor E scope t) :
    (code E.context (.app a .effectful head args)).StandsFor E scope
      (.app a .effectful head args) := by
  have hcall := yields_callAll hhead.value fun t ht => (hargs t ht).value
  have hblock (mode : Mode) (hmode : mode.effect = true) : YieldsBlock E scope mode
      (do return [.ret (← callAll (code E.context head).value
        (args.map fun t => (code E.context t).value))])
      fun purpose Γ σ => Block E purpose Γ σ (.app a .effectful head args) := by
    refine Yields.block (.of_effect hmode (hcall.map ?_)) fun _ => rfl
    rintro - Γ σ e ⟨f, es, hf, hes, rfl⟩
    exact .applyReturned hf hes
  rw [code, valueCodes_eq_map]
  refine standsFor_ofEffect rfl rfl (fun _ => rfl) (hblock .effectful rfl) ?_ hblock
  refine fun p hp => ⟨(hcall p hp).1, fun q Γ σ hfits => ?_⟩
  obtain ⟨f, es, hf, hes, heq⟩ := (hcall p hp).2 q Γ σ hfits
  rw [heq]
  exact .apply hf hes

/-! ## Functions -/

/-- A function that takes its `params` one by one. -/
theorem standsFor_curried {params : List Binder} {body : Analyzed}
    (hfresh : Fresh E.closed scope params)
    (hbody : (code E.context body).StandsFor E (params ++ scope) body) :
    (code E.context (.abs a .curried params body)).StandsFor E scope
      (.abs a .curried params body) := by
  have hvalue : Yields E scope .plain
      (do
        let names ← bindNames params
        return .curried names (← (code E.context body).block .plain))
      fun _ Γ σ => Value E Γ σ (.abs a .curried params body) :=
    yields_function hfresh (fun _ _ _ => .plain) (hbody.block .plain)
      fun Γ σ names block hlen hnodup hblock => .curried hlen hnodup hblock
  have hplain := standsFor_ofValue rfl rfl (fun _ => rfl) hvalue
  rw [code, curriedCode]
  exact { hplain with }

/-- A function that takes its `params` at once. -/
theorem standsFor_arrow {params : List Binder} {body : Analyzed}
    (hfresh : Fresh E.closed scope params)
    (hbody : (code E.context body).StandsFor E (params ++ scope) body) :
    (code E.context (.abs a .uncurried params body)).StandsFor E scope
      (.abs a .uncurried params body) := by
  rw [code]
  refine standsFor_ofValue rfl rfl (fun _ => rfl) ?_
  exact yields_function hfresh (fun _ _ _ => .plain) (hbody.block .plain)
    fun Γ σ names block hlen hnodup hblock => .arrow hlen hnodup hblock

/-- A function whose `body` is an effect, which runs when the function is called. -/
theorem standsFor_effectArrow {params : List Binder} {body : Analyzed}
    (hfresh : Fresh E.closed scope params)
    (hbody : (code E.context body).StandsFor E (params ++ scope) body) :
    (code E.context (.abs a .effectful params body)).StandsFor E scope
      (.abs a .effectful params body) := by
  rw [code]
  refine standsFor_ofValue rfl rfl (fun _ => rfl) ?_
  exact yields_function hfresh (fun _ _ _ => .effect) (hbody.block .effectful)
    fun Γ σ names block hlen hnodup hblock => .effectArrow hlen hnodup hblock

/-! ## Bindings and effects -/

/-- A binding of `b` to `value`, declared in front of the block of `body`. -/
theorem standsFor_let {b : Binder} {value body : Analyzed} (hfresh : Fresh E.closed scope [b])
    (hvalue : (code E.context value).StandsFor E scope value)
    (hbody : (code E.context body).StandsFor E ([b] ++ scope) body) :
    (code E.context (.letIn a b value body)).StandsFor E scope (.letIn a b value body) := by
  rw [code, letCode]
  refine standsFor_ofBlock rfl rfl (fun _ => rfl) fun mode p hp => ?_
  obtain ⟨hkept, hout⟩ := hvalue.value p hp
  have hnamed := hfresh.named (hp.kept hkept)
  have hrest := hbody.block mode _ hnamed.ready
  refine .cons hp hkept hfresh hnamed hrest rfl ?_
  exact fun purpose Γ σ k hfits hk hrest => .letIn (hout .plain Γ σ hfits.plain) hk hrest

/-- An effect whose result is bound to `b`, which has a name, runs in front of `body`. -/
theorem yieldsBlock_bindNamed {b : Binder} {effect body : Analyzed} (hname : b.name.isSome = true)
    (hmode : mode.effect = true) (hfresh : Fresh E.closed scope [b])
    (heffect : (code E.context effect).StandsFor E scope effect)
    (hbody : (code E.context body).StandsFor E ([b] ++ scope) body) :
    YieldsBlock E scope mode (do
      let x ← (code E.context effect).run
      let s ← bindStmt b x
      let rest ← (code E.context body).block mode
      return s :: rest) fun purpose Γ σ => Block E purpose Γ σ (.bindEffect a b effect body) := by
  obtain ⟨x, hx⟩ := Option.isSome_iff_exists.1 hname
  rw [show bindStmt b = fun e => (do return .const (← bindName b) e) by
    funext e; rw [bindStmt, hx]]
  intro p hp
  obtain ⟨hkept, hout⟩ := heffect.run p hp
  have hnamed := hfresh.named (hp.kept hkept)
  have hrest := hbody.block mode _ hnamed.ready
  refine .cons hp hkept hfresh hnamed hrest rfl fun purpose Γ σ k hfits hk hrest => ?_
  have hrun := hout .plain Γ σ hfits.plain
  cases hfits.serves with
  | effect => exact .bindNamed hname hrun hk hrest
  | _ => cases hmode

/-- An effect whose result is dropped, as `b` has no name, runs in front of `body`. -/
theorem yieldsBlock_bindUnnamed {b : Binder} {effect body : Analyzed} (hname : b.name = none)
    (hmode : mode.effect = true)
    (heffect : (code E.context effect).StandsFor E scope effect)
    (hbody : (code E.context body).StandsFor E scope body) :
    YieldsBlock E scope mode (do
      let x ← (code E.context effect).run
      let s ← bindStmt b x
      let rest ← (code E.context body).block mode
      return s :: rest) fun purpose Γ σ => Block E purpose Γ σ (.bindEffect a b effect body) := by
  rw [show bindStmt b = fun e => (pure (.expr e) : Lowering Stmt) by funext e; rw [bindStmt, hname]]
  intro p hp
  obtain ⟨hkept, hout⟩ := heffect.run p hp
  have hrest := hbody.block mode _ (hp.kept hkept)
  refine ⟨hkept.trans hrest.kept, hrest.nodup, fun x hx => (hrest.new x hx).of_kept hkept, ?_⟩
  intro purpose Γ σ hfits hmem
  have hrun := hout .plain Γ σ hfits.plain
  have hblock := hrest.out purpose Γ σ (hfits.kept hkept) hmem
  cases hfits.serves with
  | effect => exact .bindUnnamed hname hrun hblock
  | _ => cases hmode

/-- An effect that runs `effect` and goes on with `body`. -/
theorem standsFor_bindEffect {b : Binder} {effect body : Analyzed}
    (hfresh : Fresh E.closed scope (Term.resultBinders b))
    (heffect : (code E.context effect).StandsFor E scope effect)
    (hbody : (code E.context body).StandsFor E (Term.resultBinders b ++ scope) body) :
    (code E.context (.bindEffect a b effect body)).StandsFor E scope
      (.bindEffect a b effect body) := by
  have hblock (mode : Mode) (hmode : mode.effect = true) : YieldsBlock E scope mode (do
      let x ← (code E.context effect).run
      let s ← bindStmt b x
      let rest ← (code E.context body).block mode
      return s :: rest) fun purpose Γ σ =>
        Block E purpose Γ σ (.bindEffect a b effect body) := by
    cases hname : b.name with
    | none =>
      rw [Term.resultBinders, hname] at hbody
      exact yieldsBlock_bindUnnamed hname hmode heffect hbody
    | some x =>
      have hsome : b.name.isSome = true := by rw [hname]; rfl
      rw [Term.resultBinders, if_pos hsome] at hfresh hbody
      exact yieldsBlock_bindNamed hsome hmode hfresh heffect hbody
  rw [code, bindCode]
  refine standsFor_ofEffect rfl rfl (fun _ => rfl) (hblock .effectful rfl) ?_ hblock
  have hbody : Yields E scope .plain _ fun _ Γ σ =>
      Body E .effect [] Γ σ (.bindEffect a b effect body) :=
    (hblock .effectful rfl).body_as fun _ _ _ => .effect
  exact hbody.map fun _ Γ σ block hb => .bind hb

/-- An effect that gives `value`. -/
theorem standsFor_pure {value : Analyzed}
    (hvalue : (code E.context value).StandsFor E scope value) :
    (code E.context (.pureEffect a value)).StandsFor E scope (.pureEffect a value) := by
  have hblock (mode : Mode) (hmode : mode.effect = true) : YieldsBlock E scope mode
      (do return [← (code E.context value).returned])
      fun purpose Γ σ => Block E purpose Γ σ (.pureEffect a value) := by
    refine Yields.block (.of_effect hmode (hvalue.returned.map ?_)) fun p => ?_
    · rintro - Γ σ s ⟨e, rfl, he⟩
      exact .pure he
    · have hresult : declared [((code E.context value).returned p).1] = [] := by
        simp [declared, hvalue.declares p]
      exact hresult
  rw [code, pureCode]
  refine standsFor_ofEffect rfl rfl (fun _ => rfl) (hblock .effectful rfl) ?_ hblock
  exact fun p hp => ⟨(hvalue.value p hp).1, fun q Γ σ h => .pure ((hvalue.value p hp).2 q Γ σ h)⟩

/-- An effect that is built when it runs. -/
theorem standsFor_defer {effect : Analyzed}
    (heffect : (code E.context effect).StandsFor E scope effect) :
    (code E.context (.deferEffect a effect)).StandsFor E scope (.deferEffect a effect) := by
  have hblock (mode : Mode) (hmode : mode.effect = true) : YieldsBlock E scope mode
      ((code E.context effect).block mode)
      fun purpose Γ σ => Block E purpose Γ σ (.deferEffect a effect) := by
    intro p hp
    have h := heffect.block mode p hp
    refine ⟨h.kept, h.nodup, h.new, fun purpose Γ σ hfits hmem => ?_⟩
    have hout := h.out purpose Γ σ hfits hmem
    cases hfits.serves with
    | effect => exact .defer hout
    | _ => cases hmode
  rw [code, deferCode]
  refine standsFor_ofEffect rfl rfl (fun _ => rfl) (hblock .effectful rfl) ?_ hblock
  have hbody : Yields E scope .plain _ fun _ Γ σ =>
      Body E .effect [] Γ σ effect :=
    (heffect.block .effectful).body_as fun _ _ _ => .effect
  exact hbody.map fun _ Γ σ block hb => .defer hb

/-! ## Branches -/

/-- `armBlocks` writes the `arms` of a branch with blocks of their own. -/
theorem yields_armBlocks (mode : Mode) {arms : List (Analyzed × Analyzed)}
    (h : ∀ arm ∈ arms, (code E.context arm.1).StandsFor E scope arm.1 ∧
      (code E.context arm.2).StandsFor E scope arm.2) :
    Yields E scope mode
      (armBlocks mode (arms.map fun arm => (code E.context arm.1, code E.context arm.2)))
      fun purpose Γ σ => Arms E purpose Γ σ arms := by
  induction arms with
  | nil => exact .pure fun _ _ _ => .nil
  | cons arm rest ih =>
    obtain ⟨hcond, hbody⟩ := h arm (List.mem_cons_self ..)
    refine hcond.value.of_plain.bind fun x => (hbody.block mode).body.bind fun block => ?_
    refine (ih fun arm' harm' => h arm' (List.mem_cons_of_mem _ harm')).bind fun blocks => ?_
    exact .pure fun _ Γ σ hblocks hblock hx => .cons hx hblock hblocks

/-- `conditionalExpr` writes the `arms` of a branch as a conditional expression. -/
theorem yields_conditionalExpr {arms : List (Analyzed × Analyzed)} {default : Analyzed}
    (h : ∀ arm ∈ arms, (code E.context arm.1).StandsFor E scope arm.1 ∧
      (code E.context arm.2).StandsFor E scope arm.2)
    (hdefault : (code E.context default).StandsFor E scope default) :
    Yields E scope .plain
      (conditionalExpr (arms.map fun arm => (code E.context arm.1, code E.context arm.2))
        (code E.context default))
      fun _ Γ σ => Conditional E Γ σ arms default := by
  induction arms with
  | nil =>
    exact fun p hp => ⟨(hdefault.value p hp).1,
      fun q Γ σ hfits => .default ((hdefault.value p hp).2 q Γ σ hfits)⟩
  | cons arm rest ih =>
    obtain ⟨hcond, hbody⟩ := h arm (List.mem_cons_self ..)
    refine hcond.value.bind fun x => hbody.value.bind fun y => ?_
    refine (ih fun arm' harm' => h arm' (List.mem_cons_of_mem _ harm')).bind fun z => ?_
    exact .pure fun _ Γ σ hz hy hx => .arm hx hy hz

/-- A branch of `arms` and `default`: a chain of blocks, or an expression if all of them are
expressions. -/
theorem standsFor_branch {arms : List (Analyzed × Analyzed)} {default : Analyzed}
    (h : ∀ arm ∈ arms, (code E.context arm.1).StandsFor E scope arm.1 ∧
      (code E.context arm.2).StandsFor E scope arm.2)
    (hdefault : (code E.context default).StandsFor E scope default) :
    (code E.context (.branch a arms default)).StandsFor E scope (.branch a arms default) := by
  have hblock (mode : Mode) : YieldsBlock E scope mode (do
      let blocks ← armBlocks mode (arms.map fun arm => (code E.context arm.1, code E.context arm.2))
      let rest ← (code E.context default).block mode
      return (if blocks.isEmpty then [] else [.chain blocks]) ++ rest)
      fun purpose Γ σ => Block E purpose Γ σ (.branch a arms default) := by
    intro p hp
    obtain ⟨hkept, hout⟩ := yields_armBlocks mode h p hp
    have hrest := hdefault.block mode _ (hp.kept hkept)
    -- the chain declares nothing, so the names of the block are those of the default
    have hdeclared (blocks : List (Script.Expr × List Stmt)) (rest : List Stmt) :
        declared ((if blocks.isEmpty then [] else [.chain blocks]) ++ rest) = declared rest := by
      split <;> rfl
    refine ⟨hkept.trans hrest.kept, ?_, fun x hx => ?_, fun purpose Γ σ hfits hmem => ?_⟩
    · exact (hdeclared _ _).symm ▸ hrest.nodup
    · exact (hrest.new x (hdeclared _ _ ▸ hx)).of_kept hkept
    · refine .branch (hout purpose Γ σ hfits) (hrest.out purpose Γ σ (hfits.kept hkept) ?_)
      exact fun x hx => hmem x ((hdeclared _ _).symm ▸ hx)
  rw [code, branchCode, armCodes_eq_map]
  have hroot : isSimple (.branch a arms default) = (armsSimple arms && isSimple default) := by
    rw [isSimple]
  -- a simple branch has a value too, in which nothing is declared
  cases hsimple : armsSimple arms && isSimple default with
  | true =>
    rw [hsimple] at hroot
    have hvalue : Yields E scope .plain
        (conditionalExpr (arms.map fun arm => (code E.context arm.1, code E.context arm.2))
          (code E.context default))
        fun _ Γ σ => Value E Γ σ (.branch a arms default) := by
      have hcond := yields_conditionalExpr h hdefault
      exact fun p hp => ⟨(hcond p hp).1,
        fun q Γ σ hfits => .conditional hroot ((hcond p hp).2 q Γ σ hfits)⟩
    exact {
      value := hvalue
      returned := hvalue.map fun _ _ _ e he => ⟨e, rfl, he⟩
      declares := fun _ => rfl
      run := hvalue.map fun _ _ _ _ he => .value rfl he
      block := hblock }
  | false => exact standsFor_ofBlock (hroot.trans hsimple) rfl (fun _ => rfl) hblock

end TailLoop.Lower
