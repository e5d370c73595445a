import TailLoop.Proofs.JumpTargets

/-!
# Jumps of lowered terms

Whatever the lowering writes jumps to the loop around it only. A jump is written in the body of a
loop, for a member of the innermost loop, and with as many values as the member has parameters; the
variables of the loop are fresh, so nothing else assigns them.

* `Term.loopArities`: the numbers of parameters of the members of all loops in a term.
* `Code.JumpsTo`: all ways to lower a term write these loops, and jumps to the loops around them.
* `jumps_module`: the jumps of every declaration in the script of a unit.
-/

namespace TailLoop.Term

/-- The arities of the members, if the node is a recursive group that is flagged as a loop. -/
def loopArities? : Analyzed → Option (List Nat)
  | letRec a _ bindings _ => if a.isLoop then some (bindings.map fun b => b.2.arity) else none
  | _ => none

/-- The arities of the members of every flagged group in `t`, outer groups first. -/
def loopArities (t : Analyzed) : List (List Nat) := t.subterms.filterMap loopArities?

/-- The loops of `t` are that of its root, if there is one, and those in its children. -/
theorem loopArities_eq (t : Analyzed) :
    t.loopArities = t.loopArities?.toList ++ t.children.flatMap loopArities := by
  rw [loopArities, subterms_eq, List.filterMap_cons, List.filterMap_flatMap]
  cases t.loopArities? <;> rfl

end TailLoop.Term

namespace TailLoop.Lower

open Script Lowering Term

variable {ι : Type} {K K' : Code} {shape shape' : List (List Nat)}

/-! ## Expressions and statements -/

/-- `Code.ofReturn`: a value with a returning statement of its own. -/
theorem jumpsTo_ofReturn {value : Lowering Script.Expr} {returned : Lowering Stmt}
    (hvalue : WritesExpr value shape) (hreturned : Writes returned shape fun _ s A Gs =>
      ∃ es, s.parts? = some es ∧ ExprsJump es A Gs) :
    (Code.ofReturn value returned).JumpsTo shape where
  value := hvalue
  returned := hreturned
  run := hvalue.map fun _ _ _ _ h => h.called
  block mode := by
    simp only [Code.ofReturn]
    split
    · exact hvalue.map fun _ _ _ _ h => .one rfl (.one h.called)
    · refine hreturned.map fun _ _ _ _ h => ?_
      obtain ⟨es, hs, hes⟩ := h
      exact .one hs hes

/-- `Code.ofValue`: a term that is an expression. -/
theorem jumpsTo_ofValue {value : Lowering Script.Expr} (h : WritesExpr value shape) :
    (Code.ofValue value).JumpsTo shape :=
  jumpsTo_ofReturn h (h.map fun _ _ _ _ h => ⟨_, rfl, .one h⟩)

/-- `Code.ofObject`: a term that is an object literal. -/
theorem jumpsTo_ofObject {value : Lowering Script.Expr} (h : WritesExpr value shape) :
    (Code.ofObject value).JumpsTo shape :=
  jumpsTo_ofReturn h (h.map fun _ _ _ _ h => ⟨_, rfl, .one h⟩)

/-- A block that is for no body of a loop has no loop around it: `none`. -/
theorem WritesBlock.body {mode : Mode} {m : Lowering (List Stmt)} (hmode : mode.loop = false)
    (h : WritesBlock mode m shape) :
    Writes m shape fun _ block A Gs => BlockJumps none block A Gs := by
  refine h.mono fun S block A Gs h => ?_
  rwa [placeOf, hmode, if_neg Bool.false_ne_true] at h

/-- `Code.ofBlock`: a term that is written as statements. -/
theorem jumpsTo_ofBlock {block : Mode → Lowering (List Stmt)}
    (h : ∀ mode, WritesBlock mode (block mode) shape) : (Code.ofBlock block).JumpsTo shape where
  value := ((h .plain).body rfl).map fun _ _ _ _ h => (ExprJumps.function h).called
  returned := ((h .plain).body rfl).map
    fun _ _ _ _ h => ⟨_, rfl, .one (ExprJumps.function h).called⟩
  run := ((h .plain).body rfl).map fun _ _ _ _ h => (ExprJumps.function h).called.called
  block := h

/-- `Code.ofEffect`: an effect, which is a function where it is not run. -/
theorem jumpsTo_ofEffect {body : Lowering (List Stmt)} {run : Lowering Script.Expr}
    {block : Mode → Lowering (List Stmt)} (hbody : WritesBlock .effectful body shape)
    (hrun : WritesExpr run shape)
    (hblock : ∀ mode, WritesBlock mode (block mode) shape) :
    (Code.ofEffect body run block).JumpsTo shape where
  value := (hbody.body rfl).map fun _ _ _ _ h => .function h
  returned := (hbody.body rfl).map fun _ _ _ _ h => ⟨_, rfl, .one (.function h)⟩
  run := hrun
  block mode := by
    simp only [Code.ofEffect]
    split
    · exact hblock mode
    · exact (hbody.body rfl).map fun _ _ _ _ h => .one rfl (.one (.function h))

/-! ## Lists of terms -/

/-- `all`: steps one after the other. -/
theorem writes_all {ts : List ι} {m : ι → Lowering Script.Expr} {g : ι → List (List Nat)}
    (h : ∀ t ∈ ts, WritesExpr (m t) (g t)) :
    Writes (all (ts.map m)) (ts.flatMap g) fun _ es A Gs => ExprsJump es A Gs := by
  induction ts with
  | nil => exact .pure fun _ => .nil
  | cons t rest ih =>
    refine (h t (List.mem_cons_self ..)).bind fun e => ?_
    refine (ih fun u hu => h u (List.mem_cons_of_mem _ hu)).map fun _ es A' Gs' hes A Gs he => ?_
    exact .cons he hes

/-- Fields of an object literal, one after the other, each under its `key`. -/
theorem writes_fields {ts : List ι} {m : ι → Lowering Script.Expr} {g : ι → List (List Nat)}
    {key : ι → String} (h : ∀ t ∈ ts, WritesExpr (m t) (g t)) :
    Writes (all (ts.map fun t => do return Field.field (key t) (← m t))) (ts.flatMap g)
      fun _ fs A Gs => ExprsJump (fs.map Field.value) A Gs := by
  induction ts with
  | nil => exact .pure fun _ => .nil
  | cons t rest ih =>
    have hfield : Writes (do return Field.field (key t) (← m t)) (g t)
        fun _ f A Gs => ExprJumps f.value A Gs :=
      (h t (List.mem_cons_self ..)).map fun _ _ _ _ he => he
    refine hfield.bind fun f => ?_
    refine (ih fun u hu => h u (List.mem_cons_of_mem _ hu)).map fun _ fs A' Gs' hfs A Gs hf => ?_
    exact .cons hf hfs

/-- `callEach`: a call with arguments one by one. -/
theorem writes_callEach {ts : List ι} {m : ι → Lowering Script.Expr} {g : ι → List (List Nat)}
    {callee : Lowering Script.Expr} (hf : WritesExpr callee shape)
    (h : ∀ t ∈ ts, WritesExpr (m t) (g t)) :
    WritesExpr (callEach callee (ts.map m)) (shape ++ ts.flatMap g) := by
  induction ts generalizing callee shape with
  | nil => rwa [List.flatMap_nil, List.append_nil]
  | cons t rest ih =>
    have hcall : WritesExpr (do return .call (← callee) [← m t]) (shape ++ g t) := by
      refine hf.bind fun f => (h t (List.mem_cons_self ..)).map fun _ e A' Gs' he A Gs hf => ?_
      exact .node rfl (.two hf he)
    rw [List.flatMap_cons, ← List.append_assoc]
    exact ih hcall fun u hu => h u (List.mem_cons_of_mem _ hu)

/-- `callAll`: a call with all arguments. -/
theorem writes_callAll {ts : List ι} {m : ι → Lowering Script.Expr} {g : ι → List (List Nat)}
    {callee : Lowering Script.Expr} (hf : WritesExpr callee shape)
    (h : ∀ t ∈ ts, WritesExpr (m t) (g t)) :
    WritesExpr (callAll callee (ts.map m)) (shape ++ ts.flatMap g) := by
  refine hf.bind fun f => (writes_all h).map fun _ es A' Gs' hes A Gs hf => ?_
  exact .node rfl (.cons hf hes)

/-! ## Jumps -/

/-- `jump?` writes nothing, or a jump to the innermost loop with all arguments, where `r?` is a
member of it with as many parameters. -/
theorem jump?_cases (r? : Option Ref) (args : List (Lowering Script.Expr)) (p : Progress) :
    (∃ p', jump? r? args p = (none, p') ∧ Kept [] p p') ∨
      ∃ r j S, r? = some r ∧ p.env.scopes = j.scope :: S ∧
        j.scope.members[j.member]? = some (r, args.length) ∧
        jump? r? args p = (some (jumpStmts j (all args p).1), (all args p).2) := by
  cases r? with
  | none => exact .inl ⟨p, rfl, .refl [] p⟩
  | some r =>
  rw [jump?_run]
  cases hfind : p.env.findJump? r with
  | none => exact .inl ⟨p, rfl, .refl [] p⟩
  | some j =>
    simp only
    split
    · exact .inl ⟨_, rfl, ⟨fun _ h => h, by simp, rfl⟩⟩
    · rename_i hexited
      split
      · exact .inl ⟨_, rfl, ⟨fun _ h => h, by simp, rfl⟩⟩
      · rename_i harity
        obtain ⟨S, hscopes, hmember⟩ := findIn_exited hfind (by omega)
        rw [Decidable.not_not.1 harity] at hmember
        exact .inr ⟨r, j, S, rfl, hscopes, hmember, rfl⟩

/-- `all`: steps one after the other. -/
theorem length_all {α : Type} (ms : List (Lowering α)) (p : Progress) :
    (all ms p).1.length = ms.length := by
  induction ms generalizing p with
  | nil => rfl
  | cons m rest ih => exact congrArg (· + 1) (ih (m p).2)

/-- In the body of a loop, a call is written as a jump, or else as `k` says. -/
theorem writes_jump? {ts : List ι} {m : ι → Lowering Script.Expr} {g : ι → List (List Nat)}
    {mode : Mode} {r? : Option Ref} {k : Option (List Stmt) → Lowering (List Stmt)}
    (hmode : mode.loop = true) (h : ∀ t ∈ ts, WritesExpr (m t) (g t))
    (hsome : ∀ stmts, k (some stmts) = pure stmts) (hnone : WritesBlock mode (k none) shape)
    (hr : r?.isSome = true → shape = ts.flatMap g) :
    WritesBlock mode (jump? r? (ts.map m) >>= k) shape := by
  intro p hp
  show ∃ A Gs, Claims p (k (jump? r? (ts.map m) p).1 (jump? r? (ts.map m) p).2).2 A _ ∧ _ ∧
    BlockJumps _ (k (jump? r? (ts.map m) p).1 (jump? r? (ts.map m) p).2).1 A Gs
  rcases jump?_cases r? (ts.map m) p with ⟨p', heq, hkept⟩ | ⟨r, j, S, rfl, hscopes, hmember, heq⟩
  · rw [heq]
    obtain ⟨A, Gs, hclaims, hshape, hout⟩ := hnone p' (hkept.scopes ▸ hp)
    rw [hkept.scopes] at hout
    exact ⟨A, Gs, hkept.claims.trans hclaims, hshape, hout⟩
  · rw [heq, hsome, hr rfl]
    obtain ⟨A, Gs, hclaims, hshape, hvalues⟩ := writes_all h p hp
    have hlen := length_all (ts.map m) p
    rw [← hlen] at hmember
    have hroom := hp j.scope (hscopes ▸ List.mem_cons_self ..) _ (List.mem_of_getElem? hmember)
    refine ⟨A, Gs, hclaims, hshape, ?_⟩
    rw [placeOf, if_pos hmode, hscopes]
    have harity : j.scope.target.arities[j.member]? = some (all (ts.map m) p).1.length := by
      rw [LoopScope.target, List.getElem?_map, hmember]
      rfl
    exact .jump harity hroom hvalues

/-- `appCode`: where the head is a reference `r?`, the call may become a jump, and then the head is
not written, so its `shape` must be empty. -/
theorem jumpsTo_appCode {ts : List ι} {m : ι → Lowering Script.Expr} {g : ι → List (List Nat)}
    {r? : Option Ref} {callee : Lowering Script.Expr} (hr : r?.isSome = true → shape = [])
    (hf : WritesExpr callee shape) (h : ∀ t ∈ ts, WritesExpr (m t) (g t)) :
    (appCode r? callee (ts.map m)).JumpsTo (shape ++ ts.flatMap g) := by
  have hplain := jumpsTo_ofValue (writes_callEach hf h)
  refine ⟨hplain.value, hplain.returned, hplain.run, fun mode => ?_⟩
  simp only [appCode]
  split
  · rename_i hmode
    refine writes_jump? hmode h (fun _ => rfl) ?_ fun hsome => by rw [hr hsome, List.nil_append]
    refine hplain.returned.map fun _ s A Gs hs => ?_
    obtain ⟨es, hs, hes⟩ := hs
    exact .one hs hes
  · exact hplain.block mode

/-! ## Functions, bindings and effects -/

/-- `curriedCode`: a function that takes its parameters one by one. -/
theorem jumpsTo_curriedCode {params : List Binder} (h : K.JumpsTo shape) :
    (curriedCode params K).JumpsTo shape := by
  have hvalue : WritesExpr (do
      let names ← bindNames params
      return .curried names (← K.block .plain)) shape := by
    refine .skip (quiet_bindNames params) fun names => ?_
    exact ((h.block .plain).body rfl).map fun _ _ _ _ h => .curried fun _ => .function h
  have hcode := jumpsTo_ofValue hvalue
  exact ⟨hcode.value, hcode.returned, hcode.run, hcode.block⟩

/-- `arrowCode`: a function that takes its parameters at once. -/
theorem jumpsTo_arrowCode {params : List Binder} {mode : Mode} (hmode : mode.loop = false)
    (h : K.JumpsTo shape) : (arrowCode params (K.block mode)).JumpsTo shape := by
  refine jumpsTo_ofValue (.skip (quiet_bindNames params) fun names => ?_)
  exact ((h.block mode).body hmode).map fun _ _ _ _ h => .function h

/-- `effectAppCode`: an application that is an effect. -/
theorem jumpsTo_effectAppCode {ts : List ι} {m : ι → Lowering Script.Expr}
    {g : ι → List (List Nat)} {callee : Lowering Script.Expr} (hf : WritesExpr callee shape)
    (h : ∀ t ∈ ts, WritesExpr (m t) (g t)) :
    (effectAppCode callee (ts.map m)).JumpsTo (shape ++ ts.flatMap g) := by
  have hrun := writes_callAll hf h
  have hbody (mode : Mode) : WritesBlock mode (do return [.ret (← callAll callee (ts.map m))])
      (shape ++ ts.flatMap g) := hrun.map fun _ _ _ _ he => .one rfl (.one he)
  exact jumpsTo_ofEffect (hbody _) hrun fun mode => hbody mode

/-- `letCode`: a binding in front of the block of its body. -/
theorem jumpsTo_letCode {b : Binder} (hvalue : K.JumpsTo shape) (hbody : K'.JumpsTo shape') :
    (letCode b K K').JumpsTo (shape ++ shape') := by
  refine jumpsTo_ofBlock fun mode => hvalue.value.bind fun e => ?_
  refine .skip (quiet_bindName b) fun name => ?_
  exact (hbody.block mode).map fun _ rest A' Gs' hrest A Gs he => .plain rfl (.one he) hrest

/-- `bindStmt` claims no name for a slot, and gives a statement that consists of the effect `e`. -/
theorem quiet_bindStmt (b : Binder) (e : Script.Expr) :
    Quiet (bindStmt b e) ∧ Gives (bindStmt b e) fun s => s.parts? = some [e] := by
  unfold bindStmt
  split
  · exact ⟨quiet_bindName b, (Gives.any (bindName b)).map fun _ _ => rfl⟩
  · exact ⟨fun p => .refl [] p, .pure rfl⟩

/-- `bindCode`: an effect that goes on with the result of another. -/
theorem jumpsTo_bindCode {b : Binder} (heffect : K.JumpsTo shape) (hbody : K'.JumpsTo shape') :
    (bindCode b K K').JumpsTo (shape ++ shape') := by
  have hblock (mode : Mode) : WritesBlock mode (do
      let x ← K.run
      let s ← bindStmt b x
      let rest ← K'.block mode
      return s :: rest) (shape ++ shape') := by
    refine heffect.run.bind fun e => ?_
    obtain ⟨hquiet, hgives⟩ := quiet_bindStmt b e
    refine .skip_gives hquiet hgives fun s hs => ?_
    exact (hbody.block mode).map fun _ rest A' Gs' hrest A Gs he => .plain hs (.one he) hrest
  exact jumpsTo_ofEffect (hblock _) (((hblock _).body rfl).map
    fun _ _ _ _ h => (ExprJumps.function h).called) fun mode => hblock mode

/-- `pureCode`: an effect that gives a value. -/
theorem jumpsTo_pureCode (h : K.JumpsTo shape) : (pureCode K).JumpsTo shape := by
  have hbody (mode : Mode) : WritesBlock mode (do return [← K.returned]) shape := by
    refine h.returned.map fun _ s A Gs hs => ?_
    obtain ⟨es, hs, hes⟩ := hs
    exact .one hs hes
  exact jumpsTo_ofEffect (hbody _) h.value fun mode => hbody mode

/-- `deferCode`: an effect that is built when it runs. -/
theorem jumpsTo_deferCode (h : K.JumpsTo shape) : (deferCode K).JumpsTo shape :=
  jumpsTo_ofEffect (h.block .effectful) (((h.block .effectful).body rfl).map
    fun _ _ _ _ h => (ExprJumps.function h).called) h.block

/-! ## Branches -/

/-- `armBlocks`: the arms of a branch with blocks of their own. -/
theorem writes_armBlocks {arms : List ι} {cond body : ι → Code} {g g' : ι → List (List Nat)}
    {mode : Mode} (hcond : ∀ a ∈ arms, (cond a).JumpsTo (g a))
    (hbody : ∀ a ∈ arms, (body a).JumpsTo (g' a)) :
    Writes (armBlocks mode (arms.map fun a => (cond a, body a)))
      (arms.flatMap fun a => g a ++ g' a)
      fun S blocks A Gs => ArmsJump (placeOf mode S) blocks A Gs := by
  induction arms with
  | nil => exact .pure fun _ => .nil
  | cons a rest ih =>
    have hrest := ih (fun a' ha' => hcond a' (List.mem_cons_of_mem _ ha'))
      (fun a' ha' => hbody a' (List.mem_cons_of_mem _ ha'))
    rw [List.flatMap_cons, List.append_assoc]
    refine (hcond a (List.mem_cons_self ..)).value.bind fun e => ?_
    refine ((hbody a (List.mem_cons_self ..)).block mode).bind fun block => ?_
    refine hrest.map fun _ blocks A'' Gs'' hblocks A' Gs' hblock A Gs he => ?_
    exact .cons he hblock hblocks

/-- `conditionalExpr`: the arms of a branch as a conditional expression. -/
theorem writes_conditionalExpr {arms : List ι} {cond body : ι → Code} {g g' : ι → List (List Nat)}
    (hcond : ∀ a ∈ arms, (cond a).JumpsTo (g a)) (hbody : ∀ a ∈ arms, (body a).JumpsTo (g' a))
    (hdefault : K.JumpsTo shape) :
    WritesExpr (conditionalExpr (arms.map fun a => (cond a, body a)) K)
      ((arms.flatMap fun a => g a ++ g' a) ++ shape) := by
  induction arms with
  | nil => exact hdefault.value
  | cons a rest ih =>
    have hrest := ih (fun a' ha' => hcond a' (List.mem_cons_of_mem _ ha'))
      (fun a' ha' => hbody a' (List.mem_cons_of_mem _ ha'))
    rw [List.flatMap_cons, List.append_assoc, List.append_assoc]
    refine (hcond a (List.mem_cons_self ..)).value.bind fun e => ?_
    refine (hbody a (List.mem_cons_self ..)).value.bind fun yes => ?_
    refine hrest.map fun _ no A'' Gs'' hno A' Gs' hyes A Gs he => ?_
    exact .node rfl (.cons he (.two hyes hno))

/-- `branchCode`: a branch, as an expression or as a chain of blocks. -/
theorem jumpsTo_branchCode {simple : Bool} {arms : List ι} {cond body : ι → Code}
    {g g' : ι → List (List Nat)} (hcond : ∀ a ∈ arms, (cond a).JumpsTo (g a))
    (hbody : ∀ a ∈ arms, (body a).JumpsTo (g' a)) (hdefault : K.JumpsTo shape) :
    (branchCode simple (arms.map fun a => (cond a, body a)) K).JumpsTo
      ((arms.flatMap fun a => g a ++ g' a) ++ shape) := by
  have hblock (mode : Mode) : WritesBlock mode (do
      let blocks ← armBlocks mode (arms.map fun a => (cond a, body a))
      let rest ← K.block mode
      return (if blocks.isEmpty then [] else [Stmt.chain blocks]) ++ rest)
      ((arms.flatMap fun a => g a ++ g' a) ++ shape) := by
    refine (writes_armBlocks hcond hbody).bind fun blocks => ?_
    refine (hdefault.block mode).map fun S rest A' Gs' hrest A Gs hblocks => ?_
    cases hblocks with
    | nil => exact hrest
    | cons he hblock hblocks => exact .chain (.cons he hblock hblocks) hrest
  unfold branchCode
  split
  · have hvalue := jumpsTo_ofValue (writes_conditionalExpr hcond hbody hdefault)
    exact ⟨hvalue.value, hvalue.returned, hvalue.run, hblock⟩
  · exact jumpsTo_ofBlock hblock

/-! ## Groups that are no loops -/

/-- `declareValues .const`: declarations of constants. -/
theorem writes_declareConsts {bindings : List (String × ι)} {f : ι → Code}
    {g : ι → List (List Nat)} (h : ∀ b ∈ bindings, (f b.2).JumpsTo (g b.2)) :
    WritesDecls (declareValues .const (bindings.map fun b => (b.1, f b.2)))
      (bindings.flatMap fun b => g b.2) := by
  induction bindings with
  | nil => exact .pure fun _ => .nil
  | cons b rest ih =>
    refine (h b (List.mem_cons_self ..)).value.bind fun e => ?_
    refine (ih fun b' hb' => h b' (List.mem_cons_of_mem _ hb')).map
      fun _ decls A' Gs' hdecls A Gs he => ?_
    exact (Opens.plain rfl (.one he)).append hdecls

/-- `declareValues .assign` assigns the names of `bindings`, beside what is assigned inside the
values. -/
theorem writes_assignValues {bindings : List (String × ι)} {f : ι → Code}
    {g : ι → List (List Nat)} (h : ∀ b ∈ bindings, (f b.2).JumpsTo (g b.2)) :
    Writes (declareValues .assign (bindings.map fun b => (b.1, f b.2)))
      (bindings.flatMap fun b => g b.2) fun _ decls A Gs =>
        ∃ A', Opens decls A' Gs ∧ ∀ x ∈ A', x ∈ bindings.map Prod.fst ++ A := by
  induction bindings with
  | nil => exact .pure fun _ => ⟨[], .nil, by simp⟩
  | cons b rest ih =>
    refine (h b (List.mem_cons_self ..)).value.bind fun e => ?_
    refine (ih fun b' hb' => h b' (List.mem_cons_of_mem _ hb')).map
      fun _ decls A' Gs' hdecls A Gs he => ?_
    obtain ⟨A'', hopens, hA⟩ := hdecls
    refine ⟨b.1 :: A ++ A'', (Opens.assign he).append hopens, fun x hx => ?_⟩
    simp only [List.map_cons, List.cons_append, List.mem_cons, List.mem_append] at hx hA ⊢
    have := hA x
    grind

/-! ## Loops -/

/-- The names that a step claims inside the loop `s` are claimed where the loop is written. -/
theorem claims_inLoop {α : Type} {s : LoopScope} {step : Lowering α} {p : Progress}
    {A V : List String} (h : Claims (enterLoop s p) (step (enterLoop s p)).2 A V) :
    Claims p (inLoop s step p).2 A V :=
  ⟨(inLoop_kept h.kept).2, h.new, h.used, h.nodup, h.apart⟩

/-- `bindParams`: constants for parameters, with the values of the slots. -/
theorem quiet_bindParams (params : List Binder) (slots : List String) :
    Quiet (bindParams params slots) ∧ Gives (bindParams params slots) fun b => Opens b [] [] := by
  fun_induction bindParams params slots with
  | case1 b params slot slots ih =>
    refine ⟨fun p => (quiet_bindName b p).trans (ih.1 _), ?_⟩
    refine (Gives.any (bindName b)).bind fun name _ => ih.2.map fun rest hrest => ?_
    exact (Opens.plain rfl (.of_leaves (by simp [Expr.parts?]))).append hrest
  | case2 => exact ⟨fun p => .refl [] p, .pure .nil⟩

/-- `memberBody`: the body of a loop member after constants for its parameters. -/
theorem writes_memberBody {m : Member} (slots : List String)
    (h : WritesBlock .looping m.body shape) : WritesBlock .looping (memberBody m slots) shape := by
  obtain ⟨hquiet, hgives⟩ := quiet_bindParams m.params slots
  refine .skip_gives hquiet hgives fun binds hbinds => ?_
  exact h.map fun _ body A Gs hbody => hbinds _ _ _ _ hbody

variable {xs : List ι} {mk : ι → Member} {g : ι → List (List Nat)}

/-- `dispatchBody`: the bodies of all members behind tests of the selector. -/
theorem writes_dispatchBody {selector : String} {slots : List String} {i : Nat}
    (h : ∀ x ∈ xs, WritesBlock .looping (mk x).body (g x)) :
    WritesBlock .looping (dispatchBody selector slots i (xs.map mk)) (xs.flatMap g) := by
  induction xs generalizing i with
  | nil => exact .pure fun _ => .nil
  | cons x rest ih =>
    have hfirst := writes_memberBody slots (h x (List.mem_cons_self ..))
    cases rest with
    | nil =>
      rw [List.flatMap_cons, List.flatMap_nil, List.append_nil]
      exact hfirst
    | cons y rest =>
      refine hfirst.bind fun block => ?_
      refine (ih fun z hz => h z (List.mem_cons_of_mem _ hz)).map
        fun _ others A' Gs' hothers A Gs hblock => ?_
      have htest : ExprJumps (.binary .eq (.ident selector) (natLit i)) [] [] :=
        .node rfl (.of_leaves (by simp [natLit, Expr.parts?]))
      have harms := ArmsJump.cons htest hblock .nil
      rw [List.nil_append, List.nil_append, List.append_nil, List.append_nil] at harms
      exact .chain harms hothers

/-- `entries`: the functions that enter a shared loop. -/
theorem quiet_entries (label : String) (i : Nat) (members : List Member) :
    Quiet (entries label i members) ∧ Gives (entries label i members)
      (EntriesFor label i (members.map fun m => m.params.length)) := by
  induction members generalizing i with
  | nil => exact ⟨fun p => .refl [] p, .pure .nil⟩
  | cons m rest ih =>
    obtain ⟨hquiet, hgives⟩ := ih (i + 1)
    have hcopies : Gives (copyNames m.params) fun copies => copies.length = m.params.length :=
      fun p => length_freshNames_paramBases ..
    refine ⟨fun p => (quiet_freshNames _ p).trans (hquiet _), ?_⟩
    exact hcopies.bind fun copies hlen => hgives.map fun others hothers => .cons hlen hothers

/-- `selfLoop`: a single function as a loop. -/
theorem writes_selfLoop {m : Member} (h : WritesBlock .looping m.body shape) :
    WritesExpr (selfLoop m) ([m.params.length] :: shape) := by
  intro p hp
  -- the names of the loop, one after the other
  let label := (freshName ("$" ++ m.ident) p).1
  let p₁ := (freshName ("$" ++ m.ident) p).2
  let copies := (copyNames m.params p₁).1
  let p₂ := (copyNames m.params p₁).2
  let slots := (freshNames (paramBases (label ++ "_") m.params) p₂).1
  let p₃ := (freshNames (paramBases (label ++ "_") m.params) p₂).2
  have hkept : Kept [] p p₂ := (quiet_freshName _ p).trans (quiet_freshNames _ p₁)
  have hslots : Claims p p₃ [] slots := hkept.claims.trans (claims_freshNames _ p₂)
  have hlenCopies : copies.length = m.params.length := length_freshNames_paramBases ..
  have hlenSlots : slots.length = m.params.length := length_freshNames_paramBases ..
  -- the body of the loop
  let s : LoopScope := ⟨label, [(m.ref, m.params.length)], none, slots⟩
  have hroomy : Roomy (enterLoop s p₃).env.scopes := by
    intro s' hs'
    rcases List.mem_cons.1 hs' with rfl | hs'
    · intro y hy
      obtain rfl := List.mem_singleton.1 hy
      exact Nat.le_of_eq hlenSlots.symm
    · exact hp s' (hslots.kept.scopes ▸ hs')
  obtain ⟨A, Gs, hclaims, hshape, hbody⟩ := writes_memberBody slots h (enterLoop s p₃) hroomy
  refine ⟨A, ⟨none, slots, [slots.length]⟩ :: Gs, ?_, ?_, ?_⟩
  · exact hslots.trans (claims_inLoop hclaims)
  · rw [List.map_cons, hshape, hlenSlots]
  · have hplace : placeOf .looping (enterLoop s p₃).env.scopes =
        some ⟨none, slots, [slots.length]⟩ := by rw [hlenSlots]; rfl
    rw [hplace] at hbody
    exact .curried fun _ => .loop (hlenCopies.trans hlenSlots.symm) hbody

/-- `sharedLoop`: a loop with the arities of all members, and the loops in their bodies. -/
theorem writes_sharedLoop (label : String)
    (h : ∀ x ∈ xs, WritesBlock .looping (mk x).body (g x)) :
    WritesDecls (sharedLoop (xs.map mk) label)
      ((xs.map fun x => (mk x).params.length) :: xs.flatMap g) := by
  intro p hp
  -- the names of the loop, one after the other
  let bases := (List.range (slotCount (xs.map mk))).map
    fun i => label ++ "_" ++ Decimal.digitsText i
  let selector := (freshName (label ++ "_fn") p).1
  let p₁ := (freshName (label ++ "_fn") p).2
  let slots := (freshNames bases p₁).1
  let p₂ := (freshNames bases p₁).2
  have hvars : Claims p p₂ [] (selector :: slots) :=
    (claims_freshName _ p).trans (claims_freshNames bases p₁)
  have hlenSlots : slots.length = slotCount (xs.map mk) := by
    rw [(freshNames_spec [] p₁ bases).1, List.length_map, List.length_range]
  -- the body of the loop
  let s : LoopScope :=
    ⟨label, (xs.map mk).map fun m => (m.ref, m.params.length), some selector, slots⟩
  have hroomy : Roomy (enterLoop s p₂).env.scopes := by
    intro s' hs'
    rcases List.mem_cons.1 hs' with rfl | hs'
    · intro y hy
      obtain ⟨m, hm, rfl⟩ := List.mem_map.1 hy
      rw [hlenSlots]
      exact le_slotCount hm
    · exact hp s' (hvars.kept.scopes ▸ hs')
  have hdispatch : WritesBlock .looping (dispatchBody selector slots 0 (xs.map mk))
      (xs.flatMap g) := writes_dispatchBody h
  obtain ⟨A, Gs, hclaims, hshape, hbody⟩ := hdispatch (enterLoop s p₂) hroomy
  obtain ⟨hquiet, hentries⟩ := quiet_entries label 0 (xs.map mk)
  have harities : s.target.arities = (xs.map mk).map fun m => m.params.length := by
    rw [LoopScope.target, List.map_map]
    rfl
  refine ⟨A, s.target :: Gs, ?_, ?_, ?_⟩
  · have hall := (hvars.trans (claims_inLoop hclaims)).trans (hquiet _).claims
    rw [List.append_nil, List.append_nil] at hall
    exact hall
  · rw [List.map_cons, hshape, harities, List.map_map]
    rfl
  · intro place rest A' Gs' hrest
    have hplace : placeOf .looping (enterLoop s p₂).env.scopes = some s.target := rfl
    rw [hplace] at hbody
    rw [← harities] at hentries
    exact .shared (hentries _) hbody hrest

/-- `loopDeclarations`: the loop of a group, be it one function or several. -/
theorem writes_loopDeclarations (dispatcher : Option String)
    (h : ∀ x ∈ xs, WritesBlock .looping (mk x).body (g x)) :
    WritesDecls (loopDeclarations (xs.map mk) dispatcher)
      ((xs.map fun x => (mk x).params.length) :: xs.flatMap g) := by
  have hgroup : WritesDecls (groupLoop (xs.map mk) dispatcher)
      ((xs.map fun x => (mk x).params.length) :: xs.flatMap g) := by
    rw [groupLoop_eq]
    refine .skip (quiet_report _ _) fun _ => .skip ?_ fun label => writes_sharedLoop label h
    cases dispatcher with
    | some label => exact fun p => .refl [] p
    | none => exact quiet_freshName _
  match xs, h, hgroup with
  | [], _, hgroup => exact hgroup
  | [x], h, _ =>
    refine .skip (quiet_report _ _) fun _ => ?_
    rw [List.flatMap_cons, List.flatMap_nil, List.append_nil]
    refine (writes_selfLoop (h x (List.mem_singleton.2 rfl))).map fun _ e A Gs he => ?_
    exact .plain rfl (.one he)
  | _ :: _ :: _, _, hgroup => exact hgroup

/-! ## Terms -/

variable {c : Context}

/-- `memberOf` lowers the body of the function `q.2`, so it has the loops of that body. -/
theorem writes_memberOf {q : (String × Ref) × Analyzed} {a : Analysis} {params : List Binder}
    {body : Analyzed} (hq : q.2 = .abs a .curried params body)
    (h : (code c body).JumpsTo body.loopArities) :
    WritesBlock .looping (memberOf c q).body q.2.loopArities := by
  have hshape : q.2.loopArities = body.loopArities := by
    rw [hq, loopArities_eq]
    simp [loopArities?, children]
  rw [hshape, memberOf, hq]
  exact h.block .looping

/-- The loop of a group of functions `ts` has their arities, and contains the loops of all
bodies. -/
theorem writes_loopGroup {idents : List String} {refs : List Ref} {ts : List Analyzed}
    (dispatcher : Option String) (hidents : idents.length = ts.length)
    (hrefs : refs.length = ts.length)
    (hts : ∀ t ∈ ts, ∃ a params body, t = .abs a .curried params body)
    (h : ∀ t ∈ ts, ∀ s ∈ t.children, (code c s).JumpsTo s.loopArities) :
    WritesDecls (loopDeclarations (((idents.zip refs).zip ts).map (memberOf c)) dispatcher)
      (ts.map arity :: ts.flatMap loopArities) := by
  have hsnd := (map_zip_zip hidents hrefs).2.2
  have harities : ((idents.zip refs).zip ts).map (fun q => (memberOf c q).params.length) =
      ts.map arity := by
    conv => rhs; rw [← hsnd, List.map_map]
    exact List.map_congr_left fun q _ => length_params q.2
  have hshape : ((idents.zip refs).zip ts).flatMap (fun q => q.2.loopArities) =
      ts.flatMap loopArities := by
    conv => rhs; rw [← hsnd, List.flatMap_map]
  rw [← harities, ← hshape]
  refine writes_loopDeclarations dispatcher fun q hq => ?_
  have hq := (List.of_mem_zip hq).2
  obtain ⟨a, params, body, hfun⟩ := hts q.2 hq
  exact writes_memberOf hfun (h q.2 hq body (by rw [hfun]; exact List.mem_singleton.2 rfl))

/-- `groupDeclarations`: a recursive group, which may be a loop. -/
theorem writes_groupDeclarations {loop functions : Bool} {refs : List Ref} {binders : List Binder}
    {ts : List Analyzed} (hbinders : binders.length = ts.length) (hrefs : refs.length = ts.length)
    (hnamed : ∀ b ∈ binders, b.name.isSome = true)
    (hloop : loop = true → ∀ t ∈ ts, ∃ a params body, t = .abs a .curried params body)
    (h : ∀ t ∈ ts, (code c t).JumpsTo t.loopArities)
    (hbodies : ∀ t ∈ ts, ∀ s ∈ t.children, (code c s).JumpsTo s.loopArities) :
    WritesDecls (groupDeclarations loop functions refs binders (ts.map (code c)))
      ((if loop then [ts.map arity] else []) ++ ts.flatMap loopArities) := by
  have hlength : Gives (bindNames binders) fun idents => idents.length = ts.length :=
    fun p => (calmStep_bindNames binders p rfl).2.trans hbinders
  cases loop with
  -- a flagged group is a loop with the arities of its members; the loops in their bodies follow
  | true =>
    refine .skip_gives (quiet_bindNames binders) hlength fun idents hidents => ?_
    rw [loopMembers?_of_functions (hloop rfl)]
    exact writes_loopGroup none hidents hrefs (hloop rfl) hbodies
  | false =>
    refine .perm ((writes_bindNames hnamed).bind_gives hlength fun idents hidents => ?_)
    have hzip : idents.zip (ts.map (code c)) = (idents.zip ts).map fun b => (b.1, code c b.2) :=
      List.zip_map_right ..
    -- otherwise only the values of the bindings hold loops
    have hshape : (idents.zip ts).flatMap (fun b => b.2.loopArities) = ts.flatMap loopArities := by
      conv => rhs; rw [← List.map_snd_zip (Nat.le_of_eq hidents.symm), List.flatMap_map]
    have hfst : (idents.zip ts).map Prod.fst = idents := List.map_fst_zip (Nat.le_of_eq hidents)
    have hcodes (b : String × Analyzed) (hb : b ∈ idents.zip ts) :
        (code c b.2).JumpsTo b.2.loopArities := h b.2 (List.of_mem_zip hb).2
    simp only
    rw [hzip, ← hshape, recursiveDeclarations]
    split
    · refine (writes_declareConsts hcodes).mono fun _ decls A' Gs' hdecls A Gs hA => ?_
      obtain ⟨rfl, rfl⟩ := hA
      exact ⟨A', hdecls, fun x hx => List.mem_append_right _ hx⟩
    · -- the declarations in front of the assignments hold no expressions
      have hdeclares : Opens (((idents.zip ts).map fun b => (b.1, code c b.2)).map
          fun b => .declare b.1 none) [] [] := by
        refine .of_leaves fun s hs => ?_
        obtain ⟨b, -, rfl⟩ := List.mem_map.1 hs
        exact ⟨[], rfl, by simp⟩
      refine (writes_assignValues hcodes).map fun _ decls A' Gs' hdecls A Gs hA => ?_
      obtain ⟨rfl, rfl⟩ := hA
      obtain ⟨A'', hopens, hA⟩ := hdecls
      rw [hfst] at hA
      refine ⟨A'', ?_, hA⟩
      exact hdeclares.append hopens

/-- Lowered as values, the terms `ts` have their loops. -/
theorem writes_values {ts : List Analyzed} (h : ∀ t ∈ ts, (code c t).JumpsTo t.loopArities) :
    ∀ t ∈ ts, WritesExpr (code c t).value t.loopArities := fun t ht => (h t ht).value

/-- A node that is no loop has the loops of its children. -/
theorem loopArities_of_children {t : Analyzed} (h : t.loopArities? = none) :
    t.loopArities = t.children.flatMap loopArities := by
  rw [loopArities_eq, h]
  rfl

/-- A node that is no loop and has no children has no loops. -/
theorem loopArities_of_leaf {t : Analyzed} (h : t.loopArities? = none)
    (hchildren : t.children = []) : t.loopArities = [] := by
  rw [loopArities_of_children h, hchildren]
  rfl

/-- A node that is no loop has the loops of its one child `s`. -/
theorem loopArities_of_child {t s : Analyzed} (h : t.loopArities? = none)
    (hchildren : t.children = [s]) : t.loopArities = s.loopArities := by
  rw [loopArities_of_children h, hchildren, List.flatMap_cons, List.flatMap_nil, List.append_nil]

/-- `fieldCodes`: the parts of an object literal. -/
theorem writes_fieldCodes {fields : List (String × Analyzed)}
    (h : ∀ s ∈ fields.map Prod.snd, (code c s).JumpsTo s.loopArities) :
    Writes (all (fieldCodes c fields)) ((fields.map Prod.snd).flatMap loopArities)
      fun _ fs A Gs => ExprsJump (fs.map Field.value) A Gs := by
  rw [fieldCodes_eq_map, List.flatMap_map]
  exact writes_fields fun f hf => (h f.2 (List.mem_map.2 ⟨f, hf, rfl⟩)).value

/-! ### Leaves -/

section

variable {a : Analysis}

/-- `global` has no loops. -/
theorem jumpsTo_global {q : Qualified} :
    (code c (.global a q)).JumpsTo (Term.global a q).loopArities := by
  rw [loopArities_of_leaf rfl rfl]
  refine jumpsTo_ofValue (.pure fun _ => ?_)
  rw [globalExpr]
  split
  · exact .node rfl (.of_leaves (by simp [Expr.parts?]))
  · split
    · exact .node rfl (.of_leaves (by simp [Expr.parts?]))
    · exact .node rfl .nil

/-- A variable, read under the name of its binder `b`. -/
theorem jumpsTo_bound {b : Binder} :
    (code c (.bound a b)).JumpsTo (Term.bound a b).loopArities := by
  rw [loopArities_of_leaf rfl rfl]
  exact jumpsTo_ofValue (.of_quiet (quiet_nameOf b) fun _ _ => .node rfl .nil)

/-- `lit` has no loops. -/
theorem jumpsTo_lit {value : Literal} :
    (code c (.lit a value)).JumpsTo (Term.lit a value).loopArities := by
  rw [loopArities_of_leaf rfl rfl]
  refine jumpsTo_ofValue (.pure fun _ => .node ?_ .nil)
  cases value <;> rfl

/-- `constructor` becomes a function without loops. -/
theorem jumpsTo_constructor {tag : String} {fields : List String} :
    (code c (.constructor a tag fields)).JumpsTo (Term.constructor a tag fields).loopArities := by
  rw [loopArities_of_leaf rfl rfl]
  refine jumpsTo_ofValue (.of_quiet (quiet_freshNames fields) fun _ names => ?_)
  have hobject : ExprJumps (.object (tagField tag ::
      (fields.zip names).map fun p => .field p.1 (.ident p.2))) [] [] := by
    refine .node rfl (.of_leaves fun e he => ?_)
    obtain ⟨f, hf, rfl⟩ := List.mem_map.1 he
    rcases List.mem_cons.1 hf with rfl | hf
    · rfl
    · obtain ⟨p, -, rfl⟩ := List.mem_map.1 hf
      rfl
  unfold constructorExpr
  split
  · exact hobject
  · exact .curried fun _ => .function (.one rfl (.one hobject))

/-- `undefined`. -/
theorem jumpsTo_undefined : (code c (.undefined a)).JumpsTo (Term.undefined a).loopArities := by
  rw [loopArities_of_leaf rfl rfl]
  exact jumpsTo_ofReturn (.pure fun _ => .node rfl .nil) (.pure fun _ => ⟨[], rfl, .nil⟩)

/-- `fail` has no loops. -/
theorem jumpsTo_fail {message : String} :
    (code c (.fail a message)).JumpsTo (Term.fail a message).loopArities := by
  rw [loopArities_of_leaf rfl rfl]
  refine jumpsTo_ofBlock fun _ => .pure fun _ => ?_
  exact .one rfl (.one (.node rfl (.of_leaves (by simp [Expr.parts?]))))

end

/-! ### Lists and fields -/

section

variable {a : Analysis}

/-- The `items` of an array, one after the other. -/
theorem jumpsTo_array {items : List Analyzed}
    (h : ∀ s ∈ items, (code c s).JumpsTo s.loopArities) :
    (code c (.array a items)).JumpsTo (Term.array a items).loopArities := by
  rw [loopArities_of_children rfl, code, valueCodes_eq_map]
  exact jumpsTo_ofValue ((writes_all (writes_values h)).map fun _ _ _ _ h => .node rfl h)

variable {fields : List (String × Analyzed)}
  (h : ∀ s ∈ fields.map Prod.snd, (code c s).JumpsTo s.loopArities)

include h

/-- The `fields` of a record. -/
theorem jumpsTo_record :
    (code c (.record a fields)).JumpsTo (Term.record a fields).loopArities := by
  rw [loopArities_of_children rfl]
  exact jumpsTo_ofObject ((writes_fieldCodes h).map fun _ _ _ _ h => .node rfl h)

/-- The `fields` of a constructor that is applied, after its `tag`. -/
theorem jumpsTo_construct {type : Qualified} {tag : String} :
    (code c (.construct a type tag fields)).JumpsTo
      (Term.construct a type tag fields).loopArities := by
  rw [loopArities_of_children rfl]
  refine jumpsTo_ofObject ((writes_fieldCodes h).map fun _ fs _ _ h => .node rfl ?_)
  exact .cons (.node rfl .nil) h

/-- A record that is `subject` but for its `fields`. -/
theorem jumpsTo_update {subject : Analyzed}
    (hsubject : (code c subject).JumpsTo subject.loopArities) :
    (code c (.update a subject fields)).JumpsTo (Term.update a subject fields).loopArities := by
  rw [loopArities_of_children rfl]
  refine jumpsTo_ofObject (hsubject.value.bind fun e => ?_)
  exact (writes_fieldCodes h).map fun _ fs A' Gs' hfs A Gs he => .node rfl (.cons he hfs)

end

/-! ### Operators -/

section

variable {a : Analysis} {t : Analyzed} (h : (code c t).JumpsTo t.loopArities)

include h

/-- What `accessor` reads from a value. -/
theorem jumpsTo_access {accessor : Accessor} :
    (code c (.access a t accessor)).JumpsTo (Term.access a t accessor).loopArities := by
  rw [loopArities_of_child rfl rfl]
  refine jumpsTo_ofValue (h.value.map fun _ e A Gs he => ?_)
  cases accessor with
  | property | field => exact .wrap rfl he
  | index i =>
    have hindex := ExprsJump.two he (.node rfl .nil : ExprJumps (wordLit i) [] [])
    rw [List.append_nil, List.append_nil] at hindex
    exact .node rfl hindex

/-- Whether a value passes `guard`. -/
theorem jumpsTo_test {guard : Guard} :
    (code c (.test a t guard)).JumpsTo (Term.test a t guard).loopArities := by
  rw [loopArities_of_child rfl rfl]
  refine jumpsTo_ofValue (h.value.map fun _ e A Gs he => ?_)
  have hcompare {x y : Script.Expr} (hx : ExprJumps x A Gs) (hy : y.parts? = some []) :
      ExprJumps (.binary .eq x y) A Gs := by
    have hparts := ExprsJump.two hx (.node hy .nil)
    rw [List.append_nil, List.append_nil] at hparts
    exact .node rfl hparts
  cases guard with
  | boolean value =>
    cases value with
    | true => exact he
    | false => exact .wrap rfl he
  | tag | length => exact hcompare (.wrap rfl he) rfl
  | _ => exact hcompare he rfl

/-- `unary` has the loops of its operand. -/
theorem jumpsTo_unary {op : UnaryOp} :
    (code c (.unary a op t)).JumpsTo (Term.unary a op t).loopArities := by
  rw [loopArities_of_child rfl rfl]
  exact jumpsTo_ofValue (h.value.map fun _ _ _ _ he => .wrap rfl he)

/-- `binary` has the loops of both operands. -/
theorem jumpsTo_binary {op : BinaryOp} {t' : Analyzed}
    (h' : (code c t').JumpsTo t'.loopArities) :
    (code c (.binary a op t t')).JumpsTo (Term.binary a op t t').loopArities := by
  rw [loopArities_of_children rfl, children, List.flatMap_cons, List.flatMap_singleton]
  refine jumpsTo_ofValue (h.value.bind fun e => h'.value.map fun _ e' A' Gs' he' A Gs he => ?_)
  exact .node rfl (.two he he')

end

/-! ### Applications and functions -/

/-- An application of `head`, whatever `calling` says. Only one that takes its arguments one by one
can become a jump. -/
theorem jumpsTo_app {a : Analysis} {calling : Calling} {head : Analyzed} {args : List Analyzed}
    (hhead : (code c head).JumpsTo head.loopArities)
    (hargs : ∀ t ∈ args, (code c t).JumpsTo t.loopArities) :
    (code c (.app a calling head args)).JumpsTo (Term.app a calling head args).loopArities := by
  rw [loopArities_of_children rfl]
  cases calling with
  | curried =>
    rw [code, valueCodes_eq_map]
    refine jumpsTo_appCode (fun hsome => ?_) hhead.value (writes_values hargs)
    cases head with
    | global | bound => exact loopArities_of_leaf rfl rfl
    | _ => cases hsome
  | uncurried =>
    rw [code, valueCodes_eq_map]
    exact jumpsTo_ofValue (writes_callAll hhead.value (writes_values hargs))
  | effectful =>
    rw [code, valueCodes_eq_map]
    exact jumpsTo_effectAppCode hhead.value (writes_values hargs)

/-- A function of `params`, whatever `calling` says. -/
theorem jumpsTo_abs {a : Analysis} {calling : Calling} {params : List Binder} {body : Analyzed}
    (h : (code c body).JumpsTo body.loopArities) :
    (code c (.abs a calling params body)).JumpsTo
      (Term.abs a calling params body).loopArities := by
  rw [loopArities_of_child rfl rfl]
  cases calling with
  | curried => exact jumpsTo_curriedCode h
  | uncurried | effectful => exact jumpsTo_arrowCode rfl h

/-! ### Bindings, effects and branches -/

section

variable {a : Analysis} {b : Binder} {t t' : Analyzed} (h : (code c t).JumpsTo t.loopArities)

include h

/-- A binding of `b` to a value. -/
theorem jumpsTo_letIn (h' : (code c t').JumpsTo t'.loopArities) :
    (code c (.letIn a b t t')).JumpsTo (Term.letIn a b t t').loopArities := by
  rw [loopArities_of_children rfl, children, List.flatMap_cons, List.flatMap_singleton]
  exact jumpsTo_letCode h h'

/-- `bindEffect` has the loops of `t` and then those of `t'`. -/
theorem jumpsTo_bindEffect (h' : (code c t').JumpsTo t'.loopArities) :
    (code c (.bindEffect a b t t')).JumpsTo (Term.bindEffect a b t t').loopArities := by
  rw [loopArities_of_children rfl, children, List.flatMap_cons, List.flatMap_singleton]
  exact jumpsTo_bindCode h h'

/-- `pureEffect` has the loops of the value. -/
theorem jumpsTo_pureEffect :
    (code c (.pureEffect a t)).JumpsTo (Term.pureEffect a t).loopArities := by
  rw [loopArities_of_child rfl rfl]
  exact jumpsTo_pureCode h

/-- `deferEffect` has the loops of the effect. -/
theorem jumpsTo_deferEffect :
    (code c (.deferEffect a t)).JumpsTo (Term.deferEffect a t).loopArities := by
  rw [loopArities_of_child rfl rfl]
  exact jumpsTo_deferCode h

end

/-- A branch of `arms` and `default`. -/
theorem jumpsTo_branch {a : Analysis} {arms : List (Analyzed × Analyzed)} {default : Analyzed}
    (harms : ∀ arm ∈ arms, ∀ s ∈ [arm.1, arm.2], (code c s).JumpsTo s.loopArities)
    (hdefault : (code c default).JumpsTo default.loopArities) :
    (code c (.branch a arms default)).JumpsTo (Term.branch a arms default).loopArities := by
  have hshape : (Term.branch a arms default).loopArities =
      (arms.flatMap fun arm => arm.1.loopArities ++ arm.2.loopArities) ++
        default.loopArities := by
    rw [loopArities_of_children rfl, children, List.flatMap_append, List.flatMap_singleton,
      List.flatMap_assoc]
    simp
  rw [hshape, code, armCodes_eq_map]
  exact jumpsTo_branchCode (fun arm h => harms arm h _ (by simp))
    (fun arm h => harms arm h _ (by simp)) hdefault

/-! ### Recursive groups inside terms -/

/-- `letRec` becomes one loop of all `bindings` if it is flagged, and declarations of them if
not. -/
theorem jumpsTo_letRec {a : Analysis} {level : UInt32} {bindings : List (String × Analyzed)}
    {body : Analyzed} (hc : c.loops = true)
    (hloop : a.isLoop = true → FunctionGroup (bindings.map Prod.snd))
    (h : ∀ t ∈ bindings.map Prod.snd, (code c t).JumpsTo t.loopArities)
    (hbodies : ∀ t ∈ bindings.map Prod.snd, ∀ s ∈ t.children, (code c s).JumpsTo s.loopArities)
    (hbody : (code c body).JumpsTo body.loopArities) :
    (code c (.letRec a level bindings body)).JumpsTo
      (Term.letRec a level bindings body).loopArities := by
  have hshape : (Term.letRec a level bindings body).loopArities =
      (if a.isLoop && c.loops then [(bindings.map Prod.snd).map arity] else []) ++
        (bindings.map Prod.snd).flatMap loopArities ++ body.loopArities := by
    rw [loopArities_eq, hc, Bool.and_true, children, List.flatMap_append, List.flatMap_singleton,
      ← List.append_assoc, loopArities?]
    split <;> simp
  rw [hshape, code, bindingCodes_eq]
  refine jumpsTo_ofBlock fun mode => ?_
  refine Writes.bind (writes_groupDeclarations (by simp) (by simp [groupRefs]) ?_ ?_ h hbodies)
    fun decls => ?_
  · intro b hb
    obtain ⟨f, -, rfl⟩ := List.mem_map.1 hb
    rfl
  · intro hflag
    exact (hloop (Bool.and_eq_true_iff.1 hflag).1).functions
  · exact (hbody.block mode).map fun _ rest A' Gs' hrest A Gs hdecls => hdecls _ _ _ _ hrest

/-- If the flagged groups in `t` consist of functions, they are the loops that `code c t` writes,
and all jumps go to the innermost loop around them. The children are listed because a loop lowers
the body of a binding, not the binding. -/
theorem jumpsTo_code (hc : c.loops = true) (t : Analyzed) (hf : t.FlagsFunctions) :
    (code c t).JumpsTo t.loopArities ∧ ∀ s ∈ t.children, (code c s).JumpsTo s.loopArities := by
  induction t using children_induction with
  | step t ih =>
  have hchild (s : Analyzed) (hs : s ∈ t.children) : (code c s).JumpsTo s.loopArities :=
    (ih s hs (hf.child hs)).1
  -- the second half is what a loop needs of its members, whose bodies are not lowered as functions
  refine ⟨?_, hchild⟩
  cases t with
  | global => exact jumpsTo_global
  | bound => exact jumpsTo_bound
  | lit => exact jumpsTo_lit
  | constructor => exact jumpsTo_constructor
  | undefined => exact jumpsTo_undefined
  | fail => exact jumpsTo_fail
  | array => exact jumpsTo_array hchild
  | record => exact jumpsTo_record hchild
  | construct => exact jumpsTo_construct hchild
  | update a subject fields =>
    exact jumpsTo_update (fun s hs => hchild s (List.mem_cons_of_mem _ hs))
      (hchild subject (List.mem_cons_self ..))
  | access a subject => exact jumpsTo_access (hchild subject (List.mem_singleton.2 rfl))
  | test a subject => exact jumpsTo_test (hchild subject (List.mem_singleton.2 rfl))
  | unary a op operand => exact jumpsTo_unary (hchild operand (List.mem_singleton.2 rfl))
  | binary a op left right =>
    exact jumpsTo_binary (hchild left (by simp [children])) (hchild right (by simp [children]))
  | app a calling head args =>
    exact jumpsTo_app (hchild head (List.mem_cons_self ..))
      fun u hu => hchild u (List.mem_cons_of_mem _ hu)
  | abs a calling params body => exact jumpsTo_abs (hchild body (List.mem_singleton.2 rfl))
  | letIn a b value body =>
    exact jumpsTo_letIn (hchild value (by simp [children])) (hchild body (by simp [children]))
  | letRec a level bindings body =>
    refine jumpsTo_letRec hc (hf a level bindings body (mem_subterms_iff.2 (.inl rfl))) ?_ ?_
      (hchild body (by simp [children]))
    · exact fun s hs => hchild s (List.mem_append_left _ hs)
    · intro s hs
      have hs := List.mem_append_left [body] hs
      exact (ih s hs (hf.child hs)).2
  | bindEffect a b effect body =>
    exact jumpsTo_bindEffect (hchild effect (by simp [children]))
      (hchild body (by simp [children]))
  | pureEffect a value => exact jumpsTo_pureEffect (hchild value (List.mem_singleton.2 rfl))
  | deferEffect a effect => exact jumpsTo_deferEffect (hchild effect (List.mem_singleton.2 rfl))
  | branch a arms default =>
    refine jumpsTo_branch (fun arm harm s hs => hchild s ?_) (hchild default (by simp [children]))
    exact List.mem_append_left _ (List.mem_flatMap.2 ⟨arm, harm, hs⟩)

/-! ## Units -/

/-- What `m` writes at the start of a declaration jumps well: no loop is around it, and no name
claimed yet. -/
theorem jumpsWell_runIn {m : Lowering (List Stmt)} (h : WritesDecls m shape) (c : Context) :
    JumpsWell (m.runIn (.ofContext c)).result shape := by
  have hroomy : Roomy (Env.ofContext c).scopes := by simp [Roomy, Env.ofContext]
  obtain ⟨A, Gs, hclaims, hshape, hopens⟩ := h ⟨.ofContext c, [], none⟩ hroomy
  exact ⟨A, Gs, hopens.toBlock, hshape, hclaims.nodup, hclaims.apart⟩

/-- `binding` declares under `name` a value that jumps well. -/
theorem jumpsWell_binding {t : Analyzed} (name : String) (h : (code c t).JumpsTo t.loopArities) :
    JumpsWell (binding c name t).result t.loopArities := by
  refine jumpsWell_runIn (h.value.map fun _ e A Gs he => ?_) c
  exact .plain rfl (.one he)

/-- If `g` is a loop of curried functions, `group` writes that loop. -/
theorem group_eq_loop {g : AnalyzedGroup} (hc : c.loops = true) (hloop : g.isLoop = true)
    (hg : ∀ t ∈ g.bindings.map Prod.snd, ∃ a params body, t = .abs a .curried params body) :
    group c g = (loopDeclarations ((((g.bindings.map Prod.fst).zip (topRefs c.name g.bindings)).zip
      (g.bindings.map Prod.snd)).map (memberOf c)) (groupDispatcher? c g.bindings)).runIn
        (.ofContext c) := by
  have hmembers : topMembers? c g.bindings = some (((g.bindings.map Prod.fst).zip
      (topRefs c.name g.bindings)).zip (g.bindings.map Prod.snd) |>.map (memberOf c)) := by
    rw [topMembers?, bindingCodes_eq, loopMembers?_of_functions hg]
  rw [group, hmembers, hloop, hc]
  rfl

end TailLoop.Lower

namespace TailLoop

open Script Term

/-- The arities of the loops in each declaration of `g`: one declaration with all functions if `g`
is a loop, else one for each binding. -/
def AnalyzedGroup.loopShapes (g : AnalyzedGroup) : List (List (List Nat)) :=
  if g.isLoop then
    [(g.bindings.map Prod.snd).map arity :: (g.bindings.map Prod.snd).flatMap loopArities]
  else g.bindings.map fun b => b.2.loopArities

/-- `decls` consist of parts, one for each of `shapes`, whose jumps go to loops of their own with
these arities. -/
def Script.PartsJumpWell (decls : List Stmt) (shapes : List (List (List Nat))) : Prop :=
  ∃ parts : List (List Stmt × List (List Nat)), decls = parts.flatMap Prod.fst ∧
    parts.map Prod.snd = shapes ∧ ∀ part ∈ parts, JumpsWell part.1 part.2

/-- Parts after each other, for every `x` of `xs`. -/
theorem Script.PartsJumpWell.flatMap {ι : Type} {xs : List ι} {decls : ι → List Stmt}
    {shapes : ι → List (List (List Nat))} (h : ∀ x ∈ xs, PartsJumpWell (decls x) (shapes x)) :
    PartsJumpWell (xs.flatMap decls) (xs.flatMap shapes) := by
  induction xs with
  | nil => exact ⟨[], rfl, rfl, by nofun⟩
  | cons x rest ih =>
    obtain ⟨parts, hdecls, hshapes, hparts⟩ := h x (List.mem_cons_self ..)
    obtain ⟨others, hdecls', hshapes', hothers⟩ := ih fun y hy => h y (List.mem_cons_of_mem _ hy)
    refine ⟨parts ++ others, ?_, ?_, List.forall_mem_append.2 ⟨hparts, hothers⟩⟩
    · rw [List.flatMap_cons, List.flatMap_append, hdecls, hdecls']
    · rw [List.flatMap_cons, List.map_append, hshapes, hshapes']

/-- The declarations of the group `g` are parts that jump well. -/
theorem Lower.partsJumpWell_group {c : Lower.Context} (hc : c.loops = true) (m : String)
    (g : BindingGroup) :
    PartsJumpWell (Lower.group c (g.analyze m)).result (g.analyze m).loopShapes := by
  have hcode (t : Analyzed) (ht : t ∈ (g.analyze m).bindings.map Prod.snd) :
      (Lower.code c t).JumpsTo t.loopArities ∧
        ∀ s ∈ t.children, (Lower.code c s).JumpsTo s.loopArities := by
    obtain ⟨b, -, rfl⟩ := BindingGroup.exists_of_mem_analyze ht
    exact Lower.jumpsTo_code hc _ (flagsFunctions_analyze _ b.2)
  cases hloop : (g.analyze m).isLoop with
  | true =>
    have hfunctions := (functionGroup_group hloop).functions
    rw [Lower.group_eq_loop hc hloop hfunctions, AnalyzedGroup.loopShapes, if_pos hloop]
    -- a loop is one part
    refine ⟨[(_, _)], (List.flatMap_singleton ..).symm, rfl, ?_⟩
    rw [List.forall_mem_singleton]
    refine Lower.jumpsWell_runIn (Lower.writes_loopGroup _ (by simp) (by simp [topRefs])
      hfunctions fun t ht => (hcode t ht).2) c
  | false =>
    have hgroup : (Lower.group c (g.analyze m)).result =
        (g.analyze m).bindings.flatMap fun b => (Lower.binding c b.1 b.2).result := by
      rw [Lower.group, hloop, Bool.false_and]
      simp only [Lower.Outcome.result_concat, List.flatMap_map]
    rw [hgroup, AnalyzedGroup.loopShapes, if_neg (by rw [hloop]; exact Bool.false_ne_true)]
    -- otherwise every binding is a part of its own
    refine ⟨(g.analyze m).bindings.map fun b =>
      ((Lower.binding c b.1 b.2).result, b.2.loopArities), ?_, ?_, ?_⟩
    · rw [List.flatMap_map]
    · rw [List.map_map]
      rfl
    · refine List.forall_mem_map.2 fun b hb => ?_
      exact Lower.jumpsWell_binding b.1 (hcode b.2 (List.mem_map.2 ⟨b, hb, rfl⟩)).1

/-- Every jump is well formed and goes to its own loop. The declarations of a unit fall into parts,
one for each top-level group that is a loop and one for each binding of other groups. In a part, a
statement that starts the next round of a loop stands in the body of a loop of its own function, at
the end of a block, behind assignments of the selector to the number of a member, if the loop has
several, and of as many slots as this member has parameters, and no loop lies directly in another.
The loops are those that the analysis found, with these members and parameters, and nothing else in
the part assigns their variables. -/
theorem jumps_module (u : CompilationUnit) :
    PartsJumpWell (Lower.module u true).result.declarations
      (u.analyze.flatMap AnalyzedGroup.loopShapes) := by
  have hc : (Lower.Context.ofUnit u true).loops = true := (Lower.Context.ofUnit_fields u true).2.1
  have hdeclarations : (Lower.module u true).result.declarations =
      u.analyze.flatMap fun g => (Lower.group (.ofUnit u true) g).result := by
    have hconcat := Lower.Outcome.result_concat (u.analyze.map (Lower.group (.ofUnit u true)))
    rwa [List.flatMap_map] at hconcat
  rw [hdeclarations]
  refine .flatMap fun g' hg' => ?_
  obtain ⟨g, -, rfl⟩ := List.mem_map.1 hg'
  exact Lower.partsJumpWell_group hc u.name g

end TailLoop
