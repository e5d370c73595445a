import TailLoop.Proofs.JumpLowering
import TailLoop.Proofs.LoopIndependence
import TailLoop.Proofs.LoweringSteps

/-!
# Blocks of loops and plain blocks

As the body of a loop, a term is lowered to the same block as in an ordinary function, except that a
call of a member of the loop in tail position is written as a jump instead of a returned call. The
jump assigns the very expressions that the call would pass, and both ways of lowering take the same
names, so they go on alike.

* `JumpsFor`: a block with jumps in the places of calls.
* `Lockstep`: two steps that go on alike as long as the second one meets no clash.
* `lockstep_code`: the two ways to lower a term as a block go on alike.
* `block_looping`: what that means for the lowering of any term in any state.
-/

namespace TailLoop.Lower

open Script Lowering Term

/-! ## Jumps in the places of calls -/

/-- The position among `s.members` of the member that a term calls with arguments one by one. -/
def LoopScope.called? (c : Context) (s : LoopScope) : Analyzed → Option Nat
  | .app _ .curried head _ =>
    (head.refIn? (some c.name)).bind fun r => s.members.findIdx? fun m => decide (m.1 = r)
  | _ => none

mutual

/-- The second block is the first one where every returned call of a member of the loop in tail
position is replaced by a jump: the selector gets the position of the member, the slots get the
arguments of the call in order, and the next round is started. Nothing else is different. -/
inductive JumpsFor (c : Context) (s : LoopScope) : Analyzed → List Stmt → List Stmt → Prop
  | jump {a : Analysis} {head : Analyzed} {args : List Analyzed} {i : Nat} {r : Ref}
      {f : Script.Expr} {values : List Script.Expr} :
      s.called? c (.app a .curried head args) = some i → s.members[i]? = some (r, args.length) →
      values.length = args.length →
      JumpsFor c s (.app a .curried head args) [.ret (values.foldl (fun f x => .call f [x]) f)]
        (jumpBlock s.selector i s.slots values)
  /-- What is no statement and calls no member is returned in both. -/
  | kept {t : Analyzed} {stmt : Stmt} : s.called? c t = none → t.isStatement = false →
      JumpsFor c s t [stmt] [stmt]
  | fail {a : Analysis} {message : String} :
      JumpsFor c s (.fail a message) [failure message] [failure message]
  | letIn {a : Analysis} {b : Binder} {value body : Analyzed} {x : String} {e : Script.Expr}
      {rest rest' : List Stmt} : JumpsFor c s body rest rest' →
      JumpsFor c s (.letIn a b value body) (.const x e :: rest) (.const x e :: rest')
  | letRec {a : Analysis} {level : UInt32} {bindings : List (String × Analyzed)} {body : Analyzed}
      {decls rest rest' : List Stmt} : JumpsFor c s body rest rest' →
      JumpsFor c s (.letRec a level bindings body) (decls ++ rest) (decls ++ rest')
  | branch {a : Analysis} {arms : List (Analyzed × Analyzed)} {default : Analyzed}
      {blocks blocks' : List (Script.Expr × List Stmt)} {rest rest' : List Stmt} :
      ArmsJumpFor c s arms blocks blocks' → JumpsFor c s default rest rest' →
      JumpsFor c s (.branch a arms default)
        ((if blocks.isEmpty then [] else [.chain blocks]) ++ rest)
        ((if blocks'.isEmpty then [] else [.chain blocks']) ++ rest')

/-- `JumpsFor` for the arms of a branch, with the same conditions in both. -/
inductive ArmsJumpFor (c : Context) (s : LoopScope) : List (Analyzed × Analyzed) →
    List (Script.Expr × List Stmt) → List (Script.Expr × List Stmt) → Prop
  | nil : ArmsJumpFor c s [] [] []
  | cons {cond body : Analyzed} {e : Script.Expr} {block block' : List Stmt}
      {arms : List (Analyzed × Analyzed)} {blocks blocks' : List (Script.Expr × List Stmt)} :
      JumpsFor c s body block block' → ArmsJumpFor c s arms blocks blocks' →
      ArmsJumpFor c s ((cond, body) :: arms) ((e, block) :: blocks) ((e, block') :: blocks')

end

/-! ## Two runs -/

variable {α β : Type} {S : List LoopScope}

/-- Inside the loops `S`, where the second step meets no clash, the first one meets none either, the
steps end in the same environment, and their results are related. -/
def Lockstep (S : List LoopScope) (m m' : Lowering α) (out : α → α → Prop) : Prop :=
  ∀ p p', p.env = p'.env → p.env.scopes = S → p.clash = none → (m' p').2.clash = none →
    (m p).2.clash = none ∧ (m p).2.env = (m' p').2.env ∧ out (m p).1 (m' p').1

namespace Lockstep

variable {m m' : Lowering α} {out : α → α → Prop} {outβ : β → β → Prop}

/-- A step `m` that is `Built` goes on like itself. -/
theorem refl (hm : Built m) : Lockstep S m m (· = ·) := by
  intro p p' henv hscopes hclash hclash'
  have hsame : p.clash.isSome = p'.clash.isSome := by rw [hclash, hm.clashed hclash']
  obtain ⟨hresult, henv', hclash''⟩ := hm.steady henv hsame
  rw [hclash'] at hclash''
  exact ⟨Option.isSome_eq_false_iff.1 hclash'' |> Option.isNone_iff_eq_none.1, henv', hresult⟩

/-- `Lockstep` steps can be followed by steps `k` and `k'` that are `Lockstep` for what the first
ones give. -/
theorem bind {k k' : α → Lowering β} (hm : Lockstep S m m' out) (hbuilt : Built m')
    (hbuilt' : ∀ a, Built (k' a)) (hk : ∀ a a', out a a' → Lockstep S (k a) (k' a') outβ) :
    Lockstep S (m >>= k) (m' >>= k') outβ := by
  intro p p' henv hscopes hclash hclash'
  have hmid : (m' p').2.clash = none := (hbuilt' _).clashed hclash'
  obtain ⟨hclash₁, henv₁, hout⟩ := hm p p' henv hscopes hclash hmid
  have hscopes₁ : (m p).2.env.scopes = S := by rw [henv₁, hbuilt.scopes, ← henv, hscopes]
  exact hk _ _ hout _ _ henv₁ hscopes₁ hclash₁ hclash'

/-- The results of `Lockstep` steps can be wrapped in `f` and `f'`. -/
theorem map {f f' : α → β} (hm : Lockstep S m m' out) (hf : ∀ a a', out a a' → outβ (f a) (f' a')) :
    Lockstep S (do return f (← m)) (do return f' (← m')) outβ := by
  intro p p' henv hscopes hclash hclash'
  obtain ⟨hclash₁, henv₁, hout⟩ := hm p p' henv hscopes hclash hclash'
  exact ⟨hclash₁, henv₁, hf _ _ hout⟩

end Lockstep

/-! ## Calls -/

variable {c : Context} {s : LoopScope} {a : Analysis} {head : Analyzed} {args : List Analyzed}

/-- `callEach` computes `callee`, then all of `args`, and applies the one to the others in order. -/
theorem callEach_eq (callee : Lowering Script.Expr) (args : List (Lowering Script.Expr)) :
    callEach callee args = do
      let f ← callee
      let values ← all args
      return values.foldl (fun f x => .call f [x]) f := by
  induction args generalizing callee with
  | nil => rfl
  | cons arg rest ih =>
    -- the callee of the remaining arguments is the call with the first one
    have hnext := ih do
      let f ← callee
      let x ← arg
      return .call f [x]
    exact hnext

/-- The value of a `head` that `refIn?` knows is written without any effect on the state. -/
theorem value_of_ref {r : Ref} (h : head.refIn? (some c.name) = some r) :
    ∃ f : Progress → Script.Expr, ∀ p, (code c head).value p = (f p, p) := by
  cases head with
  | global a q => exact ⟨fun _ => globalExpr c q, fun _ => rfl⟩
  | bound a b => exact ⟨fun p => .ident (p.env.lookup b), fun _ => rfl⟩
  | _ => cases h

/-- If `called?` finds the member `i`, `head` refers to it and `findIn` finds it in the innermost
scope. -/
theorem called?_app {i : Nat} (h : s.called? c (.app a .curried head args) = some i) :
    ∃ r arity, head.refIn? (some c.name) = some r ∧ s.members[i]? = some (r, arity) ∧
      ∀ S, Env.findIn r 0 (s :: S) = some ⟨s, i, arity, 0⟩ := by
  obtain ⟨r, href, hi⟩ := Option.bind_eq_some_iff.1 h
  obtain ⟨hlt, hr, -⟩ := List.findIdx?_eq_some_iff_getElem.1 hi
  have hget : s.members[i]? = some s.members[i] := List.getElem?_eq_getElem hlt
  have hmember : s.members[i] = (r, s.members[i].2) := Prod.ext (of_decide_eq_true hr) rfl
  refine ⟨r, s.members[i].2, href, hget.trans (congrArg some hmember), fun S => ?_⟩
  rw [Env.findIn, hi]
  simp [hget]

/-- If `called?` finds no member, `jump?` returns nothing and takes no names. -/
theorem jump?_of_called?_eq_none (h : s.called? c (.app a .curried head args) = none)
    (values : List (Lowering Script.Expr)) {p : Progress} (hp : p.env.scopes = s :: S) :
    ∃ p₁, jump? (head.refIn? (some c.name)) values p = (none, p₁) ∧ p₁.env = p.env := by
  cases href : head.refIn? (some c.name) with
  | none => exact ⟨p, rfl, rfl⟩
  | some r =>
  rw [jump?_run]
  cases hfind : p.env.findJump? r with
  | none => exact ⟨p, rfl, rfl⟩
  | some j =>
    -- the member was found in a loop further out
    have houter : 0 < j.exited := by
      rw [LoopScope.called?, href, Option.bind_some] at h
      rw [Env.findJump?, hp, Env.findIn, h] at hfind
      exact le_exited_findIn hfind
    simp only [houter, if_true]
    exact ⟨_, rfl, rfl⟩

/-- A call of a member with a number of values other than its arity is a clash. -/
theorem clash_of_arity_ne {r : Ref} {j : Jump} {callee : Lowering Script.Expr}
    {values : List (Lowering Script.Expr)} (hcallee : Built callee)
    (hvalues : ∀ m ∈ values, Built m) (hj : Env.findIn r 0 S = some j) (hexited : j.exited = 0)
    (harity : j.arity ≠ values.length) {p : Progress} (hp : p.env.scopes = S) :
    ((appCode (some r) callee values).block .looping p).2.clash ≠ none := by
  have hfind : p.env.findJump? r = some j := by rw [Env.findJump?, hp, hj]
  have hjump : jump? (some r) values p = (do clash ⟨r, values.length, j.arity⟩; return none) p := by
    rw [jump?_run, hfind]
    simp only [hexited, Nat.lt_irrefl, if_false, harity, ne_eq, not_false_iff, if_true]
  intro hclash
  have hreturned : Built (Code.ofValue (callEach callee values)).returned :=
    (built_callEach hcallee hvalues).map
  simp only [appCode, Mode.looping, if_true, bind, StateT.bind, hjump] at hclash
  cases hreturned.map.clashed hclash

/-! ## Terms -/

/-- A call for which `called?` finds no member is returned in both blocks. -/
theorem lockstep_call (S : List LoopScope)
    (hcalled : s.called? c (.app a .curried head args) = none) :
    Lockstep (s :: S) ((code c (.app a .curried head args)).block .plain)
      ((code c (.app a .curried head args)).block .looping)
      (JumpsFor c s (.app a .curried head args)) := by
  intro p p' henv hscopes hclash hclash'
  obtain ⟨p₁, hjump, henv₁⟩ :=
    jump?_of_called?_eq_none hcalled (valueCodes c args) (henv ▸ hscopes)
  -- both calls are returned; the second one is written after a report
  have hloop : (code c (.app a .curried head args)).block .looping p' =
      (code c (.app a .curried head args)).block .plain p₁ := by
    simp only [code, appCode, Mode.looping, if_true, bind, StateT.bind]
    rw [show head.ref?.map (Ref.within c.name) = head.refIn? (some c.name) from rfl, hjump]
    rfl
  obtain ⟨hclash₁, henv₂, hresult⟩ := Lockstep.refl ((built_code c _).block .plain) p p₁
    (henv.trans henv₁.symm) hscopes hclash (hloop ▸ hclash')
  rw [hloop]
  exact ⟨hclash₁, henv₂, hresult ▸ .kept hcalled rfl⟩

/-- A call for which `called?` finds a member is returned in the plain block and a jump in the
looping one. -/
theorem lockstep_jump (S : List LoopScope) {i : Nat}
    (hcalled : s.called? c (.app a .curried head args) = some i) :
    Lockstep (s :: S) ((code c (.app a .curried head args)).block .plain)
      ((code c (.app a .curried head args)).block .looping)
      (JumpsFor c s (.app a .curried head args)) := by
  intro p p' henv hscopes hclash hclash'
  have hscopes' : p'.env.scopes = s :: S := henv ▸ hscopes
  have hvalues : ∀ m ∈ valueCodes c args, Built m := by
    rw [valueCodes_eq_map]
    exact List.forall_mem_map.2 fun t _ => (built_code c t).value
  obtain ⟨r, arity, href, hmember, hfind⟩ := called?_app hcalled
  obtain ⟨f, hf⟩ := value_of_ref href
  have href' : head.ref?.map (Ref.within c.name) = some r := href
  rw [code, href'] at hclash' ⊢
  -- a call with another number of arguments is a clash, which is excluded
  by_cases harity : arity = (valueCodes c args).length
  · have hlen : arity = args.length := by
      rw [harity, valueCodes_eq_map, List.length_map]
    have hloop : (appCode (some r) (code c head).value (valueCodes c args)).block .looping p' =
        (do return jumpStmts ⟨s, i, arity, 0⟩ (← all (valueCodes c args))) p' :=
      block_appCode (hfind S) rfl harity p' hscopes'
    -- the plain block applies the name of the member to the values, which the jump assigns instead
    have hplain : (appCode (some r) (code c head).value (valueCodes c args)).block .plain p =
        ([.ret ((all (valueCodes c args) p).1.foldl (fun f x => .call f [x]) (f p))],
          (all (valueCodes c args) p).2) := by
      show (do return [Stmt.ret (← callEach (code c head).value (valueCodes c args))]) p = _
      rw [callEach_eq]
      simp only [bind, StateT.bind, hf]
      rfl
    rw [hloop] at hclash' ⊢
    rw [hplain]
    obtain ⟨hclash₁, henv₁, hresult⟩ :=
      Lockstep.refl (Built.all hvalues) p p' henv hscopes hclash hclash'
    refine ⟨hclash₁, henv₁, ?_⟩
    have hlength : (all (valueCodes c args) p).1.length = args.length := by
      rw [length_all, ← harity, hlen]
    have hstmts : ((do return jumpStmts ⟨s, i, arity, 0⟩ (← all (valueCodes c args))) p').1 =
        jumpBlock s.selector i s.slots (all (valueCodes c args) p).1 :=
      congrArg (jumpStmts ⟨s, i, arity, 0⟩) hresult.symm
    exact hstmts ▸ .jump hcalled (hlen ▸ hmember) hlength
  · exact absurd hclash'
      (clash_of_arity_ne (built_code c head).value hvalues (hfind S) rfl harity hscopes')

/-- A term whose blocks are equal in both modes is kept as it is. -/
theorem lockstep_kept {t : Analyzed} (hcalled : s.called? c t = none)
    (hstatement : t.isStatement = false)
    (hsame : (code c t).block .looping = (code c t).block .plain)
    (hsingle : Gives ((code c t).block .plain) fun block => ∃ stmt, block = [stmt]) :
    Lockstep (s :: S) ((code c t).block .plain) ((code c t).block .looping) (JumpsFor c s t) := by
  rw [hsame]
  intro p p' henv hscopes hclash hclash'
  obtain ⟨hclash₁, henv₁, hresult⟩ :=
    Lockstep.refl ((built_code c t).block .plain) p p' henv hscopes hclash hclash'
  refine ⟨hclash₁, henv₁, ?_⟩
  obtain ⟨stmt, hstmt⟩ := hsingle p
  rw [← hresult, hstmt]
  exact .kept hcalled hstatement

/-- `armBlocks`: the arms of a branch with blocks of their own. -/
theorem lockstep_armBlocks {arms : List (Analyzed × Analyzed)}
    (h : ∀ arm ∈ arms, Lockstep (s :: S) ((code c arm.2).block .plain)
      ((code c arm.2).block .looping) (JumpsFor c s arm.2)) :
    Lockstep (s :: S) (armBlocks .plain (armCodes c arms)) (armBlocks .looping (armCodes c arms))
      (ArmsJumpFor c s arms) := by
  induction arms with
  | nil => exact fun p p' henv _ hclash _ => ⟨hclash, henv, .nil⟩
  | cons arm rest ih =>
    obtain ⟨cond, body⟩ := arm
    obtain ⟨hbody, hrest⟩ := List.forall_mem_cons.1 h
    have harms : Built (armBlocks .looping (armCodes c rest)) := by
      rw [armCodes_eq_map]
      exact built_armBlocks (List.forall_mem_map.2 fun arm _ => ⟨built_code c _, built_code c _⟩)
    have hblock := (built_code c body).block .looping
    refine .bind (.refl (built_code c cond).value) (built_code c cond).value
      (fun _ => hblock.bind fun _ => harms.map) fun e _ heq => ?_
    subst heq
    refine .bind hbody hblock (fun _ => harms.map) fun block block' hjumps => ?_
    exact (ih hrest).map fun blocks blocks' hblocks => .cons hjumps hblocks

/-- The looping block of `t` `JumpsFor` the plain one, in every state whose innermost loop is
`s`. -/
theorem lockstep_code (c : Context) (s : LoopScope) (S : List LoopScope) (t : Analyzed) :
    Lockstep (s :: S) ((code c t).block .plain) ((code c t).block .looping) (JumpsFor c s t) := by
  induction t using children_induction with
  | step t ih =>
  have hsingle {m : Lowering Stmt} : Gives (do return [← m]) fun block => ∃ stmt, block = [stmt] :=
    (Gives.any m).map fun stmt _ => ⟨stmt, rfl⟩
  cases t with
  | app a calling head args =>
    cases calling with
    | curried =>
      -- the only place where the modes differ
      cases hcalled : s.called? c (.app a .curried head args) with
      | none => exact lockstep_call S hcalled
      | some i => exact lockstep_jump S hcalled
    | uncurried => exact lockstep_kept rfl rfl rfl hsingle
    | effectful => exact lockstep_kept rfl rfl rfl ((Gives.any _).map fun _ _ => ⟨_, rfl⟩)
  | letIn a b value body =>
    have hblock := (built_code c body).block .looping
    have hvalue := (built_code c value).value
    -- the value stands in no tail position and is written alike
    refine .bind (.refl hvalue) hvalue (fun _ => (Built.bindName b).bind fun _ => hblock.map)
      fun e _ heq => ?_
    subst heq
    refine .bind (.refl (.bindName b)) (.bindName b) (fun _ => hblock.map) fun name _ heq => ?_
    subst heq
    exact (ih body (by simp [children])).map fun rest rest' hrest => .letIn hrest
  | letRec a level bindings body =>
    have hblock := (built_code c body).block .looping
    have hgroup : Built (groupDeclarations (a.isLoop && c.loops)
        (bindings.all fun b => isFunction b.2) (groupRefs level bindings)
        (bindings.map fun b => ⟨some b.1, level⟩) (bindingCodes c bindings)) := by
      rw [bindingCodes_eq]
      exact built_groupDeclarations fun t _ => built_code c t
    refine .bind (.refl hgroup) hgroup (fun _ => hblock.map) fun declarations _ heq => ?_
    subst heq
    exact (ih body (by simp [children])).map fun rest rest' hrest => .letRec hrest
  | branch a arms default =>
    -- simple or not, a branch is a chain of blocks in these modes
    have hform (mode : Mode) : (code c (.branch a arms default)).block mode = do
        let blocks ← armBlocks mode (armCodes c arms)
        let rest ← (code c default).block mode
        return (if blocks.isEmpty then [] else [.chain blocks]) ++ rest := by
      rw [code, branchCode]
      split <;> rfl
    have hblock := (built_code c default).block .looping
    have harms : Built (armBlocks .looping (armCodes c arms)) := by
      rw [armCodes_eq_map]
      exact built_armBlocks (List.forall_mem_map.2 fun arm _ => ⟨built_code c _, built_code c _⟩)
    rw [hform, hform]
    refine .bind (lockstep_armBlocks fun arm harm => ?_) harms (fun _ => hblock.map)
      fun blocks blocks' hblocks => ?_
    · exact ih arm.2 (List.mem_append_left _ (List.mem_flatMap.2 ⟨arm, harm, by simp⟩))
    · exact (ih default (by simp [children])).map fun rest rest' hrest => .branch hblocks hrest
  | fail a message => exact fun p p' henv _ hclash _ => ⟨hclash, henv, .fail⟩
  | bindEffect a b effect body =>
    exact lockstep_kept rfl rfl rfl ((Gives.any _).map fun _ _ => ⟨_, rfl⟩)
  | pureEffect a value => exact lockstep_kept rfl rfl rfl ((Gives.any _).map fun _ _ => ⟨_, rfl⟩)
  | deferEffect a effect => exact lockstep_kept rfl rfl rfl ((Gives.any _).map fun _ _ => ⟨_, rfl⟩)
  | abs a calling params body =>
    cases calling <;> exact lockstep_kept rfl rfl rfl hsingle
  | _ => exact lockstep_kept rfl rfl rfl hsingle

/-- **A jump is the only difference that a loop makes.** Let a term be lowered as the body of a loop
from some state whose innermost loop is `s`, without a call of a member with a wrong number of
arguments. As a plain block it is lowered from that state without a clash too; the names, the
counters and the loops are the same afterwards, and the blocks are the same but for the jumps that
stand in the places of calls. -/
theorem block_looping (c : Context) (t : Analyzed) {s : LoopScope} {p : Progress}
    (hscopes : p.env.scopes = s :: S)
    (hcompletes : ((code c t).block .looping p).2.clash = none) :
    ((code c t).block .plain p).2.clash = none ∧
      ((code c t).block .plain p).2.env = ((code c t).block .looping p).2.env ∧
      JumpsFor c s t ((code c t).block .plain p).1 ((code c t).block .looping p).1 :=
  lockstep_code c s S t p p rfl hscopes (((built_code c t).block .looping).clashed hcompletes)
    hcompletes

/-- The body of a function `go` that counts down, inside its loop. -/
def countdownStep : Analyzed :=
  let n : Binder := ⟨some "n", 0⟩
  let m : Binder := ⟨some "m", 1⟩
  .branch default [(.bound default n, .bound default n)]
    (.letIn default m (.binary default .sub (.bound default n) (.lit default (.int 1)))
      (.app default .curried (.global default ⟨none, "go"⟩) [.bound default m]))

/-- The loop of `go`. -/
def countdownLoop : LoopScope := ⟨"go", [(.global ⟨some "Main", "go"⟩, 1)], none, ["go$n"]⟩

/-- The state in which `countdownStep` is written, inside `countdownLoop`. -/
def countdownState : Progress :=
  ⟨(Env.ofContext ⟨"Main", true, [], ["go"], .empty⟩).push countdownLoop, [], none⟩

/-- The body that counts down is written without a clash, so its jump stands in place of its
call. -/
theorem block_looping_countdownStep :
    let c : Context := ⟨"Main", true, [], ["go"], .empty⟩
    countdownState.env.scopes = [countdownLoop] ∧
      ((code c countdownStep).block .looping countdownState).2.clash = none ∧
      JumpsFor c countdownLoop countdownStep
        ((code c countdownStep).block .plain countdownState).1
        ((code c countdownStep).block .looping countdownState).1 := by
  have hcompletes : ((code ⟨"Main", true, [], ["go"], .empty⟩ countdownStep).block .looping
      countdownState).2.clash = none := by rfl
  exact ⟨rfl, hcompletes, (block_looping _ _ rfl hcompletes).2.2⟩

end TailLoop.Lower
