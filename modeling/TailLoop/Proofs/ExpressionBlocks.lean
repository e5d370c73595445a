import TailLoop.Proofs.Positions
import TailLoop.Lower.Code

/-!
# Blocks and expressions of one term

A term is lowered to a block, to an expression and to an expression that runs it by different steps.
They take the same names, write the same journal and end in the same state, and their results say
the same: the expression is the block read as an expression, or the call of a function with the
block as its body, and running a term calls its expression.

* `Script.asExpr?`: a block as an expression.
* `Code.Agrees`: the ways to lower a term agree.
* `agrees_code`: the ways to lower any term do.
* `value_block_run`: what that means for the lowering of a term in any state.
-/

namespace TailLoop.Script

/-- The expression that a `ret`, `retObject` or `retUndefined` returns. -/
def Stmt.result? : Stmt → Option Expr
  | .ret x | .retObject x => some x
  | .retUndefined => some .undefined
  | _ => none

mutual

/-- A statement as an expression, before others that stand for `rest`: a chain of blocks is a
conditional with that as its default, and a last statement that returns is what it returns. -/
def Stmt.asExpr? (last : Bool) (rest : Option Expr) : Stmt → Option Expr
  | .chain arms => armsAsExpr? rest arms
  | s => if last then s.result? else none

/-- A block as an expression: a last statement with a `result?` is what it returns, and a chain of
blocks before a default is a nested conditional. -/
def asExpr? : List Stmt → Option Expr
  | [] => none
  | s :: rest => s.asExpr? rest.isEmpty (asExpr? rest)

/-- The arms of a chain before `default` as a nested conditional. -/
def armsAsExpr? (default : Option Expr) : List (Expr × List Stmt) → Option Expr
  | [] => default
  | (cond, block) :: rest => do
    return .conditional cond (← asExpr? block) (← armsAsExpr? default rest)

end

/-- A single statement with the `result?` `x` is `x` as an expression. -/
theorem asExpr?_of_result? {s : Stmt} {x : Expr} (h : s.result? = some x) :
    asExpr? [s] = some x := by
  cases s with
  | ret | retObject | retUndefined => exact h
  | _ => cases h

end TailLoop.Script

namespace TailLoop.Lower

open Script Lowering Term

/-! ## Ways to lower a term -/

/-- `x` has the meaning of `block`: if the term is `simple`, it is `asExpr? block`, otherwise it
calls a function with `block` as its body. -/
def Restates (simple : Bool) (block : List Stmt) (x : Script.Expr) : Prop :=
  if simple then asExpr? block = some x else x = .immediate block

/-- `run` runs `x`: it calls `x`, or it is what the only statement of a function `x` without
parameters returns. -/
def Runs (x run : Script.Expr) : Prop :=
  run = .call x [] ∨ ∃ s : Stmt, x = .arrow [] [s] ∧ s.result? = some run

/-- From any state the ways to lower a term end in the same one, and the block, the statement and
the run say the same as the expression. -/
structure Code.Agrees (K : Code) (simple : Bool) : Prop where
  /-- The plain block does. -/
  block : ∀ p, (K.block .plain p).2 = (K.value p).2 ∧
    Restates simple (K.block .plain p).1 (K.value p).1
  /-- The statement does. -/
  returned : ∀ p, (K.returned p).2 = (K.value p).2 ∧
    (K.returned p).1.result? = some (K.value p).1
  /-- The run does. -/
  run : ∀ p, (K.run p).2 = (K.value p).2 ∧ Runs (K.value p).1 (K.run p).1

namespace Code

/-- `Code.ofReturn`: a value with a returning statement of its own. -/
theorem agrees_ofReturn {value : Lowering Script.Expr} {returned : Lowering Stmt}
    (h : ∀ p, (returned p).2 = (value p).2 ∧ (returned p).1.result? = some (value p).1) :
    (ofReturn value returned).Agrees true where
  block p := by
    obtain ⟨hstate, hresult⟩ := h p
    exact ⟨hstate, asExpr?_of_result? hresult⟩
  returned := h
  run _ := ⟨rfl, .inl rfl⟩

/-- `Code.ofValue`: a term that is an expression. -/
theorem agrees_ofValue (value : Lowering Script.Expr) : (ofValue value).Agrees true :=
  agrees_ofReturn fun _ => ⟨rfl, rfl⟩

/-- `Code.ofObject`: a term that is an object literal. -/
theorem agrees_ofObject (value : Lowering Script.Expr) : (ofObject value).Agrees true :=
  agrees_ofReturn fun _ => ⟨rfl, rfl⟩

/-- `ofBlock` agrees: its value is the call of a function with the block as its body. -/
theorem agrees_ofBlock (block : Mode → Lowering (List Stmt)) : (ofBlock block).Agrees false where
  block _ := ⟨rfl, rfl⟩
  returned _ := ⟨rfl, rfl⟩
  run _ := ⟨rfl, .inl rfl⟩

/-- `Code.ofEffect`: an effect, which is a function where it is not run. -/
theorem agrees_ofEffect {body : Lowering (List Stmt)} {run : Lowering Script.Expr}
    (block : Mode → Lowering (List Stmt))
    (h : ∀ p, (run p).2 = (body p).2 ∧ Runs (.arrow [] (body p).1) (run p).1) :
    (ofEffect body run block).Agrees true where
  block _ := ⟨rfl, rfl⟩
  returned _ := ⟨rfl, rfl⟩
  run := h

/-- `Agrees` depends on `value`, `returned`, `run` and the plain `block` only. -/
theorem Agrees.congr {K K' : Code} {simple : Bool} (h : K.Agrees simple)
    (hvalue : K'.value = K.value) (hreturned : K'.returned = K.returned) (hrun : K'.run = K.run)
    (hblock : K'.block .plain = K.block .plain) : K'.Agrees simple where
  block p := by
    rw [hblock, hvalue]
    exact h.block p
  returned p := by
    rw [hreturned, hvalue]
    exact h.returned p
  run p := by
    rw [hrun, hvalue]
    exact h.run p

end Code

/-! ## Branches -/

/-- If all arms agree and are simple, `conditionalExpr` is the expression of `armBlocks` before a
default. -/
theorem agrees_conditional {arms : List (Code × Code)} {default : Code}
    (harms : ∀ arm ∈ arms, arm.2.Agrees true) (hdefault : default.Agrees true) (p : Progress) :
    let blocks := armBlocks .plain arms p
    let rest := default.block .plain blocks.2
    rest.2 = (conditionalExpr arms default p).2 ∧
      armsAsExpr? (asExpr? rest.1) blocks.1 = some (conditionalExpr arms default p).1 := by
  induction arms generalizing p with
  | nil =>
    obtain ⟨hstate, hblock⟩ := hdefault.block p
    exact ⟨hstate, hblock⟩
  | cons arm arms ih =>
    obtain ⟨cond, body⟩ := arm
    obtain ⟨hbody, hrest⟩ := List.forall_mem_cons.1 harms
    obtain ⟨hstate, hblock⟩ := hbody.block (cond.value p).2
    obtain ⟨hstate', hblock'⟩ := ih hrest (body.value (cond.value p).2).2
    have hblocks : armBlocks .plain ((cond, body) :: arms) p =
        (((cond.value p).1, (body.block .plain (cond.value p).2).1) ::
            (armBlocks .plain arms (body.block .plain (cond.value p).2).2).1,
          (armBlocks .plain arms (body.block .plain (cond.value p).2).2).2) := rfl
    rw [hblocks, hstate]
    refine ⟨hstate', ?_⟩
    rw [armsAsExpr?, hblock']
    rw [show asExpr? (body.block .plain (cond.value p).2).1 =
      some (body.value (cond.value p).2).1 from hblock]
    rfl

/-- `branchCode` agrees if its arms and its default do. -/
theorem agrees_branchCode {simple : Bool} {arms : List (Code × Code)} {default : Code}
    (h : simple = true → (∀ arm ∈ arms, arm.2.Agrees true) ∧ default.Agrees true) :
    (branchCode simple arms default).Agrees simple := by
  cases simple with
  | false =>
    rw [branchCode, if_neg Bool.false_ne_true]
    exact Code.agrees_ofBlock _
  | true =>
    obtain ⟨harms, hdefault⟩ := h rfl
    have hvalue := Code.agrees_ofValue (conditionalExpr arms default)
    refine ⟨fun p => ?_, hvalue.returned, hvalue.run⟩
    obtain ⟨hstate, hblock⟩ := agrees_conditional harms hdefault p
    refine ⟨hstate, ?_⟩
    show asExpr? ((if (armBlocks .plain arms p).1.isEmpty then [] else
      [.chain (armBlocks .plain arms p).1]) ++ _) = _
    split
    · next hempty =>
      rw [List.isEmpty_iff.1 hempty] at hblock
      exact hblock
    · exact hblock

/-! ## Terms -/

/-- `armsSimple` means that the body of every arm is simple. -/
theorem isSimple_of_mem_arms {arms : List (Analyzed × Analyzed)} (h : armsSimple arms = true) :
    ∀ arm ∈ arms, isSimple arm.2 = true := by
  induction arms with
  | nil => nofun
  | cons arm arms ih =>
    rw [armsSimple, Bool.and_eq_true] at h
    exact List.forall_mem_cons.2 ⟨h.1, ih h.2⟩

/-- The `code` of every `t` agrees. -/
theorem agrees_code (c : Context) (t : Analyzed) : (code c t).Agrees (isSimple t) := by
  induction t using children_induction with
  | step t ih =>
  cases t with
  | global | bound | lit | array | access | constructor | test | unary | binary =>
    exact Code.agrees_ofValue _
  | record | update | construct => exact Code.agrees_ofObject _
  | app _ calling head args =>
    cases calling with
    | curried => exact (Code.agrees_ofValue _).congr rfl rfl rfl rfl
    | uncurried => exact Code.agrees_ofValue _
    | effectful => exact Code.agrees_ofEffect _ fun p => ⟨rfl, .inr ⟨_, rfl, rfl⟩⟩
  | abs _ calling params body =>
    cases calling with
    | curried => exact (Code.agrees_ofValue _).congr rfl rfl rfl rfl
    | uncurried | effectful => exact Code.agrees_ofValue _
  | letIn =>
    rw [code, letCode]
    exact Code.agrees_ofBlock _
  | letRec =>
    rw [code]
    exact Code.agrees_ofBlock _
  | fail => exact Code.agrees_ofBlock _
  | bindEffect | deferEffect => exact Code.agrees_ofEffect _ fun p => ⟨rfl, .inl rfl⟩
  | pureEffect _ value =>
    refine Code.agrees_ofEffect _ fun p => ?_
    obtain ⟨hstate, hresult⟩ := (ih value (List.mem_singleton.2 rfl)).returned p
    exact ⟨hstate.symm, .inr ⟨_, rfl, hresult⟩⟩
  | branch _ arms default =>
    rw [code, isSimple, armCodes_eq_map]
    refine agrees_branchCode fun hsimple => ?_
    rw [Bool.and_eq_true] at hsimple
    constructor
    · intro K hK
      obtain ⟨arm, harm, rfl⟩ := List.mem_map.1 hK
      have hbody := ih arm.2 (by
        rw [children]
        exact List.mem_append_left _ (List.mem_flatMap.2 ⟨arm, harm, by simp⟩))
      rwa [isSimple_of_mem_arms hsimple.1 arm harm] at hbody
    · have hdefault := ih default (by simp [children])
      rwa [hsimple.2] at hdefault
  | undefined => exact Code.agrees_ofReturn fun _ => ⟨rfl, rfl⟩

/-- From any state, lowering a term as a plain block, as an expression and as an expression that
runs it all end in the same state. The expression of a simple term is the block read as an
expression, and that of any other term calls a function with the block as its body. The expression
that runs the term calls its expression, or it is what that function returns if it has no parameters
and returns at once. -/
theorem value_block_run (c : Context) (t : Analyzed) (p : Progress) :
    ∃ block x run p', (code c t).block .plain p = (block, p') ∧ (code c t).value p = (x, p') ∧
      (code c t).run p = (run, p') ∧
      (if isSimple t then asExpr? block = some x else x = .immediate block) ∧
        (run = .call x [] ∨ ∃ s : Stmt, x = .arrow [] [s] ∧ s.result? = some run) := by
  have h := agrees_code c t
  obtain ⟨hblock, hrestates⟩ := h.block p
  obtain ⟨hrun, hruns⟩ := h.run p
  exact ⟨_, _, _, ((code c t).value p).2, Prod.ext rfl hblock, rfl, Prod.ext rfl hrun, hrestates,
    hruns⟩

end TailLoop.Lower
