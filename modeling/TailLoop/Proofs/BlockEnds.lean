import TailLoop.Proofs.LoopLowering

/-!
# Ends of blocks

No block that the lowering writes can be left at its end, and nothing in it stands behind a
statement that leaves it. Hence an arm of a chain never goes on with what follows the chain, and in
a shared loop the code of one member never runs into that of the next.

* `Script.ends`: a block leaves at its last statement and not before, and so do the arms in it.
* `Gives`: what a lowering step gives, whatever the state is.
* `ends_code`: the blocks of all terms end, in every mode.
-/

namespace TailLoop.Script

/-! ## Blocks that end -/

/-- Whether the statement leaves its block: a `return`, a `throw` or a `continue`. -/
def Stmt.isTerminator : Stmt → Bool
  | .ret _ | .retObject _ | .retUndefined | .throw _ | .again => true
  | _ => false

mutual

/-- Whether the last statement of a block leaves it and no earlier one does, and the same holds of
the arms of every `chain` in it. -/
def ends : List Stmt → Bool
  | [] => false
  | [s] => s.isTerminator
  | s :: s' :: rest => !s.isTerminator && s.armsEnd && ends (s' :: rest)

/-- Whether all arms end, if the statement is a `chain`. -/
def Stmt.armsEnd : Stmt → Bool
  | .chain arms => allEnd arms
  | _ => true

/-- Whether the blocks of all arms satisfy `ends`. -/
def allEnd : List (Expr × List Stmt) → Bool
  | [] => true
  | (_, block) :: rest => ends block && allEnd rest

end

/-- Whether the block may go on behind `s`, none of whose arms runs on. -/
def Stmt.goesOn (s : Stmt) : Bool := !s.isTerminator && s.armsEnd

/-- `allEnd` asks of each arm that its block ends. -/
theorem allEnd_iff {arms : List (Expr × List Stmt)} :
    allEnd arms = true ↔ ∀ arm ∈ arms, ends arm.2 = true := by
  induction arms with
  | nil => simp [allEnd]
  | cons arm rest ih =>
    obtain ⟨cond, block⟩ := arm
    simp [allEnd, ih]

/-- Behind a `chain` the block goes on exactly if each of its `arms` ends. -/
theorem goesOn_chain {arms : List (Expr × List Stmt)} :
    (Stmt.chain arms).goesOn = true ↔ ∀ arm ∈ arms, ends arm.2 = true := by
  rw [← allEnd_iff]
  simp [Stmt.goesOn, Stmt.isTerminator, Stmt.armsEnd]

/-- A statement `s` that goes on can be put in front of a block that ends. -/
theorem ends_cons {s : Stmt} {rest : List Stmt} (hs : s.goesOn = true) (hrest : ends rest = true) :
    ends (s :: rest) = true := by
  cases rest with
  | nil => simp [ends] at hrest
  | cons s' rest => rw [ends, hrest, Bool.and_true]; exact hs

/-- So can a list `pre` of statements that go on. -/
theorem ends_append {pre rest : List Stmt} (hpre : ∀ s ∈ pre, s.goesOn = true)
    (hrest : ends rest = true) : ends (pre ++ rest) = true := by
  induction pre with
  | nil => exact hrest
  | cons s pre ih =>
    refine ends_cons (hpre s (List.mem_cons_self ..)) (ih fun s' hs' => ?_)
    exact hpre s' (List.mem_cons_of_mem _ hs')

end TailLoop.Script

namespace TailLoop.Lower

open Script Lowering Term

/-! ## Steps and what they give -/

variable {α β : Type}

/-- Whatever the state is, the result of `m` is as `out` says. -/
def Gives (m : Lowering α) (out : α → Prop) : Prop := ∀ p, out (m p).1

section Gives

variable {out out' : α → Prop} {outβ : β → Prop} {m : Lowering α}

/-- `pure a` gives what is known of `a`. -/
theorem Gives.pure {a : α} (h : out a) : Gives (pure a) out := fun _ => h

/-- What `m >>= k` gives is what `k` gives for the results of `m`. -/
theorem Gives.bind {k : α → Lowering β} (hm : Gives m out) (hk : ∀ a, out a → Gives (k a) outβ) :
    Gives (m >>= k) outβ := fun p => hk _ (hm p) (m p).2

/-- What is known of the result of `m` can be weakened to `out'`. -/
theorem Gives.mono (hm : Gives m out) (h : ∀ a, out a → out' a) : Gives m out' :=
  fun p => h _ (hm p)

/-- A result of `m` that is wrapped in `f`. -/
theorem Gives.map {f : α → β} (hm : Gives m out) (h : ∀ a, out a → outβ (f a)) :
    Gives (do return f (← m)) outβ := fun p => h _ (hm p)

/-- Of every step `m` the trivial fact is known. -/
theorem Gives.any (m : Lowering α) : Gives m fun _ => True := fun _ => trivial

/-- Two facts `out` and `out'` about the result of `m` hold together. -/
theorem Gives.and (hm : Gives m out) (hm' : Gives m out') : Gives m fun a => out a ∧ out' a :=
  fun p => ⟨hm p, hm' p⟩

/-- If every step in `ms` gives `out`, then `out` holds of all results of `all ms`. -/
theorem gives_all {ms : List (Lowering α)} (h : ∀ m ∈ ms, Gives m out) :
    Gives (all ms) fun as => ∀ a ∈ as, out a := by
  induction ms with
  | nil => exact .pure (by nofun)
  | cons m rest ih =>
    refine (h m (List.mem_cons_self ..)).bind fun a ha => ?_
    refine (ih fun m' hm' => h m' (List.mem_cons_of_mem _ hm')).bind fun as has => .pure ?_
    exact List.forall_mem_cons.2 ⟨ha, has⟩

/-- `freshNames bases` gives as many names as there are `bases`. -/
theorem gives_freshNames (bases : List String) :
    Gives (freshNames bases) fun names => names.length = bases.length := by
  induction bases with
  | nil => exact .pure rfl
  | cons base rest ih =>
    exact (Gives.any _).bind fun name _ => ih.map fun names h => congrArg (· + 1) h

/-- Inside the loop `s`, the step `m` gives what it gives elsewhere. -/
theorem gives_inLoop {s : LoopScope} (hm : Gives m out) : Gives (inLoop s m) out :=
  fun p => hm { (report .trace ("enter loop " ++ s.label) p).2 with
    env := (report .trace ("enter loop " ++ s.label) p).2.env.push s }

end Gives

/-! ## Blocks of terms -/

/-- The statement of `K` that returns leaves the block, and all blocks of `K` end. -/
structure Code.Ends (K : Code) : Prop where
  /-- `returned` gives a statement that leaves. -/
  returned : Gives K.returned fun s => s.isTerminator = true
  /-- In every mode `block` gives a block that ends. -/
  block : ∀ mode, Gives (K.block mode) fun b => ends b = true

variable {K K' : Code}

/-- A value with a `returned` statement of its own, which has to leave. -/
theorem ends_ofReturn {value : Lowering Script.Expr} {returned : Lowering Stmt}
    (h : Gives returned fun s => s.isTerminator = true) : (Code.ofReturn value returned).Ends where
  returned := h
  block mode := by
    simp only [Code.ofReturn]
    split
    · exact (Gives.any value).map fun _ _ => rfl
    · exact h.map fun _ hs => hs

/-- The `value` of an expression is returned. -/
theorem ends_ofValue (value : Lowering Script.Expr) : (Code.ofValue value).Ends :=
  ends_ofReturn ((Gives.any value).map fun _ _ => rfl)

/-- So is an object literal `value`. -/
theorem ends_ofObject (value : Lowering Script.Expr) : (Code.ofObject value).Ends :=
  ends_ofReturn ((Gives.any value).map fun _ _ => rfl)

/-- A term given by its `block` in every mode. -/
theorem ends_ofBlock {block : Mode → Lowering (List Stmt)}
    (h : ∀ mode, Gives (block mode) fun b => ends b = true) : (Code.ofBlock block).Ends :=
  ⟨(Gives.any (block .plain)).map fun _ _ => rfl, h⟩

/-- An effect, whose `block` is written where it is run and returned elsewhere. -/
theorem ends_ofEffect {body : Lowering (List Stmt)} {run : Lowering Script.Expr}
    {block : Mode → Lowering (List Stmt)} (h : ∀ mode, Gives (block mode) fun b => ends b = true) :
    (Code.ofEffect body run block).Ends where
  returned := (Gives.any body).map fun _ _ => rfl
  block mode := by
    simp only [Code.ofEffect]
    split
    · exact h mode
    · exact (Gives.any body).map fun _ _ => rfl

/-- `jumpStmts` assigns the slots and ends with `continue`. -/
theorem ends_jumpStmts (j : Jump) (values : List Script.Expr) :
    ends (jumpStmts j values) = true := by
  refine ends_append (fun s hs => ?_) rfl
  rcases List.mem_append.1 hs with hs | hs
  · obtain ⟨x, -, rfl⟩ := Option.map_eq_some_iff.1 (Option.mem_toList.1 hs)
    rfl
  · obtain ⟨q, -, rfl⟩ := List.mem_map.1 hs
    rfl

/-- If `jump?` makes statements of a call, they end. -/
theorem gives_jump? (r? : Option Ref) (args : List (Lowering Script.Expr)) :
    Gives (jump? r? args) fun stmts? => ∀ stmts, stmts? = some stmts → ends stmts = true := by
  cases r? with
  | none => exact .pure (by nofun)
  | some r =>
    refine (Gives.any (jumpTo? r)).bind fun j? _ => ?_
    cases j? with
    | none => exact .pure (by nofun)
    | some j =>
      simp only
      split
      · exact (Gives.any _).bind fun _ _ => .pure (by nofun)
      · split
        · exact (Gives.any _).bind fun _ _ => .pure (by nofun)
        · refine (Gives.any (all args)).bind fun values _ => .pure ?_
          rintro _ ⟨⟩
          exact ends_jumpStmts j values

/-- `appCode` jumps or returns the call. -/
theorem ends_appCode (r? : Option Ref) (callee : Lowering Script.Expr)
    (args : List (Lowering Script.Expr)) : (appCode r? callee args).Ends := by
  have hplain := ends_ofValue (callEach callee args)
  refine ⟨hplain.returned, fun mode => ?_⟩
  simp only [appCode]
  split
  · refine (gives_jump? r? args).bind fun stmts? hstmts => ?_
    cases stmts? with
    | none => exact hplain.returned.map fun _ hs => hs
    | some stmts => exact .pure (hstmts stmts rfl)
  · exact hplain.block mode

/-- `letCode` declares `b` in front of the block of its body `K'`. -/
theorem ends_letCode (b : Binder) (h : K'.Ends) : (letCode b K K').Ends := by
  refine ends_ofBlock fun mode => ?_
  refine (Gives.any K.value).bind fun e _ => (Gives.any (bindName b)).bind fun name _ => ?_
  exact (h.block mode).map fun rest hrest => ends_cons rfl hrest

/-- The statement of `bindStmt` goes on, whether `b` has a name or not. -/
theorem gives_bindStmt (b : Binder) (e : Script.Expr) :
    Gives (bindStmt b e) fun s => s.goesOn = true := by
  unfold bindStmt
  split
  · exact (Gives.any (bindName b)).map fun _ _ => rfl
  · exact .pure rfl

/-- `bindCode` runs an effect in front of the block of `K'`. -/
theorem ends_bindCode (b : Binder) (h : K'.Ends) : (bindCode b K K').Ends := by
  refine ends_ofEffect fun mode => ?_
  refine (Gives.any K.run).bind fun e _ => (gives_bindStmt b e).bind fun s hs => ?_
  exact (h.block mode).map fun rest hrest => ends_cons hs hrest

/-- `pureCode` returns what `K` returns. -/
theorem ends_pureCode (h : K.Ends) : (pureCode K).Ends :=
  ends_ofEffect fun _ => h.returned.map fun _ hs => hs

/-- `deferCode` runs the block of `K`. -/
theorem ends_deferCode (h : K.Ends) : (deferCode K).Ends := ends_ofEffect h.block

/-- The blocks of `armBlocks` end if those of all `arms` do. -/
theorem gives_armBlocks {mode : Mode} {arms : List (Code × Code)}
    (h : ∀ arm ∈ arms, arm.2.Ends) :
    Gives (armBlocks mode arms) fun blocks => ∀ arm ∈ blocks, ends arm.2 = true := by
  induction arms with
  | nil => exact .pure (by nofun)
  | cons arm rest ih =>
    refine (Gives.any arm.1.value).bind fun e _ => ?_
    refine ((h arm (List.mem_cons_self ..)).block mode).bind fun block hblock => ?_
    refine (ih fun arm' harm' => h arm' (List.mem_cons_of_mem _ harm')).map fun blocks hblocks => ?_
    exact List.forall_mem_cons.2 ⟨hblock, hblocks⟩

/-- In `branchCode`, the arms end, and the default `K` comes after the chain. -/
theorem ends_branchCode {simple : Bool} {arms : List (Code × Code)}
    (harms : ∀ arm ∈ arms, arm.2.Ends) (hdefault : K.Ends) : (branchCode simple arms K).Ends := by
  have hblock (mode : Mode) : Gives (do
      let blocks ← armBlocks mode arms
      let rest ← K.block mode
      return (if blocks.isEmpty then [] else [Stmt.chain blocks]) ++ rest) fun b =>
      ends b = true := by
    refine (gives_armBlocks harms).bind fun blocks hblocks => ?_
    refine (hdefault.block mode).map fun rest hrest => ends_append (fun s hs => ?_) hrest
    -- the chain is the only statement in front, if there is one
    cases blocks with
    | nil => cases hs
    | cons arm blocks =>
      obtain rfl := List.mem_singleton.1 hs
      exact goesOn_chain.2 hblocks
  unfold branchCode
  split
  · exact ⟨(ends_ofValue _).returned, hblock⟩
  · exact ends_ofBlock hblock

/-- Every statement of `block` goes on. -/
def AllGoOn (block : List Stmt) : Prop := ∀ s ∈ block, s.goesOn = true

/-- Declarations of values go on if `declaration` makes statements that do. -/
theorem gives_declareValues {declaration : String → Script.Expr → Stmt}
    (hdeclaration : ∀ x e, (declaration x e).goesOn = true) (bindings : List (String × Code)) :
    Gives (declareValues declaration bindings) AllGoOn := by
  induction bindings with
  | nil => exact .pure (by nofun)
  | cons b rest ih =>
    refine (Gives.any b.2.value).bind fun e _ => ih.map fun others hothers => ?_
    exact List.forall_mem_cons.2 ⟨hdeclaration b.1 e, hothers⟩

/-- `recursiveDeclarations`, of a group that is no loop, go on. -/
theorem gives_recursiveDeclarations (functions : Bool) (bindings : List (String × Code)) :
    Gives (recursiveDeclarations functions bindings) AllGoOn := by
  unfold recursiveDeclarations
  split
  · exact gives_declareValues (fun _ _ => rfl) bindings
  · refine (gives_declareValues (fun _ _ => rfl) bindings).map fun assigns hassigns => ?_
    refine List.forall_mem_append.2 ⟨fun s hs => ?_, hassigns⟩
    obtain ⟨b, -, rfl⟩ := List.mem_map.1 hs
    rfl

/-- The functions of `entries`, which enter a shared loop, go on. -/
theorem gives_entries (label : String) (i : Nat) (members : List Member) :
    Gives (entries label i members) AllGoOn := by
  induction members generalizing i with
  | nil => exact .pure (by nofun)
  | cons m rest ih =>
    refine (Gives.any (copyNames m.params)).bind fun copies _ => ?_
    exact (ih (i + 1)).map fun others hothers => List.forall_mem_cons.2 ⟨rfl, hothers⟩

/-- The declarations of a loop that several `members` share, once the shared function is called
`label`. -/
def sharedLoop (members : List Member) (label : String) : Lowering (List Stmt) := do
  let selector ← freshName (label ++ "_fn")
  let slots ← freshNames
    ((List.range (slotCount members)).map fun i => label ++ "_" ++ Decimal.digitsText i)
  let scope : LoopScope :=
    ⟨label, members.map fun m => (m.ref, m.params.length), some selector, slots⟩
  let body ← inLoop scope (dispatchBody selector slots 0 members)
  let rest ← entries label 0 members
  return .const label (.arrow (selector :: slots) [.loop body]) :: rest

/-- The name of the function that `members` share: the one reserved for it as `dispatcher`, or else
a fresh one. -/
def sharedLabel (members : List Member) (dispatcher : Option String) : Lowering String :=
  match dispatcher with
  | some label => pure label
  | none => freshName ("$" ++ "_".intercalate (members.map Member.ident))

/-- `groupLoop` announces a loop, names its function by `sharedLabel` and writes it by
`sharedLoop`. -/
theorem groupLoop_eq (members : List Member) (dispatcher : Option String) :
    groupLoop members dispatcher = (do
      report .debug
        ("lowering group " ++ "_".intercalate (members.map Member.ident) ++ " to a loop")
      let label ← sharedLabel members dispatcher
      sharedLoop members label) := by
  cases dispatcher <;> rfl

/-- `loopDeclarations` go on, be it one function or several that share a loop. -/
theorem gives_loopDeclarations (members : List Member) (dispatcher : Option String) :
    Gives (loopDeclarations members dispatcher) AllGoOn := by
  unfold loopDeclarations
  split
  · refine (Gives.any _).bind fun _ _ => (Gives.any _).bind fun function _ => .pure ?_
    simp [AllGoOn, Stmt.goesOn, Stmt.isTerminator, Stmt.armsEnd]
  · rw [groupLoop_eq]
    refine (Gives.any _).bind fun _ _ => (Gives.any _).bind fun label _ => ?_
    refine (Gives.any _).bind fun selector _ => (Gives.any _).bind fun slots _ => ?_
    refine (Gives.any _).bind fun body _ => (gives_entries label 0 _).map fun rest hrest => ?_
    exact List.forall_mem_cons.2 ⟨rfl, hrest⟩

/-- So do the `groupDeclarations` of a recursive group, which may be a loop. -/
theorem gives_groupDeclarations (loop functions : Bool) (members : List Ref)
    (binders : List Binder) (codes : List Code) :
    Gives (groupDeclarations loop functions members binders codes) AllGoOn := by
  refine (Gives.any (bindNames binders)).bind fun idents _ => ?_
  split
  · exact gives_loopDeclarations _ none
  · exact gives_recursiveDeclarations functions _

/-- All blocks of `code c t` end, in every mode and from every state. -/
theorem ends_code (c : Context) (t : Analyzed) : (code c t).Ends := by
  induction t using children_induction with
  | step t ih =>
  cases t with
  | undefined => exact ends_ofReturn (.pure rfl)
  | fail a message => exact ends_ofBlock fun _ => .pure rfl
  | record | construct | update => exact ends_ofObject _
  | app a calling head args =>
    cases calling with
    | curried => exact ends_appCode _ _ _
    | uncurried => exact ends_ofValue _
    | effectful => exact ends_ofEffect fun _ => (Gives.any _).map fun _ _ => rfl
  | abs a calling params body =>
    cases calling with
    | curried => exact ⟨(ends_ofValue _).returned, (ends_ofValue _).block⟩
    | uncurried | effectful => exact ends_ofValue _
  | letIn a b value body => exact ends_letCode b (ih body (by simp [children]))
  | letRec a level bindings body =>
    rw [code]
    refine ends_ofBlock fun mode => ?_
    refine Gives.bind (gives_groupDeclarations _ _ _ _ _) fun declarations h => ?_
    exact ((ih body (by simp [children])).block mode).map fun rest hrest => ends_append h hrest
  | bindEffect a b effect body => exact ends_bindCode b (ih body (by simp [children]))
  | pureEffect a value => exact ends_pureCode (ih value (by simp [children]))
  | deferEffect a effect => exact ends_deferCode (ih effect (by simp [children]))
  | branch a arms default =>
    rw [code, armCodes_eq_map]
    refine ends_branchCode (fun arm harm => ?_) (ih default (by simp [children]))
    obtain ⟨x, hx, rfl⟩ := List.mem_map.1 harm
    exact ih x.2 (List.mem_append_left _ (List.mem_flatMap.2 ⟨x, hx, by simp⟩))
  | _ => exact ends_ofValue _

/-! ## Results after each other -/

/-- The result of `Outcome.concat os` is that of the parts `os`, one after the other. -/
theorem Outcome.result_concat {α : Type} (os : List (Outcome (List α))) :
    (Outcome.concat os).result = os.flatMap Outcome.result := by
  induction os with
  | nil => rfl
  | cons o rest ih =>
    rw [List.flatMap_cons, ← ih]
    rfl

/-- The declarations of the unit `u` are those of its groups, one after the other. -/
theorem declarations_module (u : CompilationUnit) (loops : Bool) :
    (Lower.module u loops).result.declarations =
      u.analyze.flatMap fun g => (group (.ofUnit u loops) g).result := by
  have hconcat := Outcome.result_concat (u.analyze.map (group (.ofUnit u loops)))
  rwa [List.flatMap_map] at hconcat

end TailLoop.Lower
