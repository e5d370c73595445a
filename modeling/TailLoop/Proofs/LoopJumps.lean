import TailLoop.Lower.Module
import TailLoop.Proofs.LoopCalls
import TailLoop.Proofs.ScriptLoops

/-!
# Jumps of lowered loops

Analysis and lowering agree on loops. While a unit is lowered, a call that refers to a member of a
loop being written refers to the innermost one and has all its arguments, and every occurrence of a
member in a loop becomes a jump.

* `Calm`: lowering steps that restore the loops, meet no clash and report no call out of a loop.
* `Code.Emits`: all ways to lower a term are calm and give each loop its jumps.
-/

namespace TailLoop.Lower

open Script Lowering

variable {α β : Type}

/-! ## Calm steps -/

/-- The report on a call of `r` that leaves the innermost `exited` loops. -/
def leavingReport (r : Ref) (exited : Nat) : Report :=
  ⟨.debug, .lowering, "call to " ++ r.text ++ " leaves " ++ Decimal.digitsText exited
    ++ " nested loop(s), emitting a call"⟩

/-- `rep` is a `leavingReport`. -/
def IsLeaving (rep : Report) : Prop := ∃ r exited, rep = leavingReport r exited

/-- From `p` to `p'` the loops are restored, no clash was met, and no call was reported to leave a
loop. -/
structure Calm (p p' : Progress) : Prop where
  /-- The loops are the same. -/
  scopes : p'.env.scopes = p.env.scopes
  /-- No new clash was met. -/
  clash : p'.clash = p.clash
  /-- No call was reported to leave a loop. -/
  reports : ∀ rep ∈ p'.reports, rep ∈ p.reports ∨ ¬IsLeaving rep

/-- A step that leaves `p` as it is is calm. -/
theorem Calm.refl (p : Progress) : Calm p p := ⟨rfl, rfl, fun _ h => .inl h⟩

/-- Calm steps from `p` to `p'` and from there to `p''` make one. -/
theorem Calm.trans {p p' p'' : Progress} (h : Calm p p') (h' : Calm p' p'') : Calm p p'' where
  scopes := h'.scopes.trans h.scopes
  clash := h'.clash.trans h.clash
  reports rep hrep := by
    rcases h'.reports rep hrep with hrep | hrep
    · exact h.reports rep hrep
    · exact .inr hrep

/-- In the loops `S`, the step is calm and gives a result as `out` says. -/
def CalmStep (S : List LoopScope) (m : Lowering α) (out : α → Prop) : Prop :=
  ∀ p, p.env.scopes = S → Calm p (m p).2 ∧ out (m p).1

variable {S : List LoopScope} {out out' : α → Prop} {outβ : β → Prop}

/-- `pure a` changes nothing, so it is enough that `a` satisfies `out`. -/
theorem CalmStep.pure {a : α} (h : out a) : CalmStep S (pure a) out := fun p _ => ⟨.refl p, h⟩

/-- After a calm `m` whose result satisfies `out`, it is enough that `k` is calm for such
results. -/
theorem CalmStep.bind {m : Lowering α} {k : α → Lowering β} (hm : CalmStep S m out)
    (hk : ∀ a, out a → CalmStep S (k a) outβ) : CalmStep S (m >>= k) outβ := by
  intro p hp
  obtain ⟨hcalm, hout⟩ := hm p hp
  obtain ⟨hcalm', hout'⟩ := hk _ hout (m p).2 (hcalm.scopes.trans hp)
  exact ⟨hcalm.trans hcalm', hout'⟩

/-- The condition `out` on the result can be weakened. -/
theorem CalmStep.mono {m : Lowering α} (hm : CalmStep S m out) (h : ∀ a, out a → out' a) :
    CalmStep S m out' := fun p hp => ⟨(hm p hp).1, h _ (hm p hp).2⟩

/-- `f` may wrap the result. -/
theorem CalmStep.map {m : Lowering α} {f : α → β} (hm : CalmStep S m out)
    (h : ∀ a, out a → outβ (f a)) : CalmStep S (do return f (← m)) outβ :=
  hm.bind fun a ha => .pure (h a ha)

/-- Reading the state changes nothing; what is read can be said of the loops `S`. -/
theorem CalmStep.get_map {f : Progress → α} (h : ∀ p, p.env.scopes = S → out (f p)) :
    CalmStep S (do return f (← get)) out := fun p hp => ⟨.refl p, h p hp⟩

/-- `report` adds a report. -/
theorem calmStep_report {detail : Detail} {message : String}
    (h : ¬IsLeaving ⟨detail, .lowering, message⟩) :
    CalmStep S (report detail message) fun _ => True := by
  refine fun p _ => ⟨⟨rfl, rfl, ?_⟩, trivial⟩
  intro rep hrep
  rcases List.mem_cons.1 hrep with rfl | hrep
  · exact .inr h
  · exact .inl hrep

/-- Reports on leaving calls start with the word `call`. -/
theorem not_isLeaving {detail : Detail} {message : String} (h : message.toList.head? ≠ some 'c') :
    ¬IsLeaving ⟨detail, .lowering, message⟩ := by
  rintro ⟨r, exited, heq⟩
  have htext := congrArg (fun rep => rep.message.toList.head?) heq
  simp [leavingReport] at htext
  exact h htext

/-- `freshName`: a name that is not taken. -/
theorem calmStep_freshName (base : String) : CalmStep S (freshName base) fun _ => True :=
  fun _ _ => ⟨⟨rfl, rfl, fun _ h => .inl h⟩, trivial⟩

/-- `bindName`: a name for a binder. -/
theorem calmStep_bindName (b : Binder) : CalmStep S (bindName b) fun _ => True := by
  refine fun p _ => ⟨⟨?_, rfl, fun _ h => .inl h⟩, trivial⟩
  cases b with
  | mk name level => cases name <;> rfl

/-- `freshNames`: a name for each base. -/
theorem calmStep_freshNames (bases : List String) :
    CalmStep S (freshNames bases) fun names => names.length = bases.length := by
  induction bases with
  | nil => exact .pure rfl
  | cons base rest ih =>
    refine (calmStep_freshName base).bind fun name _ => ih.bind fun names hnames => .pure ?_
    rw [List.length_cons, List.length_cons, hnames]

/-- `bindNames`: names for binders. -/
theorem calmStep_bindNames (bs : List Binder) :
    CalmStep S (bindNames bs) fun names => names.length = bs.length := by
  induction bs with
  | nil => exact .pure rfl
  | cons b rest ih =>
    refine (calmStep_bindName b).bind fun name _ => ih.bind fun names hnames => .pure ?_
    rw [List.length_cons, List.length_cons, hnames]

/-- `nameOf`: the name under which a binder is known. -/
theorem calmStep_nameOf (b : Binder) : CalmStep S (nameOf b) fun _ => True :=
  .get_map fun _ _ => trivial

/-- `inLoop s m` is calm among the loops `S` if `m` is calm among `s :: S`. -/
theorem calmStep_inLoop {s : LoopScope} {m : Lowering α} (hm : CalmStep (s :: S) m out) :
    CalmStep S (inLoop s m) out := by
  intro p hp
  have hreport : Calm p (report .trace ("enter loop " ++ s.label) p).2 :=
    (calmStep_report (S := S) (not_isLeaving (by simp)) p hp).1
  -- the state in which the step runs
  let p' := (report .trace ("enter loop " ++ s.label) p).2
  let inner : Progress := { p' with env := p'.env.push s }
  have hinner : inner.env.scopes = s :: S := congrArg (s :: ·) (hreport.scopes.trans hp)
  obtain ⟨hcalm, hout⟩ := hm inner hinner
  have hscopes : (m inner).2.env.scopes = s :: S := hcalm.scopes.trans hinner
  refine ⟨⟨?_, ?_, ?_⟩, hout⟩
  · have hdrop : (m inner).2.env.scopes.drop ((m inner).2.env.scopes.length - p.env.depth) =
        p.env.scopes := by
      rw [hscopes, Env.depth, hp, List.length_cons, Nat.add_sub_cancel_left, List.drop_one,
        List.tail_cons]
    exact hdrop
  · exact hcalm.clash.trans hreport.clash
  · intro rep hrep
    rcases hcalm.reports rep hrep with hrep | hrep
    · exact hreport.reports rep hrep
    · exact .inr hrep

/-- `all`: steps one after the other. -/
theorem calmStep_all {ι ν : Type} {xs : List ι} {m : ι → Lowering α} {f : α → List ν}
    {g : ι → List ν} (h : ∀ x ∈ xs, CalmStep S (m x) fun a => f a = g x) :
    CalmStep S (all (xs.map m)) fun as => as.length = xs.length ∧ as.flatMap f = xs.flatMap g := by
  induction xs with
  | nil => exact .pure ⟨rfl, rfl⟩
  | cons x rest ih =>
    refine (h x (List.mem_cons_self ..)).bind fun a ha => ?_
    refine (ih fun y hy => h y (List.mem_cons_of_mem _ hy)).bind fun as has => .pure ?_
    rw [List.length_cons, List.length_cons, List.flatMap_cons, List.flatMap_cons, ha, has.1, has.2]
    exact ⟨rfl, rfl⟩

/-! ## Jumps of what is written -/

/-- All ways to lower by `K` are calm among the loops `S`. They write loops with the jump counts
`ns`, and no jump of their own. -/
structure Code.Emits (S : List LoopScope) (ns : List Nat) (K : Code) : Prop where
  /-- The expression has these loops. -/
  value : CalmStep S K.value fun e => e.jumpCounts = ns
  /-- The statement has these loops. -/
  returned : CalmStep S K.returned fun s => s.jumpCounts = ns ∧ s.jumps = 0
  /-- The effect has these loops. -/
  run : CalmStep S K.run fun e => e.jumpCounts = ns
  /-- The block has these loops. -/
  block : ∀ mode, CalmStep S (K.block mode) fun b => jumpCounts b = ns ∧ jumpsIn b = 0

variable {ns ns' : List Nat}

section Combinators

/-- `Code.ofReturn`: a value with a returning statement of its own. -/
theorem emits_ofReturn {value : Lowering Script.Expr} {returned : Lowering Stmt}
    (hv : CalmStep S value fun e => e.jumpCounts = ns)
    (hr : CalmStep S returned fun s => s.jumpCounts = ns ∧ s.jumps = 0) :
    (Code.ofReturn value returned).Emits S ns where
  value := hv
  returned := hr
  run := hv.map fun e he => by simpa using he
  block mode := by
    simp only [Code.ofReturn]
    split
    · exact hv.map fun e he => by simpa using he
    · exact hr.map fun s hs => by simpa using hs

/-- `Code.ofValue`: a term that is an expression. -/
theorem emits_ofValue {value : Lowering Script.Expr}
    (hv : CalmStep S value fun e => e.jumpCounts = ns) : (Code.ofValue value).Emits S ns :=
  emits_ofReturn hv (hv.map fun e he => by simpa using he)

/-- `Code.ofObject`: a term that is an object literal. -/
theorem emits_ofObject {value : Lowering Script.Expr}
    (hv : CalmStep S value fun e => e.jumpCounts = ns) : (Code.ofObject value).Emits S ns :=
  emits_ofReturn hv (hv.map fun e he => by simpa using he)

/-- `Code.ofBlock`: a term that is written as statements. -/
theorem emits_ofBlock {block : Mode → Lowering (List Stmt)}
    (h : ∀ mode, CalmStep S (block mode) fun b => jumpCounts b = ns ∧ jumpsIn b = 0) :
    (Code.ofBlock block).Emits S ns where
  value := (h .plain).map fun b hb => by simpa using hb.1
  returned := (h .plain).map fun b hb => by simpa using hb.1
  run := (h .plain).map fun b hb => by simpa using hb.1
  block := h

/-- `Code.ofEffect`: an effect, which is a function where it is not run. -/
theorem emits_ofEffect {body : Lowering (List Stmt)} {run : Lowering Script.Expr}
    {block : Mode → Lowering (List Stmt)}
    (hbody : CalmStep S body fun b => jumpCounts b = ns)
    (hrun : CalmStep S run fun e => e.jumpCounts = ns)
    (hblock : ∀ mode, CalmStep S (block mode) fun b => jumpCounts b = ns ∧ jumpsIn b = 0) :
    (Code.ofEffect body run block).Emits S ns where
  value := hbody.map fun b hb => by simpa using hb
  returned := hbody.map fun b hb => by simpa using hb
  run := hrun
  block mode := by
    simp only [Code.ofEffect]
    split
    · exact hblock mode
    · exact hbody.map fun b hb => by simpa using hb

variable {ι : Type} {xs : List ι} {m : ι → Lowering Script.Expr} {g : ι → List Nat}
  {callee : Lowering Script.Expr}

/-- `callEach`: a call with arguments one by one. -/
theorem calmStep_callEach (hf : CalmStep S callee fun e => e.jumpCounts = ns)
    (hxs : ∀ x ∈ xs, CalmStep S (m x) fun e => e.jumpCounts = g x) :
    CalmStep S (callEach callee (xs.map m)) fun e => e.jumpCounts = ns ++ xs.flatMap g := by
  induction xs generalizing callee ns with
  | nil => exact hf.mono fun e he => by simpa using he
  | cons x rest ih =>
    have hcall : CalmStep S (do return Script.Expr.call (← callee) [← m x]) fun e =>
        e.jumpCounts = ns ++ g x := by
      refine hf.bind fun f hf => (hxs x (List.mem_cons_self ..)).bind fun e he => .pure ?_
      rw [← hf, ← he]
      simp
    have := ih hcall fun y hy => hxs y (List.mem_cons_of_mem _ hy)
    rwa [List.append_assoc, ← List.flatMap_cons] at this

/-- `callAll`: a call with all arguments. -/
theorem calmStep_callAll (hf : CalmStep S callee fun e => e.jumpCounts = ns)
    (hxs : ∀ x ∈ xs, CalmStep S (m x) fun e => e.jumpCounts = g x) :
    CalmStep S (callAll callee (xs.map m)) fun e => e.jumpCounts = ns ++ xs.flatMap g := by
  refine hf.bind fun f hf => (calmStep_all hxs).bind fun es hes => .pure ?_
  rw [← hf, ← hes.2]
  simp

/-! ## Jumps -/

/-- `Env.findIn` finds nothing where `r` is a member of no loop of `S`. -/
theorem findIn_eq_none {r : Ref} {n : Nat} (h : ∀ s ∈ S, r ∉ s.members.map Prod.fst) :
    Env.findIn r n S = none := by
  induction S generalizing n with
  | nil => rfl
  | cons s rest ih =>
    have hnone : s.members.findIdx? (fun m => decide (m.1 = r)) = none := by
      rw [List.findIdx?_eq_none_iff]
      intro x hx
      have := h s (List.mem_cons_self ..)
      simp only [decide_eq_false_iff_not]
      rintro rfl
      exact this (List.mem_map.2 ⟨x, hx, rfl⟩)
    rw [Env.findIn, hnone]
    exact ih fun s' hs' => h s' (List.mem_cons_of_mem _ hs')

/-- `Env.findIn` finds a member of the innermost loop `s` there, with no loop left. -/
theorem findIn_cons {r : Ref} {s : LoopScope} (h : r ∈ s.members.map Prod.fst) :
    ∃ i x, x ∈ s.members ∧ x.1 = r ∧ Env.findIn r 0 (s :: S) = some ⟨s, i, x.2, 0⟩ := by
  obtain ⟨x, hx, rfl⟩ := List.mem_map.1 h
  cases hi : s.members.findIdx? (fun m => decide (m.1 = x.1)) with
  | none =>
    rw [List.findIdx?_eq_none_iff] at hi
    have := hi x hx
    simp at this
  | some i =>
    obtain ⟨hlt, hself, -⟩ := List.findIdx?_eq_some_iff_getElem.1 hi
    refine ⟨i, s.members[i], List.getElem_mem hlt, by simpa using hself, ?_⟩
    rw [Env.findIn, hi]
    simp [List.getElem?_eq_getElem hlt]

/-- `jump?` makes no jump of a call whose head, if it is a reference, is in no loop of `S`. -/
theorem calmStep_jump?_none {r? : Option Ref} {args : List (Lowering Script.Expr)}
    (h : ∀ r, r? = some r → ∀ s ∈ S, r ∉ s.members.map Prod.fst) :
    CalmStep S (jump? r? args) fun stmts? => stmts? = none := by
  cases r? with
  | none => exact .pure rfl
  | some r =>
    have hnone : CalmStep S (jumpTo? r) fun j? => j? = none := by
      refine .get_map fun p hp => ?_
      rw [Env.findJump?, hp]
      exact findIn_eq_none (h r rfl)
    refine hnone.bind fun j? hj => ?_
    subst hj
    exact .pure rfl

/-- `jump?` makes a jump of a call of the member `r` of the innermost loop `s` with all its
arguments. -/
theorem calmStep_jump?_some {r : Ref} {s : LoopScope} (hr : r ∈ s.members.map Prod.fst)
    (harity : ∀ x ∈ s.members, x.1 = r → xs.length = x.2 ∧ x.2 ≤ s.slots.length)
    (hxs : ∀ x ∈ xs, CalmStep (s :: S) (m x) fun e => e.jumpCounts = g x) :
    CalmStep (s :: S) (jump? (some r) (xs.map m)) fun stmts? =>
      ∃ stmts, stmts? = some stmts ∧ jumpCounts stmts = xs.flatMap g ∧ jumpsIn stmts = 1 := by
  obtain ⟨i, x, hx, hxr, hfind⟩ := findIn_cons (S := S) hr
  obtain ⟨hlen, hslots⟩ := harity x hx hxr
  have hjump : CalmStep (s :: S) (jumpTo? r) fun j? => j? = some ⟨s, i, x.2, 0⟩ := by
    refine .get_map fun p hp => ?_
    rw [Env.findJump?, hp]
    exact hfind
  refine hjump.bind fun j? hj => ?_
  subst hj
  simp only [Nat.lt_irrefl, if_false, List.length_map, hlen, ne_eq, not_true]
  refine (calmStep_all hxs).bind fun es hes => .pure ⟨_, rfl, ?_, ?_⟩
  · -- no argument is lost, since there are slots enough
    have hzip : (s.slots.zip es).flatMap (fun p => p.2.jumpCounts) =
        es.flatMap Expr.jumpCounts := by
      have hsnd : (s.slots.zip es).map Prod.snd = es := List.map_snd_zip (by omega)
      calc (s.slots.zip es).flatMap (fun p => p.2.jumpCounts)
          = ((s.slots.zip es).map Prod.snd).flatMap Expr.jumpCounts := by rw [List.flatMap_map]
        _ = es.flatMap Expr.jumpCounts := by rw [hsnd]
    rw [← hes.2, ← hzip]
    cases hsel : s.selector <;> simp [jumpStmts, hsel, natLit, List.flatMap_map]
  · cases hsel : s.selector <;>
      simp [jumpStmts, hsel, Function.comp_def, List.map_const']

/-- `appCode`: an application to arguments one by one, which a loop can make a jump. -/
theorem emits_appCode {r? : Option Ref} (h : ∀ r, r? = some r → ∀ s ∈ S, r ∉ s.members.map Prod.fst)
    (hf : CalmStep S callee fun e => e.jumpCounts = ns)
    (hxs : ∀ x ∈ xs, CalmStep S (m x) fun e => e.jumpCounts = g x) :
    (appCode r? callee (xs.map m)).Emits S (ns ++ xs.flatMap g) := by
  have hplain := emits_ofValue (calmStep_callEach hf hxs)
  refine ⟨hplain.value, hplain.returned, hplain.run, fun mode => ?_⟩
  simp only [appCode]
  split
  · refine (calmStep_jump?_none h).bind fun stmts? hnone => ?_
    subst hnone
    exact hplain.returned.map fun s hs => by simpa using hs
  · exact hplain.block mode

/-! ## Functions, bindings and effects -/

variable {K K' : Code}

/-- `curriedCode`: a function that takes its parameters one by one. -/
theorem emits_curriedCode {params : List Binder} (hbody : K.Emits S ns) :
    (curriedCode params K).Emits S ns := by
  have hcurried : CalmStep S (do
      let names ← bindNames params
      return Script.Expr.curried names (← K.block .plain)) fun e => e.jumpCounts = ns := by
    refine (calmStep_bindNames params).bind fun names _ => ?_
    exact (hbody.block .plain).map fun b hb => by simpa using hb.1
  have hvalue := emits_ofValue hcurried
  exact ⟨hvalue.value, hvalue.returned, hvalue.run, hvalue.block⟩

/-- `arrowCode`: a function that takes its parameters at once. -/
theorem emits_arrowCode {params : List Binder} {body : Lowering (List Stmt)}
    (hbody : CalmStep S body fun b => jumpCounts b = ns ∧ jumpsIn b = 0) :
    (arrowCode params body).Emits S ns := by
  refine emits_ofValue ((calmStep_bindNames params).bind fun names _ => ?_)
  exact hbody.map fun b hb => hb.1

/-- `effectAppCode`: an application that is an effect. -/
theorem emits_effectAppCode (hf : CalmStep S callee fun e => e.jumpCounts = ns)
    (hxs : ∀ x ∈ xs, CalmStep S (m x) fun e => e.jumpCounts = g x) :
    (effectAppCode callee (xs.map m)).Emits S (ns ++ xs.flatMap g) := by
  have hrun := calmStep_callAll hf hxs
  have hblock : CalmStep S (do return [Stmt.ret (← callAll callee (xs.map m))]) fun b =>
      jumpCounts b = ns ++ xs.flatMap g ∧ jumpsIn b = 0 :=
    hrun.map fun e he => by simpa using he
  exact emits_ofEffect (hblock.mono fun b hb => hb.1) hrun fun _ => hblock

/-- `letBlock`: a binding in front of the block of its body. -/
theorem calmStep_letBlock {b : Binder} {n : Nat} {mode : Mode} (hvalue : K.Emits S ns)
    (hbody : CalmStep S (K'.block mode) fun b => jumpCounts b = ns' ∧ jumpsIn b = n) :
    CalmStep S ((letCode b K K').block mode) fun b => jumpCounts b = ns ++ ns' ∧ jumpsIn b = n := by
  refine hvalue.value.bind fun e he => (calmStep_bindName b).bind fun name _ => ?_
  exact hbody.map fun rest hrest => by simpa [he] using hrest

/-- `letCode`: a binding in front of the block of its body. -/
theorem emits_letCode {b : Binder} (hvalue : K.Emits S ns) (hbody : K'.Emits S ns') :
    (letCode b K K').Emits S (ns ++ ns') :=
  emits_ofBlock fun mode => calmStep_letBlock hvalue (hbody.block mode)

/-- `bindStmt`: an effect that is run, whose result is bound if the binder has a name. -/
theorem calmStep_bindStmt {b : Binder} {e : Script.Expr} :
    CalmStep S (bindStmt b e) fun s => s.jumpCounts = e.jumpCounts ∧ s.jumps = 0 := by
  unfold bindStmt
  split
  · exact (calmStep_bindName b).map fun name _ => by simp
  · exact .pure (by simp)

/-- `bindCode`: an effect that goes on with the result of another. -/
theorem emits_bindCode {b : Binder} (heffect : K.Emits S ns) (hbody : K'.Emits S ns') :
    (bindCode b K K').Emits S (ns ++ ns') := by
  have hblock (mode : Mode) : CalmStep S (do
      let x ← K.run
      let s ← bindStmt b x
      let rest ← K'.block mode
      return s :: rest) fun b => jumpCounts b = ns ++ ns' ∧ jumpsIn b = 0 := by
    refine heffect.run.bind fun e he => calmStep_bindStmt.bind fun s hs => ?_
    refine (hbody.block mode).map fun rest hrest => ?_
    simp only [jumpCounts_eq, jumpsIn_eq] at hrest
    simp [hs, he, hrest]
  refine emits_ofEffect ((hblock .effectful).mono fun b hb => hb.1) ?_ hblock
  exact (hblock .effectful).map fun b hb => by simpa using hb.1

/-- `pureCode`: an effect that gives a value. -/
theorem emits_pureCode (hvalue : K.Emits S ns) : (pureCode K).Emits S ns := by
  have hblock : CalmStep S (do return [← K.returned]) fun b =>
      jumpCounts b = ns ∧ jumpsIn b = 0 :=
    hvalue.returned.map fun s hs => by simpa using hs
  exact emits_ofEffect (hblock.mono fun b hb => hb.1) hvalue.value fun _ => hblock

/-- `deferCode`: an effect that is built when it runs. -/
theorem emits_deferCode (heffect : K.Emits S ns) : (deferCode K).Emits S ns := by
  refine emits_ofEffect ((heffect.block .effectful).mono fun b hb => hb.1) ?_ heffect.block
  exact (heffect.block .effectful).map fun b hb => by simpa using hb.1

/-! ## Branches -/

variable {κ : Type}

/-- `armBlocks`: the arms of a branch with blocks of their own. -/
theorem calmStep_armBlocks {arms : List κ} {cond body : κ → Code} {mode : Mode}
    {k k' : κ → List Nat} {n : κ → Nat} (hcond : ∀ a ∈ arms, (cond a).Emits S (k a))
    (hbody : ∀ a ∈ arms, CalmStep S ((body a).block mode) fun b =>
      jumpCounts b = k' a ∧ jumpsIn b = n a) :
    CalmStep S (armBlocks mode (arms.map fun a => (cond a, body a))) fun blocks =>
      (blocks.flatMap fun x => x.1.jumpCounts ++ jumpCounts x.2) =
          (arms.flatMap fun a => k a ++ k' a) ∧
        (blocks.map fun x => jumpsIn x.2).sum = (arms.map n).sum := by
  induction arms with
  | nil => exact .pure ⟨rfl, rfl⟩
  | cons a rest ih =>
    refine (hcond a (List.mem_cons_self ..)).value.bind fun e he => ?_
    refine (hbody a (List.mem_cons_self ..)).bind fun b hb => ?_
    refine (ih (fun a' ha' => hcond a' (List.mem_cons_of_mem _ ha'))
      (fun a' ha' => hbody a' (List.mem_cons_of_mem _ ha'))).bind fun blocks hblocks => .pure ?_
    rw [List.flatMap_cons, List.flatMap_cons, List.map_cons, List.map_cons, List.sum_cons,
      List.sum_cons, he, hb.1, hb.2, hblocks.1, hblocks.2]
    exact ⟨rfl, rfl⟩

/-- `conditionalExpr`: the arms of a branch as a conditional expression. -/
theorem calmStep_conditionalExpr {arms : List κ} {cond body : κ → Code} {k k' : κ → List Nat}
    (hcond : ∀ a ∈ arms, (cond a).Emits S (k a)) (hbody : ∀ a ∈ arms, (body a).Emits S (k' a))
    (hdefault : K.Emits S ns) :
    CalmStep S (conditionalExpr (arms.map fun a => (cond a, body a)) K) fun e =>
      e.jumpCounts = (arms.flatMap fun a => k a ++ k' a) ++ ns := by
  induction arms with
  | nil => exact hdefault.value
  | cons a rest ih =>
    refine (hcond a (List.mem_cons_self ..)).value.bind fun e he => ?_
    refine (hbody a (List.mem_cons_self ..)).value.bind fun yes hyes => ?_
    refine (ih (fun a' ha' => hcond a' (List.mem_cons_of_mem _ ha'))
      (fun a' ha' => hbody a' (List.mem_cons_of_mem _ ha'))).bind fun no hno => .pure ?_
    simp [he, hyes, hno]

/-- The block of a branch has the jumps of its arms and its default, where these are lowered for the
same `mode`. -/
theorem calmStep_branchBlock (simple : Bool) {arms : List κ} {cond body : κ → Code} {mode : Mode}
    {k k' : κ → List Nat} {n : κ → Nat} {n' : Nat} (hcond : ∀ a ∈ arms, (cond a).Emits S (k a))
    (hbody : ∀ a ∈ arms, CalmStep S ((body a).block mode) fun b =>
      jumpCounts b = k' a ∧ jumpsIn b = n a)
    (hdefault : CalmStep S (K.block mode) fun b => jumpCounts b = ns ∧ jumpsIn b = n') :
    CalmStep S ((branchCode simple (arms.map fun a => (cond a, body a)) K).block mode) fun b =>
      jumpCounts b = (arms.flatMap fun a => k a ++ k' a) ++ ns ∧
        jumpsIn b = (arms.map n).sum + n' := by
  have hblock : CalmStep S (do
      let blocks ← armBlocks mode (arms.map fun a => (cond a, body a))
      let rest ← K.block mode
      return (if blocks.isEmpty then [] else [Stmt.chain blocks]) ++ rest) fun b =>
      jumpCounts b = (arms.flatMap fun a => k a ++ k' a) ++ ns ∧
        jumpsIn b = (arms.map n).sum + n' := by
    refine (calmStep_armBlocks hcond hbody).bind fun blocks hblocks => ?_
    refine hdefault.map fun rest hrest => ?_
    rw [← hblocks.1, ← hblocks.2, ← hrest.1, ← hrest.2]
    cases blocks <;> simp
  simp only [branchCode]
  split
  · exact hblock
  · exact hblock

/-- `branchCode`: a branch, as an expression or as a chain of blocks. -/
theorem emits_branchCode {simple : Bool} {arms : List κ} {cond body : κ → Code}
    {k k' : κ → List Nat} (hcond : ∀ a ∈ arms, (cond a).Emits S (k a))
    (hbody : ∀ a ∈ arms, (body a).Emits S (k' a)) (hdefault : K.Emits S ns) :
    (branchCode simple (arms.map fun a => (cond a, body a)) K).Emits S
      ((arms.flatMap fun a => k a ++ k' a) ++ ns) := by
  have hblock (simple : Bool) (mode : Mode) :
      CalmStep S ((branchCode simple (arms.map fun a => (cond a, body a)) K).block mode) fun b =>
        jumpCounts b = (arms.flatMap fun a => k a ++ k' a) ++ ns ∧ jumpsIn b = 0 := by
    have := calmStep_branchBlock simple (n := fun _ => 0) hcond
      (fun a ha => (hbody a ha).block mode) (hdefault.block mode)
    simpa [List.map_const', List.sum_replicate_nat] using this
  cases simple with
  | true =>
    have hvalue := emits_ofValue (calmStep_conditionalExpr hcond hbody hdefault)
    exact ⟨hvalue.value, hvalue.returned, hvalue.run, hblock true⟩
  | false => exact emits_ofBlock (hblock false)

/-! ## Recursive groups -/

/-- `declareValues`: declarations of values, one by one. -/
theorem calmStep_declareValues {declaration : String → Script.Expr → Stmt} {code : ι → Code}
    (hdeclaration : ∀ x e,
      (declaration x e).jumpCounts = e.jumpCounts ∧ (declaration x e).jumps = 0)
    (bindings : List (String × ι)) (h : ∀ b ∈ bindings, (code b.2).Emits S (g b.2)) :
    CalmStep S (declareValues declaration (bindings.map fun b => (b.1, code b.2))) fun b =>
      jumpCounts b = (bindings.map Prod.snd).flatMap g ∧ jumpsIn b = 0 := by
  induction bindings with
  | nil => exact .pure ⟨rfl, rfl⟩
  | cons b rest ih =>
    refine (h b (List.mem_cons_self ..)).value.bind fun e he => ?_
    refine (ih fun b' hb' => h b' (List.mem_cons_of_mem _ hb')).bind fun others hothers => .pure ?_
    simp only [jumpCounts_eq, jumpsIn_eq] at hothers
    simp [hdeclaration, he, hothers]

/-- `recursiveDeclarations`: a group that is no loop. -/
theorem calmStep_recursiveDeclarations (functions : Bool) {code : ι → Code}
    (bindings : List (String × ι)) (h : ∀ b ∈ bindings, (code b.2).Emits S (g b.2)) :
    CalmStep S (recursiveDeclarations functions (bindings.map fun b => (b.1, code b.2))) fun b =>
      jumpCounts b = (bindings.map Prod.snd).flatMap g ∧ jumpsIn b = 0 := by
  unfold recursiveDeclarations
  split
  · exact calmStep_declareValues (fun _ _ => ⟨rfl, rfl⟩) bindings h
  · refine (calmStep_declareValues (fun _ _ => ⟨rfl, rfl⟩) bindings h).map ?_
    intro assigns hassigns
    simp only [jumpCounts_eq, jumpsIn_eq] at hassigns
    simp [hassigns, List.flatMap_map, Function.comp_def, List.map_const']

/-- `bindParams`: constants for parameters, with the values of the slots. -/
theorem calmStep_bindParams (params : List Binder) (slots : List String) :
    CalmStep S (bindParams params slots) fun b => jumpCounts b = [] ∧ jumpsIn b = 0 := by
  fun_induction bindParams params slots with
  | case1 b params slot slots ih =>
    refine (calmStep_bindName b).bind fun name _ => ih.map fun rest hrest => ?_
    simpa using hrest
  | case2 => exact .pure ⟨rfl, rfl⟩

/-- `memberBody`: the body of a loop member after constants for its parameters. -/
theorem calmStep_memberBody {mem : Member} (slots : List String) {n : Nat}
    (h : CalmStep S mem.body fun b => jumpCounts b = ns ∧ jumpsIn b = n) :
    CalmStep S (memberBody mem slots) fun b => jumpCounts b = ns ∧ jumpsIn b = n := by
  refine (calmStep_bindParams mem.params slots).bind fun binds hbinds => h.map fun b hb => ?_
  simp only [jumpCounts_eq, jumpsIn_eq] at hbinds hb
  simp [hbinds, hb]

variable {mk : ι → Member} {n : ι → Nat}

/-- `dispatchBody`: the bodies of all members behind tests of the selector. -/
theorem calmStep_dispatchBody {selector : String} {slots : List String} {i : Nat}
    (h : ∀ x ∈ xs, CalmStep S (mk x).body fun b => jumpCounts b = g x ∧ jumpsIn b = n x) :
    CalmStep S (dispatchBody selector slots i (xs.map mk)) fun b =>
      jumpCounts b = xs.flatMap g ∧ jumpsIn b = (xs.map n).sum := by
  induction xs generalizing i with
  | nil => exact .pure ⟨rfl, rfl⟩
  | cons x rest ih =>
    have hfirst := calmStep_memberBody slots (h x (List.mem_cons_self ..))
    cases rest with
    | nil => exact hfirst.mono fun b hb => by simpa using hb
    | cons y rest =>
      refine hfirst.bind fun block hblock => ?_
      refine (ih fun z hz => h z (List.mem_cons_of_mem _ hz)).bind fun others hothers => .pure ?_
      simp only [jumpCounts_eq, jumpsIn_eq] at hblock hothers
      simp [hblock, hothers, natLit]

/-- `entries`: the functions that enter a shared loop. -/
theorem calmStep_entries (label : String) (i : Nat) (members : List Member) :
    CalmStep S (entries label i members) fun b => jumpCounts b = [] ∧ jumpsIn b = 0 := by
  induction members generalizing i with
  | nil => exact .pure ⟨rfl, rfl⟩
  | cons m rest ih =>
    refine (calmStep_freshNames _).bind fun copies _ => (ih (i + 1)).bind fun others hothers => ?_
    refine .pure ?_
    simpa [natLit, List.flatMap_map] using hothers

/-- There are slots enough for every member `m`. -/
theorem le_slotCount {m : Member} {members : List Member} (h : m ∈ members) :
    m.params.length ≤ slotCount members := by
  have hfold (members : List Member) (k : Nat) :
      k ≤ members.foldl (fun n m => max n m.params.length) k ∧
        ∀ m ∈ members, m.params.length ≤ members.foldl (fun n m => max n m.params.length) k := by
    induction members generalizing k with
    | nil => simp
    | cons m' rest ih =>
      obtain ⟨hk, hrest⟩ := ih (max k m'.params.length)
      refine ⟨by rw [List.foldl_cons]; omega, fun m hm => ?_⟩
      rcases List.mem_cons.1 hm with rfl | hm
      · rw [List.foldl_cons]; omega
      · exact hrest m hm
  exact (hfold members 0).2 m h

/-- In every loop with the members `mk` and slots enough for them, the body of the member for `x`
writes loops with the jump counts `g x`, and jumps `n x` times itself. -/
def BodiesJump (S : List LoopScope) (xs : List ι) (mk : ι → Member) (g : ι → List Nat)
    (n : ι → Nat) : Prop :=
  ∀ s : LoopScope, s.members = xs.map (fun x => ((mk x).ref, (mk x).params.length)) →
    (∀ y ∈ s.members, y.2 ≤ s.slots.length) → ∀ x ∈ xs,
      CalmStep (s :: S) (mk x).body fun b => jumpCounts b = g x ∧ jumpsIn b = n x

/-- `selfLoop`: a single function as a loop. -/
theorem calmStep_selfLoop {x : ι} (h : BodiesJump S [x] mk g n) :
    CalmStep S (selfLoop (mk x)) fun e => e.jumpCounts = n x :: g x := by
  refine (calmStep_freshName _).bind fun label _ => ?_
  refine (calmStep_freshNames _).bind fun copies _ => ?_
  refine (calmStep_freshNames _).bind fun slots hslots => ?_
  have hbody := h ⟨label, [((mk x).ref, (mk x).params.length)], none, slots⟩ rfl ?_ x
    (List.mem_singleton.2 rfl)
  · refine (calmStep_inLoop (calmStep_memberBody slots hbody)).map fun body hbody => ?_
    simp only [jumpCounts_eq, jumpsIn_eq] at hbody
    simp [hbody, List.flatMap_map]
  · intro y hy
    obtain rfl := List.mem_singleton.1 hy
    exact Nat.le_of_eq (by rw [hslots, paramBases, List.length_map, List.length_zipIdx])

/-- `groupLoop`: several functions as one loop. -/
theorem calmStep_groupLoop {dispatcher : Option String} (h : BodiesJump S xs mk g n) :
    CalmStep S (groupLoop (xs.map mk) dispatcher) fun b =>
      jumpCounts b = (xs.map n).sum :: xs.flatMap g ∧ jumpsIn b = 0 := by
  -- what is written once the shared function has a name
  have hshared (label : String) : CalmStep S (do
      let selector ← freshName (label ++ "_fn")
      let slots ← freshNames
        ((List.range (slotCount (xs.map mk))).map fun i => label ++ "_" ++ Decimal.digitsText i)
      let scope : LoopScope :=
        ⟨label, (xs.map mk).map fun m => (m.ref, m.params.length), some selector, slots⟩
      let body ← inLoop scope (dispatchBody selector slots 0 (xs.map mk))
      let rest ← entries label 0 (xs.map mk)
      return Stmt.const label (.arrow (selector :: slots) [.loop body]) :: rest) fun b =>
      jumpCounts b = (xs.map n).sum :: xs.flatMap g ∧ jumpsIn b = 0 := by
    refine (calmStep_freshName _).bind fun selector _ => ?_
    refine (calmStep_freshNames _).bind fun slots hslots => ?_
    refine (calmStep_inLoop (calmStep_dispatchBody (h _ (List.map_map ..) ?_))).bind
      fun body hbody => ?_
    · intro y hy
      obtain ⟨m, hm, rfl⟩ := List.mem_map.1 hy
      rw [hslots, List.length_map, List.length_range]
      exact le_slotCount hm
    · refine (calmStep_entries label 0 _).map fun rest hrest => ?_
      simp only [jumpCounts_eq, jumpsIn_eq] at hbody hrest
      simp [hbody, hrest]
  refine (calmStep_report (not_isLeaving (by simp))).bind fun _ _ => ?_
  cases dispatcher with
  | none => exact (calmStep_freshName _).bind fun label _ => hshared label
  | some label => exact hshared label

/-- `loopDeclarations`: the loop of a group has the jumps `n` of all bodies, and the loops `g` in
the bodies follow. -/
theorem calmStep_loopDeclarations {dispatcher : Option String} (h : BodiesJump S xs mk g n) :
    CalmStep S (loopDeclarations (xs.map mk) dispatcher) fun b =>
      jumpCounts b = (xs.map n).sum :: xs.flatMap g ∧ jumpsIn b = 0 := by
  match xs, h with
  | [], h => exact calmStep_groupLoop h
  | [x], h =>
    have hreport : CalmStep S (report .debug ("lowering " ++ (mk x).ident ++ " to a loop"))
        fun _ => True := calmStep_report (not_isLeaving (by simp))
    refine hreport.bind fun _ _ => ?_
    exact (calmStep_selfLoop h).map fun e he => by simpa using he
  | x :: y :: rest, h =>
    have hgroup : loopDeclarations ((x :: y :: rest).map mk) dispatcher =
        groupLoop ((x :: y :: rest).map mk) dispatcher := rfl
    rw [hgroup]
    exact calmStep_groupLoop h

end Combinators

/-! ## Members of loops -/

open Term

/-- The binding `p`, a curried function, as a member of a loop. -/
def memberOf (c : Context) (p : (String × Ref) × Analyzed) : Member :=
  ⟨p.1.1, p.1.2, p.2.params, (code c p.2.inner).block .looping⟩

/-- `(code c t).function` is there only for a curried function: its parameters, and its body as a
block of a loop. -/
theorem function_code (c : Context) (t : Analyzed) : (code c t).function =
    if t.body?.isSome then some (t.params, (code c t.inner).block .looping) else none := by
  cases t with
  | app _ calling => cases calling <;> rfl
  | abs _ calling => cases calling <;> rfl
  | branch _ arms default =>
    rw [code, branchCode]
    split <;> rfl
  | _ => rfl

/-- `loopMembers?` finds members exactly if all bindings `ts` are curried functions. -/
theorem loopMembers?_eq {c : Context} {idents : List String} {refs : List Ref}
    {ts : List Analyzed} :
    loopMembers? idents refs (ts.map (code c)) =
      if ((idents.zip refs).zip ts).all fun p => p.2.body?.isSome then
        some (((idents.zip refs).zip ts).map (memberOf c))
      else none := by
  rw [loopMembers?, List.zip_map_right]
  generalize (idents.zip refs).zip ts = ps
  induction ps with
  | nil => rfl
  | cons p rest ih =>
    obtain ⟨⟨ident, r⟩, t⟩ := p
    rw [List.map_cons, List.mapM_cons, ih, List.all_cons]
    simp only [Prod.map, id, function_code]
    cases t.body?.isSome with
    | false => rfl
    | true =>
      simp only [if_true, Bool.true_and]
      split <;> rfl

/-- Where all bindings `ts` are curried functions, each is a member: `memberOf`. -/
theorem loopMembers?_of_functions {c : Context} {idents : List String} {refs : List Ref}
    {ts : List Analyzed}
    (h : ∀ t ∈ ts, ∃ a params body, t = .abs a .curried params body) :
    loopMembers? idents refs (ts.map (code c)) =
      some (((idents.zip refs).zip ts).map (memberOf c)) := by
  rw [loopMembers?_eq, if_pos]
  rw [List.all_eq_true]
  intro p hp
  obtain ⟨a, params, body, hfun⟩ := h p.2 (List.of_mem_zip hp).2
  rw [hfun]
  rfl

/-- The members of a loop have the references `refs` and the arities of the terms `ts`, as in the
analysis. -/
theorem members_memberOf {c : Context} {idents : List String} {refs : List Ref} {ts : List Analyzed}
    (hidents : idents.length = ts.length) (hrefs : refs.length = ts.length) :
    ((idents.zip refs).zip ts).map
      (fun p => ((memberOf c p).ref, (memberOf c p).params.length)) = refs.zip (ts.map arity) := by
  have hsnd : (idents.zip refs).map Prod.snd = refs := List.map_snd_zip (by omega)
  calc ((idents.zip refs).zip ts).map (fun p => ((memberOf c p).ref, (memberOf c p).params.length))
      = ((idents.zip refs).zip ts).map (Prod.map Prod.snd arity) := by
        simp [memberOf, length_params, Prod.map]
    _ = ((idents.zip refs).map Prod.snd).zip (ts.map arity) := (List.zip_map ..).symm
    _ = refs.zip (ts.map arity) := by rw [hsnd]

end TailLoop.Lower
