import Mathlib.Data.List.Basic
import TailLoop.Proofs.JumpLowering
import TailLoop.Proofs.Trails

/-!
# Trails of lowered terms

Whatever parts of a script are marked: the lowering writes the marks of a term in the order of the
source, each of them once, and every way to lower a term has them. Where loops are written, there
are more marks only for what their functions need, which is the numbers of members and the starts
of next rounds. What is not taken is not written, and a call that becomes a jump is not written as
a call as well.

* `Term.Trails`: the trails of terms.
* `Leaves`: the trail of what a step writes; the loops around it are the same afterwards.
* `leaves_code`: all ways to lower a term have its trail.
* `padded_group`, `padded_module`: the declarations of groups and units have their trails.
-/

namespace TailLoop.Term

open Script

variable {M : Type}

/-- The mark of a node that is written before its children. Groups are loops only where there are
`loops`. -/
def markBefore? (k : Marking M) (loops : Bool) : Analyzed → Option M
  | .fail _ message => k.thrown (.new (.ident "Error") [.text message])
  | .letRec a .. => if a.isLoop && loops then k.loop else none
  | _ => none

/-- The mark of a node that is written behind its children, which is that of an integer. `k` marks
signed integers; an unsigned one is taken as the signed one of the same width. -/
def markAfter? (k : Marking M) : Analyzed → Option M
  | .lit _ (.int i) | .test _ _ (.int i) => k.int i
  | .access _ _ (.index n) | .test _ _ (.length n) => k.int n.toInt64
  | _ => none

/-- Terms have the trails that `g` says: the marks of their nodes. -/
def Trails (k : Marking M) (loops : Bool) (g : Analyzed → List M) : Prop :=
  ∀ t, g t = (t.markBefore? k loops).toList ++ (t.children.flatMap g ++ (t.markAfter? k).toList)

/-- Without marks of its own, `t` has the trails of its children. -/
theorem Trails.of_children {k : Marking M} {loops : Bool} {g : Analyzed → List M}
    (hg : Trails k loops g) {t : Analyzed} (hbefore : t.markBefore? k loops = none)
    (hafter : t.markAfter? k = none) : g t = t.children.flatMap g := by
  rw [hg t, hbefore, hafter]
  exact List.append_nil _

/-- If `g` and `g'` put the same `before` and `after` around the children of a node and of the
analysed node, they agree on the whole term. -/
theorem flatMap_analyze {β : Type} {g : Expr → List β} {g' : Analyzed → List β}
    (before after : Expr → List β)
    (hg : ∀ t, g t = before t ++ (t.children.flatMap g ++ after t))
    (hg' : ∀ c t, g' (analyze c t) =
      before t ++ ((analyze c t).children.flatMap g' ++ after t))
    (c : Candidates) (t : Expr) : g' (analyze c t) = g t := by
  induction t using children_induction generalizing c with
  | step t ih =>
  have hlist (c : Candidates) (ts : List Expr) (h : ∀ s ∈ ts, s ∈ t.children) :
      (ts.map (analyze c)).flatMap g' = ts.flatMap g := by
    rw [List.flatMap_map]
    exact List.flatMap_congr fun s hs => ih s (h s hs) c
  rw [hg, hg']
  congr 2
  by_cases hlet : t.letRefs = []
  · rw [children_analyze hlet]
    exact hlist c t.children fun _ hs => hs
  -- the bodies of groups are analysed with more candidates
  cases t with
  | letIn _ b value body =>
    simp [analyze, children, ih value (by simp [children]), ih body (by simp [children])]
  | letRec _ level bindings body =>
    have hbindings := hlist (c.extend (groupRefs level bindings)) (bindings.map Prod.snd)
      fun s hs => List.mem_append_left _ hs
    simp only [analyze, children, analyzeFields_eq_map, List.map_map, List.flatMap_append,
      List.flatMap_singleton, ih body (by simp [children])] at hbindings ⊢
    congr 1
  | _ => exact absurd rfl hlet

/-- `P` holds of the numbers of the members of all loops in a term that have several. -/
def MemberNumbers (P : Nat → Prop) (t : Analyzed) : Prop :=
  ∀ arities ∈ t.loopArities, 2 ≤ arities.length → ∀ j < arities.length, P j

/-- The loops in the child `s` are loops in `t`. -/
theorem MemberNumbers.child {P : Nat → Prop} {t s : Analyzed} (h : t.MemberNumbers P)
    (hs : s ∈ t.children) : s.MemberNumbers P := by
  intro arities harities
  refine h arities ?_
  rw [loopArities_eq]
  exact List.mem_append_right _ (List.mem_flatMap.2 ⟨s, hs, harities⟩)

end TailLoop.Term

namespace TailLoop.Lower

open Script Lowering Term

variable {M α β ι : Type} {k : Marking M} {l : Bool} {P : Nat → Prop}

/-! ## Steps -/

/-- `x` is a mark that the functions of loops add to those of the source: that of the number of a
member, as `P` admits them, or that of starting the next round. -/
def LoopMark (k : Marking M) (l : Bool) (P : Nat → Prop) (x : M) : Prop :=
  l = true ∧ (k.again = some x ∨ ∃ j, P j ∧ k.int (Int64.ofNat j) = some x)

/-- A loop has slots enough for its members, and if it has a selector, then `P` holds of their
numbers. -/
structure LoopScope.Fits (P : Nat → Prop) (s : LoopScope) : Prop where
  /-- There is a slot for each parameter of a member. -/
  slots : ∀ x ∈ s.members, x.2 ≤ s.slots.length
  /-- The numbers of the members. -/
  numbers : s.selector.isSome = true → ∀ j < s.members.length, P j

/-- All loops of `S` have member numbers in `P`, and there are none if `l` says that no loops are
written. -/
def Encloses (l : Bool) (P : Nat → Prop) (S : List LoopScope) : Prop :=
  (∀ s ∈ S, s.Fits P) ∧ (l = false → S = [])

/-- What the step writes has the trail `ms`, with marks that loops need in between, and the step
ends inside the loops in which it started. -/
def Leaves (k : Marking M) (l : Bool) (P : Nat → Prop) (trail : α → List M) (m : Lowering α)
    (ms : List M) : Prop :=
  ∀ p, Encloses l P p.env.scopes →
    (m p).2.env.scopes = p.env.scopes ∧ Padded (LoopMark k l P) ms (trail (m p).1)

section Leaves

variable {trail : α → List M} {trail' : β → List M} {m : Lowering α} {ms ms' : List M}

/-- `pure a` leaves what is in `a`. -/
theorem Leaves.pure {a : α} (h : Padded (LoopMark k l P) ms (trail a)) :
    Leaves k l P trail (pure a) ms := fun _ _ => ⟨rfl, h⟩

/-- `m` leaves `ms`, then `next` leaves `ms'`. -/
theorem Leaves.bind {next : α → Lowering β} (hm : Leaves k l P trail m ms)
    (hnext : ∀ a, Padded (LoopMark k l P) ms (trail a) → Leaves k l P trail' (next a) ms') :
    Leaves k l P trail' (m >>= next) ms' := by
  intro p hp
  obtain ⟨hscopes, htrail⟩ := hm p hp
  obtain ⟨hscopes', htrail'⟩ := hnext _ htrail (m p).2 (hscopes ▸ hp)
  exact ⟨hscopes'.trans hscopes, htrail'⟩

/-- `f` may wrap the result, if the trail of the whole can be told from that of the part. -/
theorem Leaves.map {f : α → β} (hm : Leaves k l P trail m ms)
    (hf : ∀ a, Padded (LoopMark k l P) ms (trail a) → Padded (LoopMark k l P) ms' (trail' (f a))) :
    Leaves k l P trail' (do return f (← m)) ms' :=
  hm.bind fun a ha => .pure (hf a ha)

/-- Where `m` stays inside its loops, only the trail of `next` counts. -/
theorem Leaves.skip {next : α → Lowering β} (hm : ∀ p, (m p).2.env.scopes = p.env.scopes)
    (hnext : ∀ a, Leaves k l P trail' (next a) ms') : Leaves k l P trail' (m >>= next) ms' := by
  have hnothing : Leaves k l P (fun _ => []) m [] := fun p _ => ⟨hm p, .nil⟩
  exact hnothing.bind fun a _ => hnext a

/-- The same, where `next` may assume `out` of what `m` gives. -/
theorem Leaves.skip_gives {next : α → Lowering β} {out : α → Prop}
    (hm : ∀ p, (m p).2.env.scopes = p.env.scopes) (hout : Gives m out)
    (hnext : ∀ a, out a → Leaves k l P trail' (next a) ms') :
    Leaves k l P trail' (m >>= next) ms' := by
  intro p hp
  obtain ⟨hscopes, htrail⟩ := hnext _ (hout p) (m p).2 ((hm p).symm ▸ hp)
  exact ⟨hscopes.trans (hm p), htrail⟩

/-- `all`: steps one after the other. -/
theorem leaves_all {xs : List ι} {m : ι → Lowering α} {g : ι → List M}
    (h : ∀ x ∈ xs, Leaves k l P trail (m x) (g x)) :
    Leaves k l P (fun as => as.flatMap trail) (all (xs.map m)) (xs.flatMap g) := by
  induction xs with
  | nil => exact .pure .nil
  | cons x rest ih =>
    refine (h x (List.mem_cons_self ..)).bind fun a ha => ?_
    refine (ih fun y hy => h y (List.mem_cons_of_mem _ hy)).map fun as has => ?_
    exact ha.append has

end Leaves

/-- A `Quiet` step stays inside its loops. -/
theorem Quiet.scopes {m : Lowering α} (h : Quiet m) (p : Progress) :
    (m p).2.env.scopes = p.env.scopes := (h p).scopes

/-- `bindName`: a name for a binder. -/
theorem scopes_bindName (b : Binder) (p : Progress) :
    (bindName b p).2.env.scopes = p.env.scopes := (quiet_bindName b).scopes p

/-- `bindNames`: names for binders. -/
theorem scopes_bindNames (bs : List Binder) (p : Progress) :
    (bindNames bs p).2.env.scopes = p.env.scopes := (quiet_bindNames bs).scopes p

/-- `inLoop` leaves the trail of `m`, if the numbers of the loop `s` are in `P`. -/
theorem Leaves.inLoop {trail : α → List M} {m : Lowering α} {ms : List M} {s : LoopScope}
    (hs : s.Fits P) (h : Leaves k true P trail m ms) : Leaves k true P trail (inLoop s m) ms := by
  intro p hp
  have henter : Encloses true P (enterLoop s p).env.scopes :=
    ⟨List.forall_mem_cons.2 ⟨hs, hp.1⟩, by nofun⟩
  obtain ⟨hscopes, htrail⟩ := h (enterLoop s p) henter
  refine ⟨?_, htrail⟩
  show (m (enterLoop s p)).2.env.scopes.drop
    ((m (enterLoop s p)).2.env.scopes.length - p.env.scopes.length) = p.env.scopes
  rw [hscopes, show (enterLoop s p).env.scopes = s :: p.env.scopes from rfl, List.length_cons,
    Nat.add_sub_cancel_left, List.drop_one, List.tail_cons]

/-! ## Expressions and statements -/

/-- The expression that `m` writes has the trail `ms`, up to marks of loops. -/
abbrev LeavesExpr (k : Marking M) (l : Bool) (P : Nat → Prop) (m : Lowering Script.Expr)
    (ms : List M) : Prop :=
  Leaves k l P (Expr.trail k) m ms

/-- The block that `m` writes has the trail `ms`, up to marks of loops. -/
abbrev LeavesBlock (k : Marking M) (l : Bool) (P : Nat → Prop) (m : Lowering (List Stmt))
    (ms : List M) : Prop :=
  Leaves k l P (trailIn k) m ms

/-- All ways to lower the term have the trail `ms`. -/
structure Code.Leaves (k : Marking M) (l : Bool) (P : Nat → Prop) (K : Code) (ms : List M) :
    Prop where
  /-- As an expression. -/
  value : LeavesExpr k l P K.value ms
  /-- As a statement that returns it. -/
  returned : Lower.Leaves k l P (Stmt.trail k) K.returned ms
  /-- As an expression that runs it. -/
  run : LeavesExpr k l P K.run ms
  /-- As a block. -/
  block : ∀ mode, LeavesBlock k l P (K.block mode) ms

variable {K K' : Code} {ms ms' : List M}

/-- `Code.ofReturn`: a value with a returning statement of its own. -/
theorem leaves_ofReturn {value : Lowering Script.Expr} {returned : Lowering Stmt}
    (hvalue : LeavesExpr k l P value ms) (hreturned : Leaves k l P (Stmt.trail k) returned ms) :
    (Code.ofReturn value returned).Leaves k l P ms where
  value := hvalue
  returned := hreturned
  run := hvalue.map fun e he => by simpa using he
  block mode := by
    simp only [Code.ofReturn]
    split
    · exact hvalue.map fun e he => by simpa using he
    · exact hreturned.map fun s hs => by simpa using hs

/-- `Code.ofValue`: a term that is an expression. -/
theorem leaves_ofValue {value : Lowering Script.Expr} (h : LeavesExpr k l P value ms) :
    (Code.ofValue value).Leaves k l P ms :=
  leaves_ofReturn h (h.map fun e he => by simpa using he)

/-- `Code.ofObject`: a term that is an object literal. -/
theorem leaves_ofObject {value : Lowering Script.Expr} (h : LeavesExpr k l P value ms) :
    (Code.ofObject value).Leaves k l P ms :=
  leaves_ofReturn h (h.map fun e he => by simpa using he)

/-- `Code.ofBlock`: a term that is written as statements. -/
theorem leaves_ofBlock {block : Mode → Lowering (List Stmt)}
    (h : ∀ mode, LeavesBlock k l P (block mode) ms) : (Code.ofBlock block).Leaves k l P ms where
  value := (h .plain).map fun b hb => by simpa using hb
  returned := (h .plain).map fun b hb => by simpa using hb
  run := (h .plain).map fun b hb => by simpa using hb
  block := h

/-- `Code.ofEffect`: an effect, which is a function where it is not run. -/
theorem leaves_ofEffect {body : Lowering (List Stmt)} {run : Lowering Script.Expr}
    {block : Mode → Lowering (List Stmt)} (hbody : LeavesBlock k l P body ms)
    (hrun : LeavesExpr k l P run ms) (hblock : ∀ mode, LeavesBlock k l P (block mode) ms) :
    (Code.ofEffect body run block).Leaves k l P ms where
  value := hbody.map fun b hb => by simpa using hb
  returned := hbody.map fun b hb => by simpa using hb
  run := hrun
  block mode := by
    simp only [Code.ofEffect]
    split
    · exact hblock mode
    · exact hbody.map fun b hb => by simpa using hb

/-! ## Calls and jumps -/

variable {ts : List ι} {m : ι → Lowering Script.Expr} {g g' : ι → List M}
  {callee : Lowering Script.Expr}

/-- `callEach`: a call with arguments one by one. -/
theorem leaves_callEach (hcallee : LeavesExpr k l P callee ms)
    (hargs : ∀ t ∈ ts, LeavesExpr k l P (m t) (g t)) :
    LeavesExpr k l P (callEach callee (ts.map m)) (ms ++ ts.flatMap g) := by
  -- the call with the first argument is the callee of the others
  induction ts generalizing callee ms with
  | nil => simpa [callEach] using hcallee
  | cons t rest ih =>
    have hfirst : LeavesExpr k l P (do let f ← callee; let x ← m t; return .call f [x])
        (ms ++ g t) := by
      refine hcallee.bind fun f hf => (hargs t (List.mem_cons_self ..)).map fun x hx => ?_
      simpa using hf.append hx
    have hrest := ih hfirst fun u hu => hargs u (List.mem_cons_of_mem _ hu)
    rwa [List.append_assoc] at hrest

/-- `callAll`: a call with all arguments. -/
theorem leaves_callAll (hcallee : LeavesExpr k l P callee ms)
    (hargs : ∀ t ∈ ts, LeavesExpr k l P (m t) (g t)) :
    LeavesExpr k l P (callAll callee (ts.map m)) (ms ++ ts.flatMap g) := by
  refine hcallee.bind fun f hf => (leaves_all hargs).map fun xs hxs => ?_
  simpa using hf.append hxs

/-- The number `j` of a member has a mark that loops add, or none. -/
theorem padded_natLit {j : Nat} (hl : l = true) (hj : P j) :
    Padded (LoopMark k l P) [] ((natLit j).trail k) := by
  refine .of_extra fun x hx => ⟨hl, .inr ⟨j, hj, ?_⟩⟩
  simpa [natLit] using hx

/-- The assignments of the jump `j` have the trails of `values`, of which every one has a slot, and
may have that of the number of the member. -/
theorem padded_jumpStmts (hl : l = true) (j : Jump) {values : List Script.Expr}
    (hslots : values.length ≤ j.scope.slots.length)
    (hmember : j.scope.selector.isSome = true → P j.member) :
    Padded (LoopMark k l P) (values.flatMap (Expr.trail k)) (trailIn k (jumpStmts j values)) := by
  have hselector : Padded (LoopMark k l P) [] ((j.scope.selector.map fun x =>
      Stmt.assign x (natLit j.member)).toList.flatMap (Stmt.trail k)) := by
    cases hs : j.scope.selector with
    | none => exact .nil
    | some x => simpa using padded_natLit (k := k) hl (hmember (by rw [hs]; rfl))
  have hassigns : ((j.scope.slots.zip values).map fun p => Stmt.assign p.1 p.2).flatMap
      (Stmt.trail k) = values.flatMap (Expr.trail k) := by
    conv => rhs; rw [← List.map_snd_zip hslots, List.flatMap_map]
    rw [List.flatMap_map]
    exact List.flatMap_congr fun p _ => by rw [Stmt.trail]
  have hagain : Padded (LoopMark k l P) [] k.again.toList :=
    .of_extra fun x hx => ⟨hl, .inl (Option.mem_toList.1 hx)⟩
  have hall := (hselector.append (.of_eq hassigns.symm)).append hagain
  simpa [jumpStmts] using hall

/-- In the body of a loop, a call is written as a jump, or else as `next` says. -/
theorem leaves_jump? {r? : Option Ref} {next : Option (List Stmt) → Lowering (List Stmt)}
    (hargs : ∀ t ∈ ts, LeavesExpr k l P (m t) (g t))
    (hsome : ∀ stmts, next (some stmts) = pure stmts)
    (hnone : LeavesBlock k l P (next none) ms) (hms : r?.isSome = true → ms = ts.flatMap g) :
    LeavesBlock k l P (jump? r? (ts.map m) >>= next) ms := by
  intro p hp
  show (next (jump? r? (ts.map m) p).1 (jump? r? (ts.map m) p).2).2.env.scopes = _ ∧
    Padded _ ms (trailIn k (next (jump? r? (ts.map m) p).1 (jump? r? (ts.map m) p).2).1)
  rcases jump?_cases r? (ts.map m) p with ⟨p', heq, hkept⟩ | ⟨r, j, S, rfl, hscopes, hmember, heq⟩
  · rw [heq]
    obtain ⟨hscopes', htrail⟩ := hnone p' (hkept.scopes ▸ hp)
    exact ⟨hscopes'.trans hkept.scopes, htrail⟩
  · -- a jump goes to a loop around it, so there are loops, and all values have slots
    have hl : l = true := by
      cases l with
      | true => rfl
      | false => rw [hp.2 rfl] at hscopes; cases hscopes
    obtain ⟨hall, htrail⟩ := leaves_all hargs p hp
    have hfits : j.scope.Fits P := hp.1 j.scope (hscopes ▸ List.mem_cons_self ..)
    have hroom : (ts.map m).length ≤ j.scope.slots.length :=
      hfits.slots _ (List.mem_of_getElem? hmember)
    have hnumber : j.scope.selector.isSome = true → P j.member := fun hselector =>
      hfits.numbers hselector _ (List.getElem?_eq_some_iff.1 hmember).1
    rw [heq, hsome, hms rfl]
    refine ⟨hall, ?_⟩
    exact htrail.trans (padded_jumpStmts hl j (by rwa [length_all]) hnumber)

/-- `appCode`: an application to arguments one by one, which a loop can make a jump. -/
theorem leaves_appCode {r? : Option Ref} (hr : r?.isSome = true → ms = [])
    (hcallee : LeavesExpr k l P callee ms) (hargs : ∀ t ∈ ts, LeavesExpr k l P (m t) (g t)) :
    (appCode r? callee (ts.map m)).Leaves k l P (ms ++ ts.flatMap g) := by
  have hplain := leaves_ofValue (leaves_callEach hcallee hargs)
  refine ⟨hplain.value, hplain.returned, hplain.run, fun mode => ?_⟩
  simp only [appCode]
  split
  -- a jump writes no callee, but what a jump goes to is a name, which has no marks
  · refine leaves_jump? hargs (fun _ => rfl) (hplain.returned.map fun s hs => by simpa using hs) ?_
    intro hsome
    rw [hr hsome, List.nil_append]
  · exact hplain.block mode

/-! ## Functions, bindings and effects -/

/-- `curriedCode`: a function that takes its parameters one by one. -/
theorem leaves_curriedCode {params : List Binder} (h : K.Leaves k l P ms) :
    (curriedCode params K).Leaves k l P ms := by
  have hvalue : LeavesExpr k l P (do
      let names ← bindNames params
      return Script.Expr.curried names (← K.block .plain)) ms :=
    .skip (scopes_bindNames params) fun names => (h.block .plain).map fun b hb => by simpa using hb
  have hplain := leaves_ofValue hvalue
  exact ⟨hplain.value, hplain.returned, hplain.run, hplain.block⟩

/-- `arrowCode`: a function that takes its parameters at once. -/
theorem leaves_arrowCode {params : List Binder} {body : Lowering (List Stmt)}
    (h : LeavesBlock k l P body ms) : (arrowCode params body).Leaves k l P ms :=
  leaves_ofValue (.skip (scopes_bindNames params) fun _ => h.map fun b hb => by simpa using hb)

/-- `effectAppCode`: an application that is an effect. -/
theorem leaves_effectAppCode (hcallee : LeavesExpr k l P callee ms)
    (hargs : ∀ t ∈ ts, LeavesExpr k l P (m t) (g t)) :
    (effectAppCode callee (ts.map m)).Leaves k l P (ms ++ ts.flatMap g) := by
  have hrun := leaves_callAll hcallee hargs
  have hbody : LeavesBlock k l P (do return [Stmt.ret (← callAll callee (ts.map m))])
      (ms ++ ts.flatMap g) := hrun.map fun e he => by simpa using he
  exact leaves_ofEffect hbody hrun fun _ => hbody

/-- `letCode`: a binding in front of the block of its body. -/
theorem leaves_letCode {b : Binder} (hvalue : K.Leaves k l P ms) (hbody : K'.Leaves k l P ms') :
    (letCode b K K').Leaves k l P (ms ++ ms') := by
  refine leaves_ofBlock fun mode => hvalue.value.bind fun e he => ?_
  refine .skip (scopes_bindName b) fun name => (hbody.block mode).map fun rest hrest => ?_
  simpa using he.append hrest

/-- `bindStmt`: an effect that is run, whose result is bound if the binder has a name. -/
theorem leaves_bindStmt (b : Binder) {e : Script.Expr}
    (he : Padded (LoopMark k l P) ms (e.trail k)) :
    Leaves k l P (Stmt.trail k) (bindStmt b e) ms := by
  unfold bindStmt
  split
  · exact .skip (scopes_bindName b) fun name => .pure (by simpa using he)
  · exact .pure (by simpa using he)

/-- `bindCode`: an effect that goes on with the result of another. -/
theorem leaves_bindCode {b : Binder} (heffect : K.Leaves k l P ms) (hbody : K'.Leaves k l P ms') :
    (bindCode b K K').Leaves k l P (ms ++ ms') := by
  have hblock (mode : Mode) : LeavesBlock k l P (do
      let x ← K.run
      let s ← bindStmt b x
      let rest ← K'.block mode
      return s :: rest) (ms ++ ms') := by
    refine heffect.run.bind fun e he => (leaves_bindStmt b he).bind fun s hs => ?_
    refine (hbody.block mode).map fun rest hrest => ?_
    simpa using hs.append hrest
  exact leaves_ofEffect (hblock .effectful)
    ((hblock .effectful).map fun b hb => by simpa using hb) hblock

/-- `pureCode`: an effect that gives a value. -/
theorem leaves_pureCode (h : K.Leaves k l P ms) : (pureCode K).Leaves k l P ms := by
  have hbody : LeavesBlock k l P (do return [← K.returned]) ms :=
    h.returned.map fun s hs => by simpa using hs
  exact leaves_ofEffect hbody h.value fun _ => hbody

/-- `deferCode`: an effect that is built when it runs. -/
theorem leaves_deferCode (h : K.Leaves k l P ms) : (deferCode K).Leaves k l P ms :=
  leaves_ofEffect (h.block .effectful) ((h.block .effectful).map fun b hb => by simpa using hb)
    h.block

/-! ## Branches -/

variable {arms : List ι} {cond body : ι → Code}

/-- `armBlocks`: the arms of a branch with blocks of their own. -/
theorem leaves_armBlocks {mode : Mode} (hcond : ∀ a ∈ arms, (cond a).Leaves k l P (g a))
    (hbody : ∀ a ∈ arms, (body a).Leaves k l P (g' a)) :
    Leaves k l P (armsTrail k) (armBlocks mode (arms.map fun a => (cond a, body a)))
      (arms.flatMap fun a => g a ++ g' a) := by
  induction arms with
  | nil => exact .pure .nil
  | cons a rest ih =>
    refine (hcond a (List.mem_cons_self ..)).value.bind fun x hx => ?_
    refine ((hbody a (List.mem_cons_self ..)).block mode).bind fun block hblock => ?_
    refine (ih (fun b hb => hcond b (List.mem_cons_of_mem _ hb))
      fun b hb => hbody b (List.mem_cons_of_mem _ hb)).map fun others hothers => ?_
    simpa using (hx.append hblock).append hothers

/-- `conditionalExpr`: the arms of a branch as a conditional expression. -/
theorem leaves_conditionalExpr (hcond : ∀ a ∈ arms, (cond a).Leaves k l P (g a))
    (hbody : ∀ a ∈ arms, (body a).Leaves k l P (g' a)) (hdefault : K.Leaves k l P ms) :
    LeavesExpr k l P (conditionalExpr (arms.map fun a => (cond a, body a)) K)
      ((arms.flatMap fun a => g a ++ g' a) ++ ms) := by
  induction arms with
  | nil => exact hdefault.value
  | cons a rest ih =>
    refine (hcond a (List.mem_cons_self ..)).value.bind fun x hx => ?_
    refine (hbody a (List.mem_cons_self ..)).value.bind fun yes hyes => ?_
    refine (ih (fun b hb => hcond b (List.mem_cons_of_mem _ hb))
      fun b hb => hbody b (List.mem_cons_of_mem _ hb)).map fun no hno => ?_
    simpa using (hx.append hyes).append hno

/-- `branchCode`: a branch, as an expression or as a chain of blocks. -/
theorem leaves_branchCode {simple : Bool} (hcond : ∀ a ∈ arms, (cond a).Leaves k l P (g a))
    (hbody : ∀ a ∈ arms, (body a).Leaves k l P (g' a)) (hdefault : K.Leaves k l P ms) :
    (branchCode simple (arms.map fun a => (cond a, body a)) K).Leaves k l P
      ((arms.flatMap fun a => g a ++ g' a) ++ ms) := by
  have hblock (mode : Mode) : LeavesBlock k l P (do
      let blocks ← armBlocks mode (arms.map fun a => (cond a, body a))
      let rest ← K.block mode
      return (if blocks.isEmpty then [] else [Stmt.chain blocks]) ++ rest)
      ((arms.flatMap fun a => g a ++ g' a) ++ ms) := by
    refine (leaves_armBlocks hcond hbody).bind fun blocks hblocks => ?_
    refine (hdefault.block mode).map fun rest hrest => ?_
    have hchain : trailIn k (if blocks.isEmpty then [] else [Stmt.chain blocks]) =
        armsTrail k blocks := by
      cases blocks <;> simp
    rw [trailIn_eq, List.flatMap_append, ← trailIn_eq, ← trailIn_eq, hchain]
    exact hblocks.append hrest
  unfold branchCode
  split
  · have hplain := leaves_ofValue (leaves_conditionalExpr hcond hbody hdefault)
    exact ⟨hplain.value, hplain.returned, hplain.run, hblock⟩
  · exact leaves_ofBlock hblock

/-! ## Groups that are no loops -/

/-- `declareValues`: declarations of values, one by one. -/
theorem leaves_declareValues {declaration : String → Script.Expr → Stmt} {f : ι → Code}
    (hdeclaration : ∀ x e, (declaration x e).trail k = e.trail k) {bindings : List (String × ι)}
    (h : ∀ b ∈ bindings, (f b.2).Leaves k l P (g b.2)) :
    LeavesBlock k l P (declareValues declaration (bindings.map fun b => (b.1, f b.2)))
      (bindings.flatMap fun b => g b.2) := by
  induction bindings with
  | nil => exact .pure .nil
  | cons b rest ih =>
    refine (h b (List.mem_cons_self ..)).value.bind fun e he => ?_
    refine (ih fun b' hb' => h b' (List.mem_cons_of_mem _ hb')).map fun others hothers => ?_
    rw [trailIn, hdeclaration]
    exact he.append hothers

/-- `recursiveDeclarations`: a group that is no loop. -/
theorem leaves_recursiveDeclarations {functions : Bool} {f : ι → Code}
    {bindings : List (String × ι)} (h : ∀ b ∈ bindings, (f b.2).Leaves k l P (g b.2)) :
    LeavesBlock k l P (recursiveDeclarations functions (bindings.map fun b => (b.1, f b.2)))
      (bindings.flatMap fun b => g b.2) := by
  unfold recursiveDeclarations
  split
  · exact leaves_declareValues (fun _ _ => by simp) h
  · refine (leaves_declareValues (fun _ _ => by simp) h).map fun assigns hassigns => ?_
    simpa [List.flatMap_map] using hassigns

/-! ## Loops -/

/-- `bindParams`: constants for parameters, with the values of the slots. -/
theorem leaves_bindParams (params : List Binder) (slots : List String) :
    LeavesBlock k l P (bindParams params slots) [] := by
  fun_induction bindParams params slots with
  | case1 b params slot slots ih =>
    refine .skip (scopes_bindName b) fun name => ih.map fun rest hrest => ?_
    simpa using hrest
  | case2 => exact .pure .nil

/-- `memberBody`: the body of a loop member after constants for its parameters. -/
theorem leaves_memberBody {m : Member} (slots : List String) (h : LeavesBlock k l P m.body ms) :
    LeavesBlock k l P (memberBody m slots) ms := by
  refine (leaves_bindParams m.params slots).bind fun binds hbinds => h.map fun body hbody => ?_
  simpa using hbinds.append hbody

variable {xs : List ι} {mk : ι → Member}

/-- The body of a shared loop, with the numbers of the members from `i` on. -/
theorem leaves_dispatchBody {selector : String} {slots : List String} {i : Nat}
    (hnumbers : ∀ j < i + xs.length, P j)
    (h : ∀ x ∈ xs, LeavesBlock k true P (mk x).body (g x)) :
    LeavesBlock k true P (dispatchBody selector slots i (xs.map mk)) (xs.flatMap g) := by
  induction xs generalizing i with
  | nil => exact .pure .nil
  | cons x rest ih =>
    have hfirst := leaves_memberBody slots (h x (List.mem_cons_self ..))
    cases rest with
    -- the last member is run without a test
    | nil =>
      rw [List.flatMap_cons, List.flatMap_nil, List.append_nil]
      exact hfirst
    | cons y rest =>
      refine hfirst.bind fun block hblock => ?_
      refine (ih (fun j hj => hnumbers j (by simp at hj ⊢; omega))
        fun z hz => h z (List.mem_cons_of_mem _ hz)).map fun others hothers => ?_
      have htest := padded_natLit (k := k) rfl (hnumbers i (by simp))
      simpa using (htest.append hblock).append hothers

/-- `entries`: the functions that enter a shared loop have no marks but those of the numbers of
`members`. -/
theorem leaves_entries (label : String) (i : Nat) (members : List Member)
    (hnumbers : ∀ j < i + members.length, P j) :
    LeavesBlock k true P (entries label i members) [] := by
  induction members generalizing i with
  | nil => exact .pure .nil
  | cons m rest ih =>
    refine .skip (quiet_freshNames _).scopes fun copies => ?_
    refine (ih (i + 1) fun j hj => hnumbers j (by simp at hj ⊢; omega)).map fun others hothers => ?_
    have hentry := padded_natLit (k := k) rfl (hnumbers i (by simp))
    simpa [List.flatMap_map] using hentry.append hothers

/-- `selfLoop`: a single function as a loop. -/
theorem leaves_selfLoop {m : Member} (h : LeavesBlock k true P m.body ms) :
    LeavesExpr k true P (selfLoop m) (k.loop.toList ++ ms) := by
  have hlength (start : String) : Gives (freshNames (paramBases start m.params)) fun names =>
      names.length = m.params.length := fun p => length_freshNames_paramBases ..
  refine .skip (quiet_freshName _).scopes fun label => ?_
  refine .skip (quiet_freshNames _).scopes fun copies => ?_
  refine .skip_gives (quiet_freshNames _).scopes (hlength _) fun slots hslots => ?_
  refine ((leaves_memberBody slots h).inLoop ⟨by simp [hslots], nofun⟩).map fun body hbody => ?_
  simpa [List.flatMap_map] using (Padded.refl k.loop.toList).append hbody

/-- `sharedLoop`: several functions as one loop have the mark of its rounds and the trails of the
bodies. -/
theorem leaves_sharedLoop (label : String) (hnumbers : ∀ j < xs.length, P j)
    (h : ∀ x ∈ xs, LeavesBlock k true P (mk x).body (g x)) :
    LeavesBlock k true P (sharedLoop (xs.map mk) label) (k.loop.toList ++ xs.flatMap g) := by
  have hlength (bases : List String) : Gives (freshNames bases) fun names =>
      names.length = bases.length := fun p => (freshNames_spec [] p bases).1
  have hnumbers' : ∀ j < 0 + xs.length, P j := by simpa using hnumbers
  refine .skip (quiet_freshName _).scopes fun selector => ?_
  refine .skip_gives (quiet_freshNames _).scopes (hlength _) fun slots hslots => ?_
  refine ((leaves_dispatchBody hnumbers' h).inLoop ⟨?_, ?_⟩).bind fun body hbody => ?_
  · intro y hy
    obtain ⟨m, hm, rfl⟩ := List.mem_map.1 hy
    rw [hslots, List.length_map, List.length_range]
    exact le_slotCount hm
  · exact fun _ j hj => hnumbers j (by simpa using hj)
  · refine (leaves_entries label 0 _ (by simpa using hnumbers)).map fun rest hrest => ?_
    simpa using ((Padded.refl k.loop.toList).append hbody).append hrest

/-- `loopDeclarations`: the loop of a group, be it one function or several. -/
theorem leaves_loopDeclarations (dispatcher : Option String)
    (hnumbers : 2 ≤ xs.length → ∀ j < xs.length, P j)
    (h : ∀ x ∈ xs, LeavesBlock k true P (mk x).body (g x)) :
    LeavesBlock k true P (loopDeclarations (xs.map mk) dispatcher)
      (k.loop.toList ++ xs.flatMap g) := by
  have hgroup (hnumbers : ∀ j < xs.length, P j) :
      LeavesBlock k true P (groupLoop (xs.map mk) dispatcher) (k.loop.toList ++ xs.flatMap g) := by
    rw [groupLoop_eq]
    refine .skip (quiet_report _ _).scopes fun _ => .skip ?_ fun label =>
      leaves_sharedLoop label hnumbers h
    cases dispatcher with
    | some label => exact fun p => rfl
    | none => exact (quiet_freshName _).scopes
  match xs, h, hnumbers, hgroup with
  | [], _, _, hgroup => exact hgroup (by simp)
  | [x], h, _, _ =>
    refine .skip (quiet_report _ _).scopes fun _ => ?_
    refine (leaves_selfLoop (h x (List.mem_singleton.2 rfl))).map fun e he => ?_
    simpa using he
  | _ :: _ :: _, _, hnumbers, hgroup => exact hgroup (hnumbers (by simp))

/-! ## Terms -/

variable {c : Context} {g : Analyzed → List M}

/-! ### Leaves -/

section

variable {a : Analysis} (hg : Trails k l g)

include hg

/-- `global` has no mark. -/
theorem leaves_global {q : Qualified} : (code c (.global a q)).Leaves k l P (g (.global a q)) := by
  rw [hg.of_children rfl rfl]
  refine leaves_ofValue (.pure (.of_eq ?_))
  rw [globalExpr]
  split
  · simp [children]
  · split <;> simp [children]

/-- A variable, read under the name of its binder `b`. -/
theorem leaves_bound {b : Binder} : (code c (.bound a b)).Leaves k l P (g (.bound a b)) := by
  rw [hg.of_children rfl rfl]
  exact leaves_ofValue (.skip (fun _ => rfl) fun _ => .pure (.of_eq (by simp [children])))

/-- `lit` has the mark of its `value`. -/
theorem leaves_lit {value : Literal} : (code c (.lit a value)).Leaves k l P (g (.lit a value)) := by
  rw [hg]
  exact leaves_ofValue (.pure (.of_eq (by
    cases value <;> simp [children, markBefore?, markAfter?, literalExpr])))

/-- `constructor` has no mark: the texts in its function are no texts of the source. -/
theorem leaves_constructor {tag : String} {fields : List String} :
    (code c (.constructor a tag fields)).Leaves k l P (g (.constructor a tag fields)) := by
  rw [hg.of_children rfl rfl]
  refine leaves_ofValue (.skip (quiet_freshNames fields).scopes fun names => .pure (.of_eq ?_))
  have hobject : (Script.Expr.object (tagField tag ::
      (fields.zip names).map fun p => .field p.1 (.ident p.2))).trail k = [] := by
    simp [tagField, List.flatMap_map]
  unfold constructorExpr
  split
  · exact hobject.symm
  · rw [Expr.trail_curried, trailIn_eq, List.flatMap_singleton, Stmt.trail]
    exact hobject.symm

/-- `undefined`. -/
theorem leaves_undefined : (code c (.undefined a)).Leaves k l P (g (.undefined a)) := by
  rw [hg.of_children rfl rfl]
  exact leaves_ofReturn (.pure (.of_eq (by simp [children])))
    (.pure (.of_eq (by simp [children])))

/-- `fail` has the mark of its `message`. -/
theorem leaves_fail {message : String} :
    (code c (.fail a message)).Leaves k l P (g (.fail a message)) := by
  rw [hg]
  exact leaves_ofBlock fun _ => .pure (.of_eq (by
    simp [children, markBefore?, markAfter?, failure]))

end

/-! ### Lists and fields -/

/-- `fieldCodes`: the parts of an object literal. -/
theorem leaves_fieldCodes {fields : List (String × Analyzed)}
    (h : ∀ s ∈ fields.map Prod.snd, (code c s).Leaves k l P (g s)) :
    Leaves k l P (fieldsTrail k) (all (fieldCodes c fields))
      ((fields.map Prod.snd).flatMap g) := by
  rw [fieldCodes_eq_map, List.flatMap_map]
  have hfields : Leaves k l P (fun fs => fs.flatMap (Field.trail k))
      (all (fields.map fun f => do return .field f.1 (← (code c f.2).value)))
      (fields.flatMap fun f => g f.2) := by
    refine leaves_all fun f hf => ?_
    exact (h f.2 (List.mem_map.2 ⟨f, hf, rfl⟩)).value.map fun e he => by simpa using he
  simpa only [← fieldsTrail_eq] using hfields

section

variable {a : Analysis} (hg : Trails k l g)

include hg

/-- The `items` of an array, one after the other. -/
theorem leaves_array {items : List Analyzed} (h : ∀ s ∈ items, (code c s).Leaves k l P (g s)) :
    (code c (.array a items)).Leaves k l P (g (.array a items)) := by
  rw [hg.of_children rfl rfl, code, valueCodes_eq_map]
  exact leaves_ofValue ((leaves_all fun s hs => (h s hs).value).map fun es hes => by
    simpa [children] using hes)

variable {fields : List (String × Analyzed)}
  (h : ∀ s ∈ fields.map Prod.snd, (code c s).Leaves k l P (g s))

include h

/-- The `fields` of a record. -/
theorem leaves_record : (code c (.record a fields)).Leaves k l P (g (.record a fields)) := by
  rw [hg.of_children rfl rfl]
  exact leaves_ofObject ((leaves_fieldCodes h).map fun fs hfs => by simpa [children] using hfs)

/-- The `fields` of a constructor that is applied, after its `tag`. -/
theorem leaves_construct {type : Qualified} {tag : String} :
    (code c (.construct a type tag fields)).Leaves k l P (g (.construct a type tag fields)) := by
  rw [hg.of_children rfl rfl]
  exact leaves_ofObject ((leaves_fieldCodes h).map fun fs hfs => by
    simpa [children, tagField] using hfs)

/-- A record that is `subject` but for its `fields`. -/
theorem leaves_update {subject : Analyzed} (hsubject : (code c subject).Leaves k l P (g subject)) :
    (code c (.update a subject fields)).Leaves k l P (g (.update a subject fields)) := by
  rw [hg.of_children rfl rfl, children, List.flatMap_cons]
  refine leaves_ofObject (hsubject.value.bind fun e he => ?_)
  refine (leaves_fieldCodes h).map fun fs hfs => ?_
  simpa using he.append hfs

end

/-! ### Operators -/

section

variable {a : Analysis} {t : Analyzed} (hg : Trails k l g) (h : (code c t).Leaves k l P (g t))

include hg h

/-- What `accessor` reads from a value. The mark of an index comes after those of the value. -/
theorem leaves_access {accessor : Accessor} :
    (code c (.access a t accessor)).Leaves k l P (g (.access a t accessor)) := by
  have hbefore : (Term.access a t accessor).markBefore? k l = none := rfl
  rw [hg, hbefore, children, List.flatMap_singleton]
  refine leaves_ofValue (h.value.map fun e he => ?_)
  have hindex := he.append (.refl ((Term.access a t accessor).markAfter? k).toList)
  cases accessor <;> simpa [accessExpr, wordLit, markAfter?] using hindex

/-- Whether a value passes `guard`, whose mark comes after those of the value. -/
theorem leaves_test {guard : Guard} :
    (code c (.test a t guard)).Leaves k l P (g (.test a t guard)) := by
  have hbefore : (Term.test a t guard).markBefore? k l = none := rfl
  rw [hg, hbefore, children, List.flatMap_singleton]
  refine leaves_ofValue (h.value.map fun e he => ?_)
  have htest := he.append (.refl ((Term.test a t guard).markAfter? k).toList)
  cases guard with
  | boolean value => cases value <;> simpa [testExpr, markAfter?] using htest
  | _ => simpa [testExpr, wordLit, markAfter?] using htest

/-- `unary` has the trail of its operand. -/
theorem leaves_unary {op : UnaryOp} :
    (code c (.unary a op t)).Leaves k l P (g (.unary a op t)) := by
  rw [hg.of_children rfl rfl, children, List.flatMap_singleton]
  exact leaves_ofValue (h.value.map fun e he => by simpa using he)

/-- `binary` has the trails of both operands, left to right. -/
theorem leaves_binary {op : BinaryOp} {t' : Analyzed} (h' : (code c t').Leaves k l P (g t')) :
    (code c (.binary a op t t')).Leaves k l P (g (.binary a op t t')) := by
  rw [hg.of_children rfl rfl, children, List.flatMap_cons, List.flatMap_singleton]
  refine leaves_ofValue (h.value.bind fun e he => ?_)
  exact h'.value.map fun e' he' => by simpa using he.append he'

end

/-! ### Applications and functions -/

/-- An application of `head`, whatever `calling` says. -/
theorem leaves_app (hg : Trails k l g) {a : Analysis} {calling : Calling} {head : Analyzed}
    {args : List Analyzed} (hhead : (code c head).Leaves k l P (g head))
    (hargs : ∀ u ∈ args, (code c u).Leaves k l P (g u)) :
    (code c (.app a calling head args)).Leaves k l P (g (.app a calling head args)) := by
  have hvalues (u : Analyzed) (hu : u ∈ args) := (hargs u hu).value
  rw [hg.of_children rfl rfl, children, List.flatMap_cons]
  cases calling with
  | curried =>
    rw [code, valueCodes_eq_map]
    refine leaves_appCode (fun hsome => ?_) hhead.value hvalues
    -- what a jump leaves out is the name of a member, which has no marks
    cases head with
    | global | bound => exact hg.of_children rfl rfl
    | _ => cases hsome
  | uncurried =>
    rw [code, valueCodes_eq_map]
    exact leaves_ofValue (leaves_callAll hhead.value hvalues)
  | effectful =>
    rw [code, valueCodes_eq_map]
    exact leaves_effectAppCode hhead.value hvalues

/-- A function of `params`, whatever `calling` says. -/
theorem leaves_abs (hg : Trails k l g) {a : Analysis} {calling : Calling} {params : List Binder}
    {body : Analyzed} (h : (code c body).Leaves k l P (g body)) :
    (code c (.abs a calling params body)).Leaves k l P (g (.abs a calling params body)) := by
  rw [hg.of_children rfl rfl, children, List.flatMap_singleton]
  cases calling with
  | curried => exact leaves_curriedCode h
  | uncurried | effectful => exact leaves_arrowCode (h.block _)

/-! ### Bindings, effects and branches -/

section

variable {a : Analysis} {b : Binder} {t t' : Analyzed} (hg : Trails k l g)
  (h : (code c t).Leaves k l P (g t))

include hg h

/-- A binding of `b` to a value. -/
theorem leaves_letIn (h' : (code c t').Leaves k l P (g t')) :
    (code c (.letIn a b t t')).Leaves k l P (g (.letIn a b t t')) := by
  rw [hg.of_children rfl rfl, children, List.flatMap_cons, List.flatMap_singleton]
  exact leaves_letCode h h'

/-- `bindEffect` runs `t` before `t'`. -/
theorem leaves_bindEffect (h' : (code c t').Leaves k l P (g t')) :
    (code c (.bindEffect a b t t')).Leaves k l P (g (.bindEffect a b t t')) := by
  rw [hg.of_children rfl rfl, children, List.flatMap_cons, List.flatMap_singleton]
  exact leaves_bindCode h h'

/-- `pureEffect` has the trail of the value. -/
theorem leaves_pureEffect : (code c (.pureEffect a t)).Leaves k l P (g (.pureEffect a t)) := by
  rw [hg.of_children rfl rfl, children, List.flatMap_singleton]
  exact leaves_pureCode h

/-- `deferEffect` has the trail of the effect. -/
theorem leaves_deferEffect : (code c (.deferEffect a t)).Leaves k l P (g (.deferEffect a t)) := by
  rw [hg.of_children rfl rfl, children, List.flatMap_singleton]
  exact leaves_deferCode h

end

/-- A branch of `arms` and `default`. -/
theorem leaves_branch (hg : Trails k l g) {a : Analysis} {arms : List (Analyzed × Analyzed)}
    {default : Analyzed}
    (harms : ∀ arm ∈ arms, ∀ s ∈ [arm.1, arm.2], (code c s).Leaves k l P (g s))
    (hdefault : (code c default).Leaves k l P (g default)) :
    (code c (.branch a arms default)).Leaves k l P (g (.branch a arms default)) := by
  have htrail : g (.branch a arms default) =
      (arms.flatMap fun arm => g arm.1 ++ g arm.2) ++ g default := by
    rw [hg.of_children rfl rfl, children, List.flatMap_append, List.flatMap_singleton,
      List.flatMap_assoc]
    simp
  rw [htrail, code, armCodes_eq_map]
  exact leaves_branchCode (fun arm h => harms arm h _ (by simp))
    (fun arm h => harms arm h _ (by simp)) hdefault

/-! ### Recursive groups inside terms -/

/-- The loop of a group of functions `ts` has the mark of its rounds and the trails of all
bindings. -/
theorem leaves_loopGroup (hg : Trails k true g) {idents : List String} {refs : List Ref}
    {ts : List Analyzed} (dispatcher : Option String) (hidents : idents.length = ts.length)
    (hrefs : refs.length = ts.length) (hnumbers : 2 ≤ ts.length → ∀ j < ts.length, P j)
    (hts : ∀ t ∈ ts, ∃ a params body, t = .abs a .curried params body)
    (h : ∀ t ∈ ts, ∀ s ∈ t.children, (code c s).Leaves k true P (g s)) :
    LeavesBlock k true P
      (loopDeclarations (((idents.zip refs).zip ts).map (memberOf c)) dispatcher)
      (k.loop.toList ++ ts.flatMap g) := by
  have htrail : ((idents.zip refs).zip ts).flatMap (fun q => g q.2) = ts.flatMap g := by
    conv => rhs; rw [← (map_zip_zip hidents hrefs).2.2, List.flatMap_map]
  have hlength : ((idents.zip refs).zip ts).length = ts.length := by simp [hidents, hrefs]
  rw [← htrail]
  refine leaves_loopDeclarations dispatcher (by rwa [hlength]) fun q hq => ?_
  -- of a member only the body of its function is written in the loop
  have hq := (List.of_mem_zip hq).2
  obtain ⟨a, params, body, hfun⟩ := hts q.2 hq
  have hbody := h q.2 hq body (by rw [hfun]; exact List.mem_singleton.2 rfl)
  rw [memberOf, hfun, hg.of_children rfl rfl, children, List.flatMap_singleton]
  exact hbody.block .looping

/-- `groupDeclarations`: a recursive group, which may be a loop. -/
theorem leaves_groupDeclarations (hg : Trails k l g) {loop functions : Bool} {refs : List Ref}
    {binders : List Binder} {ts : List Analyzed} (hl : loop = true → l = true)
    (hbinders : binders.length = ts.length) (hrefs : refs.length = ts.length)
    (hnumbers : loop = true → 2 ≤ ts.length → ∀ j < ts.length, P j)
    (hloop : loop = true → ∀ t ∈ ts, ∃ a params body, t = .abs a .curried params body)
    (h : ∀ t ∈ ts, (code c t).Leaves k l P (g t))
    (hbodies : ∀ t ∈ ts, ∀ s ∈ t.children, (code c s).Leaves k l P (g s)) :
    LeavesBlock k l P (groupDeclarations loop functions refs binders (ts.map (code c)))
      ((if loop then k.loop.toList else []) ++ ts.flatMap g) := by
  have hlength : Gives (bindNames binders) fun idents => idents.length = ts.length :=
    fun p => (calmStep_bindNames binders p rfl).2.trans hbinders
  refine .skip_gives (scopes_bindNames binders) hlength fun idents hidents => ?_
  cases loop with
  | true =>
    obtain rfl := hl rfl
    rw [loopMembers?_of_functions (hloop rfl)]
    exact leaves_loopGroup hg none hidents hrefs (hnumbers rfl) (hloop rfl) hbodies
  | false =>
    have hzip : idents.zip (ts.map (code c)) = (idents.zip ts).map fun b => (b.1, code c b.2) :=
      List.zip_map_right ..
    have htrail : (idents.zip ts).flatMap (fun b => g b.2) = ts.flatMap g := by
      conv => rhs; rw [← List.map_snd_zip (Nat.le_of_eq hidents.symm), List.flatMap_map]
    simp only [Bool.false_eq_true, if_false, List.nil_append]
    rw [hzip, ← htrail]
    exact leaves_recursiveDeclarations fun b hb => h b.2 (List.of_mem_zip hb).2

/-- `letRec` has the trails of the bindings and the body, behind the mark of rounds if the group is
a loop. -/
theorem leaves_letRec (hg : Trails k l g) {a : Analysis} {level : UInt32}
    {bindings : List (String × Analyzed)} {body : Analyzed} (hc : c.loops = l)
    (hnumbers : (Term.letRec a level bindings body).MemberNumbers P)
    (hloop : a.isLoop = true → FunctionGroup (bindings.map Prod.snd))
    (h : ∀ t ∈ bindings.map Prod.snd, (code c t).Leaves k l P (g t))
    (hbodies : ∀ t ∈ bindings.map Prod.snd, ∀ s ∈ t.children, (code c s).Leaves k l P (g s))
    (hbody : (code c body).Leaves k l P (g body)) :
    (code c (.letRec a level bindings body)).Leaves k l P
      (g (.letRec a level bindings body)) := by
  have htrail : g (.letRec a level bindings body) =
      ((if a.isLoop && c.loops then k.loop.toList else []) ++
        (bindings.map Prod.snd).flatMap g) ++ g body := by
    have hafter : (Term.letRec a level bindings body).markAfter? k = none := rfl
    rw [hg, hc, hafter, children, List.flatMap_append, List.flatMap_singleton, markBefore?]
    split <;> simp
  have hsizes (hflag : a.isLoop = true) : (bindings.map fun b => b.2.arity) ∈
      (Term.letRec a level bindings body).loopArities := by
    rw [loopArities_eq, loopArities?, if_pos hflag]
    exact List.mem_append_left _ (List.mem_singleton.2 rfl)
  rw [htrail, code, bindingCodes_eq]
  refine leaves_ofBlock fun mode => ?_
  refine Leaves.bind (leaves_groupDeclarations hg ?_ (by simp) (by simp [groupRefs]) ?_ ?_ h
    hbodies) fun decls hdecls => (hbody.block mode).map fun rest hrest => ?_
  · exact fun hflag => hc ▸ (Bool.and_eq_true_iff.1 hflag).2
  · intro hflag
    simpa using hnumbers _ (hsizes (Bool.and_eq_true_iff.1 hflag).1)
  · exact fun hflag => (hloop (Bool.and_eq_true_iff.1 hflag).1).functions
  · simpa using hdecls.append hrest

/-! ### All terms -/

/-- If the flagged groups in `t` consist of functions, all ways to lower `t` have the trail `g t`.
The children are listed because a loop lowers the body of a binding, not the binding. -/
theorem leaves_code (hg : Trails k l g) (hc : c.loops = l) (t : Analyzed) (hf : t.FlagsFunctions)
    (hnumbers : t.MemberNumbers P) :
    (code c t).Leaves k l P (g t) ∧ ∀ s ∈ t.children, (code c s).Leaves k l P (g s) := by
  induction t using children_induction with
  | step t ih =>
  have hchild (s : Analyzed) (hs : s ∈ t.children) : (code c s).Leaves k l P (g s) :=
    (ih s hs (hf.child hs) (hnumbers.child hs)).1
  -- the second half is for members of loops, of which only the bodies are converted
  refine ⟨?_, hchild⟩
  cases t with
  | global => exact leaves_global hg
  | bound => exact leaves_bound hg
  | lit => exact leaves_lit hg
  | constructor => exact leaves_constructor hg
  | undefined => exact leaves_undefined hg
  | fail => exact leaves_fail hg
  | array => exact leaves_array hg hchild
  | record => exact leaves_record hg hchild
  | construct => exact leaves_construct hg hchild
  | update a subject fields =>
    exact leaves_update hg (fun s hs => hchild s (List.mem_cons_of_mem _ hs))
      (hchild subject (List.mem_cons_self ..))
  | access a subject => exact leaves_access hg (hchild subject (List.mem_singleton.2 rfl))
  | test a subject => exact leaves_test hg (hchild subject (List.mem_singleton.2 rfl))
  | unary a op operand => exact leaves_unary hg (hchild operand (List.mem_singleton.2 rfl))
  | binary a op left right =>
    exact leaves_binary hg (hchild left (by simp [children])) (hchild right (by simp [children]))
  | app a calling head args =>
    exact leaves_app hg (hchild head (List.mem_cons_self ..))
      fun u hu => hchild u (List.mem_cons_of_mem _ hu)
  | abs a calling params body => exact leaves_abs hg (hchild body (List.mem_singleton.2 rfl))
  | letIn a b value body =>
    exact leaves_letIn hg (hchild value (by simp [children])) (hchild body (by simp [children]))
  | letRec a level bindings body =>
    refine leaves_letRec hg hc hnumbers
      (hf a level bindings body (mem_subterms_iff.2 (.inl rfl))) ?_ ?_
      (hchild body (by simp [children]))
    · exact fun s hs => hchild s (List.mem_append_left _ hs)
    · intro s hs
      have hs := List.mem_append_left [body] hs
      exact (ih s hs (hf.child hs) (hnumbers.child hs)).2
  | bindEffect a b effect body =>
    exact leaves_bindEffect hg (hchild effect (by simp [children]))
      (hchild body (by simp [children]))
  | pureEffect a value => exact leaves_pureEffect hg (hchild value (List.mem_singleton.2 rfl))
  | deferEffect a effect => exact leaves_deferEffect hg (hchild effect (List.mem_singleton.2 rfl))
  | branch a arms default =>
    refine leaves_branch hg (fun arm harm s hs => hchild s ?_) (hchild default (by simp [children]))
    exact List.mem_append_left _ (List.mem_flatMap.2 ⟨arm, harm, hs⟩)

/-! ## Units -/

/-- What `m` leaves, it leaves at the start of a declaration, which is inside no loop. -/
theorem padded_runIn {m : Lowering (List Stmt)} (h : LeavesBlock k l P m ms) (c : Context) :
    Padded (LoopMark k l P) ms (trailIn k (m.runIn (.ofContext c)).result) := by
  have hstart : Encloses l P (Env.ofContext c).scopes := by simp [Encloses, Env.ofContext]
  exact (h ⟨.ofContext c, [], none⟩ hstart).2

/-- `binding` declares a value under `name`, which has no mark. -/
theorem padded_binding {t : Analyzed} (name : String) (h : (code c t).Leaves k l P ms) :
    Padded (LoopMark k l P) ms (trailIn k (binding c name t).result) :=
  padded_runIn (h.value.map fun e he => by simpa using he) c

end TailLoop.Lower

namespace TailLoop

open Script Term

variable {M : Type} {k : Marking M} {P : Nat → Prop} {g : Analyzed → List M}

/-- The trail of a group: the mark of its loop, if it is one and there are `loops`, and the trails
of its bindings. -/
def AnalyzedGroup.trail (k : Marking M) (loops : Bool) (g : Analyzed → List M)
    (group : AnalyzedGroup) : List M :=
  (if group.isLoop && loops then k.loop.toList else []) ++ (group.bindings.map Prod.snd).flatMap g

/-- The declarations of `group` have its trail, up to marks of loops. -/
theorem Lower.padded_group {c : Lower.Context} (hg : Trails k c.loops g) (m : String)
    (group : BindingGroup)
    (hnumbers : ∀ arities ∈ (group.analyze m).loopShapes.flatten, 2 ≤ arities.length →
      ∀ j < arities.length, P j) :
    Padded (Lower.LoopMark k c.loops P) ((group.analyze m).trail k c.loops g)
      (trailIn k (Lower.group c (group.analyze m)).result) := by
  -- the numbers of members in terms are among those of the group
  have hterm (t : Analyzed) (ht : t ∈ (group.analyze m).bindings.map Prod.snd) :
      t.MemberNumbers P := by
    intro arities harities
    refine hnumbers arities ?_
    unfold AnalyzedGroup.loopShapes
    split
    · rw [List.flatten_singleton]
      exact List.mem_cons_of_mem _ (List.mem_flatMap.2 ⟨t, ht, harities⟩)
    · obtain ⟨b, hb, rfl⟩ := List.mem_map.1 ht
      exact List.mem_flatten.2 ⟨_, List.mem_map.2 ⟨b, hb, rfl⟩, harities⟩
  have hcode (t : Analyzed) (ht : t ∈ (group.analyze m).bindings.map Prod.snd) :
      (Lower.code c t).Leaves k c.loops P (g t) ∧
        ∀ s ∈ t.children, (Lower.code c s).Leaves k c.loops P (g s) := by
    have hflags : t.FlagsFunctions := by
      obtain ⟨b, -, rfl⟩ := BindingGroup.exists_of_mem_analyze ht
      exact flagsFunctions_analyze _ b.2
    exact Lower.leaves_code hg rfl t hflags (hterm t ht)
  -- a loop is converted as a whole, other groups binding by binding
  cases hflag : (group.analyze m).isLoop && c.loops with
  | true =>
    obtain ⟨hloop, hc⟩ := Bool.and_eq_true_iff.1 hflag
    have hfunctions := (functionGroup_group hloop).functions
    have hshape : ((group.analyze m).bindings.map Prod.snd).map arity ∈
        (group.analyze m).loopShapes.flatten := by
      rw [AnalyzedGroup.loopShapes, if_pos hloop, List.flatten_singleton]
      exact List.mem_cons_self ..
    rw [Lower.group_eq_loop hc hloop hfunctions, AnalyzedGroup.trail, hflag, if_pos rfl]
    rw [hc] at hg hcode ⊢
    exact Lower.padded_runIn (Lower.leaves_loopGroup hg _ (by simp) (by simp [topRefs])
      (by simpa using hnumbers _ hshape) hfunctions fun t ht => (hcode t ht).2) c
  | false =>
    have hgroup : (Lower.group c (group.analyze m)).result =
        (group.analyze m).bindings.flatMap fun b => (Lower.binding c b.1 b.2).result := by
      rw [Lower.group, hflag]
      simp only [Lower.Outcome.result_concat, List.flatMap_map]
    rw [hgroup, AnalyzedGroup.trail, hflag, trailIn_eq, List.flatMap_assoc, List.flatMap_map]
    refine .flatMap fun b hb => ?_
    rw [← trailIn_eq]
    exact Lower.padded_binding b.1 (hcode b.2 (List.mem_map.2 ⟨b, hb, rfl⟩)).1

/-- `j` is the number of a member of a loop of `u` that several functions share. -/
def CompilationUnit.IsMemberNumber (u : CompilationUnit) (j : Nat) : Prop :=
  ∃ arities ∈ (u.analyze.flatMap AnalyzedGroup.loopShapes).flatten,
    2 ≤ arities.length ∧ j < arities.length

/-- The declarations of `u` have the trails of its groups in order, up to marks of loops. -/
theorem Lower.padded_module {loops : Bool} (hg : Trails k loops g) (u : CompilationUnit) :
    Padded (Lower.LoopMark k loops u.IsMemberNumber)
      (u.analyze.flatMap (AnalyzedGroup.trail k loops g))
      (trailIn k (Lower.module u loops).result.declarations) := by
  have hc : (Lower.Context.ofUnit u loops).loops = loops :=
    (Lower.Context.ofUnit_fields u loops).2.1
  rw [Lower.declarations_module, trailIn_eq, List.flatMap_assoc]
  refine .flatMap fun g' hg' => ?_
  obtain ⟨group, -, rfl⟩ := List.mem_map.1 hg'
  have hgroup := Lower.padded_group (c := .ofUnit u loops) (P := u.IsMemberNumber) (hc.symm ▸ hg)
    u.name group fun arities harities hseveral j hj =>
      ⟨arities, List.mem_flatten.2 ?_, hseveral, hj⟩
  · rwa [hc, trailIn_eq] at hgroup
  · obtain ⟨shape, hshape, harities⟩ := List.mem_flatten.1 harities
    exact ⟨shape, List.mem_flatMap.2 ⟨_, hg', hshape⟩, harities⟩

end TailLoop
