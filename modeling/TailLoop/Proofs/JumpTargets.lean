import TailLoop.Proofs.BlockEnds
import TailLoop.Proofs.EmissionLoops

/-!
# Targets of jumps

A jump assigns the selector and the slots of the loop it is in and starts its next round. The
relations of this module say that a script jumps in this way only. They list the loops of a script
from the outermost to the innermost, and the names that it assigns elsewhere, so that the variables
of a loop can be told from everything else that is assigned.

* `JumpTarget`: a loop, as its jumps see it.
* `ExprJumps`, `BlockJumps`: all jumps in an expression or a block go to the loop around them.
* `Writes`: lowering steps that write such scripts, with loops of given shapes.
-/

namespace TailLoop.Script

/-! ## Loops and jumps of scripts -/

/-- A loop, as its jumps see it: `selector`, `slots` and arities. -/
structure JumpTarget where
  /-- The variable that says which member runs next, if there are several. -/
  selector : Option String
  /-- The variables that carry arguments from one round to the next. -/
  slots : List String
  /-- The numbers of parameters of the members. -/
  arities : List Nat

/-- The `selector`, if there is one, and the `slots`. -/
def JumpTarget.variables (G : JumpTarget) : List String := G.selector.toList ++ G.slots

/-- The expression after the key of a `field` or the dots of a `spread`. -/
def Field.value : Field → Expr
  | .field _ e | .spread e => e

/-- The expressions that an expression consists of, or `none` for a function. -/
def Expr.parts? : Expr → Option (List Expr)
  | .ident _ | .int _ | .number _ | .text _ | .boolean _ | .undefined => some []
  | .array items => some items
  | .object fields => some (fields.map Field.value)
  | .access subject _ => some [subject]
  | .index subject position => some [subject, position]
  | .call callee args | .new callee args => some (callee :: args)
  | .arrow .. => none
  | .unary _ operand => some [operand]
  | .binary _ left right => some [left, right]
  | .conditional test yes no => some [test, yes, no]

/-- The expressions that a statement consists of, or `none` for one that assigns, jumps or holds a
block. -/
def Stmt.parts? : Stmt → Option (List Expr)
  | .const _ value | .declare _ (some value) | .expr value | .ret value | .retObject value
  | .throw value => some [value]
  | .declare _ none | .retUndefined => some []
  | .assign .. | .chain _ | .loop _ | .again => none

/-- The functions that enter the shared loop `label` at the members from a position on, which have
these arities. -/
inductive EntriesFor (label : String) : Nat → List Nat → List Stmt → Prop
  | nil {i : Nat} : EntriesFor label i [] []
  | cons {i k : Nat} {ks : List Nat} {x : String} {copies : List String} {rest : List Stmt} :
      copies.length = k → EntriesFor label (i + 1) ks rest →
      EntriesFor label i (k :: ks) (.const x (Lower.entryFunction label i copies) :: rest)

mutual

/-- All jumps in an expression go to the loops around them. `A` are the names that are assigned
other than by jumps, `Gs` the loops. -/
inductive ExprJumps : Expr → List String → List JumpTarget → Prop
  | node {e es A Gs} : e.parts? = some es → ExprsJump es A Gs → ExprJumps e A Gs
  /-- A loop around a function is out of reach for jumps in the function. -/
  | function {params body A Gs} : BlockJumps none body A Gs → ExprJumps (.arrow params body) A Gs
  /-- A function that declares the slots and then repeats the body of its only member. -/
  | loop {params copies slots body A Gs} : copies.length = slots.length →
      BlockJumps (some ⟨none, slots, [slots.length]⟩) body A Gs →
      ExprJumps (.arrow params
          ((slots.zip copies).map (fun p => .declare p.1 (some (.ident p.2))) ++ [.loop body]))
        A (⟨none, slots, [slots.length]⟩ :: Gs)

/-- `ExprJumps` for expressions one after the other. -/
inductive ExprsJump : List Expr → List String → List JumpTarget → Prop
  | nil : ExprsJump [] [] []
  | cons {e es A A' Gs Gs'} : ExprJumps e A Gs → ExprsJump es A' Gs' →
      ExprsJump (e :: es) (A ++ A') (Gs ++ Gs')

/-- All jumps in a block go to the loops around them. `place` is the loop whose body the block
belongs to, if it does not start a function. -/
inductive BlockJumps : Option JumpTarget → List Stmt → List String → List JumpTarget → Prop
  | nil {place} : BlockJumps place [] [] []
  | plain {place s es rest A A' Gs Gs'} : s.parts? = some es → ExprsJump es A Gs →
      BlockJumps place rest A' Gs' → BlockJumps place (s :: rest) (A ++ A') (Gs ++ Gs')
  | assign {place x e rest A A' Gs Gs'} : ExprJumps e A Gs → BlockJumps place rest A' Gs' →
      BlockJumps place (.assign x e :: rest) (x :: A ++ A') (Gs ++ Gs')
  | chain {place arms rest A A' Gs Gs'} : ArmsJump place arms A Gs →
      BlockJumps place rest A' Gs' →
      BlockJumps place (.chain arms :: rest) (A ++ A') (Gs ++ Gs')
  /-- A function that repeats the bodies of several members, and the functions that enter it. -/
  | shared {place label selector slots arities body entries rest A A' Gs Gs'} :
      EntriesFor label 0 arities entries →
      BlockJumps (some ⟨some selector, slots, arities⟩) body A Gs →
      BlockJumps place rest A' Gs' →
      BlockJumps place
        (.const label (.arrow (selector :: slots) [.loop body]) :: (entries ++ rest))
        (A ++ A') (⟨some selector, slots, arities⟩ :: (Gs ++ Gs'))
  /-- A jump to a member assigns as many slots as the member has parameters, and ends the block. -/
  | jump {G j values A Gs} : G.arities[j]? = some values.length →
      values.length ≤ G.slots.length → ExprsJump values A Gs →
      BlockJumps (some G) (Lower.jumpBlock G.selector j G.slots values) A Gs

/-- `BlockJumps` for the blocks of a chain, `ExprJumps` for its conditions. -/
inductive ArmsJump : Option JumpTarget → List (Expr × List Stmt) → List String →
    List JumpTarget → Prop
  | nil {place} : ArmsJump place [] [] []
  | cons {place cond block arms A A' A'' Gs Gs' Gs''} : ExprJumps cond A Gs →
      BlockJumps place block A' Gs' → ArmsJump place arms A'' Gs'' →
      ArmsJump place ((cond, block) :: arms) (A ++ (A' ++ A'')) (Gs ++ (Gs' ++ Gs''))

end

/-- The jumps in `decls` go to its loops, which have the arities `shape`. Nothing else in `decls`
assigns a variable of a loop, and the variables of two loops differ. -/
def JumpsWell (decls : List Stmt) (shape : List (List Nat)) : Prop :=
  ∃ A Gs, BlockJumps none decls A Gs ∧ Gs.map JumpTarget.arities = shape ∧
    (Gs.flatMap JumpTarget.variables).Nodup ∧ ∀ x ∈ A, x ∉ Gs.flatMap JumpTarget.variables

variable {e e' : Expr} {es : List Expr} {A A' : List String} {Gs Gs' : List JumpTarget}
  {place : Option JumpTarget} {body : List Stmt}

/-- One expression `e`. -/
theorem ExprsJump.one (h : ExprJumps e A Gs) : ExprsJump [e] A Gs := by
  have h' := ExprsJump.cons h .nil
  rwa [List.append_nil, List.append_nil] at h'

/-- `e` before `e'`. -/
theorem ExprsJump.two (h : ExprJumps e A Gs) (h' : ExprJumps e' A' Gs') :
    ExprsJump [e, e'] (A ++ A') (Gs ++ Gs') := .cons h (.one h')

/-- An expression with the one part `e'` has the jumps of `e'`. -/
theorem ExprJumps.wrap (he : e.parts? = some [e']) (h : ExprJumps e' A Gs) : ExprJumps e A Gs :=
  .node he (.one h)

/-- To call `e` without arguments adds no jump. -/
theorem ExprJumps.called (h : ExprJumps e A Gs) : ExprJumps (.call e []) A Gs := .wrap rfl h

/-- Expressions without parts have no jumps. -/
theorem ExprsJump.of_leaves (h : ∀ e ∈ es, e.parts? = some []) : ExprsJump es [] [] := by
  induction es with
  | nil => exact .nil
  | cons e es ih =>
    have hrest := ih fun e' he' => h e' (List.mem_cons_of_mem _ he')
    exact .cons (.node (h e (List.mem_cons_self ..)) .nil) hrest

/-- A block of the one statement `s`, with the parts `es`. -/
theorem BlockJumps.one {s : Stmt} (hs : s.parts? = some es) (h : ExprsJump es A Gs) :
    BlockJumps place [s] A Gs := by
  have h' : BlockJumps place [s] (A ++ []) (Gs ++ []) := .plain hs h .nil
  rwa [List.append_nil, List.append_nil] at h'

/-- `Expr.curried` takes its `params` one by one, whatever they are called. -/
theorem ExprJumps.curried {params : List String}
    (h : ∀ ps, ExprJumps (.arrow ps body) A Gs) : ExprJumps (.curried params body) A Gs := by
  fun_induction Expr.curried params body with
  | case1 => exact h []
  | case2 => exact h _
  | case3 _ _ _ _ ih => exact .function (.one rfl (.one (ih h)))

/-- `decls` can stand in front of every block. They add the assigned names `A` and the loops `Gs` to
those of the block. -/
def Opens (decls : List Stmt) (A : List String) (Gs : List JumpTarget) : Prop :=
  ∀ place rest A' Gs', BlockJumps place rest A' Gs' →
    BlockJumps place (decls ++ rest) (A ++ A') (Gs ++ Gs')

/-- Nothing in front of a block adds nothing. -/
theorem Opens.nil : Opens [] [] [] := fun _ _ _ _ h => h

/-- `decls` and `decls'` in front of a block. -/
theorem Opens.append {decls decls' : List Stmt} (h : Opens decls A Gs)
    (h' : Opens decls' A' Gs') : Opens (decls ++ decls') (A ++ A') (Gs ++ Gs') := by
  intro place rest A'' Gs'' hrest
  rw [List.append_assoc, List.append_assoc, List.append_assoc]
  exact h _ _ _ _ (h' _ _ _ _ hrest)

/-- A statement `s` adds what its parts `es` add. -/
theorem Opens.plain {s : Stmt} (hs : s.parts? = some es) (h : ExprsJump es A Gs) :
    Opens [s] A Gs := fun _ _ _ _ hrest => .plain hs h hrest

/-- An assignment adds the name `x`. -/
theorem Opens.assign {x : String} (h : ExprJumps e A Gs) : Opens [.assign x e] (x :: A) Gs :=
  fun _ _ _ _ hrest => .assign h hrest

/-- In front of the empty block, `decls` are a block. -/
theorem Opens.toBlock {decls : List Stmt} (h : Opens decls A Gs) : BlockJumps place decls A Gs := by
  have h' := h place [] [] [] .nil
  rwa [List.append_nil, List.append_nil, List.append_nil] at h'

/-- Statements whose parts have no parts add nothing. -/
theorem Opens.of_leaves {decls : List Stmt}
    (h : ∀ s ∈ decls, ∃ es, s.parts? = some es ∧ ∀ e ∈ es, e.parts? = some []) :
    Opens decls [] [] := by
  induction decls with
  | nil => exact .nil
  | cons s rest ih =>
    obtain ⟨es, hs, hes⟩ := h s (List.mem_cons_self ..)
    have hrest := ih fun s' hs' => h s' (List.mem_cons_of_mem _ hs')
    exact (Opens.plain hs (.of_leaves hes)).append hrest

end TailLoop.Script

namespace TailLoop.Lower

open Script Lowering Term

/-! ## Names that a step takes -/

variable {p p' p'' : Progress} {A A' V V' : List String}

/-- From `p` to `p'` the names `A`, which are assigned, and the variables `V` of loops were taken,
and no variable was taken twice. -/
structure Claims (p p' : Progress) (A V : List String) : Prop where
  /-- Taken names stay taken, and the loops are restored. -/
  kept : Kept [] p p'
  /-- None of the names was taken before. -/
  new : ∀ x ∈ A ++ V, p.env.isTaken x = false
  /-- All of them are taken now. -/
  used : ∀ x ∈ A ++ V, p'.env.isTaken x = true
  /-- The variables differ. -/
  nodup : V.Nodup
  /-- No variable is assigned elsewhere. -/
  apart : ∀ x ∈ A, x ∉ V

/-- `Kept` with no new names claims none. -/
theorem Kept.claims (h : Kept [] p p') : Claims p p' [] [] := ⟨h, by simp, by simp, .nil, by simp⟩

/-- `x`, claimed by then, is taken in `p'`, so a name `y` that is free there is another. -/
theorem Claims.ne {x y : String} (h : Claims p p' A V) (hx : x ∈ A ++ V)
    (hy : p'.env.isTaken y = false) : x ≠ y := by
  rintro rfl
  rw [h.used x hx] at hy
  cases hy

/-- The names of two steps are those of the first and those of the second. -/
theorem mem_append_swap {x : String} (h : x ∈ A ++ A' ++ (V ++ V')) :
    x ∈ A ++ V ∨ x ∈ A' ++ V' := by
  simp only [List.mem_append] at h ⊢
  grind

/-- The names that two steps claim differ, because the second finds those of the first taken. -/
theorem Claims.trans (h : Claims p p' A V) (h' : Claims p' p'' A' V') :
    Claims p p'' (A ++ A') (V ++ V') where
  kept := h.kept.trans h'.kept
  new x hx := by
    rcases mem_append_swap hx with hx | hx
    · exact h.new x hx
    · have hfree := h'.new x hx
      rw [Bool.eq_false_iff] at hfree ⊢
      exact fun htaken => hfree (h.kept.taken x htaken)
  used x hx := by
    rcases mem_append_swap hx with hx | hx
    · exact h'.kept.taken x (h.used x hx)
    · exact h'.used x hx
  nodup := by
    refine List.nodup_append.2 ⟨h.nodup, h'.nodup, fun x hx y hy => ?_⟩
    exact h.ne (List.mem_append_right _ hx) (h'.new y (List.mem_append_right _ hy))
  apart x hx hmem := by
    rcases List.mem_append.1 hx with hx | hx <;> rcases List.mem_append.1 hmem with hmem | hmem
    · exact h.apart x hx hmem
    · exact h.ne (List.mem_append_left _ hx) (h'.new x (List.mem_append_right _ hmem)) rfl
    · exact h.ne (List.mem_append_right _ hmem) (h'.new x (List.mem_append_left _ hx)) rfl
    · exact h'.apart x hx hmem

/-- The assigned names `A` may be reordered, and some forgotten. -/
theorem Claims.perm (h : Claims p p' A V) (hA : ∀ x ∈ A', x ∈ A) : Claims p p' A' V where
  kept := h.kept
  new x hx := h.new x (List.mem_append.2 ((List.mem_append.1 hx).imp_left (hA x)))
  used x hx := h.used x (List.mem_append.2 ((List.mem_append.1 hx).imp_left (hA x)))
  nodup := h.nodup
  apart x hx := h.apart x (hA x hx)

/-- `freshNames` claims its names as variables of a loop. -/
theorem claims_freshNames (bases : List String) (p : Progress) :
    Claims p (freshNames bases p).2 [] (freshNames bases p).1 := by
  obtain ⟨-, hkept, hnodup, htaken⟩ := freshNames_spec [] p bases
  exact ⟨hkept, fun x hx => (htaken x hx).1, fun x hx => (htaken x hx).2, hnodup, by simp⟩

/-- `freshName` claims its name as a variable of a loop. -/
theorem claims_freshName (base : String) (p : Progress) :
    Claims p (freshName base p).2 [] [(freshName base p).1] := claims_freshNames [base] p

/-- If the binder `b` has a name of its own, `bindName` takes one that was not taken. -/
theorem bindName_spec (b : Binder) (p : Progress) : Kept [] p (bindName b p).2 ∧
    (b.name.isSome = true → p.env.isTaken (bindName b p).1 = false ∧
      (bindName b p).2.env.isTaken (bindName b p).1 = true) := by
  obtain ⟨name, level⟩ := b
  cases name with
  | none => exact ⟨⟨fun _ h => h, by simp, rfl⟩, by simp⟩
  | some name =>
    have htaken (x : String) (h : x = (p.env.fresh name).1 ∨ p.env.isTaken x = true) :
        (p.env.fresh name).2.isTaken x = true := Env.isTaken_fresh_snd h
    refine ⟨⟨fun x hx => htaken x (.inr hx), by simp, rfl⟩, fun _ => ?_⟩
    exact ⟨Env.isTaken_fresh_fst p.env name, htaken _ (.inl rfl)⟩

/-- If all of `bs` have names of their own, `bindNames` claims its names as assigned. -/
theorem claims_bindNames {bs : List Binder} (h : ∀ b ∈ bs, b.name.isSome = true) (p : Progress) :
    Claims p (bindNames bs p).2 (bindNames bs p).1 [] := by
  induction bs generalizing p with
  | nil => exact (Kept.refl [] p).claims
  | cons b rest ih =>
    obtain ⟨hkept, htaken⟩ := bindName_spec b p
    obtain ⟨hnew, hused⟩ := htaken (h b (List.mem_cons_self ..))
    have hfirst : Claims p (bindName b p).2 [(bindName b p).1] [] :=
      ⟨hkept, by simpa using hnew, by simpa using hused, .nil, by simp⟩
    exact hfirst.trans (ih (fun b' hb' => h b' (List.mem_cons_of_mem _ hb')) (bindName b p).2)

/-! ## Steps and the jumps they write -/

variable {α β : Type}

/-- The loop `s` that is being written, as its jumps see it. -/
def LoopScope.target (s : LoopScope) : JumpTarget := ⟨s.selector, s.slots, s.members.map Prod.snd⟩

/-- The loop that a block for `mode` is the body of: the innermost of `S`, if `mode` says so. -/
def placeOf (mode : Mode) (S : List LoopScope) : Option JumpTarget :=
  if mode.loop then S.head?.map LoopScope.target else none

/-- Every loop of `S` has slots enough for its members. -/
def Roomy (S : List LoopScope) : Prop := ∀ s ∈ S, ∀ m ∈ s.members, m.2 ≤ s.slots.length

/-- Inside loops with slots enough, the step writes something with loops of the given shapes. It is
as `out` says of the loops around it, of the names that are assigned, and of the loops written. -/
def Writes (m : Lowering α) (shape : List (List Nat))
    (out : List LoopScope → α → List String → List JumpTarget → Prop) : Prop :=
  ∀ p, Roomy p.env.scopes → ∃ A Gs,
    Claims p (m p).2 A (Gs.flatMap JumpTarget.variables) ∧ Gs.map JumpTarget.arities = shape ∧
      out p.env.scopes (m p).1 A Gs

/-- `m` claims no name and writes nothing. -/
def Quiet (m : Lowering α) : Prop := ∀ p, Kept [] p (m p).2

section Writes

variable {m : Lowering α} {k : α → Lowering β} {shape shape' : List (List Nat)}
  {out out' : List LoopScope → α → List String → List JumpTarget → Prop}
  {outβ : List LoopScope → β → List String → List JumpTarget → Prop}

/-- `pure a` writes `a`, with no assigned names and no loops. -/
theorem Writes.pure {a : α} (h : ∀ S, out S a [] []) : Writes (pure a) [] out :=
  fun p _ => ⟨[], [], (Kept.refl [] p).claims, rfl, h _⟩

/-- `m` writes loops of `shape`, then `k` those of `shape'`, and `k` may assume `gives` of what `m`
gives. -/
theorem Writes.bind_gives {gives : α → Prop} (hm : Writes m shape out) (hgives : Gives m gives)
    (hk : ∀ a, gives a → Writes (k a) shape' fun S b A' Gs' =>
      ∀ A Gs, out S a A Gs → outβ S b (A ++ A') (Gs ++ Gs')) :
    Writes (m >>= k) (shape ++ shape') outβ := by
  intro p hp
  obtain ⟨A, Gs, hclaims, hshape, hout⟩ := hm p hp
  have hscopes := hclaims.kept.scopes
  obtain ⟨A', Gs', hclaims', hshape', hout'⟩ := hk (m p).1 (hgives p) (m p).2 (hscopes ▸ hp)
  refine ⟨A ++ A', Gs ++ Gs', ?_, ?_, ?_⟩
  · rw [List.flatMap_append]
    exact hclaims.trans hclaims'
  · rw [List.map_append, hshape, hshape']
  · rw [hscopes] at hout'
    exact hout' A Gs hout

/-- The same, with nothing assumed of what `m` gives. -/
theorem Writes.bind (hm : Writes m shape out) (hk : ∀ a, Writes (k a) shape' fun S b A' Gs' =>
    ∀ A Gs, out S a A Gs → outβ S b (A ++ A') (Gs ++ Gs')) :
    Writes (m >>= k) (shape ++ shape') outβ := hm.bind_gives (.any m) fun a _ => hk a

/-- What `out` says of `A` may be shown of fewer names `A'` in another order. -/
theorem Writes.perm (hm : Writes m shape fun S a A Gs =>
    ∃ A', out S a A' Gs ∧ ∀ x ∈ A', x ∈ A) : Writes m shape out := by
  intro p hp
  obtain ⟨A, Gs, hclaims, hshape, A', hout, hA⟩ := hm p hp
  exact ⟨A', Gs, hclaims.perm hA, hshape, hout⟩

/-- What is known of the result, `out`, can be weakened. -/
theorem Writes.mono (hm : Writes m shape out) (h : ∀ S a A Gs, out S a A Gs → out' S a A Gs) :
    Writes m shape out' := by
  intro p hp
  obtain ⟨A, Gs, hclaims, hshape, hout⟩ := hm p hp
  exact ⟨A, Gs, hclaims, hshape, h _ _ _ _ hout⟩

/-- `f` may wrap the result. -/
theorem Writes.map {f : α → β} (hm : Writes m shape out)
    (h : ∀ S a A Gs, out S a A Gs → outβ S (f a) A Gs) :
    Writes (do return f (← m)) shape outβ := by
  intro p hp
  obtain ⟨A, Gs, hclaims, hshape, hout⟩ := hm p hp
  exact ⟨A, Gs, hclaims, hshape, h _ _ _ _ hout⟩

/-- A `Quiet` step `m` can go first, and `k` may assume `gives` of what it gives. -/
theorem Writes.skip_gives {gives : α → Prop} (hm : Quiet m) (hgives : Gives m gives)
    (hk : ∀ a, gives a → Writes (k a) shape outβ) : Writes (m >>= k) shape outβ := by
  intro p hp
  obtain ⟨A, Gs, hclaims, hshape, hout⟩ := hk (m p).1 (hgives p) (m p).2 ((hm p).scopes ▸ hp)
  refine ⟨A, Gs, (hm p).claims.trans hclaims, hshape, ?_⟩
  rw [(hm p).scopes] at hout
  exact hout

/-- A `Quiet` step `m` can go first, whatever it gives. -/
theorem Writes.skip (hm : Quiet m) (hk : ∀ a, Writes (k a) shape outβ) :
    Writes (m >>= k) shape outβ := .skip_gives hm (.any m) fun a _ => hk a

/-- A `Quiet` step with its result wrapped by `f` writes no loop. -/
theorem Writes.of_quiet {f : α → β} (hm : Quiet m) (h : ∀ S a, outβ S (f a) [] []) :
    Writes (do return f (← m)) [] outβ := .skip hm fun a => .pure fun S => h S a

/-- `report` writes nothing. -/
theorem quiet_report (detail : Detail) (message : String) : Quiet (report detail message) :=
  fun p => kept_report [] p detail message

/-- `freshName` writes nothing. -/
theorem quiet_freshName (base : String) : Quiet (freshName base) :=
  fun p => kept_freshName [] p base

/-- `freshNames` writes nothing. -/
theorem quiet_freshNames (bases : List String) : Quiet (freshNames bases) :=
  fun p => (freshNames_spec [] p bases).2.1

/-- `bindName` writes nothing. -/
theorem quiet_bindName (b : Binder) : Quiet (bindName b) := fun p => (bindName_spec b p).1

/-- `bindNames` writes nothing. -/
theorem quiet_bindNames (bs : List Binder) : Quiet (bindNames bs) := by
  induction bs with
  | nil => exact fun p => .refl [] p
  | cons b rest ih => exact fun p => (quiet_bindName b p).trans (ih (bindName b p).2)

/-- If all of `bs` have names of their own, `bindNames` gives names that can be assigned. -/
theorem writes_bindNames {bs : List Binder} (h : ∀ b ∈ bs, b.name.isSome = true) :
    Writes (bindNames bs) [] fun _ idents A Gs => A = idents ∧ Gs = [] :=
  fun p _ => ⟨_, [], claims_bindNames h p, rfl, rfl, rfl⟩

/-- `nameOf` writes nothing. -/
theorem quiet_nameOf (b : Binder) : Quiet (nameOf b) := fun p => .refl [] p

end Writes

/-! ## Ways to lower a term -/

/-- `m` writes an expression with loops of `shape`, whose jumps go to the loops around them. -/
abbrev WritesExpr (m : Lowering Script.Expr) (shape : List (List Nat)) : Prop :=
  Writes m shape fun _ e A Gs => ExprJumps e A Gs

/-- `m` writes statements that can stand in front of every block, with loops of `shape`. -/
abbrev WritesDecls (m : Lowering (List Stmt)) (shape : List (List Nat)) : Prop :=
  Writes m shape fun _ decls A Gs => Opens decls A Gs

/-- `m` writes a block for `mode`, with loops of `shape`. -/
abbrev WritesBlock (mode : Mode) (m : Lowering (List Stmt)) (shape : List (List Nat)) : Prop :=
  Writes m shape fun S block A Gs => BlockJumps (placeOf mode S) block A Gs

/-- All ways to lower by `K` write loops of `shape`, and jumps to the loops around them. -/
structure Code.JumpsTo (K : Code) (shape : List (List Nat)) : Prop where
  /-- The expression. -/
  value : WritesExpr K.value shape
  /-- The statement that returns it. -/
  returned : Writes K.returned shape fun _ s A Gs => ∃ es, s.parts? = some es ∧ ExprsJump es A Gs
  /-- The effect. -/
  run : WritesExpr K.run shape
  /-- The block. -/
  block : ∀ mode, WritesBlock mode (K.block mode) shape

variable {K K' : Code} {shape shape' : List (List Nat)}

end TailLoop.Lower
