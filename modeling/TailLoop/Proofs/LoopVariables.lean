import TailLoop.Proofs.JumpTargets

/-!
# Where the variables of loops are mentioned

The selector and the slots of a loop are declared by the function around the loop and assigned by
its jumps. They are read in two places only: the constants that copy the slots at the start of a
member, and the tests that choose the member. The relations of this module say so of a script: they
go through all its names, list its loops from the outermost to the innermost, and hold all other
names to a given condition.

* `LoopFunction`: a loop with the function around it.
* `ExprMentions`, `BlockMentions`: all names of a script are as a condition says, except for the
  variables of its loops in their places.
* `Known`: names that a lowering step can mention.
* `Mentions`: lowering steps that write such scripts.
-/

namespace TailLoop.Script

/-! ## Scripts and their names -/

/-- A loop with the function around it. -/
structure LoopFunction where
  /-- The loop, as its jumps see it. -/
  target : JumpTarget
  /-- The parameters of the function. -/
  params : List String
  /-- The body of the function. -/
  body : List Stmt

/-- The selectors and the slots of the loops `Ls`. -/
def variablesOf (Ls : List LoopFunction) : List String := Ls.flatMap fun L => L.target.variables

/-- The name that an expression is, if it is one. -/
def Expr.name? : Expr → Option String
  | .ident x => some x
  | _ => none

/-- The name that a statement declares. A function that is a loop has a form of its own. -/
def Stmt.name? : Stmt → Option String
  | .const x _ | .declare x _ => some x
  | _ => none

/-- The constants `names` copy the `slots`. -/
def copySlots (names slots : List String) : List Stmt :=
  (names.zip slots).map fun p => .const p.1 (.ident p.2)

/-- The variables `slots` start with the values of `copies`. -/
def startSlots (slots copies : List String) : List Stmt :=
  (slots.zip copies).map fun p => .declare p.1 (some (.ident p.2))

/-- The test that chooses the member `i` of a loop. -/
def memberTest (selector : String) (i : Nat) : Expr :=
  .binary .eq (.ident selector) (Lower.natLit i)

/-- A function around a loop with this body: it declares the slots and repeats the body of the only
member, or its parameters are the selector and the slots. Apart from the variables of the loop, it
mentions names as `N` says. -/
inductive LoopFunction.Wraps (N : String → Prop) : LoopFunction → List Stmt → Prop
  | single {params copies slots : List String} {body : List Stmt} :
      copies.length = slots.length → (∀ x ∈ copies, N x) →
      Wraps N ⟨⟨none, slots, [slots.length]⟩, params, startSlots slots copies ++ [.loop body]⟩ body
  | shared {selector : String} {slots : List String} {arities : List Nat} {body : List Stmt} :
      Wraps N ⟨⟨some selector, slots, arities⟩, selector :: slots, [.loop body]⟩ body

mutual

/-- All names in an expression are as `N` says, except for the variables of its loops `Ls` in their
places. -/
inductive ExprMentions (N : String → Prop) : Expr → List LoopFunction → Prop
  | node {e es Ls} : e.parts? = some es → (∀ x, e.name? = some x → N x) → ExprsMention N es Ls →
      ExprMentions N e Ls
  /-- A function outside of which nothing has to be known. -/
  | function {params body Ls} : BlockMentions N none body Ls →
      ExprMentions N (.arrow params body) Ls
  | loop {L body Ls} : LoopFunction.Wraps N L body → BodyMentions N L.target 0 body Ls →
      ExprMentions N (.arrow L.params L.body) (L :: Ls)

/-- All names in expressions are as `N` says, except for the variables of loops. -/
inductive ExprsMention (N : String → Prop) : List Expr → List LoopFunction → Prop
  | nil : ExprsMention N [] []
  | cons {e es Ls Ls'} : ExprMentions N e Ls → ExprsMention N es Ls' →
      ExprsMention N (e :: es) (Ls ++ Ls')

/-- All names in the body of a loop are as `N` says, except for the variables of the loop: each
member but the last stands behind a test of the selector, and the parameters of a member are copied
from the slots. The first member is that of number `i`. -/
inductive BodyMentions (N : String → Prop) : JumpTarget → Nat → List Stmt → List LoopFunction → Prop
  | nil {G i} : BodyMentions N G i [] []
  | last {G i names block Ls} : G.arities[i]? = some names.length →
      names.length ≤ G.slots.length → (∀ x ∈ names, N x) → BlockMentions N (some G) block Ls →
      BodyMentions N G i (copySlots names G.slots ++ block) Ls
  | test {G i selector names block rest Ls Ls'} : G.selector = some selector →
      G.arities[i]? = some names.length → names.length ≤ G.slots.length → (∀ x ∈ names, N x) →
      BlockMentions N (some G) block Ls → BodyMentions N G (i + 1) rest Ls' →
      BodyMentions N G i
        (.chain [(memberTest selector i, copySlots names G.slots ++ block)] :: rest) (Ls ++ Ls')

/-- All names in a block are as `N` says, except for the variables of loops. `place` is the loop
whose body the block belongs to, if it does not start a function: only jumps mention its
variables. -/
inductive BlockMentions (N : String → Prop) :
    Option JumpTarget → List Stmt → List LoopFunction → Prop
  | nil {place} : BlockMentions N place [] []
  | plain {place s es rest Ls Ls'} : s.parts? = some es → (∀ x, s.name? = some x → N x) →
      ExprsMention N es Ls → BlockMentions N place rest Ls' →
      BlockMentions N place (s :: rest) (Ls ++ Ls')
  | assign {place x e rest Ls Ls'} : N x → ExprMentions N e Ls → BlockMentions N place rest Ls' →
      BlockMentions N place (.assign x e :: rest) (Ls ++ Ls')
  | chain {place arms rest Ls Ls'} : ArmsMention N place arms Ls →
      BlockMentions N place rest Ls' → BlockMentions N place (.chain arms :: rest) (Ls ++ Ls')
  /-- A jump to a member assigns as many slots as the member has parameters, and ends the block. -/
  | jump {G j values Ls} : G.arities[j]? = some values.length → values.length ≤ G.slots.length →
      ExprsMention N values Ls →
      BlockMentions N (some G) (Lower.jumpBlock G.selector j G.slots values) Ls

/-- All names in the arms of a chain are as `N` says, except for the variables of loops. -/
inductive ArmsMention (N : String → Prop) :
    Option JumpTarget → List (Expr × List Stmt) → List LoopFunction → Prop
  | nil {place} : ArmsMention N place [] []
  | cons {place cond block arms Ls Ls' Ls''} : ExprMentions N cond Ls →
      BlockMentions N place block Ls' → ArmsMention N place arms Ls'' →
      ArmsMention N place ((cond, block) :: arms) (Ls ++ (Ls' ++ Ls''))

end

/-! ## Putting scripts together -/

variable {N : String → Prop} {e e' : Expr} {es : List Expr} {Ls Ls' : List LoopFunction}
  {place : Option JumpTarget} {body : List Stmt}

/-- `variablesOf` goes through the loops one by one. -/
@[simp] theorem variablesOf_append (Ls Ls' : List LoopFunction) :
    variablesOf (Ls ++ Ls') = variablesOf Ls ++ variablesOf Ls' := List.flatMap_append

/-- The variables of the loop `L` and of the others. -/
@[simp] theorem variablesOf_cons (L : LoopFunction) (Ls : List LoopFunction) :
    variablesOf (L :: Ls) = L.target.variables ++ variablesOf Ls := List.flatMap_cons

/-- No loops have no variables. -/
@[simp] theorem variablesOf_nil : variablesOf [] = [] := rfl

/-- One expression `e`. -/
theorem ExprsMention.one (h : ExprMentions N e Ls) : ExprsMention N [e] Ls := by
  have h' := ExprsMention.cons h .nil
  rwa [List.append_nil] at h'

/-- `e` before `e'`. -/
theorem ExprsMention.two (h : ExprMentions N e Ls) (h' : ExprMentions N e' Ls') :
    ExprsMention N [e, e'] (Ls ++ Ls') := .cons h (.one h')

/-- An expression that is no name mentions what its parts `es` do. -/
theorem ExprMentions.of_parts (he : e.parts? = some es) (hname : e.name? = none)
    (h : ExprsMention N es Ls) : ExprMentions N e Ls := .node he (by rw [hname]; nofun) h

/-- An expression with the one part `e'` mentions what `e'` does. -/
theorem ExprMentions.wrap (he : e.parts? = some [e']) (hname : e.name? = none)
    (h : ExprMentions N e' Ls) : ExprMentions N e Ls := .of_parts he hname (.one h)

/-- To call `e` without arguments mentions no name. -/
theorem ExprMentions.called (h : ExprMentions N e Ls) : ExprMentions N (.call e []) Ls :=
  .wrap rfl rfl h

/-- The name `x` mentions itself. -/
theorem ExprMentions.ident {x : String} (h : N x) : ExprMentions N (.ident x) [] :=
  .node rfl (by rintro _ ⟨⟩; exact h) .nil

/-- An expression without parts that is no name mentions nothing. -/
theorem ExprMentions.leaf (he : e.parts? = some []) (hname : e.name? = none) :
    ExprMentions N e [] := .of_parts he hname .nil

/-- The names `xs` as expressions. -/
theorem ExprsMention.idents {xs : List String} (h : ∀ x ∈ xs, N x) :
    ExprsMention N (xs.map .ident) [] := by
  induction xs with
  | nil => exact .nil
  | cons x xs ih =>
    obtain ⟨hx, hxs⟩ := List.forall_mem_cons.1 h
    exact .cons (.ident hx) (ih hxs)

/-- A block of the one statement `s`, which declares nothing. -/
theorem BlockMentions.one {s : Stmt} (hs : s.parts? = some es) (hname : s.name? = none)
    (h : ExprsMention N es Ls) : BlockMentions N place [s] Ls := by
  have h' : BlockMentions N place [s] (Ls ++ []) := .plain hs (by rw [hname]; nofun) h .nil
  rwa [List.append_nil] at h'

/-- The parameters of the innermost function, where parameters are taken one by one: the last of
them, or none. -/
def lastParams : List String → List String
  | _ :: p :: ps => lastParams (p :: ps)
  | ps => ps

/-- `Expr.curried` mentions what its innermost function does. -/
theorem ExprMentions.curried {params : List String}
    (h : ExprMentions N (.arrow (lastParams params) body) Ls) :
    ExprMentions N (.curried params body) Ls := by
  fun_induction Expr.curried params body with
  | case1 => exact h
  | case2 => exact h
  | case3 p ps body hps ih =>
    obtain ⟨q, qs, rfl⟩ := List.exists_cons_of_ne_nil hps
    exact .function (.one rfl rfl (.one (ih h)))

/-- `decls` can stand in front of every block. They mention names in `N`, and the variables of `Ls`
in their places. -/
def Leads (N : String → Prop) (decls : List Stmt) (Ls : List LoopFunction) : Prop :=
  ∀ place rest Ls', BlockMentions N place rest Ls' →
    BlockMentions N place (decls ++ rest) (Ls ++ Ls')

/-- Nothing in front of a block mentions nothing. -/
theorem Leads.nil : Leads N [] [] := fun _ _ _ h => h

/-- `decls` and `decls'` in front of a block. -/
theorem Leads.append {decls decls' : List Stmt} (h : Leads N decls Ls)
    (h' : Leads N decls' Ls') : Leads N (decls ++ decls') (Ls ++ Ls') := by
  intro place rest Ls'' hrest
  rw [List.append_assoc, List.append_assoc]
  exact h _ _ _ (h' _ _ _ hrest)

/-- A statement `s` mentions the name that it declares, and what its parts `es` do. -/
theorem Leads.plain {s : Stmt} (hs : s.parts? = some es) (hname : ∀ x, s.name? = some x → N x)
    (h : ExprsMention N es Ls) : Leads N [s] Ls := fun _ _ _ hrest => .plain hs hname h hrest

/-- A constant mentions its name and what its value does. -/
theorem Leads.const {x : String} (hx : N x) (h : ExprMentions N e Ls) :
    Leads N [.const x e] Ls := .plain rfl (by rintro _ ⟨⟩; exact hx) (.one h)

/-- An assignment mentions its name and what its value does. -/
theorem Leads.assign {x : String} (hx : N x) (h : ExprMentions N e Ls) :
    Leads N [.assign x e] Ls := fun _ _ _ hrest => .assign hx h hrest

/-- In front of the empty block, `decls` are a block. -/
theorem Leads.toBlock {decls : List Stmt} (h : Leads N decls Ls) :
    BlockMentions N place decls Ls := by
  have h' := h place [] [] .nil
  rwa [List.append_nil, List.append_nil] at h'

/-- `decls` mention the variables of `Ls` in the places for them only, and no two of these variables
have one name. -/
structure NamesApart (decls : List Stmt) (Ls : List LoopFunction) : Prop where
  /-- The variables differ. -/
  nodup : (variablesOf Ls).Nodup
  /-- All other names are none of them. -/
  mentions : BlockMentions (fun x => x ∉ variablesOf Ls) none decls Ls

end TailLoop.Script

namespace TailLoop.Lower

open Script Lowering Term

variable {c : Context} {V : List String} {p p' : Progress}

/-! ## Names that can be mentioned -/

/-- Names that a step can mention: they are taken or hold no `$`, and are no variables of loops. -/
def Known (V : List String) (p : Progress) (x : String) : Prop :=
  (p.env.isTaken x = true ∨ '$' ∉ x.toList) ∧ x ∉ V

/-- `V` are variables of loops that only their loops mention. -/
structure Apart (c : Context) (V : List String) (p : Progress) : Prop where
  /-- The variables are taken. -/
  taken : ∀ x ∈ V, p.env.isTaken x = true
  /-- The variables look different from the names of binders without a name. -/
  dollar : ∀ x ∈ V, '$' ∈ x.toList
  /-- The names of the module are no variables of loops. -/
  reserved : ∀ x ∈ c.reserved, Known V p x
  /-- The names of binders are no variables of loops. -/
  names : ∀ b x, p.env.names.get? b = some x → Known V p x
  /-- The loops around have slots enough. -/
  roomy : Roomy p.env.scopes

/-- A name known before a step that claims the variables `V'` is known after it. -/
theorem Known.mono {V' : List String} (hclaims : Claims p p' [] V')
    (hdollar : ∀ x ∈ V', '$' ∈ x.toList) {x : String} (h : Known V p x) : Known (V ++ V') p' x := by
  obtain ⟨hname, hx⟩ := h
  refine ⟨hname.imp_left (hclaims.kept.taken x), fun hmem => ?_⟩
  rcases List.mem_append.1 hmem with hmem | hmem
  · exact hx hmem
  · rcases hname with htaken | hplain
    -- a taken name is no new one
    · have hnew := hclaims.new x hmem
      rw [htaken] at hnew
      cases hnew
    · exact hplain (hdollar x hmem)

/-- A name `x` that was free in `p` and is taken in `p'` is no variable of an earlier loop. -/
theorem Apart.known_of_taken (h : Apart c V p) {x : String} (hfree : p.env.isTaken x = false)
    (htaken : p'.env.isTaken x = true) : Known V p' x := by
  refine ⟨.inl htaken, fun hx => ?_⟩
  rw [h.taken x hx] at hfree
  cases hfree

/-- A step that claims the variables `V'`, and gives binders known names only, keeps all variables
apart. -/
theorem Apart.claim {V' : List String} (h : Apart c V p) (hclaims : Claims p p' [] V')
    (hdollar : ∀ x ∈ V', '$' ∈ x.toList)
    (hnames : ∀ b x, p'.env.names.get? b = some x →
      p.env.names.get? b = some x ∨ Known (V ++ V') p' x) : Apart c (V ++ V') p' where
  taken x hx := (List.mem_append.1 hx).elim (fun hx => hclaims.kept.taken x (h.taken x hx))
    fun hx => hclaims.used x hx
  dollar x hx := (List.mem_append.1 hx).elim (h.dollar x) (hdollar x)
  reserved x hx := (h.reserved x hx).mono hclaims hdollar
  names b x hx := (hnames b x hx).elim (fun hx => (h.names b x hx).mono hclaims hdollar) id
  roomy := hclaims.kept.scopes ▸ h.roomy

/-- Whether variables are kept apart does not depend on the loops around, if these have slots
enough. -/
theorem Apart.congr (h : Apart c V p) (hcounters : p'.env.counters = p.env.counters)
    (hnames : p'.env.names = p.env.names) (hroomy : Roomy p'.env.scopes) : Apart c V p' := by
  have htaken (x : String) : p'.env.isTaken x = p.env.isTaken x := by
    rw [Env.isTaken, hcounters, Env.isTaken]
  have hknown {x : String} (hx : Known V p x) : Known V p' x := by
    rwa [Known, htaken]
  exact ⟨fun x hx => (htaken x).trans (h.taken x hx), h.dollar,
    fun x hx => hknown (h.reserved x hx), fun b x hx => hknown (h.names b x (hnames ▸ hx)), hroomy⟩

/-! ## Steps and the names they mention -/

variable {α β : Type}

/-- The step takes the variables of some loops and mentions names that are known afterwards. What
it writes is as `out` says of the loops around it, of a condition that holds of all known names, and
of the loops with these variables. -/
def Mentions (c : Context) (m : Lowering α)
    (out : List LoopScope → (String → Prop) → α → List LoopFunction → Prop) : Prop :=
  ∀ V p, Apart c V p → ∃ V', Claims p (m p).2 [] V' ∧ Apart c (V ++ V') (m p).2 ∧
    ∀ N : String → Prop, (∀ x, Known (V ++ V') (m p).2 x → N x) →
      ∃ Ls, variablesOf Ls = V' ∧ out p.env.scopes N (m p).1 Ls

section Mentions

variable {m : Lowering α} {k : α → Lowering β}
  {out out' : List LoopScope → (String → Prop) → α → List LoopFunction → Prop}
  {outβ : List LoopScope → (String → Prop) → β → List LoopFunction → Prop}

/-- `pure a` mentions what `a` does. -/
theorem Mentions.pure {a : α} (h : ∀ S N, out S N a []) : Mentions c (pure a) out := by
  intro V p hp
  refine ⟨[], (Kept.refl [] p).claims, ?_, fun N _ => ⟨[], rfl, h _ N⟩⟩
  rwa [List.append_nil]

/-- `m`, then `k`, which may assume `gives` of what `m` gives. -/
theorem Mentions.bind_gives {gives : α → Prop} (hm : Mentions c m out) (hgives : Gives m gives)
    (hk : ∀ a, gives a → Mentions c (k a) fun S N b Ls' =>
      ∀ Ls, out S N a Ls → outβ S N b (Ls ++ Ls')) : Mentions c (m >>= k) outβ := by
  intro V p hp
  obtain ⟨V', hclaims, hmid, hout⟩ := hm V p hp
  obtain ⟨V'', hclaims', hend, hout'⟩ := hk (m p).1 (hgives p) (V ++ V') (m p).2 hmid
  rw [List.append_assoc] at hend hout'
  have hdollar (x : String) (hx : x ∈ V'') : '$' ∈ x.toList :=
    hend.dollar x (List.mem_append_right _ (List.mem_append_right _ hx))
  refine ⟨V' ++ V'', hclaims.trans hclaims', hend, fun N hN => ?_⟩
  -- a condition that holds of the names known at the end holds of those known before
  obtain ⟨Ls, hLs, hfirst⟩ := hout N fun x hx => hN x (by
    have hlater := hx.mono hclaims' hdollar
    rwa [List.append_assoc] at hlater)
  obtain ⟨Ls', hLs', hsecond⟩ := hout' N hN
  rw [hclaims.kept.scopes] at hsecond
  exact ⟨Ls ++ Ls', by rw [variablesOf_append, hLs, hLs'], hsecond Ls hfirst⟩

/-- The same, with nothing assumed of what `m` gives. -/
theorem Mentions.bind (hm : Mentions c m out) (hk : ∀ a, Mentions c (k a) fun S N b Ls' =>
    ∀ Ls, out S N a Ls → outβ S N b (Ls ++ Ls')) : Mentions c (m >>= k) outβ :=
  hm.bind_gives (.any m) fun a _ => hk a

/-- What is known of the result, `out`, can be weakened. -/
theorem Mentions.mono (hm : Mentions c m out) (h : ∀ S N a Ls, out S N a Ls → out' S N a Ls) :
    Mentions c m out' := by
  intro V p hp
  obtain ⟨V', hclaims, hend, hout⟩ := hm V p hp
  refine ⟨V', hclaims, hend, fun N hN => ?_⟩
  obtain ⟨Ls, hLs, hresult⟩ := hout N hN
  exact ⟨Ls, hLs, h _ _ _ _ hresult⟩

/-- `f` may wrap the result. -/
theorem Mentions.map {f : α → β} (hm : Mentions c m out)
    (h : ∀ S N a Ls, out S N a Ls → outβ S N (f a) Ls) :
    Mentions c (do return f (← m)) outβ := by
  intro V p hp
  obtain ⟨V', hclaims, hend, hout⟩ := hm V p hp
  refine ⟨V', hclaims, hend, fun N hN => ?_⟩
  obtain ⟨Ls, hLs, hresult⟩ := hout N hN
  exact ⟨Ls, hLs, h _ _ _ _ hresult⟩

/-- A step `m` that claims the variables `vars` of a loop can go first. -/
theorem Mentions.claim (vars : α → List String)
    (hclaims : ∀ p, Claims p (m p).2 [] (vars (m p).1))
    (hdollar : ∀ p, ∀ x ∈ vars (m p).1, '$' ∈ x.toList)
    (hnames : ∀ p b, (m p).2.env.names.get? b = p.env.names.get? b)
    {gives : α → Prop} (hgives : Gives m gives)
    (hk : ∀ a, gives a → Mentions c (k a) fun S N b Ls =>
      ∃ L : LoopFunction, L.target.variables = vars a ∧ outβ S N b (L :: Ls)) :
    Mentions c (m >>= k) outβ := by
  intro V p hp
  have hmid := hp.claim (hclaims p) (hdollar p) fun b x hx => .inl (hnames p b ▸ hx)
  obtain ⟨V', hclaims', hend, hout⟩ := hk (m p).1 (hgives p) _ _ hmid
  rw [List.append_assoc] at hend hout
  refine ⟨vars (m p).1 ++ V', (hclaims p).trans hclaims', hend, fun N hN => ?_⟩
  obtain ⟨Ls, hLs, L, hL, hresult⟩ := hout N hN
  rw [(hclaims p).kept.scopes] at hresult
  exact ⟨L :: Ls, by rw [variablesOf_cons, hL, hLs], hresult⟩

end Mentions

/-- A step that gives known names and claims no variables. -/
theorem mentions_of_known {m : Lowering α} (names : α → List String)
    (hkept : ∀ p, Kept [] p (m p).2)
    (h : ∀ V p, Apart c V p → (∀ x ∈ names (m p).1, Known V (m p).2 x) ∧
      ∀ b x, (m p).2.env.names.get? b = some x →
        p.env.names.get? b = some x ∨ Known V (m p).2 x) :
    Mentions c m fun _ N a Ls => Ls = [] ∧ ∀ x ∈ names a, N x := by
  intro V p hp
  obtain ⟨hgiven, hnames⟩ := h V p hp
  have hend := hp.claim (hkept p).claims (by nofun) (by rwa [List.append_nil])
  refine ⟨[], (hkept p).claims, hend, fun N hN => ⟨[], rfl, rfl, fun x hx => hN x ?_⟩⟩
  rw [List.append_nil]
  exact hgiven x hx

/-- `report` mentions nothing. -/
theorem mentions_report (detail : Detail) (message : String) :
    Mentions c (report detail message) fun _ _ _ Ls => Ls = [] :=
  (mentions_of_known (fun _ => []) (fun p => kept_report [] p detail message)
    fun _ _ _ => ⟨by nofun, fun _ _ hx => .inl hx⟩).mono fun _ _ _ _ h => h.1

/-- `freshNames` gives no name to a binder. -/
theorem names_freshNames (bases : List String) (p : Progress) (b : Binder) :
    (freshNames bases p).2.env.names.get? b = p.env.names.get? b :=
  (freshNames_spec [b] p bases).2.1.names b (List.mem_singleton.2 rfl)

/-- The names of `freshNames` are known. -/
theorem mentions_freshNames (bases : List String) :
    Mentions c (freshNames bases) fun _ N xs Ls => Ls = [] ∧ ∀ x ∈ xs, N x := by
  refine mentions_of_known id (quiet_freshNames bases) fun V p hp =>
    ⟨fun x hx => ?_, fun b x hx => ?_⟩
  · obtain ⟨-, -, -, htaken⟩ := freshNames_spec [] p bases
    exact hp.known_of_taken (htaken x hx).1 (htaken x hx).2
  · exact .inl (names_freshNames bases p b ▸ hx)

/-- The name of `freshName` is known. -/
theorem mentions_freshName (base : String) :
    Mentions c (freshName base) fun _ N x Ls => Ls = [] ∧ N x := by
  intro V p hp
  obtain ⟨V', hclaims, hend, hout⟩ := mentions_freshNames [base] V p hp
  refine ⟨V', hclaims, hend, fun N hN => ?_⟩
  obtain ⟨Ls, hLs, hnil, hxs⟩ := hout N hN
  exact ⟨Ls, hLs, hnil, hxs _ (List.mem_singleton_self _)⟩

/-- `bindName` gives `b` a known name, and no other binder gets one. -/
theorem Apart.bindName (h : Apart c V p) (b : Binder) :
    Known V (bindName b p).2 (bindName b p).1 ∧
      ∀ b' x, (Lowering.bindName b p).2.env.names.get? b' = some x →
        p.env.names.get? b' = some x ∨ Known V (Lowering.bindName b p).2 x := by
  have hknown : Known V (Lowering.bindName b p).2 (Lowering.bindName b p).1 := by
    obtain ⟨-, htaken⟩ := bindName_spec b p
    obtain ⟨name, level⟩ := b
    cases name with
    | some name =>
      obtain ⟨hfree, htaken⟩ := htaken rfl
      exact h.known_of_taken hfree htaken
    | none =>
      -- names of binders without a name hold no dollar sign
      have hplain : '$' ∉ (Env.unnamed level).toList :=
        dollar_not_mem_of_isUnnamed (isUnnamed_unnamed level)
      exact ⟨.inr hplain, fun hx => hplain (h.dollar _ hx)⟩
  refine ⟨hknown, fun b' x hx => ?_⟩
  have hinsert : (Lowering.bindName b p).2.env.names =
      p.env.names.insert b (Lowering.bindName b p).1 := by
    obtain ⟨_ | name, level⟩ := b <;> rfl
  rw [hinsert, Table.insert, Table.get?_alter] at hx
  split at hx
  · obtain rfl := Option.some.inj hx
    exact .inr hknown
  · exact .inl hx

/-- The name of `bindName` is known. -/
theorem mentions_bindName (b : Binder) :
    Mentions c (bindName b) fun _ N x Ls => Ls = [] ∧ N x := by
  have h : Mentions c (Lowering.bindName b) fun _ N x Ls => Ls = [] ∧ ∀ y ∈ [x], N y := by
    refine mentions_of_known (fun y => [y]) (quiet_bindName b) fun V p hp => ?_
    obtain ⟨hknown, hnames⟩ := hp.bindName b
    exact ⟨by simpa using hknown, hnames⟩
  exact h.mono fun _ _ x _ hx => ⟨hx.1, hx.2 x (List.mem_singleton_self x)⟩

/-- The names of `bindNames` are known. -/
theorem mentions_bindNames (bs : List Binder) :
    Mentions c (bindNames bs) fun _ N xs Ls => Ls = [] ∧ ∀ x ∈ xs, N x := by
  induction bs with
  | nil => exact .pure fun _ _ => ⟨rfl, by nofun⟩
  | cons b rest ih =>
    refine (mentions_bindName b).bind fun x => ih.map fun _ _ xs Ls' hxs Ls hx => ?_
    obtain ⟨rfl, hxs⟩ := hxs
    obtain ⟨rfl, hx⟩ := hx
    exact ⟨rfl, List.forall_mem_cons.2 ⟨hx, hxs⟩⟩

/-- The name that `nameOf` finds is known. -/
theorem mentions_nameOf (b : Binder) : Mentions c (nameOf b) fun _ N x Ls => Ls = [] ∧ N x := by
  have h : Mentions c (nameOf b) fun _ N x Ls => Ls = [] ∧ ∀ y ∈ [x], N y := by
    refine mentions_of_known (fun y => [y]) (quiet_nameOf b) fun V p hp =>
      ⟨?_, fun _ _ hx => .inl hx⟩
    rw [List.forall_mem_singleton]
    show Known V p (p.env.lookup b)
    rw [Env.lookup]
    cases hname : p.env.names.get? b with
    | some x => exact hp.names b x hname
    | none =>
      have hplain : '$' ∉ (Env.unnamed b.level).toList :=
        dollar_not_mem_of_isUnnamed (isUnnamed_unnamed b.level)
      exact ⟨.inr hplain, fun hx => hplain (hp.dollar _ hx)⟩
  exact h.mono fun _ _ x _ hx => ⟨hx.1, hx.2 x (List.mem_singleton_self x)⟩

/-! ## Ways to lower a term -/

/-- `m` writes an expression whose names are known, except for the variables of its loops. -/
abbrev MentionsExpr (c : Context) (m : Lowering Script.Expr) : Prop :=
  Mentions c m fun _ N e Ls => ExprMentions N e Ls

/-- `m` writes statements that can stand in front of every block, and mention known names. -/
abbrev MentionsDecls (c : Context) (m : Lowering (List Stmt)) : Prop :=
  Mentions c m fun _ N decls Ls => Leads N decls Ls

/-- `m` writes a block for `mode` that mentions known names. -/
abbrev MentionsBlock (c : Context) (mode : Mode) (m : Lowering (List Stmt)) : Prop :=
  Mentions c m fun S N block Ls => BlockMentions N (placeOf mode S) block Ls

/-- All ways to lower by `K` mention the variables of loops in their places only. -/
structure Code.NamesWell (c : Context) (K : Code) : Prop where
  /-- The expression. -/
  value : MentionsExpr c K.value
  /-- The statement that returns it. -/
  returned : Mentions c K.returned fun _ N s Ls =>
    ∃ es, s.parts? = some es ∧ s.name? = none ∧ ExprsMention N es Ls
  /-- The effect. -/
  run : MentionsExpr c K.run
  /-- The block. -/
  block : ∀ mode, MentionsBlock c mode (K.block mode)
  /-- The body of the function as the body of a loop. -/
  function : ∀ f, K.function = some f → MentionsBlock c .looping f.2

end TailLoop.Lower
