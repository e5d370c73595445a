import TailLoop.Proofs.JumpLowering
import TailLoop.Proofs.LoopVariables
import TailLoop.Proofs.NameResolution

/-!
# Variables of lowered loops

The lowering mentions the variables of a loop where it writes the loop and where it writes its
jumps, and nowhere else: they are fresh names that no binder gets, and fresh names differ from those
that are taken later.

* `namesWell_code`: all ways to lower a term mention the variables of loops in their places only.
* `partsNamedApart_module`: the declarations of a unit mention them in their places only.
-/

namespace TailLoop.Lower

open Script Lowering Term

variable {c : Context} {K K' : Code}

/-! ## Expressions and statements -/

/-- `Code.ofReturn`: a value with a returning statement of its own. -/
theorem namesWell_ofReturn {value : Lowering Script.Expr} {returned : Lowering Stmt}
    (hvalue : MentionsExpr c value) (hreturned : Mentions c returned fun _ N s Ls =>
      ∃ es, s.parts? = some es ∧ s.name? = none ∧ ExprsMention N es Ls) :
    (Code.ofReturn value returned).NamesWell c where
  value := hvalue
  returned := hreturned
  run := hvalue.map fun _ _ _ _ h => h.called
  block mode := by
    simp only [Code.ofReturn]
    split
    · exact hvalue.map fun _ _ _ _ h => .one rfl rfl (.one h.called)
    · refine hreturned.map fun _ _ _ _ h => ?_
      obtain ⟨es, hs, hname, hes⟩ := h
      exact .one hs hname hes
  function _ h := by cases h

/-- `Code.ofValue`: a term that is an expression. -/
theorem namesWell_ofValue {value : Lowering Script.Expr} (h : MentionsExpr c value) :
    (Code.ofValue value).NamesWell c :=
  namesWell_ofReturn h (h.map fun _ _ _ _ h => ⟨_, rfl, rfl, .one h⟩)

/-- `Code.ofObject`: a term that is an object literal. -/
theorem namesWell_ofObject {value : Lowering Script.Expr} (h : MentionsExpr c value) :
    (Code.ofObject value).NamesWell c :=
  namesWell_ofReturn h (h.map fun _ _ _ _ h => ⟨_, rfl, rfl, .one h⟩)

/-- A block that is for no body of a loop has no loop around it: `none`. -/
theorem MentionsBlock.body {mode : Mode} {m : Lowering (List Stmt)} (hmode : mode.loop = false)
    (h : MentionsBlock c mode m) :
    Mentions c m fun _ N block Ls => BlockMentions N none block Ls := by
  refine h.mono fun S N block Ls h => ?_
  rwa [placeOf, hmode, if_neg Bool.false_ne_true] at h

/-- `Code.ofBlock`: a term that is written as statements. -/
theorem namesWell_ofBlock {block : Mode → Lowering (List Stmt)}
    (h : ∀ mode, MentionsBlock c mode (block mode)) : (Code.ofBlock block).NamesWell c where
  value := ((h .plain).body rfl).map fun _ _ _ _ h => (ExprMentions.function h).called
  returned := ((h .plain).body rfl).map
    fun _ _ _ _ h => ⟨_, rfl, rfl, .one (ExprMentions.function h).called⟩
  run := ((h .plain).body rfl).map fun _ _ _ _ h => (ExprMentions.function h).called.called
  block := h
  function := by nofun

/-- `Code.ofEffect`: an effect, which is a function where it is not run. -/
theorem namesWell_ofEffect {body : Lowering (List Stmt)} {run : Lowering Script.Expr}
    {block : Mode → Lowering (List Stmt)} (hbody : MentionsBlock c .effectful body)
    (hrun : MentionsExpr c run) (hblock : ∀ mode, MentionsBlock c mode (block mode)) :
    (Code.ofEffect body run block).NamesWell c where
  value := (hbody.body rfl).map fun _ _ _ _ h => .function h
  returned := (hbody.body rfl).map fun _ _ _ _ h => ⟨_, rfl, rfl, .one (.function h)⟩
  run := hrun
  block mode := by
    simp only [Code.ofEffect]
    split
    · exact hblock mode
    · exact (hbody.body rfl).map fun _ _ _ _ h => .one rfl rfl (.one (.function h))
  function _ h := by cases h

/-- A name `x` that every progress apart from the variables `V` knows can be written. -/
theorem mentions_pure_of_known {x : String} (h : ∀ V p, Apart c V p → Known V p x) :
    Mentions c (pure x) fun _ N y Ls => Ls = [] ∧ y = x ∧ N x := by
  have hx : Mentions c (pure x : Lowering String)
      fun _ N y Ls => Ls = [] ∧ ∀ z ∈ [x], N z := by
    refine mentions_of_known (fun y => [y]) (fun p => .refl [] p) fun V p hp =>
      ⟨?_, fun _ _ hx => .inl hx⟩
    rw [List.forall_mem_singleton]
    exact h V p hp
  intro V p hp
  obtain ⟨V', hclaims, hend, hout⟩ := hx V p hp
  refine ⟨V', hclaims, hend, fun N hN => ?_⟩
  obtain ⟨Ls, hLs, hnil, hx⟩ := hout N hN
  exact ⟨Ls, hLs, hnil, rfl, hx x (List.mem_singleton_self x)⟩

/-- So can the names that `c` reserves. -/
theorem mentions_reserved {x : String} (h : x ∈ c.reserved) :
    Mentions c (pure x) fun _ N y Ls => Ls = [] ∧ y = x ∧ N x :=
  mentions_pure_of_known fun _ _ hp => hp.reserved x h

/-- So can names without a dollar sign, which no variable of a loop has. -/
theorem mentions_plain {x : String} (h : '$' ∉ x.toList) :
    Mentions c (pure x) fun _ N y Ls => Ls = [] ∧ y = x ∧ N x :=
  mentions_pure_of_known fun _ _ hp => ⟨.inr h, fun hx => h (hp.dollar x hx)⟩

/-! ## Lists of terms -/

/-- `all`: steps that write expressions, or parts of object literals with a `value`, one after the
other. -/
theorem mentions_all {α : Type} (value : α → Script.Expr) {ms : List (Lowering α)}
    (h : ∀ m ∈ ms, Mentions c m fun _ N a Ls => ExprMentions N (value a) Ls) :
    Mentions c (all ms) fun _ N as Ls => ExprsMention N (as.map value) Ls := by
  induction ms with
  | nil => exact .pure fun _ _ => .nil
  | cons m rest ih =>
    refine (h m (List.mem_cons_self ..)).bind fun e => ?_
    exact (ih fun m' hm' => h m' (List.mem_cons_of_mem _ hm')).map
      fun _ _ es Ls' hes Ls he => .cons he hes

/-- `all`: steps that write expressions, one after the other. -/
theorem mentions_exprs {ms : List (Lowering Script.Expr)} (h : ∀ m ∈ ms, MentionsExpr c m) :
    Mentions c (all ms) fun _ N es Ls => ExprsMention N es Ls :=
  (mentions_all id h).mono fun _ _ es _ hes => by rwa [List.map_id] at hes

/-- `callEach`: a call with arguments one by one. -/
theorem mentions_callEach {callee : Lowering Script.Expr} {args : List (Lowering Script.Expr)}
    (hf : MentionsExpr c callee) (h : ∀ m ∈ args, MentionsExpr c m) :
    MentionsExpr c (callEach callee args) := by
  induction args generalizing callee with
  | nil => exact hf
  | cons m rest ih =>
    have hcall : MentionsExpr c (do return .call (← callee) [← m]) :=
      hf.bind fun f => (h m (List.mem_cons_self ..)).map
        fun _ _ e Ls' he Ls hf => .of_parts rfl rfl (.two hf he)
    exact ih hcall fun m' hm' => h m' (List.mem_cons_of_mem _ hm')

/-- `callAll`: a call with all arguments. -/
theorem mentions_callAll {callee : Lowering Script.Expr} {args : List (Lowering Script.Expr)}
    (hf : MentionsExpr c callee) (h : ∀ m ∈ args, MentionsExpr c m) :
    MentionsExpr c (callAll callee args) :=
  hf.bind fun _ => (mentions_exprs h).map
    fun _ _ _ _ hes _ hf => .of_parts rfl rfl (.cons hf hes)

/-! ## Jumps -/

/-- Where `jump?` makes no jump, the names and the loops stay as they are. -/
theorem env_jump? {r? : Option Ref} {args : List (Lowering Script.Expr)} {p : Progress}
    (h : (jump? r? args p).1 = none) : (jump? r? args p).2.env = p.env := by
  cases r? with
  | none => rfl
  | some r =>
  rw [jump?_run] at h ⊢
  cases hfind : p.env.findJump? r with
  | none => rfl
  | some j =>
    rw [hfind] at h
    simp only at h ⊢
    split
    · rfl
    · rename_i hexited
      rw [if_neg hexited] at h
      split
      · rfl
      · rename_i harity
        rw [if_neg harity] at h
        cases h

/-- In the body of a loop, a call is written as a jump, or else as `k` says. -/
theorem mentions_jump? {mode : Mode} {r? : Option Ref} {args : List (Lowering Script.Expr)}
    {k : Option (List Stmt) → Lowering (List Stmt)} (hmode : mode.loop = true)
    (h : ∀ m ∈ args, MentionsExpr c m) (hsome : ∀ stmts, k (some stmts) = pure stmts)
    (hnone : MentionsBlock c mode (k none)) : MentionsBlock c mode (jump? r? args >>= k) := by
  intro V p hp
  have hrun : (jump? r? args >>= k) p = k (jump? r? args p).1 (jump? r? args p).2 := rfl
  rw [hrun]
  rcases jump?_cases r? args p with ⟨p', heq, hkept⟩ | ⟨r, j, S, rfl, hscopes, hmember, heq⟩
  · have henv : p'.env = p.env := by
      have henv : (jump? r? args p).2.env = p.env := env_jump? (by rw [heq])
      rwa [heq] at henv
    -- the call is no jump, and the search for one has left the names as they are
    have hp' : Apart c V p' := hp.congr (by rw [henv]) (by rw [henv]) (henv ▸ hp.roomy)
    rw [heq]
    obtain ⟨V', hclaims, hend, hout⟩ := hnone V p' hp'
    rw [henv] at hout
    exact ⟨V', hkept.claims.trans hclaims, hend, hout⟩
  · rw [heq, hsome]
    obtain ⟨V', hclaims, hend, hout⟩ := mentions_exprs h V p hp
    refine ⟨V', hclaims, hend, fun N hN => ?_⟩
    obtain ⟨Ls, hLs, hvalues⟩ := hout N hN
    refine ⟨Ls, hLs, ?_⟩
    -- the innermost loop has the member, and as many slots as it has parameters
    have hlen := length_all args p
    rw [← hlen] at hmember
    have hroom := hp.roomy j.scope (hscopes ▸ List.mem_cons_self ..) _
      (List.mem_of_getElem? hmember)
    show BlockMentions N (placeOf mode p.env.scopes) (jumpStmts j (all args p).1) Ls
    rw [placeOf, if_pos hmode, hscopes]
    have harity : j.scope.target.arities[j.member]? = some (all args p).1.length := by
      rw [LoopScope.target, List.getElem?_map, hmember]
      rfl
    exact .jump harity hroom hvalues

/-- `appCode`: an application to arguments one by one, which a loop can make a jump. -/
theorem namesWell_appCode {r? : Option Ref} {callee : Lowering Script.Expr}
    {args : List (Lowering Script.Expr)} (hf : MentionsExpr c callee)
    (h : ∀ m ∈ args, MentionsExpr c m) : (appCode r? callee args).NamesWell c := by
  have hplain := namesWell_ofValue (mentions_callEach hf h)
  refine ⟨hplain.value, hplain.returned, hplain.run, fun mode => ?_, by nofun⟩
  simp only [appCode]
  split
  · rename_i hmode
    refine mentions_jump? hmode h (fun _ => rfl) (hplain.returned.map fun _ _ s Ls hs => ?_)
    obtain ⟨es, hs, hname, hes⟩ := hs
    exact .one hs hname hes
  · exact hplain.block mode

/-! ## Functions, bindings and effects -/

/-- `curriedCode`: a function that takes its parameters one by one. -/
theorem namesWell_curriedCode {params : List Binder} (h : K.NamesWell c) :
    (curriedCode params K).NamesWell c := by
  have hvalue : MentionsExpr c (do
      let names ← bindNames params
      return .curried names (← K.block .plain)) := by
    refine (mentions_bindNames params).bind fun names => ?_
    refine ((h.block .plain).body rfl).map fun _ N body Ls hbody Ls' hnames => ?_
    obtain ⟨rfl, -⟩ := hnames
    exact .curried (.function hbody)
  have hcode := namesWell_ofValue hvalue
  refine ⟨hcode.value, hcode.returned, hcode.run, hcode.block, ?_⟩
  rintro f ⟨⟩
  exact h.block .looping

/-- `arrowCode`: a function that takes its parameters at once. -/
theorem namesWell_arrowCode {params : List Binder} {mode : Mode} (hmode : mode.loop = false)
    (h : K.NamesWell c) : (arrowCode params (K.block mode)).NamesWell c := by
  refine namesWell_ofValue ((mentions_bindNames params).bind fun names => ?_)
  refine ((h.block mode).body hmode).map fun _ N body Ls hbody Ls' hnames => ?_
  obtain ⟨rfl, -⟩ := hnames
  exact .function hbody

/-- `effectAppCode`: an application that is an effect. -/
theorem namesWell_effectAppCode {callee : Lowering Script.Expr}
    {args : List (Lowering Script.Expr)} (hf : MentionsExpr c callee)
    (h : ∀ m ∈ args, MentionsExpr c m) : (effectAppCode callee args).NamesWell c := by
  have hrun := mentions_callAll hf h
  have hbody (mode : Mode) : MentionsBlock c mode (do return [.ret (← callAll callee args)]) :=
    hrun.map fun _ _ _ _ he => .one rfl rfl (.one he)
  exact namesWell_ofEffect (hbody _) hrun fun mode => hbody mode

/-- `letCode`: a binding in front of the block of its body. -/
theorem namesWell_letCode {b : Binder} (hvalue : K.NamesWell c) (hbody : K'.NamesWell c) :
    (letCode b K K').NamesWell c := by
  refine namesWell_ofBlock fun mode => hvalue.value.bind fun e => ?_
  refine (mentions_bindName b).bind fun name => ?_
  refine (hbody.block mode).map fun _ N rest Ls'' hrest Ls' hname Ls he => ?_
  obtain ⟨rfl, hname⟩ := hname
  exact Leads.const hname he _ _ _ hrest

/-- `bindStmt` writes a statement that consists of the effect `e`, under a name that can be
mentioned. -/
theorem mentions_bindStmt (b : Binder) (e : Script.Expr) :
    Mentions c (bindStmt b e) fun _ N s Ls =>
      Ls = [] ∧ s.parts? = some [e] ∧ ∀ x, s.name? = some x → N x := by
  unfold bindStmt
  split
  · refine (mentions_bindName b).map fun _ N x Ls hx => ⟨hx.1, rfl, ?_⟩
    rintro _ ⟨⟩
    exact hx.2
  · exact .pure fun _ _ => ⟨rfl, rfl, nofun⟩

/-- `bindCode`: an effect that goes on with the result of another. -/
theorem namesWell_bindCode {b : Binder} (heffect : K.NamesWell c) (hbody : K'.NamesWell c) :
    (bindCode b K K').NamesWell c := by
  have hblock (mode : Mode) : MentionsBlock c mode (do
      let x ← K.run
      let s ← bindStmt b x
      let rest ← K'.block mode
      return s :: rest) := by
    refine heffect.run.bind fun e => (mentions_bindStmt b e).bind fun s => ?_
    refine (hbody.block mode).map fun _ N rest Ls'' hrest Ls' hs Ls he => ?_
    obtain ⟨rfl, hs, hname⟩ := hs
    exact .plain hs hname (.one he) hrest
  exact namesWell_ofEffect (hblock _) (((hblock _).body rfl).map
    fun _ _ _ _ h => (ExprMentions.function h).called) fun mode => hblock mode

/-- `pureCode`: an effect that gives a value. -/
theorem namesWell_pureCode (h : K.NamesWell c) : (pureCode K).NamesWell c := by
  have hbody (mode : Mode) : MentionsBlock c mode (do return [← K.returned]) := by
    refine h.returned.map fun _ _ s Ls hs => ?_
    obtain ⟨es, hs, hname, hes⟩ := hs
    exact .one hs hname hes
  exact namesWell_ofEffect (hbody _) h.value fun mode => hbody mode

/-- `deferCode`: an effect that is built when it runs. -/
theorem namesWell_deferCode (h : K.NamesWell c) : (deferCode K).NamesWell c :=
  namesWell_ofEffect (h.block .effectful) (((h.block .effectful).body rfl).map
    fun _ _ _ _ h => (ExprMentions.function h).called) h.block

/-! ## Branches -/

/-- `armBlocks`: the arms of a branch with blocks of their own. -/
theorem mentions_armBlocks {arms : List (Code × Code)} {mode : Mode}
    (hcond : ∀ arm ∈ arms, arm.1.NamesWell c) (hbody : ∀ arm ∈ arms, arm.2.NamesWell c) :
    Mentions c (armBlocks mode arms)
      fun S N blocks Ls => ArmsMention N (placeOf mode S) blocks Ls := by
  induction arms with
  | nil => exact .pure fun _ _ => .nil
  | cons arm rest ih =>
    have hrest := ih (fun a ha => hcond a (List.mem_cons_of_mem _ ha))
      (fun a ha => hbody a (List.mem_cons_of_mem _ ha))
    refine (hcond arm (List.mem_cons_self ..)).value.bind fun e => ?_
    refine ((hbody arm (List.mem_cons_self ..)).block mode).bind fun block => ?_
    exact hrest.map fun _ _ blocks Ls'' hblocks Ls' hblock Ls he => .cons he hblock hblocks

/-- `conditionalExpr`: the arms of a branch as a conditional expression. -/
theorem mentions_conditionalExpr {arms : List (Code × Code)}
    (hcond : ∀ arm ∈ arms, arm.1.NamesWell c) (hbody : ∀ arm ∈ arms, arm.2.NamesWell c)
    (hdefault : K.NamesWell c) : MentionsExpr c (conditionalExpr arms K) := by
  induction arms with
  | nil => exact hdefault.value
  | cons arm rest ih =>
    have hrest := ih (fun a ha => hcond a (List.mem_cons_of_mem _ ha))
      (fun a ha => hbody a (List.mem_cons_of_mem _ ha))
    refine (hcond arm (List.mem_cons_self ..)).value.bind fun e => ?_
    refine (hbody arm (List.mem_cons_self ..)).value.bind fun yes => ?_
    exact hrest.map fun _ _ no Ls'' hno Ls' hyes Ls he =>
      .of_parts rfl rfl (.cons he (.two hyes hno))

/-- `branchCode`: a branch, as an expression or as a chain of blocks. -/
theorem namesWell_branchCode {simple : Bool} {arms : List (Code × Code)}
    (hcond : ∀ arm ∈ arms, arm.1.NamesWell c) (hbody : ∀ arm ∈ arms, arm.2.NamesWell c)
    (hdefault : K.NamesWell c) : (branchCode simple arms K).NamesWell c := by
  have hblock (mode : Mode) : MentionsBlock c mode (do
      let blocks ← armBlocks mode arms
      let rest ← K.block mode
      return (if blocks.isEmpty then [] else [Stmt.chain blocks]) ++ rest) := by
    refine (mentions_armBlocks hcond hbody).bind fun blocks => ?_
    refine (hdefault.block mode).map fun S N rest Ls' hrest Ls hblocks => ?_
    cases hblocks with
    | nil => exact hrest
    | cons he hblock hblocks => exact .chain (.cons he hblock hblocks) hrest
  unfold branchCode
  split
  · have hvalue := namesWell_ofValue (mentions_conditionalExpr hcond hbody hdefault)
    exact ⟨hvalue.value, hvalue.returned, hvalue.run, hblock, by nofun⟩
  · exact namesWell_ofBlock hblock

/-! ## Groups that are no loops -/

/-- `declareValues`: declarations of values, one by one. -/
theorem mentions_declareValues {declaration : String → Script.Expr → Stmt}
    {bindings : List (String × Code)} (h : ∀ b ∈ bindings, b.2.NamesWell c)
    (hdeclaration : ∀ {N x e Ls}, N x → ExprMentions N e Ls → Leads N [declaration x e] Ls) :
    Mentions c (declareValues declaration bindings) fun _ N decls Ls =>
      (∀ b ∈ bindings, N b.1) → Leads N decls Ls := by
  induction bindings with
  | nil => exact .pure fun _ _ _ => .nil
  | cons b rest ih =>
    refine (h b (List.mem_cons_self ..)).value.bind fun e => ?_
    refine (ih fun b' hb' => h b' (List.mem_cons_of_mem _ hb')).map
      fun _ N decls Ls' hdecls Ls he hnames => ?_
    obtain ⟨hname, hnames⟩ := List.forall_mem_cons.1 hnames
    exact (hdeclaration hname he).append (hdecls hnames)

/-- `recursiveDeclarations`: a group that is no loop. -/
theorem mentions_recursiveDeclarations {functions : Bool} {bindings : List (String × Code)}
    (h : ∀ b ∈ bindings, b.2.NamesWell c) :
    Mentions c (recursiveDeclarations functions bindings) fun _ N decls Ls =>
      (∀ b ∈ bindings, N b.1) → Leads N decls Ls := by
  unfold recursiveDeclarations
  split
  · exact mentions_declareValues h .const
  · refine (mentions_declareValues h .assign).map fun _ N decls Ls hdecls hnames => ?_
    have hvariables : Leads N (bindings.map fun b => .declare b.1 none) [] := by
      clear h hdecls
      induction bindings with
      | nil => exact .nil
      | cons b rest ih =>
        obtain ⟨hname, hnames⟩ := List.forall_mem_cons.1 hnames
        have hfirst : Leads N [.declare b.1 none] [] :=
          .plain rfl (by rintro _ ⟨⟩; exact hname) .nil
        exact hfirst.append (ih hnames)
    exact hvariables.append (hdecls hnames)

/-! ## Loops -/

/-- Inside a loop `s` with slots enough, the variables `V` are kept apart as outside of it. -/
theorem Apart.enterLoop {V : List String} {p : Progress} {s : LoopScope} (h : Apart c V p)
    (hs : ∀ m ∈ s.members, m.2 ≤ s.slots.length) : Apart c V (enterLoop s p) := by
  refine h.congr rfl rfl fun s' hs' => ?_
  rcases List.mem_cons.1 hs' with rfl | hs'
  · exact hs
  · exact h.roomy s' hs'

/-- `inLoop`: a step inside a loop. -/
theorem mentions_inLoop {α : Type} {s : LoopScope} {step : Lowering α}
    {out : List LoopScope → (String → Prop) → α → List LoopFunction → Prop}
    (h : Mentions c step out) (hs : ∀ m ∈ s.members, m.2 ≤ s.slots.length) :
    Mentions c (inLoop s step) fun S N a Ls => out (s :: S) N a Ls := by
  intro V p hp
  obtain ⟨V', hclaims, hend, hout⟩ := h V (enterLoop s p) (hp.enterLoop hs)
  have hleft := claims_inLoop hclaims
  refine ⟨V', hleft, hend.congr rfl rfl (hleft.kept.scopes ▸ hp.roomy), ?_⟩
  exact hout

/-- `bindParams`: constants for parameters, with the values of the slots. -/
theorem mentions_bindParams {params : List Binder} {slots : List String}
    (hslots : params.length ≤ slots.length) :
    Mentions c (bindParams params slots) fun _ N binds Ls => Ls = [] ∧
      ∃ names : List String, names.length = params.length ∧ (∀ x ∈ names, N x) ∧
        binds = copySlots names slots := by
  have hbind : bindParams params slots = do return copySlots (← bindNames params) slots :=
    funext fun p => bindParams_eq hslots p
  have hlength : Gives (bindNames params) fun names => names.length = params.length :=
    fun p => (calmStep_bindNames params p rfl).2
  rw [hbind]
  refine (mentions_bindNames params).bind_gives hlength fun names hlen => .pure ?_
  rintro _ N _ ⟨rfl, hnames⟩
  exact ⟨rfl, names, hlen, hnames, rfl⟩

/-- `memberBody`: the body of a loop member after constants for its parameters. -/
theorem mentions_memberBody {m : Member} {slots : List String}
    (hslots : m.params.length ≤ slots.length) (h : MentionsBlock c .looping m.body) :
    Mentions c (memberBody m slots) fun S N body Ls => ∃ (names : List String) (block : List Stmt),
      names.length = m.params.length ∧ (∀ x ∈ names, N x) ∧ body = copySlots names slots ++ block ∧
        BlockMentions N (placeOf .looping S) block Ls := by
  refine (mentions_bindParams hslots).bind fun binds => h.map fun _ N block Ls' hblock Ls h => ?_
  obtain ⟨rfl, names, hlen, hnames, rfl⟩ := h
  exact ⟨names, block, hlen, hnames, rfl, hblock⟩

/-- `dispatchBody`: the bodies of all members behind tests of the selector. -/
theorem mentions_dispatchBody {G : JumpTarget} {selector : String} {i : Nat}
    {members : List Member} (hselector : G.selector = some selector)
    (h : ∀ m ∈ members, MentionsBlock c .looping m.body)
    (hslots : ∀ m ∈ members, m.params.length ≤ G.slots.length)
    (harities : ∀ j m, members[j]? = some m → G.arities[i + j]? = some m.params.length) :
    Mentions c (dispatchBody selector G.slots i members) fun S N body Ls =>
      placeOf .looping S = some G → BodyMentions N G i body Ls := by
  induction members generalizing i with
  | nil => exact .pure fun _ _ _ => .nil
  | cons m rest ih =>
    have hroom := hslots m (List.mem_cons_self ..)
    have harity := harities 0 m rfl
    rw [Nat.add_zero] at harity
    have hfirst := mentions_memberBody hroom (h m (List.mem_cons_self ..))
    cases rest with
    | nil =>
      refine hfirst.mono fun S N body Ls hbody hplace => ?_
      obtain ⟨names, block, hlen, hnames, rfl, hblock⟩ := hbody
      rw [hplace] at hblock
      exact .last (hlen ▸ harity) (hlen ▸ hroom) hnames hblock
    | cons m' rest =>
      have hrest := ih (fun m hm => h m (List.mem_cons_of_mem _ hm))
        (fun m hm => hslots m (List.mem_cons_of_mem _ hm)) (i := i + 1) fun j m hm => by
          -- the number of the first member moves on with the members
          rw [Nat.add_right_comm, Nat.add_assoc]
          exact harities (j + 1) m hm
      refine hfirst.bind fun body => hrest.map fun S N others Ls' hothers Ls hbody hplace => ?_
      obtain ⟨names, block, hlen, hnames, rfl, hblock⟩ := hbody
      rw [hplace] at hblock
      exact .test hselector (hlen ▸ harity) (hlen ▸ hroom) hnames hblock (hothers hplace)

/-- `entries`: the functions that enter a shared loop. -/
theorem mentions_entries (label : String) (i : Nat) (members : List Member) :
    Mentions c (entries label i members) fun _ N decls Ls =>
      N label → (∀ m ∈ members, N m.ident) → Leads N decls Ls := by
  induction members generalizing i with
  | nil => exact .pure fun _ _ _ _ => .nil
  | cons m rest ih =>
    refine (mentions_freshNames _).bind fun copies => (ih (i + 1)).map ?_
    intro _ N decls Ls' hdecls Ls h hlabel hidents
    obtain ⟨rfl, hcopies⟩ := h
    obtain ⟨hident, hidents⟩ := List.forall_mem_cons.1 hidents
    have hcall : ExprMentions N (.call (.ident label) (natLit i :: copies.map .ident)) [] :=
      .of_parts rfl rfl (.cons (.ident hlabel) (.cons (.leaf rfl rfl) (.idents hcopies)))
    have hfunction : ExprMentions N (entryFunction label i copies) [] :=
      .curried (.function (.one rfl rfl (.one hcall)))
    exact (Leads.const hident hfunction).append (hdecls hlabel hidents)

/-- `freshNames` only ever appends to its `bases`, so a dollar sign stays. -/
theorem dollar_mem_freshNames {bases : List String} (h : ∀ x ∈ bases, '$' ∈ x.toList)
    (p : Progress) : ∀ x ∈ (freshNames bases p).1, '$' ∈ x.toList := by
  induction bases generalizing p with
  | nil => nofun
  | cons base rest ih =>
    obtain ⟨hbase, hrest⟩ := List.forall_mem_cons.1 h
    exact List.forall_mem_cons.2 ⟨dollar_mem_freshName hbase p, ih hrest (freshName base p).2⟩

/-- `selfLoop`: a single function as a loop. -/
theorem mentions_selfLoop {m : Member} (h : MentionsBlock c .looping m.body) :
    MentionsExpr c (selfLoop m) := by
  have hlabel : Gives (freshName ("$" ++ m.ident)) fun label => '$' ∈ label.toList :=
    fun p => dollar_mem_freshName (by simp) p
  have hlength (start : String) : Gives (freshNames (paramBases start m.params))
      fun names => names.length = m.params.length :=
    fun p => length_freshNames_paramBases ..
  refine (mentions_freshName _).bind_gives hlabel fun label hdollar => ?_
  refine (mentions_freshNames _).bind_gives (hlength "$copy_") fun copies hcopies => ?_
  have hbases (x : String) (hx : x ∈ paramBases (label ++ "_") m.params) : '$' ∈ x.toList := by
    obtain ⟨q, -, rfl⟩ := List.mem_map.1 hx
    simp [hdollar]
  refine Mentions.claim id (claims_freshNames _) (dollar_mem_freshNames hbases)
    (names_freshNames _) (hlength _) fun slots hslots => ?_
  -- the body of the loop
  let G : JumpTarget := ⟨none, slots, [slots.length]⟩
  have hroom : ∀ y ∈ [(m.ref, m.params.length)], y.2 ≤ slots.length := by
    rw [List.forall_mem_singleton]
    exact Nat.le_of_eq hslots.symm
  have hbody := mentions_inLoop (s := ⟨label, [(m.ref, m.params.length)], none, slots⟩)
    (mentions_memberBody (Nat.le_of_eq hslots.symm) h) hroom
  refine hbody.map fun S N body Ls hbody => ?_
  obtain ⟨names, block, hlen, hnames, rfl, hblock⟩ := hbody
  have hblock : BlockMentions N (some G) block Ls := by
    rwa [show G = ⟨none, slots, [m.params.length]⟩ by rw [← hslots]]
  have hlen := hlen.trans hslots.symm
  have hmember : BodyMentions N G 0 (copySlots names slots ++ block) Ls :=
    .last (by rw [hlen]; rfl) (Nat.le_of_eq hlen) hnames hblock
  refine ⟨⟨G, lastParams copies, startSlots slots copies ++
    [.loop (copySlots names slots ++ block)]⟩, rfl, ?_⟩
  rintro _ ⟨rfl, hknown⟩ _ ⟨rfl, -⟩
  have hlens : copies.length = slots.length := hcopies.trans hslots.symm
  exact .curried (.loop (.single hlens hknown) hmember)

/-- The `bases` of the slots of a shared loop. -/
def slotBases (members : List Member) (label : String) : List String :=
  (List.range (slotCount members)).map fun i => label ++ "_" ++ Decimal.digitsText i

/-- The first step of `sharedLoop`: names for the selector and the slots. -/
def loopNames (members : List Member) (label : String) : Lowering (String × List String) := do
  let selector ← freshName (label ++ "_fn")
  let slots ← freshNames (slotBases members label)
  return (selector, slots)

section

variable {members : List Member} {label : String}

/-- `sharedLoop` takes its `loopNames` before it writes anything. -/
theorem sharedLoop_eq (members : List Member) (label : String) :
    sharedLoop members label = loopNames members label >>= fun q => do
      let body ← inLoop ⟨label, members.map fun m => (m.ref, m.params.length), some q.1, q.2⟩
        (dispatchBody q.1 q.2 0 members)
      let rest ← entries label 0 members
      return .const label (.arrow (q.1 :: q.2) [.loop body]) :: rest :=
  rfl

/-- `loopNames` claims the selector and the slots. -/
theorem claims_loopNames (members : List Member) (label : String) (p : Progress) :
    Claims p (loopNames members label p).2 []
      ((loopNames members label p).1.1 :: (loopNames members label p).1.2) :=
  (claims_freshName _ p).trans (claims_freshNames (slotBases members label) _)

/-- The names of `loopNames` have a dollar sign if `label` has one. -/
theorem dollar_mem_loopNames (members : List Member) (h : '$' ∈ label.toList) (p : Progress) :
    ∀ x ∈ (loopNames members label p).1.1 :: (loopNames members label p).1.2,
      '$' ∈ x.toList := by
  refine List.forall_mem_cons.2
    ⟨dollar_mem_freshName (by simp [h]) p, dollar_mem_freshNames (fun x hx => ?_) _⟩
  obtain ⟨i, -, rfl⟩ := List.mem_map.1 hx
  simp [h]

/-- `loopNames` makes `slotCount members` slots. -/
theorem gives_loopNames (members : List Member) (label : String) :
    Gives (loopNames members label) fun q => q.2.length = slotCount members := by
  intro p
  have hlen : (loopNames members label p).1.2.length = (slotBases members label).length :=
    gives_freshNames (slotBases members label) _
  exact hlen.trans (by rw [slotBases, List.length_map, List.length_range])

/-- `sharedLoop` writes its variables in their places, once `label` is the name of the shared
function. -/
theorem mentions_sharedLoop (hdollar : '$' ∈ label.toList)
    (h : ∀ m ∈ members, MentionsBlock c .looping m.body) :
    Mentions c (sharedLoop members label) fun _ N decls Ls =>
      N label → (∀ m ∈ members, N m.ident) → Leads N decls Ls := by
  rw [sharedLoop_eq]
  refine Mentions.claim (fun q => q.1 :: q.2) (claims_loopNames members label)
    (dollar_mem_loopNames members hdollar) (fun p => names_freshNames (slotBases members label) _)
    (gives_loopNames members label) ?_
  rintro ⟨selector, slots⟩ hslots
  let s : LoopScope :=
    ⟨label, members.map fun m => (m.ref, m.params.length), some selector, slots⟩
  have hroom (m : Member) (hm : m ∈ members) : m.params.length ≤ slots.length := by
    rw [hslots]
    exact le_slotCount hm
  -- the body chooses between the members
  have hdispatch := mentions_dispatchBody (G := s.target) (i := 0) rfl h hroom fun j m hm => by
    rw [Nat.zero_add, LoopScope.target, List.getElem?_map, List.getElem?_map, hm]
    rfl
  have hbody := mentions_inLoop (s := s) hdispatch (by
    intro y hy
    obtain ⟨m, hm, rfl⟩ := List.mem_map.1 hy
    exact hroom m hm)
  refine hbody.bind fun body => (mentions_entries label 0 members).map ?_
  intro S N rest Ls' hrest Ls hbody
  refine ⟨⟨s.target, selector :: slots, [.loop body]⟩, rfl, fun hlabel hidents => ?_⟩
  have hfunction := ExprMentions.loop (L := ⟨s.target, selector :: slots, [.loop body]⟩)
    .shared (hbody rfl)
  exact (Leads.const hlabel hfunction).append (hrest hlabel hidents)

end

/-- `sharedLabel` gives a known name with a dollar sign: that of the `dispatcher`, or a fresh
one. -/
theorem mentions_sharedLabel (members : List Member) {dispatcher : Option String}
    (hdispatcher : ∀ label, dispatcher = some label → label ∈ c.reserved ∧ '$' ∈ label.toList) :
    Mentions c (sharedLabel members dispatcher) (fun _ N label Ls => Ls = [] ∧ N label) ∧
      Gives (sharedLabel members dispatcher) fun label => '$' ∈ label.toList := by
  cases dispatcher with
  | none => exact ⟨mentions_freshName _, fun p => dollar_mem_freshName (by simp) p⟩
  | some label =>
    obtain ⟨hreserved, hdollar⟩ := hdispatcher label rfl
    exact ⟨(mentions_reserved hreserved).mono fun _ _ _ _ ⟨hnil, hname, h⟩ => ⟨hnil, hname ▸ h⟩,
      .pure hdollar⟩

/-- `loopDeclarations`: the loop of a group, be it one function or several. -/
theorem mentions_loopDeclarations {members : List Member} {dispatcher : Option String}
    (hdispatcher : ∀ label, dispatcher = some label → label ∈ c.reserved ∧ '$' ∈ label.toList)
    (h : ∀ m ∈ members, MentionsBlock c .looping m.body) :
    Mentions c (loopDeclarations members dispatcher) fun _ N decls Ls =>
      (∀ m ∈ members, N m.ident) → Leads N decls Ls := by
  have hgroup : Mentions c (groupLoop members dispatcher) fun _ N decls Ls =>
      (∀ m ∈ members, N m.ident) → Leads N decls Ls := by
    obtain ⟨hlabel, hdollar⟩ := mentions_sharedLabel members hdispatcher
    rw [groupLoop_eq]
    refine (mentions_report _ _).bind fun _ => hlabel.bind_gives hdollar fun label hdollar => ?_
    refine (mentions_sharedLoop hdollar h).mono ?_
    rintro _ N decls Ls hdecls _ ⟨rfl, hlabel⟩ _ rfl hidents
    exact hdecls hlabel hidents
  match members, h, hgroup with
  | [], _, hgroup => exact hgroup
  | [m], h, _ =>
    refine (mentions_report _ _).bind fun _ => ?_
    refine (mentions_selfLoop (h m (List.mem_singleton.2 rfl))).map ?_
    rintro _ N e Ls he _ rfl hidents
    exact .const (hidents m (List.mem_singleton.2 rfl)) he
  | _ :: _ :: _, _, hgroup => exact hgroup

/-- Each member that `loopMembers?` finds has a name of `idents` and the body of one of `codes`. -/
theorem mem_loopMembers? {idents : List String} {refs : List Ref} {codes : List Code}
    {members : List Member} (h : loopMembers? idents refs codes = some members) :
    ∀ m ∈ members, m.ident ∈ idents ∧ ∃ K ∈ codes, K.function = some (m.params, m.body) := by
  have hmem (q : (String × Ref) × Code) (hq : q ∈ (idents.zip refs).zip codes) :
      q.1.1 ∈ idents ∧ q.2 ∈ codes := by
    obtain ⟨hq, hcode⟩ := List.of_mem_zip hq
    exact ⟨(List.of_mem_zip hq).1, hcode⟩
  rw [loopMembers?] at h
  generalize (idents.zip refs).zip codes = qs at h hmem
  induction qs generalizing members with
  | nil =>
    obtain rfl := Option.some.inj h
    exact List.forall_mem_nil _
  | cons q rest ih =>
    obtain ⟨⟨hident, hcode⟩, hmem⟩ := List.forall_mem_cons.1 hmem
    rw [List.mapM_cons] at h
    cases hfunction : q.2.function with
    | none => simp [hfunction] at h
    | some f =>
      simp only [hfunction, Option.map_some, Option.bind_eq_bind, Option.bind_some,
        Option.bind_eq_some_iff] at h
      obtain ⟨others, hothers, hmembers⟩ := h
      obtain rfl := Option.some.inj hmembers
      exact List.forall_mem_cons.2 ⟨⟨hident, q.2, hcode, hfunction⟩, ih hothers hmem⟩

/-- `groupDeclarations`: a recursive group, which may be a loop. -/
theorem mentions_groupDeclarations {loop functions : Bool} {refs : List Ref}
    {binders : List Binder} {codes : List Code} (h : ∀ K ∈ codes, K.NamesWell c) :
    MentionsDecls c (groupDeclarations loop functions refs binders codes) := by
  refine (mentions_bindNames binders).bind fun idents => ?_
  split
  · rename_i members hmembers
    have hbody := mem_loopMembers? hmembers
    refine (mentions_loopDeclarations (by nofun) fun m hm => ?_).mono ?_
    · obtain ⟨-, K, hK, hfunction⟩ := hbody m hm
      exact (h K hK).function _ hfunction
    · rintro _ N decls Ls hdecls _ ⟨rfl, hidents⟩
      exact hdecls fun m hm => hidents _ (hbody m hm).1
  · refine (mentions_recursiveDeclarations fun b hb => h _ (List.of_mem_zip hb).2).mono ?_
    rintro _ N decls Ls hdecls _ ⟨rfl, hidents⟩
    exact hdecls fun b hb => hidents _ (List.of_mem_zip hb).1

/-! ## Terms -/

/-- `c` reserves the first name of every top-level name in `t`. -/
def Globals (c : Context) (t : Analyzed) : Prop :=
  ∀ a q, Term.global a q ∈ t.subterms → globalHead c q ∈ c.reserved

/-- What holds of the names in `t` holds of those in its child `s`. -/
theorem Globals.child {s t : Analyzed} (h : Globals c t) (hs : s ∈ t.children) : Globals c s :=
  fun a q hq => h a q (mem_subterms_iff.2 (.inr ⟨s, hs, hq⟩))

/-- `globalExpr` mentions `globalHead` and nothing else. -/
theorem exprMentions_globalExpr {N : String → Prop} {q : Qualified} (h : N (globalHead c q)) :
    ExprMentions N (globalExpr c q) [] := by
  have hown (h : N (if c.isForeign q.ident then foreignAlias else q.ident)) :
      ExprMentions N (if c.isForeign q.ident then .access (.ident foreignAlias) q.ident
        else .ident q.ident) [] := by
    split at h
    · rename_i hforeign
      rw [if_pos hforeign]
      exact .wrap rfl rfl (.ident h)
    · rename_i hforeign
      rw [if_neg hforeign]
      exact .ident h
  cases hlocal : c.isLocal q with
  | true =>
    simp only [globalHead, globalExpr, hlocal] at h ⊢
    exact hown h
  | false =>
    cases hmodule : q.module with
    | none =>
      simp only [globalHead, globalExpr, hlocal, hmodule] at h ⊢
      exact hown h
    | some m =>
      simp only [globalHead, globalExpr, hlocal, hmodule] at h ⊢
      exact .wrap rfl rfl (.ident h)

/-- `constructorExpr` mentions its parameters. -/
theorem exprMentions_constructorExpr {N : String → Prop} {tag : String}
    {fields params : List String} (h : ∀ x ∈ params, N x) :
    ExprMentions N (constructorExpr tag fields params) [] := by
  have hfields : ExprsMention N
      (((fields.zip params).map fun p => Field.field p.1 (.ident p.2)).map Field.value) [] := by
    rw [List.map_map]
    have hvalues : ExprsMention N (((fields.zip params).map Prod.snd).map .ident) [] :=
      .idents fun x hx => by
        obtain ⟨q, hq, rfl⟩ := List.mem_map.1 hx
        exact h q.2 (List.of_mem_zip hq).2
    rwa [List.map_map] at hvalues
  have hobject : ExprMentions N (.object (tagField tag ::
      (fields.zip params).map fun p => .field p.1 (.ident p.2))) [] :=
    .of_parts rfl rfl (.cons (.leaf rfl rfl) hfields)
  unfold constructorExpr
  split
  · exact hobject
  · exact .curried (.function (.one rfl rfl (.one hobject)))

/-- `accessExpr` mentions what its subject `e` mentions. -/
theorem exprMentions_accessExpr {N : String → Prop} {e : Script.Expr} {Ls : List LoopFunction}
    (h : ExprMentions N e Ls) (accessor : Accessor) :
    ExprMentions N (accessExpr e accessor) Ls := by
  cases accessor with
  | property | field => exact .wrap rfl rfl h
  | index i =>
    have hindex := ExprsMention.two h (.leaf rfl rfl : ExprMentions N (wordLit i) [])
    rw [List.append_nil] at hindex
    exact .of_parts rfl rfl hindex

/-- `testExpr` mentions what its subject `e` mentions. -/
theorem exprMentions_testExpr {N : String → Prop} {e : Script.Expr} {Ls : List LoopFunction}
    (h : ExprMentions N e Ls) (guard : Guard) : ExprMentions N (testExpr e guard) Ls := by
  have hcompare {x y : Script.Expr} (hx : ExprMentions N x Ls) (hy : y.parts? = some [])
      (hname : y.name? = none) : ExprMentions N (.binary .eq x y) Ls := by
    have hparts := ExprsMention.two hx (.leaf hy hname)
    rw [List.append_nil] at hparts
    exact .of_parts rfl rfl hparts
  cases guard with
  | boolean value =>
    cases value with
    | true => exact h
    | false => exact .wrap rfl rfl h
  | tag | length => exact hcompare (.wrap rfl rfl h) rfl rfl
  | _ => exact hcompare h rfl rfl

/-- Lowered as values, the terms `ts` mention what their codes do. -/
theorem mentions_values {ts : List Analyzed} (h : ∀ t ∈ ts, (code c t).NamesWell c) :
    ∀ m ∈ valueCodes c ts, MentionsExpr c m := by
  rw [valueCodes_eq_map]
  exact List.forall_mem_map.2 fun t ht => (h t ht).value

/-- `fieldCodes`: the parts of an object literal. -/
theorem mentions_fieldCodes {fields : List (String × Analyzed)}
    (h : ∀ s ∈ fields.map Prod.snd, (code c s).NamesWell c) :
    Mentions c (all (fieldCodes c fields))
      fun _ N fs Ls => ExprsMention N (fs.map Field.value) Ls := by
  rw [fieldCodes_eq_map]
  refine mentions_all Field.value (List.forall_mem_map.2 fun f hf => ?_)
  exact (h f.2 (List.mem_map.2 ⟨f, hf, rfl⟩)).value.map fun _ _ _ _ he => he

/-- If `c` reserves the top-level names in `t`, all ways to lower `t` mention the variables of loops
in their places only. -/
theorem namesWell_code (t : Analyzed) (hq : Globals c t) : (code c t).NamesWell c := by
  induction t using children_induction with
  | step t ih =>
  have hchild (s : Analyzed) (hs : s ∈ t.children) : (code c s).NamesWell c :=
    ih s hs (hq.child hs)
  cases t with
  | global a q =>
    have hhead := hq a q (mem_subterms_iff.2 (.inl rfl))
    refine namesWell_ofValue ((mentions_reserved hhead).map (f := fun _ => globalExpr c q) ?_)
    rintro _ N _ _ ⟨rfl, -, hhead⟩
    exact exprMentions_globalExpr hhead
  | bound a b =>
    refine namesWell_ofValue ((mentions_nameOf b).map ?_)
    rintro _ N x _ ⟨rfl, hx⟩
    exact .ident hx
  | lit a value =>
    refine namesWell_ofValue (.pure fun _ _ => ?_)
    cases value <;> exact .leaf rfl rfl
  | constructor a tag fields =>
    refine namesWell_ofValue ((mentions_freshNames fields).map ?_)
    rintro _ N names _ ⟨rfl, hnames⟩
    exact exprMentions_constructorExpr hnames
  | undefined a =>
    exact namesWell_ofReturn (.pure fun _ _ => .leaf rfl rfl)
      (.pure fun _ _ => ⟨[], rfl, rfl, .nil⟩)
  | fail a message =>
    -- `Error` has no dollar sign, so it is none of the variables of a loop
    refine namesWell_ofBlock fun _ => (mentions_plain (x := "Error") (by decide)).map
      (f := fun _ => [failure message]) ?_
    rintro _ N _ _ ⟨rfl, -, herror⟩
    have hnew : ExprMentions N (.new (.ident "Error") [.text message]) [] :=
      .of_parts rfl rfl (.cons (.ident herror) (.cons (.leaf rfl rfl) .nil))
    exact .one rfl rfl (.one hnew)
  | array a items =>
    exact namesWell_ofValue ((mentions_exprs (mentions_values hchild)).map
      fun _ _ _ _ h => .of_parts rfl rfl h)
  | record a fields =>
    exact namesWell_ofObject ((mentions_fieldCodes hchild).map
      fun _ _ _ _ h => .of_parts rfl rfl h)
  | construct a type tag fields =>
    refine namesWell_ofObject ((mentions_fieldCodes hchild).map
      fun _ _ _ _ h => .of_parts rfl rfl ?_)
    exact .cons (.leaf rfl rfl) h
  | update a subject fields =>
    refine namesWell_ofObject ((hchild subject (List.mem_cons_self ..)).value.bind fun e => ?_)
    exact (mentions_fieldCodes fun s hs => hchild s (List.mem_cons_of_mem _ hs)).map
      fun _ _ fs Ls' hfs Ls he => .of_parts rfl rfl (.cons he hfs)
  | app a calling head args =>
    have hhead := hchild head (List.mem_cons_self ..)
    have hargs := mentions_values fun s hs => hchild s (List.mem_cons_of_mem _ hs)
    cases calling with
    | curried => exact namesWell_appCode hhead.value hargs
    | uncurried => exact namesWell_ofValue (mentions_callAll hhead.value hargs)
    | effectful => exact namesWell_effectAppCode hhead.value hargs
  | abs a calling params body =>
    have hbody := hchild body (List.mem_singleton.2 rfl)
    cases calling with
    | curried => exact namesWell_curriedCode hbody
    | uncurried | effectful => exact namesWell_arrowCode rfl hbody
  | access a subject accessor =>
    exact namesWell_ofValue ((hchild subject (List.mem_singleton.2 rfl)).value.map
      fun _ _ _ _ he => exprMentions_accessExpr he accessor)
  | test a subject guard =>
    exact namesWell_ofValue ((hchild subject (List.mem_singleton.2 rfl)).value.map
      fun _ _ _ _ he => exprMentions_testExpr he guard)
  | unary a op operand =>
    exact namesWell_ofValue ((hchild operand (List.mem_singleton.2 rfl)).value.map
      fun _ _ _ _ he => .wrap rfl rfl he)
  | binary a op left right =>
    refine namesWell_ofValue ((hchild left (by simp [children])).value.bind fun e => ?_)
    exact (hchild right (by simp [children])).value.map
      fun _ _ e' Ls' he' Ls he => .of_parts rfl rfl (.two he he')
  | letIn a b value body =>
    exact namesWell_letCode (hchild value (by simp [children])) (hchild body (by simp [children]))
  | letRec a level bindings body =>
    have hbody := hchild body (by simp [children])
    have hcodes (K : Code) (hK : K ∈ (bindings.map Prod.snd).map (code c)) : K.NamesWell c := by
      obtain ⟨s, hs, rfl⟩ := List.mem_map.1 hK
      exact hchild s (List.mem_append_left _ hs)
    -- the declarations of a group count what follows them, since a loop's variables are declared
    -- there
    rw [code, bindingCodes_eq]
    refine namesWell_ofBlock fun mode => (mentions_groupDeclarations hcodes).bind fun decls => ?_
    exact (hbody.block mode).map fun _ _ rest Ls' hrest Ls hdecls => hdecls _ _ _ hrest
  | bindEffect a b effect body =>
    exact namesWell_bindCode (hchild effect (by simp [children])) (hchild body (by simp [children]))
  | pureEffect a value => exact namesWell_pureCode (hchild value (List.mem_singleton.2 rfl))
  | deferEffect a effect => exact namesWell_deferCode (hchild effect (List.mem_singleton.2 rfl))
  | branch a arms default =>
    have harm (arm : Analyzed × Analyzed) (h : arm ∈ arms) (s : Analyzed)
        (hs : s ∈ [arm.1, arm.2]) : (code c s).NamesWell c :=
      hchild s (List.mem_append_left _ (List.mem_flatMap.2 ⟨arm, h, hs⟩))
    rw [code, armCodes_eq_map]
    exact namesWell_branchCode (List.forall_mem_map.2 fun arm h => harm arm h _ (by simp))
      (List.forall_mem_map.2 fun arm h => harm arm h _ (by simp))
      (hchild default (by simp [children]))

/-! ## Units -/

/-- At the start of a declaration there are no loops, hence no variables of loops. -/
theorem apart_ofContext (c : Context) : Apart c [] ⟨.ofContext c, [], none⟩ where
  taken := nofun
  dollar := nofun
  reserved _ hx := ⟨.inl (Env.isTaken_ofContext.2 hx), nofun⟩
  names := nofun
  roomy := nofun

/-- What `m` writes at the start of a declaration mentions the variables of its loops in their
places only. -/
theorem namesApart_runIn {m : Lowering (List Stmt)} (h : Mentions c m fun _ N decls Ls =>
    (∀ x ∈ c.reserved, N x) → Leads N decls Ls) :
    ∃ Ls, NamesApart (m.runIn (.ofContext c)).result Ls := by
  obtain ⟨V, hclaims, hend, hout⟩ := h [] _ (apart_ofContext c)
  obtain ⟨Ls, rfl, hdecls⟩ := hout (fun x => x ∉ V) fun x hx => hx.2
  exact ⟨Ls, hclaims.nodup, (hdecls fun x hx => (hend.reserved x hx).2).toBlock⟩

/-- `binding` declares a value under a reserved `name`. -/
theorem namesApart_binding {name : String} {t : Analyzed} (hname : name ∈ c.reserved)
    (h : (code c t).NamesWell c) : ∃ Ls, NamesApart (binding c name t).result Ls :=
  namesApart_runIn (h.value.map fun _ _ _ _ he hreserved => .const (hreserved name hname) he)

/-- `decls` consist of parts that mention the variables of their own loops in their places only. -/
def PartsNamedApart (decls : List Stmt) : Prop :=
  ∃ parts : List (List Stmt × List LoopFunction), decls = parts.flatMap Prod.fst ∧
    ∀ part ∈ parts, NamesApart part.1 part.2

/-- `decls` as a single part. -/
theorem PartsNamedApart.one {decls : List Stmt} (h : ∃ Ls, NamesApart decls Ls) :
    PartsNamedApart decls := by
  obtain ⟨Ls, h⟩ := h
  exact ⟨[(decls, Ls)], (List.append_nil decls).symm, List.forall_mem_singleton.2 h⟩

/-- Parts after each other, for every `x` of `xs`. -/
theorem PartsNamedApart.flatMap {ι : Type} {xs : List ι} {decls : ι → List Stmt}
    (h : ∀ x ∈ xs, PartsNamedApart (decls x)) : PartsNamedApart (xs.flatMap decls) := by
  induction xs with
  | nil => exact ⟨[], rfl, by nofun⟩
  | cons x rest ih =>
    obtain ⟨parts, hdecls, hparts⟩ := h x (List.mem_cons_self ..)
    obtain ⟨others, hdecls', hothers⟩ := ih fun y hy => h y (List.mem_cons_of_mem _ hy)
    refine ⟨parts ++ others, ?_, List.forall_mem_append.2 ⟨hparts, hothers⟩⟩
    rw [List.flatMap_cons, List.flatMap_append, hdecls, hdecls']

/-- The declarations of the group `g` are parts that mention the variables of their loops in their
places only. -/
theorem partsNamedApart_group {g : AnalyzedGroup} (hshares : c.SharesWell)
    (hnames : ∀ b ∈ g.bindings, b.1 ∈ c.reserved) (hglobals : ∀ b ∈ g.bindings, Globals c b.2) :
    PartsNamedApart (group c g).result := by
  have hcode (t : Analyzed) (ht : t ∈ g.bindings.map Prod.snd) : (code c t).NamesWell c := by
    obtain ⟨b, hb, rfl⟩ := List.mem_map.1 ht
    exact namesWell_code b.2 (hglobals b hb)
  unfold group
  split
  · rename_i members _ hmembers
    rw [topMembers?, bindingCodes_eq] at hmembers
    have hmember := mem_loopMembers? hmembers
    -- a shared function that the unit knows is a name of the module
    have hdispatcher (label : String) (hlabel : groupDispatcher? c g.bindings = some label) :
        label ∈ c.reserved ∧ '$' ∈ label.toList := by
      obtain ⟨b, -, hlabel⟩ := Option.bind_eq_some_iff.1 hlabel
      exact hshares b.1 label hlabel
    have hloop : Mentions c (loopDeclarations members (groupDispatcher? c g.bindings))
        fun _ N decls Ls => (∀ x ∈ c.reserved, N x) → Leads N decls Ls := by
      refine (mentions_loopDeclarations hdispatcher fun m hm => ?_).mono ?_
      · obtain ⟨-, K, hK, hfunction⟩ := hmember m hm
        obtain ⟨t, ht, rfl⟩ := List.mem_map.1 hK
        exact (hcode t ht).function _ hfunction
      · intro _ N decls Ls hdecls hreserved
        refine hdecls fun m hm => hreserved _ ?_
        obtain ⟨b, hb, hident⟩ := List.mem_map.1 (hmember m hm).1
        exact hident ▸ hnames b hb
    exact .one (namesApart_runIn hloop)
  -- other bindings are declared one by one, each from a state of its own
  · rw [Outcome.result_concat, List.flatMap_map]
    exact .flatMap fun b hb => .one (namesApart_binding (hnames b hb)
      (hcode b.2 (List.mem_map.2 ⟨b, hb, rfl⟩)))

/-- If `t` refers to names that `u` knows, the context of `u` reserves them, and the analysis adds
no name. -/
theorem globals_analyze {u : CompilationUnit} (loops : Bool) {t : Expr} {scope : List Binder}
    (h : t.everywhere (fun _ s => s.knownBy u.knows) scope = true) (cs : Candidates) :
    Globals (.ofUnit u loops) (analyze cs t) := by
  induction t using children_induction generalizing scope cs with
  | step t ih =>
    obtain ⟨hroot, hchildren⟩ := everywhere_iff.1 h
    intro a q hq
    rcases mem_subterms_iff.1 hq with heq | ⟨s, hs, hq⟩
    · cases t with
      | global a' q' =>
        obtain ⟨-, rfl⟩ := Term.global.inj heq
        exact reserved_of_knows loops hroot
      | _ => simp [analyze] at heq
    · obtain ⟨x, hx, cs', -, rfl⟩ := mem_children_analyze hs
      refine ih x.2 ?_ (hchildren x hx) cs' a q hq
      rw [← map_snd_scopedChildren]
      exact List.mem_map_of_mem hx

/-- If `u` refers to known names only, its script mentions the variables of loops in their places
only. -/
theorem partsNamedApart_module {u : CompilationUnit} (loops : Bool)
    (h : ∀ b ∈ u.bindings, b.2.everywhere (fun _ s => s.knownBy u.knows) [] = true) :
    PartsNamedApart (Lower.module u loops).result.declarations := by
  obtain ⟨hshares, hreserved⟩ := Context.sharesWell_ofUnit u loops
  rw [declarations_module]
  refine .flatMap fun g' hg' => ?_
  obtain ⟨g, hg, rfl⟩ := List.mem_map.1 hg'
  have hbinding (b : String × Analyzed) (hb : b ∈ (g.analyze u.name).bindings) :
      ∃ b' ∈ u.bindings, b.1 = b'.1 ∧ ∃ cs, b.2 = analyze cs b'.2 := by
    rw [BindingGroup.analyze, analyzeFields_eq_map] at hb
    obtain ⟨b', hb', rfl⟩ := List.mem_map.1 hb
    exact ⟨b', List.mem_flatMap.2 ⟨g, hg, hb'⟩, rfl, _, rfl⟩
  refine partsNamedApart_group hshares (fun b hb => ?_) fun b hb => ?_
  · obtain ⟨b', hb', hname, -⟩ := hbinding b hb
    exact hreserved (by simp [hname, List.mem_map_of_mem hb'])
  · obtain ⟨b', hb', -, cs, heq⟩ := hbinding b hb
    rw [heq]
    exact globals_analyze loops (h b' hb') cs

end TailLoop.Lower
