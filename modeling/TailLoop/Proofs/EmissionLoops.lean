import TailLoop.Proofs.EmissionNodes

/-!
# Lowering recursive groups and the declarations they become

A recursive group is written as declarations of its members, or as a loop. The variables of a loop
are in use while its body is written, so that no name inside the loop hides them.

* `GroupAt`: what the declarations of a group are like.
* `standsFor_letRec`: recursive groups inside terms.
-/

namespace TailLoop.Lower

open Script Lowering Emit

variable {E : Setting} {scope : List Binder} {a : Analysis}
  {p p' : Progress}

/-- The declarations `decls` of a recursive group declare its members `idents` and perhaps a shared
function, and stand for the group where these are declared. -/
structure GroupAt (E : Setting) (scope : List Binder)
    (loop : Bool) (idents : List String) (refs : List Ref) (ts : List Analyzed)
    (extra : List String) (p p' : Progress) (decls : List Stmt) : Prop where
  /-- What was there before stays as it is. -/
  kept : Kept scope p p'
  /-- The members and the shared function are declared. -/
  declared : declared decls = extra ++ idents
  /-- The declarations stand for the group. -/
  out : ∀ Γ σ ks, Fits E scope p .plain .plain Γ σ →
    idents.map (resolve · Γ) = ks.map some → refs.map (declaration? E.names σ) = ks.map some →
    (∀ x ∈ extra, x ∈ Γ) → Group E loop Γ σ idents ks refs ts decls

/-! ## Groups that are no loops -/

/-- `declareValues` writes a `declaration` for each of `idents` with the value of its term. -/
theorem yields_declareValues (declaration : String → Script.Expr → Stmt) {idents : List String}
    {ts : List Analyzed} (hlen : idents.length = ts.length)
    (h : ∀ t ∈ ts, (code E.context t).StandsFor E scope t) :
    Yields E scope .plain (declareValues declaration (idents.zip (ts.map (code E.context))))
      fun _ Γ σ decls => ∃ es, Values E Γ σ ts es ∧
        decls = (idents.zip es).map fun q => declaration q.1 q.2 := by
  induction ts generalizing idents with
  | nil =>
    obtain rfl : idents = [] := by simpa using hlen
    exact .pure fun _ _ _ => ⟨[], .nil, rfl⟩
  | cons t rest ih =>
    cases idents with
    | nil => simp at hlen
    | cons ident idents =>
      refine (h t (List.mem_cons_self ..)).value.bind fun e => ?_
      refine (ih (by simpa using hlen) fun u hu => h u (List.mem_cons_of_mem _ hu)).bind
        fun decls => ?_
      refine .pure fun _ Γ σ hrest he => ?_
      obtain ⟨es, hes, rfl⟩ := hrest
      exact ⟨e :: es, .cons he hes, rfl⟩

/-- What `declareValues` declares depends on what a `declaration` declares. -/
theorem declared_declareValues (declaration : String → Script.Expr → Stmt)
    {d : String → Option String} (hd : ∀ x e, (declaration x e).declares? = d x)
      (bindings : List (String × Code)) (p : Progress) :
    declared (declareValues declaration bindings p).1 = (bindings.map Prod.fst).filterMap d := by
  induction bindings generalizing p with
  | nil => rfl
  | cons b rest ih =>
    have hstep : (declareValues declaration (b :: rest) p).1 =
        declaration b.1 (b.2.value p).1 :: (declareValues declaration rest (b.2.value p).2).1 := rfl
    rw [hstep, declared, List.filterMap_cons, hd, ← declared, ih, List.map_cons,
      List.filterMap_cons]

/-- `recursiveDeclarations` of a group that is no loop: constants, or variables that are
assigned. -/
theorem groupAt_recursiveDeclarations {idents : List String} {refs : List Ref} {ts : List Analyzed}
    (hlen : idents.length = ts.length) (h : ∀ t ∈ ts, (code E.context t).StandsFor E scope t)
    (hp : Ready E.context scope p) :
    GroupAt E scope false idents refs ts [] p
      (recursiveDeclarations (ts.all isFunction) (idents.zip (ts.map (code E.context))) p).2
      (recursiveDeclarations (ts.all isFunction) (idents.zip (ts.map (code E.context))) p).1 := by
  have hfst : (idents.zip (ts.map (code E.context))).map Prod.fst = idents :=
    List.map_fst_zip (Nat.le_of_eq (by rw [List.length_map, hlen]))
  cases hall : ts.all isFunction with
  | true =>
    have hvalues := yields_declareValues .const hlen h p hp
    -- Declared as functions: the values are written at the declarations, so there is nothing to
    -- hoist.
    refine ⟨hvalues.1, ?_, fun Γ σ ks hfits _ _ _ => ?_⟩
    · have hdeclared := declared_declareValues .const (fun _ _ => rfl)
        (idents.zip (ts.map (code E.context))) p
      rw [hfst, List.filterMap_some] at hdeclared
      exact hdeclared
    · obtain ⟨es, hes, heq⟩ := hvalues.2 .plain Γ σ hfits
      have hgroup : Group E false Γ σ idents ks refs ts _ := .functions hall hes
      rw [← heq] at hgroup
      exact hgroup
  | false =>
    have hvalues := yields_declareValues .assign hlen h p hp
    -- all variables are declared before the first is assigned
    have hdecls : (recursiveDeclarations false (idents.zip (ts.map (code E.context))) p).1 =
        idents.map (fun x => .declare x none) ++
          (declareValues .assign (idents.zip (ts.map (code E.context))) p).1 := by
      have hdeclares : (idents.zip (ts.map (code E.context))).map (fun b => Stmt.declare b.1 none) =
          idents.map fun x => .declare x none := by
        conv => rhs; rw [← hfst, List.map_map]
        rfl
      rw [← hdeclares]
      rfl
    refine ⟨hvalues.1, ?_, fun Γ σ ks hfits _ _ _ => ?_⟩
    · have hassigns := declared_declareValues .assign (fun _ _ => rfl)
        (idents.zip (ts.map (code E.context))) p
      rw [hdecls, declared_append, hassigns, declared_map (fun _ => rfl)]
      simp
    · obtain ⟨es, hes, heq⟩ := hvalues.2 .plain Γ σ hfits
      rw [hdecls, heq]
      exact .values hall hes

/-! ## Loops -/

/-- The state in which the body of the loop `s` is written. -/
def enterLoop (s : LoopScope) (p : Progress) : Progress :=
  let p' := (report .trace ("enter loop " ++ s.label) p).2
  { p' with env := p'.env.push s }

/-- `inLoop` takes a `step` in the loop `s`, which is left afterwards. -/
theorem inLoop_kept {α : Type} {s : LoopScope} {step : Lowering α}
    (h : Kept scope (enterLoop s p) (step (enterLoop s p)).2) :
    (inLoop s step p).1 = (step (enterLoop s p)).1 ∧ Kept scope p (inLoop s step p).2 := by
  refine ⟨rfl, h.taken, h.names, ?_⟩
  have hscopes : (step (enterLoop s p)).2.env.scopes = s :: p.env.scopes := h.scopes
  have hdrop : (step (enterLoop s p)).2.env.scopes.drop
      ((step (enterLoop s p)).2.env.scopes.length - p.env.scopes.length) = p.env.scopes := by
    rw [hscopes, List.length_cons, Nat.add_sub_cancel_left, List.drop_one, List.tail_cons]
  exact hdrop

/-- The body of the loop `s` can be written where the variables of the loop are in use. -/
theorem Ready.enterLoop {s : LoopScope} (h : Ready E.context scope p)
    (hvars : ∀ x ∈ s.variables, Used scope p x)
    (hmembers : ∀ m ∈ s.members, ∀ b, m.1 = .bound b → b ∈ scope)
    (hslots : ∀ m ∈ s.members, m.2 ≤ s.slots.length) : Ready E.context scope (enterLoop s p) where
  reserved := h.reserved
  named := h.named
  loops s' hs' := by
    rcases List.mem_cons.1 hs' with rfl | hs'
    · exact hvars
    · exact h.loops s' hs'
  members s' hs' := by
    rcases List.mem_cons.1 hs' with rfl | hs'
    · exact hmembers
    · exact h.members s' hs'
  slots s' hs' := by
    rcases List.mem_cons.1 hs' with rfl | hs'
    · exact hslots
    · exact h.slots s' hs'

/-- The variables of the innermost loop `s` refer to the declarations in `frame`. -/
theorem Fits.frame {s : LoopScope} {S : List LoopScope} {frame : LoopFrame} {Γ : List String}
    {σ : Naming} (h : Fits E scope p .looping (.loop frame) Γ σ)
    (hscopes : p.env.scopes = s :: S) : s.selector.map (resolve · Γ) = frame.selector.map some ∧
      s.slots.map (resolve · Γ) = frame.slots.map some := by
  cases h.serves with
  | loop hscopes' _ _ hselector hslots =>
    obtain ⟨rfl, -⟩ := List.cons.inj (hscopes.symm.trans hscopes')
    exact ⟨hselector, hslots⟩

/-- The term `t` is a curried function that can be a member of a loop. -/
structure MemberFits (E : Setting) (scope : List Binder)
    (t : Analyzed) : Prop where
  /-- It has parameters. -/
  pos : 0 < t.arity
  /-- Its parameters are fresh. -/
  fresh : Fresh E.closed scope t.params
  /-- Its body is lowered to scripts that stand for it. -/
  inner : (code E.context t.inner).StandsFor E (t.params ++ scope) t.inner

/-- `memberBody` writes the body of the member `q` after constants for its parameters. -/
theorem blockAt_memberBody {s : LoopScope} {S : List LoopScope} {q : (String × Ref) × Analyzed}
    (h : MemberFits E scope q.2) (hp : Ready E.context scope p)
    (hscopes : p.env.scopes = s :: S) (hlen : q.2.params.length ≤ s.slots.length) :
    BlockAt E scope .looping p (memberBody (memberOf E.context q) s.slots p).2
      (memberBody (memberOf E.context q) s.slots p).1
      fun purpose Γ σ block => ∀ frame, purpose = .loop frame →
        Emit.Member E frame s.slots Γ σ q.2 block := by
  -- The body begins with one constant for each parameter, which takes its value from the slot of
  -- the loop; what the member itself declares comes after these.
  have hnamed := h.fresh.named hp
  have hrest := h.inner.block .looping _ hnamed.ready
  have hbody : memberBody (memberOf E.context q) s.slots p =
      ((((bindNames q.2.params p).1.zip s.slots).map fun n => .const n.1 (.ident n.2)) ++
          ((code E.context q.2.inner).block .looping (bindNames q.2.params p).2).1,
        ((code E.context q.2.inner).block .looping (bindNames q.2.params p).2).2) := by
    have hparams : bindParams (memberOf E.context q).params s.slots p = _ := bindParams_eq hlen p
    have hrun : memberBody (memberOf E.context q) s.slots p =
        ((bindParams (memberOf E.context q).params s.slots p).1 ++
            ((code E.context q.2.inner).block .looping
              (bindParams (memberOf E.context q).params s.slots p).2).1,
          ((code E.context q.2.inner).block .looping
            (bindParams (memberOf E.context q).params s.slots p).2).2) := rfl
    rw [hrun, hparams]
  have hdeclared : declared (((bindNames q.2.params p).1.zip s.slots).map
      fun n => Stmt.const n.1 (.ident n.2)) = [] ++ (bindNames q.2.params p).1 := by
    have hfst : ((bindNames q.2.params p).1.zip s.slots).map Prod.fst =
        (bindNames q.2.params p).1 :=
      List.map_fst_zip (hnamed.length_eq ▸ hlen)
    rw [declared_map (fun _ => rfl), List.nil_append]
    exact hfst
  rw [hbody]
  refine .prepend hp (.refl scope p) h.fresh hnamed (.nil ..) hrest hdeclared ?_
  rintro purpose Γ σ ks hfits hbound hks - hrest frame rfl
  exact .mk hnamed.length_eq hlen hks (hfits.frame hscopes).2 hrest

/-- `dispatchBody` writes the bodies of the members `qs` behind tests of the `selector`. -/
theorem blockAt_dispatchBody {s : LoopScope} {S : List LoopScope} {selector : String} {i : Nat}
    {qs : List ((String × Ref) × Analyzed)} (h : ∀ q ∈ qs, MemberFits E scope q.2)
    (hp : Ready E.context scope p) (hscopes : p.env.scopes = s :: S)
      (hselector : s.selector = some selector)
    (hlen : ∀ q ∈ qs, q.2.params.length ≤ s.slots.length) :
    BlockAt E scope .looping p (dispatchBody selector s.slots i (qs.map (memberOf E.context)) p).2
      (dispatchBody selector s.slots i (qs.map (memberOf E.context)) p).1
      fun purpose Γ σ block => ∀ frame, purpose = .loop frame →
        Dispatch E frame selector s.slots i Γ σ (qs.map Prod.snd) block := by
  induction qs generalizing p i with
  | nil => exact ⟨.refl scope p, .nil, by nofun, fun _ _ _ _ _ _ _ => .nil⟩
  | cons q rest ih =>
    have hfirst := blockAt_memberBody (h q (List.mem_cons_self ..)) hp hscopes
      (hlen q (List.mem_cons_self ..))
    -- The last member needs no test of the selector, as none is left that could run in its place.
    cases rest with
    | nil =>
      exact ⟨hfirst.kept, hfirst.nodup, hfirst.new,
        fun purpose Γ σ hfits hmem frame hframe =>
          .last (hfirst.out purpose Γ σ hfits hmem frame hframe)⟩
    | cons q' rest =>
      have hothers := ih (i := i + 1) (fun x hx => h x (List.mem_cons_of_mem _ hx))
        (hp.kept hfirst.kept) (hfirst.kept.scopes.trans hscopes)
        (fun x hx => hlen x (List.mem_cons_of_mem _ hx))
      refine ⟨hfirst.kept.trans hothers.kept, hothers.nodup,
        fun x hx => (hothers.new x hx).of_kept hfirst.kept, ?_⟩
      rintro purpose Γ σ hfits hmem frame rfl
      refine .cons hfirst.nodup ?_ ?_ ?_
      · rw [← (hfits.frame hscopes).1, hselector, Option.map_some]
      -- The body of this member is a block of its own, so it is written in a scope that declares
      -- what it declares.
      · refine hfirst.out _ _ σ (hfits.enter hp hfirst.new) ?_ frame rfl
        exact fun x hx => by simp [Script.enter, hx]
      · exact hothers.out _ Γ σ (hfits.kept hfirst.kept) hmem frame rfl

/-! ### Names of loops -/

/-- A name that is made from a `base` with a dollar sign has a dollar sign. -/
theorem dollar_mem_freshName {base : String} (h : '$' ∈ base.toList) (p : Progress) :
    '$' ∈ (freshName base p).1.toList := by
  have hcandidate (n : Nat) : '$' ∈ (candidate base n).toList := by
    unfold candidate
    split
    · exact h
    · simp
  exact hcandidate _

/-- Names of `paramBases` that start with a dollar sign are regular. -/
theorem regular_paramBases {start : String} (h : '$' ∈ start.toList) (params : List Binder) :
    ∀ x ∈ paramBases start params, Regular E.closed x := by
  intro x hx
  obtain ⟨q, -, rfl⟩ := List.mem_map.1 hx
  exact regular_of_dollar (by simp [h])

/-- There is one name for each of `params`. -/
theorem length_freshNames_paramBases (start : String) (params : List Binder) (p : Progress) :
    (freshNames (paramBases start params) p).1.length = params.length := by
  rw [(freshNames_spec [] p _).1, paramBases, List.length_map, List.length_zipIdx]

/-- `entries` declares a function for each member of a shared loop, which calls the shared function
`label`. -/
theorem entries_spec {label : String} (i : Nat) (qs : List ((String × Ref) × Analyzed))
    (hp : Ready E.context scope p) (hlabel : Used scope p label) :
    Kept scope p (entries label i (qs.map (memberOf E.context)) p).2 ∧
      declared (entries label i (qs.map (memberOf E.context)) p).1 = qs.map (fun q => q.1.1) ∧
      ∀ Γ k, resolve label Γ = some k → Entries Γ label k i (qs.map fun q => q.1.1)
        (qs.map Prod.snd) (entries label i (qs.map (memberOf E.context)) p).1 := by
  induction qs generalizing p i with
  | nil => exact ⟨.refl scope p, rfl, fun _ _ _ => .nil⟩
  | cons q rest ih =>
    have htook : Took E.closed scope (copyNames q.2.params p).1 p (copyNames q.2.params p).2 :=
      took_freshNames scope p _ (regular_paramBases (by decide) _)
    obtain ⟨hkept, hdeclared, hentries⟩ := ih (i + 1) (hp.kept htook.kept)
      (hlabel.kept htook.kept)
    have hrun : entries label i ((q :: rest).map (memberOf E.context)) p =
        (.const q.1.1 (entryFunction label i (copyNames q.2.params p).1) ::
            (entries label (i + 1) (rest.map (memberOf E.context)) (copyNames q.2.params p).2).1,
          (entries label (i + 1) (rest.map (memberOf E.context))
            (copyNames q.2.params p).2).2) := rfl
    rw [hrun]
    refine ⟨htook.kept.trans hkept, ?_, fun Γ k hk => ?_⟩
    · rw [declared, List.filterMap_cons]
      exact congrArg (q.1.1 :: ·) hdeclared
    · refine .cons (length_freshNames_paramBases ..) htook.nodup ?_ (hentries Γ k hk)
      rw [resolve_enter fun hmem => (htook.new _ hmem).ne hlabel rfl, hk]

/-! ### Declarations of loops -/

/-- `selfLoop` makes a loop of a single function `q`. -/
theorem groupAt_selfLoop {q : (String × Ref) × Analyzed} (h : MemberFits E scope q.2)
    (hp : Ready E.context scope p) (hmember : ∀ b, q.1.2 = .bound b → b ∈ scope) :
    GroupAt E scope true [q.1.1] [q.1.2] [q.2] [] p (selfLoop (memberOf E.context q) p).2
      [.const q.1.1 (selfLoop (memberOf E.context q) p).1] := by
  -- the names of the loop, one after the other
  let label := (freshName ("$" ++ q.1.1) p).1
  let p₁ := (freshName ("$" ++ q.1.1) p).2
  let copies := (copyNames q.2.params p₁).1
  let p₂ := (copyNames q.2.params p₁).2
  let slots := (freshNames (paramBases (label ++ "_") q.2.params) p₂).1
  let p₃ := (freshNames (paramBases (label ++ "_") q.2.params) p₂).2
  have hdollar : '$' ∈ label.toList := dollar_mem_freshName (by simp) p
  have hlabel : Kept scope p p₁ := kept_freshName scope p _
  have hcopies : Took E.closed scope copies p₁ p₂ :=
    took_freshNames scope p₁ _ (regular_paramBases (by decide) _)
  have hslots : Took E.closed scope slots p₂ p₃ :=
    took_freshNames scope p₂ _ (regular_paramBases (by simp [hdollar]) _)
  have hboth := hcopies.append hslots
  have hlenCopies : copies.length = q.2.params.length := length_freshNames_paramBases ..
  have hlenSlots : slots.length = q.2.params.length := length_freshNames_paramBases ..
  -- the body of the loop
  let s : LoopScope := ⟨label, [(q.1.2, q.2.params.length)], none, slots⟩
  have hkept : Kept scope p p₃ := hlabel.trans hboth.kept
  have hready : Ready E.context scope (enterLoop s p₃) := by
    refine (hp.kept hkept).enterLoop ?_ ?_ ?_
    · exact hslots.used
    · intro m hm b hb
      obtain rfl := List.mem_singleton.1 hm
      exact hmember b hb
    · intro m hm
      obtain rfl := List.mem_singleton.1 hm
      exact Nat.le_of_eq hlenSlots.symm
  have hbody := blockAt_memberBody (s := s) h hready rfl (Nat.le_of_eq hlenSlots.symm)
  obtain ⟨hresult, hleft⟩ := inLoop_kept hbody.kept
  refine ⟨hkept.trans hleft, rfl, ?_⟩
  intro Γ σ ks hfits hks hrefs _
  obtain ⟨k, rfl, hk⟩ := eq_singleton_of_map_resolve hks
  have hentered := (hfits.kept hlabel).adequate.enter (hp.kept hlabel) hboth.new
  have hplace : Fits E scope (enterLoop s p₃) .looping
      (.loop ⟨[(q.1.2, q.2.arity)], [k], none,
        List.range' (Γ.length + copies.length) slots.length⟩)
      (enter (enter Γ copies) slots) σ := by
    rw [← enter_append]
    have hadequate := hentered.kept hboth.kept
    have hmembers : [(q.1.2, q.2.arity)] = s.members := by rw [← Term.length_params]
    refine ⟨⟨hadequate.bound, hadequate.global, hadequate.error⟩, .loop rfl hmembers hrefs rfl ?_⟩
    rw [enter_append, map_resolve_enter _ hslots.nodup, length_enter]
  refine .self h.pos hlenCopies hlenSlots hboth.nodup hbody.nodup ?_
  exact hbody.out _ _ σ (hplace.enter hready hbody.new)
    (fun x hx => by simp [Script.enter, hx]) _ rfl

/-- A `step` that makes one loop of several functions `qs`, once their shared function has the name
`label`. -/
theorem groupAt_sharedLoop {label : String} {qs : List ((String × Ref) × Analyzed)}
    (hqs : qs.length ≠ 1) (hsize : qs.length ≤ E.size) (h : ∀ q ∈ qs, MemberFits E scope q.2)
      (hp : Ready E.context scope p)
    (hmember : ∀ q ∈ qs, ∀ b, q.1.2 = .bound b → b ∈ scope) (hlabel : Used scope p label)
    (hdollar : '$' ∈ label.toList) {step : Lowering (List Stmt)} (hstep : step = do
      let selector ← freshName (label ++ "_fn")
      let slots ← freshNames ((List.range (slotCount (qs.map (memberOf E.context)))).map
        fun i => label ++ "_" ++ Decimal.digitsText i)
      let body ← inLoop ⟨label, (qs.map (memberOf E.context)).map fun m => (m.ref, m.params.length),
        some selector, slots⟩ (dispatchBody selector slots 0 (qs.map (memberOf E.context)))
      let rest ← entries label 0 (qs.map (memberOf E.context))
      return .const label (.arrow (selector :: slots) [.loop body]) :: rest) :
    GroupAt E scope true (qs.map fun q => q.1.1) (qs.map fun q => q.1.2)
      (qs.map Prod.snd) [label] p (step p).2 (step p).1 := by
  subst hstep
  -- the names of the loop, one after the other
  let bases := (List.range (slotCount (qs.map (memberOf E.context)))).map
    fun i => label ++ "_" ++ Decimal.digitsText i
  let selector := (freshName (label ++ "_fn") p).1
  let p₁ := (freshName (label ++ "_fn") p).2
  let slots := (freshNames bases p₁).1
  let p₂ := (freshNames bases p₁).2
  have hselector : Took E.closed scope [selector] p p₁ :=
    took_freshName scope p (regular_of_dollar (by simp [hdollar]))
  have hslots : Took E.closed scope slots p₁ p₂ := by
    refine took_freshNames scope p₁ _ fun x hx => ?_
    obtain ⟨i, -, rfl⟩ := List.mem_map.1 hx
    exact regular_of_dollar (by simp [hdollar])
  have hboth : Took E.closed scope (selector :: slots) p p₂ := hselector.append hslots
  have hlen (q : (String × Ref) × Analyzed) (hq : q ∈ qs) : q.2.params.length ≤ slots.length := by
    have hslots : slots.length = slotCount (qs.map (memberOf E.context)) := by
      rw [(freshNames_spec scope p₁ bases).1, List.length_map, List.length_range]
    have hmem : memberOf E.context q ∈ qs.map (memberOf E.context) := List.mem_map.2 ⟨q, hq, rfl⟩
    rw [hslots]
    exact le_slotCount hmem
  -- the body of the loop
  let s : LoopScope := ⟨label, (qs.map (memberOf E.context)).map fun m => (m.ref, m.params.length),
    some selector, slots⟩
  have hmembers : s.members = qs.map fun q => (q.1.2, q.2.params.length) := List.map_map ..
  have hready : Ready E.context scope (enterLoop s p₂) := by
    refine (hp.kept hboth.kept).enterLoop hboth.used ?_ ?_
    · intro m hm b hb
      rw [hmembers] at hm
      obtain ⟨q, hq, rfl⟩ := List.mem_map.1 hm
      exact hmember q hq b hb
    · intro m hm
      rw [hmembers] at hm
      obtain ⟨q, hq, rfl⟩ := List.mem_map.1 hm
      exact hlen q hq
  have hbody := blockAt_dispatchBody (s := s) (i := 0) h hready rfl rfl hlen
  obtain ⟨hresult, hleft⟩ := inLoop_kept hbody.kept
  have hkept := hboth.kept.trans hleft
  obtain ⟨hkept', hdeclared, hentries⟩ := entries_spec 0 qs (hp.kept hkept)
    (hlabel.kept hkept)
  refine ⟨hkept.trans hkept', congrArg (label :: ·) hdeclared, ?_⟩
  intro Γ σ ks hfits hks hrefs hmem
  obtain ⟨k, hk⟩ := Option.isSome_iff_exists.1
    (isSome_resolve (hmem label (List.mem_singleton.2 rfl)))
  have hentered := hfits.adequate.enter hp hboth.new
  have hvars := map_resolve_enter Γ hboth.nodup
  rw [List.length_cons, List.range'_succ] at hvars
  obtain ⟨hvar, hvars⟩ := List.cons.inj hvars
  have hplace : Fits E scope (enterLoop s p₂) .looping
      (.loop ⟨(qs.map fun q => q.1.2).zip ((qs.map Prod.snd).map Term.arity), ks, some Γ.length,
        List.range' (Γ.length + 1) slots.length⟩) (enter Γ (selector :: slots)) σ := by
    have hadequate := hentered.kept hboth.kept
    refine ⟨⟨hadequate.bound, hadequate.global, hadequate.error⟩, .loop rfl ?_ ?_ ?_ hvars⟩
    · rw [hmembers, List.map_map, List.zip_map']
      exact List.map_congr_left fun q _ => congrArg (q.1.2, ·) (Term.length_params q.2).symm
    · rw [hmembers, List.map_map, ← hrefs, List.map_map]
      rfl
    · exact congrArg some hvar
  refine .shared (by simpa using hqs) (by simpa using hsize) ?_ hk hboth.nodup hbody.nodup ?_
    (hentries Γ k hk)
  · intro t ht
    obtain ⟨q, hq, rfl⟩ := List.mem_map.1 ht
    exact ⟨(h q hq).pos, Term.length_params q.2 ▸ hlen q hq⟩
  · exact hbody.out _ _ σ (hplace.enter hready hbody.new) (fun x hx => by simp [Script.enter, hx]) _
      rfl

/-- Declarations `decls` of a group can come after steps that keep the state. -/
theorem GroupAt.of_kept {loop : Bool} {idents : List String} {refs : List Ref} {ts : List Analyzed}
    {extra : List String} {p₁ : Progress} {decls : List Stmt}
    (h : GroupAt E scope loop idents refs ts extra p₁ p' decls) (hk : Kept scope p p₁) :
    GroupAt E scope loop idents refs ts extra p p' decls :=
  ⟨hk.trans h.kept, h.declared, fun Γ σ ks hfits => h.out Γ σ ks (hfits.kept hk)⟩

/-- `report` changes nothing but the reports. -/
theorem kept_report (scope : List Binder) (p : Progress) (detail : Detail) (message : String) :
    Kept scope p (report detail message p).2 := ⟨fun _ h => h, fun _ _ => rfl, rfl⟩

/-- The loop of a group, whose shared function has the name `dispatcher` or else gets a new one. -/
theorem groupAt_loopDeclarations (dispatcher : Option String)
    {qs : List ((String × Ref) × Analyzed)} (hsize : qs.length ≤ E.size)
    (h : ∀ q ∈ qs, MemberFits E scope q.2) (hp : Ready E.context scope p)
    (hmember : ∀ q ∈ qs, ∀ b, q.1.2 = .bound b → b ∈ scope)
    (hdispatcher : ∀ label, dispatcher = some label → Used scope p label ∧ '$' ∈ label.toList) :
    ∃ extra, GroupAt E scope true (qs.map fun q => q.1.1) (qs.map fun q => q.1.2)
        (qs.map Prod.snd) extra p (loopDeclarations (qs.map (memberOf E.context)) dispatcher p).2
        (loopDeclarations (qs.map (memberOf E.context)) dispatcher p).1 ∧
      (dispatcher = none →
        Took E.closed scope extra p
          (loopDeclarations (qs.map (memberOf E.context)) dispatcher p).2) ∧
      (∀ label, dispatcher = some label → extra ⊆ [label]) ∧ ∀ x ∈ extra, '$' ∈ x.toList := by
  -- a single member is a loop of its own and shares no function
  by_cases hone : ∃ q, qs = [q]
  · obtain ⟨q, rfl⟩ := hone
    have hreport := kept_report scope p .debug ("lowering " ++ q.1.1 ++ " to a loop")
    have hself := (groupAt_selfLoop (h q (List.mem_singleton.2 rfl)) (hp.kept hreport)
      (hmember q (List.mem_singleton.2 rfl))).of_kept hreport
    exact ⟨[], hself, fun _ => ⟨hself.kept, by nofun, by nofun, .nil⟩, by simp, by nofun⟩
  · have hlen : qs.length ≠ 1 := fun hlen => hone (List.length_eq_one_iff.1 hlen)
    have hgroup : loopDeclarations (qs.map (memberOf E.context)) dispatcher =
        groupLoop (qs.map (memberOf E.context)) dispatcher := by
      match qs, hlen with
      | [], _ => rfl
      | _ :: _ :: _, _ => rfl
    let names := "_".intercalate ((qs.map (memberOf E.context)).map Lower.Member.ident)
    have hreport := kept_report scope p .debug ("lowering group " ++ names ++ " to a loop")
    rw [hgroup]
    -- A name that was chosen before is in use already; otherwise the loop takes one that it makes
    -- from the names of its members.
    cases dispatcher with
    | some label =>
      obtain ⟨hlabel, hdollar⟩ := hdispatcher label rfl
      exact ⟨[label], (groupAt_sharedLoop hlen hsize h (hp.kept hreport) hmember
        (hlabel.kept hreport)
        hdollar rfl).of_kept hreport, by nofun, by simp, by simpa using hdollar⟩
    | none =>
      let p₁ := (report .debug ("lowering group " ++ names ++ " to a loop") p).2
      have htook : Took E.closed scope [(freshName ("$" ++ names) p₁).1] p₁
          (freshName ("$" ++ names) p₁).2 :=
        took_freshName scope p₁ (regular_of_dollar (by simp))
      have hdollar : '$' ∈ (freshName ("$" ++ names) p₁).1.toList :=
        dollar_mem_freshName (by simp) p₁
      have hshared := groupAt_sharedLoop hlen hsize h ((hp.kept hreport).kept htook.kept) hmember
        (htook.used _ (List.mem_singleton.2 rfl)) hdollar rfl
      refine ⟨[(freshName ("$" ++ names) p₁).1], hshared.of_kept (hreport.trans htook.kept),
        fun _ => ⟨?_, ?_, ?_, htook.nodup⟩, by nofun, by simpa using hdollar⟩
      · exact (hreport.trans htook.kept).trans hshared.kept
      · exact fun x hx => (htook.new x hx).of_kept hreport
      · exact fun x hx => (htook.used x hx).kept hshared.kept

/-! ## Recursive groups inside terms -/

/-- Members that are zipped from `idents`, `refs` and `ts` have these parts. -/
theorem map_zip_zip {idents : List String} {refs : List Ref} {ts : List Analyzed}
    (hidents : idents.length = ts.length) (hrefs : refs.length = ts.length) :
    ((idents.zip refs).zip ts).map (fun q => q.1.1) = idents ∧
      ((idents.zip refs).zip ts).map (fun q => q.1.2) = refs ∧
        ((idents.zip refs).zip ts).map Prod.snd = ts := by
  have hfst : ((idents.zip refs).zip ts).map Prod.fst = idents.zip refs :=
    List.map_fst_zip (by simp; omega)
  refine ⟨?_, ?_, List.map_snd_zip (by simp; omega)⟩
  · have hmap : ((idents.zip refs).zip ts).map (fun q => q.1.1) =
        (((idents.zip refs).zip ts).map Prod.fst).map Prod.fst := by rw [List.map_map]; rfl
    rw [hmap, hfst, List.map_fst_zip (by omega)]
  · have hmap : ((idents.zip refs).zip ts).map (fun q => q.1.2) =
        (((idents.zip refs).zip ts).map Prod.fst).map Prod.snd := by rw [List.map_map]; rfl
    rw [hmap, hfst, List.map_snd_zip (by omega)]

/-- `groupDeclarations` of bindings that are `members` of a loop writes that loop. -/
theorem groupDeclarations_true {functions : Bool} {refs : List Ref} {bs : List Binder}
    {codes : List Code} {members : List Lower.Member}
    (h : loopMembers? (bindNames bs p).1 refs codes = some members) :
    groupDeclarations true functions refs bs codes p =
      loopDeclarations members none (bindNames bs p).2 := by
  have hbind (k : List String → Lowering (List Stmt)) :
      (bindNames bs >>= k) p = k (bindNames bs p).1 (bindNames bs p).2 := rfl
  rw [groupDeclarations, hbind]
  simp only [h]

/-- `groupDeclarations` after the binders `bs` of the members have got names. -/
theorem exists_groupAt {loop : Bool} {bs : List Binder} {refs : List Ref} {ts : List Analyzed}
    (hsize : ts.length ≤ E.size)
    (hidents : (bindNames bs p).1.length = ts.length) (hrefs : refs.length = ts.length)
    (hts : ∀ t ∈ ts, (code E.context t).StandsFor E scope t)
    (hloop : loop = true → ∀ t ∈ ts, t.body?.isSome = true ∧ MemberFits E scope t)
    (hmember : ∀ r ∈ refs, ∀ b, r = .bound b → b ∈ scope)
      (hp : Ready E.context scope (bindNames bs p).2) :
    ∃ extra, Took E.closed scope extra (bindNames bs p).2
        (groupDeclarations loop (ts.all isFunction) refs bs (ts.map (code E.context)) p).2 ∧
      GroupAt E scope loop (bindNames bs p).1 refs ts extra (bindNames bs p).2
        (groupDeclarations loop (ts.all isFunction) refs bs (ts.map (code E.context)) p).2
        (groupDeclarations loop (ts.all isFunction) refs bs (ts.map (code E.context)) p).1 := by
  cases hflag : loop with
  | false =>
    have hgroup : GroupAt E scope false (bindNames bs p).1 refs ts [] (bindNames bs p).2
        _ _ := groupAt_recursiveDeclarations hidents hts hp
    exact ⟨[], ⟨hgroup.kept, by nofun, by nofun, .nil⟩, hgroup⟩
  | true =>
    -- all members are functions, so none of them keeps the group from being a loop
    have hmembers : loopMembers? (bindNames bs p).1 refs (ts.map (code E.context)) =
        some ((((bindNames bs p).1.zip refs).zip ts).map (memberOf E.context)) := by
      rw [loopMembers?_eq, if_pos]
      rw [List.all_eq_true]
      exact fun q hq => (hloop hflag q.2 (List.of_mem_zip hq).2).1
    obtain ⟨hfst, hsnd, hthd⟩ := map_zip_zip hidents hrefs
    have hfits (q : (String × Ref) × Analyzed) (hq : q ∈ ((bindNames bs p).1.zip refs).zip ts) :
        MemberFits E scope q.2 := (hloop hflag q.2 (List.of_mem_zip hq).2).2
    have hlen : (((bindNames bs p).1.zip refs).zip ts).length ≤ E.size := by
      rw [← List.length_map (f := Prod.snd), hthd]
      exact hsize
    obtain ⟨extra, hgroup, htook, -⟩ := groupAt_loopDeclarations none hlen hfits hp
      (fun q hq => hmember q.1.2 (List.of_mem_zip (List.of_mem_zip hq).1).2) (by nofun)
    rw [hfst, hsnd, hthd] at hgroup
    rw [groupDeclarations_true hmembers]
    exact ⟨extra, htook rfl, hgroup⟩

/-- The references `groupRefs` to members mean the declarations `ks` of their binders. -/
theorem map_declaration?_groupRefs {level : UInt32} {bindings : List (String × Analyzed)}
    {ks : List Nat} {σ : Naming} (hbs : (Term.groupBinders level bindings).Nodup)
    (hlen : (Term.groupBinders level bindings).length = ks.length) :
    (groupRefs level bindings).map
        (declaration? E.names ((Term.groupBinders level bindings).zip ks ++ σ)) = ks.map some := by
  have hrefs : groupRefs level bindings = (Term.groupBinders level bindings).map .bound := by
    rw [Term.groupBinders, List.map_map]
    rfl
  rw [hrefs, List.map_map]
  refine List.ext_getElem? fun i => ?_
  rw [List.getElem?_map, List.getElem?_map]
  cases hi : (Term.groupBinders level bindings)[i]? with
  | none =>
    have hks : ks[i]? = none := by
      rw [List.getElem?_eq_none_iff] at hi ⊢
      omega
    rw [hks]
    rfl
  | some b =>
    obtain ⟨k, hk, hlook⟩ := (lookup_zip_append hbs hlen).2 i hi
    rw [hk]
    exact congrArg some hlook

/-- A recursive group in front of the block of `body`. Bindings of a loop have to be functions. -/
theorem standsFor_letRec {level : UInt32} {bindings : List (String × Analyzed)} {body : Analyzed}
    (hsize : bindings.length ≤ E.size)
    (hfresh : Fresh E.closed scope (Term.groupBinders level bindings))
    (hts : ∀ t ∈ bindings.map Prod.snd,
      (code E.context t).StandsFor E (Term.groupBinders level bindings ++ scope) t)
    (hloop : a.isLoop = true → ∀ t ∈ bindings.map Prod.snd, t.body?.isSome = true ∧
      MemberFits E (Term.groupBinders level bindings ++ scope) t)
    (hbody : (code E.context body).StandsFor E (Term.groupBinders level bindings ++ scope) body) :
    (code E.context (.letRec a level bindings body)).StandsFor E scope
      (.letRec a level bindings body) := by
  have hfunctions : (bindings.all fun b => isFunction b.2) =
      (bindings.map Prod.snd).all isFunction := by
    rw [List.all_map]
    rfl
  rw [code, bindingCodes_eq, hfunctions]
  refine standsFor_ofBlock rfl rfl (fun _ => rfl) fun mode p hp => ?_
  have hnamed := hfresh.named hp
  have hidents : (bindNames (Term.groupBinders level bindings) p).1.length =
      (bindings.map Prod.snd).length := by
    rw [hnamed.length_eq, Term.groupBinders, List.length_map, List.length_map]
  have hmember (r : Ref) (hr : r ∈ groupRefs level bindings) (b : Binder) (hb : r = .bound b) :
      b ∈ Term.groupBinders level bindings ++ scope := by
    subst hb
    obtain ⟨f, hf, heq⟩ := List.mem_map.1 hr
    cases heq
    exact List.mem_append_left _ (List.mem_map.2 ⟨f, hf, rfl⟩)
  have hflag (h : (a.isLoop && E.context.loops) = true) : a.isLoop = true := by
    cases hl : a.isLoop with
    | false =>
      rw [hl] at h
      cases h
    | true => rfl
  -- besides its members a group may declare names of its own, which are `extra`
  obtain ⟨extra, htook, hgroup⟩ := exists_groupAt (by simpa using hsize) hidents
    (by simp [groupRefs]) hts
    (fun h => hloop (hflag h)) hmember hnamed.ready
  have hrest := hbody.block mode _ (hnamed.ready.kept htook.kept)
  refine .prepend hp (.refl scope p) hfresh hnamed htook hrest hgroup.declared ?_
  intro purpose Γ σ ks hfits hbound hks hextra hrest
  -- the members refer to the declarations that were just bound
  refine .letRec (by rw [hidents, List.length_map]) hks ?_ hrest
  refine hgroup.out Γ _ ks hbound.plain hks ?_ hextra
  refine map_declaration?_groupRefs hfresh.nodup ?_
  rw [← hnamed.length_eq]
  simpa using congrArg List.length hks

end TailLoop.Lower
