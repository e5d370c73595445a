import TailLoop.Proofs.GroupSimulation

/-!
# Calls of members in tail position

A call of a member of a group in tail position is a call in a script where the group is no loop, and
a jump in one where it is. Either way the arguments are evaluated one by one, each of them is kept
in a cell, and after the last one the block of the member is executed with them.

* `Passing`: some arguments have been evaluated, others have not.
* `Passing.step`: the next argument.
* `sim_passing`: calls and jumps with the same arguments.
-/

namespace TailLoop.Emit

open Script Lower

variable {S : Type}

/-! ## Arguments one by one -/

/-- Calls the value `v` with the arguments `es` one by one, each evaluated in `ρ` by `engine P
n`. -/
def applyEach (P : Primitives S) (n : Nat) (ρ : Scope) (v : Val S) :
    List Script.Expr → Compute S (Val S)
  | [] => pure v
  | e :: es => do
    let w ← eval P (engine P n).call ρ e
    let u ← (engine P n).call v [w]
    applyEach P n ρ u es

theorem eval_each (P : Primitives S) (n : Nat) (ρ : Scope) (f : Script.Expr)
    (es : List Script.Expr) :
    eval P (engine P n).call ρ (es.foldl (fun f e => .call f [e]) f) =
      eval P (engine P n).call ρ f >>= fun v => applyEach P n ρ v es := by
  induction es generalizing f with
  | nil => exact (bind_pure _).symm
  | cons e es ih =>
    rw [List.foldl_cons, ih, eval]
    simp only [evalAll, bind_assoc, pure_bind]
    rfl

/-- Of the arguments of member `i` of `refs`, the values `vs` are already kept in cells and the
expressions `es` follow. `x` evaluates them in `ρ` and then executes the block of the member. -/
inductive Passing (P : Primitives S) (E : Setting) (known : Nat → Val S → Prop) (refs : List Ref)
    (ts : List Analyzed) (B : Band) (ρ : Scope) (own : Nat → Prop) (s : Store S) (i : Nat)
    (t : Analyzed) (vs : List (Val S)) (es : List Script.Expr) :
    (Nat → Compute S (Val S)) → Prop
  /-- The member is called. -/
  | call {taken rest body} : Enters E known refs ts B i t (taken.map Prod.fst ++ rest) body →
      Holds s (taken.map Prod.snd) vs → (∀ ℓ ∈ taken.map Prod.snd, own ℓ) →
      rest.length = es.length →
      Passing P E known refs ts B ρ own s i t vs es
        fun n => applyEach P n ρ (curriedFn (extend B.scope taken) rest body) es
  /-- The slots of the loop are assigned and the next round starts. -/
  | jump {frame copies selector slots block ccs ls} {xs : List String}
      {K : Nat → Completion S → Compute S (Val S)} :
      LoopOf E refs ts B frame copies selector slots block → ts[i]? = some t →
      copies.length = ccs.length → (selector.toList ++ slots).length = ls.length → ls.Nodup →
      (∀ ℓ ∈ ls, own ℓ ∧ ∃ v, s[ℓ]? = some (.assignable v)) →
      xs.map (ρ.lookup ·) = (ls.drop (selector.toList.length + vs.length)).map some →
      Holds s (ls.take (selector.toList.length + vs.length))
        (selector.toList.map (fun _ => selected P i) ++ vs) →
      vs.length + es.length = t.arity →
      (∀ n, K n .again = rounds P n (loopScope B copies ccs (selector.toList ++ slots) ls) block) →
      Passing P E known refs ts B ρ own s i t vs es fun n =>
        exec P (engine P n) ρ ((xs.zip es).map (fun p => .assign p.1 p.2) ++ [.again]) >>= K n

/-- `x` is what follows an argument whose value was the last of `vs`: either `Passing` goes on with
other arguments, or the block of the member is executed. -/
inductive Passed (P : Primitives S) (E : Setting) (known : Nat → Val S → Prop) (refs : List Ref)
    (ts : List Analyzed) (B : Band) (ρ : Scope) (own : Nat → Prop) (s : Store S) (i : Nat)
    (t : Analyzed) (vs : List (Val S)) (es : List Script.Expr) (x : Nat → Compute S (Val S)) : Prop
  | more {y s₁} : es ≠ [] → Arrives 0 x s y s₁ → Extends own s s₁ →
      Passing P E known refs ts B ρ (fun ℓ => own ℓ ∨ s.length ≤ ℓ ∧ ℓ < s₁.length) s₁ i t vs es y →
      Passed P E known refs ts B ρ own s i t vs es x
  | last {k y s₁} {own₁ : Nat → Prop} : es = [] → Arrives (k + 1) x s y s₁ → Extends own s s₁ →
      (∀ ℓ, own₁ ℓ → own ℓ ∨ s.length ≤ ℓ) →
      Started P E refs ts B own₁ (fun ℓ => own ℓ ∨ s.length ≤ ℓ) s₁ false t.params t.inner vs y →
      Passed P E known refs ts B ρ own s i t vs es x

/-- `x` arrives at `y` if `x (n + 1)` does what `y (n + 1)` does and `x 0` does not end. -/
theorem Arrives.of_late {α : Type} {x y : Nat → Compute S α} {s s₁ : Store S} (hzero : x 0 s = none)
    (h : ∀ n, x (n + 1) s = y (n + 1) s₁) : Arrives 0 x s y s₁ where
  back {n o} hx := by
    cases n with
    | zero =>
      rw [hzero] at hx
      cases hx
    | succ n => exact ⟨n + 1, rfl, h n ▸ hx⟩
  forth := fun ⟨N, hN⟩ => .succ ⟨N, fun n hn => (h n).trans (hN (n + 1) (by omega))⟩

section

variable {P : Primitives S} {E : Setting} {known : Nat → Val S → Prop} {refs : List Ref}
  {ts : List Analyzed} {B : Band} {ρ : Scope} {own : Nat → Prop} {s s₁ : Store S} {i : Nat}
  {t : Analyzed} {vs : List (Val S)} {e : Script.Expr} {es : List Script.Expr}

/-- The members `ts` of a `LoopOf` have parameters, and no more than there are `slots`. -/
theorem LoopOf.arity_le {frame : LoopFrame} {copies slots : List String} {selector : Option String}
    {block : List Stmt} (h : LoopOf E refs ts B frame copies selector slots block)
    (ht : ts[i]? = some t) : 0 < t.arity ∧ t.arity ≤ slots.length := by
  have hmem : t ∈ ts := List.mem_of_getElem? ht
  cases h with
  | self _ _ hts hpos _ hslots =>
    subst hts
    obtain rfl := List.mem_singleton.1 hmem
    exact ⟨hpos, Nat.le_of_eq (hslots.trans (Term.length_params t)).symm⟩
  | shared _ _ harity => exact harity t hmem

/-- After an argument of a call, whose value is `v`, comes `Passed`: the cells of `taken` and a
fresh cell for `v` hold the parameters. -/
theorem passed_call {taken : Scope} {rest : List String} {body : List Stmt} (v : Val S)
    (henters : Enters E known refs ts B i t (taken.map Prod.fst ++ rest) body)
    (hvs : Holds s (taken.map Prod.snd) vs) (htaken : ∀ ℓ ∈ taken.map Prod.snd, own ℓ)
    (hlen : rest.length = es.length + 1) (hP : P.TellsApart E.size)
    (hknown : ∀ {ℓ v}, known ℓ v → s[ℓ]? = some (.constant v)) :
    Passed P E known refs ts B ρ own s i t (vs ++ [v]) es fun n =>
      (engine P n).call (curriedFn (extend B.scope taken) rest body) [v] >>= fun u =>
        applyEach P n ρ u es := by
  match rest with
  | [] => cases hlen
  | [p] =>
    -- the last argument enters the body
    obtain rfl : es = [] := List.eq_nil_of_length_eq_zero (by simpa using hlen.symm)
    obtain ⟨k, y, s₁, own₁, harrives, hext, hown, hstarted⟩ :=
      started_call (P := P) [v] henters hvs hknown hP
    refine .last (k := k) rfl ?_ (hext.mono fun _ _ => False.elim) (fun ℓ hℓ => .inr (hown ℓ hℓ))
      (hstarted.mono fun c => Or.imp_left (htaken c))
    simp only [applyEach, bind_pure]
    exact harrives
  | p :: q :: rest =>
    -- any other argument is kept in a new cell
    refine .more (y := fun n => applyEach P n ρ (curriedFn (extend B.scope
      (taken ++ [(p, s.length)]))
      (q :: rest) body) es) (by rintro rfl; cases hlen) (.of_late rfl fun n => ?_)
      (.append s [.assignable v]) (.call ?_ ?_ (fun ℓ hℓ => ?_) (Nat.succ.inj hlen))
    · rw [Compute.bind_ok (call_curriedFn ..), extend_append]
      rfl
    · rwa [map_fst_keep]
    · rw [List.map_append]
      exact List.rel_append (hvs.extends (.append ..) fun _ _ => id)
        (.cons (by simp [Cell.value?]) .nil)
    · rw [List.map_append] at hℓ
      rcases List.mem_append.1 hℓ with hℓ | hℓ
      · exact .inl (htaken ℓ hℓ)
      · obtain rfl := List.mem_singleton.1 hℓ
        exact .inr ⟨Nat.le_refl _, by simp⟩

/-- After an argument of a jump, whose value is `v`, comes `Passed`: the slot `x` holds `v` now. -/
theorem passed_jump {frame : LoopFrame} {copies slots : List String} {selector : Option String}
    {block : List Stmt} {ccs ls : List Nat} {x : String} {xs : List String}
    {K : Nat → Completion S → Compute S (Val S)} (v : Val S)
    (hloop : LoopOf E refs ts B frame copies selector slots block) (ht : ts[i]? = some t)
    (hccs : copies.length = ccs.length) (hls : (selector.toList ++ slots).length = ls.length)
    (hnodup : ls.Nodup) (hcells : ∀ ℓ ∈ ls, own ℓ ∧ ∃ v, s[ℓ]? = some (.assignable v))
    (hxs : (x :: xs).map (ρ.lookup ·) =
      (ls.drop (selector.toList.length + vs.length)).map some)
    (hvs : Holds s (ls.take (selector.toList.length + vs.length))
      (selector.toList.map (fun _ => selected P i) ++ vs))
    (hlen : vs.length + (es.length + 1) = t.arity)
    (hagain : ∀ n, K n .again =
      rounds P n (loopScope B copies ccs (selector.toList ++ slots) ls) block)
    (hP : P.TellsApart E.size) :
    Passed P E known refs ts B ρ own s i t (vs ++ [v]) es fun n =>
      Compute.write ρ x (Cell.assign v) >>= fun _ =>
        exec P (engine P n) ρ ((xs.zip es).map (fun p => .assign p.1 p.2) ++ [.again]) >>= K n := by
  -- `j` is the place of the variable that is assigned, behind the selector and the arguments so far
  obtain ⟨j, hj⟩ : ∃ j, j = selector.toList.length + vs.length := ⟨_, rfl⟩
  rw [← hj] at hxs hvs
  obtain ⟨ℓ, rest, hdrop⟩ : ∃ ℓ rest, ls.drop j = ℓ :: rest := by
    cases h : ls.drop j with
    | nil =>
      rw [h] at hxs
      cases hxs
    | cons ℓ rest => exact ⟨ℓ, rest, rfl⟩
  rw [hdrop] at hxs
  obtain ⟨hx, hxs⟩ := List.cons.inj hxs
  have hsplit : ls = ls.take j ++ ℓ :: rest := by rw [← hdrop, List.take_append_drop]
  have hrest : ls.drop (j + 1) = rest := by rw [← List.tail_drop, hdrop, List.tail_cons]
  have htake : ls.take (j + 1) = ls.take j ++ [ℓ] := by
    rw [List.take_add_one, ← List.head?_drop, hdrop]
    rfl
  have hmem : ℓ ∈ ls := hsplit ▸ List.mem_append_right _ (List.mem_cons_self ..)
  have hnot (m : Nat) (hm : m ∈ ls.take j) : m ≠ ℓ :=
    (List.nodup_append.1 (hsplit ▸ hnodup)).2.2 m hm ℓ (List.mem_cons_self ..)
  obtain ⟨hown, w, hw⟩ := hcells ℓ hmem
  have hlt : ℓ < s.length := (List.getElem?_eq_some_iff.1 hw).1
  -- the slot is assigned
  have hset : Extends (· = ℓ) s (s.set ℓ (.assignable v)) := .set s _ rfl
  have hwrite : Arrives 0 (fun n => Compute.write ρ x (Cell.assign v) >>= fun _ =>
      exec P (engine P n) ρ ((xs.zip es).map (fun p => .assign p.1 p.2) ++ [.again]) >>= K n) s
      (fun n => exec P (engine P n) ρ ((xs.zip es).map (fun p => .assign p.1 p.2) ++
        [.again]) >>= K n)
      (s.set ℓ (.assignable v)) :=
    .of_eq fun n => Compute.bind_ok (write_apply hx hw rfl)
  have hassigned (m : Nat) (hm : m ∈ ls) :
      ∃ u, (s.set ℓ (.assignable v))[m]? = some (.assignable u) := by
    by_cases heq : m = ℓ
    · exact ⟨v, by rw [heq, List.getElem?_set_self hlt]⟩
    · obtain ⟨-, u, hu⟩ := hcells m hm
      exact ⟨u, by rw [List.getElem?_set_ne (Ne.symm heq), hu]⟩
  have hheld : Holds (s.set ℓ (.assignable v)) (ls.take (j + 1))
      (selector.toList.map (fun _ => selected P i) ++ (vs ++ [v])) := by
    rw [htake, ← List.append_assoc]
    exact List.rel_append (hvs.extends hset hnot)
      (.cons (by rw [List.getElem?_set_self hlt]; rfl) .nil)
  have hext : Extends own s (s.set ℓ (.assignable v)) := .set s _ hown
  -- after the last argument the next round of the loop starts
  cases es with
  | nil =>
    have hj' : selector.toList.length + t.arity = j + 1 := by
      rw [hj, ← hlen, List.length_nil]
      omega
    obtain ⟨y, s₁, own₁, harrives, hext₁, hown₁, hstarted⟩ :=
      started_rounds hloop hccs hls hnodup hassigned ht hP (hj' ▸ hheld)
    have hall (m : Nat) (hm : m ∈ ls ∨ (s.set ℓ (.assignable v)).length ≤ m) :
        own m ∨ s.length ≤ m := hm.imp (fun hm => (hcells m hm).1) (by simp)
    refine .last (k := 0) rfl ((hwrite.trans (.of_eq fun n => ?_)).trans harrives :)
      (hext.trans (hext₁.mono fun m _ => hall m)) (fun m hm => hall m (hown₁ m hm))
      (hstarted.mono hall)
    rw [List.zip_nil_right, List.map_nil, List.nil_append, exec_cons, execStmt]
    exact congrFun (hagain n) _
  | cons e es =>
    refine .more (by nofun) hwrite hext (.jump hloop ht hccs hls hnodup
      (fun m hm => ⟨.inl (hcells m hm).1, hassigned m hm⟩) ?_ ?_ ?_ hagain)
    · rw [List.length_append, List.length_singleton, ← Nat.add_assoc, ← hj, hrest]
      exact hxs
    · rw [List.length_append, List.length_singleton, ← Nat.add_assoc, ← hj]
      exact hheld
    · rw [← hlen, List.length_append, List.length_singleton, List.length_cons]
      omega

/-- `Passing` evaluates the first expression `e` of `es` and goes on by some `f` that is `Passed`
for every value of `e`. -/
theorem Passing.step {x : Nat → Compute S (Val S)}
    (h : Passing P E known refs ts B ρ own s i t vs (e :: es) x) (hP : P.TellsApart E.size) :
    ∃ f : Val S → Nat → Compute S (Val S),
      (∀ n, x n = eval P (engine P n).call ρ e >>= fun v => f v n) ∧
      ∀ v s₁, Extends nothing s s₁ → (∀ {ℓ v}, known ℓ v → s₁[ℓ]? = some (.constant v)) →
        Passed P E known refs ts B ρ own s₁ i t (vs ++ [v]) es (f v) := by
  cases h with
  | @call taken rest body henters hvs htaken hlen =>
    refine ⟨fun v n => (engine P n).call (curriedFn (extend B.scope taken) rest body)
      [v] >>= fun u =>
      applyEach P n ρ u es, fun n => rfl, fun v s₁ hs hknown => ?_⟩
    exact passed_call v henters (hvs.extends hs fun _ _ => id) htaken hlen hP hknown
  | @jump frame copies selector slots block ccs ls xs K hloop ht hccs hls hnodup hcells hxs hvs hlen
      hagain =>
    -- there is a slot left for each argument that is left, since the loop has slots for all of them
    cases xs with
    | nil =>
      have hlength := congrArg List.length hxs
      have harity := (hloop.arity_le ht).2
      simp only [List.length_append, List.length_map, List.length_drop, List.length_cons,
        List.length_nil] at hlength hls hlen
      omega
    | cons x xs =>
      refine ⟨fun v n => Compute.write ρ x (Cell.assign v) >>= fun _ =>
        exec P (engine P n) ρ ((xs.zip es).map (fun p => .assign p.1 p.2) ++ [.again]) >>= K n,
        fun n => ?_, fun v s₁ hs _ => ?_⟩
      · rw [List.zip_cons_cons, List.map_cons, List.cons_append]
        exact exec_write (fun _ _ _ _ => by rw [execStmt]) n ρ x e _ K
      · refine passed_jump v hloop ht hccs hls hnodup (fun m hm => ?_) hxs
          (hvs.extends hs fun _ _ => id) hlen hagain hP
        obtain ⟨hown, u, hu⟩ := hcells m hm
        refine ⟨hown, u, ?_⟩
        rw [hs.old (List.getElem?_eq_some_iff.1 hu).1 id, hu]

/-- `Passing` is kept when more is `known` of constants. -/
theorem Passing.mono {known₁ : Nat → Val S → Prop} {x : Nat → Compute S (Val S)}
    (h : Passing P E known refs ts B ρ own s i t vs es x)
      (hknown : ∀ {ℓ v}, known ℓ v → known₁ ℓ v) :
    Passing P E known₁ refs ts B ρ own s i t vs es x := by
  cases h with
  | call henters hvs htaken hlen => exact .call (henters.mono hknown) hvs htaken hlen
  | jump hloop ht hccs hls hnodup hcells hxs hvs hlen hagain =>
    exact .jump hloop ht hccs hls hnodup hcells hxs hvs hlen hagain

end

/-! ## Both scripts -/

section

variable {P : Primitives S} {V : Versions} {W : World S} {s s' : Store S} {own own' : Nat → Prop}

/-- Old cells of `own` and `own'` that are still unchanged, and all cells from `s₁.length` and
`s₁'.length` on, are `Clear` of the later world `W₁`. -/
theorem Clear.after {W₁ : World S} {s₁ s₁' : Store S} (h : Clear W own own')
    (hstores : Stores V W₁ s₁ s₁') (hgrows : Grows nothing nothing s s' W W₁) :
    Clear W₁ (fun ℓ => own ℓ ∧ ℓ < s.length ∨ s₁.length ≤ ℓ)
      (fun ℓ => own' ℓ ∧ ℓ < s'.length ∨ s₁'.length ≤ ℓ) where
  left hℓ hu := by
    rcases hℓ with ⟨hown, hlt⟩ | hle
    · exact h.left hown (hgrows.left hlt id hu)
    · exact Nat.not_le.2 (hstores.lt_left hu) hle
  right hℓ hu := by
    rcases hℓ with ⟨hown, hlt⟩ | hle
    · exact h.right hown (hgrows.right hlt id hu)
    · exact Nat.not_le.2 (hstores.lt_right hu) hle

/-- The two scripts simulate each other when the same member `i` is `Passing` the arguments `args`
in both, no matter by a call or by a jump. -/
theorem sim_passing {n : Nat} {refs : List Ref} {ts : List Analyzed} {B B' : Band} {σ σ' : Naming}
    {ρ ρ' : Scope} {i : Nat} {t : Analyzed} {args : List Analyzed} {es es' : List Script.Expr}
    {vs vs' : List (Val S)} {x y : Nat → Compute S (Val S)} (hfit : V.Fit P)
    (ih : ∀ m < n, BlockSim P V m t.inner) (hargs : ∀ u ∈ args, ValueSim P V n u ∧ Owns V u)
    (hne : args ≠ []) (hes : Values V.left (namesOf ρ) σ args es)
    (hes' : Values V.right (namesOf ρ') σ' args es') (hagree : Agree V W σ ρ σ' ρ')
    (hfellows : Fellows V W refs ts B B') (howns : Owns V t.inner) (hstores : Stores V W s s')
    (hclear : Clear W own own') (hlt : ∀ ℓ, own ℓ → ℓ < s.length)
    (hlt' : ∀ ℓ, own' ℓ → ℓ < s'.length) (hvs : SameAll V W vs vs')
    (hx : Passing P V.left W.left refs ts B ρ own s i t vs es x)
    (hy : Passing P V.right W.right refs ts B' ρ' own' s' i t vs' es' y) :
    SimAt V own own' W s s' (x n) y fun W₁ _ _ => Same V W₁ := by
  -- by induction on the arguments that are left; the values that were passed grow with each step
  induction args generalizing W s s' own own' es es' vs vs' x y with
  | nil => exact (hne rfl).elim
  | cons u args ihargs =>
    cases hes with
    | cons he hes =>
    cases hes' with
    | cons he' hes' =>
    obtain ⟨f, hf, hpassed⟩ := hx.step hfit.apart_left
    obtain ⟨g, hg, hpassed'⟩ := hy.step hfit.apart_right
    obtain ⟨hsim, howns'⟩ := hargs u (List.mem_cons_self ..)
    rw [hf n, funext hg]
    refine (hsim hagree howns' he he').bindAt hstores fun W₁ s₁ s₁' v v' hgrows hs hs'
      hstores₁ hsame => ?_
    have hle := hs.length_le
    have hle' := hs'.length_le
    -- evaluating an argument speaks of none of the cells that the jump or the call owns
    have hclear₁ : Clear W₁ (fun ℓ => own ℓ ∨ s₁.length ≤ ℓ)
      (fun ℓ => own' ℓ ∨ s₁'.length ≤ ℓ) := by
      have hafter := hclear.after hstores₁ hgrows
      exact ⟨fun h => hafter.left (h.imp_left fun h => ⟨h, hlt _ h⟩),
        fun h => hafter.right (h.imp_left fun h => ⟨h, hlt' _ h⟩)⟩
    have hvs₁ : SameAll V W₁ (vs ++ [v]) (vs' ++ [v']) :=
      (hvs.mono hgrows.le).append (.cons hsame .nil)
    have hstores₂ {s₂ s₂' : Store S} (hext : Extends own s₁ s₂) (hext' : Extends own' s₁' s₂') :
        Stores V W₁ s₂ s₂' :=
      hstores₁.extend hext hext' (fun ℓ h => hclear₁.left (.inl h))
        fun ℓ h => hclear₁.right (.inl h)
    replace hpassed := hpassed v s₁ hs fun h => hstores₁.left (hgrows.le.left h)
    replace hpassed' := hpassed' v' s₁' hs' fun h => hstores₁.right (hgrows.le.right h)
    have hdone {a : Analyzed} {as : List Analyzed} {E : Setting} {Γ : List String} {σ : Naming}
        (h : Values E Γ σ (a :: as) []) : False := by cases h
    -- both scripts pass as many arguments, so neither comes to an end before the other
    cases hpassed with
    | more hes₁ harrives hext hpassing =>
      cases hpassed' with
      | more _ harrives' hext' hpassing' =>
        refine .arrives harrives harrives' (hext.mono fun _ _ => .inl) (hext'.mono fun _ _ => .inl)
          (.refl W₁) fun m hm => ?_
        obtain rfl : m = n := hm.symm
        refine (ihargs (fun u hu => hargs u (List.mem_cons_of_mem _ hu)) ?_ hes hes'
          (hagree.mono hgrows.le) (hfellows.mono hgrows.le) (hstores₂ hext hext')
          ⟨fun h => hclear₁.left (h.imp_right And.left),
            fun h => hclear₁.right (h.imp_right And.left)⟩ (fun ℓ h => ?_) (fun ℓ h => ?_) hvs₁
          (hpassing.mono hgrows.le.left) (hpassing'.mono hgrows.le.right)).mono
          (fun ℓ _ h => h.imp .inl And.left) (fun ℓ _ h => h.imp .inl And.left)
          fun _ _ _ _ _ _ => id
        · rintro rfl
          cases hes
          exact hes₁ rfl
        · exact h.elim (fun h => Nat.lt_of_lt_of_le (hlt ℓ h) (Nat.le_trans hle hext.length_le))
            And.right
        · exact h.elim (fun h => Nat.lt_of_lt_of_le (hlt' ℓ h) (Nat.le_trans hle' hext'.length_le))
            And.right
      | last hnil =>
        subst hnil
        cases args with
        | nil =>
          cases hes
          exact (hes₁ rfl).elim
        | cons => exact (hdone hes').elim
    | last hnil harrives hext hown hstarted =>
      subst hnil
      cases hpassed' with
      | more hes₁ =>
        cases args with
        | nil =>
          cases hes'
          exact (hes₁ rfl).elim
        | cons => exact (hdone hes).elim
      | last _ harrives' hext' hown' hstarted' =>
        refine .arrives harrives harrives' (hext.mono fun _ _ => .inl) (hext'.mono fun _ _ => .inl)
          (.refl W₁) fun m hm => ?_
        have hfree {ℓ : Nat} (h : own ℓ ∨ s₁.length ≤ ℓ) : ∀ m, ¬W₁.paired ℓ m :=
          fun m hp => hclear₁.left h (.inl ⟨m, .inr hp⟩)
        have hfree' {ℓ : Nat} (h : own' ℓ ∨ s₁'.length ≤ ℓ) : ∀ m, ¬W₁.paired m ℓ :=
          fun m hp => hclear₁.right h (.inl ⟨m, .inr hp⟩)
        have hin {ℓ : Nat} (h : own ℓ ∨ s₁.length ≤ ℓ) :
            (own ℓ ∨ s.length ≤ ℓ) ∨ s₁.length ≤ ℓ := h.imp_left .inl
        have hin' {ℓ : Nat} (h : own' ℓ ∨ s₁'.length ≤ ℓ) :
            (own' ℓ ∨ s'.length ≤ ℓ) ∨ s₁'.length ≤ ℓ := h.imp_left .inl
        exact started_sim (ih m (by omega)) (hfellows.mono hgrows.le) howns (hstores₂ hext hext')
          ⟨fun h => hclear₁.left (hown _ h), fun h => hclear₁.right (hown' _ h)⟩ hstarted hstarted'
          hvs₁ (fun ℓ h => hin (hown ℓ h)) (fun ℓ h => hin' (hown' ℓ h))
          (fun ℓ h => ⟨hfree h, .inl (hin h)⟩) fun ℓ h => ⟨hfree' h, .inl (hin' h)⟩

end

/-! ## Where calls and jumps come from -/

section

variable {P : Primitives S} {E : Setting} {known : Nat → Val S → Prop} {refs : List Ref}
  {ts : List Analyzed} {B : Band} {ρ : Scope} {own : Nat → Prop} {s : Store S} {i : Nat}
  {t : Analyzed} {es : List Script.Expr} {K : Nat → Completion S → Compute S (Val S)}

/-- The `frame` of a `LoopOf` lists `refs` with their arities, and the variables of the loop. -/
theorem LoopOf.frame_eq {frame : LoopFrame} {copies slots : List String} {selector : Option String}
    {block : List Stmt} (h : LoopOf E refs ts B frame copies selector slots block) :
    frame.members = refs.zip (ts.map Term.arity) ∧
      frame.functions.map (cellOf B.scope) = B.cells.map some ∧
      frame.selector.toList.length = selector.toList.length ∧
      frame.selector.toList ++ frame.slots =
        List.range' (B.scope.length + copies.length) (selector.toList ++ slots).length := by
  cases h with
  | self _ hrefs hts _ _ _ _ _ hks => exact ⟨by rw [hrefs, hts]; rfl, hks, rfl, by simp⟩
  | shared _ _ _ _ _ hks =>
    exact ⟨rfl, hks, rfl, by simp [List.range'_succ]⟩

/-- Inside a loop, `frame.members` are `refs` with their arities, and `frame.functions` have the
cells of the band `B`. -/
theorem Looping.members_eq {frame : LoopFrame} (h : Looping P E refs ts B own s ρ frame K) :
    frame.members = refs.zip (ts.map Term.arity) ∧
      frame.functions.map (cellOf ρ) = B.cells.map some := by
  cases h with
  | mk hloop _ _ _ _ hρ _ =>
    obtain ⟨hmembers, hfunctions, -⟩ := hloop.frame_eq
    refine ⟨hmembers, ?_⟩
    rw [hρ, loopScope]
    exact map_cellOf_extend (map_cellOf_extend (map_cellOf_extend hfunctions _) _) _

variable (known) in
/-- The block of a jump to member `i` assigns the `selector`, if there is one, and is then `Passing`
the expressions `es`. -/
theorem passing_jump {frame : LoopFrame} {selector : Option String} {xs : List String}
    (h : Looping P E refs ts B own s ρ frame K) (ht : ts[i]? = some t)
    (hlen : es.length = t.arity)
    (hselector : selector.map (resolve · (namesOf ρ)) = frame.selector.map some)
    (hslots : xs.map (resolve · (namesOf ρ)) = frame.slots.map some) :
    ∃ x s₁, Arrives 0 (fun n => exec P (engine P n) ρ (jumpBlock selector i xs es) >>= K n) s x s₁ ∧
      Extends own s s₁ ∧
      Passing P E known refs ts B ρ (fun ℓ => own ℓ ∧ ℓ < s₁.length) s₁ i t [] es x := by
  cases h with
  | @mk copies var slots block ccs ls names _ hloop hccs hls hnodup hcells hρ hagain =>
    obtain ⟨-, -, hvar, hvars⟩ := hloop.frame_eq
    -- the variables of the jump are those of the loop
    have hlookup : (selector.toList ++ xs).map (ρ.lookup ·) = ls.map some := by
      have hres : (selector.toList ++ xs).map (resolve · (namesOf ρ)) =
          (frame.selector.toList ++ frame.slots).map some := by
        rw [List.map_append, List.map_append, hslots]
        congr 1
        cases selector <;> cases hframe : frame.selector <;> simp_all
      obtain ⟨cs, hcs, hcells⟩ := map_lookup_of_resolve hres
      have hentered := map_cellOf_entered (extend B.scope (copies.zip ccs)) hls
      have hlength : (extend B.scope (copies.zip ccs)).length = B.scope.length + copies.length := by
        simp [extend, hccs, Nat.add_comm]
      rw [hlength, ← hvars] at hentered
      have hinner := map_cellOf_extend hentered names
      rw [← loopScope, ← hρ, hcells] at hinner
      rw [hcs, hinner]
    have hcount : selector.toList.length = var.toList.length := by
      rw [← hvar]
      cases selector <;> cases hframe : frame.selector <;> simp_all
    obtain ⟨vcs, scs, rfl, hvcs, hscs⟩ := List.append_eq_map_iff.1 (List.map_append ▸ hlookup)
    have hlengths : vcs.length = var.toList.length := by
      rw [← hcount]
      simpa using congrArg List.length hvcs
    have heval (s₁ : Store S) : List.Forall₂ (Evaluates P ρ s₁)
        (selector.toList.map fun _ => natLit i) (var.toList.map fun _ => selected P i) := by
      rw [List.forall₂_map_left_iff, List.forall₂_map_right_iff, List.forall₂_iff_zip]
      refine ⟨hcount, fun _ call => ?_⟩
      rw [natLit, eval, Compute.pure_apply]
      rfl
    -- the selector is assigned first; its value does not depend on any cell
    obtain ⟨s₁, hexec, hext, hfilled⟩ := exec_writes .assign Cell.assign .assignable
      (fun _ _ _ _ => by rw [execStmt]) hvcs.symm (List.nodup_append.1 hnodup).1
      (fun s₁ _ => heval s₁) (by simp) fun ℓ hℓ => by
        obtain ⟨-, v, hv⟩ := hcells ℓ (List.mem_append_left _ hℓ)
        exact ⟨_, hv, fun _ => rfl⟩
    have hjump : jumpBlock selector i xs es =
        (selector.toList.zip (selector.toList.map fun _ => natLit i)).map
          (fun p => .assign p.1 p.2) ++ ((xs.zip es).map (fun p => .assign p.1 p.2) ++
            [.again]) := by
      rw [jumpBlock, List.append_assoc]
      cases selector <;> rfl
    have hown (ℓ : Nat) (hℓ : ℓ ∈ vcs) : own ℓ := (hcells ℓ (List.mem_append_left _ hℓ)).1
    -- what is left are the assignments of the slots, none of which has a value yet
    refine ⟨fun n => exec P (engine P n) ρ ((xs.zip es).map (fun p => .assign p.1 p.2) ++
      [.again]) >>=
        K n, s₁, .of_eq fun n => ?_, hext.mono fun ℓ _ => hown ℓ,
      .jump hloop ht hccs hls hnodup (fun ℓ hℓ => ?_) ?_ ?_ ?_ hagain⟩
    · rw [hjump]
      exact Compute.bind_congr_left _ (hexec ..)
    · obtain ⟨ho, v, hv⟩ := hcells ℓ hℓ
      have hlt : ℓ < s.length := (List.getElem?_eq_some_iff.1 hv).1
      refine ⟨⟨ho, Nat.lt_of_lt_of_le hlt hext.length_le⟩, ?_⟩
      by_cases hmem : ℓ ∈ vcs
      · obtain ⟨u, hu⟩ := exists_of_forall₂ hfilled hmem
        exact ⟨u, hu⟩
      · exact ⟨v, by rw [hext.old hlt hmem, hv]⟩
    · rw [List.length_nil, Nat.add_zero, ← hlengths, List.drop_left, hscs]
    · rw [List.length_nil, Nat.add_zero, ← hlengths, List.take_left, List.append_nil]
      exact hfilled.imp fun _ _ h => by rw [h]; rfl
    · rw [List.length_nil, Nat.zero_add, hlen]

/-- A `head` that `refIn?` finds to be `r` is converted to the variable that `r` names. -/
theorem value_of_refIn? {σ : Naming} {Γ : List String} {head : Analyzed} {f : Script.Expr} {r : Ref}
    (howns : ∀ a q, head = .global a q →
      globalHead E.context q = q.ident ∧ globalExpr E.context q = .ident q.ident)
    (hr : head.refIn? (some E.context.name) = some r) (h : Value E Γ σ head f) :
    ∃ x k, f = .ident x ∧ resolve x Γ = some k ∧ declaration? E.names σ r = some k := by
  cases h with
  | @global _ _ a q k hk hk' =>
    obtain ⟨hhead, hexpr⟩ := howns a q rfl
    rw [hhead] at hk hk'
    refine ⟨q.ident, k, hexpr, hk', ?_⟩
    obtain ⟨_ | m, ident⟩ := q <;> cases hr <;> exact hk
  | @bound _ _ a b k x hb hx =>
    cases hr
    exact ⟨x, k, rfl, hx, hb⟩
  | block hsimple => cases head <;> contradiction
  | effect heffect => cases head <;> contradiction
  | _ => cases hr

/-- A call whose head is the variable `x` evaluates it to the function of member `i` and is then
`Passing` the expressions `es`. -/
theorem passing_head {x : String} {k c : Nat} (hx : resolve x (namesOf ρ) = some k)
    (hk : cellOf ρ k = some c) (hkeeps : Keeps E known refs ts B i t c)
    (hknown : ∀ {ℓ v}, known ℓ v → s[ℓ]? = some (.constant v)) (hlen : es.length = t.arity)
    (hreturned : ∀ n v, K n (.returned v) = pure v) :
    ∃ y, Arrives 0 (fun n => exec P (engine P n) ρ
        [.ret (es.foldl (fun f e => .call f [e]) (.ident x))] >>= K n) s y s ∧
      Passing P E known refs ts B ρ own s i t [] es y := by
  obtain ⟨names, body, hcell, henters⟩ := hkeeps
  obtain ⟨ℓ, hℓ, hnumber⟩ := lookup_of_resolve hx
  obtain rfl : ℓ = c := Option.some.inj (hnumber.symm.trans hk)
  have htaken : Enters E known refs ts B i t (([] : Scope).map Prod.fst ++ names) body := henters
  refine ⟨fun n => applyEach P n ρ (curriedFn (extend B.scope []) names body) es,
    .of_eq fun n => ?_,
    .call htaken .nil (by nofun) ?_⟩
  · rw [exec_ret, eval_each]
    simp only [hreturned, bind_pure]
    exact Compute.bind_ok (evaluates_ident hℓ (by rw [hknown hcell]; rfl) _)
  · rw [henters.length_eq, Term.length_params, hlen]

/-- `x` calls the member `r` of `refs` in tail position with `args` one by one, be it by a call or
by a jump: it is `Passing` after finitely many steps. -/
structure Reaches (P : Primitives S) (E : Setting) (known : Nat → Val S → Prop) (refs : List Ref)
    (ts : List Analyzed) (B : Band) (σ : Naming) (ρ : Scope) (own : Nat → Prop) (s : Store S)
    (args : List Analyzed) (i : Nat) (t : Analyzed) (x : Nat → Compute S (Val S)) : Prop where
  /-- The expressions of the arguments follow. -/
  passing : ∃ es y s₁, Values E (namesOf ρ) σ args es ∧ Arrives 0 x s y s₁ ∧ Extends own s s₁ ∧
    Passing P E known refs ts B ρ (fun ℓ => own ℓ ∧ ℓ < s₁.length) s₁ i t [] es y

/-- A jump in the loop of `frame` to its member at `i` reaches that member, whose cell is the one of
the declaration `k`. -/
theorem reaches_jump {σ : Naming} {frame : LoopFrame} {selector : Option String} {xs : List String}
    {r : Ref} {k : Nat} {args : List Analyzed} (h : Looping P E refs ts B own s ρ frame K)
    (hmember : frame.members[i]? = some (r, args.length)) (hk : frame.functions[i]? = some k)
    (hselector : selector.map (resolve · (namesOf ρ)) = frame.selector.map some)
    (hslots : xs.map (resolve · (namesOf ρ)) = frame.slots.map some)
    (hes : Values E (namesOf ρ) σ args es) :
    ∃ t c, ts[i]? = some t ∧ 0 < t.arity ∧ args.length = t.arity ∧ B.cells[i]? = some c ∧
      cellOf ρ k = some c ∧ ∀ known, Reaches P E known refs ts B σ ρ own s args i t
        fun n => exec P (engine P n) ρ (jumpBlock selector i xs es) >>= K n := by
  obtain ⟨hmembers, hfunctions⟩ := h.members_eq
  rw [hmembers] at hmember
  obtain ⟨-, harity⟩ := List.getElem?_zip_eq_some.1 hmember
  rw [List.getElem?_map] at harity
  obtain ⟨t, ht, harity⟩ := Option.map_eq_some_iff.1 harity
  have hcell := congrArg (·[i]?) hfunctions
  simp only [List.getElem?_map, hk, Option.map_some] at hcell
  obtain ⟨c, hc, hcell⟩ := Option.map_eq_some_iff.1 hcell.symm
  have hpos : 0 < t.arity := by
    cases h with
    | mk hloop => exact (hloop.arity_le ht).1
  refine ⟨t, c, ht, hpos, harity.symm, hc, hcell.symm, fun known => ?_⟩
  obtain ⟨x, s₁, harrives, hext, hpassing⟩ := passing_jump known h ht
    ((length_values hes).trans harity.symm) hselector hslots
  exact ⟨es, x, s₁, hes, harrives, hext, hpassing⟩

end

/-! ## Tail calls in both scripts -/

section

variable {P : Primitives S} {V : Versions} {W : World S} {s s' : Store S} {own own' : Nat → Prop}
  {σ σ' : Naming} {ρ ρ' : Scope} {n : Nat} {refs : List Ref} {ts : List Analyzed} {B B' : Band}

/-- If `Agree` holds and `r` has a declaration in both scripts, their cells belong together in
`W`. -/
theorem Agree.declaration (h : Agree V W σ ρ σ' ρ') {r : Ref} {k k' : Nat}
    (htop : ∀ q, r = .global q → q.ident ∈ V.tops) (hk : declaration? V.left.names σ r = some k)
    (hk' : declaration? V.right.names σ' r = some k') :
    ∃ ℓ ℓ', cellOf ρ k = some ℓ ∧ cellOf ρ' k' = some ℓ' ∧ W.joins ℓ ℓ' := by
  cases r with
  | bound b => exact h.bound hk hk'
  | global q => exact h.global (htop q rfl) hk hk'

/-- If `Owns` holds for a call, the global reference `r` of its `head` is one of `V.tops`. -/
theorem Owns.refIn? {a : Analysis} {head : Analyzed} {args : List Analyzed} {m : String} {r : Ref}
    (h : Owns V (.app a .curried head args)) (hr : head.refIn? (some m) = some r) :
    ∀ q, r = .global q → q.ident ∈ V.tops := by
  rintro q rfl
  cases head with
  | global a' q' =>
    have hown := h a' q' (Term.mem_subterms_iff.2 (.inr ⟨_, List.mem_cons_self ..,
      Term.mem_subterms_iff.2 (.inl rfl)⟩))
    obtain ⟨_ | m', ident⟩ := q' <;> cases hr <;> exact hown.1
  | bound => cases hr
  | _ => cases hr

/-- Two calls that `Reaches` the same member `i` with the same `args` simulate each other. -/
theorem sim_reaches {i : Nat} {t : Analyzed} {args : List Analyzed}
    {x y : Nat → Compute S (Val S)} (hfit : V.Fit P) (ih : ∀ m < n, ∀ u, BlockSim P V m u)
    (hargs : ∀ u ∈ args, ValueSim P V n u ∧ Owns V u) (hfellows : Fellows V W refs ts B B')
    (hagree : Agree V W σ ρ σ' ρ') (hstores : Stores V W s s') (hclear : Clear W own own')
    (ht : ts[i]? = some t) (hpos : 0 < t.arity) (hlen : args.length = t.arity)
    (hx : Reaches P V.left W.left refs ts B σ ρ own s args i t x)
    (hy : Reaches P V.right W.right refs ts B' σ' ρ' own' s' args i t y) :
    SimAt V own own' W s s' (x n) y fun W₁ _ _ => Same V W₁ := by
  obtain ⟨es, x₁, s₁, hes, harrives, hext, hpassing⟩ := hx
  obtain ⟨es', y₁, s₁', hes', harrives', hext', hpassing'⟩ := hy
  refine .arrives harrives harrives' hext hext' (.refl W) fun m hm => ?_
  obtain rfl : m = n := hm.symm
  exact (sim_passing hfit (fun m hm => ih m hm t.inner) hargs
    (by rintro rfl; rw [List.length_nil] at hlen; omega) hes hes' hagree hfellows
    (hfellows.owns t (List.mem_of_getElem? ht))
    (hstores.extend hext hext' (fun _ => hclear.left) fun _ => hclear.right)
    ⟨fun h => hclear.left h.1, fun h => hclear.right h.1⟩ (fun _ => And.right) (fun _ => And.right)
    .nil hpassing hpassing').mono (fun _ _ h => .inl h.1) (fun _ _ h => .inl h.1)
    fun _ _ _ _ _ _ => id

/-- If `as` has an element at `i`, so has `bs` of the same length. -/
theorem exists_getElem?_of_length {α β : Type} {as : List α} {bs : List β}
    (h : bs.length = as.length) {i : Nat}
    {x : α} (hx : as[i]? = some x) : ∃ y, bs[i]? = some y :=
  ⟨_, List.getElem?_eq_getElem (h ▸ (List.getElem?_eq_some_iff.1 hx).1)⟩

/-- The block `b` of a call that does not run an effect returns the converted call, or is a jump. -/
theorem block_apply {E : Setting} {p : Purpose} {Γ : List String} {a : Analysis} {head : Analyzed}
    {args : List Analyzed} {b : List Stmt} (h : Block E p Γ σ (.app a .curried head args) b)
    (hp : p.runs = false) :
    (∃ f es, Value E Γ σ head f ∧ Values E Γ σ args es ∧
      b = [.ret (es.foldl (fun f e => .call f [e]) f)]) ∨
    ∃ frame r i k selector xs es, p = .loop frame ∧
      head.refIn? (some E.context.name) = some r ∧ frame.members[i]? = some (r, args.length) ∧
      frame.functions[i]? = some k ∧ declaration? E.names σ r = some k ∧
      selector.map (resolve · Γ) = frame.selector.map some ∧
      xs.map (resolve · Γ) = frame.slots.map some ∧ Values E Γ σ args es ∧
      b = jumpBlock selector i xs es := by
  have hvalue {e : Script.Expr} (h : Value E Γ σ (.app a .curried head args) e) :
      ∃ f es, Value E Γ σ head f ∧ Values E Γ σ args es ∧
        [returnStmt (.app a .curried head args) e] =
          [.ret (es.foldl (fun f e => .call f [e]) f)] := by
    cases h with
    | apply hf hes => exact ⟨_, _, hf, hes, rfl⟩
    | _ => contradiction
  cases h with
  | returned _ h => exact .inl (hvalue h)
  | loopReturned _ h => exact .inl (hvalue h)
  | jump hr hmember _ hk hdeclaration hselector hslots _ hes =>
    exact .inr ⟨_, _, _, _, _, _, _, rfl, hr, hmember, hk, hdeclaration, hselector,
      hslots, hes, rfl⟩
  | runReturned => cases hp

/-- The blocks `b` and `b'` of a call in tail position simulate each other, also where only one of
them is a jump. -/
theorem sim_tail {p p' : Purpose} {a : Analysis} {head : Analyzed} {args : List Analyzed}
    {b b' : List Stmt} {K K' : Nat → Completion S → Compute S (Val S)} (hfit : V.Fit P)
    (ih : ∀ m < n, ∀ u, BlockSim P V m u) (hvalue : ValueSim P V n head)
    (hargs : ∀ u ∈ args, ValueSim P V n u) (hfellows : Fellows V W refs ts B B')
    (hagree : Agree V W σ ρ σ' ρ') (howns : Owns V (.app a .curried head args))
    (hstores : Stores V W s s') (hclear : Clear W own own') (hp : p.runs = false)
    (hp' : p'.runs = false) (h : Block V.left p (namesOf ρ) σ (.app a .curried head args) b)
    (hstage : Stage P V.left refs ts B own s ρ p b K)
    (h' : Block V.right p' (namesOf ρ') σ' (.app a .curried head args) b')
    (hstage' : Stage P V.right refs ts B' own' s' ρ' p' b' K') :
    SimAt V own own' W s s' (exec P (engine P n) ρ b >>= K n)
      (fun m => exec P (engine P m) ρ' b' >>= K' m) fun W₁ _ _ => Same V W₁ := by
  have hargs' : ∀ u ∈ args, ValueSim P V n u ∧ Owns V u :=
    fun u hu => ⟨hargs u hu, howns.child (List.mem_cons_of_mem _ hu)⟩
  have htop {r : Ref} (hr : head.refIn? (some V.left.context.name) = some r) := howns.refIn? hr
  have hglobal (a' : Analysis) (q : Qualified) (hq : head = .global a' q) : OwnName V q :=
    howns a' q (Term.mem_subterms_iff.2 (.inr ⟨head, List.mem_cons_self ..,
      hq ▸ Term.mem_subterms_iff.2 (.inl rfl)⟩))
  -- each script writes a call or a jump, whatever the other one does
  rcases block_apply h hp with ⟨f, es, hf, hes, rfl⟩ |
    ⟨frame, r, i, k, selector, xs, es, rfl, hr, hmember, hk, hd, hselector, hslots, hes, rfl⟩ <;>
  rcases block_apply h' hp' with ⟨f', es', hf', hes', rfl⟩ |
    ⟨frame', r', i', k', selector', xs', es', rfl, hr', hmember', hk', hd', hselector', hslots',
      hes', rfl⟩
  · -- two calls
    simp only [exec_ret, hstage.returned, hstage'.returned, bind_pure]
    exact (sim_callEach hfit ih hagree
      (hvalue hagree (howns.child (List.mem_cons_self ..)) hf hf') hargs' hes hes').at hstores
  · -- a call and a jump
    obtain ⟨t, c', ht, hpos, hlen, hc', hcell', hreaches'⟩ :=
      reaches_jump (hstage'.loop frame' rfl) hmember' hk' hselector' hslots' hes'
    rw [← hfit.name] at hr'
    obtain ⟨x, k, rfl, hx, hd⟩ := value_of_refIn?
      (fun a q hq => ⟨(hglobal a q hq).2.1.1, (hglobal a q hq).2.1.2.1⟩) hr' hf
    obtain ⟨ℓ, ℓ', hℓ, hℓ', hj⟩ := hagree.declaration (htop hr') hd hd'
    obtain rfl : ℓ' = c' := Option.some.inj (hℓ'.symm.trans hcell')
    obtain ⟨c, hc⟩ := exists_getElem?_of_length (hfellows.length_left) ht
    -- the cell of the member is paired with one cell only, so the call finds the member there
    obtain rfl : ℓ = c := hstores.paired_right (hfellows.paired hc hc') hj
    obtain ⟨y, harrives, hpassing⟩ := passing_head hx hℓ (hfellows.left ht hc) hstores.left
      ((length_values hes).trans hlen) hstage.returned
    exact sim_reaches hfit ih hargs' hfellows hagree hstores hclear ht hpos hlen
      ⟨es, y, s, hes, harrives, .refl s, hpassing⟩ (hreaches' _)
  · -- a jump and a call
    obtain ⟨t, c, ht, hpos, hlen, hc, hcell, hreaches⟩ :=
      reaches_jump (hstage.loop frame rfl) hmember hk hselector hslots hes
    obtain ⟨x, k', rfl, hx, hd'⟩ := value_of_refIn?
      (fun a q hq => ⟨(hglobal a q hq).2.2.1, (hglobal a q hq).2.2.2.1⟩) (hfit.name ▸ hr) hf'
    obtain ⟨ℓ, ℓ', hℓ, hℓ', hj⟩ := hagree.declaration (htop hr) hd hd'
    obtain rfl : ℓ = c := Option.some.inj (hℓ.symm.trans hcell)
    obtain ⟨c', hc'⟩ := exists_getElem?_of_length (hfellows.length_right) ht
    obtain rfl : ℓ' = c' := hstores.paired_left (hfellows.paired hc hc') hj
    obtain ⟨y, harrives, hpassing⟩ := passing_head hx hℓ' (hfellows.right ht hc') hstores.right
      ((length_values hes').trans hlen) hstage'.returned
    exact sim_reaches hfit ih hargs' hfellows hagree hstores hclear ht hpos hlen (hreaches _)
      ⟨es', y, s', hes', harrives, .refl s', hpassing⟩
  · -- two jumps, to the same member
    obtain ⟨t, c, ht, hpos, hlen, hc, hcell, hreaches⟩ :=
      reaches_jump (hstage.loop frame rfl) hmember hk hselector hslots hes
    obtain ⟨t', c', ht', -, -, hc', hcell', hreaches'⟩ :=
      reaches_jump (hstage'.loop frame' rfl) hmember' hk' hselector' hslots' hes'
    rw [← hfit.name, hr] at hr'
    obtain rfl := Option.some.inj hr'
    obtain ⟨ℓ, ℓ', hℓ, hℓ', hj⟩ := hagree.declaration (htop hr) hd hd'
    obtain rfl : ℓ = c := Option.some.inj (hℓ.symm.trans hcell)
    obtain rfl : ℓ' = c' := Option.some.inj (hℓ'.symm.trans hcell')
    obtain ⟨c₁, hc₁⟩ := exists_getElem?_of_length (hfellows.length_right) ht
    obtain rfl : ℓ' = c₁ := hstores.paired_left (hfellows.paired hc hc₁) hj
    obtain rfl : i = i' := by
      have hi := (List.getElem?_eq_some_iff.1 hc₁).1
      exact (List.getElem?_inj hi hfellows.nodup).1 (hc₁.trans hc'.symm)
    obtain rfl : t = t' := Option.some.inj (ht.symm.trans ht')
    exact sim_reaches hfit ih hargs' hfellows hagree hstores hclear ht hpos hlen (hreaches _)
      (hreaches' _)

end

end TailLoop.Emit
