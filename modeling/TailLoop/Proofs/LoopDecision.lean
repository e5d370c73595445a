import TailLoop.Proofs.CallCounts

/-!
# The decision on recursive groups

A recursive group is a loop exactly if its members are curried functions that are called, in their
bodies taken together, only in tail position and only with all their arguments.

* `IsLoopGroup`: the condition, in terms of positions.
* `verdict_isLoop_iff`: the decision on analysed bindings is this condition.
* `isLoop_analyze_iff`: so it is for recursive groups inside terms and at top level.
-/

namespace TailLoop

/-- What stands at `q` is called with `k` arguments, and the call is in tail position. -/
def TailCallAt (t : Analyzed) (q : List Nat) (k : Nat) : Prop :=
  ∃ p, q = p ++ [0] ∧ t.AppliedAt p k ∧ TailPosition t p

/-- The bodies of those `bindings` that are curried functions. -/
def bodies (bindings : List Analyzed) : List Analyzed := bindings.filterMap Term.body?

/-- A group of analysed bindings is a loop: there are members, all are curried functions, and every
occurrence of a member in their bodies, of which there is at least one, heads a call in tail
position with as many arguments as the member has parameters. -/
structure IsLoopGroup (m : Option String) (members : List Ref) (bindings : List Analyzed) :
    Prop where
  /-- There are members. -/
  nonempty : members ≠ []
  /-- All bindings are curried functions. -/
  functions : ∀ t ∈ bindings, ∃ a params body, t = .abs a .curried params body
  /-- Every member occurs. -/
  called : ∀ r ∈ members, ∃ body ∈ bodies bindings, ∃ q, body.OccursAt m r q
  /-- Every occurrence heads a call in tail position with all arguments. -/
  uniform : ∀ p ∈ members.zip bindings, 0 < p.2.arity ∧
    ∀ body ∈ bodies bindings, ∀ q, body.OccursAt m p.1 q → TailCallAt body q p.2.arity

/-! ## Calls in several bodies -/

/-- The `callSites` of `r` in all of `ts`. -/
def allSites (m : Option String) (r : Ref) (ts : List Analyzed) : List CallSite :=
  ts.flatMap (Term.callSites m r)

/-- `bodiesAnalysis` counts `allSites` in the bodies. -/
theorem counts_bodiesAnalysis {m : Option String} {r : Ref} {bindings : List Analyzed}
    (h : ∀ body ∈ bodies bindings, CountsSites m r body) :
    (bodiesAnalysis bindings).Counts r ((allSites m r (bodies bindings)).map CallSite.args)
      ((allSites m r (bodies bindings)).countP CallSite.tail) := by
  have aux (ts : List Analyzed) (hts : ∀ t ∈ ts, CountsSites m r t) (a : Analysis)
      (sites : List CallSite)
      (ha : a.Counts r (sites.map CallSite.args) (sites.countP CallSite.tail)) :
      (ts.foldl (fun a t => a.append t.note) a).Counts r
        ((sites ++ allSites m r ts).map CallSite.args)
        ((sites ++ allSites m r ts).countP CallSite.tail) := by
    induction ts generalizing a sites with
    | nil => simpa [allSites] using ha
    | cons t ts ih =>
      have ht : t.note.Counts r ((t.callSites m r).map CallSite.args)
        ((t.callSites m r).countP CallSite.tail) := hts t (List.mem_cons_self ..)
      have hstep := ha.append ht
      rw [← List.map_append, ← List.countP_append] at hstep
      have := ih (fun u hu => hts u (List.mem_cons_of_mem _ hu)) _ _ hstep
      simpa [allSites, List.append_assoc] using this
  exact aux _ h .empty [] (Analysis.counts_empty r)

/-- The recorded numbers of arguments are just `k` if all calls have `k` arguments. -/
theorem arities_eq_singleton_iff {c : Call} {ks : List Nat} {k : Nat} (hne : ks ≠ [])
    (hmem : ∀ j, j ∈ c.arities ↔ j ∈ ks) : c.arities = [k] ↔ ∀ j ∈ ks, j = k := by
  constructor
  · intro h j hj
    have := (hmem j).2 hj
    rw [h] at this
    exact List.mem_singleton.1 this
  · intro h
    have hall : ∀ j ∈ c.arities, j = k := fun j hj => h j ((hmem j).1 hj)
    obtain ⟨j, hj⟩ := List.exists_mem_of_ne_nil ks hne
    have hj' := (hmem j).2 hj
    have hasc := c.ascending
    -- an ascending list without two different members has one member
    match hl : c.arities with
    | [] => rw [hl] at hj'; cases hj'
    | [i] => rw [hall i (by rw [hl]; exact List.mem_singleton.2 rfl)]
    | i :: i' :: rest =>
      exfalso
      rw [hl] at hasc hall
      have hlt := (List.pairwise_cons.1 hasc).1 i' (List.mem_cons_self ..)
      have hi := hall i (List.mem_cons_self ..)
      have hi' := hall i' (List.mem_cons_of_mem _ (List.mem_cons_self ..))
      omega

/-- A summary finds calls uniform if there are some and all are tail calls with `k` arguments, at
least one. -/
theorem checkUniform_iff_sites {a : Analysis} {r : Ref} {k : Nat} {sites : List CallSite}
    (h : a.Counts r (sites.map CallSite.args) (sites.countP CallSite.tail)) :
    a.checkUniform r k = .ok () ↔
      sites ≠ [] ∧ 0 < k ∧ ∀ x ∈ sites, x.args = k ∧ x.tail = true := by
  obtain ⟨hlists, htail⟩ := h
  -- as many tail calls as calls means that every call is a tail call
  rw [Analysis.checkUniform_eq_ok_iff, htail]
  constructor
  · rintro ⟨c, hc, hk, hzero, hcount⟩
    rw [hc] at hlists
    obtain ⟨hne, hlen, hmem⟩ := hlists
    refine ⟨by simpa using hne, Nat.pos_of_ne_zero hzero, fun x hx => ⟨?_, ?_⟩⟩
    · exact (arities_eq_singleton_iff hne hmem).1 hk x.args (List.mem_map.2 ⟨x, hx, rfl⟩)
    · rw [hlen, List.length_map] at hcount
      exact List.countP_eq_length.1 hcount.symm x hx
  · rintro ⟨hne, hk, hall⟩
    have hne' : sites.map CallSite.args ≠ [] := by simpa using hne
    cases hc : a.callOf? r with
    | none =>
      rw [hc] at hlists
      exact absurd hlists hne'
    | some c =>
      rw [hc] at hlists
      obtain ⟨-, hlen, hmem⟩ := hlists
      refine ⟨c, rfl, (arities_eq_singleton_iff hne' hmem).2 ?_, Nat.ne_of_gt hk, ?_⟩
      · intro j hj
        obtain ⟨x, hx, rfl⟩ := List.mem_map.1 hj
        exact (hall x hx).1
      · rw [hlen, List.length_map]
        exact (List.countP_eq_length.2 fun x hx => (hall x hx).2).symm

/-! ## Sites and positions -/

/-- Where `r` occurs, it has a call site. -/
theorem exists_mem_callSites {m : Option String} {r : Ref} {t : Analyzed} {q : List Nat}
    (h : t.OccursAt m r q) : ∃ x ∈ t.callSites m r, x.position = q := by
  classical
  by_cases happ : ∃ p k, q = p ++ [0] ∧ t.AppliedAt p k
  · obtain ⟨p, k, rfl, happ⟩ := happ
    refine ⟨⟨p ++ [0], k, decide (TailPosition t p)⟩, ?_, rfl⟩
    exact (Term.mem_callSites_iff t _).2 ⟨h, p, .inl ⟨rfl, happ⟩, by simp⟩
  · refine ⟨⟨q, 0, decide (TailPosition t q)⟩, ?_, rfl⟩
    refine (Term.mem_callSites_iff t _).2 ⟨h, q, .inr ⟨rfl, rfl, ?_⟩, by simp⟩
    exact fun p' k' hq happ' => happ ⟨p', k', hq, happ'⟩

/-- All call sites are tail calls with `k` arguments if and only if all occurrences head such
calls. -/
theorem forall_callSites_iff {m : Option String} {r : Ref} {t : Analyzed} {k : Nat} (hk : 0 < k) :
    (∀ x ∈ t.callSites m r, x.args = k ∧ x.tail = true) ↔
      ∀ q, t.OccursAt m r q → TailCallAt t q k := by
  constructor
  · intro h q hq
    obtain ⟨x, hx, rfl⟩ := exists_mem_callSites hq
    obtain ⟨hargs, htail⟩ := h x hx
    obtain ⟨-, p, hcall, hp⟩ := (Term.mem_callSites_iff t x).1 hx
    rcases hcall with ⟨hpos, happ⟩ | ⟨-, hzero, -⟩
    · exact ⟨p, hpos, hargs ▸ happ, hp.1 htail⟩
    · omega
  · intro h x hx
    obtain ⟨hoccurs, p, hcall, hp⟩ := (Term.mem_callSites_iff t x).1 hx
    obtain ⟨p', hpos, happ, htail⟩ := h x.position hoccurs
    rcases hcall with ⟨hpos', happ'⟩ | ⟨-, -, hno⟩
    · obtain rfl : p' = p := List.append_cancel_right (hpos.symm.trans hpos')
      obtain ⟨a, head, args, hat, hlen⟩ := happ
      obtain ⟨a', head', args', hat', hlen'⟩ := happ'
      rw [hat] at hat'
      cases hat'
      exact ⟨by omega, hp.2 htail⟩
    · exact absurd happ (hno p' k hpos)

/-! ## The decision -/

/-- `verdict` is for a loop if all `bindings` are curried functions and `checkUniform` accepts every
member. -/
theorem verdict_isLoop_eq (members : List Ref) (bindings : List Analyzed)
    (hlen : members.length = bindings.length) :
    (verdict members bindings).isLoop = true ↔
      members ≠ [] ∧ (∀ t ∈ bindings, ∃ a params body, t = .abs a .curried params body) ∧
        ∀ p ∈ members.zip bindings,
          (bodiesAnalysis bindings).checkUniform p.1 p.2.arity = .ok () := by
  have hfunction (t : Analyzed) :
      t.body?.isNone = false ↔ ∃ a params body, t = .abs a .curried params body := by
    constructor
    · intro h
      cases t with
      | abs a calling params body =>
        cases calling with
        | curried => exact ⟨a, params, body, rfl⟩
        | _ => cases h
      | _ => cases h
    · rintro ⟨a, params, body, rfl⟩
      rfl
  have hsnd : (members.zip bindings).map Prod.snd = bindings :=
    List.map_snd_zip (Nat.le_of_eq hlen.symm)
  unfold verdict
  by_cases hmembers : members = []
  · simp [hmembers, Verdict.isLoop]
  · simp only [List.isEmpty_iff, hmembers, if_false]
    split
    -- some binding is no function
    · rename_i p hp
      have hbad := List.find?_some hp
      have hmem : p.2 ∈ bindings := hsnd ▸ List.mem_map.2 ⟨p, List.mem_of_find?_eq_some hp, rfl⟩
      simp only [Verdict.isLoop, Bool.false_eq_true, false_iff]
      rintro ⟨-, hfun, -⟩
      rw [(hfunction p.2).2 (hfun p.2 hmem)] at hbad
      cases hbad
    -- all bindings are functions, so the calls of the members decide
    · rename_i hnone
      have hfun : ∀ t ∈ bindings, ∃ a params body, t = .abs a .curried params body := by
        intro t ht
        rw [← hsnd] at ht
        obtain ⟨p, hp, rfl⟩ := List.mem_map.1 ht
        refine (hfunction p.2).1 ?_
        simpa only [Bool.not_eq_true] using List.find?_eq_none.1 hnone p hp
      cases hfind : List.findSome? _ (members.zip bindings) with
      | none =>
        simp only [Option.getD_none, Verdict.isLoop, true_iff]
        refine ⟨hmembers, hfun, fun p hp => ?_⟩
        have := List.findSome?_eq_none_iff.1 hfind p hp
        split at this
        · cases this
        · assumption
      | some v =>
        obtain ⟨p, hp, hv⟩ := List.exists_of_findSome?_eq_some hfind
        split at hv
        · rename_i reason hreason
          cases hv
          simp only [Option.getD_some, Verdict.isLoop, Bool.false_eq_true, false_iff]
          rintro ⟨-, -, hall⟩
          rw [hall p hp] at hreason
          cases hreason
        · cases hv

/-- If the summaries of `bindings` count all call sites of `members`, `verdict` decides
`IsLoopGroup`. -/
theorem verdict_isLoop_iff {m : Option String} {members : List Ref} {bindings : List Analyzed}
    (hlen : members.length = bindings.length)
    (hcounts : ∀ r ∈ members, ∀ body ∈ bodies bindings, CountsSites m r body) :
    (verdict members bindings).isLoop = true ↔ IsLoopGroup m members bindings := by
  have hmem {p : Ref × Analyzed} (hp : p ∈ members.zip bindings) : p.1 ∈ members :=
    (List.of_mem_zip hp).1
  have huniform (p : Ref × Analyzed) (hp : p ∈ members.zip bindings) :
      (bodiesAnalysis bindings).checkUniform p.1 p.2.arity = .ok () ↔
        (∃ body ∈ bodies bindings, ∃ q, body.OccursAt m p.1 q) ∧ 0 < p.2.arity ∧
          ∀ body ∈ bodies bindings, ∀ q, body.OccursAt m p.1 q →
            TailCallAt body q p.2.arity := by
    -- the sites of the calls in the bodies are the occurrences there
    rw [checkUniform_iff_sites (counts_bodiesAnalysis (hcounts p.1 (hmem hp)))]
    refine and_congr ?_ (and_congr_right fun hk => ?_)
    · rw [ne_eq, allSites, List.flatMap_eq_nil_iff]
      constructor
      · intro h
        simp only [Classical.not_forall] at h
        obtain ⟨body, hbody, hne⟩ := h
        obtain ⟨x, hx⟩ := List.exists_mem_of_ne_nil _ hne
        exact ⟨body, hbody, x.position, ((Term.mem_callSites_iff body x).1 hx).1⟩
      · rintro ⟨body, hbody, q, hq⟩ h
        obtain ⟨x, hx, -⟩ := exists_mem_callSites hq
        rw [h body hbody] at hx
        cases hx
    · simp only [allSites, List.mem_flatMap]
      constructor
      · intro h body hbody
        exact (forall_callSites_iff hk).1 fun x hx => h x ⟨body, hbody, hx⟩
      · rintro h x ⟨body, hbody, hx⟩
        exact (forall_callSites_iff hk).2 (h body hbody) x hx
  rw [verdict_isLoop_eq members bindings hlen]
  constructor
  · rintro ⟨hne, hfun, hall⟩
    refine ⟨hne, hfun, fun r hr => ?_, fun p hp => ((huniform p hp).1 (hall p hp)).2⟩
    rw [← List.map_fst_zip (Nat.le_of_eq hlen)] at hr
    obtain ⟨p, hp, rfl⟩ := List.mem_map.1 hr
    exact ((huniform p hp).1 (hall p hp)).1
  · intro h
    refine ⟨h.nonempty, h.functions, fun p hp => (huniform p hp).2 ?_⟩
    exact ⟨h.called p.1 (hmem hp), h.uniform p hp⟩

/-- The body of an analysed function is an analysed child. -/
theorem body?_analyze {c : Candidates} {t : Expr} {body : Analyzed}
    (h : (analyze c t).body? = some body) : ∃ s ∈ t.children, body = analyze c s := by
  cases t with
  | abs _ calling params s =>
    cases calling with
    | curried =>
      simp only [analyze, Term.body?, Option.some.injEq] at h
      exact ⟨s, by simp [Term.children], h.symm⟩
    | _ => simp [analyze, Term.body?] at h
  | app _ calling head args => simp [analyze, Term.body?] at h
  | _ => simp [analyze, Term.body?] at h

/-- The bodies of analysed `bindings` count the call sites of every candidate that they do not bind
again. -/
theorem countsSites_bodies {c : Candidates} {bindings : List (String × Expr)} {r : Ref}
    (hr : r ∈ c.refs) (hb : ∀ b ∈ bindings, ¬b.2.Rebinds r) :
    ∀ body ∈ bodies ((analyzeFields c bindings).map Prod.snd), CountsSites c.module r body := by
  intro body hbody
  rw [analyzeFields_eq_map] at hbody
  obtain ⟨t, ht, hbody⟩ := List.mem_filterMap.1 hbody
  simp only [List.map_map, List.mem_map] at ht
  obtain ⟨b, hmem, rfl⟩ := ht
  obtain ⟨s, hs, rfl⟩ := body?_analyze hbody
  exact countsSites_analyze s c hr (Term.not_rebinds_child (hb b hmem) hs)

/-- No term binds a global reference again. -/
theorem not_rebinds_global (q : Qualified) (t : Expr) : ¬t.Rebinds (.global q) := by
  rintro ⟨s, -, hr⟩
  cases s <;> simp [Term.letRefs, groupRefs] at hr

/-- The decision is exact: a recursive group inside a term whose members are not bound again in its
bindings, and a recursive top-level group, is taken for a loop if and only if it is one. -/
theorem isLoop_analyze_iff :
    (∀ (c : Candidates) (level : UInt32) (bindings : List (String × Expr)) (body : Expr),
      (∀ b ∈ bindings, ∀ r ∈ groupRefs level bindings, ¬b.2.Rebinds r) →
        ∃ a bindings' body',
          analyze c (.letRec () level bindings body) = .letRec a level bindings' body' ∧
            (a.isLoop = true ↔
              IsLoopGroup c.module (groupRefs level bindings) (bindings'.map Prod.snd))) ∧
    ∀ (m : String) (g : BindingGroup), g.recursive = true →
      ((g.analyze m).isLoop = true ↔
        IsLoopGroup (some m) (topRefs m g.bindings) ((g.analyze m).bindings.map Prod.snd)) := by
  constructor
  · intro c level bindings body hb
    refine ⟨_, _, _, rfl, ?_⟩
    refine verdict_isLoop_iff (by simp [groupRefs]) fun r hr => ?_
    exact countsSites_bodies (List.mem_append_left _ hr) fun b hmem => hb b hmem r hr
  · intro m g hrec
    simp only [BindingGroup.analyze, AnalyzedGroup.isLoop, hrec, if_true]
    refine verdict_isLoop_iff (by simp [topRefs]) fun r hr => ?_
    refine countsSites_bodies hr fun b _ => ?_
    obtain ⟨x, -, rfl⟩ := List.mem_map.1 hr
    exact not_rebinds_global _ _

/-- A member of the group `even`, `odd`: it calls the other one below a branch and a binding. -/
def parityStep (next : String) : Expr :=
  .abs () .curried [⟨some "n", 1⟩]
    (.branch () [(.test () (.bound () ⟨some "n", 1⟩) (.int 0), .lit () (.boolean true))]
      (.letIn () ⟨some "k", 2⟩ (.binary () .sub (.bound () ⟨some "n", 1⟩) (.lit () (.int 1)))
        (.app () .curried (.bound () ⟨some next, 0⟩) [.bound () ⟨some "k", 2⟩])))

/-- The group `even`, `odd`. -/
def parityGroup : List (String × Expr) := [("even", parityStep "odd"), ("odd", parityStep "even")]

/-- The group `even`, `odd` is a loop. -/
theorem isLoop_analyze_iff_parityGroup :
    (∀ b ∈ parityGroup, ∀ r ∈ groupRefs 0 parityGroup, ¬b.2.Rebinds r) ∧
      IsLoopGroup none (groupRefs 0 parityGroup)
        ((analyzeFields ⟨none, groupRefs 0 parityGroup⟩ parityGroup).map Prod.snd) := by
  have hb : ∀ b ∈ parityGroup, ∀ r ∈ groupRefs 0 parityGroup, ¬b.2.Rebinds r := by decide
  refine ⟨hb, ?_⟩
  obtain ⟨a, bindings, body, h, hiff⟩ :=
    isLoop_analyze_iff.1 ⟨none, []⟩ 0 parityGroup (.undefined ()) hb
  rw [analyze] at h
  injection h with ha hl hbindings hbody
  subst ha hbindings
  refine hiff.1 ?_
  decide

end TailLoop
