import TailLoop.Proofs.SummaryBounds

/-!
# Decisions are local

Whether a group is a loop depends on what is recorded of its members, and whether something bound
stays in tail position depends on what is recorded of its binder. Both are candidates wherever they
are in scope, so it does not matter which other references are counted, nor to which module the term
belongs. What is recorded of one reference does not depend on the others either.

* `Analysis.SameAt`: two summaries record the same of a reference.
* `Candidates.Shares`: two analyses count a reference in the same way.
* `sameAt_analyze`: then the summaries of a term record the same of it.
* `loop_decisions_local`: all decisions in a term are the same in every analysis.
-/

namespace TailLoop

/-! ## What is recorded of one reference -/

namespace Analysis

/-- `a` and `a'` record the same of the reference `r`: its calls and the number of its tail
calls. -/
structure SameAt (r : Ref) (a a' : Analysis) : Prop where
  /-- The calls are the same. -/
  calls : a.callOf? r = a'.callOf? r
  /-- The number of tail calls is the same. -/
  tails : a.tailCalls.get? r = a'.tailCalls.get? r

variable {a a' b b' : Analysis} {r : Ref}

theorem SameAt.refl (r : Ref) (a : Analysis) : SameAt r a a := ⟨rfl, rfl⟩

/-- `appendCalls` adds the same, if `b` and `b'` record the same. -/
theorem SameAt.appendCalls (ha : SameAt r a a') (hb : SameAt r b b') :
    SameAt r (a.appendCalls b) (a'.appendCalls b') :=
  ⟨by rw [callOf?_appendCalls, callOf?_appendCalls, ha.calls, hb.calls], ha.tails⟩

/-- `append` adds the same, if `b` and `b'` record the same. -/
theorem SameAt.append (ha : SameAt r a a') (hb : SameAt r b b') :
    SameAt r (a.append b) (a'.append b') := by
  refine ⟨(ha.appendCalls hb).calls, ?_⟩
  rw [Analysis.append, Analysis.append, Table.get?_combine, Table.get?_combine, ha.tails, hb.tails]

/-- `drop` forgets the same, be it `r` or not. -/
theorem SameAt.drop (ha : SameAt r a a') (r' : Ref) : SameAt r (a.drop r') (a'.drop r') := by
  constructor
  · rw [callOf?_drop, callOf?_drop, ha.calls]
  · rw [Analysis.drop, Analysis.drop, Table.get?_erase, Table.get?_erase, ha.tails]

/-- `dropAll` forgets the same. -/
theorem SameAt.dropAll (ha : SameAt r a a') (rs : List Ref) :
    SameAt r (a.dropAll rs) (a'.dropAll rs) := by
  induction rs generalizing a a' with
  | nil => exact ha
  | cons r' rs ih => exact ih (ha.drop r')

/-- `noTailCalls` keeps the calls. -/
theorem SameAt.noTailCalls (ha : SameAt r a a') : SameAt r a.noTailCalls a'.noTailCalls :=
  ⟨ha.calls, rfl⟩

/-- The flag `isLoop` does not matter to what is recorded. -/
theorem SameAt.withLoop (ha : SameAt r a a') (isLoop isLoop' : Bool) :
    SameAt r { a with isLoop := isLoop } { a' with isLoop := isLoop' } := ⟨ha.calls, ha.tails⟩

/-- `appendAllCalls` adds the same, one summary after the other. -/
theorem SameAt.appendAllCalls {α : Type} {f g : α → Analyzed} {xs : List α} (ha : SameAt r a a')
    (h : ∀ x ∈ xs, SameAt r (f x).note (g x).note) :
    SameAt r (a.appendAllCalls (xs.map f)) (a'.appendAllCalls (xs.map g)) := by
  induction xs generalizing a a' with
  | nil => exact ha
  | cons x xs ih =>
    exact ih (ha.appendCalls (h x (List.mem_cons_self ..))) fun y hy =>
      h y (List.mem_cons_of_mem _ hy)

/-- `checkUniform` looks at what is recorded of `r` only. -/
theorem SameAt.checkUniform_eq (ha : SameAt r a a') (k : Nat) :
    a.checkUniform r k = a'.checkUniform r k := by
  rw [checkUniform, checkUniform, tailCallsOf, tailCallsOf, ha.calls, ha.tails]

/-- `isUniform` looks at what is recorded of `r` only. -/
theorem SameAt.isUniform_eq (ha : SameAt r a a') (k : Nat) :
    a.isUniform r k = a'.isUniform r k := by
  rw [isUniform, isUniform, ha.checkUniform_eq]

/-- A single call of another reference `r'` records nothing of `r`. -/
theorem sameAt_call {r' : Ref} (h : r' ≠ r) (k : Nat) : SameAt r empty (call r' k) := by
  constructor <;> simp [callOf?, empty, call, Table.insert, Table.get?_alter, h.symm]

end Analysis

open Analysis

/-! ## Candidates -/

namespace Candidates

/-- `c` and `c'` count `r` in the same way: it is a candidate of both, and if it is a top-level
name, both are in the same module. -/
structure Shares (c c' : Candidates) (r : Ref) : Prop where
  /-- The first analysis counts it. -/
  left : r ∈ c.refs
  /-- The second analysis counts it. -/
  right : r ∈ c'.refs
  /-- It is the same reference in the modules of both. -/
  module : r.isBound = true ∨ c.module = c'.module

variable {c c' : Candidates} {r : Ref}

/-- More candidates `rs` do not matter. -/
theorem Shares.extend (h : c.Shares c' r) (rs : List Ref) :
    (c.extend rs).Shares (c'.extend rs) r :=
  ⟨List.mem_append_right _ h.left, List.mem_append_right _ h.right, h.module⟩

/-- What is bound inside a term is counted in the same way where it is in scope. -/
theorem shares_extend {rs : List Ref} (hr : r ∈ rs) (hbound : r.isBound = true) :
    (c.extend rs).Shares (c'.extend rs) r :=
  ⟨List.mem_append_left _ hr, List.mem_append_left _ hr, .inl hbound⟩

/-- The candidates at the position `p` of `t` count `r` in the same way. -/
theorem Shares.inside (h : c.Shares c' r) (t : Expr) (p : List Nat) :
    (c.inside t p).Shares (c'.inside t p) r := by
  induction p generalizing c c' t with
  | nil => exact h
  | cons i p ih =>
    rw [Candidates.inside, Candidates.inside]
    split
    · refine ih ?_ _
      unfold below
      split
      · split
        · exact h
        · exact h.extend _
      · exact h.extend _
      · exact h
    · exact h

/-- `t` refers to `r` in both analyses or in none. -/
theorem Shares.ref?_iff (h : c.Shares c' r) {α : Type} (t : Term α) :
    c.ref? t = some r ↔ c'.ref? t = some r := by
  rcases h.module with hbound | hmodule
  · obtain ⟨b, rfl⟩ : ∃ b, r = .bound b := by
      cases r with
      | bound b => exact ⟨b, rfl⟩
      | global q => cases hbound
    have hself (c : Candidates) : c.ref? t = some (.bound b) ↔ t.ref? = some (.bound b) := by
      have hwithin (m : String) (r' : Ref) : r'.within m = .bound b ↔ r' = .bound b := by
        unfold Ref.within
        split <;> simp
      obtain ⟨module, refs⟩ := c
      cases module with
      | none => simp [Candidates.ref?]
      | some m => simp [Candidates.ref?, Option.map_eq_some_iff, hwithin]
    rw [hself, hself]
  · simp only [Candidates.ref?, hmodule]

/-- `occurrence` records the same of `r`, whatever it is an occurrence of. -/
theorem Shares.occurrence (h : c.Shares c' r) {s s' : Ref} (hs : s = r ↔ s' = r) (k : Nat) :
    SameAt r (c.occurrence s k) (c'.occurrence s' k) := by
  by_cases hr : s = r
  · obtain rfl := hs.1 hr
    obtain rfl := hr
    rw [Candidates.occurrence, Candidates.occurrence, if_pos h.left, if_pos h.right]
    exact .refl ..
  · have hempty (c : Candidates) (s : Ref) (hs : s ≠ r) :
        SameAt r empty (c.occurrence s k) := by
      unfold Candidates.occurrence
      split
      · exact sameAt_call hs k
      · exact .refl ..
    have hleft := hempty c s hr
    have hright := hempty c' s' fun hr' => hr (hs.2 hr')
    exact ⟨hleft.calls.symm.trans hright.calls, hleft.tails.symm.trans hright.tails⟩

end Candidates

/-! ## Groups -/

/-- `analyze` keeps whether `t` is a curried function. -/
theorem isCurried_analyze_iff (c : Candidates) (t : Expr) :
    (∃ a params body, analyze c t = .abs a .curried params body) ↔
      ∃ params body, t = .abs () .curried params body := by
  cases t with
  | abs _ calling params body => cases calling <;> simp [analyze]
  | _ => simp [analyze]

/-- `analyze` keeps numbers of parameters. -/
@[simp] theorem arity_analyze (c : Candidates) (t : Expr) : (analyze c t).arity = t.arity := by
  cases t with
  | abs _ calling params body => cases calling <;> rfl
  | _ => rfl

/-- The body of an analysed function is analysed with the same candidates `c`. -/
theorem body?_analyze_eq (c : Candidates) (t : Expr) :
    (analyze c t).body? = t.body?.map (analyze c) := by
  cases t with
  | abs _ calling params body => cases calling <;> rfl
  | _ => rfl

/-- `bodiesAnalysis` records the same of `r` if each of the bodies does. -/
theorem sameAt_bodiesAnalysis {c c' : Candidates} {r : Ref} {ts : List Expr}
    (h : ∀ body ∈ ts.filterMap Term.body?, SameAt r (analyze c body).note (analyze c' body).note) :
    SameAt r (bodiesAnalysis (ts.map (analyze c))) (bodiesAnalysis (ts.map (analyze c'))) := by
  have hfold (a a' : Analysis) (ha : SameAt r a a') (bodies : List Expr)
      (hbodies : ∀ body ∈ bodies, SameAt r (analyze c body).note (analyze c' body).note) :
      SameAt r ((bodies.map (analyze c)).foldl (fun a body => a.append body.note) a)
        ((bodies.map (analyze c')).foldl (fun a body => a.append body.note) a') := by
    induction bodies generalizing a a' with
    | nil => exact ha
    | cons body bodies ih =>
      exact ih _ _ (ha.append (hbodies body (List.mem_cons_self ..))) fun b hb =>
        hbodies b (List.mem_cons_of_mem _ hb)
  have hbodies (c : Candidates) : (ts.map (analyze c)).filterMap Term.body? =
      (ts.filterMap Term.body?).map (analyze c) := by
    rw [List.filterMap_map, List.map_filterMap]
    exact congrArg (List.filterMap · ts) (funext (body?_analyze_eq c))
  rw [bodiesAnalysis, bodiesAnalysis, hbodies, hbodies]
  exact hfold _ _ (.refl ..) _ h

/-- The decision on a group is the same if the bodies record the same of its `members`. -/
theorem verdict_isLoop_congr {c c' : Candidates} {members : List Ref} {ts : List Expr}
    (hlen : members.length = ts.length)
    (h : ∀ r ∈ members, ∀ body ∈ ts.filterMap Term.body?,
      SameAt r (analyze c body).note (analyze c' body).note) :
    (verdict members (ts.map (analyze c))).isLoop =
      (verdict members (ts.map (analyze c'))).isLoop := by
  have hiff (c : Candidates) : (verdict members (ts.map (analyze c))).isLoop = true ↔
      members ≠ [] ∧ (∀ t ∈ ts, ∃ params body, t = .abs () .curried params body) ∧
        ∀ p ∈ members.zip ts,
          (bodiesAnalysis (ts.map (analyze c))).checkUniform p.1 p.2.arity = .ok () := by
    rw [verdict_isLoop_eq _ _ (by rw [List.length_map, hlen]), List.zip_map_right]
    simp only [List.forall_mem_map, isCurried_analyze_iff, Prod.map_fst, Prod.map_snd, id,
      arity_analyze]
  rw [Bool.eq_iff_iff, hiff, hiff]
  refine and_congr_right fun _ => and_congr_right fun _ => forall₂_congr fun p hp => ?_
  have hmem : p.1 ∈ members := (List.of_mem_zip hp).1
  rw [(sameAt_bodiesAnalysis (h p.1 hmem)).checkUniform_eq]

/-! ## Summaries of nodes -/

section

variable {r : Ref} {body body' : Analyzed}

/-- `armsAnalysis` records the same of `r` if conditions and bodies do. -/
theorem sameAt_armsAnalysis {α : Type} {f g : α → Analyzed × Analyzed} {xs : List α}
    (h : ∀ x ∈ xs, SameAt r (f x).1.note (g x).1.note ∧ SameAt r (f x).2.note (g x).2.note) :
    SameAt r (armsAnalysis (xs.map f)) (armsAnalysis (xs.map g)) := by
  have hfold (a a' : Analysis) (ha : SameAt r a a') :
      SameAt r
        ((xs.map f).foldl (fun a arm => (a.appendCalls arm.1.note).append arm.2.note) a)
        ((xs.map g).foldl (fun a arm => (a.appendCalls arm.1.note).append arm.2.note) a') := by
    induction xs generalizing a a' with
    | nil => exact ha
    | cons x xs ih =>
      obtain ⟨hcond, hbody⟩ := h x (List.mem_cons_self ..)
      exact ih (fun y hy => h y (List.mem_cons_of_mem _ hy)) _ _
        ((ha.appendCalls hcond).append hbody)
  exact hfold _ _ (.refl ..)

/-- `letAnalysis` records the same of `r`, if `body` and `body'` record the same of the binder `s`
too: it decides whether the value stays in tail position. -/
theorem sameAt_letAnalysis {s : Ref} {value value' : Analyzed}
    (hvalue : SameAt r value.note value'.note) (harity : value.arity = value'.arity)
    (hbinder : SameAt s body.note body'.note) (hbody : SameAt r body.note body'.note) :
    SameAt r (letAnalysis s value body) (letAnalysis s value' body') := by
  unfold letAnalysis
  rw [hbinder.isUniform_eq, harity]
  refine SameAt.drop (SameAt.append ?_ hbody) s
  split
  · exact (SameAt.refl ..).append hvalue
  · exact (SameAt.refl ..).appendCalls hvalue

/-- `letRecAnalysis` records the same of `r`, if the decision on the group is the same. -/
theorem sameAt_letRecAnalysis {members : List Ref} {f g : Expr → Analyzed} {ts : List Expr}
    (hloop : (verdict members (ts.map f)).isLoop = (verdict members (ts.map g)).isLoop)
    (hts : ∀ t ∈ ts, SameAt r (f t).note (g t).note) (hbody : SameAt r body.note body'.note) :
    SameAt r (letRecAnalysis members (ts.map f) body)
      (letRecAnalysis members (ts.map g) body') := by
  have hall := (((SameAt.refl r .empty).appendAllCalls hts).append hbody).dropAll members
  unfold letRecAnalysis
  rw [hloop]
  refine SameAt.withLoop ?_ _ _
  split
  · exact hall
  · exact hall.noTailCalls

end

/-! ## Analysed terms -/

/-- What the summary of `t` records of a reference does not depend on the other candidates. -/
def Term.RecordsLocally (t : Expr) : Prop :=
  ∀ (c c' : Candidates) (r : Ref), c.Shares c' r →
    SameAt r (analyze c t).note (analyze c' t).note

/-- `groupRefs` are references to binders. -/
theorem isBound_of_mem_groupRefs {α : Type} {level : UInt32} {bindings : List (String × α)}
    {r : Ref} (h : r ∈ groupRefs level bindings) : r.isBound = true := by
  obtain ⟨b, -, rfl⟩ := List.mem_map.1 h
  rfl

/-- The decision on a recursive group inside a term does not depend on the candidates around it,
because its own members are candidates of both. -/
theorem verdict_groupRefs_congr {level : UInt32} {bindings : List (String × Expr)}
    (h : ∀ body ∈ (bindings.map Prod.snd).filterMap Term.body?, body.RecordsLocally)
    (c c' : Candidates) :
    let members := groupRefs level bindings
    (verdict members ((bindings.map Prod.snd).map (analyze (c.extend members)))).isLoop =
      (verdict members ((bindings.map Prod.snd).map (analyze (c'.extend members)))).isLoop :=
  verdict_isLoop_congr (by simp [groupRefs]) fun _ hr body hbody =>
    h body hbody _ _ _ (Candidates.shares_extend hr (isBound_of_mem_groupRefs hr))

/-- A bare reference records the same of `r`. -/
theorem sameAt_ref {c c' : Candidates} {r : Ref} (h : c.Shares c' r) (t : Expr) :
    SameAt r ((c.ref? t).elim .empty fun s => c.occurrence s 0)
      ((c'.ref? t).elim .empty fun s => c'.occurrence s 0) := by
  have href := h.ref?_iff t
  simp only [Candidates.ref?, Option.map_eq_some_iff] at href ⊢
  cases ht : t.ref? with
  | none => exact .refl ..
  | some s =>
    simp only [ht, Option.some.injEq, exists_eq_left'] at href
    exact h.occurrence href 0

/-- `t` records locally if its children do and, where these are functions, their bodies. -/
theorem Term.RecordsLocally.of_children {t : Expr} (ih : ∀ s ∈ t.children, s.RecordsLocally)
    (ihBodies : ∀ s ∈ t.children, ∀ body, s.body? = some body → body.RecordsLocally) :
    t.RecordsLocally := by
  intro c c' r h
  -- Where nothing is bound, children have the same candidates.
  have hchild (s : Expr) (hs : s ∈ t.children) : SameAt r (analyze c s).note (analyze c' s).note :=
    ih s hs c c' r h
  have hlist (a a' : Analysis) (ha : SameAt r a a') (ts : List Expr)
      (hts : ∀ s ∈ ts, s ∈ t.children) :
      SameAt r (a.appendAllCalls (ts.map (analyze c))) (a'.appendAllCalls (ts.map (analyze c'))) :=
    ha.appendAllCalls fun s hs => hchild s (hts s hs)
  have hfields (a a' : Analysis) (ha : SameAt r a a') (fields : List (String × Expr))
      (hts : ∀ f ∈ fields, f.2 ∈ t.children) :
      SameAt r (a.appendAllCalls ((analyzeFields c fields).map Prod.snd))
        (a'.appendAllCalls ((analyzeFields c' fields).map Prod.snd)) := by
    simp only [analyzeFields_eq_map, List.map_map]
    exact ha.appendAllCalls fun f hf => hchild f.2 (hts f hf)
  have hempty : SameAt r .empty .empty := .refl ..
  cases t with
  | global _ q => exact sameAt_ref h (.global () q)
  | bound _ b => exact sameAt_ref h (.bound () b)
  | lit | constructor | undefined | fail => exact hempty
  | array _ items =>
    simp only [analyze, analyzeList_eq_map]
    exact hlist _ _ hempty items fun s hs => hs
  | record _ fields | construct _ _ _ fields =>
    exact hfields _ _ hempty fields fun f hf => List.mem_map_of_mem hf
  | app _ calling head args =>
    have hargs : ∀ s ∈ args, s ∈ (app () calling head args).children := fun s hs =>
      List.mem_cons_of_mem _ hs
    have hhead := hempty.appendCalls (hchild head (List.mem_cons_self ..))
    simp only [analyze, analyzeList_eq_map]
    refine hlist _ _ ?_ args hargs
    cases calling with
    | uncurried | effectful => exact hhead
    | curried =>
      -- The head is a reference in both analyses or in none, but it may be another one in each.
      have href := h.ref?_iff head
      have hsome : (c.ref? head).isSome = (c'.ref? head).isSome := by
        simp only [Candidates.ref?, Option.isSome_map]
      cases hc : c.ref? head with
      | none =>
        rw [hc, Option.isSome_none, eq_comm, Option.isSome_eq_false_iff, Option.isNone_iff_eq_none]
          at hsome
        simp only [hsome]
        exact hhead
      | some s =>
        rw [hc, Option.isSome_some, eq_comm, Option.isSome_iff_exists] at hsome
        obtain ⟨s', hs'⟩ := hsome
        rw [hc, hs', Option.some.injEq, Option.some.injEq] at href
        simp only [hs']
        exact h.occurrence href _
  | abs | access | pureEffect | deferEffect | test | unary =>
    exact hempty.appendCalls (hchild _ (List.mem_singleton.2 rfl))
  | update _ subject fields =>
    exact hfields _ _ (hempty.appendCalls (hchild subject (List.mem_cons_self ..))) fields
      fun f hf => List.mem_cons_of_mem _ (List.mem_map_of_mem hf)
  | bindEffect | binary =>
    exact (hempty.appendCalls (hchild _ (by simp [children]))).appendCalls
      (hchild _ (by simp [children]))
  | letIn _ b value body =>
    have hbody := ih body (by simp [children]) (c.extend [.bound b]) (c'.extend [.bound b])
    exact sameAt_letAnalysis (hchild value (by simp [children])) (by simp)
      (hbody _ (Candidates.shares_extend (List.mem_singleton.2 rfl) rfl)) (hbody r (h.extend _))
  | letRec _ level bindings body =>
    have hbindings (c : Candidates) : (analyzeFields c bindings).map Prod.snd =
        (bindings.map Prod.snd).map (analyze c) := by simp
    have hmem : ∀ s ∈ bindings.map Prod.snd, s ∈ (letRec () level bindings body).children :=
      fun s hs => List.mem_append_left _ hs
    simp only [analyze, note, hbindings]
    -- The decision looks at the bodies of the functions, which are not children of the group.
    refine sameAt_letRecAnalysis (verdict_groupRefs_congr ?_ c c') ?_ ?_
    · intro body hbody
      obtain ⟨s, hs, hbody⟩ := List.mem_filterMap.1 hbody
      exact ihBodies s (hmem s hs) body hbody
    · exact fun s hs => ih s (hmem s hs) _ _ r (h.extend _)
    · exact ih body (by simp [children]) _ _ r (h.extend _)
  | branch _ arms default =>
    have hmem (x : Expr × Expr) (hx : x ∈ arms) (s : Expr) (hs : s ∈ [x.1, x.2]) :
        s ∈ (branch () arms default).children :=
      List.mem_append_left _ (List.mem_flatMap.2 ⟨x, hx, hs⟩)
    simp only [analyze, analyzeArms_eq_map]
    refine (sameAt_armsAnalysis fun x hx => ?_).append (hchild default (by simp [children]))
    exact ⟨hchild x.1 (hmem x hx _ (by simp)), hchild x.2 (hmem x hx _ (by simp))⟩

/-- By induction on `t`: all terms record locally, and so do the bodies of functions, which
decisions look at. -/
theorem recordsLocally (t : Expr) :
    t.RecordsLocally ∧ ∀ body, t.body? = some body → body.RecordsLocally := by
  -- The bodies are carried along, since they lie one step deeper than the children of a group.
  induction t using Term.children_induction with
  | step t ih =>
  refine ⟨.of_children (fun s hs => (ih s hs).1) fun s hs => (ih s hs).2, fun body hbody => ?_⟩
  cases t with
  | abs _ calling params s =>
    cases calling with
    | curried =>
      obtain rfl := Option.some.inj hbody
      exact (ih s (List.mem_singleton.2 rfl)).1
    | _ => cases hbody
  | _ => cases hbody

/-! ## Decisions -/

namespace Term

variable {α β : Type} (f : α → β)

/-- `mapList` goes through `ts` one by one. -/
@[simp] theorem mapList_eq_map (ts : List (Term α)) : mapList f ts = ts.map (map f) := by
  induction ts with
  | nil => rfl
  | cons t ts ih => rw [mapList, ih, List.map_cons]

/-- `mapFields` goes through `fields` one by one. -/
@[simp] theorem mapFields_eq_map (fields : List (String × Term α)) :
    mapFields f fields = fields.map fun x => (x.1, x.2.map f) := by
  induction fields with
  | nil => rfl
  | cons x fields ih => rw [mapFields, ih, List.map_cons]

/-- `mapArms` goes through `arms` one by one. -/
@[simp] theorem mapArms_eq_map (arms : List (Term α × Term α)) :
    mapArms f arms = arms.map fun arm => (arm.1.map f, arm.2.map f) := by
  induction arms with
  | nil => rfl
  | cons arm arms ih => rw [mapArms, ih, List.map_cons]

end Term

/-- `analyze` adds summaries and changes nothing else. -/
theorem erase_analyze (c : Candidates) (t : Expr) : (analyze c t).erase = t := by
  induction t using Term.children_induction generalizing c with
  | step t ih =>
  -- for all candidates, since they change below bindings
  have hlist (c : Candidates) (ts : List Expr) (hts : ∀ s ∈ ts, s ∈ t.children) :
      ts.map (fun s => (analyze c s).erase) = ts := by
    conv_rhs => rw [← List.map_id ts]
    exact List.map_congr_left fun s hs => ih s (hts s hs) c
  have hfields (c : Candidates) (fields : List (String × Expr))
      (hts : ∀ f ∈ fields, f.2 ∈ t.children) :
      fields.map (fun f => (f.1, (analyze c f.2).erase)) = fields := by
    conv_rhs => rw [← List.map_id fields]
    exact List.map_congr_left fun f hf => Prod.ext rfl (ih f.2 (hts f hf) c)
  have harms (arms : List (Expr × Expr))
      (hts : ∀ arm ∈ arms, arm.1 ∈ t.children ∧ arm.2 ∈ t.children) :
      arms.map (fun arm => ((analyze c arm.1).erase, (analyze c arm.2).erase)) = arms := by
    conv_rhs => rw [← List.map_id arms]
    exact List.map_congr_left fun arm harm =>
      Prod.ext (ih arm.1 (hts arm harm).1 c) (ih arm.2 (hts arm harm).2 c)
  cases t with
  | global | bound | lit | constructor | undefined | fail => rfl
  | array _ items =>
    simpa [analyze, Term.erase, Term.map, Function.comp_def] using hlist c items fun s hs => hs
  | record _ fields | construct _ _ _ fields =>
    simpa [analyze, Term.erase, Term.map, Function.comp_def] using
      hfields c fields fun f hf => List.mem_map_of_mem hf
  | app _ calling head args =>
    simpa [analyze, Term.erase, Term.map] using
      ⟨ih head (List.mem_cons_self ..) c, hlist c args fun s hs => List.mem_cons_of_mem _ hs⟩
  | abs | access | pureEffect | deferEffect | test | unary =>
    simpa [analyze, Term.erase, Term.map] using ih _ (List.mem_singleton.2 rfl) c
  | update _ subject fields =>
    simpa [analyze, Term.erase, Term.map] using
      ⟨ih subject (List.mem_cons_self ..) c,
        hfields c fields fun f hf => List.mem_cons_of_mem _ (List.mem_map_of_mem hf)⟩
  | letIn _ b value body =>
    simpa [analyze, Term.erase, Term.map] using
      ⟨ih value (by simp [Term.children]) c, ih body (by simp [Term.children]) _⟩
  | bindEffect _ _ left right | binary _ _ left right =>
    simpa [analyze, Term.erase, Term.map] using
      ⟨ih left (by simp [Term.children]) c, ih right (by simp [Term.children]) c⟩
  | letRec _ level bindings body =>
    simpa [analyze, Term.erase, Term.map] using
      ⟨hfields _ bindings fun f hf => List.mem_append_left _ (List.mem_map_of_mem hf),
        ih body (by simp [Term.children]) _⟩
  | branch _ arms default =>
    have hmem (x : Expr × Expr) (hx : x ∈ arms) (s : Expr) (hs : s ∈ [x.1, x.2]) :
        s ∈ (Term.branch () arms default).children :=
      List.mem_append_left _ (List.mem_flatMap.2 ⟨x, hx, hs⟩)
    simpa [analyze, Term.erase, Term.map] using
      ⟨harms arms fun x hx => ⟨hmem x hx _ (by simp), hmem x hx _ (by simp)⟩,
        ih default (by simp [Term.children]) c⟩

/-- `appendAllCalls` flags nothing. -/
theorem isLoop_appendAllCalls {a : Analysis} (h : a.isLoop = false) (ts : List Analyzed) :
    (a.appendAllCalls ts).isLoop = false := by
  induction ts generalizing a with
  | nil => exact h
  | cons t ts ih => exact ih (a := a.appendCalls t.note) rfl

/-- `occurrence` flags nothing. -/
theorem isLoop_occurrence (c : Candidates) (r : Ref) (k : Nat) :
    (c.occurrence r k).isLoop = false := by
  unfold Candidates.occurrence
  split <;> rfl

/-- Only recursive groups are flagged as loops. -/
theorem isLoop_analyze_eq_false (c : Candidates) {t : Expr}
    (h : ∀ level bindings body, t ≠ .letRec () level bindings body) :
    (analyze c t).note.isLoop = false := by
  have href (r? : Option Ref) :
      (r?.elim Analysis.empty fun r => c.occurrence r 0).isLoop = false := by
    cases r? with
    | none => rfl
    | some r => exact isLoop_occurrence c r 0
  cases t with
  | global _ q => exact href (c.ref? (.global () q))
  | bound _ b => exact href (c.ref? (.bound () b))
  | app _ calling head args =>
    refine isLoop_appendAllCalls ?_ _
    split
    · exact isLoop_occurrence ..
    · rfl
  | array | record | construct | update => exact isLoop_appendAllCalls rfl _
  | letRec _ level bindings body => exact absurd rfl (h level bindings body)
  | _ => rfl

/-- The flag of the root of `t` does not depend on the candidates. -/
theorem isLoop_analyze_congr (c c' : Candidates) (t : Expr) :
    (analyze c t).note.isLoop = (analyze c' t).note.isLoop := by
  cases t with
  | letRec _ level bindings body =>
    have hbindings (c : Candidates) : (analyzeFields c bindings).map Prod.snd =
        (bindings.map Prod.snd).map (analyze c) := by simp
    simp only [analyze, Term.note, hbindings]
    refine verdict_groupRefs_congr (fun body hbody => ?_) c c'
    obtain ⟨s, -, hbody⟩ := List.mem_filterMap.1 hbody
    exact (recordsLocally s).2 body hbody
  | _ =>
    rw [isLoop_analyze_eq_false c (by simp), isLoop_analyze_eq_false c' (by simp)]

/-- All decisions on recursive groups inside a term are the same in any two analyses of it. The
analyses are the term with summaries, only recursive groups are flagged as loops, and at every
position the flags coincide. What the summary at a position records of a reference that is a
candidate of both analyses coincides as well, whatever the other candidates are. -/
theorem loop_decisions_local (c c' : Candidates) (t : Expr) :
    (analyze c t).erase = t ∧
      (∀ p, ((analyze c t).at? p).map (fun s => s.note.isLoop) =
        ((analyze c' t).at? p).map fun s => s.note.isLoop) ∧
      (∀ p s, (analyze c t).at? p = some s → s.note.isLoop = true →
        ∃ a level bindings body, s = .letRec a level bindings body) ∧
      ∀ r, c.Shares c' r → ∀ p,
        ((analyze c t).at? p).map (fun s => (s.note.callOf? r, s.note.tailCalls.get? r)) =
          ((analyze c' t).at? p).map fun s => (s.note.callOf? r, s.note.tailCalls.get? r) := by
  refine ⟨erase_analyze c t, fun p => ?_, fun p s hs hloop => ?_, fun r h p => ?_⟩
  · simp only [Term.at?_analyze, Option.map_map]
    exact congrArg (Option.map · _) (funext fun s => isLoop_analyze_congr _ _ s)
  · rw [Term.at?_analyze, Option.map_eq_some_iff] at hs
    obtain ⟨u, -, rfl⟩ := hs
    by_contra hno
    rw [isLoop_analyze_eq_false] at hloop
    · cases hloop
    · rintro level bindings body rfl
      exact hno ⟨_, _, _, _, rfl⟩
  · simp only [Term.at?_analyze, Option.map_map]
    refine congrArg (Option.map · _) (funext fun s => ?_)
    have hsame := (recordsLocally s).1 _ _ r (h.inside t p)
    exact Prod.ext hsame.calls hsame.tails

/-- A loop in which `f` is called in tail position, and `f` again after the loop. -/
def searchLoop : Expr :=
  let n : Binder := ⟨some "n", 1⟩
  let go : Expr := .bound () ⟨some "go", 0⟩
  let f : Expr := .global () ⟨none, "f"⟩
  .letRec () 0
    [("go", .abs () .curried [n]
      (.branch () [(.test () (.bound () n) (.int 0), .app () .curried f [.bound () n])]
        (.app () .curried go [.binary () .sub (.bound () n) (.lit () (.int 1))])))]
    (.app () .curried f [.app () .curried go [.lit () (.int 10)]])

/-- The calls of `f` are the same whether or not the variables of the loop are counted as well. -/
theorem loop_decisions_local_searchLoop :
    let f : Ref := .global ⟨some "Main", "f"⟩
    let c : Candidates := ⟨some "Main", [f]⟩
    let c' : Candidates := ⟨some "Main", [.bound ⟨some "n", 1⟩, .bound ⟨some "go", 0⟩, f]⟩
    c.Shares c' f ∧
      ((analyze c' searchLoop).at? []).map
          (fun s => (s.note.callOf? f, s.note.tailCalls.get? f)) =
        some (some ⟨2, [1], by decide⟩, some 1) := by
  intro f c c'
  have hshares : c.Shares c' f := ⟨by decide, by decide, .inr rfl⟩
  have hleft : ((analyze c searchLoop).at? []).map
      (fun s => (s.note.callOf? f, s.note.tailCalls.get? f)) =
        some (some ⟨2, [1], by decide⟩, some 1) := by decide
  exact ⟨hshares, ((loop_decisions_local c c' searchLoop).2.2.2 f hshares []).symm.trans hleft⟩

end TailLoop
