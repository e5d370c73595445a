import TailLoop.Proofs.Positions

/-!
# What summaries count

The summary of an analysed term has, for every candidate that is not bound again inside the term,
exactly the calls of that candidate: their number, their numbers of arguments, and the number of
those in tail position.

* `Analysis.Counts`: a summary counts these calls of a reference.
* `counts_analyze`: the summary of a term counts its call sites.
-/

namespace TailLoop

/-! ## Calls of one reference -/

namespace Call

/-- `addArity` keeps the number of calls. -/
theorem count_foldl_addArity (c : Call) (ns : List Nat) :
    (ns.foldl addArity c).count = c.count := by
  induction ns generalizing c with
  | nil => rfl
  | cons n ns ih =>
    rw [List.foldl_cons, ih]
    rfl

/-- `addArity`, for each of `ns`, adds them to the numbers recorded. -/
theorem mem_arities_foldl_addArity (c : Call) (ns : List Nat) (k : Nat) :
    k ∈ (ns.foldl addArity c).arities ↔ k ∈ c.arities ∨ k ∈ ns := by
  induction ns generalizing c with
  | nil => simp
  | cons n ns ih =>
    rw [List.foldl_cons, ih, addArity, mem_insertAscending, List.mem_cons]
    constructor
    · rintro ((h | h) | h)
      · exact .inr (.inl h)
      · exact .inl h
      · exact .inr (.inr h)
    · rintro (h | h | h)
      · exact .inl (.inr h)
      · exact .inl (.inl h)
      · exact .inr h

/-- `append` adds numbers of calls. -/
@[simp] theorem count_append (c d : Call) : (c.append d).count = c.count + d.count :=
  count_foldl_addArity _ _

/-- `append` collects numbers of arguments. -/
@[simp] theorem mem_arities_append (c d : Call) (k : Nat) :
    k ∈ (c.append d).arities ↔ k ∈ c.arities ∨ k ∈ d.arities :=
  mem_arities_foldl_addArity _ _ _

end Call

/-! ## Summaries -/

namespace Analysis

/-- The record `calls` stands for calls with the numbers of arguments `ks`, a missing one for
none. -/
def Lists (calls : Option Call) (ks : List Nat) : Prop :=
  match calls with
  | none => ks = []
  | some c => ks ≠ [] ∧ c.count = ks.length ∧ ∀ k, k ∈ c.arities ↔ k ∈ ks

/-- A summary counts, for the reference `r`, calls with these numbers of arguments, `n` of them in
tail position. -/
structure Counts (a : Analysis) (r : Ref) (ks : List Nat) (n : Nat) : Prop where
  /-- The calls are recorded. -/
  lists : Lists (a.callOf? r) ks
  /-- The tail calls are counted. -/
  tail : a.tailCallsOf r = n

variable {a b : Analysis} {r r' : Ref} {ks ls : List Nat} {n n' : Nat}

/-- `empty` counts nothing. -/
theorem counts_empty (r : Ref) : empty.Counts r [] 0 := ⟨rfl, rfl⟩

/-- `appendCalls` records the calls of both summaries. -/
theorem lists_appendCalls (ha : Lists (a.callOf? r) ks) (hb : Lists (b.callOf? r) ls) :
    Lists ((a.appendCalls b).callOf? r) (ks ++ ls) := by
  simp only [callOf?, appendCalls, Table.get?_combine]
  simp only [callOf?] at ha hb
  -- a reference that one summary does not know has the record of the other
  cases hca : a.calls.get? r with
  | none =>
    rw [hca] at ha
    obtain rfl : ks = [] := ha
    cases hcb : b.calls.get? r with
    | none =>
      rw [hcb] at hb
      exact hb
    | some d =>
      rw [hcb] at hb
      obtain ⟨hne, hcount, hmem⟩ := hb
      refine ⟨hne, ?_, fun k => ?_⟩
      · simp [Call.none, hcount]
      · simp [Call.none, hmem]
  | some c =>
    rw [hca] at ha
    obtain ⟨hne, hcount, hmem⟩ := ha
    cases hcb : b.calls.get? r with
    | none =>
      rw [hcb] at hb
      obtain rfl : ls = [] := hb
      rw [List.append_nil]
      exact ⟨hne, hcount, hmem⟩
    | some d =>
      rw [hcb] at hb
      obtain ⟨hne', hcount', hmem'⟩ := hb
      refine ⟨by simp [hne], ?_, fun k => ?_⟩
      · simp [hcount, hcount']
      · simp [hmem, hmem']

/-- `appendCalls` adds the calls of `b`. -/
theorem Counts.appendCalls (ha : a.Counts r ks n) (hb : b.Counts r ls n') :
    (a.appendCalls b).Counts r (ks ++ ls) n :=
  ⟨lists_appendCalls ha.lists hb.lists, ha.tail⟩

/-- `append` adds the calls and the tail calls of `b`. -/
theorem Counts.append (ha : a.Counts r ks n) (hb : b.Counts r ls n') :
    (a.append b).Counts r (ks ++ ls) (n + n') := by
  refine ⟨lists_appendCalls ha.lists hb.lists, ?_⟩
  have hta := ha.tail
  have htb := hb.tail
  simp only [tailCallsOf] at hta htb
  simp only [tailCallsOf, Analysis.append, Table.get?_combine]
  cases hb' : b.tailCalls.get? r with
  | none =>
    rw [hb'] at htb
    simp only [Option.getD_none] at htb
    simp [← htb, hta]
  | some k =>
    rw [hb'] at htb
    simp only [Option.getD_some] at htb
    simp [← htb, hta]

/-- `drop` keeps the calls of the references other than `r'`. -/
theorem Counts.drop (ha : a.Counts r ks n) (hne : r ≠ r') : (a.drop r').Counts r ks n := by
  refine ⟨?_, ?_⟩
  · rw [callOf?, Analysis.drop, Table.get?_erase, if_neg hne]
    exact ha.lists
  · rw [tailCallsOf, Analysis.drop, Table.get?_erase, if_neg hne]
    exact ha.tail

/-- `dropAll` keeps the calls of the references that are not among `rs`. -/
theorem Counts.dropAll {rs : List Ref} (ha : a.Counts r ks n) (hr : r ∉ rs) :
    (a.dropAll rs).Counts r ks n := by
  induction rs generalizing a with
  | nil => exact ha
  | cons r' rs ih =>
    rw [List.mem_cons, not_or] at hr
    exact ih (ha.drop hr.1) hr.2

/-- `noTailCalls` keeps the calls. -/
theorem Counts.noTailCalls (ha : a.Counts r ks n) : a.noTailCalls.Counts r ks 0 :=
  ⟨ha.lists, rfl⟩

/-- The flag `isLoop` does not matter to what is counted. -/
theorem Counts.withLoop (ha : a.Counts r ks n) (isLoop : Bool) :
    ({ a with isLoop := isLoop } : Analysis).Counts r ks n := ⟨ha.lists, ha.tail⟩

/-- `appendAllCalls` adds the calls of all terms `ts`. -/
theorem Counts.appendAllCalls {ts : List Analyzed} {sizes : Analyzed → List Nat}
    {tails : Analyzed → Nat} (ha : a.Counts r ks n)
    (hts : ∀ t ∈ ts, t.note.Counts r (sizes t) (tails t)) :
    (a.appendAllCalls ts).Counts r (ks ++ ts.flatMap sizes) n := by
  induction ts generalizing a ks with
  | nil => simpa [Analysis.appendAllCalls] using ha
  | cons t ts ih =>
    have hstep := ha.appendCalls (hts t (List.mem_cons_self ..))
    have := ih hstep fun u hu => hts u (List.mem_cons_of_mem _ hu)
    simpa [Analysis.appendAllCalls, List.append_assoc] using this

end Analysis

/-- Uniform calls have one record, of `k` arguments, at least one, and are all tail calls. -/
theorem Analysis.checkUniform_eq_ok_iff {a : Analysis} {r : Ref} {k : Nat} :
    a.checkUniform r k = .ok () ↔
      ∃ c, a.callOf? r = some c ∧ c.arities = [k] ∧ k ≠ 0 ∧ c.count = a.tailCallsOf r := by
  unfold checkUniform
  constructor
  · intro h
    split at h
    · cases h
    · rename_i c hc
      split at h
      · cases h
      · rename_i found hfound
        split at h
        · cases h
        · split at h
          · cases h
          · split at h
            · cases h
            · rename_i hzero hk hcount
              simp only [ne_eq, Decidable.not_not] at hk hcount
              exact ⟨c, hc, by rw [hfound, hk], hk ▸ hzero, hcount⟩
      · cases h
  · rintro ⟨c, hc, hk, hzero, hcount⟩
    simp [hc, hk, hzero, hcount]

/-- `isUniform` holds if `checkUniform` finds nothing wrong. -/
theorem Analysis.isUniform_iff {a : Analysis} {r : Ref} {k : Nat} :
    a.isUniform r k = true ↔ a.checkUniform r k = .ok () := by
  unfold isUniform
  split <;> simp_all

/-! ## Numbers of arguments and of tail calls -/

namespace Term

/-- The numbers of arguments of the calls of `r`. -/
def callSizes (m : Option String) (r : Ref) (t : Analyzed) : List Nat :=
  (t.callSites m r).map CallSite.args

/-- The number of tail calls of `r`. -/
def tailCount (m : Option String) (r : Ref) (t : Analyzed) : Nat :=
  (t.callSites m r).countP CallSite.tail

/-- The numbers of arguments in `t` are those at the root and those in the `searched` children. -/
theorem callSizes_eq (m : Option String) (r : Ref) (t : Analyzed) :
    t.callSizes m r = (t.rootCalls m r).map CallSite.args ++
      t.searched.flatMap fun x => x.1.callSizes m r := by
  rw [callSizes, callSites_eq, List.map_append, List.map_flatMap]
  congr 2
  funext x
  rw [List.map_map]
  rfl

/-- The tail calls in `t` are those at the root and those in the children that stay in tail
position. -/
theorem tailCount_eq (m : Option String) (r : Ref) (t : Analyzed) :
    t.tailCount m r = (t.rootCalls m r).countP CallSite.tail +
      (t.searched.map fun x => if t.keepsTail x.2 then x.1.tailCount m r else 0).sum := by
  rw [tailCount, callSites_eq, List.countP_append, List.countP_flatMap]
  congr 3
  funext x
  rw [Function.comp_apply, List.countP_map]
  cases hk : t.keepsTail x.2 with
  | false =>
    simp only [Bool.false_eq_true, if_false]
    exact List.countP_eq_zero.2 fun y _ => by simp [CallSite.below]
  | true =>
    simp only [if_true, tailCount]
    congr 1

/-- Without calls at the root of `t`, the numbers of arguments are those in the children. -/
theorem callSizes_of_children {m : Option String} {r : Ref} {t : Analyzed}
    (hroot : t.rootCalls m r = []) (happ : t.appliesRef = false) :
    t.callSizes m r = t.children.flatMap (callSizes m r) := by
  rw [callSizes_eq, hroot, searched_of_not_appliesRef happ]
  conv => rhs; rw [← List.zipIdx_map_fst 0 t.children, List.flatMap_map]
  rfl

/-- Without calls at the root of `t` and children in tail position, there are no tail calls. -/
theorem tailCount_eq_zero {m : Option String} {r : Ref} {t : Analyzed}
    (hroot : t.rootCalls m r = []) (hkeep : ∀ i, t.keepsTail i = false) : t.tailCount m r = 0 := by
  rw [tailCount_eq, hroot]
  simp [hkeep, List.map_const']

/-- The tail calls of `letIn` are those of its `body`. -/
theorem tailCount_letIn (m : Option String) (r : Ref) (a : Analysis) (b : Binder)
    (value body : Analyzed) : (letIn a b value body).tailCount m r = body.tailCount m r := by
  rw [tailCount_eq, searched_of_not_appliesRef rfl]
  simp [rootCalls, refIn?, Candidates.ref?, ref?, children, keepsTail]

/-- The tail calls of `letRec` are those of its `body`, if it is a loop. -/
theorem tailCount_letRec (m : Option String) (r : Ref) (a : Analysis) (level : UInt32)
    (bindings : List (String × Analyzed)) (body : Analyzed) :
    (letRec a level bindings body).tailCount m r =
      if a.isLoop then body.tailCount m r else 0 := by
  have hbinding (x : Analyzed × Nat) (hx : x ∈ (bindings.map Prod.snd).zipIdx) :
      (if (letRec a level bindings body).keepsTail x.2 then x.1.tailCount m r else 0) = 0 := by
    obtain ⟨s, i⟩ := x
    have hi : i < bindings.length := by simpa using (List.mem_zipIdx hx).2.1
    rw [if_neg]
    simp [keepsTail, Nat.ne_of_lt hi]
  have hsum : ((bindings.map Prod.snd).zipIdx.map fun x =>
      if (letRec a level bindings body).keepsTail x.2 then x.1.tailCount m r else 0).sum = 0 := by
    rw [List.map_congr_left hbinding]
    simp [List.map_const']
  rw [tailCount_eq, searched_of_not_appliesRef rfl, children, List.zipIdx_append, List.map_append,
    List.sum_append, hsum]
  simp [rootCalls, refIn?, Candidates.ref?, ref?, keepsTail]

/-- The tail calls of `branch` are those of the bodies of its arms and of its default. -/
theorem tailCount_branch (m : Option String) (r : Ref) (a : Analysis)
    (arms : List (Analyzed × Analyzed)) (default : Analyzed) :
    (branch a arms default).tailCount m r =
      (arms.map fun arm => arm.2.tailCount m r).sum + default.tailCount m r := by
  -- the numbers of the children of `rest` start at the even number `k`
  have aux (keep : Nat → Bool) (k : Nat) (rest : List (Analyzed × Analyzed)) (hk : k % 2 = 0)
      (hkeep : ∀ i < k + 2 * rest.length, keep i = decide (i % 2 = 1)) :
      (((rest.flatMap fun arm => [arm.1, arm.2]).zipIdx k).map fun x =>
          if keep x.2 then x.1.tailCount m r else 0).sum =
        (rest.map fun arm => arm.2.tailCount m r).sum := by
    induction rest generalizing k with
    | nil => rfl
    | cons arm rest ih =>
      rw [List.length_cons] at hkeep
      have hrest := ih (k + 2) (by omega) fun i hi => hkeep i (by omega)
      have hcond : keep k = false := by rw [hkeep k (by omega)]; simp [hk]
      have hbody : keep (k + 1) = true := by
        rw [hkeep (k + 1) (by omega)]
        exact decide_eq_true (by omega)
      simp only [List.flatMap_cons, List.cons_append, List.nil_append, List.zipIdx_cons,
        List.map_cons, List.sum_cons, hrest, hcond, hbody]
      simp
  have harms := aux (branch a arms default).keepsTail 0 arms rfl fun i hi => by
    simp only [keepsTail]
    rw [decide_eq_false (p := i = 2 * arms.length) (by omega), Bool.or_false]
  have hdefault : (branch a arms default).keepsTail (2 * arms.length) = true := by
    simp [keepsTail]
  rw [tailCount_eq, searched_of_not_appliesRef rfl, children, List.zipIdx_append, List.map_append,
    List.sum_append, harms, length_flatMap_arms]
  simp [rootCalls, refIn?, Candidates.ref?, ref?, hdefault]

end Term

/-! ## Analysed terms -/

/-- `analyzeList` goes through `ts` one by one. -/
@[simp] theorem analyzeList_eq_map (c : Candidates) (ts : List Expr) :
    analyzeList c ts = ts.map (analyze c) := by
  induction ts with
  | nil => rfl
  | cons t ts ih => rw [analyzeList, ih, List.map_cons]

/-- `analyzeFields` goes through `fields` one by one. -/
@[simp] theorem analyzeFields_eq_map (c : Candidates) (fields : List (String × Expr)) :
    analyzeFields c fields = fields.map fun f => (f.1, analyze c f.2) := by
  induction fields with
  | nil => rfl
  | cons f fields ih => rw [analyzeFields, ih, List.map_cons]

/-- `analyzeArms` goes through `arms` one by one. -/
@[simp] theorem analyzeArms_eq_map (c : Candidates) (arms : List (Expr × Expr)) :
    analyzeArms c arms = arms.map fun a => (analyze c a.1, analyze c a.2) := by
  induction arms with
  | nil => rfl
  | cons a arms ih => rw [analyzeArms, ih, List.map_cons]

/-- The terms of an analysed top-level group are those of `g`, analysed with its own members as
candidates if it is recursive. -/
theorem BindingGroup.exists_of_mem_analyze {m : String} {g : BindingGroup} {t : Analyzed}
    (ht : t ∈ (g.analyze m).bindings.map Prod.snd) :
    ∃ b ∈ g.bindings,
      TailLoop.analyze ⟨some m, if g.recursive then topRefs m g.bindings else []⟩ b.2 = t := by
  simpa [BindingGroup.analyze] using ht

/-- An analysed top-level group has the names of `g`. -/
theorem BindingGroup.map_fst_analyze (m : String) (g : BindingGroup) :
    (g.analyze m).bindings.map Prod.fst = g.bindings.map Prod.fst := by
  simp [BindingGroup.analyze, Function.comp_def]

/-- The summary at the root of `t` counts the call sites of `r` in `t`. -/
def CountsSites (m : Option String) (r : Ref) (t : Analyzed) : Prop :=
  t.note.Counts r (t.callSizes m r) (t.tailCount m r)

/-- Where the summary of `t` adds those of its children, none of them in tail position, it counts
the call sites if they do. -/
theorem countsSites_of_children {m : Option String} {r : Ref} {t : Analyzed}
    (hnote : t.note = Analysis.empty.appendAllCalls t.children) (hroot : t.rootCalls m r = [])
    (happ : t.appliesRef = false) (hkeep : ∀ i, t.keepsTail i = false)
    (h : ∀ s ∈ t.children, CountsSites m r s) : CountsSites m r t := by
  rw [CountsSites, hnote, Term.callSizes_of_children hroot happ,
    Term.tailCount_eq_zero hroot hkeep]
  exact (Analysis.counts_empty r).appendAllCalls h

/-- `armsAnalysis`: conditions are not in tail position, bodies are. -/
theorem counts_armsAnalysis {m : Option String} {r : Ref} (arms : List (Analyzed × Analyzed))
    (h : ∀ arm ∈ arms, CountsSites m r arm.1 ∧ CountsSites m r arm.2) :
    (armsAnalysis arms).Counts r
      ((arms.flatMap fun arm => [arm.1, arm.2]).flatMap (Term.callSizes m r))
      (arms.map fun arm => arm.2.tailCount m r).sum := by
  have aux (a : Analysis) (ks : List Nat) (n : Nat) (ha : a.Counts r ks n) :
      (arms.foldl (fun a arm => (a.appendCalls arm.1.note).append arm.2.note) a).Counts r
        (ks ++ (arms.flatMap fun arm => [arm.1, arm.2]).flatMap (Term.callSizes m r))
        (n + (arms.map fun arm => arm.2.tailCount m r).sum) := by
    induction arms generalizing a ks n with
    | nil => simpa using ha
    | cons arm arms ih =>
      obtain ⟨hcond, hbody⟩ := h arm (List.mem_cons_self ..)
      have hstep := (ha.appendCalls hcond).append hbody
      have := ih (fun x hx => h x (List.mem_cons_of_mem _ hx)) _ _ _ hstep
      simpa [List.append_assoc, Nat.add_assoc] using this
  have := aux _ _ _ (Analysis.counts_empty r)
  rwa [List.nil_append, Nat.zero_add] at this

/-- `occurrence` counts one call of the candidate `r` if it is an occurrence of `r`. -/
theorem counts_occurrence {c : Candidates} {r r' : Ref} (hr : r ∈ c.refs) (k : Nat) :
    (c.occurrence r' k).Counts r (if r' = r then [k] else []) (if r' = r then 1 else 0) := by
  by_cases h : r' = r
  · subst h
    rw [Candidates.occurrence, if_pos hr, if_pos rfl, if_pos rfl]
    refine ⟨?_, ?_⟩
    · simp [Analysis.Lists, Analysis.callOf?, Analysis.call, Table.insert, Table.get?_alter,
        Call.single]
    · simp [Analysis.tailCallsOf, Analysis.call, Table.insert, Table.get?_alter]
  · rw [if_neg h, if_neg h, Candidates.occurrence]
    split
    · refine ⟨?_, ?_⟩
      · simp [Analysis.Lists, Analysis.callOf?, Analysis.call, Table.insert, Table.get?_alter,
          Ne.symm h]
      · simp [Analysis.tailCallsOf, Analysis.call, Table.insert, Table.get?_alter, Ne.symm h]
    · exact Analysis.counts_empty r

/-- A function has no tail calls outside itself. -/
theorem tailCallsOf_of_arity_pos {c : Candidates} {t : Expr} (h : 0 < (analyze c t).arity)
    (r : Ref) : (analyze c t).note.tailCallsOf r = 0 := by
  cases t with
  | abs _ calling params body => rfl
  | app _ calling head args => simp [analyze, Term.arity] at h
  | _ => simp [analyze, Term.arity] at h

/-- `analyze` keeps what `t` refers to. -/
@[simp] theorem ref?_analyze (c : Candidates) (t : Expr) : (analyze c t).ref? = t.ref? := by
  cases t <;> simp [analyze, Term.ref?]

/-- `analyze` keeps what `t` refers to in the module `m`. -/
@[simp] theorem refIn?_analyze (m : Option String) (c : Candidates) (t : Expr) :
    (analyze c t).refIn? m = t.refIn? m := by
  rw [Term.refIn?, Candidates.ref?, ref?_analyze]
  rfl

/-- A bare reference is one call without arguments. -/
theorem countsSites_of_ref {c : Candidates} {r r' : Ref} {t : Analyzed} (hr : r ∈ c.refs)
    (href : t.refIn? c.module = some r') (hnote : t.note = c.occurrence r' 0) :
    CountsSites c.module r t := by
  have hsome := Term.isSome_ref?_of_refIn? href
  have hchildren : t.searched = [] := by
    rw [Term.searched, Term.children_of_isSome_ref? hsome]
    rfl
  have hroot : t.rootCalls c.module r = if r' = r then [⟨[], 0, true⟩] else [] := by
    cases t with
    | global | bound => simp only [Term.rootCalls, href, Option.some.injEq]
    | _ => simp [Term.ref?] at hsome
  have hsizes : t.callSizes c.module r = if r' = r then [0] else [] := by
    rw [Term.callSizes_eq, hchildren, hroot]
    split <;> rfl
  have htails : t.tailCount c.module r = if r' = r then 1 else 0 := by
    rw [Term.tailCount_eq, hchildren, hroot]
    split <;> rfl
  rw [CountsSites, hnote, hsizes, htails]
  exact counts_occurrence hr 0

/-- An applied reference is one call with its arguments, in which there may be others. -/
theorem countsSites_of_appliedRef {c : Candidates} {r r' : Ref} {a : Analysis} {head : Analyzed}
    {args : List Analyzed} (hr : r ∈ c.refs) (href : head.refIn? c.module = some r')
    (hnote : a = (c.occurrence r' args.length).appendAllCalls args)
    (hargs : ∀ t ∈ args, CountsSites c.module r t) :
    CountsSites c.module r (.app a .curried head args) := by
  have hsearched : (Term.app a .curried head args).searched = args.zipIdx 1 :=
    Term.searched_of_appliedRef (Term.isSome_ref?_of_refIn? href)
  have hroot : (Term.app a .curried head args).rootCalls c.module r =
      if r' = r then [⟨[0], args.length, true⟩] else [] := by
    simp only [Term.rootCalls, href, Option.some.injEq]
  have hsizes : (Term.app a .curried head args).callSizes c.module r =
      (if r' = r then [args.length] else []) ++ args.flatMap (Term.callSizes c.module r) := by
    rw [Term.callSizes_eq, hsearched, hroot]
    congr 1
    · split <;> rfl
    · conv => rhs; rw [← List.zipIdx_map_fst 1 args, List.flatMap_map]
  have htails : (Term.app a .curried head args).tailCount c.module r = if r' = r then 1 else 0 := by
    rw [Term.tailCount_eq, hsearched, hroot]
    have hkeep (i : Nat) : (Term.app a .curried head args).keepsTail i = false := rfl
    simp only [hkeep, Bool.false_eq_true, if_false, List.map_const', List.sum_replicate_nat]
    split <;> rfl
  rw [CountsSites, hsizes, htails]
  exact hnote ▸ (counts_occurrence hr args.length).appendAllCalls hargs

/-- `branch` keeps the tail calls of bodies and default. -/
theorem countsSites_branch {m : Option String} {r : Ref} {arms : List (Analyzed × Analyzed)}
    {default : Analyzed} (harms : ∀ arm ∈ arms, CountsSites m r arm.1 ∧ CountsSites m r arm.2)
    (hdefault : CountsSites m r default) :
    CountsSites m r (.branch ((armsAnalysis arms).append default.note) arms default) := by
  rw [CountsSites, Term.callSizes_of_children rfl rfl, Term.tailCount_branch, Term.children,
    List.flatMap_append, List.flatMap_singleton]
  exact (counts_armsAnalysis arms harms).append hdefault

/-- `letIn` keeps the tail calls of its `body`. What is bound has none that count: only a function
can stay in tail position, and a function has no tail calls outside itself. -/
theorem countsSites_letIn {m : Option String} {r : Ref} {b : Binder} {c : Candidates} {value : Expr}
    {body : Analyzed} (hne : r ≠ .bound b) (hvalue : CountsSites m r (analyze c value))
    (hbody : CountsSites m r body) :
    CountsSites m r
      (.letIn (letAnalysis (.bound b) (analyze c value) body) b (analyze c value) body) := by
  have hbefore : (if body.note.isUniform (.bound b) (analyze c value).arity then
        Analysis.empty.append (analyze c value).note
      else Analysis.empty.appendCalls (analyze c value).note).Counts r
        ((analyze c value).callSizes m r) 0 := by
    split
    · rename_i huniform
      have harity : 0 < (analyze c value).arity := by
        obtain ⟨-, -, -, hne, -⟩ := Analysis.checkUniform_eq_ok_iff.1
          (Analysis.isUniform_iff.1 huniform)
        exact Nat.pos_of_ne_zero hne
      have hzero := tailCallsOf_of_arity_pos harity r
      have := (Analysis.counts_empty r).append hvalue
      rwa [← hvalue.tail, hzero, List.nil_append] at this
    · exact (Analysis.counts_empty r).appendCalls hvalue
  rw [CountsSites, Term.callSizes_of_children rfl rfl, Term.tailCount_letIn, Term.children,
    List.flatMap_cons, List.flatMap_singleton, ← Nat.zero_add (body.tailCount m r)]
  exact (hbefore.append hbody).drop hne

/-- `letRec` keeps the tail calls of its `body` if the group is a loop. -/
theorem countsSites_letRec {m : Option String} {r : Ref} {level : UInt32}
    {bindings : List (String × Analyzed)} {body : Analyzed} {members : List Ref}
    (hr : r ∉ members) (hbindings : ∀ t ∈ bindings.map Prod.snd, CountsSites m r t)
    (hbody : CountsSites m r body) :
    CountsSites m r (.letRec (letRecAnalysis members (bindings.map Prod.snd) body) level bindings
      body) := by
  have hall := (((Analysis.counts_empty r).appendAllCalls hbindings).append hbody).dropAll hr
  rw [List.nil_append, Nat.zero_add] at hall
  rw [CountsSites, Term.callSizes_of_children rfl rfl, Term.tailCount_letRec, Term.children,
    List.flatMap_append, List.flatMap_singleton]
  have hflag : (letRecAnalysis members (bindings.map Prod.snd) body).isLoop =
    (verdict members (bindings.map Prod.snd)).isLoop := rfl
  rw [hflag, Term.note, letRecAnalysis]
  cases (verdict members (bindings.map Prod.snd)).isLoop with
  | false => exact hall.noTailCalls.withLoop false
  | true => exact hall.withLoop true

/-- The analysis of an application counts its `head` with the arguments if the head names a
reference. Only then, and if it takes its arguments one by one, is it a call site of its own. -/
theorem countsSites_app {c : Candidates} {r : Ref} {calling : Calling} {head : Expr}
    {args : List Expr} (hr : r ∈ c.refs) (hhead : CountsSites c.module r (analyze c head))
    (hargs : ∀ s ∈ args.map (analyze c), CountsSites c.module r s) :
    CountsSites c.module r (analyze c (.app () calling head args)) := by
  have hall : ∀ s ∈ analyze c head :: args.map (analyze c), CountsSites c.module r s :=
    List.forall_mem_cons.2 ⟨hhead, hargs⟩
  cases calling with
  | uncurried | effectful =>
    simp only [analyze, analyzeList_eq_map]
    exact countsSites_of_children rfl rfl rfl (fun _ => rfl) hall
  | curried =>
    -- only a curried call of a candidate is a call site; its head is not counted again
    cases href : c.ref? head with
    | some r' =>
      have hhead : (analyze c head).refIn? c.module = some r' := by
        rw [refIn?_analyze]
        exact href
      simp only [analyze, analyzeList_eq_map, href]
      exact countsSites_of_appliedRef hr hhead (by rw [List.length_map]) hargs
    | none =>
      simp only [analyze, analyzeList_eq_map, href]
      have hno : head.ref? = none := Option.map_eq_none_iff.1 href
      have hnot : (analyze c head).refIn? c.module ≠ some r := by
        rw [refIn?_analyze, Term.refIn?]
        intro h
        cases href.symm.trans h
      refine countsSites_of_children rfl ?_ ?_ (fun _ => rfl) hall
      · rw [Term.rootCalls, if_neg hnot]
      · simp [Term.appliesRef, hno]

/-- The summary of `t` counts the call sites of every candidate `r` that is not bound again in
`t`. -/
theorem countsSites_analyze {r : Ref} (t : Expr) (c : Candidates) (hr : r ∈ c.refs)
    (hb : ¬t.Rebinds r) : CountsSites c.module r (analyze c t) := by
  induction t using Term.children_induction generalizing c with
  -- the reference is not bound anew below, so all children count their own sites
  | step t ih =>
  have hchild (s : Expr) (hs : s ∈ t.children) : CountsSites c.module r (analyze c s) :=
    ih s hs c hr (Term.not_rebinds_child hb hs)
  have hroot := Term.not_mem_letRefs hb
  cases t with
  | global _ q => exact countsSites_of_ref hr rfl rfl
  | bound _ b => exact countsSites_of_ref hr rfl rfl
  | lit | constructor | undefined | fail =>
    exact countsSites_of_children rfl rfl rfl (fun _ => rfl) (by simp [analyze, Term.children])
  | array _ items =>
    refine countsSites_of_children rfl rfl rfl (fun _ => rfl) ?_
    intro s hs
    simp only [analyze, Term.children, analyzeList_eq_map, List.mem_map] at hs
    obtain ⟨u, hu, rfl⟩ := hs
    exact hchild u hu
  | record _ fields | construct _ _ _ fields =>
    refine countsSites_of_children rfl rfl rfl (fun _ => rfl) ?_
    intro s hs
    simp only [analyze, Term.children, analyzeFields_eq_map, List.map_map, List.mem_map] at hs
    obtain ⟨f, hf, rfl⟩ := hs
    exact hchild f.2 (List.mem_map.2 ⟨f, hf, rfl⟩)
  | app _ calling head args =>
    refine countsSites_app hr (hchild head (List.mem_cons_self ..)) fun s hs => ?_
    obtain ⟨u, hu, rfl⟩ := List.mem_map.1 hs
    exact hchild u (List.mem_cons_of_mem _ hu)
  | abs | access | pureEffect | deferEffect | test | unary =>
    refine countsSites_of_children rfl rfl rfl (fun _ => rfl) ?_
    intro s hs
    simp only [analyze, Term.children, List.mem_singleton] at hs
    subst hs
    exact hchild _ (List.mem_singleton.2 rfl)
  | update _ subject fields =>
    refine countsSites_of_children rfl rfl rfl (fun _ => rfl) ?_
    intro s hs
    simp only [analyze, Term.children, analyzeFields_eq_map, List.map_map, List.mem_cons,
      List.mem_map] at hs
    rcases hs with rfl | ⟨f, hf, rfl⟩
    · exact hchild subject (List.mem_cons_self ..)
    · exact hchild f.2 (List.mem_cons_of_mem _ (List.mem_map.2 ⟨f, hf, rfl⟩))
  | bindEffect | binary =>
    refine countsSites_of_children rfl rfl rfl (fun _ => rfl) ?_
    intro s hs
    simp only [analyze, Term.children, List.mem_cons, List.not_mem_nil, or_false] at hs
    rcases hs with rfl | rfl
    · exact hchild _ (by simp [Term.children])
    · exact hchild _ (by simp [Term.children])
  -- the summaries of bodies are taken with the bound references known as well
  | letIn _ b value body =>
    have hbody : CountsSites c.module r (analyze (c.extend [.bound b]) body) :=
      ih body (by simp [Term.children]) (c.extend [.bound b]) (List.mem_append_right _ hr)
        (Term.not_rebinds_child hb (by simp [Term.children]))
    rw [analyze]
    exact countsSites_letIn (by simpa [Term.letRefs] using hroot)
      (hchild value (by simp [Term.children]))
      hbody
  | letRec _ level bindings body =>
    have hinner (s : Expr) (hs : s ∈ (Term.letRec () level bindings body).children) :
        CountsSites c.module r (analyze (c.extend (groupRefs level bindings)) s) :=
      ih s hs (c.extend (groupRefs level bindings)) (List.mem_append_right _ hr)
        (Term.not_rebinds_child hb hs)
    rw [analyze]
    refine countsSites_letRec hroot ?_ (hinner body (by simp [Term.children]))
    intro s hs
    simp only [analyzeFields_eq_map, List.map_map, List.mem_map] at hs
    obtain ⟨f, hf, rfl⟩ := hs
    refine hinner f.2 ?_
    rw [Term.children]
    exact List.mem_append_left _ (List.mem_map.2 ⟨f, hf, rfl⟩)
  | branch _ arms default =>
    rw [analyze]
    refine countsSites_branch ?_ (hchild default (by simp [Term.children]))
    intro arm harm
    simp only [analyzeArms_eq_map, List.mem_map] at harm
    obtain ⟨x, hx, rfl⟩ := harm
    have hmem (s : Expr) (hs : s ∈ [x.1, x.2]) : s ∈ (Term.branch () arms default).children := by
      rw [Term.children]
      exact List.mem_append_left _ (List.mem_flatMap.2 ⟨x, hx, hs⟩)
    exact ⟨hchild x.1 (hmem _ (by simp)), hchild x.2 (hmem _ (by simp))⟩

end TailLoop
