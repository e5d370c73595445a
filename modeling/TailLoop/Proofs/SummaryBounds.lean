import TailLoop.Proofs.Occurrences

/-!
# Bounds on what summaries record

A summary records references that are candidates where its term stands, each with at least one
occurrence and at most as many numbers of arguments as occurrences. It has tail calls of recorded
references only, and no more of them than occurrences. The bounds hold at every node of an analysed
term and for the bodies of a recursive group together, so the calls of a member that are not tail
calls can be counted by subtraction.

* `Analysis.Bounded`: the bounds on a summary.
* `bounded_analyze`: the summary of a term is bounded.
* `summaries_bounded`: all summaries are bounded, at every node and of every group.
-/

namespace TailLoop

/-! ## Tables -/

/-- `erase` of each of `ks` forgets their values and no others. -/
theorem Table.get?_foldl_erase {κ α : Type} [DecidableEq κ] (t : Table κ α) (ks : List κ) (k : κ) :
    (ks.foldl erase t).get? k = if k ∈ ks then none else t.get? k := by
  induction ks generalizing t with
  | nil => simp
  | cons k' ks ih =>
    rw [List.foldl_cons, ih, get?_erase]
    by_cases hk : k ∈ ks <;> by_cases hk' : k = k' <;> simp [hk, hk']

/-! ## Records of calls -/

/-- `insertAscending` adds one item at most. -/
theorem length_insertAscending_le (n : Nat) (ns : List Nat) :
    (insertAscending n ns).length ≤ ns.length + 1 := by
  induction ns with
  | nil => rfl
  | cons m ns ih =>
    unfold insertAscending
    split
    · rfl
    · split
      · exact Nat.le_succ _
      · exact Nat.succ_le_succ ih

/-- `insertAscending` drops no item. -/
theorem le_length_insertAscending (n : Nat) (ns : List Nat) :
    ns.length ≤ (insertAscending n ns).length := by
  induction ns with
  | nil => exact Nat.zero_le _
  | cons m ns ih =>
    unfold insertAscending
    split
    · exact Nat.le_succ _
    · split
      · rfl
      · exact Nat.succ_le_succ ih

namespace Call

/-- The record `c` has a number of arguments, and no more of them than occurrences; so there is an
occurrence. -/
structure Bounded (c : Call) : Prop where
  /-- An occurrence has some number of arguments. -/
  pos : 1 ≤ c.arities.length
  /-- An occurrence has one number of arguments only. -/
  le : c.arities.length ≤ c.count

/-- `single k` is one occurrence with one number of arguments. -/
theorem bounded_single (k : Nat) : (single k).Bounded := ⟨Nat.le_refl 1, Nat.le_refl 1⟩

/-- `addArity` drops none of the numbers recorded. -/
theorem le_length_foldl_addArity (c : Call) (ns : List Nat) :
    c.arities.length ≤ (ns.foldl addArity c).arities.length := by
  induction ns generalizing c with
  | nil => rfl
  | cons n ns ih => exact (le_length_insertAscending n c.arities).trans (ih (c.addArity n))

/-- `addArity`, for each of `ns`, adds one number at most. -/
theorem length_foldl_addArity_le (c : Call) (ns : List Nat) :
    (ns.foldl addArity c).arities.length ≤ c.arities.length + ns.length := by
  induction ns generalizing c with
  | nil => rfl
  | cons n ns ih =>
    have hrest := ih (c.addArity n)
    have hstep : (c.addArity n).arities.length ≤ c.arities.length + 1 :=
      length_insertAscending_le n c.arities
    rw [List.foldl_cons, List.length_cons]
    omega

/-- `append` adds the occurrences, and at most as many numbers. -/
theorem Bounded.append {c d : Call} (hc : c.Bounded) (hd : d.Bounded) : (c.append d).Bounded := by
  constructor
  · exact hc.pos.trans (le_length_foldl_addArity { c with count := c.count + d.count } d.arities)
  · have h : (c.append d).arities.length ≤ c.arities.length + d.arities.length :=
      length_foldl_addArity_le { c with count := c.count + d.count } d.arities
    rw [count_append]
    exact h.trans (Nat.add_le_add hc.le hd.le)

/-- The first record of a reference is added to `none`. -/
theorem Bounded.none_append {d : Call} (hd : d.Bounded) : (none.append d).Bounded := by
  constructor
  · obtain ⟨k, hk⟩ := List.exists_mem_of_length_pos hd.pos
    exact List.length_pos_of_mem ((mem_arities_append none d k).2 (.inr hk))
  · have h : (none.append d).arities.length ≤ 0 + d.arities.length :=
      length_foldl_addArity_le { none with count := none.count + d.count } d.arities
    rw [Nat.zero_add] at h
    rw [count_append]
    exact h.trans (hd.le.trans (Nat.le_add_left ..))

end Call

/-! ## Summaries -/

namespace Analysis

/-- A summary is bounded: it records some of the references `refs`, and has tail calls of recorded
references only, at least one and no more than occurrences. -/
structure Bounded (a : Analysis) (refs : List Ref) : Prop where
  /-- Only these references are recorded. -/
  mem : ∀ r c, a.callOf? r = some c → r ∈ refs
  /-- The records of their calls are bounded. -/
  calls : ∀ r c, a.callOf? r = some c → c.Bounded
  /-- Tail calls are among the recorded calls. -/
  tails : ∀ r n, a.tailCalls.get? r = some n → 1 ≤ n ∧ ∃ c, a.callOf? r = some c ∧ n ≤ c.count

variable {a b : Analysis} {r : Ref} {refs refs' : List Ref}

/-- There are no more tail calls of `r` than calls. -/
theorem Bounded.tailCallsOf_le (h : a.Bounded refs) {c : Call} (hc : a.callOf? r = some c) :
    a.tailCallsOf r ≤ c.count := by
  rw [tailCallsOf]
  cases hn : a.tailCalls.get? r with
  | none => exact Nat.zero_le _
  | some n =>
    obtain ⟨-, c', hc', hle⟩ := h.tails r n hn
    obtain rfl := Option.some.inj (hc.symm.trans hc')
    exact hle

/-- More references `refs'` may be recorded. -/
theorem Bounded.mono (h : a.Bounded refs) (hsub : refs ⊆ refs') : a.Bounded refs' :=
  ⟨fun r c hc => hsub (h.mem r c hc), h.calls, h.tails⟩

/-- `empty` records nothing. -/
theorem bounded_empty : empty.Bounded refs := ⟨nofun, nofun, nofun⟩

/-- `call r k` records `r` only, as a call in tail position. -/
theorem bounded_call (hr : r ∈ refs) (k : Nat) : (call r k).Bounded refs := by
  have hcall (r' : Ref) : (call r k).callOf? r' = if r' = r then some (.single k) else none := by
    simp [callOf?, call, Table.insert, Table.get?_alter]
  have htail (r' : Ref) : (call r k).tailCalls.get? r' = if r' = r then some 1 else none := by
    simp [call, Table.insert, Table.get?_alter]
  refine ⟨fun r' c hc => ?_, fun r' c hc => ?_, fun r' n hn => ?_⟩
  · rw [hcall] at hc
    split at hc
    · next h => exact h ▸ hr
    · cases hc
  · rw [hcall] at hc
    split at hc
    · cases hc
      exact Call.bounded_single k
    · cases hc
  · rw [htail] at hn
    split at hn
    · next h =>
      cases hn
      exact ⟨Nat.le_refl 1, .single k, by rw [hcall, if_pos h], Nat.le_refl 1⟩
    · cases hn

/-- The record of `r` after `appendCalls`: that of `b`, if there is one, is added. -/
theorem callOf?_appendCalls (a b : Analysis) (r : Ref) :
    (a.appendCalls b).callOf? r =
      match b.callOf? r with
      | some d => some (((a.callOf? r).getD .none).append d)
      | none => a.callOf? r := by
  rw [callOf?, appendCalls, Table.get?_combine]
  simp only [callOf?]
  cases b.calls.get? r <;> rfl

/-- After `appendCalls`, `r` stays recorded, with as many calls at least. -/
theorem le_callOf?_appendCalls {c : Call} (hc : a.callOf? r = some c) (b : Analysis) :
    ∃ c', (a.appendCalls b).callOf? r = some c' ∧ c.count ≤ c'.count := by
  rw [callOf?_appendCalls, hc]
  cases b.callOf? r with
  | none => exact ⟨c, rfl, Nat.le_refl _⟩
  | some d => exact ⟨c.append d, rfl, by rw [Call.count_append]; exact Nat.le_add_right ..⟩

/-- `appendCalls` keeps the bounds. -/
theorem Bounded.appendCalls (ha : a.Bounded refs) (hb : b.Bounded refs) :
    (a.appendCalls b).Bounded refs := by
  refine ⟨fun r c hc => ?_, fun r c hc => ?_, fun r n hn => ?_⟩
  · rw [callOf?_appendCalls] at hc
    split at hc
    · next d hd => exact hb.mem r d hd
    · exact ha.mem r c hc
  · rw [callOf?_appendCalls] at hc
    split at hc
    · next d hd =>
      cases hc
      cases hold : a.callOf? r with
      | none => exact (hb.calls r d hd).none_append
      | some old => exact (ha.calls r old hold).append (hb.calls r d hd)
    · exact ha.calls r c hc
  · obtain ⟨hpos, c, hc, hle⟩ := ha.tails r n hn
    obtain ⟨c', hc', hle'⟩ := le_callOf?_appendCalls hc b
    exact ⟨hpos, c', hc', hle.trans hle'⟩

/-- `append` keeps the bounds: tail calls are added where calls are. -/
theorem Bounded.append (ha : a.Bounded refs) (hb : b.Bounded refs) : (a.append b).Bounded refs := by
  have hcalls := ha.appendCalls hb
  refine ⟨hcalls.mem, hcalls.calls, fun r n hn => ?_⟩
  have hcall : (a.append b).callOf? r = (a.appendCalls b).callOf? r := rfl
  rw [Analysis.append, Table.get?_combine] at hn
  rw [hcall]
  cases hbn : b.tailCalls.get? r with
  | none =>
    simp only [hbn, Option.map_none, Option.none_or] at hn
    exact hcalls.tails r n hn
  | some k =>
    simp only [hbn, Option.map_some, Option.some_or, Option.some.injEq] at hn
    obtain ⟨hpos, d, hd, hle⟩ := hb.tails r k hbn
    refine ⟨by omega, ((a.callOf? r).getD .none).append d, by rw [callOf?_appendCalls, hd], ?_⟩
    rw [Call.count_append]
    cases han : a.tailCalls.get? r with
    | none =>
      rw [han, Option.getD_none] at hn
      omega
    | some j =>
      obtain ⟨-, c, hc, hle'⟩ := ha.tails r j han
      rw [han, Option.getD_some] at hn
      rw [hc, Option.getD_some]
      omega

/-- `drop` forgets the record of `r'`. -/
theorem callOf?_drop (a : Analysis) (r r' : Ref) :
    (a.drop r').callOf? r = if r = r' then none else a.callOf? r := Table.get?_erase ..

/-- `dropAll` erases `rs` from both tables. -/
theorem dropAll_eq (a : Analysis) (rs : List Ref) :
    a.dropAll rs =
      { a with calls := rs.foldl Table.erase a.calls
               tailCalls := rs.foldl Table.erase a.tailCalls } := by
  induction rs generalizing a with
  | nil => rfl
  | cons r rs ih => exact ih (a.drop r)

/-- `dropAll` forgets the records of `rs`. -/
theorem callOf?_dropAll (a : Analysis) (rs : List Ref) (r : Ref) :
    (a.dropAll rs).callOf? r = if r ∈ rs then none else a.callOf? r := by
  rw [dropAll_eq]
  exact Table.get?_foldl_erase ..

/-- `dropAll` forgets the tail calls of `rs`. -/
theorem tailCalls_dropAll (a : Analysis) (rs : List Ref) (r : Ref) :
    (a.dropAll rs).tailCalls.get? r = if r ∈ rs then none else a.tailCalls.get? r := by
  rw [dropAll_eq]
  exact Table.get?_foldl_erase ..

/-- After `drop`, `r` is not recorded any more. -/
theorem Bounded.drop (ha : a.Bounded (r :: refs)) : (a.drop r).Bounded refs := by
  refine ⟨fun r' c hc => ?_, fun r' c hc => ?_, fun r' n hn => ?_⟩
  · rw [callOf?_drop] at hc
    split at hc
    · cases hc
    · next hne => exact (List.mem_cons.1 (ha.mem r' c hc)).resolve_left hne
  · rw [callOf?_drop] at hc
    split at hc
    · cases hc
    · exact ha.calls r' c hc
  · rw [Analysis.drop, Table.get?_erase] at hn
    rw [callOf?_drop]
    split at hn
    · cases hn
    · next hne =>
      rw [if_neg hne]
      exact ha.tails r' n hn

/-- After `dropAll`, the references `rs` are not recorded any more. -/
theorem Bounded.dropAll {rs : List Ref} (ha : a.Bounded (rs ++ refs)) :
    (a.dropAll rs).Bounded refs := by
  induction rs generalizing a with
  | nil => exact ha
  | cons r rs ih => exact ih ha.drop

/-- `noTailCalls` keeps the bounds. -/
theorem Bounded.noTailCalls (ha : a.Bounded refs) : a.noTailCalls.Bounded refs :=
  ⟨ha.mem, ha.calls, nofun⟩

/-- The flag `isLoop` does not matter to the bounds. -/
theorem Bounded.withLoop (ha : a.Bounded refs) (isLoop : Bool) :
    ({ a with isLoop := isLoop } : Analysis).Bounded refs := ⟨ha.mem, ha.calls, ha.tails⟩

/-- `appendAllCalls` keeps the bounds. -/
theorem Bounded.appendAllCalls {ts : List Analyzed} (ha : a.Bounded refs)
    (hts : ∀ t ∈ ts, t.note.Bounded refs) : (a.appendAllCalls ts).Bounded refs := by
  induction ts generalizing a with
  | nil => exact ha
  | cons t ts ih =>
    exact ih (ha.appendCalls (hts t (List.mem_cons_self ..))) fun u hu =>
      hts u (List.mem_cons_of_mem _ hu)

/-- Where `checkUniform` says that `r` escapes tail position, there are fewer tail calls than
calls. -/
theorem Bounded.lt_of_checkUniform (h : a.Bounded refs) {arity calls tails : Nat}
    (herror : a.checkUniform r arity = .error (.escapesTailPosition calls tails)) :
    tails < calls := by
  unfold checkUniform at herror
  split at herror
  · cases herror
  · next c hc =>
    have hle := h.tailCallsOf_le hc
    split at herror
    · cases herror
    · split at herror
      · cases herror
      · split at herror
        · cases herror
        · split at herror
          · next hne =>
            cases herror
            omega
          · cases herror
    · cases herror

end Analysis

/-! ## Summaries of nodes -/

section

variable {refs : List Ref}

/-- `occurrence` records candidates only. -/
theorem bounded_occurrence (c : Candidates) (r : Ref) (k : Nat) :
    (c.occurrence r k).Bounded c.refs := by
  unfold Candidates.occurrence
  split
  · next h => exact Analysis.bounded_call h k
  · exact Analysis.bounded_empty

/-- `armsAnalysis` is bounded if conditions and bodies are. -/
theorem bounded_armsAnalysis {arms : List (Analyzed × Analyzed)}
    (h : ∀ arm ∈ arms, arm.1.note.Bounded refs ∧ arm.2.note.Bounded refs) :
    (armsAnalysis arms).Bounded refs := by
  have hfold (a : Analysis) (ha : a.Bounded refs) :
      (arms.foldl (fun a arm => (a.appendCalls arm.1.note).append arm.2.note) a).Bounded refs := by
    induction arms generalizing a with
    | nil => exact ha
    | cons arm arms ih =>
      obtain ⟨hcond, hbody⟩ := h arm (List.mem_cons_self ..)
      exact ih (fun x hx => h x (List.mem_cons_of_mem _ hx)) _ ((ha.appendCalls hcond).append hbody)
  exact hfold _ Analysis.bounded_empty

/-- `letAnalysis` is bounded without the binder `r`. -/
theorem bounded_letAnalysis {r : Ref} {value body : Analyzed} (hvalue : value.note.Bounded refs)
    (hbody : body.note.Bounded (r :: refs)) : (letAnalysis r value body).Bounded refs := by
  have hsub : refs ⊆ r :: refs := List.subset_cons_self ..
  refine Analysis.Bounded.drop (Analysis.Bounded.append ?_ hbody)
  split
  · exact Analysis.bounded_empty.append (hvalue.mono hsub)
  · exact Analysis.bounded_empty.appendCalls (hvalue.mono hsub)

/-- `letRecAnalysis` is bounded without the `members`. -/
theorem bounded_letRecAnalysis {members : List Ref} {bindings : List Analyzed} {body : Analyzed}
    (hbindings : ∀ t ∈ bindings, t.note.Bounded (members ++ refs))
    (hbody : body.note.Bounded (members ++ refs)) :
    (letRecAnalysis members bindings body).Bounded refs := by
  have hall := ((Analysis.bounded_empty.appendAllCalls hbindings).append hbody).dropAll
  rw [letRecAnalysis]
  refine Analysis.Bounded.withLoop ?_ _
  split
  · exact hall
  · exact hall.noTailCalls

/-- `bodiesAnalysis` is bounded if the bodies are. -/
theorem bounded_bodiesAnalysis {bindings : List Analyzed}
    (h : ∀ body ∈ bodies bindings, body.note.Bounded refs) :
    (bodiesAnalysis bindings).Bounded refs := by
  have hfold (ts : List Analyzed) (hts : ∀ t ∈ ts, t.note.Bounded refs) (a : Analysis)
      (ha : a.Bounded refs) : (ts.foldl (fun a body => a.append body.note) a).Bounded refs := by
    induction ts generalizing a with
    | nil => exact ha
    | cons t ts ih =>
      exact ih (fun u hu => hts u (List.mem_cons_of_mem _ hu)) _
        (ha.append (hts t (List.mem_cons_self ..)))
  exact hfold _ h _ Analysis.bounded_empty

/-- Where `verdict` says that a member escapes tail position, there are fewer tail calls than
calls. -/
theorem lt_of_verdict {members : List Ref} {bindings : List Analyzed}
    (h : (bodiesAnalysis bindings).Bounded refs) {r : Ref} {calls tails : Nat}
    (hverdict : verdict members bindings = .notUniform r (.escapesTailPosition calls tails)) :
    tails < calls := by
  unfold verdict at hverdict
  simp only at hverdict
  split at hverdict
  · cases hverdict
  · split at hverdict
    · cases hverdict
    · rw [Option.getD_eq_iff] at hverdict
      obtain hfound | ⟨-, hloop⟩ := hverdict
      · obtain ⟨p, -, hp⟩ := List.exists_of_findSome?_eq_some hfound
        split at hp
        · next reason hreason =>
          cases hp
          exact h.lt_of_checkUniform hreason
        · cases hp
      · cases hloop

end

/-! ## Analysed terms -/

/-- By induction on `t`: its summary is bounded by the candidates `c`. -/
theorem bounded_analyze (c : Candidates) (t : Expr) : (analyze c t).note.Bounded c.refs := by
  induction t using Term.children_induction generalizing c with
  | step t ih =>
  -- where nothing is bound, children have the same candidates
  have hall (ts : List Expr) (hts : ∀ s ∈ ts, s ∈ t.children) :
      ∀ s ∈ ts.map (analyze c), s.note.Bounded c.refs := by
    intro s hs
    obtain ⟨u, hu, rfl⟩ := List.mem_map.1 hs
    exact ih u (hts u hu) c
  have hfields (fields : List (String × Expr)) (hts : ∀ f ∈ fields, f.2 ∈ t.children) :
      ∀ s ∈ (analyzeFields c fields).map Prod.snd, s.note.Bounded c.refs := by
    intro s hs
    simp only [analyzeFields_eq_map, List.map_map, List.mem_map] at hs
    obtain ⟨f, hf, rfl⟩ := hs
    exact ih f.2 (hts f hf) c
  have hempty : Analysis.empty.Bounded c.refs := Analysis.bounded_empty
  cases t with
  | global _ q =>
    simp only [analyze]
    cases c.ref? (.global () q) with
    | none => exact hempty
    | some r => exact bounded_occurrence c r 0
  | bound _ b =>
    simp only [analyze]
    cases c.ref? (.bound () b) with
    | none => exact hempty
    | some r => exact bounded_occurrence c r 0
  | lit | constructor | undefined | fail => exact hempty
  | array _ items =>
    simp only [analyze, analyzeList_eq_map]
    exact hempty.appendAllCalls (hall items fun s hs => hs)
  | record _ fields | construct _ _ _ fields =>
    exact hempty.appendAllCalls (hfields fields fun f hf => List.mem_map.2 ⟨f, hf, rfl⟩)
  | app _ calling head args =>
    have hhead := ih head (List.mem_cons_self ..) c
    have hargs := hall args fun s hs => List.mem_cons_of_mem _ hs
    simp only [analyze, analyzeList_eq_map]
    refine Analysis.Bounded.appendAllCalls ?_ hargs
    split
    · exact bounded_occurrence c _ _
    · exact hempty.appendCalls hhead
  | abs | access | pureEffect | deferEffect | test | unary =>
    exact hempty.appendCalls (ih _ (List.mem_singleton.2 rfl) c)
  | update _ subject fields =>
    refine (hempty.appendCalls (ih subject (List.mem_cons_self ..) c)).appendAllCalls ?_
    exact hfields fields fun f hf => List.mem_cons_of_mem _ (List.mem_map.2 ⟨f, hf, rfl⟩)
  | bindEffect | binary =>
    exact (hempty.appendCalls (ih _ (by simp [Term.children]) c)).appendCalls
      (ih _ (by simp [Term.children]) c)
  | letIn _ b value body =>
    exact bounded_letAnalysis (ih value (by simp [Term.children]) c)
      (ih body (by simp [Term.children]) (c.extend [.bound b]))
  | letRec _ level bindings body =>
    refine bounded_letRecAnalysis ?_
      (ih body (by simp [Term.children]) (c.extend (groupRefs level bindings)))
    intro s hs
    simp only [analyzeFields_eq_map, List.map_map, List.mem_map] at hs
    obtain ⟨f, hf, rfl⟩ := hs
    exact ih f.2 (List.mem_append_left _ (List.mem_map.2 ⟨f, hf, rfl⟩))
      (c.extend (groupRefs level bindings))
  | branch _ arms default =>
    have hmem (x : Expr × Expr) (hx : x ∈ arms) (s : Expr) (hs : s ∈ [x.1, x.2]) :
        s ∈ (Term.branch () arms default).children :=
      List.mem_append_left _ (List.mem_flatMap.2 ⟨x, hx, hs⟩)
    refine (bounded_armsAnalysis ?_).append (ih default (by simp [Term.children]) c)
    intro arm harm
    simp only [analyzeArms_eq_map, List.mem_map] at harm
    obtain ⟨x, hx, rfl⟩ := harm
    exact ⟨ih x.1 (hmem x hx _ (by simp)) c, ih x.2 (hmem x hx _ (by simp)) c⟩

/-- `analyze` keeps what the root of `t` binds. -/
theorem letRefs_analyze (c : Candidates) (t : Expr) : (analyze c t).letRefs = t.letRefs := by
  cases t with
  | app _ calling head args => simp [analyze, Term.letRefs]
  | letRec _ level bindings body => simp [analyze, Term.letRefs, groupRefs]
  | _ => rfl

/-- What the root of `t` binds is not recorded there. -/
theorem callOf?_letRefs (c : Candidates) (t : Expr) {r : Ref} (hr : r ∈ t.letRefs) :
    (analyze c t).note.callOf? r = none := by
  cases t with
  | letIn _ b value body =>
    obtain rfl := List.mem_singleton.1 hr
    exact (Analysis.callOf?_drop ..).trans (if_pos rfl)
  | letRec _ level bindings body =>
    simp only [analyze, Term.note, letRecAnalysis]
    split <;> exact (Analysis.callOf?_dropAll ..).trans (if_pos hr)
  | _ => cases hr

/-- `bodiesAnalysis` of analysed bindings is bounded by the candidates `c`. -/
theorem bounded_bodies_analyzeFields (c : Candidates) (bindings : List (String × Expr)) :
    (bodiesAnalysis ((analyzeFields c bindings).map Prod.snd)).Bounded c.refs := by
  refine bounded_bodiesAnalysis fun body hbody => ?_
  obtain ⟨t, ht, hbody⟩ := List.mem_filterMap.1 hbody
  simp only [analyzeFields_eq_map, List.map_map, List.mem_map] at ht
  obtain ⟨b, -, rfl⟩ := ht
  obtain ⟨s, -, rfl⟩ := body?_analyze hbody
  exact bounded_analyze c s

/-- All summaries are bounded. At every node of an analysed term, the summary is bounded by the
candidates there, and what the node binds is not recorded. The summary of the bodies of a recursive
group together is bounded by the candidates with which they are analysed. A decision that a member
of the group escapes tail position has fewer tail calls than calls. -/
theorem summaries_bounded :
    (∀ (c : Candidates) (t : Expr) (p : List Nat) (s : Analyzed), (analyze c t).at? p = some s →
      s.note.Bounded (c.inside t p).refs ∧
        (∀ r ∈ s.letRefs, s.note.callOf? r = none) ∧
          ∀ a level bindings body, s = .letRec a level bindings body →
            (bodiesAnalysis (bindings.map Prod.snd)).Bounded
                (groupRefs level bindings ++ (c.inside t p).refs) ∧
              ∀ r calls tails, verdict (groupRefs level bindings) (bindings.map Prod.snd) =
                .notUniform r (.escapesTailPosition calls tails) → tails < calls) ∧
    ∀ (m : String) (g : BindingGroup),
      (bodiesAnalysis ((g.analyze m).bindings.map Prod.snd)).Bounded
          (if g.recursive then topRefs m g.bindings else []) ∧
        ∀ r calls tails,
          (g.analyze m).verdict = .notUniform r (.escapesTailPosition calls tails) →
            tails < calls := by
  constructor
  · intro c t p s hs
    rw [Term.at?_analyze, Option.map_eq_some_iff] at hs
    obtain ⟨u, -, rfl⟩ := hs
    refine ⟨bounded_analyze _ u, fun r hr => callOf?_letRefs _ u ?_, ?_⟩
    · rwa [letRefs_analyze] at hr
    · intro a level bindings body heq
      cases u with
      | letRec _ level' bindings' body' =>
        cases heq
        -- the bodies are analysed with the members as further candidates
        have hbodies := bounded_bodies_analyzeFields
          ((c.inside t p).extend (groupRefs level bindings')) bindings'
        have hrefs : groupRefs level (analyzeFields
            ((c.inside t p).extend (groupRefs level bindings')) bindings') =
              groupRefs level bindings' := by
          simp [groupRefs]
        rw [hrefs]
        exact ⟨hbodies, fun r calls tails => lt_of_verdict hbodies⟩
      | _ => cases heq
  -- a top-level group has no binders around it, so its members are the only candidates
  · intro m g
    have hbodies : (bodiesAnalysis ((g.analyze m).bindings.map Prod.snd)).Bounded
        (if g.recursive then topRefs m g.bindings else []) := bounded_bodies_analyzeFields _ _
    refine ⟨hbodies, fun r calls tails hverdict => ?_⟩
    rw [show (g.analyze m).verdict = if g.recursive then verdict (topRefs m g.bindings)
      ((g.analyze m).bindings.map Prod.snd) else .noMembers from rfl] at hverdict
    split at hverdict
    · exact lt_of_verdict hbodies hverdict
    · cases hverdict

/-- A recursive function that is called once in tail position and once as an argument. -/
def nestedGroup : BindingGroup :=
  let f : Expr := .global () ⟨none, "f"⟩
  let x : Binder := ⟨some "x", 0⟩
  ⟨true, [("f", .abs () .curried [x]
    (.app () .curried f [.app () .curried f [.bound () x]]))]⟩

/-- Of the two calls of the function one is a tail call. -/
theorem summaries_bounded_nestedGroup :
    (nestedGroup.analyze "M").verdict =
        .notUniform (.global ⟨some "M", "f"⟩) (.escapesTailPosition 2 1) ∧ 1 < 2 := by
  have hverdict : (nestedGroup.analyze "M").verdict =
      .notUniform (.global ⟨some "M", "f"⟩) (.escapesTailPosition 2 1) := by decide +kernel
  exact ⟨hverdict, (summaries_bounded.2 "M" nestedGroup).2 _ _ _ hverdict⟩

end TailLoop
