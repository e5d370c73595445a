import Mathlib.Data.Set.Card
import TailLoop.Proofs.LoopCalls

/-!
# Occurrences and what is counted of them

The summary of a term records of a candidate how often it occurs, with how many arguments, and how
many of its occurrences are calls in tail position. The nodes of an analysed term are the nodes of
the term, each analysed with the candidates around it, so occurrences can be looked up in the term
itself. The call sites of the counting are at different positions, so their number is that of the
positions.

* `Candidates.inside`: the candidates with which the node at a position is analysed.
* `at?_analyze`: the nodes of an analysed term.
* `nodup_positions`: no position is that of two call sites.
* `counts_occurrences`: summaries count occurrences.
-/

namespace TailLoop

/-! ## Nodes of analysed terms -/

namespace Candidates

/-- The candidates with which the child of number `i` of a node is analysed. -/
def below (c : Candidates) (t : Expr) (i : Nat) : Candidates :=
  match t with
  | .letIn _ b _ _ => if i = 0 then c else c.extend [.bound b]
  | .letRec _ level bindings _ => c.extend (groupRefs level bindings)
  | _ => c

/-- The candidates with which `analyze c t` comes to the node at a position. -/
def inside (c : Candidates) (t : Expr) : List Nat → Candidates
  | [] => c
  | i :: p =>
    match t.children[i]? with
    | some s => (c.below t i).inside s p
    | none => c

/-- `below` keeps the module of `c`. -/
@[simp] theorem module_below (c : Candidates) (t : Expr) (i : Nat) :
    (c.below t i).module = c.module := by
  unfold below
  split
  · split <;> rfl
  · rfl
  · rfl

/-- `below` keeps `c` where `t` binds no reference. -/
theorem below_of_letRefs {c : Candidates} {t : Expr} (h : t.letRefs = []) (i : Nat) :
    c.below t i = c := by
  cases t with
  | letIn => simp [Term.letRefs] at h
  | letRec _ level bindings body =>
    rw [below, show groupRefs level bindings = [] from h]
    rfl
  | _ => rfl

end Candidates

namespace Term

/-- The children of `analyze c t` are those of `t`, each analysed with `c.below t i`. -/
theorem getElem?_children_analyze (c : Candidates) (t : Expr) (i : Nat) :
    (analyze c t).children[i]? = t.children[i]?.map (analyze (c.below t i)) := by
  by_cases hlet : t.letRefs = []
  · rw [children_analyze hlet, List.getElem?_map, Candidates.below_of_letRefs hlet]
  · cases t with
    | letIn _ b value body =>
      match i with
      | 0 | 1 | i + 2 => simp [analyze, children, Candidates.below]
    | letRec _ level bindings body =>
      have hchildren : (analyze c (.letRec () level bindings body)).children =
          (bindings.map Prod.snd ++ [body]).map
            (analyze (c.extend (groupRefs level bindings))) := by
        simp [analyze, children]
      rw [hchildren, List.getElem?_map]
      rfl
    | _ => exact absurd rfl hlet

/-- The node of `analyze c t` at `p` is the one of `t`, analysed with `c.inside t p`. -/
theorem at?_analyze (c : Candidates) (t : Expr) (p : List Nat) :
    (analyze c t).at? p = (t.at? p).map (analyze (c.inside t p)) := by
  induction p generalizing c t with
  | nil => rfl
  | cons i p ih =>
    rw [at?_cons, at?_cons, getElem?_children_analyze, Candidates.inside]
    cases t.children[i]? with
    | none => rfl
    | some s => exact ih (c.below t i) s

/-- `analyze` keeps `OccursAt`. -/
theorem occursAt_analyze {m : Option String} {r : Ref} {c : Candidates} {t : Expr} {q : List Nat} :
    (analyze c t).OccursAt m r q ↔ t.OccursAt m r q := by
  simp only [OccursAt, at?_analyze, Option.map_eq_some_iff]
  constructor
  · rintro ⟨-, ⟨s, hs, rfl⟩, hr⟩
    exact ⟨s, hs, by rwa [refIn?_analyze] at hr⟩
  · rintro ⟨s, hs, hr⟩
    exact ⟨_, ⟨s, hs, rfl⟩, by rwa [refIn?_analyze]⟩

/-- `analyze` keeps `AppliedAt`. -/
theorem appliedAt_analyze {c : Candidates} {t : Expr} {p : List Nat} {k : Nat} :
    (analyze c t).AppliedAt p k ↔ t.AppliedAt p k := by
  simp only [AppliedAt, at?_analyze, Option.map_eq_some_iff]
  constructor
  · rintro ⟨a, head, args, ⟨s, hs, happ⟩, hk⟩
    cases s with
    | app _ calling head' args' =>
      simp only [analyze, analyzeList_eq_map, app.injEq] at happ
      obtain ⟨-, rfl, -, rfl⟩ := happ
      exact ⟨(), head', args', hs, by rwa [List.length_map] at hk⟩
    | _ => simp [analyze] at happ
  · rintro ⟨a, head, args, hs, hk⟩
    refine ⟨_, _, _, ⟨_, hs, rfl⟩, ?_⟩
    rwa [analyzeList_eq_map, List.length_map]

/-- `analyze` keeps `CalledAt`. -/
theorem calledAt_analyze {c : Candidates} {t : Expr} {q p : List Nat} {k : Nat} :
    (analyze c t).CalledAt q p k ↔ t.CalledAt q p k := by
  simp only [CalledAt, appliedAt_analyze]

end Term

/-! ## Tail positions -/

/-- `p ++ q` is a `TailPosition` of `t` if `p` is one and `q` is one of the node at `p`. -/
theorem tailPosition_append {t : Analyzed} {p q : List Nat} :
    TailPosition t (p ++ q) ↔ TailPosition t p ∧ ∃ s, t.at? p = some s ∧ TailPosition s q := by
  induction p generalizing t with
  | nil => simp [TailPosition.here]
  | cons i p ih =>
    rw [List.cons_append, tailPosition_cons, tailPosition_cons]
    simp only [ih, Term.at?_cons, Option.bind_eq_some_iff]
    constructor
    · rintro ⟨u, hu, hkeep, hp, s, hs, hq⟩
      exact ⟨⟨u, hu, hkeep, hp⟩, s, ⟨u, hu, hs⟩, hq⟩
    · rintro ⟨⟨u, hu, hkeep, hp⟩, s, ⟨u', hu', hs⟩, hq⟩
      obtain rfl : u = u' := Option.some.inj (hu.symm.trans hu')
      exact ⟨u, hu, hkeep, hp, s, hs, hq⟩

/-- No position inside the `value` of a `letIn` is a `TailPosition`. -/
theorem not_tailPosition_value {t : Analyzed} {p q : List Nat} {a : Analysis} {b : Binder}
    {value body : Analyzed} (h : t.at? p = some (.letIn a b value body)) :
    ¬TailPosition t (p ++ 0 :: q) := by
  intro htail
  obtain ⟨-, s, hs, hq⟩ := tailPosition_append.1 htail
  rw [h] at hs
  obtain rfl := Option.some.inj hs
  obtain ⟨-, -, hkeep, -⟩ := tailPosition_cons.1 hq
  simp [Term.keepsTail] at hkeep

namespace Term

/-- What stands at `q` is called in tail position: if it is the head of an application, the
application is in tail position, otherwise it is so itself. -/
def TailCalledAt (t : Analyzed) (q : List Nat) : Prop :=
  ∃ p k, t.CalledAt q p k ∧ TailPosition t p

/-- Nothing inside the `value` of a `letIn` is called in tail position. -/
theorem not_tailCalledAt_value {t : Analyzed} {p q : List Nat} {a : Analysis} {b : Binder}
    {value body : Analyzed} (h : t.at? p = some (.letIn a b value body)) :
    ¬t.TailCalledAt (p ++ 0 :: q) := by
  rintro ⟨p', k, ⟨hq, happ⟩ | ⟨hq, -, -⟩, htail⟩
  · rcases List.eq_nil_or_concat' q with rfl | ⟨q, i, rfl⟩
    · -- the binding would be an application
      obtain rfl : p = p' := List.append_cancel_right hq
      obtain ⟨a', head, args, happ, -⟩ := happ
      rw [h] at happ
      cases happ
    · rw [← List.cons_append, ← List.append_assoc] at hq
      obtain rfl : p ++ 0 :: q = p' := (List.append_inj' hq rfl).1
      exact not_tailPosition_value h htail
  · rw [← hq] at htail
    exact not_tailPosition_value h htail

/-! ## Positions of call sites -/

/-- The positions of `callSites` are those of `rootCalls` and those in the children that are
`searched`. -/
theorem map_position_callSites (m : Option String) (r : Ref) (t : Analyzed) :
    (t.callSites m r).map CallSite.position = (t.rootCalls m r).map CallSite.position ++
      t.searched.flatMap fun x => ((x.1.callSites m r).map CallSite.position).map (x.2 :: ·) := by
  rw [callSites_eq, List.map_append, List.map_flatMap]
  congr 2
  funext x
  rw [List.map_map, List.map_map]
  rfl

/-- `searched` has each child once. -/
theorem pairwise_searched {α : Type} (t : Term α) :
    t.searched.Pairwise fun x y => x.2 ≠ y.2 := by
  refine List.Pairwise.filter _ ?_
  rw [← List.pairwise_map (f := Prod.snd), List.zipIdx_map_snd]
  exact List.nodup_range'

/-- No two `callSites` of `r` in `t` have the same position. -/
theorem nodup_positions (m : Option String) (r : Ref) (t : Analyzed) :
    ((t.callSites m r).map CallSite.position).Nodup := by
  induction t using children_induction with
  | step t ih =>
  rw [map_position_callSites]
  refine List.nodup_append.2 ⟨?_, ?_, ?_⟩
  · unfold rootCalls
    repeat' split
    all_goals simp
  · refine List.nodup_flatMap.2 ⟨?_, ?_⟩
    · rintro ⟨s, i⟩ hs
      exact (ih s (List.mem_of_getElem? (mem_searched_iff.1 hs).1)).map
        (List.cons_injective (a := i))
    · refine (pairwise_searched t).imp fun hne => ?_
      simp only [Function.onFun, List.disjoint_left, List.mem_map]
      rintro - ⟨q, -, rfl⟩ ⟨q', -, h⟩
      exact hne (List.cons.inj h).1.symm
  · intro q hq q' hq' heq
    subst heq
    obtain ⟨x, hx, rfl⟩ := List.mem_map.1 hq
    obtain ⟨⟨s, i⟩, hs, hq'⟩ := List.mem_flatMap.1 hq'
    obtain ⟨q', -, h⟩ := List.mem_map.1 hq'
    -- only an applied reference stands below the root, and no calls are looked for in it
    rcases mem_rootCalls.1 hx with ⟨-, rfl⟩ | ⟨a, head, args, rfl, hr, rfl⟩
    · cases h
    · refine (mem_searched_iff.1 hs).2 ⟨isSome_ref?_of_refIn? hr, ?_⟩
      exact (List.cons.inj h).1

/-- There are as many positions of `callSites` with the property `P` as there are such sites. -/
theorem encard_positions (m : Option String) (r : Ref) (t : Analyzed) (P : CallSite → Bool) :
    {q | ∃ x ∈ t.callSites m r, P x = true ∧ x.position = q}.encard =
      (t.callSites m r).countP P := by
  have hnodup : (((t.callSites m r).filter P).map CallSite.position).Nodup :=
    (nodup_positions m r t).sublist (List.filter_sublist.map _)
  have hset : {q | ∃ x ∈ t.callSites m r, P x = true ∧ x.position = q} =
      ((((t.callSites m r).filter P).map CallSite.position).toFinset : Set (List Nat)) := by
    ext q
    simp [and_assoc]
  rw [hset, Set.encard_coe_eq_coe_finsetCard, List.toFinset_card_of_nodup hnodup, List.length_map,
    List.countP_eq_length_filter]

/-- The node at `q` is called at one position only, and with one number of arguments. -/
theorem CalledAt.unique {α : Type} {t : Term α} {q p p' : List Nat} {k k' : Nat}
    (h : t.CalledAt q p k) (h' : t.CalledAt q p' k') : p = p' ∧ k = k' := by
  rcases h with ⟨hq, happ⟩ | ⟨hq, hk, hno⟩
  · rcases h' with ⟨hq', happ'⟩ | ⟨-, -, hno'⟩
    · obtain rfl : p = p' := List.append_cancel_right (hq.symm.trans hq')
      obtain ⟨a, head, args, hat, rfl⟩ := happ
      obtain ⟨a', head', args', hat', rfl⟩ := happ'
      rw [hat] at hat'
      cases hat'
      exact ⟨rfl, rfl⟩
    · exact absurd happ (hno' p k hq)
  · rcases h' with ⟨hq', happ'⟩ | ⟨hq', hk', -⟩
    · exact absurd happ' (hno p' k' hq')
    · exact ⟨hq.symm.trans hq', hk.trans hk'.symm⟩

end Term

/-! ## Summaries -/

section

variable {m : Option String} {r : Ref} {t : Analyzed}

/-- The positions of `callSites` are those at which `r` occurs. -/
theorem exists_position_iff {q : List Nat} :
    (∃ x ∈ t.callSites m r, x.position = q) ↔ t.OccursAt m r q := by
  constructor
  · rintro ⟨x, hx, rfl⟩
    exact ((Term.mem_callSites_iff t x).1 hx).1
  · exact exists_mem_callSites

/-- The positions of the `callSites` that are tail calls are those at which `r` occurs and is called
in tail position. -/
theorem exists_tailPosition_iff {q : List Nat} :
    (∃ x ∈ t.callSites m r, x.tail = true ∧ x.position = q) ↔
      t.OccursAt m r q ∧ t.TailCalledAt q := by
  constructor
  · rintro ⟨x, hx, htail, rfl⟩
    obtain ⟨hoccurs, p, hcall, hp⟩ := (Term.mem_callSites_iff t x).1 hx
    exact ⟨hoccurs, p, x.args, hcall, hp.1 htail⟩
  · rintro ⟨hoccurs, p, k, hcall, htail⟩
    have hsite : ⟨q, k, true⟩ ∈ t.callSites m r :=
      (Term.mem_callSites_iff t _).2 ⟨hoccurs, p, hcall, by simp [htail]⟩
    exact ⟨_, hsite, rfl, rfl⟩

/-- `callSizes` are the numbers of arguments with which `r` is called in `t`. -/
theorem mem_callSizes_iff {k : Nat} :
    k ∈ t.callSizes m r ↔ ∃ q p, t.OccursAt m r q ∧ t.CalledAt q p k := by
  rw [Term.callSizes, List.mem_map]
  constructor
  · rintro ⟨x, hx, rfl⟩
    obtain ⟨hoccurs, p, hcall, -⟩ := (Term.mem_callSites_iff t x).1 hx
    exact ⟨x.position, p, hoccurs, hcall⟩
  · rintro ⟨q, p, hoccurs, hcall⟩
    obtain ⟨x, hx, rfl⟩ := exists_mem_callSites hoccurs
    obtain ⟨-, p', hcall', -⟩ := (Term.mem_callSites_iff t x).1 hx
    exact ⟨x, hx, (hcall'.unique hcall).2⟩

end

/-- The summary of a term counts the occurrences of every candidate that is not bound again in the
term. Without occurrences there is no record of it. Otherwise the record has the number of its
occurrences and the numbers of arguments with which it occurs, and its tail calls are the
occurrences that are called in tail position, among which are none inside what is bound by a
binding. -/
theorem counts_occurrences (c : Candidates) (t : Expr) {r : Ref} (hr : r ∈ c.refs)
    (hb : ¬t.Rebinds r) :
    ((analyze c t).note.callOf? r = none ↔ ∀ q, ¬t.OccursAt c.module r q) ∧
      (∀ call, (analyze c t).note.callOf? r = some call →
        {q | t.OccursAt c.module r q}.encard = call.count ∧
          ∀ k, k ∈ call.arities ↔ ∃ q p, t.OccursAt c.module r q ∧ t.CalledAt q p k) ∧
      {q | t.OccursAt c.module r q ∧ (analyze c t).TailCalledAt q}.encard =
        (analyze c t).note.tailCallsOf r ∧
      ∀ p a b value body, (analyze c t).at? p = some (.letIn a b value body) →
        ∀ q, ¬(analyze c t).TailCalledAt (p ++ 0 :: q) := by
  obtain ⟨hlists, htail⟩ := countsSites_analyze t c hr hb
  -- each occurrence is the position of one call site, and no two sites have the same position
  have hsites : {q | t.OccursAt c.module r q}.encard =
      ((analyze c t).callSizes c.module r).length := by
    have h := Term.encard_positions c.module r (analyze c t) fun _ => true
    simpa only [true_and, exists_position_iff, Term.occursAt_analyze, List.countP_true,
      Term.callSizes, List.length_map] using h
  have hnone : (analyze c t).callSizes c.module r = [] ↔ ∀ q, ¬t.OccursAt c.module r q := by
    rw [← List.length_eq_zero_iff, ← ENat.natCast_inj, ← hsites, Nat.cast_zero, Set.encard_eq_zero,
      Set.eq_empty_iff_forall_notMem]
    rfl
  refine ⟨?_, fun call hcall => ?_, ?_, fun _ _ _ _ _ h _ => Term.not_tailCalledAt_value h⟩
  · rw [← hnone]
    cases hcall : (analyze c t).note.callOf? r with
    | none => simpa [hcall, Analysis.Lists] using hlists
    | some call =>
      rw [hcall] at hlists
      simpa using hlists.1
  · rw [hcall] at hlists
    obtain ⟨-, hcount, harities⟩ := hlists
    refine ⟨by rw [hsites, hcount], fun k => ?_⟩
    rw [harities, mem_callSizes_iff]
    simp only [Term.occursAt_analyze, Term.calledAt_analyze]
  · rw [htail, Term.tailCount, ← Term.encard_positions]
    simp only [exists_tailPosition_iff, Term.occursAt_analyze]

/-- The function `f` in the binding of a join point, in a condition, and in tail position. -/
def joinPoint : Expr :=
  let f : Expr := .global () ⟨none, "f"⟩
  let k : Binder := ⟨some "k", 0⟩
  let x : Binder := ⟨some "x", 1⟩
  let one : Expr := .lit () (.int 1)
  .letIn () k (.abs () .curried [x] (.app () .curried f [.bound () x]))
    (.branch () [(f, .app () .curried (.bound () k) [one])] (.app () .curried f [one, one]))

/-- The three occurrences of `f` are counted, and the one in tail position as a tail call. -/
theorem counts_occurrences_joinPoint :
    let c : Candidates := ⟨some "Main", [.global ⟨some "Main", "f"⟩]⟩
    let r : Ref := .global ⟨some "Main", "f"⟩
    r ∈ c.refs ∧ ¬joinPoint.Rebinds r ∧
      (analyze c joinPoint).note.callOf? r = some ⟨3, [0, 1, 2], by decide⟩ ∧
      {q | joinPoint.OccursAt c.module r q}.encard = 3 ∧
      {q | joinPoint.OccursAt c.module r q ∧ (analyze c joinPoint).TailCalledAt q}.encard = 1 := by
  intro c r
  have hr : r ∈ c.refs := by decide
  have hb : ¬joinPoint.Rebinds r := by decide
  have hcall : (analyze c joinPoint).note.callOf? r = some ⟨3, [0, 1, 2], by decide⟩ := by decide
  have htail : (analyze c joinPoint).note.tailCallsOf r = 1 := by decide
  obtain ⟨-, hcalls, htails, -⟩ := counts_occurrences c joinPoint hr hb
  refine ⟨hr, hb, hcall, (hcalls _ hcall).1, ?_⟩
  rw [htails, htail]
  rfl

end TailLoop
