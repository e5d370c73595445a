import TailLoop.Lower.Module
import TailLoop.Proofs.FreshNames

/-!
# The name supply

While a binding is lowered, names are asked for one after another. For every taken name a counter
says where the next search for a candidate of it starts. The searches share their counters, since
`x$1` may be asked for itself or be found as a candidate for `x`. No search ends at its bound.

* `Env.Counted`: what the counters say about the names that are taken.
* `fresh_names_first_free`: every search finds what a search through all candidates would find.
* `unnamed_apart_iff`: when the name of a binder that has none of its own meets no other name.
-/

namespace TailLoop

/-- What `Table.ofList es` has for `k` stands in `es`. -/
theorem Table.mem_of_get?_ofList {κ α : Type} [DecidableEq κ] {es : List (κ × α)} {k : κ} {a : α}
    (h : (Table.ofList es).get? k = some a) : (k, a) ∈ es := by
  have hfold (t : Table κ α) (ht : (es.foldl (fun t e => t.insert e.1 e.2) t).get? k = some a) :
      (k, a) ∈ es ∨ t.get? k = some a := by
    clear h
    induction es generalizing t with
    | nil => exact .inr ht
    | cons e rest ih =>
      rw [List.foldl_cons] at ht
      rcases ih _ ht with hrest | hinsert
      · exact .inl (List.mem_cons_of_mem _ hrest)
      · rw [Table.insert, Table.get?_alter] at hinsert
        split at hinsert
        · rename_i hkey
          obtain rfl := Option.some.inj hinsert
          exact .inl (hkey ▸ List.mem_cons_self ..)
        · exact .inr hinsert
  exact (hfold .empty h).resolve_right fun hempty => by cases hempty

namespace Lower

/-! ## Candidates -/

/-- The candidate of number `0` is the name itself. -/
theorem candidate_zero (base : String) : candidate base 0 = base := if_pos rfl

/-- `firstFree` passes taken candidates only. -/
theorem taken_of_lt_firstFree {taken : String → Bool} {base : String} {steps start m : Nat}
    (hstart : start ≤ m) (h : m < firstFree taken base steps start) :
    taken (candidate base m) = true := by
  induction steps generalizing start with
  | zero => exact absurd h (Nat.not_lt.2 hstart)
  | succ steps ih =>
    rw [firstFree] at h
    split at h
    · rename_i htaken
      rcases Nat.eq_or_lt_of_le hstart with rfl | hlt
      · exact htaken
      · exact ih hlt h
    · exact absurd h (Nat.not_lt.2 hstart)

/-- The first candidate for `base` that is not taken. -/
def IsFirstFree (taken : List String) (base name : String) : Prop :=
  ∃ n, name = candidate base n ∧ name ∉ taken ∧ ∀ m < n, candidate base m ∈ taken

/-- The first free candidate is free. -/
theorem IsFirstFree.not_mem {taken : List String} {base name : String}
    (h : IsFirstFree taken base name) : name ∉ taken := by
  obtain ⟨n, -, hfree, -⟩ := h
  exact hfree

/-- Through a list of taken names, `firstFree` ends at the first free candidate: `taken.length + 1`
steps are enough. -/
theorem isFirstFree_firstFree (taken : List String) (base : String) :
    IsFirstFree taken base
      (candidate base (firstFree (fun s => taken.contains s) base (taken.length + 1) 0)) := by
  refine ⟨_, rfl, fun hmem => ?_, fun m hm => ?_⟩
  · have hlisted (name : String) : taken.contains name = true → name ∈ taken :=
      List.contains_iff_mem.1
    have hfree := firstFree_eq_false hlisted base 0
    rw [List.contains_iff_mem.2 hmem] at hfree
    cases hfree
  · exact List.contains_iff_mem.1 (taken_of_lt_firstFree (Nat.zero_le m) hm)

/-! ## Requests -/

/-- A request for a name: a `fresh` one, or one for a binder. -/
inductive NameRequest where
  /-- A fresh name made from `base`. -/
  | fresh (base : String)
  /-- The name of a binder. -/
  | bind (b : Binder)
  deriving DecidableEq

/-- What the requested name is made from; a binder without a name gives nothing. -/
def NameRequest.base? : NameRequest → Option String
  | .fresh base => some base
  | .bind b => b.name

/-- The answers that are fresh names. -/
def suppliedNames (answers : List (NameRequest × String)) : List String :=
  (answers.filter fun a => a.1.base?.isSome).map Prod.snd

namespace Env

/-- Answers a request, in the environment `e`. -/
def answer (e : Env) : NameRequest → String × Env
  | .fresh base => e.fresh base
  | .bind b => e.bind b

/-- Requests that are made one after another, with their answers. -/
def answers (e : Env) : List NameRequest → List (NameRequest × String)
  | [] => []
  | r :: rest => (r, (e.answer r).1) :: (e.answer r).2.answers rest

/-- The environment after `requests`. -/
def after (e : Env) (requests : List NameRequest) : Env :=
  requests.foldl (fun e r => (e.answer r).2) e

/-! ## Counters -/

/-- The counters of `e` know the names `taken`, and all candidates below a counter are taken. -/
structure Counted (e : Env) (taken : List String) : Prop where
  /-- A name is taken if there is a counter for it. -/
  mem : ∀ {name}, e.isTaken name = true ↔ name ∈ taken
  /-- A search that starts at the counter misses no free candidate. -/
  below : ∀ {base n m}, e.counters.get? base = some n → m < n → candidate base m ∈ taken

variable {e : Env} {taken : List String}

/-- When the lowering of a binding starts, the names that `c` reserves are counted. -/
theorem counted_ofContext (c : Context) : (ofContext c).Counted c.reserved where
  mem := isTaken_ofContext
  below := by
    intro base n m hget hlt
    obtain ⟨name, hname, heq⟩ := List.mem_map.1 (Table.mem_of_get?_ofList hget)
    obtain ⟨rfl, rfl⟩ := Prod.mk.inj heq
    obtain rfl : m = 0 := by omega
    rwa [candidate_zero]

/-- Below the counter of `base`, from which the search starts, all candidates are taken. -/
theorem Counted.taken_of_lt_start (h : e.Counted taken) {base : String} {m : Nat}
    (hm : m < (e.counters.get? base).getD 0) : candidate base m ∈ taken := by
  cases hget : e.counters.get? base with
  | none =>
    rw [hget] at hm
    cases hm
  | some n =>
    rw [hget] at hm
    exact h.below hget hm

/-- The counters after taking a fresh name, the candidate of number `n`. The search for another one
goes on behind it, and the fresh name gets a counter of its own. -/
theorem fresh_counters (e : Env) (base : String) :
    let n := firstFree e.isTaken base (e.counters.size + 1) ((e.counters.get? base).getD 0)
    ∀ b, (e.fresh base).2.counters.get? b =
      if b = base then some (n + 1) else
      if b = (e.fresh base).1 then some 1 else e.counters.get? b := by
  intro n b
  have hfresh := e.isTaken_fresh_fst base
  have hnone : e.counters.get? (e.fresh base).1 = none := by
    rwa [isTaken, Table.contains, Option.isSome_eq_false_iff, Option.isNone_iff_eq_none] at hfresh
  -- The fresh name may be `base` itself; then the counter is the one that was just set.
  have hcounters : (e.fresh base).2.counters.get? b =
      if b = (e.fresh base).1 then
        some ((if (e.fresh base).1 = base then some (n + 1) else
          e.counters.get? (e.fresh base).1).getD 1)
      else if b = base then some (n + 1) else e.counters.get? b := by
    rw [fresh, Table.insertNew, Table.get?_alter, Table.insert, Table.get?_alter,
      Table.get?_alter]
  rw [hcounters, hnone]
  split
  · rename_i hb
    rw [← hb]
    split <;> rfl
  · rfl

/-- `Env.fresh` finds the first candidate that is not taken, and enters it into the counters. -/
theorem Counted.fresh_spec (h : e.Counted taken) (base : String) :
    ∃ n, (e.fresh base).1 = candidate base n ∧ (e.fresh base).1 ∉ taken ∧
      (∀ m < n, candidate base m ∈ taken) ∧
      ∀ b, (e.fresh base).2.counters.get? b =
        if b = base then some (n + 1) else
        if b = (e.fresh base).1 then some 1 else e.counters.get? b := by
  have hfresh := e.isTaken_fresh_fst base
  have hfree : (e.fresh base).1 ∉ taken := fun hmem => by
    rw [h.mem.2 hmem] at hfresh
    cases hfresh
  refine ⟨_, rfl, hfree, fun m hm => ?_, e.fresh_counters base⟩
  rcases Nat.lt_or_ge m ((e.counters.get? base).getD 0) with hlt | hge
  · exact h.taken_of_lt_start hlt
  · exact h.mem.1 (taken_of_lt_firstFree hge hm)

/-- `Env.fresh` gives the first candidate that is not taken. -/
theorem Counted.isFirstFree_fresh (h : e.Counted taken) (base : String) :
    IsFirstFree taken base (e.fresh base).1 := by
  obtain ⟨n, hname, hfree, hbelow, -⟩ := h.fresh_spec base
  exact ⟨n, hname, hfree, hbelow⟩

/-- `Env.fresh` makes its name taken and no other. -/
theorem Counted.fresh (h : e.Counted taken) (base : String) :
    (e.fresh base).2.Counted (taken ++ [(e.fresh base).1]) := by
  obtain ⟨n, hname, hfree, hbelow, hget⟩ := h.fresh_spec base
  generalize (e.fresh base).1 = name at *
  have hnew : name ∈ taken ++ [name] := List.mem_append_right _ (List.mem_singleton_self _)
  have hupTo {m : Nat} (hm : m < n + 1) : candidate base m ∈ taken ++ [name] := by
    rcases Nat.eq_or_lt_of_le (Nat.lt_succ_iff.1 hm) with rfl | hlt
    · exact hname ▸ hnew
    · exact List.mem_append_left _ (hbelow m hlt)
  -- A counter for `base` makes no new name taken: `base` is the fresh name or was passed over.
  have hbase : base ∈ taken ++ [name] := candidate_zero base ▸ hupTo (Nat.succ_pos n)
  constructor
  · intro x
    rw [isTaken, Table.contains, hget]
    split
    · rename_i hx
      exact iff_of_true rfl (hx ▸ hbase)
    · split
      · rename_i hx
        exact iff_of_true rfl (hx ▸ hnew)
      · rename_i hx
        rw [← Table.contains, ← isTaken, h.mem, List.mem_append, List.mem_singleton, or_iff_left hx]
  · intro b k m hk hlt
    rw [hget] at hk
    split at hk
    · rename_i hb
      obtain rfl := Option.some.inj hk
      exact hb ▸ hupTo hlt
    · split at hk
      · rename_i hb
        obtain rfl := Option.some.inj hk
        obtain rfl : m = 0 := Nat.lt_one_iff.1 hlt
        rwa [candidate_zero, hb]
      · exact List.mem_append_left _ (h.below hk hlt)

/-- Only the counters matter. -/
theorem Counted.congr {e' : Env} (h : e.Counted taken) (heq : e'.counters = e.counters) :
    e'.Counted taken where
  mem := by
    intro name
    rw [isTaken, heq]
    exact h.mem
  below := by rw [heq]; exact h.below

/-- The answer to `r` is taken afterwards, unless it is the name of a binder without one. -/
theorem Counted.answer (h : e.Counted taken) (r : NameRequest) :
    (e.answer r).2.Counted (taken ++ suppliedNames [(r, (e.answer r).1)]) := by
  match r with
  | .fresh base => exact h.fresh base
  | .bind ⟨some base, level⟩ => exact (h.fresh base).congr rfl
  | .bind ⟨none, level⟩ =>
    show Counted _ (taken ++ [])
    rw [List.append_nil]
    exact h.congr rfl

/-- A request for a name made from `base` is answered by a fresh name. -/
theorem answer_fst (e : Env) {r : NameRequest} {base : String} (hr : r.base? = some base) :
    (e.answer r).1 = (e.fresh base).1 := by
  match r with
  | .fresh _ =>
    obtain rfl := Option.some.inj hr
    rfl
  | .bind ⟨some _, level⟩ =>
    obtain rfl := Option.some.inj hr
    rfl

/-- The answer to a request for a name made from `base` is the first candidate that is not taken. -/
theorem Counted.isFirstFree_answer (h : e.Counted taken) {r : NameRequest} {base : String}
    (hr : r.base? = some base) : IsFirstFree taken base (e.answer r).1 :=
  e.answer_fst hr ▸ h.isFirstFree_fresh base

/-- The answer to a request for a name made from `base` is a candidate for it. -/
theorem answer_eq_candidate (e : Env) {r : NameRequest} {base : String} (hr : r.base? = some base) :
    ∃ n, (e.answer r).1 = candidate base n := ⟨_, e.answer_fst hr⟩

/-! ## Sequences of requests -/

/-- `answers` goes through requests one after another. -/
theorem answers_append (e : Env) (before later : List NameRequest) :
    e.answers (before ++ later) = e.answers before ++ (e.after before).answers later := by
  induction before generalizing e with
  | nil => rfl
  | cons r rest ih => exact congrArg (_ :: ·) (ih _)

/-- An answer is what its request gets after those before it. -/
theorem mem_answers_iff {requests : List NameRequest} {a : NameRequest × String} :
    a ∈ e.answers requests ↔ ∃ before later, requests = before ++ a.1 :: later ∧
      a.2 = ((e.after before).answer a.1).1 := by
  constructor
  · intro h
    induction requests generalizing e with
    | nil => cases h
    | cons r rest ih =>
      rcases List.mem_cons.1 h with rfl | h
      · exact ⟨[], rest, rfl, rfl⟩
      · obtain ⟨before, later, rfl, heq⟩ := ih h
        exact ⟨r :: before, later, rfl, heq⟩
  · rintro ⟨before, later, rfl, heq⟩
    rw [answers_append]
    exact List.mem_append_right _ (List.mem_cons.2 (.inl (Prod.ext rfl heq)))

/-- The supplied name of the answer `a`, if it is one, and those of the others. -/
theorem suppliedNames_cons (a : NameRequest × String) (answers : List (NameRequest × String)) :
    suppliedNames (a :: answers) = suppliedNames [a] ++ suppliedNames answers := by
  rw [suppliedNames, ← List.singleton_append, List.filter_append, List.map_append]
  rfl

/-- After `requests`, the names that they were supplied with are taken as well. -/
theorem Counted.after (h : e.Counted taken) (requests : List NameRequest) :
    (e.after requests).Counted (taken ++ suppliedNames (e.answers requests)) := by
  induction requests generalizing e taken with
  | nil => exact (List.append_nil taken).symm ▸ h
  | cons r rest ih =>
    rw [answers, suppliedNames_cons, ← List.append_assoc]
    exact ih (h.answer r)

/-- The names that `requests` are supplied with are new and distinct. By induction on the
requests. -/
theorem Counted.supplied (h : e.Counted taken) (requests : List NameRequest) :
    (suppliedNames (e.answers requests)).Nodup ∧
      (suppliedNames (e.answers requests)).Disjoint taken := by
  induction requests generalizing e taken with
  | nil => exact ⟨List.nodup_nil, List.disjoint_nil_left _⟩
  | cons r rest ih =>
    obtain ⟨hnodup, hdisjoint⟩ := ih (h.answer r)
    obtain ⟨holder, hnew⟩ := List.disjoint_append_right.1 hdisjoint
    have hfirst : (suppliedNames [(r, (e.answer r).1)]).Nodup ∧
        (suppliedNames [(r, (e.answer r).1)]).Disjoint taken := by
      cases hr : r.base? with
      | none =>
        have hnil : suppliedNames [(r, (e.answer r).1)] = [] := by simp [suppliedNames, hr]
        rw [hnil]
        exact ⟨List.nodup_nil, List.disjoint_nil_left _⟩
      | some base =>
        have hone : suppliedNames [(r, (e.answer r).1)] = [(e.answer r).1] := by
          simp [suppliedNames, hr]
        obtain ⟨-, -, hfree, -⟩ := h.isFirstFree_answer hr
        rw [hone]
        exact ⟨List.nodup_singleton _, List.singleton_disjoint.2 hfree⟩
    rw [answers, suppliedNames_cons]
    exact ⟨List.nodup_append'.2 ⟨hfirst.1, hnodup, hnew.symm⟩,
      List.disjoint_append_left.2 ⟨hfirst.2, holder⟩⟩

/-- A supplied name is a candidate for what one of `requests` asks for. -/
theorem exists_of_mem_suppliedNames {requests : List NameRequest} {name : String}
    (h : name ∈ suppliedNames (e.answers requests)) :
    ∃ r ∈ requests, ∃ base n, r.base? = some base ∧ name = candidate base n := by
  obtain ⟨a, ha, rfl⟩ := List.mem_map.1 h
  obtain ⟨ha, hnamed⟩ := List.mem_filter.1 ha
  obtain ⟨before, later, rfl, hanswer⟩ := mem_answers_iff.1 ha
  obtain ⟨base, hbase⟩ := Option.isSome_iff_exists.1 hnamed
  obtain ⟨n, hname⟩ := (e.after before).answer_eq_candidate hbase
  exact ⟨a.1, by simp, base, n, hbase, hanswer.trans hname⟩

end Env

/-- Whatever was asked for before, a fresh name and the name of a named binder are the first of `x`,
`x$1`, `x$2`, … that is neither reserved for the module nor supplied before. So no name is supplied
twice, and none that is reserved. -/
theorem fresh_names_first_free (c : Context) :
    (∀ (before : List NameRequest) (base : String),
      let taken := c.reserved ++ suppliedNames ((Env.ofContext c).answers before)
      let e := (Env.ofContext c).after before
      IsFirstFree taken base (e.fresh base).1 ∧
        ∀ level, IsFirstFree taken base (e.bind ⟨some base, level⟩).1) ∧
    ∀ requests : List NameRequest,
      (suppliedNames ((Env.ofContext c).answers requests)).Nodup ∧
        (suppliedNames ((Env.ofContext c).answers requests)).Disjoint c.reserved := by
  have hstart := Env.counted_ofContext c
  refine ⟨fun before base => ?_, hstart.supplied⟩
  have hcounted := hstart.after before
  exact ⟨hcounted.isFirstFree_fresh base,
    fun level => hcounted.isFirstFree_answer (r := .bind ⟨some base, level⟩) rfl⟩

/-! ## Binders without a name -/

/-- A candidate of number `1` or more does not look like the name of a binder without one. -/
theorem candidate_eq_unnamed {base : String} {n : Nat} {level : UInt32}
    (h : candidate base n = Env.unnamed level) : base = Env.unnamed level := by
  unfold candidate at h
  split at h
  · exact h
  · refine absurd ?_ (dollar_not_mem_of_isUnnamed (isUnnamed_unnamed level))
    simp [← h]

/-- If no request asks for a name of that form, nothing else gets the name of a binder without
one. -/
theorem Env.ne_unnamed_of_mem_answers {e : Env} {requests : List NameRequest} {level : UInt32}
    {a : NameRequest × String} (ha : a ∈ e.answers requests) (hne : a.1 ≠ .bind ⟨none, level⟩)
    (hbases : ∀ r ∈ requests, r.base? ≠ some (unnamed level)) : a.2 ≠ unnamed level := by
  intro heq
  obtain ⟨before, later, rfl, hanswer⟩ := mem_answers_iff.1 ha
  cases hbase : a.1.base? with
  | some base =>
    obtain ⟨n, hname⟩ := (e.after before).answer_eq_candidate hbase
    have hform : base = unnamed level :=
      candidate_eq_unnamed (hname.symm.trans (hanswer.symm.trans heq))
    exact hbases a.1 (by simp) (hform ▸ hbase)
  | none =>
    match hrequest : a.1, hbase with
    | .bind ⟨none, level'⟩, _ =>
      rw [hrequest] at hanswer hne
      obtain rfl := unnamed_injective (hanswer.symm.trans heq)
      exact hne rfl

/-- If `name` is not taken, the first request for it gets it. -/
theorem Env.Counted.exists_answer {e : Env} {taken : List String} (h : e.Counted taken)
    {requests : List NameRequest} {r : NameRequest} {name : String} (hr : r ∈ requests)
    (hbase : r.base? = some name) (hfree : name ∉ taken) :
    ∃ a ∈ e.answers requests, a.1.base?.isSome ∧ a.2 = name := by
  obtain ⟨before, later, rfl⟩ := List.append_of_mem hr
  obtain ⟨n, hname, -, hbelow⟩ := (h.after before).isFirstFree_answer hbase
  cases n with
  | zero =>
    exact ⟨(r, _), mem_answers_iff.2 ⟨before, later, rfl, rfl⟩, by simp [hbase],
      hname.trans (candidate_zero name)⟩
  | succ n =>
    -- The name is taken before `r` is answered, so an earlier request has got it.
    have htaken := hbelow 0 n.succ_pos
    rw [candidate_zero] at htaken
    obtain ⟨a, ha, heq⟩ := List.mem_map.1 ((List.mem_append.1 htaken).resolve_left hfree)
    obtain ⟨ha, hsome⟩ := List.mem_filter.1 ha
    rw [answers_append]
    exact ⟨a, List.mem_append_left _ ha, hsome, heq⟩

/-- The name of a binder that has none of its own differs from all names of the module and from all
other answers just if neither `c` nor a request has a name of that very form. -/
theorem unnamed_apart_iff (c : Context) (requests : List NameRequest) (level : UInt32) :
    (Env.unnamed level ∉ c.reserved ∧ ∀ a ∈ (Env.ofContext c).answers requests,
        a.1 ≠ .bind ⟨none, level⟩ → a.2 ≠ Env.unnamed level) ↔
      Env.unnamed level ∉ c.reserved ∧
        ∀ r ∈ requests, r.base? ≠ some (Env.unnamed level) := by
  refine and_congr_right fun hreserved => ⟨fun hanswers r hr hbase => ?_, fun hbases a ha hne =>
    Env.ne_unnamed_of_mem_answers ha hne hbases⟩
  obtain ⟨a, ha, hsome, heq⟩ := (Env.counted_ofContext c).exists_answer hr hbase hreserved
  refine hanswers a ha (fun hbind => ?_) heq
  rw [hbind] at hsome
  cases hsome

/-- A unit with a binding of that form, and a function that refers to it and whose parameter has no
name of its own. -/
def underscoreUnit : CompilationUnit :=
  { CompilationUnit.empty "Main" with
    groups := [⟨false, [("_0", .lit () (.int 5))]⟩,
      ⟨false, [("f", .abs () .curried [⟨none, 0⟩] (.global () ⟨none, "_0"⟩))]⟩] }

/-- The name of the binding is reserved, and yet the parameter gets it and captures the
reference. -/
theorem name_captured_underscoreUnit :
    "_0" ∈ (Context.ofUnit underscoreUnit true).reserved ∧
      (Lower.module underscoreUnit true).result.declarations =
        [.const "_0" (.int 5), .const "f" (.curried ["_0"] [.ret (.ident "_0")])] :=
  ⟨by decide, rfl⟩

end Lower

end TailLoop
