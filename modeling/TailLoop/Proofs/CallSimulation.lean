import TailLoop.Proofs.Arrivals

/-!
# Calls of functions that are the same

Functions that stand for the same term can be called with arguments that are the same: if the blocks
of terms are simulated by smaller engines, so is the call. A function that still waits for arguments
becomes one that waits for fewer; one that has all of them arrives at the block of its term.

* `BlockSim`: what it means that the blocks of a term are simulated.
* `started_sim`: blocks that are executed with arguments that are the same.
* `sim_call`: calls.
-/

namespace TailLoop.Emit

open Script Lower

variable {S : Type}

/-- The versions of a closed unit whose group members `P` can tell apart by their numbers, both of
one module. -/
structure Versions.Fit (V : Versions) (P : Primitives S) : Prop where
  closed_left : V.left.closed
  closed_right : V.right.closed
  apart_left : P.TellsApart V.left.size
  apart_right : P.TellsApart V.right.size
  name : V.left.context.name = V.right.context.name

/-- `W` speaks of no cell of `own` in the first store and of none of `own'` in the second. -/
structure Clear (W : World S) (own own' : Nat → Prop) : Prop where
  left : ∀ {ℓ}, own ℓ → ¬W.usesLeft ℓ
  right : ∀ {ℓ}, own' ℓ → ¬W.usesRight ℓ

/-- The blocks of a term are simulated with an engine of size `n`. -/
def BlockSim (P : Primitives S) (V : Versions) (n : Nat) (t : Analyzed) : Prop :=
  ∀ {W : World S} {s s' : Store S} {own own' : Nat → Prop} {refs : List Ref} {ts : List Analyzed}
    {B B' : Band} {σ σ' : Naming} {ρ ρ' : Scope} {p p' : Purpose} {b b' : List Stmt}
    {K K' : Nat → Completion S → Compute S (Val S)},
    Fellows V W refs ts B B' → Agree V W σ ρ σ' ρ' → Owns V t → Stores V W s s' →
    Clear W own own' → p.runs = p'.runs → Block V.left p (namesOf ρ) σ t b →
    Stage P V.left refs ts B own s ρ p b K → Block V.right p' (namesOf ρ') σ' t b' →
    Stage P V.right refs ts B' own' s' ρ' p' b' K' →
    SimAt V own own' W s s' (exec P (engine P n) ρ b >>= K n)
      (fun m => exec P (engine P m) ρ' b' >>= K' m) fun W₁ _ _ => Same V W₁

section

variable {P : Primitives S} {V : Versions} {W W₁ : World S} {s s' s₁ s₁' : Store S}
  {own own' : Nat → Prop}

/-! ## Values in cells -/

/-- `W.settle ps` speaks of cells of `W` and of the first ones of `ps` only. -/
theorem World.usesLeft_settle {ps : List (Nat × Nat)} {ℓ : Nat} (h : (W.settle ps).usesLeft ℓ) :
    W.usesLeft ℓ ∨ ∃ p ∈ ps, p.1 = ℓ := by
  rcases h with ⟨ℓ', (hj | hj) | hj⟩ | ⟨v, hv⟩
  · exact .inl (.inl ⟨ℓ', .inl hj⟩)
  · exact .inr ⟨_, hj, rfl⟩
  · exact .inl (.inl ⟨ℓ', .inr hj⟩)
  · exact .inl (.inr ⟨v, hv⟩)

/-- `W.settle ps` speaks of cells of `W` and of the second ones of `ps` only. -/
theorem World.usesRight_settle {ps : List (Nat × Nat)} {ℓ : Nat} (h : (W.settle ps).usesRight ℓ) :
    W.usesRight ℓ ∨ ∃ p ∈ ps, p.2 = ℓ := by
  rcases h with ⟨ℓ', (hj | hj) | hj⟩ | ⟨v, hv⟩
  · exact .inl (.inl ⟨ℓ', .inl hj⟩)
  · exact .inr ⟨_, hj, rfl⟩
  · exact .inl (.inl ⟨ℓ', .inr hj⟩)
  · exact .inl (.inr ⟨v, hv⟩)

/-- Cells that hold values which are `SameAll` are `SameCell`. -/
theorem sameCells_of_holds {cs cs' : List Nat} {vs vs' : List (Val S)} (h : Holds s cs vs)
    (h' : Holds s' cs' vs') (hvs : SameAll V W vs vs') :
    cs.length = cs'.length ∧ ∀ p ∈ cs.zip cs', ∃ c c', s[p.1]? = some c ∧ s'[p.2]? = some c' ∧
      SameCell V W c c' ∧ c ≠ .empty := by
  induction h generalizing cs' vs' with
  | nil =>
    cases hvs
    cases h'
    exact ⟨rfl, by nofun⟩
  | @cons ℓ v cs vs hv _ ih =>
    cases hvs with
    | cons hsame hvs =>
      cases h' with
      | @cons ℓ' _ cs' _ hv' h' =>
        obtain ⟨hlen, hcells⟩ := ih h' hvs
        refine ⟨congrArg (· + 1) hlen, fun p hp => ?_⟩
        rcases List.mem_cons.1 (List.zip_cons_cons .. ▸ hp) with rfl | hp
        · obtain ⟨c, hc, hvalue⟩ := Option.bind_eq_some_iff.1 hv
          obtain ⟨c', hc', hvalue'⟩ := Option.bind_eq_some_iff.1 hv'
          refine ⟨c, c', hc, hc', .value hvalue hvalue' hsame, ?_⟩
          rintro rfl
          cases hvalue
        · exact hcells p hp

/-- Settled cells hold values that are `SameAll`. -/
theorem holds_of_settled (hstores : Stores V W s s') {taken taken' : Scope}
    (h : List.Forall₂ (fun p p' => W.settled p.2 p'.2) taken taken') :
    ∃ vs vs', Holds s (taken.map Prod.snd) vs ∧ Holds s' (taken'.map Prod.snd) vs' ∧
      SameAll V W vs vs' := by
  induction h with
  | nil => exact ⟨[], [], .nil, .nil, .nil⟩
  | cons hj _ ih =>
    obtain ⟨vs, vs', hvs, hvs', hsame⟩ := ih
    obtain ⟨c, c', hc, hc', hcell⟩ := hstores.cells (.inl hj)
    cases hcell with
    | empty => exact (hstores.filled hj hc).elim
    | @value _ _ v v' hv hv' hv₁ =>
      exact ⟨v :: vs, v' :: vs', .cons (by rw [hc]; exact hv) hvs,
        .cons (by rw [hc']; exact hv') hvs',
        .cons hv₁ hsame⟩

/-- `arguments` fills the parameters with values that are `SameAll`, if the arguments are. -/
theorem SameAll.arguments {ps ps' : List String} {vs vs' : List (Val S)} (h : SameAll V W vs vs')
    (hlen : ps.length = ps'.length) :
    SameAll V W (arguments P ps vs) (arguments P ps' vs') := by
  induction ps generalizing ps' vs vs' with
  | nil =>
    obtain rfl : ps' = [] := List.eq_nil_of_length_eq_zero hlen.symm
    exact .nil
  | cons p ps ih =>
    cases ps' with
    | nil => cases hlen
    | cons p' ps' => exact .cons (h.headD _) (ih h.tail (Nat.succ.inj hlen))

/-! ## Blocks that are executed with arguments -/

/-- Blocks of one term that were `Started` with arguments that are `SameAll` simulate each other. -/
theorem started_sim {n : Nat} {refs : List Ref} {ts : List Analyzed} {B B' : Band} {runs : Bool}
    {params : List Binder} {u : Analyzed} {vs vs' : List (Val S)}
    {x y : Nat → Compute S (Val S)} {own₁ own₁' fresh fresh' : Nat → Prop}
    (hsim : BlockSim P V n u) (hfellows : Fellows V W refs ts B B') (howns : Owns V u)
    (hstores : Stores V W s s') (hclear : Clear W own₁ own₁')
    (hx : Started P V.left refs ts B own₁ fresh s runs params u vs x)
    (hy : Started P V.right refs ts B' own₁' fresh' s' runs params u vs' y)
    (hvs : SameAll V W vs vs') (hown : ∀ ℓ, own₁ ℓ → own ℓ) (hown' : ∀ ℓ, own₁' ℓ → own' ℓ)
    (hfresh : ∀ ℓ, fresh ℓ → (∀ m, ¬W.paired ℓ m) ∧ (own ℓ ∨ W.usesLeft ℓ))
    (hfresh' : ∀ ℓ, fresh' ℓ → (∀ m, ¬W.paired m ℓ) ∧ (own' ℓ ∨ W.usesRight ℓ)) :
    SimAt V own own' W s s' (x n) y fun W₁ _ _ => Same V W₁ := by
  cases hx with
  | @mk p K ks cs rest names hp hblock hlen hks hheld hcs hstage =>
    cases hy with
    | @mk p' K' ks' cs' rest' names' hp' hblock' hlen' hks' hheld' hcs' hstage' =>
      -- The blocks start in a world that counts the cells of the arguments as settled pairs:
      -- everything below the pairs it already had stays, and the new cells were neither paired nor
      -- used before.
      obtain ⟨hlength, hcells⟩ := sameCells_of_holds hheld hheld' hvs
      have hmem {q : Nat × Nat} (hq : q ∈ cs.zip cs') : q.1 ∈ cs ∧ q.2 ∈ cs' := List.of_mem_zip hq
      have hstores₁ : Stores V (W.settle (cs.zip cs')) s s' := hstores.settle fun q hq =>
        ⟨hcells q hq, (hfresh _ (hcs _ (hmem hq).1).1).1, (hfresh' _ (hcs' _ (hmem hq).2).1).1⟩
      have hle := W.le_settle (cs.zip cs')
      -- An own cell is used neither by the old world nor as an argument, since a block does not own
      -- the cells of its arguments.
      have hclear₁ : Clear (W.settle (cs.zip cs')) own₁ own₁' := by
        refine ⟨fun ho hu => ?_, fun ho hu => ?_⟩
        · rcases World.usesLeft_settle hu with hu | ⟨q, hq, rfl⟩
          · exact hclear.left ho hu
          · exact (hcs _ (hmem hq).1).2 ho
        · rcases World.usesRight_settle hu with hu | ⟨q, hq, rfl⟩
          · exact hclear.right ho hu
          · exact (hcs' _ (hmem hq).2).2 ho
      -- What the new world uses beyond the old one are the cells of the arguments, which are own
      -- cells or were used already.
      have hgrows : Grows own own' s s' W (W.settle (cs.zip cs')) := by
        refine ⟨hle, fun _ hnot hu => ?_, fun _ hnot hu => ?_⟩
        · rcases World.usesLeft_settle hu with hu | ⟨q, hq, rfl⟩
          · exact hu
          · exact ((hfresh _ (hcs _ (hmem hq).1).1).2).resolve_left hnot
        · rcases World.usesRight_settle hu with hu | ⟨q, hq, rfl⟩
          · exact hu
          · exact ((hfresh' _ (hcs' _ (hmem hq).2).1).2).resolve_left hnot
      have hagree := ((hfellows.agree.mono hle).extend names names').bind hlen hks hks'
        (List.forall₂_iff_zip.2 ⟨hlength, fun {c c'} hc => .inl (.inr hc)⟩)
      have hrest := hsim (hfellows.mono hle) hagree howns hstores₁ hclear₁
        (hp.trans hp'.symm) hblock
        hstage hblock' hstage'
      exact .step (.refl s) (.refl s') hgrows
        (hrest.mono (fun ℓ _ h => .inl (hown ℓ h)) (fun ℓ _ h => .inl (hown' ℓ h))
          fun _ _ _ _ _ _ => id) rfl fun _ => id

/-- A function that belongs to no group has no `Fellows`. -/
theorem Fellows.nil {σ σ' : Naming} {ρ ρ' : Scope} (h : Agree V W σ ρ σ' ρ') :
    Fellows V W [] [] ⟨σ, ρ, []⟩ ⟨σ', ρ', []⟩ where
  agree := h
  length_refs := rfl
  length_left := rfl
  length_right := rfl
  nodup := .nil
  owns := by nofun
  paired hc := nomatch hc
  left ht := nomatch ht
  right ht := nomatch ht

/-! ## Functions that wait for arguments -/

/-- An arrow is built without any effect. -/
theorem eval_arrow (call : Val S → List (Val S) → Compute S (Val S)) (ρ : Scope)
    (params : List String) (body : List Stmt) :
    eval P call ρ (.arrow params body) = pure (.function params body ρ) := by
  rw [eval]

/-- A curried function is built without any effect. -/
theorem eval_curried (call : Val S → List (Val S) → Compute S (Val S)) (ρ : Scope)
    (names : List String) (body : List Stmt) :
    eval P call ρ (.curried names body) = pure (curriedFn ρ names body) :=
  match names with
  | [] | [_] | _ :: _ :: _ => eval_arrow ..

/-- A `curriedFn` keeps an argument that is not the last one in a new cell. -/
theorem call_curriedFn (n : Nat) (ρ : Scope) (p q : String) (rest : List String) (body : List Stmt)
    (vs : List (Val S)) (s : Store S) :
    (engine P (n + 1)).call (curriedFn ρ (p :: q :: rest) body) vs s =
      some (.ok (curriedFn (extend ρ [(p, s.length)]) (q :: rest) body,
        s ++ [.assignable (vs.headD (.scalar P.undefined))])) := by
  have hfn : (curriedFn ρ (p :: q :: rest) body : Val S) =
      .function [p] [.ret (.curried (q :: rest) body)] ρ := rfl
  rw [hfn, call_apply, execBlock_of_declared rfl, exec_ret n _ _ fun _ => conclude P, eval_curried]
  rfl

/-- Two computations simulate each other if every engine but the smallest gives `a` to the one and
`b` to the other. -/
theorem SimAt.of_ok {α β : Type} {n : Nat} {x : Nat → Compute S α} {y : Nat → Compute S β} {a : α}
    {b : β} {Q : World S → Store S → Store S → α → β → Prop} (hzero : x 0 s = none)
    (hx : ∀ n, x (n + 1) s = some (.ok (a, s₁))) (hy : ∀ n, y (n + 1) s' = some (.ok (b, s₁')))
    (hs : Extends own s s₁) (hs' : Extends own' s' s₁') (hgrows : Grows own own' s s' W W₁)
    (hstores : Stores V W₁ s₁ s₁') (hq : Q W₁ s₁ s₁' a b) : SimAt V own own' W s s' (x n) y Q := by
  intro o ho
  cases n with
  | zero =>
    rw [hzero] at ho
    cases ho
  | succ n =>
    obtain rfl := Option.some.inj ((hx n).symm.trans ho)
    exact ⟨_, .succ (.of_eq hy), .ok hgrows hs hs' hstores hq⟩

/-- New cells at the ends of both stores that hold what is the `Same` can be settled. -/
theorem Stores.push (hstores : Stores V W s s') {v v' : Val S} (hv : Same V W v v') :
    Stores V (W.settle [(s.length, s'.length)]) (s ++ [.assignable v]) (s' ++ [.assignable v']) ∧
      Grows nothing nothing s s' W (W.settle [(s.length, s'.length)]) := by
  have hfree : (∀ m, ¬W.paired s.length m) ∧ ∀ m, ¬W.paired m s'.length :=
    ⟨fun m hp => Nat.lt_irrefl _ (hstores.lt_left (.inl ⟨m, .inr hp⟩)),
      fun m hp => Nat.lt_irrefl _ (hstores.lt_right (.inl ⟨m, .inr hp⟩))⟩
  refine ⟨Stores.settle (hstores.extend (.append ..) (.append ..) (fun _ => False.elim)
    fun _ => False.elim) fun q hq => ?_, W.le_settle _, fun hlt _ hu => ?_, fun hlt _ hu => ?_⟩
  · obtain rfl := List.mem_singleton.1 hq
    exact ⟨⟨.assignable v, .assignable v', by simp, by simp, .value rfl rfl hv, by nofun⟩, hfree⟩
  · rcases World.usesLeft_settle hu with hu | ⟨q, hq, rfl⟩
    · exact hu
    · obtain rfl := List.mem_singleton.1 hq
      exact (Nat.lt_irrefl _ hlt).elim
  · rcases World.usesRight_settle hu with hu | ⟨q, hq, rfl⟩
    · exact hu
    · obtain rfl := List.mem_singleton.1 hq
      exact (Nat.lt_irrefl _ hlt).elim

/-- Calls of curried functions that keep one more argument simulate each other. -/
theorem sim_keep {n : Nat} {ρ ρ' : Scope} {p q p' q' : String} {rest rest' : List String}
    {body body' : List Stmt} {vs vs' : List (Val S)} (hvs : SameAll V W vs vs')
    (hf : ∀ W₁ ℓ ℓ', W ≤ W₁ → W₁.settled ℓ ℓ' →
      Same V W₁ (curriedFn (extend ρ [(p, ℓ)]) (q :: rest) body)
        (curriedFn (extend ρ' [(p', ℓ')]) (q' :: rest') body')) :
    Sim V W ((engine P n).call (curriedFn ρ (p :: q :: rest) body) vs)
      (fun m => (engine P m).call (curriedFn ρ' (p' :: q' :: rest') body') vs') (Same V) := by
  intro s s' hstores
  obtain ⟨hstores₁, hgrows⟩ := hstores.push (hvs.headD P.undefined)
  exact .of_ok (x := fun n => (engine P n).call (curriedFn ρ (p :: q :: rest) body) vs) rfl
    (fun n => call_curriedFn ..) (fun n => call_curriedFn ..) (.append ..) (.append ..) hgrows
    hstores₁ (hf _ _ _ (W.le_settle _) (.inr (List.mem_singleton.2 rfl)))

/-! ## Calls -/

/-- Calls that arrive at blocks of one term with arguments that are `SameAll` simulate each
other. -/
theorem sim_started {n : Nat} {refs : List Ref} {ts : List Analyzed} {B B' : Band} {runs : Bool}
    {params : List Binder} {u : Analyzed} {vs vs' : List (Val S)} {k l : Nat}
    {x₀ x y₀ y : Nat → Compute S (Val S)} {own own' fresh fresh' : Nat → Prop}
    (ih : ∀ m < n, BlockSim P V m u) (hfellows : Fellows V W refs ts B B') (howns : Owns V u)
    (hstores : Stores V W s s') (hvs : SameAll V W vs vs')
    (hx : Arrives (k + 1) x₀ s x s₁) (hs : Extends nothing s s₁) (hown : ∀ ℓ, own ℓ → s.length ≤ ℓ)
    (hstarted : Started P V.left refs ts B own fresh s₁ runs params u vs x)
    (hfresh : ∀ ℓ, fresh ℓ → (∃ ℓ', W.settled ℓ ℓ') ∨ s.length ≤ ℓ)
    (hy : Arrives l y₀ s' y s₁') (hs' : Extends nothing s' s₁')
    (hown' : ∀ ℓ, own' ℓ → s'.length ≤ ℓ)
    (hstarted' : Started P V.right refs ts B' own' fresh' s₁' runs params u vs' y)
    (hfresh' : ∀ ℓ, fresh' ℓ → (∃ ℓ', W.settled ℓ' ℓ) ∨ s'.length ≤ ℓ) :
    SimAt V nothing nothing W s s' (x₀ n) y₀ fun W₁ _ _ => Same V W₁ := by
  refine .arrives hx hy hs hs' (.refl W) fun m hm => ?_
  have hold {ℓ : Nat} (hu : W.usesLeft ℓ) : ¬s.length ≤ ℓ := Nat.not_le.2 (hstores.lt_left hu)
  have hold' {ℓ : Nat} (hu : W.usesRight ℓ) : ¬s'.length ≤ ℓ := Nat.not_le.2 (hstores.lt_right hu)
  refine started_sim (ih m (by omega)) hfellows howns
    (hstores.extend hs hs' (fun _ => False.elim) fun _ => False.elim)
    ⟨fun ho hu => hold hu (hown _ ho), fun ho hu => hold' hu (hown' _ ho)⟩ hstarted hstarted' hvs
    (fun ℓ ho => .inr (hown ℓ ho)) (fun ℓ ho => .inr (hown' ℓ ho)) (fun ℓ hℓ => ?_) fun ℓ hℓ => ?_
  · rcases hfresh ℓ hℓ with ⟨ℓ', hj⟩ | hle
    · exact ⟨fun m => hstores.settled_left hj, .inr (.inl ⟨ℓ', .inl hj⟩)⟩
    · exact ⟨fun m hp => hold (.inl ⟨m, .inr hp⟩) hle, .inl (.inr hle)⟩
  · rcases hfresh' ℓ hℓ with ⟨ℓ', hj⟩ | hle
    · exact ⟨fun m => hstores.settled_right hj, .inr (.inl ⟨ℓ', .inl hj⟩)⟩
    · exact ⟨fun m hp => hold' (.inl ⟨m, .inr hp⟩) hle, .inl (.inr hle)⟩

/-- The cells of `taken` and `taken'` that are settled pairwise are settled one by one. -/
theorem exists_settled {taken taken' : Scope}
    (h : List.Forall₂ (fun p p' => W.settled p.2 p'.2) taken taken') {ℓ : Nat} :
    (ℓ ∈ taken.map Prod.snd → ∃ ℓ', W.settled ℓ ℓ') ∧
      (ℓ ∈ taken'.map Prod.snd → ∃ ℓ', W.settled ℓ' ℓ) := by
  refine ⟨fun hℓ => ?_, fun hℓ => ?_⟩
  · obtain ⟨p, hp, rfl⟩ := List.mem_map.1 hℓ
    obtain ⟨p', hj⟩ := exists_of_forall₂ h hp
    exact ⟨p'.2, hj⟩
  · obtain ⟨p, hp, rfl⟩ := List.mem_map.1 hℓ
    have hflip : List.Forall₂ (fun p' p => W.settled p.2 p'.2) taken' taken := h.flip
    obtain ⟨p', hj⟩ := exists_of_forall₂ hflip hp
    exact ⟨p'.2, hj⟩

/-- Calls of member `i` with the last of its arguments simulate each other. -/
theorem sim_curried_last {n : Nat} {refs : List Ref} {ts : List Analyzed} {B B' : Band} {i : Nat}
    {t : Analyzed} {taken taken' : Scope} {rest rest' : List String} {body body' : List Stmt}
    {vs vs' : List (Val S)} (hfit : V.Fit P) (ih : ∀ m < n, ∀ u, BlockSim P V m u)
    (hfellows : Fellows V W refs ts B B')
    (hleft : Enters V.left W.left refs ts B i t (taken.map Prod.fst ++ rest) body)
    (hright : Enters V.right W.right refs ts B' i t (taken'.map Prod.fst ++ rest') body')
    (howns : Owns V t.inner)
    (htaken : List.Forall₂ (fun p p' => W.settled p.2 p'.2) taken taken')
    (hrest : rest.length = rest'.length) (hvs : SameAll V W vs vs') :
    Sim V W ((engine P n).call (.function rest body (extend B.scope taken)) vs)
      (fun m => (engine P m).call (.function rest' body' (extend B'.scope taken')) vs')
      (Same V) := by
  intro s s' hstores
  obtain ⟨us, us', hus, hus', hsame⟩ := holds_of_settled hstores htaken
  obtain ⟨k, x, s₁, own, harrives, hs, hown, hstarted⟩ :=
    started_call vs hleft hus hstores.left hfit.apart_left
  obtain ⟨l, y, s₁', own', harrives', hs', hown', hstarted'⟩ :=
    started_call vs' hright hus' hstores.right hfit.apart_right
  exact sim_started (fun m hm => ih m hm t.inner) hfellows howns hstores
    (hsame.append (hvs.arguments hrest)) harrives hs hown hstarted
    (fun ℓ => Or.imp_left (exists_settled htaken).1) harrives' hs' hown' hstarted'
    fun ℓ => Or.imp_left (exists_settled htaken).2

/-- Calls of functions that take their arguments at once simulate each other. -/
theorem sim_arrow {n : Nat} {p : Purpose} {σ σ' : Naming} {ρ ρ' : Scope}
    {names names' : List String}
    {params : List Binder} {t : Analyzed} {block block' : List Stmt} {vs vs' : List (Val S)}
    (ih : ∀ m < n, ∀ u, BlockSim P V m u) (hp : p = .plain ∨ p = .effect)
    (hagree : Agree V W σ ρ σ' ρ') (howns : Owns V t) (hlen : names.length = params.length)
    (hlen' : names'.length = params.length)
    (hbody : Body V.left p names (enter (namesOf ρ) names) (params.zipIdx (namesOf ρ).length ++ σ) t
      block)
    (hbody' : Body V.right p names' (enter (namesOf ρ') names')
      (params.zipIdx (namesOf ρ').length ++ σ') t block') (hvs : SameAll V W vs vs') :
    Sim V W ((engine P n).call (.function names block ρ) vs)
      (fun m => (engine P m).call (.function names' block' ρ') vs') (Same V) := by
  -- The call takes one step to store the arguments; where the body then starts is the same lemma
  -- for both sides, so it is stated once and used twice.
  have hloop (frame : LoopFrame) : p ≠ .loop frame := by rcases hp with rfl | rfl <;> nofun
  have hstart {E : Setting} {σ : Naming} {ρ : Scope} {names : List String} {block : List Stmt}
      (hlen : names.length = params.length)
      (hbody : Body E p names (enter (namesOf ρ) names) (params.zipIdx (namesOf ρ).length ++ σ) t
        block) (vs : List (Val S)) (s : Store S) :
      ∃ x s₁, Arrives 1 (fun n => (engine P n).call (.function names block ρ) vs) s x s₁ ∧
        Extends nothing s s₁ ∧ Started P E [] [] ⟨σ, ρ, []⟩
          ((s ++ paramCells P names vs).length ≤ ·)
          (· ∈ List.range' s.length names.length) s₁ p.runs params t (arguments P names vs) x := by
    obtain ⟨x, s₁, harrives, hs, hstarted⟩ := started_body (B := ⟨σ, ρ, []⟩) [] [] hloop hbody hlen
      (by simp) (holds_paramCells (P := P) s names vs)
    have hcall : Arrives 1 (fun n => (engine P n).call (.function names block ρ) vs) s _
        (s ++ paramCells P names vs) := .of_succ rfl fun n => call_apply ..
    exact ⟨x, s₁, hcall.trans harrives, Extends.comp (.append ..) hs, hstarted⟩
  intro s s' hstores
  obtain ⟨x, s₁, harrives, hs, hstarted⟩ := hstart hlen hbody vs s
  obtain ⟨y, s₁', harrives', hs', hstarted'⟩ := hstart hlen' hbody' vs' s'
  have hnew {s : Store S} {cells : Store S} {ℓ : Nat} (hℓ : (s ++ cells).length ≤ ℓ) :
      s.length ≤ ℓ := by
    rw [List.length_append] at hℓ
    omega
  exact sim_started (k := 0) (fun m hm => ih m hm t) (.nil hagree) howns hstores
    (hvs.arguments (hlen.trans hlen'.symm)) harrives hs (fun _ => hnew) hstarted
    (fun ℓ hℓ => .inr (List.mem_range'_1.1 hℓ).1) harrives' hs' (fun _ => hnew) hstarted'
    fun ℓ hℓ => .inr (List.mem_range'_1.1 hℓ).1

/-! ## Constructors -/

/-- The object that a constructor `tag` builds from the values `vs` of its `fields`. -/
def constructed (P : Primitives S) (tag : String) (fields : List String)
    (vs : List (Val S)) : Val S :=
  .object (setFields (setField "tag" (.scalar (P.text tag)) []) (fields.zip vs))

/-- The fields of an object are set one by one to the values `vs` of `es`. -/
theorem evalFields_apply {ρ : Scope} {keys : List String} {es : List Script.Expr}
    {vs : List (Val S)} (h : List.Forall₂ (Evaluates P ρ s) es vs) (built : List (String × Val S))
    (call : Val S → List (Val S) → Compute S (Val S)) :
    evalFields P call ρ built ((keys.zip es).map fun p => .field p.1 p.2) s =
      some (.ok (setFields built (keys.zip vs), s)) := by
  induction h generalizing keys built with
  | nil =>
    rw [List.zip_nil_right, List.map_nil, evalFields, Compute.pure_apply, List.zip_nil_right]; rfl
  | cons he _ ih =>
    cases keys with
    | nil => rw [List.zip_nil_left, List.map_nil, evalFields, Compute.pure_apply]; rfl
    | cons key keys =>
      rw [List.zip_cons_cons, List.map_cons, evalFields, Compute.bind_ok (he call), ih]
      rfl

/-- A constructor that is given its last field returns what is `constructed`. -/
theorem call_constructor (n : Nat) {tag p : String} {fields : List String} {ρ taken : Scope}
    {us : List (Val S)} (args : List (Val S)) (hnodup : (taken.map Prod.fst ++ [p]).Nodup)
    (hus : Holds s (taken.map Prod.snd) us) :
    (engine P (n + 1)).call (.function [p] [.retObject (.object (tagField tag ::
        (fields.zip (taken.map Prod.fst ++ [p])).map fun p => .field p.1 (.ident p.2)))]
          (extend ρ taken)) args s =
      some (.ok (constructed P tag fields (us ++ arguments P [p] args),
        s ++ paramCells P [p] args)) := by
  have hzip : taken = (taken.map Prod.fst).zip (taken.map Prod.snd) := List.zip_of_prod rfl rfl
  have hscope : extend (extend ρ taken) ([p].zip (List.range' s.length [p].length)) =
      extend ρ ((taken.map Prod.fst ++ [p]).zip
        (taken.map Prod.snd ++ List.range' s.length [p].length)) := by
    rw [List.zip_append (by simp), ← hzip, extend_append]
  have hall : Holds (s ++ paramCells P [p] args)
      (taken.map Prod.snd ++ List.range' s.length [p].length) (us ++ arguments P [p] args) :=
    List.rel_append (hus.extends (.append ..) fun _ _ => id) (holds_paramCells s [p] args)
  have hnames := evaluates_idents (P := P) (map_lookup_entered ρ hnodup
    (show _ = (taken.map Prod.snd ++ List.range' s.length [p].length).length by simp)) hall
  have hfields :
      (fields.zip (taken.map Prod.fst ++ [p])).map (fun p => Field.field p.1 (.ident p.2)) =
      (fields.zip ((taken.map Prod.fst ++ [p]).map .ident)).map fun p => .field p.1 p.2 := by
    rw [List.zip_map_right, List.map_map]
    rfl
  rw [call_apply, execBlock_of_declared rfl, hscope, exec_cons n _ _ _ fun _ => conclude P,
    execStmt, hfields, tagField, eval, evalFields, eval, pure_bind, bind_assoc, bind_assoc,
    Compute.bind_ok (evalFields_apply hnames _ _)]
  rfl

/-- What is `constructed` from values that are `SameAll` is the `Same`. -/
theorem Same.constructed {vs vs' : List (Val S)} (h : SameAll V W vs vs') (tag : String)
    (fields : List String) :
    Same V W (constructed P tag fields vs) (Emit.constructed P tag fields vs') := by
  refine .object (SameFields.setFields (.cons .scalar .nil) ?_)
  induction fields generalizing vs vs' with
  | nil => exact .nil
  | cons key fields ih =>
    cases h with
    | nil => exact .nil
    | cons hv h => exact .cons hv (ih h)

/-- The names of the arguments that a function was given and of those that it waits for, when `p`
was just given. -/
theorem map_fst_keep (taken : Scope) (p : String) (ℓ : Nat) (rest : List String) :
    (taken ++ [(p, ℓ)]).map Prod.fst ++ rest = taken.map Prod.fst ++ p :: rest := by
  simp

/-- Functions that are `SameFn` simulate each other when they are called with arguments that are
`SameAll`. -/
theorem sim_callFn {n : Nat} {f f' : Val S} {vs vs' : List (Val S)} (hfit : V.Fit P)
    (ih : ∀ m < n, ∀ u, BlockSim P V m u) (hf : SameFn V W f f') (hvs : SameAll V W vs vs') :
    Sim V W ((engine P n).call f vs) (fun m => (engine P m).call f' vs') (Same V) := by
  cases hf with
  | @curried refs ts B B' i t taken taken' rest rest' body body' hfellows hleft hright howns htaken
      hrest =>
    -- How many parameters are left decides what the call does: the last one runs the body, any
    -- other one keeps its argument and waits. The functions wait for equally many.
    match rest, rest', hrest with
    | [], [], _ =>
      exact sim_curried_last hfit ih hfellows hleft hright howns htaken rfl hvs
    | [p], [p'], _ =>
      exact sim_curried_last hfit ih hfellows hleft hright howns htaken rfl hvs
    | p :: q :: rest, p' :: q' :: rest', hrest =>
      -- The kept argument joins those that were taken, on both sides at the same place.
      refine sim_keep hvs fun W₁ ℓ ℓ' hle hj => .function ?_
      rw [← extend_append, ← extend_append]
      rw [← map_fst_keep taken p ℓ] at hleft
      rw [← map_fst_keep taken' p' ℓ'] at hright
      exact .curried (hfellows.mono hle) (hleft.mono hle.left) (hright.mono hle.right) howns
        (List.rel_append (htaken.imp fun _ _ => hle.settled) (.cons hj .nil))
        (Nat.succ.inj hrest)
  | arrow hp hagree howns hlen hnodup hlen' hnodup' hbody hbody' =>
    exact sim_arrow ih hp hagree howns hlen hlen' hbody hbody' hvs
  | @constructor tag ρ ρ' taken taken' rest rest' fields hlen hnodup hlen' hnodup' htaken hne =>
    have hrest : rest.length = rest'.length := by
      have := htaken.length_eq
      simp only [List.length_append, List.length_map] at hlen hlen'
      omega
    match rest, rest', hrest with
    | [], [], _ => exact (hne rfl).elim
    | [p], [p'], _ =>
      intro s s' hstores
      obtain ⟨us, us', hus, hus', hsame⟩ := holds_of_settled hstores htaken
      exact .of_ok (x := fun n => (engine P n).call _ vs) rfl
        (fun n => call_constructor n vs hnodup hus) (fun n => call_constructor n vs' hnodup' hus')
        (.append ..) (.append ..) (.refl W)
        (hstores.extend (.append ..) (.append ..) (fun _ => False.elim) fun _ => False.elim)
        (.constructed (hsame.append (hvs.arguments rfl)) tag fields)
    | p :: q :: rest, p' :: q' :: rest', hrest =>
      refine sim_keep hvs fun W₁ ℓ ℓ' hle hj => .function ?_
      rw [← extend_append, ← extend_append]
      rw [← map_fst_keep taken p ℓ, ← map_fst_keep taken' p' ℓ']
      rw [← map_fst_keep taken p ℓ] at hlen hnodup
      rw [← map_fst_keep taken' p' ℓ'] at hlen' hnodup'
      exact .constructor hlen hnodup hlen' hnodup'
        (List.rel_append (htaken.imp fun _ _ => hle.settled) (.cons hj .nil)) (by nofun)

/-- Values that are the `Same` simulate each other when they are called with arguments that are
`SameAll`. -/
theorem sim_call {n : Nat} {f f' : Val S} {vs vs' : List (Val S)} (hfit : V.Fit P)
    (ih : ∀ m < n, ∀ u, BlockSim P V m u) (hf : Same V W f f') (hvs : SameAll V W vs vs') :
    Sim V W ((engine P n).call f vs) (fun m => (engine P m).call f' vs') (Same V) := by
  cases hf with
  | function hf => exact sim_callFn hfit ih hf hvs
  | _ =>
    intro s s' _ o ho
    cases n <;> cases ho

end

end TailLoop.Emit
