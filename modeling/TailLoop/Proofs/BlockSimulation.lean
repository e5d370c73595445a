import Mathlib.Data.List.Zip
import TailLoop.Proofs.TailCalls

/-!
# Simulation of blocks

Blocks that stand for the same term end in the same way, whatever becomes a loop in each script. A
block is executed statement by statement; what comes after it is the same for both scripts, or one
of them jumps where the other one calls.

* `block_sim`: the step from the parts of a term to the blocks for the term.
* `simulation`: values, effects and blocks of all terms, with engines of all sizes.
-/

namespace TailLoop.Emit

open Script Lower

variable {S : Type}

/-! ## What comes after some steps -/

section

variable {P : Primitives S} {E : Setting} {refs : List Ref} {ts : List Analyzed} {B : Band}
  {own : Nat → Prop} {s s₁ : Store S} {ρ : Scope} {p : Purpose} {b : List Stmt}
  {K : Nat → Completion S → Compute S (Val S)}

/-- After steps that write nothing, `b` can still be executed. New cells are not its own. -/
theorem Stage.later (h : Stage P E refs ts B own s ρ p b K) (hs : Extends nothing s s₁) :
    Stage P E refs ts B (fun ℓ => own ℓ ∧ ℓ < s.length) s₁ ρ p b K where
  returned := h.returned
  room := by
    obtain ⟨cs, hcs, hnodup, hcells⟩ := h.room
    refine Room.extends ⟨cs, hcs, hnodup, fun ℓ hℓ => ?_⟩ hs
    obtain ⟨hown, hempty⟩ := hcells ℓ hℓ
    exact ⟨⟨hown, (List.getElem?_eq_some_iff.1 hempty).1⟩, hempty⟩
  loop frame hp := by
    refine Looping.after ?_ hs
    cases h.loop frame hp with
    | mk hloop hccs hls hnodup hcells hρ hagain =>
      refine .mk hloop hccs hls hnodup (fun ℓ hℓ => ?_) hρ hagain
      obtain ⟨hown, v, hv⟩ := hcells ℓ hℓ
      exact ⟨⟨hown, (List.getElem?_eq_some_iff.1 hv).1⟩, v, hv⟩

/-- The `block` inside another one has a scope of its own. -/
theorem Stage.inner {rest block : List Stmt} (h : Stage P E refs ts B own s ρ p rest K)
    (hnodup : (declared block).Nodup) :
    Stage P E refs ts B (fun ℓ => own ℓ ∨ s.length ≤ ℓ) (blockStore s block) (blockScope ρ s block)
      p block (following P ρ rest K) where
  returned := h.returned
  room := room_block _ ρ s hnodup fun _ => .inr
  loop frame hp := ((h.loop frame hp).extends (.append ..) (fun hℓ => False.elim hℓ)
    fun ho _ => .inl ho).inner _ _ fun _ => rfl

/-- `b` has to be given room for what it declares, and nothing else of it matters. -/
theorem Stage.congr {b' : List Stmt} (h : Stage P E refs ts B own s ρ p b K)
    (hb : declared b = declared b') : Stage P E refs ts B own s ρ p b' K :=
  ⟨h.returned, hb ▸ h.room, h.loop⟩

/-- A chain of `blocks`, which is left out if it is empty, and the `rest`. -/
theorem exec_branch (n : Nat) (ρ : Scope) (blocks : List (Script.Expr × List Stmt))
    (rest : List Stmt) (K : Nat → Completion S → Compute S (Val S)) :
    exec P (engine P n) ρ ((if blocks.isEmpty then [] else [.chain blocks]) ++ rest) >>= K n =
      execArms P (engine P n) ρ blocks >>= following P ρ rest K n := by
  cases blocks with
  | nil =>
    rw [execArms, pure_bind]
    rfl
  | cons arm blocks =>
    rw [List.isEmpty_cons, if_neg (by simp), List.singleton_append, exec_cons, execStmt]

/-- `returnStmt` returns the value of `e`. -/
theorem exec_returnStmt {Γ : List String} {σ : Naming} {t : Analyzed} {e : Script.Expr}
    (h : Value E Γ σ t e) (n : Nat) (ρ : Scope) (K : Nat → Completion S → Compute S (Val S)) :
    exec P (engine P n) ρ [returnStmt t e] >>= K n =
      eval P (engine P n).call ρ e >>= fun v => K n (.returned v) := by
  have hret (st : Stmt) (hst : execStmt P (engine P n) ρ st =
      eval P (engine P n).call ρ e >>= fun v => pure (.returned v)) :
      exec P (engine P n) ρ [st] >>= K n =
        eval P (engine P n).call ρ e >>= fun v => K n (.returned v) := by
    rw [exec_cons, hst, bind_assoc]
    rfl
  refine hret _ ?_
  by_cases ht : ∃ a, t = .undefined a
  · obtain ⟨a, rfl⟩ := ht
    cases h with
    | undefined =>
      rw [returnStmt, execStmt, eval]
      rfl
    | _ => contradiction
  · have hstmt : returnStmt t e = if t.isObject then .retObject e else .ret e := by
      cases t with
      | undefined a => exact (ht ⟨a, rfl⟩).elim
      | _ => rfl
    rw [hstmt]
    split <;> rw [execStmt]

end

section

variable {P : Primitives S} {V : Versions} {W : World S} {s s' : Store S} {own own' : Nat → Prop}
  {σ σ' : Naming} {ρ ρ' : Scope} {n : Nat} {refs : List Ref} {ts : List Analyzed} {B B' : Band}
  {p p' : Purpose} {K K' : Nat → Completion S → Compute S (Val S)}

theorem execStmt_const (G : Engine S) (ρ : Scope) (x : String) (e : Script.Expr) :
    execStmt P G ρ (.const x e) = eval P G.call ρ e >>= fun v =>
      Compute.write ρ x (Cell.fix v) >>= fun _ => pure .normal := by
  rw [execStmt]

/-- The constant `x` has a cell, and when it is written, the `rest` can be executed. -/
theorem Stage.const {E : Setting} {x : String} {e : Script.Expr} {rest : List Stmt} {k : Nat}
    (h : Stage P E refs ts B own s ρ p (.const x e :: rest) K)
    (hx : resolve x (namesOf ρ) = some k) :
    ∃ ℓ, ρ.lookup x = some ℓ ∧ cellOf ρ k = some ℓ ∧ own ℓ ∧ s[ℓ]? = some .empty ∧
      ∀ s₁, Extends (· = ℓ) s s₁ →
        Stage P E refs ts B (fun m => (own m ∧ m < s.length) ∧ m ≠ ℓ) s₁ ρ p rest K := by
  have hsplit : Stage P E refs ts B (fun ℓ => own ℓ ∧ ℓ < s.length) s ρ p
    ([.const x e] ++ rest) K :=
    h.later (.refl s)
  obtain ⟨cs, hcs, -, hcells, hnext⟩ := hsplit.split
  obtain ⟨ℓ, hℓ, hk⟩ := lookup_of_resolve hx
  obtain rfl : cs = [ℓ] := eq_of_map_some (hcs.symm.trans (congrArg (fun c => [c]) hℓ))
  obtain ⟨hown, hempty⟩ := hcells ℓ (List.mem_cons_self ..)
  simp only [List.mem_singleton] at hnext
  exact ⟨ℓ, hℓ, hk, hown.1, hempty, hnext⟩

/-- Cells `ℓ` and `ℓ'` that `W` does not speak of can be filled with values that are the same. -/
theorem Stores.fill (h : Stores V W s s') {ℓ ℓ' : Nat} {v v' : Val S} (hfree : ¬W.usesLeft ℓ)
    (hfree' : ¬W.usesRight ℓ') (hlt : ℓ < s.length) (hlt' : ℓ' < s'.length) (hv : Same V W v v') :
    Stores V (W.settle [(ℓ, ℓ')]) (s.set ℓ (.constant v)) (s'.set ℓ' (.constant v')) := by
  have hset : Extends (· = ℓ) s (s.set ℓ (.constant v)) := .set s _ rfl
  have hset' : Extends (· = ℓ') s' (s'.set ℓ' (.constant v')) := .set s' _ rfl
  refine (h.extend hset hset' (fun m hm => hm ▸ hfree) fun m hm => hm ▸ hfree').settle
    fun q hq => ?_
  obtain rfl := List.mem_singleton.1 hq
  exact ⟨⟨_, _, List.getElem?_set_self hlt, List.getElem?_set_self hlt', .value rfl rfl hv,
    by nofun⟩, fun m hp => hfree (.inl ⟨m, .inr hp⟩), fun m hp => hfree' (.inl ⟨m, .inr hp⟩)⟩

/-- `World.settle` speaks of two more cells, which may be changed. -/
theorem Grows.settle {ℓ ℓ' : Nat} (hℓ : own ℓ) (hℓ' : own' ℓ') :
    Grows own own' s s' W (W.settle [(ℓ, ℓ')]) := by
  refine ⟨W.le_settle _, fun _ hnot hu => ?_, fun _ hnot hu => ?_⟩
  · rcases World.usesLeft_settle hu with hu | ⟨q, hq, rfl⟩
    · exact hu
    · obtain rfl := List.mem_singleton.1 hq
      exact (hnot hℓ).elim
  · rcases World.usesRight_settle hu with hu | ⟨q, hq, rfl⟩
    · exact hu
    · obtain rfl := List.mem_singleton.1 hq
      exact (hnot hℓ').elim

/-- Cells that are not settled stay clear. -/
theorem Clear.settle {ℓ ℓ' : Nat} (h : Clear W own own') :
    Clear (W.settle [(ℓ, ℓ')]) (fun m => own m ∧ m ≠ ℓ) (fun m => own' m ∧ m ≠ ℓ') where
  left hm hu := by
    rcases World.usesLeft_settle hu with hu | ⟨q, hq, rfl⟩
    · exact h.left hm.1 hu
    · obtain rfl := List.mem_singleton.1 hq
      exact hm.2 rfl
  right hm hu := by
    rcases World.usesRight_settle hu with hu | ⟨q, hq, rfl⟩
    · exact h.right hm.1 hu
    · obtain rfl := List.mem_singleton.1 hq
      exact hm.2 rfl

/-- The binder `b` is bound to declarations whose cells belong together. -/
theorem Agree.bindOne (h : Agree V W σ ρ σ' ρ') {b : Binder} {k k' ℓ ℓ' : Nat}
    (hk : cellOf ρ k = some ℓ) (hk' : cellOf ρ' k' = some ℓ') (hj : W.joins ℓ ℓ') :
    Agree V W ((b, k) :: σ) ρ ((b, k') :: σ') ρ' :=
  h.bind (show [k].length = [b].length from rfl)
    (show [k].map (cellOf ρ) = [ℓ].map some from congrArg (fun c => [c]) hk)
    (show [k'].map (cellOf ρ') = [ℓ'].map some from congrArg (fun c => [c]) hk') (.cons hj .nil)

/-- Both scripts declare a constant for the binder `b`, and go on with `body`. -/
theorem sim_const {x x' : String} {e e' : Script.Expr} {b : Binder} {k k' : Nat} {body : Analyzed}
    {rest rest' : List Stmt}
    (he : Sim V W (eval P (engine P n).call ρ e) (fun m => eval P (engine P m).call ρ' e') (Same V))
    (hbody : BlockSim P V n body) (howns : Owns V body) (hfellows : Fellows V W refs ts B B')
    (hagree : Agree V W σ ρ σ' ρ') (hstores : Stores V W s s') (hclear : Clear W own own')
    (hruns : p.runs = p'.runs) (hx : resolve x (namesOf ρ) = some k)
    (hblock : Block V.left p (namesOf ρ) ((b, k) :: σ) body rest)
    (hstage : Stage P V.left refs ts B own s ρ p (.const x e :: rest) K)
    (hx' : resolve x' (namesOf ρ') = some k')
    (hblock' : Block V.right p' (namesOf ρ') ((b, k') :: σ') body rest')
    (hstage' : Stage P V.right refs ts B' own' s' ρ' p' (.const x' e' :: rest') K') :
    SimAt V own own' W s s' (exec P (engine P n) ρ (.const x e :: rest) >>= K n)
      (fun m => exec P (engine P m) ρ' (.const x' e' :: rest') >>= K' m) fun W₁ _ _ =>
        Same V W₁ := by
  -- on both sides the constant has a cell of its own, which is still empty
  obtain ⟨ℓ, hℓ, hk, hown, hempty, hnext⟩ := hstage.const hx
  obtain ⟨ℓ', hℓ', hk', hown', hempty', hnext'⟩ := hstage'.const hx'
  have hlt := (List.getElem?_eq_some_iff.1 hempty).1
  have hlt' := (List.getElem?_eq_some_iff.1 hempty').1
  -- the value is computed first, so the cells must have stayed empty meanwhile
  simp only [exec_write execStmt_const]
  refine he.bindAt hstores fun W₁ s₁ s₁' v v' hgrows hs hs' hstores₁ hsame => ?_
  have hclear₁ : Clear W₁ (fun m => own m ∧ m < s.length) (fun m => own' m ∧ m < s'.length) :=
    ⟨fun h => (hclear.after hstores₁ hgrows).left (.inl h),
      fun h => (hclear.after hstores₁ hgrows).right (.inl h)⟩
  have hempty₁ : s₁[ℓ]? = some .empty := by rw [hs.old hlt id, hempty]
  have hempty₁' : s₁'[ℓ']? = some .empty := by rw [hs'.old hlt' id, hempty']
  have hset : Extends (· = ℓ) s (s₁.set ℓ (.constant v)) :=
    (hs.mono fun _ _ => False.elim).comp (.set s₁ _ rfl)
  have hset' : Extends (· = ℓ') s' (s₁'.set ℓ' (.constant v')) :=
    (hs'.mono fun _ _ => False.elim).comp (.set s₁' _ rfl)
  -- the cells are written together, and from then on both stand for the binder
  refine .write hℓ hempty₁ rfl hℓ' hempty₁' rfl (.inl hown) (.inl hown')
    (.settle (.inl hown) (.inl hown')) ?_
  have hle : W ≤ W₁.settle [(ℓ, ℓ')] := World.le_trans hgrows.le (W₁.le_settle _)
  have hagree₁ : Agree V (W₁.settle [(ℓ, ℓ')]) ((b, k) :: σ) ρ ((b, k') :: σ') ρ' :=
    (hagree.mono hle).bindOne hk hk' (.inl (.inr (List.mem_singleton.2 rfl)))
  exact (hbody (hfellows.mono hle) hagree₁ howns (hstores₁.fill (hclear₁.left ⟨hown, hlt⟩)
    (hclear₁.right ⟨hown', hlt'⟩) (Nat.lt_of_lt_of_le hlt hs.length_le)
    (Nat.lt_of_lt_of_le hlt' hs'.length_le) hsame) hclear₁.settle hruns hblock
      (hnext _ hset) hblock'
    (hnext' _ hset')).mono (fun _ _ h => .inl (.inl h.1.1)) (fun _ _ h => .inl (.inl h.1.1))
    fun _ _ _ _ _ _ => id

/-! ## Statements without declarations -/

/-- Both scripts run an effect whose result has no name, and go on with `body`. -/
theorem sim_expr {e e' : Script.Expr} {body : Analyzed} {rest rest' : List Stmt}
    (he : Sim V W (eval P (engine P n).call ρ e) (fun m => eval P (engine P m).call ρ' e') (Same V))
    (hbody : BlockSim P V n body) (howns : Owns V body) (hfellows : Fellows V W refs ts B B')
    (hagree : Agree V W σ ρ σ' ρ') (hstores : Stores V W s s') (hclear : Clear W own own')
    (hruns : p.runs = p'.runs) (hblock : Block V.left p (namesOf ρ) σ body rest)
    (hstage : Stage P V.left refs ts B own s ρ p rest K)
    (hblock' : Block V.right p' (namesOf ρ') σ' body rest')
    (hstage' : Stage P V.right refs ts B' own' s' ρ' p' rest' K') :
    SimAt V own own' W s s' (exec P (engine P n) ρ (.expr e :: rest) >>= K n)
      (fun m => exec P (engine P m) ρ' (.expr e' :: rest') >>= K' m) fun W₁ _ _ => Same V W₁ := by
  have hexpr (m : Nat) (ρ : Scope) (e : Script.Expr) (rest : List Stmt)
      (K : Nat → Completion S → Compute S (Val S)) :
      exec P (engine P m) ρ (.expr e :: rest) >>= K m =
        eval P (engine P m).call ρ e >>= fun _ => exec P (engine P m) ρ rest >>= K m := by
    rw [exec_cons, execStmt, bind_assoc]
    rfl
  simp only [hexpr]
  refine he.bindAt hstores fun W₁ s₁ s₁' v v' hgrows hs hs' hstores₁ _ => ?_
  have hclear₁ : Clear W₁ (fun m => own m ∧ m < s.length) (fun m => own' m ∧ m < s'.length) :=
    ⟨fun h => (hclear.after hstores₁ hgrows).left (.inl h),
      fun h => (hclear.after hstores₁ hgrows).right (.inl h)⟩
  exact (hbody (hfellows.mono hgrows.le) (hagree.mono hgrows.le) howns hstores₁ hclear₁ hruns hblock
    (hstage.later hs) hblock' (hstage'.later hs')).mono (fun _ _ h => .inl h.1)
    (fun _ _ h => .inl h.1) fun _ _ _ _ _ _ => id

/-- A failure throws its `message`, where `Error` is not declared. -/
theorem exec_failure {message : String} (h : resolve "Error" (namesOf ρ) = none) (n : Nat) :
    (exec P (engine P n) ρ [failure message] >>= K n) s =
      some (.error (.error (.scalar (P.text message)))) := by
  have hclass : isErrorClass ρ (.ident "Error") = true := by
    simp [isErrorClass, lookup_of_resolve_none h]
  rw [exec_cons, Lower.failure, execStmt, eval, if_pos hclass]
  simp only [evalAll, eval, pure_bind]
  rfl

/-- Both scripts throw the same `message`. -/
theorem sim_fail {message : String} (h : resolve "Error" (namesOf ρ) = none)
    (h' : resolve "Error" (namesOf ρ') = none) :
    SimAt V own own' W s s' (exec P (engine P n) ρ [failure message] >>= K n)
      (fun m => exec P (engine P m) ρ' [failure message] >>= K' m) fun W₁ _ _ => Same V W₁ := by
  intro o ho
  obtain rfl := Option.some.inj ((exec_failure h n).symm.trans ho)
  have hsame : Same V W (.error (.scalar (P.text message))) (.error (.scalar (P.text message))) :=
    .error .scalar
  exact ⟨_, .of_eq fun m => exec_failure h' m, .error hsame⟩

/-! ## Branches -/

/-- The block of `t` inside another one. -/
theorem sim_inner {t : Analyzed} {block block' rest rest' : List Stmt} (ht : BlockSim P V n t)
    (howns : Owns V t) (hfellows : Fellows V W refs ts B B') (hagree : Agree V W σ ρ σ' ρ')
    (hstores : Stores V W s s') (hclear : Clear W own own') (hruns : p.runs = p'.runs)
    (hbody : Body V.left p [] (namesOf ρ) σ t block)
    (hstage : Stage P V.left refs ts B own s ρ p rest K)
    (hbody' : Body V.right p' [] (namesOf ρ') σ' t block')
    (hstage' : Stage P V.right refs ts B' own' s' ρ' p' rest' K') :
    SimAt V own own' W s s' (execBlock P (engine P n) ρ block >>= following P ρ rest K n)
      (fun m => execBlock P (engine P m) ρ' block' >>= following P ρ' rest' K' m)
      fun W₁ _ _ => Same V W₁ := by
  cases hbody with
  | mk hnodup hblock =>
    cases hbody' with
    | mk hnodup' hblock' =>
      rw [List.nil_append] at hnodup hnodup'
      rw [← namesOf_blockScope ρ s block] at hblock
      rw [← namesOf_blockScope ρ' s' block'] at hblock'
      have hstores₁ : Stores V W (blockStore s block) (blockStore s' block') :=
        hstores.extend (.append ..) (.append ..) (fun _ => False.elim) fun _ => False.elim
      have hclear₁ : Clear W (fun ℓ => own ℓ ∨ s.length ≤ ℓ) (fun ℓ => own' ℓ ∨ s'.length ≤ ℓ) :=
        ⟨fun h hu => h.elim (fun ho => hclear.left ho hu) (Nat.not_le.2 (hstores.lt_left hu)),
          fun h hu => h.elim (fun ho => hclear.right ho hu) (Nat.not_le.2 (hstores.lt_right hu))⟩
      refine .step (.append ..) (.append ..) (.refl W) (ht hfellows (hagree.extend _ _)
        howns hstores₁
        hclear₁ hruns hblock (hstage.inner hnodup) hblock' (hstage'.inner hnodup'))
        (execBlock_apply ..) fun o => ?_
      exact (Arrives.of_eq fun m => execBlock_apply ..).forth

/-- The `arms` of a branch, and the `default` if no condition holds. By induction on the arms. -/
theorem sim_arms {arms : List (Analyzed × Analyzed)} {default : Analyzed}
    {blocks blocks' : List (Script.Expr × List Stmt)} {rest rest' : List Stmt}
    (hconds : ∀ arm ∈ arms, ValueSim P V n arm.1 ∧ Owns V arm.1)
    (hbodies : ∀ arm ∈ arms, BlockSim P V n arm.2 ∧ Owns V arm.2)
    (hdefault : BlockSim P V n default) (howns : Owns V default)
    (hfellows : Fellows V W refs ts B B') (hagree : Agree V W σ ρ σ' ρ')
    (hstores : Stores V W s s') (hclear : Clear W own own') (hruns : p.runs = p'.runs)
    (h : Arms V.left p (namesOf ρ) σ arms blocks)
    (hrest : Block V.left p (namesOf ρ) σ default rest)
    (hstage : Stage P V.left refs ts B own s ρ p rest K)
    (h' : Arms V.right p' (namesOf ρ') σ' arms blocks')
    (hrest' : Block V.right p' (namesOf ρ') σ' default rest')
    (hstage' : Stage P V.right refs ts B' own' s' ρ' p' rest' K') :
    SimAt V own own' W s s' (execArms P (engine P n) ρ blocks >>= following P ρ rest K n)
      (fun m => execArms P (engine P m) ρ' blocks' >>= following P ρ' rest' K' m)
      fun W₁ _ _ => Same V W₁ := by
  -- the induction goes along the arms; each condition may have moved the stores on
  induction arms generalizing W s s' own own' blocks blocks' with
  | nil =>
    cases h
    cases h'
    simp only [execArms, pure_bind]
    exact hdefault hfellows hagree howns hstores hclear hruns hrest hstage hrest' hstage'
  | cons arm arms ih =>
    cases h with
    | @cons _ _ _ cond x body block _ blocks hcond hbody harms =>
    cases h' with
    | @cons _ _ _ _ x' _ block' _ blocks' hcond' hbody' harms' =>
    obtain ⟨hsim, hown⟩ := hconds _ (List.mem_cons_self ..)
    obtain ⟨hblock, hown'⟩ := hbodies _ (List.mem_cons_self ..)
    have hcons (m : Nat) (ρ : Scope) (x : Script.Expr) (block : List Stmt)
        (blocks : List (Script.Expr × List Stmt)) :
        execArms P (engine P m) ρ ((x, block) :: blocks) = eval P (engine P m).call ρ x >>= fun v =>
          if v.holds P then execBlock P (engine P m) ρ block
          else execArms P (engine P m) ρ blocks := by
      rw [execArms]
      rfl
    simp only [hcons, bind_assoc]
    refine (hsim hagree hown hcond hcond').bindAt hstores
      fun W₁ s₁ s₁' v v' hgrows hs hs' hstores₁ hsame => ?_
    have hclear₁ : Clear W₁ (fun m => own m ∧ m < s.length) (fun m => own' m ∧ m < s'.length) :=
      ⟨fun h => (hclear.after hstores₁ hgrows).left (.inl h),
        fun h => (hclear.after hstores₁ hgrows).right (.inl h)⟩
    -- both conditions hold or none does, since both values are the same
    rw [← hsame.holds_eq]
    split
    · exact (sim_inner hblock hown' (hfellows.mono hgrows.le) (hagree.mono hgrows.le)
        hstores₁ hclear₁
        hruns hbody (hstage.later hs) hbody' (hstage'.later hs')).mono (fun _ _ h => .inl h.1)
        (fun _ _ h => .inl h.1) fun _ _ _ _ _ _ => id
    · exact (ih (fun arm harm => hconds arm (List.mem_cons_of_mem _ harm))
        (fun arm harm => hbodies arm (List.mem_cons_of_mem _ harm)) (hfellows.mono hgrows.le)
        (hagree.mono hgrows.le) hstores₁ hclear₁ harms (hstage.later hs) harms'
        (hstage'.later hs')).mono (fun _ _ h => .inl h.1) (fun _ _ h => .inl h.1)
        fun _ _ _ _ _ _ => id

/-! ## Recursive groups -/

/-- The declarations of a group declare its members `idents` last. -/
theorem declared_of_group {E : Setting} {flag : Bool} {Γ : List String} {idents : List String}
    {ks : List Nat} {decls : List Stmt} (h : Group E flag Γ σ idents ks refs ts decls)
    (hlen : idents.length = ts.length) : ∃ extra, declared decls = extra ++ idents := by
  cases h with
  | functions _ hes =>
    refine ⟨[], ?_⟩
    rw [declared_consts (Nat.le_of_eq (hlen.trans (length_values hes).symm)), List.nil_append]
  | values _ hes =>
    refine ⟨[], ?_⟩
    rw [declared_append, declared_declares, declared_assigns, List.append_nil, List.nil_append]
  | self => exact ⟨[], rfl⟩
  | @shared _ _ _ _ _ _ label k selector slots block entries _ _ _ _ _ _ _ hentries =>
    have hdeclared {i k : Nat} {idents : List String} {us : List Analyzed} {entries : List Stmt}
        (h : Entries Γ label k i idents us entries) : declared entries = idents := by
      induction h with
      | nil => rfl
      | cons _ _ _ _ ih => exact congrArg (_ :: ·) ih
    exact ⟨[label], congrArg (label :: ·) (hdeclared hentries)⟩

/-- The declarations of a group have cells, and the `rest` can be executed after them. -/
theorem Stage.group {E : Setting} {flag : Bool} {idents : List String} {ks : List Nat}
    {refs₁ : List Ref} {ts₁ : List Analyzed} {decls rest : List Stmt}
    (h : Stage P E refs ts B own s ρ p (decls ++ rest) K)
    (hgroup : Group E flag (namesOf ρ) σ idents ks refs₁ ts₁ decls)
    (hlen : idents.length = ts₁.length) (hks : idents.map (resolve · (namesOf ρ)) = ks.map some) :
    ∃ cs ics : List Nat, (∀ ℓ ∈ cs, own ℓ ∧ s[ℓ]? = some .empty) ∧ (∀ ℓ ∈ ics, ℓ ∈ cs) ∧
      ics.Nodup ∧ ics.length = ts₁.length ∧ ks.map (cellOf ρ) = ics.map some ∧
      (∀ uses, (∀ ℓ ∈ cs, uses ℓ → ℓ ∈ ics) → Placed own uses s ρ idents ks decls cs ics) ∧
      ∀ s₁, Extends (· ∈ cs) s s₁ →
        Stage P E refs ts B (fun m => (own m ∧ m < s.length) ∧ m ∉ cs) s₁ ρ p rest K := by
  obtain ⟨cs, hcs, hnodup, hcells, hnext⟩ := (h.later (.refl s)).split
  replace hcells (ℓ : Nat) (hℓ : ℓ ∈ cs) : own ℓ ∧ s[ℓ]? = some .empty :=
    ⟨(hcells ℓ hℓ).1.1, (hcells ℓ hℓ).2⟩
  obtain ⟨extra, hdeclared⟩ := declared_of_group hgroup hlen
  have hsplit := hcs
  rw [hdeclared, List.map_append] at hsplit
  obtain ⟨xcs, ics, rfl, -, hics⟩ := List.append_eq_map_iff.1 hsplit
  obtain ⟨ics', hics', hnumbers⟩ := map_lookup_of_resolve hks
  obtain rfl : ics' = ics := eq_of_map_some (hics'.symm.trans hics.symm)
  refine ⟨_, ics', hcells, fun ℓ hℓ => List.mem_append_right _ hℓ, (List.nodup_append.1 hnodup).2.1,
    ?_, hnumbers, fun uses huses => ⟨hcs, hnodup, hcells, hics', hnumbers, fun ℓ hℓ => ?_⟩, hnext⟩
  · rw [← hlen]
    simpa using (congrArg List.length hics').symm
  · by_cases hu : uses ℓ
    · exact .inl (huses ℓ hℓ hu)
    · exact .inr hu

/-- `World.pair` speaks of the first cells of `ps` as well. -/
theorem World.usesLeft_pair {ps : List (Nat × Nat)} {ℓ : Nat} (h : (W.pair ps).usesLeft ℓ) :
    W.usesLeft ℓ ∨ ∃ q ∈ ps, q.1 = ℓ := by
  rcases h with ⟨ℓ', hj | hj | hj⟩ | ⟨v, hv⟩
  · exact .inl (.inl ⟨ℓ', .inl hj⟩)
  · exact .inl (.inl ⟨ℓ', .inr hj⟩)
  · exact .inr ⟨_, hj, rfl⟩
  · exact .inl (.inr ⟨v, hv⟩)

/-- `World.pair` speaks of the second cells of `ps` as well. -/
theorem World.usesRight_pair {ps : List (Nat × Nat)} {ℓ : Nat} (h : (W.pair ps).usesRight ℓ) :
    W.usesRight ℓ ∨ ∃ q ∈ ps, q.2 = ℓ := by
  rcases h with ⟨ℓ', hj | hj | hj⟩ | ⟨v, hv⟩
  · exact .inl (.inl ⟨ℓ', .inl hj⟩)
  · exact .inl (.inl ⟨ℓ', .inr hj⟩)
  · exact .inr ⟨_, hj, rfl⟩
  · exact .inl (.inr ⟨v, hv⟩)

/-- Lists without repetitions pair their elements one by one. -/
theorem zip_injective {cs cs' : List Nat} (h : cs.Nodup) {q r : Nat × Nat} (hq : q ∈ cs.zip cs')
    (hr : r ∈ cs.zip cs') (heq : q.1 = r.1) : q.2 = r.2 := by
  obtain ⟨i, hi⟩ := List.mem_iff_getElem?.1 hq
  obtain ⟨j, hj⟩ := List.mem_iff_getElem?.1 hr
  obtain ⟨hi, hi'⟩ := List.getElem?_zip_eq_some.1 hi
  obtain ⟨hj, hj'⟩ := List.getElem?_zip_eq_some.1 hj
  obtain rfl := (List.getElem?_inj (List.getElem?_eq_some_iff.1 hi).1 h).1
    (hi.trans ((congrArg some heq).trans hj.symm))
  exact Option.some.inj (hi'.symm.trans hj')

/-- Cells that have not been written and that `W` does not speak of can be paired. -/
theorem Stores.pairEmpty (h : Stores V W s s') {cs cs' : List Nat} (hnodup : cs.Nodup)
    (hnodup' : cs'.Nodup) (hcells : ∀ ℓ ∈ cs, ¬W.usesLeft ℓ ∧ s[ℓ]? = some .empty)
    (hcells' : ∀ ℓ ∈ cs', ¬W.usesRight ℓ ∧ s'[ℓ]? = some .empty) :
    Stores V (W.pair (cs.zip cs')) s s' := by
  have hmem {q : Nat × Nat} (hq : q ∈ cs.zip cs') : q.1 ∈ cs ∧ q.2 ∈ cs' := List.of_mem_zip hq
  refine h.pair (fun q hq => ?_) (fun q hq => ?_) (fun q hq r hr => zip_injective hnodup hq hr)
    fun q hq r hr heq => ?_
  · exact ⟨_, _, (hcells _ (hmem hq).1).2, (hcells' _ (hmem hq).2).2, .empty⟩
  · exact ⟨(hcells _ (hmem hq).1).1, (hcells' _ (hmem hq).2).1⟩
  · have hswap {u : Nat × Nat} (hu : u ∈ cs.zip cs') : u.swap ∈ cs'.zip cs := by
      rw [← List.zip_swap]
      exact List.mem_map_of_mem hu
    exact zip_injective hnodup' (hswap hq) (hswap hr) heq

/-- Both scripts declare a recursive group, one of them perhaps as a loop, and go on with `body`. -/
theorem sim_letRec {bs : List Binder} {refs₁ : List Ref} {ts₁ : List Analyzed} {body : Analyzed}
    {flag flag' : Bool} {idents idents' : List String} {ks ks' : List Nat}
    {decls decls' rest rest' : List Stmt} (hts : ∀ t ∈ ts₁, ValueSim P V n t ∧ Owns V t)
    (hbody : BlockSim P V n body) (howns : Owns V body) (hrefs : refs₁.length = ts₁.length)
    (hbs : bs.length = ts₁.length) (hfellows : Fellows V W refs ts B B')
    (hagree : Agree V W σ ρ σ' ρ') (hstores : Stores V W s s') (hclear : Clear W own own')
    (hruns : p.runs = p'.runs) (hlen : idents.length = ts₁.length)
    (hks : idents.map (resolve · (namesOf ρ)) = ks.map some)
    (hflag : flag = true → V.left.context.loops = true)
    (h : Group V.left flag (namesOf ρ) (bs.zip ks ++ σ) idents ks refs₁ ts₁ decls)
    (hblock : Block V.left p (namesOf ρ) (bs.zip ks ++ σ) body rest)
    (hstage : Stage P V.left refs ts B own s ρ p (decls ++ rest) K)
    (hlen' : idents'.length = ts₁.length)
    (hks' : idents'.map (resolve · (namesOf ρ')) = ks'.map some)
    (hflag' : flag' = true → V.right.context.loops = true)
    (h' : Group V.right flag' (namesOf ρ') (bs.zip ks' ++ σ') idents' ks' refs₁ ts₁ decls')
    (hblock' : Block V.right p' (namesOf ρ') (bs.zip ks' ++ σ') body rest')
    (hstage' : Stage P V.right refs ts B' own' s' ρ' p' (decls' ++ rest') K') :
    SimAt V own own' W s s' (exec P (engine P n) ρ (decls ++ rest) >>= K n)
      (fun m => exec P (engine P m) ρ' (decls' ++ rest') >>= K' m) fun W₁ _ _ => Same V W₁ := by
  -- the group needs cells on each side; the worlds pair those of the same member
  obtain ⟨cs, ics, hcells, hsub, hnodup, hics, hnumbers, hplaced, hnext⟩ := hstage.group h hlen hks
  obtain ⟨cs', ics', hcells', hsub', hnodup', hics', hnumbers', hplaced', hnext'⟩ :=
    hstage'.group h' hlen' hks'
  obtain ⟨W₁, hW₁⟩ : ∃ W₁, W₁ = W.pair (ics.zip ics') := ⟨_, rfl⟩
  have hle : W ≤ W₁ := hW₁ ▸ W.le_pair _
  have huses {ℓ : Nat} (hu : W₁.usesLeft ℓ) : W.usesLeft ℓ ∨ ℓ ∈ ics := by
    rcases World.usesLeft_pair (hW₁ ▸ hu) with hu | ⟨q, hq, rfl⟩
    · exact .inl hu
    · exact .inr (List.of_mem_zip hq).1
  have huses' {ℓ : Nat} (hu : W₁.usesRight ℓ) : W.usesRight ℓ ∨ ℓ ∈ ics' := by
    rcases World.usesRight_pair (hW₁ ▸ hu) with hu | ⟨q, hq, rfl⟩
    · exact .inl hu
    · exact .inr (List.of_mem_zip hq).2
  have hpaired : List.Forall₂ W₁.paired ics ics' :=
    List.forall₂_iff_zip.2 ⟨hics.trans hics'.symm, fun hq => hW₁ ▸ .inr hq⟩
  have hstores₁ : Stores V W₁ s s' := hW₁ ▸ hstores.pairEmpty hnodup hnodup'
    (fun ℓ hℓ => ⟨hclear.left (hcells ℓ (hsub ℓ hℓ)).1, (hcells ℓ (hsub ℓ hℓ)).2⟩)
    fun ℓ hℓ => ⟨hclear.right (hcells' ℓ (hsub' ℓ hℓ)).1, (hcells' ℓ (hsub' ℓ hℓ)).2⟩
  have hgrows : Grows own own' s s' W W₁ :=
    ⟨hle, fun _ hnot hu => (huses hu).resolve_right fun hℓ => hnot (hcells _ (hsub _ hℓ)).1,
      fun _ hnot hu => (huses' hu).resolve_right fun hℓ => hnot (hcells' _ (hsub' _ hℓ)).1⟩
  -- under the paired cells the environments agree on the names of the group
  have hagree₁ : Agree V W₁ (bs.zip ks ++ σ) ρ (bs.zip ks' ++ σ') ρ' := by
    refine (hagree.mono hle).bind ?_ hnumbers hnumbers' (hpaired.imp fun _ _ => .inr)
    rw [hbs, ← hics]
    simpa using congrArg List.length hnumbers
  refine .step (.refl s) (.refl s') hgrows ?_ rfl fun _ => id
  refine SimAt.mono (sim_group h h' hflag hflag' hts hrefs hics
    (hplaced _ fun ℓ hℓ hu => (huses hu).resolve_left (hclear.left (hcells ℓ hℓ).1))
    (hplaced' _ fun ℓ hℓ hu => (huses' hu).resolve_left (hclear.right (hcells' ℓ hℓ).1)) hpaired
    hagree₁ hstores₁ fun W₂ s₁ s₁' hgrows₂ hext hext' hstores₂ => ?_) (fun _ _ => .inl)
    (fun _ _ => .inl) fun _ _ _ _ _ _ => id
  -- nothing that the rest of the block writes is paired with a cell of the group
  have hle₂ := World.le_trans hle hgrows₂.le
  have hclear₂ : Clear W₂ (fun m => (own m ∧ m < s.length) ∧ m ∉ cs)
      (fun m => (own' m ∧ m < s'.length) ∧ m ∉ cs') := by
    refine ⟨fun hℓ hu => ?_, fun hℓ hu => ?_⟩
    · obtain ⟨⟨hown, hlt⟩, hnot⟩ := hℓ
      exact (huses (hgrows₂.left hlt hnot hu)).elim (hclear.left hown) fun hmem =>
        hnot (hsub _ hmem)
    · obtain ⟨⟨hown, hlt⟩, hnot⟩ := hℓ
      exact (huses' (hgrows₂.right hlt hnot hu)).elim (hclear.right hown)
        fun hmem => hnot (hsub' _ hmem)
  exact (hbody (hfellows.mono hle₂) (hagree₁.mono hgrows₂.le) howns hstores₂ hclear₂ hruns hblock
    (hnext s₁ hext) hblock' (hnext' s₁' hext')).mono (fun _ _ h => .inl h.1.1)
    (fun _ _ h => .inl h.1.1) fun _ _ _ _ _ _ => id

/-! ## Blocks of terms -/

/-- If `t` is no statement and no call, a block that returns its value is a single statement. -/
theorem block_value {E : Setting} {Γ : List String} {t : Analyzed} {b : List Stmt}
    (h : Block E p Γ σ t b) (hp : p.runs = false) (hst : t.isStatement = false)
    (happ : ∀ a head args, t ≠ .app a .curried head args) :
    ∃ e, Value E Γ σ t e ∧ b = [returnStmt t e] := by
  cases h with
  | returned _ hv => exact ⟨_, hv, rfl⟩
  | loopReturned _ hv => exact ⟨_, hv, rfl⟩
  | jump => exact (happ _ _ _ rfl).elim
  | letIn | letRec | branch | fail => cases hst
  | _ => cases hp

variable {t : Analyzed} {b b' : List Stmt}

/-- Blocks that end with the value of `t`, or with a call. -/
theorem sim_last (hfit : V.Fit P) (ih : ∀ m < n, ∀ u, BlockSim P V m u) (hvalue : ValueSim P V n t)
    (hparts : ∀ u ∈ t.children, ValueSim P V n u) (hst : t.isStatement = false)
    (hfellows : Fellows V W refs ts B B') (hagree : Agree V W σ ρ σ' ρ') (howns : Owns V t)
    (hstores : Stores V W s s') (hclear : Clear W own own') (hp : p.runs = false)
    (hp' : p'.runs = false) (h : Block V.left p (namesOf ρ) σ t b)
    (hstage : Stage P V.left refs ts B own s ρ p b K)
    (h' : Block V.right p' (namesOf ρ') σ' t b')
    (hstage' : Stage P V.right refs ts B' own' s' ρ' p' b' K') :
    SimAt V own own' W s s' (exec P (engine P n) ρ b >>= K n)
      (fun m => exec P (engine P m) ρ' b' >>= K' m) fun W₁ _ _ => Same V W₁ := by
  by_cases happ : ∃ a head args, t = .app a .curried head args
  · obtain ⟨a, head, args, rfl⟩ := happ
    exact sim_tail hfit ih (hparts _ (List.mem_cons_self ..))
      (fun u hu => hparts u (List.mem_cons_of_mem _ hu)) hfellows hagree howns hstores
        hclear hp hp' h
      hstage h' hstage'
  · have hnot (a : Analysis) (head : Analyzed) (args : List Analyzed) :
        t ≠ .app a .curried head args := fun heq => happ ⟨a, head, args, heq⟩
    obtain ⟨e, hv, rfl⟩ := block_value h hp hst hnot
    obtain ⟨e', hv', rfl⟩ := block_value h' hp' hst hnot
    simp only [exec_returnStmt hv, exec_returnStmt hv', hstage.returned,
      hstage'.returned, bind_pure]
    exact (hvalue hagree howns hv hv').at hstores

/-- If `t` is no statement, it ends a block, but for effects that are run. -/
theorem blockSim_last (hfit : V.Fit P) (ih : ∀ m < n, ∀ u, BlockSim P V m u)
    (hvalue : ValueSim P V n t) (hrun : RunSim P V n t)
    (hparts : ∀ u ∈ t.children, BlockSim P V n u ∧ ValueSim P V n u ∧ RunSim P V n u)
    (hst : t.isStatement = false) : BlockSim P V n t := by
  intro W s s' own own' refs ts B B' σ σ' ρ ρ' p p' b b' K K' hfellows hagree howns hstores hclear
    hruns h hstage h' hstage'
  -- modes other than running an effect are those of a last statement
  have hlast (hp : p.runs = false) :=
    sim_last hfit ih hvalue (fun u hu => (hparts u hu).2.1) hst hfellows hagree howns
      hstores hclear hp
      (hruns ▸ hp) h hstage h' hstage'
  cases h with
  | returned => exact hlast rfl
  | loopReturned => exact hlast rfl
  | jump => exact hlast rfl
  -- a block of one script has one form, and the mode rules out the others
  | runReturned _ heffect hv =>
    cases h' with
    | runReturned _ _ hv' =>
      simp only [exec_ret, hstage.returned, hstage'.returned, bind_pure]
      exact (hrun hagree howns (.value heffect hv) (.value heffect hv')).at hstores
    | letIn | letRec | branch | fail => cases hst
    | returned | loopReturned | jump => cases hruns
    | _ => cases heffect
  | applyReturned hf hes =>
    cases h' with
    | applyReturned hf' hes' =>
      simp only [exec_ret, hstage.returned, hstage'.returned, bind_pure]
      exact (hrun hagree howns (.apply hf hes) (.apply hf' hes')).at hstores
    | runReturned _ heffect => cases heffect
    | _ => cases hruns
  | bindNamed hname hr hx hblock =>
    cases h' with
    | bindNamed _ hr' hx' hblock' =>
      exact sim_const ((hparts _ (.head _)).2.2 hagree (howns.child (.head _)) hr hr')
        (hparts _ (.tail _ (.head _))).1 (howns.child (.tail _ (.head _))) hfellows hagree hstores
        hclear hruns hx hblock hstage hx' hblock' hstage'
    | bindUnnamed hnone =>
      rw [hnone] at hname
      cases hname
    | runReturned _ heffect => cases heffect
    | _ => cases hruns
  | bindUnnamed hnone hr hblock =>
    cases h' with
    | bindUnnamed _ hr' hblock' =>
      exact sim_expr ((hparts _ (.head _)).2.2 hagree (howns.child (.head _)) hr hr')
        (hparts _ (.tail _ (.head _))).1 (howns.child (.tail _ (.head _))) hfellows hagree hstores
        hclear hruns hblock (hstage.congr rfl) hblock' (hstage'.congr rfl)
    | bindNamed hname =>
      rw [hnone] at hname
      cases hname
    | runReturned _ heffect => cases heffect
    | _ => cases hruns
  | pure hv =>
    cases h' with
    | pure hv' =>
      simp only [exec_returnStmt hv, exec_returnStmt hv', hstage.returned,
        hstage'.returned, bind_pure]
      exact ((hparts _ (List.mem_singleton.2 rfl)).2.1 hagree
        (howns.child (List.mem_singleton.2 rfl)) hv
        hv').at hstores
    | runReturned _ heffect => cases heffect
    | _ => cases hruns
  | defer hblock =>
    cases h' with
    | defer hblock' =>
      exact (hparts _ (List.mem_singleton.2 rfl)).1 hfellows hagree
        (howns.child (List.mem_singleton.2 rfl)) hstores hclear hruns hblock hstage hblock' hstage'
    | runReturned _ heffect => cases heffect
    | _ => cases hruns
  | letIn | letRec | branch | fail => cases hst

/-- A binding of `b` to a value is a constant in front of the block of `body`. -/
theorem blockSim_letIn {a : Analysis} {b : Binder} {value body : Analyzed}
    (hvalue : ValueSim P V n value) (hbody : BlockSim P V n body) :
    BlockSim P V n (.letIn a b value body) := by
  intro W s s' own own' refs ts B B' σ σ' ρ ρ' p p' b b' K K' hfellows hagree howns hstores hclear
    hruns h hstage h' hstage'
  cases h with
  | letIn hv hx hblock =>
    cases h' with
    | letIn hv' hx' hblock' =>
      exact sim_const (hvalue hagree (howns.child (.head _)) hv hv') hbody
        (howns.child (.tail _ (.head _))) hfellows hagree hstores hclear hruns hx hblock hstage hx'
        hblock' hstage'
    | _ => contradiction
  | _ => contradiction

/-- A recursive group is declared in front of the block of `body`, as a loop or not. -/
theorem blockSim_letRec {a : Analysis} {level : UInt32} {bindings : List (String × Analyzed)}
    {body : Analyzed} (hvalues : ∀ u ∈ bindings.map Prod.snd, ValueSim P V n u)
    (hbody : BlockSim P V n body) : BlockSim P V n (.letRec a level bindings body) := by
  intro W s s' own own' refs ts B B' σ σ' ρ ρ' p p' b b' K K' hfellows hagree howns hstores hclear
    hruns h hstage h' hstage'
  cases h with
  | letRec hlen hks hgroup hblock =>
    cases h' with
    | letRec hlen' hks' hgroup' hblock' =>
      have hown : Owns V body := howns.child (List.mem_append_right _ (List.mem_singleton.2 rfl))
      refine sim_letRec (fun u hu => ⟨hvalues u hu, howns.child (List.mem_append_left _ hu)⟩) hbody
        hown (by simp [groupRefs]) (by simp [Term.groupBinders]) hfellows hagree hstores
          hclear hruns
        (by rw [hlen, List.length_map]) hks (fun h => (Bool.and_eq_true_iff.1 h).2) hgroup
          hblock hstage
        (by rw [hlen', List.length_map]) hks' (fun h => (Bool.and_eq_true_iff.1 h).2)
          hgroup' hblock'
        hstage'
    | _ => contradiction
  | _ => contradiction

/-- A branch is a chain of conditions in front of the block of `default`. An empty chain is left
out, and this changes no declaration. -/
theorem blockSim_branch {a : Analysis} {arms : List (Analyzed × Analyzed)} {default : Analyzed}
    (hconds : ∀ arm ∈ arms, ValueSim P V n arm.1) (hbodies : ∀ arm ∈ arms, BlockSim P V n arm.2)
    (hdefault : BlockSim P V n default) : BlockSim P V n (.branch a arms default) := by
  intro W s s' own own' refs ts B B' σ σ' ρ ρ' p p' b b' K K' hfellows hagree howns hstores hclear
    hruns h hstage h' hstage'
  have hchain (blocks : List (Script.Expr × List Stmt)) (rest : List Stmt) :
      declared ((if blocks.isEmpty then [] else [.chain blocks]) ++ rest) = declared rest := by
    cases blocks <;> rfl
  have hown {arm : Analyzed × Analyzed} (harm : arm ∈ arms) {u : Analyzed}
      (hu : u ∈ [arm.1, arm.2]) : Owns V u :=
    howns.child (List.mem_append_left _ (List.mem_flatMap.2 ⟨arm, harm, hu⟩))
  have hown' : Owns V default := howns.child (List.mem_append_right _ (List.mem_singleton.2 rfl))
  cases h with
  | branch harms hrest =>
    cases h' with
    | branch harms' hrest' =>
      simp only [exec_branch]
      exact sim_arms (fun arm h => ⟨hconds arm h, hown h (.head _)⟩)
        (fun arm h => ⟨hbodies arm h, hown h (.tail _ (.head _))⟩) hdefault hown' hfellows hagree
        hstores hclear hruns harms hrest (hstage.congr (hchain ..)) harms' hrest'
        (hstage'.congr (hchain ..))
    | _ => contradiction
  | _ => contradiction

/-- `fail` throws its `message` in both scripts. -/
theorem blockSim_fail (hfit : V.Fit P) {a : Analysis} {message : String} :
    BlockSim P V n (.fail a message) := by
  intro W s s' own own' refs ts B B' σ σ' ρ ρ' p p' b b' K K' hfellows hagree howns hstores hclear
    hruns h hstage h' hstage'
  cases h with
  | fail herror =>
    cases h' with
    | fail herror' => exact sim_fail (herror hfit.closed_left) (herror' hfit.closed_right)
    | _ => contradiction
  | _ => contradiction

/-- The blocks of `t` are simulated if its values and effects are, and all of its parts. -/
theorem block_sim (hfit : V.Fit P) (ih : ∀ m < n, ∀ u, BlockSim P V m u) (hvalue : ValueSim P V n t)
    (hrun : RunSim P V n t)
    (hparts : ∀ u ∈ t.children, BlockSim P V n u ∧ ValueSim P V n u ∧ RunSim P V n u) :
    BlockSim P V n t := by
  cases t with
  | letIn => exact blockSim_letIn (hparts _ (.head _)).2.1 (hparts _ (.tail _ (.head _))).1
  | letRec =>
    exact blockSim_letRec (fun u hu => (hparts u (List.mem_append_left _ hu)).2.1)
      (hparts _ (List.mem_append_right _ (List.mem_singleton.2 rfl))).1
  | branch a arms default =>
    refine blockSim_branch (fun arm harm => (hparts arm.1 ?_).2.1)
      (fun arm harm => (hparts arm.2 ?_).1) (hparts default ?_).1
    · exact List.mem_append_left _ (List.mem_flatMap.2 ⟨arm, harm, .head _⟩)
    · exact List.mem_append_left _ (List.mem_flatMap.2 ⟨arm, harm, .tail _ (.head _)⟩)
    · exact List.mem_append_right _ (List.mem_singleton.2 rfl)
  | fail => exact blockSim_fail hfit
  | _ => exact blockSim_last hfit ih hvalue hrun hparts rfl

/-- Whatever becomes a loop, the scripts of a unit simulate each other: the values, the effects and
the blocks of `t` do the same with engines of every size `n`. -/
theorem simulation (P : Primitives S) (hfit : V.Fit P) (n : Nat) (t : Analyzed) :
    BlockSim P V n t ∧ ValueSim P V n t ∧ RunSim P V n t := by
  -- loops and calls need smaller engines, everything else smaller terms
  induction n using Nat.strongRecOn generalizing t with
  | ind n ihn =>
    induction t using Term.children_induction with
    | step t iht =>
      have ih : ∀ m < n, ∀ u, BlockSim P V m u := fun m hm u => (ihn m hm u).1
      have hvalue : ValueSim P V n t := value_sim hfit ih fun u hu => (iht u hu).2.1
      have hrun : RunSim P V n t := run_sim hfit ih hvalue fun u hu => (iht u hu).2.1
      exact ⟨block_sim hfit ih hvalue hrun iht, hvalue, hrun⟩

end

end TailLoop.Emit
