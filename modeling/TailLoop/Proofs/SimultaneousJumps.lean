import TailLoop.Proofs.LoopStates
import TailLoop.Proofs.VariableLowering

/-!
# Jumps assign at once

A jump assigns the variables of its loop one after the other, but no value that it computes can
depend on what was assigned before: the cells of the variables are private to the loop. So the
variables come to hold what the values are in the state before the jump.

* `exec_assigns`: assignments of private cells.
* `LoopFunction.entry`: where the function around a loop starts.
* `jumps_assign_together`: the jumps of a unit.
-/

namespace TailLoop.Script

open Lower Emit

variable {S : Type}

/-! ## Assignments of private cells -/

/-- The variable `x` has a cell with the value `v`. -/
def Holds (ρ : Scope) (s : Store S) (x : String) (v : Val S) : Prop :=
  ∃ ℓ, ρ.lookup x = some ℓ ∧ s[ℓ]? = some (.assignable v)

/-- The evaluation of values and the execution of assignments of these values to variables `xs` from
a store `s`: both stop or throw in the same way, or the variables hold the values and all else is as
after the evaluation. -/
inductive Assigns (C : Nat → Prop) (ρ : Scope) (xs : List String) (s : Store S) :
    Option (Except (Val S) (List (Val S) × Store S)) →
      Option (Except (Val S) (Completion S × Store S)) → Prop
  | stuck : Assigns C ρ xs s none none
  | thrown {w : Val S} : Assigns C ρ xs s (some (.error w)) (some (.error w))
  | ended {vs : List (Val S)} {t t' : Store S} : Alike C t t' → List.Forall₂ (Holds ρ t') xs vs →
      (∀ ℓ, C ℓ → (∀ x ∈ xs, ρ.lookup x ≠ some ℓ) → t'[ℓ]? = s[ℓ]?) →
      Assigns C ρ xs s (some (.ok (vs, t))) (some (.ok (.again, t')))

section

variable {P : Primitives S} {E : Engine S} {G : JumpTarget} {C : Nat → Prop} {ρ : Scope}
  {s s' : Store S}

/-- Only one of two alike stores changes a cell of `C`. -/
theorem Alike.set_private (h : Alike C s s') {ℓ : Nat} (hℓ : C ℓ) (c : Cell S) :
    Alike C s (s'.set ℓ c) where
  length_eq := by rw [List.length_set, h.length_eq]
  bound := h.bound
  same k hk := by
    rw [List.getElem?_set_ne (by rintro rfl; exact hk hℓ)]
    exact h.same k hk
  within := h.within

/-- An assignment to the variable `x`, and the `rest` of the block after it. -/
theorem exec_assign {x : String} {e : Expr} {v w : Val S} {ℓ : Nat} {t : Store S}
    (rest : List Stmt) (he : eval P E.call ρ e s = some (.ok (v, t))) (hx : ρ.lookup x = some ℓ)
    (hw : t[ℓ]? = some (.assignable w)) :
    exec P E ρ (.assign x e :: rest) s = exec P E ρ rest (t.set ℓ (.assignable v)) := by
  have hwrite : Compute.write ρ x (Cell.assign v) t = some (.ok ((), t.set ℓ (.assignable v))) :=
    write_apply hx hw rfl
  rw [exec, execStmt, bind_assoc, Compute.bind_ok he, bind_assoc, Compute.bind_ok hwrite]
  rfl

/-- Variables of `G` are assigned one after the other. The values mention none of them, so each is
the same as before the first assignment. By induction on `pairs`. -/
theorem exec_assigns (hE : E.RunsBlindly C) {pairs : List (String × Expr)}
    (hvars : ∀ q ∈ pairs, q.1 ∈ G.variables) (hnodup : (pairs.map Prod.fst).Nodup)
    (hnames : ∀ q ∈ pairs, ∀ x ∈ q.2.names, x ∉ G.variables) (howns : G.Owns C s.length ρ)
    (halike : Alike C s s') (hfilled : ∀ ℓ, C ℓ → ∃ v, s'[ℓ]? = some (.assignable v)) :
    Assigns C ρ (pairs.map Prod.fst) s' (evalAll P E.call ρ (pairs.map Prod.snd) s)
      (exec P E ρ (pairs.map (fun q => .assign q.1 q.2) ++ [.again]) s') := by
  -- the second store has the earlier assignments, so the two are alike but not equal
  induction pairs generalizing s s' with
  | nil => exact .ended halike .nil fun _ _ _ => rfl
  | cons q pairs ih =>
    obtain ⟨x, e⟩ := q
    obtain ⟨hvar, hvars⟩ := List.forall_mem_cons.1 hvars
    obtain ⟨hname, hnames⟩ := List.forall_mem_cons.1 hnames
    obtain ⟨hnew, hnodup⟩ := List.nodup_cons.1 hnodup
    obtain ⟨ℓ, hx, hℓ⟩ := howns.cell x hvar
    have hblind := blind_eval (P := P) hE.call e (howns.sees hname) s s' (Nat.le_refl _) halike
    rw [List.map_cons, List.map_cons, List.map_cons, List.cons_append, evalAll, Compute.bind_apply]
    generalize hr : eval P E.call ρ e s = r at hblind ⊢
    generalize hr' : eval P E.call ρ e s' = r' at hblind
    cases hblind with
    | stuck =>
      rw [exec, execStmt, bind_assoc, Compute.bind_none hr']
      exact .stuck
    | thrown =>
      rw [exec, execStmt, bind_assoc, Compute.bind_error hr']
      exact .thrown
    | @ended v t t' honward hv =>
      obtain ⟨w, hw⟩ := hfilled ℓ hℓ
      have hcell : t'[ℓ]? = some (.assignable w) := (honward.right ℓ hℓ).trans hw
      rw [exec_assign _ hr' hx hcell]
      -- only the cell of `x` changes, and it stays assignable
      have hset (k : Nat) (hk : k ≠ ℓ) : (t'.set ℓ (Cell.assignable v))[k]? = t'[k]? :=
        List.getElem?_set_ne hk.symm
      have hself : (t'.set ℓ (Cell.assignable v))[ℓ]? = some (Cell.assignable v) :=
        List.getElem?_set_self (honward.alike.length_eq ▸ honward.alike.bound ℓ hℓ)
      have hfilled' (k : Nat) (hk : C k) :
          ∃ v', (t'.set ℓ (Cell.assignable v))[k]? = some (Cell.assignable v') := by
        by_cases hkℓ : k = ℓ
        · exact ⟨v, hkℓ ▸ hself⟩
        · rw [hset k hkℓ, honward.right k hk]
          exact hfilled k hk
      have hrest := ih hvars hnodup hnames (howns.mono honward.length_le)
        (honward.alike.set_private hℓ (.assignable v)) hfilled'
      change Assigns C ρ _ s' ((evalAll P E.call ρ _ >>= fun vs => pure (v :: vs)) t) _
      rw [Compute.bind_apply]
      generalize evalAll P E.call ρ _ t = r at hrest ⊢
      generalize exec P E ρ _ _ = r' at hrest ⊢
      cases hrest with
      | stuck => exact .stuck
      | thrown => exact .thrown
      | @ended vs u u' halike' hvalues hothers =>
        refine .ended halike' (.cons ⟨ℓ, hx, ?_⟩ hvalues) fun k hk hne => ?_
        · rw [hothers ℓ hℓ fun y hy hlookup => ?_, hself]
          -- no later assignment is to `x`
          obtain ⟨q, hq, rfl⟩ := List.mem_map.1 hy
          exact hnew (howns.distinct _ (hvars q hq) x hvar (hlookup.trans hx.symm) ▸ hy)
        · obtain ⟨hfirst, hne⟩ := List.forall_mem_cons.1 hne
          rw [hothers k hk hne, hset k (by rintro rfl; exact hfirst hx), honward.right k hk]

end

/-! ## Jumps -/

/-- The evaluation of the values of a jump to the member of number `j` and the execution of the
jump: both stop or throw in the same way, or each slot holds the value for it, the selector holds
the number of the member, and all cells of others are as after the evaluation. -/
inductive JumpTarget.AssignsTogether (G : JumpTarget) (P : Primitives S) (ρ : Scope) (j : Nat) :
    Option (Except (Val S) (List (Val S) × Store S)) →
      Option (Except (Val S) (Completion S × Store S)) → Prop
  | stuck : AssignsTogether G P ρ j none none
  | thrown {w : Val S} : AssignsTogether G P ρ j (some (.error w)) (some (.error w))
  | ended {vs : List (Val S)} {t t' : Store S} :
      (∀ (i : Nat) (v : Val S), vs[i]? = some v → ∃ x, G.slots[i]? = some x ∧ Holds ρ t' x v) →
      (∀ x, G.selector = some x → Holds ρ t' x (selected P j)) →
      (∀ ℓ, (∀ x ∈ G.selector.toList ++ G.slots.take vs.length, ρ.lookup x ≠ some ℓ) →
        t'[ℓ]? = t[ℓ]?) →
      AssignsTogether G P ρ j (some (.ok (vs, t))) (some (.ok (.again, t')))

section

variable {P : Primitives S} {E : Engine S} {G : JumpTarget} {C : Nat → Prop} {ρ : Scope}
  {s : Store S} {j : Nat} {values : List Expr}

/-- The values that a jump assigns: the number of the member, and `values`. -/
theorem JumpTarget.evalAll_assigned (call : Val S → List (Val S) → Compute S (Val S))
    (hlen : values.length ≤ G.slots.length) :
    evalAll P call ρ ((G.assigned j values).map Prod.snd) = do
      let vs ← evalAll P call ρ values
      return (G.selector.map fun _ => selected P j).toList ++ vs := by
  rw [JumpTarget.map_snd_assigned hlen]
  cases G.selector with
  | none => simp
  | some selector =>
    show evalAll P call ρ (natLit j :: values) = _
    rw [evalAll, natLit, eval, pure_bind]
    rfl

/-- In the body of its loop, the `values` of a jump mention no variable of the loop. -/
theorem Turns.names_values (h : Turns G (jumpBlock G.selector j G.slots values))
    (hlen : values.length ≤ G.slots.length) : ∀ x ∈ namesAll values, x ∉ G.variables := by
  rw [jumpBlock_eq, turns_append] at h
  refine (JumpTarget.names_of_assigned (j := j) hlen).1 fun q hq => ?_
  have hassign := h.1 _ (List.mem_map_of_mem hq)
  cases hassign with
  | plain _ hnames =>
    exact absurd (JumpTarget.mem_variables_of_assigned hq) (hnames q.1 (List.mem_cons_self ..))
  | assign _ hnames => exact hnames

/-- The selector holds the number of the member and the slots hold the values `vs`. -/
theorem JumpTarget.holds_assigned {n : Nat} {vs : List (Val S)}
    (h : List.Forall₂ (Holds ρ s) (G.selector.toList ++ G.slots.take n)
      ((G.selector.map fun _ => selected P j).toList ++ vs)) :
    (∀ x, G.selector = some x → Holds ρ s x (selected P j)) ∧
      List.Forall₂ (Holds ρ s) (G.slots.take n) vs := by
  cases hselector : G.selector with
  | none =>
    rw [hselector] at h
    refine ⟨fun x hx => ?_, h⟩
    cases hx
  | some selector =>
    rw [hselector] at h
    cases h with
    | cons hfirst hrest =>
      refine ⟨?_, hrest⟩
      rintro _ ⟨⟩
      exact hfirst

/-- In the body of its loop, a jump assigns all variables together. -/
theorem Turns.assignsTogether (h : Turns G (jumpBlock G.selector j G.slots values))
    (hlen : values.length ≤ G.slots.length) (hnodup : G.variables.Nodup) (hE : E.RunsBlindly C)
    (howns : G.Owns C s.length ρ) (hguarded : Guarded C nothing s) :
    G.AssignsTogether P ρ j (evalAll P E.call ρ values s)
      (exec P E ρ (jumpBlock G.selector j G.slots values) s) := by
  have hvalues := h.names_values hlen
  have hassigned := (JumpTarget.names_of_assigned (j := j) hlen).2 hvalues
  have hfst := JumpTarget.map_fst_assigned (j := j) hlen
  have hassigns := exec_assigns (P := P) hE
    (fun _ hq => JumpTarget.mem_variables_of_assigned hq)
    (hfst ▸ hnodup.sublist ((List.take_sublist ..).append_left _)) hassigned howns
    hguarded.alike fun ℓ hℓ => hguarded.filled ℓ hℓ id
  rw [← jumpBlock_eq, hfst, JumpTarget.evalAll_assigned E.call hlen, Compute.bind_apply] at hassigns
  -- what computes the values leaves the private cells as they are
  have hblind (vs : List (Val S)) (t : Store S)
      (ht : evalAll P E.call ρ values s = some (.ok (vs, t))) : ∀ ℓ, C ℓ → t[ℓ]? = s[ℓ]? :=
    (hguarded.blind (blind_evalAll hE.call values (howns.sees hvalues)) ht).1.left
  generalize evalAll P E.call ρ values s = r at hassigns hblind ⊢
  generalize exec P E ρ _ s = r' at hassigns ⊢
  rcases r with _ | w | ⟨vs, t⟩
  · cases hassigns
    exact .stuck
  · cases hassigns
    exact .thrown
  · cases hassigns with
    | ended halike hholds hothers =>
      obtain ⟨hselector, hslots⟩ := JumpTarget.holds_assigned hholds
      have hcount : vs.length = values.length := by
        rw [← hslots.length_eq, List.length_take_of_le hlen]
      refine .ended (fun i v hv => ?_) hselector fun ℓ hne => ?_
      · obtain ⟨hi, rfl⟩ := List.getElem?_eq_some_iff.1 hv
        have hi' := hslots.length_eq ▸ hi
        refine ⟨_, ?_, hslots.get hi' hi⟩
        rw [List.get_eq_getElem, List.getElem_take, List.getElem?_eq_getElem]
      -- the other private cells are as before the values, all else as after them
      · by_cases hℓ : C ℓ
        · rw [hothers ℓ hℓ (hcount ▸ hne), hblind vs t rfl ℓ hℓ]
        · exact halike.same ℓ hℓ

end

/-! ## Where loops start -/

/-- All names in the values of `s` refer to cells that exist. -/
def Ranged (s : Store S) : Prop := ∀ c ∈ s, c.Within nothing s.length

/-- A call in `s`: the names of `ρ` and of `args` refer to cells that exist. -/
structure RangedCall (ρ : Scope) (args : List (Val S)) (s : Store S) : Prop where
  /-- The store. -/
  store : Ranged s
  /-- The scope of the function. -/
  scope : ∀ q ∈ ρ, q.2 < s.length
  /-- The arguments. -/
  args : ∀ v ∈ args, v.Within nothing s.length

section

variable {P : Primitives S} {G : JumpTarget} {C todo : Nat → Prop} {m n : Nat} {ρ : Scope}
  {s t : Store S}

/-- `v` refers to no cells that come later, as those of `C` do. -/
theorem Val.Within.beyond {v : Val S} (h : v.Within nothing n) (hC : ∀ ℓ, C ℓ → n ≤ ℓ)
    (hle : n ≤ m) : v.Within C m := by
  intro f hf
  obtain ⟨hlt, -⟩ := h f hf
  refine ⟨fun q hq => Nat.lt_of_lt_of_le (hlt q hq) hle, fun x _ ℓ hℓ hmem => ?_⟩
  exact Nat.not_le.2 (hlt _ (mem_of_lookup hℓ)) (hC ℓ hmem)

/-- New `cells` that refer to cells that exist. -/
theorem Ranged.append (hs : Ranged s) {cells : List (Cell S)}
    (hcells : ∀ c ∈ cells, c.Within nothing s.length) : Ranged (s ++ cells) := by
  have hle : s.length ≤ (s ++ cells).length := by simp
  exact List.forall_mem_append.2
    ⟨fun c hc => (hs c hc).mono hle, fun c hc => (hcells c hc).mono hle⟩

/-- What a `Blind` computation leads to from a `Ranged` store is `Ranged`. -/
theorem Ranged.blind {α : Type} {x : Compute S α} {ok : Nat → α → Prop} {a : α} (hs : Ranged s)
    (hx : Blind nothing s.length x ok) (h : x s = some (.ok (a, t))) :
    Ranged t ∧ s.length ≤ t.length ∧ ok t.length a := by
  have hguarded : Guarded nothing nothing s :=
    ⟨fun _ => False.elim, fun _ _ hc => hs _ (List.mem_of_getElem? hc), fun _ => False.elim⟩
  obtain ⟨honward, ha⟩ := hguarded.blind hx h
  refine ⟨fun c hc => ?_, honward.length_le, ha⟩
  obtain ⟨ℓ, hℓ⟩ := List.mem_iff_getElem?.1 hc
  exact honward.alike.within ℓ id c hℓ

/-- A script that starts with a `Ranged` store, in a scope whose cells exist, leads to such a
store. -/
theorem Ranged.exec (hs : Ranged s) (hρ : ∀ q ∈ ρ, q.2 < s.length) {block : List Stmt}
    {c : Completion S} (h : exec P (engine P n) ρ block s = some (.ok (c, t))) :
    Ranged t ∧ s.length ≤ t.length := by
  have hsees : Sees nothing s.length (namesIn block) ρ := .of_lt hρ
  obtain ⟨hend, hle, -⟩ := hs.blind (blind_exec (runsBlindly_engine n) block hsees) h
  exact ⟨hend, hle⟩

/-- The cell of the `i`-th of distinct names. -/
theorem lookup_extend_getElem {news : List String} (hnodup : news.Nodup) (ρ : Scope) (n : Nat)
    {i : Nat} (hi : i < news.length) :
    (extend ρ (news.zipIdx n)).lookup news[i] = some (n + i) := by
  have hcells : (List.range' n news.length).length = news.length := List.length_range'
  have hcell := congrArg (·[i]?) (map_lookup_entered ρ hnodup hcells.symm)
  simpa [hi, List.zipIdx_eq_zip_range'] using hcell

/-- In this scope, the variables of `G` have new cells, from `n` on. -/
theorem JumpTarget.owns_extend (hnodup : G.variables.Nodup) (hρ : ∀ q ∈ ρ, q.2 < n) :
    G.Owns (fun ℓ => n ≤ ℓ ∧ ℓ < n + G.variables.length) (n + G.variables.length)
      (extend ρ (G.variables.zipIdx n)) where
  lt := by
    have hsees : Sees nothing n [] ρ := .of_lt hρ
    exact (hsees.extend G.variables (fun _ => False.elim) (Nat.le_refl n)).lt
  cell x hx := by
    obtain ⟨i, hi, rfl⟩ := List.getElem_of_mem hx
    exact ⟨n + i, lookup_extend_getElem hnodup ρ n hi, by omega⟩
  distinct x hx y hy h := by
    obtain ⟨i, hi, rfl⟩ := List.getElem_of_mem hx
    obtain ⟨j, hj, rfl⟩ := List.getElem_of_mem hy
    rw [lookup_extend_getElem hnodup ρ n hi, lookup_extend_getElem hnodup ρ n hj] at h
    obtain rfl : i = j := by simpa using h
    rfl
  other x hx ℓ hℓ hmem := by
    rcases lookup_extend ρ G.variables n x with ⟨-, hold⟩ | ⟨_, hnew, -⟩
    -- an older name has an older cell
    · exact Nat.not_le.2 (hρ _ (mem_of_lookup (hold ▸ hℓ))) hmem.1
    · exact hx hnew

/-- New `cells` for the variables of a loop, of which those in `todo` may be empty. -/
theorem Ranged.guarded (hs : Ranged s) {cells : List (Cell S)}
    (hcells : ∀ c ∈ cells, c.Within nothing s.length)
    (hfilled : ∀ i c, cells[i]? = some c → ¬todo (s.length + i) → ∃ v, c = .assignable v) :
    Guarded (fun ℓ => s.length ≤ ℓ ∧ ℓ < s.length + cells.length) todo (s ++ cells) where
  bound ℓ hℓ := by simpa using hℓ.2
  within ℓ c hc v hv := by
    have hold : c.Within nothing s.length :=
      (List.mem_append.1 (List.mem_of_getElem? hc)).elim (hs c) (hcells c)
    exact (hold v hv).beyond (fun _ h => h.1) (by simp)
  filled ℓ hℓ hn := by
    obtain ⟨i, rfl⟩ := Nat.exists_eq_add_of_le hℓ.1
    have hi : i < cells.length := by omega
    obtain ⟨v, hv⟩ := hfilled i cells[i] (List.getElem?_eq_getElem hi) hn
    exact ⟨v, by rw [List.getElem?_append_right (Nat.le_add_right ..)]; simp [hi, hv]⟩

/-- A point at which the variables of `G` have new cells. -/
theorem Ranged.fits {cells : List (Cell S)} {block : List Stmt} {todo : List String}
    (hs : Ranged s) (hρ : ∀ q ∈ ρ, q.2 < s.length) (hnodup : G.variables.Nodup)
    (hlen : cells.length = G.variables.length) (hcells : ∀ c ∈ cells, c.Within nothing s.length)
    (hstage : Stage G block todo)
    (hfilled : todo = G.variables ∨ ∀ c ∈ cells, ∃ v, c = .assignable v) (n : Nat) :
    ∃ C, Point.Fits G C ⟨n, extend ρ (G.variables.zipIdx s.length), block, s ++ cells⟩ := by
  refine ⟨fun ℓ => s.length ≤ ℓ ∧ ℓ < s.length + G.variables.length, todo, hstage, ?_, ?_⟩
  · show G.Owns _ (s ++ cells).length _
    rw [List.length_append, hlen]
    exact JumpTarget.owns_extend hnodup hρ
  · rw [← hlen]
    refine hs.guarded hcells fun i c hc hn => ?_
    obtain ⟨hi, rfl⟩ := List.getElem?_eq_some_iff.1 hc
    rcases hfilled with rfl | hfilled
    · have hi' := hlen ▸ hi
      exact absurd ⟨_, List.getElem_mem hi', lookup_extend_getElem hnodup ρ s.length hi'⟩ hn
    · exact hfilled _ (List.getElem_mem hi)

/-- The cells of parameters can be assigned. -/
theorem assignable_paramCells {params : List String} {args : List (Val S)} :
    ∀ c ∈ paramCells P params args, ∃ v, c = .assignable v := by
  induction params generalizing args with
  | nil => exact List.forall_mem_nil _
  | cons p ps ih => exact List.forall_mem_cons.2 ⟨⟨_, rfl⟩, ih⟩

end

namespace LoopFunction

variable {P : Primitives S} {n : Nat} {L : LoopFunction} {block : List Stmt} {ρ : Scope}
  {args : List (Val S)} {s : Store S}

/-- The scope of the parameters of the function `L`, called in `s`. -/
def paramScope (L : LoopFunction) (ρ : Scope) (s : Store S) : Scope :=
  extend ρ (L.params.zipIdx s.length)

/-- The store `s` with the arguments of the function `L`. -/
def paramStore (P : Primitives S) (L : LoopFunction) (args : List (Val S)) (s : Store S) :
    Store S :=
  s ++ paramCells P L.params args

/-- Where the body of the function `L` starts when it is called. -/
def entry (P : Primitives S) (n : Nat) (L : LoopFunction) (ρ : Scope) (args : List (Val S))
    (s : Store S) : Point S :=
  ⟨n, blockScope (L.paramScope ρ s) (L.paramStore P args s) L.body, L.body,
    blockStore (L.paramStore P args s) L.body⟩

/-- At `entry`, the declarations in the body have cells behind those of the parameters. -/
theorem entry_eq (n : Nat) (L : LoopFunction) (ρ : Scope) (args : List (Val S)) (s : Store S) :
    L.entry P n ρ args s =
      ⟨n, extend (L.paramScope ρ s) ((declared L.body).zipIdx (L.paramStore P args s).length),
        L.body, L.paramStore P args s ++ (declared L.body).map fun _ => .empty⟩ := by
  rw [entry, blockScope_eq, blockStore]

/-- A call of the function `L` executes what starts at `entry`. -/
theorem invoke_eq (n : Nat) (L : LoopFunction) (ρ : Scope) (args : List (Val S)) (s : Store S) :
    invoke P (engine P n) (.function L.params L.body ρ) args s =
      (exec P (engine P n) (L.entry P n ρ args s).scope L.body >>= conclude P)
        (L.entry P n ρ args s).store := by
  rw [invoke, Compute.bind_ok rfl, execBlock_apply]
  rfl

/-- What is visited from there is executed by the call: it comes to what the statements at `p` come
to and what follows them. -/
theorem invoke_of_visits {p : Point S} (h : Point.Visits P (L.entry P n ρ args s) p) :
    ∃ k : Completion S → Compute S (Val S),
      invoke P (engine P n) (.function L.params L.body ρ) args s =
        (exec P (engine P p.depth) p.scope p.block >>= k) p.store := by
  obtain ⟨k, hk⟩ := h.goesOn
  refine ⟨fun c => k c >>= conclude P, ?_⟩
  rw [invoke_eq, ← bind_assoc]
  exact Compute.bind_congr_left (conclude P) hk

/-- The arguments of a `RangedCall` refer to cells that exist. -/
theorem ranged_paramStore (h : RangedCall ρ args s) : Ranged (L.paramStore P args s) :=
  h.store.append (within_paramCells L.params h.args)

/-- So do the names of parameters. -/
theorem lt_paramScope (h : RangedCall ρ args s) :
    ∀ q ∈ L.paramScope ρ s, q.2 < (L.paramStore P args s).length := by
  have hsees : Sees nothing s.length [] ρ := .of_lt h.scope
  intro q hq
  rw [paramStore, List.length_append, length_paramCells]
  exact (hsees.extend L.params (fun _ => False.elim) (Nat.le_refl _)).lt q hq

/-- `startSlots` and the loop declare the slots. -/
theorem declared_startSlots {slots copies : List String} (h : copies.length = slots.length) :
    declared (startSlots slots copies ++ [.loop block]) = slots := by
  induction slots generalizing copies with
  | nil => rfl
  | cons slot slots ih =>
    cases copies with
    | nil => cases h
    | cons copy copies => exact congrArg (slot :: ·) (ih (Nat.succ.inj h))

/-- `startSlots` and the loop are what a function around a loop starts with. -/
theorem stage_startSlots {G : JumpTarget} {slots copies : List String}
    (h : copies.length = slots.length) (hslots : ∀ x ∈ slots, x ∈ G.variables)
    (hblock : Turns G block) : Stage G (startSlots slots copies ++ [.loop block]) slots := by
  induction slots generalizing copies with
  | nil => exact .loop hblock
  | cons slot slots ih =>
    obtain ⟨hslot, hslots⟩ := List.forall_mem_cons.1 hslots
    cases copies with
    | nil => cases h
    | cons copy copies => exact .start hslot (ih (Nat.succ.inj h) hslots)

/-- `entry` is a point of the loop of `L`. -/
theorem Rounds.fits (h : L.Rounds block) (hcall : RangedCall ρ args s) :
    ∃ C, (L.entry P n ρ args s).Fits L.target C := by
  rw [entry_eq]
  cases h with
  | @single params copies slots arities _ hlen hnodup _ hturns =>
    -- the slots are declared in the body, and none of them is filled yet
    rw [declared_startSlots hlen]
    have hempty (m : Nat) : ∀ c ∈ slots.map fun _ => (Cell.empty : Cell S), c.Within nothing m :=
      List.forall_mem_map.2 fun _ _ => within_empty
    exact (ranged_paramStore hcall).fits (G := ⟨none, slots, arities⟩) (lt_paramScope hcall) hnodup
      (List.length_map _) (hempty _) (stage_startSlots hlen (fun _ h => h) hturns) (.inl rfl) n
  | @shared selector slots arities _ hnodup hturns =>
    -- the selector and the slots are parameters: they start with the arguments
    have hfits := hcall.store.fits (G := ⟨some selector, slots, arities⟩) hcall.scope hnodup
      (length_paramCells (P := P) (selector :: slots) args) (within_paramCells _ hcall.args)
      (.loop hturns) (.inr assignable_paramCells) n
    rwa [← List.append_nil (s ++ _)] at hfits

/-- The variables of the loop of `L` differ. -/
theorem Rounds.nodup (h : L.Rounds block) : L.target.variables.Nodup := by
  cases h with
  | single _ hnodup => exact hnodup
  | shared hnodup => exact hnodup

/-- In every call of the function around the loop of `L`, from a store whose names refer to cells
that exist, every jump that is reached assigns the variables of the loop together. The call comes to
what the jump comes to there and what follows it. -/
def JumpsTogether (L : LoopFunction) : Prop :=
  ∀ (S : Type) (P : Primitives S) (n : Nat) (ρ : Scope) (args : List (Val S)) (s : Store S),
    RangedCall ρ args s → ∀ p, Point.Visits P (L.entry P n ρ args s) p → ∀ j values,
      values.length ≤ L.target.slots.length →
      p.block = jumpBlock L.target.selector j L.target.slots values →
      (∃ k : Completion S → Compute S (Val S),
        invoke P (engine P n) (.function L.params L.body ρ) args s =
          (exec P (engine P p.depth) p.scope p.block >>= k) p.store) ∧
      L.target.AssignsTogether P p.scope j
        (evalAll P (engine P p.depth).call p.scope values p.store) (p.run P)

end LoopFunction

/-- At every point of the loop `G`, a jump assigns its variables together. -/
theorem Point.Fits.assignsTogether {P : Primitives S} {G : JumpTarget} {C : Nat → Prop}
    {p : Point S} (h : p.Fits G C) (hnodup : G.variables.Nodup) {j : Nat} {values : List Expr}
    (hlen : values.length ≤ G.slots.length)
    (hblock : p.block = jumpBlock G.selector j G.slots values) :
    G.AssignsTogether P p.scope j
      (evalAll P (engine P p.depth).call p.scope values p.store) (p.run P) := by
  obtain ⟨todo, hstage, howns, hguarded⟩ := h
  rw [hblock] at hstage
  obtain ⟨rfl, hturns⟩ := hstage.jump
  rw [Point.run, hblock]
  exact hturns.assignsTogether hlen hnodup (runsBlindly_engine _) howns hguarded.of_nil

/-- The jumps of the loop of `L` assign its variables together. -/
theorem LoopFunction.Rounds.jumpsTogether {L : LoopFunction} {block : List Stmt}
    (h : L.Rounds block) : L.JumpsTogether := by
  intro S P n ρ args s hcall p hvisits j values hlen hblock
  obtain ⟨C, hfits⟩ := h.fits (P := P) (n := n) hcall
  exact ⟨invoke_of_visits hvisits, (hfits.visits hvisits).assignsTogether h.nodup hlen hblock⟩

end TailLoop.Script

namespace TailLoop.Lower

open Script

/-- The loops of `parts`, in order, each in its function. -/
theorem rounds_parts {parts : List (List Stmt × List LoopFunction)}
    (h : ∀ part ∈ parts, NamesApart part.1 part.2) :
    List.Forall₂ LoopFunction.Rounds (parts.flatMap Prod.snd)
      (loopsIn (parts.flatMap Prod.fst)) := by
  induction parts with
  | nil => exact .nil
  | cons part parts ih =>
    obtain ⟨hpart, hparts⟩ := List.forall_mem_cons.1 h
    rw [List.flatMap_cons, List.flatMap_cons, loopsIn_append]
    exact List.rel_append hpart.rounds (ih hparts)

/-- In the script of a unit that refers to known names only, the variables of loops are mentioned in
their places only: no value, condition or function in a loop reads them. So every jump of every loop
assigns the variables of its loop together. Names are taken afresh in every part of the script. -/
theorem jumps_assign_together {u : CompilationUnit} (loops : Bool)
    (h : ∀ b ∈ u.bindings, b.2.everywhere (fun _ s => s.knownBy u.knows) [] = true) :
    ∃ parts : List (List Stmt × List LoopFunction),
      (Lower.module u loops).result.declarations = parts.flatMap Prod.fst ∧
        List.Forall₂ LoopFunction.Rounds (parts.flatMap Prod.snd)
          (loopsIn (Lower.module u loops).result.declarations) ∧
        ∀ part ∈ parts, NamesApart part.1 part.2 ∧ ∀ L ∈ part.2, L.JumpsTogether := by
  obtain ⟨parts, hparts, hapart⟩ := partsNamedApart_module loops h
  refine ⟨parts, hparts, hparts ▸ rounds_parts hapart, fun part hpart => ⟨hapart part hpart, ?_⟩⟩
  intro L hL
  have hrounds := (hapart part hpart).rounds
  -- each loop stands at the place of its body
  obtain ⟨i, hi, rfl⟩ := List.getElem_of_mem hL
  exact (hrounds.get hi (hrounds.length_eq ▸ hi)).jumpsTogether

/-- Both loops of the unit `countdown`. -/
theorem jumps_assign_together_countdown :
    (∀ b ∈ countdown.bindings,
        b.2.everywhere (fun _ s => s.knownBy countdown.knows) [] = true) ∧
      ∃ parts : List (List Stmt × List LoopFunction),
        (Lower.module countdown true).result.declarations = parts.flatMap Prod.fst ∧
          (parts.flatMap Prod.snd).length = 2 ∧
          ∀ part ∈ parts, NamesApart part.1 part.2 ∧ ∀ L ∈ part.2, L.JumpsTogether := by
  have hknown : ∀ b ∈ countdown.bindings,
      b.2.everywhere (fun _ s => s.knownBy countdown.knows) [] = true := by decide
  have hloops : (loopsIn (Lower.module countdown true).result.declarations).length = 2 := by
    decide +kernel
  obtain ⟨parts, hparts, hrounds, hjumps⟩ := jumps_assign_together true hknown
  exact ⟨hknown, parts, hparts, hrounds.length_eq.trans hloops, hjumps⟩

end TailLoop.Lower
