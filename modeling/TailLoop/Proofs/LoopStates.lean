import Mathlib.Logic.Relation
import TailLoop.Proofs.LoopRounds

/-!
# States of loops

The cells of the variables of a loop are private to it: no value refers to them, and no other name
is a name for them. Every step in the function around a loop and in the rounds of the loop keeps
this up.

* `Point.Step`, `Point.Visits`: what is executed while a block is.
* `JumpTarget.Owns`, `Guarded`: scopes and stores of a loop.
* `Point.Fits`: the points of a loop. Every step leads from one to another.
-/

namespace TailLoop.Script

open Lower Emit

variable {S : Type}

/-! ## Points of an execution -/

/-- Where an execution is: the statements that come next, their scope and the store, and how deep
calls and rounds may still be nested. -/
structure Point (S : Type) where
  depth : Nat
  scope : Scope
  block : List Stmt
  store : Store S

namespace Point

variable {P : Primitives S}

/-- What the statements at the point `p` come to. -/
def run (P : Primitives S) (p : Point S) :
    Option (Except (Val S) (Completion S × Store S)) :=
  exec P (engine P p.depth) p.scope p.block p.store

/-- One step of an execution in a block, in the arms of a chain and in the rounds of a loop. Calls
are taken as one step, and so are the functions in expressions. -/
inductive Step (P : Primitives S) : Point S → Point S → Prop
  | next {n ρ st rest s t} : execStmt P (engine P n) ρ st s = some (.ok (.normal, t)) →
      Step P ⟨n, ρ, st :: rest, s⟩ ⟨n, ρ, rest, t⟩
  | enter {n ρ cond block arms rest s v t} :
      eval P (engine P n).call ρ cond s = some (.ok (v, t)) → v.holds P = true →
      Step P ⟨n, ρ, .chain ((cond, block) :: arms) :: rest, s⟩
        ⟨n, blockScope ρ t block, block, blockStore t block⟩
  | skip {n ρ cond block arms rest s v t} :
      eval P (engine P n).call ρ cond s = some (.ok (v, t)) → v.holds P = false →
      Step P ⟨n, ρ, .chain ((cond, block) :: arms) :: rest, s⟩ ⟨n, ρ, .chain arms :: rest, t⟩
  | round {n ρ body rest s} :
      Step P ⟨n + 1, ρ, .loop body :: rest, s⟩ ⟨n, blockScope ρ s body, body, blockStore s body⟩
  | again {n ρ body rest s c t} : execBlock P (engine P n) ρ body s = some (.ok (c, t)) →
      (∀ v, c ≠ .returned v) →
      Step P ⟨n + 1, ρ, .loop body :: rest, s⟩ ⟨n, ρ, [.loop body], t⟩

/-- A later point is reached by any number of `Step`s. -/
def Visits (P : Primitives S) : Point S → Point S → Prop := Relation.ReflTransGen (Step P)

/-- What comes after a round of a loop: the returned value, or the rest of the rounds. -/
def afterRound (P : Primitives S) (ρ : Scope) (body : List Stmt) (n : Nat) :
    Completion S → Compute S (Completion S)
  | .returned v => pure (.returned v)
  | _ => (engine P n).loop ρ body

/-- With `n + 1` left, a loop executes a round, and then `afterRound`. -/
theorem loop_succ (n : Nat) (ρ : Scope) (body : List Stmt) :
    (engine P (n + 1)).loop ρ body = execBlock P (engine P n) ρ body >>= afterRound P ρ body n := by
  rw [engine]
  exact congrArg (execBlock P (engine P n) ρ body >>= ·) (funext fun c => by cases c <;> rfl)

/-- `st` is executed first, and then what is `following`. -/
theorem run_cons (n : Nat) (ρ : Scope) (st : Stmt) (rest : List Stmt) (s : Store S) :
    run P ⟨n, ρ, st :: rest, s⟩ =
      (execStmt P (engine P n) ρ st >>= following P ρ rest (fun _ => pure) n) s := by
  have hcons := exec_cons (P := P) n ρ st rest fun _ => pure
  rw [bind_pure] at hcons
  rw [run, hcons]

/-- A block of the one statement `st`. -/
theorem exec_one (G : Engine S) (ρ : Scope) (st : Stmt) : exec P G ρ [st] = execStmt P G ρ st := by
  rw [exec]
  conv => rhs; rw [← bind_pure (execStmt P G ρ st)]
  congr 1
  funext c
  cases c <;> simp [exec]

/-- After a step to `q`, the execution comes to what the statements there come to, and then to what
`k` makes of it. -/
theorem Step.goesOn {p q : Point S} (h : Step P p q) :
    ∃ k : Completion S → Compute S (Completion S),
      p.run P = (exec P (engine P q.depth) q.scope q.block >>= k) q.store := by
  cases h with
  | @next n ρ st rest s t hst =>
    refine ⟨pure, ?_⟩
    rw [run_cons, Compute.bind_ok hst]
    rfl
  | @enter n ρ cond block arms rest s v t hcond hv =>
    refine ⟨following P ρ rest (fun _ => pure) n, ?_⟩
    rw [run_cons, execStmt, execArms, bind_assoc, Compute.bind_ok hcond, if_pos hv, bind_assoc,
      Compute.bind_ok (enterBlock_apply ρ t block)]
  | @skip n ρ cond block arms rest s v t hcond hv =>
    refine ⟨pure, ?_⟩
    rw [run_cons, execStmt, execArms, bind_assoc, Compute.bind_ok hcond, hv,
      if_neg Bool.false_ne_true, bind_pure]
    exact (run_cons n ρ (.chain arms) rest t).symm
  | @round n ρ body rest s =>
    refine ⟨fun c => afterRound P ρ body n c >>= following P ρ rest (fun _ => pure) (n + 1), ?_⟩
    rw [run_cons, execStmt, loop_succ, bind_assoc]
    exact execBlock_apply ..
  | @again n ρ body rest s c t hbody hc =>
    refine ⟨following P ρ rest (fun _ => pure) (n + 1), ?_⟩
    rw [run_cons, execStmt, loop_succ, bind_assoc, Compute.bind_ok hbody, exec_one, execStmt]
    cases c with
    | returned v => exact absurd rfl (hc v)
    | normal | again => rfl

/-- A point that is visited is executed: by `Step.goesOn`, step by step. -/
theorem Visits.goesOn {p q : Point S} (h : Visits P p q) :
    ∃ k : Completion S → Compute S (Completion S),
      p.run P = (exec P (engine P q.depth) q.scope q.block >>= k) q.store := by
  induction h with
  | refl => exact ⟨pure, by rw [bind_pure]; rfl⟩
  | tail _ hstep ih =>
    obtain ⟨k, hk⟩ := ih
    obtain ⟨k', hk'⟩ := hstep.goesOn
    refine ⟨fun c => k' c >>= k, ?_⟩
    rw [hk, ← bind_assoc]
    exact Compute.bind_congr_left k hk'

end Point

/-! ## States of a loop -/

/-- The cells `C` are those of the variables of the loop, and a scope has no other names for
them. -/
structure JumpTarget.Owns (G : JumpTarget) (C : Nat → Prop) (n : Nat) (ρ : Scope) : Prop where
  /-- The cells of names exist. -/
  lt : ∀ q ∈ ρ, q.2 < n
  /-- A variable has a cell of its own. -/
  cell : ∀ x ∈ G.variables, ∃ ℓ, ρ.lookup x = some ℓ ∧ C ℓ
  /-- Variables have different cells. -/
  distinct : ∀ x ∈ G.variables, ∀ y ∈ G.variables, ρ.lookup x = ρ.lookup y → x = y
  /-- Other names have other cells. -/
  other : ∀ x, x ∉ G.variables → ∀ ℓ, ρ.lookup x = some ℓ → ¬C ℓ

/-- No value in the store refers to the cells `C`, and all of these can be assigned, unless they are
still to be filled. -/
structure Guarded (C todo : Nat → Prop) (s : Store S) : Prop where
  /-- The cells exist. -/
  bound : ∀ ℓ, C ℓ → ℓ < s.length
  /-- Values refer to other cells. -/
  within : ∀ (ℓ : Nat) (c : Cell S), s[ℓ]? = some c → c.Within C s.length
  /-- The cells can be assigned. -/
  filled : ∀ ℓ, C ℓ → ¬todo ℓ → ∃ v, s[ℓ]? = some (Cell.assignable v)

section

variable {G : JumpTarget} {C todo todo' : Nat → Prop} {m n : Nat} {ρ : Scope} {s s' t t' : Store S}

/-- The bound `n` on the cells in scope can grow with the store. -/
theorem JumpTarget.Owns.mono (h : G.Owns C n ρ) (hle : n ≤ m) : G.Owns C m ρ :=
  ⟨fun q hq => Nat.lt_of_lt_of_le (h.lt q hq) hle, h.cell, h.distinct, h.other⟩

/-- Where `names` has no variable of `G`, nothing in it refers to a cell of `C`. -/
theorem JumpTarget.Owns.sees (h : G.Owns C n ρ) {names : List String}
    (hnames : ∀ x ∈ names, x ∉ G.variables) : Sees C n names ρ :=
  ⟨h.lt, fun x hx => h.other x (hnames x hx)⟩

/-- A guarded store is `Alike` to itself. -/
theorem Guarded.alike (h : Guarded C todo s) : Alike C s s :=
  ⟨rfl, h.bound, fun _ _ => rfl, fun ℓ _ => h.within ℓ⟩

/-- More cells may be still to be filled. -/
theorem Guarded.mono (h : Guarded C todo s) (htodo : ∀ ℓ, todo ℓ → todo' ℓ) :
    Guarded C todo' s :=
  ⟨h.bound, h.within, fun ℓ hℓ hn => h.filled ℓ hℓ fun ht => hn (htodo ℓ ht)⟩

/-- Where all variables are declared, none is still to be filled. -/
theorem Guarded.of_nil {ρ' : Scope}
    (h : Guarded C (fun ℓ => ∃ x ∈ ([] : List String), ρ'.lookup x = some ℓ) s) :
    Guarded C todo s := by
  refine h.mono ?_
  rintro ℓ ⟨x, hx, -⟩
  cases hx

/-- Steps that leave the cells `C` as they are keep them guarded. -/
theorem Guarded.onward (hs : Guarded C todo s) (h : Onward C s s' t t') : Guarded C todo t where
  bound := h.alike.bound
  within ℓ c hc := by
    by_cases hℓ : C ℓ
    · exact (hs.within ℓ c (h.left ℓ hℓ ▸ hc)).mono h.length_le
    · exact h.alike.within ℓ hℓ c hc
  filled ℓ hℓ hn := by
    rw [h.left ℓ hℓ]
    exact hs.filled ℓ hℓ hn

/-- `Blind` computations leave the cells `C` as they are. -/
theorem Guarded.blind {α : Type} {x : Compute S α} {ok : Nat → α → Prop} {a : α}
    (hs : Guarded C todo s) (hx : Blind C s.length x ok) (h : x s = some (.ok (a, t))) :
    Onward C s s t t ∧ ok t.length a := by
  have hblind := hx s s (Nat.le_refl _) hs.alike
  rw [h] at hblind
  cases hblind with
  | ended honward hok => exact ⟨honward, hok⟩

/-- Changing a cell of `C` keeps the store guarded. -/
theorem Guarded.set (hs : Guarded C todo s) {ℓ : Nat} (hℓ : C ℓ) {v : Val S}
    (hv : v.Within C s.length) (htodo : ∀ k, todo k → todo' k ∨ k = ℓ) :
    Guarded C todo' (s.set ℓ (.assignable v)) where
  bound k hk := by simpa using hs.bound k hk
  within k c hc := by
    rw [List.length_set]
    rw [List.getElem?_set] at hc
    split at hc
    · split at hc
      -- the cell that was set
      · obtain rfl := Option.some.inj hc
        rintro _ ⟨⟩
        exact hv
      · cases hc
    · exact hs.within k c hc
  filled k hk hn := by
    by_cases hkℓ : ℓ = k
    · subst hkℓ
      exact ⟨v, List.getElem?_set_self (hs.bound ℓ hℓ)⟩
    · rw [List.getElem?_set_ne hkℓ]
      exact hs.filled k hk fun ht => (htodo k ht).elim hn fun h => hkℓ h.symm

/-- Declaring or assigning the name `y`, which has a cell of `C`, keeps the store guarded. -/
theorem Guarded.fill (hs : Guarded C todo s) {y : String} {ℓ : Nat} (hy : ρ.lookup y = some ℓ)
    (hℓ : C ℓ) {v : Val S} (hv : v.Within C s.length) {change : Cell S → Option (Cell S)}
    (hchange : change = Cell.start v ∨ change = Cell.assign v)
    (htodo : ∀ k, todo k → todo' k ∨ k = ℓ) {u : Unit}
    (h : Compute.write ρ y change s = some (.ok (u, t))) :
    Guarded C todo' t ∧ s.length ≤ t.length := by
  simp only [Compute.write, hy] at h
  cases hc : s[ℓ]?.bind change with
  | none =>
    rw [hc] at h
    cases h
  | some c =>
    rw [hc] at h
    cases h
    obtain ⟨c', -, hc'⟩ := Option.bind_eq_some_iff.1 hc
    -- both ways to fill a cell make it assignable
    have hfilled : c = .assignable v := by
      rcases hchange with rfl | rfl <;> cases c' <;> cases hc' <;> rfl
    subst hfilled
    exact ⟨hs.set hℓ hv htodo, by simp⟩

/-- `blockScope` has new cells for what `block` declares. -/
theorem blockScope_eq (ρ : Scope) (s : Store S) (block : List Stmt) :
    blockScope ρ s block = extend ρ ((declared block).zipIdx s.length) := by
  rw [blockScope, List.zipIdx_eq_zip_range']

/-- Entering a block that declares no variable of `G`. -/
theorem JumpTarget.Owns.enterBlock (h : G.Owns C s.length ρ) (hs : Guarded C todo s)
    {block : List Stmt} (hblock : ∀ x ∈ declared block, x ∉ G.variables) :
    G.Owns C (blockStore s block).length (blockScope ρ s block) ∧
      Guarded C todo (blockStore s block) := by
  have hlength : (blockStore s block).length = s.length + (declared block).length := by
    simp [blockStore]
  -- the variables keep their cells
  have hold (x : String) (hx : x ∈ G.variables) :
      (blockScope ρ s block).lookup x = ρ.lookup x := by
    rw [blockScope_eq]
    rcases lookup_extend ρ (declared block) s.length x with ⟨-, hold⟩ | ⟨_, hnew, -⟩
    · exact hold
    · exact absurd hx (hblock x hnew)
  have hsees : Sees C s.length [] ρ := h.sees (List.forall_mem_nil _)
  refine ⟨⟨?_, fun x hx => ?_, fun x hx y hy hxy => ?_, fun x hx ℓ hℓ => ?_⟩, ?_⟩
  · rw [hlength, blockScope_eq]
    exact (hsees.extend (declared block) hs.bound (Nat.le_refl _)).lt
  · rw [hold x hx]
    exact h.cell x hx
  · rw [hold x hx, hold y hy] at hxy
    exact h.distinct x hx y hy hxy
  · rw [blockScope_eq] at hℓ
    have hsees : Sees C s.length [x] ρ := h.sees (List.forall_mem_singleton.2 hx)
    exact (hsees.extend (declared block) hs.bound (Nat.le_refl _)).not_mem x
      (List.mem_singleton_self x) ℓ hℓ
  -- the new cells are empty
  · have honward : Onward C s s (blockStore s block) (blockStore s block) :=
      hs.alike.append (List.forall_mem_map.2 fun _ _ => within_empty)
    exact hs.onward honward

end

/-! ## Computations of a loop -/

/-- If `x >>= k` ends, `x` has ended before, and then `k`. -/
theorem Compute.exists_of_bind {α β : Type} {x : Compute S α} {k : α → Compute S β}
    {s u : Store S} {b : β} (h : (x >>= k) s = some (.ok (b, u))) :
    ∃ a t, x s = some (.ok (a, t)) ∧ k a t = some (.ok (b, u)) := by
  rw [Compute.bind_apply] at h
  split at h
  · cases h
  · cases h
  · next a t ht => exact ⟨a, t, ht, h⟩

/-- From guarded stores with at least `n` cells, the computation ends in guarded stores and loses no
cells. Its result is as `ok` says of the number of cells. -/
def Keeps {α : Type} (C todo : Nat → Prop) (n : Nat) (x : Compute S α) (ok : Nat → α → Prop) :
    Prop :=
  ∀ s a t, n ≤ s.length → Guarded C todo s → x s = some (.ok (a, t)) →
    Guarded C todo t ∧ s.length ≤ t.length ∧ ok t.length a

namespace Keeps

variable {α β : Type} {C todo : Nat → Prop} {n : Nat} {x : Compute S α} {k : α → Compute S β}
  {ok : Nat → α → Prop} {okβ : Nat → β → Prop}

/-- A `Blind` computation keeps the store guarded. -/
theorem of_blind (h : Blind C n x ok) : Keeps C todo n x ok := by
  intro s a t hn hs hx
  obtain ⟨honward, ha⟩ := hs.blind (fun s s' hs' => h s s' (Nat.le_trans hn hs')) hx
  exact ⟨hs.onward honward, honward.length_le, ha⟩

/-- `pure a` does not change the store. -/
theorem pure {a : α} (h : ∀ m, n ≤ m → ok m a) : Keeps C todo n (pure a : Compute S α) ok :=
  of_blind (.pure h)

/-- `k` runs in a store that may have grown, so it has to keep it for every `m` from `n` on. -/
theorem bind (hx : Keeps C todo n x ok) (hk : ∀ m a, n ≤ m → ok m a → Keeps C todo m (k a) okβ) :
    Keeps C todo n (x >>= k) okβ := by
  intro s b u hn hs h
  obtain ⟨a, t, ht, h⟩ := Compute.exists_of_bind h
  obtain ⟨hguarded, hle, ha⟩ := hx s a t hn hs ht
  obtain ⟨hend, hle', hb⟩ := hk t.length a (Nat.le_trans hn hle) ha t b u (Nat.le_refl _) hguarded h
  exact ⟨hend, Nat.le_trans hle hle', hb⟩

/-- No value in a guarded store refers to the cells `C`, so neither does what is read. -/
theorem read (ρ : Scope) (x : String) :
    Keeps C todo n (Compute.read ρ x : Compute S (Val S)) fun m v => v.Within C m := by
  intro s v t _ hs h
  rw [Compute.read] at h
  split at h
  · next w hw =>
    cases h
    obtain ⟨ℓ, -, hw⟩ := Option.bind_eq_some_iff.1 hw
    obtain ⟨c, hc, hv⟩ := Option.bind_eq_some_iff.1 hw
    exact ⟨hs, Nat.le_refl _, hs.within ℓ c hc v hv⟩
  · cases h

/-- An assignment of a cell of `C`, by a value that refers to none. -/
theorem assign {ρ : Scope} {y : String} {ℓ : Nat} {v : Val S} (hy : ρ.lookup y = some ℓ) (hℓ : C ℓ)
    (hv : v.Within C n) :
    Keeps C todo n (Compute.write ρ y (Cell.assign v)) fun _ _ => True := by
  intro s _ t hn hs h
  obtain ⟨hend, hle⟩ := hs.fill hy hℓ (hv.mono hn) (.inr rfl) (fun _ => .inl) h
  exact ⟨hend, hle, trivial⟩

end Keeps

section

variable {P : Primitives S} {E : Engine S} {G : JumpTarget} {C todo : Nat → Prop} {n : Nat}
  {ρ : Scope}

/-- A variable of `G` has a cell of `C`. -/
theorem JumpTarget.Owns.keeps_assign (h : G.Owns C n ρ) {x : String} (hx : x ∈ G.variables)
    {v : Val S} (hv : v.Within C n) :
    Keeps C todo n (Compute.write ρ x (Cell.assign v)) fun _ _ => True := by
  obtain ⟨ℓ, hlookup, hℓ⟩ := h.cell x hx
  exact .assign hlookup hℓ hv

/-- A condition that `G` allows is blind, or the test of the selector. -/
theorem JumpTarget.Owns.keeps_cond (h : G.Owns C n ρ) (hE : E.RunsBlindly C) {cond : Expr}
    (hcond : G.Allows cond) :
    Keeps C todo n (eval P E.call ρ cond) fun m v => v.Within C m := by
  rcases hcond with hnames | ⟨selector, i, -, rfl⟩
  · exact .of_blind (blind_eval hE.call cond (h.sees hnames))
  -- a test of the selector reads a private cell, but what it comes to is a scalar
  · rw [memberTest, eval, eval]
    · refine (Keeps.read ρ selector).bind fun m v hm _ => ?_
      refine .bind (.of_blind (blind_eval hE.call (natLit i) ?_)) fun k w hk _ => ?_
      · exact (h.mono hm).sees (List.forall_mem_nil _)
      · exact .of_blind (.given fun _ _ _ => within_of_map_scalar)
    · intro h
      cases h
    · intro h
      cases h

/-- Entering a block that declares no variable of `G`. -/
theorem JumpTarget.Owns.keeps_enterBlock (h : G.Owns C n ρ) {block : List Stmt}
    (hblock : ∀ x ∈ declared block, x ∉ G.variables) :
    Keeps C todo n (Compute.enterBlock ρ block : Compute S Scope) fun m ρ' => G.Owns C m ρ' := by
  intro s ρ' t hn hs hentered
  rw [enterBlock_apply] at hentered
  cases hentered
  obtain ⟨howns, hguarded⟩ := (h.mono hn).enterBlock hs hblock
  exact ⟨hguarded, by simp [blockStore], howns⟩

/-- The arms of a chain in the body of the loop. -/
theorem JumpTarget.Owns.keeps_arms (h : G.Owns C n ρ) (hE : E.RunsBlindly C)
    {arms : List (Expr × List Stmt)} (hconds : ∀ arm ∈ arms, G.Allows arm.1)
    (hdeclared : ∀ arm ∈ arms, ∀ x ∈ declared arm.2, x ∉ G.variables)
    (hblocks : ∀ arm ∈ arms, ∀ m ρ', G.Owns C m ρ' →
      Keeps C todo m (exec P E ρ' arm.2) fun k c => c.Within C k) :
    Keeps C todo n (execArms P E ρ arms) fun m c => c.Within C m := by
  induction arms generalizing n with
  | nil =>
    rw [execArms]
    exact .pure fun _ _ => within_normal
  | cons arm arms ih =>
    obtain ⟨hcond, hconds⟩ := List.forall_mem_cons.1 hconds
    obtain ⟨hdecl, hdeclared⟩ := List.forall_mem_cons.1 hdeclared
    obtain ⟨hblock, hblocks⟩ := List.forall_mem_cons.1 hblocks
    rw [execArms]
    refine (h.keeps_cond hE hcond).bind fun m v hm _ => ?_
    split
    · exact ((h.mono hm).keeps_enterBlock hdecl).bind fun k ρ' _ howns => hblock k ρ' howns
    · exact ih (h.mono hm) hconds hdeclared hblocks

/-- A block of statements of which each keeps the store guarded. -/
theorem JumpTarget.Owns.keeps_exec (h : G.Owns C n ρ) {block : List Stmt}
    (hblock : ∀ st ∈ block, ∀ m ρ', G.Owns C m ρ' →
      Keeps C todo m (execStmt P E ρ' st) fun k c => c.Within C k) :
    Keeps C todo n (exec P E ρ block) fun m c => c.Within C m := by
  induction block generalizing n with
  | nil =>
    rw [exec]
    exact .pure fun _ _ => within_normal
  | cons st rest ih =>
    obtain ⟨hfirst, hrest⟩ := List.forall_mem_cons.1 hblock
    rw [exec]
    refine (hfirst n ρ h).bind fun m c hm hc => ?_
    split
    · exact ih (h.mono hm) hrest
    · exact .pure fun k hk => hc.mono hk

/-- What a statement in the body of `G` declares is no variable of `G`. -/
theorem Turn.declares {st : Stmt} (h : Turn G st) {x : String} (hx : st.declares? = some x) :
    x ∉ G.variables := by
  cases h with
  | plain _ hnames =>
    refine hnames x ?_
    rcases st with _ | ⟨_, _ | _⟩ | _ | _ | _ | _ | _ | _ | _ | _ | _ <;> cases hx <;>
      simp [Stmt.names]
  | copy hx' =>
    cases hx
    exact hx'
  | assign | chain => cases hx

/-- What the body of `G` declares is no variable of `G`. -/
theorem Turns.declared {block : List Stmt} (h : Turns G block) :
    ∀ x ∈ declared block, x ∉ G.variables := by
  intro x hx
  obtain ⟨st, hst, hdeclares⟩ := List.mem_filterMap.1 hx
  exact (h st hst).declares hdeclares

/-- A statement in the body of `G` keeps the store guarded. By induction on `Turn`. -/
theorem Turn.keeps {st : Stmt} (h : Turn G st) (hE : E.RunsBlindly C) (howns : G.Owns C n ρ) :
    Keeps C todo n (execStmt P E ρ st) fun m c => c.Within C m := by
  induction h generalizing n ρ with
  | plain _ hnames => exact .of_blind (blind_execStmt hE _ (howns.sees hnames))
  | @copy x slot hx _ =>
    -- only the copy reads a private cell, and its value is kept in a cell of its own
    rw [execStmt, eval]
    refine (Keeps.read ρ slot).bind fun m v hm hv => ?_
    refine .bind (.of_blind (blind_write ?_ (within_of_change hv (.inl rfl)))) fun k _ _ _ => ?_
    · exact (howns.mono hm).sees (List.forall_mem_singleton.2 hx)
    · exact .pure fun _ _ => within_normal
  | @assign x e hx hnames =>
    rw [execStmt]
    refine .bind (.of_blind (blind_eval hE.call e (howns.sees hnames))) fun m v hm hv => ?_
    exact ((howns.mono hm).keeps_assign hx hv).bind fun _ _ _ _ => .pure fun _ _ => within_normal
  | @chain arms hconds hturns ih =>
    rw [execStmt]
    refine howns.keeps_arms hE hconds (fun arm harm => Turns.declared (hturns arm harm)) ?_
    exact fun arm harm m ρ' h => h.keeps_exec fun st hst k ρ'' h' => ih arm harm st hst h'

/-- So does the body of `G`. -/
theorem Turns.keeps {block : List Stmt} (h : Turns G block) (hE : E.RunsBlindly C)
    (howns : G.Owns C n ρ) : Keeps C todo n (exec P E ρ block) fun m c => c.Within C m :=
  howns.keeps_exec fun st hst _ _ howns' => (h st hst).keeps hE howns'

/-- So does a round, which executes the body in a scope of its own. -/
theorem Turns.keeps_block {block : List Stmt} (h : Turns G block) (hE : E.RunsBlindly C)
    (howns : G.Owns C n ρ) : Keeps C todo n (execBlock P E ρ block) fun m c => c.Within C m :=
  (howns.keeps_enterBlock h.declared).bind fun _ _ _ howns' => h.keeps hE howns'

end

/-! ## Steps of a loop -/

/-- What comes next in the function around a loop: the declarations of slots and then the loop, the
loop, or statements in its body. The variables `todo` are not declared yet. -/
inductive Stage (G : JumpTarget) : List Stmt → List String → Prop
  | body {block} : Turns G block → Stage G block []
  | loop {block} : Turns G block → Stage G [.loop block] []
  | start {x copy rest todo} : x ∈ G.variables → Stage G rest todo →
      Stage G (.declare x (some (.ident copy)) :: rest) (x :: todo)

/-- A chain in the body of `G`, by its conditions and its blocks. -/
theorem turn_chain {G : JumpTarget} {arms : List (Expr × List Stmt)} :
    Turn G (.chain arms) ↔ (∀ arm ∈ arms, G.Allows arm.1) ∧ ∀ arm ∈ arms, Turns G arm.2 := by
  refine ⟨fun h => ?_, fun h => .chain h.1 h.2⟩
  cases h with
  | plain hplain => cases hplain
  | chain hconds hturns => exact ⟨hconds, hturns⟩

/-- A chain comes next in the body of the loop only. -/
theorem Stage.chain {G : JumpTarget} {arms : List (Expr × List Stmt)} {rest : List Stmt}
    {todo : List String} (h : Stage G (.chain arms :: rest) todo) :
    todo = [] ∧ (∀ arm ∈ arms, G.Allows arm.1) ∧ (∀ arm ∈ arms, Turns G arm.2) ∧ Turns G rest := by
  cases h with
  | body hturns =>
    obtain ⟨hturn, hrest⟩ := turns_cons.1 hturns
    obtain ⟨hconds, hturns⟩ := turn_chain.1 hturn
    exact ⟨rfl, hconds, hturns, hrest⟩

/-- A loop that comes next is the loop of `G`. -/
theorem Stage.turns {G : JumpTarget} {body rest : List Stmt} {todo : List String}
    (h : Stage G (.loop body :: rest) todo) : todo = [] ∧ Turns G body := by
  cases h with
  | body hturns =>
    cases (turns_cons.1 hturns).1 with
    | plain hplain => cases hplain
  | loop hturns => exact ⟨rfl, hturns⟩

/-- A jump comes next in the body of the loop only. -/
theorem Stage.jump {G : JumpTarget} {j : Nat} {values : List Expr} {todo : List String}
    (h : Stage G (jumpBlock G.selector j G.slots values) todo) :
    todo = [] ∧ Turns G (jumpBlock G.selector j G.slots values) := by
  rw [jumpBlock_eq] at h ⊢
  generalize G.assigned j values = pairs at h ⊢
  cases pairs <;>
  · cases h with
    | body hturns => exact ⟨rfl, hturns⟩

/-- A point of a loop with the private cells `C`. -/
def Point.Fits (G : JumpTarget) (C : Nat → Prop) (p : Point S) : Prop :=
  ∃ todo, Stage G p.block todo ∧ G.Owns C p.store.length p.scope ∧
    Guarded C (fun ℓ => ∃ x ∈ todo, p.scope.lookup x = some ℓ) p.store

section

variable {P : Primitives S} {G : JumpTarget} {C : Nat → Prop}

/-- A loop ends with a returned value, or not at all. -/
theorem loop_ne_normal (n : Nat) (ρ : Scope) (body : List Stmt) (s t : Store S) :
    (engine P n).loop ρ body s ≠ some (.ok (.normal, t)) := by
  induction n generalizing s with
  | zero => nofun
  | succ n ih =>
    intro h
    rw [Point.loop_succ] at h
    obtain ⟨c, s', -, h⟩ := Compute.exists_of_bind h
    cases c with
    | returned v => cases h
    | normal | again => exact ih s' h

/-- Every step in the function around the loop `G`, and in its rounds, leads to a point of the
loop. -/
theorem Point.Fits.step {p q : Point S} (h : p.Fits G C) (hstep : Point.Step P p q) :
    q.Fits G C := by
  obtain ⟨todo, hstage, howns, hguarded⟩ := h
  cases hstep with
  | @next n ρ st rest s t hst =>
    cases hstage with
    | body hturns =>
      obtain ⟨hturn, hrest⟩ := turns_cons.1 hturns
      obtain ⟨hend, hle, -⟩ :=
        hturn.keeps (runsBlindly_engine n) howns s _ t (Nat.le_refl _) hguarded hst
      exact ⟨[], .body hrest, howns.mono hle, hend⟩
    | loop hturns =>
      rw [execStmt] at hst
      -- what comes after a loop is not reached
      exact absurd hst (loop_ne_normal n ρ _ s t)
    | @start x copy _ todo hx hrest =>
      rw [execStmt, eval] at hst
      -- the declaration fills the cell of `x`, so `x` is not to be declared any more
      obtain ⟨v, s', hread, hst⟩ := Compute.exists_of_bind hst
      obtain ⟨_, t', hwrite, ⟨⟩⟩ := Compute.exists_of_bind hst
      obtain ⟨hguarded, hle, hv⟩ := Keeps.read ρ copy s v s' (Nat.le_refl _) hguarded hread
      obtain ⟨ℓ, hlookup, hℓ⟩ := howns.cell x hx
      have htodo (k : Nat) (hk : ∃ y ∈ x :: todo, ρ.lookup y = some k) :
          (∃ y ∈ todo, ρ.lookup y = some k) ∨ k = ℓ := by
        obtain ⟨y, hy, hk⟩ := hk
        rcases List.mem_cons.1 hy with rfl | hy
        · exact .inr (Option.some.inj (hk ▸ hlookup))
        · exact .inl ⟨y, hy, hk⟩
      obtain ⟨hend, hle'⟩ := hguarded.fill hlookup hℓ hv (.inl rfl) htodo hwrite
      exact ⟨todo, hrest, howns.mono (Nat.le_trans hle hle'), hend⟩
  | @enter n ρ cond block arms rest s v t hcond hv =>
    obtain ⟨rfl, hconds, hturns, -⟩ := hstage.chain
    obtain ⟨hguarded, hle, -⟩ := howns.keeps_cond (runsBlindly_engine n)
      (hconds _ (List.mem_cons_self ..)) s v t (Nat.le_refl _) hguarded hcond
    have hblock := hturns _ (List.mem_cons_self ..)
    obtain ⟨howns, hguarded⟩ := (howns.mono hle).enterBlock hguarded hblock.declared
    exact ⟨[], .body hblock, howns, hguarded.of_nil⟩
  | @skip n ρ cond block arms rest s v t hcond hv =>
    obtain ⟨rfl, hconds, hturns, hrest⟩ := hstage.chain
    obtain ⟨hguarded, hle, -⟩ := howns.keeps_cond (runsBlindly_engine n)
      (hconds _ (List.mem_cons_self ..)) s v t (Nat.le_refl _) hguarded hcond
    have hchain :=
      turn_chain.2 ⟨(List.forall_mem_cons.1 hconds).2, (List.forall_mem_cons.1 hturns).2⟩
    exact ⟨[], .body (turns_cons.2 ⟨hchain, hrest⟩), howns.mono hle, hguarded⟩
  | @round n ρ body rest s =>
    obtain ⟨rfl, hturns⟩ := hstage.turns
    obtain ⟨howns, hguarded⟩ := howns.enterBlock hguarded hturns.declared
    exact ⟨[], .body hturns, howns, hguarded.of_nil⟩
  | @again n ρ body rest s c t hbody hc =>
    obtain ⟨rfl, hturns⟩ := hstage.turns
    obtain ⟨hguarded, hle, -⟩ :=
      hturns.keeps_block (runsBlindly_engine n) howns s c t (Nat.le_refl _) hguarded hbody
    exact ⟨[], .loop hturns, howns.mono hle, hguarded⟩

/-- All points that are visited from a point of the loop `G` are points of it. -/
theorem Point.Fits.visits {p q : Point S} (h : p.Fits G C) (hvisits : Point.Visits P p q) :
    q.Fits G C := by
  induction hvisits with
  | refl => exact h
  | tail _ hstep ih => exact ih.step hstep

end

end TailLoop.Script
