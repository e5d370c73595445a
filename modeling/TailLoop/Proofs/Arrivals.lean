import TailLoop.Proofs.ScopeCells

/-!
# Arriving at the bodies of functions

A call of a function, a round of its loop and a call of a function that enters a shared loop all
come to the same: the block of the function's term is executed while the cells of its parameters
hold the arguments. What lies between the call and that block depends on the script alone.

* `Arrives`: a computation goes on as another one, after some steps.
* `Started`: the block of a term is executed with given arguments.
* `started_body`, `started_rounds`, `started_enters`: bodies of functions, rounds of loops and
  everything that leads to the body of a member of a group.
-/

namespace TailLoop.Emit

open Script Lower

variable {S : Type} {α : Type}

/-! ## Steps of one script -/

/-- A computation goes on as another one in another store, with an engine that is smaller by `k`. -/
structure Arrives (k : Nat) (x : Nat → Compute S α) (s : Store S) (y : Nat → Compute S α)
    (s₁ : Store S) : Prop where
  /-- What it comes to is what the other one comes to. -/
  back : ∀ {n o}, x n s = some o → ∃ m, n = m + k ∧ y m s₁ = some o
  /-- With large engines there is no difference. -/
  forth : ∀ {o}, Comes y s₁ o → Comes x s o

namespace Arrives

variable {k l : Nat} {x y z : Nat → Compute S α} {s s₁ s₂ : Store S}

theorem of_eq (h : ∀ n, x n s = y n s₁) : Arrives 0 x s y s₁ where
  back {n _} hx := ⟨n, rfl, h n ▸ hx⟩
  forth := fun ⟨N, hN⟩ => ⟨N, fun n hn => (h n).trans (hN n hn)⟩

/-- A step `x` that does nothing without an engine, and goes on as `y` with any. -/
theorem of_succ (hzero : x 0 s = none) (h : ∀ n, x (n + 1) s = y n s₁) : Arrives 1 x s y s₁ where
  back {n _} hx := by
    cases n with
    | zero =>
      rw [hzero] at hx
      cases hx
    | succ n => exact ⟨n, rfl, h n ▸ hx⟩
  forth := fun ⟨N, hN⟩ => .succ ⟨N, fun n hn => (h n).trans (hN n hn)⟩

theorem trans (h : Arrives k x s y s₁) (h' : Arrives l y s₁ z s₂) : Arrives (l + k) x s z s₂ where
  back hx := by
    obtain ⟨n, rfl, hy⟩ := h.back hx
    obtain ⟨m, rfl, hz⟩ := h'.back hy
    exact ⟨m, by omega, hz⟩
  forth hz := h.forth (h'.forth hz)

end Arrives

/-- Both computations of a simulation may be followed to where they arrive: `x` at `x₁`, and `y` at
`y₁`. -/
theorem SimAt.arrives {β : Type} {V : Versions} {own own' : Nat → Prop} {W W₁ : World S}
    {s s' s₁ s₁' : Store S} {k l n : Nat} {x x₁ : Nat → Compute S α} {y y₁ : Nat → Compute S β}
    {Q : World S → Store S → Store S → α → β → Prop} (hx : Arrives k x s x₁ s₁)
    (hy : Arrives l y s' y₁ s₁') (hs : Extends own s s₁) (hs' : Extends own' s' s₁')
    (hgrows : Grows own own' s s' W W₁)
    (h : ∀ m, n = m + k → SimAt V (fun ℓ => own ℓ ∨ s.length ≤ ℓ)
      (fun ℓ => own' ℓ ∨ s'.length ≤ ℓ) W₁ s₁ s₁' (x₁ m) y₁ Q) :
    SimAt V own own' W s s' (x n) y Q := by
  intro o ho
  obtain ⟨m, hm, ho⟩ := hx.back ho
  exact SimAt.step hs hs' hgrows (h m hm) (x := fun _ => some o) ho.symm (fun o => hy.forth) o rfl

/-! ## Blocks and loops -/

section

variable (P : Primitives S)

/-- Repeats `block` until it returns. -/
def rounds (n : Nat) (ρ : Scope) (block : List Stmt) : Compute S (Val S) := do
  let c ← (engine P n).loop ρ block
  conclude P c

/-- What comes after a round of a loop: the returned value, or another round. -/
def nextRound (ρ : Scope) (block : List Stmt) (n : Nat) : Completion S → Compute S (Val S)
  | .returned v => pure v
  | _ => rounds P n ρ block

end

variable {P : Primitives S}

theorem rounds_zero (ρ : Scope) (block : List Stmt) (s : Store S) :
    rounds P 0 ρ block s = none := rfl

/-- With `n + 1` left, a loop executes its block, and then `nextRound`. -/
theorem rounds_succ (n : Nat) (ρ : Scope) (block : List Stmt) :
    rounds P (n + 1) ρ block = execBlock P (engine P n) ρ block >>= nextRound P ρ block n := by
  simp only [rounds, engine, bind_assoc]
  congr 1
  funext c
  cases c <;> simp [nextRound, rounds, conclude]

/-- What comes after a statement: the `rest` of the block if it ends normally. -/
def following (P : Primitives S) (ρ : Scope) (rest : List Stmt)
    (K : Nat → Completion S → Compute S α) (n : Nat) : Completion S → Compute S α
  | .normal => exec P (engine P n) ρ rest >>= K n
  | c => K n c

/-- Statements are executed one after the other: first `st`, and then what is `following`. -/
theorem exec_cons (n : Nat) (ρ : Scope) (st : Stmt) (rest : List Stmt)
    (K : Nat → Completion S → Compute S α) :
    exec P (engine P n) ρ (st :: rest) >>= K n =
      execStmt P (engine P n) ρ st >>= following P ρ rest K n := by
  rw [exec, bind_assoc]
  congr 1
  funext c
  cases c <;> simp [following]

/-- A block that ends with the returned value of `e`. -/
theorem exec_ret (n : Nat) (ρ : Scope) (e : Script.Expr) (K : Nat → Completion S → Compute S α) :
    exec P (engine P n) ρ [.ret e] >>= K n =
      eval P (engine P n).call ρ e >>= fun v => K n (.returned v) := by
  rw [exec_cons, execStmt, bind_assoc]
  rfl

/-- A chain with a single arm executes its block if the condition holds. -/
theorem execStmt_chain (G : Engine S) (ρ : Scope) (cond : Script.Expr) (block : List Stmt) :
    execStmt P G ρ (.chain [(cond, block)]) = eval P G.call ρ cond >>= fun v =>
      if v.holds P then execBlock P G ρ block else pure .normal := by
  rw [execStmt, execArms, execArms]
  rfl

/-- A function whose body is a loop returns what its `rounds` return. -/
theorem exec_loop (n : Nat) (ρ : Scope) (block : List Stmt) :
    exec P (engine P n) ρ [.loop block] >>= conclude P = rounds P n ρ block := by
  rw [exec_cons n ρ _ _ fun _ => conclude P, execStmt, rounds]
  congr 1
  funext c
  cases c <;> simp [following, exec]

/-- The scope inside `block`, which is entered in the store `s`. -/
def blockScope (ρ : Scope) (s : Store S) (block : List Stmt) : Scope :=
  extend ρ ((declared block).zip (List.range' s.length (declared block).length))

/-- The store inside `block`: what it declares has no value yet. -/
def blockStore (s : Store S) (block : List Stmt) : Store S :=
  s ++ (declared block).map fun _ => .empty

theorem enterBlock_apply (ρ : Scope) (s : Store S) (block : List Stmt) :
    Compute.enterBlock ρ block s = some (.ok (blockScope ρ s block, blockStore s block)) :=
  enterWith_apply ..

/-- `execBlock` executes `block` in its `blockScope` and its `blockStore`. -/
theorem execBlock_apply {G : Engine S} (ρ : Scope) (s : Store S) (block : List Stmt)
    (k : Completion S → Compute S α) :
    (execBlock P G ρ block >>= k) s =
      (exec P G (blockScope ρ s block) block >>= k) (blockStore s block) := by
  rw [execBlock, bind_assoc, Compute.bind_ok (enterBlock_apply ρ s block)]

theorem namesOf_blockScope (ρ : Scope) (s : Store S) (block : List Stmt) :
    namesOf (blockScope ρ s block) = enter (namesOf ρ) (declared block) :=
  namesOf_extend ρ (by simp)

/-- The names `xs` are declared and not written yet, and have cells of their own. -/
def Room (own : Nat → Prop) (s : Store S) (ρ : Scope) (xs : List String) : Prop :=
  ∃ cs : List Nat, xs.map (ρ.lookup ·) = cs.map some ∧ cs.Nodup ∧
    ∀ ℓ ∈ cs, own ℓ ∧ s[ℓ]? = some .empty

/-- What `block` declares has not been written when it is entered. -/
theorem blockStore_empty {s : Store S} {block : List Stmt} {ℓ : Nat}
    (hℓ : ℓ ∈ List.range' s.length (declared block).length) :
    (blockStore s block)[ℓ]? = some .empty := by
  obtain ⟨hle, hlt⟩ := List.mem_range'_1.1 hℓ
  rw [blockStore, List.getElem?_append_right hle, List.getElem?_map,
    List.getElem?_eq_getElem (by omega)]
  rfl

/-- `block` has room for what it declares. -/
theorem room_block (own : Nat → Prop) (ρ : Scope) (s : Store S) {block : List Stmt}
    (h : (declared block).Nodup) (hown : ∀ ℓ, s.length ≤ ℓ → own ℓ) :
    Room own (blockStore s block) (blockScope ρ s block) (declared block) := by
  refine ⟨_, map_lookup_entered ρ h (by simp), List.nodup_range' .., fun ℓ hℓ => ?_⟩
  exact ⟨hown ℓ (List.mem_range'_1.1 hℓ).1, blockStore_empty hℓ⟩

theorem Room.extends {own : Nat → Prop} {s s₁ : Store S} {ρ : Scope} {xs : List String}
    (h : Room own s ρ xs) (hs : Extends nothing s s₁) : Room own s₁ ρ xs := by
  obtain ⟨cs, hcs, hnodup, hcells⟩ := h
  refine ⟨cs, hcs, hnodup, fun ℓ hℓ => ?_⟩
  obtain ⟨hown, hempty⟩ := hcells ℓ hℓ
  rw [hs.old (List.getElem?_eq_some_iff.1 hempty).1 id]
  exact ⟨hown, hempty⟩

/-- Room for names `xs`, which are written first, and names `ys`, which are written later. -/
theorem Room.split {own : Nat → Prop} {s : Store S} {ρ : Scope} {xs ys : List String}
    (h : Room own s ρ (xs ++ ys)) :
    ∃ cs ds : List Nat, xs.map (ρ.lookup ·) = cs.map some ∧ ys.map (ρ.lookup ·) = ds.map some ∧
      (cs ++ ds).Nodup ∧ ∀ ℓ ∈ cs ++ ds, own ℓ ∧ s[ℓ]? = some .empty := by
  obtain ⟨all, hall, hnodup, hcells⟩ := h
  rw [List.map_append] at hall
  obtain ⟨cs, ds, rfl, hcs, hds⟩ := List.append_eq_map_iff.1 hall
  exact ⟨cs, ds, hcs.symm, hds.symm, hnodup, hcells⟩

/-! ## Blocks that are executed for a term -/

section

variable (P) (E : Setting) (refs : List Ref) (ts : List Analyzed) (B : Band)

/-- The scope around the block of a loop: the parameters `copies` of the function around the loop,
and the variables `vars` of the loop. -/
def loopScope (copies : List String) (ccs : List Nat) (vars : List String) (ls : List Nat) :
    Scope := extend (extend B.scope (copies.zip ccs)) (vars.zip ls)

section

variable (own : Nat → Prop) (s : Store S) (ρ : Scope)

/-- Statements in the body of a loop: its variables can be assigned, and `again` executes its block
again. -/
inductive Looping : LoopFrame → (Nat → Completion S → Compute S (Val S)) → Prop
  | mk {frame copies selector slots block ccs ls names K} :
      LoopOf E refs ts B frame copies selector slots block → copies.length = ccs.length →
      (selector.toList ++ slots).length = ls.length → ls.Nodup →
      (∀ ℓ ∈ ls, own ℓ ∧ ∃ v, s[ℓ]? = some (.assignable v)) →
      ρ = extend (loopScope B copies ccs (selector.toList ++ slots) ls) names →
      (∀ n, K n .again = rounds P n (loopScope B copies ccs (selector.toList ++ slots) ls) block) →
      Looping frame K

/-- `block` can be executed for the purpose `p`, with `K` after it: it has room for what it
declares, and jumps have a loop to go to. -/
structure Stage (p : Purpose) (block : List Stmt) (K : Nat → Completion S → Compute S (Val S)) :
    Prop where
  /-- A returned value is the result. -/
  returned : ∀ n v, K n (.returned v) = pure v
  /-- What is declared has not been written yet. -/
  room : Room own s ρ (declared block)
  /-- The block may be in the body of a loop. -/
  loop : ∀ frame, p = .loop frame → Looping P E refs ts B own s ρ frame K

end

/-- A block for this purpose runs its term as an effect. -/
def Purpose.runs : Purpose → Bool
  | .effect => true
  | _ => false

/-- The computation executes the block of a term while the cells of `params` hold given values. -/
inductive Started (own fresh : Nat → Prop) (s : Store S) (runs : Bool) (params : List Binder)
    (u : Analyzed) (vs : List (Val S)) : (Nat → Compute S (Val S)) → Prop
  | mk {p K ks cs rest} {names : Scope} : p.runs = runs →
      Block E p (namesOf (extend B.scope names)) (params.zip ks ++ B.naming) u rest →
      ks.length = params.length → ks.map (cellOf (extend B.scope names)) = cs.map some →
      Holds s cs vs → (∀ c ∈ cs, fresh c ∧ ¬own c) →
      Stage P E refs ts B own s (extend B.scope names) p rest K →
      Started own fresh s runs params u vs
        fun n => exec P (engine P n) (extend B.scope names) rest >>= K n

end

section

variable {E : Setting} {known : Nat → Val S → Prop} {refs : List Ref} {ts : List Analyzed}
  {B : Band} {own own₁ fresh fresh₁ : Nat → Prop} {s s₁ : Store S} {ρ : Scope}

/-- Which cells may hold the arguments need not be known exactly: more may be `fresh`. -/
theorem Started.mono {runs : Bool} {params : List Binder} {u : Analyzed} {vs : List (Val S)}
    {x : Nat → Compute S (Val S)} (h : Started P E refs ts B own fresh s runs params u vs x)
    (hfresh : ∀ c, fresh c → fresh₁ c) : Started P E refs ts B own fresh₁ s runs params u vs x := by
  cases h with
  | mk hp hblock hlen hks hvs hcs hstage =>
    exact .mk hp hblock hlen hks hvs (fun c hc => ⟨hfresh c (hcs c hc).1, (hcs c hc).2⟩) hstage

/-- Cells that are not the variables of the loop can be written. -/
theorem Looping.extends {frame : LoopFrame} {K : Nat → Completion S → Compute S (Val S)}
    {written : Nat → Prop} (h : Looping P E refs ts B own s ρ frame K) (hs : Extends written s s₁)
    (hwritten : ∀ {ℓ v}, written ℓ → s[ℓ]? ≠ some (.assignable v))
    (hown : ∀ {ℓ}, own ℓ → ¬written ℓ → own₁ ℓ) : Looping P E refs ts B own₁ s₁ ρ frame K := by
  cases h with
  | mk hloop hccs hls hnodup hcells hρ hagain =>
    refine .mk hloop hccs hls hnodup (fun ℓ hℓ => ?_) hρ hagain
    obtain ⟨ho, v, hv⟩ := hcells ℓ hℓ
    have hnot : ¬written ℓ := fun hw => hwritten hw hv
    refine ⟨hown ho hnot, v, ?_⟩
    rw [hs.old (List.getElem?_eq_some_iff.1 hv).1 hnot]
    exact hv

/-- Steps that write nothing keep a loop going. -/
theorem Looping.after {frame : LoopFrame} {K : Nat → Completion S → Compute S (Val S)}
    (h : Looping P E refs ts B own s ρ frame K) (hs : Extends nothing s s₁) :
    Looping P E refs ts B own s₁ ρ frame K := h.extends hs False.elim fun ho _ => ho

/-- A scope inside the body of the loop has more `names`, and the same `again`. -/
theorem Looping.inner {frame : LoopFrame} {K : Nat → Completion S → Compute S (Val S)}
    (h : Looping P E refs ts B own s ρ frame K) (names : Scope)
    (K₁ : Nat → Completion S → Compute S (Val S)) (hagain : ∀ n, K₁ n .again = K n .again) :
    Looping P E refs ts B own s (extend ρ names) frame K₁ := by
  cases h with
  | mk hloop hccs hls hnodup hcells hρ hagain' =>
    refine .mk hloop hccs hls hnodup hcells (by rw [hρ, ← extend_append]) fun n => ?_
    rw [hagain, hagain']

/-- `first` has cells for what it declares, and when these are written, `rest` can be executed. -/
theorem Stage.split {p : Purpose} {first rest : List Stmt}
    {K : Nat → Completion S → Compute S (Val S)}
    (h : Stage P E refs ts B own s ρ p (first ++ rest) K) :
    ∃ cs : List Nat, (declared first).map (ρ.lookup ·) = cs.map some ∧ cs.Nodup ∧
      (∀ ℓ ∈ cs, own ℓ ∧ s[ℓ]? = some .empty) ∧
      ∀ s₁, Extends (· ∈ cs) s s₁ →
        Stage P E refs ts B (fun ℓ => own ℓ ∧ ℓ ∉ cs) s₁ ρ p rest K := by
  have hroom := h.room
  rw [declared_append] at hroom
  obtain ⟨cs, ds, hcs, hds, hnodup, hcells⟩ := hroom.split
  obtain ⟨hnodup, hnodup', hdisjoint⟩ := List.nodup_append.1 hnodup
  have hfirst (ℓ : Nat) (hℓ : ℓ ∈ cs) : own ℓ ∧ s[ℓ]? = some .empty :=
    hcells ℓ (List.mem_append_left _ hℓ)
  refine ⟨cs, hcs, hnodup, hfirst, fun s₁ hext =>
    ⟨h.returned, ⟨ds, hds, hnodup', fun ℓ hℓ => ?_⟩, fun frame hp => ?_⟩⟩
  · obtain ⟨hown, hempty⟩ := hcells ℓ (List.mem_append_right _ hℓ)
    have hnot : ℓ ∉ cs := fun hmem => hdisjoint ℓ hmem ℓ hℓ rfl
    rw [hext.old (List.getElem?_eq_some_iff.1 hempty).1 hnot]
    exact ⟨⟨hown, hnot⟩, hempty⟩
  · exact (h.loop frame hp).extends hext
      (fun hℓ hv => by rw [(hfirst _ hℓ).2] at hv; cases hv) fun ho hnot => ⟨ho, hnot⟩

variable (refs ts) in
/-- The `body` of a function is executed while the cells of its parameters hold the arguments
`vs`. -/
theorem started_body {p : Purpose} {names : List String} {params : List Binder} {u : Analyzed}
    {body : List Stmt} {cells : List Nat} {vs : List (Val S)} (hp : ∀ frame, p ≠ .loop frame)
    (hbody : Body E p names (enter (namesOf B.scope) names)
      (params.zipIdx (namesOf B.scope).length ++ B.naming) u body)
    (hlen : names.length = params.length) (hcells : names.length = cells.length)
    (hvs : Holds s cells vs) :
    ∃ x s₁, Arrives 0 (fun n => execBlock P (engine P n) (extend B.scope (names.zip cells)) body >>=
        conclude P) s x s₁ ∧ Extends nothing s s₁ ∧
      Started P E refs ts B (s.length ≤ ·) (· ∈ cells) s₁ p.runs params u vs x := by
  cases hbody with
  | mk hnodup hblock =>
    have hdeclared : (declared body).Nodup := (List.nodup_append.1 hnodup).2.1
    -- the block adds its own declarations to the scope of the parameters, all in new cells
    have hscope : blockScope (extend B.scope (names.zip cells)) s body =
        extend B.scope (names.zip cells ++
          (declared body).zip (List.range' s.length (declared body).length)) := by
      rw [blockScope, extend_append]
    have hroom := room_block (s.length ≤ ·) (extend B.scope (names.zip cells)) s hdeclared
      fun _ => id
    have hnames := namesOf_blockScope (extend B.scope (names.zip cells)) s body
    rw [hscope] at hroom hnames
    rw [List.zipIdx_eq_zip_range', ← namesOf_extend _ hcells, ← hnames] at hblock
    -- nothing runs before the block, so the body arrives at it without fuel
    refine ⟨_, blockStore s body, .of_eq fun n => ?_, .append .., .mk (K := fun _ => conclude P)
      rfl hblock (by simp) ?_ (hvs.extends (.append ..) fun _ _ => id) (fun c hc => ⟨hc, ?_⟩)
      ⟨fun _ _ => rfl, hroom, fun frame h => (hp frame h).elim⟩⟩
    · rw [execBlock_apply, hscope]
    · have hentered := map_cellOf_entered B.scope hcells
      rw [extend_append, ← hlen, List.length_map]
      exact map_cellOf_extend hentered _
    · exact Nat.not_le.2 (hvs.get hc).1

/-! ## Rounds of loops -/

/-- Constants declare their names. -/
theorem declared_copies (ps : List (String × String)) :
    declared (ps.map fun p => .const p.1 (.ident p.2)) = ps.map Prod.fst :=
  declared_map (fun _ => rfl) ps

/-- The body of a member: constants for its parameters take the values of the slots. -/
theorem started_member {frame : LoopFrame} {slots : List String} {t : Analyzed} {block : List Stmt}
    {names : Scope} {ls : List Nat} {vs : List (Val S)} {K : Nat → Completion S → Compute S (Val S)}
    (h : Member E frame slots (namesOf (extend B.scope names)) B.naming t block)
    (hroom : Room own s (extend B.scope names) (declared block))
    (hreturned : ∀ n v, K n (.returned v) = pure v)
    (hloop : Looping P E refs ts B own s (extend B.scope names) frame K)
    (hslots : frame.slots.map (cellOf (extend B.scope names)) = ls.map some)
    (hvs : Holds s (ls.take t.params.length) vs) :
    ∃ x s₁ own₁, Arrives 0 (fun n => exec P (engine P n) (extend B.scope names) block >>= K n) s x
        s₁ ∧ Extends own s s₁ ∧ (∀ ℓ, own₁ ℓ → own ℓ) ∧
      Started P E refs ts B own₁ own s₁ false t.params t.inner vs x := by
  cases h with
  | @mk _ _ _ _ _ ks rest xs hlen hle hxs hres hblock =>
    have hle' : xs.length ≤ slots.length := hlen ▸ hle
    -- the statements as a list of names and a list of expressions
    have hstmts : (xs.zip slots).map (fun p => Stmt.const p.1 (.ident p.2)) =
        (xs.zip ((slots.take xs.length).map .ident)).map fun p => .const p.1 p.2 := by
      have hzip : xs.zip slots = _ := List.zip_eq_zip_take_min
      rw [Nat.min_eq_left hle', List.take_length] at hzip
      rw [List.zip_map_right, List.map_map, ← hzip]
      rfl
    obtain ⟨cs, hcs, hnodup, hcells, hrest⟩ := Stage.split (P := P) (p := .loop frame) (K := K)
      ⟨hreturned, hroom, by rintro _ ⟨⟩; exact hloop⟩
    rw [declared_copies, List.map_fst_zip hle'] at hcs
    obtain ⟨cs', hcs', hks⟩ := map_lookup_of_resolve hxs
    obtain rfl := eq_of_map_some (hcs'.symm.trans hcs)
    obtain ⟨ls', hls', hframe⟩ := map_lookup_of_resolve hres
    obtain rfl := eq_of_map_some (hframe.symm.trans hslots)
    -- the cells of the slots are filled and those of the constants are empty, so declaring the
    -- constants leaves the arguments in place
    have hread (s₁ : Store S) (hs₁ : Extends (· ∈ cs') s s₁) : List.Forall₂
        (Evaluates P (extend B.scope names) s₁) ((slots.take xs.length).map .ident) vs := by
      refine evaluates_idents ?_
        (hvs.extends hs₁ fun ℓ hℓ hmem => (hvs.get hℓ).2 (hcells ℓ hmem).2)
      rw [List.map_take, hls', ← List.map_take, hlen]
    obtain ⟨s₁, hexec, hext, hfilled⟩ := exec_writes .const Cell.fix .constant
      (fun _ _ _ _ => by rw [execStmt]) hcs hnodup hread (by simp [hle'])
      (fun ℓ hℓ => ⟨.empty, (hcells ℓ hℓ).2, fun _ => rfl⟩)
    refine ⟨_, s₁, fun ℓ => own ℓ ∧ ℓ ∉ cs', .of_eq fun n => ?_, hext.mono fun ℓ _ hℓ =>
      (hcells ℓ hℓ).1, fun _ h => h.1, .mk (K := K) rfl hblock ?_ hks ?_
      (fun c hc => ⟨(hcells c hc).1, fun h => h.2 hc⟩) (hrest s₁ hext)⟩
    · rw [hstmts]
      exact Compute.bind_congr_left _ (hexec ..)
    · rw [← hlen]
      simpa using (congrArg List.length hxs).symm
    · exact hfilled.imp fun _ _ h => by rw [h]; rfl

/-- The value of the selector of a shared loop whose next member is at position `i`. -/
def selected (P : Primitives S) (i : Nat) : Val S := .scalar (P.int (Int64.ofNat i))

/-- The test for the member `j`, where the selector `x` is at `i`, is whether they are the same.
This needs `P` to tell the numbers apart. -/
theorem evaluates_test {x : String} {ℓ i j n : Nat} (hx : ρ.lookup x = some ℓ)
    (hv : s[ℓ]?.bind Cell.value? = some (selected P i)) (hP : P.TellsApart n) (hi : i < n)
    (hj : j < n) :
    Evaluates P ρ s (.binary .eq (.ident x) (natLit j)) (.scalar (P.boolean (decide (i = j)))) := by
  intro call
  rw [eval, Compute.bind_ok (evaluates_ident hx hv call), natLit, eval, pure_bind, selected,
    Val.mask, Val.mask, hP i j hi hj]
  · rfl
  · intro h
    cases h
  · intro h
    cases h

/-- The bodies of all members behind tests: the one at the position `i` of the selector is executed.
By induction on the members from `j` on. -/
theorem started_dispatch {frame : LoopFrame} {selector : String} {slots : List String} {j i : Nat}
    {us : List Analyzed} {t : Analyzed} {block : List Stmt} {names : Scope} {ls : List Nat}
    {vs : List (Val S)} {K : Nat → Completion S → Compute S (Val S)}
    (h : Dispatch E frame selector slots j (namesOf (extend B.scope names)) B.naming us block)
    (hi : us[i]? = some t) (hP : P.TellsApart E.size) (hsize : j + us.length ≤ E.size)
    (hroom : Room own s (extend B.scope names) (declared block))
    (hnew : ∀ ℓ, s.length ≤ ℓ → own ℓ) (hreturned : ∀ n v, K n (.returned v) = pure v)
    (hloop : Looping P E refs ts B own s (extend B.scope names) frame K)
    (hselector : ∀ k, frame.selector = some k → ∃ ℓ, cellOf (extend B.scope names) k = some ℓ ∧
      s[ℓ]?.bind Cell.value? = some (selected P (j + i)))
    (hslots : frame.slots.map (cellOf (extend B.scope names)) = ls.map some)
    (hvs : Holds s (ls.take t.params.length) vs) :
    ∃ x s₁ own₁, Arrives 0 (fun n => exec P (engine P n) (extend B.scope names) block >>= K n) s x
        s₁ ∧ Extends own s s₁ ∧ (∀ ℓ, own₁ ℓ → own ℓ) ∧
      Started P E refs ts B own₁ own s₁ false t.params t.inner vs x := by
  induction us generalizing j i block with
  | nil => cases hi
  | cons u us ih =>
    cases h with
    | last hmember =>
      cases i with
      | zero =>
        obtain rfl := Option.some.inj hi
        exact started_member hmember hroom hreturned hloop hslots hvs
      | succ i => cases hi
    | @cons _ _ _ _ _ _ _ u' us member rest hnodup hsel hmember hrest =>
      obtain ⟨k, hk⟩ : ∃ k, frame.selector = some k := by
        cases hframe : frame.selector with
        | none =>
          rw [hframe] at hsel
          cases hsel
        | some k => exact ⟨k, rfl⟩
      rw [hk] at hsel
      obtain ⟨ℓ, hlookup, hcell⟩ := lookup_of_resolve (Option.some.inj hsel)
      obtain ⟨ℓ', hcell', hv⟩ := hselector k hk
      obtain rfl : ℓ = ℓ' := Option.some.inj (hcell.symm.trans hcell')
      have hlt : i < (u :: u' :: us).length := (List.getElem?_eq_some_iff.1 hi).1
      have htest := evaluates_test hlookup hv (j := j) hP (by omega)
        (by rw [List.length_cons] at hsize; omega)
      have hchain (n : Nat) : (exec P (engine P n) (extend B.scope names)
          (.chain [(.binary .eq (.ident selector) (natLit j), member)] :: rest) >>= K n) s =
          ((if decide (j + i = j) then execBlock P (engine P n) (extend B.scope names) member
            else pure .normal) >>= following P (extend B.scope names) rest K n) s := by
        rw [exec_cons, execStmt_chain, bind_assoc, Compute.bind_ok (htest _), Val.holds,
          P.truthy_boolean]
      cases i with
      | zero =>
        obtain rfl := Option.some.inj hi
        -- the block of the member has a scope of its own
        have hblock := room_block own (extend B.scope names) s hnodup hnew
        have hscope : blockScope (extend B.scope names) s member = extend B.scope (names ++
            (declared member).zip (List.range' s.length (declared member).length)) := by
          rw [blockScope, extend_append]
        have hnames := namesOf_blockScope (extend B.scope names) s member
        rw [hscope] at hblock hnames
        rw [← hnames] at hmember
        have hinner := hloop.after (.append s ((declared member).map fun _ => .empty))
        obtain ⟨x, s₁, own₁, harrives, hext, hown, hstarted⟩ := started_member
          (K := following P (extend B.scope names) rest K) hmember hblock hreturned
          (by rw [extend_append]; exact hinner.inner _ _ fun _ => rfl)
          (by rw [extend_append]; exact map_cellOf_extend hslots _)
          (hvs.extends (.append ..) fun _ _ => id)
        refine ⟨x, s₁, own₁, .trans (.of_eq fun n => ?_) harrives, ?_, hown, hstarted⟩
        · rw [hchain, if_pos (by simp), execBlock_apply, hscope]
        · exact Extends.comp (.append ..) hext
      | succ i =>
        obtain ⟨x, s₁, own₁, harrives, hrest⟩ := ih hrest hi
          (by rw [List.length_cons] at hsize; omega) hroom
          (by rw [show j + 1 + i = j + (i + 1) by omega]; exact hselector)
        refine ⟨x, s₁, own₁, .trans (.of_eq fun n => ?_) harrives, hrest⟩
        rw [hchain, if_neg (by simp), Compute.bind_ok (Compute.pure_apply ..), following]

/-- A round of a loop: the member `t` at position `i`, which runs next, is executed with the values
in the slots. -/
theorem started_rounds {frame : LoopFrame} {copies slots : List String} {selector : Option String}
    {block : List Stmt} {ccs ls : List Nat} {i : Nat} {t : Analyzed} {vs : List (Val S)}
    (hloop : LoopOf E refs ts B frame copies selector slots block)
    (hccs : copies.length = ccs.length) (hls : (selector.toList ++ slots).length = ls.length)
    (hnodup : ls.Nodup) (hcells : ∀ ℓ ∈ ls, ∃ v, s[ℓ]? = some (.assignable v))
    (ht : ts[i]? = some t)
    (hP : P.TellsApart E.size)
    (hvs : Holds s (ls.take (selector.toList.length + t.arity))
      (selector.toList.map (fun _ => selected P i) ++ vs)) :
    ∃ x s₁ own₁, Arrives 1
        (fun n => rounds P n (loopScope B copies ccs (selector.toList ++ slots) ls) block) s x s₁ ∧
      Extends (fun ℓ => ℓ ∈ ls ∨ s.length ≤ ℓ) s s₁ ∧
      (∀ ℓ, own₁ ℓ → ℓ ∈ ls ∨ s.length ≤ ℓ) ∧
      Started P E refs ts B own₁ (fun ℓ => ℓ ∈ ls ∨ s.length ≤ ℓ) s₁ false t.params
        t.inner vs x := by
  -- the scope around the block is only named, so that it is not unfolded in the goals below
  obtain ⟨around, haround⟩ :
      ∃ around, around = loopScope B copies ccs (selector.toList ++ slots) ls :=
    ⟨_, rfl⟩
  obtain ⟨names, hnames⟩ : ∃ names, blockScope around s block = extend B.scope names := by
    refine ⟨copies.zip ccs ++ (selector.toList ++ slots).zip ls ++
      (declared block).zip (List.range' s.length (declared block).length), ?_⟩
    rw [blockScope, haround, loopScope, extend_append, extend_append]
  have hnamesOf : namesOf (extend B.scope names) = enter (enter (enter (namesOf B.scope) copies)
      (selector.toList ++ slots)) (declared block) := by
    rw [← hnames, namesOf_blockScope, haround, loopScope, namesOf_extend _ hls,
      namesOf_extend _ hccs]
  -- the variables of the loop have the numbers behind the copies, and their cells are `ls`
  have hentered : (List.range' (B.scope.length + copies.length) ls.length).map
      (cellOf (extend B.scope names)) = ls.map some := by
    rw [← hnames, blockScope]
    refine map_cellOf_extend ?_ _
    have hcell := map_cellOf_entered (extend B.scope (copies.zip ccs)) hls
    rw [hls] at hcell
    rw [← hcell, haround, loopScope]
    simp [extend, hccs, Nat.add_comm]
  have hroom (hdeclared : (declared block).Nodup) := room_block
    (fun ℓ => ℓ ∈ ls ∨ s.length ≤ ℓ) around s hdeclared fun _ => .inr
  have hlooping : Looping P E refs ts B (fun ℓ => ℓ ∈ ls ∨ s.length ≤ ℓ) s
      around frame (nextRound P around block) := by
    have hρ : around = extend (loopScope B copies ccs (selector.toList ++ slots) ls) [] := haround
    refine .mk hloop hccs hls hnodup (fun ℓ hℓ => ⟨.inl hℓ, hcells ℓ hℓ⟩) hρ fun n => ?_
    rw [← haround]
    rfl
  -- inside of the block the loop can still be jumped to
  have hinside := (hlooping.after (.append s ((declared block).map fun _ => .empty))).inner
    ((declared block).zip (List.range' s.length (declared block).length))
    (nextRound P around block) fun _ => rfl
  have hstore : Extends nothing s (blockStore s block) := .append ..
  have hheld := hvs.extends hstore fun _ _ => id
  have hown (ℓ : Nat) (hℓ : (blockStore s block).length ≤ ℓ) : ℓ ∈ ls ∨ s.length ≤ ℓ :=
    .inr (Nat.le_trans hstore.length_le hℓ)
  rw [hnames] at hroom
  rw [← blockScope, hnames] at hinside
  -- the first round starts with the block of the loop
  have hround : Arrives 1
      (fun n => rounds P n (loopScope B copies ccs (selector.toList ++ slots) ls) block) s
      (fun n => exec P (engine P n) (extend B.scope names) block >>= nextRound P around block n)
      (blockStore s block) := by
    refine .of_succ (rounds_zero ..) fun n => ?_
    rw [← haround, rounds_succ, execBlock_apply, hnames]
  have hresult : ∃ x s₁ own₁, Arrives 0 (fun n =>
    exec P (engine P n) (extend B.scope names) block >>=
        nextRound P around block n) (blockStore s block) x s₁ ∧
      Extends (fun ℓ => ℓ ∈ ls ∨ s.length ≤ ℓ) (blockStore s block) s₁ ∧
      (∀ ℓ, own₁ ℓ → ℓ ∈ ls ∨ s.length ≤ ℓ) ∧
      Started P E refs ts B own₁ (fun ℓ => ℓ ∈ ls ∨ s.length ≤ ℓ) s₁ false t.params
        t.inner vs x := by
    -- a single member is the block itself; of several, the selector says which one is meant
    cases hloop with
    | @self r u k copies slots block hloops hrefs hts hpos hcopies hslots hdistinct hdeclared hks
        hmember =>
      subst hts
      obtain ⟨rfl, rfl⟩ : i = 0 ∧ t = u := by
        cases i with
        | zero => exact ⟨rfl, (Option.some.inj ht).symm⟩
        | succ i => cases ht
      rw [Option.toList_none, List.nil_append] at hnamesOf hls
      rw [← hnamesOf] at hmember
      refine started_member hmember (hroom hdeclared) (fun _ _ => rfl) hinside
        (by rw [List.length_map, hls]; exact hentered) ?_
      simpa [Term.length_params] using hheld
    | @shared ks selector slots block hloops hle harity hdistinct hdeclared hks hdispatch =>
      rw [Option.toList_some, List.singleton_append] at hnamesOf hls
      cases ls with
      | nil => cases hls
      | cons ℓ ls =>
        rw [show enter (namesOf B.scope) [] = namesOf B.scope from rfl] at hnamesOf
        rw [← hnamesOf] at hdispatch
        -- the first cell holds the selector, the others the slots
        rw [List.length_cons, List.range'_succ, List.length_nil, Nat.add_zero] at hentered
        obtain ⟨hcell, hentered⟩ := List.cons.inj hentered
        rw [Option.toList_some, List.length_singleton, Nat.add_comm 1, List.take_succ_cons] at hheld
        obtain ⟨hselected, hheld⟩ := List.forall₂_cons.1 hheld
        have hslots : slots.length = ls.length := by simpa using hls
        refine started_dispatch hdispatch ht hP (by omega) (hroom hdeclared) hown
          (fun _ _ => rfl) hinside
          (fun k hk => ?_) (by rw [List.length_map, hslots]; exact hentered) ?_
        · obtain rfl := Option.some.inj hk
          refine ⟨ℓ, by rw [List.length_map]; exact hcell, ?_⟩
          rw [Nat.zero_add]
          exact hselected
        · rw [Term.length_params]
          exact hheld
  obtain ⟨x, s₁, own₁, harrives, hext, hown₁, hstarted⟩ := hresult
  exact ⟨x, s₁, own₁, hround.trans harrives, Extends.comp (.append ..) hext, hown₁, hstarted⟩

/-! ## Calls -/

/-- The values of parameters. Missing arguments are `undefined`, and more are ignored. -/
def arguments (P : Primitives S) : List String → List (Val S) → List (Val S)
  | [], _ => []
  | _ :: ps, vs => vs.headD (.scalar P.undefined) :: arguments P ps vs.tail

theorem paramCells_eq (ps : List String) (vs : List (Val S)) :
    paramCells P ps vs = (arguments P ps vs).map .assignable := by
  induction ps generalizing vs with
  | nil => rfl
  | cons p ps ih => rw [paramCells, arguments, ih, List.map_cons]

theorem length_arguments (ps : List String) (vs : List (Val S)) :
    (arguments P ps vs).length = ps.length := by
  induction ps generalizing vs with
  | nil => rfl
  | cons p ps ih => rw [arguments, List.length_cons, ih, List.length_cons]

/-- Arguments that are there are the values of the first parameters. -/
theorem take_arguments {ps : List String} {vs : List (Val S)} (h : vs.length ≤ ps.length) :
    (arguments P ps vs).take vs.length = vs := by
  induction ps generalizing vs with
  | nil =>
    obtain rfl : vs = [] := List.eq_nil_of_length_eq_zero (Nat.le_zero.1 h)
    rfl
  | cons p ps ih =>
    cases vs with
    | nil => rfl
    | cons v vs =>
      rw [arguments, List.length_cons, List.take_succ_cons, List.tail_cons,
        ih (Nat.le_of_succ_le_succ h)]
      rfl

/-- New cells behind those of `s` hold the values `vs`. -/
theorem forall₂_assignable (s : Store S) (vs : List (Val S)) :
    List.Forall₂ (fun ℓ v => (s ++ vs.map .assignable)[ℓ]? = some (.assignable v))
      (List.range' s.length vs.length) vs := by
  induction vs generalizing s with
  | nil => exact .nil
  | cons v vs ih =>
    rw [List.length_cons, List.range'_succ]
    refine .cons (by simp) ?_
    have hrest := ih (s ++ [.assignable v])
    rw [List.length_append, List.append_assoc] at hrest
    exact hrest

/-- `paramCells` can be assigned and hold the `arguments`. -/
theorem holds_paramCells (s : Store S) (ps : List String) (vs : List (Val S)) :
    Holds (s ++ paramCells P ps vs) (List.range' s.length ps.length) (arguments P ps vs) := by
  have h := forall₂_assignable s (arguments P ps vs)
  rw [length_arguments] at h
  rw [paramCells_eq]
  exact h.imp fun _ _ hv => by rw [hv]; rfl

/-- A function is called with its arguments in new cells, and an engine smaller by one. -/
theorem call_apply (n : Nat) (params : List String) (body : List Stmt) (ρ : Scope)
    (vs : List (Val S)) (s : Store S) :
    (engine P (n + 1)).call (.function params body ρ) vs s =
      (execBlock P (engine P n) (extend ρ (params.zip (List.range' s.length
        params.length))) body >>=
        conclude P) (s ++ paramCells P params vs) := by
  change invoke P (engine P n) (.function params body ρ) vs s = _
  rw [invoke, Compute.bind_ok (enterWith_apply ..)]

/-- A block without declarations has the scope and the store around it. -/
theorem execBlock_of_declared {n : Nat} {ρ : Scope} {block : List Stmt} (h : declared block = [])
    (K : Completion S → Compute S α) :
    (execBlock P (engine P n) ρ block >>= K) s = (exec P (engine P n) ρ block >>= K) s := by
  rw [execBlock_apply, blockScope, blockStore, h]
  simp [extend]

/-- The function around the loop of a single member `t`: its slots start with the arguments. -/
theorem started_self {t : Analyzed} {frame : LoopFrame} {copies slots : List String}
    {block : List Stmt} {cells : List Nat} {vs : List (Val S)}
    (hloop : LoopOf E refs [t] B frame copies none slots block)
    (hcells : copies.length = cells.length) (hvs : Holds s cells vs) (hP : P.TellsApart E.size) :
    ∃ x s₁ own, Arrives 1 (fun n => execBlock P (engine P n) (extend B.scope (copies.zip cells))
        ((slots.zip copies).map (fun p => .declare p.1 (some (.ident p.2))) ++ [.loop block]) >>=
          conclude P) s x s₁ ∧ Extends nothing s s₁ ∧ (∀ ℓ, own ℓ → s.length ≤ ℓ) ∧
      Started P E refs [t] B own (s.length ≤ ·) s₁ false t.params t.inner vs x := by
  obtain ⟨hlen, hdistinct, harity⟩ : slots.length = copies.length ∧ (copies ++ slots).Nodup ∧
      t.arity = slots.length := by
    cases hloop with
    | self _ _ hts _ hcopies hslots hdistinct _ _ _ =>
      obtain rfl := (List.cons.inj hts).1
      exact ⟨hslots.trans hcopies.symm, hdistinct, (Term.length_params t).symm.trans hslots.symm⟩
  obtain ⟨body, hbody⟩ : ∃ body : List Stmt, body =
    (slots.zip copies).map (fun p => .declare p.1 (some (.ident p.2))) ++ [.loop block] := ⟨_, rfl⟩
  have hdeclared : declared body = slots := by
    rw [hbody, declared_append, declared_map (fun p => rfl), List.map_fst_zip (Nat.le_of_eq hlen)]
    exact List.append_nil slots
  obtain ⟨ls, hls⟩ : ∃ ls, ls = List.range' s.length slots.length := ⟨_, rfl⟩
  have hlength : slots.length = ls.length := by simp [hls]
  have hnodup : ls.Nodup := hls ▸ List.nodup_range' ..
  have hscope : blockScope (extend B.scope (copies.zip cells)) s body =
      loopScope B copies cells slots ls := by
    rw [blockScope, hdeclared, loopScope, hls]
  have hnew (ℓ : Nat) (hℓ : ℓ ∈ ls) : s.length ≤ ℓ := (List.mem_range'_1.1 (hls ▸ hℓ)).1
  have hempty (ℓ : Nat) (hℓ : ℓ ∈ ls) : (blockStore s body)[ℓ]? = some .empty :=
    blockStore_empty (by rw [hdeclared]; exact hls ▸ hℓ)
  have hstore : Extends nothing s (blockStore s body) := .append ..
  -- copies and slots are distinct names
  have hlookup : (copies ++ slots).map ((loopScope B copies cells slots ls).lookup ·) =
      (cells ++ ls).map some := by
    have hentered := map_lookup_entered B.scope hdistinct
      (show (copies ++ slots).length = (cells ++ ls).length by simp [hcells, hlength])
    rw [List.zip_append hcells, extend_append] at hentered
    exact hentered
  rw [List.map_append, List.map_append] at hlookup
  obtain ⟨hcopies, hslots⟩ := List.append_inj hlookup (by simp [hcells])
  -- the parameters keep their values while the slots are declared
  have hread (s₁ : Store S) (hs₁ : Extends (· ∈ ls) (blockStore s body) s₁) : List.Forall₂
      (Evaluates P (loopScope B copies cells slots ls) s₁) (copies.map .ident) vs := by
    refine evaluates_idents hcopies ((hvs.extends hstore fun _ _ => id).extends hs₁ ?_)
    exact fun ℓ hℓ hmem => Nat.not_lt.2 (hnew ℓ hmem) (hvs.get hℓ).1
  obtain ⟨s₁, hexec, hext, hfilled⟩ := exec_writes (fun x e => .declare x (some e)) Cell.start
    .assignable (fun _ _ _ _ => by rw [execStmt]) hslots hnodup hread (by simpa using hlen)
      (fun ℓ hℓ => ⟨.empty, hempty ℓ hℓ, fun _ => rfl⟩)
  have hheld : Holds s₁ (ls.take (0 + t.arity)) vs := by
    rw [Nat.zero_add, harity, hlength, List.take_length]
    exact hfilled.imp fun _ _ h => by rw [h]; rfl
  obtain ⟨x, s₂, own, harrives, hext₂, hown, hstarted⟩ := started_rounds (i := 0) hloop hcells
    hlength hnodup (fun ℓ => exists_of_forall₂ hfilled) rfl hP hheld
  have hall (ℓ : Nat) (hℓ : ℓ ∈ ls ∨ s₁.length ≤ ℓ) : s.length ≤ ℓ := by
    have := hext.length_le
    have := hstore.length_le
    exact hℓ.elim (hnew ℓ) fun h => by omega
  -- the declarations of the slots come before the loop, in one block
  refine ⟨x, s₂, own, .trans (.of_eq fun n => ?_) harrives, ?_, fun ℓ h => hall ℓ (hown ℓ h),
    hstarted.mono hall⟩
  · have hstmts : body = (slots.zip (copies.map .ident)).map (fun p => .declare p.1 (some p.2)) ++
        [.loop block] := by
      rw [hbody, List.zip_map_right, List.map_map]
      rfl
    rw [← hbody, execBlock_apply, hscope, ← exec_loop]
    refine Compute.bind_congr_left _ ?_
    rw [hstmts] at hexec ⊢
    exact hexec ..
  · have hmono : Extends (fun ℓ => nothing ℓ ∨ s.length ≤ ℓ) (blockStore s body) s₂ :=
      .comp (hext.mono fun ℓ _ h => .inr (hnew ℓ h)) (hext₂.mono fun ℓ _ h => .inr (hall ℓ h))
    exact hstore.trans hmono

/-- The function that enters a shared loop: the shared function is called with the position `i` of
the member and the arguments. -/
theorem started_shared {i : Nat} {t : Analyzed} {frame : LoopFrame} {selector label : String}
    {copies slots : List String} {block : List Stmt} {cells : List Nat} {k c : Nat}
    {vs : List (Val S)} (ht : ts[i]? = some t)
    (hloop : LoopOf E refs ts B frame [] (some selector) slots block)
    (hlen : copies.length = t.params.length) (hnodup : copies.Nodup)
    (hlabel : resolve label (enter (namesOf B.scope) copies) = some k)
    (hc : cellOf B.scope k = some c)
    (hfunction : s[c]? = some (.constant (.function (selector :: slots) [.loop block] B.scope)))
    (hcells : copies.length = cells.length) (hvs : Holds s cells vs) (hP : P.TellsApart E.size) :
    ∃ x s₁ own, Arrives 2 (fun n => execBlock P (engine P n) (extend B.scope (copies.zip cells))
        [.ret (.call (.ident label) (natLit i :: copies.map .ident))] >>= conclude P) s x s₁ ∧
      Extends nothing s s₁ ∧ (∀ ℓ, own ℓ → s.length ≤ ℓ) ∧
      Started P E refs ts B own (s.length ≤ ·) s₁ false t.params t.inner vs x := by
  -- the number of the member is the first argument, and so the value of the selector
  obtain ⟨args, hargs⟩ : ∃ args, args = selected P i :: vs := ⟨_, rfl⟩
  obtain ⟨ls, hls⟩ : ∃ ls, ls = List.range' s.length (selector :: slots).length := ⟨_, rfl⟩
  have harity : t.arity = vs.length := by
    rw [← Term.length_params, ← hlen, hcells, hvs.length_eq]
  have hroom : vs.length ≤ slots.length := by
    cases hloop with
    | shared _ _ harity' _ _ _ _ => exact harity ▸ (harity' t (List.mem_of_getElem? ht)).2
  -- the call of the shared function
  have hread : Evaluates P (extend B.scope (copies.zip cells)) s (.ident label)
      (.function (selector :: slots) [.loop block] B.scope) := by
    rw [← namesOf_extend _ hcells] at hlabel
    obtain ⟨ℓ, hℓ, hk⟩ := lookup_of_resolve hlabel
    obtain rfl : ℓ = c := Option.some.inj (hk.symm.trans (cellOf_extend hc _))
    exact evaluates_ident hℓ (by rw [hfunction]; rfl)
  have heval : List.Forall₂ (Evaluates P (extend B.scope (copies.zip cells)) s)
      (natLit i :: copies.map .ident) args := by
    rw [hargs]
    refine .cons (fun call => ?_) (evaluates_idents (map_lookup_entered _ hnodup hcells) hvs)
    rw [natLit, eval, Compute.pure_apply]
    rfl
  have hcall (n : Nat) : (execBlock P (engine P n) (extend B.scope (copies.zip cells))
      [.ret (.call (.ident label) (natLit i :: copies.map .ident))] >>= conclude P) s =
        (engine P n).call (.function (selector :: slots) [.loop block] B.scope) args s := by
    rw [execBlock_of_declared rfl, exec_ret n _ _ fun _ => conclude P, eval, bind_assoc,
      Compute.bind_ok (hread _), bind_assoc, Compute.bind_ok (evalAll_apply heval _)]
    exact congrFun (bind_pure _) s
  have harrives : Arrives 1 (fun n => execBlock P (engine P n) (extend B.scope (copies.zip cells))
      [.ret (.call (.ident label) (natLit i :: copies.map .ident))] >>= conclude P) s
      (fun n => rounds P n (loopScope B [] [] (selector :: slots) ls) block)
      (s ++ paramCells P (selector :: slots) args) := by
    refine .of_succ (hcall 0) fun n => ?_
    rw [hcall, call_apply, execBlock_of_declared rfl, exec_loop, loopScope, hls]
    rfl
  -- the variables of the loop hold the position and the arguments
  have hstore : Extends nothing s (s ++ paramCells P (selector :: slots) args) := .append ..
  have hassigned (ℓ : Nat) (hℓ : ℓ ∈ ls) :
      ∃ v, (s ++ paramCells P (selector :: slots) args)[ℓ]? = some (.assignable v) := by
    have hall := forall₂_assignable s (arguments P (selector :: slots) args)
    rw [length_arguments, ← hls] at hall
    rw [paramCells_eq]
    exact exists_of_forall₂ hall hℓ
  have hheld : Holds (s ++ paramCells P (selector :: slots) args) (ls.take (1 + t.arity)) args := by
    have hall := List.forall₂_take args.length
      (holds_paramCells (P := P) s (selector :: slots) args)
    rw [take_arguments (by simp [hargs, hroom]), ← hls] at hall
    rwa [show 1 + t.arity = args.length by rw [hargs, harity, List.length_cons, Nat.add_comm]]
  subst hargs
  obtain ⟨x, s₁, own, harrives₁, hext, hown, hstarted⟩ := started_rounds hloop
    (show ([] : List String).length = ([] : List Nat).length from rfl)
    (by simp [hls]) (hls ▸ List.nodup_range' ..) hassigned ht hP hheld
  have hall (ℓ : Nat) (hℓ : ℓ ∈ ls ∨ (s ++ paramCells P (selector :: slots)
    (selected P i :: vs)).length ≤ ℓ) :
      s.length ≤ ℓ :=
    hℓ.elim (fun h => (List.mem_range'_1.1 (hls ▸ h)).1) (Nat.le_trans hstore.length_le)
  exact ⟨x, s₁, own, harrives.trans harrives₁,
    hstore.trans (hext.mono fun ℓ _ h => .inr (hall ℓ h)), fun ℓ h => hall ℓ (hown ℓ h),
    hstarted.mono hall⟩

/-- Whatever leads to the body of the member `t` executes it with the arguments `vs`. -/
theorem started_enters {i : Nat} {t : Analyzed} {names : List String} {body : List Stmt}
    {cells : List Nat} {vs : List (Val S)} (h : Enters E known refs ts B i t names body)
    (hcells : names.length = cells.length) (hvs : Holds s cells vs)
    (hknown : ∀ {ℓ v}, known ℓ v → s[ℓ]? = some (.constant v)) (hP : P.TellsApart E.size) :
    ∃ k x s₁ own, Arrives k
        (fun n => execBlock P (engine P n) (extend B.scope (names.zip cells)) body >>=
          conclude P) s x
        s₁ ∧ Extends nothing s s₁ ∧ (∀ ℓ, own ℓ → s.length ≤ ℓ) ∧
      Started P E refs ts B own (fun c => c ∈ cells ∨ s.length ≤ c) s₁ false t.params t.inner vs
        x := by
  cases h with
  | plain hlen hnodup hbody =>
    obtain ⟨x, s₁, harrives, hext, hstarted⟩ :=
      started_body refs ts (by nofun) hbody hlen hcells hvs
    exact ⟨0, x, s₁, _, harrives, hext, fun _ => id, hstarted.mono fun _ => .inl⟩
  | self ht hloop =>
    obtain rfl : ts = [t] := by
      cases hloop with
      | self _ _ hts _ _ _ _ _ _ _ =>
        subst hts
        cases i with
        | zero => rw [Option.some.inj ht]
        | succ i => cases ht
    obtain ⟨x, s₁, own, harrives, hext, hown, hstarted⟩ := started_self hloop hcells hvs hP
    exact ⟨1, x, s₁, own, harrives, hext, hown, hstarted.mono fun _ => .inr⟩
  | shared ht hloop hlen hnodup hlabel hk hc hlabelled =>
    obtain ⟨x, s₁, own, harrives, hext, hown, hstarted⟩ :=
      started_shared ht hloop hlen hnodup hlabel hc (hknown hlabelled) hcells hvs hP
    exact ⟨2, x, s₁, own, harrives, hext, hown, hstarted.mono fun _ => .inr⟩

/-- The member `t` has been given `taken` before, and is given its last `args`. -/
theorem started_call {i : Nat} {t : Analyzed} {taken : Scope} {rest : List String}
    {body : List Stmt} {vs : List (Val S)} (args : List (Val S))
    (h : Enters E known refs ts B i t (taken.map Prod.fst ++ rest) body)
    (hvs : Holds s (taken.map Prod.snd) vs)
    (hknown : ∀ {ℓ v}, known ℓ v → s[ℓ]? = some (.constant v)) (hP : P.TellsApart E.size) :
    ∃ k x s₁ own, Arrives (k + 1)
        (fun n => (engine P n).call (.function rest body (extend B.scope taken)) args) s x s₁ ∧
      Extends nothing s s₁ ∧ (∀ ℓ, own ℓ → s.length ≤ ℓ) ∧
      Started P E refs ts B own (fun c => c ∈ taken.map Prod.snd ∨ s.length ≤ c) s₁ false t.params
        t.inner (vs ++ arguments P rest args) x := by
  obtain ⟨ls, hls⟩ : ∃ ls, ls = List.range' s.length rest.length := ⟨_, rfl⟩
  -- the arguments taken so far and the parameters that are left make one scope
  have hzip : taken = (taken.map Prod.fst).zip (taken.map Prod.snd) := List.zip_of_prod rfl rfl
  have hscope : extend (extend B.scope taken) (rest.zip ls) =
      extend B.scope ((taken.map Prod.fst ++ rest).zip (taken.map Prod.snd ++ ls)) := by
    rw [List.zip_append (by simp), ← hzip, extend_append]
  have hstore : Extends nothing s (s ++ paramCells P rest args) := .append ..
  have hall : Holds (s ++ paramCells P rest args) (taken.map Prod.snd ++ ls)
      (vs ++ arguments P rest args) :=
    List.rel_append (hvs.extends hstore fun _ _ => id) (hls ▸ holds_paramCells s rest args)
  obtain ⟨k, x, s₁, own, harrives, hext, hown, hstarted⟩ := started_enters h
    (by simp [hls]) hall (fun hv => by
      have hcell := hknown hv
      rw [hstore.old (List.getElem?_eq_some_iff.1 hcell).1 id, hcell]) hP
  -- the call itself takes one step, the rest is that of entering the body
  have hcall : Arrives 1 (fun n => (engine P n).call (.function rest body
    (extend B.scope taken)) args)
      s _ (s ++ paramCells P rest args) :=
    .of_succ rfl fun n => by rw [call_apply, ← hls, hscope]
  refine ⟨k, x, s₁, own, hcall.trans harrives, hstore.comp hext,
    fun ℓ hℓ => Nat.le_trans hstore.length_le (hown ℓ hℓ), hstarted.mono fun c hc => ?_⟩
  -- a cell of the arguments is an old one of `taken` or a new one of this call
  rcases hc with hc | hc
  · rcases List.mem_append.1 hc with hc | hc
    · exact .inl hc
    · exact .inr (List.mem_range'_1.1 (hls ▸ hc)).1
  · exact .inr (Nat.le_trans hstore.length_le hc)

end

end TailLoop.Emit
