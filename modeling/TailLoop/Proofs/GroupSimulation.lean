import TailLoop.Proofs.ValueSimulation

/-!
# Simulation of recursive groups

A group that is a loop in one of the scripts consists of functions in both, so its declarations only
build functions: the cells of the group are filled in both scripts at once, and from then on it is
known what they hold. Other groups are declared step by step.

* `group_functions`: what the declarations of a group of functions build.
* `sim_writes`: values that are written to cells that belong together.
* `sim_functions`, `sim_group`: the declarations of a group.
-/

namespace TailLoop.Emit

open Script Lower

variable {S : Type}

/-! ## Groups of functions -/

section

variable {P : Primitives S} {E : Setting} {refs : List Ref} {ts : List Analyzed} {σ : Naming}
  {ρ : Scope}

/-- The values `vs` are functions that lead to the bodies of `us`, the members of `refs` from
position `j` on. The cells of the group do not matter. -/
def FunctionsOf (E : Setting) (refs : List Ref) (ts : List Analyzed) (σ : Naming) (ρ : Scope)
    (cs : List Nat) (known : Nat → Val S → Prop) (j : Nat) (us : List Analyzed)
    (vs : List (Val S)) : Prop :=
  ∀ i t, us[i]? = some t → ∃ names body, vs[i]? = some (curriedFn ρ names body) ∧
    Enters E known refs ts ⟨σ, ρ, cs⟩ (j + i) t names body

theorem FunctionsOf.cons {cs : List Nat} {known : Nat → Val S → Prop} {j : Nat} {t : Analyzed}
    {us : List Analyzed} {vs : List (Val S)} {names : List String} {body : List Stmt}
    (h : Enters E known refs ts ⟨σ, ρ, cs⟩ j t names body)
    (hus : FunctionsOf E refs ts σ ρ cs known (j + 1) us vs) :
    FunctionsOf E refs ts σ ρ cs known j (t :: us) (curriedFn ρ names body :: vs) := by
  intro i u hu
  cases i with
  | zero =>
    obtain rfl := Option.some.inj hu
    exact ⟨names, body, rfl, h⟩
  | succ i =>
    obtain ⟨names, body, hv, henters⟩ := hus i u hu
    exact ⟨names, body, hv, by rwa [show j + (i + 1) = j + 1 + i by omega]⟩

/-- A term with an `arity` is a curried `abs`. -/
theorem exists_abs_of_arity {t : Analyzed} (h : 0 < t.arity) :
    ∃ a params body, t = .abs a .curried params body := by
  cases t with
  | abs a calling params body =>
    cases calling with
    | curried => exact ⟨a, params, body, rfl⟩
    | _ => cases h
  | _ => cases h

/-- `Values` has one expression for each term. -/
theorem length_values {Γ : List String} {us : List Analyzed} {es : List Script.Expr}
    (h : Values E Γ σ us es) : es.length = us.length := by
  induction us generalizing es with
  | nil =>
    cases h
    rfl
  | cons u us ih =>
    cases h with
    | cons _ h => exact congrArg (· + 1) (ih h)

/-- The expressions of functions that are no loops evaluate to `FunctionsOf` these terms. -/
theorem functionsOf_values {us : List Analyzed} {es : List Script.Expr}
    (h : Values E (namesOf ρ) σ us es) (harity : ∀ t ∈ us, 0 < t.arity) :
    ∃ vs : List (Val S), (∀ s, List.Forall₂ (Evaluates P ρ s) es vs) ∧
      ∀ refs ts cs known j, FunctionsOf E refs ts σ ρ cs known j us vs := by
  induction us generalizing es with
  | nil =>
    cases h
    exact ⟨[], fun _ => .nil, fun _ _ _ _ _ i t ht => by cases ht⟩
  | cons t us ih =>
    obtain ⟨a, params, body, rfl⟩ := exists_abs_of_arity (harity t (List.mem_cons_self ..))
    cases h with
    | cons hv h =>
      obtain ⟨vs, heval, hfns⟩ := ih h fun u hu => harity u (List.mem_cons_of_mem _ hu)
      cases hv with
      | @curried _ _ _ _ _ names block hlen hnodup hbody =>
        refine ⟨curriedFn ρ names block :: vs, fun s => .cons (fun call => ?_) (heval s), ?_⟩
        · rw [eval_curried, Compute.pure_apply]
        · exact fun refs ts cs known j => .cons (.plain hlen hnodup hbody) (hfns refs ts cs known _)
      | _ => contradiction

variable (refs) in
/-- The `Entries` of a shared loop evaluate to `FunctionsOf` its members. -/
theorem functionsOf_entries {label selector : String} {frame : LoopFrame} {slots : List String}
    {block : List Stmt} {k j : Nat} {idents : List String} {us : List Analyzed}
    {entries : List Stmt} (h : Entries (namesOf ρ) label k j idents us entries)
    (hus : ∀ i t, us[i]? = some t → ts[j + i]? = some t) :
    ∃ (es : List Script.Expr) (vs : List (Val S)),
      entries = (idents.zip es).map (fun p => .const p.1 p.2) ∧ es.length = idents.length ∧
      (∀ s, List.Forall₂ (Evaluates P ρ s) es vs) ∧ ∀ cs known c,
        LoopOf E refs ts ⟨σ, ρ, cs⟩ frame [] (some selector) slots block → k < (namesOf ρ).length →
        cellOf ρ k = some c → known c (.function (selector :: slots) [.loop block] ρ) →
        FunctionsOf E refs ts σ ρ cs known j us vs := by
  -- by induction on the members from position `j` on
  induction us generalizing j idents entries with
  | nil =>
    cases h
    exact ⟨[], [], rfl, rfl, fun _ => .nil, fun _ _ _ _ _ _ _ i t ht => by cases ht⟩
  | cons t us ih =>
    cases h with
    | @cons _ x idents copies _ _ rest hlen hnodup hlabel h =>
      obtain ⟨es, vs, hentries, hlength, heval, hfns⟩ := ih h fun i u hu => by
        have := hus (i + 1) u hu
        rwa [show j + 1 + i = j + (i + 1) by omega]
      refine ⟨entryFunction label j copies :: es, curriedFn ρ copies
        [.ret (.call (.ident label) (natLit j :: copies.map .ident))] :: vs, ?_, ?_,
        fun s => .cons (fun call => ?_) (heval s), fun cs known c hloop hk hc hknown => .cons ?_ ?_⟩
      · rw [List.zip_cons_cons, List.map_cons, hentries]
      · rw [List.length_cons, hlength, List.length_cons]
      · rw [entryFunction, eval_curried, Compute.pure_apply]
      · exact .shared (hus 0 t rfl) hloop hlen hnodup hlabel hk hc hknown
      · exact hfns cs known c hloop hk hc hknown

/-- The declarations of a `Group` of functions, loop or not, are constants whose values are
`FunctionsOf` its members. -/
theorem group_functions {flag : Bool} {idents : List String} {ks : List Nat} {decls : List Stmt}
    (h : Group E flag (namesOf ρ) σ idents ks refs ts decls)
    (hflag : flag = true → E.context.loops = true) (harity : ∀ t ∈ ts, 0 < t.arity)
    (hidents : idents.length = ts.length) {cs : List Nat} (hks : ks.map (cellOf ρ) = cs.map some) :
    ∃ (extra : List String) (es : List Script.Expr) (us vs : List (Val S)),
      decls = ((extra ++ idents).zip es).map (fun p => .const p.1 p.2) ∧
      es.length = (extra ++ idents).length ∧ us.length = extra.length ∧
      (∀ s, List.Forall₂ (Evaluates P ρ s) es (us ++ vs)) ∧
      ∀ (known : Nat → Val S → Prop) (xcs : List Nat), extra.map (ρ.lookup ·) = xcs.map some →
        (∀ p ∈ xcs.zip us, known p.1 p.2) → FunctionsOf E refs ts σ ρ cs known 0 ts vs := by
  cases h with
  | functions hall hvalues =>
    obtain ⟨vs, heval, hfns⟩ := functionsOf_values (P := P) hvalues harity
    exact ⟨[], _, [], vs, rfl, (length_values hvalues).trans hidents.symm, rfl, heval,
      fun known _ _ _ => hfns refs ts cs known 0⟩
  -- a group of which all members take arguments consists of functions
  | values hall =>
    have htrue : ts.all isFunction = true := by
      rw [List.all_eq_true]
      intro t ht
      obtain ⟨a, params, body, rfl⟩ := exists_abs_of_arity (harity t ht)
      rfl
    rw [hall] at htrue
    cases htrue
  | self hpos hcopies hslots hnodup hdeclared hmember =>
    refine ⟨[], [_], [], [curriedFn ρ _ _], rfl, rfl, rfl, fun s => .cons (fun call => ?_) .nil,
      fun known _ _ _ => .cons (.self rfl (.self (hflag rfl) rfl rfl hpos hcopies hslots hnodup
        hdeclared hks hmember)) fun i t ht => by cases ht⟩
    rw [eval_curried, Compute.pure_apply]
  | @shared _ _ _ _ _ _ label k selector slots block entries hlen hsize harity' hlabel hnodup
      hdeclared hdispatch hentries =>
    obtain ⟨es, vs, rfl, hlength, heval, hfns⟩ := functionsOf_entries (P := P) refs
      hentries fun i t ht => by rwa [Nat.zero_add]
    refine ⟨[label], .arrow (selector :: slots) [.loop block] :: es,
      [.function (selector :: slots) [.loop block] ρ], vs, rfl, congrArg (· + 1) hlength, rfl,
      fun s => .cons (fun call => ?_) (heval s), fun known xcs hxcs hknown => ?_⟩
    · rw [eval_arrow, Compute.pure_apply]
    · obtain ⟨c, hc, hcell⟩ := lookup_of_resolve hlabel
      obtain rfl : xcs = [c] := eq_of_map_some (by rw [← hxcs]; simp [hc])
      exact hfns cs known c (.shared (hflag rfl) hsize harity' hnodup hdeclared hks hdispatch)
        (lt_of_cellOf hcell) hcell (hknown _ (List.mem_cons_self ..))

end

/-! ## Cells that are written together -/

section

variable {P : Primitives S} {V : Versions} {W W₁ : World S} {n : Nat} {σ σ' : Naming}
  {ρ ρ' : Scope} {s s' s₁ s₁' : Store S} {own own' : Nat → Prop} {α β : Type}

/-- If `cs` and `cs'` are paired, each cell of one list has its partner in the other. -/
theorem exists_zip_of_paired {cs cs' : List Nat} (h : List.Forall₂ W.paired cs cs') {ℓ : Nat} :
    (ℓ ∈ cs → ∃ ℓ', (ℓ, ℓ') ∈ cs.zip cs' ∧ W.paired ℓ ℓ') ∧
      (ℓ ∈ cs' → ∃ m, (m, ℓ) ∈ cs.zip cs' ∧ W.paired m ℓ) := by
  induction h with
  | nil => simp
  | @cons c c' cs cs' hp _ ih =>
    rw [List.zip_cons_cons]
    refine ⟨fun hℓ => ?_, fun hℓ => ?_⟩
    · rcases List.mem_cons.1 hℓ with rfl | hℓ
      · exact ⟨c', List.mem_cons_self .., hp⟩
      · obtain ⟨ℓ', hmem, hp'⟩ := ih.1 hℓ
        exact ⟨ℓ', List.mem_cons_of_mem _ hmem, hp'⟩
    · rcases List.mem_cons.1 hℓ with rfl | hℓ
      · exact ⟨c, List.mem_cons_self .., hp⟩
      · obtain ⟨m, hmem, hp'⟩ := ih.2 hℓ
        exact ⟨m, List.mem_cons_of_mem _ hmem, hp'⟩

/-- Paired cells `cs` and `cs'` that hold nothing yet are written all at once, and then `know ls rs`
holds of the constants among them. -/
theorem Stores.declare {cs cs' : List Nat} {ls rs : List (Nat × Val S)} (h : Stores V W s s')
    (hpaired : List.Forall₂ W.paired cs cs')
    (hold : ∀ ℓ, W.usesLeft ℓ → ℓ ∉ cs → s₁[ℓ]? = s[ℓ]?)
    (hold' : ∀ ℓ, W.usesRight ℓ → ℓ ∉ cs' → s₁'[ℓ]? = s'[ℓ]?)
    (hconst : ∀ ℓ ∈ cs, ∀ v, s[ℓ]? ≠ some (.constant v))
    (hconst' : ∀ ℓ ∈ cs', ∀ v, s'[ℓ]? ≠ some (.constant v))
    (hcells : ∀ p ∈ cs.zip cs', ∃ c c', s₁[p.1]? = some c ∧ s₁'[p.2]? = some c' ∧
      SameCell V (W.know ls rs) c c')
    (hls : ∀ p ∈ ls, s₁[p.1]? = some (.constant p.2))
    (hrs : ∀ p ∈ rs, s₁'[p.1]? = some (.constant p.2)) : Stores V (W.know ls rs) s₁ s₁' where
  cells {ℓ ℓ'} hj := by
    replace hj : W.joins ℓ ℓ' := hj
    -- a paired cell is written in both stores or in neither
    by_cases hℓ : ℓ ∈ cs
    · obtain ⟨m, hmem, hp⟩ := (exists_zip_of_paired hpaired).1 hℓ
      obtain rfl := h.paired_left hp hj
      exact hcells _ hmem
    · have hℓ' : ℓ' ∉ cs' := fun hmem => by
        obtain ⟨m, hmem, hp⟩ := (exists_zip_of_paired hpaired).2 hmem
        obtain rfl := h.paired_right hp hj
        exact hℓ (List.of_mem_zip hmem).1
      rw [hold ℓ (.inl ⟨ℓ', hj⟩) hℓ, hold' ℓ' (.inl ⟨ℓ, hj⟩) hℓ']
      obtain ⟨c, c', hc, hc', hsame⟩ := h.cells hj
      exact ⟨c, c', hc, hc', hsame.mono (W.le_know ls rs)⟩
  paired_left := h.paired_left
  paired_right := h.paired_right
  filled {ℓ ℓ'} hj := by
    rw [hold ℓ (.inl ⟨ℓ', .inl hj⟩)]
    · exact h.filled hj
    · intro hmem
      obtain ⟨m, -, hp⟩ := (exists_zip_of_paired hpaired).1 hmem
      exact h.settled_left hj hp
  settled_left := h.settled_left
  settled_right := h.settled_right
  left {ℓ v} hv := by
    rcases hv with hv | hv
    · rw [hold ℓ (.inr ⟨v, hv⟩) fun hmem => hconst ℓ hmem v (h.left hv)]
      exact h.left hv
    · exact hls _ hv
  right {ℓ v} hv := by
    rcases hv with hv | hv
    · rw [hold' ℓ (.inr ⟨v, hv⟩) fun hmem => hconst' ℓ hmem v (h.right hv)]
      exact h.right hv
    · exact hrs _ hv

/-- The statement `mk x e`, which writes the cell of `x`, evaluates `e` first. -/
theorem exec_write {mk : String → Script.Expr → Stmt} {change : Val S → Cell S → Option (Cell S)}
    (hmk : ∀ (G : Engine S) (ρ : Scope) x e, execStmt P G ρ (mk x e) = do
      let v ← eval P G.call ρ e
      Compute.write ρ x (change v)
      return .normal)
    (n : Nat) (ρ : Scope) (x : String) (e : Script.Expr) (rest : List Stmt)
    (K : Nat → Completion S → Compute S α) :
    exec P (engine P n) ρ (mk x e :: rest) >>= K n =
      eval P (engine P n).call ρ e >>= fun v =>
        Compute.write ρ x (change v) >>= fun _ => exec P (engine P n) ρ rest >>= K n := by
  rw [exec_cons, hmk]
  simp only [bind_assoc, pure_bind]
  rfl

/-- Two computations that write the cells `ℓ` and `ℓ'` first simulate each other if what follows
does. -/
theorem SimAt.write {x x' : String} {change change' : Cell S → Option (Cell S)} {ℓ ℓ' : Nat}
    {c d c' d' : Cell S} {f : Unit → Compute S α} {g : Nat → Unit → Compute S β}
    {Q : World S → Store S → Store S → α → β → Prop} (hx : ρ.lookup x = some ℓ)
    (hc : s[ℓ]? = some c) (hd : change c = some d) (hx' : ρ'.lookup x' = some ℓ')
    (hc' : s'[ℓ']? = some c') (hd' : change' c' = some d') (hown : own ℓ) (hown' : own' ℓ')
    (hgrows : Grows own own' s s' W W₁)
    (h : SimAt V (fun ℓ => own ℓ ∨ s.length ≤ ℓ) (fun ℓ => own' ℓ ∨ s'.length ≤ ℓ) W₁ (s.set ℓ d)
      (s'.set ℓ' d') (f ()) (fun n => g n ()) Q) :
    SimAt V own own' W s s' (Compute.write ρ x change >>= f)
      (fun n => Compute.write ρ' x' change' >>= g n) Q :=
  .step (.set s d hown) (.set s' d' hown') hgrows h (Compute.bind_ok (write_apply hx hc hd))
    fun _ ⟨N, hN⟩ => ⟨N, fun n hn => (Compute.bind_ok (write_apply hx' hc' hd')).trans (hN n hn)⟩

/-- Statements `mk x e` write the values of terms to paired cells, one after the other, in both
scripts. -/
theorem sim_writes (mk : String → Script.Expr → Stmt) (change : Val S → Cell S → Option (Cell S))
    (filled : Val S → Cell S)
    (hmk : ∀ (G : Engine S) (ρ : Scope) x e, execStmt P G ρ (mk x e) = do
      let v ← eval P G.call ρ e
      Compute.write ρ x (change v)
      return .normal)
    (hfilled : ∀ v, (filled v).value? = some v) {us : List Analyzed} {es es' : List Script.Expr}
    {xs xs' : List String} {cs cs' : List Nat} {rest rest' : List Stmt}
    {K : Nat → Completion S → Compute S α} {K' : Nat → Completion S → Compute S β}
    {Q : World S → Store S → Store S → α → β → Prop}
    (hus : ∀ u ∈ us, ValueSim P V n u ∧ Owns V u) (hes : Values V.left (namesOf ρ) σ us es)
    (hes' : Values V.right (namesOf ρ') σ' us es') (hlen : cs.length = us.length)
    (hxs : xs.map (ρ.lookup ·) = cs.map some) (hxs' : xs'.map (ρ'.lookup ·) = cs'.map some)
    (hnodup : cs.Nodup) (hnodup' : cs'.Nodup)
    (hcells : ∀ ℓ ∈ cs, own ℓ ∧ ∃ c, s[ℓ]? = some c ∧ (∀ v, c ≠ .constant v) ∧
      ∀ v, change v c = some (filled v))
    (hcells' : ∀ ℓ ∈ cs', own' ℓ ∧ ∃ c, s'[ℓ]? = some c ∧ (∀ v, c ≠ .constant v) ∧
      ∀ v, change v c = some (filled v))
    (hpaired : List.Forall₂ W.paired cs cs') (hagree : Agree V W σ ρ σ' ρ')
    (hstores : Stores V W s s')
    (hrest : ∀ W₁ s₁ s₁', Grows nothing nothing s s' W W₁ → Extends (· ∈ cs) s s₁ →
      Extends (· ∈ cs') s' s₁' → Stores V W₁ s₁ s₁' →
      SimAt V (fun ℓ => own ℓ ∨ s.length ≤ ℓ) (fun ℓ => own' ℓ ∨ s'.length ≤ ℓ) W₁ s₁ s₁'
        (exec P (engine P n) ρ rest >>= K n) (fun m => exec P (engine P m) ρ' rest' >>= K' m) Q) :
    SimAt V own own' W s s'
      (exec P (engine P n) ρ ((xs.zip es).map (fun p => mk p.1 p.2) ++ rest) >>= K n)
      (fun m => exec P (engine P m) ρ' ((xs'.zip es').map (fun p => mk p.1 p.2) ++ rest') >>= K' m)
      Q := by
  -- after a value is written, the cells of the later ones still are as they were
  induction us generalizing W s s' own own' es es' xs xs' cs cs' with
  | nil =>
    cases hes
    cases hes'
    simp only [List.zip_nil_right, List.map_nil, List.nil_append]
    exact .step (.refl s) (.refl s') (.refl W)
      (hrest W s s' (.refl W) (.refl s) (.refl s') hstores) rfl fun _ => id
  | cons u us ih =>
    cases hes with
    | @cons _ _ _ e _ es he hes =>
    cases hes' with
    | @cons _ _ _ e' _ es' he' hes' =>
    match cs, cs', hpaired, hlen with
    | ℓ :: cs, ℓ' :: cs', .cons hp hpaired, hlen =>
    match xs, xs', hxs, hxs' with
    | x :: xs, x' :: xs', hxs, hxs' =>
      obtain ⟨hsim, howns⟩ := hus u (List.mem_cons_self ..)
      obtain ⟨hx, hxs⟩ := List.cons.inj hxs
      obtain ⟨hx', hxs'⟩ := List.cons.inj hxs'
      obtain ⟨hℓ, hnodup⟩ := List.nodup_cons.1 hnodup
      obtain ⟨hℓ', hnodup'⟩ := List.nodup_cons.1 hnodup'
      obtain ⟨hown, c, hc, hconst, hchange⟩ := hcells ℓ (List.mem_cons_self ..)
      obtain ⟨hown', c', hc', hconst', hchange'⟩ := hcells' ℓ' (List.mem_cons_self ..)
      simp only [List.zip_cons_cons, List.map_cons, List.cons_append, exec_write hmk]
      refine (hsim hagree howns he he').bindAt hstores
        fun W₁ s₁ s₁' v v' hgrows hs hs' hstores₁ hsame => ?_
      -- evaluating the value does not change the cells that are written
      have hold {m : Nat} {d : Cell S} (hd : s[m]? = some d) : s₁[m]? = some d := by
        rw [hs.old (List.getElem?_eq_some_iff.1 hd).1 id, hd]
      have hold' {m : Nat} {d : Cell S} (hd : s'[m]? = some d) : s₁'[m]? = some d := by
        rw [hs'.old (List.getElem?_eq_some_iff.1 hd).1 id, hd]
      have hset : Extends (· ∈ ℓ :: cs) s (s₁.set ℓ (filled v)) :=
        (hs.mono fun _ _ => False.elim).comp (.set s₁ _ (List.mem_cons_self ..))
      have hset' : Extends (· ∈ ℓ' :: cs') s' (s₁'.set ℓ' (filled v')) :=
        (hs'.mono fun _ _ => False.elim).comp (.set s₁' _ (List.mem_cons_self ..))
      refine .write hx (hold hc) (hchange v) hx' (hold' hc') (hchange' v') (.inl hown)
        (.inl hown') (.refl W₁) ?_
      refine ih (fun u hu => hus u (List.mem_cons_of_mem _ hu)) hes hes'
        (Nat.succ.inj hlen) hxs hxs'
        hnodup hnodup' (fun m hm => ?_) (fun m hm => ?_) (hpaired.imp fun _ _ => hgrows.le.paired)
        (hagree.mono hgrows.le) (hstores₁.write (hgrows.le.paired hp) ?_ ?_
          (.value (hfilled v) (hfilled v') hsame)) fun W₂ s₂ s₂' hgrows₂ hs₂ hs₂' hstores₂ => ?_
      · obtain ⟨hown, c, hc, hrest⟩ := hcells m (List.mem_cons_of_mem _ hm)
        refine ⟨.inl (.inl hown), c, ?_, hrest⟩
        rw [List.getElem?_set_ne (by rintro rfl; exact hℓ hm), hold hc]
      · obtain ⟨hown, c, hc, hrest⟩ := hcells' m (List.mem_cons_of_mem _ hm)
        refine ⟨.inl (.inl hown), c, ?_, hrest⟩
        rw [List.getElem?_set_ne (by rintro rfl; exact hℓ' hm), hold' hc]
      · rw [hold hc]
        exact fun w h => hconst w (Option.some.inj h)
      · rw [hold' hc']
        exact fun w h => hconst' w (Option.some.inj h)
      · have hlater : Grows nothing nothing s₁ s₁' W₁ W₂ :=
          ⟨hgrows₂.le, fun hlt => hgrows₂.left (by simpa using hlt),
            fun hlt => hgrows₂.right (by simpa using hlt)⟩
        refine (hrest W₂ s₂ s₂' (hgrows.comp hs.length_le hs'.length_le hlater)
          (hset.comp (hs₂.mono fun m _ => List.mem_cons_of_mem _))
          (hset'.comp (hs₂'.mono fun m _ => List.mem_cons_of_mem _)) hstores₂).mono
          (fun m _ h => .inl (.inl h)) (fun m _ h => .inl (.inl h)) fun _ _ _ _ _ _ => id

/-! ## Declarations of groups -/

/-- The declarations `decls` have cells `cs` of their own that have not been written. The cells
`ics` of the members `idents` may be spoken of. -/
structure Placed (own uses : Nat → Prop) (s : Store S) (ρ : Scope) (idents : List String)
    (ks : List Nat) (decls : List Stmt) (cs ics : List Nat) : Prop where
  /-- The declarations have cells. -/
  declared : (declared decls).map (ρ.lookup ·) = cs.map some
  /-- The cells are distinct. -/
  nodup : cs.Nodup
  /-- They have not been written. -/
  empty : ∀ ℓ ∈ cs, own ℓ ∧ s[ℓ]? = some .empty
  /-- The members have cells. -/
  members : idents.map (ρ.lookup ·) = ics.map some
  /-- These are the cells of their declarations. -/
  numbers : ks.map (cellOf ρ) = ics.map some
  /-- Other cells are new. -/
  free : ∀ ℓ ∈ cs, ℓ ∈ ics ∨ ¬uses ℓ

/-- A function that `Enters` the body of `t` takes as many names as `t` has parameters. -/
theorem Enters.length_eq {E : Setting} {known : Nat → Val S → Prop} {refs : List Ref}
    {ts : List Analyzed} {B : Band} {i : Nat} {t : Analyzed} {names : List String}
    {body : List Stmt} (h : Enters E known refs ts B i t names body) :
    names.length = t.params.length := by
  cases h with
  | plain hlen => exact hlen
  | self ht hloop =>
    cases hloop with
    | self _ _ hts _ hcopies =>
      subst hts
      cases i with
      | zero =>
        obtain rfl := Option.some.inj ht
        exact hcopies
      | succ i => cases ht
  | shared _ _ hlen => exact hlen

/-- The constants of `xs.zip es` declare `xs`. -/
theorem declared_consts {xs : List String} {es : List Script.Expr} (h : xs.length ≤ es.length) :
    declared ((xs.zip es).map fun p => .const p.1 p.2) = xs := by
  rw [declared_map fun _ => rfl, List.map_fst_zip h]

/-- The variables `xs` without a value declare `xs`. -/
theorem declared_declares (xs : List String) : declared (xs.map fun x => .declare x none) = xs := by
  rw [declared_map fun _ => rfl, List.map_id']

/-- Assignments declare nothing. -/
theorem declared_assigns (ps : List (String × Script.Expr)) :
    declared (ps.map fun p => .assign p.1 p.2) = [] := by
  induction ps with
  | nil => rfl
  | cons p ps ih => exact ih

/-- In one script, the declarations of a `Group` of functions fill its cells with `FunctionsOf` its
members. -/
theorem exec_functions {E : Setting} {refs : List Ref} {ts : List Analyzed} {flag : Bool}
    {idents : List String} {ks cs ics : List Nat} {decls : List Stmt} (rest : List Stmt)
    {uses : Nat → Prop} (h : Group E flag (namesOf ρ) σ idents ks refs ts decls)
    (hflag : flag = true → E.context.loops = true) (harity : ∀ t ∈ ts, 0 < t.arity)
    (hplaced : Placed own uses s ρ idents ks decls cs ics) (hlen : ics.length = ts.length)
    (K : Nat → Completion S → Compute S α) :
    ∃ (s₁ : Store S) (vs : List (Val S)),
      (∀ n, (exec P (engine P n) ρ (decls ++ rest) >>= K n) s =
        (exec P (engine P n) ρ rest >>= K n) s₁) ∧
      Extends (· ∈ cs) s s₁ ∧ (∀ p ∈ cs.zip vs, s₁[p.1]? = some (.constant p.2)) ∧
      (∀ c ∈ ics, c ∈ cs) ∧ ics.Nodup ∧ ∀ known : Nat → Val S → Prop,
        (∀ p ∈ cs.zip vs, known p.1 p.2) → ∀ i t c, ts[i]? = some t → ics[i]? = some c →
          ∃ names body, (c, curriedFn ρ names body) ∈ cs.zip vs ∧
            Enters E known refs ts ⟨σ, ρ, ics⟩ i t names body := by
  have hidents : idents.length = ts.length := by
    rw [← hlen]
    simpa using congrArg List.length hplaced.members
  obtain ⟨extra, es, us, vs, rfl, hes, hus, heval, hfns⟩ :=
    group_functions (P := P) h hflag harity hidents hplaced.numbers
  have hdeclared := hplaced.declared
  rw [declared_consts (Nat.le_of_eq hes.symm)] at hdeclared
  obtain ⟨s₁, hexec, hext, hfilled⟩ := exec_writes .const Cell.fix .constant
    (fun _ _ _ _ => by rw [execStmt]) hdeclared hplaced.nodup (fun s₁ _ => heval s₁) hes.symm
    (fun ℓ hℓ => ⟨.empty, (hplaced.empty ℓ hℓ).2, fun _ => rfl⟩)
  -- the cells of the members come last
  rw [List.map_append] at hdeclared
  obtain ⟨xcs, ics', rfl, hxcs, hics⟩ := List.append_eq_map_iff.1 hdeclared
  obtain rfl : ics = ics' := eq_of_map_some (hplaced.members.symm.trans hics.symm)
  have hlength : xcs.length = us.length := by
    rw [hus]
    simpa using congrArg List.length hxcs
  have hzip : (xcs ++ ics).zip (us ++ vs) = xcs.zip us ++ ics.zip vs := List.zip_append hlength
  refine ⟨s₁, us ++ vs, fun n => Compute.bind_congr_left _ (hexec ..), hext,
    fun p hp => (List.forall₂_iff_zip.1 hfilled).2 hp, fun c hc => List.mem_append_right _ hc,
    (List.nodup_append.1 hplaced.nodup).2.1, fun known hknown i t c ht hc => ?_⟩
  rw [hzip] at hknown ⊢
  obtain ⟨names, body, hv, henters⟩ := hfns known xcs hxcs.symm
    (fun p hp => hknown p (List.mem_append_left _ hp)) i t ht
  rw [Nat.zero_add] at henters
  refine ⟨names, body, List.mem_append_right _ ?_, henters⟩
  exact List.mem_of_getElem? (i := i) (by simp [List.getElem?_zip_eq_some, hc, hv])

/-- After `know ls rs`, the members of a group of functions are `Fellows`. -/
theorem fellows_know {refs : List Ref} {ts : List Analyzed} {ics ics' : List Nat}
    {ls rs : List (Nat × Val S)} (hagree : Agree V W σ ρ σ' ρ') (hrefs : refs.length = ts.length)
    (howns : ∀ t ∈ ts, Owns V t.inner) (hics : ics.length = ts.length) (hnodup : ics'.Nodup)
    (hpaired : List.Forall₂ W.paired ics ics')
    (hleft : ∀ i t c, ts[i]? = some t → ics[i]? = some c → ∃ names body,
      (c, curriedFn ρ names body) ∈ ls ∧
        Enters V.left (W.know ls rs).left refs ts ⟨σ, ρ, ics⟩ i t names body)
    (hright : ∀ i t c, ts[i]? = some t → ics'[i]? = some c → ∃ names body,
      (c, curriedFn ρ' names body) ∈ rs ∧
        Enters V.right (W.know ls rs).right refs ts ⟨σ', ρ', ics'⟩ i t names body) :
    Fellows V (W.know ls rs) refs ts ⟨σ, ρ, ics⟩ ⟨σ', ρ', ics'⟩ where
  agree := hagree.mono (W.le_know ls rs)
  length_refs := hrefs
  length_left := hics
  length_right := hpaired.length_eq.symm.trans hics
  nodup := hnodup
  owns := howns
  paired hc hc' := by
    obtain ⟨hlt, rfl⟩ := List.getElem?_eq_some_iff.1 hc
    obtain ⟨hlt', rfl⟩ := List.getElem?_eq_some_iff.1 hc'
    exact hpaired.get hlt hlt'
  left ht hc := by
    obtain ⟨names, body, hmem, henters⟩ := hleft _ _ _ ht hc
    exact ⟨names, body, .inr hmem, henters⟩
  right ht hc := by
    obtain ⟨names, body, hmem, henters⟩ := hright _ _ _ ht hc
    exact ⟨names, body, .inr hmem, henters⟩

/-- `know ls rs` says more only of the cells `cs` and `cs'`, which have just been written. -/
theorem Grows.know {cs cs' : List Nat} {ls rs : List (Nat × Val S)} (hls : ∀ p ∈ ls, p.1 ∈ cs)
    (hrs : ∀ p ∈ rs, p.1 ∈ cs') : Grows (· ∈ cs) (· ∈ cs') s s' W (W.know ls rs) where
  le := W.le_know ls rs
  left _ hnot hu := by
    rcases hu with hu | ⟨v, hv | hv⟩
    · exact .inl hu
    · exact .inr ⟨v, hv⟩
    · exact (hnot (hls _ hv)).elim
  right _ hnot hu := by
    rcases hu with hu | ⟨v, hv | hv⟩
    · exact .inl hu
    · exact .inr ⟨v, hv⟩
    · exact (hnot (hrs _ hv)).elim

/-- In both scripts the declarations of a `Group` of functions, loop or not, fill the cells of the
group with functions that stand for the members. -/
theorem sim_functions {refs : List Ref} {ts : List Analyzed} {flag flag' : Bool}
    {idents idents' : List String} {ks ks' cs cs' ics ics' : List Nat}
    {decls decls' rest rest' : List Stmt} {K : Nat → Completion S → Compute S α}
    {K' : Nat → Completion S → Compute S β} {Q : World S → Store S → Store S → α → β → Prop}
    (h : Group V.left flag (namesOf ρ) σ idents ks refs ts decls)
    (h' : Group V.right flag' (namesOf ρ') σ' idents' ks' refs ts decls')
    (hflag : flag = true → V.left.context.loops = true)
    (hflag' : flag' = true → V.right.context.loops = true) (harity : ∀ t ∈ ts, 0 < t.arity)
    (howns : ∀ t ∈ ts, Owns V t.inner) (hrefs : refs.length = ts.length)
    (hlen : ics.length = ts.length)
    (hplaced : Placed own W.usesLeft s ρ idents ks decls cs ics)
    (hplaced' : Placed own' W.usesRight s' ρ' idents' ks' decls' cs' ics')
    (hpaired : List.Forall₂ W.paired ics ics') (hagree : Agree V W σ ρ σ' ρ')
    (hstores : Stores V W s s')
    (hrest : ∀ W₁ s₁ s₁', Grows (· ∈ cs) (· ∈ cs') s s' W W₁ → Extends (· ∈ cs) s s₁ →
      Extends (· ∈ cs') s' s₁' → Stores V W₁ s₁ s₁' →
      SimAt V (fun ℓ => own ℓ ∨ s.length ≤ ℓ) (fun ℓ => own' ℓ ∨ s'.length ≤ ℓ) W₁ s₁ s₁'
        (exec P (engine P n) ρ rest >>= K n) (fun m => exec P (engine P m) ρ' rest' >>= K' m) Q) :
    SimAt V own own' W s s' (exec P (engine P n) ρ (decls ++ rest) >>= K n)
      (fun m => exec P (engine P m) ρ' (decls' ++ rest') >>= K' m) Q := by
  have hlen' : ics'.length = ts.length := hpaired.length_eq.symm.trans hlen
  obtain ⟨s₁, vs, hexec, hext, hfilled, hmem, -, henters⟩ :=
    exec_functions rest h hflag harity hplaced hlen K
  obtain ⟨s₁', vs', hexec', hext', hfilled', hmem', hnodup', henters'⟩ :=
    exec_functions rest' h' hflag' harity hplaced' hlen' K'
  obtain ⟨ls, hls⟩ : ∃ ls, ls = cs.zip vs := ⟨_, rfl⟩
  obtain ⟨rs, hrs⟩ : ∃ rs, rs = cs'.zip vs' := ⟨_, rfl⟩
  rw [← hls] at hfilled henters
  rw [← hrs] at hfilled' henters'
  -- what is known of a cell is what has just been written to it
  replace henters := henters (W.know ls rs).left fun p hp => .inr hp
  replace henters' := henters' (W.know ls rs).right fun p hp => .inr hp
  have hfellows := fellows_know hagree hrefs howns hlen hnodup' hpaired henters henters'
  have hstores₁ : Stores V (W.know ls rs) s₁ s₁' := by
    refine hstores.declare hpaired (fun ℓ hu hℓ => ?_) (fun ℓ hu hℓ => ?_) (fun ℓ hℓ v hv => ?_)
      (fun ℓ hℓ v hv => ?_) (fun p hp => ?_) hfilled hfilled'
    · exact hext.old (hstores.lt_left hu) fun hc => (hplaced.free ℓ hc).elim hℓ fun hn => hn hu
    · exact hext'.old (hstores.lt_right hu) fun hc => (hplaced'.free ℓ hc).elim hℓ fun hn => hn hu
    · rw [(hplaced.empty ℓ (hmem ℓ hℓ)).2] at hv
      cases hv
    · rw [(hplaced'.empty ℓ (hmem' ℓ hℓ)).2] at hv
      cases hv
    -- the cells of a member hold functions that stand for it, as everything the functions refer to
    -- is known by now
    · obtain ⟨i, hi⟩ := List.mem_iff_getElem?.1 hp
      obtain ⟨hc, hc'⟩ := List.getElem?_zip_eq_some.1 hi
      obtain ⟨t, ht⟩ : ∃ t, ts[i]? = some t :=
        ⟨_, List.getElem?_eq_getElem (hlen ▸ (List.getElem?_eq_some_iff.1 hc).1)⟩
      obtain ⟨names, body, hmem, hleft⟩ := henters i t _ ht hc
      obtain ⟨names', body', hmem', hright⟩ := henters' i t _ ht hc'
      refine ⟨_, _, hfilled _ hmem, hfilled' _ hmem', .value rfl rfl (.function ?_)⟩
      exact @SameFn.curried _ _ _ refs ts ⟨σ, ρ, ics⟩ ⟨σ', ρ', ics'⟩ i t [] [] names
        names' body body'
        hfellows hleft hright (howns t (List.mem_of_getElem? ht)) .nil
        (hleft.length_eq.trans hright.length_eq.symm)
  have hgrows : Grows (· ∈ cs) (· ∈ cs') s s' W (W.know ls rs) :=
    .know (fun p hp => (List.of_mem_zip (hls ▸ hp)).1) fun p hp => (List.of_mem_zip (hrs ▸ hp)).1
  have hown (ℓ : Nat) (_ : ℓ < s.length) (hℓ : ℓ ∈ cs) : own ℓ := (hplaced.empty ℓ hℓ).1
  have hown' (ℓ : Nat) (_ : ℓ < s'.length) (hℓ : ℓ ∈ cs') : own' ℓ := (hplaced'.empty ℓ hℓ).1
  exact .step (hext.mono hown) (hext'.mono hown') (hgrows.mono hown hown')
    (hrest _ _ _ hgrows hext hext' hstores₁) (hexec n) fun o => (Arrives.of_eq hexec').forth

/-- The members of a `Group` that is a loop have parameters. -/
theorem arity_of_group {E : Setting} {Γ : List String} {refs : List Ref} {ts : List Analyzed}
    {idents : List String} {ks : List Nat} {decls : List Stmt}
    (h : Group E true Γ σ idents ks refs ts decls) : ∀ t ∈ ts, 0 < t.arity := by
  cases h with
  | self hpos => exact fun t ht => List.mem_singleton.1 ht ▸ hpos
  | shared _ _ harity => exact fun t ht => (harity t ht).1

/-- If `Owns` holds for a function `t`, it holds for its body. -/
theorem Owns.inner {t : Analyzed} (h : Owns V t) (harity : 0 < t.arity) : Owns V t.inner := by
  obtain ⟨a, params, body, rfl⟩ := exists_abs_of_arity harity
  exact h.child (List.mem_singleton.2 rfl)

theorem World.know_nil (W : World S) : W.know [] [] = W := by
  simp [World.know]

/-- In a group that is no loop only the members have cells. -/
theorem Placed.eq {uses : Nat → Prop} {idents : List String} {ks cs ics : List Nat}
    {decls : List Stmt} (h : Placed own uses s ρ idents ks decls cs ics)
    (hdecls : Script.declared decls = idents) : cs = ics :=
  eq_of_map_some (h.declared.symm.trans (hdecls ▸ h.members))

/-- The constants of a group that is no loop simulate each other, one after the other. -/
theorem sim_consts {ts : List Analyzed} {idents idents' : List String} {es es' : List Script.Expr}
    {ks ks' cs cs' ics ics' : List Nat} {rest rest' : List Stmt}
    {K : Nat → Completion S → Compute S α}
    {K' : Nat → Completion S → Compute S β} {Q : World S → Store S → Store S → α → β → Prop}
    (hts : ∀ t ∈ ts, ValueSim P V n t ∧ Owns V t) (hes : Values V.left (namesOf ρ) σ ts es)
    (hes' : Values V.right (namesOf ρ') σ' ts es') (hlen : ics.length = ts.length)
    (hplaced : Placed own W.usesLeft s ρ idents ks
      ((idents.zip es).map fun p => .const p.1 p.2) cs ics)
    (hplaced' : Placed own' W.usesRight s' ρ' idents' ks'
      ((idents'.zip es').map fun p => .const p.1 p.2) cs' ics')
    (hpaired : List.Forall₂ W.paired ics ics') (hagree : Agree V W σ ρ σ' ρ')
    (hstores : Stores V W s s')
    (hrest : ∀ W₁ s₁ s₁', Grows (· ∈ cs) (· ∈ cs') s s' W W₁ → Extends (· ∈ cs) s s₁ →
      Extends (· ∈ cs') s' s₁' → Stores V W₁ s₁ s₁' →
      SimAt V (fun ℓ => own ℓ ∨ s.length ≤ ℓ) (fun ℓ => own' ℓ ∨ s'.length ≤ ℓ) W₁ s₁ s₁'
        (exec P (engine P n) ρ rest >>= K n) (fun m => exec P (engine P m) ρ' rest' >>= K' m) Q) :
    SimAt V own own' W s s'
      (exec P (engine P n) ρ ((idents.zip es).map (fun p => .const p.1 p.2) ++ rest) >>= K n)
      (fun m => exec P (engine P m) ρ' ((idents'.zip es').map (fun p => .const p.1 p.2) ++ rest')
        >>= K' m) Q := by
  have hidents : idents.length = ts.length := by
    simpa [← hlen] using congrArg List.length hplaced.members
  have hidents' : idents'.length = ts.length := by
    simpa [← hlen, hpaired.length_eq] using congrArg List.length hplaced'.members
  obtain rfl := hplaced.eq (declared_consts (Nat.le_of_eq (hidents.trans (length_values hes).symm)))
  obtain rfl := hplaced'.eq
    (declared_consts (Nat.le_of_eq (hidents'.trans (length_values hes').symm)))
  refine sim_writes .const Cell.fix .constant (fun _ _ _ _ => by rw [execStmt])
    (fun _ => rfl) hts hes hes' hlen hplaced.members hplaced'.members hplaced.nodup
    hplaced'.nodup (fun ℓ hℓ => ?_) (fun ℓ hℓ => ?_) hpaired hagree hstores
    fun W₁ s₁ s₁' hgrows => hrest W₁ s₁ s₁'
      (hgrows.mono (fun _ _ => False.elim) fun _ _ => False.elim)
  · exact ⟨(hplaced.empty ℓ hℓ).1, .empty, (hplaced.empty ℓ hℓ).2, by nofun, fun _ => rfl⟩
  · exact ⟨(hplaced'.empty ℓ hℓ).1, .empty, (hplaced'.empty ℓ hℓ).2, by nofun, fun _ => rfl⟩

/-- `let` declarations of `xs` without a value fill the empty cells `cs` first. -/
theorem exec_declares {xs : List String} {cs : List Nat} (rest : List Stmt)
    (hxs : xs.map (ρ.lookup ·) = cs.map some) (hnodup : cs.Nodup)
    (hcells : ∀ ℓ ∈ cs, s[ℓ]? = some .empty) (K : Nat → Completion S → Compute S α) :
    ∃ s₁, (∀ n, (exec P (engine P n) ρ (xs.map (fun x => .declare x none) ++ rest) >>= K n) s =
        (exec P (engine P n) ρ rest >>= K n) s₁) ∧ Extends (· ∈ cs) s s₁ ∧
      ∀ ℓ ∈ cs, s₁[ℓ]? = some (.assignable (.scalar P.undefined)) := by
  -- a declaration without a value writes `undefined`
  have hstmts : xs.map (fun x => Stmt.declare x none) =
      (xs.zip (xs.map fun _ => Script.Expr.undefined)).map fun p => .declare p.1 none := by
    clear hxs
    induction xs with
    | nil => rfl
    | cons x xs ih => exact congrArg (_ :: ·) ih
  have heval (s₁ : Store S) : List.Forall₂ (Evaluates P ρ s₁)
      (xs.map fun _ => Script.Expr.undefined) (cs.map fun _ => .scalar P.undefined) := by
    rw [List.forall₂_map_left_iff, List.forall₂_map_right_iff, List.forall₂_iff_zip]
    refine ⟨by simpa using congrArg List.length hxs, fun _ call => ?_⟩
    rw [eval, Compute.pure_apply]
  obtain ⟨s₁, hexec, hext, hfilled⟩ := exec_writes (fun x _ => .declare x none) Cell.start
    .assignable (fun G x e he => by
      obtain ⟨-, -, rfl⟩ := List.mem_map.1 he
      rw [execStmt, eval, pure_bind]) hxs hnodup (fun s₁ _ => heval s₁) (by simp)
    (fun ℓ hℓ => ⟨.empty, hcells ℓ hℓ, fun _ => rfl⟩)
  refine ⟨s₁, fun n => ?_, hext, fun ℓ hℓ => ?_⟩
  · rw [hstmts]
    exact Compute.bind_congr_left _ (hexec ..)
  · rw [List.forall₂_map_right_iff] at hfilled
    obtain ⟨_, h⟩ := exists_of_forall₂ hfilled hℓ
    exact h

/-- A group that is no loop and not all of functions: all of its variables are declared before the
first of them is assigned. -/
theorem sim_assigned {ts : List Analyzed} {idents idents' : List String} {es es' : List Script.Expr}
    {cs cs' : List Nat} {rest rest' : List Stmt} {K : Nat → Completion S → Compute S α}
    {K' : Nat → Completion S → Compute S β} {Q : World S → Store S → Store S → α → β → Prop}
    (hts : ∀ t ∈ ts, ValueSim P V n t ∧ Owns V t) (hes : Values V.left (namesOf ρ) σ ts es)
    (hes' : Values V.right (namesOf ρ') σ' ts es') (hlen : cs.length = ts.length)
    (hxs : idents.map (ρ.lookup ·) = cs.map some) (hxs' : idents'.map (ρ'.lookup ·) = cs'.map some)
    (hnodup : cs.Nodup) (hnodup' : cs'.Nodup) (hempty : ∀ ℓ ∈ cs, own ℓ ∧ s[ℓ]? = some .empty)
    (hempty' : ∀ ℓ ∈ cs', own' ℓ ∧ s'[ℓ]? = some .empty) (hpaired : List.Forall₂ W.paired cs cs')
    (hagree : Agree V W σ ρ σ' ρ') (hstores : Stores V W s s')
    (hrest : ∀ W₁ s₁ s₁', Grows (· ∈ cs) (· ∈ cs') s s' W W₁ → Extends (· ∈ cs) s s₁ →
      Extends (· ∈ cs') s' s₁' → Stores V W₁ s₁ s₁' →
      SimAt V (fun ℓ => own ℓ ∨ s.length ≤ ℓ) (fun ℓ => own' ℓ ∨ s'.length ≤ ℓ) W₁ s₁ s₁'
        (exec P (engine P n) ρ rest >>= K n) (fun m => exec P (engine P m) ρ' rest' >>= K' m) Q) :
    SimAt V own own' W s s'
      (exec P (engine P n) ρ (idents.map (fun x => .declare x none) ++
        ((idents.zip es).map (fun p => .assign p.1 p.2) ++ rest)) >>= K n)
      (fun m => exec P (engine P m) ρ' (idents'.map (fun x => .declare x none) ++
        ((idents'.zip es').map (fun p => .assign p.1 p.2) ++ rest')) >>= K' m) Q := by
  obtain ⟨s₁, hexec, hext, hfilled⟩ := exec_declares (P := P)
    ((idents.zip es).map (fun p => .assign p.1 p.2) ++ rest) hxs hnodup
    (fun ℓ hℓ => (hempty ℓ hℓ).2) K
  obtain ⟨s₁', hexec', hext', hfilled'⟩ := exec_declares (P := P)
    ((idents'.zip es').map (fun p => .assign p.1 p.2) ++ rest') hxs' hnodup'
    (fun ℓ hℓ => (hempty' ℓ hℓ).2) K'
  -- paired cells are undefined on both sides after the declarations, so they still hold the same
  have hstores₁ : Stores V W s₁ s₁' := by
    rw [← W.know_nil]
    refine hstores.declare hpaired (fun ℓ hu hℓ => hext.old (hstores.lt_left hu) hℓ)
      (fun ℓ hu hℓ => hext'.old (hstores.lt_right hu) hℓ) (fun ℓ hℓ v hv => ?_)
      (fun ℓ hℓ v hv => ?_) (fun p hp => ?_) (by nofun) (by nofun)
    · rw [(hempty ℓ hℓ).2] at hv
      cases hv
    · rw [(hempty' ℓ hℓ).2] at hv
      cases hv
    · obtain ⟨hc, hc'⟩ := List.of_mem_zip hp
      exact ⟨_, _, hfilled _ hc, hfilled' _ hc', .value rfl rfl .scalar⟩
  refine .step (hext.mono fun ℓ _ hℓ => (hempty ℓ hℓ).1) (hext'.mono fun ℓ _ hℓ => (hempty' ℓ hℓ).1)
    (.refl W) ?_ (hexec n) fun o => (Arrives.of_eq hexec').forth
  -- now the variables are assigned one by one, while functions may read those that are undefined
  refine sim_writes .assign Cell.assign .assignable (fun _ _ _ _ => by rw [execStmt])
    (fun _ => rfl) hts hes hes' hlen hxs hxs' hnodup hnodup'
    (fun ℓ hℓ => ⟨.inl (hempty ℓ hℓ).1, _, hfilled ℓ hℓ, by nofun, fun _ => rfl⟩)
    (fun ℓ hℓ => ⟨.inl (hempty' ℓ hℓ).1, _, hfilled' ℓ hℓ, by nofun, fun _ => rfl⟩) hpaired hagree
    hstores₁ fun W₁ s₂ s₂' hgrows hext₂ hext₂' hstores₂ => ?_
  refine (hrest W₁ s₂ s₂' ⟨hgrows.le, fun hlt _ => ?_, fun hlt _ => ?_⟩ (hext.comp hext₂)
    (hext'.comp hext₂') hstores₂).mono (fun _ _ h => .inl h) (fun _ _ h => .inl h)
    fun _ _ _ _ _ _ => id
  · exact hgrows.left (Nat.lt_of_lt_of_le hlt hext.length_le) id
  · exact hgrows.right (Nat.lt_of_lt_of_le hlt hext'.length_le) id

/-- The declarations of a `Group` simulate each other, if what follows does. -/
theorem sim_group {refs : List Ref} {ts : List Analyzed} {flag flag' : Bool}
    {idents idents' : List String} {ks ks' cs cs' ics ics' : List Nat}
    {decls decls' rest rest' : List Stmt} {K : Nat → Completion S → Compute S α}
    {K' : Nat → Completion S → Compute S β} {Q : World S → Store S → Store S → α → β → Prop}
    (h : Group V.left flag (namesOf ρ) σ idents ks refs ts decls)
    (h' : Group V.right flag' (namesOf ρ') σ' idents' ks' refs ts decls')
    (hflag : flag = true → V.left.context.loops = true)
    (hflag' : flag' = true → V.right.context.loops = true)
    (hts : ∀ t ∈ ts, ValueSim P V n t ∧ Owns V t) (hrefs : refs.length = ts.length)
    (hlen : ics.length = ts.length)
    (hplaced : Placed own W.usesLeft s ρ idents ks decls cs ics)
    (hplaced' : Placed own' W.usesRight s' ρ' idents' ks' decls' cs' ics')
    (hpaired : List.Forall₂ W.paired ics ics') (hagree : Agree V W σ ρ σ' ρ')
    (hstores : Stores V W s s')
    (hrest : ∀ W₁ s₁ s₁', Grows (· ∈ cs) (· ∈ cs') s s' W W₁ → Extends (· ∈ cs) s s₁ →
      Extends (· ∈ cs') s' s₁' → Stores V W₁ s₁ s₁' →
      SimAt V (fun ℓ => own ℓ ∨ s.length ≤ ℓ) (fun ℓ => own' ℓ ∨ s'.length ≤ ℓ) W₁ s₁ s₁'
        (exec P (engine P n) ρ rest >>= K n) (fun m => exec P (engine P m) ρ' rest' >>= K' m) Q) :
    SimAt V own own' W s s' (exec P (engine P n) ρ (decls ++ rest) >>= K n)
      (fun m => exec P (engine P m) ρ' (decls' ++ rest') >>= K' m) Q := by
  -- two groups that are not both without a loop consist of functions
  have hfunctions (harity : ∀ t ∈ ts, 0 < t.arity) :=
    sim_functions h h' hflag hflag' harity (fun t ht => (hts t ht).2.inner (harity t ht)) hrefs hlen
      hplaced hplaced' hpaired hagree hstores hrest
  cases flag with
  | true => exact hfunctions (arity_of_group h)
  | false =>
    cases flag' with
    | true => exact hfunctions (arity_of_group h')
    | false =>
      -- whether all bindings are functions is decided by the terms, so both scripts take the same
      -- form
      cases h with
      | functions hall hes =>
        cases h' with
        | functions _ hes' =>
          exact sim_consts hts hes hes' hlen hplaced hplaced' hpaired hagree hstores hrest
        | values hall' =>
          rw [hall] at hall'
          cases hall'
      | values hall hes =>
        cases h' with
        | functions hall' =>
          rw [hall] at hall'
          cases hall'
        | values _ hes' =>
          have hdeclared (idents : List String) (es : List Script.Expr) :
              declared (idents.map (fun x => .declare x none) ++
                (idents.zip es).map fun p => .assign p.1 p.2) = idents := by
            rw [declared_append, declared_declares, declared_assigns, List.append_nil]
          obtain rfl := hplaced.eq (hdeclared _ _)
          obtain rfl := hplaced'.eq (hdeclared _ _)
          simp only [List.append_assoc]
          exact sim_assigned hts hes hes' hlen hplaced.members hplaced'.members hplaced.nodup
            hplaced'.nodup hplaced.empty hplaced'.empty hpaired hagree hstores hrest

end

end TailLoop.Emit
