import TailLoop.Proofs.SameValues

/-!
# Scopes and their cells

Declarations are numbered from the outermost to the innermost, and a scope says which cell each of
them has. In a scope that is entered later all numbers keep their cells. Names that are declared
together are given distinct cells, and statements that write one of them each fill these cells and
change no others.

* `lookup_of_resolve`: a name has the cell of the declaration that it refers to.
* `Agree.extend`, `Agree.bind`: agreement in larger scopes and for more binders.
* `exec_writes`: statements that write one cell each.
-/

namespace TailLoop.Emit

open Script

variable {S : Type}

/-! ## Cells of declarations -/

/-- `extend ρ` with `names` is `enter (namesOf ρ)` with them, as far as names go. -/
theorem namesOf_extend (ρ : Scope) {names : List String} {cs : List Nat}
    (h : names.length = cs.length) :
    namesOf (extend ρ (names.zip cs)) = enter (namesOf ρ) names := by
  simp [extend, enter, namesOf, List.map_fst_zip (Nat.le_of_eq h)]

/-- `extend ρ` takes `names` and `names'` together or one after the other. -/
theorem extend_append (ρ names names' : Scope) :
    extend ρ (names ++ names') = extend (extend ρ names) names' := by
  simp [extend]

theorem lt_of_cellOf {ρ : Scope} {k ℓ : Nat} (h : cellOf ρ k = some ℓ) :
    k < (namesOf ρ).length := by
  obtain ⟨x, hx, -⟩ := Option.map_eq_some_iff.1 h
  simpa using (List.getElem?_eq_some_iff.1 hx).1

/-- The declaration `k` keeps its cell in `extend ρ names`. -/
theorem cellOf_extend {ρ : Scope} {k ℓ : Nat} (h : cellOf ρ k = some ℓ) (names : Scope) :
    cellOf (extend ρ names) k = some ℓ := by
  obtain ⟨x, hx, rfl⟩ := Option.map_eq_some_iff.1 h
  have hlt : k < ρ.reverse.length := (List.getElem?_eq_some_iff.1 hx).1
  rw [cellOf, extend, List.reverse_append, List.reverse_reverse, List.getElem?_append_left hlt, hx]
  rfl

/-- The declarations `ks` keep their cells in `extend ρ names`. -/
theorem map_cellOf_extend {ρ : Scope} {ks cs : List Nat} (h : ks.map (cellOf ρ) = cs.map some)
    (names : Scope) : ks.map (cellOf (extend ρ names)) = cs.map some := by
  rw [← h]
  refine List.map_congr_left fun k hk => ?_
  have hmem : cellOf ρ k ∈ cs.map some := h ▸ List.mem_map_of_mem hk
  obtain ⟨ℓ, -, hℓ⟩ := List.mem_map.1 hmem
  rw [← hℓ, cellOf_extend hℓ.symm]

/-- The `names` that `extend` brings in have the numbers from `ρ.length` on and the cells `cs`. -/
theorem map_cellOf_entered (ρ : Scope) {names : List String} {cs : List Nat}
    (h : names.length = cs.length) :
    (List.range' ρ.length names.length).map (cellOf (extend ρ (names.zip cs))) = cs.map some := by
  refine List.ext_getElem? fun i => ?_
  simp only [List.getElem?_map]
  by_cases hi : i < names.length
  · rw [List.getElem?_range' hi, Option.map_some, cellOf, extend, List.reverse_append,
      List.reverse_reverse, List.getElem?_append_right (by simp), List.length_reverse, Nat.one_mul,
      Nat.add_sub_cancel_left, ← List.getElem?_map, List.map_snd_zip (Nat.le_of_eq h.symm)]
    simp [List.getElem?_eq_getElem (h ▸ hi : i < cs.length)]
  · have hcs : ¬i < cs.length := h ▸ hi
    simp [hi, hcs]

/-- If `resolve` finds the declaration `k` of `x`, `lookup` finds its cell. -/
theorem lookup_of_resolve {ρ : Scope} {x : String} {k : Nat} (h : resolve x (namesOf ρ) = some k) :
    ∃ ℓ, ρ.lookup x = some ℓ ∧ cellOf ρ k = some ℓ := by
  induction ρ with
  | nil => cases h
  | cons p rest ih =>
    obtain ⟨y, ℓ⟩ := p
    rw [namesOf, List.map_cons, resolve] at h
    rw [List.lookup_cons]
    split at h
    · rename_i hy
      obtain rfl : y = x := hy
      obtain rfl := Option.some.inj h
      have hcell : (List.range' rest.length 1).map (cellOf (extend rest [(y, ℓ)])) = [some ℓ] :=
        map_cellOf_entered rest (show [y].length = [ℓ].length from rfl)
      refine ⟨ℓ, by rw [beq_self_eq_true], ?_⟩
      rw [List.length_map]
      exact (List.cons.inj hcell).1
    · rename_i hy
      obtain ⟨m, hm, hcell⟩ := ih h
      refine ⟨m, by rw [beq_false_of_ne (Ne.symm hy)]; exact hm, ?_⟩
      exact cellOf_extend hcell [(y, ℓ)]

/-- If `resolve` finds no declaration of `x`, `lookup` finds no cell. -/
theorem lookup_of_resolve_none {ρ : Scope} {x : String} (h : resolve x (namesOf ρ) = none) :
    ρ.lookup x = none := by
  induction ρ with
  | nil => rfl
  | cons p rest ih =>
    rw [namesOf, List.map_cons, resolve] at h
    rw [List.lookup_cons]
    split at h
    · cases h
    · rename_i hy
      rw [beq_false_of_ne (Ne.symm hy)]
      exact ih h

/-- If `resolve` finds the declarations `ks` of `xs`, `lookup` finds their cells. -/
theorem map_lookup_of_resolve {ρ : Scope} {xs : List String} {ks : List Nat}
    (h : xs.map (resolve · (namesOf ρ)) = ks.map some) :
    ∃ cs : List Nat, xs.map (ρ.lookup ·) = cs.map some ∧ ks.map (cellOf ρ) = cs.map some := by
  induction xs generalizing ks with
  | nil =>
    obtain rfl : ks = [] := by simpa using h.symm
    exact ⟨[], rfl, rfl⟩
  | cons x rest ih =>
    cases ks with
    | nil => cases h
    | cons k ks =>
      obtain ⟨hx, hrest⟩ := List.cons.inj h
      obtain ⟨ℓ, hℓ, hk⟩ := lookup_of_resolve hx
      obtain ⟨cs, hcs, hks⟩ := ih hrest
      exact ⟨ℓ :: cs, by simp [hℓ, hcs], by simp [hk, hks]⟩

theorem eq_of_map_some {cs ds : List Nat} (h : cs.map some = ds.map some) : cs = ds :=
  List.map_injective_iff.2 (fun _ _ => Option.some.inj) h

/-- Distinct `names` that `extend` brings in have the cells `cs`. -/
theorem map_lookup_entered (ρ : Scope) {names : List String} {cs : List Nat} (hnodup : names.Nodup)
    (h : names.length = cs.length) :
    names.map ((extend ρ (names.zip cs)).lookup ·) = cs.map some := by
  have hres := map_resolve_enter (namesOf ρ) hnodup
  rw [← namesOf_extend ρ h] at hres
  obtain ⟨ds, hds, hcell⟩ := map_lookup_of_resolve hres
  have hentered := map_cellOf_entered ρ h
  rw [List.length_map] at hcell
  rw [hds, ← hcell, hentered]

/-! ## Agreement -/

section

variable {V : Versions} {W : World S} {σ σ' : Naming} {ρ ρ' : Scope}

/-- `Agree` is kept in larger scopes, for the binders of `σ` and `σ'`. -/
theorem Agree.extend (h : Agree V W σ ρ σ' ρ') (names names' : Scope) :
    Agree V W σ (Script.extend ρ names) σ' (Script.extend ρ' names') where
  bound hk hk' := by
    obtain ⟨ℓ, ℓ', hℓ, hℓ', hj⟩ := h.bound hk hk'
    exact ⟨ℓ, ℓ', cellOf_extend hℓ names, cellOf_extend hℓ' names', hj⟩
  global hx hk hk' := by
    obtain ⟨ℓ, ℓ', hℓ, hℓ', hj⟩ := h.global hx hk hk'
    exact ⟨ℓ, ℓ', cellOf_extend hℓ names, cellOf_extend hℓ' names', hj⟩

/-- `Agree` is kept when the binders `bs` get cells that are joined. -/
theorem Agree.bind (h : Agree V W σ ρ σ' ρ') {bs : List Binder} {ks ks' cs cs' : List Nat}
    (hlen : ks.length = bs.length) (hks : ks.map (cellOf ρ) = cs.map some)
    (hks' : ks'.map (cellOf ρ') = cs'.map some) (hcs : List.Forall₂ W.joins cs cs') :
    Agree V W (bs.zip ks ++ σ) ρ (bs.zip ks' ++ σ') ρ' := by
  induction hcs generalizing bs ks ks' with
  | nil =>
    obtain rfl : ks = [] := by simpa using hks
    obtain rfl : ks' = [] := by simpa using hks'
    simpa using h
  | @cons c c' cs cs' hc hcs ih =>
    match ks, ks' with
    | [], _ => cases hks
    | _ :: _, [] => cases hks'
    | k :: ks, k' :: ks' =>
      obtain ⟨hk, hks⟩ := List.cons.inj hks
      obtain ⟨hk', hks'⟩ := List.cons.inj hks'
      match bs with
      | [] => cases hlen
      | b :: bs =>
        have hrest := ih (by simpa using hlen) hks hks'
        -- an inner binder hides an outer one in both scripts at once
        refine ⟨fun {b' l l'} hl hl' => ?_, hrest.global⟩
        rw [List.zip_cons_cons, List.cons_append, List.lookup_cons] at hl hl'
        split at hl
        · rename_i hb
          rw [hb] at hl'
          obtain rfl := Option.some.inj hl
          obtain rfl := Option.some.inj hl'
          exact ⟨c, c', hk, hk', hc⟩
        · rename_i hb
          rw [hb] at hl'
          exact hrest.bound hl hl'

end

/-! ## Reading and writing -/

section

variable {P : Primitives S} {ρ : Scope} {s s₀ s₁ : Store S} {x : String} {ℓ : Nat}

/-- The cells `cs` of `s` hold the values `vs`. -/
abbrev Holds (s : Store S) (cs : List Nat) (vs : List (Val S)) : Prop :=
  List.Forall₂ (fun ℓ v => s[ℓ]?.bind Cell.value? = some v) cs vs

/-- `e` has the value `v` in `ρ` and `s` whatever runs calls, and evaluating it changes nothing. -/
def Evaluates (P : Primitives S) (ρ : Scope) (s : Store S) (e : Script.Expr) (v : Val S) : Prop :=
  ∀ call, eval P call ρ e s = some (.ok (v, s))

theorem read_apply {v : Val S} (hx : ρ.lookup x = some ℓ)
    (hv : s[ℓ]?.bind Cell.value? = some v) : Compute.read ρ x s = some (.ok (v, s)) := by
  simp only [Compute.read, hx, Option.bind_some, hv]

theorem write_apply {change : Cell S → Option (Cell S)} {c c' : Cell S} (hx : ρ.lookup x = some ℓ)
    (hc : s[ℓ]? = some c) (hchange : change c = some c') :
    Compute.write ρ x change s = some (.ok ((), s.set ℓ c')) := by
  simp only [Compute.write, hx, hc, Option.bind_some, hchange]

/-- `enterWith` appends `cells` to the store for `names`. -/
theorem enterWith_apply (ρ : Scope) (names : List String) (cells : List (Cell S)) (s : Store S) :
    Compute.enterWith ρ names cells s =
      some (.ok (extend ρ (names.zip (List.range' s.length names.length)), s ++ cells)) := by
  rw [Compute.enterWith, List.zipIdx_eq_zip_range']

/-- The variable `x` has the value in its cell `ℓ`. -/
theorem evaluates_ident {v : Val S} (hx : ρ.lookup x = some ℓ)
    (hv : s[ℓ]?.bind Cell.value? = some v) : Evaluates P ρ s (.ident x) v := fun call => by
  rw [eval]
  exact read_apply hx hv

/-- Every `b` of `bs` has a partner in `cs`. -/
theorem exists_of_forall₂ {β γ : Type} {R : β → γ → Prop} {bs : List β} {cs : List γ}
    (h : List.Forall₂ R bs cs) {b : β} (hb : b ∈ bs) : ∃ c, R b c := by
  induction h with
  | nil => cases hb
  | cons hr _ ih =>
    rcases List.mem_cons.1 hb with rfl | hb
    · exact ⟨_, hr⟩
    · exact ih hb

/-- A cell of `cs` exists and is not empty. -/
theorem Holds.get {cs : List Nat} {vs : List (Val S)} (h : Holds s cs vs) {ℓ : Nat} (hℓ : ℓ ∈ cs) :
    ℓ < s.length ∧ s[ℓ]? ≠ some .empty := by
  obtain ⟨v, hv⟩ := exists_of_forall₂ h hℓ
  obtain ⟨c, hc, hvalue⟩ := Option.bind_eq_some_iff.1 hv
  refine ⟨(List.getElem?_eq_some_iff.1 hc).1, fun hempty => ?_⟩
  obtain rfl := Option.some.inj (hc.symm.trans hempty)
  cases hvalue

/-- Cells that `own` does not allow to change hold what they held. -/
theorem Holds.extends {own : Nat → Prop} {cs : List Nat} {vs : List (Val S)} (h : Holds s cs vs)
    (hs : Extends own s s₁) (hown : ∀ ℓ ∈ cs, ¬own ℓ) : Holds s₁ cs vs := by
  have hold (ℓ : Nat) (hℓ : ℓ ∈ cs) : s₁[ℓ]? = s[ℓ]? := hs.old (h.get hℓ).1 (hown ℓ hℓ)
  clear hs hown
  induction h with
  | nil => exact .nil
  | @cons ℓ v cs vs hv _ ih =>
    refine .cons ?_ (ih fun m hm => hold m (List.mem_cons_of_mem _ hm))
    rw [hold ℓ (List.mem_cons_self ..)]
    exact hv

/-- The variables `xs` have the values `vs` in their cells. -/
theorem evaluates_idents {xs : List String} {cs : List Nat} {vs : List (Val S)}
    (hxs : xs.map (ρ.lookup ·) = cs.map some) (h : Holds s cs vs) :
    List.Forall₂ (Evaluates P ρ s) (xs.map .ident) vs := by
  induction h generalizing xs with
  | nil =>
    obtain rfl : xs = [] := by simpa using hxs
    exact .nil
  | cons hv _ ih =>
    match xs with
    | [] => cases hxs
    | x :: xs =>
      obtain ⟨hx, hxs⟩ := List.cons.inj hxs
      exact .cons (evaluates_ident hx hv) (ih hxs)

/-- `evalAll` gives the values `vs` of `es` and changes nothing. -/
theorem evalAll_apply {es : List Script.Expr} {vs : List (Val S)}
    (h : List.Forall₂ (Evaluates P ρ s) es vs) (call : Val S → List (Val S) → Compute S (Val S)) :
    evalAll P call ρ es s = some (.ok (vs, s)) := by
  induction h with
  | nil => rw [evalAll, Compute.pure_apply]
  | cons he _ ih =>
    rw [evalAll, Compute.bind_ok (he call), Compute.bind_ok ih, Compute.pure_apply]

/-- The statements `mk x e`, whose expressions do not depend on the cells that they write, fill the
cells `cs`. -/
theorem exec_writes (mk : String → Script.Expr → Stmt) (change : Val S → Cell S → Option (Cell S))
    (filled : Val S → Cell S)
    {xs : List String} {es : List Script.Expr} {cs : List Nat} {vs : List (Val S)}
    (hmk : ∀ (G : Engine S) (x : String), ∀ e ∈ es, execStmt P G ρ (mk x e) = do
      let v ← eval P G.call ρ e
      Compute.write ρ x (change v)
      return .normal)
    (hxs : xs.map (ρ.lookup ·) = cs.map some) (hnodup : cs.Nodup)
    (hes : ∀ s₁, Extends (· ∈ cs) s s₁ → List.Forall₂ (Evaluates P ρ s₁) es vs)
    (hlen : xs.length = es.length)
    (hcells : ∀ ℓ ∈ cs, ∃ c, s[ℓ]? = some c ∧ ∀ v, change v c = some (filled v)) :
    ∃ s₁, (∀ G rest, exec P G ρ ((xs.zip es).map (fun p => mk p.1 p.2) ++ rest) s =
        exec P G ρ rest s₁) ∧
      Extends (· ∈ cs) s s₁ ∧ List.Forall₂ (fun ℓ v => s₁[ℓ]? = some (filled v)) cs vs := by
  -- the cells that are written in all are kept apart from those that are still to be written
  have hsteps (all : List Nat) (s₀ : Store S)
      (hes : ∀ s₁, Extends (· ∈ all) s₀ s₁ → List.Forall₂ (Evaluates P ρ s₁) es vs)
      (hall : ∀ ℓ ∈ cs, ℓ ∈ all) (hs : Extends (· ∈ all) s₀ s) :
      ∃ s₁, (∀ G rest, exec P G ρ ((xs.zip es).map (fun p => mk p.1 p.2) ++ rest) s =
          exec P G ρ rest s₁) ∧
        Extends (· ∈ cs) s s₁ ∧ List.Forall₂ (fun ℓ v => s₁[ℓ]? = some (filled v)) cs vs := by
    clear * - hmk hxs hnodup hlen hcells hes hall hs
    induction xs generalizing es cs vs s with
    | nil =>
      obtain rfl : es = [] := List.eq_nil_of_length_eq_zero hlen.symm
      obtain rfl : cs = [] := by simpa using hxs.symm
      cases hes s hs
      exact ⟨s, fun _ _ => rfl, .refl s, .nil⟩
    | cons x xs ih =>
      match es, cs, vs, hes s hs with
      | e :: es, ℓ :: cs, v :: vs, .cons he _ =>
        obtain ⟨hx, hxs⟩ := List.cons.inj hxs
        obtain ⟨hℓ, hnodup⟩ := List.nodup_cons.1 hnodup
        obtain ⟨c, hc, hchange⟩ := hcells ℓ (List.mem_cons_self ..)
        have hlt : ℓ < s.length := (List.getElem?_eq_some_iff.1 hc).1
        have hset : Extends (· ∈ all) s (s.set ℓ (filled v)) :=
          .set s _ (hall ℓ (List.mem_cons_self ..))
        obtain ⟨s₁, hexec, hext, hfilled⟩ := ih (s := s.set ℓ (filled v))
          (fun G x e he => hmk G x e (List.mem_cons_of_mem _ he)) hxs hnodup (by simpa using hlen)
            (fun m hm => by
            obtain ⟨d, hd, hd'⟩ := hcells m (List.mem_cons_of_mem _ hm)
            refine ⟨d, ?_, hd'⟩
            rw [List.getElem?_set_ne (by rintro rfl; exact hℓ hm)]
            exact hd)
          (fun s₁ hs₁ => (List.forall₂_cons.1 (hes s₁ hs₁)).2)
          (fun m hm => hall m (List.mem_cons_of_mem _ hm)) (hs.comp hset)
        refine ⟨s₁, fun G rest => ?_, ?_, .cons ?_ hfilled⟩
        · rw [List.zip_cons_cons, List.map_cons, List.cons_append, exec,
            hmk G x e (List.mem_cons_self ..), bind_assoc,
            Compute.bind_ok (he G.call), bind_assoc,
            Compute.bind_ok (write_apply hx hc (hchange v)), pure_bind]
          exact hexec G rest
        · have hmono : Extends (· ∈ ℓ :: cs) (s.set ℓ (filled v)) s₁ :=
            hext.mono fun m _ hm => List.mem_cons_of_mem _ hm
          exact Extends.comp (.set s _ (List.mem_cons_self ..)) hmono
        · rw [hext.old (by simpa using hlt) hℓ, List.getElem?_set_self hlt]
  exact hsteps cs s hes (fun _ => id) (.refl s)

end

end TailLoop.Emit
