import TailLoop.Proofs.Simulation

/-!
# Operations on values that are the same

What scripts do with values that cannot be told apart in a world gives values that cannot be told
apart. Operators see no difference at all between such values, and values without functions are
equal.
-/

namespace TailLoop.Emit

open Script

variable {S : Type} {P : Primitives S} {V : Versions} {W : World S}

/-- `curriedFn` is a function, however many `names` it takes one by one. -/
theorem exists_curriedFn (ρ : Scope) (names : List String) (body : List Stmt) :
    ∃ params block, (curriedFn ρ names body : Val S) = .function params block ρ := by
  rcases names with _ | ⟨p, _ | ⟨q, rest⟩⟩ <;> exact ⟨_, _, rfl⟩

/-- Values that are `SameFn` are functions. -/
theorem SameFn.functions {f f' : Val S} (h : SameFn V W f f') :
    (∃ params body ρ, f = .function params body ρ) ∧
      ∃ params body ρ, f' = .function params body ρ := by
  have hcurried (ρ : Scope) (names : List String) (body : List Stmt) :
      ∃ params block ρ', (curriedFn ρ names body : Val S) = .function params block ρ' := by
    obtain ⟨params, block, h⟩ := exists_curriedFn (S := S) ρ names body
    exact ⟨params, block, ρ, h⟩
  cases h with
  | curried => exact ⟨hcurried .., hcurried ..⟩
  | arrow => exact ⟨⟨_, _, _, rfl⟩, _, _, _, rfl⟩
  | constructor => exact ⟨hcurried .., hcurried ..⟩

mutual

/-- Operators, which see the `mask` of a value only, see no difference between values that are the
`Same`. -/
theorem Same.mask_eq : ∀ {v v' : Val S}, Same V W v v' → v.mask = v'.mask
  | _, _, .scalar => rfl
  | _, _, .array h => congrArg Val.array (SameAll.mask_eq h)
  | _, _, .object h => congrArg Val.object (SameFields.mask_eq h)
  | _, _, .error h => congrArg Val.error (Same.mask_eq h)
  | _, _, .function h => by
    obtain ⟨⟨_, _, _, rfl⟩, _, _, _, rfl⟩ := h.functions
    rfl

theorem SameAll.mask_eq :
    ∀ {vs vs' : List (Val S)}, SameAll V W vs vs' → Val.maskAll vs = Val.maskAll vs'
  | _, _, .nil => rfl
  | _, _, .cons hv h => by
    rw [Val.maskAll, Val.maskAll, Same.mask_eq hv, SameAll.mask_eq h]

theorem SameFields.mask_eq :
    ∀ {fs fs' : List (String × Val S)}, SameFields V W fs fs' →
      Val.maskFields fs = Val.maskFields fs'
  | _, _, .nil => rfl
  | _, _, .cons hv h => by
    rw [Val.maskFields, Val.maskFields, Same.mask_eq hv, SameFields.mask_eq h]

end

mutual

/-- Values without functions are equal if they are the `Same`. -/
theorem Same.eq_of_isData : ∀ {v v' : Val S}, Same V W v v' → v.isData = true → v' = v
  | _, _, .scalar, _ => rfl
  | _, _, .array h, hd => congrArg Val.array (SameAll.eq_of_isData h hd)
  | _, _, .object h, hd => congrArg Val.object (SameFields.eq_of_isData h hd)
  | _, _, .error h, hd => congrArg Val.error (Same.eq_of_isData h hd)
  | _, _, .function h, hd => by
    obtain ⟨⟨_, _, _, rfl⟩, -⟩ := h.functions
    cases hd

theorem SameAll.eq_of_isData :
    ∀ {vs vs' : List (Val S)}, SameAll V W vs vs' → Val.isDataAll vs = true → vs' = vs
  | _, _, .nil, _ => rfl
  | _, _, .cons hv h, hd => by
    rw [Val.isDataAll, Bool.and_eq_true] at hd
    rw [Same.eq_of_isData hv hd.1, SameAll.eq_of_isData h hd.2]

theorem SameFields.eq_of_isData :
    ∀ {fs fs' : List (String × Val S)}, SameFields V W fs fs' → Val.isDataFields fs = true →
      fs' = fs
  | _, _, .nil, _ => rfl
  | _, _, .cons hv h, hd => by
    rw [Val.isDataFields, Bool.and_eq_true] at hd
    rw [Same.eq_of_isData hv hd.1, SameFields.eq_of_isData h hd.2]

end

mutual

/-- A value without functions is the `Same` as itself. -/
theorem Same.of_isData : ∀ {v : Val S}, v.isData = true → Same V W v v
  | .scalar _, _ => .scalar
  | .array vs, h => .array (SameAll.of_isData (show Val.isDataAll vs = true from h))
  | .object fs, h => .object (SameFields.of_isData (show Val.isDataFields fs = true from h))
  | .error v, h => .error (Same.of_isData (show v.isData = true from h))

theorem SameAll.of_isData : ∀ {vs : List (Val S)}, Val.isDataAll vs = true → SameAll V W vs vs
  | [], _ => .nil
  | v :: vs, h =>
    have h : v.isData = true ∧ Val.isDataAll vs = true := by
      rwa [Val.isDataAll, Bool.and_eq_true] at h
    .cons (Same.of_isData h.1) (SameAll.of_isData h.2)

theorem SameFields.of_isData :
    ∀ {fs : List (String × Val S)}, Val.isDataFields fs = true → SameFields V W fs fs
  | [], _ => .nil
  | (_, v) :: fs, h =>
    have h : v.isData = true ∧ Val.isDataFields fs = true := by
      rwa [Val.isDataFields, Bool.and_eq_true] at h
    .cons (Same.of_isData h.1) (SameFields.of_isData h.2)

end

/-! ## Lists and fields -/

theorem SameAll.length_eq {vs vs' : List (Val S)} (h : SameAll V W vs vs') :
    vs.length = vs'.length := by
  induction vs generalizing vs' with
  | nil =>
    cases h
    rfl
  | cons v vs ih =>
    cases h with
    | cons hv h => rw [List.length_cons, List.length_cons, ih h]

/-- Elements at the same position are the `Same`. -/
theorem SameAll.getElem? {vs vs' : List (Val S)} (h : SameAll V W vs vs') {n : Nat} {v : Val S}
    (hv : vs[n]? = some v) : ∃ v', vs'[n]? = some v' ∧ Same V W v v' := by
  induction vs generalizing vs' n with
  | nil => cases hv
  | cons w vs ih =>
    cases h with
    | cons hw h =>
      cases n with
      | zero =>
        obtain rfl := Option.some.inj hv
        exact ⟨_, rfl, hw⟩
      | succ n => exact ih h hv

theorem SameAll.headD {vs vs' : List (Val S)} (h : SameAll V W vs vs') (s : S) :
    Same V W (vs.headD (.scalar s)) (vs'.headD (.scalar s)) := by
  cases h with
  | nil => exact .scalar
  | cons hv _ => exact hv

theorem SameAll.tail {vs vs' : List (Val S)} (h : SameAll V W vs vs') :
    SameAll V W vs.tail vs'.tail := by
  cases h with
  | nil => exact .nil
  | cons _ h => exact h

theorem SameAll.append {vs vs' ws ws' : List (Val S)} (h : SameAll V W vs vs')
    (h' : SameAll V W ws ws') : SameAll V W (vs ++ ws) (vs' ++ ws') := by
  induction vs generalizing vs' with
  | nil =>
    cases h
    exact h'
  | cons v vs ih =>
    cases h with
    | cons hv h => exact .cons hv (ih h)

/-- `lookup` of `key` fails for both `fs` and `fs'`, or gives values that are the `Same`. -/
theorem SameFields.lookup {fs fs' : List (String × Val S)} (h : SameFields V W fs fs')
    (key : String) : (fs.lookup key = none ∧ fs'.lookup key = none) ∨
      ∃ v v', fs.lookup key = some v ∧ fs'.lookup key = some v' ∧ Same V W v v' := by
  induction fs generalizing fs' with
  | nil =>
    cases h
    exact .inl ⟨rfl, rfl⟩
  | cons f fs ih =>
    cases h with
    | cons hv h =>
      rename_i k v v' fs'
      rw [List.lookup_cons, List.lookup_cons]
      split
      · exact .inr ⟨v, v', rfl, rfl, hv⟩
      · exact ih h

/-- `setField` with values that are the `Same` keeps `SameFields`. -/
theorem SameFields.setField {fs fs' : List (String × Val S)} (h : SameFields V W fs fs')
    {v v' : Val S} (hv : Same V W v v') (key : String) :
    SameFields V W (setField key v fs) (setField key v' fs') := by
  induction fs generalizing fs' with
  | nil =>
    cases h
    exact .cons hv .nil
  | cons f fs ih =>
    cases h with
    | cons hw h =>
      rw [Script.setField, Script.setField]
      split
      · exact .cons hv h
      · exact .cons hw (ih h)

/-- `setFields` with fields that are `SameFields` keeps it. -/
theorem SameFields.setFields {fs fs' news news' : List (String × Val S)}
    (h : SameFields V W fs fs') (hn : SameFields V W news news') :
    SameFields V W (setFields fs news) (setFields fs' news') := by
  induction news generalizing news' fs fs' with
  | nil =>
    cases hn
    exact h
  | cons f news ih =>
    cases hn with
    | cons hv hn =>
      rw [Script.setFields, Script.setFields, List.foldl_cons, List.foldl_cons]
      exact ih (h.setField hv _) hn

/-- Lists that are `SameAll`, as fields whose names are the positions. -/
theorem SameAll.indexed {vs vs' : List (Val S)} (h : SameAll V W vs vs') (n : Nat) :
    SameFields V W ((vs.zipIdx n).map fun p => (Decimal.digitsText p.2, p.1))
      ((vs'.zipIdx n).map fun p => (Decimal.digitsText p.2, p.1)) := by
  induction vs generalizing vs' n with
  | nil =>
    cases h
    exact .nil
  | cons v vs ih =>
    cases h with
    | cons hv h => exact .cons hv (ih h (n + 1))

/-! ## Properties and elements -/

/-- Values that are the `Same` count as the same truth value. -/
theorem Same.holds_eq {v v' : Val S} (h : Same V W v v') : v.holds P = v'.holds P := by
  cases h with
  | function h =>
    obtain ⟨⟨_, _, _, rfl⟩, _, _, _, rfl⟩ := h.functions
    rfl
  | _ => rfl

/-- A scalar that may be missing is the `Same` as itself. -/
theorem exists_same_scalar {s? : Option S} {v : Val S} (h : s?.map Val.scalar = some v) :
    ∃ v', s?.map Val.scalar = some v' ∧ Same V W v v' := by
  obtain ⟨s, rfl, rfl⟩ := Option.map_eq_some_iff.1 h
  exact ⟨_, rfl, .scalar⟩

/-- A `property` of values that are the `Same`. -/
theorem Same.property {v v' w : Val S} (h : Same V W v v') {p : String}
    (hw : v.property P p = some w) : ∃ w', v'.property P p = some w' ∧ Same V W w w' := by
  have hother (hw : (P.property v.mask p).map Val.scalar = some w) :
      ∃ w', (P.property v'.mask p).map Val.scalar = some w' ∧ Same V W w w' := by
    rw [← h.mask_eq]
    exact exists_same_scalar hw
  cases h with
  | object h =>
    rw [Val.property] at hw ⊢
    rcases h.lookup p with ⟨hnone, hnone'⟩ | ⟨u, u', hsome, hsome', hu⟩
    · simp only [hnone, Option.orElse_none] at hw
      simp only [hnone', Option.orElse_none]
      exact hother hw
    · simp only [hsome, Option.orElse_some, Option.some.injEq] at hw
      obtain rfl := hw
      exact ⟨u', by simp [hsome'], hu⟩
  | function h =>
    obtain ⟨⟨_, _, _, rfl⟩, _, _, _, rfl⟩ := h.functions
    exact hother hw
  | _ => exact hother hw

/-- An `element` of values that are the `Same`. -/
theorem Same.element {v v' i i' w : Val S} (h : Same V W v v') (hi : Same V W i i')
    (hw : v.element P i = some w) : ∃ w', v'.element P i' = some w' ∧ Same V W w w' := by
  -- what the operators decide, they decide alike, since they see no difference
  have hother (hw : (P.element v.mask i.mask).map Val.scalar = some w) :
      ∃ w', (P.element v'.mask i'.mask).map Val.scalar = some w' ∧ Same V W w w' := by
    rw [← h.mask_eq, ← hi.mask_eq]
    exact exists_same_scalar hw
  cases h with
  | array h =>
    cases hi with
    | scalar =>
      rename_i items items' s
      rw [Val.element] at hw ⊢
      -- positions are decided by scalars, which are equal
      cases hat : (P.position s).bind fun n => items[n]? with
      | none =>
        have hat' : ((P.position s).bind fun n => items'[n]?) = none := by
          cases hpos : P.position s with
          | none => rfl
          | some n =>
            rw [hpos] at hat
            change items'[n]? = none
            rw [List.getElem?_eq_none_iff, ← h.length_eq, ← List.getElem?_eq_none_iff]
            exact hat
        simp only [hat, Option.orElse_none] at hw
        simp only [hat', Option.orElse_none]
        exact hother hw
      | some u =>
        obtain ⟨n, hpos, hu⟩ := Option.bind_eq_some_iff.1 hat
        obtain ⟨u', hu', hsame⟩ := h.getElem? hu
        simp only [hat, Option.orElse_some, Option.some.injEq] at hw
        obtain rfl := hw
        exact ⟨u', by simp [hpos, hu'], hsame⟩
    | function hi =>
      obtain ⟨⟨_, _, _, rfl⟩, _, _, _, rfl⟩ := hi.functions
      exact hother hw
    | _ => exact hother hw
  | function h =>
    obtain ⟨⟨_, _, _, rfl⟩, _, _, _, rfl⟩ := h.functions
    exact hother hw
  | _ => exact hother hw

/-- The fields that a spread copies from values that are the `Same`. -/
theorem Same.ownFields {v v' : Val S} (h : Same V W v v') :
    SameFields V W (v.ownFields P) (v'.ownFields P) := by
  cases h with
  | scalar =>
    rename_i s
    exact SameFields.of_isData (by
      rw [Val.ownFields]
      induction P.fields s with
      | nil => rfl
      | cons f rest ih => exact ih)
  | array h =>
    rename_i items items'
    exact h.indexed 0
  | object h => exact h
  | error => exact .nil
  | function h =>
    obtain ⟨⟨_, _, _, rfl⟩, _, _, _, rfl⟩ := h.functions
    exact .nil

end TailLoop.Emit
