import TailLoop.Proofs.Arrivals

/-!
# Private cells

Some cells of a store can be out of reach: no script that runs has a name for them, and no function
in a value outside of these cells does. What such a script comes to does not depend on what is in
these cells, and it leaves them as they are. With no private cells at all this says that names keep
referring to cells that exist.

* `Sees`, `Val.Within`: scopes and values from which private cells are out of reach.
* `Alike`: stores that differ in private cells only.
* `Blind`: computations that come to the same in stores that are alike.
* `blind_eval`, `blind_exec`, `runsBlindly_engine`: scripts that do not mention names of private
  cells.
-/

namespace TailLoop.Script

/-! ## Names of scripts -/

mutual

/-- All names in an expression, those in the bodies of its functions included. -/
def Expr.names : Expr → List String
  | .ident x => [x]
  | .int _ | .number _ | .text _ | .boolean _ | .undefined => []
  | .array es => namesAll es
  | .object fs => namesFields fs
  | .access e _ => e.names
  | .index e i => e.names ++ i.names
  | .call f es | .new f es => f.names ++ namesAll es
  | .arrow _ body => namesIn body
  | .unary _ e => e.names
  | .binary _ e f => e.names ++ f.names
  | .conditional e yes no => e.names ++ (yes.names ++ no.names)

/-- `Expr.names` of every expression of a list. -/
def namesAll : List Expr → List String
  | [] => []
  | e :: es => e.names ++ namesAll es

/-- `Expr.names` of what a part of an object literal is given. -/
def Field.names : Field → List String
  | .field _ e | .spread e => e.names

/-- `Field.names` of every part. -/
def namesFields : List Field → List String
  | [] => []
  | f :: fs => f.names ++ namesFields fs

/-- All names in a statement, declared, assigned or read. -/
def Stmt.names : Stmt → List String
  | .const x e | .declare x (some e) | .assign x e => x :: e.names
  | .declare x none => [x]
  | .expr e | .ret e | .retObject e | .throw e => e.names
  | .chain arms => namesArms arms
  | .loop body => namesIn body
  | .again | .retUndefined => []

/-- The names in the conditions and the blocks of a chain. -/
def namesArms : List (Expr × List Stmt) → List String
  | [] => []
  | (cond, block) :: arms => cond.names ++ (namesIn block ++ namesArms arms)

/-- `Stmt.names` of every statement of a block. -/
def namesIn : List Stmt → List String
  | [] => []
  | s :: rest => s.names ++ namesIn rest

end

/-! ## Functions in values -/

variable {S : Type}

mutual

/-- The functions in a value, by the body and the scope `ρ` each was built in. -/
def Val.functions : Val S → List (List Stmt × Scope)
  | .scalar _ => []
  | .array items => functionsAll items
  | .object fields => functionsFields fields
  | .error message => message.functions
  | .function _ body ρ => [(body, ρ)]

/-- `Val.functions` of every value of a list. -/
def functionsAll : List (Val S) → List (List Stmt × Scope)
  | [] => []
  | v :: vs => v.functions ++ functionsAll vs

/-- `Val.functions` of every named value. -/
def functionsFields : List (String × Val S) → List (List Stmt × Scope)
  | [] => []
  | (_, v) :: fs => v.functions ++ functionsFields fs

end

/-- `functionsAll` goes through `vs` one by one. -/
theorem functionsAll_eq (vs : List (Val S)) : functionsAll vs = vs.flatMap Val.functions := by
  induction vs with
  | nil => rfl
  | cons v vs ih => rw [functionsAll, ih, List.flatMap_cons]

/-- `functionsFields` goes through `fs` one by one. -/
theorem functionsFields_eq (fs : List (String × Val S)) :
    functionsFields fs = fs.flatMap fun f => f.2.functions := by
  induction fs with
  | nil => rfl
  | cons f fs ih => rw [functionsFields, ih, List.flatMap_cons]

/-! ## What is out of reach -/

/-- All names of a scope refer to the first `n` cells, and the given names refer to none of the
cells in `L`. -/
structure Sees (L : Nat → Prop) (n : Nat) (names : List String) (ρ : Scope) : Prop where
  /-- The cells of names exist. -/
  lt : ∀ q ∈ ρ, q.2 < n
  /-- The cells in `L` have other names. -/
  not_mem : ∀ x ∈ names, ∀ ℓ, ρ.lookup x = some ℓ → ¬L ℓ

/-- The functions in a value refer to the first `n` cells only, and to none of those in `L`. -/
def Val.Within (L : Nat → Prop) (n : Nat) (v : Val S) : Prop :=
  ∀ f ∈ v.functions, Sees L n (namesIn f.1) f.2

/-- The value in a cell refers to none of the cells in `L`. -/
def Cell.Within (L : Nat → Prop) (n : Nat) (c : Cell S) : Prop :=
  ∀ v, c.value? = some v → v.Within L n

section Within

variable {L : Nat → Prop} {m n : Nat} {names names' : List String} {ρ : Scope} {v w : Val S}

/-- `n` bounds the cells in reach, and can grow with the store. -/
theorem Sees.mono (h : Sees L n names ρ) (hle : n ≤ m) : Sees L m names ρ :=
  ⟨fun q hq => Nat.lt_of_lt_of_le (h.lt q hq) hle, h.not_mem⟩

/-- Of the `names`, some can be forgotten. -/
theorem Sees.sub (h : Sees L n names ρ) (hsub : ∀ x ∈ names', x ∈ names) : Sees L n names' ρ :=
  ⟨h.lt, fun x hx => h.not_mem x (hsub x hx)⟩

/-- What holds of `names ++ names'` holds of `names`. -/
theorem Sees.left (h : Sees L n (names ++ names') ρ) : Sees L n names ρ :=
  h.sub fun _ => List.mem_append_left _

/-- What holds of `names ++ names'` holds of `names'`. -/
theorem Sees.right (h : Sees L n (names ++ names') ρ) : Sees L n names' ρ :=
  h.sub fun _ => List.mem_append_right _

/-- What holds of `x :: names` holds of `names`. -/
theorem Sees.tail {x : String} (h : Sees L n (x :: names) ρ) : Sees L n names ρ :=
  h.sub fun _ => List.mem_cons_of_mem _

/-- What holds of `x :: names` holds of `x` alone. -/
theorem Sees.head {x : String} (h : Sees L n (x :: names) ρ) : Sees L n [x] ρ :=
  h.sub fun y hy => by
    rw [List.mem_singleton] at hy
    exact hy ▸ List.mem_cons_self ..

/-- `n` bounds the cells that `v` refers to, and can grow with the store. -/
theorem Val.Within.mono (h : v.Within L n) (hle : n ≤ m) : v.Within L m :=
  fun f hf => (h f hf).mono hle

/-- The same for what is in a cell. -/
theorem Cell.Within.mono {c : Cell S} (h : c.Within L n) (hle : n ≤ m) : c.Within L m :=
  fun v hv => (h v hv).mono hle

/-- A value without parts has no functions, so it refers to no cell. -/
@[simp] theorem within_scalar (s : S) : (Val.scalar s).Within L n := by nofun

/-- `Val.Within` of an array is that of its items. -/
theorem within_array {vs : List (Val S)} :
    (Val.array vs).Within L n ↔ ∀ v ∈ vs, v.Within L n := by
  simp only [Val.Within, Val.functions, functionsAll_eq, List.mem_flatMap]
  exact ⟨fun h v hv f hf => h f ⟨v, hv, hf⟩, fun h f ⟨v, hv, hf⟩ => h v hv f hf⟩

/-- `Val.Within` of an object is that of its fields. -/
theorem within_object {fs : List (String × Val S)} :
    (Val.object fs).Within L n ↔ ∀ f ∈ fs, f.2.Within L n := by
  simp only [Val.Within, Val.functions, functionsFields_eq, List.mem_flatMap]
  exact ⟨fun h v hv f hf => h f ⟨v, hv, hf⟩, fun h f ⟨v, hv, hf⟩ => h v hv f hf⟩

/-- `Val.Within` of an error is that of its message. -/
theorem within_error : (Val.error v).Within L n ↔ v.Within L n := Iff.rfl

/-- A function refers to the cells that the names of its `body` have in `ρ`. -/
theorem within_function {params : List String} {body : List Stmt} :
    (Val.function params body ρ : Val S).Within L n ↔ Sees L n (namesIn body) ρ := by
  simp [Val.Within, Val.functions]

/-- `Cell.empty` holds no value. -/
theorem within_empty : (Cell.empty : Cell S).Within L n := by
  intro v hv
  cases hv

/-- Where no cell is private, it is enough that the cells of `ρ` exist. -/
theorem Sees.of_lt (h : ∀ q ∈ ρ, q.2 < n) : Sees Emit.nothing n names ρ := ⟨h, fun _ _ _ _ => id⟩

/-- The primitives give a scalar, if they give anything, and a scalar refers to no cell. -/
theorem within_of_map_scalar {s? : Option S} (h : s?.map Val.scalar = some v) : v.Within L n := by
  obtain ⟨s, -, rfl⟩ := Option.map_eq_some_iff.1 h
  exact within_scalar s

/-- What `List.lookup` finds is in the list. -/
theorem mem_of_lookup {α : Type} {fs : List (String × α)} {key : String} {a : α}
    (h : fs.lookup key = some a) : (key, a) ∈ fs := by
  obtain ⟨l, l', rfl, -⟩ := List.lookup_eq_some_iff.1 h
  exact List.mem_append_right _ (List.mem_cons_self ..)

variable {P : Primitives S}

/-- The properties of `v` refer to what `v` refers to. -/
theorem Val.Within.property (h : v.Within L n) {p : String} (hw : v.property P p = some w) :
    w.Within L n := by
  cases v with
  | object fs =>
    rw [Val.property] at hw
    cases hfield : fs.lookup p with
    | none =>
      simp only [hfield, Option.orElse_none] at hw
      exact within_of_map_scalar hw
    | some u =>
      simp only [hfield, Option.orElse_some, Option.some.injEq] at hw
      obtain rfl := hw
      exact within_object.1 h (p, u) (mem_of_lookup hfield)
  | _ => exact within_of_map_scalar hw

/-- The elements of `v` refer to what `v` refers to. -/
theorem Val.Within.element (h : v.Within L n) {i : Val S} (hw : v.element P i = some w) :
    w.Within L n := by
  cases v with
  | array items =>
    cases i with
    | scalar s =>
      rw [Val.element] at hw
      cases hat : (P.position s).bind fun n => items[n]? with
      | none =>
        simp only [hat, Option.orElse_none] at hw
        exact within_of_map_scalar hw
      | some u =>
        obtain ⟨k, -, hu⟩ := Option.bind_eq_some_iff.1 hat
        simp only [hat, Option.orElse_some, Option.some.injEq] at hw
        obtain rfl := hw
        exact within_array.1 h u (List.mem_of_getElem? hu)
    | _ => exact within_of_map_scalar hw
  | _ => exact within_of_map_scalar hw

/-- So do the fields that a spread copies from `v`. -/
theorem Val.Within.ownFields (h : v.Within L n) : ∀ f ∈ v.ownFields P, f.2.Within L n := by
  cases v with
  | scalar s =>
    intro f hf
    obtain ⟨g, -, rfl⟩ := List.mem_map.1 hf
    exact within_scalar g.2
  | array items =>
    intro f hf
    obtain ⟨q, hq, rfl⟩ := List.mem_map.1 hf
    exact within_array.1 h q.1 (List.fst_mem_of_mem_zipIdx hq)
  | object fs => exact within_object.1 h
  | error | function => nofun

/-- `setField` adds only what `v` refers to. -/
theorem within_setField {fs : List (String × Val S)} (h : ∀ f ∈ fs, f.2.Within L n)
    (hv : v.Within L n) (key : String) : ∀ f ∈ setField key v fs, f.2.Within L n := by
  induction fs with
  | nil => exact List.forall_mem_singleton.2 hv
  | cons f fs ih =>
    obtain ⟨hf, hfs⟩ := List.forall_mem_cons.1 h
    rw [setField]
    split
    · exact List.forall_mem_cons.2 ⟨hv, hfs⟩
    · exact List.forall_mem_cons.2 ⟨hf, ih hfs⟩

/-- `setFields` adds only what the fields `news` refer to. -/
theorem within_setFields {fs news : List (String × Val S)} (h : ∀ f ∈ fs, f.2.Within L n)
    (hnews : ∀ f ∈ news, f.2.Within L n) : ∀ f ∈ setFields fs news, f.2.Within L n := by
  induction news generalizing fs with
  | nil => exact h
  | cons f news ih =>
    obtain ⟨hf, hnews⟩ := List.forall_mem_cons.1 hnews
    exact ih (within_setField h hf f.1) hnews

end Within

/-! ## Stores that are alike -/

/-- Stores that are the same outside of the cells in `L`, and there refer to nothing in `L`. -/
structure Alike (L : Nat → Prop) (s s' : Store S) : Prop where
  /-- There are equally many cells. -/
  length_eq : s'.length = s.length
  /-- The private cells exist. -/
  bound : ∀ ℓ, L ℓ → ℓ < s.length
  /-- All other cells are the same. -/
  same : ∀ ℓ, ¬L ℓ → s'[ℓ]? = s[ℓ]?
  /-- All other cells refer to other cells. -/
  within : ∀ ℓ, ¬L ℓ → ∀ c, s[ℓ]? = some c → c.Within L s.length

/-- The steps from `s` to `t` and from `s'` to `t'` keep the stores alike, remove no cell, and leave
the cells in `L` as they are. -/
structure Onward (L : Nat → Prop) (s s' t t' : Store S) : Prop where
  /-- The stores are alike again. -/
  alike : Alike L t t'
  /-- No cells are lost. -/
  length_le : s.length ≤ t.length
  /-- The first step leaves the private cells as they are. -/
  left : ∀ ℓ, L ℓ → t[ℓ]? = s[ℓ]?
  /-- The second step leaves the private cells as they are. -/
  right : ∀ ℓ, L ℓ → t'[ℓ]? = s'[ℓ]?

section Alike

variable {L : Nat → Prop} {s s' t t' u u' : Store S}

/-- Alike stores are `Onward` of themselves. -/
theorem Onward.refl (h : Alike L s s') : Onward L s s' s s' :=
  ⟨h, Nat.le_refl _, fun _ _ => rfl, fun _ _ => rfl⟩

/-- Steps to `t` and `t'`, and from there to `u` and `u'`, make one. -/
theorem Onward.trans (h : Onward L s s' t t') (h' : Onward L t t' u u') : Onward L s s' u u' where
  alike := h'.alike
  length_le := Nat.le_trans h.length_le h'.length_le
  left ℓ hℓ := (h'.left ℓ hℓ).trans (h.left ℓ hℓ)
  right ℓ hℓ := (h'.right ℓ hℓ).trans (h.right ℓ hℓ)

/-- Both stores can grow by the same `cells`, if these refer to no private ones. -/
theorem Alike.append (h : Alike L s s') {cells : List (Cell S)}
    (hcells : ∀ c ∈ cells, c.Within L (s.length + cells.length)) :
    Onward L s s' (s ++ cells) (s' ++ cells) where
  length_le := by simp
  left ℓ hℓ := List.getElem?_append_left (h.bound ℓ hℓ)
  right ℓ hℓ := List.getElem?_append_left (h.length_eq ▸ h.bound ℓ hℓ)
  alike := {
    length_eq := by simp [h.length_eq]
    bound := fun ℓ hℓ => Nat.lt_of_lt_of_le (h.bound ℓ hℓ) (by simp)
    same := fun ℓ hℓ => by
      rw [List.getElem?_append, List.getElem?_append, h.length_eq, h.same ℓ hℓ]
    within := fun ℓ hℓ c hc => by
      rw [List.length_append]
      rw [List.getElem?_append] at hc
      split at hc
      · exact (h.within ℓ hℓ c hc).mono (Nat.le_add_right ..)
      · exact hcells c (List.mem_of_getElem? hc) }

/-- Both stores can change the cell at `ℓ`, if it is not private. -/
theorem Alike.set (h : Alike L s s') {ℓ : Nat} (hℓ : ¬L ℓ) {c : Cell S}
    (hc : c.Within L s.length) : Onward L s s' (s.set ℓ c) (s'.set ℓ c) where
  length_le := by simp
  left k hk := List.getElem?_set_ne (by rintro rfl; exact hℓ hk)
  right k hk := List.getElem?_set_ne (by rintro rfl; exact hℓ hk)
  alike := {
    length_eq := by simp [h.length_eq]
    bound := fun k hk => by simpa using h.bound k hk
    same := fun k hk => by
      rw [List.getElem?_set, List.getElem?_set, h.length_eq, h.same k hk]
    within := fun k hk d hd => by
      rw [List.length_set]
      rw [List.getElem?_set] at hd
      split at hd
      · split at hd
        · obtain rfl := Option.some.inj hd
          exact hc
        · cases hd
      · exact h.within k hk d hd }

end Alike

/-! ## Blind computations -/

variable {α β : Type}

/-- Two outcomes of a computation from alike stores: both stop or throw in the same way, or both
have the same result, which is as `ok` says of the number of cells. -/
inductive Agrees (L : Nat → Prop) (ok : Nat → α → Prop) (s s' : Store S) :
    Option (Except (Val S) (α × Store S)) → Option (Except (Val S) (α × Store S)) → Prop
  | stuck : Agrees L ok s s' none none
  | thrown {w : Val S} : Agrees L ok s s' (some (.error w)) (some (.error w))
  | ended {a : α} {t t' : Store S} : Onward L s s' t t' → ok t.length a →
      Agrees L ok s s' (some (.ok (a, t))) (some (.ok (a, t')))

/-- From stores with at least `n` cells that differ in private cells only, the computation comes to
the same, and it leaves the private cells as they are. -/
def Blind (L : Nat → Prop) (n : Nat) (x : Compute S α) (ok : Nat → α → Prop) : Prop :=
  ∀ s s', n ≤ s.length → Alike L s s' → Agrees L ok s s' (x s) (x s')

namespace Blind

variable {L : Nat → Prop} {m n : Nat} {x : Compute S α} {k : α → Compute S β}
  {ok ok' : Nat → α → Prop} {okβ : Nat → β → Prop}

/-- `pure a` does not look at the store. -/
theorem pure {a : α} (h : ∀ m, n ≤ m → ok m a) : Blind L n (pure a : Compute S α) ok :=
  fun s _ hn halike => .ended (.refl halike) (h s.length hn)

/-- A stuck computation says nothing. -/
theorem stuck : Blind L n (Compute.stuck : Compute S α) ok := fun _ _ _ _ => .stuck

/-- `raise` says nothing of its result: it throws. -/
theorem raise (v : Val S) : Blind L n (Compute.raise v : Compute S α) ok := fun _ _ _ _ => .thrown

/-- `Compute.given` has the result `a?`, or is stuck without one. -/
theorem given {a? : Option α} (h : ∀ m a, n ≤ m → a? = some a → ok m a) :
    Blind L n (Compute.given a? : Compute S α) ok := by
  cases a? with
  | none => exact .stuck
  | some a => exact .pure fun m hm => h m a hm rfl

/-- `k` runs in a store that may have grown, so it has to be blind for every bound `m` from `n`
on. -/
theorem bind (hx : Blind L n x ok) (hk : ∀ m a, n ≤ m → ok m a → Blind L m (k a) okβ) :
    Blind L n (x >>= k) okβ := by
  intro s s' hn halike
  have h := hx s s' hn halike
  rw [Compute.bind_apply, Compute.bind_apply]
  generalize x s = r at h ⊢
  generalize x s' = r' at h ⊢
  cases h with
  | stuck => exact .stuck
  | thrown => exact .thrown
  | @ended a t t' h ha =>
    have hnext := hk _ a (Nat.le_trans hn h.length_le) ha t t' (Nat.le_refl _) h.alike
    show Agrees L okβ s s' (k a t) (k a t')
    generalize k a t = r at hnext ⊢
    generalize k a t' = r' at hnext ⊢
    cases hnext with
    | stuck => exact .stuck
    | thrown => exact .thrown
    | ended h' hb => exact .ended (h.trans h') hb

end Blind

/-! ## Reading and writing -/

section

variable {L : Nat → Prop} {n : Nat} {ρ : Scope} {x : String}

/-- `Compute.read` is blind if the name `x` has no private cell. -/
theorem blind_read (hρ : Sees L n [x] ρ) :
    Blind L n (Compute.read ρ x : Compute S (Val S)) fun m v => v.Within L m := by
  intro s s' hn halike
  simp only [Compute.read]
  cases hx : ρ.lookup x with
  | none => exact .stuck
  | some ℓ =>
    have hℓ := hρ.not_mem x (List.mem_singleton_self x) ℓ hx
    simp only [Option.bind_some, halike.same ℓ hℓ]
    cases hc : s[ℓ]? with
    | none => exact .stuck
    | some c =>
      simp only [Option.bind_some]
      cases hv : c.value? with
      | none => exact .stuck
      | some v => exact .ended (.refl halike) (halike.within ℓ hℓ c hc v hv)

/-- `Compute.write` is blind if `x` has no private cell, and `change` puts nothing private into a
cell. -/
theorem blind_write {change : Cell S → Option (Cell S)} (hρ : Sees L n [x] ρ)
    (hchange : ∀ c c' m, n ≤ m → change c = some c' → c'.Within L m) :
    Blind L n (Compute.write ρ x change) fun _ _ => True := by
  intro s s' hn halike
  simp only [Compute.write]
  cases hx : ρ.lookup x with
  | none => exact .stuck
  | some ℓ =>
    have hℓ := hρ.not_mem x (List.mem_singleton_self x) ℓ hx
    simp only [halike.same ℓ hℓ]
    cases hc : s[ℓ]?.bind change with
    | none => exact .stuck
    | some c' =>
      obtain ⟨c, -, hc⟩ := Option.bind_eq_some_iff.1 hc
      exact .ended (halike.set hℓ (hchange c c' _ hn hc)) trivial

/-- In a scope extended by `news`, `x` has a new cell if it is one of them, and its old cell
otherwise. -/
theorem lookup_extend (ρ : Scope) (news : List String) (k : Nat) (x : String) :
    (x ∉ news ∧ (extend ρ (news.zipIdx k)).lookup x = ρ.lookup x) ∨
      ∃ ℓ, x ∈ news ∧ (extend ρ (news.zipIdx k)).lookup x = some ℓ ∧
        k ≤ ℓ ∧ ℓ < k + news.length := by
  rw [extend, List.lookup_append]
  cases hnew : (news.zipIdx k).reverse.lookup x with
  | none =>
    -- a new name would have been found
    refine .inl ⟨fun hx => ?_, by rw [Option.none_or]⟩
    obtain ⟨i, hi, rfl⟩ := List.getElem_of_mem hx
    have hmem : (news[i], k + i) ∈ (news.zipIdx k).reverse :=
      List.mem_reverse.2 (List.mem_zipIdx_iff_le_and_getElem?_sub.2 ⟨by simp, by simp [hi]⟩)
    simpa using List.lookup_eq_none_iff.1 hnew _ hmem
  | some ℓ =>
    obtain ⟨hle, hlt, hx⟩ := List.mem_zipIdx (List.mem_reverse.1 (mem_of_lookup hnew))
    exact .inr ⟨ℓ, hx ▸ List.getElem_mem .., by rw [Option.some_or], hle, hlt⟩

/-- The cells for `news` are made at `k`, behind the private ones, so the larger scope reaches no
private cell either. -/
theorem Sees.extend {names : List String} {k : Nat} (hρ : Sees L n names ρ) (news : List String)
    (hL : ∀ ℓ, L ℓ → ℓ < k) (hn : n ≤ k) :
    Sees L (k + news.length) names (extend ρ (news.zipIdx k)) := by
  refine ⟨fun q hq => ?_, fun x hx ℓ hℓ => ?_⟩
  · rcases List.mem_append.1 hq with hq | hq
    · exact (List.mem_zipIdx (List.mem_reverse.1 hq)).2.1
    · exact Nat.lt_of_lt_of_le (hρ.lt q hq) (Nat.le_trans hn (Nat.le_add_right ..))
  · rcases lookup_extend ρ news k x with ⟨-, hold⟩ | ⟨j, -, hnew, hge, -⟩
    · exact hρ.not_mem x hx ℓ (hold ▸ hℓ)
    · obtain rfl := Option.some.inj (hnew ▸ hℓ)
      -- new cells come after the private ones
      exact fun hmem => Nat.lt_irrefl _ (Nat.lt_of_lt_of_le (hL _ hmem) hge)

/-- `enterWith` makes `cells` for `news`; it is blind if these refer to nothing private. -/
theorem blind_enterWith {names news : List String} {cells : List (Cell S)}
    (hlen : news.length = cells.length) (hρ : Sees L n names ρ)
    (hcells : ∀ c ∈ cells, c.Within L n) :
    Blind L n (Compute.enterWith ρ news cells) fun m ρ' => Sees L m names ρ' := by
  intro s s' hn halike
  have hmore (c : Cell S) (hc : c ∈ cells) : c.Within L (s.length + cells.length) :=
    (hcells c hc).mono (Nat.le_trans hn (Nat.le_add_right ..))
  rw [Compute.enterWith, Compute.enterWith, halike.length_eq]
  refine .ended (halike.append hmore) ?_
  rw [List.length_append, ← hlen]
  exact hρ.extend news halike.bound hn

/-- `enterBlock` makes empty cells for what `block` declares. -/
theorem blind_enterBlock {names : List String} (hρ : Sees L n names ρ) (block : List Stmt) :
    Blind L n (Compute.enterBlock ρ block : Compute S Scope) fun m ρ' => Sees L m names ρ' :=
  blind_enterWith (by rw [List.length_map]) hρ (List.forall_mem_map.2 fun _ _ => within_empty)

end

/-! ## Expressions -/

section

variable {P : Primitives S} {L : Nat → Prop}

/-- `call` is blind on values that refer to no cell in `L`. -/
def CallsBlindly (L : Nat → Prop) (call : Val S → List (Val S) → Compute S (Val S)) : Prop :=
  ∀ n v vs, v.Within L n → (∀ w ∈ vs, w.Within L n) →
    Blind L n (call v vs) fun m w => w.Within L m

variable {call : Val S → List (Val S) → Compute S (Val S)}

mutual

/-- An expression whose names have no private cells is blind. The recursion follows `Expr`, with
`blind_evalAll` and `blind_evalFields` for its lists. -/
theorem blind_eval (hcall : CallsBlindly L call) {n : Nat} {ρ : Scope} :
    ∀ e : Expr, Sees L n e.names ρ → Blind L n (eval P call ρ e) fun m v => v.Within L m
  | .ident x, hρ => by
    rw [eval]
    exact blind_read hρ
  | .int _, _ | .number _, _ | .text _, _ | .boolean _, _ | .undefined, _ => by
    rw [eval]
    exact .pure fun _ _ => within_scalar _
  | .array es, hρ => by
    rw [eval]
    exact (blind_evalAll hcall es hρ).bind fun m vs _ hvs => .pure fun k hk =>
      within_array.2 fun v hv => (hvs v hv).mono hk
  | .object fs, hρ => by
    rw [eval]
    exact (blind_evalFields hcall fs (by nofun) hρ).bind fun m built _ hbuilt => .pure fun k hk =>
      within_object.2 fun f hf => (hbuilt f hf).mono hk
  | .access e p, hρ => by
    rw [eval]
    exact (blind_eval hcall e hρ).bind fun m v _ hv => .given fun k w hk hw =>
      (hv.property hw).mono hk
  | .index e i, hρ => by
    rw [eval]
    exact (blind_eval hcall e hρ.left).bind fun m v hm hv =>
      (blind_eval hcall i (hρ.right.mono hm)).bind fun k w hk hw =>
        .given fun l u hl hu => ((hv.mono hk).element hu).mono hl
  | .call f es, hρ => by
    rw [eval]
    exact (blind_eval hcall f hρ.left).bind fun m v hm hv =>
      (blind_evalAll hcall es (hρ.right.mono hm)).bind fun k vs hk hvs =>
        hcall k v vs (hv.mono hk) hvs
  | .new f es, hρ => by
    rw [eval]
    split
    · exact (blind_evalAll hcall es hρ.right).bind fun m vs _ hvs => .pure fun k hk => by
        rw [within_error]
        cases vs with
        | nil => exact within_scalar _
        | cons v vs => exact (hvs v (List.mem_cons_self ..)).mono hk
    · exact .stuck
  -- a function keeps its scope, in which no name of the body has a cell of `L`
  | .arrow params body, hρ => by
    rw [eval]
    exact .pure fun m hm => within_function.2 (hρ.mono hm)
  | .unary op e, hρ => by
    rw [eval]
    exact (blind_eval hcall e hρ).bind fun m v _ _ => .given fun _ _ _ hw =>
      within_of_map_scalar hw
  | .binary op e f, hρ => by
    have he := blind_eval hcall e hρ.left
    have hf (m : Nat) (hm : n ≤ m) := blind_eval hcall f (hρ.right.mono hm)
    -- these two operators evaluate their second operand in some cases only
    by_cases hand : op = .and
    · subst hand
      rw [eval]
      refine he.bind fun m v hm hv => ?_
      split
      · exact hf m hm
      · exact .pure fun k hk => hv.mono hk
    · by_cases hor : op = .or
      · subst hor
        rw [eval]
        refine he.bind fun m v hm hv => ?_
        split
        · exact .pure fun k hk => hv.mono hk
        · exact hf m hm
      · rw [eval]
        · exact he.bind fun m v hm _ => (hf m hm).bind fun k w _ _ => .given fun _ _ _ hu =>
            within_of_map_scalar hu
        · exact hand
        · exact hor
  | .conditional e yes no, hρ => by
    rw [eval]
    refine (blind_eval hcall e hρ.left).bind fun m v hm _ => ?_
    split
    · exact blind_eval hcall yes (hρ.right.left.mono hm)
    · exact blind_eval hcall no (hρ.right.right.mono hm)

/-- `blind_eval` for each of some expressions. -/
theorem blind_evalAll (hcall : CallsBlindly L call) {n : Nat} {ρ : Scope} :
    ∀ es : List Expr, Sees L n (namesAll es) ρ →
      Blind L n (evalAll P call ρ es) fun m vs => ∀ v ∈ vs, v.Within L m
  | [], _ => by
    rw [evalAll]
    exact .pure fun _ _ => by nofun
  | e :: es, hρ => by
    rw [evalAll]
    exact (blind_eval hcall e hρ.left).bind fun m v hm hv =>
      (blind_evalAll hcall es (hρ.right.mono hm)).bind fun k vs hk hvs => .pure fun l hl =>
        List.forall_mem_cons.2 ⟨hv.mono (Nat.le_trans hk hl), fun w hw => (hvs w hw).mono hl⟩

/-- `blind_eval` for the parts of an object literal, behind the fields `built` so far. -/
theorem blind_evalFields (hcall : CallsBlindly L call) {n : Nat} {ρ : Scope} :
    ∀ (fs : List Field) {built : List (String × Val S)}, (∀ f ∈ built, f.2.Within L n) →
      Sees L n (namesFields fs) ρ →
      Blind L n (evalFields P call ρ built fs) fun m fields => ∀ f ∈ fields, f.2.Within L m
  | [], _, hbuilt, _ => by
    rw [evalFields]
    exact .pure fun m hm f hf => (hbuilt f hf).mono hm
  | .field key e :: fs, built, hbuilt, hρ => by
    rw [evalFields]
    exact (blind_eval hcall e hρ.left).bind fun m v hm hv =>
      blind_evalFields hcall fs (within_setField (fun f hf => (hbuilt f hf).mono hm) hv key)
        (hρ.right.mono hm)
  | .spread e :: fs, built, hbuilt, hρ => by
    rw [evalFields]
    exact (blind_eval hcall e hρ.left).bind fun m v hm hv =>
      blind_evalFields hcall fs
        (within_setFields (fun f hf => (hbuilt f hf).mono hm) hv.ownFields) (hρ.right.mono hm)

end

/-! ## Statements -/

/-- The value that `c` returns, if it does, refers to no cell in `L`. -/
def Completion.Within (L : Nat → Prop) (n : Nat) (c : Completion S) : Prop :=
  ∀ v, c = .returned v → v.Within L n

section

variable {n : Nat} {v : Val S}

/-- `Completion.normal` returns nothing. -/
theorem within_normal : (Completion.normal : Completion S).Within L n := by
  intro v hv
  cases hv

/-- `Completion.again` returns nothing. -/
theorem within_again : (Completion.again : Completion S).Within L n := by
  intro v hv
  cases hv

/-- The bound `n` can grow with the store. -/
theorem Completion.Within.mono {m : Nat} {c : Completion S} (h : c.Within L n) (hle : n ≤ m) :
    c.Within L m := fun v hv => (h v hv).mono hle

/-- `Completion.returned v` refers to what `v` refers to. -/
theorem within_returned (h : v.Within L n) : (Completion.returned v).Within L n := by
  intro w hw
  cases hw
  exact h

end

/-- The calls and the loops of `G` are blind where they refer to no cell in `L`. -/
structure Engine.RunsBlindly (L : Nat → Prop) (G : Engine S) : Prop where
  /-- Calls. -/
  call : CallsBlindly L G.call
  /-- Loops. -/
  loop : ∀ n ρ body, Sees L n (namesIn body) ρ →
    Blind L n (G.loop ρ body) fun m c => c.Within L m

/-- A declaration or an assignment of `v` leaves a cell that refers to what `v` refers to. -/
theorem within_of_change {v : Val S} {n : Nat} (hv : v.Within L n)
    {change : Cell S → Option (Cell S)}
    (hchange : change = Cell.fix v ∨ change = Cell.start v ∨ change = Cell.assign v)
    (c c' : Cell S) (m : Nat) (hm : n ≤ m) (hc : change c = some c') : c'.Within L m := by
  have hvalue : c'.value? = some v := by
    rcases hchange with rfl | rfl | rfl <;> cases c <;> cases hc <;> rfl
  intro w hw
  rw [hvalue] at hw
  obtain rfl := Option.some.inj hw
  exact hv.mono hm

variable {G : Engine S}

/-- Evaluating `e` and writing its value under `x` is blind. -/
theorem blind_writeValue (hG : G.RunsBlindly L) {n : Nat} {ρ : Scope} {x : String} {e : Expr}
    {change : Val S → Cell S → Option (Cell S)} (hρ : Sees L n (x :: e.names) ρ)
    (hchange : ∀ v, change v = Cell.fix v ∨ change v = Cell.start v ∨ change v = Cell.assign v) :
    Blind L n (do
      let v ← eval P G.call ρ e
      Compute.write ρ x (change v)
      return (Completion.normal : Completion S)) fun m c => c.Within L m :=
  (blind_eval hG.call e hρ.tail).bind fun _ v hm hv =>
    (blind_write (hρ.head.mono hm) (within_of_change hv (hchange v))).bind fun _ _ _ _ =>
      .pure fun _ _ => within_normal

mutual

/-- Statements whose names have no private cells are blind. The recursion follows `Stmt`, with
`blind_execStmt` and `blind_execArms`. -/
theorem blind_exec (hG : G.RunsBlindly L) {n : Nat} {ρ : Scope} :
    ∀ block : List Stmt, Sees L n (namesIn block) ρ →
      Blind L n (exec P G ρ block) fun m c => c.Within L m
  | [], _ => by
    rw [exec]
    exact .pure fun _ _ => within_normal
  | s :: rest, hρ => by
    rw [exec]
    refine (blind_execStmt hG s hρ.left).bind fun m c hm hc => ?_
    split
    · exact blind_exec hG rest (hρ.right.mono hm)
    · exact .pure fun k hk => hc.mono hk

/-- `blind_exec` for one statement. -/
theorem blind_execStmt (hG : G.RunsBlindly L) {n : Nat} {ρ : Scope} :
    ∀ s : Stmt, Sees L n s.names ρ → Blind L n (execStmt P G ρ s) fun m c => c.Within L m
  | .const x e, hρ => by
    rw [execStmt]
    exact blind_writeValue hG hρ fun _ => .inl rfl
  | .declare x none, hρ => by
    rw [execStmt]
    exact (blind_write hρ (within_of_change (within_scalar _) (.inr (.inl rfl)))).bind
      fun _ _ _ _ => .pure fun _ _ => within_normal
  | .declare x (some e), hρ => by
    rw [execStmt]
    exact blind_writeValue hG hρ fun _ => .inr (.inl rfl)
  | .assign x e, hρ => by
    rw [execStmt]
    exact blind_writeValue hG hρ fun _ => .inr (.inr rfl)
  | .expr e, hρ => by
    rw [execStmt]
    exact (blind_eval hG.call e hρ).bind fun _ _ _ _ => .pure fun _ _ => within_normal
  | .chain arms, hρ => by
    rw [execStmt]
    exact blind_execArms hG arms hρ
  -- rounds are those of the engine, which sees no cell of `L` by assumption
  | .loop body, hρ => by
    rw [execStmt]
    exact hG.loop n ρ body hρ
  | .again, _ => by
    rw [execStmt]
    exact .pure fun _ _ => within_again
  | .ret e, hρ | .retObject e, hρ => by
    rw [execStmt]
    exact (blind_eval hG.call e hρ).bind fun m v _ hv => .pure fun k hk =>
      within_returned (hv.mono hk)
  | .retUndefined, _ => by
    rw [execStmt]
    exact .pure fun _ _ => within_returned (within_scalar _)
  | .throw e, hρ => by
    rw [execStmt]
    exact (blind_eval hG.call e hρ).bind fun _ v _ _ => .raise v

/-- `blind_exec` for the arms of a chain. -/
theorem blind_execArms (hG : G.RunsBlindly L) {n : Nat} {ρ : Scope} :
    ∀ arms : List (Expr × List Stmt), Sees L n (namesArms arms) ρ →
      Blind L n (execArms P G ρ arms) fun m c => c.Within L m
  | [], _ => by
    rw [execArms]
    exact .pure fun _ _ => within_normal
  | (cond, block) :: arms, hρ => by
    rw [execArms]
    refine (blind_eval hG.call cond hρ.left).bind fun m v hm _ => ?_
    split
    · exact (blind_enterBlock (hρ.right.left.mono hm) block).bind fun k ρ' _ hρ' =>
        blind_exec hG block hρ'
    · exact blind_execArms hG arms (hρ.right.right.mono hm)

end

/-- `execBlock` runs `block` in a scope of its own. -/
theorem blind_execBlock (hG : G.RunsBlindly L) {n : Nat} {ρ : Scope} {block : List Stmt}
    (hρ : Sees L n (namesIn block) ρ) :
    Blind L n (execBlock P G ρ block) fun m c => c.Within L m :=
  (blind_enterBlock hρ block).bind fun _ _ _ hρ' => blind_exec hG block hρ'

/-! ## Engines -/

/-- `paramCells` hold the arguments `vs`, or `undefined` for what is missing. -/
theorem within_paramCells {n : Nat} (params : List String) {vs : List (Val S)}
    (hvs : ∀ v ∈ vs, v.Within L n) : ∀ c ∈ paramCells P params vs, c.Within L n := by
  induction params generalizing vs with
  | nil => nofun
  | cons p ps ih =>
    refine List.forall_mem_cons.2 ⟨?_, ih fun v hv => hvs v (List.mem_of_mem_tail hv)⟩
    rintro _ ⟨⟩
    cases vs with
    | nil => exact within_scalar _
    | cons v vs => exact hvs v (List.mem_cons_self ..)

/-- There is one cell for each of `params`. -/
theorem length_paramCells (params : List String) (vs : List (Val S)) :
    (paramCells P params vs).length = params.length := by
  induction params generalizing vs with
  | nil => rfl
  | cons p ps ih => exact congrArg (· + 1) (ih vs.tail)

/-- `invoke` runs a body in the scope of its function, with cells for the parameters. -/
theorem callsBlindly_invoke (hG : G.RunsBlindly L) : CallsBlindly L (invoke P G) := by
  intro n v vs hv hvs
  cases v with
  | function params body ρ =>
    rw [invoke]
    refine (blind_enterWith (length_paramCells params vs).symm (within_function.1 hv)
      (within_paramCells params hvs)).bind fun m ρ' _ hρ' => ?_
    refine (blind_execBlock hG hρ').bind fun k c _ hc => ?_
    cases c with
    | normal => exact .pure fun _ _ => within_scalar _
    | again => exact .stuck
    | returned w => exact .pure fun l hl => (hc w rfl).mono hl
  | _ => exact .stuck

/-- By induction on the size `k`: an engine runs calls and loops with the next smaller one. -/
theorem runsBlindly_engine (k : Nat) : (engine P k).RunsBlindly L := by
  induction k with
  | zero => exact ⟨fun _ _ _ _ _ => .stuck, fun _ _ _ _ => .stuck⟩
  | succ k ih =>
    refine ⟨callsBlindly_invoke ih, fun n ρ body hρ => ?_⟩
    rw [engine]
    refine (blind_execBlock ih hρ).bind fun m c hm hc => ?_
    cases c with
    | returned v => exact .pure fun l hl w hw => (hc w hw).mono hl
    | normal | again => exact ih.loop m ρ body (hρ.mono hm)

end

end TailLoop.Script
