import TailLoop.Proofs.Emission
import TailLoop.Proofs.FreshNames

/-!
# Names and declarations during lowering

What the lowering knows of names at each step, and what has to hold of the declarations around the
script it writes. Names that are given out differ from all names in use, so declaring them hides
nothing that is referred to.

* `Ready`: the binders in scope have names, and names in use are taken.
* `Kept`: what a lowering step leaves as it is.
* `Adequate`: the names of the binders in scope refer to their declarations.
-/

namespace TailLoop

namespace Script

/-! ## Resolving names -/

/-- Declarations of other `names` do not change what `x` refers to. -/
theorem resolve_enter {x : String} {Γ names : List String} (h : x ∉ names) :
    resolve x (enter Γ names) = resolve x Γ := by
  have happend (ys : List String) (hys : x ∉ ys) : resolve x (ys ++ Γ) = resolve x Γ := by
    induction ys with
    | nil => rfl
    | cons y rest ih =>
      simp only [List.mem_cons, not_or] at hys
      rw [List.cons_append, resolve, if_neg (Ne.symm hys.1), ih hys.2]
  exact happend _ (by simpa using h)

/-- `enter` takes declarations one after the other. -/
theorem enter_append (Γ xs ys : List String) : enter Γ (xs ++ ys) = enter (enter Γ xs) ys := by
  simp [enter]

/-- `enter` adds a declaration for each of `names`. -/
@[simp] theorem length_enter (Γ names : List String) :
    (enter Γ names).length = Γ.length + names.length := by
  simp [enter, Nat.add_comm]

/-- Distinct `names` refer to their own declarations, numbered in order behind those of `Γ`. -/
theorem map_resolve_enter {names : List String} (Γ : List String) (h : names.Nodup) :
    names.map (resolve · (enter Γ names)) = (List.range' Γ.length names.length).map some := by
  induction names generalizing Γ with
  | nil => rfl
  | cons x rest ih =>
    obtain ⟨hx, hrest⟩ := List.nodup_cons.1 h
    have henter : enter Γ (x :: rest) = enter (x :: Γ) rest := by simp [enter]
    have hself : resolve x (enter (x :: Γ) rest) = some Γ.length := by
      rw [resolve_enter hx, resolve, if_pos rfl]
    rw [henter, List.map_cons, hself, ih (x :: Γ) hrest, List.length_cons, List.length_cons,
      List.range'_succ, List.map_cons]

/-- A name that is declared in `Γ` refers to something. -/
theorem isSome_resolve {x : String} {Γ : List String} (h : x ∈ Γ) :
    (resolve x Γ).isSome = true := by
  induction Γ with
  | nil => cases h
  | cons y rest ih =>
    rw [resolve]
    split
    · rfl
    · rename_i hy
      rcases List.mem_cons.1 h with rfl | h
      · exact absurd rfl hy
      · exact ih h

/-- A name that is not declared in `Γ` refers to nothing. -/
theorem resolve_eq_none {x : String} {Γ : List String} (h : x ∉ Γ) : resolve x Γ = none := by
  induction Γ with
  | nil => rfl
  | cons y rest ih =>
    simp only [List.mem_cons, not_or] at h
    rw [resolve, if_neg (Ne.symm h.1), ih h.2]

/-- Where `f` makes a declaration of each of `bs`, their names are declared. -/
theorem declared_map {β : Type} {f : β → Stmt} {name : β → String}
    (h : ∀ b, (f b).declares? = some (name b)) (bs : List β) :
    declared (bs.map f) = bs.map name := by
  induction bs with
  | nil => rfl
  | cons b rest ih =>
    rw [List.map_cons, declared, List.filterMap_cons, h, ← declared, ih, List.map_cons]

/-- `declared` goes through statements one by one. -/
theorem declared_append (xs ys : List Stmt) : declared (xs ++ ys) = declared xs ++ declared ys :=
  List.filterMap_append

end Script

namespace Lower

open Script Lowering Emit

/-! ## Names in use -/

/-- What a step from `p` to `p'` leaves as it is: taken names stay taken, the binders of `scope`
keep their names, and the loops are restored. -/
structure Kept (scope : List Binder) (p p' : Progress) : Prop where
  /-- Taken names stay taken. -/
  taken : ∀ x, p.env.isTaken x = true → p'.env.isTaken x = true
  /-- Binders in scope keep their names. -/
  names : ∀ b ∈ scope, p'.env.names.get? b = p.env.names.get? b
  /-- The loops are the same. -/
  scopes : p'.env.scopes = p.env.scopes

variable {scope : List Binder} {p p' p'' : Progress}

/-- A step that does nothing. -/
theorem Kept.refl (scope : List Binder) (p : Progress) : Kept scope p p :=
  ⟨fun _ h => h, fun _ _ => rfl, rfl⟩

/-- Steps from `p` to `p'` and from there to `p''`. -/
theorem Kept.trans (h : Kept scope p p') (h' : Kept scope p' p'') : Kept scope p p'' where
  taken x hx := h'.taken x (h.taken x hx)
  names b hb := (h'.names b hb).trans (h.names b hb)
  scopes := h'.scopes.trans h.scopes

/-- What is left as it is for `scope'` is for fewer binders too. -/
theorem Kept.mono {scope' : List Binder} (h : Kept scope' p p') (hsub : scope ⊆ scope') :
    Kept scope p p' := ⟨h.taken, fun b hb => h.names b (hsub hb), h.scopes⟩

/-- The name `x` is in use: it is taken, or it is the name of a binder of `scope` that has none of
its own. -/
def Used (scope : List Binder) (p : Progress) (x : String) : Prop :=
  p.env.isTaken x = true ∧ isUnnamed x = false ∨
    ∃ level, x = Env.unnamed level ∧ ⟨none, level⟩ ∈ scope

/-- A name as units may use it. It does not look like that of a binder without a name, nor like that
of errors, where this is `closed`. -/
def Regular (closed : Prop) (x : String) : Prop := isUnnamed x = false ∧ (closed → x ≠ "Error")

variable {closed : Prop}

/-- A name with a dollar sign is `Regular`. -/
theorem regular_of_dollar {x : String} (h : '$' ∈ x.toList) : Regular closed x := by
  refine ⟨?_, ?_⟩
  · rw [Bool.eq_false_iff]
    exact fun hunnamed => dollar_not_mem_of_isUnnamed hunnamed h
  · rintro - rfl
    revert h
    decide

/-- The candidates for fresh names are `Regular` if their `base` is. -/
theorem regular_candidate {base : String} {n : Nat} (h : Regular closed base) :
    Regular closed (candidate base n) := by
  unfold candidate
  split
  · exact h
  · exact regular_of_dollar (by simp)

/-- The name `x` can be declared anew: it is not taken, or it is the name of a binder that is not in
`scope` and has none of its own. -/
def New (closed : Prop) (scope : List Binder) (p : Progress) (x : String) : Prop :=
  p.env.isTaken x = false ∧ Regular closed x ∨
    ∃ level, x = Env.unnamed level ∧ ⟨none, level⟩ ∉ scope

/-- What is `New` differs from what is `Used`. -/
theorem New.ne {x y : String} (hx : New closed scope p x) (hy : Used scope p y) : y ≠ x := by
  rintro rfl
  rcases hx with ⟨hfree, hform, -⟩ | ⟨level, rfl, hscope⟩
  · rcases hy with ⟨htaken, -⟩ | ⟨level, rfl, -⟩
    · rw [hfree] at htaken
      cases htaken
    · rw [isUnnamed_unnamed] at hform
      cases hform
  · rcases hy with ⟨-, hform⟩ | ⟨level', heq, hscope'⟩
    · rw [isUnnamed_unnamed] at hform
      cases hform
    · rw [unnamed_injective heq] at hscope
      exact hscope hscope'

/-- What is `New` is not the name of errors, where this is `closed`. -/
theorem New.ne_error {x : String} (h : New closed scope p x) (hg : closed) : x ≠ "Error" := by
  rcases h with ⟨-, -, herror⟩ | ⟨level, rfl, -⟩
  · exact herror hg
  · intro heq
    have hform := isUnnamed_unnamed level
    rw [heq] at hform
    revert hform
    decide

/-- A name in use in `p` is in use after a step that keeps it. -/
theorem Used.kept {x : String} (h : Used scope p x) (hk : Kept scope p p') : Used scope p' x := by
  rcases h with ⟨htaken, hform⟩ | h
  · exact .inl ⟨hk.taken x htaken, hform⟩
  · exact .inr h

/-- A name in use for `scope` is in use for more binders. -/
theorem Used.mono {scope' : List Binder} {x : String} (h : Used scope p x) (hsub : scope ⊆ scope') :
    Used scope' p x := by
  rcases h with h | ⟨level, hx, hscope⟩
  · exact .inl h
  · exact .inr ⟨level, hx, hsub hscope⟩

/-- What is new in `p'` was new in `p`, since taken names stay taken. -/
theorem New.of_kept {x : String} (h : New closed scope p' x) (hk : Kept scope p p') :
    New closed scope p x := by
  rcases h with ⟨hfree, hform⟩ | h
  · refine .inl ⟨?_, hform⟩
    rw [Bool.eq_false_iff] at hfree ⊢
    exact fun htaken => hfree (hk.taken x htaken)
  · exact .inr h

/-- What is new for `scope'` is new for fewer binders. -/
theorem New.mono {scope' : List Binder} {x : String} (h : New closed scope' p x)
    (hsub : scope ⊆ scope') : New closed scope p x := by
  rcases h with h | ⟨level, hx, hscope⟩
  · exact .inl h
  · exact .inr ⟨level, hx, fun hmem => hscope (hsub hmem)⟩

/-- The variables of the loop `s`: the selector, if there is one, and the slots. -/
def LoopScope.variables (s : LoopScope) : List String := s.selector.toList ++ s.slots

/-- The names of the module are taken, the binders of `scope` have names in use, and the loops
around have variables in use and slots enough for their members. -/
structure Ready (c : Context) (scope : List Binder) (p : Progress) : Prop where
  /-- The names of the module are taken. -/
  reserved : ∀ x ∈ c.reserved, p.env.isTaken x = true
  /-- Binders in scope have names in use. -/
  named : ∀ b ∈ scope, ∃ x, p.env.names.get? b = some x ∧ Used scope p x
  /-- The variables of loops are in use. -/
  loops : ∀ s ∈ p.env.scopes, ∀ x ∈ s.variables, Used scope p x
  /-- Members of loops are in scope. -/
  members : ∀ s ∈ p.env.scopes, ∀ m ∈ s.members, ∀ b, m.1 = .bound b → b ∈ scope
  /-- Members of loops find slots for their arguments. -/
  slots : ∀ s ∈ p.env.scopes, ∀ m ∈ s.members, m.2 ≤ s.slots.length

variable {c : Context} {Γ₀ : List String}

/-- A step that keeps the names leaves them `Ready`. -/
theorem Ready.kept (h : Ready c scope p) (hk : Kept scope p p') : Ready c scope p' where
  reserved x hx := hk.taken x (h.reserved x hx)
  named b hb := by
    obtain ⟨x, hx, hused⟩ := h.named b hb
    exact ⟨x, (hk.names b hb).trans hx, hused.kept hk⟩
  loops s hs x hx := (h.loops s (hk.scopes ▸ hs) x hx).kept hk
  members s hs := h.members s (hk.scopes ▸ hs)
  slots s hs := h.slots s (hk.scopes ▸ hs)

/-- The order of the binders in `scope` does not matter. -/
theorem Ready.congr {scope' : List Binder} (h : Ready c scope p) (hsub : scope ⊆ scope')
    (hsup : scope' ⊆ scope) : Ready c scope' p where
  reserved := h.reserved
  named b hb := by
    obtain ⟨x, hx, hused⟩ := h.named b (hsup hb)
    exact ⟨x, hx, hused.mono hsub⟩
  loops s hs x hx := (h.loops s hs x hx).mono hsub
  members s hs m hm b hb := hsub (h.members s hs m hm b hb)
  slots := h.slots

/-! ## Declarations around a script -/

/-- The declarations `Γ` around a script fit: the names of the binders of `scope` refer to their
declarations, as `σ` has them, and the names of the module to those of `Γ₀`. -/
structure Adequate (c : Context) (Γ₀ : List String) (closed : Prop) (scope : List Binder)
    (p : Progress) (Γ : List String) (σ : Naming) : Prop where
  /-- Names of binders refer to their declarations. -/
  bound : ∀ b ∈ scope, ∃ x k, p.env.names.get? b = some x ∧ σ.lookup b = some k ∧
    resolve x Γ = some k
  /-- Names of the module refer to the module. -/
  global : ∀ x ∈ c.reserved, isUnnamed x = false → resolve x Γ = resolve x Γ₀
  /-- The name of errors is not declared, where this is closed. -/
  error : closed → resolve "Error" Γ = none

variable {Γ : List String} {σ : Naming}

/-- A step that keeps the names leaves the declarations adequate. -/
theorem Adequate.kept (h : Adequate c Γ₀ closed scope p Γ σ) (hk : Kept scope p p') :
    Adequate c Γ₀ closed scope p' Γ σ where
  bound b hb := by
    obtain ⟨x, k, hx, hk', hr⟩ := h.bound b hb
    exact ⟨x, k, (hk.names b hb).trans hx, hk', hr⟩
  global := h.global
  error := h.error

/-- Declarations of `names` that are `New` hide nothing that is referred to. -/
theorem Adequate.enter {names : List String} (h : Adequate c Γ₀ closed scope p Γ σ)
    (hready : Ready c scope p) (hnew : ∀ x ∈ names, New closed scope p x) :
    Adequate c Γ₀ closed scope p (enter Γ names) σ where
  bound b hb := by
    obtain ⟨x, k, hx, hk, hr⟩ := h.bound b hb
    obtain ⟨x', hx', hused⟩ := hready.named b hb
    obtain rfl : x' = x := Option.some.inj (hx'.symm.trans hx)
    refine ⟨x', k, hx, hk, ?_⟩
    rw [resolve_enter fun hmem => (hnew x' hmem).ne hused rfl, hr]
  global x hx hform := by
    rw [resolve_enter fun hmem => (hnew x hmem).ne (.inl ⟨hready.reserved x hx, hform⟩) rfl,
      h.global x hx hform]
  error hg := by
    rw [resolve_enter fun hmem => (hnew _ hmem).ne_error hg rfl, h.error hg]

/-- Of the pairs in front, those of `bs` and `ks`, the `i`-th is found; other binders are looked up
in `σ`. -/
theorem lookup_zip_append {bs : List Binder} {ks : List Nat} {σ : Naming} (hbs : bs.Nodup)
    (hlen : bs.length = ks.length) {b : Binder} :
    (b ∉ bs → (bs.zip ks ++ σ).lookup b = σ.lookup b) ∧
      ∀ i : Nat, bs[i]? = some b → ∃ k, ks[i]? = some k ∧ (bs.zip ks ++ σ).lookup b = some k := by
  induction bs generalizing ks with
  | nil => simp
  | cons b' rest ih =>
    cases ks with
    | nil => simp at hlen
    | cons k ks =>
      obtain ⟨hb', hrest⟩ := List.nodup_cons.1 hbs
      obtain ⟨hout, hin⟩ := ih hrest (by simpa using hlen)
      refine ⟨fun hb => ?_, fun i hi => ?_⟩
      · simp only [List.mem_cons, not_or] at hb
        rw [List.zip_cons_cons, List.cons_append, List.lookup_cons, beq_false_of_ne hb.1]
        exact hout hb.2
      · cases i with
        | zero =>
          obtain rfl : b' = b := by simpa using hi
          exact ⟨k, rfl, by simp⟩
        | succ i =>
          rw [List.getElem?_cons_succ] at hi
          obtain ⟨k', hk', hlook⟩ := hin i hi
          have hne : b ≠ b' := by
            rintro rfl
            exact hb' (List.mem_of_getElem? hi)
          refine ⟨k', by simpa using hk', ?_⟩
          rw [List.zip_cons_cons, List.cons_append, List.lookup_cons, beq_false_of_ne hne]
          exact hlook

/-- From `p` to `p'`, the names `xs` have been given to the binders `bs`. -/
structure Named (c : Context) (closed : Prop) (scope bs : List Binder) (xs : List String)
    (p p' : Progress) : Prop where
  /-- What was there before stays as it is. -/
  kept : Kept scope p p'
  /-- The binders are in scope afterwards. -/
  ready : Ready c (bs ++ scope) p'
  /-- The names are new. -/
  new : ∀ x ∈ xs, New closed scope p x
  /-- The names are in use afterwards. -/
  used : ∀ x ∈ xs, Used (bs ++ scope) p' x
  /-- The names are distinct. -/
  nodup : xs.Nodup
  /-- Binders have their names. -/
  names : bs.map (p'.env.names.get? ·) = xs.map some

variable {bs : List Binder} {xs : List String} {ks : List Nat}

/-- There is one name for each of `bs`. -/
theorem Named.length_eq (h : Named c closed scope bs xs p p') : xs.length = bs.length := by
  simpa using (congrArg List.length h.names).symm

/-- The binders `bs` come into scope, bound to the declarations `ks` that their names refer to. -/
theorem Adequate.bind (h : Adequate c Γ₀ closed scope p Γ σ)
    (hnamed : Named c closed scope bs xs p p') (hbs : bs.Nodup)
    (hks : xs.map (resolve · Γ) = ks.map some) :
    Adequate c Γ₀ closed (bs ++ scope) p' Γ (bs.zip ks ++ σ) where
  bound b hb := by
    have hlen : bs.length = ks.length := by
      rw [← hnamed.length_eq]
      simpa using congrArg List.length hks
    obtain ⟨hout, hin⟩ := lookup_zip_append (σ := σ) hbs hlen (b := b)
    by_cases hmem : b ∈ bs
    · obtain ⟨i, hi⟩ := List.mem_iff_getElem?.1 hmem
      obtain ⟨k, hik, hlook⟩ := hin i hi
      have hname := congrArg (·[i]?) hnamed.names
      have hres := congrArg (·[i]?) hks
      simp only [List.getElem?_map, hi, hik, Option.map_some] at hname hres
      obtain ⟨x, hx, hxs⟩ := Option.map_eq_some_iff.1 hname.symm
      rw [hx, Option.map_some] at hres
      exact ⟨x, k, hxs.symm, hlook, Option.some.inj hres⟩
    · have hscope : b ∈ scope := (List.mem_append.1 hb).resolve_left hmem
      obtain ⟨x, k, hx, hlook, hr⟩ := h.bound b hscope
      exact ⟨x, k, (hnamed.kept.names b hscope).trans hx, (hout hmem).trans hlook, hr⟩
  global := h.global
  error := h.error

/-! ## Steps that give names -/

/-- From `p` to `p'`, the names `xs` have been taken, all of them different and new. -/
structure Took (closed : Prop) (scope : List Binder) (xs : List String) (p p' : Progress) :
    Prop where
  /-- What was there before stays as it is. -/
  kept : Kept scope p p'
  /-- The names are new. -/
  new : ∀ x ∈ xs, New closed scope p x
  /-- The names are in use afterwards. -/
  used : ∀ x ∈ xs, Used scope p' x
  /-- The names are distinct. -/
  nodup : xs.Nodup

/-- `freshName` leaves binders and loops alone. -/
theorem kept_freshName (scope : List Binder) (p : Progress) (base : String) :
    Kept scope p (freshName base p).2 :=
  ⟨fun _ hx => Env.isTaken_fresh_snd (.inr hx), fun _ _ => rfl, rfl⟩

/-- The names of `freshNames` are distinct, not taken before and taken afterwards. -/
theorem freshNames_spec (scope : List Binder) (p : Progress) (bases : List String) :
    (freshNames bases p).1.length = bases.length ∧ Kept scope p (freshNames bases p).2 ∧
      (freshNames bases p).1.Nodup ∧ ∀ x ∈ (freshNames bases p).1,
        p.env.isTaken x = false ∧ (freshNames bases p).2.env.isTaken x = true := by
  induction bases generalizing p with
  | nil => exact ⟨rfl, .refl scope p, .nil, by nofun⟩
  | cons base rest ih =>
    obtain ⟨hlen, hkept, hnodup, htaken⟩ := ih (freshName base p).2
    have hname : (freshName base p).2.env.isTaken (freshName base p).1 = true :=
      Env.isTaken_fresh_snd (.inl rfl)
    have hstep := kept_freshName scope p base
    have hresult : (freshNames (base :: rest) p) =
        ((freshName base p).1 :: (freshNames rest (freshName base p).2).1,
          (freshNames rest (freshName base p).2).2) := rfl
    rw [hresult]
    refine ⟨by simp [hlen], hstep.trans hkept, List.nodup_cons.2 ⟨fun hmem => ?_, hnodup⟩, ?_⟩
    · rw [(htaken _ hmem).1] at hname
      cases hname
    · intro x hx
      rcases List.mem_cons.1 hx with rfl | hx
      · exact ⟨Env.isTaken_fresh_fst p.env base, hkept.taken _ hname⟩
      · refine ⟨?_, (htaken x hx).2⟩
        rw [Bool.eq_false_iff]
        intro hold
        have hlater := hstep.taken x hold
        rw [(htaken x hx).1] at hlater
        cases hlater

/-- The names of `freshNames` are `Regular` if their `bases` are. -/
theorem regular_freshNames {bases : List String} (h : ∀ x ∈ bases, Regular closed x)
    (p : Progress) : ∀ x ∈ (freshNames bases p).1, Regular closed x := by
  induction bases generalizing p with
  | nil => nofun
  | cons base rest ih =>
    intro x hx
    rcases List.mem_cons.1 hx with rfl | hx
    · exact regular_candidate (h base (List.mem_cons_self ..))
    · exact ih (fun y hy => h y (List.mem_cons_of_mem _ hy)) (freshName base p).2 x hx

/-- `freshNames` takes new names, if their `bases` are `Regular`. -/
theorem took_freshNames (scope : List Binder) (p : Progress) (bases : List String)
    (h : ∀ x ∈ bases, Regular closed x) :
    Took closed scope (freshNames bases p).1 p (freshNames bases p).2 := by
  obtain ⟨-, hkept, hnodup, htaken⟩ := freshNames_spec scope p bases
  have hregular := regular_freshNames h p
  exact ⟨hkept, fun x hx => .inl ⟨(htaken x hx).1, hregular x hx⟩,
    fun x hx => .inl ⟨(htaken x hx).2, (hregular x hx).1⟩, hnodup⟩

/-- `freshName` takes a new name, if its `base` is `Regular`. -/
theorem took_freshName {base : String} (scope : List Binder) (p : Progress)
    (h : Regular closed base) :
    Took closed scope [(freshName base p).1] p (freshName base p).2 :=
  took_freshNames scope p [base] (by simpa using h)

/-- No names have been taken. -/
theorem Took.nil (closed : Prop) (scope : List Binder) (p : Progress) : Took closed scope [] p p :=
  ⟨.refl scope p, by nofun, by nofun, .nil⟩

/-- The names `ys` are taken after `xs`, so they are different ones. -/
theorem Took.append {ys : List String} (h : Took closed scope xs p p')
    (h' : Took closed scope ys p' p'') : Took closed scope (xs ++ ys) p p'' where
  kept := h.kept.trans h'.kept
  new x hx := by
    rcases List.mem_append.1 hx with hx | hx
    · exact h.new x hx
    · exact (h'.new x hx).of_kept h.kept
  used x hx := by
    rcases List.mem_append.1 hx with hx | hx
    · exact (h.used x hx).kept h'.kept
    · exact h'.used x hx
  nodup := List.nodup_append.2 ⟨h.nodup, h'.nodup, fun x hx y hy => (h'.new y hy).ne (h.used x hx)⟩

/-- The binders `bs'` get their names after `bs`. -/
theorem Named.append {bs' : List Binder} {ys : List String} (h : Named c closed scope bs xs p p')
    (h' : Named c closed (bs ++ scope) bs' ys p' p'') :
    Named c closed scope (bs ++ bs') (xs ++ ys) p p'' where
  kept := h.kept.trans (h'.kept.mono (List.subset_append_right ..))
  ready := h'.ready.congr (by simp) (by simp)
  new x hx := by
    rcases List.mem_append.1 hx with hx | hx
    · exact h.new x hx
    · exact ((h'.new x hx).mono (List.subset_append_right ..)).of_kept h.kept
  used x hx := by
    have hsub : bs' ++ (bs ++ scope) ⊆ bs ++ bs' ++ scope := by simp
    rcases List.mem_append.1 hx with hx | hx
    · exact ((h.used x hx).kept h'.kept).mono fun b hb => hsub (List.mem_append_right _ hb)
    · exact (h'.used x hx).mono hsub
  nodup := List.nodup_append.2 ⟨h.nodup, h'.nodup, fun x hx y hy => (h'.new y hy).ne (h.used x hx)⟩
  names := by
    rw [List.map_append, List.map_append, ← h'.names, ← h.names]
    congr 1
    exact List.map_congr_left fun b hb => h'.kept.names b (List.mem_append_left _ hb)

/-- No binder has been named. -/
theorem Named.nil (h : Ready c scope p) : Named c closed scope [] [] p p :=
  ⟨.refl scope p, h, by nofun, by nofun, .nil, rfl⟩

/-- `bindName` gives the binder `b`, which is not in `scope`, a new name. -/
theorem named_bindName {b : Binder} (hready : Ready c scope p) (hb : b ∉ scope)
    (hname : ∀ x, b.name = some x → Regular closed x) :
    Named c closed scope [b] [(bindName b p).1] p (bindName b p).2 := by
  have hget (b' : Binder) : (bindName b p).2.env.names.get? b' =
      if b' = b then some (bindName b p).1 else p.env.names.get? b' := by
    unfold bindName Env.bind
    cases b.name <;> exact Table.get?_alter p.env.names b b' _
  have hkept : Kept scope p (bindName b p).2 := by
    refine ⟨fun x hx => ?_, fun b' hb' => ?_, ?_⟩
    · unfold bindName Env.bind
      cases b.name with
      | none => exact hx
      | some name => exact Env.isTaken_fresh_snd (.inr hx)
    · rw [hget, if_neg]
      rintro rfl
      exact hb hb'
    · unfold bindName Env.bind
      cases b.name <;> rfl
  -- a binder without a name gets one with its level, which no other binder in scope has
  have hnew : New closed scope p (bindName b p).1 ∧
      Used ([b] ++ scope) (bindName b p).2 (bindName b p).1 := by
    obtain ⟨name, level⟩ := b
    cases name with
    | none => exact ⟨.inr ⟨level, rfl, hb⟩, .inr ⟨level, rfl, List.mem_cons_self ..⟩⟩
    | some name =>
      have hregular : Regular closed (bindName ⟨some name, level⟩ p).1 :=
        regular_candidate (hname name rfl)
      exact ⟨.inl ⟨Env.isTaken_fresh_fst p.env name, hregular⟩,
        .inl ⟨Env.isTaken_fresh_snd (.inl rfl), hregular.1⟩⟩
  refine ⟨hkept, ⟨?_, ?_, ?_, ?_, ?_⟩, by simpa using hnew.1, by simpa using hnew.2, by simp, ?_⟩
  · exact fun x hx => hkept.taken x (hready.reserved x hx)
  · intro b' hb'
    -- binders that were named before keep their names
    by_cases heq : b' = b
    · exact ⟨_, by rw [hget, if_pos heq], hnew.2⟩
    · have hscope : b' ∈ scope := by simpa [heq] using hb'
      obtain ⟨x, hx, hused⟩ := (hready.kept hkept).named b' hscope
      exact ⟨x, hx, hused.mono (List.subset_append_right ..)⟩
  · exact fun s hs x hx => ((hready.kept hkept).loops s hs x hx).mono (List.subset_append_right ..)
  · exact fun s hs m hm b' hb' => List.mem_append_right _
      ((hready.kept hkept).members s hs m hm b' hb')
  · exact (hready.kept hkept).slots
  · simp [hget]

/-- `bindNames` gives distinct binders `bs`, none in `scope`, new names. -/
theorem named_bindNames (hready : Ready c scope p) (hbs : bs.Nodup) (hscope : ∀ b ∈ bs, b ∉ scope)
    (hname : ∀ b ∈ bs, ∀ x, b.name = some x → Regular closed x) :
    Named c closed scope bs (bindNames bs p).1 p (bindNames bs p).2 := by
  induction bs generalizing scope p with
  | nil => exact .nil hready
  | cons b rest ih =>
    obtain ⟨hb, hrest⟩ := List.nodup_cons.1 hbs
    have hfirst : Named c closed scope [b] [(bindName b p).1] p (bindName b p).2 :=
      named_bindName hready (hscope b (List.mem_cons_self ..)) (hname b (List.mem_cons_self ..))
    have hothers := ih hfirst.ready hrest (fun b' hb' => ?_)
      fun b' hb' => hname b' (List.mem_cons_of_mem _ hb')
    · exact hfirst.append hothers
    · simp only [List.mem_append, List.mem_singleton, not_or]
      exact ⟨fun heq => hb (heq ▸ hb'), hscope b' (List.mem_cons_of_mem _ hb')⟩

/-- `bindParams` names the parameters, and binds each to its slot. -/
theorem bindParams_eq {slots : List String} (h : bs.length ≤ slots.length) (p : Progress) :
    bindParams bs slots p = (((bindNames bs p).1.zip slots).map fun q => .const q.1 (.ident q.2),
      (bindNames bs p).2) := by
  induction bs generalizing slots p with
  | nil => rfl
  | cons b rest ih =>
    cases slots with
    | nil => simp at h
    | cons slot slots =>
      have hrest := ih (by simpa using h) (bindName b p).2
      have hbind : bindParams (b :: rest) (slot :: slots) p =
          (.const (bindName b p).1 (.ident slot) :: (bindParams rest slots (bindName b p).2).1,
            (bindParams rest slots (bindName b p).2).2) := rfl
      rw [hbind, hrest]
      rfl

end Lower

end TailLoop
