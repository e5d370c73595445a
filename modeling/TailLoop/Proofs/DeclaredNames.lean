import TailLoop.Proofs.RuleLowering

/-!
# Names that a script declares

Every name that a script declares, at module scope or in a function, comes from the unit: it is the
name of a binding, of a binder or of a field of a constructor, it has a dollar sign, or it is the
name of a binder that has none of its own. So a name outside of the script, such as the `Error` that
failures raise, means what it means outside, unless the unit gives that name to something.

* `declared_from_unit`: where the names of a script come from.
* `escapeIdent_ne_error`: nothing is written as `Error` in the script of a unit without that name.
-/

namespace TailLoop

/-- The names that `u` gives to its bindings, to binders and to the fields of constructors. -/
def CompilationUnit.givenNames (u : CompilationUnit) : List String :=
  u.bindings.map Prod.fst ++ u.bindings.flatMap fun b => b.2.subterms.flatMap Term.givenNames

namespace Script

/-- The rule that only `names` are declared. -/
def nameRule (names : String → Prop) : Rule where
  name := names
  leader _ := True
  subject _ := True

/-- The rule `R` allows the names that a block declares which obeys it. -/
theorem name_of_mem_namesDeclaredIn {R : Rule} {block : List Stmt} (h : BlockObeys R block)
    {x : String} (hx : x ∈ namesDeclaredIn block) : R.name x := by
  obtain ⟨n, hn, hdeclares⟩ := List.mem_flatMap.1 hx
  have hallows := blockObeys_iff.1 h n hn
  unfold Rule.Allows at hallows
  -- what stands first or has properties declares no names
  split at hallows
  · cases hdeclares
  · cases hdeclares
  · cases hdeclares
  · cases hdeclares
  · cases hdeclares
  · exact hallows x hdeclares

end Script

namespace Lower

open Script

/-- `x` is a name that `u` gives, or one that the lowering makes: names for fresh variables have a
dollar sign, and binders without a name get one with their level. -/
def IsGivenOrMade (u : CompilationUnit) (x : String) : Prop :=
  x ∈ u.givenNames ∨ '$' ∈ x.toList ∨ isUnnamed x = true

/-- The rule that names are `IsGivenOrMade` allows what the lowering makes. -/
theorem admits_nameRule (u : CompilationUnit) : Admits (nameRule (IsGivenOrMade u)) where
  dollar _ h := Or.inr (.inl h)
  unnamed level := Or.inr (.inr (isUnnamed_unnamed level))
  leader _ _ := trivial
  subject _ _ := trivial

/-- The names that `module` declares are `IsGivenOrMade`. -/
theorem declared_from_unit (u : CompilationUnit) (loops : Bool) {x : String}
    (hx : x ∈ namesDeclaredIn (Lower.module u loops).result.declarations) : IsGivenOrMade u x := by
  refine name_of_mem_namesDeclaredIn (obeys_module (admits_nameRule u) u loops (fun b hb => ?_)
    fun b hb s hs => ⟨fun y hy => ?_, fun _ _ _ => trivial, fun _ _ _ => trivial⟩) hx
  · exact Or.inl (List.mem_append_left _ (List.mem_map_of_mem hb))
  · have hgiven : y ∈ s.erase.givenNames := by rwa [Term.erase, Term.givenNames_map]
    refine Or.inl (List.mem_append_right _ (List.mem_flatMap.2 ⟨b, hb, ?_⟩))
    exact List.mem_flatMap.2 ⟨s.erase, hs, hgiven⟩

/-- A `moduleAlias` without a dollar sign is the name itself, since one stands for each dot. -/
theorem moduleAlias_of_dollar_notMem {m : String} (h : '$' ∉ (moduleAlias m).toList) :
    moduleAlias m = m := by
  rw [moduleAlias, String.toList_ofList] at h
  have hchars (c : Char) (hc : c ∈ m.toList) : (if c = '.' then ['$', 'd'] else [c]) = [c] :=
    if_neg fun hdot => h (List.mem_flatMap.2 ⟨c, hc, by simp [hdot]⟩)
  rw [moduleAlias, List.flatMap_def, List.map_congr_left hchars, ← List.flatMap_def]
  simp

/-- All names in the module of `u`, at module scope and in functions. -/
def scriptNames (u : CompilationUnit) (loops : Bool) : List String :=
  (importList u).map Import.name ++ namesDeclaredIn (Lower.module u loops).result.declarations

/-- A `name` that `u` neither imports nor gives is written nowhere in its module, unless it is of
one of the forms that are made. -/
theorem escapeIdent_ne_of_not_given {u : CompilationUnit} {name : String}
    (hdollar : '$' ∉ name.toList) (hform : isUnnamed name = false)
    (himports : name ∉ u.imports) (hgiven : name ∉ u.givenNames) (loops : Bool) :
    ∀ x ∈ scriptNames u loops, escapeIdent x ≠ name := by
  intro x hx heq
  -- without a dollar sign the name is written as it is
  obtain rfl : x = name := (escapeIdent_of_dollar_notMem (heq.symm ▸ hdollar)).symm.trans heq
  rcases List.mem_append.1 hx with himport | hdeclared
  · obtain ⟨i, hi, rfl⟩ := List.mem_map.1 himport
    rcases List.mem_append.1 hi with hmodule | hforeign
    · obtain ⟨m, hm, rfl⟩ := List.mem_map.1 hmodule
      rw [moduleAlias_of_dollar_notMem hdollar] at himports
      exact himports hm
    · split at hforeign
      · cases hforeign
      · obtain rfl := List.mem_singleton.1 hforeign
        exact hdollar (by decide)
  · rcases declared_from_unit u loops hdeclared with hmem | hmem | hmade
    · exact hgiven hmem
    · exact hdollar hmem
    · exact Bool.false_ne_true (hform.symm.trans hmade)

/-- A failure raises the `Error` from outside if the unit does not use that name itself. -/
theorem escapeIdent_ne_error {u : CompilationUnit} (himports : "Error" ∉ u.imports)
    (hgiven : "Error" ∉ u.givenNames) (loops : Bool) :
    ∀ x ∈ scriptNames u loops, escapeIdent x ≠ "Error" :=
  escapeIdent_ne_of_not_given (by decide) (by decide) himports hgiven loops

/-- A unit with a parameter `Error` around a failure. -/
def errorUnit : CompilationUnit :=
  { CompilationUnit.empty "Main" with
    groups := [⟨false, [("f", .abs () .curried [⟨some "Error", 0⟩] (.fail () "no match"))]⟩] }

/-- The failure in `errorUnit` raises what the parameter stands for. -/
theorem error_captured_errorUnit :
    (Lower.module errorUnit true).result.declarations =
        [.const "f" (.curried ["Error"] [failure "no match"])] ∧
      "Error" ∈ scriptNames errorUnit true ∧ escapeIdent "Error" = "Error" :=
  ⟨rfl, by decide, by decide⟩

end Lower

end TailLoop
