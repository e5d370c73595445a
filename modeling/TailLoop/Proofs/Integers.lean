import TailLoop.Proofs.IntegerPieces
import TailLoop.Proofs.TrailLowering

/-!
# Integers of units in their scripts

Literals and tested values are signed integers of 64 bits, positions in arrays and lengths of arrays
are unsigned ones. All of them become signed integers of a script, so a position or a length from
`2 ^ 63` on comes out as another, negative integer. That is all that can go wrong: the text of the
script has the integers of the unit, so taken, in the order of the source and each of them once.
The functions of loops add the numbers of their members, and nothing else.

* `SourceInteger`: integers of terms, with what they stand for and what is written for them.
* `Term.integers`: the integers of a term.
* `printed_integers`: the integers in the text of a unit's script.
* `printed_integers_iff`: they are those of the unit just if all of these are less than `2 ^ 63`.
-/

namespace TailLoop

open Script

/-! ## Integers of both kinds -/

/-- An integer of a term: `signed` in literals, an unsigned `word` where it is a position or a
length. -/
inductive SourceInteger where
  /-- A literal or a tested value. -/
  | signed (i : Int64)
  /-- A position in an array, or its length. -/
  | word (n : UInt64)
  deriving DecidableEq

namespace SourceInteger

/-- What the integer stands for. -/
def value : SourceInteger → Int
  | signed i => i.toInt
  | word n => n.toNat

/-- What is written for it: the bits of a `word` are taken as those of a signed integer. -/
def written : SourceInteger → Int64
  | signed i => i
  | word n => n.toInt64

/-- What is written for an integer differs from it by a multiple of `2 ^ 64`. -/
theorem toInt_written (i : SourceInteger) : i.written.toInt = i.value.bmod (2 ^ 64) := by
  cases i with
  | signed i => exact (Int64.toInt_bmod i).symm
  | word n =>
    have hword := Int64.toInt_ofNat' (n := n.toNat)
    rwa [← UInt64.toInt64_ofNat', UInt64.ofNat_toNat] at hword

/-- An integer stays the same just if it is less than `2 ^ 63`. -/
theorem toInt_written_eq_iff (i : SourceInteger) :
    i.written.toInt = i.value ↔ i.value < 2 ^ 63 := by
  constructor
  · intro h
    rw [← h]
    exact Int64.toInt_lt _
  · intro h
    have hlow : -2 ^ 63 ≤ i.value := by
      cases i with
      | signed i => exact Int64.le_toInt i
      | word n => exact le_trans (by norm_num) (Int.natCast_nonneg n.toNat)
    rw [toInt_written]
    exact Int.bmod_eq_of_le (by omega) (by omega)

end SourceInteger

/-! ## Integers of terms and units -/

namespace Term

variable {α : Type}

/-- The integer of a node. -/
def integer? : Term α → Option SourceInteger
  | lit _ (.int i) | test _ _ (.int i) => some (.signed i)
  | access _ _ (.index n) | test _ _ (.length n) => some (.word n)
  | _ => none

/-- The integers of `t` in the order of the source: that of a node stands behind what it is applied
to. -/
def integers (t : Term α) : List SourceInteger :=
  (t.children.attach.flatMap fun s => integers s.1) ++ t.integer?.toList
termination_by sizeOf t
decreasing_by exact sizeOf_lt_of_mem_children s.2

/-- The `integers` of `t` are those of its `children` and then its own. -/
theorem integers_eq (t : Term α) :
    t.integers = t.children.flatMap integers ++ t.integer?.toList := by
  rw [integers, List.flatMap_subtype fun _ _ => rfl, List.unattach_attach]

/-- `analyze` keeps all `integers`. -/
theorem integers_analyze (c : Candidates) (t : Expr) : (analyze c t).integers = t.integers := by
  refine flatMap_analyze (fun _ => []) (fun t => t.integer?.toList) (fun t => ?_)
    (fun c t => ?_) c t
  · rw [integers_eq, List.nil_append]
  · have hroot : (analyze c t).integer? = t.integer? := by
      cases t with
      | lit _ value => cases value <;> rfl
      | access _ _ accessor => cases accessor <;> simp [analyze, integer?]
      | test _ _ guard => cases guard <;> simp [analyze, integer?]
      | _ => simp [analyze, integer?]
    rw [integers_eq, hroot, List.nil_append]

/-- What is `written` for the `integers` of a term is its trail. -/
theorem trails_integers (loops : Bool) :
    Trails integerMarking loops fun t => t.integers.map SourceInteger.written := by
  intro t
  have hbefore : t.markBefore? integerMarking loops = none := by
    cases t with
    | letRec => exact ite_self none
    | _ => rfl
  have hafter : t.markAfter? integerMarking = t.integer?.map SourceInteger.written := by
    cases t with
    | lit _ value => cases value <;> rfl
    | access _ _ accessor => cases accessor <;> rfl
    | test _ _ guard => cases guard <;> rfl
    | _ => rfl
  simp only
  rw [integers_eq, hbefore, hafter, List.map_append, List.map_flatMap, Option.toList_map]
  rfl

end Term

namespace CompilationUnit

/-- The integers of `u` in the order of the source. -/
def integers (u : CompilationUnit) : List SourceInteger := u.bindings.flatMap fun b => b.2.integers

/-- `i` is a number of a member with which the loops of `u` are written, if they are written. -/
def IsLoopInteger (u : CompilationUnit) (loops : Bool) (i : Int) : Prop :=
  loops = true ∧ ∃ j, u.IsMemberNumber j ∧ i = (Int64.ofNat j).toInt

/-- What is `written` for the `integers` of `u` is the trail of its groups. -/
theorem trail_integers (u : CompilationUnit) (loops : Bool) :
    u.analyze.flatMap (AnalyzedGroup.trail integerMarking loops fun t =>
      t.integers.map SourceInteger.written) = u.integers.map SourceInteger.written := by
  have hgroup (g : BindingGroup) :
      (g.analyze u.name).trail integerMarking loops (fun t =>
        t.integers.map SourceInteger.written) =
      (g.bindings.flatMap fun b => b.2.integers).map SourceInteger.written := by
    have hloop : (if (g.analyze u.name).isLoop && loops then integerMarking.loop.toList else []) =
        [] := ite_self []
    rw [AnalyzedGroup.trail, hloop, List.nil_append]
    simp only [BindingGroup.analyze, analyzeFields_eq_map, List.map_map, List.flatMap_map,
      Function.comp_def, Term.integers_analyze, List.map_flatMap]
  rw [analyze, integers, bindings, List.flatMap_map, List.flatMap_assoc, List.map_flatMap]
  exact List.flatMap_congr fun g _ => hgroup g

end CompilationUnit

/-! ## Integers of scripts -/

variable [Letters]

/-- The integers in the text of a unit's script are those of the unit, each taken as a signed
integer of 64 bits, in the order of the source. Where loops are written, numbers of members stand
between them. -/
theorem printed_integers (u : CompilationUnit) (loops : Bool) (width : Nat) :
    Padded (u.IsLoopInteger loops) (u.integers.map fun i => i.value.bmod (2 ^ 64))
      (((Lower.module u loops).result.doc.chunks width).filterMap integer?) := by
  have hextra (i : Int64) (hi : Lower.LoopMark integerMarking loops u.IsMemberNumber i) :
      u.IsLoopInteger loops i.toInt := by
    obtain ⟨hloops, hagain | ⟨j, hj, hint⟩⟩ := hi
    · cases hagain
    · obtain rfl := Option.some.inj hint
      exact ⟨hloops, j, hj, rfl⟩
  have htrail := (Lower.padded_module (Term.trails_integers loops) u).map Int64.toInt hextra
  rw [CompilationUnit.trail_integers, List.map_map] at htrail
  simp only [Function.comp_def, SourceInteger.toInt_written] at htrail
  rwa [integers_module]

/-- The integers in the text of a unit's script are just those of the unit, and the numbers of
members, if and only if all integers of the unit are less than `2 ^ 63`. -/
theorem printed_integers_iff (u : CompilationUnit) (loops : Bool) (width : Nat) :
    Padded (u.IsLoopInteger loops) (u.integers.map SourceInteger.value)
        (((Lower.module u loops).result.doc.chunks width).filterMap integer?) ↔
      ∀ i ∈ u.integers, i.value < 2 ^ 63 := by
  constructor
  · -- whatever is written is a signed integer
    intro h i hi
    have hprinted := h.sublist.subset (List.mem_map_of_mem hi)
    rw [integers_module] at hprinted
    obtain ⟨j, -, hj⟩ := List.mem_map.1 hprinted
    exact hj ▸ Int64.toInt_lt j
  · intro h
    have hvalues : (u.integers.map fun i => i.value.bmod (2 ^ 64)) =
        u.integers.map SourceInteger.value := by
      refine List.map_congr_left fun i hi => ?_
      rw [← i.toInt_written]
      exact i.toInt_written_eq_iff.2 (h i hi)
    exact hvalues ▸ printed_integers u loops width

/-- Without loops, nothing stands between the integers of a unit. -/
theorem printed_integers_without_loops (u : CompilationUnit) (width : Nat) :
    (((Lower.module u false).result.doc.chunks width).filterMap integer?) =
      u.integers.map fun i => i.value.bmod (2 ^ 64) :=
  ((printed_integers u false width).eq_of_forall_not fun _ h => by cases h.1).symm

/-- A unit with a function that reads the element at `2 ^ 63`, which is no signed integer. -/
def farIndexUnit : CompilationUnit :=
  { CompilationUnit.empty "Main" with
    groups := [⟨false, [("f", .abs () .curried [⟨some "x", 0⟩]
      (.access () (.bound () ⟨some "x", 0⟩) (.index 9223372036854775808)))]⟩] }

/-- The position comes out with the other sign. -/
theorem index_negative_farIndexUnit (width : Nat) :
    farIndexUnit.integers.map SourceInteger.value = [9223372036854775808] ∧
      ((Lower.module farIndexUnit false).result.doc.chunks width).filterMap integer? =
        [-9223372036854775808] := by
  have hintegers : farIndexUnit.integers = [.word 9223372036854775808] := by
    simp only [farIndexUnit, CompilationUnit.integers, CompilationUnit.bindings, Term.integers_eq,
      Term.children, Term.integer?, List.flatMap_cons, List.flatMap_nil, List.nil_append,
      List.append_nil, Option.toList_none, Option.toList_some]
  rw [printed_integers_without_loops, hintegers]
  exact ⟨by decide, by decide⟩

end TailLoop
