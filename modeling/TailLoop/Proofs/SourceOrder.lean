import TailLoop.Proofs.Statements
import TailLoop.Proofs.TrailLowering

/-!
# Nothing is lost and nothing is written twice

The lowering writes a throw for each failure of a unit and, where loops are written, a loop for each
group that is to be one, all in the order of the source. These are the trails of units and scripts
whose marks are failures and loops. The functions of loops need no marks of their own, so nothing
comes between them.

* `Term.marks`: the marks that a term leaves in a script.
* `Lower.marks_module`: the declarations of a unit have the marks of its groups.
* `lower_sourceOrder`: failures and loops of a unit and of its script.
-/

namespace TailLoop.Term

open Script

/-- The message of a `fail`. -/
def failure? {α : Type} : Term α → Option String
  | .fail _ message => some message
  | _ => none

/-- The messages of the failures in `t`, in the order of its `subterms`. -/
def failures {α : Type} (t : Term α) : List String := t.subterms.filterMap failure?

/-- The `failures` of `t` are its own `failure?` and those of its `children`. -/
theorem failures_eq {α : Type} (t : Term α) :
    t.failures = t.failure?.toList ++ t.children.flatMap failures := by
  rw [failures, subterms_eq, List.filterMap_cons, List.filterMap_flatMap]
  cases t.failure? <;> rfl

/-- `analyze` keeps all `failures`. -/
theorem failures_analyze (c : Candidates) (t : Expr) : (analyze c t).failures = t.failures := by
  refine flatMap_analyze (fun t => t.failure?.toList) (fun _ => []) (fun t => ?_)
    (fun c t => ?_) c t
  · rw [failures_eq, List.append_nil]
  -- the analysis changes notes only, so a node stays what it is
  · have hroot : (analyze c t).failure? = t.failure? := by
      cases t <;> simp [analyze, failure?]
    rw [failures_eq, hroot, List.append_nil]

/-- Whether the term is a `letRec` that is flagged as a loop. -/
def isLoopGroup : Analyzed → Bool
  | .letRec a .. => a.isLoop
  | _ => false

/-- The mark of a node; groups are loops only where there are `loops`. -/
def mark? (loops : Bool) : Analyzed → Option Mark
  | .fail _ message => some (.thrown (.new (.ident "Error") [.text message]))
  | .letRec a .. => if a.isLoop && loops then some .loop else none
  | _ => none

/-- The `mark?` of all `subterms` of `t`. -/
def marks (loops : Bool) (t : Analyzed) : List Mark := t.subterms.filterMap (mark? loops)

/-- The `marks` of `t` are its own `mark?` and those of its `children`. -/
theorem marks_eq (loops : Bool) (t : Analyzed) :
    t.marks loops = (t.mark? loops).toList ++ t.children.flatMap (marks loops) := by
  rw [marks, subterms_eq, List.filterMap_cons, List.filterMap_flatMap]
  cases t.mark? loops <;> rfl

/-- The `marks` of terms are their trails. -/
theorem trails_marks (loops : Bool) : Trails (marking loops) loops (marks loops) := by
  intro t
  have hbefore : t.markBefore? (marking loops) loops = t.mark? loops := by
    cases t <;> rfl
  have hafter : t.markAfter? (marking loops) = none := by
    cases t with
    | lit _ value => cases value <;> rfl
    | access _ _ accessor => cases accessor <;> rfl
    | test _ _ guard => cases guard <;> rfl
    | _ => rfl
  rw [marks_eq, hbefore, hafter, Option.toList_none, List.append_nil]

end TailLoop.Term

namespace TailLoop

open Script Term

/-- The marks of a group: that of its loop, if it is one and there are `loops`, and those of its
bindings. -/
def AnalyzedGroup.marks (loops : Bool) (g : AnalyzedGroup) : List Mark :=
  (if g.isLoop && loops then [.loop] else []) ++
    (g.bindings.map Prod.snd).flatMap (Term.marks loops)

/-- The declarations of `module` have the marks of the groups of `u`. -/
theorem Lower.marks_module (u : CompilationUnit) (loops : Bool) :
    marksIn loops (Lower.module u loops).result.declarations =
      u.analyze.flatMap (AnalyzedGroup.marks loops) := by
  -- where there are loops, neither integers nor the starts of rounds have marks
  have hextra (x : Mark) : ¬Lower.LoopMark (marking loops) loops u.IsMemberNumber x := by
    rintro ⟨rfl, hagain | ⟨j, -, hint⟩⟩
    · cases hagain
    · cases hint
  have htrail := (Lower.padded_module (trails_marks loops) u).eq_of_forall_not hextra
  rw [marksIn, filterMap_statementsIn, ← htrail]
  rfl

/-- The values thrown by the `marks` of `t` are the errors with its `failures` as messages. -/
theorem Term.thrown_marks (loops : Bool) (t : Analyzed) :
    (t.marks loops).filterMap Mark.thrown? =
      t.failures.map fun message => .new (.ident "Error") [.text message] := by
  rw [Term.marks, failures, List.filterMap_filterMap, List.map_filterMap]
  congr 1
  funext s
  cases s with
  | letRec a => simp only [mark?]; split <;> rfl
  | _ => rfl

/-- The loops among the `marks` of `t` are the subterms that are an `isLoopGroup`. -/
theorem Term.loops_marks (loops : Bool) (t : Analyzed) :
    (t.marks loops).countP Mark.isLoop = if loops then t.subterms.countP isLoopGroup else 0 := by
  rw [Term.marks, List.countP_filterMap]
  cases loops with
  | true =>
    refine List.countP_congr fun s _ => ?_
    cases s with
    | letRec a => cases h : a.isLoop <;> simp [mark?, isLoopGroup, h, Mark.isLoop]
    | _ => simp [mark?, isLoopGroup, Mark.isLoop]
  | false =>
    refine List.countP_eq_zero.2 fun s _ => ?_
    cases s <;> simp [mark?, Mark.isLoop]

/-- No mark of `t` is an `again`. -/
theorem Term.rounds_marks (loops : Bool) (t : Analyzed) :
    (t.marks loops).countP Mark.isAgain = 0 := by
  rw [Term.marks, List.countP_filterMap]
  refine List.countP_eq_zero.2 fun s _ => ?_
  cases s with
  | letRec a => simp only [mark?]; split <;> simp [Mark.isAgain]
  | _ => simp [mark?, Mark.isAgain]

/-- The terms of `g`, with all their parts. -/
def AnalyzedGroup.subterms (g : AnalyzedGroup) : List Analyzed :=
  (g.bindings.map Prod.snd).flatMap Term.subterms

/-- The number of groups of `u` that are flagged as loops: top-level groups and groups in terms. -/
def CompilationUnit.loopGroups (u : CompilationUnit) : Nat :=
  u.analyze.countP AnalyzedGroup.isLoop +
    (u.analyze.flatMap AnalyzedGroup.subterms).countP isLoopGroup

/-- The values thrown by the `marks` of `g.analyze m` are the errors with its failures as
messages. -/
theorem AnalyzedGroup.thrown_marks (loops : Bool) (m : String) (g : BindingGroup) :
    ((g.analyze m).marks loops).filterMap Mark.thrown? =
      (g.bindings.flatMap fun b => b.2.failures).map
        fun message => .new (.ident "Error") [.text message] := by
  have hloop : (if (g.analyze m).isLoop && loops then [Mark.loop] else []).filterMap
      Mark.thrown? = [] := by split <;> rfl
  rw [marks, List.filterMap_append, hloop, List.nil_append, List.filterMap_flatMap]
  simp only [BindingGroup.analyze, analyzeFields_eq_map, List.map_map, List.flatMap_map,
    Function.comp_def, Term.thrown_marks, failures_analyze, List.map_flatMap]

/-- The loops among the `marks` of `gs` are those groups, and those in their terms, that are
flagged. -/
theorem AnalyzedGroup.loops_marks (gs : List AnalyzedGroup) :
    (gs.flatMap (marks true)).countP Mark.isLoop =
      gs.countP isLoop + (gs.flatMap AnalyzedGroup.subterms).countP isLoopGroup := by
  have hterms (ts : List Analyzed) : (ts.flatMap (Term.marks true)).countP Mark.isLoop =
      (ts.flatMap Term.subterms).countP isLoopGroup := by
    simp only [List.countP_flatMap, Function.comp_def, Term.loops_marks, if_true]
  induction gs with
  | nil => rfl
  | cons g rest ih =>
    rw [List.flatMap_cons, List.countP_append, ih, List.flatMap_cons, List.countP_append,
      List.countP_cons, marks, List.countP_append, hterms, subterms, Bool.and_true]
    cases g.isLoop <;> simp [Mark.isLoop] <;> omega

/-- Without loops, the `marks` of `gs` contain neither loops nor `again`. -/
theorem AnalyzedGroup.marks_false (gs : List AnalyzedGroup) :
    (gs.flatMap (marks false)).countP Mark.isLoop = 0 ∧
      (gs.flatMap (marks false)).countP Mark.isAgain = 0 := by
  have hmarks (g : AnalyzedGroup) :
      g.marks false = (g.bindings.map Prod.snd).flatMap (Term.marks false) := by
    rw [marks, Bool.and_false, if_neg (by simp), List.nil_append]
  simp only [hmarks, List.countP_eq_zero, List.mem_flatMap]
  refine ⟨?_, ?_⟩ <;> rintro x ⟨g, -, t, -, hx⟩
  · exact List.countP_eq_zero.1 (Term.loops_marks false t) x hx
  · exact List.countP_eq_zero.1 (Term.rounds_marks false t) x hx

/-- Nothing is lost and nothing is written twice. The values that the statements of a script throw
are the errors with the messages of the unit's failures, one for each and in the order of the
source. Where loops are written, there are as many as groups that are to be loops; else there are no
loops, and no next round is started. -/
theorem lower_sourceOrder (u : CompilationUnit) :
    (∀ loops, (statementsIn (Lower.module u loops).result.declarations).filterMap Stmt.thrown? =
      (u.bindings.flatMap fun b => b.2.failures).map
        fun message => .new (.ident "Error") [.text message]) ∧
      (statementsIn (Lower.module u true).result.declarations).countP Stmt.isLoop =
        u.loopGroups ∧
      (statementsIn (Lower.module u false).result.declarations).countP Stmt.isLoop = 0 ∧
      (statementsIn (Lower.module u false).result.declarations).countP Stmt.isAgain = 0 := by
  refine ⟨fun loops => ?_, ?_, ?_, ?_⟩
  · rw [filterMap_thrown?_statementsIn loops, Lower.marks_module, CompilationUnit.analyze,
      CompilationUnit.bindings, List.filterMap_flatMap, List.flatMap_map, List.flatMap_assoc,
      List.map_flatMap]
    exact List.flatMap_congr fun g _ => AnalyzedGroup.thrown_marks loops u.name g
  · rw [countP_isLoop_statementsIn true, Lower.marks_module, AnalyzedGroup.loops_marks]
    rfl
  · rw [countP_isLoop_statementsIn false, Lower.marks_module, (AnalyzedGroup.marks_false _).1]
  · rw [countP_isAgain_statementsIn, Lower.marks_module, (AnalyzedGroup.marks_false _).2]

end TailLoop
