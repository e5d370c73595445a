import TailLoop.Calls.Analyze

/-!
# Journals

What the analysis and the lowering report while they work. The reports of the analysis can be read
off the analysed terms.
-/

namespace TailLoop

/-- How much detail a report gives. -/
inductive Detail where
  | debug
  | trace
  deriving DecidableEq

/-- Who reports. -/
inductive Stage where
  | analysis
  | lowering
  deriving DecidableEq

/-- A report. -/
structure Report where
  /-- How much detail it gives. -/
  detail : Detail
  /-- Who reports. -/
  stage : Stage
  /-- The report itself. -/
  message : String
  deriving DecidableEq

/-- The report on a decision, if there is one. -/
def Verdict.reports (members : List Ref) : Verdict → List Report
  | .noMembers => []
  | .notFunction r => [⟨.trace, .analysis, r.text ++ " is not a lambda"⟩]
  | .notUniform r reason =>
    [⟨.debug, .analysis, r.text ++ " does not loop: " ++ reason.message⟩]
  | .loop => [⟨.debug, .analysis, "loop group: " ++ ", ".intercalate (members.map Ref.text)⟩]

/-- The report on a binder that is always called in tail position with all its arguments. -/
def joinReports (r : Ref) (value body : Analyzed) : List Report :=
  if body.note.isUniform r value.arity then [⟨.trace, .analysis, r.text ++ " is a join point"⟩]
  else []

mutual

/-- The reports on a term: those on its parts in order, then that on the node. -/
def Term.reports : Analyzed → List Report
  | .global .. | .bound .. | .lit .. | .constructor .. | .undefined .. | .fail .. => []
  | .array _ items => reportsList items
  | .record _ fields => reportsFields fields
  | .app _ _ head args => head.reports ++ reportsList args
  | .abs _ _ _ body => body.reports
  | .access _ subject _ => subject.reports
  | .update _ subject fields => subject.reports ++ reportsFields fields
  | .construct _ _ _ fields => reportsFields fields
  | .letIn _ b value body =>
    value.reports ++ (body.reports ++ joinReports (.bound b) value body)
  | .letRec _ level bindings body =>
    let members := groupRefs level bindings
    reportsFields bindings ++
      (body.reports ++ (verdict members (bindings.map Prod.snd)).reports members)
  | .bindEffect _ _ effect body => effect.reports ++ body.reports
  | .pureEffect _ value => value.reports
  | .deferEffect _ effect => effect.reports
  | .branch _ arms default => reportsArms arms ++ default.reports
  | .test _ subject _ => subject.reports
  | .unary _ _ operand => operand.reports
  | .binary _ _ left right => left.reports ++ right.reports

/-- The reports on terms, in order. -/
def reportsList : List Analyzed → List Report
  | [] => []
  | t :: rest => t.reports ++ reportsList rest

/-- The reports on named terms, in order. -/
def reportsFields : List (String × Analyzed) → List Report
  | [] => []
  | (_, t) :: rest => t.reports ++ reportsFields rest

/-- The reports on the arms of a branch, in order. -/
def reportsArms : List (Analyzed × Analyzed) → List Report
  | [] => []
  | (cond, body) :: rest => cond.reports ++ (body.reports ++ reportsArms rest)

end

/-- The reports on a group of top-level bindings. -/
def AnalyzedGroup.reports (module : String) (g : AnalyzedGroup) : List Report :=
  reportsFields g.bindings ++ g.verdict.reports (topRefs module g.bindings)

end TailLoop
