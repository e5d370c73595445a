import TailLoop.Calls.Analysis
import TailLoop.CompilationUnit

/-!
# Call analysis

Every node of a term gets the summary of the calls below it. Only candidates are counted: the
members of the group whose shape is being decided and the binders around a node. Tail calls survive
through the bodies of branches and bindings, and through the body of a recursive group that is a
loop itself.

* `analyze`: a term with its summaries.
* `verdict`: whether a recursive group is a loop, or why it is not.
-/

namespace TailLoop

/-- A term with a call summary at every node. -/
abbrev Analyzed := Term Analysis

/-- The references that are counted, and the module to which unqualified names belong. -/
structure Candidates where
  /-- The module at hand, if there is one. -/
  module : Option String
  /-- The references that are counted. -/
  refs : List Ref

namespace Candidates

/-- Counts some more references. -/
def extend (c : Candidates) (rs : List Ref) : Candidates := { c with refs := rs ++ c.refs }

/-- What a term refers to, as seen in the module at hand. -/
def ref? {α : Type} (c : Candidates) (t : Term α) : Option Ref :=
  t.ref?.map fun r =>
    match c.module with
    | some m => r.within m
    | none => r

/-- The summary of one occurrence with so many arguments. -/
def occurrence (c : Candidates) (r : Ref) (arity : Nat) : Analysis :=
  if r ∈ c.refs then .call r arity else .empty

end Candidates

/-- The body of a curried function. -/
def Term.body? {α : Type} : Term α → Option (Term α)
  | .abs _ .curried _ body => some body
  | _ => none

/-! ## Which groups are loops -/

/-- The decision on a recursive group. -/
inductive Verdict where
  /-- There is nothing to decide. -/
  | noMembers
  /-- A member is not a curried function. -/
  | notFunction (member : Ref)
  /-- A member is not always called in tail position with all its arguments. -/
  | notUniform (member : Ref) (reason : NotUniform)
  | loop
  deriving DecidableEq

/-- Whether the group is a loop. -/
def Verdict.isLoop : Verdict → Bool
  | .loop => true
  | _ => false

/-- The calls in the bodies of the members of a group. -/
def bodiesAnalysis (bindings : List Analyzed) : Analysis :=
  (bindings.filterMap Term.body?).foldl (fun a body => a.append body.note) .empty

/-- Decides whether a group is a loop: every binding is a curried function, and in the bodies
together every member is always called in tail position with all its arguments. The first member
that is not as it should be is named. -/
def verdict (members : List Ref) (bindings : List Analyzed) : Verdict :=
  let pairs := members.zip bindings
  if members.isEmpty then .noMembers
  else
    match pairs.find? fun p => p.2.body?.isNone with
    | some p => .notFunction p.1
    | none =>
      let all := bodiesAnalysis bindings
      let reason? (p : Ref × Analyzed) : Option Verdict :=
        match all.checkUniform p.1 p.2.arity with
        | .error reason => some (.notUniform p.1 reason)
        | .ok () => none
      (pairs.findSome? reason?).getD .loop

/-! ## Summaries of nodes -/

/-- Adds summaries none of which is in tail position. -/
def Analysis.appendAllCalls (a : Analysis) (ts : List Analyzed) : Analysis :=
  ts.foldl (fun a t => a.appendCalls t.note) a

/-- The summary of the arms of a branch: conditions are not in tail position, bodies are. -/
def armsAnalysis (arms : List (Analyzed × Analyzed)) : Analysis :=
  arms.foldl (fun a arm => (a.appendCalls arm.1.note).append arm.2.note) .empty

/-- The summary of a binding: if the binder is always called in tail position with all its
arguments, what it is bound to stays in tail position as well. -/
def letAnalysis (r : Ref) (value body : Analyzed) : Analysis :=
  let before :=
    if body.note.isUniform r value.arity then Analysis.empty.append value.note
    else Analysis.empty.appendCalls value.note
  (before.append body.note).drop r

/-- The members of a recursive group of bindings. -/
def groupRefs {α : Type} (level : UInt32) (bindings : List (String × α)) : List Ref :=
  bindings.map fun b => .bound ⟨some b.1, level⟩

/-- The summary of a recursive group of bindings. -/
def letRecAnalysis (members : List Ref) (bindings : List Analyzed) (body : Analyzed) : Analysis :=
  let all := ((Analysis.empty.appendAllCalls bindings).append body.note).dropAll members
  let isLoop := (verdict members bindings).isLoop
  { (if isLoop then all else all.noTailCalls) with isLoop := isLoop }

/-! ## Terms -/

mutual

/-- A term with the summary of calls at every node. -/
def analyze (c : Candidates) : Expr → Analyzed
  | .global _ name =>
    let r? := c.ref? (.global () name)
    .global (r?.elim .empty fun r => c.occurrence r 0) name
  | .bound _ b =>
    let r? := c.ref? (.bound () b)
    .bound (r?.elim .empty fun r => c.occurrence r 0) b
  | .lit _ value => .lit .empty value
  | .array _ items =>
    let items := analyzeList c items
    .array (Analysis.empty.appendAllCalls items) items
  | .record _ fields =>
    let fields := analyzeFields c fields
    .record (Analysis.empty.appendAllCalls (fields.map Prod.snd)) fields
  | .app _ calling head args =>
    let head' := analyze c head
    let args' := analyzeList c args
    let start :=
      match calling, c.ref? head with
      -- the head counts as a call here, not as an occurrence without arguments
      | .curried, some r => c.occurrence r args.length
      | _, _ => Analysis.empty.appendCalls head'.note
    .app (start.appendAllCalls args') calling head' args'
  | .abs _ calling params body =>
    let body := analyze c body
    .abs (Analysis.empty.appendCalls body.note) calling params body
  | .access _ subject accessor =>
    let subject := analyze c subject
    .access (Analysis.empty.appendCalls subject.note) subject accessor
  | .update _ subject fields =>
    let subject := analyze c subject
    let fields := analyzeFields c fields
    .update ((Analysis.empty.appendCalls subject.note).appendAllCalls (fields.map Prod.snd))
      subject fields
  | .construct _ type tag fields =>
    let fields := analyzeFields c fields
    .construct (Analysis.empty.appendAllCalls (fields.map Prod.snd)) type tag fields
  | .constructor _ tag fields => .constructor .empty tag fields
  | .letIn _ b value body =>
    let r := Ref.bound b
    let value := analyze c value
    let body := analyze (c.extend [r]) body
    .letIn (letAnalysis r value body) b value body
  | .letRec _ level bindings body =>
    let members := groupRefs level bindings
    let bindings := analyzeFields (c.extend members) bindings
    let body := analyze (c.extend members) body
    .letRec (letRecAnalysis members (bindings.map Prod.snd) body) level bindings body
  | .bindEffect _ b effect body =>
    let effect := analyze c effect
    let body := analyze c body
    .bindEffect ((Analysis.empty.appendCalls effect.note).appendCalls body.note) b effect body
  | .pureEffect _ value =>
    let value := analyze c value
    .pureEffect (Analysis.empty.appendCalls value.note) value
  | .deferEffect _ effect =>
    let effect := analyze c effect
    .deferEffect (Analysis.empty.appendCalls effect.note) effect
  | .branch _ arms default =>
    let arms := analyzeArms c arms
    let default := analyze c default
    .branch ((armsAnalysis arms).append default.note) arms default
  | .test _ subject guard =>
    let subject := analyze c subject
    .test (Analysis.empty.appendCalls subject.note) subject guard
  | .unary _ op operand =>
    let operand := analyze c operand
    .unary (Analysis.empty.appendCalls operand.note) op operand
  | .binary _ op left right =>
    let left := analyze c left
    let right := analyze c right
    .binary ((Analysis.empty.appendCalls left.note).appendCalls right.note) op left right
  | .undefined _ => .undefined .empty
  | .fail _ message => .fail .empty message

/-- Terms with summaries. -/
def analyzeList (c : Candidates) : List Expr → List Analyzed
  | [] => []
  | t :: rest => analyze c t :: analyzeList c rest

/-- Named terms with summaries. -/
def analyzeFields (c : Candidates) : List (String × Expr) → List (String × Analyzed)
  | [] => []
  | (name, t) :: rest => (name, analyze c t) :: analyzeFields c rest

/-- The arms of a branch with summaries. -/
def analyzeArms (c : Candidates) : List (Expr × Expr) → List (Analyzed × Analyzed)
  | [] => []
  | (cond, body) :: rest => (analyze c cond, analyze c body) :: analyzeArms c rest

end

/-! ## Units -/

/-- A group of top-level bindings after analysis. -/
structure AnalyzedGroup where
  /-- Whether the members refer to each other. -/
  recursive : Bool
  /-- The bindings with their summaries. -/
  bindings : List (String × Analyzed)
  /-- The decision on the group; one that is not recursive is never a loop. -/
  verdict : Verdict

/-- Whether the group is lowered to a loop. -/
def AnalyzedGroup.isLoop (g : AnalyzedGroup) : Bool := g.verdict.isLoop

/-- The members of a top-level group. -/
def topRefs {α : Type} (module : String) (bindings : List (String × α)) : List Ref :=
  bindings.map fun b => .global ⟨some module, b.1⟩

/-- Analyses a group of top-level bindings. -/
def BindingGroup.analyze (module : String) (g : BindingGroup) : AnalyzedGroup :=
  let members := topRefs module g.bindings
  let bindings := analyzeFields ⟨some module, if g.recursive then members else []⟩ g.bindings
  ⟨g.recursive, bindings,
    if g.recursive then TailLoop.verdict members (bindings.map Prod.snd) else .noMembers⟩

/-- Analyses all groups of a unit. -/
def CompilationUnit.analyze (u : CompilationUnit) : List AnalyzedGroup :=
  u.groups.map (BindingGroup.analyze u.name)

end TailLoop
