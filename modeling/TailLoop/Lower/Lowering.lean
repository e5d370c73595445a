import TailLoop.Journal
import TailLoop.Lower.Env
import TailLoop.Script.Basic

/-!
# Lowering steps

Lowering threads an environment through all its steps and keeps a journal. A call that should become
a jump but has the wrong number of arguments is remembered; it makes the whole result worthless.
-/

namespace TailLoop.Lower

/-- A call inside a loop that refers to a member of the loop with the wrong number of arguments. -/
structure ArityClash where
  /-- The member. -/
  ref : Ref
  /-- The number of arguments of the call. -/
  given : Nat
  /-- The number of parameters of the member. -/
  expected : Nat
  deriving DecidableEq

/-- The wording of a clash. -/
def ArityClash.message (c : ArityClash) : String :=
  "jump to " ++ c.ref.text ++ " with " ++ Decimal.digitsText c.given ++ " arguments, loop expects "
    ++ Decimal.digitsText c.expected

/-- What lowering carries along. -/
structure Progress where
  /-- Names and loops. -/
  env : Env
  /-- The journal, latest report first. -/
  reports : List Report
  /-- The first clash, if there was one. -/
  clash : Option ArityClash

/-- A lowering step that gives an `α`. -/
abbrev Lowering (α : Type) := StateM Progress α

namespace Lowering

/-- Writes a report into the journal. -/
def report (detail : Detail) (message : String) : Lowering Unit :=
  modify fun p => { p with reports := ⟨detail, .lowering, message⟩ :: p.reports }

/-- Remembers a clash, unless there was one before. -/
def clash (c : ArityClash) : Lowering Unit :=
  modify fun p => { p with clash := some (p.clash.getD c) }

/-- Takes a fresh name. -/
def freshName (base : String) : Lowering String :=
  modifyGet fun p =>
    let (name, env) := p.env.fresh base
    (name, { p with env := env })

/-- Takes a fresh name for each of several bases. -/
def freshNames : List String → Lowering (List String)
  | [] => pure []
  | base :: rest => do
    let name ← freshName base
    let names ← freshNames rest
    return name :: names

/-- Names a binder. -/
def bindName (b : Binder) : Lowering String :=
  modifyGet fun p =>
    let (name, env) := p.env.bind b
    (name, { p with env := env })

/-- Names several binders. -/
def bindNames : List Binder → Lowering (List String)
  | [] => pure []
  | b :: rest => do
    let name ← bindName b
    let names ← bindNames rest
    return name :: names

/-- The name of a binder. -/
def nameOf (b : Binder) : Lowering String := do return (← get).env.lookup b

/-- The loop member that a reference means, if it means one. -/
def jumpTo? (r : Ref) : Lowering (Option Jump) := do return (← get).env.findJump? r

/-- Runs a step inside a loop. -/
def inLoop {α : Type} (s : LoopScope) (step : Lowering α) : Lowering α := do
  let depth := (← get).env.depth
  report .trace ("enter loop " ++ s.label)
  modify fun p => { p with env := p.env.push s }
  let a ← step
  modify fun p => { p with env := p.env.truncate depth }
  return a

/-- Runs steps one after the other. -/
def all {α : Type} : List (Lowering α) → Lowering (List α)
  | [] => pure []
  | step :: rest => do
    let a ← step
    let as ← all rest
    return a :: as

end Lowering

/-- The result of lowering with its journal. -/
structure Outcome (α : Type) where
  /-- The result. -/
  result : α
  /-- The journal, in order. -/
  reports : List Report
  /-- The first clash, if there was one. -/
  clash : Option ArityClash

/-- Runs a step in an environment. -/
def Lowering.runIn {α : Type} (step : Lowering α) (env : Env) : Outcome α :=
  let (a, p) := step.run ⟨env, [], none⟩
  ⟨a, p.reports.reverse, p.clash⟩

end TailLoop.Lower
