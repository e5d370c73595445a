import TailLoop.Decimal.Style
import TailLoop.Term.Basic

/-!
# References

What a bare variable refers to: a binder inside the term or a top-level name.
-/

namespace TailLoop

/-- What a variable refers to. -/
inductive Ref where
  | bound (binder : Binder)
  | global (name : Qualified)
  deriving DecidableEq

/-- The text of a binder: its name, then its level. -/
def Binder.text (b : Binder) : String := b.name.getD "" ++ "@" ++ Decimal.digitsText b.level.toNat

/-- Whether `a` comes no later than `b`: by level, then by name, those without a name first. -/
def Binder.le (a b : Binder) : Bool :=
  if a.level = b.level then
    match a.name, b.name with
    | none, _ => true
    | some _, none => false
    | some x, some y => decide (x ≤ y)
  else decide (a.level < b.level)

namespace Ref

/-- The text of a reference. -/
def text : Ref → String
  | .bound b => b.text
  | .global q => q.text

/-- The reference as seen in a module, to which top-level names without a module belong. -/
def within (module : String) : Ref → Ref
  | .global ⟨none, ident⟩ => .global ⟨some module, ident⟩
  | r => r

/-- Whether it refers to a binder inside the term. -/
def isBound : Ref → Bool
  | .bound _ => true
  | .global _ => false

end Ref

/-- What a term refers to, if it is a bare variable. -/
def Term.ref? {α : Type} : Term α → Option Ref
  | .bound _ b => some (.bound b)
  | .global _ q => some (.global q)
  | _ => none

end TailLoop
