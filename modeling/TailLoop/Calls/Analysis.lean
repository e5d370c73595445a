import TailLoop.Calls.Ref
import TailLoop.Table

/-!
# Call summaries

An `Analysis` says for a term which references occur in it, how often and with how many arguments,
and how many of these occurrences are tail calls. Summaries of subterms are put together by
`Analysis.append`, which keeps tail calls, and `Analysis.appendCalls`, which drops those of the
second summary because it stands where nothing is in tail position.

No term has so many subterms that a count of its summary would overflow, so both add their counts as
numbers. `Analysis.append?` and `Analysis.appendCalls?` put together summaries of whatever counts,
in machine words.
-/

namespace TailLoop

/-! ## Ascending lists -/

/-- Inserts a number into an ascending list, unless it is there already. -/
def insertAscending (n : Nat) : List Nat → List Nat
  | [] => [n]
  | m :: rest =>
    if n < m then n :: m :: rest
    else if n = m then m :: rest
    else m :: insertAscending n rest

/-- Insertion adds `n` and keeps the other members. -/
theorem mem_insertAscending {n k : Nat} {ns : List Nat} :
    k ∈ insertAscending n ns ↔ k = n ∨ k ∈ ns := by
  induction ns with
  | nil => simp [insertAscending]
  | cons m rest ih =>
    unfold insertAscending
    split
    · simp
    · split
      · subst_vars; simp
      · simp only [List.mem_cons, ih]
        constructor
        · rintro (h | h | h)
          · exact Or.inr (Or.inl h)
          · exact Or.inl h
          · exact Or.inr (Or.inr h)
        · rintro (h | h | h)
          · exact Or.inr (Or.inl h)
          · exact Or.inl h
          · exact Or.inr (Or.inr h)

/-- Insertion keeps a list ascending. -/
theorem pairwise_insertAscending (n : Nat) {ns : List Nat} (h : ns.Pairwise (· < ·)) :
    (insertAscending n ns).Pairwise (· < ·) := by
  induction ns with
  | nil => simp [insertAscending]
  | cons m rest ih =>
    obtain ⟨hm, hrest⟩ := List.pairwise_cons.1 h
    unfold insertAscending
    split
    · rename_i hlt
      refine List.pairwise_cons.2 ⟨?_, h⟩
      intro k hk
      rcases List.mem_cons.1 hk with rfl | hk
      · exact hlt
      · have := hm k hk
        omega
    · split
      · exact h
      · refine List.pairwise_cons.2 ⟨?_, ih hrest⟩
        intro k hk
        rcases mem_insertAscending.1 hk with rfl | hk
        · omega
        · exact hm k hk

/-! ## Counts in machine words -/

/-- The number of machine words, which have 64 bits. -/
def wordSize : Nat := UInt64.size

/-- What is done about a count that is too large for a machine word. -/
inductive Overflow where
  /-- The program stops. -/
  | stops
  /-- The count wraps around. -/
  | wraps
  deriving DecidableEq

/-- The machine word for the number `n`. -/
def Overflow.word? (o : Overflow) (n : Nat) : Option Nat :=
  if n < wordSize then some n
  else match o with
    | .stops => none
    | .wraps => some (n % wordSize)

/-! ## Calls of one reference -/

/-- The occurrences of one reference. -/
structure Call where
  /-- How many there are. -/
  count : Nat
  /-- The numbers of arguments they have, in ascending order. -/
  arities : List Nat
  /-- The numbers of arguments are listed in ascending order and once each. -/
  ascending : arities.Pairwise (· < ·)
  deriving DecidableEq

namespace Call

/-- No occurrence. -/
def none : Call := ⟨0, [], List.Pairwise.nil⟩

/-- One occurrence with so many arguments. -/
def single (arity : Nat) : Call := ⟨1, [arity], List.pairwise_singleton ..⟩

/-- Records one more number of arguments. -/
def addArity (c : Call) (arity : Nat) : Call :=
  ⟨c.count, insertAscending arity c.arities, pairwise_insertAscending arity c.ascending⟩

/-- The occurrences of both. -/
def append (c d : Call) : Call := d.arities.foldl addArity { c with count := c.count + d.count }

/-- The same occurrences, with a machine word for their count. -/
def inWords? (o : Overflow) (c : Call) : Option Call :=
  (o.word? c.count).map fun n => { c with count := n }

/-- The occurrences of both, with a machine word for their count. -/
def append? (o : Overflow) (c d : Call) : Option Call := (c.append d).inWords? o

end Call

/-- Why a reference is not always called in tail position with all its arguments. -/
inductive NotUniform where
  | neverCalled
  | mixedArities
  /-- It occurs without arguments. -/
  | notApplied
  | arityMismatch (expected found : Nat)
  | escapesTailPosition (calls tailCalls : Nat)
  deriving DecidableEq

/-- The wording of a reason. -/
def NotUniform.message : NotUniform → String
  | .neverCalled => "never called"
  | .mixedArities => "called at more than one arity"
  | .notApplied => "used as a value"
  | .arityMismatch expected found =>
    "called with " ++ Decimal.digitsText found ++ " arguments, expects "
      ++ Decimal.digitsText expected
  | .escapesTailPosition calls tailCalls =>
    Decimal.digitsText (calls - tailCalls) ++ " of " ++ Decimal.digitsText calls
      ++ " calls are not tail calls"

/-! ## Summaries -/

/-- A summary of the calls in a term. -/
structure Analysis where
  /-- The occurrences of each reference. -/
  calls : Table Ref Call
  /-- The number of tail calls of each reference that has some. -/
  tailCalls : Table Ref Nat
  /-- Whether the term is a binding group that is lowered to a loop. -/
  isLoop : Bool

namespace Analysis

/-- The summary of a term without references. -/
def empty : Analysis := ⟨.empty, .empty, false⟩

instance : Inhabited Analysis := ⟨empty⟩

/-- One tail call with so many arguments. -/
def call (r : Ref) (arity : Nat) : Analysis :=
  ⟨Table.empty.insert r (.single arity), Table.empty.insert r 1, false⟩

/-- Whether there is nothing to report. -/
def isEmpty (a : Analysis) : Bool := a.calls.isEmpty && !a.isLoop

/-- Adds a summary that is not in tail position. -/
def appendCalls (a b : Analysis) : Analysis :=
  ⟨a.calls.combine b.calls fun old c => (old.getD .none).append c, a.tailCalls, false⟩

/-- Adds a summary that stays in tail position. -/
def append (a b : Analysis) : Analysis :=
  { a.appendCalls b with
    tailCalls := a.tailCalls.combine b.tailCalls fun old n => old.getD 0 + n }

/-- Adds a summary that is not in tail position, in machine words. -/
def appendCalls? (o : Overflow) (a b : Analysis) : Option Analysis :=
  (a.calls.combine? b.calls fun old c => (old.getD .none).append? o c).map fun calls =>
    ⟨calls, a.tailCalls, false⟩

/-- Adds a summary that stays in tail position, in machine words. -/
def append? (o : Overflow) (a b : Analysis) : Option Analysis :=
  (a.appendCalls? o b).bind fun sum =>
    (a.tailCalls.combine? b.tailCalls fun old n => o.word? (old.getD 0 + n)).map fun tailCalls =>
      { sum with tailCalls }

/-- Forgets that calls are in tail position. -/
def noTailCalls (a : Analysis) : Analysis := { a with tailCalls := .empty }

/-- Drops a reference that goes out of scope. -/
def drop (a : Analysis) (r : Ref) : Analysis :=
  { a with calls := a.calls.erase r, tailCalls := a.tailCalls.erase r }

/-- Drops the references that go out of scope. -/
def dropAll (a : Analysis) (rs : List Ref) : Analysis := rs.foldl drop a

/-- The occurrences of a reference. -/
def callOf? (a : Analysis) (r : Ref) : Option Call := a.calls.get? r

/-- The number of tail calls of a reference. -/
def tailCallsOf (a : Analysis) (r : Ref) : Nat := (a.tailCalls.get? r).getD 0

/-- Whether the reference is always applied to exactly `arity` arguments, at least one, and always
in tail position. -/
def checkUniform (a : Analysis) (r : Ref) (arity : Nat) : Except NotUniform Unit :=
  match a.callOf? r with
  | none => .error .neverCalled
  | some c =>
    match c.arities with
    | [] => .error .neverCalled
    | [found] =>
      if found = 0 then .error .notApplied
      else if found ≠ arity then .error (.arityMismatch arity found)
      else if c.count ≠ a.tailCallsOf r then .error (.escapesTailPosition c.count (a.tailCallsOf r))
      else .ok ()
    | _ => .error .mixedArities

/-- Whether `checkUniform` finds nothing wrong. -/
def isUniform (a : Analysis) (r : Ref) (arity : Nat) : Bool :=
  match a.checkUniform r arity with
  | .ok () => true
  | .error _ => false

/-- Whether two summaries say the same, whatever the order of their entries. -/
def sameAs (a b : Analysis) : Bool :=
  a.calls.sameMap b.calls && a.tailCalls.sameMap b.tailCalls && a.isLoop == b.isLoop

end Analysis

end TailLoop
