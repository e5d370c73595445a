import TailLoop.Decimal.Reading

/-!
# JSON values as read

A `Json` value describes a text as far as it could be read. Containers remember how they ended and
a place where no value could be read is marked, so that a decoder working from left to right meets
data errors and faults of the text in the order in which they stand.
-/

namespace TailLoop

namespace Json

/-- What is wrong with a text. -/
inductive Fault where
  /-- The text ends too early. -/
  | endOfText
  /-- The text breaks the rules of the notation. -/
  | malformed
  deriving DecidableEq

/-- How a container ends. -/
inductive Ending where
  /-- By its closing bracket. -/
  | closed
  /-- By a fault after the last element, or after the comma that follows it. -/
  | cut (fault : Fault) (afterComma : Bool)
  deriving DecidableEq

/-- What stands at a place where no value could be read. -/
inductive Lead where
  /-- Nothing that could start a value. -/
  | nothing
  /-- A quote. -/
  | quote
  /-- Any other character. -/
  | other
  deriving DecidableEq

end Json

open Json in
/-- A JSON value, as far as its text could be read. -/
inductive Json where
  | null
  | bool (value : Bool)
  | num (value : Decimal.Number)
  | str (value : String)
  | arr (items : List Json) (ending : Ending)
  | obj (members : List (Json × Json)) (ending : Ending)
  /-- No value: `onRead` is met by whoever reads it, `onSkip` by whoever only passes over it. -/
  | unreadable (lead : Lead) (onRead : Fault) (onSkip : Option Fault)

namespace Json

instance : Inhabited Json := ⟨.null⟩

/-- An array with all its items. -/
def array (items : List Json) : Json := .arr items .closed

/-- An object with all its members. -/
def object (members : List (String × Json)) : Json :=
  .obj (members.map fun m => (.str m.1, m.2)) .closed

/-- The integer `i`. -/
def int (i : Int) : Json := .num (.int i)

/-- A text, or null. -/
def ofText? : Option String → Json
  | some s => .str s
  | none => .null

/-- A place where the text holds no value. -/
def fault (lead : Lead) (f : Fault) : Json := .unreadable lead f (some f)

/-- Whether the text cannot be followed beyond this value. -/
def stops : Json → Bool
  | .unreadable _ _ (some _) => true
  | _ => false

mutual

/-- How many containers are open at the deepest place. -/
def depth : Json → Nat
  | .arr items _ => depthItems items + 1
  | .obj members _ => depthMembers members + 1
  | _ => 0

/-- The depth of the deepest item. -/
def depthItems : List Json → Nat
  | [] => 0
  | j :: rest => max (depth j) (depthItems rest)

/-- The depth of the deepest member. -/
def depthMembers : List (Json × Json) → Nat
  | [] => 0
  | (k, j) :: rest => max (max (depth k) (depth j)) (depthMembers rest)

end

/-- Passes over the end of a container. -/
def Ending.skip : Ending → Except Fault Unit
  | .closed => .ok ()
  | .cut f _ => .error f

/-- Passes over the name of a member. -/
def skipKey : Json → Except Fault Unit
  | .str _ => .ok ()
  | .unreadable .quote _ none => .ok ()
  | .unreadable .quote _ (some f) => .error f
  | _ => .error .malformed

mutual

/-- Passes over a value that nobody reads. -/
def skip : Json → Except Fault Unit
  | .unreadable _ _ (some f) => .error f
  | .arr items ending => do skipItems items; ending.skip
  | .obj members ending => do skipMembers members; ending.skip
  | _ => .ok ()

/-- Passes over the items of an array. -/
def skipItems : List Json → Except Fault Unit
  | [] => .ok ()
  | j :: rest => do skip j; skipItems rest

/-- Passes over the members of an object. -/
def skipMembers : List (Json × Json) → Except Fault Unit
  | [] => .ok ()
  | (k, j) :: rest => do skipKey k; skip j; skipMembers rest

end

end Json

end TailLoop
