import TailLoop.Decimal.Style

/-!
# Options

The options of a command line. Each option is looked for among all arguments, in a fixed order, and
taken out together with its value; what is left over must be the name of the input alone.
-/

namespace TailLoop

/-- What is printed. -/
inductive Emit where
  | script
  | terms
  | calls
  deriving DecidableEq

namespace Emit

/-- The name of a choice. -/
def name : Emit → String
  | .script => "js"
  | .terms => "ir"
  | .calls => "analysis"

/-- The choice that a text names, in letters of any case. -/
def parse? (s : String) : Option Emit :=
  let s := s.map Char.toLower
  if s = "js" ∨ s = "javascript" then some .script
  else if s = "ir" then some .terms
  else if s = "analysis" ∨ s = "tco" then some .calls
  else none

/-- The complaint about a text that names no choice. -/
def complaint : String := "expected one of js, ir, analysis"

end Emit

/-- The options of a run. -/
structure Options where
  /-- The line width of dumps. -/
  width : Nat := 80
  /-- Whether the output is to be highlighted. -/
  color : Bool := false
  /-- Whether groups that can be loops become loops. -/
  loops : Bool := true
  /-- What is printed. -/
  emit : Emit := .script
  /-- The file to be read, or else the standard input. -/
  input : Option String := none
  deriving DecidableEq

/-! ## Complaints -/

/-- Why a text is no width. -/
inductive WidthError where
  | empty
  | invalidDigit
  | tooLarge
  deriving DecidableEq

/-- The wording of a complaint about a width. -/
def WidthError.message : WidthError → String
  | .empty => "cannot parse integer from empty string"
  | .invalidDigit => "invalid digit found in string"
  | .tooLarge => "number too large to fit in target type"

/-- Why a command line is rejected. -/
inductive OptionError where
  /-- An option at the end of the line has no value. -/
  | noValue (flag : String)
  /-- The width is not a number. -/
  | badWidth (value : String) (why : WidthError)
  /-- An option has a value that it does not know. -/
  | invalid (flag value : String)
  /-- Arguments are left over. -/
  | unexpected (args : List String)
  deriving DecidableEq

/-- The wording of a complaint about a command line. -/
def OptionError.message : OptionError → String
  | .noValue flag =>
    "invalid command line: the \x27" ++ flag ++ "\x27 option doesn\x27t have an associated value"
  | .badWidth value why =>
    "invalid command line: failed to parse \x27" ++ value ++ "\x27: " ++ why.message
  | .invalid flag value => "invalid value `" ++ value ++ "` for " ++ flag
  | .unexpected args => "unexpected arguments: " ++ " ".intercalate args

/-! ## Reading a command line -/

namespace Options

/-- Reads digits into a 64-bit number; the first character that does not fit is reported. -/
def readDigits (n : Nat) : List Char → Except WidthError Nat
  | [] => .ok n
  | c :: rest =>
    if !c.isDigit then .error .invalidDigit
    else
      let n := n * 10 + (c.toNat - '0'.toNat)
      if n < UInt64.size then readDigits n rest else .error .tooLarge

/-- Reads a width: digits, possibly after a plus sign. -/
def readWidth (s : String) : Except WidthError Nat :=
  match s.toList with
  | [] => .error .empty
  -- a lone plus sign is no number
  | '+' :: c :: rest => readDigits 0 (c :: rest)
  | cs => readDigits 0 cs

/-- Takes the first occurrence of an option out of the arguments, with the value that follows it. -/
def takeValue (flag : String) : List String → Except OptionError (Option String × List String)
  | [] => .ok (none, [])
  | a :: rest =>
    if a = flag then
      match rest with
      | [] => .error (.noValue flag)
      | value :: rest => .ok (some value, rest)
    else do
      let (value, rest) ← takeValue flag rest
      return (value, a :: rest)

/-- Takes the first occurrence of a flag out of the arguments. -/
def takeFlag (flag : String) (args : List String) : Bool × List String :=
  (args.contains flag, args.erase flag)

/-- What is to be printed, by the value of its option. -/
def emitOf : Option String → Except OptionError Emit
  | none => .ok .script
  | some value =>
    match Emit.parse? value with
    | some emit => .ok emit
    | none => .error (.invalid "--emit" value)

/-- The line width, by the value of its option. -/
def widthOf : Option String → Except OptionError Nat
  | none => .ok 80
  | some value =>
    match readWidth value with
    | .ok n => .ok n
    | .error why => .error (.badWidth value why)

/-- The options of a command line. -/
def parse (args : List String) : Except OptionError Options := do
  let (emit, args) ← takeValue "--emit" args
  let emit ← emitOf emit
  let (width, args) ← takeValue "--width" args
  let width ← widthOf width
  let (color, args) := takeFlag "--color" args
  let (noLoops, args) := takeFlag "--no-tco" args
  match args with
  | [] => return ⟨width, color, !noLoops, emit, none⟩
  | [input] => return ⟨width, color, !noLoops, emit, some input⟩
  | _ :: rest => throw (.unexpected rest)

end Options

end TailLoop
