import TailLoop.Command

/-!
# The program

Reads the input, lets `Command` answer, and writes the answer.
-/

namespace TailLoop.Command

/-- Tells why a file cannot be read. The system numbers some problems more finely than by their
kind, with either sign. -/
def readProblem : IO.Error → ReadProblem
  | .noFileOrDirectory .. => .missing
  | .permissionDenied .. => .denied
  | .inappropriateType _ code _ => if code = 20 ∨ code = -20 then .notDirectory else .directory
  | .invalidArgument _ code text =>
    if code = 36 ∨ code = -36 then .nameTooLong else .other text
  | e => .other (toString e)

/-- Reads the input that the options name. -/
def readInput (o : Options) : IO (Except ReadProblem String) := do
  try
    let bytes ← match o.input with
      | some path => IO.FS.readBinFile path
      | none => (← IO.getStdin).readBinToEnd
    match String.fromUTF8? bytes with
    | some text => return .ok text
    | none => return .error .notText
  catch e => return .error (readProblem e)

/-- Writes an answer and gives its exit code. -/
def writeReply (r : Reply) : IO UInt32 := do
  IO.print r.out
  IO.eprint r.err
  return UInt32.ofNat r.code

end TailLoop.Command

open TailLoop.Command in
/-- Runs the program. -/
def main (args : List String) : IO UInt32 := do
  match request args with
  | .error reply => writeReply reply
  | .ok options =>
    let kind ← IO.getEnv "TERM"
    let noColor ← IO.getEnv "NO_COLOR"
    let source ← readInput options
    writeReply (respond options ⟨kind, noColor.isSome⟩ source)
