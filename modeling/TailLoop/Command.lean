import TailLoop.Files
import TailLoop.Options
import TailLoop.Output

/-!
# The command

What the command answers to a command line and an input, apart from reading and writing.
-/

namespace TailLoop.Command

/-- The answer to a run. -/
structure Reply where
  /-- The exit code. -/
  code : Nat
  /-- What goes to the standard output. -/
  out : String
  /-- What goes to the standard error. -/
  err : String

/-- What the command knows of the terminal. -/
structure Terminal where
  /-- Its kind, if it is known. -/
  kind : Option String
  /-- Whether highlighting is switched off for all programs. -/
  noColor : Bool := false

/-- Whether highlighted output makes sense. -/
def Terminal.allowsColor (t : Terminal) : Bool :=
  match t.kind with
  | none => false
  | some kind => kind ≠ "dumb" && !t.noColor

/-- The help text. -/
def help : String :=
  "\n".intercalate
    ["Usage: tailc [options] [input.json]",
     "Options:",
     "  -h, --help: Print this help message",
     "  --emit <js|ir|analysis>: What to print (default: js)",
     "  --width <columns>: Line width of the IR and analysis dumps (default: 80)",
     "  --color: Colorize output",
     "  --no-tco: Keep recursive calls instead of lowering loops",
     ""]

/-- The answer to a run that fails. -/
def failed (code : Nat) (message : String) : Reply := ⟨code, "", "error: " ++ message ++ "\n"⟩

/-- The options of a command line, or the answer if it settles the run. -/
def request (args : List String) : Except Reply Options :=
  if args.contains "-h" || args.contains "--help" then .error ⟨0, help, ""⟩
  else
    match Options.parse args with
    | .ok options => .ok options
    | .error e => .error (failed 2 e.message)

/-- A binding on a line of its own. -/
def bindingLine (b : String × String) : String := b.1 ++ " = " ++ b.2 ++ "\n"

/-- The lines of a group; a recursive one is announced. -/
def groupLines (g : GroupDump) : String :=
  let announcement :=
    if g.recursive then
      "; recursive group, loop: " ++ (if g.isLoop then "true" else "false") ++ "\n"
    else ""
  announcement ++ String.join (g.bindings.map bindingLine)

/-- What is printed for a unit. -/
def output (o : Options) (p : Printing) (u : CompilationUnit) : Except Lower.ArityClash String :=
  match o.emit with
  | .script => (· ++ "\n") <$> u.script p o.loops
  | .terms => .ok (String.join ((u.termDumps p).map bindingLine))
  | .calls => .ok (String.join ((u.callDumps p).map groupLines))

/-- The answer for an input that was read, or could not be. Highlighted output ends by switching
the highlighting off. -/
def respond (o : Options) (terminal : Terminal) (source : Except ReadProblem String) : Reply :=
  match source with
  | .error why =>
    match o.input with
    | some path => failed 1 ("failed to read " ++ path ++ ": " ++ why.message)
    | none => failed 1 why.message
  | .ok text =>
    match Decoder.compilationUnit.ofText text with
    | .error e => failed 1 ("malformed compilation unit: " ++ e.message)
    | .ok u =>
      let color := o.color && terminal.allowsColor
      match output o ⟨o.width, color⟩ u with
      | .error clash => ⟨101, "", clash.message ++ "\n"⟩
      | .ok out => ⟨0, out ++ (if color then Layout.reset else ""), ""⟩

/-- The answer to a command line, given the files and the standard input. -/
def run (args : List String) (terminal : Terminal) (files : Files) (stdin : String) : Reply :=
  match request args with
  | .error reply => reply
  | .ok o =>
    match o.input with
    | some path => respond o terminal (files.read path)
    | none => respond o terminal (.ok stdin)

end TailLoop.Command
