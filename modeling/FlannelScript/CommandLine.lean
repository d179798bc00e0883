import FlannelScript.Interpreter
import FlannelScript.Options
import FlannelScript.Tree.Decode

/-!
# The command line

What the command `flan` does with its arguments, as a function: from the arguments, the file that a
path leads to and the lines of the input to what is printed on the two output streams and the exit
status. Options are checked before the program is read, and the program is read before it runs.
-/

namespace FlannelScript

/-- What a path leads to. -/
inductive FileContent where
  | bytes (data : ByteArray)
  | unreadable (reason : String)

namespace FileContent

/-- Nothing is there. -/
def missing : FileContent := unreadable "No such file or directory (os error 2)"

/-- A directory is there. -/
def directory : FileContent := unreadable "Is a directory (os error 21)"

/-- The text of a file, or why there is none. -/
def text : FileContent → Except String String
  | bytes data =>
    match String.fromUTF8? data with
    | some s => .ok s
    | none => .error notTextMessage
  | unreadable reason => .error reason

end FileContent

/-- Everything that can stop a run. -/
inductive RunError where
  | option (e : InvalidOption)
  | unreadable (path reason : String)
  | notAProgram (path : String)
  | evaluation (e : EvalError)

namespace RunError

/-- The text of the error. -/
def message : RunError → String
  | option e => e.message
  | unreadable path reason => "cannot read '" ++ path ++ "': " ++ reason
  | notAProgram path => "'" ++ path ++ "' is not a valid program"
  | evaluation e => e.message

/-- The calls that were active. -/
def backtrace : RunError → Backtrace
  | evaluation e => e.backtrace
  | _ => []

/-- How the error is reported. -/
def report (e : RunError) : String :=
  "error: " ++ e.message ++ "\n" ++
    if e.backtrace.isEmpty then "" else "backtrace:\n" ++ e.backtrace.render

end RunError

/-- What a command prints and how it exits. -/
structure Report where
  exit : Nat := 0
  stdout : String := ""
  stderr : String := ""
  deriving DecidableEq, Repr

/-- The commands. -/
inductive Command where
  | help
  | version
  /-- `run` without a path -/
  | runUsage
  | run (path : String) (flags : List String)
  | unknown (word : String)
  deriving DecidableEq, Repr

namespace Command

/-- The command that the arguments ask for. -/
def ofArgs : List String → Command
  | [] => help
  | ["run"] => runUsage
  | "run" :: path :: flags => run path flags
  | word :: _ =>
    if word = "help" ∨ word = "--help" ∨ word = "-h" then help
    else if word = "version" ∨ word = "--version" ∨ word = "-V" then version
    else unknown word

/-- The version of the interpreter. -/
def versionNumber : String := "0.1.0-alpha.1"

/-- Lines of text, each ended by a newline. -/
def lines (ls : List String) : String := String.join (ls.map (· ++ "\n"))

/-- What `help` prints. -/
def helpText : String := lines
  [ "FlannelScript interpreter",
    "",
    "Usage: flan <command> [options]",
    "",
    "Commands:",
    "  run <program.json>   Run a program given as a JSON syntax tree",
    "  help                 Show this message",
    "  version              Show version information",
    "",
    "Environment:",
    "  FLAN_LOG=<filter>    Enable tracing (e.g. FLAN_LOG=flan_eval=debug)",
    "  FLAN_LOG_TREE=1      Render traces as an indented tree" ]

/-- What `run` prints when it is given no path. -/
def runUsageText : String := lines
  [ "Usage: flan run <program.json> [options]",
    "",
    "Options:",
    "  --max-depth=<n>   Call depth limit (default: 1000, 0 = none)" ]

/-- Read the options and the program of a run. -/
def load (file : FileContent) (path : String) (flags : List String) :
    Except RunError (RunOptions × Program) :=
  match RunOptions.parse flags with
  | .error e => .error (.option e)
  | .ok options =>
    match file.text with
    | .error reason => .error (.unreadable path reason)
    | .ok text =>
      match Program.parse? text with
      | none => .error (.notAProgram path)
      | some program => .ok (options, program)

/-- Run a program on the given lines of input; `none` if the fuel does not suffice. -/
def runProgram (fuel : Nat) (options : RunOptions) (program : Program) (input : List InputLine) :
    Option Report :=
  match program.run fuel (.fresh { input } options.maxCallDepth) with
  | .ok _ m => some { stdout := m.console.output }
  | .error e m =>
    some { exit := 1, stdout := m.console.output, stderr := (RunError.evaluation e).report }
  | .outOfFuel => none

/-- Carry out a command. `file` is what the path of the command leads to. -/
def execute (fuel : Nat) (file : FileContent) (input : List InputLine) :
    Command → Option Report
  | help => some { stdout := helpText }
  | version => some { stdout := "flan " ++ versionNumber ++ "\n" }
  | runUsage => some { exit := 1, stderr := runUsageText }
  | unknown word =>
    some { exit := 1, stdout := helpText, stderr := "Unknown command: " ++ word ++ "\n\n" }
  | run path flags =>
    match load file path flags with
    | .error e => some { exit := 1, stderr := e.report }
    | .ok (options, program) => runProgram fuel options program input

/-- The path that a command reads. -/
def path? : Command → Option String
  | run path _ => some path
  | _ => none

end Command

end FlannelScript
