import FlannelScript.CommandLine

/-!
# The `flan` executable

Reads the program file and the standard input, calls the command line as a function, and prints what
it answers.

Input is read only as far as the program asks for it. A run that ends for want of a line is run once
more with the next line of the standard input; what it has printed by then is a beginning of what it
prints with more input, so only the rest is printed.
-/

namespace FlannelScript

/-- Fuel for a run: more steps than any run takes. -/
def runFuel : Nat := 1 <<< 62

/-- What a path leads to. -/
def readProgramFile (path : String) : IO FileContent := do
  try
    return .bytes (← IO.FS.readBinFile path)
  catch
    | .noFileOrDirectory .. => return .missing
    | .inappropriateType .. => return .directory
    | e => return .unreadable (toString e)

/-- The bytes of the next line, up to its newline or the end of the input. -/
partial def nextLineBytes (stdin : IO.FS.Stream) (begun : List UInt8) : IO (List UInt8) := do
  let chunk ← stdin.read 1
  match chunk.toList with
  | [] => return begun.reverse
  | b :: _ => if b = 10 then return (b :: begun).reverse else nextLineBytes stdin (b :: begun)

/-- Run a program, giving it one more line of input each time it asks for one. `shown` counts the
characters that have been printed already. -/
partial def converse (options : RunOptions) (program : Program) (input : List InputLine)
    (shown : Nat) : IO UInt32 := do
  let stdout ← IO.getStdout
  let showRest (output : String) : IO Unit := do
    stdout.putStr (String.ofList (output.toList.drop shown))
    stdout.flush
  match program.run runFuel (.fresh { input } options.maxCallDepth) with
  | .ok _ m =>
    showRest m.console.output
    return 0
  | .error e m =>
    showRest m.console.output
    if e.fault = .inputUnavailable then
      match ← nextLineBytes (← IO.getStdin) [] with
      | [] => fail e
      | bytes => converse options program (input ++ [.ofBytes bytes]) m.console.output.length
    else fail e
  | .outOfFuel => return 1
where
  /-- Report an error on the error stream. -/
  fail (e : EvalError) : IO UInt32 := do
    IO.eprint (RunError.evaluation e).report
    return 1

end FlannelScript

open FlannelScript in
/-- The command line. -/
def main (args : List String) : IO UInt32 := do
  let command := Command.ofArgs args
  let file ← match command.path? with
    | some path => readProgramFile path
    | none => pure .missing
  match command with
  | .run path flags =>
    match Command.load file path flags with
    | .ok (options, program) => converse options program [] 0
    | .error e =>
      IO.eprint e.report
      return 1
  | command =>
    match command.execute runFuel file [] with
    | some report =>
      IO.eprint report.stderr
      IO.print report.stdout
      return UInt32.ofNat report.exit
    | none => return 1
