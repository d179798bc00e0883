import FlannelScript.Number.Integer

/-!
# Options of a run

The only option is `--max-depth=n`, which limits the depth of calls; `0` takes the limit away. Of
several options the last one counts, and the first one that is not understood is reported, whatever
else there is.
-/

namespace FlannelScript

/-- How a program is run. -/
structure RunOptions where
  /-- the greatest depth of calls; `none` for no limit -/
  maxCallDepth : Option Nat
  deriving DecidableEq, Repr

/-- An option that is not understood. -/
structure InvalidOption where
  arg : String
  deriving DecidableEq, Repr

/-- The text of the complaint. -/
def InvalidOption.message (e : InvalidOption) : String := "invalid option '" ++ e.arg ++ "'"

namespace RunOptions

/-- Without options, calls may be nested this deep. -/
def defaultDepth : Nat := 1000

/-- The options of a run for which none are given. -/
def default : RunOptions := ⟨some defaultDepth⟩

/-- The flag that sets the limit. -/
def depthFlag : List Char := "--max-depth=".toList

/-- The options that a single argument stands for. -/
def ofArg? (arg : String) : Option RunOptions :=
  let cs := arg.toList
  if depthFlag.isPrefixOf cs then
    (Natural.read? (cs.drop depthFlag.length)).map fun n => ⟨if n = 0 then none else some n⟩
  else none

/-- Read arguments on top of the options so far. -/
def parseFrom (sofar : RunOptions) : List String → Except InvalidOption RunOptions
  | [] => .ok sofar
  | arg :: rest =>
    match ofArg? arg with
    | none => .error ⟨arg⟩
    | some options => parseFrom options rest

/-- Read the arguments behind the path of a program. -/
def parse (args : List String) : Except InvalidOption RunOptions := parseFrom default args

end RunOptions

end FlannelScript
