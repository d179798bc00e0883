import FlannelScript.Number.Decimal
import FlannelScript.Number.Integer

/-!
# Faults

Everything that can go wrong in an evaluation, by cause. A fault is fatal: nothing in the language
catches one. An `EvalError` is a fault together with the calls that were active where it was raised,
innermost first.
-/

namespace FlannelScript

/-- What is wrong with the source text of a literal. -/
inductive LiteralProblem where
  | notBoolean
  | notInteger (why : IntegerProblem)
  | notFloat (why : FloatProblem)
  | notQuoted
  deriving DecidableEq, Repr

/-- The cause of an error. -/
inductive Fault where
  | typeMismatch (expected found : String)
  | malformedLiteral (raw : String) (problem : LiteralProblem)
  | unsupportedOperator (symbol : String)
  | unknownType (name : String)
  | unknownFunction (name : String)
  | unboundVariable (name : String)
  | unknownMethod (method className : String)
  | unknownProperty (property className : String)
  | arityMismatch (name : String) (expected found : Nat)
  | recursionLimit (depth : Nat)
  | divisionByZero
  | integerOverflow (operation : Arith)
  | negativeExponent (exponent : Int64)
  | inputUnavailable
  /-- a line of input that is not text -/
  | undecodableInput
  deriving DecidableEq, Repr

/-! ## Wording -/

/-- What is wrong with the text of an integer, in words. -/
def IntegerProblem.message : IntegerProblem → String
  | .empty => "cannot parse integer from empty string"
  | .badDigit => "invalid digit found in string"
  | .tooLarge => "number too large to fit in target type"
  | .tooSmall => "number too small to fit in target type"

/-- What is wrong with the text of a float, in words. -/
def FloatProblem.message : FloatProblem → String
  | .empty => "cannot parse float from empty string"
  | .invalid => "invalid float literal"

/-- What is wrong with a literal, in words. -/
def LiteralProblem.message (raw : String) : LiteralProblem → String
  | .notBoolean => "`" ++ raw ++ "` is not a boolean"
  | .notInteger why => "`" ++ raw ++ "` is not an integer: " ++ why.message
  | .notFloat why => "`" ++ raw ++ "` is not a float: " ++ why.message
  | .notQuoted => "`" ++ raw ++ "` is not a quoted string"

/-- The noun of an arithmetic operation. -/
def Arith.noun : Arith → String
  | .add => "addition"
  | .subtract => "subtraction"
  | .multiply => "multiplication"
  | .divide => "division"
  | .modulo => "modulo"
  | .exponent => "exponentiation"

/-- What went wrong when the bytes of a file or of the input are not text. -/
def notTextMessage : String := "stream did not contain valid UTF-8"

/-- The text of a fault. -/
def Fault.message : Fault → String
  | .typeMismatch expected found =>
    "type mismatch: expected `" ++ expected ++ "`, found `" ++ found ++ "`"
  | .malformedLiteral raw problem => "malformed literal: " ++ problem.message raw
  | .unsupportedOperator symbol => "unsupported binary operator `" ++ symbol ++ "`"
  | .unknownType name => "unknown type `" ++ name ++ "`"
  | .unknownFunction name => "unknown function `" ++ name ++ "`"
  | .unboundVariable name => "unbound variable `" ++ name ++ "`"
  | .unknownMethod method className => "no method `" ++ method ++ "` on `" ++ className ++ "`"
  | .unknownProperty property className =>
    "no property `" ++ property ++ "` on `" ++ className ++ "`"
  | .arityMismatch name expected found =>
    "`" ++ name ++ "` expects " ++ Nat.repr expected ++ " argument(s), got " ++ Nat.repr found
  | .recursionLimit depth => "maximum call depth exceeded (limit: " ++ Nat.repr depth ++ ")"
  | .divisionByZero => "division by zero"
  | .integerOverflow operation => "integer overflow in " ++ operation.noun
  | .negativeExponent exponent =>
    "negative exponent " ++ Integer.render exponent ++ " on an `Int`"
  | .inputUnavailable => "no input line available"
  | .undecodableInput => "console I/O failed: " ++ notTextMessage

/-! ## Errors and backtraces -/

/-- The active calls, innermost first. -/
abbrev Backtrace : Type := List String

namespace Backtrace

/-- One numbered line for each call, the innermost being number 0. -/
def render (b : Backtrace) : String :=
  String.join ((b.zipIdx).map fun (frame, i) => "  " ++ Nat.repr i ++ ": " ++ frame ++ "\n")

end Backtrace

/-- A fault and the calls that were active where it was raised. -/
structure EvalError where
  fault : Fault
  backtrace : Backtrace := []
  deriving DecidableEq, Repr

namespace EvalError

/-- Attach a backtrace, unless one was attached further inside. -/
def withBacktrace (e : EvalError) (b : Backtrace) : EvalError :=
  if e.backtrace.isEmpty then { e with backtrace := b } else e

/-- The text of an error. -/
def message (e : EvalError) : String := e.fault.message

@[simp] theorem fault_withBacktrace (e : EvalError) (b : Backtrace) :
    (e.withBacktrace b).fault = e.fault := by
  unfold withBacktrace
  split <;> rfl

/-- **The first backtrace stays.** -/
theorem withBacktrace_of_ne_nil {e : EvalError} (h : e.backtrace ≠ []) (b : Backtrace) :
    e.withBacktrace b = e := by
  simp [withBacktrace, h]

theorem backtrace_withBacktrace_of_nil {e : EvalError} (h : e.backtrace = []) (b : Backtrace) :
    (e.withBacktrace b).backtrace = b := by
  simp [withBacktrace, h]

end EvalError

end FlannelScript
