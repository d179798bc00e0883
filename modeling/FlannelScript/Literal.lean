import FlannelScript.Fault
import FlannelScript.Tree
import FlannelScript.Value

/-!
# Literals

A literal is source text up to the moment it is evaluated. Text literals stand between single
quotes; quotes inside are not special, so the literal `'''` is the text of one quote and a lone
quote is no literal.
-/

namespace FlannelScript

/-- What stands between the single quotes that a text begins and ends with. -/
def unquote? (raw : String) : Option String :=
  match raw.toList with
  | '\'' :: rest =>
    match rest.reverse with
    | '\'' :: content => some (String.ofList content.reverse)
    | _ => none
  | _ => none

/-- The value of a literal with the given source text. -/
def LiteralKind.value (kind : LiteralKind) (raw : String) : Except LiteralProblem Value :=
  match kind with
  | .bool =>
    if raw = "true" then .ok (.ofBool true)
    else if raw = "false" then .ok (.ofBool false)
    else .error .notBoolean
  | .int =>
    match Integer.read raw with
    | .ok n => .ok (.ofInt n)
    | .error why => .error (.notInteger why)
  | .float =>
    match FloatLiteral.read raw with
    | .ok x => .ok (.ofFloat x)
    | .error why => .error (.notFloat why)
  | .text =>
    match unquote? raw with
    | some s => .ok (.ofText s)
    | none => .error .notQuoted

end FlannelScript
