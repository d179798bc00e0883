import FlannelScript.Literal
import FlannelScript.Reduction

/-!
# Expressions

Arguments are evaluated from left to right and before the function, class or object they are meant
for is looked up. A function runs with the receiver of its caller. Negation is the question whether
a truth value equals `false`.
-/

namespace FlannelScript

open Eval Machine

namespace Engine

/-- Evaluate arguments from left to right. -/
def evalArgs (engine : Engine) : List Expr → Eval (List Value)
  | [] => pure []
  | e :: rest => do
    let v ← engine.eval e
    let vs ← engine.evalArgs rest
    pure (v :: vs)

/-- Evaluate a literal. -/
def evalLiteral (kind : LiteralKind) (raw : String) : Eval Value :=
  match kind.value raw with
  | .ok v => pure v
  | .error problem => raise (.malformedLiteral raw problem)

/-- Evaluate `!operand`. -/
def evalNot (engine : Engine) (operand : Expr) : Eval Value := do
  let v ← engine.eval operand
  requireClass (.builtin .bln) v
  engine.invokeMethod v "equals" [.ofBool false]

/-- Evaluate `function(args)`. -/
def evalCall (engine : Engine) (function : String) (args : List Expr) : Eval Value := do
  let args ← engine.evalArgs args
  let callable ← lookupFunction function
  let m ← machine
  engine.callFunction callable m.scope.receiver args

/-- Evaluate `new className(args)`. -/
def evalConstruct (engine : Engine) (className : String) (args : List Expr) : Eval Value := do
  let args ← engine.evalArgs args
  let c ← lookupClass className
  engine.construct c args

/-- Evaluate `object.method(args)`. -/
def evalMethodCall (engine : Engine) (object method : String) (args : List Expr) :
    Eval Value := do
  let args ← engine.evalArgs args
  let receiver ← resolve object
  engine.invokeMethod receiver method args

/-- Evaluate `ask prompt`. -/
def evalAsk (engine : Engine) (prompt : Expr) : Eval Value := do
  let v ← engine.eval prompt
  let text ← engine.renderValue v
  printLine text
  let line ← readLine
  pure (.ofText line)

/-- Evaluate an expression. -/
def evalExpr (engine : Engine) : Expr → Eval Value
  | .literal kind raw => evalLiteral kind raw
  | .name name => resolve name
  | .not operand => engine.evalNot operand
  | .call function args => engine.evalCall function args
  | .construct className args => engine.evalConstruct className args
  | .methodCall object method args => engine.evalMethodCall object method args
  | .property object name => do
    let v ← resolve object
    property v name
  | .ask prompt => engine.evalAsk prompt
  | .compound head tail => engine.reduce head tail

end Engine

end FlannelScript
