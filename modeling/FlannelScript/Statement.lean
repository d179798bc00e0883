import FlannelScript.Declaration
import FlannelScript.Expression

/-!
# Statements

A statement list runs in order. In a function, a `return` that stands directly in the list ends it;
at the top level a `return` prints what it returns and halts the program.

The bodies of conditions and loops are lists in the same scope. If such a list ends by a `return` of
its own, it just ends: its value is dropped and the statement around it carries on, so a loop keeps
looping. A halt always goes through.
-/

namespace FlannelScript

open Eval Machine

/-- What a list that ran inside a statement means for the statement. -/
def BlockExit.flow : BlockExit → Flow
  | halted v => .halt v
  | _ => .next

namespace Engine

/-- Evaluate a condition, which has to be a truth value of the built-in class. -/
def evalCondition (engine : Engine) (condition : Expr) : Eval Bool := do
  let v ← engine.eval condition
  match v.cls, v.payload with
  | .builtin .bln, .bool b => pure b
  | _, _ => do
    let m ← machine
    raise (.typeMismatch BuiltinClass.bln.name (m.classes.name v.cls))

/-- Run one round of a loop. The answer is how the loop ended, or `none` if it goes round again. -/
def loopRound (engine : Engine) (mode : Mode) (condition : Expr) (body : List Stmt) :
    Eval (Option Flow) := do
  if ← engine.evalCondition condition then
    match ← engine.block mode body with
    | .halted v => pure (some (.halt v))
    | _ => pure none
  else pure (some .next)

/-- Run a statement. -/
def execStmt (engine : Engine) (mode : Mode) : Stmt → Eval Flow
  | .varDecl type name value => do
    let v ← engine.eval value
    let c ← lookupClass type
    requireClass c v
    declareLocal name v
    pure .next
  | .assign name value => do
    let v ← engine.eval value
    assign name v
    pure .next
  | .call function args => do
    let _ ← engine.evalCall function args
    pure .next
  | .methodCall object method args => do
    let _ ← engine.evalMethodCall object method args
    pure .next
  | .echo value => do
    let v ← engine.eval value
    let text ← engine.renderValue v
    printLine text
    pure .next
  | .ret value => do
    let v ← engine.eval value
    let text ← engine.renderValue v
    printLine ("returned: " ++ text)
    pure (.halt v)
  | .loop condition body => engine.loop mode condition body
  | .branch condition body => do
    if ← engine.evalCondition condition then
      let exit ← engine.block mode body
      pure exit.flow
    else pure .next
  | .classDecl decl => do
    engine.declareClass decl
    pure .next
  | .functionDecl decl => do
    declareFunction decl
    pure .next

/-- Run a statement list. -/
def execBlock (engine : Engine) (mode : Mode) : List Stmt → Eval BlockExit
  | [] => pure .completed
  | s :: rest =>
    match mode, s with
    | .inFunction, .ret value => do
      let v ← engine.eval value
      pure (.returned v)
    | mode, s => do
      match ← engine.execStmt mode s with
      | .halt v => pure (.halted v)
      | .next => engine.execBlock mode rest

end Engine

end FlannelScript
