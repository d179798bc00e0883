import FlannelScript.Statement

/-!
# The interpreter

The knot: the parts of the interpreter, each written over an `Engine`, are given each other. A
program may call itself for ever, so the recursion is on fuel: an engine with `n + 1` units hands an
engine with `n` units to its parts, and one without fuel gives up. An evaluation that ends does so
with all but finitely many amounts of fuel, and always with the same result; what a program does is
what it does with enough fuel.

The body of a callable is a statement list like any other, but an error takes the active calls along
when it leaves it.

Each round of a loop takes a unit of fuel as well, and goes on where the last one ended rather than
inside it, so the length of a loop does not count against the depth of the evaluation.
-/

namespace FlannelScript

open Eval

mutual

/-- Evaluate an expression with some fuel. -/
def evalWith : Nat → Expr → Eval Value
  | 0, _, _ => .outOfFuel
  | n + 1, e, m =>
    Engine.evalExpr
      ⟨evalWith n, blockWith n, fun body => traced (blockWith n .inFunction body), loopWith n⟩ e m

/-- Run a statement list with some fuel. -/
def blockWith : Nat → Mode → List Stmt → Eval BlockExit
  | 0, _, _, _ => .outOfFuel
  | n + 1, mode, stmts, m =>
    Engine.execBlock
      ⟨evalWith n, blockWith n, fun body => traced (blockWith n .inFunction body), loopWith n⟩
      mode stmts m

/-- Run a loop with some fuel. -/
def loopWith : Nat → Mode → Expr → List Stmt → Eval Flow
  | 0, _, _, _, _ => .outOfFuel
  | n + 1, mode, condition, body, m =>
    match
      Engine.loopRound
        ⟨evalWith n, blockWith n, fun body => traced (blockWith n .inFunction body), loopWith n⟩
        mode condition body m with
    | .ok none m => loopWith n mode condition body m
    | .ok (some flow) m => .ok flow m
    | .error e m => .error e m
    | .outOfFuel => .outOfFuel

end

/-- The interpreter with some fuel. -/
def Engine.withFuel (n : Nat) : Engine where
  eval := evalWith n
  block := blockWith n
  body := fun body => traced (blockWith n .inFunction body)
  loop := loopWith n

/-- A loop is one round and, unless that ended it, the loop again with the fuel that is left. -/
theorem loopWith_succ (n : Nat) (mode : Mode) (condition : Expr) (body : List Stmt) :
    loopWith (n + 1) mode condition body = (do
      match ← (Engine.withFuel n).loopRound mode condition body with
      | none => loopWith n mode condition body
      | some flow => pure flow) := by
  funext m
  rw [loopWith, Eval.bind_apply]
  change (match (Engine.withFuel n).loopRound mode condition body m with
    | .ok none m => loopWith n mode condition body m
    | .ok (some flow) m => .ok flow m
    | .error e m => .error e m
    | .outOfFuel => .outOfFuel) = _
  rcases (Engine.withFuel n).loopRound mode condition body m with ⟨_ | flow, m⟩ | _ | _ <;> rfl

/-! ## Programs -/

/-- How the run of a program ended. -/
inductive Outcome where
  /-- every top-level statement ran -/
  | completed
  /-- a top-level `return` stopped the program with this value -/
  | returned (v : Value)

/-- The outcome of a program whose statements ended like this. -/
def BlockExit.outcome : BlockExit → Outcome
  | halted v => .returned v
  | _ => .completed

/-- Run the top-level statements of a program in a scope of their own. What the program declares
stays on the machine. -/
def Engine.runProgram (engine : Engine) (p : Program) : Eval Outcome := fun m =>
  (engine.block .topLevel p.statements { m with scope := .topLevel }).map
    BlockExit.outcome fun inner => { inner with scope := m.scope }

/-- Run a program with some fuel. -/
def Program.run (fuel : Nat) (p : Program) : Eval Outcome := (Engine.withFuel fuel).runProgram p

end FlannelScript
