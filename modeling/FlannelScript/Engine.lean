import FlannelScript.Machine

/-!
# What the parts of the interpreter need of each other

Expressions, calls, statements and declarations are evaluated by each other: an operator runs a
method, a method runs statements, a statement evaluates expressions. Each of these parts is written
down once, on its own, over an `Engine` that stands for the rest of the interpreter; the knot is
tied in `Interpreter`.

A statement list can be cut short in two ways. In a function, a `return` that stands directly in
the list ends the list with its value. At the top level, `return` halts the whole program. The
`Mode` says which of the two a `return` is.
-/

namespace FlannelScript

/-- Where a statement list runs. -/
inductive Mode where
  | topLevel
  /-- in the body of a function or method, or in a list nested inside one -/
  | inFunction
  deriving DecidableEq, Repr

/-- How a statement finished. -/
inductive Flow where
  | next
  /-- a top-level `return` ran: stop the program with this value -/
  | halt (v : Value)

/-- How a statement list finished. -/
inductive BlockExit where
  /-- it ran to its end -/
  | completed
  /-- it reached a `return` of its own in a function -/
  | returned (v : Value)
  /-- a top-level `return` ran somewhere inside -/
  | halted (v : Value)

/-- The interpreter as its parts see it. -/
structure Engine where
  /-- evaluate an expression -/
  eval : Expr → Eval Value
  /-- run a statement list -/
  block : Mode → List Stmt → Eval BlockExit
  /-- run the body of a callable, inside its call -/
  body : List Stmt → Eval BlockExit
  /-- run a loop: as long as the condition holds, the statement list -/
  loop : Mode → Expr → List Stmt → Eval Flow

end FlannelScript
