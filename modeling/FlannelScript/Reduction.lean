import FlannelScript.Call
import FlannelScript.Operator

/-!
# Reduction of operator chains

A compound expression `a op₁ b op₂ c …` comes without any grouping. It is reduced step by step: the
leftmost of its strongest operators is taken, its two operands are evaluated, the method of the
operator is called on the left one, and the result takes the place of the three. Operands are
evaluated when their operator is reduced, so their effects happen in the order of reduction and not
in the order of the text. Every symbol is checked before any operand is evaluated.

A `Chain` has one operand more than it has operators by construction, and a `Redex` is a chain
opened at one operator; `Redex.contract` closes it again around the result.
-/

namespace FlannelScript

open Eval

/-- An operand of a chain, before and after its evaluation. -/
inductive Slot where
  | pending (e : Expr)
  | ready (v : Value)

/-- Operands with operators between them. -/
structure Chain (α : Type) where
  first : α
  rest : List (Operator × α)

/-- A chain opened at one of its operators. -/
structure Redex (α : Type) where
  /-- operands and operators to the left, in order -/
  before : List (α × Operator)
  left : α
  op : Operator
  right : α
  /-- operators and operands to the right, in order -/
  after : List (Operator × α)

namespace Chain

variable {α : Type}

/-- The operators of a chain. -/
def operators (c : Chain α) : List Operator := c.rest.map (·.1)

/-- Look up the symbols of a compound expression; the leftmost unknown one is reported. -/
def resolveTail : List (String × Expr) → Except Fault (List (Operator × Slot))
  | [] => .ok []
  | (symbol, operand) :: tail =>
    match Operator.ofSymbol? symbol with
    | none => .error (.unsupportedOperator symbol)
    | some op => (resolveTail tail).map ((op, .pending operand) :: ·)

/-- The chain of a compound expression. -/
def ofExpr (head : Expr) (tail : List (String × Expr)) : Except Fault (Chain Slot) :=
  (resolveTail tail).map fun rest => ⟨.pending head, rest⟩

/-- Put operands and operators in front of a chain. -/
def prepend (c : Chain α) : List (α × Operator) → Chain α
  | [] => c
  | (x, op) :: before =>
    let inner := c.prepend before
    ⟨x, (op, inner.first) :: inner.rest⟩

/-- Open the chain with the given first operand at operator number `i`. -/
def openAt : Nat → α → List (Operator × α) → Option (Redex α)
  | _, _, [] => none
  | 0, x, (op, y) :: rest => some ⟨[], x, op, y, rest⟩
  | i + 1, x, (op, y) :: rest =>
    (openAt i y rest).map fun r => { r with before := (x, op) :: r.before }

/-- Open a chain at the operator that is reduced next. -/
def redex? (c : Chain α) : Option (Redex α) :=
  (Operator.select c.operators).bind fun i => openAt i c.first c.rest

end Chain

/-- Close an open chain: the result stands in the place of the operator and its operands. -/
def Redex.contract {α : Type} (r : Redex α) (result : α) : Chain α :=
  (Chain.mk result r.after).prepend r.before

namespace Engine

/-- The value of an operand; it is evaluated now if it has not been. -/
def force (engine : Engine) : Slot → Eval Value
  | .pending e => engine.eval e
  | .ready v => pure v

/-- Reduce a chain by at most the given number of steps; as many as it has operators are enough. -/
def reduceSteps (engine : Engine) : Nat → Chain Slot → Eval Value
  | 0, c => engine.force c.first
  | n + 1, c =>
    match c.redex? with
    | none => engine.force c.first
    | some r => do
      let left ← engine.force r.left
      let right ← engine.force r.right
      let result ← engine.invokeMethod left r.op.method [right]
      engine.reduceSteps n (r.contract (.ready result))

/-- Evaluate a compound expression. -/
def reduce (engine : Engine) (head : Expr) (tail : List (String × Expr)) : Eval Value := do
  let c ← ofExcept (Chain.ofExpr head tail)
  engine.reduceSteps c.rest.length c

end Engine

end FlannelScript
