/-!
# Operators

Every binary operator is sugar for a method call on its left operand: `a + b` is `a.add(b)`. The
table below gives each operator its symbol, its binding strength and the name of its method, and
`select` picks the operator of a chain that is reduced next.

| Precedence | Operators                   | Methods                              |
|-----------:|-----------------------------|--------------------------------------|
| 60         | `^`                         | `exponent`                           |
| 50         | `*` `/` `%`                 | `multiply` `divide` `modulo`         |
| 40         | `+` `-`                     | `add` `subtract`                     |
| 30         | `==` `!=` `>` `<` `>=` `<=` | `equals` `doesNotEqual` `isGreater` `isLess` `isGreaterOrEqual` `isLessOrEqual` |
| 20         | `and`                       | `and`                                |
| 10         | `or`                        | `or`                                 |
-/

namespace FlannelScript

/-- The binary operators. -/
inductive Operator where
  | or | and
  | eq | notEq | gt | lt | gtEq | ltEq
  | add | sub
  | mul | div | mod
  | exp
  deriving DecidableEq, Repr

namespace Operator

/-- All operators, weakest first. -/
def all : List Operator :=
  [or, and, eq, notEq, gt, lt, gtEq, ltEq, add, sub, mul, div, mod, exp]

/-- How the operator is written. -/
def symbol : Operator → String
  | or => "or"
  | and => "and"
  | eq => "=="
  | notEq => "!="
  | gt => ">"
  | lt => "<"
  | gtEq => ">="
  | ltEq => "<="
  | add => "+"
  | sub => "-"
  | mul => "*"
  | div => "/"
  | mod => "%"
  | exp => "^"

/-- Binding strength: a stronger operator is reduced before a weaker one. -/
def precedence : Operator → Nat
  | or => 10
  | and => 20
  | eq | notEq | gt | lt | gtEq | ltEq => 30
  | add | sub => 40
  | mul | div | mod => 50
  | exp => 60

/-- The method that is called on the left operand. -/
def method : Operator → String
  | or => "or"
  | and => "and"
  | eq => "equals"
  | notEq => "doesNotEqual"
  | gt => "isGreater"
  | lt => "isLess"
  | gtEq => "isGreaterOrEqual"
  | ltEq => "isLessOrEqual"
  | add => "add"
  | sub => "subtract"
  | mul => "multiply"
  | div => "divide"
  | mod => "modulo"
  | exp => "exponent"

/-- The operator written `s`, if there is one. -/
def ofSymbol? (s : String) : Option Operator := all.find? fun op => op.symbol == s

/-- The position of the leftmost operator of the greatest precedence, given the best position and
precedence so far and the position of the next operator. -/
def strongest (best : Nat × Nat) (next : Nat) : List Operator → Nat
  | [] => best.1
  | op :: rest =>
    if best.2 < op.precedence then strongest (next, op.precedence) (next + 1) rest
    else strongest best (next + 1) rest

/-- The operator to reduce next: the leftmost one of the greatest precedence. Taking the leftmost
of equally strong operators makes every level associate to the left, `^` included. -/
def select : List Operator → Option Nat
  | [] => none
  | op :: rest => some (strongest (0, op.precedence) 1 rest)

@[simp] theorem ofSymbol?_symbol (op : Operator) : ofSymbol? op.symbol = some op := by
  cases op <;> decide

@[simp] theorem select_nil : select [] = none := rfl

theorem strongest_lt (ops : List Operator) (best : Nat × Nat) (next : Nat)
    (h : best.1 < next) : strongest best next ops < next + ops.length := by
  induction ops generalizing best next with
  | nil => simpa [strongest] using h
  | cons op rest ih =>
    simp only [strongest, List.length_cons]
    split
    · have := ih (next, op.precedence) (next + 1) (Nat.lt_succ_self _)
      omega
    · have := ih best (next + 1) (Nat.lt_succ_of_lt h)
      omega

/-- **Selection is in range.** -/
theorem select_lt {ops : List Operator} {i : Nat} (h : select ops = some i) : i < ops.length := by
  cases ops with
  | nil => simp at h
  | cons op rest =>
    simp only [select, Option.some.injEq] at h
    have := strongest_lt rest (0, op.precedence) 1 Nat.one_pos
    simp only [List.length_cons]
    omega

end Operator

end FlannelScript
