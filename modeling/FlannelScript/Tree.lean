import FlannelScript.Number.Integer

/-!
# Syntax trees

A program is a list of statements. The tree is made elsewhere and only read here, so names are
plain strings, a literal keeps its source text until it is evaluated, and an operator keeps its
symbol, known or not: what is wrong with a literal or an operator is found out when it is reached.

A compound expression is kept flat, as a head and a list of symbol and operand pairs. Precedence
is applied when the chain is reduced.
-/

namespace FlannelScript

/-- The four sorts of literals. -/
inductive LiteralKind where
  | bool | int | float
  /-- single-quoted text; the quotes are part of the source text -/
  | text
  deriving DecidableEq, Repr

/-- Expressions, evaluated to a value. -/
inductive Expr where
  | literal (kind : LiteralKind) (raw : String)
  | name (name : String)
  /-- `!operand` -/
  | not (operand : Expr)
  /-- `f(a, b)` -/
  | call (function : String) (args : List Expr)
  /-- `new C(a, b)` -/
  | construct (className : String) (args : List Expr)
  /-- `obj.m(a, b)` -/
  | methodCall (object method : String) (args : List Expr)
  /-- `obj.property` -/
  | property (object property : String)
  /-- `ask prompt`: print the prompt, read a line -/
  | ask (prompt : Expr)
  /-- `head op operand op operand ...` -/
  | compound (head : Expr) (tail : List (String × Expr))
  deriving Inhabited

/-- `Type name` in a parameter list. -/
structure Param where
  type : String
  name : String
  deriving DecidableEq, Repr

/-- `name = value` in the override block of a class: a new default for an inherited property. -/
structure OverrideDecl where
  name : String
  value : Expr

/-- `Type name = value` in a class: a property with its default. -/
structure PropertyDecl where
  type : String
  name : String
  value : Expr

mutual

/-- Statements, executed for their effect. -/
inductive Stmt where
  /-- `Type name = value` -/
  | varDecl (type name : String) (value : Expr)
  /-- `name = value` -/
  | assign (name : String) (value : Expr)
  /-- `f(a, b)`, the result dropped -/
  | call (function : String) (args : List Expr)
  /-- `obj.m(a, b)`, the result dropped -/
  | methodCall (object method : String) (args : List Expr)
  /-- `echo value` -/
  | echo (value : Expr)
  /-- `return value` -/
  | ret (value : Expr)
  /-- `while condition { body }` -/
  | loop (condition : Expr) (body : List Stmt)
  /-- `if condition { body }`; there is no alternative -/
  | branch (condition : Expr) (body : List Stmt)
  | classDecl (decl : ClassDecl)
  | functionDecl (decl : FunctionDecl)

/-- A free function or a method. -/
structure FunctionDecl where
  name : String
  params : List Param
  returnType : String
  body : List Stmt

/-- A class; without a parent it extends the root class. -/
structure ClassDecl where
  name : String
  parent : Option String
  overrides : List OverrideDecl
  properties : List PropertyDecl
  methods : List FunctionDecl

end

/-- A whole program: its top-level statements. -/
structure Program where
  statements : List Stmt

namespace Expr

/-- The literal of a truth value. -/
def ofBool (b : Bool) : Expr := literal .bool (if b then "true" else "false")

/-- The literal of an integer. -/
def ofInt (n : Int64) : Expr := literal .int (Integer.render n)

/-- The literal of a text. -/
def ofText (content : String) : Expr := literal .text ("'" ++ content ++ "'")

end Expr

end FlannelScript
