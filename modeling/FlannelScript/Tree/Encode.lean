import FlannelScript.Tree
import FlannelScript.Json

/-!
# From syntax trees to JSON

The written form of a tree: every node is an object with its tag first and all its fields behind
it, the parent of a class without one being `null`.
-/

namespace FlannelScript

/-- The word that names a sort of literal. -/
def LiteralKind.word : LiteralKind → String
  | .bool => "bool"
  | .int => "int"
  | .float => "float"
  | .text => "text"

/-- A tagged record. -/
def Json.record (kind : String) (fields : List (String × Json)) : Json :=
  .object (("kind", .string kind) :: fields)

mutual

/-- Write an expression. -/
def Expr.encode : Expr → Json
  | .literal kind raw =>
    .record "literal" [("literal", .string kind.word), ("raw", .string raw)]
  | .name word => .record "name" [("name", .string word)]
  | .not operand => .record "not" [("operand", operand.encode)]
  | .call function args =>
    .record "call" [("function", .string function), ("args", .array (Expr.encodeAll args))]
  | .construct className args =>
    .record "construct" [("class", .string className), ("args", .array (Expr.encodeAll args))]
  | .methodCall object method args =>
    .record "method_call" [("object", .string object), ("method", .string method),
      ("args", .array (Expr.encodeAll args))]
  | .property object key =>
    .record "property" [("object", .string object), ("property", .string key)]
  | .ask prompt => .record "ask" [("prompt", prompt.encode)]
  | .compound head tail =>
    .record "compound" [("head", head.encode), ("tail", .array (Expr.encodeTail tail))]

/-- Write a list of expressions. -/
def Expr.encodeAll : List Expr → List Json
  | [] => []
  | e :: rest => e.encode :: Expr.encodeAll rest

/-- Write the symbol and operand pairs of a compound expression. -/
def Expr.encodeTail : List (String × Expr) → List Json
  | [] => []
  | (symbol, operand) :: rest =>
    .object [("operator", .string symbol), ("operand", operand.encode)] :: Expr.encodeTail rest

end

/-- Write a parameter. -/
def Param.encode (p : Param) : Json :=
  .object [("type", .string p.type), ("name", .string p.name)]

/-- Write an override. -/
def OverrideDecl.encode (d : OverrideDecl) : Json :=
  .object [("name", .string d.name), ("value", d.value.encode)]

/-- Write a property. -/
def PropertyDecl.encode (d : PropertyDecl) : Json :=
  .object [("type", .string d.type), ("name", .string d.name), ("value", d.value.encode)]

/-- Write the parent of a class. -/
def ClassDecl.encodeParent : Option String → Json
  | none => .null
  | some name => .string name

mutual

/-- Write a statement. -/
def Stmt.encode : Stmt → Json
  | .varDecl type name value =>
    .record "var_decl" [("type", .string type), ("name", .string name), ("value", value.encode)]
  | .assign name value => .record "assign" [("name", .string name), ("value", value.encode)]
  | .call function args =>
    .record "call" [("function", .string function), ("args", .array (Expr.encodeAll args))]
  | .methodCall object method args =>
    .record "method_call" [("object", .string object), ("method", .string method),
      ("args", .array (Expr.encodeAll args))]
  | .echo value => .record "echo" [("value", value.encode)]
  | .ret value => .record "return" [("value", value.encode)]
  | .loop condition body =>
    .record "while" [("condition", condition.encode), ("body", .array (Stmt.encodeAll body))]
  | .branch condition body =>
    .record "if" [("condition", condition.encode), ("body", .array (Stmt.encodeAll body))]
  | .classDecl ⟨name, parent, overrides, properties, methods⟩ =>
    .record "class" [("name", .string name), ("parent", ClassDecl.encodeParent parent),
      ("overrides", .array (overrides.map OverrideDecl.encode)),
      ("properties", .array (properties.map PropertyDecl.encode)),
      ("methods", .array (FunctionDecl.encodeAll methods))]
  | .functionDecl ⟨name, params, returnType, body⟩ =>
    .record "function" [("name", .string name), ("params", .array (params.map Param.encode)),
      ("return_type", .string returnType), ("body", .array (Stmt.encodeAll body))]

/-- Write a list of statements. -/
def Stmt.encodeAll : List Stmt → List Json
  | [] => []
  | s :: rest => s.encode :: Stmt.encodeAll rest

/-- Write the methods of a class. -/
def FunctionDecl.encodeAll : List FunctionDecl → List Json
  | [] => []
  | ⟨name, params, returnType, body⟩ :: rest =>
    .object [("name", .string name), ("params", .array (params.map Param.encode)),
      ("return_type", .string returnType), ("body", .array (Stmt.encodeAll body))] ::
      FunctionDecl.encodeAll rest

end

/-- Write a program. -/
def Program.encode (p : Program) : Json :=
  .object [("statements", .array (Stmt.encodeAll p.statements))]

/-- The text of the tree of a program. -/
def Program.render (p : Program) : String := p.encode.render

end FlannelScript
