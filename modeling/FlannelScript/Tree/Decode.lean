import FlannelScript.Tree
import FlannelScript.Tree.Node
import FlannelScript.Json.Reader

/-!
# From JSON to syntax trees

Statements and expressions are tagged records, all other nodes are plain ones (`Tree.Node` says how
records are written). Every field is required, except that a class may leave out its parent and
its three blocks. A tree that is not of this form is refused as a whole.

`Program.parse?` reads a program from text. It looks at nothing but the statements of the document
object: everything else in that object is passed over once it is known to be JSON.
-/

namespace FlannelScript

open Json (Part fields? tagged?)

/-! ## Expressions -/

/-- The tags of expressions. -/
def Expr.kinds : List String :=
  ["literal", "name", "not", "call", "construct", "method_call", "property", "ask", "compound"]

/-- The sort of literal that a word names. -/
def LiteralKind.ofWord? : String → Option LiteralKind
  | "bool" => some .bool
  | "int" => some .int
  | "float" => some .float
  | "text" => some .text
  | _ => none

/-- A sort of literal is a word, or an object whose only key is that word and whose value is
empty. -/
def LiteralKind.decode : Json → Option LiteralKind
  | .string s => ofWord? s
  | .object [(s, .null)] | .object [(s, .object [])] => ofWord? s
  | _ => none

mutual

/-- Read an expression; `nested` is false only for one that stands alone. -/
def Expr.decode (nested : Bool) (j : Json) : Option Expr :=
  match tagged? Expr.kinds nested j with
  | none => none
  | some (kind, ⟨record, hr⟩) =>
    match kind with
    | "literal" =>
      match fields? ["literal", "raw"] record with
      | some [some ⟨sort, _⟩, some ⟨.string raw, _⟩] =>
        (LiteralKind.decode sort).map fun sort => .literal sort raw
      | _ => none
    | "name" =>
      match fields? ["name"] record with
      | some [some ⟨.string word, _⟩] => some (.name word)
      | _ => none
    | "not" =>
      match fields? ["operand"] record with
      | some [some ⟨operand, ho⟩] =>
        have : sizeOf operand < sizeOf j := Nat.lt_of_lt_of_le ho hr
        (Expr.decode true operand).map .not
      | _ => none
    | "call" =>
      match fields? ["function", "args"] record with
      | some [some ⟨.string function, _⟩, some ⟨.array args, ha⟩] =>
        have : sizeOf args < sizeOf j := Json.sizeOf_items_lt (Nat.lt_of_lt_of_le ha hr)
        (Expr.decodeAll args).map (.call function)
      | _ => none
    | "construct" =>
      match fields? ["class", "args"] record with
      | some [some ⟨.string className, _⟩, some ⟨.array args, ha⟩] =>
        have : sizeOf args < sizeOf j := Json.sizeOf_items_lt (Nat.lt_of_lt_of_le ha hr)
        (Expr.decodeAll args).map (.construct className)
      | _ => none
    | "method_call" =>
      match fields? ["object", "method", "args"] record with
      | some [some ⟨.string object, _⟩, some ⟨.string method, _⟩, some ⟨.array args, ha⟩] =>
        have : sizeOf args < sizeOf j := Json.sizeOf_items_lt (Nat.lt_of_lt_of_le ha hr)
        (Expr.decodeAll args).map (.methodCall object method)
      | _ => none
    | "property" =>
      match fields? ["object", "property"] record with
      | some [some ⟨.string object, _⟩, some ⟨.string key, _⟩] => some (.property object key)
      | _ => none
    | "ask" =>
      match fields? ["prompt"] record with
      | some [some ⟨prompt, hp⟩] =>
        have : sizeOf prompt < sizeOf j := Nat.lt_of_lt_of_le hp hr
        (Expr.decode true prompt).map .ask
      | _ => none
    | "compound" =>
      match fields? ["head", "tail"] record with
      | some [some ⟨head, hh⟩, some ⟨.array tail, ht⟩] =>
        have : sizeOf head < sizeOf j := Nat.lt_of_lt_of_le hh hr
        have : sizeOf tail < sizeOf j := Json.sizeOf_items_lt (Nat.lt_of_lt_of_le ht hr)
        match Expr.decode true head with
        | none => none
        | some head => (Expr.decodeTail tail).map (.compound head)
      | _ => none
    | _ => none
termination_by sizeOf j
decreasing_by all_goals assumption

/-- Read a list of expressions. -/
def Expr.decodeAll : List Json → Option (List Expr)
  | [] => some []
  | j :: rest =>
    match Expr.decode true j with
    | none => none
    | some e => (Expr.decodeAll rest).map (e :: ·)
termination_by l => sizeOf l
decreasing_by
  all_goals first
    | assumption
    | exact Json.sizeOf_head_lt j rest
    | exact Json.sizeOf_tail_lt j rest

/-- Read the symbol and operand pairs behind the head of a compound expression. -/
def Expr.decodeTail : List Json → Option (List (String × Expr))
  | [] => some []
  | j :: rest =>
    match fields? ["operator", "operand"] j with
    | some [some ⟨.string symbol, _⟩, some ⟨operand, ho⟩] =>
      have : sizeOf operand < sizeOf (j :: rest) := Nat.lt_trans ho (Json.sizeOf_head_lt j rest)
      match Expr.decode true operand with
      | none => none
      | some operand => (Expr.decodeTail rest).map ((symbol, operand) :: ·)
    | _ => none
termination_by l => sizeOf l
decreasing_by
  all_goals first
    | assumption
    | exact Json.sizeOf_head_lt j rest
    | exact Json.sizeOf_tail_lt j rest

end

/-! ## Declarations and statements -/

/-- Read a parameter. -/
def Param.decode (j : Json) : Option Param :=
  match fields? ["type", "name"] j with
  | some [some ⟨.string type, _⟩, some ⟨.string name, _⟩] => some ⟨type, name⟩
  | _ => none

/-- Read an override. -/
def OverrideDecl.decode (j : Json) : Option OverrideDecl :=
  match fields? ["name", "value"] j with
  | some [some ⟨.string name, _⟩, some ⟨value, _⟩] =>
    (Expr.decode true value).map fun value => ⟨name, value⟩
  | _ => none

/-- Read a property. -/
def PropertyDecl.decode (j : Json) : Option PropertyDecl :=
  match fields? ["type", "name", "value"] j with
  | some [some ⟨.string type, _⟩, some ⟨.string name, _⟩, some ⟨value, _⟩] =>
    (Expr.decode true value).map fun value => ⟨type, name, value⟩
  | _ => none

/-- Read the parent of a class: a name, nothing, or no field at all. -/
def ClassDecl.decodeParent {j : Json} : Option (Part j) → Option (Option String)
  | none | some ⟨.null, _⟩ => some none
  | some ⟨.string name, _⟩ => some (some name)
  | _ => none

/-- Read a block of a class by reading each of its items; a block that is missing is empty. -/
def ClassDecl.decodeBlock {j : Json} {α : Type} (item : Json → Option α) :
    Option (Part j) → Option (List α)
  | none => some []
  | some ⟨.array items, _⟩ => items.mapM item
  | _ => none

/-- The tags of statements. -/
def Stmt.kinds : List String :=
  ["var_decl", "assign", "call", "method_call", "echo", "return", "while", "if", "class",
    "function"]

mutual

/-- Read a statement; `nested` is false only for a top-level statement. -/
def Stmt.decode (nested : Bool) (j : Json) : Option Stmt :=
  match tagged? Stmt.kinds nested j with
  | none => none
  | some (kind, ⟨record, hr⟩) =>
    match kind with
    | "var_decl" =>
      match fields? ["type", "name", "value"] record with
      | some [some ⟨.string type, _⟩, some ⟨.string name, _⟩, some ⟨value, _⟩] =>
        (Expr.decode true value).map (.varDecl type name)
      | _ => none
    | "assign" =>
      match fields? ["name", "value"] record with
      | some [some ⟨.string name, _⟩, some ⟨value, _⟩] =>
        (Expr.decode true value).map (.assign name)
      | _ => none
    | "call" =>
      match fields? ["function", "args"] record with
      | some [some ⟨.string function, _⟩, some ⟨.array args, _⟩] =>
        (Expr.decodeAll args).map (.call function)
      | _ => none
    | "method_call" =>
      match fields? ["object", "method", "args"] record with
      | some [some ⟨.string object, _⟩, some ⟨.string method, _⟩, some ⟨.array args, _⟩] =>
        (Expr.decodeAll args).map (.methodCall object method)
      | _ => none
    | "echo" =>
      match fields? ["value"] record with
      | some [some ⟨value, _⟩] => (Expr.decode true value).map .echo
      | _ => none
    | "return" =>
      match fields? ["value"] record with
      | some [some ⟨value, _⟩] => (Expr.decode true value).map .ret
      | _ => none
    | "while" =>
      match fields? ["condition", "body"] record with
      | some [some ⟨condition, _⟩, some ⟨.array body, hb⟩] =>
        have : sizeOf body < sizeOf j := Json.sizeOf_items_lt (Nat.lt_of_lt_of_le hb hr)
        match Expr.decode true condition with
        | none => none
        | some condition => (Stmt.decodeAll true body).map (.loop condition)
      | _ => none
    | "if" =>
      match fields? ["condition", "body"] record with
      | some [some ⟨condition, _⟩, some ⟨.array body, hb⟩] =>
        have : sizeOf body < sizeOf j := Json.sizeOf_items_lt (Nat.lt_of_lt_of_le hb hr)
        match Expr.decode true condition with
        | none => none
        | some condition => (Stmt.decodeAll true body).map (.branch condition)
      | _ => none
    | "class" =>
      match fields? ["name", "parent", "overrides", "properties", "methods"] record with
      | some [some ⟨.string name, _⟩, parent, overrides, properties, methods] =>
        match ClassDecl.decodeParent parent,
            ClassDecl.decodeBlock OverrideDecl.decode overrides,
            ClassDecl.decodeBlock PropertyDecl.decode properties with
        | some parent, some overrides, some properties =>
          match methods with
          | none => some (.classDecl ⟨name, parent, overrides, properties, []⟩)
          | some ⟨.array methods, hm⟩ =>
            have : sizeOf methods < sizeOf j := Json.sizeOf_items_lt (Nat.lt_of_lt_of_le hm hr)
            (FunctionDecl.decodeAll methods).map fun methods =>
              .classDecl ⟨name, parent, overrides, properties, methods⟩
          | _ => none
        | _, _, _ => none
      | _ => none
    | "function" =>
      match fields? ["name", "params", "return_type", "body"] record with
      | some [some ⟨.string name, _⟩, some ⟨.array params, _⟩, some ⟨.string returnType, _⟩,
          some ⟨.array body, hb⟩] =>
        have : sizeOf body < sizeOf j := Json.sizeOf_items_lt (Nat.lt_of_lt_of_le hb hr)
        match params.mapM Param.decode with
        | none => none
        | some params =>
          (Stmt.decodeAll true body).map fun body => .functionDecl ⟨name, params, returnType, body⟩
      | _ => none
    | _ => none
termination_by sizeOf j
decreasing_by all_goals assumption

/-- Read a list of statements. -/
def Stmt.decodeAll (nested : Bool) : List Json → Option (List Stmt)
  | [] => some []
  | j :: rest =>
    match Stmt.decode nested j with
    | none => none
    | some s => (Stmt.decodeAll nested rest).map (s :: ·)
termination_by l => sizeOf l
decreasing_by
  all_goals first
    | assumption
    | exact Json.sizeOf_head_lt j rest
    | exact Json.sizeOf_tail_lt j rest

/-- Read the methods of a class. -/
def FunctionDecl.decodeAll : List Json → Option (List FunctionDecl)
  | [] => some []
  | j :: rest =>
    match fields? ["name", "params", "return_type", "body"] j with
    | some [some ⟨.string name, _⟩, some ⟨.array params, _⟩, some ⟨.string returnType, _⟩,
        some ⟨.array body, hb⟩] =>
      have : sizeOf body < sizeOf (j :: rest) :=
        Nat.lt_trans (Json.sizeOf_items_lt hb) (Json.sizeOf_head_lt j rest)
      match params.mapM Param.decode, Stmt.decodeAll true body with
      | some params, some body =>
        (FunctionDecl.decodeAll rest).map (⟨name, params, returnType, body⟩ :: ·)
      | _, _ => none
    | _ => none
termination_by l => sizeOf l
decreasing_by
  all_goals first
    | assumption
    | exact Json.sizeOf_head_lt j rest
    | exact Json.sizeOf_tail_lt j rest

end

/-! ## Programs -/

/-- Read a program. -/
def Program.decode (j : Json) : Option Program :=
  match fields? ["statements"] j with
  | some [some ⟨.array statements, _⟩] => (Stmt.decodeAll false statements).map Program.mk
  | _ => none

/-- The levels of arrays and objects that a program text may have. -/
def Program.maxLevels : Nat := 127

/-- Read a program from the text of its tree. -/
def Program.parse? (text : String) : Option Program :=
  (Json.readSelecting (· == "statements") Program.maxLevels text).bind Program.decode

end FlannelScript
