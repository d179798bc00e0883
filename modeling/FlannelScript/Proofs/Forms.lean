import FlannelScript.Tree.Decode
import Mathlib.Data.List.Basic

/-!
# The forms of nodes

What the decoders accept, as a table. A node of a tree is a record, and its `Form` lists the fields
of the record: their keys, how their values are read and what a field that is missing stands for.
One general reader (`Form.decode`) interprets a form, and the main statement (`Node.decode_eq`) says
that it agrees with the decoder of every node: a node is read by finding out its form and by
interpreting it. Whatever follows from this reading alone need not be proved for each kind of node.
-/

namespace FlannelScript

open Json (valuesOf field? fields? tagged? tagName? tagKey)

/-! ## Nodes and shapes -/

/-- The nodes of a tree; the statements of a program itself are not `nested`. -/
inductive Node where
  | program
  | stmt (nested : Bool)
  | method
  | param
  | property
  | override
  | expr
  | operation

/-- What a node is read as. -/
abbrev Node.Tree : Node → Type
  | program => Program
  | stmt _ => Stmt
  | method => FunctionDecl
  | param => Param
  | property => PropertyDecl
  | override => OverrideDecl
  | expr => Expr
  | operation => String × Expr

/-- The ways to read a value. -/
inductive Shape where
  | node (n : Node)
  /-- an array of nodes -/
  | nodes (n : Node)
  | text
  /-- the sort of a literal -/
  | sort
  /-- the empty value beside the sort of a literal -/
  | empty
  /-- the parent of a class -/
  | parent
  /-- the tag of a record -/
  | tag (names : List String) (nested : Bool)
  /-- a value that nobody looks at -/
  | ignored

/-- What a value is read as. -/
abbrev Shape.Tree : Shape → Type
  | node n => n.Tree
  | nodes n => List n.Tree
  | text | tag _ _ => String
  | sort => LiteralKind
  | parent => Option String
  | empty | ignored => Unit

/-- A field of a record. -/
structure Field where
  key : String
  shape : Shape
  /-- the value that a missing field stands for; without one the field is required -/
  default? : Option Json

/-- Functions of the fields of a record. -/
abbrev Maker (T : Type) : List Field → Type
  | [] => T
  | f :: rest => f.shape.Tree → Maker T rest

/-- The fields of a record, and what is made of them. -/
structure Form (T : Type) where
  fields : List Field
  make : Maker T fields
  nodup : (fields.map Field.key).Nodup := by decide
  plain : tagKey ∉ fields.map Field.key := by decide

/-! ## The table -/

/-- The form of an expression with the given tag. -/
def Expr.form? : String → Option (Form Expr)
  | "literal" => some
    { fields := [⟨"literal", .sort, none⟩, ⟨"raw", .text, none⟩]
      make := .literal }
  | "name" => some
    { fields := [⟨"name", .text, none⟩]
      make := .name }
  | "not" => some
    { fields := [⟨"operand", .node .expr, none⟩]
      make := .not }
  | "call" => some
    { fields := [⟨"function", .text, none⟩, ⟨"args", .nodes .expr, none⟩]
      make := .call }
  | "construct" => some
    { fields := [⟨"class", .text, none⟩, ⟨"args", .nodes .expr, none⟩]
      make := .construct }
  | "method_call" => some
    { fields := [⟨"object", .text, none⟩, ⟨"method", .text, none⟩, ⟨"args", .nodes .expr, none⟩]
      make := .methodCall }
  | "property" => some
    { fields := [⟨"object", .text, none⟩, ⟨"property", .text, none⟩]
      make := .property }
  | "ask" => some
    { fields := [⟨"prompt", .node .expr, none⟩]
      make := .ask }
  | "compound" => some
    { fields := [⟨"head", .node .expr, none⟩, ⟨"tail", .nodes .operation, none⟩]
      make := .compound }
  | _ => none

/-- The form of functions and methods. -/
def FunctionDecl.form {T : Type} (make : FunctionDecl → T) : Form T where
  fields := [⟨"name", .text, none⟩, ⟨"params", .nodes .param, none⟩,
    ⟨"return_type", .text, none⟩, ⟨"body", .nodes (.stmt true), none⟩]
  make := fun name params returnType body => make ⟨name, params, returnType, body⟩

/-- The form of classes: everything but the name may be missing. -/
def ClassDecl.form : Form Stmt where
  fields := [⟨"name", .text, none⟩, ⟨"parent", .parent, some .null⟩,
    ⟨"overrides", .nodes .override, some (.array [])⟩,
    ⟨"properties", .nodes .property, some (.array [])⟩,
    ⟨"methods", .nodes .method, some (.array [])⟩]
  make := fun name parent overrides properties methods =>
    .classDecl ⟨name, parent, overrides, properties, methods⟩

/-- The form of a statement with the given tag. -/
def Stmt.form? : String → Option (Form Stmt)
  | "var_decl" => some
    { fields := [⟨"type", .text, none⟩, ⟨"name", .text, none⟩, ⟨"value", .node .expr, none⟩]
      make := .varDecl }
  | "assign" => some
    { fields := [⟨"name", .text, none⟩, ⟨"value", .node .expr, none⟩]
      make := .assign }
  | "call" => some
    { fields := [⟨"function", .text, none⟩, ⟨"args", .nodes .expr, none⟩]
      make := .call }
  | "method_call" => some
    { fields := [⟨"object", .text, none⟩, ⟨"method", .text, none⟩, ⟨"args", .nodes .expr, none⟩]
      make := .methodCall }
  | "echo" => some
    { fields := [⟨"value", .node .expr, none⟩]
      make := .echo }
  | "return" => some
    { fields := [⟨"value", .node .expr, none⟩]
      make := .ret }
  | "while" => some
    { fields := [⟨"condition", .node .expr, none⟩, ⟨"body", .nodes (.stmt true), none⟩]
      make := .loop }
  | "if" => some
    { fields := [⟨"condition", .node .expr, none⟩, ⟨"body", .nodes (.stmt true), none⟩]
      make := .branch }
  | "class" => some ClassDecl.form
  | "function" => some (FunctionDecl.form .functionDecl)
  | _ => none

/-- The tags of a tagged node, and whether a tag may be given by its position. -/
def Node.tags? : Node → Option (List String × Bool)
  | stmt nested => some (Stmt.kinds, nested)
  | expr => some (Expr.kinds, true)
  | _ => none

/-- The form of a node with the given tag; the tag does not matter for a node without tags. -/
def Node.form? : (n : Node) → String → Option (Form n.Tree)
  | program, _ => some
    { fields := [⟨"statements", .nodes (.stmt false), none⟩]
      make := Program.mk }
  | stmt _, kind => Stmt.form? kind
  | method, _ => some (FunctionDecl.form id)
  | param, _ => some
    { fields := [⟨"type", .text, none⟩, ⟨"name", .text, none⟩]
      make := Param.mk }
  | property, _ => some
    { fields := [⟨"type", .text, none⟩, ⟨"name", .text, none⟩, ⟨"value", .node .expr, none⟩]
      make := PropertyDecl.mk }
  | override, _ => some
    { fields := [⟨"name", .text, none⟩, ⟨"value", .node .expr, none⟩]
      make := OverrideDecl.mk }
  | expr, kind => Expr.form? kind
  | operation, _ => some
    { fields := [⟨"operator", .text, none⟩, ⟨"operand", .node .expr, none⟩]
      make := Prod.mk }

/-! ## Reading values -/

/-- Read a method of a class. -/
def FunctionDecl.decode (j : Json) : Option FunctionDecl :=
  match fields? ["name", "params", "return_type", "body"] j with
  | some [some ⟨.string name, _⟩, some ⟨.array params, _⟩, some ⟨.string returnType, _⟩,
      some ⟨.array body, _⟩] =>
    match params.mapM Param.decode with
    | none => none
    | some params =>
      (Stmt.decodeAll true body).map fun body => ⟨name, params, returnType, body⟩
  | _ => none

/-- Read a symbol and its operand. -/
def Expr.decodeOperation (j : Json) : Option (String × Expr) :=
  match fields? ["operator", "operand"] j with
  | some [some ⟨.string symbol, _⟩, some ⟨operand, _⟩] =>
    (Expr.decode true operand).map (symbol, ·)
  | _ => none

/-- Read a node. -/
def Node.decode : (n : Node) → Json → Option n.Tree
  | program => Program.decode
  | stmt nested => Stmt.decode nested
  | method => FunctionDecl.decode
  | param => Param.decode
  | property => PropertyDecl.decode
  | override => OverrideDecl.decode
  | expr => Expr.decode true
  | operation => Expr.decodeOperation

/-- The content of a string. -/
def Json.text? : Json → Option String
  | .string s => some s
  | _ => none

/-- The items of an array. -/
def Json.items? : Json → Option (List Json)
  | .array items => some items
  | _ => none

/-- The name of a parent, or none if it is empty. -/
def Json.parent? : Json → Option (Option String)
  | .null => some none
  | .string name => some (some name)
  | _ => none

/-- Nothing, of an empty value. -/
def Json.empty? : Json → Option Unit
  | .null | .object [] => some ()
  | _ => none

/-- Read a value. -/
def Shape.decode : (s : Shape) → Json → Option s.Tree
  | node n => n.decode
  | nodes n => fun j => j.items?.bind (·.mapM n.decode)
  | text => Json.text?
  | sort => LiteralKind.decode
  | empty => Json.empty?
  | parent => Json.parent?
  | tag names nested => tagName? names nested
  | ignored => fun _ => some ()

/-! ## Reading records -/

/-- Read a field that may be missing. -/
def Field.read (f : Field) (v? : Option Json) : Option f.shape.Tree :=
  (v?.or f.default?).bind f.shape.decode

/-- Read a field from the values of its key. -/
def Field.ofValues (f : Field) : List Json → Option f.shape.Tree
  | [] => f.read none
  | [v] => f.read (some v)
  | _ => none

section

variable {T : Type}

/-- Read the fields of an object. -/
def Maker.ofMembers (members : List (String × Json)) : {fs : List Field} → Maker T fs → Option T
  | [], t => some t
  | f :: _, g => (f.ofValues (valuesOf f.key members)).bind fun x => ofMembers members (g x)

/-- Read the fields from their positions in an array; the last ones may be missing. -/
def Maker.ofItems : {fs : List Field} → Maker T fs → List Json → Option T
  | [], t, [] => some t
  | [], _, _ :: _ => none
  | f :: _, g, [] => (f.read none).bind fun x => ofItems (g x) []
  | f :: _, g, v :: items => (f.read (some v)).bind fun x => ofItems (g x) items

/-- Read a record. -/
def Form.decode (form : Form T) : Json → Option T
  | .object members => form.make.ofMembers members
  | .array items => form.make.ofItems items
  | _ => none

/-- Read fields that have been found. -/
def Maker.read : {fs : List Field} → Maker T fs → List (Option Json) → Option T
  | [], t, [] => some t
  | f :: _, g, v? :: vs => (f.read v?).bind fun x => read (g x) vs
  | _, _, _ => none

theorem Field.ofValues_valuesOf (f : Field) (members : List (String × Json)) :
    f.ofValues (valuesOf f.key members) =
      (field? members f.key).bind fun v? => f.read (v?.map Subtype.val) := by
  unfold field?
  split
  · rename_i h
    simp [h, ofValues]
  · rename_i h
    simp [h, ofValues]
  · rename_i hnil hone
    rw [ofValues]
    · rfl
    · exact hnil
    · exact hone

theorem Maker.read_members (members : List (String × Json)) {fs : List Field} (g : Maker T fs) :
    ((fs.map Field.key).mapM (field? members)).bind
      (fun vs => g.read (vs.map (·.map Subtype.val))) = g.ofMembers members := by
  induction fs with
  | nil => rfl
  | cons f fs ih =>
    rw [List.map_cons, List.mapM_cons, ofMembers, Field.ofValues_valuesOf]
    cases field? members f.key with
    | none => rfl
    | some v? =>
      simp only [Option.bind_eq_bind, Option.bind_some, ← ih]
      cases List.mapM (field? members) (fs.map Field.key) with
      | none => exact (Option.bind_fun_none _).symm
      | some vs => rfl

theorem Maker.read_items {fs : List Field} (g : Maker T fs) (items : List Json)
    (h : items.length ≤ fs.length) :
    g.read (items.map some ++ List.replicate (fs.length - items.length) none) =
      g.ofItems items := by
  induction fs generalizing items with
  | nil =>
    obtain rfl := List.length_eq_zero_iff.1 (Nat.le_zero.1 h)
    rfl
  | cons f fs ih =>
    cases items with
    | nil => exact Option.bind_congr fun x _ => ih (g x) [] (Nat.zero_le _)
    | cons v items =>
      rw [List.length_cons, List.length_cons, Nat.add_sub_add_right]
      exact Option.bind_congr fun x _ => ih (g x) items (Nat.le_of_succ_le_succ h)

theorem Maker.ofItems_eq_none {fs : List Field} (g : Maker T fs) {items : List Json}
    (h : fs.length < items.length) : g.ofItems items = none := by
  induction fs generalizing items with
  | nil =>
    cases items with
    | nil => cases h
    | cons v items => rfl
  | cons f fs ih =>
    cases items with
    | nil => cases h
    | cons v items =>
      rw [ofItems]
      simp only [ih _ (Nat.lt_of_succ_lt_succ h), Option.bind_fun_none]

/-- A record is read by finding its fields and reading what was found. -/
theorem Form.decode_eq_read (form : Form T) (j : Json) :
    form.decode j = (fields? (form.fields.map Field.key) j).bind fun vs =>
      form.make.read (vs.map (·.map Subtype.val)) := by
  cases j with
  | null | bool | integer | decimal | string => rfl
  | object members => exact (Maker.read_members members form.make).symm
  | array items =>
    rw [decode, fields?, List.length_map]
    split
    · rename_i h
      rw [← Maker.read_items _ _ h, Option.bind_some]
      simp [Function.comp_def]
    · rename_i h
      exact Maker.ofItems_eq_none _ (Nat.lt_of_not_le h)

end

/-! ## The values of a key -/

namespace Json

theorem valuesOf_append (key : String) (l l' : List (String × Json)) :
    valuesOf key (l ++ l') = valuesOf key l ++ valuesOf key l' :=
  List.filterMap_append

theorem valuesOf_cons_self (key : String) (v : Json) (members : List (String × Json)) :
    valuesOf key ((key, v) :: members) = v :: valuesOf key members := by
  simp [valuesOf]

theorem valuesOf_cons_of_ne {key key' : String} (h : key' ≠ key) (v : Json)
    (members : List (String × Json)) :
    valuesOf key ((key', v) :: members) = valuesOf key members := by
  simp [valuesOf, h]

theorem valuesOf_insert_self (key : String) (v : Json) (before after : List (String × Json)) :
    valuesOf key (before ++ (key, v) :: after) =
      valuesOf key before ++ v :: valuesOf key after := by
  rw [valuesOf_append, valuesOf_cons_self]

theorem valuesOf_insert_of_ne {key key' : String} (h : key' ≠ key) (v : Json)
    (before after : List (String × Json)) :
    valuesOf key (before ++ (key', v) :: after) = valuesOf key (before ++ after) := by
  rw [valuesOf_append, valuesOf_cons_of_ne h, valuesOf_append]

theorem valuesOf_eq_nil {key : String} {members : List (String × Json)}
    (h : key ∉ members.map Prod.fst) : valuesOf key members = [] := by
  induction members with
  | nil => rfl
  | cons m members ih =>
    rw [List.map_cons, List.mem_cons, not_or] at h
    rw [valuesOf_cons_of_ne (Ne.symm h.1), ih h.2]

theorem valuesOf_zip_eq_nil {key : String} {keys : List String} {vs : List Json}
    (h : key ∉ keys) : valuesOf key (keys.zip vs) = [] := by
  refine valuesOf_eq_nil fun hmem => h ?_
  obtain ⟨⟨key', v⟩, hm, rfl⟩ := List.mem_map.1 hmem
  exact (List.of_mem_zip hm).1

end Json

/-- Objects are read alike if each field is. -/
theorem Maker.ofMembers_congr {T : Type} {fs : List Field} (g : Maker T fs)
    {members members' : List (String × Json)}
    (h : ∀ f ∈ fs, f.ofValues (valuesOf f.key members) = f.ofValues (valuesOf f.key members')) :
    g.ofMembers members = g.ofMembers members' := by
  induction fs with
  | nil => rfl
  | cons f fs ih =>
    rw [ofMembers, ofMembers, h f List.mem_cons_self]
    exact Option.bind_congr fun x _ => ih (g x) fun f hf => h f (List.mem_cons_of_mem _ hf)

/-- A member that is no field is passed over. -/
theorem Maker.ofMembers_insert {T : Type} {fs : List Field} (g : Maker T fs) {key : String}
    (h : key ∉ fs.map Field.key) (v : Json) (before after : List (String × Json)) :
    g.ofMembers (before ++ (key, v) :: after) = g.ofMembers (before ++ after) := by
  refine g.ofMembers_congr fun f hf => ?_
  have hne : key ≠ f.key := fun heq => h (heq ▸ List.mem_map_of_mem hf)
  rw [Json.valuesOf_insert_of_ne hne]

/-! ## Lists of nodes -/

namespace Expr

theorem decodeAll_eq_mapM (items : List Json) : decodeAll items = items.mapM (decode true) := by
  induction items with
  | nil => rw [decodeAll, List.mapM_nil]; rfl
  | cons j rest ih =>
    rw [decodeAll, List.mapM_cons, ih]
    cases decode true j with
    | none => rfl
    | some e => cases List.mapM (decode true) rest <;> rfl

theorem decodeTail_eq_mapM (items : List Json) :
    decodeTail items = items.mapM decodeOperation := by
  induction items with
  | nil => rw [decodeTail, List.mapM_nil]; rfl
  | cons j rest ih =>
    rw [decodeTail, List.mapM_cons, ih, decodeOperation]
    rcases fields? ["operator", "operand"] j with
      _ | _ | ⟨_ | ⟨symbol, _⟩, _ | ⟨_ | ⟨operand, _⟩, _ | _⟩⟩
    all_goals try rfl
    all_goals cases symbol <;> try rfl
    dsimp only
    cases decode true operand with
    | none => rfl
    | some e => cases List.mapM decodeOperation rest <;> rfl

end Expr

theorem Stmt.decodeAll_eq_mapM (nested : Bool) (items : List Json) :
    decodeAll nested items = items.mapM (decode nested) := by
  induction items with
  | nil => rw [decodeAll, List.mapM_nil]; rfl
  | cons j rest ih =>
    rw [decodeAll, List.mapM_cons, ih]
    cases decode nested j with
    | none => rfl
    | some s => cases List.mapM (decode nested) rest <;> rfl

theorem FunctionDecl.decodeAll_eq_mapM (items : List Json) :
    decodeAll items = items.mapM decode := by
  induction items with
  | nil => rw [decodeAll, List.mapM_nil]; rfl
  | cons j rest ih =>
    rw [decodeAll, List.mapM_cons, ih, decode]
    rcases fields? ["name", "params", "return_type", "body"] j with
      _ | _ | ⟨_ | ⟨name, _⟩, _ | ⟨_ | ⟨params, _⟩, _ | ⟨_ | ⟨type, _⟩,
        _ | ⟨_ | ⟨body, _⟩, _ | _⟩⟩⟩⟩
    all_goals try rfl
    all_goals cases name <;> try rfl
    all_goals cases params <;> try rfl
    all_goals cases type <;> try rfl
    all_goals cases body <;> try rfl
    rename_i params _ _ _ body _
    dsimp only
    cases params.mapM Param.decode with
    | none => rfl
    | some params =>
      cases Stmt.decodeAll true body with
      | none => rfl
      | some body => cases List.mapM decode rest <;> rfl

/-! ## Decoders and forms

The decoders match the fields that were found, and a form reads them one after the other. For each
list of shapes that occurs, the two are the same. -/

theorem Json.length_of_fields? {keys : List String} {j : Json} {vs : List (Option j.Part)}
    (h : fields? keys j = some vs) : vs.length = keys.length := by
  cases j with
  | null | bool | integer | decimal | string => cases h
  | object members =>
    rw [fields?] at h
    induction keys generalizing vs with
    | nil => cases h; rfl
    | cons key keys ih =>
      simp only [List.mapM_cons, Option.bind_eq_bind, Option.pure_def] at h
      obtain ⟨v, -, h⟩ := Option.bind_eq_some_iff.1 h
      obtain ⟨vs, hvs, h⟩ := Option.bind_eq_some_iff.1 h
      cases h
      exact congrArg (· + 1) (ih hvs)
  | array items =>
    rw [fields?] at h
    split at h
    · cases h
      simp only [List.length_append, List.length_map, List.length_attach, List.length_replicate]
      omega
    · cases h

namespace Form

variable {T : Type} (j : Json)

theorem decode_node {key : String} {n : Node} {make : n.Tree → T} {nodup plain} :
    (match fields? [key] j with
      | some [some ⟨value, _⟩] => (n.decode value).map make
      | _ => none) = decode ⟨[⟨key, .node n, none⟩], make, nodup, plain⟩ j := by
  rw [decode_eq_read, List.map_cons, List.map_nil]
  rcases h : fields? [key] j with _ | vs
  · rfl
  · obtain ⟨a, rfl⟩ := List.length_eq_one_iff.1 (Json.length_of_fields? h)
    rcases a with _ | ⟨value, _⟩
    · rfl
    · exact Option.map_eq_bind

theorem decode_nodes {key : String} {n : Node} {make : List n.Tree → T} {nodup plain} :
    (match fields? [key] j with
      | some [some ⟨.array items, _⟩] => (items.mapM n.decode).map make
      | _ => none) = decode ⟨[⟨key, .nodes n, none⟩], make, nodup, plain⟩ j := by
  rw [decode_eq_read, List.map_cons, List.map_nil]
  rcases h : fields? [key] j with _ | vs
  · rfl
  · obtain ⟨a, rfl⟩ := List.length_eq_one_iff.1 (Json.length_of_fields? h)
    rcases a with _ | ⟨_ | _ | _ | _ | _ | items | _, _⟩
    all_goals try rfl
    exact Option.map_eq_bind

theorem decode_text {key : String} {make : String → T} {nodup plain} :
    (match fields? [key] j with
      | some [some ⟨.string text, _⟩] => some (make text)
      | _ => none) = decode ⟨[⟨key, .text, none⟩], make, nodup, plain⟩ j := by
  rw [decode_eq_read, List.map_cons, List.map_nil]
  rcases h : fields? [key] j with _ | vs
  · rfl
  · obtain ⟨a, rfl⟩ := List.length_eq_one_iff.1 (Json.length_of_fields? h)
    rcases a with _ | ⟨_ | _ | _ | _ | text | _ | _, _⟩ <;> rfl

theorem decode_sort_text {key key' : String} {make : LiteralKind → String → T} {nodup plain} :
    (match fields? [key, key'] j with
      | some [some ⟨sort, _⟩, some ⟨.string text, _⟩] =>
        (LiteralKind.decode sort).map fun sort => make sort text
      | _ => none) =
    decode ⟨[⟨key, .sort, none⟩, ⟨key', .text, none⟩], make, nodup, plain⟩ j := by
  rw [decode_eq_read, List.map_cons, List.map_cons, List.map_nil]
  rcases h : fields? [key, key'] j with _ | vs
  · rfl
  · obtain ⟨a, b, rfl⟩ := List.length_eq_two.1 (Json.length_of_fields? h)
    rcases a with _ | ⟨sort, _⟩
    · rfl
    · rcases b with _ | ⟨_ | _ | _ | _ | text | _ | _, _⟩
      all_goals try exact (Option.bind_fun_none _).symm
      exact Option.map_eq_bind

theorem decode_text_text {key key' : String} {make : String → String → T} {nodup plain} :
    (match fields? [key, key'] j with
      | some [some ⟨.string text, _⟩, some ⟨.string text', _⟩] => some (make text text')
      | _ => none) =
    decode ⟨[⟨key, .text, none⟩, ⟨key', .text, none⟩], make, nodup, plain⟩ j := by
  rw [decode_eq_read, List.map_cons, List.map_cons, List.map_nil]
  rcases h : fields? [key, key'] j with _ | vs
  · rfl
  · obtain ⟨a, b, rfl⟩ := List.length_eq_two.1 (Json.length_of_fields? h)
    rcases a with _ | ⟨_ | _ | _ | _ | text | _ | _, _⟩
    all_goals try rfl
    rcases b with _ | ⟨_ | _ | _ | _ | text' | _ | _, _⟩ <;> rfl

theorem decode_text_node {key key' : String} {n : Node} {make : String → n.Tree → T}
    {nodup plain} :
    (match fields? [key, key'] j with
      | some [some ⟨.string text, _⟩, some ⟨value, _⟩] => (n.decode value).map (make text)
      | _ => none) =
    decode ⟨[⟨key, .text, none⟩, ⟨key', .node n, none⟩], make, nodup, plain⟩ j := by
  rw [decode_eq_read, List.map_cons, List.map_cons, List.map_nil]
  rcases h : fields? [key, key'] j with _ | vs
  · rfl
  · obtain ⟨a, b, rfl⟩ := List.length_eq_two.1 (Json.length_of_fields? h)
    rcases a with _ | ⟨_ | _ | _ | _ | text | _ | _, _⟩
    all_goals try rfl
    rcases b with _ | ⟨value, _⟩
    · rfl
    · exact Option.map_eq_bind

theorem decode_text_nodes {key key' : String} {n : Node} {make : String → List n.Tree → T}
    {nodup plain} :
    (match fields? [key, key'] j with
      | some [some ⟨.string text, _⟩, some ⟨.array items, _⟩] =>
        (items.mapM n.decode).map (make text)
      | _ => none) =
    decode ⟨[⟨key, .text, none⟩, ⟨key', .nodes n, none⟩], make, nodup, plain⟩ j := by
  rw [decode_eq_read, List.map_cons, List.map_cons, List.map_nil]
  rcases h : fields? [key, key'] j with _ | vs
  · rfl
  · obtain ⟨a, b, rfl⟩ := List.length_eq_two.1 (Json.length_of_fields? h)
    rcases a with _ | ⟨_ | _ | _ | _ | text | _ | _, _⟩
    all_goals try rfl
    rcases b with _ | ⟨_ | _ | _ | _ | _ | items | _, _⟩
    all_goals try rfl
    exact Option.map_eq_bind

theorem decode_node_nodes {key key' : String} {n m : Node} {make : n.Tree → List m.Tree → T}
    {nodup plain} {both : Json → List Json → Option T}
    (h : ∀ value items, both value items =
      (n.decode value).bind fun t => (items.mapM m.decode).map (make t)) :
    (match fields? [key, key'] j with
      | some [some ⟨value, _⟩, some ⟨.array items, _⟩] => both value items
      | _ => none) =
    decode ⟨[⟨key, .node n, none⟩, ⟨key', .nodes m, none⟩], make, nodup, plain⟩ j := by
  rw [decode_eq_read, List.map_cons, List.map_cons, List.map_nil]
  rcases hvs : fields? [key, key'] j with _ | vs
  · rfl
  · obtain ⟨a, b, rfl⟩ := List.length_eq_two.1 (Json.length_of_fields? hvs)
    rcases a with _ | ⟨value, _⟩
    · rfl
    · rcases b with _ | ⟨_ | _ | _ | _ | _ | items | _, _⟩
      all_goals try exact (Option.bind_fun_none _).symm
      exact (h value items).trans (Option.bind_congr fun t _ => Option.map_eq_bind)

theorem decode_text_text_node {key key' key'' : String} {n : Node}
    {make : String → String → n.Tree → T} {nodup plain} :
    (match fields? [key, key', key''] j with
      | some [some ⟨.string text, _⟩, some ⟨.string text', _⟩, some ⟨value, _⟩] =>
        (n.decode value).map (make text text')
      | _ => none) =
    decode ⟨[⟨key, .text, none⟩, ⟨key', .text, none⟩, ⟨key'', .node n, none⟩], make, nodup, plain⟩
      j := by
  rw [decode_eq_read, List.map_cons, List.map_cons, List.map_cons, List.map_nil]
  rcases h : fields? [key, key', key''] j with _ | vs
  · rfl
  · obtain ⟨a, b, c, rfl⟩ := List.length_eq_three.1 (Json.length_of_fields? h)
    rcases a with _ | ⟨_ | _ | _ | _ | text | _ | _, _⟩
    all_goals try rfl
    rcases b with _ | ⟨_ | _ | _ | _ | text' | _ | _, _⟩
    all_goals try rfl
    rcases c with _ | ⟨value, _⟩
    · rfl
    · exact Option.map_eq_bind

theorem decode_text_text_nodes {key key' key'' : String} {n : Node}
    {make : String → String → List n.Tree → T} {nodup plain} :
    (match fields? [key, key', key''] j with
      | some [some ⟨.string text, _⟩, some ⟨.string text', _⟩, some ⟨.array items, _⟩] =>
        (items.mapM n.decode).map (make text text')
      | _ => none) =
    decode ⟨[⟨key, .text, none⟩, ⟨key', .text, none⟩, ⟨key'', .nodes n, none⟩], make, nodup, plain⟩
      j := by
  rw [decode_eq_read, List.map_cons, List.map_cons, List.map_cons, List.map_nil]
  rcases h : fields? [key, key', key''] j with _ | vs
  · rfl
  · obtain ⟨a, b, c, rfl⟩ := List.length_eq_three.1 (Json.length_of_fields? h)
    rcases a with _ | ⟨_ | _ | _ | _ | text | _ | _, _⟩
    all_goals try rfl
    rcases b with _ | ⟨_ | _ | _ | _ | text' | _ | _, _⟩
    all_goals try rfl
    rcases c with _ | ⟨_ | _ | _ | _ | _ | items | _, _⟩
    all_goals try rfl
    exact Option.map_eq_bind

theorem decode_function {make : FunctionDecl → T}
    {whole : String → List Json → String → List Json → Option T}
    (h : ∀ name params returnType body, whole name params returnType body =
      (params.mapM Param.decode).bind fun params =>
        (body.mapM (Stmt.decode true)).map fun body => make ⟨name, params, returnType, body⟩) :
    (match fields? ["name", "params", "return_type", "body"] j with
      | some [some ⟨.string name, _⟩, some ⟨.array params, _⟩, some ⟨.string returnType, _⟩,
          some ⟨.array body, _⟩] => whole name params returnType body
      | _ => none) = (FunctionDecl.form make).decode j := by
  rw [decode_eq_read]
  change _ = (fields? ["name", "params", "return_type", "body"] j).bind _
  rcases hvs : fields? ["name", "params", "return_type", "body"] j with _ | vs
  · rfl
  · obtain ⟨a, b, c, d, rfl⟩ := List.length_eq_four.1 (Json.length_of_fields? hvs)
    rcases a with _ | ⟨_ | _ | _ | _ | name | _ | _, _⟩
    all_goals try rfl
    rcases b with _ | ⟨_ | _ | _ | _ | _ | params | _, _⟩
    all_goals try rfl
    rcases c with _ | ⟨_ | _ | _ | _ | returnType | _ | _, _⟩
    all_goals try exact (Option.bind_fun_none _).symm
    rcases d with _ | ⟨_ | _ | _ | _ | _ | body | _, _⟩
    all_goals try exact (Option.bind_fun_none _).symm
    exact (h name params returnType body).trans
      (Option.bind_congr fun params _ => Option.map_eq_bind)

end Form

theorem ClassDecl.decodeParent_eq {j : Json} (v? : Option j.Part) :
    decodeParent v? =
      Field.read ⟨"parent", .parent, some .null⟩ (v?.map Subtype.val) := by
  rcases v? with _ | ⟨_ | _ | _ | _ | _ | _ | _, _⟩ <;> rfl

theorem ClassDecl.decodeBlock_eq {j : Json} (key : String) (n : Node) (v? : Option j.Part) :
    decodeBlock n.decode v? =
      Field.read ⟨key, .nodes n, some (.array [])⟩ (v?.map Subtype.val) := by
  rcases v? with _ | ⟨_ | _ | _ | _ | _ | _ | _, _⟩ <;> rfl

theorem Form.decode_class (j : Json) :
    (match fields? ["name", "parent", "overrides", "properties", "methods"] j with
      | some [some ⟨.string name, _⟩, parent, overrides, properties, methods] =>
        match ClassDecl.decodeParent parent,
            ClassDecl.decodeBlock OverrideDecl.decode overrides,
            ClassDecl.decodeBlock PropertyDecl.decode properties with
        | some parent, some overrides, some properties =>
          match methods with
          | none => some (.classDecl ⟨name, parent, overrides, properties, []⟩)
          | some ⟨.array methods, _⟩ => (methods.mapM FunctionDecl.decode).map fun methods =>
            .classDecl ⟨name, parent, overrides, properties, methods⟩
          | _ => none
        | _, _, _ => none
      | _ => none) = ClassDecl.form.decode j := by
  rw [decode_eq_read]
  change _ = (fields? ["name", "parent", "overrides", "properties", "methods"] j).bind _
  rcases hvs : fields? ["name", "parent", "overrides", "properties", "methods"] j with _ | vs
  · rfl
  · obtain ⟨a, parent, overrides, properties, methods, rfl⟩ :
        ∃ a b c d e, vs = [a, b, c, d, e] := by
      match vs, Json.length_of_fields? hvs with
      | [a, b, c, d, e], _ => exact ⟨a, b, c, d, e, rfl⟩
    rcases a with _ | ⟨_ | _ | _ | _ | name | _ | _, _⟩
    all_goals try rfl
    have hoverrides := ClassDecl.decodeBlock_eq "overrides" .override overrides
    have hproperties := ClassDecl.decodeBlock_eq "properties" .property properties
    simp only [Node.decode] at hoverrides hproperties
    simp only [ClassDecl.decodeParent_eq, hoverrides, hproperties, Option.bind_some]
    change _ = (Field.read ⟨"parent", .parent, some .null⟩ (parent.map Subtype.val)).bind _
    cases Field.read ⟨"parent", .parent, some .null⟩ (parent.map Subtype.val) with
    | none => rfl
    | some parent =>
      change _ = (Field.read _ (overrides.map Subtype.val)).bind _
      cases Field.read ⟨"overrides", .nodes .override, some (.array [])⟩
          (overrides.map Subtype.val) with
      | none => rfl
      | some overrides =>
        change _ = (Field.read _ (properties.map Subtype.val)).bind _
        cases Field.read ⟨"properties", .nodes .property, some (.array [])⟩
            (properties.map Subtype.val) with
        | none => rfl
        | some properties =>
          rcases methods with _ | ⟨_ | _ | _ | _ | _ | methods | _, _⟩
          all_goals try rfl
          exact Option.map_eq_bind

theorem Expr.decode_eq (nested : Bool) (j : Json) :
    decode nested j = (tagged? kinds nested j).bind fun t => (form? t.1).bind (·.decode t.2) := by
  rw [decode]
  rcases tagged? kinds nested j with _ | ⟨kind, record, hr⟩
  · rfl
  · rw [Option.bind_some]
    simp only [decodeAll_eq_mapM, decodeTail_eq_mapM]
    split
    all_goals simp only [form?, Option.bind_some]
    · exact Form.decode_sort_text record
    · exact Form.decode_text record
    · exact Form.decode_node (n := .expr) record
    · exact Form.decode_text_nodes (n := .expr) record
    · exact Form.decode_text_nodes (n := .expr) record
    · exact Form.decode_text_text_nodes (n := .expr) record
    · exact Form.decode_text_text record
    · exact Form.decode_node (n := .expr) record
    · refine Form.decode_node_nodes (n := .expr) (m := .operation) record fun head tail => ?_
      simp only [Node.decode]
      cases decode true head <;> rfl
    · rfl

theorem Stmt.decode_eq (nested : Bool) (j : Json) :
    decode nested j = (tagged? kinds nested j).bind fun t => (form? t.1).bind (·.decode t.2) := by
  rw [decode]
  rcases tagged? kinds nested j with _ | ⟨kind, record, hr⟩
  · rfl
  · rw [Option.bind_some]
    simp only [Expr.decodeAll_eq_mapM, decodeAll_eq_mapM, FunctionDecl.decodeAll_eq_mapM]
    split
    all_goals simp only [form?, Option.bind_some]
    · exact Form.decode_text_text_node (n := .expr) record
    · exact Form.decode_text_node (n := .expr) record
    · exact Form.decode_text_nodes (n := .expr) record
    · exact Form.decode_text_text_nodes (n := .expr) record
    · exact Form.decode_node (n := .expr) record
    · exact Form.decode_node (n := .expr) record
    · refine Form.decode_node_nodes (n := .expr) (m := .stmt true) record fun condition body => ?_
      simp only [Node.decode]
      cases Expr.decode true condition <;> rfl
    · refine Form.decode_node_nodes (n := .expr) (m := .stmt true) record fun condition body => ?_
      simp only [Node.decode]
      cases Expr.decode true condition <;> rfl
    · exact Form.decode_class record
    · refine Form.decode_function record fun name params returnType body => ?_
      cases params.mapM Param.decode <;> rfl
    · rfl

/-- The form of a node, and the record of its fields. -/
def Node.open? (n : Node) (j : Json) : Option (Form n.Tree × Json) :=
  match n.tags? with
  | none => (n.form? "").map (·, j)
  | some (names, nested) => (tagged? names nested j).bind fun t => (n.form? t.1).map (·, t.2.1)

/-- **Nodes are read by their forms.** -/
theorem Node.decode_eq (n : Node) (j : Json) :
    n.decode j = (n.open? j).bind fun opened => opened.1.decode opened.2 := by
  cases n with
  | program =>
    change Program.decode j = _
    simp only [Program.decode, Stmt.decodeAll_eq_mapM]
    exact Form.decode_nodes (n := .stmt false) j
  | stmt nested =>
    change Stmt.decode nested j = ((tagged? Stmt.kinds nested j).bind _).bind _
    rw [Stmt.decode_eq, Option.bind_assoc]
    exact Option.bind_congr fun t _ => by rw [form?, Option.bind_map]; rfl
  | method =>
    refine Form.decode_function j fun name params returnType body => ?_
    rw [Stmt.decodeAll_eq_mapM]
    cases params.mapM Param.decode <;> rfl
  | param => exact Form.decode_text_text j
  | property => exact Form.decode_text_text_node (n := .expr) j
  | override => exact Form.decode_text_node (n := .expr) j
  | expr =>
    change Expr.decode true j = ((tagged? Expr.kinds true j).bind _).bind _
    rw [Expr.decode_eq, Option.bind_assoc]
    exact Option.bind_congr fun t _ => by rw [form?, Option.bind_map]; rfl
  | operation => exact Form.decode_text_node (n := .expr) j

end FlannelScript
