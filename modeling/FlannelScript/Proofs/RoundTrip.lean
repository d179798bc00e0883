import FlannelScript.Tree.Encode
import FlannelScript.Proofs.Forms
import FlannelScript.Proofs.JsonText

/-!
# Writing a program and reading it back

The written form of a node has all the fields of its form, each once and in order, so reading it
comes down to reading the values one after the other (`Maker.ofMembers_zip`). By induction over the
tree every program is what its written form is read as (`Program.decode_encode`).

The text of a program adds one condition: a document of more than `Program.maxLevels` levels is
refused. As the JSON of a program has no numbers in it, this is the only thing that can keep its
text from being read back. Both together are the main statement, `Program.round_trip`.
-/

namespace FlannelScript

open Json (valuesOf tagged? tagName? tagKey)

/-! ## Records with all their fields -/

section

variable {T : Type}

/-- An object with all the fields of a record in order is read like the list of their values. -/
theorem Maker.ofMembers_zip {fs : List Field} (g : Maker T fs) (vs : List Json)
    (hnodup : (fs.map Field.key).Nodup) (hlen : vs.length = fs.length) :
    g.ofMembers ((fs.map Field.key).zip vs) = g.ofItems vs := by
  induction fs generalizing vs with
  | nil =>
    obtain rfl := List.length_eq_zero_iff.1 hlen
    rfl
  | cons f fs ih =>
    cases vs with
    | nil => cases hlen
    | cons v vs =>
      rw [List.map_cons, List.nodup_cons] at hnodup
      rw [List.map_cons, List.zip_cons_cons, ofMembers, Json.valuesOf_cons_self,
        Json.valuesOf_zip_eq_nil hnodup.1]
      refine Option.bind_congr fun x _ => ?_
      rw [← ih (g x) vs hnodup.2 (Nat.succ.inj hlen)]
      exact (g x).ofMembers_insert hnodup.1 v [] _

theorem Maker.ofItems_cons {f : Field} {fs : List Field} {g : Maker T (f :: fs)} {v : Json}
    {x : f.shape.Tree} {vs : List Json} {t : T} (hv : f.shape.decode v = some x)
    (hvs : (g x).ofItems vs = some t) : g.ofItems (v :: vs) = some t := by
  rw [ofItems, Field.read, Option.some_or, Option.bind_some, hv]
  exact hvs

end

namespace Node

/-- A plain node is read from all of its fields. -/
theorem decode_object {n : Node} {form : Form n.Tree} {t : n.Tree} (htags : n.tags? = none)
    (hform : n.form? "" = some form) (vs : List Json) (hlen : vs.length = form.fields.length)
    (hvs : form.make.ofItems vs = some t) :
    n.decode (.object ((form.fields.map Field.key).zip vs)) = some t := by
  rw [decode_eq, open?, htags, hform, ← hvs]
  exact form.make.ofMembers_zip vs form.nodup hlen

/-- A tagged node is read from its tag and all of its fields. -/
theorem decode_record {n : Node} {names : List String} {nested : Bool} (kind : String)
    {form : Form n.Tree} {t : n.Tree} (htags : n.tags? = some (names, nested))
    (hkind : kind ∈ names) (hform : n.form? kind = some form) (vs : List Json)
    (hlen : vs.length = form.fields.length) (hvs : form.make.ofItems vs = some t) :
    n.decode (.record kind ((form.fields.map Field.key).zip vs)) = some t := by
  have hfields := (form.make.ofMembers_insert form.plain (.string kind) [] _).trans
    (form.make.ofMembers_zip vs form.nodup hlen)
  have htag : valuesOf tagKey ((tagKey, .string kind) :: (form.fields.map Field.key).zip vs) =
      [.string kind] := by
    rw [Json.valuesOf_cons_self, Json.valuesOf_zip_eq_nil form.plain]
  rw [decode_eq, open?, htags]
  change ((tagged? names nested (.object ((tagKey, .string kind) :: _))).bind _).bind _ = _
  rw [tagged?, htag]
  simp only [tagName?, hkind, if_true]
  change ((n.form? kind).map _).bind _ = _
  rw [hform, ← hvs]
  exact hfields

end Node

/-! ## Trees -/

mutual

theorem Expr.decode_encode : (e : Expr) → Expr.decode true e.encode = some e
  | .literal kind raw => by
    have hkind : LiteralKind.decode (.string kind.word) = some kind := by cases kind <;> rfl
    exact Node.decode_record (n := .expr) "literal" rfl (by decide) rfl
      [.string kind.word, .string raw] rfl (Maker.ofItems_cons hkind rfl)
  | .name word =>
    Node.decode_record (n := .expr) "name" rfl (by decide) rfl [.string word] rfl rfl
  | .not operand => by
    refine Node.decode_record (n := .expr) "not" rfl (by decide) rfl [operand.encode] rfl ?_
    exact Maker.ofItems_cons (Expr.decode_encode operand) rfl
  | .call function args => by
    refine Node.decode_record (n := .expr) "call" rfl (by decide) rfl
      [.string function, .array (Expr.encodeAll args)] rfl ?_
    exact Maker.ofItems_cons rfl (Maker.ofItems_cons (Expr.mapM_decode_encodeAll args) rfl)
  | .construct className args => by
    refine Node.decode_record (n := .expr) "construct" rfl (by decide) rfl
      [.string className, .array (Expr.encodeAll args)] rfl ?_
    exact Maker.ofItems_cons rfl (Maker.ofItems_cons (Expr.mapM_decode_encodeAll args) rfl)
  | .methodCall object method args => by
    refine Node.decode_record (n := .expr) "method_call" rfl (by decide) rfl
      [.string object, .string method, .array (Expr.encodeAll args)] rfl ?_
    exact Maker.ofItems_cons rfl (Maker.ofItems_cons rfl
      (Maker.ofItems_cons (Expr.mapM_decode_encodeAll args) rfl))
  | .property object key =>
    Node.decode_record (n := .expr) "property" rfl (by decide) rfl [.string object, .string key]
      rfl rfl
  | .ask prompt => by
    refine Node.decode_record (n := .expr) "ask" rfl (by decide) rfl [prompt.encode] rfl ?_
    exact Maker.ofItems_cons (Expr.decode_encode prompt) rfl
  | .compound head tail => by
    refine Node.decode_record (n := .expr) "compound" rfl (by decide) rfl
      [head.encode, .array (Expr.encodeTail tail)] rfl ?_
    exact Maker.ofItems_cons (Expr.decode_encode head)
      (Maker.ofItems_cons (Expr.mapM_decodeOperation_encodeTail tail) rfl)

theorem Expr.mapM_decode_encodeAll : (es : List Expr) →
    (Expr.encodeAll es).mapM (Expr.decode true) = some es
  | [] => rfl
  | e :: es => by
    rw [Expr.encodeAll, List.mapM_cons, Expr.decode_encode e, Expr.mapM_decode_encodeAll es]
    rfl

theorem Expr.mapM_decodeOperation_encodeTail : (tail : List (String × Expr)) →
    (Expr.encodeTail tail).mapM Expr.decodeOperation = some tail
  | [] => rfl
  | (symbol, operand) :: tail => by
    have hhead : Expr.decodeOperation
        (.object [("operator", .string symbol), ("operand", operand.encode)]) =
        some (symbol, operand) := by
      refine Node.decode_object (n := .operation) rfl rfl [.string symbol, operand.encode] rfl ?_
      exact Maker.ofItems_cons rfl (Maker.ofItems_cons (Expr.decode_encode operand) rfl)
    rw [Expr.encodeTail, List.mapM_cons, hhead, Expr.mapM_decodeOperation_encodeTail tail]
    rfl

end

theorem Param.decode_encode (p : Param) : decode p.encode = some p :=
  Node.decode_object (n := .param) rfl rfl [.string p.type, .string p.name] rfl rfl

theorem OverrideDecl.decode_encode (d : OverrideDecl) : decode d.encode = some d := by
  refine Node.decode_object (n := .override) rfl rfl [.string d.name, d.value.encode] rfl ?_
  exact Maker.ofItems_cons rfl (Maker.ofItems_cons d.value.decode_encode rfl)

theorem PropertyDecl.decode_encode (d : PropertyDecl) : decode d.encode = some d := by
  refine Node.decode_object (n := .property) rfl rfl
    [.string d.type, .string d.name, d.value.encode] rfl ?_
  exact Maker.ofItems_cons rfl (Maker.ofItems_cons rfl
    (Maker.ofItems_cons d.value.decode_encode rfl))

theorem mapM_map_encode {α : Type} {encode : α → Json} {decode : Json → Option α}
    (h : ∀ x, decode (encode x) = some x) (l : List α) : (l.map encode).mapM decode = some l := by
  induction l with
  | nil => rfl
  | cons x l ih =>
    rw [List.map_cons, List.mapM_cons, h, ih]
    rfl

mutual

theorem Stmt.decode_encode (nested : Bool) : (s : Stmt) → Stmt.decode nested s.encode = some s
  | .varDecl type name value => by
    refine Node.decode_record (n := .stmt nested) "var_decl" rfl (by decide) rfl
      [.string type, .string name, value.encode] rfl ?_
    exact Maker.ofItems_cons rfl (Maker.ofItems_cons rfl
      (Maker.ofItems_cons value.decode_encode rfl))
  | .assign name value => by
    refine Node.decode_record (n := .stmt nested) "assign" rfl (by decide) rfl
      [.string name, value.encode] rfl ?_
    exact Maker.ofItems_cons rfl (Maker.ofItems_cons value.decode_encode rfl)
  | .call function args => by
    refine Node.decode_record (n := .stmt nested) "call" rfl (by decide) rfl
      [.string function, .array (Expr.encodeAll args)] rfl ?_
    exact Maker.ofItems_cons rfl (Maker.ofItems_cons (Expr.mapM_decode_encodeAll args) rfl)
  | .methodCall object method args => by
    refine Node.decode_record (n := .stmt nested) "method_call" rfl (by decide) rfl
      [.string object, .string method, .array (Expr.encodeAll args)] rfl ?_
    exact Maker.ofItems_cons rfl (Maker.ofItems_cons rfl
      (Maker.ofItems_cons (Expr.mapM_decode_encodeAll args) rfl))
  | .echo value => by
    refine Node.decode_record (n := .stmt nested) "echo" rfl (by decide) rfl [value.encode] rfl ?_
    exact Maker.ofItems_cons value.decode_encode rfl
  | .ret value => by
    refine Node.decode_record (n := .stmt nested) "return" rfl (by decide) rfl [value.encode] rfl ?_
    exact Maker.ofItems_cons value.decode_encode rfl
  | .loop condition body => by
    refine Node.decode_record (n := .stmt nested) "while" rfl (by decide) rfl
      [condition.encode, .array (Stmt.encodeAll body)] rfl ?_
    exact Maker.ofItems_cons condition.decode_encode
      (Maker.ofItems_cons (Stmt.mapM_decode_encodeAll true body) rfl)
  | .branch condition body => by
    refine Node.decode_record (n := .stmt nested) "if" rfl (by decide) rfl
      [condition.encode, .array (Stmt.encodeAll body)] rfl ?_
    exact Maker.ofItems_cons condition.decode_encode
      (Maker.ofItems_cons (Stmt.mapM_decode_encodeAll true body) rfl)
  | .classDecl ⟨name, parent, overrides, properties, methods⟩ => by
    have hparent : Json.parent? (ClassDecl.encodeParent parent) = some parent := by
      cases parent <;> rfl
    refine Node.decode_record (n := .stmt nested) "class" rfl (by decide) rfl
      [.string name, ClassDecl.encodeParent parent,
        .array (overrides.map OverrideDecl.encode),
        .array (properties.map PropertyDecl.encode),
        .array (FunctionDecl.encodeAll methods)] rfl ?_
    exact Maker.ofItems_cons rfl (Maker.ofItems_cons hparent
      (Maker.ofItems_cons (mapM_map_encode OverrideDecl.decode_encode overrides)
        (Maker.ofItems_cons (mapM_map_encode PropertyDecl.decode_encode properties)
          (Maker.ofItems_cons (FunctionDecl.mapM_decode_encodeAll methods) rfl))))
  | .functionDecl ⟨name, params, returnType, body⟩ => by
    refine Node.decode_record (n := .stmt nested) "function" rfl (by decide) rfl
      [.string name, .array (params.map Param.encode), .string returnType,
        .array (Stmt.encodeAll body)] rfl ?_
    exact Maker.ofItems_cons rfl (Maker.ofItems_cons (mapM_map_encode Param.decode_encode params)
      (Maker.ofItems_cons rfl (Maker.ofItems_cons (Stmt.mapM_decode_encodeAll true body) rfl)))

theorem Stmt.mapM_decode_encodeAll (nested : Bool) : (body : List Stmt) →
    (Stmt.encodeAll body).mapM (Stmt.decode nested) = some body
  | [] => rfl
  | s :: body => by
    rw [Stmt.encodeAll, List.mapM_cons, Stmt.decode_encode nested s,
      Stmt.mapM_decode_encodeAll nested body]
    rfl

theorem FunctionDecl.mapM_decode_encodeAll : (methods : List FunctionDecl) →
    (FunctionDecl.encodeAll methods).mapM FunctionDecl.decode = some methods
  | [] => rfl
  | ⟨name, params, returnType, body⟩ :: methods => by
    have hhead : FunctionDecl.decode (.object [("name", .string name),
        ("params", .array (params.map Param.encode)), ("return_type", .string returnType),
        ("body", .array (Stmt.encodeAll body))]) = some ⟨name, params, returnType, body⟩ := by
      refine Node.decode_object (n := .method) rfl rfl [.string name,
        .array (params.map Param.encode), .string returnType, .array (Stmt.encodeAll body)] rfl ?_
      exact Maker.ofItems_cons rfl (Maker.ofItems_cons (mapM_map_encode Param.decode_encode params)
        (Maker.ofItems_cons rfl (Maker.ofItems_cons (Stmt.mapM_decode_encodeAll true body) rfl)))
    rw [FunctionDecl.encodeAll, List.mapM_cons, hhead, FunctionDecl.mapM_decode_encodeAll methods]
    rfl

end

/-- **Reading undoes writing.** -/
theorem Program.decode_encode (p : Program) : decode p.encode = some p := by
  refine Node.decode_object (n := .program) rfl rfl [.array (Stmt.encodeAll p.statements)] rfl ?_
  exact Maker.ofItems_cons (Stmt.mapM_decode_encodeAll false p.statements) rfl

/-! ## Texts -/

section

open Json (NumberFree)

attribute [local simp] NumberFree.string

mutual

theorem Expr.numberFree_encode : (e : Expr) → e.encode.NumberFree
  | .literal _ _ | .name _ | .property _ _ => .object (by simp)
  | .not operand => .object (by simp [Expr.numberFree_encode operand])
  | .ask prompt => .object (by simp [Expr.numberFree_encode prompt])
  | .call _ args | .construct _ args | .methodCall _ _ args =>
    .object (by simp [NumberFree.array (Expr.numberFree_encodeAll args)])
  | .compound head tail =>
    .object (by simp [Expr.numberFree_encode head,
      NumberFree.array (Expr.numberFree_encodeTail tail)])

theorem Expr.numberFree_encodeAll : (es : List Expr) → ∀ j ∈ Expr.encodeAll es, j.NumberFree
  | [] => by simp [Expr.encodeAll]
  | e :: es => List.forall_mem_cons.2 ⟨Expr.numberFree_encode e, Expr.numberFree_encodeAll es⟩

theorem Expr.numberFree_encodeTail : (tail : List (String × Expr)) →
    ∀ j ∈ Expr.encodeTail tail, j.NumberFree
  | [] => by simp [Expr.encodeTail]
  | (_, operand) :: tail => List.forall_mem_cons.2
    ⟨.object (by simp [Expr.numberFree_encode operand]), Expr.numberFree_encodeTail tail⟩

end

theorem Param.numberFree_encode (p : Param) : p.encode.NumberFree :=
  .object (by simp)

theorem OverrideDecl.numberFree_encode (d : OverrideDecl) : d.encode.NumberFree :=
  .object (by simp [d.value.numberFree_encode])

theorem PropertyDecl.numberFree_encode (d : PropertyDecl) : d.encode.NumberFree :=
  .object (by simp [d.value.numberFree_encode])

theorem numberFree_map_encode {α : Type} {encode : α → Json} (h : ∀ x, (encode x).NumberFree)
    (l : List α) : (Json.array (l.map encode)).NumberFree :=
  .array (by simp [h])

mutual

theorem Stmt.numberFree_encode : (s : Stmt) → s.encode.NumberFree
  | .varDecl _ _ value | .assign _ value | .echo value | .ret value =>
    .object (by simp [value.numberFree_encode])
  | .call _ args | .methodCall _ _ args =>
    .object (by simp [NumberFree.array (Expr.numberFree_encodeAll args)])
  | .loop condition body | .branch condition body =>
    .object (by simp [condition.numberFree_encode,
      NumberFree.array (Stmt.numberFree_encodeAll body)])
  | .classDecl ⟨_, parent, overrides, properties, methods⟩ => by
    have hparent : (ClassDecl.encodeParent parent).NumberFree := by
      cases parent with
      | none => exact .null
      | some name => exact .string name
    exact .object (by simp [hparent, numberFree_map_encode OverrideDecl.numberFree_encode,
      numberFree_map_encode PropertyDecl.numberFree_encode,
      NumberFree.array (FunctionDecl.numberFree_encodeAll methods)])
  | .functionDecl ⟨_, params, _, body⟩ =>
    .object (by simp [numberFree_map_encode Param.numberFree_encode,
      NumberFree.array (Stmt.numberFree_encodeAll body)])

theorem Stmt.numberFree_encodeAll : (body : List Stmt) → ∀ j ∈ Stmt.encodeAll body, j.NumberFree
  | [] => by simp [Stmt.encodeAll]
  | s :: body => List.forall_mem_cons.2 ⟨Stmt.numberFree_encode s, Stmt.numberFree_encodeAll body⟩

theorem FunctionDecl.numberFree_encodeAll : (methods : List FunctionDecl) →
    ∀ j ∈ FunctionDecl.encodeAll methods, j.NumberFree
  | [] => by simp [FunctionDecl.encodeAll]
  | ⟨_, params, _, body⟩ :: methods => List.forall_mem_cons.2
    ⟨.object (by simp [numberFree_map_encode Param.numberFree_encode,
      NumberFree.array (Stmt.numberFree_encodeAll body)]),
      FunctionDecl.numberFree_encodeAll methods⟩

end

end

/-- The text of a program is read back as the JSON of the program, unless it has too many levels. -/
theorem Program.readSelecting_render (p : Program) :
    Json.readSelecting (· == "statements") maxLevels p.render =
      if p.encode.levels ≤ maxLevels then some p.encode else none := by
  refine Json.readSelecting_render (by simp) ?_ (by simp) 126
  rw [List.forall_mem_singleton]
  exact .array (Stmt.numberFree_encodeAll p.statements)

/-- **Round trip.** Reading undoes writing, and the text of a program is read back just if its JSON
has at most 127 levels of arrays and objects. -/
theorem Program.round_trip (p : Program) :
    decode p.encode = some p ∧
      parse? p.render = if p.encode.levels ≤ 127 then some p else none := by
  refine ⟨p.decode_encode, ?_⟩
  rw [parse?, p.readSelecting_render, maxLevels]
  split
  · exact p.decode_encode
  · rfl

end FlannelScript
