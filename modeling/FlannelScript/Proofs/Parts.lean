import FlannelScript.Interpreter

/-!
# What the parts of the interpreter are made of

Every part of the interpreter is a sequence of a few kinds of steps: primitive ones, which make up
all that a part does to a machine by itself (`Primitive`), and requests to the engine: to evaluate
an expression, to run a statement list, a loop or a program, and to run the body of a callable in a
call of its own (`Part`).

That the constructs of the language are parts is shown in `Deeds`. What holds of the steps and is kept
by sequences holds of the parts then, by one induction over `Part` for each property, and of the
interpreter by induction on its fuel.
-/

namespace FlannelScript

open Eval Machine

/-- Whether a fault is that of a call that would be nested too deeply. -/
def Fault.isLimit : Fault → Bool
  | .recursionLimit _ => true
  | _ => false

/-- A computation without a machine does not reach the limit. -/
def NeverLimit {α : Type} (x : Except Fault α) : Prop := ∀ f, x = .error f → f.isLimit = false

namespace NeverLimit

variable {α β : Type}

theorem ok (a : α) : NeverLimit (.ok a) := by
  rintro f ⟨⟩

theorem error {f : Fault} (h : f.isLimit = false) : NeverLimit (.error f : Except Fault α) := by
  rintro f' ⟨⟩
  exact h

theorem bind {x : Except Fault α} {f : α → Except Fault β} (hx : NeverLimit x)
    (hf : ∀ a, NeverLimit (f a)) : NeverLimit (x >>= f) := by
  cases x with
  | error e => exact error (hx e rfl)
  | ok a => exact hf a

theorem map {x : Except Fault α} (hx : NeverLimit x) (f : α → β) : NeverLimit (x.map f) := by
  cases x with
  | error e => exact error (hx e rfl)
  | ok a => exact ok (f a)

theorem datum (t : ClassTable) (b : BuiltinClass) (read : Value → Option α) (v : Value) :
    NeverLimit (t.datum b read v) := by
  rw [ClassTable.datum]
  cases read v with
  | none => exact error rfl
  | some a => exact ok a

theorem onlyArgument (method : String) (args : List Value) :
    NeverLimit (ClassTable.onlyArgument method args) := by
  unfold ClassTable.onlyArgument
  split
  · exact ok _
  · exact error rfl

theorem argumentOf (t : ClassTable) (b : BuiltinClass) (method : String) (args : List Value) :
    NeverLimit (t.argumentOf b method args) := by
  refine bind (onlyArgument method args) fun arg => ?_
  split
  · exact ok arg
  · exact error rfl

theorem binary {t : ClassTable} {b : BuiltinClass} {read : Value → Option α}
    {apply : α → α → Except Fault Value} {receiver : Value} {method : String} {args : List Value}
    (h : ∀ x y, NeverLimit (apply x y)) : NeverLimit (t.binary b read apply receiver method args) :=
  bind (datum t b read receiver) fun x => bind (argumentOf t b method args) fun arg =>
    bind (datum t b read arg) fun y => h x y

theorem ints (op : Arith) (a b : Int64) : NeverLimit (op.ints a b) := by
  rw [Arith.ints]
  split
  · exact ok _
  · exact error rfl
  · exact error rfl
  · exact error rfl

/-- No method of a built-in class reaches the limit. -/
theorem callBuiltin (t : ClassTable) (method : BuiltinMethod) (receiver : Value) (name : String)
    (args : List Value) : NeverLimit (t.callBuiltin method receiver name args) := by
  cases method with
  | equals | doesNotEqual => exact bind (onlyArgument name args) fun _ => ok _
  | getStr =>
    rw [ClassTable.callBuiltin]
    split
    · exact ok _
    · exact error rfl
  | intArith op => exact binary fun _ _ => (ints op _ _).map _
  | and | or | intCompare | floatArith | floatCompare | concat | textCompare =>
    exact binary fun _ _ => ok _

theorem resolveTail (tail : List (String × Expr)) : NeverLimit (Chain.resolveTail tail) := by
  induction tail with
  | nil => exact ok []
  | cons p tail ih =>
    rw [Chain.resolveTail]
    split
    · exact error rfl
    · exact ih.map _

theorem ofExpr (head : Expr) (tail : List (String × Expr)) : NeverLimit (Chain.ofExpr head tail) :=
  (resolveTail tail).map _

theorem resolveType (t : ClassTable) (enclosing : Option String) (name : String) :
    NeverLimit (t.resolveType enclosing name) := by
  rw [ClassTable.resolveType]
  split
  · exact ok _
  · split
    · exact ok _
    · exact error rfl

theorem resolveParams (t : ClassTable) (enclosing : Option String) (params : List Param) :
    NeverLimit (t.resolveParams enclosing params) := by
  induction params with
  | nil => exact ok _
  | cons p rest ih => exact bind (resolveType t enclosing p.type) fun _ => bind ih fun _ => ok _

theorem resolveCallable (t : ClassTable) (enclosing : Option String) (d : FunctionDecl) :
    NeverLimit (t.resolveCallable enclosing d) :=
  bind (resolveParams t enclosing d.params) fun _ =>
    bind (resolveType t enclosing d.returnType) fun _ => ok _

theorem resolveMethods (t : ClassTable) (className : String) (methods : List FunctionDecl) :
    NeverLimit (t.resolveMethods className methods) := by
  induction methods with
  | nil => exact ok _
  | cons d rest ih => exact bind (resolveCallable t _ d) fun _ => bind ih fun _ => ok _

theorem checkArguments (t : ClassTable) (owner : Option ClassRef) (params : List Parameter)
    (args : List Value) : NeverLimit (t.checkArguments owner params args) := by
  induction params generalizing args with
  | nil => exact ok _
  | cons p params ih =>
    cases args with
    | nil => exact ok _
    | cons v args =>
      rw [ClassTable.checkArguments]
      split
      · exact ih args
      · exact error rfl

end NeverLimit

/-- The steps that a part of the interpreter takes by itself. Only a call can reach the limit. -/
inductive Primitive : {α : Type} → Eval α → Prop where
  | pure {α : Type} (a : α) : Primitive (pure a)
  | raise {α : Type} {f : Fault} (h : f.isLimit = false) : Primitive (raise f : Eval α)
  | machine : Primitive machine
  | declareLocal (name : String) (v : Value) : Primitive (declareLocal name v)
  | assign (name : String) (v : Value) : Primitive (assign name v)
  | newInstance (c : ClassRef) (properties : Bindings Value) : Primitive (newInstance c properties)
  | printLine (line : String) : Primitive (printLine line)
  | readLine : Primitive readLine
  | declareClass (info : ClassInfo) :
      Primitive (change fun m => { m with classes := m.classes.declare info })
  | declareFunction (name : String) (callable : Callable) :
      Primitive (change fun m => { m with functions := m.functions.insert name callable })

/-- **One step.** A primitive step succeeds or fails with a fault of its own. The active calls stay
as they are. -/
theorem Primitive.ok_or_error {α : Type} {x : Eval α} (h : Primitive x) (m : Machine) :
    (∃ a m', x m = .ok a m' ∧ m'.calls = m.calls) ∨
    ∃ f m', x m = .error ⟨f, []⟩ m' ∧ f.isLimit = false ∧ m'.calls = m.calls := by
  cases h with
  | pure | machine | declareLocal | newInstance | printLine | declareClass | declareFunction =>
    exact .inl ⟨_, _, rfl, rfl⟩
  | raise h => exact .inr ⟨_, _, rfl, h, rfl⟩
  | assign name v =>
    rw [Machine.assign]
    split
    · exact .inl ⟨_, _, rfl, rfl⟩
    · exact .inr ⟨_, _, rfl, rfl, rfl⟩
  | readLine =>
    rw [Machine.readLine]
    dsimp only
    split
    · exact .inl ⟨_, _, rfl, rfl⟩
    · exact .inr ⟨_, _, rfl, rfl, rfl⟩
    · exact .inr ⟨_, _, rfl, rfl, rfl⟩

/-- Evaluations that are made of primitive steps and of what the engine does. -/
inductive Part : {α : Type} → (Engine → Eval α) → Prop where
  | primitive {α : Type} {x : Eval α} (h : Primitive x) : Part fun _ => x
  | bind {α β : Type} {x : Engine → Eval α} {f : α → Engine → Eval β} (hx : Part x)
      (hf : ∀ a, Part (f a)) : Part fun engine => x engine >>= fun a => f a engine
  | eval (e : Expr) : Part fun engine => engine.eval e
  | block (mode : Mode) (stmts : List Stmt) : Part fun engine => engine.block mode stmts
  | loop (mode : Mode) (condition : Expr) (body : List Stmt) :
      Part fun engine => engine.loop mode condition body
  | invoke (callable : Callable) (owner : Option ClassRef) (receiver : Option Value)
      (args : List Value) (frame : String) :
      Part fun engine => engine.invoke callable owner receiver args frame
  | program (p : Program) : Part fun engine => engine.runProgram p

end FlannelScript
