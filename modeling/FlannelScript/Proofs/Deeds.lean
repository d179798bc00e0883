import FlannelScript.Proofs.Parts

/-!
# What the parts of the interpreter do

A `Part` is made of any steps. More can be said of the parts that there are. A line is only read in
answer to a line that has been printed, so the two are one step here. And the names of the running
scope are bound by statements, not by expressions: `Access` says which of the two an evaluation is.

That all parts are made of such steps (`Deed`) is shown once for each construct of the language.
What follows from it for `Part` is at the end.
-/

namespace FlannelScript

open Eval Machine

/-- What an evaluation may do with the names of the running scope. -/
inductive Access where
  | reads
  | binds
  deriving DecidableEq, Repr

/-- Evaluations that are made of steps within the given access to the running scope, and that read
no line without having asked for it. -/
inductive Deed : Access → {α : Type} → (Engine → Eval α) → Prop where
  | pure {access : Access} {α : Type} (a : α) : Deed access fun _ => pure a
  | raise {access : Access} {α : Type} {f : Fault} (h : f.isLimit = false) :
      Deed access fun _ => (raise f : Eval α)
  | machine {access : Access} : Deed access fun _ => machine
  | newInstance {access : Access} (c : ClassRef) (properties : Bindings Value) :
      Deed access fun _ => newInstance c properties
  | printLine {access : Access} (line : String) : Deed access fun _ => printLine line
  | question {access : Access} (prompt : String) : Deed access fun _ => do
      printLine prompt
      readLine
  | addClass {access : Access} (info : ClassInfo) :
      Deed access fun _ => change fun m => { m with classes := m.classes.declare info }
  | addFunction {access : Access} (name : String) (callable : Callable) :
      Deed access fun _ => change fun m => { m with functions := m.functions.insert name callable }
  | declareLocal (name : String) (v : Value) : Deed .binds fun _ => declareLocal name v
  | assign (name : String) (v : Value) : Deed .binds fun _ => assign name v
  | bind {access : Access} {α β : Type} {x : Engine → Eval α} {f : α → Engine → Eval β}
      (hx : Deed access x) (hf : ∀ a, Deed access (f a)) :
      Deed access fun engine => x engine >>= fun a => f a engine
  | eval {access : Access} (e : Expr) : Deed access fun engine => engine.eval e
  | block (mode : Mode) (stmts : List Stmt) : Deed .binds fun engine => engine.block mode stmts
  | loop (mode : Mode) (condition : Expr) (body : List Stmt) :
      Deed .binds fun engine => engine.loop mode condition body
  /-- a call has a scope of its own -/
  | invoke {access : Access} (callable : Callable) (owner : Option ClassRef)
      (receiver : Option Value) (args : List Value) (frame : String) :
      Deed access fun engine => engine.invoke callable owner receiver args frame

namespace Deed

variable {access : Access} {α : Type}

/-! ## Steps -/

/-- What is done may depend on the machine. -/
theorem read {x : Machine → Engine → Eval α} (h : ∀ m, Deed access (x m)) :
    Deed access fun engine m => x m engine m :=
  bind machine h

theorem orRaise {x : Machine → Option α} {f : Machine → Fault} (h : ∀ m, (f m).isLimit = false) :
    Deed access fun _ m => Eval.orRaise (x m) (f m) m := by
  refine read fun m => ?_
  cases x m with
  | none => exact raise (h m)
  | some a => exact pure a

theorem ofExcept {x : Except Fault α} (h : NeverLimit x) :
    Deed access fun _ => Eval.ofExcept x := by
  cases x with
  | error f => exact raise (h f rfl)
  | ok a => exact pure a

theorem resolve (name : String) : Deed access fun _ => Machine.resolve name := orRaise fun _ => rfl

theorem lookupClass (name : String) : Deed access fun _ => Machine.lookupClass name :=
  orRaise fun _ => rfl

theorem lookupFunction (name : String) : Deed access fun _ => Machine.lookupFunction name :=
  orRaise fun _ => rfl

theorem property (v : Value) (name : String) : Deed access fun _ => Machine.property v name :=
  orRaise fun _ => rfl

theorem requireClass (c : ClassRef) (v : Value) :
    Deed access fun _ => Machine.requireClass c v := by
  unfold Machine.requireClass
  by_cases h : v.cls = c
  · simp only [if_pos h]
    exact pure ()
  · simp only [if_neg h]
    exact read fun _ => raise rfl

/-! ## Calls -/

theorem callFunction (function : Callable) (receiver : Option Value) (args : List Value) :
    Deed access fun engine => engine.callFunction function receiver args :=
  invoke ..

theorem invokeMethod (receiver : Value) (method : String) (args : List Value) :
    Deed access fun engine => engine.invokeMethod receiver method args := by
  refine bind machine fun m => ?_
  split
  · exact invoke ..
  · exact ofExcept (.callBuiltin _ _ _ _ _)
  · exact raise rfl

theorem constructBuiltin (b : BuiltinClass) (args : List Value) :
    Deed access fun _ => Engine.constructBuiltin b args := by
  unfold Engine.constructBuiltin
  split
  · exact raise rfl
  · cases args with
    | nil =>
      cases b with
      | obj => exact newInstance _ _
      | und | bln | int | flt | str => exact pure _
    | cons arg args => exact bind (requireClass _ arg) fun _ => pure arg

theorem constructDeclared (c : ClassRef) (args : List Value) :
    Deed access fun engine => engine.constructDeclared c args := by
  refine bind machine fun m => bind (newInstance _ _) fun fresh => ?_
  cases m.classes.findMethod? c Engine.initMethod with
  | some found => exact bind (invoke ..) fun _ => pure fresh
  | none =>
    dsimp only
    split
    · exact pure fresh
    · exact raise rfl

theorem construct (c : ClassRef) (args : List Value) :
    Deed access fun engine => engine.construct c args := by
  cases c with
  | builtin b => exact constructBuiltin b args
  | declared id => exact constructDeclared (.declared id) args

theorem renderValue (v : Value) : Deed access fun engine => engine.renderValue v := by
  simp only [Engine.renderValue]
  split
  · exact pure _
  · refine bind (invokeMethod v "getStr" []) fun shown => ?_
    split
    · exact pure _
    · exact bind machine fun m => pure _

/-! ## Expressions -/

theorem force (x : Slot) : Deed access fun engine => engine.force x := by
  cases x with
  | pending e => exact eval e
  | ready v => exact pure v

theorem reduceSteps (n : Nat) (c : Chain Slot) :
    Deed access fun engine => engine.reduceSteps n c := by
  induction n generalizing c with
  | zero => exact force c.first
  | succ n ih =>
    simp only [Engine.reduceSteps]
    cases c.redex? with
    | none => exact force c.first
    | some r =>
      exact bind (force r.left) fun left => bind (force r.right) fun right =>
        bind (invokeMethod left r.op.method [right]) fun result => ih _

theorem reduce (head : Expr) (tail : List (String × Expr)) :
    Deed access fun engine => engine.reduce head tail :=
  bind (ofExcept (.ofExpr head tail)) fun c => reduceSteps c.rest.length c

theorem evalArgs (args : List Expr) : Deed access fun engine => engine.evalArgs args := by
  induction args with
  | nil => exact pure []
  | cons e rest ih => exact bind (eval e) fun v => bind ih fun vs => pure (v :: vs)

theorem evalLiteral (kind : LiteralKind) (raw : String) :
    Deed access fun _ => Engine.evalLiteral kind raw := by
  rw [Engine.evalLiteral]
  split
  · exact pure _
  · exact raise rfl

theorem evalNot (operand : Expr) : Deed access fun engine => engine.evalNot operand :=
  bind (eval operand) fun v => bind (requireClass _ v) fun _ => invokeMethod v "equals" _

theorem evalCall (function : String) (args : List Expr) :
    Deed access fun engine => engine.evalCall function args :=
  bind (evalArgs args) fun args => bind (lookupFunction function) fun callable =>
    bind machine fun m => callFunction callable m.scope.receiver args

theorem evalConstruct (className : String) (args : List Expr) :
    Deed access fun engine => engine.evalConstruct className args :=
  bind (evalArgs args) fun args => bind (lookupClass className) fun c => construct c args

theorem evalMethodCall (object method : String) (args : List Expr) :
    Deed access fun engine => engine.evalMethodCall object method args :=
  bind (evalArgs args) fun args => bind (resolve object) fun receiver =>
    invokeMethod receiver method args

theorem evalAsk (prompt : Expr) : Deed access fun engine => engine.evalAsk prompt := by
  refine bind (eval prompt) fun v => bind (renderValue v) fun text => ?_
  simpa only [bind_assoc] using bind (question text) fun line => pure (Value.ofText line)

theorem evalExpr (e : Expr) : Deed access fun engine => engine.evalExpr e := by
  cases e with
  | literal kind raw => exact evalLiteral kind raw
  | name name => exact resolve name
  | not operand => exact evalNot operand
  | call function args => exact evalCall function args
  | construct className args => exact evalConstruct className args
  | methodCall object method args => exact evalMethodCall object method args
  | property object name => exact bind (resolve object) fun v => property v name
  | ask prompt => exact evalAsk prompt
  | compound head tail => exact reduce head tail

/-! ## Declarations and statements -/

theorem evalOverrides (overrides : List OverrideDecl) :
    Deed access fun engine => engine.evalOverrides overrides := by
  induction overrides with
  | nil => exact pure []
  | cons d rest ih => exact bind (eval d.value) fun v => bind ih fun vs => pure ((d.name, v) :: vs)

theorem evalProperties (properties : List PropertyDecl) :
    Deed access fun engine => engine.evalProperties properties := by
  induction properties with
  | nil => exact pure []
  | cons d rest ih =>
    exact bind (eval d.value) fun v => bind (lookupClass d.type) fun c =>
      bind (requireClass c v) fun _ => bind ih fun vs => pure ((d.name, v) :: vs)

theorem declaredParent (parent : Option String) :
    Deed access fun _ => Engine.declaredParent parent := by
  cases parent with
  | none => exact pure _
  | some name => exact lookupClass name

theorem declareClass (d : ClassDecl) : Deed access fun engine => engine.declareClass d :=
  bind (declaredParent d.parent) fun _ => bind (evalOverrides d.overrides) fun _ =>
    bind (evalProperties d.properties) fun _ => bind machine fun _ =>
      bind (ofExcept (.resolveMethods _ _ _)) fun _ => addClass _

theorem declareFunction (d : FunctionDecl) : Deed access fun _ => Engine.declareFunction d :=
  bind machine fun _ => bind (ofExcept (.resolveCallable _ _ _)) fun callable =>
    addFunction d.name callable

theorem evalCondition (condition : Expr) :
    Deed access fun engine => engine.evalCondition condition := by
  refine bind (eval condition) fun v => ?_
  split
  · exact pure _
  · exact bind machine fun m => raise rfl

theorem loopRound (mode : Mode) (condition : Expr) (body : List Stmt) :
    Deed .binds fun engine => engine.loopRound mode condition body := by
  refine bind (evalCondition condition) fun holds => ?_
  cases holds with
  | false => exact pure _
  | true =>
    refine bind (block mode body) fun exit => ?_
    cases exit with
    | completed | returned | halted => exact pure _

theorem execStmt (mode : Mode) (s : Stmt) : Deed .binds fun engine => engine.execStmt mode s := by
  cases s with
  | varDecl type name value =>
    exact bind (eval value) fun v => bind (lookupClass type) fun c =>
      bind (requireClass c v) fun _ => bind (declareLocal name v) fun _ => pure _
  | assign name value =>
    exact bind (eval value) fun v => bind (assign name v) fun _ => pure _
  | call function args => exact bind (evalCall function args) fun _ => pure _
  | methodCall object method args => exact bind (evalMethodCall object method args) fun _ => pure _
  | echo value =>
    exact bind (eval value) fun v => bind (renderValue v) fun text =>
      bind (printLine text) fun _ => pure _
  | ret value =>
    exact bind (eval value) fun v => bind (renderValue v) fun text =>
      bind (printLine _) fun _ => pure _
  | loop condition body => exact loop mode condition body
  | branch condition body =>
    refine bind (evalCondition condition) fun holds => ?_
    cases holds with
    | false => exact pure _
    | true => exact bind (block mode body) fun exit => pure _
  | classDecl decl => exact bind (declareClass decl) fun _ => pure _
  | functionDecl decl => exact bind (declareFunction decl) fun _ => pure _

theorem execBlock (mode : Mode) (stmts : List Stmt) :
    Deed .binds fun engine => engine.execBlock mode stmts := by
  induction stmts with
  | nil => exact pure _
  | cons s rest ih =>
    simp only [Engine.execBlock]
    split
    · -- a `return` of the function that stands in the list itself
      exact bind (eval _) fun v => pure _
    · refine bind (execStmt mode s) fun flow => ?_
      cases flow with
      | next => exact ih
      | halt v => exact pure _

end Deed

/-! ## Deeds are parts -/

theorem Deed.part {α : Type} {part : Engine → Eval α} (h : Deed .binds part) : Part part := by
  generalize Access.binds = access at h
  induction h with
  | pure a => exact .primitive (.pure a)
  | raise h => exact .primitive (.raise h)
  | machine => exact .primitive .machine
  | newInstance c properties => exact .primitive (.newInstance c properties)
  | printLine line => exact .primitive (.printLine line)
  | question prompt =>
    exact .bind (.primitive (.printLine prompt)) fun _ => .primitive .readLine
  | addClass info => exact .primitive (.declareClass info)
  | addFunction name callable => exact .primitive (.declareFunction name callable)
  | declareLocal name v => exact .primitive (.declareLocal name v)
  | assign name v => exact .primitive (.assign name v)
  | bind _ _ ihx ihf => exact .bind ihx ihf
  | eval e => exact .eval e
  | block mode stmts => exact .block mode stmts
  | loop mode condition body => exact .loop mode condition body
  | invoke callable owner receiver args frame => exact .invoke callable owner receiver args frame

namespace Part

variable {α : Type}

theorem pure (a : α) : Part fun _ => (Pure.pure a : Eval α) := primitive (.pure a)

/-- A part may depend on the machine it starts from. -/
theorem read {x : Machine → Engine → Eval α} (h : ∀ m, Part (x m)) :
    Part fun engine m => x m engine m :=
  bind (primitive .machine) h

theorem raise {f : Fault} (h : f.isLimit = false) : Part fun _ => (Eval.raise f : Eval α) :=
  primitive (.raise h)

theorem resolve (name : String) : Part fun _ => Machine.resolve name := (Deed.resolve name).part

theorem lookupClass (name : String) : Part fun _ => Machine.lookupClass name :=
  (Deed.lookupClass name).part

theorem property (v : Value) (name : String) : Part fun _ => Machine.property v name :=
  (Deed.property v name).part

theorem callFunction (function : Callable) (receiver : Option Value) (args : List Value) :
    Part fun engine => engine.callFunction function receiver args :=
  invoke ..

theorem invokeMethod (receiver : Value) (method : String) (args : List Value) :
    Part fun engine => engine.invokeMethod receiver method args :=
  (Deed.invokeMethod receiver method args).part

theorem constructDeclared (c : ClassRef) (args : List Value) :
    Part fun engine => engine.constructDeclared c args :=
  (Deed.constructDeclared c args).part

theorem construct (c : ClassRef) (args : List Value) : Part fun engine => engine.construct c args :=
  (Deed.construct c args).part

theorem renderValue (v : Value) : Part fun engine => engine.renderValue v :=
  (Deed.renderValue v).part

theorem evalExpr (e : Expr) : Part fun engine => engine.evalExpr e := (Deed.evalExpr e).part

theorem declareFunction (d : FunctionDecl) : Part fun _ => Engine.declareFunction d :=
  (Deed.declareFunction d).part

theorem evalCondition (condition : Expr) : Part fun engine => engine.evalCondition condition :=
  (Deed.evalCondition condition).part

theorem loopRound (mode : Mode) (condition : Expr) (body : List Stmt) :
    Part fun engine => engine.loopRound mode condition body :=
  (Deed.loopRound mode condition body).part

theorem execStmt (mode : Mode) (s : Stmt) : Part fun engine => engine.execStmt mode s :=
  (Deed.execStmt mode s).part

theorem execBlock (mode : Mode) (stmts : List Stmt) :
    Part fun engine => engine.execBlock mode stmts :=
  (Deed.execBlock mode stmts).part

end Part

end FlannelScript
