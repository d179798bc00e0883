import FlannelScript.Proofs.Data
import FlannelScript.Proofs.Grouping
import FlannelScript.Proofs.Layers

/-!
# What passes between the steps

`Part` says of which steps the interpreter is made. Here it is said in addition what passes from one
step to the next. A `Regime` lays down which values and classes may be passed on, which may depend on
how far a run has come (its stage), and which code may be run. A part that keeps to a regime
(`Regime.Course`) asks only for what is allowed, and from each step it is handed only what is allowed
at that stage.

No step hands on the machine or a callable: a look-up and the call that it is for are one step. So two
runs on machines that differ in what no step shows can be compared along a course, too.

That the interpreter keeps to every regime that allows the code it runs is shown once
(`Course.evalExpr`, `Course.execBlock`, `Course.loopStep`). What holds along every course is shown by
one induction for each property.
-/

namespace FlannelScript

open Eval Machine

/-! ## Regimes -/

/-- What may be passed on at each stage of a run, and which code may be run. -/
structure Regime (Stage : Type) where
  /-- a stage is not after another one -/
  le : Stage → Stage → Prop
  le_refl : ∀ w, le w w
  le_trans : ∀ {u v w}, le u v → le v w → le u w
  value : Stage → Value → Prop
  value_mono : ∀ {w w' v}, le w w' → value w v → value w' v
  value_of_isData : ∀ w {v}, v.IsData → value w v
  cls : Stage → ClassRef → Prop
  cls_mono : ∀ {w w' c}, le w w' → cls w c → cls w' c
  cls_builtin : ∀ w b, cls w (.builtin b)
  expr : Expr → Prop
  block : List Stmt → Prop
  loop : Expr → List Stmt → Prop
  classDecl : ClassDecl → Prop
  functionDecl : FunctionDecl → Prop
  /-- anything may be assigned to -/
  assigns : Prop := True

/-- The expressions that an expression has evaluated. -/
def Expr.operands : Expr → List Expr
  | literal _ _ | name _ | property _ _ => []
  | not operand => [operand]
  | ask prompt => [prompt]
  | call _ args | construct _ args | methodCall _ _ args => args
  | compound head tail => head :: tail.map (·.2)

/-- The expressions that a statement itself has evaluated. -/
def Stmt.operands : Stmt → List Expr
  | varDecl _ _ value | assign _ value | echo value | ret value => [value]
  | call _ args | methodCall _ _ args => args
  | loop _ _ => []
  | branch condition _ => [condition]
  | classDecl d => d.overrides.map (·.value) ++ d.properties.map (·.value)
  | functionDecl _ => []

/-- What passes for a value that a statement list ends with. -/
def BlockExit.value? : BlockExit → Option Value
  | completed => none
  | returned v | halted v => some v

/-- What passes for a value that a statement ends with. -/
def Flow.value? : Flow → Option Value
  | next => none
  | halt v => some v

namespace Engine

/-- Look up a function and call it with the receiver of the caller. -/
def callNamed (engine : Engine) (function : String) (args : List Value) : Eval Value := do
  let callable ← lookupFunction function
  let m ← machine
  engine.callFunction callable m.scope.receiver args

/-- Put a class under its name, once its defaults are evaluated. -/
def registerClass (d : ClassDecl) (parent : ClassRef) (overrides defaults : List (String × Value)) :
    Eval Unit := do
  let m ← machine
  let methods ← ofExcept (m.classes.resolveMethods d.name d.methods)
  change fun m =>
    { m with
      classes := m.classes.declare
        { name := d.name
          parent
          overrides := .ofList overrides
          defaults := .ofList defaults
          methods := .ofList methods } }

end Engine

namespace Engine

variable (engine : Engine)

theorem callNamed_apply (function : String) (args : List Value) (m : Machine) :
    engine.callNamed function args m =
      match m.functions.get? function with
      | some callable => engine.callFunction callable m.scope.receiver args m
      | none => .error ⟨.unknownFunction function, []⟩ m := by
  rw [callNamed, bind_apply, lookupFunction]
  cases m.functions.get? function <;> rfl

theorem invokeMethod_apply (receiver : Value) (method : String) (args : List Value) (m : Machine) :
    engine.invokeMethod receiver method args m =
      match m.classes.resolveMethod? receiver.cls method with
      | some (.declared owner callable) =>
        engine.invoke callable (some owner) (some receiver) args
          (CallStack.methodFrame (m.classes.name owner) method) m
      | some (.builtin b) => ofExcept (m.classes.callBuiltin b receiver method args) m
      | none => .error ⟨.unknownMethod method (m.classes.name receiver.cls), []⟩ m := by
  rw [invokeMethod, bind_apply]
  dsimp only [machine]
  rcases m.classes.resolveMethod? receiver.cls method with _ | _ | _ <;> rfl

theorem constructDeclared_apply (c : ClassRef) (args : List Value) (m : Machine) :
    engine.constructDeclared c args m =
      (match m.classes.findMethod? c initMethod with
        | some (owner, init) => do
          let _ ← engine.invoke init (some owner) (some ⟨c, .ref m.heap.cells.size⟩) args
            (CallStack.methodFrame (m.classes.name owner) initMethod)
          pure ⟨c, .ref m.heap.cells.size⟩
        | none =>
          if args.isEmpty then pure ⟨c, .ref m.heap.cells.size⟩
          else raise (.arityMismatch (m.classes.name c) 0 args.length) : Eval Value)
        { m with heap := (m.heap.alloc (m.classes.mergedDefaults c)).1 } := rfl

theorem registerClass_apply (d : ClassDecl) (parent : ClassRef)
    (overrides defaults : List (String × Value)) (m : Machine) :
    registerClass d parent overrides defaults m =
      match m.classes.resolveMethods d.name d.methods with
      | .ok methods =>
        .ok () { m with
          classes := m.classes.declare
            ⟨d.name, parent, .ofList overrides, .ofList defaults, .ofList methods⟩ }
      | .error f => .error ⟨f, []⟩ m := by
  rw [registerClass, bind_apply]
  dsimp only [machine]
  cases m.classes.resolveMethods d.name d.methods <;> rfl

theorem declareFunction_apply (d : FunctionDecl) (m : Machine) :
    declareFunction d m =
      match m.classes.resolveCallable none d with
      | .ok callable => .ok () { m with functions := m.functions.insert d.name callable }
      | .error f => .error ⟨f, []⟩ m := by
  rw [declareFunction, bind_apply]
  dsimp only [machine]
  cases m.classes.resolveCallable none d <;> rfl

end Engine

theorem Part.callNamed (function : String) (args : List Value) :
    Part fun engine => engine.callNamed function args :=
  (Deed.bind (.lookupFunction function) fun callable => .bind .machine fun m =>
    .callFunction callable m.scope.receiver args).part

theorem Part.registerClass (d : ClassDecl) (parent : ClassRef)
    (overrides defaults : List (String × Value)) :
    Part fun _ => Engine.registerClass d parent overrides defaults :=
  (Deed.bind .machine fun m => .bind (.ofExcept (.resolveMethods m.classes d.name d.methods))
    fun _ => .addClass _).part

/-- Built-in methods look at the names of classes and at nothing else. -/
theorem ClassTable.callBuiltin_congr {t t' : ClassTable} (h : ∀ c, t'.name c = t.name c)
    (b : BuiltinMethod) (receiver : Value) (method : String) (args : List Value) :
    t'.callBuiltin b receiver method args = t.callBuiltin b receiver method args := by
  have hbinary : ∀ {α : Type} (b : BuiltinClass) (read : Value → Option α)
      (apply : α → α → Except Fault Value),
      t'.binary b read apply receiver method args =
        t.binary b read apply receiver method args := by
    intro α b read apply
    simp only [binary, datum, argumentOf, h]
  cases b with
  | equals | doesNotEqual => rfl
  | getStr => rw [callBuiltin, callBuiltin, display, display, h]
  | and | or | intArith | intCompare | floatArith | floatCompare | concat | textCompare =>
    exact hbinary _ _ _

/-- A check of arguments tells the names of classes if it fails. -/
theorem ClassTable.checkArguments_congr {t t' : ClassTable} (h : ∀ c, t'.name c = t.name c)
    (owner : Option ClassRef) (params : List Parameter) (args : List Value) :
    t'.checkArguments owner params args = t.checkArguments owner params args := by
  have htype : ∀ type, t'.typeName owner type = t.typeName owner type := by
    intro type
    cases type with
    | cls c => exact h c
    | enclosing => cases owner <;> simp [typeName, h]
  induction params generalizing args with
  | nil => rfl
  | cons p params ih =>
    cases args with
    | nil => rfl
    | cons v args => rw [checkArguments, checkArguments, ih, htype, h]

namespace Regime

variable {Stage : Type} (r : Regime Stage)

/-- The code that a statement has run is allowed. -/
def stmt (s : Stmt) : Prop :=
  (∀ e ∈ s.operands, r.expr e) ∧
    match s with
    | .loop condition body => r.loop condition body
    | .branch _ body => r.block body
    | .classDecl d => r.classDecl d
    | .functionDecl d => r.functionDecl d
    | .assign _ _ => r.assigns
    | _ => True

/-- Where all code is allowed, all statements are, unless they assign and that is not. -/
theorem stmt_of_forall (hexpr : ∀ e, r.expr e) (hblock : ∀ stmts, r.block stmts)
    (hloop : ∀ condition body, r.loop condition body) (hclassDecl : ∀ d, r.classDecl d)
    (hfunctionDecl : ∀ d, r.functionDecl d) {s : Stmt}
    (hassigns : ∀ name value, s = .assign name value → r.assigns) : r.stmt s := by
  refine ⟨fun e _ => hexpr e, ?_⟩
  cases s with
  | varDecl | call | methodCall | echo | ret => trivial
  | assign name value => exact hassigns name value rfl
  | loop condition body => exact hloop condition body
  | branch condition body => exact hblock body
  | classDecl d => exact hclassDecl d
  | functionDecl d => exact hfunctionDecl d

/-- An operand may be evaluated, or its value passed on. -/
def slot (w : Stage) : Slot → Prop
  | .pending e => r.expr e
  | .ready v => r.value w v

/-- Nothing is asked of what is passed on. -/
def anything {α : Type} (_ : Stage) (_ : α) : Prop := True

/-- All values of a list may be passed on. -/
def values (w : Stage) (vs : List Value) : Prop := ∀ v ∈ vs, r.value w v

/-- All values of named values may be passed on. -/
def entries (w : Stage) (entries : List (String × Value)) : Prop := ∀ p ∈ entries, r.value w p.2

/-- If there is a value, it may be passed on. -/
def optional {α : Type} (value? : α → Option Value) (w : Stage) (a : α) : Prop :=
  ∀ v, value? a = some v → r.value w v

/-- From a stage on, a part keeps to the regime, and what it returns is good at the stage where it
ends. -/
inductive Course : Stage → {α : Type} → (Stage → α → Prop) → (Engine → Eval α) → Prop where
  | pure {w : Stage} {α : Type} {Q : Stage → α → Prop} {a : α} (h : Q w a) :
      Course w Q fun _ => pure a
  | bind {w : Stage} {α β : Type} {P : Stage → α → Prop} {Q : Stage → β → Prop}
      {x : Engine → Eval α} {f : α → Engine → Eval β} (hx : Course w P x)
      (hf : ∀ w', r.le w w' → ∀ a, P w' a → Course w' Q (f a)) :
      Course w Q fun engine => x engine >>= fun a => f a engine
  /-- a fault can tell the names of classes -/
  | refuse {w : Stage} {α : Type} {Q : Stage → α → Prop} (f : (ClassRef → String) → Fault)
      (h : ∀ name, (f name).isLimit = false) :
      Course w Q fun _ => do
        let m ← machine
        raise (f m.classes.name)
  | resolve {w : Stage} (name : String) : Course w r.value fun _ => resolve name
  | property {w : Stage} {v : Value} (hv : r.value w v) (name : String) :
      Course w r.value fun _ => property v name
  | lookupClass {w : Stage} (name : String) : Course w r.cls fun _ => lookupClass name
  | display {w : Stage} (v : Value) :
      Course w anything fun _ => do
        let m ← machine
        Pure.pure (m.classes.display v)
  | declareLocal {w : Stage} {v : Value} (name : String) (hv : r.value w v) :
      Course w anything fun _ => declareLocal name v
  | assign {w : Stage} {v : Value} (hassigns : r.assigns) (name : String) (hv : r.value w v) :
      Course w anything fun _ => assign name v
  | newObject {w : Stage} : Course w r.value fun _ => newInstance (.builtin .obj) ∅
  | printLine {w : Stage} (line : String) : Course w anything fun _ => printLine line
  | readLine {w : Stage} : Course w anything fun _ => readLine
  | registerClass {w : Stage} {d : ClassDecl} {parent : ClassRef}
      {overrides defaults : List (String × Value)} (hd : r.classDecl d) (hparent : r.cls w parent)
      (hoverrides : r.entries w overrides) (hdefaults : r.entries w defaults) :
      Course w anything fun _ => Engine.registerClass d parent overrides defaults
  | declareFunction {w : Stage} {d : FunctionDecl} (hd : r.functionDecl d) :
      Course w anything fun _ => Engine.declareFunction d
  | eval {w : Stage} {e : Expr} (he : r.expr e) : Course w r.value fun engine => engine.eval e
  | block {w : Stage} {stmts : List Stmt} (mode : Mode) (hstmts : r.block stmts) :
      Course w (r.optional BlockExit.value?) fun engine => engine.block mode stmts
  | loop {w : Stage} {condition : Expr} {body : List Stmt} (mode : Mode)
      (hloop : r.loop condition body) :
      Course w (r.optional Flow.value?) fun engine => engine.loop mode condition body
  | callNamed {w : Stage} {args : List Value} (function : String) (hargs : r.values w args) :
      Course w r.value fun engine => engine.callNamed function args
  | invokeMethod {w : Stage} {receiver : Value} {args : List Value} (hreceiver : r.value w receiver)
      (method : String) (hargs : r.values w args) :
      Course w r.value fun engine => engine.invokeMethod receiver method args
  | constructDeclared {w : Stage} {id : Nat} {args : List Value} (hc : r.cls w (.declared id))
      (hargs : r.values w args) :
      Course w r.value fun engine => engine.constructDeclared (.declared id) args

namespace Course

variable {r} {w : Stage} {α : Type}

/-! ## Steps -/

theorem raise {Q : Stage → α → Prop} {f : Fault} (h : f.isLimit = false) :
    r.Course w Q fun _ => (Eval.raise f : Eval α) :=
  refuse (fun _ => f) fun _ => h

theorem ofExcept {x : Except Fault α} {Q : Stage → α → Prop} (hok : ∀ a, x = .ok a → Q w a)
    (hx : NeverLimit x) : r.Course w Q fun _ => Eval.ofExcept x := by
  cases x with
  | error f => exact raise (hx f rfl)
  | ok a => exact pure (hok a rfl)

theorem requireClass (c : ClassRef) (v : Value) :
    r.Course w anything fun _ => Machine.requireClass c v := by
  unfold Machine.requireClass
  by_cases h : v.cls = c
  · simp only [if_pos h]
    exact pure trivial
  · simp only [if_neg h]
    exact refuse (fun name => .typeMismatch (name c) (name v.cls)) fun _ => rfl

/-! ## Calls -/

theorem constructBuiltin (b : BuiltinClass) {args : List Value} (hargs : r.values w args) :
    r.Course w r.value fun _ => Engine.constructBuiltin b args := by
  unfold Engine.constructBuiltin
  split
  · exact raise rfl
  · cases args with
    | nil =>
      cases b with
      | obj => exact newObject
      | und => exact pure (r.value_of_isData w .undefined)
      | bln => exact pure (r.value_of_isData w (.ofBool _))
      | int => exact pure (r.value_of_isData w (.ofInt _))
      | flt => exact pure (r.value_of_isData w (.ofFloat _))
      | str => exact pure (r.value_of_isData w (.ofText _))
    | cons arg args =>
      refine bind (requireClass _ arg) fun w' hw _ _ => pure ?_
      exact r.value_mono hw (hargs arg List.mem_cons_self)

theorem construct {c : ClassRef} {args : List Value} (hc : r.cls w c) (hargs : r.values w args) :
    r.Course w r.value fun engine => engine.construct c args := by
  cases c with
  | builtin b => exact constructBuiltin b hargs
  | declared id => exact constructDeclared hc hargs

theorem values_nil : r.values w [] := fun _ hv => absurd hv List.not_mem_nil

theorem renderValue {v : Value} (hv : r.value w v) :
    r.Course w anything fun engine => engine.renderValue v := by
  simp only [Engine.renderValue]
  split
  · exact pure trivial
  · refine bind (invokeMethod hv "getStr" values_nil) fun w' _ shown _ => ?_
    split
    · exact pure trivial
    · exact display shown

/-! ## Expressions -/

theorem force {x : Slot} (hx : r.slot w x) : r.Course w r.value fun engine => engine.force x := by
  cases x with
  | pending e => exact eval hx
  | ready v => exact pure hx

theorem slot_mono {w' : Stage} (hw : r.le w w') {x : Slot} (hx : r.slot w x) : r.slot w' x := by
  cases x with
  | pending e => exact hx
  | ready v => exact r.value_mono hw hx

theorem applyOperator (op : Operator) {x y : Slot} (hx : r.slot w x) (hy : r.slot w y) :
    r.Course w r.value fun engine => engine.applyOperator op x y := by
  refine bind (force hx) fun w₁ hw₁ left hleft => ?_
  refine bind (force (slot_mono hw₁ hy)) fun w₂ hw₂ right hright => ?_
  exact invokeMethod (r.value_mono hw₂ hleft) op.method (List.forall_mem_singleton.mpr hright)

theorem reduceChain (c : Chain Slot) (hc : ∀ x ∈ c.operands, r.slot w x) :
    r.Course w r.value fun engine => engine.reduceChain c := by
  induction c using Chain.reduction_induction generalizing w with
  | nil x => exact force (hc x List.mem_cons_self)
  | step redex hnext ih =>
    simp only [Engine.reduceChain_chain _ hnext]
    refine bind (applyOperator redex.op (hc _ (Chain.left_mem_operands redex))
      (hc _ (Chain.right_mem_operands redex))) fun w' hw result hresult => ih _ fun x hx => ?_
    rcases Chain.mem_operands_contract hx with rfl | hx
    · exact hresult
    · exact slot_mono hw (hc x hx)

/-- The operands of a compound expression are evaluated when they are needed. -/
theorem slot_of_resolveTail {tail : List (String × Expr)} {rest : List (Operator × Slot)}
    (h : Chain.resolveTail tail = .ok rest) (htail : ∀ e ∈ tail.map (·.2), r.expr e) :
    ∀ x ∈ rest.map (·.2), r.slot w x := by
  induction tail generalizing rest with
  | nil =>
    cases h
    exact fun x hx => absurd hx List.not_mem_nil
  | cons p tail ih =>
    obtain ⟨symbol, operand⟩ := p
    rw [List.map_cons, List.forall_mem_cons] at htail
    rw [Chain.resolveTail] at h
    cases hop : Operator.ofSymbol? symbol with
    | none =>
      rw [hop] at h
      cases h
    | some op =>
      rw [hop] at h
      cases hrest : Chain.resolveTail tail with
      | error f =>
        rw [hrest] at h
        cases h
      | ok others =>
        rw [hrest] at h
        cases h
        rw [List.map_cons, List.forall_mem_cons]
        exact ⟨htail.1, ih hrest htail.2⟩

theorem reduce {head : Expr} {tail : List (String × Expr)} (hhead : r.expr head)
    (htail : ∀ e ∈ tail.map (·.2), r.expr e) :
    r.Course w r.value fun engine => engine.reduce head tail := by
  have hchain : ∀ c, Chain.ofExpr head tail = .ok c → ∀ x ∈ c.operands, r.slot w x := by
    intro c hc
    cases hrest : Chain.resolveTail tail with
    | error f =>
      rw [Chain.ofExpr, hrest] at hc
      cases hc
    | ok rest =>
      rw [Chain.ofExpr, hrest] at hc
      cases hc
      exact List.forall_mem_cons.mpr ⟨hhead, slot_of_resolveTail hrest htail⟩
  refine bind (P := fun _ c => ∀ x ∈ c.operands, r.slot w x)
    (ofExcept hchain (.ofExpr head tail)) fun w' hw c hc => ?_
  exact reduceChain c fun x hx => slot_mono hw (hc x hx)

theorem values_cons {v : Value} {vs : List Value} (hv : r.value w v) (hvs : r.values w vs) :
    r.values w (v :: vs) :=
  List.forall_mem_cons.mpr ⟨hv, hvs⟩

theorem evalArgs {args : List Expr} (hargs : ∀ e ∈ args, r.expr e) :
    r.Course w r.values fun engine => engine.evalArgs args := by
  induction args generalizing w with
  | nil => exact pure values_nil
  | cons e rest ih =>
    obtain ⟨he, hrest⟩ := List.forall_mem_cons.mp hargs
    refine bind (eval he) fun w₁ _ v hv => bind (ih hrest) fun w₂ hw₂ vs hvs => pure ?_
    exact values_cons (r.value_mono hw₂ hv) hvs

theorem evalLiteral (kind : LiteralKind) (raw : String) :
    r.Course w r.value fun _ => Engine.evalLiteral kind raw := by
  rw [Engine.evalLiteral]
  split
  · rename_i v hv
    exact pure (r.value_of_isData w (LiteralKind.isData_of_value hv))
  · exact raise rfl

theorem evalNot {operand : Expr} (h : r.expr operand) :
    r.Course w r.value fun engine => engine.evalNot operand := by
  refine bind (eval h) fun w₁ _ v hv => bind (requireClass _ v) fun w₂ hw₂ _ _ => ?_
  refine invokeMethod (r.value_mono hw₂ hv) "equals" (values_cons ?_ values_nil)
  exact r.value_of_isData w₂ (.ofBool false)

theorem evalCall (function : String) {args : List Expr} (hargs : ∀ e ∈ args, r.expr e) :
    r.Course w r.value fun engine => engine.evalCall function args :=
  bind (evalArgs hargs) fun _ _ _ hvs => callNamed function hvs

theorem evalConstruct (className : String) {args : List Expr} (hargs : ∀ e ∈ args, r.expr e) :
    r.Course w r.value fun engine => engine.evalConstruct className args := by
  refine bind (evalArgs hargs) fun w₁ _ vs hvs => bind (lookupClass className) fun w₂ hw₂ c hc => ?_
  exact construct hc fun v hv => r.value_mono hw₂ (hvs v hv)

theorem evalMethodCall (object method : String) {args : List Expr} (hargs : ∀ e ∈ args, r.expr e) :
    r.Course w r.value fun engine => engine.evalMethodCall object method args := by
  refine bind (evalArgs hargs) fun w₁ _ vs hvs => bind (resolve object) fun w₂ hw₂ v hv => ?_
  exact invokeMethod hv method fun v hv => r.value_mono hw₂ (hvs v hv)

theorem evalAsk {prompt : Expr} (h : r.expr prompt) :
    r.Course w r.value fun engine => engine.evalAsk prompt := by
  refine bind (eval h) fun _ _ v hv => bind (renderValue hv) fun _ _ text _ => ?_
  refine bind (printLine text) fun _ _ _ _ => bind readLine fun w' _ line _ => ?_
  exact pure (r.value_of_isData w' (.ofText line))

/-- **Expressions keep to the regime.** -/
theorem evalExpr {e : Expr} (h : ∀ operand ∈ e.operands, r.expr operand) :
    r.Course w r.value fun engine => engine.evalExpr e := by
  cases e with
  | literal kind raw => exact evalLiteral kind raw
  | name name => exact resolve name
  | not operand => exact evalNot (h operand List.mem_cons_self)
  | call function args => exact evalCall function h
  | construct className args => exact evalConstruct className h
  | methodCall object method args => exact evalMethodCall object method h
  | property object name => exact bind (resolve object) fun _ _ v hv => property hv name
  | ask prompt => exact evalAsk (h prompt List.mem_cons_self)
  | compound head tail =>
    obtain ⟨hhead, htail⟩ := List.forall_mem_cons.mp h
    exact reduce hhead htail

/-! ## Declarations and statements -/

theorem entries_nil : r.entries w [] := fun _ hp => absurd hp List.not_mem_nil

theorem entries_cons {name : String} {v : Value} {others : List (String × Value)}
    (hv : r.value w v) (hothers : r.entries w others) : r.entries w ((name, v) :: others) :=
  List.forall_mem_cons.mpr ⟨hv, hothers⟩

theorem evalOverrides {overrides : List OverrideDecl}
    (h : ∀ e ∈ overrides.map (·.value), r.expr e) :
    r.Course w r.entries fun engine => engine.evalOverrides overrides := by
  induction overrides generalizing w with
  | nil => exact pure entries_nil
  | cons d rest ih =>
    obtain ⟨hd, hrest⟩ := List.forall_mem_cons.mp h
    refine bind (eval hd) fun w₁ _ v hv => bind (ih hrest) fun w₂ hw₂ vs hvs => pure ?_
    exact entries_cons (r.value_mono hw₂ hv) hvs

theorem evalProperties {properties : List PropertyDecl}
    (h : ∀ e ∈ properties.map (·.value), r.expr e) :
    r.Course w r.entries fun engine => engine.evalProperties properties := by
  induction properties generalizing w with
  | nil => exact pure entries_nil
  | cons d rest ih =>
    obtain ⟨hd, hrest⟩ := List.forall_mem_cons.mp h
    refine bind (eval hd) fun w₁ _ v hv => bind (lookupClass d.type) fun w₂ hw₂ c _ => ?_
    refine bind (requireClass c v) fun w₃ hw₃ _ _ => bind (ih hrest) fun w₄ hw₄ vs hvs => pure ?_
    exact entries_cons (r.value_mono hw₄ (r.value_mono hw₃ (r.value_mono hw₂ hv))) hvs

theorem declaredParent (parent : Option String) :
    r.Course w r.cls fun _ => Engine.declaredParent parent := by
  cases parent with
  | none => exact pure (r.cls_builtin w .obj)
  | some name => exact lookupClass name

theorem declareClass {d : ClassDecl} (hd : r.classDecl d)
    (hexprs : ∀ e ∈ d.overrides.map (·.value) ++ d.properties.map (·.value), r.expr e) :
    r.Course w anything fun engine => engine.declareClass d := by
  obtain ⟨hoverrides, hproperties⟩ := List.forall_mem_append.mp hexprs
  refine bind (declaredParent d.parent) fun w₁ _ parent hparent => ?_
  refine bind (evalOverrides hoverrides) fun w₂ hw₂ overrides hoverrides => ?_
  refine bind (evalProperties hproperties) fun w₃ hw₃ defaults hdefaults => ?_
  exact registerClass hd (r.cls_mono hw₃ (r.cls_mono hw₂ hparent))
    (fun p hp => r.value_mono hw₃ (hoverrides p hp)) hdefaults

theorem evalCondition {condition : Expr} (h : r.expr condition) :
    r.Course w anything fun engine => engine.evalCondition condition := by
  refine bind (eval h) fun w₁ _ v hv => ?_
  split
  · exact pure trivial
  · exact refuse (fun name => .typeMismatch BuiltinClass.bln.name (name v.cls)) fun _ => rfl

theorem optional_flow {exit : BlockExit} (h : r.optional BlockExit.value? w exit) :
    r.optional Flow.value? w exit.flow := by
  cases exit with
  | completed | returned => exact nofun
  | halted v => exact h

/-- **Loops keep to the regime.** -/
theorem loopStep (mode : Mode) {condition : Expr} {body : List Stmt} (hcondition : r.expr condition)
    (hbody : r.block body) (hloop : r.loop condition body) :
    r.Course w (r.optional Flow.value?) fun engine => engine.loopStep mode condition body := by
  have hround : r.Course w (fun w round => ∀ flow, round = some flow → r.optional Flow.value? w flow)
      fun engine => engine.loopRound mode condition body := by
    refine bind (evalCondition hcondition) fun w₁ _ holds _ => ?_
    cases holds with
    | false => exact pure (by rintro flow ⟨⟩; exact nofun)
    | true =>
      refine bind (block mode hbody) fun w₂ _ exit hexit => ?_
      cases exit with
      | completed | returned => exact pure nofun
      | halted v => exact pure (by rintro flow ⟨⟩; exact optional_flow hexit)
  refine bind hround fun w' _ round hflow => ?_
  cases round with
  | none => exact loop mode hloop
  | some flow => exact pure (hflow flow rfl)

theorem execStmt (mode : Mode) {s : Stmt} (hs : r.stmt s) :
    r.Course w (r.optional Flow.value?) fun engine => engine.execStmt mode s := by
  have hnext : ∀ {w}, r.optional Flow.value? w .next := nofun
  obtain ⟨hexprs, hcode⟩ := hs
  cases s with
  | varDecl type name value =>
    refine bind (eval (hexprs value List.mem_cons_self)) fun w₁ _ v hv => ?_
    refine bind (lookupClass type) fun w₂ hw₂ c _ => bind (requireClass c v) fun w₃ hw₃ _ _ => ?_
    refine bind (declareLocal name ?_) fun _ _ _ _ => pure hnext
    exact r.value_mono hw₃ (r.value_mono hw₂ hv)
  | assign name value =>
    refine bind (eval (hexprs value List.mem_cons_self)) fun w₁ _ v hv => ?_
    exact bind (assign hcode name hv) fun _ _ _ _ => pure hnext
  | call function args => exact bind (evalCall function hexprs) fun _ _ _ _ => pure hnext
  | methodCall object method args =>
    exact bind (evalMethodCall object method hexprs) fun _ _ _ _ => pure hnext
  | echo value =>
    refine bind (eval (hexprs value List.mem_cons_self)) fun w₁ _ v hv => ?_
    exact bind (renderValue hv) fun _ _ text _ => bind (printLine text) fun _ _ _ _ => pure hnext
  | ret value =>
    refine bind (eval (hexprs value List.mem_cons_self)) fun w₁ _ v hv => ?_
    refine bind (renderValue hv) fun w₂ hw₂ text _ => bind (printLine _) fun w₃ hw₃ _ _ => pure ?_
    rintro _ ⟨⟩
    exact r.value_mono hw₃ (r.value_mono hw₂ hv)
  | loop condition body => exact loop mode hcode
  | branch condition body =>
    refine bind (evalCondition (hexprs condition List.mem_cons_self)) fun _ _ holds _ => ?_
    cases holds with
    | false => exact pure hnext
    | true => exact bind (block mode hcode) fun _ _ exit hexit => pure (optional_flow hexit)
  | classDecl decl => exact bind (declareClass hcode hexprs) fun _ _ _ _ => pure hnext
  | functionDecl decl => exact bind (declareFunction hcode) fun _ _ _ _ => pure hnext

/-- **Statement lists keep to the regime.** -/
theorem execBlock (mode : Mode) {stmts : List Stmt} (h : ∀ s ∈ stmts, r.stmt s) :
    r.Course w (r.optional BlockExit.value?) fun engine => engine.execBlock mode stmts := by
  induction stmts generalizing w with
  | nil => exact pure nofun
  | cons s rest ih =>
    obtain ⟨hs, hrest⟩ := List.forall_mem_cons.mp h
    simp only [Engine.execBlock]
    split
    · -- a `return` of the function that stands in the list itself
      rename_i value
      refine bind (eval (hs.1 value List.mem_cons_self)) fun _ _ v hv => pure ?_
      rintro _ ⟨⟩
      exact hv
    · refine bind (execStmt mode hs) fun _ _ flow hflow => ?_
      cases flow with
      | next => exact ih hrest
      | halt v => exact pure hflow

end Course

/-! ## Regimes about the code only -/

/-- Only code is restricted; everything may be passed on at all times. -/
def ofCode (expr : Expr → Prop) (block : List Stmt → Prop) (loop : Expr → List Stmt → Prop)
    (classDecl : ClassDecl → Prop) (functionDecl : FunctionDecl → Prop) : Regime Unit where
  le _ _ := True
  le_refl _ := trivial
  le_trans _ _ := trivial
  value _ _ := True
  value_mono _ _ := trivial
  value_of_isData _ _ _ := trivial
  cls _ _ := True
  cls_mono _ _ := trivial
  cls_builtin _ _ := trivial
  expr
  block
  loop
  classDecl
  functionDecl

/-- Where everything may be passed on, the returned value is all that is to be told of a step. -/
theorem Course.returns {expr : Expr → Prop} {block : List Stmt → Prop}
    {loop : Expr → List Stmt → Prop} {classDecl : ClassDecl → Prop}
    {functionDecl : FunctionDecl → Prop} {w : Unit} {α : Type} {Q : Unit → α → Prop}
    {part : Engine → Eval α}
    (h : (ofCode expr block loop classDecl functionDecl).Course w Q part) (engine : Engine) :
    Returns (part engine) (Q ()) := by
  induction h with
  | pure h => exact .pure h
  | bind _ _ ihx ihf => exact ihx.bind_of fun a ha => ihf () trivial a ha
  | refuse f h => rintro m a m' ⟨⟩
  | block | loop => exact fun _ _ _ _ _ _ => trivial
  | _ => exact .trivial

/-- Everything is allowed. -/
def free : Regime Unit :=
  ofCode (fun _ => True) (fun _ => True) (fun _ _ => True) (fun _ => True) fun _ => True

theorem free_stmt (s : Stmt) : free.stmt s :=
  stmt_of_forall _ (fun _ => trivial) (fun _ => trivial) (fun _ _ => trivial) (fun _ => trivial)
    (fun _ => trivial) fun _ _ _ => trivial

end Regime

end FlannelScript
