import FlannelScript.Proofs.Course
import FlannelScript.Proofs.ReturnFlow

/-!
# Code behind a `return`

What stands behind a `return` in the same statement list is never run, at the top level as in
functions, and in the lists of conditions and loops as in bodies. So it can be dropped everywhere at
once (`Program.trimmed`) and nothing changes that a run shows.

The two programs store different bodies, so the machines of their runs are not the same. But at each
point of the runs one machine is the other one with all its bodies trimmed (`Machine.trimmed`), and
nothing that looks at a machine can tell the two apart, except for the calls, which then run a
trimmed body (`Eval.Trims`). -/

namespace FlannelScript

open Eval Machine

/-! ## Trimming code -/

mutual

/-- Trim all statement lists inside a statement. -/
def Stmt.trimmed : Stmt → Stmt
  | .loop condition body => .loop condition (trimBlock body)
  | .branch condition body => .branch condition (trimBlock body)
  | .classDecl d => .classDecl d.trimmed
  | .functionDecl d => .functionDecl d.trimmed
  | .varDecl type name value => .varDecl type name value
  | .assign name value => .assign name value
  | .call function args => .call function args
  | .methodCall object method args => .methodCall object method args
  | .echo value => .echo value
  | .ret value => .ret value

/-- Drop all that follows the first `return` of a statement list, and trim what stays. -/
def trimBlock : List Stmt → List Stmt
  | [] => []
  | s :: rest => s.trimmed :: if s.isReturn then [] else trimBlock rest

/-- Trim the body of a function or method. -/
def FunctionDecl.trimmed : FunctionDecl → FunctionDecl
  | ⟨name, params, returnType, body⟩ => ⟨name, params, returnType, trimBlock body⟩

/-- Trim the bodies of methods. -/
def trimMethods : List FunctionDecl → List FunctionDecl
  | [] => []
  | d :: rest => d.trimmed :: trimMethods rest

/-- Trim the methods of a class. -/
def ClassDecl.trimmed : ClassDecl → ClassDecl
  | ⟨name, parent, overrides, properties, methods⟩ =>
    ⟨name, parent, overrides, properties, trimMethods methods⟩

end

/-- The program without the code behind a `return`. -/
def Program.trimmed (p : Program) : Program := ⟨trimBlock p.statements⟩

/-- **What is dropped.** A list that has a `return` ends with the first one. -/
theorem trimBlock_append_return {before : List Stmt} (h : ∀ s ∈ before, s.isReturn = false)
    (value : Expr) (after : List Stmt) :
    trimBlock (before ++ .ret value :: after) = before.map Stmt.trimmed ++ [.ret value] := by
  induction before with
  | nil => rfl
  | cons s rest ih =>
    obtain ⟨hs, hrest⟩ := List.forall_mem_cons.mp h
    rw [List.cons_append, trimBlock, hs, if_neg Bool.false_ne_true, ih hrest]
    rfl

/-! ## Tables -/

namespace Bindings

variable {α β : Type} (f : α → β)

/-- Change every entry of a table. -/
def map (t : Bindings α) : Bindings β := ⟨t.entries.map fun p => (p.1, f p.2)⟩

theorem get?_map (t : Bindings α) (name : String) : (t.map f).get? name = (t.get? name).map f := by
  obtain ⟨entries⟩ := t
  change find name (entries.map fun p => (p.1, f p.2)) = (find name entries).map f
  induction entries with
  | nil => rfl
  | cons p rest ih =>
    obtain ⟨k, a⟩ := p
    rw [List.map_cons, find, find, ih]
    split <;> rfl

theorem insert_map (t : Bindings α) (name : String) (a : α) :
    (t.map f).insert name (f a) = (t.insert name a).map f := by
  obtain ⟨entries⟩ := t
  refine congrArg Bindings.mk ?_
  change put name (f a) (entries.map fun p => (p.1, f p.2)) =
    (put name a entries).map fun p => (p.1, f p.2)
  induction entries with
  | nil => rfl
  | cons p rest ih =>
    obtain ⟨k, b⟩ := p
    rw [List.map_cons, put, put, ih]
    split <;> rfl

theorem insertAll_map (t : Bindings α) (pairs : List (String × α)) :
    (t.map f).insertAll (pairs.map fun p => (p.1, f p.2)) = (t.insertAll pairs).map f := by
  induction pairs generalizing t with
  | nil => rfl
  | cons p rest ih =>
    obtain ⟨k, a⟩ := p
    rw [List.map_cons, insertAll_cons, insertAll_cons, insert_map, ih]

end Bindings

/-! ## Trimming machines -/

/-- Trim the body of a callable. -/
def Callable.trimmed (c : Callable) : Callable := { c with body := trimBlock c.body }

/-- Trim the methods of a declared class. -/
def ClassInfo.trimmed (info : ClassInfo) : ClassInfo :=
  { info with methods := info.methods.map Callable.trimmed }

/-- Trim the methods of all classes. -/
def ClassTable.trimmed (t : ClassTable) : ClassTable :=
  { t with classes := t.classes.map ClassInfo.trimmed }

/-- Trim all that can be called. -/
def Machine.trimmed (m : Machine) : Machine :=
  { m with classes := m.classes.trimmed, functions := m.functions.map Callable.trimmed }

namespace Machine

variable (m : Machine)

@[simp] theorem classes_trimmed : m.trimmed.classes = m.classes.trimmed := rfl

@[simp] theorem functions_trimmed : m.trimmed.functions = m.functions.map Callable.trimmed := rfl

@[simp] theorem heap_trimmed : m.trimmed.heap = m.heap := rfl

@[simp] theorem console_trimmed : m.trimmed.console = m.console := rfl

@[simp] theorem calls_trimmed : m.trimmed.calls = m.calls := rfl

@[simp] theorem scope_trimmed : m.trimmed.scope = m.scope := rfl

/-- There is nothing to trim on a fresh machine. -/
theorem trimmed_fresh (console : Console) (limit : Option Nat) :
    (fresh console limit).trimmed = fresh console limit := by
  simp [trimmed, fresh, ClassTable.trimmed, ClassTable.initial, Bindings.map,
    EmptyCollection.emptyCollection, Bindings.empty]

end Machine

namespace ClassTable

variable (t : ClassTable)

theorem getElem?_classes_trimmed (id : Nat) :
    t.trimmed.classes[id]? = t.classes[id]?.map ClassInfo.trimmed :=
  Array.getElem?_map

theorem info?_trimmed (c : ClassRef) : t.trimmed.info? c = (t.info? c).map ClassInfo.trimmed := by
  cases c with
  | builtin b => rfl
  | declared id => exact t.getElem?_classes_trimmed id

@[simp] theorem name_trimmed (c : ClassRef) : t.trimmed.name c = t.name c := by
  cases c with
  | builtin b => rfl
  | declared id =>
    rw [name, name, getElem?_classes_trimmed]
    cases t.classes[id]? <;> rfl

theorem declaredChain_trimmed (id : Nat) : t.trimmed.declaredChain id = t.declaredChain id := by
  induction id using Nat.strongRecOn with
  | ind id ih =>
    rw [declaredChain.eq_def t.trimmed, declaredChain.eq_def t, getElem?_classes_trimmed]
    cases t.classes[id]? with
    | none => rfl
    | some info =>
      dsimp only [Option.map_some, ClassInfo.trimmed]
      cases info.parent with
      | builtin b => rfl
      | declared up =>
        dsimp only
        split
        · rename_i hup
          rw [ih up hup]
        · rfl

@[simp] theorem ancestors_trimmed (c : ClassRef) : t.trimmed.ancestors c = t.ancestors c := by
  cases c with
  | builtin b => rfl
  | declared id => exact t.declaredChain_trimmed id

@[simp] theorem mergedDefaults_trimmed (c : ClassRef) :
    t.trimmed.mergedDefaults c = t.mergedDefaults c := by
  have happly : t.trimmed.applyDefaults = t.applyDefaults := by
    funext c inherited
    rw [applyDefaults, applyDefaults, info?_trimmed]
    cases t.info? c <;> rfl
  rw [mergedDefaults, mergedDefaults, ancestors_trimmed, happly]

theorem ownMethod?_trimmed (c : ClassRef) (method : String) :
    t.trimmed.ownMethod? c method = (t.ownMethod? c method).map Callable.trimmed := by
  rw [ownMethod?, ownMethod?, info?_trimmed]
  cases t.info? c with
  | none => rfl
  | some info => exact info.methods.get?_map Callable.trimmed method

theorem findMethod?_trimmed (c : ClassRef) (method : String) :
    t.trimmed.findMethod? c method =
      (t.findMethod? c method).map fun found => (found.1, found.2.trimmed) := by
  rw [findMethod?, findMethod?, ancestors_trimmed, List.map_findSome?]
  refine congrFun (congrArg _ (funext fun owner => ?_)) _
  rw [ownMethod?_trimmed, Function.comp_apply]
  cases t.ownMethod? owner method <;> rfl

end ClassTable

/-- Trim the body of a declared method. -/
def MethodDef.trimmed : MethodDef → MethodDef
  | .declared owner callable => .declared owner callable.trimmed
  | .builtin method => .builtin method

namespace ClassTable

variable (t : ClassTable)

theorem resolveMethod?_trimmed (c : ClassRef) (method : String) :
    t.trimmed.resolveMethod? c method = (t.resolveMethod? c method).map MethodDef.trimmed := by
  rw [resolveMethod?, resolveMethod?, ancestors_trimmed, List.map_findSome?]
  refine congrFun (congrArg _ (funext fun c => ?_)) _
  cases c with
  | builtin b =>
    rw [definition?, Function.comp_apply, definition?]
    cases b.method? method <;> rfl
  | declared id =>
    rw [definition?, Function.comp_apply, definition?, ownMethod?_trimmed]
    cases t.ownMethod? (.declared id) method <;> rfl

@[simp] theorem display_trimmed (v : Value) : t.trimmed.display v = t.display v := by
  rw [display, display, name_trimmed]

@[simp] theorem callBuiltin_trimmed (b : BuiltinMethod) (receiver : Value) (method : String)
    (args : List Value) :
    t.trimmed.callBuiltin b receiver method args = t.callBuiltin b receiver method args :=
  callBuiltin_congr t.name_trimmed b receiver method args

@[simp] theorem checkArguments_trimmed (owner : Option ClassRef) (params : List Parameter)
    (args : List Value) :
    t.trimmed.checkArguments owner params args = t.checkArguments owner params args :=
  checkArguments_congr t.name_trimmed owner params args

@[simp] theorem resolveType_trimmed (enclosing : Option String) (name : String) :
    t.trimmed.resolveType enclosing name = t.resolveType enclosing name := rfl

@[simp] theorem resolveParams_trimmed (enclosing : Option String) (params : List Param) :
    t.trimmed.resolveParams enclosing params = t.resolveParams enclosing params := by
  induction params with
  | nil => rfl
  | cons p rest ih => rw [resolveParams, resolveParams, resolveType_trimmed, ih]

/-- The callable of a trimmed declaration is trimmed. -/
theorem resolveCallable_trimmed (enclosing : Option String) (d : FunctionDecl) :
    t.trimmed.resolveCallable enclosing d.trimmed =
      (t.resolveCallable enclosing d).map Callable.trimmed := by
  obtain ⟨name, params, returnType, body⟩ := d
  simp only [FunctionDecl.trimmed, resolveCallable, resolveParams_trimmed, resolveType_trimmed]
  cases t.resolveParams enclosing params with
  | error f => rfl
  | ok params => cases t.resolveType enclosing returnType <;> rfl

/-- The methods of a trimmed declaration are trimmed. -/
theorem resolveMethods_trimmed (className : String) (methods : List FunctionDecl) :
    t.trimmed.resolveMethods className (trimMethods methods) =
      (t.resolveMethods className methods).map fun methods =>
        methods.map fun p => (p.1, p.2.trimmed) := by
  induction methods with
  | nil => rfl
  | cons d rest ih =>
    have hname : d.trimmed.name = d.name := by
      cases d
      rfl
    rw [trimMethods, resolveMethods, resolveMethods, resolveCallable_trimmed, ih, hname]
    cases t.resolveCallable (some className) d with
    | error f => rfl
    | ok callable => cases t.resolveMethods className rest <;> rfl

theorem declare_trimmed (info : ClassInfo) :
    t.trimmed.declare info.trimmed = (t.declare info).trimmed := by
  simp only [declare, add, trimmed, Array.map_push, Array.size_map]
  rfl

end ClassTable

/-! ## Trimming evaluations -/

/-- On trimmed machines, the second evaluation does what the first one does. -/
def Eval.Trims {α : Type} (x x' : Eval α) : Prop :=
  ∀ m : Machine, x' m.trimmed = (x m).map id Machine.trimmed

namespace Eval.Trims

variable {α β : Type}

theorem bind {x x' : Eval α} {f f' : α → Eval β} {good : α → Prop} (hx : x.Trims x')
    (hgood : Returns x good) (hf : ∀ a, good a → (f a).Trims (f' a)) :
    (x >>= f).Trims (x' >>= f') := by
  intro m
  rw [bind_apply, bind_apply, hx m]
  rcases hm : x m with ⟨a, m₁⟩ | ⟨e, m₁⟩ | _
  · exact hf a (hgood m a m₁ hm) m₁
  · rfl
  · rfl

theorem traced {x x' : Eval α} (h : x.Trims x') : (traced x).Trims (Eval.traced x') := by
  intro m
  rw [Eval.traced, Eval.traced, h m]
  rcases x m with ⟨a, m₁⟩ | ⟨e, m₁⟩ | _ <;> rfl

theorem orRaise {y : Machine → Option α} {f : Machine → Fault}
    (hy : ∀ m, y m.trimmed = y m) (hf : ∀ m, f m.trimmed = f m) :
    Trims (fun m => Eval.orRaise (y m) (f m) m) fun m => Eval.orRaise (y m) (f m) m := by
  intro m
  dsimp only
  rw [hy, hf]
  cases y m <;> rfl

end Eval.Trims

/-- Trimmed code does on trimmed machines what the code does. -/
structure Engine.Trims (engine : Engine) : Prop where
  eval : ∀ e, (engine.eval e).Trims (engine.eval e)
  block : ∀ mode stmts, (engine.block mode stmts).Trims (engine.block mode (trimBlock stmts))
  body : ∀ stmts, (engine.body stmts).Trims (engine.body (trimBlock stmts))
  loop : ∀ mode condition body,
    (engine.loop mode condition body).Trims (engine.loop mode condition (trimBlock body))

/-! ## Calls -/

namespace Engine.Trims

variable {engine : Engine}

theorem checkCall_trimmed (callable : Callable) (owner : Option ClassRef) (args : List Value)
    (frame : String) (m : Machine) :
    checkCall callable.trimmed owner args frame m.trimmed =
      checkCall callable owner args frame m := by
  simp only [checkCall, classes_trimmed, ClassTable.checkArguments_trimmed, calls_trimmed]
  rfl

/-- A call runs the trimmed body. -/
theorem invoke (h : engine.Trims) (callable : Callable) (owner : Option ClassRef)
    (receiver : Option Value) (args : List Value) (frame : String) :
    (engine.invoke callable owner receiver args frame).Trims
      (engine.invoke callable.trimmed owner receiver args frame) := by
  intro m
  have hcheck := checkCall_trimmed callable owner args frame m
  cases hcall : checkCall callable owner args frame m with
  | error f =>
    rw [engine.invoke_of_error receiver hcall, engine.invoke_of_error receiver (hcheck.trans hcall)]
    rfl
  | ok calls =>
    rw [engine.invoke_of_ok receiver hcall, engine.invoke_of_ok receiver (hcheck.trans hcall)]
    change ((engine.body (trimBlock callable.body)
      (Machine.trimmed (enter callable receiver args calls m))).map _ _) = _
    rw [h.body]
    rcases engine.body callable.body (enter callable receiver args calls m) with
      ⟨exit, inner⟩ | ⟨e, inner⟩ | _ <;> rfl

theorem callNamed (h : engine.Trims) (function : String) (args : List Value) :
    (engine.callNamed function args).Trims (engine.callNamed function args) := by
  intro m
  rw [callNamed_apply, callNamed_apply, functions_trimmed, Bindings.get?_map]
  cases m.functions.get? function with
  | none => rfl
  | some callable => exact h.invoke callable none m.scope.receiver args _ m

theorem invokeMethod (h : engine.Trims) (receiver : Value) (method : String) (args : List Value) :
    (engine.invokeMethod receiver method args).Trims
      (engine.invokeMethod receiver method args) := by
  intro m
  simp only [invokeMethod_apply, classes_trimmed, ClassTable.resolveMethod?_trimmed,
    ClassTable.name_trimmed, ClassTable.callBuiltin_trimmed]
  rcases m.classes.resolveMethod? receiver.cls method with _ | ⟨owner, callable⟩ | b
  · rfl
  · exact h.invoke callable (some owner) (some receiver) args _ m
  · dsimp only [Option.map_some, MethodDef.trimmed]
    cases m.classes.callBuiltin b receiver method args <;> rfl

theorem constructDeclared (h : engine.Trims) (c : ClassRef) (args : List Value) :
    (engine.constructDeclared c args).Trims (engine.constructDeclared c args) := by
  intro m
  simp only [constructDeclared_apply, classes_trimmed, heap_trimmed, ClassTable.findMethod?_trimmed,
    ClassTable.name_trimmed, ClassTable.mergedDefaults_trimmed]
  -- the machine with the new instance, on which `init` runs
  let placed : Machine := { m with heap := (m.heap.alloc (m.classes.mergedDefaults c)).1 }
  cases m.classes.findMethod? c initMethod with
  | none =>
    dsimp only [Option.map_none]
    split <;> rfl
  | some found =>
    obtain ⟨owner, init⟩ := found
    have hinit := h.invoke init (some owner) (some ⟨c, .ref m.heap.cells.size⟩) args
      (CallStack.methodFrame (m.classes.name owner) initMethod)
    exact hinit.bind .trivial (fun _ _ _ => rfl) placed

end Engine.Trims

/-! ## Code without statement lists -/

/-- Code in which no statement list is run and nothing is declared. -/
def Regime.flat : Regime Unit :=
  ofCode (fun _ => True) (fun _ => False) (fun _ _ => False) (fun _ => False) fun _ => False

/-- **One step.** Nothing on a course can tell that bodies are trimmed. -/
theorem Regime.Course.trims {w : Unit} {α : Type} {Q : Unit → α → Prop} {part : Engine → Eval α}
    (h : Regime.flat.Course w Q part) {engine : Engine} (hengine : engine.Trims) :
    (part engine).Trims (part engine) := by
  induction h with
  | pure | declareLocal | newObject | printLine => exact fun _ => rfl
  | bind hx _ ihx ihf => exact ihx.bind (hx.returns engine) fun a ha => ihf () trivial a ha
  | refuse f =>
    intro m
    have hnames : m.trimmed.classes.name = m.classes.name := funext m.classes.name_trimmed
    change Result.error ⟨f m.trimmed.classes.name, []⟩ m.trimmed = _
    rw [hnames]
    rfl
  | display v =>
    intro m
    change Result.ok (m.classes.trimmed.display v) m.trimmed = _
    rw [ClassTable.display_trimmed]
    rfl
  | resolve | lookupClass => exact .orRaise (fun _ => rfl) fun _ => rfl
  | property => exact .orRaise (fun _ => rfl) fun m => by simp
  | @assign _ v _ name =>
    intro m
    simp only [Machine.assign, scope_trimmed, heap_trimmed]
    cases m.scope.update? m.heap name v <;> rfl
  | readLine =>
    intro m
    simp only [Machine.readLine, console_trimmed]
    rcases m.console.readLine.1 with _ | _ | _ <;> rfl
  | registerClass hd | declareFunction hd | block _ hd | loop _ hd => exact hd.elim
  | @eval _ e => exact hengine.eval e
  | callNamed function => exact hengine.callNamed function _
  | invokeMethod _ method => exact hengine.invokeMethod _ method _
  | constructDeclared => exact hengine.constructDeclared _ _

/-! ## Statements -/

theorem Eval.Trims.declareFunction (d : FunctionDecl) :
    (Engine.declareFunction d).Trims (Engine.declareFunction d.trimmed) := by
  intro m
  have hname : d.trimmed.name = d.name := by
    cases d
    rfl
  simp only [Engine.declareFunction_apply, classes_trimmed, hname,
    ClassTable.resolveCallable_trimmed]
  cases m.classes.resolveCallable none d with
  | error f => rfl
  | ok callable =>
    dsimp only [Except.map, Result.map]
    rw [functions_trimmed, Bindings.insert_map]
    rfl

theorem Eval.Trims.registerClass (d : ClassDecl) (parent : ClassRef)
    (overrides defaults : List (String × Value)) :
    (Engine.registerClass d parent overrides defaults).Trims
      (Engine.registerClass d.trimmed parent overrides defaults) := by
  intro m
  obtain ⟨name, parentName, overrideDecls, propertyDecls, methods⟩ := d
  simp only [Engine.registerClass_apply, ClassDecl.trimmed, classes_trimmed,
    ClassTable.resolveMethods_trimmed]
  cases m.classes.resolveMethods name methods with
  | error f => rfl
  | ok methods =>
    let info : ClassInfo := ⟨name, parent, .ofList overrides, .ofList defaults, .ofList methods⟩
    have hinfo : ClassInfo.mk name parent (.ofList overrides) (.ofList defaults)
        (.ofList (methods.map fun p => (p.1, p.2.trimmed))) = info.trimmed :=
      congrArg (ClassInfo.mk name parent _ _) (Bindings.insertAll_map Callable.trimmed ∅ methods)
    dsimp only [Except.map]
    rw [hinfo, ClassTable.declare_trimmed]
    rfl

namespace Engine.Trims

variable {engine : Engine}

/-- What runs no statement list and declares nothing. -/
theorem of_course (h : engine.Trims) {α : Type} {Q : Unit → α → Prop} {part : Engine → Eval α}
    (hpart : Regime.flat.Course () Q part) : (part engine).Trims (part engine) :=
  hpart.trims h

theorem declareClass (h : engine.Trims) (d : ClassDecl) :
    (engine.declareClass d).Trims (engine.declareClass d.trimmed) := by
  have hregister := Eval.Trims.registerClass d
  obtain ⟨name, parent, overrides, properties, methods⟩ := d
  rw [ClassDecl.trimmed] at hregister ⊢
  refine (h.of_course (.declaredParent parent)).bind .trivial fun parent _ => ?_
  refine (h.of_course (.evalOverrides fun _ _ => trivial)).bind .trivial fun overrides _ => ?_
  refine (h.of_course (.evalProperties fun _ _ => trivial)).bind .trivial fun defaults _ => ?_
  exact hregister parent overrides defaults

/-- One round of a loop. -/
theorem loopRound (h : engine.Trims) (mode : Mode) (condition : Expr) (body : List Stmt) :
    (engine.loopRound mode condition body).Trims
      (engine.loopRound mode condition (trimBlock body)) := by
  refine (h.of_course (.evalCondition trivial)).bind .trivial fun holds _ => ?_
  cases holds with
  | false => exact fun _ => rfl
  | true =>
    refine (h.block mode body).bind .trivial fun exit _ => ?_
    cases exit <;> exact fun _ => rfl

theorem loopStep (h : engine.Trims) (mode : Mode) (condition : Expr) (body : List Stmt) :
    (engine.loopStep mode condition body).Trims
      (engine.loopStep mode condition (trimBlock body)) := by
  refine (h.loopRound mode condition body).bind .trivial fun round _ => ?_
  cases round with
  | none => exact h.loop mode condition body
  | some flow => exact fun _ => rfl

theorem execStmt (h : engine.Trims) (mode : Mode) (s : Stmt) :
    (engine.execStmt mode s).Trims (engine.execStmt mode s.trimmed) := by
  cases s with
  | loop condition body => exact h.loop mode condition body
  | branch condition body =>
    refine (h.of_course (.evalCondition trivial)).bind .trivial fun holds _ => ?_
    cases holds with
    | false => exact fun _ => rfl
    | true => exact (h.block mode body).bind .trivial fun _ _ _ => rfl
  | classDecl d => exact (h.declareClass d).bind .trivial fun _ _ _ => rfl
  | functionDecl d => exact (Eval.Trims.declareFunction d).bind .trivial fun _ _ _ => rfl
  | varDecl | assign | call | methodCall | echo | ret =>
    exact h.of_course (.execStmt mode ⟨fun _ _ => trivial, trivial⟩)

/-- **Nothing behind a `return` runs.** -/
theorem execBlock (h : engine.Trims) (mode : Mode) (stmts : List Stmt) :
    (engine.execBlock mode stmts).Trims (engine.execBlock mode (trimBlock stmts)) := by
  induction stmts with
  | nil => exact fun _ => rfl
  | cons s rest ih =>
    by_cases hs : s.isReturn = true
    · obtain ⟨value, rfl⟩ : ∃ value, s = .ret value := by
        cases s with
        | ret value => exact ⟨value, rfl⟩
        | _ => cases hs
      cases mode with
      | inFunction => exact (h.eval value).bind .trivial fun _ _ _ => rfl
      | topLevel =>
        -- a `return` that succeeds halts, so it does not matter what the list goes on with
        have hhalts : Returns (engine.execStmt .topLevel (.ret value)) fun flow => flow ≠ .next :=
          .bind fun _ => .bind fun _ => .bind fun _ => .pure nofun
        refine (h.execStmt .topLevel (.ret value)).bind hhalts fun flow hflow => ?_
        cases flow with
        | next => exact absurd rfl hflow
        | halt v => exact fun _ => rfl
    · have hs : s.isReturn = false := by simpa using hs
      have htrimmed : s.trimmed.isReturn = false := by
        cases s with
        | ret => cases hs
        | _ => rfl
      rw [trimBlock, hs, if_neg Bool.false_ne_true, engine.execBlock_cons fun _ => hs,
        engine.execBlock_cons fun _ => htrimmed]
      refine (h.execStmt mode s).bind .trivial fun flow _ => ?_
      cases flow with
      | next => exact ih
      | halt v => exact fun _ => rfl

theorem runProgram (h : engine.Trims) (p : Program) :
    (engine.runProgram p).Trims (engine.runProgram p.trimmed) := by
  intro m
  have hblock := h.block .topLevel p.statements { m with scope := .topLevel }
  change (engine.block .topLevel (trimBlock p.statements)
    (Machine.trimmed { m with scope := .topLevel })).map _ _ = _
  rw [hblock, Engine.runProgram]
  rcases engine.block .topLevel p.statements { m with scope := .topLevel } with
    ⟨exit, inner⟩ | ⟨e, inner⟩ | _ <;> rfl

end Engine.Trims

/-! ## The interpreter -/

/-- **Lock step.** With the same fuel, trimmed code does on trimmed machines what the code does. -/
theorem Engine.withFuel_trims (n : Nat) : (withFuel n).Trims := by
  induction n with
  | zero => exact ⟨fun _ _ => rfl, fun _ _ _ => rfl, fun _ _ => rfl, fun _ _ _ _ => rfl⟩
  | succ n ih =>
    rw [withFuel_succ]
    refine ⟨fun e => ?_, ih.execBlock, fun stmts => (ih.execBlock .inFunction stmts).traced,
      ih.loopStep⟩
    exact ih.of_course (.evalExpr fun _ _ => trivial)

/-! ## What a run shows -/

/-- All that a run shows when it has ended. -/
structure Behaviour where
  /-- the outcome, or the error with its backtrace -/
  ending : Except EvalError Outcome
  output : String
  /-- the input that is left -/
  input : List InputLine

/-- What a run that has ended shows. -/
def Result.behaviour? : Result Outcome → Option Behaviour
  | ok outcome m => some ⟨.ok outcome, m.console.output, m.console.input⟩
  | error e m => some ⟨.error e, m.console.output, m.console.input⟩
  | outOfFuel => none

/-- Run on a fresh machine, the program ends and shows this. -/
def Program.Shows (p : Program) (console : Console) (limit : Option Nat) (b : Behaviour) : Prop :=
  ∃ r, Ends (fun engine => engine.runProgram p) (.fresh console limit) r ∧ r.behaviour? = some b

theorem Program.shows_iff {p : Program} {console : Console} {limit : Option Nat} {b : Behaviour} :
    p.Shows console limit b ↔ ∃ fuel, (p.run fuel (.fresh console limit)).behaviour? = some b := by
  constructor
  · rintro ⟨r, ⟨-, fuel, rfl⟩, hb⟩
    exact ⟨fuel, hb⟩
  · rintro ⟨fuel, hb⟩
    refine ⟨_, ⟨fun hout => ?_, fuel, rfl⟩, hb⟩
    replace hout : p.run fuel (.fresh console limit) = .outOfFuel := hout
    rw [hout] at hb
    cases hb

/-- **Code behind a `return` is dead.** A program and the same program without all that follows a
`return` in some statement list end on the same inputs and limits, and show the same. -/
theorem trimmed_shows_iff (p : Program) (console : Console) (limit : Option Nat) (b : Behaviour) :
    p.trimmed.Shows console limit b ↔ p.Shows console limit b := by
  have hrun : ∀ fuel, (p.trimmed.run fuel (.fresh console limit)).behaviour? =
      (p.run fuel (.fresh console limit)).behaviour? := by
    intro fuel
    have htrims := (Engine.withFuel_trims fuel).runProgram p (.fresh console limit)
    rw [trimmed_fresh] at htrims
    rw [Program.run, htrims, Program.run]
    rcases (Engine.withFuel fuel).runProgram p (.fresh console limit) with
      ⟨outcome, m⟩ | ⟨e, m⟩ | _ <;> rfl
  rw [Program.shows_iff, Program.shows_iff]
  exact exists_congr fun fuel => by rw [hrun]

end FlannelScript
