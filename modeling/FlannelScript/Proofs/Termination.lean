import FlannelScript.Proofs.Course
import FlannelScript.Proofs.Fuel
import FlannelScript.Proofs.Growth

/-!
# Programs without loops end

Code without loops (`Stmt.loopFree`) can only go on for ever by calls, and a limit of calls ends
that. What has to be bounded is how far requests to the engine are nested: inside one body they go
down in the size of the code, and a call goes to a body of any size but takes one of the calls that
the limit has room for. All bodies that can ever be called come from the program, so that none is
larger than the program (`Machine.Tame`).

Nesting is what fuel measures. With room for `r` calls, code of a size below `k` is done with
`k + r * b` units if no body that can be called has the size `b` (`Engine.withFuel_finishes`).
-/

namespace FlannelScript

open Eval Machine

/-! ## Code without loops -/

mutual

/-- Whether there is no loop in a statement, nor in any body inside it. -/
def Stmt.loopFree : Stmt → Bool
  | .loop _ _ => false
  | .branch _ body => blockLoopFree body
  | .classDecl d => d.loopFree
  | .functionDecl d => d.loopFree
  | .varDecl _ _ _ | .assign _ _ | .call _ _ | .methodCall _ _ _ | .echo _ | .ret _ => true

/-- Whether there is no loop in a statement list. -/
def blockLoopFree : List Stmt → Bool
  | [] => true
  | s :: rest => s.loopFree && blockLoopFree rest

/-- Whether there is no loop in the body of a function or method. -/
def FunctionDecl.loopFree : FunctionDecl → Bool
  | ⟨_, _, _, body⟩ => blockLoopFree body

/-- Whether there is no loop in the bodies of methods. -/
def methodsLoopFree : List FunctionDecl → Bool
  | [] => true
  | d :: rest => d.loopFree && methodsLoopFree rest

/-- Whether there is no loop in the methods of a class. -/
def ClassDecl.loopFree : ClassDecl → Bool
  | ⟨_, _, _, _, methods⟩ => methodsLoopFree methods

end

/-- Whether there is no loop anywhere in a program. -/
def Program.loopFree (p : Program) : Bool := blockLoopFree p.statements

theorem FunctionDecl.loopFree_eq (d : FunctionDecl) : d.loopFree = blockLoopFree d.body := by
  cases d
  rfl

theorem ClassDecl.loopFree_eq (d : ClassDecl) : d.loopFree = methodsLoopFree d.methods := by
  cases d
  rfl

theorem blockLoopFree_iff {stmts : List Stmt} :
    blockLoopFree stmts = true ↔ ∀ s ∈ stmts, s.loopFree = true := by
  induction stmts with
  | nil => simp [blockLoopFree]
  | cons s rest ih => simp [blockLoopFree, ih]

theorem methodsLoopFree_iff {methods : List FunctionDecl} :
    methodsLoopFree methods = true ↔ ∀ d ∈ methods, d.loopFree = true := by
  induction methods with
  | nil => simp [methodsLoopFree]
  | cons d rest ih => simp [methodsLoopFree, ih]

/-! ## Sizes -/

theorem Expr.sizeOf_lt_of_mem_operands {e operand : Expr} (h : operand ∈ e.operands) :
    sizeOf operand < sizeOf e := by
  cases e with
  | literal | name | property => cases h
  | not e | ask e =>
    cases List.mem_singleton.mp h
    decreasing_tactic
  | call _ args | construct _ args | methodCall _ _ args =>
    have hlt : sizeOf operand < sizeOf args := List.sizeOf_lt_of_mem h
    simp only [call.sizeOf_spec, construct.sizeOf_spec, methodCall.sizeOf_spec]
    omega
  | compound head tail =>
    rw [compound.sizeOf_spec]
    rcases List.mem_cons.mp h with rfl | h
    · omega
    · obtain ⟨⟨symbol, e⟩, hp, rfl⟩ := List.mem_map.mp h
      have hlt : sizeOf (symbol, e) < sizeOf tail := List.sizeOf_lt_of_mem hp
      simp only [Prod.mk.sizeOf_spec] at hlt ⊢
      omega

theorem Stmt.sizeOf_lt_of_mem_operands {s : Stmt} {operand : Expr} (h : operand ∈ s.operands) :
    sizeOf operand < sizeOf s := by
  cases s with
  | varDecl _ _ value | assign _ value | echo value | ret value | branch value _ =>
    cases List.mem_singleton.mp h
    simp only [varDecl.sizeOf_spec, assign.sizeOf_spec, echo.sizeOf_spec, ret.sizeOf_spec,
      branch.sizeOf_spec]
    omega
  | call _ args | methodCall _ _ args =>
    have hlt : sizeOf operand < sizeOf args := List.sizeOf_lt_of_mem h
    simp only [call.sizeOf_spec, methodCall.sizeOf_spec]
    omega
  | loop | functionDecl => cases h
  | classDecl d =>
    obtain ⟨name, parent, overrides, properties, methods⟩ := d
    rw [classDecl.sizeOf_spec, ClassDecl.mk.sizeOf_spec]
    rcases List.mem_append.mp h with h | h
    · obtain ⟨⟨name, value⟩, hp, rfl⟩ := List.mem_map.mp h
      have hlt : sizeOf (OverrideDecl.mk name value) < sizeOf overrides := List.sizeOf_lt_of_mem hp
      simp only [OverrideDecl.mk.sizeOf_spec] at hlt ⊢
      omega
    · obtain ⟨⟨type, name, value⟩, hp, rfl⟩ := List.mem_map.mp h
      have hlt : sizeOf (PropertyDecl.mk type name value) < sizeOf properties :=
        List.sizeOf_lt_of_mem hp
      simp only [PropertyDecl.mk.sizeOf_spec] at hlt ⊢
      omega

theorem FunctionDecl.sizeOf_body_lt (d : FunctionDecl) : sizeOf d.body < sizeOf d := by
  obtain ⟨name, params, returnType, body⟩ := d
  simp only [mk.sizeOf_spec]
  omega

theorem ClassDecl.sizeOf_lt_of_mem_methods {d : ClassDecl} {method : FunctionDecl}
    (h : method ∈ d.methods) : sizeOf method < sizeOf d := by
  obtain ⟨name, parent, overrides, properties, methods⟩ := d
  have hlt : sizeOf method < sizeOf methods := List.sizeOf_lt_of_mem h
  rw [mk.sizeOf_spec]
  omega

/-! ## Machines on which only such code can be called -/

/-- There is no loop in a body, and its size is below a bound. -/
def Tame (bound : Nat) (body : List Stmt) : Prop := blockLoopFree body = true ∧ sizeOf body < bound

/-- The bodies of all functions and methods are tame. -/
structure Machine.Tame (bound : Nat) (m : Machine) : Prop where
  functions : m.functions.All fun callable => FlannelScript.Tame bound callable.body
  methods : ∀ info ∈ m.classes.classes,
    info.methods.All fun callable => FlannelScript.Tame bound callable.body

theorem Machine.tame_fresh (bound : Nat) (console : Console) (limit : Option Nat) :
    (fresh console limit).Tame bound where
  functions := nofun
  methods := nofun

namespace ClassTable

variable {t : ClassTable}

/-- A method that a class declares is found in the table. -/
theorem exists_of_ownMethod? {c : ClassRef} {method : String} {callable : Callable}
    (h : t.ownMethod? c method = some callable) :
    ∃ info ∈ t.classes, info.methods.get? method = some callable := by
  obtain ⟨info, hinfo, hmethod⟩ := Option.bind_eq_some_iff.mp h
  cases c with
  | builtin b => cases hinfo
  | declared id => exact ⟨info, Array.mem_of_getElem? hinfo, hmethod⟩

theorem exists_of_findMethod? {c owner : ClassRef} {method : String} {callable : Callable}
    (h : t.findMethod? c method = some (owner, callable)) :
    ∃ info ∈ t.classes, info.methods.get? method = some callable := by
  obtain ⟨c', -, hc'⟩ := List.exists_of_findSome?_eq_some h
  obtain ⟨callable', hown, hpair⟩ := Option.map_eq_some_iff.mp hc'
  cases hpair
  exact exists_of_ownMethod? hown

theorem exists_of_resolveMethod? {c owner : ClassRef} {method : String} {callable : Callable}
    (h : t.resolveMethod? c method = some (.declared owner callable)) :
    ∃ info ∈ t.classes, info.methods.get? method = some callable := by
  obtain ⟨c', -, hc'⟩ := List.exists_of_findSome?_eq_some h
  cases c' with
  | builtin b =>
    obtain ⟨b, -, hb⟩ := Option.map_eq_some_iff.mp hc'
    cases hb
  | declared id =>
    obtain ⟨callable', hown, hdef⟩ := Option.map_eq_some_iff.mp hc'
    cases hdef
    exact exists_of_ownMethod? hown

/-- A callable has the body of its declaration. -/
theorem body_of_resolveCallable {enclosing : Option String} {d : FunctionDecl} {callable : Callable}
    (h : t.resolveCallable enclosing d = .ok callable) : callable.body = d.body := by
  obtain ⟨params, -, h⟩ := exists_of_bind_eq_ok h
  obtain ⟨returns, -, h⟩ := exists_of_bind_eq_ok h
  cases h
  rfl

/-- The methods of a class have the bodies of their declarations. -/
theorem exists_of_mem_resolveMethods {className : String} {decls : List FunctionDecl}
    {methods : List (String × Callable)} (h : t.resolveMethods className decls = .ok methods)
    {p : String × Callable} (hp : p ∈ methods) : ∃ d ∈ decls, p.2.body = d.body := by
  induction decls generalizing methods with
  | nil =>
    cases h
    cases hp
  | cons d rest ih =>
    obtain ⟨callable, hcallable, h⟩ := exists_of_bind_eq_ok h
    obtain ⟨others, hothers, h⟩ := exists_of_bind_eq_ok h
    cases h
    rcases List.mem_cons.mp hp with rfl | hp
    · exact ⟨d, List.mem_cons_self, body_of_resolveCallable hcallable⟩
    · obtain ⟨d', hd', hbody⟩ := ih hothers hp
      exact ⟨d', List.mem_cons_of_mem d hd', hbody⟩

end ClassTable

/-! ## Evaluations that finish -/

/-- So many more calls can be nested. -/
def Machine.HasRoom (room : Nat) (m : Machine) : Prop :=
  m.calls.maxDepth = some (m.calls.depth + room)

namespace Eval

variable {α β : Type} {bound room : Nat}

/-- On tame machines with some room for calls the evaluation ends, and leaves such a machine. -/
def Finishes (bound room : Nat) (x : Eval α) : Prop :=
  ∀ m : Machine, m.Tame bound → m.HasRoom room →
    ∃ m', (x m).machine? = some m' ∧ m'.Tame bound ∧ m'.calls = m.calls

namespace Finishes

theorem bind {x : Eval α} {f : α → Eval β} {good : α → Prop} (hx : x.Finishes bound room)
    (hgood : Returns x good) (hf : ∀ a, good a → (f a).Finishes bound room) :
    (x >>= f).Finishes bound room := by
  intro m htame hroom
  obtain ⟨m₁, hm₁, htame₁, hcalls₁⟩ := hx m htame hroom
  rw [bind_apply]
  rcases hxm : x m with ⟨a, _⟩ | ⟨e, _⟩ | _ <;> rw [hxm] at hm₁ <;> cases hm₁
  · have hroom₁ : m₁.HasRoom room := by rwa [HasRoom, hcalls₁]
    obtain ⟨m₂, hm₂, htame₂, hcalls₂⟩ := hf a (hgood m a m₁ hxm) m₁ htame₁ hroom₁
    exact ⟨m₂, hm₂, htame₂, hcalls₂.trans hcalls₁⟩
  · exact ⟨m₁, rfl, htame₁, hcalls₁⟩

theorem traced {x : Eval α} (hx : x.Finishes bound room) : (traced x).Finishes bound room := by
  intro m htame hroom
  rw [machine?_traced]
  exact hx m htame hroom

/-- What changes neither the code nor the active calls. -/
theorem of_keeps {x : Eval α}
    (h : ∀ m, ∃ m', (x m).machine? = some m' ∧ m'.functions = m.functions ∧
      m'.classes = m.classes ∧ m'.calls = m.calls) : x.Finishes bound room := by
  intro m htame _
  obtain ⟨m', hm', hfunctions, hclasses, hcalls⟩ := h m
  refine ⟨m', hm', ⟨?_, ?_⟩, hcalls⟩
  · rw [hfunctions]
    exact htame.functions
  · rw [hclasses]
    exact htame.methods

theorem orRaise {y : Machine → Option α} {f : Machine → Fault} :
    Finishes bound room fun m => Eval.orRaise (y m) (f m) m := by
  refine of_keeps fun m => ⟨m, ?_, rfl, rfl, rfl⟩
  cases y m <;> rfl

theorem ofExcept (y : Except Fault α) : (Eval.ofExcept y).Finishes bound room := by
  refine of_keeps fun m => ⟨m, ?_, rfl, rfl, rfl⟩
  cases y <;> rfl

theorem assign (name : String) (v : Value) : (Machine.assign name v).Finishes bound room := by
  refine of_keeps fun m => ?_
  rw [Machine.assign]
  split
  · exact ⟨_, rfl, rfl, rfl, rfl⟩
  · exact ⟨m, rfl, rfl, rfl, rfl⟩

theorem readLine : Machine.readLine.Finishes bound room := by
  refine of_keeps fun m => ⟨{ m with console := m.console.readLine.2 }, ?_, rfl, rfl, rfl⟩
  rw [Machine.readLine]
  rcases m.console.readLine with ⟨_ | _ | _, console⟩ <;> rfl

theorem declareFunction {d : FunctionDecl} (hd : Tame bound d.body) :
    (Engine.declareFunction d).Finishes bound room := by
  intro m htame _
  rw [Engine.declareFunction_apply]
  cases hcallable : m.classes.resolveCallable none d with
  | error f => exact ⟨m, rfl, htame, rfl⟩
  | ok callable =>
    refine ⟨_, rfl, ⟨htame.functions.insert d.name ?_, htame.methods⟩, rfl⟩
    rwa [ClassTable.body_of_resolveCallable hcallable]

theorem registerClass {d : ClassDecl} (hd : ∀ method ∈ d.methods, Tame bound method.body)
    (parent : ClassRef) (overrides defaults : List (String × Value)) :
    (Engine.registerClass d parent overrides defaults).Finishes bound room := by
  intro m htame _
  rw [Engine.registerClass_apply]
  cases hmethods : m.classes.resolveMethods d.name d.methods with
  | error f => exact ⟨m, rfl, htame, rfl⟩
  | ok methods =>
    refine ⟨_, rfl, ⟨htame.functions, fun info hinfo => ?_⟩, rfl⟩
    rcases Array.mem_push.mp hinfo with hinfo | rfl
    · exact htame.methods info hinfo
    · refine .ofList fun p hp => ?_
      obtain ⟨method, hmethod, hbody⟩ := ClassTable.exists_of_mem_resolveMethods hmethods hp
      rw [hbody]
      exact hd method hmethod

end Finishes

end Eval

/-! ## Engines that finish -/

/-- On tame machines with some room for calls, the engine finishes tame code below a size, and in a
call all tame code. -/
structure Engine.Finishes (bound size room : Nat) (engine : Engine) : Prop where
  eval : ∀ e, sizeOf e < size → (engine.eval e).Finishes bound room
  block : ∀ mode stmts, Tame size stmts → (engine.block mode stmts).Finishes bound room
  body : ∀ stmts, Tame bound stmts → ∀ below, below + 1 = room →
    (engine.body stmts).Finishes bound below

namespace Engine.Finishes

variable {bound size room : Nat} {engine : Engine}

/-- A call takes some room, and gives it back. -/
theorem invoke (h : engine.Finishes bound size room) {callable : Callable}
    (hbody : Tame bound callable.body) (owner : Option ClassRef) (receiver : Option Value)
    (args : List Value) (frame : String) :
    (engine.invoke callable owner receiver args frame).Finishes bound room := by
  intro m htame hroom
  cases hcall : checkCall callable owner args frame m with
  | error f =>
    rw [engine.invoke_of_error receiver hcall]
    exact ⟨m, rfl, htame, rfl⟩
  | ok calls =>
    have hpush := push_of_checkCall hcall
    obtain ⟨below, rfl⟩ : ∃ below, room = below + 1 := by
      cases room with
      | succ below => exact ⟨below, rfl⟩
      | zero =>
        have herror : m.calls.push frame = .error (.recursionLimit m.calls.depth) :=
          CallStack.push_eq_error_iff.mpr ⟨m.calls.depth, hroom, Nat.le_refl _, rfl⟩
        rw [herror] at hpush
        cases hpush
    have hinside : (enter callable receiver args calls m).HasRoom below := by
      obtain ⟨rfl, -⟩ := CallStack.push_eq_ok hpush
      change m.calls.maxDepth = some (m.calls.frames.length + 1 + below)
      rw [hroom, CallStack.depth]
      congr 1
      omega
    obtain ⟨inner, hinner, htame', hcalls⟩ := h.body _ hbody below rfl
      (enter callable receiver args calls m) ⟨htame.functions, htame.methods⟩ hinside
    rw [engine.invoke_of_ok receiver hcall]
    refine ⟨leave m.scope inner, ?_, ⟨htame'.functions, htame'.methods⟩, ?_⟩
    · rw [Result.machine?_map, hinner]
      rfl
    · rw [leave, hcalls]
      exact CallStack.pop_of_push hpush

theorem callNamed (h : engine.Finishes bound size room) (function : String) (args : List Value) :
    (engine.callNamed function args).Finishes bound room := by
  intro m htame hroom
  rw [callNamed_apply]
  cases hfunction : m.functions.get? function with
  | none => exact ⟨m, rfl, htame, rfl⟩
  | some callable =>
    exact h.invoke (htame.functions.of_get? hfunction) none _ args _ m htame hroom

theorem invokeMethod (h : engine.Finishes bound size room) (receiver : Value) (method : String)
    (args : List Value) : (engine.invokeMethod receiver method args).Finishes bound room := by
  intro m htame hroom
  rw [invokeMethod_apply]
  rcases hmethod : m.classes.resolveMethod? receiver.cls method with _ | ⟨owner, callable⟩ | b
  · exact ⟨m, rfl, htame, rfl⟩
  · obtain ⟨info, hinfo, hcallable⟩ := ClassTable.exists_of_resolveMethod? hmethod
    exact h.invoke ((htame.methods info hinfo).of_get? hcallable) _ _ args _ m htame hroom
  · exact Eval.Finishes.ofExcept _ m htame hroom

theorem constructDeclared (h : engine.Finishes bound size room) (c : ClassRef) (args : List Value) :
    (engine.constructDeclared c args).Finishes bound room := by
  intro m htame hroom
  rw [constructDeclared_apply]
  have htame' : Machine.Tame bound
      { m with heap := (m.heap.alloc (m.classes.mergedDefaults c)).1 } :=
    ⟨htame.functions, htame.methods⟩
  cases hinit : m.classes.findMethod? c initMethod with
  | none =>
    dsimp only
    split
    · exact ⟨_, rfl, htame', rfl⟩
    · exact ⟨_, rfl, htame', rfl⟩
  | some found =>
    obtain ⟨owner, init⟩ := found
    obtain ⟨info, hinfo, hcallable⟩ := ClassTable.exists_of_findMethod? hinit
    have hbody := (htame.methods info hinfo).of_get? hcallable
    refine Eval.Finishes.bind (h.invoke hbody _ _ args _) .trivial (fun _ _ => ?_) _ htame' hroom
    exact .of_keeps fun m => ⟨m, rfl, rfl, rfl, rfl⟩

end Engine.Finishes

/-! ## The interpreter -/

/-- Only code without loops and below a size is run, and only tame bodies are declared. -/
def Regime.sized (bound size : Nat) : Regime Unit :=
  ofCode (fun e => sizeOf e < size) (Tame size) (fun _ _ => False)
    (fun d => ∀ method ∈ d.methods, Tame bound method.body) fun d => Tame bound d.body

/-- **One step.** What keeps to code that the engine finishes does finish. -/
theorem Regime.Course.finishes {bound size room : Nat} {w : Unit} {α : Type} {Q : Unit → α → Prop}
    {part : Engine → Eval α} (h : (Regime.sized bound size).Course w Q part) {engine : Engine}
    (hengine : engine.Finishes bound size room) : (part engine).Finishes bound room := by
  induction h with
  | pure | refuse | display | declareLocal | newObject | printLine =>
    exact .of_keeps fun m => ⟨_, rfl, rfl, rfl, rfl⟩
  | bind hx _ ihx ihf => exact ihx.bind (hx.returns engine) fun a ha => ihf () trivial a ha
  | resolve | property | lookupClass => exact .orRaise
  | assign _ name => exact .assign name _
  | readLine => exact .readLine
  | registerClass hd => exact .registerClass hd _ _ _
  | declareFunction hd => exact .declareFunction hd
  | @eval _ e he => exact hengine.eval e he
  | block mode hstmts => exact hengine.block mode _ hstmts
  | loop mode hloop => exact hloop.elim
  | callNamed function => exact hengine.callNamed function _
  | invokeMethod _ method => exact hengine.invokeMethod _ method _
  | constructDeclared => exact hengine.constructDeclared _ _

/-- What a statement without loops asks for is smaller than itself. -/
theorem Regime.sized_stmt {bound size : Nat} (hle : size ≤ bound) {s : Stmt}
    (hfree : s.loopFree = true) (hsize : sizeOf s ≤ size) : (Regime.sized bound size).stmt s := by
  refine ⟨fun e he => Nat.lt_of_lt_of_le (Stmt.sizeOf_lt_of_mem_operands he) hsize, ?_⟩
  cases s with
  | varDecl | assign | call | methodCall | echo | ret => trivial
  | loop => cases hfree
  | branch condition body =>
    rw [Stmt.branch.sizeOf_spec] at hsize
    exact ⟨hfree, by omega⟩
  | functionDecl d =>
    rw [Stmt.loopFree, d.loopFree_eq] at hfree
    rw [Stmt.functionDecl.sizeOf_spec] at hsize
    have hbody := d.sizeOf_body_lt
    exact ⟨hfree, by omega⟩
  | classDecl d =>
    rw [Stmt.loopFree, d.loopFree_eq] at hfree
    rw [Stmt.classDecl.sizeOf_spec] at hsize
    intro method hmethod
    have hmethodFree := methodsLoopFree_iff.mp hfree method hmethod
    rw [method.loopFree_eq] at hmethodFree
    have hlt := ClassDecl.sizeOf_lt_of_mem_methods hmethod
    have hbody := method.sizeOf_body_lt
    exact ⟨hmethodFree, by omega⟩

/-- **Enough fuel.** Fuel for the size of the code, and for one body for each call that there is room
for, is enough. -/
theorem Engine.withFuel_finishes {bound : Nat} (n : Nat) {size room : Nat} (hle : size ≤ bound)
    (hfuel : size + room * bound ≤ n) : (withFuel n).Finishes bound size room := by
  induction n generalizing size room with
  | zero =>
    obtain ⟨rfl, hroom⟩ : size = 0 ∧ room * bound = 0 := by omega
    refine ⟨nofun, fun _ _ h => absurd h.2 (Nat.not_lt_zero _), ?_⟩
    rintro stmts htame below rfl
    rw [Nat.succ_mul] at hroom
    exact absurd htame.2 (by omega)
  | succ n ih =>
    -- in all code that is small enough for the fuel, what is asked for is smaller by one
    have hcode : ∀ {size room}, size ≤ bound → size + room * bound ≤ n + 1 →
        (∀ e, sizeOf e < size → ((withFuel (n + 1)).eval e).Finishes bound room) ∧
        ∀ mode stmts, Tame size stmts →
          ((withFuel (n + 1)).block mode stmts).Finishes bound room := by
      intro size room hle hfuel
      cases size with
      | zero => exact ⟨nofun, fun _ _ h => absurd h.2 (Nat.not_lt_zero _)⟩
      | succ size =>
        have hengine : (withFuel n).Finishes bound size room := ih (by omega) (by omega)
        rw [withFuel_succ]
        refine ⟨fun e he => ?_, fun mode stmts htame => ?_⟩
        · refine (Regime.Course.evalExpr (w := ()) fun operand hoperand => ?_).finishes hengine
          exact Nat.lt_of_lt_of_le (Expr.sizeOf_lt_of_mem_operands hoperand) (Nat.le_of_lt_succ he)
        · refine (Regime.Course.execBlock (w := ()) mode fun s hs => ?_).finishes hengine
          have hlt := List.sizeOf_lt_of_mem hs
          exact Regime.sized_stmt (by omega) (blockLoopFree_iff.mp htame.1 s hs)
            (Nat.le_of_lt_succ (Nat.lt_trans hlt htame.2))
    refine ⟨(hcode hle hfuel).1, (hcode hle hfuel).2, ?_⟩
    rintro stmts htame below rfl
    rw [Nat.succ_mul] at hfuel
    exact ((hcode (Nat.le_refl bound) (by omega)).2 .inFunction stmts htame).traced

/-- **Programs without loops end**, whatever the limit of calls, the input and the ways in which
functions, methods, operators, constructions and printed values call each other. -/
theorem loopFree_ends (p : Program) (hfree : p.loopFree = true) (console : Console) (limit : Nat) :
    ∃ r, Ends (fun engine => engine.runProgram p) (.fresh console (some limit)) r ∧
      ∀ fuel, (limit + 1) * (sizeOf p.statements + 1) ≤ fuel →
        p.run fuel (.fresh console (some limit)) = r := by
  let fuel := (limit + 1) * (sizeOf p.statements + 1)
  have henough : sizeOf p.statements + 1 + limit * (sizeOf p.statements + 1) ≤ fuel := by
    have hfuel : fuel = limit * (sizeOf p.statements + 1) + (sizeOf p.statements + 1) :=
      Nat.succ_mul limit _
    omega
  have hfinishes := (Engine.withFuel_finishes fuel (Nat.le_refl _) henough).block .topLevel
    p.statements ⟨hfree, Nat.lt_succ_self _⟩
  have hroom : (Machine.fresh console (some limit)).HasRoom limit :=
    congrArg some (Nat.zero_add limit).symm
  obtain ⟨m', hm', -⟩ := hfinishes (.fresh console (some limit)) (tame_fresh _ console _) hroom
  have hends : p.run fuel (.fresh console (some limit)) ≠ .outOfFuel := by
    intro hrun
    have hout : (Engine.withFuel fuel).block .topLevel p.statements (.fresh console (some limit)) =
        .outOfFuel := Result.map_eq_outOfFuel.mp hrun
    rw [hout] at hm'
    cases hm'
  exact ⟨_, ⟨hends, fuel, rfl⟩, fun more hle => (Part.program p).mono hle hends⟩

/-- A function, a construction, an operator and a printed value that call each other in a circle. -/
def tangle : Program :=
  ⟨[.classDecl
      { name := "C"
        parent := none
        overrides := []
        properties := []
        methods :=
          [⟨"init", [], "Und", [.call "f" []]⟩,
           ⟨"add", [⟨"C", "other"⟩], "C", [.ret (.construct "C" [])]⟩,
           ⟨"getStr", [], "Str", [.echo (.compound (.name "c") [("+", .name "c")])]⟩] },
    .functionDecl ⟨"f", [], "Und", [.varDecl "C" "c" (.construct "C" []), .echo (.name "c")]⟩,
    .call "f" []]⟩

theorem loopFree_ends_tangle :
    tangle.loopFree = true ∧
    ∃ r, Ends (fun engine => engine.runProgram tangle) (.fresh {} (some 100)) r ∧
      ∀ fuel, 101 * (sizeOf tangle.statements + 1) ≤ fuel → tangle.run fuel (.fresh {} (some 100)) = r :=
  ⟨rfl, loopFree_ends tangle rfl {} 100⟩

end FlannelScript
