import FlannelScript.Builtin
import FlannelScript.Engine

/-!
# Calls

Calling functions, dispatching methods and constructing instances.

A method is looked for from the class of the receiver up to the root, and the first definition
counts: a declared method shadows the built-in methods of every class above it. Arguments have to
match the parameters in number and in exact class, and both are checked before the call begins, so
a refused call leaves no frame. The body runs in a scope of its own; whatever happens in it, the
frame and the scope are gone afterwards.
-/

namespace FlannelScript

open Eval Machine

/-! ## Running a callable -/

/-- Check arguments against parameters, from left to right. -/
def ClassTable.checkArguments (t : ClassTable) (owner : Option ClassRef) :
    List Parameter → List Value → Except Fault Unit
  | p :: params, v :: args =>
    if p.type.accepts owner v then t.checkArguments owner params args
    else .error (.typeMismatch (t.typeName owner p.type) (t.name v.cls))
  | _, _ => .ok ()

/-- The value of a body that has run: that of its `return`, or undefined if it reached its end. -/
def BlockExit.value : BlockExit → Value
  | completed => .undefined
  | returned v => v
  | halted v => v

namespace Engine

/-- Whether a callable can be called with these arguments, and if so, the call stack inside. -/
def checkCall (callable : Callable) (owner : Option ClassRef) (args : List Value) (frame : String)
    (m : Machine) : Except Fault CallStack := do
  if args.length ≠ callable.arity then
    .error (.arityMismatch callable.name callable.arity args.length)
  else
    m.classes.checkArguments owner callable.params args
    m.calls.push frame

/-- The machine in which the body of a callable starts. -/
def enter (callable : Callable) (receiver : Option Value) (args : List Value) (calls : CallStack)
    (m : Machine) : Machine :=
  { m with
    calls
    scope := .ofCall receiver ((callable.params.map (·.name)).zip args) }

/-- The machine after a call: the innermost frame is dropped and the scope of the caller is back. -/
def leave (caller : Scope) (m : Machine) : Machine :=
  { m with calls := m.calls.pop, scope := caller }

/-- Run the body of a callable. `owner` is the class that declares it, if it is a method, and
`receiver` the instance whose properties its names may stand for. -/
def invoke (engine : Engine) (callable : Callable) (owner : Option ClassRef)
    (receiver : Option Value) (args : List Value) (frame : String) : Eval Value := fun m =>
  match checkCall callable owner args frame m with
  | .error f => raise f m
  | .ok calls =>
    (engine.body callable.body (enter callable receiver args calls m)).map
      BlockExit.value (leave m.scope)

section invoke

variable {callable : Callable} {owner : Option ClassRef} {args : List Value} {frame : String}
  {m : Machine} (engine : Engine) (receiver : Option Value)

theorem invoke_of_error {f : Fault} (h : checkCall callable owner args frame m = .error f) :
    engine.invoke callable owner receiver args frame m = .error ⟨f, []⟩ m := by
  rw [invoke, h]
  rfl

theorem invoke_of_ok {calls : CallStack} (h : checkCall callable owner args frame m = .ok calls) :
    engine.invoke callable owner receiver args frame m =
      (engine.body callable.body (enter callable receiver args calls m)).map
        BlockExit.value (leave m.scope) := by
  rw [invoke, h]

end invoke

/-- Call a function. -/
def callFunction (engine : Engine) (function : Callable) (receiver : Option Value)
    (args : List Value) : Eval Value :=
  engine.invoke function none receiver args (CallStack.functionFrame function.name)

end Engine

/-! ## Methods -/

/-- What a method name means for a receiver. -/
inductive MethodDef where
  /-- a declared method and the class that declares it -/
  | declared (owner : ClassRef) (callable : Callable)
  | builtin (method : BuiltinMethod)

/-- The definition of a method by exactly the given class. -/
def ClassTable.definition? (t : ClassTable) (method : String) : ClassRef → Option MethodDef
  | .builtin b => (b.method? method).map .builtin
  | .declared id => (t.ownMethod? (.declared id) method).map (.declared (.declared id))

/-- The first definition of a method on the way from a class to the root. -/
def ClassTable.resolveMethod? (t : ClassTable) (c : ClassRef) (method : String) :
    Option MethodDef :=
  (t.ancestors c).findSome? (t.definition? method)

namespace Engine

/-- Call a method. -/
def invokeMethod (engine : Engine) (receiver : Value) (method : String) (args : List Value) :
    Eval Value := do
  let m ← machine
  match m.classes.resolveMethod? receiver.cls method with
  | some (.declared owner callable) =>
    engine.invoke callable (some owner) (some receiver) args
      (CallStack.methodFrame (m.classes.name owner) method)
  | some (.builtin b) => ofExcept (m.classes.callBuiltin b receiver method args)
  | none => raise (.unknownMethod method (m.classes.name receiver.cls))

/-! ## Construction -/

/-- The name of the method that sets up a new instance. -/
def initMethod : String := "init"

/-- The value of a built-in class made from nothing. -/
def zeroValue : BuiltinClass → Eval Value
  | .obj => newInstance (.builtin .obj) ∅
  | .und => pure .undefined
  | .bln => pure (.ofBool false)
  | .int => pure (.ofInt 0)
  | .flt => pure (.ofFloat 0.0)
  | .str => pure (.ofText "")

/-- The greatest number of arguments that the construction of a built-in class takes. -/
def constructorArity : BuiltinClass → Nat
  | .obj | .und => 0
  | _ => 1

/-- Construct a value of a built-in class: its zero value without argument, and the argument itself
if it is of that very class. -/
def constructBuiltin (b : BuiltinClass) (args : List Value) : Eval Value :=
  if constructorArity b < args.length then
    raise (.arityMismatch b.name (constructorArity b) args.length)
  else
    match args with
    | [] => zeroValue b
    | arg :: _ => do
      requireClass (.builtin b) arg
      pure arg

/-- Construct an instance of a declared class: it starts out with the merged defaults, and the
nearest `init` is run on it. Without any `init` no arguments are taken. -/
def constructDeclared (engine : Engine) (c : ClassRef) (args : List Value) : Eval Value := do
  let m ← machine
  let fresh ← newInstance c (m.classes.mergedDefaults c)
  match m.classes.findMethod? c initMethod with
  | some (owner, init) => do
    let _ ← engine.invoke init (some owner) (some fresh) args
      (CallStack.methodFrame (m.classes.name owner) initMethod)
    pure fresh
  | none =>
    if args.isEmpty then pure fresh
    else raise (.arityMismatch (m.classes.name c) 0 args.length)

/-- Construct an instance of a class. -/
def construct (engine : Engine) : ClassRef → List Value → Eval Value
  | .builtin b, args => constructBuiltin b args
  | .declared id, args => engine.constructDeclared (.declared id) args

/-! ## Rendering -/

/-- The text printed for a value: a text prints as itself, and everything else is asked for its
`getStr`, so that a class can say how its instances print. -/
def renderValue (engine : Engine) (v : Value) : Eval String :=
  match v.cls, v.payload with
  | .builtin .str, .text s => pure s
  | _, _ => do
    let shown ← engine.invokeMethod v "getStr" []
    match shown.payload with
    | .text s => pure s
    | _ => do
      let m ← machine
      pure (m.classes.display shown)

end Engine

end FlannelScript
