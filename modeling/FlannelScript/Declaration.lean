import FlannelScript.Engine

/-!
# Declarations

Declaring a class or a function is a statement like any other: it runs when it is reached, evaluates
its defaults in the running scope, and puts the new class or function under its name, whatever the
name stood for before. Nothing is put anywhere unless all of the declaration went well.

Inside a class the name of that class means the class being declared, even if an older class of that
name exists.
-/

namespace FlannelScript

open Eval Machine

/-! ## Types -/

/-- The type that a name stands for, inside the class `enclosing` if there is one. -/
def ClassTable.resolveType (t : ClassTable) (enclosing : Option String) (name : String) :
    Except Fault ParamType :=
  if enclosing = some name then .ok .enclosing
  else
    match t.lookup? name with
    | some c => .ok (.cls c)
    | none => .error (.unknownType name)

/-- The parameters of a declaration with their types, from left to right. -/
def ClassTable.resolveParams (t : ClassTable) (enclosing : Option String) :
    List Param → Except Fault (List Parameter)
  | [] => .ok []
  | p :: rest => do
    let type ← t.resolveType enclosing p.type
    let rest ← t.resolveParams enclosing rest
    return ⟨p.name, type⟩ :: rest

/-- The callable of a declaration: its parameter types are settled first, then its return type. -/
def ClassTable.resolveCallable (t : ClassTable) (enclosing : Option String) (d : FunctionDecl) :
    Except Fault Callable := do
  let params ← t.resolveParams enclosing d.params
  let returns ← t.resolveType enclosing d.returnType
  return ⟨d.name, params, returns, d.body⟩

/-- The methods of a class declaration, by name. -/
def ClassTable.resolveMethods (t : ClassTable) (className : String) :
    List FunctionDecl → Except Fault (List (String × Callable))
  | [] => .ok []
  | d :: rest => do
    let callable ← t.resolveCallable (some className) d
    let rest ← t.resolveMethods className rest
    return (d.name, callable) :: rest

namespace Engine

/-! ## Classes and functions -/

/-- The parent of a class declaration; without one it is the root class. -/
def declaredParent : Option String → Eval ClassRef
  | some name => lookupClass name
  | none => pure (.builtin .obj)

/-- Evaluate the overrides of a class, in order. -/
def evalOverrides (engine : Engine) : List OverrideDecl → Eval (List (String × Value))
  | [] => pure []
  | d :: rest => do
    let v ← engine.eval d.value
    let rest ← engine.evalOverrides rest
    pure ((d.name, v) :: rest)

/-- Evaluate the properties of a class, in order. A default has to be of the class that its type
names once the default has been evaluated. -/
def evalProperties (engine : Engine) : List PropertyDecl → Eval (List (String × Value))
  | [] => pure []
  | d :: rest => do
    let v ← engine.eval d.value
    let c ← lookupClass d.type
    requireClass c v
    let rest ← engine.evalProperties rest
    pure ((d.name, v) :: rest)

/-- Declare a class. -/
def declareClass (engine : Engine) (d : ClassDecl) : Eval Unit := do
  let parent ← declaredParent d.parent
  let overrides ← engine.evalOverrides d.overrides
  let defaults ← engine.evalProperties d.properties
  let m ← machine
  let methods ← ofExcept (m.classes.resolveMethods d.name d.methods)
  change fun m =>
    { m with
      classes := m.classes.declare
        { name := d.name
          parent
          overrides := .ofList overrides
          defaults := .ofList defaults
          methods := .ofList methods } }

/-- Declare a function. -/
def declareFunction (d : FunctionDecl) : Eval Unit := do
  let m ← machine
  let callable ← ofExcept (m.classes.resolveCallable none d)
  change fun m => { m with functions := m.functions.insert d.name callable }

end Engine

end FlannelScript
