import FlannelScript.Bindings
import FlannelScript.Callable

/-!
# Classes

A declared class is a name, a parent, the defaults it introduces, the inherited defaults it
replaces, and its methods. Declarations are kept in a table that only grows: a class gets the next
number and is never changed again, and declaring a name anew only changes what the name stands for.

A parent is declared before its children. The walk from a class to its ancestors therefore goes
down in number until it reaches a built-in class and, from there, the root `Obj`; a reference that
would not go down ends it.
-/

namespace FlannelScript

/-- A declared class. -/
structure ClassInfo where
  name : String
  parent : ClassRef
  /-- new defaults for inherited properties -/
  overrides : Bindings Value := ∅
  /-- the properties that the class introduces, with their defaults -/
  defaults : Bindings Value := ∅
  methods : Bindings Callable := ∅

/-- All declared classes, and what each class name stands for. -/
structure ClassTable where
  classes : Array ClassInfo := #[]
  names : Bindings ClassRef := ∅

namespace ClassTable

/-- The table of a fresh session: only the built-in classes, under their names. -/
def initial : ClassTable where
  names := .ofList (BuiltinClass.all.map fun b => (b.name, .builtin b))

/-- The class that a name stands for. -/
def lookup? (t : ClassTable) (name : String) : Option ClassRef := t.names.get? name

/-- The declaration of a class; a built-in class has none. -/
def info? (t : ClassTable) : ClassRef → Option ClassInfo
  | .builtin _ => none
  | .declared id => t.classes[id]?

/-- The name of a class. -/
def name (t : ClassTable) : ClassRef → String
  | .builtin b => b.name
  | .declared id => (t.classes[id]?.map (·.name)).getD ""

/-- The parent of a class; only the root has none. -/
def parent? (t : ClassTable) : ClassRef → Option ClassRef
  | .builtin .obj => none
  | .builtin _ => some (.builtin .obj)
  | .declared id => t.classes[id]?.map (·.parent)

/-- Declare a class without giving it a name that can be looked up. -/
def add (t : ClassTable) (info : ClassInfo) : ClassTable × ClassRef :=
  ({ t with classes := t.classes.push info }, .declared t.classes.size)

/-- Declare a class under its name. -/
def declare (t : ClassTable) (info : ClassInfo) : ClassTable :=
  let (t, c) := t.add info
  { t with names := t.names.insert info.name c }

/-! ## The class chain -/

/-- A class and its ancestors, from a built-in class on. -/
def builtinChain : BuiltinClass → List ClassRef
  | .obj => [.builtin .obj]
  | b => [.builtin b, .builtin .obj]

/-- A declared class and its ancestors. -/
def declaredChain (t : ClassTable) (id : Nat) : List ClassRef :=
  .declared id ::
    match t.classes[id]? with
    | none => []
    | some info =>
      match info.parent with
      | .builtin b => builtinChain b
      | .declared up => if up < id then t.declaredChain up else []
termination_by id

/-- A class and its ancestors, the class itself first and the root last. -/
def ancestors (t : ClassTable) : ClassRef → List ClassRef
  | .builtin b => builtinChain b
  | .declared id => t.declaredChain id

/-- A method that exactly this class declares. -/
def ownMethod? (t : ClassTable) (c : ClassRef) (method : String) : Option Callable :=
  (t.info? c).bind fun info => info.methods.get? method

/-- The nearest declaration of a method on the way from a class to the root, together with the class
that declares it. -/
def findMethod? (t : ClassTable) (c : ClassRef) (method : String) : Option (ClassRef × Callable) :=
  (t.ancestors c).findSome? fun owner => (t.ownMethod? owner method).map (owner, ·)

/-- Overlay inherited defaults by those of one class: first its overrides, then the properties that
it introduces. -/
def applyDefaults (t : ClassTable) (c : ClassRef) (inherited : Bindings Value) : Bindings Value :=
  match t.info? c with
  | none => inherited
  | some info => (inherited.overlay info.overrides).overlay info.defaults

/-- The properties of a fresh instance, built from the root down. -/
def mergedDefaults (t : ClassTable) (c : ClassRef) : Bindings Value :=
  (t.ancestors c).foldr t.applyDefaults ∅

/-- The name of a parameter type, for a method found on `owner`. -/
def typeName (t : ClassTable) (owner : Option ClassRef) : ParamType → String
  | .cls c => t.name c
  | .enclosing => (owner.map t.name).getD "<enclosing class>"

end ClassTable

end FlannelScript
