import FlannelScript.Number.Integer

/-!
# Values

Every value is an instance of some class: the payload carries the data, the class decides which
methods apply. Classes and instances are held by reference. A reference to a declared class is the
number of its declaration and a reference to an instance is its place on the heap, so that identity
is equality of references: two classes of one name are different classes, and every holder of an
instance sees the same properties.
-/

namespace FlannelScript

/-- The built-in classes; `obj` is the root of every class chain. -/
inductive BuiltinClass where
  | obj | und | bln | int | flt | str
  deriving DecidableEq, Repr

namespace BuiltinClass

/-- All built-in classes, the root first. -/
def all : List BuiltinClass := [obj, und, bln, int, flt, str]

/-- The name under which the class is known. -/
def name : BuiltinClass → String
  | obj => "Obj"
  | und => "Und"
  | bln => "Bln"
  | int => "Int"
  | flt => "Flt"
  | str => "Str"

/-- The built-in class of a name. -/
def ofName? (s : String) : Option BuiltinClass := all.find? fun b => b.name == s

end BuiltinClass

/-- A class: built in, or the declaration of the given number. -/
inductive ClassRef where
  | builtin (b : BuiltinClass)
  | declared (id : Nat)
  deriving DecidableEq, Repr

/-- A place on the heap. -/
abbrev Loc : Type := Nat

/-- The data part of a value. -/
inductive Payload where
  | undefined
  | bool (b : Bool)
  | int (n : Int64)
  | float (x : Float)
  | text (s : String)
  /-- an instance with its properties on the heap -/
  | ref (loc : Loc)

namespace Payload

/-- Whether two payloads hold the same data. Floats are compared as numbers, so that a NaN differs
from itself and the two zeros agree; instances are compared by identity. -/
def same : Payload → Payload → Bool
  | undefined, undefined => true
  | bool a, bool b => a == b
  | int a, int b => a == b
  | float a, float b => a == b
  | text a, text b => a == b
  | ref a, ref b => a == b
  | _, _ => false

end Payload

/-- A value: its class and its data. -/
structure Value where
  cls : ClassRef
  payload : Payload

namespace Value

/-- The undefined value. -/
def undefined : Value := ⟨.builtin .und, .undefined⟩

/-- A truth value. -/
def ofBool (b : Bool) : Value := ⟨.builtin .bln, .bool b⟩

/-- An integer. -/
def ofInt (n : Int64) : Value := ⟨.builtin .int, .int n⟩

/-- A float. -/
def ofFloat (x : Float) : Value := ⟨.builtin .flt, .float x⟩

/-- A text. -/
def ofText (s : String) : Value := ⟨.builtin .str, .text s⟩

instance : Inhabited Value := ⟨undefined⟩

/-- The truth value inside, if there is one. -/
def bool? (v : Value) : Option Bool :=
  match v.payload with
  | .bool b => some b
  | _ => none

/-- The integer inside, if there is one. -/
def int? (v : Value) : Option Int64 :=
  match v.payload with
  | .int n => some n
  | _ => none

/-- The float inside, if there is one. -/
def float? (v : Value) : Option Float :=
  match v.payload with
  | .float x => some x
  | _ => none

/-- The text inside, if there is one. -/
def text? (v : Value) : Option String :=
  match v.payload with
  | .text s => some s
  | _ => none

/-- The place of the instance, if the value is one. -/
def loc? (v : Value) : Option Loc :=
  match v.payload with
  | .ref loc => some loc
  | _ => none

/-- Whether two values are equal: the same class and the same data. -/
def same (v w : Value) : Bool := v.cls = w.cls && v.payload.same w.payload

end Value

end FlannelScript
