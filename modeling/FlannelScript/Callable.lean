import FlannelScript.Tree
import FlannelScript.Value

/-!
# Callables

A callable is a declared function or method. The types of its parameters are settled when it is
declared, so a type that does not exist is found out at the declaration and a class that is
declared anew under the same name later on does not change what the callable accepts. The return
type is recorded and never checked.
-/

namespace FlannelScript

/-- The declared type of a parameter or a result. -/
inductive ParamType where
  | cls (c : ClassRef)
  /-- The class whose declaration contains the method. It does not exist yet while its methods are
  being declared; which class it is follows from where the method is found. -/
  | enclosing
  deriving DecidableEq, Repr

namespace ParamType

/-- Whether a value is of the type: its class is exactly the one meant. -/
def accepts (t : ParamType) (owner : Option ClassRef) (v : Value) : Bool :=
  match t with
  | cls c => v.cls = c
  | enclosing => owner = some v.cls

end ParamType

/-- A parameter with its type. -/
structure Parameter where
  name : String
  type : ParamType

/-- A declared function or method. -/
structure Callable where
  name : String
  params : List Parameter
  returns : ParamType
  body : List Stmt

namespace Callable

/-- The number of arguments expected. -/
def arity (c : Callable) : Nat := c.params.length

end Callable

end FlannelScript
