import FlannelScript.Heap

/-!
# Scopes

A scope is the flat set of bindings of one activation: the top level of a program, or one call.
Blocks inside it share its bindings, so a variable declared in a loop body is still there after the
loop.

A name is resolved in three tiers: the locals, the properties of the receiver, the constants. Only
the first two can be written to, and only where the name is already bound.
-/

namespace FlannelScript

/-- The bindings of one activation. -/
structure Scope where
  locals : Bindings Value := ∅
  /-- the instance on which the running method was called -/
  receiver : Option Value := none
  constants : Bindings Value := ∅
  deriving Inhabited

namespace Scope

/-- The constants that every program can use. -/
def globals : Bindings Value := .ofList [("und", .undefined)]

/-- The scope of top-level statements. -/
def topLevel : Scope := { constants := globals }

/-- The scope of a call: the parameters are its locals. -/
def ofCall (receiver : Option Value) (arguments : List (String × Value)) : Scope :=
  { locals := .ofList arguments, receiver, constants := globals }

/-- Bind a local, replacing what the name was bound to. -/
def declare (s : Scope) (name : String) (v : Value) : Scope :=
  { s with locals := s.locals.insert name v }

/-- The place of the receiver, if it is an instance. -/
def receiverLoc? (s : Scope) : Option Loc := s.receiver.bind Value.loc?

/-- The property of the receiver with the given name. -/
def receiverProperty? (s : Scope) (h : Heap) (name : String) : Option Value :=
  s.receiverLoc?.bind fun loc => h.get? loc name

/-- What a name stands for. -/
def resolve? (s : Scope) (h : Heap) (name : String) : Option Value :=
  ((s.locals.get? name).or (s.receiverProperty? h name)).or (s.constants.get? name)

/-- Rebind a local or, failing that, a property of the receiver; `none` if the name is neither. -/
def update? (s : Scope) (h : Heap) (name : String) (v : Value) : Option (Scope × Heap) :=
  if s.locals.contains name then some (s.declare name v, h)
  else (s.receiverLoc?.bind fun loc => h.set? loc name v).map fun h => (s, h)

end Scope

end FlannelScript
