import FlannelScript.CallStack
import FlannelScript.ClassTable
import FlannelScript.Console
import FlannelScript.Scope

/-!
# Machines and evaluations

A `Machine` is everything that an evaluation can read or change: the classes and functions declared
so far, the heap, the console, the active calls, and the scope in which names are resolved. Running
several programs one after the other on one machine is what keeps their declarations.

An evaluation (`Eval`) takes a machine to a `Result`, which keeps three endings apart: a value, an
error, and fuel that did not suffice. A failed evaluation leaves a machine, too: what was printed or
declared before an error stays.
-/

namespace FlannelScript

/-- The state of an interpreter. -/
structure Machine where
  classes : ClassTable := .initial
  functions : Bindings Callable := ∅
  heap : Heap := {}
  console : Console := {}
  calls : CallStack := {}
  /-- the scope of the running activation -/
  scope : Scope := .topLevel

namespace Machine

/-- A machine on which nothing has run, with a console and a limit for the depth of calls. -/
def fresh (console : Console) (maxDepth : Option Nat) : Machine :=
  { console, calls := { maxDepth } }

instance : Inhabited Machine := ⟨fresh {} none⟩

end Machine

/-- How an evaluation ended, and the machine it left. -/
inductive Result (α : Type) where
  | ok (a : α) (m : Machine)
  | error (e : EvalError) (m : Machine)
  | outOfFuel

/-- Change the value and the machine of a result. -/
def Result.map {α β : Type} (f : α → β) (g : Machine → Machine) : Result α → Result β
  | ok a m => ok (f a) (g m)
  | error e m => error e (g m)
  | outOfFuel => outOfFuel

/-- An evaluation: from a machine to a result. -/
def Eval (α : Type) : Type := Machine → Result α

namespace Eval

variable {α β : Type}

/-- Succeed at once. -/
@[inline] protected def pure (a : α) : Eval α := fun m => .ok a m

/-- Go on with the value and the machine of a success; every other ending is final. -/
@[inline] protected def bind (x : Eval α) (f : α → Eval β) : Eval β := fun m =>
  match x m with
  | .ok a m => f a m
  | .error e m => .error e m
  | .outOfFuel => .outOfFuel

@[always_inline] instance : Monad Eval where
  pure := Eval.pure
  bind := Eval.bind

@[simp] theorem pure_apply (a : α) (m : Machine) : (pure a : Eval α) m = .ok a m := rfl

theorem bind_apply (x : Eval α) (f : α → Eval β) (m : Machine) :
    (x >>= f) m =
      match x m with
      | .ok a m => f a m
      | .error e m => .error e m
      | .outOfFuel => .outOfFuel := rfl

instance : LawfulMonad Eval := LawfulMonad.mk' Eval
  (fun x => by funext m; change Eval.bind x _ m = _; unfold Eval.bind; cases x m <;> rfl)
  (fun _ _ => rfl)
  (fun x f g => by
    funext m
    change Eval.bind (Eval.bind x f) g m = Eval.bind x (fun a => Eval.bind (f a) g) m
    unfold Eval.bind
    cases x m <;> rfl)

/-- Raise a fault. The calls that are active are added on the way out, by the innermost one. -/
@[inline] def raise (f : Fault) : Eval α := fun m => .error ⟨f, []⟩ m

/-- An error that has no backtrace yet takes the active calls along. -/
@[inline] def traced (x : Eval α) : Eval α := fun m =>
  match x m with
  | .ok a m => .ok a m
  | .error e m => .error (e.withBacktrace m.calls.capture) m
  | .outOfFuel => .outOfFuel

/-- The machine as it is. -/
@[inline] def machine : Eval Machine := fun m => .ok m m

/-- Change the machine. -/
@[inline] def change (f : Machine → Machine) : Eval Unit := fun m => .ok () (f m)

/-- A value that may be missing, with the fault that its absence is. -/
@[inline] def orRaise (x : Option α) (f : Fault) : Eval α :=
  match x with
  | some a => pure a
  | none => raise f

/-- The outcome of a computation that needs no machine. -/
@[inline] def ofExcept (x : Except Fault α) : Eval α :=
  match x with
  | .ok a => pure a
  | .error f => raise f

end Eval

namespace Machine

open Eval

/-! ## Small evaluations -/

/-- What a name stands for in the running scope. -/
def resolve (name : String) : Eval Value := fun m =>
  orRaise (m.scope.resolve? m.heap name) (.unboundVariable name) m

/-- Bind a local of the running scope. -/
def declareLocal (name : String) (v : Value) : Eval Unit :=
  change fun m => { m with scope := m.scope.declare name v }

/-- Rebind a local or a property of the receiver. -/
def assign (name : String) (v : Value) : Eval Unit := fun m =>
  match m.scope.update? m.heap name v with
  | some (scope, heap) => .ok () { m with scope, heap }
  | none => raise (.unboundVariable name) m

/-- The class that a name stands for. -/
def lookupClass (name : String) : Eval ClassRef := fun m =>
  orRaise (m.classes.lookup? name) (.unknownType name) m

/-- The function that a name stands for. -/
def lookupFunction (name : String) : Eval Callable := fun m =>
  orRaise (m.functions.get? name) (.unknownFunction name) m

/-- Demand that a value is an instance of exactly the given class. -/
def requireClass (c : ClassRef) (v : Value) : Eval Unit := fun m =>
  if v.cls = c then .ok () m
  else raise (.typeMismatch (m.classes.name c) (m.classes.name v.cls)) m

/-- A property of a value; only instances have any. -/
def property (v : Value) (name : String) : Eval Value := fun m =>
  orRaise (v.loc?.bind fun loc => m.heap.get? loc name)
    (.unknownProperty name (m.classes.name v.cls)) m

/-- Allocate an instance of a class. -/
def newInstance (c : ClassRef) (properties : Bindings Value) : Eval Value := fun m =>
  let (heap, loc) := m.heap.alloc properties
  .ok ⟨c, .ref loc⟩ { m with heap }

/-- Print a line. -/
def printLine (line : String) : Eval Unit :=
  change fun m => { m with console := m.console.printLine line }

/-- Read a line. -/
def readLine : Eval String := fun m =>
  let (line, console) := m.console.readLine
  let m := { m with console }
  match line with
  | some (.text s) => .ok s m
  | some .undecodable => raise .undecodableInput m
  | none => raise .inputUnavailable m

end Machine

end FlannelScript
