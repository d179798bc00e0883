import FlannelScript.ClassTable
import FlannelScript.Fault
import FlannelScript.Number.Double
import FlannelScript.Number.FloatText

/-!
# Methods of the built-in classes

| Class | Methods                             |
|-------|-------------------------------------|
| `Obj` | `equals` `doesNotEqual` `getStr`    |
| `Und` | none of its own                     |
| `Bln` | `and` `or`                          |
| `Int` | arithmetic, comparisons             |
| `Flt` | arithmetic, comparisons             |
| `Str` | `add` (concatenation), comparisons  |

There is no widening: the argument of a method of `Bln`, `Int`, `Flt` or `Str` has to be of exactly
that class. A method looks at its receiver first, then at the number of arguments, then at the class
of the argument and last at the data in it. The receiver comes first because an instance of a class
that is derived from a built-in one carries no data of the built-in sort.

No method changes anything, so all of them are plain functions to a value or a fault. They take the
class table for the names of classes that a fault may have to tell.
-/

namespace FlannelScript

/-! ## Comparisons -/

/-- The four order comparisons. -/
inductive Comparison where
  | greater | less | greaterOrEqual | lessOrEqual
  deriving DecidableEq, Repr

/-- Whether a comparison holds for operands in the given order. -/
def Comparison.holds : Comparison → Ordering → Bool
  | greater, o => o == .gt
  | less, o => o == .lt
  | greaterOrEqual, o => o != .lt
  | lessOrEqual, o => o != .gt

/-- The order of two integers. -/
def compareIntegers (a b : Int64) : Ordering := compare a.toInt b.toInt

/-- The order of two texts: that of their characters, which is also that of their bytes. -/
def compareTexts (a b : String) : Ordering :=
  if a < b then .lt else if b < a then .gt else .eq

/-- The order of two floats; a NaN has none. -/
def compareFloats? (a b : Float) : Option Ordering :=
  if a < b then some .lt else if a > b then some .gt else if a == b then some .eq else none

/-! ## Arithmetic -/

/-- Integer arithmetic as a method. -/
def Arith.ints (op : Arith) (a b : Int64) : Except Fault Int64 :=
  match op.onIntegers a b with
  | .ok n => .ok n
  | .error .divisionByZero => .error .divisionByZero
  | .error .overflow => .error (.integerOverflow op)
  | .error .negativeExponent => .error (.negativeExponent b)

/-- Float arithmetic; it always has a result. -/
def Arith.floats : Arith → Float → Float → Float
  | .add, a, b => a + b
  | .subtract, a, b => a - b
  | .multiply, a, b => a * b
  | .divide, a, b => a / b
  | .modulo, a, b => ((Double.ofFloat a).remainder (Double.ofFloat b)).toFloat
  | .exponent, a, b => Float.pow a b

/-! ## The methods -/

/-- A method of a built-in class. -/
inductive BuiltinMethod where
  | equals
  | doesNotEqual
  | getStr
  | and
  | or
  | intArith (op : Arith)
  | intCompare (c : Comparison)
  | floatArith (op : Arith)
  | floatCompare (c : Comparison)
  | concat
  | textCompare (c : Comparison)
  deriving DecidableEq, Repr

/-- The arithmetic operation of a method name. -/
def Arith.ofMethod? : String → Option Arith
  | "add" => some .add
  | "subtract" => some .subtract
  | "multiply" => some .multiply
  | "divide" => some .divide
  | "modulo" => some .modulo
  | "exponent" => some .exponent
  | _ => none

/-- The comparison of a method name. -/
def Comparison.ofMethod? : String → Option Comparison
  | "isGreater" => some .greater
  | "isLess" => some .less
  | "isGreaterOrEqual" => some .greaterOrEqual
  | "isLessOrEqual" => some .lessOrEqual
  | _ => none

/-- The method that a built-in class itself declares under a name. -/
def BuiltinClass.method? : BuiltinClass → String → Option BuiltinMethod
  | obj, "equals" => some .equals
  | obj, "doesNotEqual" => some .doesNotEqual
  | obj, "getStr" => some .getStr
  | obj, _ => none
  | und, _ => none
  | bln, "and" => some .and
  | bln, "or" => some .or
  | bln, _ => none
  | int, name =>
    ((Arith.ofMethod? name).map .intArith).or ((Comparison.ofMethod? name).map .intCompare)
  | flt, name =>
    ((Arith.ofMethod? name).map .floatArith).or ((Comparison.ofMethod? name).map .floatCompare)
  | str, name =>
    if name = "add" then some .concat else (Comparison.ofMethod? name).map .textCompare

namespace ClassTable

/-- The plain text of a value, which is what `getStr` of the root class gives. -/
def display (t : ClassTable) (v : Value) : String :=
  match v.payload with
  | .undefined => "und"
  | .bool b => if b then "true" else "false"
  | .int n => Integer.render n
  | .float x => FloatFormat.plain.render x
  | .text s => s
  | .ref _ => "<" ++ t.name v.cls ++ " instance>"

/-- The data of a value, which has to be of the sort that a built-in class holds. -/
def datum (t : ClassTable) {α : Type} (b : BuiltinClass) (read : Value → Option α) (v : Value) :
    Except Fault α :=
  match read v with
  | some a => .ok a
  | none => .error (.typeMismatch b.name (t.name v.cls))

/-- The only argument of a method. -/
def onlyArgument (method : String) : List Value → Except Fault Value
  | [arg] => .ok arg
  | args => .error (.arityMismatch method 1 args.length)

/-- The only argument of a method, which has to be of exactly the given built-in class. -/
def argumentOf (t : ClassTable) (b : BuiltinClass) (method : String) (args : List Value) :
    Except Fault Value := do
  let arg ← onlyArgument method args
  if arg.cls = .builtin b then .ok arg
  else .error (.typeMismatch b.name (t.name arg.cls))

/-- Apply an operation of a built-in class to the data of the receiver and of the argument. -/
def binary (t : ClassTable) {α : Type} (b : BuiltinClass) (read : Value → Option α)
    (apply : α → α → Except Fault Value) (receiver : Value) (method : String)
    (args : List Value) : Except Fault Value := do
  let x ← t.datum b read receiver
  let arg ← t.argumentOf b method args
  let y ← t.datum b read arg
  apply x y

/-- Call a method of a built-in class; `method` is the name it was called by. -/
def callBuiltin (t : ClassTable) (m : BuiltinMethod) (receiver : Value) (method : String)
    (args : List Value) : Except Fault Value :=
  match m with
  | .equals => do
    let arg ← onlyArgument method args
    return .ofBool (receiver.same arg)
  | .doesNotEqual => do
    let arg ← onlyArgument method args
    return .ofBool !(receiver.same arg)
  | .getStr =>
    if args.isEmpty then .ok (.ofText (t.display receiver))
    else .error (.arityMismatch method 0 args.length)
  | .and => t.binary .bln Value.bool? (fun a b => .ok (.ofBool (a && b))) receiver method args
  | .or => t.binary .bln Value.bool? (fun a b => .ok (.ofBool (a || b))) receiver method args
  | .intArith op =>
    t.binary .int Value.int? (fun a b => (op.ints a b).map .ofInt) receiver method args
  | .intCompare c =>
    t.binary .int Value.int? (fun a b => .ok (.ofBool (c.holds (compareIntegers a b))))
      receiver method args
  | .floatArith op =>
    t.binary .flt Value.float? (fun a b => .ok (.ofFloat (op.floats a b))) receiver method args
  | .floatCompare c =>
    t.binary .flt Value.float?
      (fun a b => .ok (.ofBool ((compareFloats? a b).any c.holds))) receiver method args
  | .concat =>
    t.binary .str Value.text? (fun a b => .ok (.ofText (a ++ b))) receiver method args
  | .textCompare c =>
    t.binary .str Value.text? (fun a b => .ok (.ofBool (c.holds (compareTexts a b))))
      receiver method args

end ClassTable

end FlannelScript
