/-!
# Decimal numbers and float literals

A decimal number is read as an exact mantissa and a power of ten and then rounded once, to the
nearest double. A float literal is an optional sign followed by one of the words `inf`, `infinity`
and `nan` in any letter case, or by digits with an optional point (a digit on at least one side of
it) and an optional exponent.
-/

namespace FlannelScript

/-- The exact number `± mantissa · 10 ^ exponent`. -/
structure Decimal where
  negative : Bool
  mantissa : Nat
  exponent : Int
  deriving DecidableEq, Repr

namespace Decimal

/-- The natural number that a run of ASCII digits denotes. -/
def ofDigits (cs : List Char) : Nat := cs.foldl (fun n c => n * 10 + (c.toNat - '0'.toNat)) 0

/-- The number with the given digits before and after the point, times a power of ten. -/
def ofParts (negative : Bool) (whole fraction : List Char) (power : Int) : Decimal :=
  ⟨negative, ofDigits (whole ++ fraction), power - fraction.length⟩

/-- The double nearest to a decimal. From `10 ^ 400` on every number is infinite, and one with far
fewer binary digits than its negative power of ten asks for is zero, so that no power larger than
the written digits call for is ever computed. -/
def toFloat (d : Decimal) : Float :=
  let magnitude : Float :=
    if d.mantissa = 0 then 0.0
    else if 400 ≤ d.exponent then 1.0 / 0.0
    else if d.exponent < 0 ∧ d.mantissa.log2 + 1100 < 3 * d.exponent.natAbs then 0.0
    else Float.ofScientific d.mantissa (decide (d.exponent < 0)) d.exponent.natAbs
  if d.negative then -magnitude else magnitude

end Decimal

/-! ## Float literals -/

/-- What is wrong with the text of a float. -/
inductive FloatProblem where
  | empty
  | invalid
  deriving DecidableEq, Repr

namespace FloatLiteral

/-- The exponent part at the end of a number: nothing, or `e`, an optional sign and digits. -/
def exponent? : List Char → Option Int
  | [] => some 0
  | c :: cs => if c = 'e' ∨ c = 'E' then signed cs else none
where
  /-- An optional sign and digits up to the end. -/
  signed : List Char → Option Int
    | '+' :: ds => digits ds
    | '-' :: ds => (digits ds).map (- ·)
    | ds => digits ds
  /-- One or more digits up to the end. -/
  digits (ds : List Char) : Option Int :=
    if !ds.isEmpty && ds.all Char.isDigit then some (Decimal.ofDigits ds) else none

/-- A number without its sign. -/
def number? (negative : Bool) (cs : List Char) : Option Decimal :=
  let (whole, rest) := cs.span Char.isDigit
  let (fraction, rest) :=
    match rest with
    | '.' :: more => more.span Char.isDigit
    | _ => ([], rest)
  if whole.isEmpty && fraction.isEmpty then none
  else (exponent? rest).map fun power => Decimal.ofParts negative whole fraction power

/-- The float that an unsigned text denotes: a special word or a number. -/
def unsigned? (negative : Bool) (cs : List Char) : Option Float :=
  let word := String.ofList (cs.map Char.toLower)
  if word = "inf" ∨ word = "infinity" then some (if negative then -1.0 / 0.0 else 1.0 / 0.0)
  else if word = "nan" then some (0.0 / 0.0)
  else (number? negative cs).map Decimal.toFloat

/-- The float that a text denotes. -/
def read (raw : String) : Except FloatProblem Float :=
  match raw.toList with
  | [] => .error .empty
  | '+' :: cs => orInvalid (unsigned? false cs)
  | '-' :: cs => orInvalid (unsigned? true cs)
  | cs => orInvalid (unsigned? false cs)
where
  /-- A text that denotes no float is invalid. -/
  orInvalid : Option Float → Except FloatProblem Float
    | some x => .ok x
    | none => .error .invalid

end FloatLiteral

end FlannelScript
