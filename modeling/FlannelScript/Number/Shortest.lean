import FlannelScript.Number.Double

/-!
# The fewest digits that read back

Every double owns the reals that round to it: an interval around it that reaches half way to its
two neighbours, ends included when its mantissa is even. A decimal reads back as the double exactly
if it lies in that interval, so the shortest text of a double is found by looking, for one digit,
two digits and so on, at the two decimals of that many digits that enclose it. The first count
with a hit wins, and of two hits the nearer one; an exact tie goes up.

All quantities are scaled by `2 ^ 1076 · 10 ^ 345`, which makes every one of them a natural number.
-/

namespace FlannelScript

/-- A positive decimal `digits · 10 ^ exponent`. -/
structure Digits where
  digits : Nat
  exponent : Int
  deriving DecidableEq, Repr

namespace Digits

/-- The least binary exponent that is met is `-1076`: two bits below the least double. -/
def binaryScale : Nat := 1076

/-- The least decimal exponent that is met is above `-345`. -/
def decimalScale : Nat := 345

/-- The reals that round to one double, together with the double itself, all scaled. -/
structure Interval where
  low : Nat
  value : Nat
  high : Nat
  closed : Bool

/-- The interval of `mantissa · 2 ^ exponent`. In quarters of the unit in the last place the double
is `4 · mantissa`, and its neighbours are four quarters away, except that the lower one is only two
away when the mantissa is the least of its binade. -/
def interval (mantissa : Nat) (exponent : Int) : Interval :=
  let quarter := Nat.pow 10 decimalScale <<< (exponent - 2 + binaryScale).toNat
  let down := if mantissa = Double.leadingBit ∧ -1074 < exponent then 1 else 2
  { low := (4 * mantissa - down) * quarter
    value := 4 * mantissa * quarter
    high := (4 * mantissa + 2) * quarter
    closed := mantissa % 2 == 0 }

/-- Whether a scaled real reads back as the double of the interval. -/
def Interval.owns (i : Interval) (x : Nat) : Bool :=
  if i.closed then decide (i.low ≤ x ∧ x ≤ i.high) else decide (i.low < x ∧ x < i.high)

/-- The better of the two multiples of `unit` that enclose the double, if one reads back. -/
def Interval.nearest? (i : Interval) (unit : Nat) : Option Nat :=
  let d := i.value / unit
  let below := d * unit
  let above := (d + 1) * unit
  match i.owns below, i.owns above with
  | true, true => if i.value - below < above - i.value then some d else some (d + 1)
  | true, false => some d
  | false, true => some (d + 1)
  | false, false => none

/-- The decimals tried, from one digit to seventeen; `places` is the number of digits before the
scaled decimal point. -/
def Interval.search (i : Interval) (places : Nat) : Option Digits :=
  (List.range 17).findSome? fun n =>
    let power := places - (n + 1)
    (i.nearest? (Nat.pow 10 power <<< binaryScale)).map fun d => ⟨d, power - decimalScale⟩

/-- Drop the trailing zeros of the digits; `fuel` bounds their number. -/
def trim : Nat → Digits → Digits
  | 0, d => d
  | fuel + 1, ⟨d, e⟩ => if d % 10 = 0 ∧ d ≠ 0 then trim fuel ⟨d / 10, e + 1⟩ else ⟨d, e⟩

/-- The shortest decimal that reads back as the positive double `mantissa · 2 ^ exponent`. -/
def shortest (mantissa : Nat) (exponent : Int) : Digits :=
  let i := interval mantissa exponent
  let places := (Nat.toDigits 10 (i.value >>> binaryScale)).length
  trim 20 ((i.search places).getD ⟨i.value >>> binaryScale, -decimalScale⟩)

/-- The exponent of the leading digit. -/
def order (d : Digits) : Int := d.exponent + (Nat.toDigits 10 d.digits).length - 1

end Digits

end FlannelScript
