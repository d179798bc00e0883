import FlannelScript.Number.Decimal
import FlannelScript.Number.Integer

/-!
# Numbers with a bounded significand

A written number may have any number of digits. A `Scaled` number keeps a significand of 64 bits and
a power of ten. Digits are taken from the left as long as the significand has room for them; from
the first one that does not fit on they are dropped, and each dropped digit in front of the point
counts as one power of ten. Room is asked for once more behind the point, so that digits of the
fraction may still be taken where digits in front of it were dropped.

Such a number stands for the product of two doubles, one next to its significand and one next to its
power of ten. It overflows if that product does, which near the greatest double is a little sooner
than the number itself is out of range.
-/

namespace FlannelScript

/-- The magnitude `significand · 10 ^ exponent`. -/
structure Scaled where
  significand : Nat
  exponent : Int
  deriving DecidableEq, Repr

namespace Scaled

/-- Take digits from the left as long as the significand stays within 64 bits; the digits that were
not taken are left over. -/
def takeDigits (significand : Nat) : List Char → Nat × List Char
  | [] => (significand, [])
  | c :: cs =>
    let next := significand * 10 + (c.toNat - '0'.toNat)
    if next ≤ Natural.greatest then takeDigits next cs else (significand, c :: cs)

/-- The number with the given digits before and after the point, times a power of ten. -/
def ofParts (whole fraction : List Char) (power : Int) : Scaled :=
  let (significand, dropped) := takeDigits 0 whole
  let (significand, unused) := takeDigits significand fraction
  ⟨significand, power + dropped.length - (fraction.length - unused.length)⟩

/-- The greatest power of ten that is a finite double. -/
def greatestPower : Int := 308

/-- Whether the product of significand and power of ten, as doubles, is infinite. -/
def overflows (s : Scaled) : Bool :=
  if s.significand = 0 ∨ s.exponent < 0 then false
  else if greatestPower < s.exponent then true
  else (Float.ofNat s.significand * Float.ofScientific 1 false s.exponent.toNat).isInf

end Scaled

end FlannelScript
