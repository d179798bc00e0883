/-!
# Doubles as exact numbers

A finite double is a sign and a magnitude `mantissa · 2 ^ exponent` with a natural mantissa below
`2 ^ 53` and an exponent of at least `-1074`. `Double.ofFloat` takes a float apart into that form
and `Double.pack` puts one together, so that what is said about digits and remainders below is
said in exact integer arithmetic.
-/

namespace FlannelScript

/-- What a 64-bit float stands for. -/
inductive Double where
  | nan
  | infinite (negative : Bool)
  | finite (negative : Bool) (mantissa : Nat) (exponent : Int)
  deriving DecidableEq, Repr

namespace Double

/-- The sign of an interchange word is its bit 63. -/
def signBit : Nat := 1 <<< 63

/-- The leading bit of a normal mantissa, which has 53 bits. -/
def leadingBit : Nat := 1 <<< 52

/-- Read the three fields of an interchange word: sign, biased exponent, fraction. -/
def ofBits (bits : Nat) : Double :=
  let negative := decide (signBit ≤ bits)
  let biased : Nat := (bits / leadingBit) % 2048
  let fraction : Nat := bits % leadingBit
  if biased = 2047 then if fraction = 0 then infinite negative else nan
  else if biased = 0 then finite negative fraction (-1074)
  else finite negative (leadingBit + fraction) (biased - 1075)

/-- What a float stands for. -/
def ofFloat (x : Float) : Double := ofBits x.toBits.toNat

/-- The interchange word of `± mantissa · 2 ^ exponent`, for a mantissa below `2 ^ 53` and an
exponent of at least `-1074`: the mantissa is shifted up until it has 53 bits or the exponent is
the least one. -/
def pack (negative : Bool) (mantissa : Nat) (exponent : Int) : Nat :=
  let sign := if negative then signBit else 0
  let shift := min (52 - mantissa.log2) (exponent + 1074).toNat
  let m := mantissa <<< shift
  if m < leadingBit then sign + m
  else sign + (exponent - shift + 1075).toNat * leadingBit + (m - leadingBit)

/-- The float of an exact double. -/
def toFloat : Double → Float
  | nan => 0.0 / 0.0
  | infinite negative => if negative then -1.0 / 0.0 else 1.0 / 0.0
  | finite negative mantissa exponent =>
    Float.ofBits (UInt64.ofNat (pack negative mantissa exponent))

/-- The exact remainder of a division that truncates toward zero; it has the sign of the dividend.
Both magnitudes are brought to the smaller of the two exponents, where the remainder is one of
natural numbers and again a double. -/
def remainder : Double → Double → Double
  | nan, _ | _, nan | infinite _, _ => nan
  | x, infinite _ => x
  | finite negative m e, finite _ n f =>
    if n = 0 then nan
    else
      let least := min e f
      finite negative ((m <<< (e - least).toNat) % (n <<< (f - least).toNat)) least

end Double

end FlannelScript
