import FlannelScript.Number.Shortest

/-!
# The text of a float

A float is shown by the fewest digits that read back as it. Where the point goes is a matter of
the format: plain text writes every number out in full, the inspection text changes to an exponent
for very large and very small numbers. Both mark a whole number below `10 ^ 16` by one decimal
place, so that a float never looks like an integer unless it is huge.
-/

namespace FlannelScript

/-- A way to lay out the digits of a float. -/
structure FloatFormat where
  /-- whether a number whose leading digit has this exponent is written out in full -/
  positional : Int → Bool

namespace FloatFormat

/-- The layout of plain text: always written out in full. -/
def plain : FloatFormat := ⟨fun _ => true⟩

/-- The layout of inspection text: an exponent below `10 ^ -4` and from `10 ^ 16` on. -/
def inspection : FloatFormat := ⟨fun order => decide (-4 ≤ order ∧ order < 16)⟩

/-- Whole numbers with a leading digit below this exponent are given one decimal place. -/
def wholeLimit : Int := 16

/-- Write a decimal out in full. -/
def writePositional (d : Digits) : String :=
  let text := Nat.repr d.digits
  if 0 ≤ d.exponent then
    let whole := text ++ String.ofList (List.replicate d.exponent.toNat '0')
    if d.order < wholeLimit then whole ++ ".0" else whole
  else
    let places := d.exponent.natAbs
    let cs := List.replicate (places + 1 - text.length) '0' ++ text.toList
    String.ofList (cs.take (cs.length - places)) ++ "." ++
      String.ofList (cs.drop (cs.length - places))

/-- Write a decimal with an exponent: one digit before the point. -/
def writeExponential (d : Digits) : String :=
  match (Nat.repr d.digits).toList with
  | [] => ""
  | first :: rest =>
    let fraction := if rest.isEmpty then "" else "." ++ String.ofList rest
    let order := d.order
    let exponent := if order < 0 then "-" ++ Nat.repr order.natAbs else Nat.repr order.natAbs
    String.singleton first ++ fraction ++ "e" ++ exponent

/-- The text of what a float stands for. -/
def renderDouble (f : FloatFormat) : Double → String
  | .nan => "NaN"
  | .infinite negative => if negative then "-inf" else "inf"
  | .finite negative mantissa exponent =>
    let sign := if negative then "-" else ""
    if mantissa = 0 then sign ++ "0.0"
    else
      let d := Digits.shortest mantissa exponent
      sign ++ (if f.positional d.order then writePositional d else writeExponential d)

/-- The text of a float. -/
def render (f : FloatFormat) (x : Float) : String := f.renderDouble (Double.ofFloat x)

end FloatFormat

end FlannelScript
