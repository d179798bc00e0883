/-!
# Integers

The language's integers are the signed 64-bit ones, and nothing wraps: an operation either gives
the exact result or refuses. Operations are therefore defined on `Int`, followed by one range
check (`fit?`).

Integers are written in decimal: an optional sign and one or more ASCII digits. Digits are taken
from left to right and the first character that cannot be taken decides what is wrong with the
text: a character that is no digit is reported as such even where the number would also have
become too large.
-/

namespace FlannelScript

/-! ## The range -/

/-- The least integer of 64 bits, the negative of the 63rd power of two. -/
abbrev Integer.least : Int := -9223372036854775808

/-- The greatest integer of 64 bits, one below the 63rd power of two. -/
abbrev Integer.greatest : Int := 9223372036854775807

/-- Whether an integer lies in the 64-bit range. -/
def InRange (n : Int) : Prop := Integer.least ≤ n ∧ n ≤ Integer.greatest

instance (n : Int) : Decidable (InRange n) := inferInstanceAs (Decidable (_ ∧ _))

theorem inRange_iff {n : Int} :
    InRange n ↔ -9223372036854775808 ≤ n ∧ n ≤ 9223372036854775807 := Iff.rfl

theorem inRange_toInt (k : Int64) : InRange k.toInt := by
  have hl := k.le_toInt
  have hg := k.toInt_lt
  exact inRange_iff.mpr ⟨by omega, by omega⟩

/-- The 64-bit integer of the same value, if there is one. -/
def fit? (n : Int) : Option Int64 := if InRange n then some (Int64.ofInt n) else none

theorem fit?_eq_some_iff {n : Int} {k : Int64} : fit? n = some k ↔ k.toInt = n := by
  unfold fit?
  split
  · rename_i h
    constructor
    · intro hk
      cases hk
      obtain ⟨hl, hg⟩ := inRange_iff.1 h
      exact Int64.toInt_ofInt_of_le (by omega) (by omega)
    · intro hk
      subst hk
      simp
  · rename_i h
    simp only [reduceCtorEq, false_iff]
    intro hk
    subst hk
    exact h (inRange_toInt k)

/-! ## Arithmetic -/

/-- The arithmetic methods that integers and floats share. -/
inductive Arith where
  | add | subtract | multiply | divide | modulo | exponent
  deriving DecidableEq, Repr

/-- Exact integer power, or `none` once it has left the 64-bit range. A base of magnitude two or
more leaves the range at the latest with the exponent 64, so no large power is ever computed. -/
def power? (base : Int) (e : Nat) : Option Int64 :=
  if base.natAbs ≤ 1 then fit? (if e = 0 then 1 else if e % 2 = 0 then base * base else base)
  else if e < 64 then fit? (Int.pow base e)
  else none

/-- The first exponent that is too large whatever the base, the 32nd power of two. -/
abbrev exponentLimit : Int := 4294967296

/-- Why integer arithmetic has no result. -/
inductive ArithProblem where
  | divisionByZero
  | overflow
  | negativeExponent
  deriving DecidableEq, Repr

/-- Exact integer arithmetic. Division truncates toward zero and the remainder has the sign of the
dividend; both overflow for the least integer and `-1`. An exponent has to be below
`exponentLimit` even where the power itself would be small. -/
def Arith.onIntegers (op : Arith) (a b : Int64) : Except ArithProblem Int64 :=
  let x := a.toInt
  let y := b.toInt
  match op with
  | .add => exactly (fit? (x + y))
  | .subtract => exactly (fit? (x - y))
  | .multiply => exactly (fit? (x * y))
  | .divide => if y = 0 then .error .divisionByZero else exactly (fit? (x.tdiv y))
  | .modulo =>
    if y = 0 then .error .divisionByZero
    else if x = Integer.least ∧ y = -1 then .error .overflow
    else exactly (fit? (x.tmod y))
  | .exponent =>
    if y < 0 then .error .negativeExponent
    else if exponentLimit ≤ y then .error .overflow
    else exactly (power? x y.toNat)
where
  /-- A result out of range is an overflow. -/
  exactly : Option Int64 → Except ArithProblem Int64
    | some n => .ok n
    | none => .error .overflow

/-! ## Decimal text -/

/-- What is wrong with the text of an integer. -/
inductive IntegerProblem where
  | empty
  | badDigit
  | tooLarge
  | tooSmall
  deriving DecidableEq, Repr

/-- Why a run of digits denotes no number. -/
inductive DigitsProblem where
  | badDigit
  | overflow
  deriving DecidableEq, Repr

/-- The value of an ASCII digit. -/
def digit? (c : Char) : Option Nat := if c.isDigit then some (c.toNat - '0'.toNat) else none

/-- Take digits from left to right as long as the value stays at or below `top`. -/
def readDigits (top : Nat) : Nat → List Char → Except DigitsProblem Nat
  | acc, [] => .ok acc
  | acc, c :: cs =>
    match digit? c with
    | none => .error .badDigit
    | some d =>
      if acc * 10 + d ≤ top then readDigits top (acc * 10 + d) cs
      else .error .overflow

/-- The integer that a text denotes. The least integer has no positive counterpart, so the digits
behind a minus sign may reach one further. -/
def Integer.read (raw : String) : Except IntegerProblem Int64 :=
  match raw.toList with
  | [] => .error .empty
  | ['+'] | ['-'] => .error .badDigit
  | '-' :: digits =>
    match readDigits Integer.least.natAbs 0 digits with
    | .ok n => .ok (Int64.ofInt (-n))
    | .error .badDigit => .error .badDigit
    | .error .overflow => .error .tooSmall
  | '+' :: digits => positive digits
  | digits => positive digits
where
  /-- The digits of a number without a minus sign. -/
  positive (digits : List Char) : Except IntegerProblem Int64 :=
    match readDigits Integer.greatest.natAbs 0 digits with
    | .ok n => .ok (Int64.ofInt n)
    | .error .badDigit => .error .badDigit
    | .error .overflow => .error .tooLarge

/-- The greatest unsigned number of 64 bits. -/
abbrev Natural.greatest : Nat := 18446744073709551615

/-- The unsigned 64-bit number that a text denotes: an optional plus sign and digits. -/
def Natural.read? (raw : List Char) : Option Nat :=
  match raw with
  | [] | ['+'] => none
  | '+' :: digits => (readDigits Natural.greatest 0 digits).toOption
  | digits => (readDigits Natural.greatest 0 digits).toOption

/-- Decimal text of an integer. -/
def Integer.render (n : Int64) : String :=
  let x := n.toInt
  if x < 0 then "-" ++ Nat.repr x.natAbs else Nat.repr x.natAbs

end FlannelScript
