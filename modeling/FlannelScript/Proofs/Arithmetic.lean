import Mathlib.Algebra.Ring.Int.Parity
import FlannelScript.Proofs.Course
import FlannelScript.Proofs.TreeValue

/-!
# Integer arithmetic

The arithmetic methods of integers are exact or fail. A sum, a difference or a product is the
mathematical one if that is an integer of 64 bits, and an overflow otherwise. Quotient and remainder
fail for the same operands, and for all others they belong to one division, which truncates toward
zero (`integer_arithmetic_exact`).

Powers are exact with one exception (`exponent_exact_iff`). The exponent is bounded before the power
is taken, so that from the 32nd power of two on it overflows whatever the base is, and for the bases
`-1`, `0` and `1` the power would have been in range.
-/

namespace FlannelScript

open Eval

/-! ## The range -/

theorem inRange_iff_pow {n : Int} : InRange n ↔ -2 ^ 63 ≤ n ∧ n ≤ 2 ^ 63 - 1 := by
  rw [inRange_iff]
  omega

theorem fit?_eq_none_iff {n : Int} : fit? n = none ↔ ¬InRange n := by
  unfold fit?
  split
  · rename_i h
    simp [h]
  · rename_i h
    simp [h]

theorem exists_of_inRange {n : Int} (h : InRange n) : ∃ k, fit? n = some k ∧ k.toInt = n := by
  cases hk : fit? n with
  | none => exact absurd h (fit?_eq_none_iff.mp hk)
  | some k => exact ⟨k, rfl, fit?_eq_some_iff.mp hk⟩

/-- A quotient is out of range for the least integer and `-1` only. -/
theorem inRange_tdiv_iff {x y : Int} (hx : InRange x) (hy : y ≠ 0) :
    InRange (x.tdiv y) ↔ ¬(x = -2 ^ 63 ∧ y = -1) := by
  rw [inRange_iff] at hx ⊢
  constructor
  · rintro ⟨-, hle⟩ ⟨rfl, rfl⟩
    exact absurd hle (by decide)
  · intro hcorner
    -- a divisor of magnitude one keeps the magnitude, any other halves it at least
    by_cases hone : y = 1 ∨ y = -1
    · rcases hone with rfl | rfl
      · rwa [Int.tdiv_one]
      · rw [Int.tdiv_neg, Int.tdiv_one]
        omega
    · have hhalf : (x.tdiv y).natAbs ≤ x.natAbs / 2 := by
        rw [Int.natAbs_tdiv]
        exact Nat.div_le_div_left (by omega) (by decide)
      omega

/-- A remainder is no larger than the dividend. -/
theorem inRange_tmod {x y : Int} (hx : InRange x) : InRange (x.tmod y) := by
  rw [inRange_iff] at hx ⊢
  have habs : (x.tmod y).natAbs ≤ x.natAbs := by
    rw [Int.natAbs_tmod]
    exact Nat.mod_le _ _
  rcases Int.le_total 0 x with hpos | hneg
  · have := Int.tmod_nonneg y hpos
    omega
  · have := Int.tmod_nonneg y (Int.neg_nonneg_of_nonpos hneg)
    rw [Int.neg_tmod] at this
    omega

/-- **Truncating division.** The quotient and the remainder that truncate toward zero make up the
dividend, and the remainder is smaller than the divisor and has the sign of the dividend. -/
theorem tdiv_tmod_spec (x : Int) {y : Int} (hy : y ≠ 0) :
    x = x.tdiv y * y + x.tmod y ∧ (x.tmod y).natAbs < y.natAbs ∧
      (x.tmod y = 0 ∨ (x.tmod y).sign = x.sign) := by
  refine ⟨(Int.tdiv_mul_add_tmod x y).symm, ?_, ?_⟩
  · rw [Int.natAbs_tmod]
    exact Nat.mod_lt _ (Int.natAbs_pos.mpr hy)
  · rcases Decidable.em (y ∣ x) with hdvd | hdvd
    · exact .inl (Int.tmod_eq_zero_of_dvd hdvd)
    · exact .inr (by rw [Int.sign_tmod, if_neg hdvd])

/-! ## Powers -/

/-- From the exponent 64 on all powers of a base of magnitude two or more are out of range. -/
theorem not_inRange_pow {base : Int} {e : Nat} (hbase : 2 ≤ base.natAbs) (he : 64 ≤ e) :
    ¬InRange (base ^ e) := by
  have hpow : 2 ^ 64 ≤ (base ^ e).natAbs := by
    calc 2 ^ 64 ≤ 2 ^ e := Nat.pow_le_pow_right (by decide) he
      _ ≤ base.natAbs ^ e := Nat.pow_le_pow_left hbase e
      _ = (base ^ e).natAbs := (Int.natAbs_pow base e).symm
  rw [inRange_iff]
  omega

/-- The powers of `-1`, `0` and `1` depend on the parity of the exponent only. -/
theorem pow_of_natAbs_le_one {base : Int} (h : base.natAbs ≤ 1) (e : Nat) :
    base ^ e = if e = 0 then 1 else if e % 2 = 0 then base * base else base := by
  by_cases he : e = 0
  · rw [he, if_pos rfl, pow_zero]
  · rw [if_neg he]
    obtain rfl | rfl | rfl : base = 0 ∨ base = 1 ∨ base = -1 := by omega
    · rw [zero_pow he]
      split <;> rfl
    · rw [one_pow]
      split <;> rfl
    · by_cases hparity : e % 2 = 0
      · rw [if_pos hparity, (Nat.even_iff.mpr hparity).neg_one_pow]
        rfl
      · rw [if_neg hparity, (Nat.not_even_iff_odd.mp (mt Nat.even_iff.mp hparity)).neg_one_pow]

theorem inRange_pow_of_natAbs_le_one {base : Int} (h : base.natAbs ≤ 1) (e : Nat) :
    InRange (base ^ e) := by
  have hpow : (base ^ e).natAbs ≤ 1 := by
    calc (base ^ e).natAbs = base.natAbs ^ e := Int.natAbs_pow base e
      _ ≤ 1 ^ e := Nat.pow_le_pow_left h e
      _ = 1 := Nat.one_pow e
  rw [inRange_iff]
  omega

/-- **Powers** are computed exactly, although a large one is never written out. -/
theorem power?_eq_fit? (base : Int) (e : Nat) : power? base e = fit? (base ^ e) := by
  rw [power?]
  split
  · rename_i hbase
    rw [pow_of_natAbs_le_one hbase]
  · rename_i hbase
    split
    · rfl
    · rename_i he
      exact (fit?_eq_none_iff.mpr (not_inRange_pow (by omega) (by omega))).symm

/-! ## Methods of integers -/

/-- Call a method of an integer with an integer. -/
def Engine.onIntegers (engine : Engine) (method : String) (a b : Int64) : Eval Value :=
  engine.invokeMethod (.ofInt a) method [.ofInt b]

/-- An evaluation gives the integer `exact` if that has 64 bits and is an overflow otherwise. In
both cases it changes nothing. -/
def Eval.GivesExactly (x : Eval Value) (op : Arith) (exact : Int) : Prop :=
  ∀ m,
    (-2 ^ 63 ≤ exact ∧ exact ≤ 2 ^ 63 - 1 → ∃ n : Int64, n.toInt = exact ∧ x m = .ok (.ofInt n) m) ∧
    (¬(-2 ^ 63 ≤ exact ∧ exact ≤ 2 ^ 63 - 1) → x m = .error ⟨.integerOverflow op, []⟩ m)

namespace Engine

variable (engine : Engine) {method : String} {op : Arith} {a b : Int64}

/-- The arithmetic methods of integers are found, whatever has been declared. -/
theorem onIntegers_apply (h : Arith.ofMethod? method = some op) (a b : Int64) (m : Machine) :
    engine.onIntegers method a b m = ofExcept ((op.ints a b).map .ofInt) m := by
  have hown : BuiltinClass.int.method? method = some (.intArith op) := by
    change ((Arith.ofMethod? method).map _).or _ = _
    rw [h]
    rfl
  have hmethod : m.classes.resolveMethod? (Value.ofInt a).cls method =
      some (.builtin (.intArith op)) := by
    change m.classes.resolveMethod? (.builtin .int) method = _
    rw [ClassTable.resolveMethod?_builtin, BuiltinClass.inherited?, hown]
    rfl
  rw [onIntegers, invokeMethod_apply, hmethod]
  rfl

theorem onIntegers_of_ok (h : Arith.ofMethod? method = some op) {n : Int64}
    (hop : op.onIntegers a b = .ok n) (m : Machine) :
    engine.onIntegers method a b m = .ok (.ofInt n) m := by
  rw [engine.onIntegers_apply h, Arith.ints, hop]
  rfl

theorem onIntegers_of_overflow (h : Arith.ofMethod? method = some op)
    (hop : op.onIntegers a b = .error .overflow) (m : Machine) :
    engine.onIntegers method a b m = .error ⟨.integerOverflow op, []⟩ m := by
  rw [engine.onIntegers_apply h, Arith.ints, hop]
  rfl

/-- An operation that does no more than check the range of its exact result gives it exactly. -/
theorem givesExactly_of_fit (h : Arith.ofMethod? method = some op) {exact : Int}
    (hop : op.onIntegers a b = Arith.onIntegers.exactly (fit? exact)) :
    (engine.onIntegers method a b).GivesExactly op exact := by
  intro m
  rw [← inRange_iff_pow]
  constructor
  · intro hrange
    obtain ⟨n, hn, hexact⟩ := exists_of_inRange hrange
    rw [hn] at hop
    exact ⟨n, hexact, engine.onIntegers_of_ok h hop m⟩
  · intro hrange
    rw [fit?_eq_none_iff.mpr hrange] at hop
    exact engine.onIntegers_of_overflow h hop m

/-- A division, unless it is by zero, is exact. -/
theorem divide_givesExactly (hb : b.toInt ≠ 0) :
    (engine.onIntegers "divide" a b).GivesExactly .divide (a.toInt.tdiv b.toInt) :=
  engine.givesExactly_of_fit rfl (if_neg hb)

theorem onIntegers_by_zero (h : Arith.ofMethod? method = some op)
    (hop : op = .divide ∨ op = .modulo) (hb : b.toInt = 0) (m : Machine) :
    engine.onIntegers method a b m = .error ⟨.divisionByZero, []⟩ m := by
  rcases hop with rfl | rfl <;> rw [engine.onIntegers_apply h, Arith.ints, Arith.onIntegers,
    if_pos hb] <;> rfl

theorem modulo_of_corner (ha : a.toInt = -2 ^ 63) (hb : b.toInt = -1) (m : Machine) :
    engine.onIntegers "modulo" a b m = .error ⟨.integerOverflow .modulo, []⟩ m := by
  refine engine.onIntegers_of_overflow rfl ?_ m
  rw [Arith.onIntegers, if_neg (by omega), if_pos ⟨ha, hb⟩]

theorem modulo_givesExactly (hb : b.toInt ≠ 0) (hcorner : ¬(a.toInt = -2 ^ 63 ∧ b.toInt = -1)) :
    (engine.onIntegers "modulo" a b).GivesExactly .modulo (a.toInt.tmod b.toInt) :=
  engine.givesExactly_of_fit rfl ((if_neg hb).trans (if_neg hcorner))

end Engine

/-- **Division and remainder belong together.** Where the divisor is not zero and the operands are
not the least integer and `-1`, both methods give a result, and the two results are those of one
division that truncates toward zero. -/
theorem Engine.divide_modulo (engine : Engine) {a b : Int64} (hb : b.toInt ≠ 0)
    (hcorner : ¬(a.toInt = -2 ^ 63 ∧ b.toInt = -1)) (m : Machine) :
    ∃ q r : Int64, engine.onIntegers "divide" a b m = .ok (.ofInt q) m ∧
      engine.onIntegers "modulo" a b m = .ok (.ofInt r) m ∧
      a.toInt = q.toInt * b.toInt + r.toInt ∧ r.toInt.natAbs < b.toInt.natAbs ∧
      (r.toInt = 0 ∨ r.toInt.sign = a.toInt.sign) := by
  have hquotient := (inRange_tdiv_iff (inRange_toInt a) hb).mpr hcorner
  have hremainder : InRange (a.toInt.tmod b.toInt) := inRange_tmod (inRange_toInt a)
  rw [inRange_iff_pow] at hquotient hremainder
  obtain ⟨q, hq, hdivide⟩ := (engine.divide_givesExactly hb m).1 hquotient
  obtain ⟨r, hr, hmodulo⟩ := (engine.modulo_givesExactly hb hcorner m).1 hremainder
  refine ⟨q, r, hdivide, hmodulo, ?_⟩
  rw [hq, hr]
  exact tdiv_tmod_spec a.toInt hb

/-- **Integer arithmetic is exact.** Sums, differences and products are the mathematical ones or
overflow. Quotients and remainders fail for the same operands, a divisor of zero or the least
integer and `-1`, and otherwise belong to the division that truncates toward zero. -/
theorem integer_arithmetic_exact (engine : Engine) (a b : Int64) :
    (engine.onIntegers "add" a b).GivesExactly .add (a.toInt + b.toInt) ∧
    (engine.onIntegers "subtract" a b).GivesExactly .subtract (a.toInt - b.toInt) ∧
    (engine.onIntegers "multiply" a b).GivesExactly .multiply (a.toInt * b.toInt) ∧
    ∀ m,
      (engine.onIntegers "divide" a b m = .error ⟨.divisionByZero, []⟩ m ↔ b.toInt = 0) ∧
      (engine.onIntegers "modulo" a b m = .error ⟨.divisionByZero, []⟩ m ↔ b.toInt = 0) ∧
      (engine.onIntegers "divide" a b m = .error ⟨.integerOverflow .divide, []⟩ m ↔
        a.toInt = -2 ^ 63 ∧ b.toInt = -1) ∧
      (engine.onIntegers "modulo" a b m = .error ⟨.integerOverflow .modulo, []⟩ m ↔
        a.toInt = -2 ^ 63 ∧ b.toInt = -1) ∧
      (b.toInt ≠ 0 → ¬(a.toInt = -2 ^ 63 ∧ b.toInt = -1) →
        ∃ q r : Int64, engine.onIntegers "divide" a b m = .ok (.ofInt q) m ∧
          engine.onIntegers "modulo" a b m = .ok (.ofInt r) m ∧
          a.toInt = q.toInt * b.toInt + r.toInt ∧ r.toInt.natAbs < b.toInt.natAbs ∧
          (r.toInt = 0 ∨ r.toInt.sign = a.toInt.sign)) := by
  refine ⟨engine.givesExactly_of_fit rfl rfl, engine.givesExactly_of_fit rfl rfl,
    engine.givesExactly_of_fit rfl rfl, fun m => ?_⟩
  by_cases hb : b.toInt = 0
  · have hdivide : engine.onIntegers "divide" a b m = .error ⟨.divisionByZero, []⟩ m :=
      engine.onIntegers_by_zero rfl (.inl rfl) hb m
    have hmodulo : engine.onIntegers "modulo" a b m = .error ⟨.divisionByZero, []⟩ m :=
      engine.onIntegers_by_zero rfl (.inr rfl) hb m
    simp [hdivide, hmodulo, hb]
  · by_cases hcorner : a.toInt = -2 ^ 63 ∧ b.toInt = -1
    · have hdivide := (engine.divide_givesExactly (a := a) hb m).2 fun hrange =>
        (inRange_tdiv_iff (inRange_toInt a) hb).mp (inRange_iff_pow.mpr hrange) hcorner
      have hmodulo := engine.modulo_of_corner hcorner.1 hcorner.2 m
      simp [hdivide, hmodulo, hcorner]
    · obtain ⟨q, r, hdivide, hmodulo, hspec⟩ := engine.divide_modulo hb hcorner m
      exact ⟨iff_of_false (by simp [hdivide]) hb, iff_of_false (by simp [hmodulo]) hb,
        iff_of_false (by simp [hdivide]) hcorner, iff_of_false (by simp [hmodulo]) hcorner,
        fun _ _ => ⟨q, r, hdivide, hmodulo, hspec⟩⟩

/-- `-7` divided by `2` is `-3` and leaves `-1`, and the greatest integer plus one overflows. -/
theorem integer_arithmetic_exact_negative_dividend :
    (∃ q r : Int64, q.toInt * 2 + r.toInt = -7 ∧ r.toInt.natAbs < 2 ∧
      (r.toInt = 0 ∨ r.toInt.sign = -1) ∧
      (Engine.withFuel 0).onIntegers "divide" (-7) 2 default = .ok (.ofInt q) default ∧
      (Engine.withFuel 0).onIntegers "modulo" (-7) 2 default = .ok (.ofInt r) default) ∧
    (Engine.withFuel 0).onIntegers "add" 9223372036854775807 1 default =
      .error ⟨.integerOverflow .add, []⟩ default ∧
    (Engine.withFuel 0).onIntegers "divide" (-9223372036854775808) (-1) default =
      .error ⟨.integerOverflow .divide, []⟩ default := by
  obtain ⟨q, r, hdivide, hmodulo, hdividend, hless, hsign⟩ :=
    ((integer_arithmetic_exact (Engine.withFuel 0) (-7) 2).2.2.2 default).2.2.2.2
      (by decide) (by decide)
  exact ⟨⟨q, r, hdividend.symm, hless, hsign, hdivide, hmodulo⟩,
    ((integer_arithmetic_exact (Engine.withFuel 0) 9223372036854775807 1).1 default).2 (by decide),
    ((integer_arithmetic_exact (Engine.withFuel 0) (-9223372036854775808) (-1)).2.2.2
      default).2.2.1.mpr (by decide)⟩

/-! ## Powers of integers -/

namespace Engine

/-- Whether the power of two integers is exact: a negative exponent is refused, and for any other
the power is given if it has 64 bits and is an overflow otherwise. -/
def PowerExact (engine : Engine) (b e : Int64) : Prop :=
  (e.toInt < 0 → ∀ m,
    engine.onIntegers "exponent" b e m = .error ⟨.negativeExponent e, []⟩ m) ∧
  (0 ≤ e.toInt →
    (engine.onIntegers "exponent" b e).GivesExactly .exponent (b.toInt ^ e.toInt.toNat))

variable (engine : Engine) {b e : Int64}

theorem exponent_of_neg (he : e.toInt < 0) (m : Machine) :
    engine.onIntegers "exponent" b e m = .error ⟨.negativeExponent e, []⟩ m := by
  rw [engine.onIntegers_apply rfl, Arith.ints, Arith.onIntegers, if_pos he]
  rfl

theorem exponent_of_limit_le (he : 2 ^ 32 ≤ e.toInt) (m : Machine) :
    engine.onIntegers "exponent" b e m = .error ⟨.integerOverflow .exponent, []⟩ m := by
  refine engine.onIntegers_of_overflow rfl ?_ m
  rw [Arith.onIntegers, if_neg (by omega), exponentLimit, if_pos (by omega)]

theorem exponent_givesExactly (he : 0 ≤ e.toInt) (hlimit : e.toInt < 2 ^ 32) :
    (engine.onIntegers "exponent" b e).GivesExactly .exponent (b.toInt ^ e.toInt.toNat) := by
  refine engine.givesExactly_of_fit rfl ?_
  rw [Arith.onIntegers, if_neg (by omega), exponentLimit, if_neg (by omega), power?_eq_fit?]

end Engine

/-- **Powers are exact** just if the exponent is below the 32nd power of two or the base is none of
`-1`, `0` and `1`. From that exponent on every power is an overflow, also where it would have had
64 bits. -/
theorem exponent_exact_iff (engine : Engine) (b e : Int64) :
    (engine.PowerExact b e ↔ e.toInt < 2 ^ 32 ∨ 2 ≤ b.toInt.natAbs) ∧
    (2 ^ 32 ≤ e.toInt → ∀ m,
      engine.onIntegers "exponent" b e m = .error ⟨.integerOverflow .exponent, []⟩ m) := by
  refine ⟨⟨fun hexact => ?_, fun h => ?_⟩, engine.exponent_of_limit_le⟩
  · by_contra hother
    have he : 2 ^ 32 ≤ e.toInt := by omega
    have hrange := inRange_pow_of_natAbs_le_one (show b.toInt.natAbs ≤ 1 by omega) e.toInt.toNat
    obtain ⟨n, -, hok⟩ := (hexact.2 (by omega) default).1 (inRange_iff_pow.mp hrange)
    rw [engine.exponent_of_limit_le he] at hok
    cases hok
  · refine ⟨engine.exponent_of_neg, fun hpos m => ?_⟩
    by_cases he : e.toInt < 2 ^ 32
    · exact engine.exponent_givesExactly hpos he m
    · -- the bound on the exponent refuses nothing here: the power is out of range itself
      have hrange : ¬InRange (b.toInt ^ e.toInt.toNat) := not_inRange_pow (by omega) (by omega)
      rw [inRange_iff_pow] at hrange
      exact ⟨fun h => absurd h hrange, fun _ => engine.exponent_of_limit_le (by omega) m⟩

/-- The power of one to `4294967296` is one, and yet an overflow. -/
theorem not_powerExact_one : ¬(Engine.withFuel 0).PowerExact 1 4294967296 := by
  intro hexact
  obtain ⟨n, -, hok⟩ := (hexact.2 (by decide) default).1 (by
    rw [show (1 : Int64).toInt = 1 from rfl, one_pow]
    decide)
  rw [Engine.exponent_of_limit_le _ (by decide)] at hok
  cases hok

end FlannelScript
