import FlannelScript.Number.Integer

/-!
# Numerals

What the decimal texts of integers denote (`Integer.Denotes`) is said without any reader: a sign or
none, and then one or more digits, which make up a number of any size. The reader takes digits from
left to right and gives up as soon as the number so far is too large. As further digits never make a
number smaller, it gives up only where the whole number would have been too large, too, so it reads
just the texts that denote a number in range (`Integer.read_eq_ok_iff`). What is written is such a
text and denotes the number that was written (`Integer.denotes_render`). Unsigned numbers are read in
the same way (`Natural.read?_eq_some_iff`).
-/

namespace FlannelScript

/-! ## Runs of digits -/

/-- One or more digits. -/
structure IsNumeral (ds : List Char) : Prop where
  ne_nil : ds ≠ []
  isDigit : ∀ c ∈ ds, c.isDigit = true

theorem not_isNumeral_nil : ¬IsNumeral [] := fun h => h.ne_nil rfl

/-- A sign is not part of a numeral. -/
theorem not_isNumeral_cons {c : Char} (hc : c.isDigit = false) (ds : List Char) :
    ¬IsNumeral (c :: ds) := by
  intro h
  have hdigit := h.isDigit c List.mem_cons_self
  rw [hc] at hdigit
  cases hdigit

/-- Further digits do not make a number smaller. -/
theorem le_ofDigitChars (acc : Nat) (ds : List Char) : acc ≤ Nat.ofDigitChars 10 ds acc := by
  rw [Nat.ofDigitChars_eq_ofDigitChars_zero]
  have hpow : 1 ≤ 10 ^ ds.length := Nat.one_le_pow _ _ (by decide)
  calc acc = 1 * acc := (Nat.one_mul acc).symm
    _ ≤ 10 ^ ds.length * acc := Nat.mul_le_mul_right acc hpow
    _ ≤ _ := Nat.le_add_right _ _

/-- **Digits are read exactly.** The bound is asked for after each digit, and that is the same as to
ask for it once, at the end. -/
theorem readDigits_eq_ok_iff {top acc n : Nat} (hacc : acc ≤ top) {ds : List Char} :
    readDigits top acc ds = .ok n ↔
      (∀ c ∈ ds, c.isDigit = true) ∧ Nat.ofDigitChars 10 ds acc = n ∧ n ≤ top := by
  induction ds generalizing acc with
  | nil =>
    simp only [readDigits, Except.ok.injEq, Nat.ofDigitChars_nil]
    constructor
    · rintro rfl
      exact ⟨nofun, rfl, hacc⟩
    · exact fun h => h.2.1
  | cons c ds ih =>
    rw [readDigits, Nat.ofDigitChars_cons, List.forall_mem_cons, Nat.mul_comm 10 acc]
    by_cases hc : c.isDigit = true
    · simp only [digit?, if_pos hc]
      split
      · rename_i hle
        rw [ih hle]
        simp [hc]
      · -- the number is too large already, and the whole number is no smaller
        rename_i hgt
        have hle := le_ofDigitChars (acc * 10 + (c.toNat - '0'.toNat)) ds
        constructor
        · rintro ⟨⟩
        · rintro ⟨-, rfl, htop⟩
          exact absurd (Nat.le_trans hle htop) hgt
    · simp [digit?, hc]

/-! ## Integers -/

/-- The text is a sign or none and then a numeral, and denotes the integer. -/
inductive Integer.Denotes : List Char → Int → Prop where
  | unsigned {ds : List Char} (h : IsNumeral ds) : Denotes ds (Nat.ofDigitChars 10 ds 0)
  | plus {ds : List Char} (h : IsNumeral ds) : Denotes ('+' :: ds) (Nat.ofDigitChars 10 ds 0)
  | minus {ds : List Char} (h : IsNumeral ds) : Denotes ('-' :: ds) (-Nat.ofDigitChars 10 ds 0)

namespace Integer

theorem toInt_ofInt {x : Int} (h : InRange x) : (Int64.ofInt x).toInt = x :=
  fit?_eq_some_iff.mp (if_pos h)

theorem denotes_plus_iff {ds : List Char} {x : Int} :
    Denotes ('+' :: ds) x ↔ IsNumeral ds ∧ x = Nat.ofDigitChars 10 ds 0 := by
  constructor
  · intro h
    cases h with
    | unsigned h => exact absurd h (not_isNumeral_cons rfl ds)
    | plus h => exact ⟨h, rfl⟩
  · rintro ⟨h, rfl⟩
    exact .plus h

theorem denotes_minus_iff {ds : List Char} {x : Int} :
    Denotes ('-' :: ds) x ↔ IsNumeral ds ∧ x = -Nat.ofDigitChars 10 ds 0 := by
  constructor
  · intro h
    cases h with
    | unsigned h => exact absurd h (not_isNumeral_cons rfl ds)
    | minus h => exact ⟨h, rfl⟩
  · rintro ⟨h, rfl⟩
    exact .minus h

theorem denotes_unsigned_iff {ds : List Char} {x : Int} (hplus : ∀ rest, ds ≠ '+' :: rest)
    (hminus : ∀ rest, ds ≠ '-' :: rest) :
    Denotes ds x ↔ IsNumeral ds ∧ x = Nat.ofDigitChars 10 ds 0 := by
  constructor
  · intro h
    cases h with
    | unsigned h => exact ⟨h, rfl⟩
    | plus h => exact absurd rfl (hplus _)
    | minus h => exact absurd rfl (hminus _)
  · rintro ⟨h, rfl⟩
    exact .unsigned h

/-- Digits with a sign, where the bound on them is the range of what the sign makes of them. -/
theorem readDigits_ofInt_iff {top : Nat} {sign : Nat → Int}
    (htop : ∀ k, k ≤ top ↔ InRange (sign k)) {ds : List Char} (hne : ds ≠ []) {n : Int64} :
    (∃ k, readDigits top 0 ds = .ok k ∧ Int64.ofInt (sign k) = n) ↔
      IsNumeral ds ∧ n.toInt = sign (Nat.ofDigitChars 10 ds 0) := by
  simp only [readDigits_eq_ok_iff (Nat.zero_le top)]
  constructor
  · rintro ⟨k, ⟨hdigits, rfl, hle⟩, rfl⟩
    exact ⟨⟨hne, hdigits⟩, toInt_ofInt ((htop _).mp hle)⟩
  · rintro ⟨hds, hn⟩
    refine ⟨_, ⟨hds.isDigit, rfl, (htop _).mpr ?_⟩, ?_⟩
    · rw [← hn]
      exact inRange_toInt n
    · rw [← hn, Int64.ofInt_toInt]

/-- Without a minus sign, numerals are read up to the greatest integer. -/
theorem positive_eq_ok_iff {ds : List Char} (hne : ds ≠ []) {n : Int64} :
    read.positive ds = .ok n ↔ IsNumeral ds ∧ n.toInt = Nat.ofDigitChars 10 ds 0 := by
  have htop : ∀ k : Nat, k ≤ greatest.natAbs ↔ InRange k := by
    intro k
    rw [inRange_iff, show greatest.natAbs = 9223372036854775807 from rfl]
    omega
  rw [← readDigits_ofInt_iff htop hne, read.positive]
  rcases readDigits greatest.natAbs 0 ds with (_ | _) | k <;> simp

/-- **Reading.** Just the texts are read that denote an integer in range, and as that integer. -/
theorem read_eq_ok_iff {raw : String} {n : Int64} :
    read raw = .ok n ↔ Denotes raw.toList n.toInt := by
  rw [read]
  split
  · rename_i hraw
    rw [hraw, denotes_unsigned_iff (by simp) (by simp)]
    simp [not_isNumeral_nil]
  · rename_i hraw
    rw [hraw, denotes_plus_iff]
    simp [not_isNumeral_nil]
  · rename_i hraw
    rw [hraw, denotes_minus_iff]
    simp [not_isNumeral_nil]
  · rename_i ds hne hraw
    have htop : ∀ k : Nat, k ≤ least.natAbs ↔ InRange (-k) := by
      intro k
      rw [inRange_iff, show least.natAbs = 9223372036854775808 from rfl]
      omega
    rw [hraw, denotes_minus_iff, ← readDigits_ofInt_iff htop hne]
    rcases readDigits least.natAbs 0 ds with (_ | _) | k <;> simp
  · rename_i ds hne hraw
    rw [hraw, denotes_plus_iff, positive_eq_ok_iff hne]
  · rename_i hnil _ _ hminus hplus
    rw [denotes_unsigned_iff hplus hminus, positive_eq_ok_iff hnil]

/-- **Writing.** What is written for an integer denotes it. -/
theorem denotes_render (n : Int64) : Denotes (render n).toList n.toInt := by
  have hnumeral : ∀ k : Nat, IsNumeral k.repr.toList := by
    intro k
    rw [Nat.toList_repr]
    exact ⟨Nat.toDigits_ne_nil, fun c => Nat.isDigit_of_mem_toDigits (by decide) (by decide)⟩
  have hvalue : ∀ k : Nat, Nat.ofDigitChars 10 k.repr.toList 0 = k := by
    intro k
    rw [Nat.toList_repr, Nat.ofDigitChars_ten_toDigits]
  simp only [render]
  split
  · rename_i hneg
    rw [String.toList_append, show "-".toList = ['-'] from rfl, List.singleton_append,
      denotes_minus_iff, hvalue]
    exact ⟨hnumeral _, by omega⟩
  · rename_i hpos
    have hdenotes := Denotes.unsigned (hnumeral n.toInt.natAbs)
    rw [hvalue, Int.natAbs_of_nonneg (Int.not_lt.mp hpos)] at hdenotes
    exact hdenotes

end Integer

/-! ## Unsigned numbers -/

/-- The text is a plus sign or none and then a numeral, and denotes the number. -/
inductive Natural.Denotes : List Char → Nat → Prop where
  | unsigned {ds : List Char} (h : IsNumeral ds) : Denotes ds (Nat.ofDigitChars 10 ds 0)
  | plus {ds : List Char} (h : IsNumeral ds) : Denotes ('+' :: ds) (Nat.ofDigitChars 10 ds 0)

namespace Natural

theorem denotes_plus_iff {ds : List Char} {n : Nat} :
    Denotes ('+' :: ds) n ↔ IsNumeral ds ∧ n = Nat.ofDigitChars 10 ds 0 := by
  constructor
  · intro h
    cases h with
    | unsigned h => exact absurd h (not_isNumeral_cons rfl ds)
    | plus h => exact ⟨h, rfl⟩
  · rintro ⟨h, rfl⟩
    exact .plus h

theorem denotes_unsigned_iff {ds : List Char} {n : Nat} (hplus : ∀ rest, ds ≠ '+' :: rest) :
    Denotes ds n ↔ IsNumeral ds ∧ n = Nat.ofDigitChars 10 ds 0 := by
  constructor
  · intro h
    cases h with
    | unsigned h => exact ⟨h, rfl⟩
    | plus h => exact absurd rfl (hplus _)
  · rintro ⟨h, rfl⟩
    exact .unsigned h

/-- Digits are read up to the greatest number of 64 bits. -/
theorem readDigits_toOption_eq_some_iff {ds : List Char} (hne : ds ≠ []) {n : Nat} :
    (readDigits greatest 0 ds).toOption = some n ↔
      (IsNumeral ds ∧ n = Nat.ofDigitChars 10 ds 0) ∧ n < UInt64.size := by
  have hok : (readDigits greatest 0 ds).toOption = some n ↔ readDigits greatest 0 ds = .ok n := by
    cases readDigits greatest 0 ds <;> simp [Except.toOption]
  rw [hok, readDigits_eq_ok_iff (Nat.zero_le _)]
  constructor
  · rintro ⟨hdigits, hvalue, hle⟩
    exact ⟨⟨⟨hne, hdigits⟩, hvalue.symm⟩, Nat.lt_succ_of_le hle⟩
  · rintro ⟨⟨hds, hvalue⟩, hlt⟩
    exact ⟨hds.isDigit, hvalue.symm, Nat.le_of_lt_succ hlt⟩

/-- **Reading.** Just the texts are read that denote a number of 64 bits, and as that number. -/
theorem read?_eq_some_iff {raw : List Char} {n : Nat} :
    read? raw = some n ↔ Denotes raw n ∧ n < UInt64.size := by
  rw [read?.eq_def]
  split
  · rw [denotes_unsigned_iff (by simp)]
    simp [not_isNumeral_nil]
  · rw [denotes_plus_iff]
    simp [not_isNumeral_nil]
  · rename_i hne
    rw [denotes_plus_iff, readDigits_toOption_eq_some_iff hne]
  · rename_i hnil _ hplus
    rw [denotes_unsigned_iff hplus, readDigits_toOption_eq_some_iff hnil]

end Natural

end FlannelScript
