import FlannelScript.Proofs.Arithmetic
import FlannelScript.Proofs.Numerals

/-!
# Literals

A literal is a text until it is evaluated, and then either a value or a fault: evaluating it does
not touch the machine. Which texts are literals, and of what, is said here without the readers:
integers by what a decimal text denotes, texts by the quotes around them (`literal_decoding_exact`).
So the three places where integers and texts turn into source text and back belong together: the
literals that are made of values, the texts that `getStr` gives, and the evaluation of literals.
-/

namespace FlannelScript

open Eval

/-! ## What literals stand for -/

/-- **Quotes.** A quoted text is a quote, the text and a quote; a lone quote is none. -/
theorem unquote?_eq_some_iff {raw s : String} : unquote? raw = some s ↔ raw = "'" ++ s ++ "'" := by
  have hquote : "'".toList = ['\''] := rfl
  rw [← String.toList_inj, String.toList_append, String.toList_append, hquote, unquote?]
  constructor
  · intro h
    split at h
    · rename_i rest hraw
      split at h
      · rename_i content hrest
        cases h
        rw [hraw, String.toList_ofList, List.append_assoc, List.singleton_append,
          ← List.reverse_cons, ← hrest, List.reverse_reverse]
      · cases h
    · cases h
  · intro h
    simp [h]

namespace LiteralKind

variable {raw : String} {v : Value} {problem : LiteralProblem}

theorem value_int_eq_ok_iff :
    int.value raw = .ok v ↔ ∃ n : Int64, Integer.Denotes raw.toList n.toInt ∧ v = .ofInt n := by
  simp only [← Integer.read_eq_ok_iff, value]
  cases Integer.read raw with
  | ok n => simp [eq_comm]
  | error why => simp

theorem value_text_eq_ok_iff :
    text.value raw = .ok v ↔ ∃ s, raw = "'" ++ s ++ "'" ∧ v = .ofText s := by
  simp only [← unquote?_eq_some_iff, value]
  cases unquote? raw with
  | some s => simp [eq_comm]
  | none => simp

/-- The integers of 64 bits are the integers in range. -/
theorem exists_value_int_iff : (∃ v, int.value raw = .ok v) ↔
    ∃ x : Int, Integer.Denotes raw.toList x ∧ -2 ^ 63 ≤ x ∧ x ≤ 2 ^ 63 - 1 := by
  simp only [value_int_eq_ok_iff, ← inRange_iff_pow]
  constructor
  · rintro ⟨_, n, hn, -⟩
    exact ⟨n.toInt, hn, inRange_toInt n⟩
  · rintro ⟨x, hx, hrange⟩
    have hn : (Int64.ofInt x).toInt = x := Integer.toInt_ofInt hrange
    exact ⟨_, Int64.ofInt x, hn.symm ▸ hx, rfl⟩

theorem exists_of_value_int_eq_error (h : int.value raw = .error problem) :
    ∃ why, problem = .notInteger why := by
  rw [value] at h
  split at h
  · cases h
  · rename_i why _
    cases h
    exact ⟨why, rfl⟩

theorem eq_of_value_text_eq_error (h : text.value raw = .error problem) :
    problem = .notQuoted := by
  rw [value] at h
  split at h <;> cases h
  rfl

end LiteralKind

/-! ## Evaluation -/

namespace Engine

variable {kind : LiteralKind} {raw : String} {v : Value} {m m' : Machine}

/-- A literal is evaluated without a look at the machine. -/
theorem eval_literal_of_ok (fuel : Nat) (h : kind.value raw = .ok v) (m : Machine) :
    (withFuel (fuel + 1)).eval (.literal kind raw) m = .ok v m := by
  change evalLiteral kind raw m = _
  rw [evalLiteral, h]
  rfl

/-- A literal that has no value is malformed. -/
theorem eval_literal_of_error (fuel : Nat) {problem : LiteralProblem}
    (h : kind.value raw = .error problem) (m : Machine) :
    (withFuel (fuel + 1)).eval (.literal kind raw) m =
      .error ⟨.malformedLiteral raw problem, []⟩ m := by
  change evalLiteral kind raw m = _
  rw [evalLiteral, h]
  rfl

theorem eval_literal_eq_ok_iff (fuel : Nat) :
    (withFuel (fuel + 1)).eval (.literal kind raw) m = .ok v m' ↔
      kind.value raw = .ok v ∧ m' = m := by
  cases h : kind.value raw with
  | ok w => simp [eval_literal_of_ok fuel h, eq_comm]
  | error problem => simp [eval_literal_of_error fuel h]

/-- Where a literal is malformed, it has no value. -/
theorem not_exists_value_of_eval_literal {fuel : Nat} {e : EvalError}
    (h : (withFuel (fuel + 1)).eval (.literal kind raw) m = .error e m') :
    ¬∃ v, kind.value raw = .ok v := by
  rintro ⟨v, hv⟩
  rw [eval_literal_of_ok fuel hv] at h
  cases h

theorem eval_int_of_denotes (fuel : Nat) {n : Int64} (h : Integer.Denotes raw.toList n.toInt)
    (m : Machine) : (withFuel (fuel + 1)).eval (.literal .int raw) m = .ok (.ofInt n) m :=
  eval_literal_of_ok fuel (LiteralKind.value_int_eq_ok_iff.mpr ⟨n, h, rfl⟩) m

/-- **Integer literals** have the value that their text denotes. -/
theorem eval_int_eq_ok_iff (fuel : Nat) :
    (withFuel (fuel + 1)).eval (.literal .int raw) m = .ok v m' ↔
      ∃ (x : Int) (n : Int64), Integer.Denotes raw.toList x ∧ -2 ^ 63 ≤ x ∧ x ≤ 2 ^ 63 - 1 ∧
        n.toInt = x ∧ v = .ofInt n ∧ m' = m := by
  rw [eval_literal_eq_ok_iff, LiteralKind.value_int_eq_ok_iff]
  constructor
  · rintro ⟨⟨n, hn, rfl⟩, rfl⟩
    obtain ⟨hleast, hgreatest⟩ := inRange_iff_pow.mp (inRange_toInt n)
    exact ⟨n.toInt, n, hn, hleast, hgreatest, rfl, rfl, rfl⟩
  · rintro ⟨_, n, hn, -, -, rfl, rfl, rfl⟩
    exact ⟨⟨n, hn, rfl⟩, rfl⟩

/-- **Malformed integers** are the texts that denote no number of 64 bits. -/
theorem eval_int_malformed_iff (fuel : Nat) :
    (∃ why, (withFuel (fuel + 1)).eval (.literal .int raw) m =
        .error ⟨.malformedLiteral raw (.notInteger why), []⟩ m) ↔
      ¬∃ x : Int, Integer.Denotes raw.toList x ∧ -2 ^ 63 ≤ x ∧ x ≤ 2 ^ 63 - 1 := by
  rw [← LiteralKind.exists_value_int_iff]
  constructor
  · rintro ⟨why, hmalformed⟩
    exact not_exists_value_of_eval_literal hmalformed
  · intro hnone
    cases hvalue : LiteralKind.int.value raw with
    | ok v => exact absurd ⟨v, hvalue⟩ hnone
    | error problem =>
      obtain ⟨why, rfl⟩ := LiteralKind.exists_of_value_int_eq_error hvalue
      exact ⟨why, eval_literal_of_error fuel hvalue m⟩

theorem eval_text_eq_ok_iff (fuel : Nat) :
    (withFuel (fuel + 1)).eval (.literal .text raw) m = .ok v m' ↔
      ∃ s, raw = "'" ++ s ++ "'" ∧ v = .ofText s ∧ m' = m := by
  rw [eval_literal_eq_ok_iff, LiteralKind.value_text_eq_ok_iff]
  simp only [← exists_and_right, and_assoc]

/-- **Malformed texts** are those without the quotes. -/
theorem eval_text_malformed_iff (fuel : Nat) :
    (withFuel (fuel + 1)).eval (.literal .text raw) m =
        .error ⟨.malformedLiteral raw .notQuoted, []⟩ m ↔ ¬∃ s, raw = "'" ++ s ++ "'" := by
  constructor
  · rintro hmalformed ⟨s, hs⟩
    exact not_exists_value_of_eval_literal hmalformed
      ⟨_, LiteralKind.value_text_eq_ok_iff.mpr ⟨s, hs, rfl⟩⟩
  · intro hnone
    cases hvalue : LiteralKind.text.value raw with
    | ok v =>
      obtain ⟨s, hs, -⟩ := LiteralKind.value_text_eq_ok_iff.mp hvalue
      exact absurd ⟨s, hs⟩ hnone
    | error problem =>
      obtain rfl := LiteralKind.eq_of_value_text_eq_error hvalue
      exact eval_literal_of_error fuel hvalue m

/-- For integers, the `getStr` of the root is called, whatever has been declared. -/
theorem invokeMethod_getStr_ofInt (engine : Engine) (n : Int64) (m : Machine) :
    engine.invokeMethod (.ofInt n) "getStr" [] m = .ok (.ofText (Integer.render n)) m := by
  rw [invokeMethod_apply]
  rfl

end Engine

/-- **Literals are decoded exactly.** An integer literal has a value just if its text is a sign or
none and one or more digits, and denotes a number of 64 bits, which is the value then. A text
literal has a value just if it stands between two quotes, and the value is what stands between them.
All other literals of these kinds are malformed, and no literal changes the machine. So the literal
of an integer or a text evaluates to it, and so does the text that `getStr` gives for an integer. -/
theorem literal_decoding_exact (fuel : Nat) (m : Machine) :
    (∀ raw v m', (Engine.withFuel (fuel + 1)).eval (.literal .int raw) m = .ok v m' ↔
      ∃ (x : Int) (n : Int64), Integer.Denotes raw.toList x ∧ -2 ^ 63 ≤ x ∧ x ≤ 2 ^ 63 - 1 ∧
        n.toInt = x ∧ v = .ofInt n ∧ m' = m) ∧
    (∀ raw, (∃ why, (Engine.withFuel (fuel + 1)).eval (.literal .int raw) m =
        .error ⟨.malformedLiteral raw (.notInteger why), []⟩ m) ↔
      ¬∃ x : Int, Integer.Denotes raw.toList x ∧ -2 ^ 63 ≤ x ∧ x ≤ 2 ^ 63 - 1) ∧
    (∀ raw v m', (Engine.withFuel (fuel + 1)).eval (.literal .text raw) m = .ok v m' ↔
      ∃ s, raw = "'" ++ s ++ "'" ∧ v = .ofText s ∧ m' = m) ∧
    (∀ raw, (Engine.withFuel (fuel + 1)).eval (.literal .text raw) m =
        .error ⟨.malformedLiteral raw .notQuoted, []⟩ m ↔ ¬∃ s, raw = "'" ++ s ++ "'") ∧
    (∀ n, (Engine.withFuel (fuel + 1)).eval (.ofInt n) m = .ok (.ofInt n) m) ∧
    (∀ s, (Engine.withFuel (fuel + 1)).eval (.ofText s) m = .ok (.ofText s) m) ∧
    ∀ n, ∃ text,
      (Engine.withFuel fuel).invokeMethod (.ofInt n) "getStr" [] m = .ok (.ofText text) m ∧
      (Engine.withFuel (fuel + 1)).eval (.literal .int text) m = .ok (.ofInt n) m := by
  refine ⟨fun raw v m' => Engine.eval_int_eq_ok_iff fuel,
    fun raw => Engine.eval_int_malformed_iff fuel, fun raw v m' => Engine.eval_text_eq_ok_iff fuel,
    fun raw => Engine.eval_text_malformed_iff fuel, fun n => ?_, fun s => ?_, fun n => ?_⟩
  · exact Engine.eval_int_of_denotes fuel (Integer.denotes_render n) m
  · exact (Engine.eval_text_eq_ok_iff fuel).mpr ⟨s, rfl, rfl, rfl⟩
  · refine ⟨_, Engine.invokeMethod_getStr_ofInt _ n m, ?_⟩
    exact Engine.eval_int_of_denotes fuel (Integer.denotes_render n) m

end FlannelScript
