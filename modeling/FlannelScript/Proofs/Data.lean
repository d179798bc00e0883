import FlannelScript.Builtin
import FlannelScript.Literal
import FlannelScript.Proofs.Evaluation

/-!
# Plain data

Literals, lines of input and the results of the methods of built-in classes are plain data
(`Value.IsData`): values of the built-in classes other than the root, each with the data that its
class stands for. Plain data means the same on all machines.
-/

namespace FlannelScript

/-- The values of the built-in classes other than the root: plain data. -/
inductive Value.IsData : Value → Prop where
  | undefined : IsData .undefined
  | ofBool (b : Bool) : IsData (.ofBool b)
  | ofInt (n : Int64) : IsData (.ofInt n)
  | ofFloat (x : Float) : IsData (.ofFloat x)
  | ofText (s : String) : IsData (.ofText s)

/-- Plain data is of a built-in class. -/
theorem Value.IsData.cls_eq {v : Value} (h : v.IsData) : ∃ b, v.cls = .builtin b := by
  cases h <;> exact ⟨_, rfl⟩

/-- Literals are data. -/
theorem LiteralKind.isData_of_value {kind : LiteralKind} {raw : String} {v : Value}
    (h : kind.value raw = .ok v) : v.IsData := by
  cases kind with
  | bool =>
    rw [LiteralKind.value] at h
    split at h
    · cases h
      exact .ofBool _
    · split at h
      · cases h
        exact .ofBool _
      · cases h
  | int =>
    rw [LiteralKind.value] at h
    split at h
    · cases h
      exact .ofInt _
    · cases h
  | float =>
    rw [LiteralKind.value] at h
    split at h
    · cases h
      exact .ofFloat _
    · cases h
  | text =>
    rw [LiteralKind.value] at h
    split at h
    · cases h
      exact .ofText _
    · cases h

namespace ClassTable

/-- What a binary operation gives is given by what is applied to the data. -/
theorem exists_of_binary_eq_ok {t : ClassTable} {α : Type} {b : BuiltinClass}
    {read : Value → Option α} {apply : α → α → Except Fault Value} {receiver v : Value}
    {method : String} {args : List Value}
    (h : t.binary b read apply receiver method args = .ok v) : ∃ x y, apply x y = .ok v := by
  obtain ⟨x, -, h⟩ := exists_of_bind_eq_ok h
  obtain ⟨arg, -, h⟩ := exists_of_bind_eq_ok h
  obtain ⟨y, -, h⟩ := exists_of_bind_eq_ok h
  exact ⟨x, y, h⟩

/-- Methods of built-in classes give plain data. -/
theorem isData_of_callBuiltin {t : ClassTable} {method : BuiltinMethod} {receiver v : Value}
    {name : String} {args : List Value} (h : t.callBuiltin method receiver name args = .ok v) :
    v.IsData := by
  cases method with
  | equals | doesNotEqual =>
    obtain ⟨arg, -, h⟩ := exists_of_bind_eq_ok h
    cases h
    exact .ofBool _
  | getStr =>
    rw [callBuiltin] at h
    split at h
    · cases h
      exact .ofText _
    · cases h
  | and | or | intCompare | floatCompare | textCompare =>
    obtain ⟨x, y, h⟩ := exists_of_binary_eq_ok h
    cases h
    exact .ofBool _
  | intArith op =>
    obtain ⟨x, y, h⟩ := exists_of_binary_eq_ok h
    cases hn : op.ints x y with
    | error f => rw [hn] at h; cases h
    | ok n =>
      rw [hn] at h
      cases h
      exact .ofInt _
  | floatArith op =>
    obtain ⟨x, y, h⟩ := exists_of_binary_eq_ok h
    cases h
    exact .ofFloat _
  | concat =>
    obtain ⟨x, y, h⟩ := exists_of_binary_eq_ok h
    cases h
    exact .ofText _

end ClassTable

end FlannelScript
