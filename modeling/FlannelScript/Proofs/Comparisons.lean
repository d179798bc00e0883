import FlannelScript.Proofs.Course

/-!
# Comparisons

Two families of methods compare values. Whether values are the same is answered by the root, which
looks at classes and payloads; which of two integers or texts is the lesser one is answered by their
own classes, each of which has a function for the order of its data. For integers and for texts the
two families are about one linear order (`Engine.Compares`): that of the numbers, and that of the
characters from left to right.

An order in the sense of the library (`Std.TransCmp`, `Std.LawfulEqCmp`) is all that this takes, so
the laws are derived once, for whatever data has such an order (`Engine.Follows.compares`).
-/

namespace FlannelScript

/-! ## The order of integers -/

instance : Std.TransCmp compareIntegers where
  eq_swap := Std.OrientedOrd.eq_swap (α := Int)
  isLE_trans := Std.TransOrd.isLE_trans (α := Int)

instance : Std.LawfulEqCmp compareIntegers where
  compare_self := Std.ReflOrd.compare_self (α := Int)
  eq_of_compare h := Int64.toInt_inj.mp (Std.LawfulEqOrd.eq_of_compare h)

theorem compareIntegers_eq_lt_iff {a b : Int64} : compareIntegers a b = .lt ↔ a.toInt < b.toInt :=
  Int.compare_eq_lt

/-! ## The order of texts -/

section texts

variable {a b : String}

theorem compareTexts_eq_lt_iff : compareTexts a b = .lt ↔ a < b := by
  rw [compareTexts]
  split
  · rename_i hlt
    simp only [hlt]
  · rename_i hlt
    split <;> simp only [hlt, reduceCtorEq]

theorem compareTexts_eq_gt_iff : compareTexts a b = .gt ↔ b < a := by
  rw [compareTexts]
  split
  · rename_i hlt
    exact iff_of_false nofun (String.lt_asymm hlt)
  · split
    · rename_i hgt
      simp only [hgt]
    · rename_i hgt
      simp only [hgt, reduceCtorEq]

theorem compareTexts_isLE_iff : (compareTexts a b).isLE = true ↔ a ≤ b := by
  rw [← String.not_lt, ← compareTexts_eq_gt_iff]
  cases compareTexts a b <;> decide

/-- Texts of which neither is less are the same text. -/
theorem compareTexts_eq_eq_iff : compareTexts a b = .eq ↔ a = b := by
  have hle := compareTexts_isLE_iff (a := a) (b := b)
  constructor
  · intro heq
    refine String.le_antisymm (hle.mp (by rw [heq]; rfl)) (String.not_lt.mp fun hlt => ?_)
    rw [← compareTexts_eq_lt_iff, heq] at hlt
    cases hlt
  · rintro rfl
    rw [compareTexts, if_neg (String.lt_irrefl a), if_neg (String.lt_irrefl a)]

/-- **A common beginning does not matter.** The induction is on the beginning: it is compared
character by character, and each one is equal to itself. -/
theorem append_lt_append_iff (c : String) : c ++ a < c ++ b ↔ a < b := by
  change (c ++ a).toList < (c ++ b).toList ↔ a.toList < b.toList
  rw [String.toList_append, String.toList_append]
  induction c.toList with
  | nil => rfl
  | cons x xs ih => rw [List.cons_append, List.cons_append, List.cons_lt_cons_self, ih]

end texts

instance : Std.TransCmp compareTexts where
  eq_swap {a b} := by
    cases h : compareTexts b a with
    | lt => exact compareTexts_eq_gt_iff.mpr (compareTexts_eq_lt_iff.mp h)
    | eq => exact compareTexts_eq_eq_iff.mpr (compareTexts_eq_eq_iff.mp h).symm
    | gt => exact compareTexts_eq_lt_iff.mpr (compareTexts_eq_gt_iff.mp h)
  isLE_trans hab hbc := compareTexts_isLE_iff.mpr
    (String.le_trans (compareTexts_isLE_iff.mp hab) (compareTexts_isLE_iff.mp hbc))

instance : Std.LawfulEqCmp compareTexts where
  compare_self := compareTexts_eq_eq_iff.mpr rfl
  eq_of_compare := compareTexts_eq_eq_iff.mp

/-! ## Methods of comparison -/

/-- The name of the method that makes a comparison. -/
def Comparison.method : Comparison → String
  | greater => "isGreater"
  | less => "isLess"
  | greaterOrEqual => "isGreaterOrEqual"
  | lessOrEqual => "isLessOrEqual"

namespace Engine

/-- On a machine, a method of a value gives a result for an argument, and changes nothing. -/
def Gives (engine : Engine) (m : Machine) (receiver : Value) (method : String)
    (arg result : Value) : Prop :=
  engine.invokeMethod receiver method [arg] m = .ok result m

/-- The methods of comparison agree about some data. They answer with truth values and change
nothing, and what they say is a linear order, the order `lt`. -/
structure Compares (engine : Engine) (m : Machine) {α : Type} (value : α → Value)
    (lt : α → α → Prop) : Prop where
  isLess_iff : ∀ a b, engine.Gives m (value a) "isLess" (value b) (.ofBool true) ↔ lt a b
  equals_iff : ∀ a b, engine.Gives m (value a) "equals" (value b) (.ofBool true) ↔ a = b
  /-- one of three holds, and the other methods are put together from these -/
  answers : ∀ a b, ∃ less same greater : Bool,
    engine.Gives m (value a) "isLess" (value b) (.ofBool less) ∧
    engine.Gives m (value a) "equals" (value b) (.ofBool same) ∧
    engine.Gives m (value a) "isGreater" (value b) (.ofBool greater) ∧
    [less, same, greater].count true = 1 ∧
    engine.Gives m (value a) "isLessOrEqual" (value b) (.ofBool (less || same)) ∧
    engine.Gives m (value a) "isGreaterOrEqual" (value b) (.ofBool (greater || same)) ∧
    engine.Gives m (value a) "doesNotEqual" (value b) (.ofBool !same)
  swap : ∀ a b, engine.Gives m (value a) "isLess" (value b) (.ofBool true) ↔
    engine.Gives m (value b) "isGreater" (value a) (.ofBool true)
  trans : ∀ a b c, engine.Gives m (value a) "isLess" (value b) (.ofBool true) →
    engine.Gives m (value b) "isLess" (value c) (.ofBool true) →
    engine.Gives m (value a) "isLess" (value c) (.ofBool true)

/-- The methods of comparison say what a function for the order of the data says. -/
structure Follows (engine : Engine) (m : Machine) {α : Type} (value : α → Value)
    (cmp : α → α → Ordering) : Prop where
  compare : ∀ (c : Comparison) a b,
    engine.Gives m (value a) c.method (value b) (.ofBool (c.holds (cmp a b)))
  equals : ∀ a b, engine.Gives m (value a) "equals" (value b) (.ofBool (cmp a b == .eq))
  doesNotEqual : ∀ a b,
    engine.Gives m (value a) "doesNotEqual" (value b) (.ofBool !(cmp a b == .eq))

variable {engine : Engine} {m : Machine}

/-- A method gives one answer. -/
theorem Gives.ofBool_iff {v w : Value} {method : String} {x : Bool}
    (h : engine.Gives m v method w (.ofBool x)) :
    engine.Gives m v method w (.ofBool true) ↔ x = true := by
  rw [Gives, show engine.invokeMethod v method [w] m = .ok (.ofBool x) m from h]
  simp [Value.ofBool]

namespace Follows

variable {α : Type} {value : α → Value} {cmp : α → α → Ordering}

theorem isLess_iff (h : engine.Follows m value cmp) (a b : α) :
    engine.Gives m (value a) "isLess" (value b) (.ofBool true) ↔ cmp a b = .lt :=
  (h.compare .less a b).ofBool_iff.trans beq_iff_eq

theorem isGreater_iff (h : engine.Follows m value cmp) (a b : α) :
    engine.Gives m (value a) "isGreater" (value b) (.ofBool true) ↔ cmp a b = .gt :=
  (h.compare .greater a b).ofBool_iff.trans beq_iff_eq

/-- **Order and equality agree** wherever the methods follow a linear order. -/
theorem compares [Std.TransCmp cmp] [Std.LawfulEqCmp cmp] (h : engine.Follows m value cmp)
    {lt : α → α → Prop} (hlt : ∀ a b, cmp a b = .lt ↔ lt a b) : engine.Compares m value lt where
  isLess_iff a b := (h.isLess_iff a b).trans (hlt a b)
  equals_iff a b :=
    ((h.equals a b).ofBool_iff.trans beq_iff_eq).trans Std.LawfulEqCmp.compare_eq_iff_eq
  answers a b := by
    refine ⟨_, _, _, h.compare .less a b, h.equals a b, h.compare .greater a b, ?_, ?_, ?_,
      h.doesNotEqual a b⟩
    · cases cmp a b <;> rfl
    · have hle := h.compare .lessOrEqual a b
      cases hcmp : cmp a b <;> rw [hcmp] at hle <;> exact hle
    · have hge := h.compare .greaterOrEqual a b
      cases hcmp : cmp a b <;> rw [hcmp] at hge <;> exact hge
  swap a b := by
    rw [h.isLess_iff, h.isGreater_iff]
    exact Std.OrientedCmp.gt_iff_lt.symm
  trans a b c := by
    rw [h.isLess_iff, h.isLess_iff, h.isLess_iff]
    exact Std.TransCmp.lt_trans

end Follows

end Engine

/-! ## Integers and texts -/

namespace Value

theorem same_ofInt (a b : Int64) : (ofInt a).same (ofInt b) = (compareIntegers a b == .eq) := by
  rw [Bool.eq_iff_iff, beq_iff_eq, Std.LawfulEqCmp.compare_eq_iff_eq]
  simp [same, ofInt, Payload.same]

theorem same_ofText (a b : String) : (ofText a).same (ofText b) = (compareTexts a b == .eq) := by
  rw [Bool.eq_iff_iff, beq_iff_eq, Std.LawfulEqCmp.compare_eq_iff_eq]
  simp [same, ofText, Payload.same]

end Value

namespace Engine

variable (engine : Engine) (m : Machine)

-- Whatever has been declared, the methods of integers and texts are those of their built-in classes
-- and of the root, so that calls of them can be computed on any machine.

theorem follows_compareIntegers : engine.Follows m Value.ofInt compareIntegers where
  compare c a b := by cases c <;> rw [Gives, invokeMethod_apply] <;> rfl
  equals a b := by
    rw [Gives, invokeMethod_apply, ← Value.same_ofInt]
    rfl
  doesNotEqual a b := by
    rw [Gives, invokeMethod_apply, ← Value.same_ofInt]
    rfl

theorem follows_compareTexts : engine.Follows m Value.ofText compareTexts where
  compare c a b := by cases c <;> rw [Gives, invokeMethod_apply] <;> rfl
  equals a b := by
    rw [Gives, invokeMethod_apply, ← Value.same_ofText]
    rfl
  doesNotEqual a b := by
    rw [Gives, invokeMethod_apply, ← Value.same_ofText]
    rfl

theorem gives_add_ofText (a b : String) :
    engine.Gives m (.ofText a) "add" (.ofText b) (.ofText (a ++ b)) := by
  rw [Gives, invokeMethod_apply]
  rfl

end Engine

/-- **Ordering and equality agree.** The methods of comparison of integers and of texts are about
one linear order each: of three methods, `isLess`, `equals` and `isGreater`, just one says yes, the
others follow from these, and `isLess` is transitive and the converse of `isGreater`. The `add` of
texts is associative, the empty text is neutral for it, and to add both texts to the end of a third
one does not change which of them is less. -/
theorem ordering_agrees_with_equality (engine : Engine) (m : Machine) :
    engine.Compares m Value.ofInt (fun a b => a.toInt < b.toInt) ∧
    engine.Compares m Value.ofText (fun a b => a < b) ∧
    (∀ a b c, ∃ ab bc abc,
      engine.Gives m (.ofText a) "add" (.ofText b) (.ofText ab) ∧
      engine.Gives m (.ofText b) "add" (.ofText c) (.ofText bc) ∧
      engine.Gives m (.ofText ab) "add" (.ofText c) (.ofText abc) ∧
      engine.Gives m (.ofText a) "add" (.ofText bc) (.ofText abc)) ∧
    (∀ a, engine.Gives m (.ofText a) "add" (.ofText "") (.ofText a) ∧
      engine.Gives m (.ofText "") "add" (.ofText a) (.ofText a)) ∧
    ∀ a b c, ∃ ca cb,
      engine.Gives m (.ofText c) "add" (.ofText a) (.ofText ca) ∧
      engine.Gives m (.ofText c) "add" (.ofText b) (.ofText cb) ∧
      (engine.Gives m (.ofText a) "isLess" (.ofText b) (.ofBool true) ↔
        engine.Gives m (.ofText ca) "isLess" (.ofText cb) (.ofBool true)) := by
  have hadd := engine.gives_add_ofText m
  have htexts := (engine.follows_compareTexts m).compares fun _ _ => compareTexts_eq_lt_iff
  refine ⟨(engine.follows_compareIntegers m).compares fun _ _ => compareIntegers_eq_lt_iff, htexts,
    fun a b c => ?_, fun a => ⟨?_, ?_⟩, fun a b c => ?_⟩
  · refine ⟨_, _, _, hadd a b, hadd b c, hadd (a ++ b) c, ?_⟩
    rw [String.append_assoc]
    exact hadd a (b ++ c)
  · have hright := hadd a ""
    rwa [String.append_empty] at hright
  · have hleft := hadd "" a
    rwa [String.empty_append] at hleft
  · refine ⟨_, _, hadd c a, hadd c b, ?_⟩
    rw [htexts.isLess_iff, htexts.isLess_iff, append_lt_append_iff]

end FlannelScript
