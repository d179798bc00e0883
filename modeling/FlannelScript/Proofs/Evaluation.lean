import FlannelScript.Machine

/-!
# Sequences of evaluations

How a sequence of two evaluations can end (`Eval.bind_eq_ok`, `Eval.bind_eq_error`), and what may be
put in the place of its second half when something is known about all that the first one returns
(`Eval.Returns`). Of the single steps, only an assignment has more than one way to succeed
(`Machine.assign_cases`).
-/

namespace FlannelScript

/-- Inversion of a sequence of computations that need no machine. -/
theorem exists_of_bind_eq_ok {ε α β : Type} {x : Except ε α} {f : α → Except ε β} {b : β}
    (h : (x >>= f) = .ok b) : ∃ a, x = .ok a ∧ f a = .ok b := by
  cases x with
  | error e => cases h
  | ok a => exact ⟨a, rfl, h⟩

namespace Eval

variable {α β : Type}

/-- A sequence whose first half succeeds is its second half. -/
theorem bind_of_ok {x : Eval α} {f : α → Eval β} {m m₁ : Machine} {a : α}
    (h : x m = .ok a m₁) : (x >>= f) m = f a m₁ := by
  rw [bind_apply, h]

/-- A sequence whose first half fails has failed. -/
theorem bind_of_error {x : Eval α} {f : α → Eval β} {m m₁ : Machine} {e : EvalError}
    (h : x m = .error e m₁) : (x >>= f) m = .error e m₁ := by
  rw [bind_apply, h]

/-- Inversion of a sequence that succeeds. -/
theorem bind_eq_ok {x : Eval α} {f : α → Eval β} {m m' : Machine} {b : β}
    (h : (x >>= f) m = .ok b m') : ∃ a m₁, x m = .ok a m₁ ∧ f a m₁ = .ok b m' := by
  rw [bind_apply] at h
  rcases hx : x m with ⟨a, m₁⟩ | ⟨e, m₁⟩ | _ <;> rw [hx] at h
  · exact ⟨a, m₁, rfl, h⟩
  · cases h
  · cases h

/-- Inversion of a sequence that fails. -/
theorem bind_eq_error {x : Eval α} {f : α → Eval β} {m m' : Machine} {e : EvalError}
    (h : (x >>= f) m = .error e m') :
    x m = .error e m' ∨ ∃ a m₁, x m = .ok a m₁ ∧ f a m₁ = .error e m' := by
  rw [bind_apply] at h
  rcases hx : x m with ⟨a, m₁⟩ | ⟨e', m₁⟩ | _ <;> rw [hx] at h
  · exact .inr ⟨a, m₁, rfl, h⟩
  · cases h
    exact .inl rfl
  · cases h

/-- An error with a backtrace is an error that may have had none. -/
theorem traced_eq_error {x : Eval α} {m m' : Machine} {e : EvalError}
    (h : traced x m = .error e m') :
    ∃ inner : EvalError, x m = .error inner m' ∧ e = inner.withBacktrace m'.calls.capture := by
  rcases hx : x m with ⟨a, m₁⟩ | ⟨inner, m₁⟩ | _ <;> simp only [traced, hx] at h <;> cases h
  exact ⟨inner, rfl, rfl⟩

/-- Whatever the evaluation returns is good. -/
def Returns (x : Eval α) (good : α → Prop) : Prop := ∀ m a m', x m = .ok a m' → good a

theorem Returns.trivial {x : Eval α} : Returns x fun _ => True := fun _ _ _ _ => True.intro

theorem Returns.pure {good : α → Prop} {a : α} (h : good a) : Returns (pure a) good := by
  intro m b m' hb
  cases hb
  exact h

/-- A sequence returns what its second half returns. -/
theorem Returns.bind {x : Eval α} {f : α → Eval β} {good : β → Prop}
    (h : ∀ a, Returns (f a) good) : Returns (x >>= f) good := by
  intro m b m' hb
  obtain ⟨a, m₁, -, hf⟩ := bind_eq_ok hb
  exact h a m₁ b m' hf

/-- What is known of the first half may be used for the second one. -/
theorem Returns.bind_of {x : Eval α} {f : α → Eval β} {good : α → Prop} {good' : β → Prop}
    (hx : Returns x good) (hf : ∀ a, good a → Returns (f a) good') : Returns (x >>= f) good' := by
  intro m b m' hb
  obtain ⟨a, m₁, ha, hf'⟩ := bind_eq_ok hb
  exact hf a (hx m a m₁ ha) m₁ b m' hf'

/-- **Replacement.** Continuations that agree on all that is returned are interchangeable. -/
theorem Returns.bind_congr {x : Eval α} {f g : α → Eval β} {good : α → Prop}
    (hx : Returns x good) (h : ∀ a, good a → f a = g a) : x >>= f = x >>= g := by
  funext m
  rw [bind_apply, bind_apply]
  rcases hm : x m with ⟨a, m'⟩ | ⟨e, m'⟩ | _
  · exact congrFun (h a (hx m a m' hm)) m'
  · rfl
  · rfl

end Eval

/-- **Assignments.** What is assigned to is a local, or a property of the receiver, or the assignment
fails. -/
theorem Machine.assign_cases (name : String) (v : Value) (m : Machine) :
    assign name v m = .ok () { m with scope := m.scope.declare name v } ∨
    (∃ loc heap, m.scope.receiverLoc? = some loc ∧ m.heap.set? loc name v = some heap ∧
      assign name v m = .ok () { m with heap }) ∨
    assign name v m = .error ⟨.unboundVariable name, []⟩ m := by
  rw [assign, Scope.update?]
  by_cases hlocal : m.scope.locals.contains name
  · rw [if_pos hlocal]
    exact .inl rfl
  · rw [if_neg hlocal]
    cases hset : m.scope.receiverLoc?.bind fun loc => m.heap.set? loc name v with
    | none => exact .inr (.inr rfl)
    | some heap =>
      obtain ⟨loc, hloc, hset⟩ := Option.bind_eq_some_iff.mp hset
      exact .inr (.inl ⟨loc, heap, hloc, hset, rfl⟩)

end FlannelScript
