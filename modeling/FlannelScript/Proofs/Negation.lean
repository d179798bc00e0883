import FlannelScript.Proofs.Dispatch
import FlannelScript.Proofs.Fuel
import FlannelScript.Proofs.Moments

/-!
# Negation

Negation is no operation of its own. It demands a value of the built-in class of truth values and
calls the method `equals` on it, which is looked for along the class chain, so that one might fear
for it where a program declares a class of that name or a method `equals` of its own. But the class
that is demanded is not looked up by its name, and from it the chain leads to the root with no
declared class on the way. So a negation is a function of the value alone (`Value.negate`), any
number of them evaluates the operand once (`Engine.eval_negated`), and what is left to say is that
values of that class carry truth values, which holds at all moments of a session
(`negation_at_any_depth`).
-/

namespace FlannelScript

open Eval Machine

/-- An expression behind `n` negations. -/
def Expr.negated (e : Expr) : Nat → Expr
  | 0 => e
  | n + 1 => .not (e.negated n)

namespace Value

/-! ## Negating values -/

/-- Negate a value of the class of truth values, and refuse all others. -/
def negate (v : Value) : Eval Value := do
  requireClass (.builtin .bln) v
  pure (.ofBool (v.same (.ofBool false)))

/-- Negate a value `n` times. -/
def negateTimes (v : Value) : Nat → Eval Value
  | 0 => pure v
  | n + 1 => do
    let w ← v.negateTimes n
    w.negate

theorem negate_of_cls_ne {v : Value} (h : v.cls ≠ .builtin .bln) (m : Machine) :
    v.negate m = .error ⟨.typeMismatch "Bln" (m.classes.name v.cls), []⟩ m := by
  refine bind_of_error ?_
  rw [requireClass, if_neg h]
  rfl

theorem negate_ofBool (b : Bool) (m : Machine) : (ofBool b).negate m = .ok (ofBool !b) m := by
  cases b <;> rfl

/-- What is no truth value is refused by the first negation. -/
theorem negateTimes_of_cls_ne {v : Value} (h : v.cls ≠ .builtin .bln) (n : Nat) (m : Machine) :
    v.negateTimes (n + 1) m = .error ⟨.typeMismatch "Bln" (m.classes.name v.cls), []⟩ m := by
  induction n with
  | zero => exact negate_of_cls_ne h m
  | succ n ih => exact bind_of_error ih

/-- **Parity.** Of negations only an odd number makes a difference. -/
theorem negateTimes_ofBool (b : Bool) (n : Nat) (m : Machine) :
    (ofBool b).negateTimes n m = .ok (ofBool (if n % 2 = 1 then !b else b)) m := by
  induction n with
  | zero => rfl
  | succ n ih =>
    refine (bind_of_ok ih).trans ?_
    rw [negate_ofBool]
    rcases Nat.mod_two_eq_zero_or_one n with hn | hn
    · rw [if_neg (by omega), if_pos (by omega)]
    · rw [if_pos hn, if_neg (by omega), Bool.not_not]

/-- A well-formed value of the class of truth values is one. -/
theorem WellFormed.exists_ofBool {m : Machine} {v : Value} (hv : v.WellFormed m)
    (h : v.cls = .builtin .bln) : ∃ b, v = .ofBool b := by
  obtain ⟨cls, payload⟩ := v
  obtain rfl : cls = .builtin .bln := h
  have hcarries := hv.carries
  cases payload with
  | bool b => exact ⟨b, rfl⟩
  | undefined | int | float | text | ref => cases hcarries

end Value

/-! ## Negated expressions -/

namespace Engine

/-- **One negation** is the operand and then a function of its value: the method that it calls is
that of the root, whatever has been declared. -/
theorem evalNot_eq (engine : Engine) (operand : Expr) :
    engine.evalNot operand = engine.eval operand >>= Value.negate := by
  rw [evalNot]
  refine bind_congr fun v => funext fun m => ?_
  rw [Value.negate, bind_apply, bind_apply, requireClass]
  by_cases hcls : v.cls = .builtin .bln
  · rw [if_pos hcls]
    change engine.invokeMethod v "equals" [.ofBool false] m = _
    rw [invokeMethod_apply, hcls]
    rfl
  · rw [if_neg hcls]
    rfl

/-- **Any number of negations** evaluates the operand once. -/
theorem eval_negated (fuel n : Nat) (e : Expr) :
    (withFuel (fuel + n)).eval (e.negated n) = (do
      let v ← (withFuel fuel).eval e
      v.negateTimes n) := by
  induction n with
  | zero => exact (bind_pure _).symm
  | succ n ih =>
    calc (withFuel (fuel + n + 1)).eval (.not (e.negated n))
      _ = (withFuel (fuel + n)).evalNot (e.negated n) := rfl
      _ = (withFuel (fuel + n)).eval (e.negated n) >>= Value.negate := evalNot_eq _ _
      _ = _ := by rw [ih, bind_assoc]; rfl

variable {e : Expr} {n : Nat} {m m' : Machine}

/-- An error of the operand is that of the negations. -/
theorem ends_negated_of_error {err : EvalError}
    (h : Ends (fun engine => engine.eval e) m (.error err m')) :
    Ends (fun engine => engine.eval (e.negated n)) m (.error err m') := by
  obtain ⟨-, fuel, hfuel⟩ := h
  exact ⟨nofun, fuel + n, (congrFun (eval_negated fuel n e) m).trans (bind_of_error hfuel)⟩

/-- Negations end as they do for the value of the operand. -/
theorem ends_negated_of_ok {v : Value} {r : Result Value} (hr : r ≠ .outOfFuel)
    (h : Ends (fun engine => engine.eval e) m (.ok v m')) (hv : v.negateTimes n m' = r) :
    Ends (fun engine => engine.eval (e.negated n)) m r := by
  obtain ⟨-, fuel, hfuel⟩ := h
  exact ⟨hr, fuel + n, (congrFun (eval_negated fuel n e) m).trans ((bind_of_ok hfuel).trans hv)⟩

/-- Negations end only if the operand does. -/
theorem exists_ends_of_ends_negated {r : Result Value}
    (h : Ends (fun engine => engine.eval (e.negated n)) m r) :
    ∃ r', Ends (fun engine => engine.eval e) m r' := by
  obtain ⟨hr, fuel, rfl⟩ := h
  refine ⟨(withFuel fuel).eval e m, fun hout => hr ?_, fuel, rfl⟩
  -- with so much more fuel, as much is left for the operand
  have hmore := (Part.eval (e.negated n)).mono (Nat.le_add_right fuel n) hr
  rw [eval_negated, bind_apply, hout] at hmore
  exact hmore.symm

end Engine

/-- **Negation at any depth.** At any moment of a session, an expression behind one or more
negations is evaluated once and then negated so many times as a value, which evaluates nothing. An
error of the expression is the error of the whole. A value that is not of the built-in class of truth
values is refused, and so are instances of declared classes of that name or below it. A truth value
is negated if the number of negations is odd. In all three cases the machine is left as the
expression left it, and if the expression does not end, neither does the whole. -/
theorem negation_at_any_depth {console : Console} {limit : Option Nat} {s : Moment}
    (h : (Moment.first console limit).Before s) (e : Expr) {n : Nat} (hn : 1 ≤ n) :
    (∀ fuel, (Engine.withFuel (fuel + n)).eval (e.negated n) = (do
      let v ← (Engine.withFuel fuel).eval e
      v.negateTimes n)) ∧
    (∀ err m', Ends (fun engine => engine.eval e) s.machine (.error err m') →
      Ends (fun engine => engine.eval (e.negated n)) s.machine (.error err m')) ∧
    (∀ v m', Ends (fun engine => engine.eval e) s.machine (.ok v m') → v.cls ≠ .builtin .bln →
      Ends (fun engine => engine.eval (e.negated n)) s.machine
        (.error ⟨.typeMismatch "Bln" (m'.classes.name v.cls), []⟩ m')) ∧
    (∀ v m', Ends (fun engine => engine.eval e) s.machine (.ok v m') → v.cls = .builtin .bln →
      ∃ b, v = .ofBool b ∧ Ends (fun engine => engine.eval (e.negated n)) s.machine
        (.ok (.ofBool (if n % 2 = 1 then !b else b)) m')) ∧
    ∀ r, Ends (fun engine => engine.eval (e.negated n)) s.machine r →
      ∃ r', Ends (fun engine => engine.eval e) s.machine r' := by
  obtain ⟨k, rfl⟩ : ∃ k, n = k + 1 := ⟨n - 1, by omega⟩
  refine ⟨fun fuel => Engine.eval_negated fuel _ e, fun err m' => Engine.ends_negated_of_error,
    fun v m' hv hcls => ?_, fun v m' hv hcls => ?_, fun r => Engine.exists_ends_of_ends_negated⟩
  · exact Engine.ends_negated_of_ok nofun hv (Value.negateTimes_of_cls_ne hcls k m')
  · obtain ⟨-, hsound⟩ := h.sound (Moment.sound_first console limit)
    obtain ⟨fuel, hfuel⟩ := hv.exists_fuel
    have hwell := ((Engine.withFuel_sound fuel).eval e s.machine hsound.machine).returned v m' hfuel
    obtain ⟨b, rfl⟩ := hwell.exists_ofBool hcls
    exact ⟨b, rfl, Engine.ends_negated_of_ok nofun hv (Value.negateTimes_ofBool b (k + 1) m')⟩

/-- A class that takes the name of the class of truth values, from which it descends, and has a
method `equals` of its own. -/
def shadowedBln : Stmt :=
  .classDecl
    { name := "Bln"
      parent := some "Bln"
      overrides := []
      properties := []
      methods := [⟨"equals", [⟨"Obj", "other"⟩], "Int", [.ret (.ofInt 1)]⟩] }

/-- After its declaration `true` is a truth value as before, and three negations make `false` of it;
and an instance of the class is refused, by a message that has the same name for both classes. -/
theorem negation_at_any_depth_shadowedBln :
    ∃ s, (Moment.first {} none).Before s ∧
      s.machine.classes.lookup? "Bln" = some (.declared 0) ∧
      Ends (fun engine => engine.eval ((Expr.ofBool true).negated 3)) s.machine
        (.ok (.ofBool false) s.machine) ∧
      ∃ m', Ends (fun engine => engine.eval (.construct "Bln" [])) s.machine
          (.ok ⟨.declared 0, .ref 0⟩ m') ∧
        Ends (fun engine => engine.eval ((Expr.construct "Bln" []).negated 2)) s.machine
          (.error ⟨.typeMismatch "Bln" "Bln", []⟩ m') := by
  obtain ⟨s, hs, hname, hshown, hsize, hinit⟩ : ∃ s, (Moment.first {} none).Before s ∧
      s.machine.classes.lookup? "Bln" = some (.declared 0) ∧
      s.machine.classes.name (.declared 0) = "Bln" ∧ s.machine.heap.cells.size = 0 ∧
      s.machine.classes.findMethod? (.declared 0) Engine.initMethod = none := by
    have hstart : (Moment.first {} none).Before ⟨.fresh {} none, [.topLevel], []⟩ := .single .start
    refine ⟨_, hstart.tail (.answer (.stmt .topLevel shadowedBln) 5 rfl), rfl, rfl, rfl, ?_⟩
    rw [ClassTable.findMethod?, ClassTable.ancestors, ClassTable.declaredChain]
    rfl
  have htrue : Ends (fun engine => engine.eval (.ofBool true)) s.machine
      (.ok (.ofBool true) s.machine) := .ok (n := 1) rfl
  have hinstance : Ends (fun engine => engine.eval (.construct "Bln" [])) s.machine
      (.ok ⟨.declared 0, .ref 0⟩ (s.machine.withInstance (.declared 0))) := by
    refine .ok (n := 1) ?_
    have hlookup : lookupClass "Bln" s.machine = .ok (.declared 0) s.machine := by
      rw [lookupClass, hname]
      rfl
    have hconstruct := (Engine.withFuel 0).constructDeclared_of_no_init [] hinit
    rw [if_pos rfl, hsize] at hconstruct
    exact (bind_of_ok hlookup).trans hconstruct
  refine ⟨s, hs, hname, ?_, _, hinstance, ?_⟩
  · obtain ⟨-, -, -, hparity, -⟩ := negation_at_any_depth hs (.ofBool true) (n := 3) (by decide)
    obtain ⟨b, hb, hends⟩ := hparity _ _ htrue rfl
    cases hb
    exact hends
  · obtain ⟨-, -, hrefused, -⟩ :=
      negation_at_any_depth hs (.construct "Bln" []) (n := 2) (by decide)
    have hends := hrefused _ _ hinstance (by decide)
    rwa [show (s.machine.withInstance (.declared 0)).classes.name (.declared 0) = "Bln" from hshown]
      at hends

end FlannelScript
