import FlannelScript.Proofs.Balance

/-!
# Backtraces

An error takes along the calls that are active when it leaves the body of the innermost call, and
keeps them from then on. The main statement (`backtrace_exact`) is that these are the calls that
were active where the error was raised.

What that means is said by an interpreter under observation (`Watch.stamp`), which puts the active
calls on each error at once, and nothing on any error later on. An error is raised by a part itself
if it occurs although all errors of the engine below are silenced (`Engine.quiet`); the machine that
it leaves is then the one it was raised on. Likewise, an error is raised outside any call if it
occurs although all errors in bodies are silenced (`Watch.outside`).
-/

namespace FlannelScript

open Eval Machine

namespace EvalError

@[simp] theorem withBacktrace_nil (e : EvalError) : e.withBacktrace [] = e := by
  obtain ⟨f, b⟩ := e
  cases b <;> rfl

theorem backtrace_withBacktrace_ne_nil {e : EvalError} {b : Backtrace} (h : b ≠ []) :
    (e.withBacktrace b).backtrace ≠ [] := by
  by_cases he : e.backtrace = []
  · rwa [backtrace_withBacktrace_of_nil he]
  · rwa [withBacktrace_of_ne_nil he]

end EvalError

/-! ## Interpreters under observation -/

/-- Silence the errors of an evaluation. -/
def Eval.quiet {α : Type} (x : Eval α) : Eval α := fun m =>
  match x m with
  | .error _ _ => .outOfFuel
  | r => r

/-- Silence the errors of an engine. -/
def Engine.quiet (engine : Engine) : Engine where
  eval e := Eval.quiet (engine.eval e)
  block mode stmts := Eval.quiet (engine.block mode stmts)
  body stmts := Eval.quiet (engine.body stmts)
  loop mode condition body := Eval.quiet (engine.loop mode condition body)

/-- Put the active calls on the errors that a part raises itself, where it raises them. The errors
of the engine have been dealt with where they were raised. -/
def Eval.stamped {α : Type} (part : Engine → Eval α) (engine : Engine) : Eval α := fun m =>
  match part engine.quiet m with
  | .error e m' => .error ⟨e.fault, m'.calls.capture⟩ m'
  | _ => part engine m

/-- Put the active calls on each error where it is raised, and nothing when a body is left. -/
def Watch.stamp : Watch where
  run := stamped
  leave body := body

/-- Silence the errors in the bodies of calls. -/
def Watch.outside : Watch where
  run part engine := part engine
  leave := quiet

/-! ## Errors that have left a body -/

/-- In a call, every error of the evaluation has a backtrace. -/
def Eval.TracedInCall {α : Type} (x : Eval α) : Prop :=
  ∀ m e m', m.calls.frames ≠ [] → x m = .error e m' → e.backtrace ≠ []

/-- **The innermost call attaches a backtrace.** -/
theorem Eval.Balanced.tracedInCall {α : Type} {x : Eval α} (h : x.Balanced) :
    (Eval.traced x).TracedInCall := by
  intro m e m' hcall he
  obtain ⟨inner, hinner, rfl⟩ := traced_eq_error he
  refine EvalError.backtrace_withBacktrace_ne_nil ?_
  rwa [h.of_error hinner]

/-! ## Where errors are raised -/

/-- How a part ends over a quiet engine, over one that stamps errors and over one that does not: the
engines agree, or an error is raised by the part itself, or one of the engine passes. -/
inductive Stamping {α : Type} : (quiet stamping plain : Result α) → Prop where
  | ok (a : α) (m : Machine) : Stamping (.ok a m) (.ok a m) (.ok a m)
  | outOfFuel : Stamping .outOfFuel .outOfFuel .outOfFuel
  | raised (f : Fault) (m : Machine) :
      Stamping (.error ⟨f, []⟩ m) (.error ⟨f, []⟩ m) (.error ⟨f, []⟩ m)
  | passed (e : EvalError) (m : Machine) :
      Stamping .outOfFuel (.error (e.withBacktrace m.calls.capture) m) (.error e m)

namespace Stamping

variable {α β : Type}

theorem of_traced (x : Eval α) (m : Machine) :
    Stamping (quiet (traced x) m) (traced x m) (x m) := by
  rcases hx : x m with ⟨a, m'⟩ | ⟨e, m'⟩ | _ <;> simp only [quiet, traced, hx]
  · exact ok a m'
  · exact passed e m'
  · exact outOfFuel

theorem bind {x y z : Eval α} {f g k : α → Eval β} {m : Machine}
    (hx : Stamping (x m) (y m) (z m)) (hf : ∀ a m, Stamping (f a m) (g a m) (k a m)) :
    Stamping ((x >>= f) m) ((y >>= g) m) ((z >>= k) m) := by
  rw [bind_apply, bind_apply, bind_apply]
  generalize x m = q, y m = s, z m = t at hx
  cases hx with
  | ok a m' => exact hf a m'
  | outOfFuel => exact outOfFuel
  | raised f m' => exact raised f m'
  | passed e m' => exact passed e m'

theorem map {q s t : Result α} (h : Stamping q s t) (f : α → β) {g : Machine → Machine}
    (hg : ∀ m, (g m).calls = m.calls) : Stamping (q.map f g) (s.map f g) (t.map f g) := by
  cases h with
  | ok a m => exact ok (f a) (g m)
  | outOfFuel => exact outOfFuel
  | raised f m => exact raised f (g m)
  | passed e m =>
    have hpassed : Stamping (.outOfFuel : Result β) _ _ := passed e (g m)
    rwa [hg] at hpassed

/-- An error outside any call gets nothing from stamping. -/
theorem eq_of_frames_eq_nil {q s t : Result α} (h : Stamping q s t)
    (hframes : ∀ e m, t = .error e m → m.calls.frames = []) : s = t := by
  cases h with
  | ok | outOfFuel | raised => rfl
  | passed e m => rw [CallStack.capture, hframes e m rfl, EvalError.withBacktrace_nil]

end Stamping

/-- One engine gives the results of another with backtraces attached; in a call, an error that
leaves a body has one already. -/
abbrev Engine.Stamps (engine engine' : Engine) : Prop :=
  engine.Related (fun x y => x = traced y) (fun x y => x = y ∧ y.TracedInCall) engine'

theorem Primitive.stamping {α : Type} {x : Eval α} (h : Primitive x) (m : Machine) :
    Stamping (x m) (x m) (x m) := by
  rcases h.ok_or_error m with ⟨a, m₁, hx, -⟩ | ⟨f, m₁, hx, -⟩ <;> rw [hx]
  · exact .ok a m₁
  · exact .raised f m₁

/-- A refused call is an error of the caller; any other error of a call passes. -/
theorem Engine.Stamps.invoke {engine engine' : Engine} (h : engine.Stamps engine')
    (callable : Callable) (owner : Option ClassRef) (receiver : Option Value) (args : List Value)
    (frame : String) (m : Machine) :
    Stamping (engine.quiet.invoke callable owner receiver args frame m)
      (engine.invoke callable owner receiver args frame m)
      (engine'.invoke callable owner receiver args frame m) := by
  cases hcall : checkCall callable owner args frame m with
  | error f =>
    simp only [invoke_of_error _ receiver hcall]
    exact .raised f m
  | ok calls =>
    obtain ⟨rfl, -⟩ := CallStack.push_eq_ok (push_of_checkCall hcall)
    simp only [invoke_of_ok _ receiver hcall, quiet, (h.body _).1]
    generalize hinside : enter callable receiver args _ m = inside
    rcases hbody : engine'.body callable.body inside with ⟨exit, inner⟩ | ⟨e, inner⟩ | _ <;>
      simp only [Eval.quiet, hbody, Result.map]
    · exact .ok _ _
    · -- inside the call there is a frame, so the error comes with a backtrace and keeps it
      have hne : e.backtrace ≠ [] := by
        refine (h.body _).2 _ e inner ?_ hbody
        rw [← hinside]
        exact List.cons_ne_nil _ _
      have hpassed : Stamping (.outOfFuel : Result Value) _ _ := .passed e (leave m.scope inner)
      rwa [EvalError.withBacktrace_of_ne_nil hne] at hpassed
    · exact .outOfFuel

/-- **Stamping of the parts.** -/
theorem Part.stamping {α : Type} {part : Engine → Eval α} (h : Part part) {engine engine' : Engine}
    (hstamps : engine.Stamps engine') (m : Machine) :
    Stamping (part engine.quiet m) (part engine m) (part engine' m) := by
  induction h generalizing m with
  | primitive h => exact h.stamping m
  | bind _ _ ihx ihf => exact (ihx m).bind ihf
  | eval e =>
    have htraced := Stamping.of_traced (engine'.eval e) m
    rwa [← hstamps.eval e] at htraced
  | block mode stmts =>
    have htraced := Stamping.of_traced (engine'.block mode stmts) m
    rwa [← hstamps.block mode stmts] at htraced
  | loop mode condition body =>
    have htraced := Stamping.of_traced (engine'.loop mode condition body) m
    rwa [← hstamps.loop mode condition body] at htraced
  | invoke callable owner receiver args frame =>
    exact hstamps.invoke callable owner receiver args frame m
  | program p =>
    have htraced := Stamping.of_traced (engine'.block .topLevel p.statements)
      { m with scope := .topLevel }
    rw [← hstamps.block .topLevel p.statements] at htraced
    exact htraced.map _ fun _ => rfl

/-- What a stamped part gives is what it gives with the backtrace attached in the end. -/
theorem Part.stamped_eq {α : Type} {part : Engine → Eval α} (h : Part part)
    {engine engine' : Engine} (hstamps : engine.Stamps engine') :
    stamped part engine = traced (part engine') := by
  funext m
  have hstamping := h.stamping hstamps m
  rw [stamped, traced]
  generalize part engine.quiet m = q, part engine m = s, part engine' m = t at hstamping
  cases hstamping <;> rfl

/-- **Stamping of the interpreter.** -/
theorem Watch.stamps_engine (fuel : Nat) :
    (Watch.stamp.engine fuel).Stamps (Engine.withFuel fuel) := by
  refine Watch.related_withFuel ?_ ?_ ?_ ?_ fuel
  · intro α
    rfl
  · exact ⟨rfl, by rintro m e m' - ⟨⟩⟩
  · intro n ih α part h
    exact h.stamped_eq ih
  · intro n part hpart h
    exact ⟨h, (hpart.balanced (Engine.withFuel_balanced n)).tracedInCall⟩

/-! ## Errors outside any call -/

namespace Result

variable {α β : Type}

/-- Silence an error that has a backtrace. -/
def untraced : Result α → Result α
  | .error ⟨f, []⟩ m => .error ⟨f, []⟩ m
  | .error _ _ => .outOfFuel
  | r => r

theorem untraced_of_eq_nil {e : EvalError} (h : e.backtrace = []) (m : Machine) :
    (error e m : Result α).untraced = .error e m := by
  obtain ⟨f, b⟩ := e
  cases h
  rfl

theorem untraced_of_ne_nil {e : EvalError} (h : e.backtrace ≠ []) (m : Machine) :
    (error e m : Result α).untraced = .outOfFuel := by
  obtain ⟨f, b⟩ := e
  cases b with
  | nil => exact absurd rfl h
  | cons => rfl

theorem untraced_map (r : Result α) (f : α → β) (g : Machine → Machine) :
    (r.map f g).untraced = r.untraced.map f g := by
  rcases r with ⟨a, m⟩ | ⟨⟨fault, _ | _⟩, m⟩ | _ <;> rfl

end Result

/-- Of the errors of an engine, those that have a backtrace are silenced; in calls, so are all
errors that leave a body. -/
abbrev Engine.Silences (engine engine' : Engine) : Prop :=
  engine.Related (fun x y => ∀ m, x m = (y m).untraced)
    (fun x y => ∀ m, m.calls.frames ≠ [] → x m = (y m).untraced) engine'

theorem Primitive.untraced_eq {α : Type} {x : Eval α} (h : Primitive x) (m : Machine) :
    x m = (x m).untraced := by
  rcases h.ok_or_error m with ⟨a, m₁, hx, -⟩ | ⟨f, m₁, hx, -⟩ <;> rw [hx] <;> rfl

theorem Engine.Silences.invoke {engine engine' : Engine} (h : engine.Silences engine')
    (callable : Callable) (owner : Option ClassRef) (receiver : Option Value) (args : List Value)
    (frame : String) (m : Machine) :
    engine.invoke callable owner receiver args frame m =
      (engine'.invoke callable owner receiver args frame m).untraced := by
  cases hcall : checkCall callable owner args frame m with
  | error f =>
    simp only [invoke_of_error _ receiver hcall]
    rfl
  | ok calls =>
    obtain ⟨rfl, -⟩ := CallStack.push_eq_ok (push_of_checkCall hcall)
    simp only [invoke_of_ok _ receiver hcall]
    rw [Result.untraced_map, h.body]
    exact List.cons_ne_nil _ _

/-- **Silencing of the parts.** -/
theorem Part.silences {α : Type} {part : Engine → Eval α} (h : Part part) {engine engine' : Engine}
    (hsilences : engine.Silences engine') (m : Machine) :
    part engine m = (part engine' m).untraced := by
  induction h generalizing m with
  | primitive h => exact h.untraced_eq m
  | @bind α β x f _ _ ihx ihf =>
    change (x engine >>= fun a => f a engine) m = ((x engine' >>= fun a => f a engine') m).untraced
    rw [bind_apply, bind_apply, ihx m]
    -- an error of the first half ends the sequence, whether it is silenced or not
    rcases x engine' m with ⟨a, m₁⟩ | ⟨⟨fault, _ | _⟩, m₁⟩ | _
    · exact ihf a m₁
    · rfl
    · rfl
    · rfl
  | eval e => exact hsilences.eval e m
  | block mode stmts => exact hsilences.block mode stmts m
  | loop mode condition body => exact hsilences.loop mode condition body m
  | invoke callable owner receiver args frame =>
    exact hsilences.invoke callable owner receiver args frame m
  | program p =>
    change (engine.runProgram p) m = ((engine'.runProgram p) m).untraced
    rw [Engine.runProgram, Engine.runProgram, Result.untraced_map, hsilences.block]

/-- Where each error gets a backtrace, silencing those with a backtrace silences all. -/
theorem Eval.quiet_eq_untraced {α : Type} {x y : Eval α} (h : ∀ m, x m = (y m).untraced)
    (htraced : (traced y).TracedInCall) {m : Machine} (hcall : m.calls.frames ≠ []) :
    quiet x m = (traced y m).untraced := by
  have hm := h m
  rcases hy : y m with ⟨a, m'⟩ | ⟨e, m'⟩ | _ <;> rw [hy] at hm
  · simp only [quiet, traced, hm, hy]
    rfl
  · have herror : traced y m = .error (e.withBacktrace m'.calls.capture) m' := by
      simp only [traced, hy]
    rw [herror, Result.untraced_of_ne_nil (htraced m _ m' hcall herror)]
    obtain ⟨f, _ | _⟩ := e <;> simp only [quiet, hm] <;> rfl
  · simp only [quiet, traced, hm, hy]
    rfl

/-- **Silencing of the interpreter.** -/
theorem Watch.silences_outside (fuel : Nat) :
    (Watch.outside.engine fuel).Silences (Engine.withFuel fuel) := by
  refine Watch.related_withFuel (fun _ => rfl) (fun _ _ => rfl) ?_ ?_ fuel
  · intro n ih α part h
    exact h.silences ih
  · intro n part hpart h m hcall
    exact quiet_eq_untraced h (hpart.balanced (Engine.withFuel_balanced n)).tracedInCall hcall

/-! ## Exactness -/

/-- **Backtraces are exact.** A program that starts outside any call ends as it does when each error
gets the active calls where it is raised. So an error has no backtrace just if it is raised outside
any call, a refused call is an error of the caller alone, and what is attached when a body is left
stays, whatever would be attached further outside. -/
theorem backtrace_exact (fuel : Nat) (p : Program) (m : Machine) (hempty : m.calls.frames = []) :
    p.run fuel m = (Watch.stamp.engine fuel).runProgram p m ∧
    (∀ e m', p.run fuel m = .error e m' →
      (e.backtrace = [] ↔ (Watch.outside.engine fuel).runProgram p m = .error e m')) ∧
    (∀ (engine : Engine) callable owner receiver args frame (m₁ : Machine) f,
      Engine.checkCall callable owner args frame m₁ = .error f →
        engine.invoke callable owner receiver args frame m₁ = .error ⟨f, []⟩ m₁ ∧
        stamped (fun engine => engine.invoke callable owner receiver args frame) engine m₁ =
          .error ⟨f, m₁.calls.capture⟩ m₁) ∧
    ∀ stmts (m₁ : Machine) e m', m₁.calls.frames ≠ [] →
      (Engine.withFuel fuel).body stmts m₁ = .error e m' → ∀ b, e.withBacktrace b = e := by
  refine ⟨?_, ?_, ?_, ?_⟩
  · have hstamping := (Part.program p).stamping (Watch.stamps_engine fuel) m
    refine (hstamping.eq_of_frames_eq_nil fun e m' h => ?_).symm
    rw [((Part.program p).balanced (Engine.withFuel_balanced fuel)).of_error h, hempty]
  · intro e m' h
    have hsilences : (Watch.outside.engine fuel).runProgram p m = (p.run fuel m).untraced :=
      (Part.program p).silences (Watch.silences_outside fuel) m
    rw [hsilences, h]
    constructor
    · intro he
      exact Result.untraced_of_eq_nil he m'
    · intro houtside
      by_cases he : e.backtrace = []
      · exact he
      · rw [Result.untraced_of_ne_nil he] at houtside
        cases houtside
  · intro engine callable owner receiver args frame m₁ f hcall
    refine ⟨engine.invoke_of_error receiver hcall, ?_⟩
    simp only [stamped, Engine.invoke_of_error _ receiver hcall]
  · intro stmts m₁ e m' hcall h b
    have htraced := ((Engine.withFuel_balanced fuel).block .inFunction stmts).tracedInCall
    exact EvalError.withBacktrace_of_ne_nil (htraced m₁ e m' hcall h) b

/-- A call of a function that calls another one, in which a name is not bound. -/
def nestedFailure : Program :=
  ⟨[.functionDecl ⟨"g", [], "Und", [.echo (.name "x")]⟩,
    .functionDecl ⟨"f", [], "Und", [.call "g" []]⟩, .call "f" []]⟩

/-- The error is raised in the call of `g` in the call of `f`, and reported so; a call with too many
arguments is not reported, and a call further outside adds nothing. -/
theorem backtrace_exact_nested_failure :
    (∃ m', nestedFailure.run 20 default = .error ⟨.unboundVariable "x", ["g", "f"]⟩ m' ∧
      (Watch.stamp.engine 20).runProgram nestedFailure default =
        .error ⟨.unboundVariable "x", ["g", "f"]⟩ m' ∧
      (Watch.outside.engine 20).runProgram nestedFailure default ≠
        .error ⟨.unboundVariable "x", ["g", "f"]⟩ m') ∧
    stamped (fun engine => engine.invoke ⟨"h", [], .cls (.builtin .und), []⟩ none none
        [.undefined] "h") (Engine.withFuel 20) { (default : Machine) with calls := ⟨["f"], none⟩ } =
      .error ⟨.arityMismatch "h" 0 1, ["f"]⟩ { (default : Machine) with calls := ⟨["f"], none⟩ } ∧
    (EvalError.mk (.unboundVariable "x") ["g"]).withBacktrace ["f"] =
      ⟨.unboundVariable "x", ["g"]⟩ := by
  obtain ⟨hexact, houtside, hrefused, hattached⟩ := backtrace_exact 20 nestedFailure default rfl
  refine ⟨⟨_, rfl, hexact.symm, fun h => ?_⟩, ?_, ?_⟩
  · have hnil := (houtside _ _ rfl).mpr h
    cases hnil
  · exact (hrefused _ _ _ _ _ _ _ _ rfl).2
  · exact hattached [.echo (.name "x")] { (default : Machine) with calls := ⟨["g"], none⟩ } _ _
      (List.cons_ne_nil _ _) rfl ["f"]

end FlannelScript
