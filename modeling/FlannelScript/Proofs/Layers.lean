import FlannelScript.Proofs.Deeds

/-!
# The interpreter layer by layer

The interpreter with `n + 1` units of fuel is one layer around the interpreter with `n` units: each
of its parts is run over the engine below. A `Watch` is a way to run the parts of a layer that may
look at what goes in and comes out; an interpreter built with it (`Watch.engine`) is the same program
under observation. With the watch that does nothing but what the interpreter does (`Watch.plain`), it
is the interpreter (`Watch.engine_plain`).

How an interpreter under observation is related to the plain one is shown by induction over the
layers (`Watch.related_withFuel`); what is left to show is about one part over two related engines.
-/

namespace FlannelScript

open Eval

namespace Engine

/-- The engine that gives up at once. -/
def exhausted : Engine where
  eval _ _ := .outOfFuel
  block _ _ _ := .outOfFuel
  body _ _ := .outOfFuel
  loop _ _ _ _ := .outOfFuel

/-- Run a loop: one round, and unless that ended it, the loop again. -/
def loopStep (engine : Engine) (mode : Mode) (condition : Expr) (body : List Stmt) : Eval Flow := do
  match ← engine.loopRound mode condition body with
  | none => engine.loop mode condition body
  | some flow => pure flow

end Engine

theorem Deed.loopStep (mode : Mode) (condition : Expr) (body : List Stmt) :
    Deed .binds fun engine => engine.loopStep mode condition body := by
  refine bind (loopRound mode condition body) fun flow => ?_
  cases flow with
  | none => exact loop mode condition body
  | some flow => exact pure flow

theorem Part.loopStep (mode : Mode) (condition : Expr) (body : List Stmt) :
    Part fun engine => engine.loopStep mode condition body :=
  (Deed.loopStep mode condition body).part

/-- A way to run the parts of the interpreter. -/
structure Watch where
  /-- run a part over an engine -/
  run : {α : Type} → (Engine → Eval α) → Engine → Eval α
  /-- what becomes of a body when it is left -/
  leave : Eval BlockExit → Eval BlockExit

namespace Watch

/-- One layer of the interpreter around an engine. -/
def next (w : Watch) (engine : Engine) : Engine where
  eval e := w.run (fun engine => engine.evalExpr e) engine
  block mode stmts := w.run (fun engine => engine.execBlock mode stmts) engine
  body stmts := w.leave (w.run (fun engine => engine.execBlock .inFunction stmts) engine)
  loop mode condition body := w.run (fun engine => engine.loopStep mode condition body) engine

/-- The interpreter with some fuel, under observation. -/
def engine (w : Watch) : Nat → Engine
  | 0 => .exhausted
  | n + 1 => w.next (w.engine n)

/-- No observation: an error takes the active calls along when it leaves a body. -/
def plain : Watch where
  run part engine := part engine
  leave := traced

theorem engine_plain (n : Nat) : plain.engine n = Engine.withFuel n := by
  induction n with
  | zero => rfl
  | succ n ih =>
    rw [engine, ih, Engine.withFuel, next]
    -- only the loop is not the same by definition
    congr 1
    funext mode condition body
    exact (loopWith_succ n mode condition body).symm

end Watch

theorem Engine.withFuel_succ (n : Nat) : withFuel (n + 1) = Watch.plain.next (withFuel n) := by
  rw [← Watch.engine_plain, ← Watch.engine_plain]
  rfl

/-- The evaluations of two engines are related, the bodies of callables by `B` and all else by `R`. -/
structure Engine.Related (R : {α : Type} → Eval α → Eval α → Prop)
    (B : Eval BlockExit → Eval BlockExit → Prop) (engine engine' : Engine) : Prop where
  eval : ∀ e, R (engine.eval e) (engine'.eval e)
  block : ∀ mode stmts, R (engine.block mode stmts) (engine'.block mode stmts)
  body : ∀ stmts, B (engine.body stmts) (engine'.body stmts)
  loop : ∀ mode condition body,
    R (engine.loop mode condition body) (engine'.loop mode condition body)

/-- **Induction over the layers.** An interpreter under observation is related to the plain one if
the parts of each layer are, given that the engines below are, and what is related stays so when a
body is left. -/
theorem Watch.related_withFuel {w : Watch} {R : {α : Type} → Eval α → Eval α → Prop}
    {B : Eval BlockExit → Eval BlockExit → Prop}
    (gaveUp : ∀ {α : Type}, R (fun _ => (.outOfFuel : Result α)) fun _ => .outOfFuel)
    (gaveUpBody : B (fun _ => .outOfFuel) fun _ => .outOfFuel)
    (run : ∀ n, (w.engine n).Related R B (Engine.withFuel n) →
      ∀ {α : Type} {part : Engine → Eval α}, Part part →
        R (w.run part (w.engine n)) (part (Engine.withFuel n)))
    (leave : ∀ n {part : Engine → Eval BlockExit}, Part part →
      R (w.run part (w.engine n)) (part (Engine.withFuel n)) →
        B (w.leave (w.run part (w.engine n))) (traced (part (Engine.withFuel n))))
    (n : Nat) : (w.engine n).Related R B (Engine.withFuel n) := by
  induction n with
  | zero => exact ⟨fun _ => gaveUp, fun _ _ => gaveUp, fun _ => gaveUpBody, fun _ _ _ => gaveUp⟩
  | succ n ih =>
    rw [Engine.withFuel_succ]
    refine ⟨fun e => ?_, fun mode stmts => ?_, fun stmts => ?_, fun mode condition body => ?_⟩
    · exact run n ih (.evalExpr e)
    · exact run n ih (.execBlock mode stmts)
    · exact leave n (.execBlock .inFunction stmts) (run n ih (.execBlock .inFunction stmts))
    · exact run n ih (.loopStep mode condition body)

end FlannelScript
