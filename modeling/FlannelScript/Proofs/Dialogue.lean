import FlannelScript.Proofs.Conduct
import FlannelScript.Proofs.Cutoff

/-!
# Conversing with the console

All that the interpreter does with a console are exchanges: it prints a line, or it prints a prompt
and reads one line in answer (`Console.Exchange`). So what it prints ends in a newline, it reads
from the front of the input, and it has printed a line for each line that it has read.

What has been printed before is never looked at, and of the input only the next line is. To compare
two runs whose consoles differ in these respects, a change of consoles is followed along a run
(`Console.Shift`). Both runs are the same, up to the change itself, unless the first one reads
beyond the end of its input. From then on all that is known of the second one is that it only prints
more (`Result.InStep`).
-/

namespace FlannelScript

open Eval Machine

/-! ## Exchanges -/

/-- What is done with a console at a time. -/
inductive Console.Exchange where
  /-- print a line -/
  | say (line : String)
  /-- print a line and read one -/
  | ask (prompt : String)

namespace Console

/-- The line that is printed in an exchange. -/
def Exchange.line : Exchange → String
  | say line => line
  | ask prompt => prompt

/-- The console after an exchange. -/
def exchange (c : Console) : Exchange → Console
  | .say line => c.printLine line
  | .ask prompt => (c.printLine prompt).readLine.2

/-- The console after some exchanges, one after the other. -/
def after (c : Console) (exchanges : List Exchange) : Console := exchanges.foldl exchange c

/-- What is printed in some exchanges. -/
def printed : List Exchange → String
  | [] => ""
  | x :: rest => x.line ++ "\n" ++ printed rest

theorem output_readLine (c : Console) : c.readLine.2.output = c.output := by
  obtain ⟨output, _ | ⟨line, rest⟩⟩ := c <;> rfl

theorem output_exchange (c : Console) (x : Exchange) :
    (c.exchange x).output = c.output ++ (x.line ++ "\n") := by
  rw [← String.append_assoc]
  cases x with
  | say line => rfl
  | ask prompt => exact output_readLine _

/-- **What is printed.** -/
theorem output_after (c : Console) (exchanges : List Exchange) :
    (c.after exchanges).output = c.output ++ printed exchanges := by
  induction exchanges generalizing c with
  | nil => exact (String.append_empty).symm
  | cons x rest ih =>
    change ((c.exchange x).after rest).output = c.output ++ (x.line ++ "\n" ++ printed rest)
    rw [ih, output_exchange, String.append_assoc]

theorem printed_eq_empty_or (exchanges : List Exchange) :
    printed exchanges = "" ∨ ∃ text, printed exchanges = text ++ "\n" := by
  induction exchanges with
  | nil => exact .inl rfl
  | cons x rest ih =>
    refine .inr ?_
    rcases ih with hrest | ⟨text, hrest⟩
    · exact ⟨x.line, by rw [printed, hrest, String.append_empty]⟩
    · exact ⟨x.line ++ "\n" ++ text, by rw [printed, hrest, ← String.append_assoc]⟩

/-- An exchange reads at most one line. -/
theorem input_exchange (c : Console) (x : Exchange) :
    ∃ consumed, c.input = consumed ++ (c.exchange x).input ∧ consumed.length ≤ 1 := by
  cases x with
  | say line => exact ⟨[], rfl, Nat.zero_le 1⟩
  | ask prompt =>
    obtain ⟨output, _ | ⟨line, rest⟩⟩ := c
    · exact ⟨[], rfl, Nat.zero_le 1⟩
    · exact ⟨[line], rfl, Nat.le_refl 1⟩

/-- **What is read.** -/
theorem input_after (c : Console) (exchanges : List Exchange) :
    ∃ consumed, c.input = consumed ++ (c.after exchanges).input ∧
      consumed.length ≤ exchanges.length := by
  induction exchanges generalizing c with
  | nil => exact ⟨[], rfl, Nat.le_refl 0⟩
  | cons x rest ih =>
    obtain ⟨first, hfirst, hone⟩ := c.input_exchange x
    obtain ⟨others, hothers, hlength⟩ := ih (c.exchange x)
    refine ⟨first ++ others, ?_, ?_⟩
    · rw [hfirst, hothers, List.append_assoc]
      rfl
    · rw [List.length_append, List.length_cons]
      omega

end Console

/-- The console has been through some exchanges. -/
def Conduct.dialogue : Conduct where
  across _ m m' := ∃ exchanges, m'.console = m.console.after exchanges
  refl _ _ := ⟨[], rfl⟩
  trans := by
    rintro _ m m' m'' ⟨first, hfirst⟩ ⟨others, hothers⟩
    refine ⟨first ++ others, ?_⟩
    rw [hothers, hfirst, Console.after, Console.after, Console.after, List.foldl_append]
  weaken h := h
  newInstance _ _ := ⟨[], rfl⟩
  printLine _ line := ⟨[.say line], rfl⟩
  question _ prompt := ⟨[.ask prompt], rfl⟩
  addClass _ _ := ⟨[], rfl⟩
  addFunction _ _ _ := ⟨[], rfl⟩
  declareLocal _ _ _ := ⟨[], rfl⟩
  setProperty _ := ⟨[], rfl⟩
  elsewhere _ h := h

/-! ## Two runs -/

/-- The machine with its console changed. -/
def Machine.onConsole (f : Console → Console) (m : Machine) : Machine :=
  { m with console := f m.console }

section onConsole

variable (f : Console → Console) (m : Machine)

@[simp] theorem Machine.classes_onConsole : (m.onConsole f).classes = m.classes := rfl

@[simp] theorem Machine.functions_onConsole : (m.onConsole f).functions = m.functions := rfl

@[simp] theorem Machine.heap_onConsole : (m.onConsole f).heap = m.heap := rfl

@[simp] theorem Machine.console_onConsole : (m.onConsole f).console = f m.console := rfl

@[simp] theorem Machine.scope_onConsole : (m.onConsole f).scope = m.scope := rfl

end onConsole

/-- Printing and reading go along with the change of a console. If a run may starve, this need not
be so where the input has come to its end. -/
structure Console.Shift (f : Console → Console) (mayStarve : Prop) : Prop where
  printLine : ∀ c line, (f c).printLine line = f (c.printLine line)
  readLine : ∀ c, (f c).readLine = (c.readLine.1, f c.readLine.2) ∨
    mayStarve ∧ c.readLine.1 = none ∧ (f c).output = c.output

/-- How two runs end whose consoles differ by a shift: in the same way, or the first one has no
input left and the second one has gone on from there. -/
inductive Result.InStep (f : Console → Console) (mayStarve : Prop) {α : Type} :
    Result α → Result α → Prop where
  | ok (a : α) (m : Machine) : InStep f mayStarve (.ok a m) (.ok a (m.onConsole f))
  | error (e : EvalError) (m : Machine) : InStep f mayStarve (.error e m) (.error e (m.onConsole f))
  | outOfFuel : InStep f mayStarve .outOfFuel .outOfFuel
  | starved {b : Backtrace} {m : Machine} {r : Result α} (h : mayStarve)
      (houtput : ∀ m', r.machine? = some m' →
        ∃ text, m'.console.output = m.console.output ++ text) :
      InStep f mayStarve (.error ⟨.inputUnavailable, b⟩ m) r

/-- Whatever the console, the evaluation does the same and leaves it alone. -/
def Eval.ConsoleBlind {α : Type} (x : Eval α) : Prop :=
  ∀ f m, x (m.onConsole f) = (x m).map id (Machine.onConsole f)

/-- The evaluation is in step with itself when the console is changed. -/
def Eval.InStep (f : Console → Console) (mayStarve : Prop) {α : Type} (x : Eval α) : Prop :=
  ∀ m, Result.InStep f mayStarve (x m) (x (m.onConsole f))

namespace Eval

variable {f : Console → Console} {mayStarve : Prop} {α β : Type} {x : Eval α}

theorem ConsoleBlind.inStep (h : x.ConsoleBlind) : x.InStep f mayStarve := by
  intro m
  rw [h f m]
  rcases x m with ⟨a, m₁⟩ | ⟨e, m₁⟩ | _
  · exact .ok a m₁
  · exact .error e m₁
  · exact .outOfFuel

theorem ConsoleBlind.orRaise {y : Machine → Option α} {fault : Machine → Fault}
    (hy : ∀ f m, y (m.onConsole f) = y m) (hfault : ∀ f m, fault (m.onConsole f) = fault m) :
    ConsoleBlind fun m => Eval.orRaise (y m) (fault m) m := by
  intro f m
  dsimp only
  rw [hy, hfault]
  cases y m <;> rfl

theorem ConsoleBlind.ofExcept (y : Except Fault α) : (Eval.ofExcept y).ConsoleBlind := by
  intro f m
  cases y <;> rfl

theorem InStep.bind {g : α → Eval β} {good : α → Prop} (hx : x.InStep f mayStarve)
    (hgood : Returns x good) (hg : ∀ a, good a → (g a).InStep f mayStarve)
    (hgrows : ∀ a, good a → (g a).ConsoleGrows) : (x >>= g).InStep f mayStarve := by
  intro m
  rw [bind_apply, bind_apply]
  have hm := hx m
  have hfirst := hgood m
  have hsecond := hgood (m.onConsole f)
  generalize x m = s, x (m.onConsole f) = t at hm hfirst hsecond
  cases hm with
  | ok a m₁ => exact hg a (hfirst a _ rfl) m₁
  | error e m₁ => exact .error e m₁
  | outOfFuel => exact .outOfFuel
  | starved h houtput =>
    refine .starved h fun m' hm' => ?_
    rcases t with ⟨a, m₁⟩ | ⟨e, m₁⟩ | _
    · -- the second run has gone on, and only prints more
      obtain ⟨text, htext⟩ := houtput m₁ rfl
      obtain ⟨more, -, hmore, -⟩ := hgrows a (hsecond a m₁ rfl) m₁ m' hm'
      exact ⟨text ++ more, by rw [hmore, htext, String.append_assoc]⟩
    · exact houtput m' hm'
    · cases hm'

theorem InStep.traced (h : x.InStep f mayStarve) : (traced x).InStep f mayStarve := by
  intro m
  have hm := h m
  have hmachine := machine?_traced x (m.onConsole f)
  rw [Eval.traced, Eval.traced] at *
  generalize x m = s, x (m.onConsole f) = t at hm hmachine
  cases hm with
  | ok a m₁ => exact .ok a m₁
  | error e m₁ => exact .error (e.withBacktrace m₁.calls.capture) m₁
  | outOfFuel => exact .outOfFuel
  | @starved b m₁ _ h houtput =>
    have hmore : ∀ m', Result.machine? _ = some m' →
        ∃ text, m'.console.output = m₁.console.output ++ text :=
      fun m' hm' => houtput m' (hmachine ▸ hm')
    obtain _ | _ := b
    · exact .starved h hmore
    · exact .starved h hmore

end Eval

theorem Result.InStep.map {f : Console → Console} {mayStarve : Prop} {α β : Type} {s t : Result α}
    (h : InStep f mayStarve s t) (k : α → β) {g : Machine → Machine}
    (hshift : ∀ m, g (m.onConsole f) = (g m).onConsole f)
    (hconsole : ∀ m, (g m).console = m.console) : InStep f mayStarve (s.map k g) (t.map k g) := by
  cases h with
  | ok a m =>
    rw [Result.map, Result.map, hshift]
    exact .ok (k a) (g m)
  | error e m =>
    rw [Result.map, Result.map, hshift]
    exact .error e (g m)
  | outOfFuel => exact .outOfFuel
  | starved h houtput =>
    refine .starved h fun m' hm' => ?_
    rw [Result.machine?_map, Option.map_eq_some_iff] at hm'
    obtain ⟨inner, hinner, rfl⟩ := hm'
    rw [hconsole, hconsole]
    exact houtput inner hinner

/-- Whatever the engine does, it is in step with itself. -/
abbrev Engine.InStep (f : Console → Console) (mayStarve : Prop) (engine : Engine) : Prop :=
  engine.Related (fun x _ => x.InStep f mayStarve) (fun x _ => x.InStep f mayStarve) engine

namespace Engine.InStep

variable {f : Console → Console} {mayStarve : Prop} {engine : Engine}

theorem invoke (h : engine.InStep f mayStarve) (callable : Callable) (owner : Option ClassRef)
    (receiver : Option Value) (args : List Value) (frame : String) :
    (engine.invoke callable owner receiver args frame).InStep f mayStarve := by
  intro m
  -- whether a call is accepted does not depend on the console
  have hsame : checkCall callable owner args frame (m.onConsole f) =
      checkCall callable owner args frame m := rfl
  cases hcall : checkCall callable owner args frame m with
  | error fault =>
    rw [engine.invoke_of_error receiver hcall, engine.invoke_of_error receiver (hsame.trans hcall)]
    exact .error ⟨fault, []⟩ m
  | ok calls =>
    rw [engine.invoke_of_ok receiver hcall, engine.invoke_of_ok receiver (hsame.trans hcall)]
    have hbody := h.body callable.body (enter callable receiver args calls m)
    exact hbody.map BlockExit.value (fun _ => rfl) fun _ => rfl

theorem callNamed (h : engine.InStep f mayStarve) (function : String) (args : List Value) :
    (engine.callNamed function args).InStep f mayStarve := by
  intro m
  simp only [callNamed_apply, functions_onConsole]
  cases m.functions.get? function with
  | none => exact .error _ m
  | some callable => exact h.invoke callable none m.scope.receiver args _ m

theorem invokeMethod (h : engine.InStep f mayStarve) (receiver : Value) (method : String)
    (args : List Value) : (engine.invokeMethod receiver method args).InStep f mayStarve := by
  intro m
  simp only [invokeMethod_apply, classes_onConsole]
  rcases m.classes.resolveMethod? receiver.cls method with _ | ⟨owner, callable⟩ | b
  · exact .error _ m
  · exact h.invoke callable (some owner) (some receiver) args _ m
  · exact (ConsoleBlind.ofExcept _).inStep m

theorem constructDeclared (h : engine.InStep f mayStarve) (hgrows : engine.ConsoleGrows)
    (c : ClassRef) (args : List Value) : (engine.constructDeclared c args).InStep f mayStarve := by
  intro m
  simp only [constructDeclared_apply, classes_onConsole, heap_onConsole]
  cases m.classes.findMethod? c initMethod with
  | some found =>
    obtain ⟨owner, init⟩ := found
    have hinit := h.invoke init (some owner) (some ⟨c, .ref m.heap.cells.size⟩) args
      (CallStack.methodFrame (m.classes.name owner) initMethod)
    exact hinit.bind .trivial (fun _ _ => ConsoleBlind.inStep fun _ _ => rfl)
      (fun _ _ => (Part.pure _).consoleGrows hgrows)
      { m with heap := (m.heap.alloc (m.classes.mergedDefaults c)).1 }
  | none =>
    dsimp only
    split
    · exact .ok _ { m with heap := (m.heap.alloc (m.classes.mergedDefaults c)).1 }
    · exact .error _ { m with heap := (m.heap.alloc (m.classes.mergedDefaults c)).1 }

theorem runProgram (h : engine.InStep f mayStarve) (p : Program) :
    (engine.runProgram p).InStep f mayStarve := fun m =>
  (h.block .topLevel p.statements { m with scope := .topLevel }).map BlockExit.outcome
    (fun _ => rfl) fun _ => rfl

end Engine.InStep

namespace Console.Shift

variable {f : Console → Console} {mayStarve : Prop}

theorem inStep_printLine (hf : Shift f mayStarve) (line : String) :
    (Machine.printLine line).InStep f mayStarve := by
  intro m
  have hsame : Machine.printLine line (m.onConsole f) =
      .ok () ({ m with console := m.console.printLine line }.onConsole f) := by
    simp only [Machine.printLine, change, console_onConsole, hf.printLine]
    rfl
  rw [hsame]
  exact .ok () _

theorem inStep_readLine (hf : Shift f mayStarve) : Machine.readLine.InStep f mayStarve := by
  intro m
  rcases hf.readLine m.console with hread | ⟨hstarve, hnone, houtput⟩
  · simp only [Machine.readLine, console_onConsole, hread]
    rcases m.console.readLine.1 with _ | _ | _
    · exact .error _ { m with console := m.console.readLine.2 }
    · exact .ok _ { m with console := m.console.readLine.2 }
    · exact .error _ { m with console := m.console.readLine.2 }
  · -- from here on, the second run is on its own
    have hfirst : Machine.readLine m =
        .error ⟨.inputUnavailable, []⟩ { m with console := m.console.readLine.2 } := by
      simp only [Machine.readLine, hnone]
      rfl
    rw [hfirst]
    refine .starved hstarve fun m' hm' => ?_
    obtain ⟨text, -, htext, -⟩ := Primitive.readLine.consoleGrows _ m' hm'
    refine ⟨text, ?_⟩
    rw [htext, console_onConsole, houtput, output_readLine]

end Console.Shift

/-- **One step.** What is on a course looks at the console by printing and reading only. -/
theorem Regime.Course.inStep {f : Console → Console} {mayStarve : Prop}
    (hf : Console.Shift f mayStarve) {w : Unit} {α : Type} {Q : Unit → α → Prop}
    {part : Engine → Eval α} (h : Regime.free.Course w Q part) {engine : Engine}
    (hgrows : engine.ConsoleGrows) (hstep : engine.InStep f mayStarve) :
    (part engine).InStep f mayStarve := by
  induction h with
  | pure | refuse | display | declareLocal | newObject => exact ConsoleBlind.inStep fun _ _ => rfl
  | printLine line => exact hf.inStep_printLine line
  | readLine => exact hf.inStep_readLine
  | bind hx hg ihx ihg =>
    exact ihx.bind (hx.returns engine) (fun a ha => ihg () trivial a ha)
      fun a ha => (hg () trivial a ha).consoleGrows hgrows
  | resolve | property | lookupClass =>
    exact (ConsoleBlind.orRaise (fun _ _ => rfl) fun _ _ => rfl).inStep
  | @assign _ v _ name =>
    refine ConsoleBlind.inStep fun f m => ?_
    simp only [Machine.assign, scope_onConsole, heap_onConsole]
    cases m.scope.update? m.heap name v <;> rfl
  | @registerClass _ d =>
    refine ConsoleBlind.inStep fun f m => ?_
    simp only [Engine.registerClass_apply, classes_onConsole]
    cases m.classes.resolveMethods d.name d.methods <;> rfl
  | @declareFunction _ d =>
    refine ConsoleBlind.inStep fun f m => ?_
    simp only [Engine.declareFunction_apply, classes_onConsole]
    cases m.classes.resolveCallable none d <;> rfl
  | @eval _ e => exact hstep.eval e
  | @block _ stmts mode => exact hstep.block mode stmts
  | @loop _ condition body mode => exact hstep.loop mode condition body
  | callNamed function => exact hstep.callNamed function _
  | invokeMethod _ method => exact hstep.invokeMethod _ method _
  | constructDeclared => exact hstep.constructDeclared hgrows _ _

/-- **Lock step.** -/
theorem Engine.withFuel_inStep {f : Console → Console} {mayStarve : Prop}
    (hf : Console.Shift f mayStarve) (n : Nat) : (withFuel n).InStep f mayStarve := by
  induction n with
  | zero =>
    exact ⟨fun _ _ => .outOfFuel, fun _ _ _ => .outOfFuel, fun _ _ => .outOfFuel,
      fun _ _ _ _ => .outOfFuel⟩
  | succ n ih =>
    have hgrows := withFuel_consoleGrows n
    have hblock : ∀ mode stmts, ((withFuel n).execBlock mode stmts).InStep f mayStarve :=
      fun mode stmts => (Regime.Course.execBlock (w := ()) mode fun s _ =>
        Regime.free_stmt s).inStep hf hgrows ih
    rw [withFuel_succ]
    refine ⟨fun e => ?_, hblock, fun stmts => (hblock .inFunction stmts).traced,
      fun mode condition body => ?_⟩
    · exact (Regime.Course.evalExpr (w := ()) fun _ _ => trivial).inStep hf hgrows ih
    · exact (Regime.Course.loopStep (w := ()) mode trivial trivial trivial).inStep hf hgrows ih

/-- What has not starved is the same. -/
theorem Result.InStep.eq_map {f : Console → Console} {mayStarve : Prop} {α : Type} {s t : Result α}
    (h : InStep f mayStarve s t)
    (hstarved : mayStarve → ∀ b m, s ≠ .error ⟨.inputUnavailable, b⟩ m) :
    t = s.map id (Machine.onConsole f) := by
  cases h with
  | ok | error | outOfFuel => rfl
  | starved h => exact absurd rfl (hstarved h _ _)

/-- What has starved has printed what the other run prints first. -/
theorem Result.InStep.output {f : Console → Console} {mayStarve : Prop} {α : Type} {s t : Result α}
    (h : InStep f mayStarve s t) (houtput : ∀ c, (f c).output = c.output) {m m' : Machine}
    (hm : s.machine? = some m) (hm' : t.machine? = some m') :
    ∃ text, m'.console.output = m.console.output ++ text := by
  cases h with
  | ok | error =>
    cases hm
    cases hm'
    exact ⟨"", by rw [console_onConsole, houtput, String.append_empty]⟩
  | outOfFuel => cases hm
  | starved _ hmore =>
    cases hm
    exact hmore m' hm'

/-! ## More output before, more input behind -/

namespace Console

/-- The console with something printed in front of all else. -/
def printedBefore (before : String) (c : Console) : Console :=
  { c with output := before ++ c.output }

/-- The console with more lines behind its input. -/
def offered (lines : List InputLine) (c : Console) : Console := { c with input := c.input ++ lines }

/-- The same input with other output. -/
def withOutput (output : String) (c : Console) : Console := { c with output }

theorem Shift.printedBefore (before : String) : Shift (Console.printedBefore before) False where
  printLine c line := by
    simp only [Console.printedBefore, Console.printLine, String.append_assoc]
  readLine c := by
    obtain ⟨output, _ | ⟨line, rest⟩⟩ := c
    · exact .inl rfl
    · exact .inl rfl

theorem Shift.offered (lines : List InputLine) : Shift (Console.offered lines) True where
  printLine _ _ := rfl
  readLine c := by
    obtain ⟨output, _ | ⟨line, rest⟩⟩ := c
    · exact .inr ⟨trivial, rfl, rfl⟩
    · exact .inl rfl

end Console

/-- However the evaluation ends, it has been through some exchanges with the console. What it
printed is empty or ends in a newline, what it read was at the front of the input, and it printed no
fewer lines than it read. It would have printed the same, and done the same in all other respects,
whatever had been printed before. -/
def Eval.Converses {α : Type} (x : Eval α) : Prop :=
  ∀ m m', (x m).machine? = some m' → ∃ exchanges text consumed,
    m'.console = m.console.after exchanges ∧
    m'.console.output = m.console.output ++ text ∧ (text = "" ∨ ∃ t, text = t ++ "\n") ∧
    m.console.input = consumed ++ m'.console.input ∧ consumed.length ≤ exchanges.length ∧
    ∀ before, x (m.onConsole (.withOutput before)) =
      (x m).map id (Machine.onConsole (.withOutput (before ++ text)))

/-- **Independence of what was printed.** An evaluation that is in step with itself prints the same
and ends in the same way, whatever was printed before. -/
theorem Eval.apply_withOutput {α : Type} {x : Eval α}
    (hstep : ∀ before, x.InStep (Console.printedBefore before) False) {m m' : Machine}
    {text : String} (hm' : (x m).machine? = some m')
    (htext : m'.console.output = m.console.output ++ text)
    (before : String) : x (m.onConsole (.withOutput before)) =
      (x m).map id (Machine.onConsole (.withOutput (before ++ text))) := by
  -- both runs are compared with the one that starts with no output at all
  have hsame : ∀ before, x (m.onConsole (.withOutput before)) =
      (x (m.onConsole (.withOutput ""))).map id (Machine.onConsole (.printedBefore before)) := by
    intro before
    rw [← (hstep before (m.onConsole (.withOutput ""))).eq_map nofun]
    simp only [Machine.onConsole, Console.withOutput, Console.printedBefore, String.append_empty]
  have hm := hsame m.console.output
  rw [hsame before]
  change x m = _ at hm
  rw [hm] at hm' ⊢
  have hends : ∀ m₁ : Machine, m₁.onConsole (.printedBefore m.console.output) = m' →
      m₁.onConsole (.printedBefore before) =
        (m₁.onConsole (.printedBefore m.console.output)).onConsole
          (.withOutput (before ++ text)) := by
    rintro m₁ rfl
    obtain rfl : m₁.console.output = text := (String.append_right_inj _).mp htext
    rfl
  generalize x (m.onConsole (.withOutput "")) = r at hm'
  rcases r with ⟨a, m₁⟩ | ⟨e, m₁⟩ | _
  · exact congrArg (Result.ok a) (hends m₁ (Option.some.inj hm'))
  · exact congrArg (Result.error e) (hends m₁ (Option.some.inj hm'))
  · cases hm'

theorem Eval.converses {α : Type} {x : Eval α} (hkeeps : x.Keeps (Conduct.dialogue.across .binds))
    (hstep : ∀ before, x.InStep (Console.printedBefore before) False) : x.Converses := by
  intro m m' hm'
  obtain ⟨exchanges, hconsole⟩ := hkeeps m m' hm'
  obtain ⟨consumed, hinput, hlength⟩ := m.console.input_after exchanges
  have houtput := m.console.output_after exchanges
  rw [← hconsole] at hinput houtput
  exact ⟨exchanges, Console.printed exchanges, consumed, hconsole, houtput,
    Console.printed_eq_empty_or exchanges, hinput, hlength, apply_withOutput hstep hm' houtput⟩

/-- The machine with more lines behind its input. -/
def Machine.offered (lines : List InputLine) : Machine → Machine := onConsole (.offered lines)

section offered

variable {p : Program} {m : Machine}

theorem inStep_offered (p : Program) (m : Machine) (more : List InputLine) (n : Nat) :
    Result.InStep (.offered more) True ((Engine.withFuel n).runProgram p m)
      ((Engine.withFuel n).runProgram p (m.offered more)) :=
  (Engine.withFuel_inStep (Console.Shift.offered more) n).runProgram p m

/-- A program that does not lack input does the same when more is offered, and leaves it there. -/
theorem Ends.offered {r : Result Outcome} (h : Ends (fun engine => engine.runProgram p) m r)
    (hstarved : ∀ b m', r ≠ .error ⟨.inputUnavailable, b⟩ m') (more : List InputLine) :
    Ends (fun engine => engine.runProgram p) (m.offered more) (r.map id (.offered more)) := by
  obtain ⟨hr, n, rfl⟩ := h
  exact ⟨fun h => hr (Result.map_eq_outOfFuel.mp h), n,
    (inStep_offered p m more n).eq_map fun _ => hstarved⟩

/-- A program that lacks input has printed what it prints first when more is offered. -/
theorem Ends.output_of_starved {b : Backtrace} {m' : Machine} {more : List InputLine}
    {r : Result Outcome}
    (h : Ends (fun engine => engine.runProgram p) m (.error ⟨.inputUnavailable, b⟩ m'))
    (h' : Ends (fun engine => engine.runProgram p) (m.offered more) r) :
    ∃ m'', r.machine? = some m'' ∧ ∃ text, m''.console.output = m'.console.output ++ text := by
  obtain ⟨n, hn, rfl⟩ := exists_common (.program p) (.program p) h h'
  obtain ⟨m'', hm''⟩ := Result.exists_machine?_of_ne h'.1
  have hm' : ((Engine.withFuel n).runProgram p m).machine? = some m' := by
    rw [hn]
    rfl
  exact ⟨m'', hm'', (inStep_offered p m more n).output (fun _ => rfl) hm' hm''⟩

end offered

/-- **The console is kept in order**, in every use of the interpreter. A program that ends in some
other way than for lack of input ends in the same way when more lines are offered behind its input,
and leaves them there. If it ends for lack of input, all that it printed until then is printed first
by every run that ends with more lines. -/
theorem console_discipline (fuel : Nat) :
    (∀ e, ((Engine.withFuel fuel).eval e).Converses) ∧
    (∀ mode s, ((Engine.withFuel fuel).execStmt mode s).Converses) ∧
    (∀ mode stmts, ((Engine.withFuel fuel).block mode stmts).Converses) ∧
    (∀ receiver method args, ((Engine.withFuel fuel).invokeMethod receiver method args).Converses) ∧
    (∀ function receiver args,
      ((Engine.withFuel fuel).callFunction function receiver args).Converses) ∧
    (∀ c args, ((Engine.withFuel fuel).construct c args).Converses) ∧
    (∀ p, ((Engine.withFuel fuel).runProgram p).Converses) ∧
    ∀ (p : Program) (m : Machine) (more : List InputLine),
      (∀ r, Ends (fun engine => engine.runProgram p) m r →
        (∀ b m', r ≠ .error ⟨.inputUnavailable, b⟩ m') →
          Ends (fun engine => engine.runProgram p) (m.offered more) (r.map id (.offered more))) ∧
      ∀ b m' r, Ends (fun engine => engine.runProgram p) m (.error ⟨.inputUnavailable, b⟩ m') →
        Ends (fun engine => engine.runProgram p) (m.offered more) r →
          ∃ m'', r.machine? = some m'' ∧
            ∃ text, m''.console.output = m'.console.output ++ text := by
  have hkeeps := Engine.withFuel_keeps .dialogue fuel
  have hgrows := Engine.withFuel_consoleGrows fuel
  have hstep := fun before => Engine.withFuel_inStep (Console.Shift.printedBefore before) fuel
  refine ⟨fun e => ?_, fun mode s => ?_, fun mode stmts => ?_, fun receiver method args => ?_,
    fun function receiver args => ?_, fun c args => ?_, fun p => ?_, fun p m more => ⟨?_, ?_⟩⟩
  · exact converses ((Deed.eval e).keeps .dialogue hkeeps) fun before => (hstep before).eval e
  · exact converses ((Deed.execStmt mode s).keeps .dialogue hkeeps) fun before =>
      (Regime.Course.execStmt (w := ()) mode (Regime.free_stmt s)).inStep
        (.printedBefore before) hgrows (hstep before)
  · exact converses (hkeeps.block mode stmts) fun before => (hstep before).block mode stmts
  · exact converses ((Deed.invokeMethod receiver method args).keeps .dialogue hkeeps)
      fun before => (hstep before).invokeMethod receiver method args
  · exact converses ((Deed.callFunction function receiver args).keeps .dialogue hkeeps)
      fun before => (hstep before).invoke function none receiver args _
  · exact converses ((Deed.construct c args).keeps .dialogue hkeeps) fun before =>
      (Regime.Course.construct (w := ()) trivial fun _ _ => trivial).inStep
        (.printedBefore before) hgrows (hstep before)
  · exact converses (Conduct.dialogue.keeps_runProgram hkeeps p) fun before =>
      (hstep before).runProgram p
  · exact fun r h hstarved => h.offered hstarved more
  · exact fun b m' r h h' => h.output_of_starved h'

/-- With one line, the second question lacks an answer; what was printed until then is printed with
two lines as well. With two lines nothing is lacking, and a third one stays where it is. -/
theorem console_discipline_two_questions :
    (∃ m m', Ends (fun engine => engine.runProgram twoQuestions) (.fresh (.scripted ["a"]) none)
        (.error ⟨.inputUnavailable, ["g", "f"]⟩ m) ∧
      Ends (fun engine => engine.runProgram twoQuestions) (.fresh (.scripted ["a", "b"]) none)
        (.ok .completed m') ∧
      m.console.output = "und\na\nund\n" ∧
      ∃ text, m'.console.output = m.console.output ++ text) ∧
    ∃ m, Ends (fun engine => engine.runProgram twoQuestions)
        (.fresh (.scripted ["a", "b", "c"]) none) (.ok .completed m) ∧
      m.console.input = [.text "c"] := by
  obtain ⟨-, -, -, -, -, -, -, htwo⟩ := console_discipline 0
  have hshort : Ends (fun engine => engine.runProgram twoQuestions)
      (.fresh (.scripted ["a"]) none) (.error ⟨.inputUnavailable, ["g", "f"]⟩ _) := ⟨nofun, 20, rfl⟩
  have hlong : Ends (fun engine => engine.runProgram twoQuestions)
      (.fresh (.scripted ["a", "b"]) none) (.ok .completed _) := ⟨nofun, 20, rfl⟩
  constructor
  · obtain ⟨_, ⟨⟩, htext⟩ := (htwo twoQuestions (.fresh (.scripted ["a"]) none) [.text "b"]).2 _ _ _
      hshort hlong
    exact ⟨_, _, hshort, hlong, rfl, htext⟩
  · exact ⟨_, (htwo twoQuestions (.fresh (.scripted ["a", "b"]) none) [.text "c"]).1 _ hlong nofun,
      rfl⟩

end FlannelScript
