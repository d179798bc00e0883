import FlannelScript.Proofs.Course
import FlannelScript.Proofs.Fuel

/-!
# The limit of calls only cuts a run off

Two runs of a program that differ in the limit of calls are the same run, up to the limit itself,
unless the lower limit refuses a call (`Result.CutOff`). From then on the run with the higher limit goes on
by itself, and all that is known of it is that it only prints more and reads more
(`Eval.ConsoleGrows`).
-/

namespace FlannelScript

open Eval Machine

/-! ## Consoles only grow -/

/-- One console comes from another by printing and reading. -/
def Console.Before (c c' : Console) : Prop :=
  ∃ text lines, c'.output = c.output ++ text ∧ c.input = lines ++ c'.input

namespace Console.Before

variable {c c' c'' : Console}

theorem refl (c : Console) : c.Before c := ⟨"", [], by simp, rfl⟩

theorem trans (h : c.Before c') (h' : c'.Before c'') : c.Before c'' := by
  obtain ⟨text, lines, houtput, hinput⟩ := h
  obtain ⟨text', lines', houtput', hinput'⟩ := h'
  refine ⟨text ++ text', lines ++ lines', ?_, ?_⟩
  · rw [houtput', houtput, String.append_assoc]
  · rw [hinput, hinput', List.append_assoc]

theorem printLine (c : Console) (line : String) : c.Before (c.printLine line) :=
  ⟨line ++ "\n", [], by rw [Console.printLine, String.append_assoc], rfl⟩

theorem readLine (c : Console) : c.Before c.readLine.2 := by
  obtain ⟨output, _ | ⟨line, rest⟩⟩ := c
  · exact .refl _
  · exact ⟨"", [line], by simp [Console.readLine], rfl⟩

end Console.Before

namespace Eval

variable {α β : Type}

/-- However the evaluation ends, it has only printed and read. -/
def ConsoleGrows (x : Eval α) : Prop :=
  ∀ m m', (x m).machine? = some m' → m.console.Before m'.console

theorem ConsoleGrows.bind {x : Eval α} {f : α → Eval β} {good : α → Prop} (hx : x.ConsoleGrows)
    (hgood : Returns x good) (hf : ∀ a, good a → (f a).ConsoleGrows) :
    (x >>= f).ConsoleGrows := by
  intro m m' h
  rw [bind_apply] at h
  rcases hm : x m with ⟨a, m₁⟩ | ⟨e, m₁⟩ | _ <;> rw [hm] at h
  · have hfirst := hx m m₁ (by rw [hm]; rfl)
    exact hfirst.trans (hf a (hgood m a m₁ hm) m₁ m' h)
  · exact hx m m' (by rw [hm]; exact h)
  · cases h

theorem ConsoleGrows.traced {x : Eval α} (h : x.ConsoleGrows) : (traced x).ConsoleGrows := by
  intro m m' hm'
  rw [machine?_traced] at hm'
  exact h m m' hm'

end Eval

/-- All that the engine does to the console is to print and to read. -/
abbrev Engine.ConsoleGrows (engine : Engine) : Prop :=
  engine.Related (fun x _ => x.ConsoleGrows) (fun x _ => x.ConsoleGrows) engine

theorem Primitive.consoleGrows {α : Type} {x : Eval α} (h : Primitive x) : x.ConsoleGrows := by
  intro m m' hm'
  cases h with
  | printLine line =>
    cases hm'
    exact .printLine m.console line
  | readLine =>
    have hconsole : m'.console = m.console.readLine.2 := by
      rw [Machine.readLine] at hm'
      dsimp only at hm'
      split at hm' <;> cases hm' <;> rfl
    rw [hconsole]
    exact .readLine m.console
  | assign name v =>
    rw [Machine.assign] at hm'
    split at hm' <;> cases hm' <;> exact .refl _
  | pure | raise | machine | declareLocal | newInstance | declareClass | declareFunction =>
    cases hm'
    exact .refl _

namespace Engine.ConsoleGrows

variable {engine : Engine}

theorem invoke (h : engine.ConsoleGrows) (callable : Callable) (owner : Option ClassRef)
    (receiver : Option Value) (args : List Value) (frame : String) :
    (engine.invoke callable owner receiver args frame).ConsoleGrows := by
  intro m m' hm'
  cases hcall : checkCall callable owner args frame m with
  | error f =>
    rw [engine.invoke_of_error receiver hcall] at hm'
    cases hm'
    exact .refl _
  | ok calls =>
    rw [engine.invoke_of_ok receiver hcall, Result.machine?_map, Option.map_eq_some_iff] at hm'
    obtain ⟨inner, hinner, rfl⟩ := hm'
    exact h.body callable.body (enter callable receiver args calls m) inner hinner

theorem runProgram (h : engine.ConsoleGrows) (p : Program) : (engine.runProgram p).ConsoleGrows := by
  intro m m' hm'
  rw [Engine.runProgram, Result.machine?_map, Option.map_eq_some_iff] at hm'
  obtain ⟨inner, hinner, rfl⟩ := hm'
  exact h.block .topLevel p.statements { m with scope := .topLevel } inner hinner

end Engine.ConsoleGrows

theorem Part.consoleGrows {α : Type} {part : Engine → Eval α} (h : Part part) {engine : Engine}
    (hengine : engine.ConsoleGrows) : (part engine).ConsoleGrows := by
  induction h with
  | primitive h => exact h.consoleGrows
  | bind _ _ ihx ihf => exact ihx.bind (fun _ _ _ _ => trivial) fun a _ => ihf a
  | eval e => exact hengine.eval e
  | block mode stmts => exact hengine.block mode stmts
  | loop mode condition body => exact hengine.loop mode condition body
  | invoke callable owner receiver args frame =>
    exact hengine.invoke callable owner receiver args frame
  | program p => exact hengine.runProgram p

/-- **Consoles only grow.** -/
theorem Engine.withFuel_consoleGrows (n : Nat) : (withFuel n).ConsoleGrows := by
  have hrelated : (Watch.plain.engine n).Related (fun x _ => x.ConsoleGrows)
      (fun x _ => x.ConsoleGrows) (withFuel n) := by
    refine Watch.related_withFuel ?_ ?_ ?_ ?_ n
    · rintro α m m' ⟨⟩
    · rintro m m' ⟨⟩
    · intro n ih α part h
      rw [Watch.engine_plain] at ih ⊢
      exact h.consoleGrows ih
    · intro n part _ h
      exact h.traced
  rwa [Watch.engine_plain] at hrelated

/-! ## Limits -/

/-- A limit that refuses no more calls than another one; none refuses the fewest. -/
def CallStack.LimitLE : Option Nat → Option Nat → Prop
  | _, none => True
  | some low, some high => low ≤ high
  | none, some _ => False

theorem CallStack.limitLE_none (limit : Option Nat) : LimitLE limit none := by
  cases limit <;> trivial

/-- The machine with another limit of calls. -/
def Machine.limited (limit : Option Nat) (m : Machine) : Machine :=
  { m with calls := { m.calls with maxDepth := limit } }

namespace Machine

variable (limit : Option Nat) (m : Machine)

@[simp] theorem classes_limited : (m.limited limit).classes = m.classes := rfl

@[simp] theorem functions_limited : (m.limited limit).functions = m.functions := rfl

@[simp] theorem heap_limited : (m.limited limit).heap = m.heap := rfl

@[simp] theorem console_limited : (m.limited limit).console = m.console := rfl

@[simp] theorem scope_limited : (m.limited limit).scope = m.scope := rfl

end Machine

/-- How two runs with a lower and a higher limit of calls end: in the same way, or the first one is
cut off at the limit and the second one has gone on from there. -/
inductive Result.CutOff (low high : Option Nat) {α : Type} : Result α → Result α → Prop where
  | ok (a : α) (m : Machine) : CutOff low high (.ok a (m.limited low)) (.ok a (m.limited high))
  | error (e : EvalError) (m : Machine) :
      CutOff low high (.error e (m.limited low)) (.error e (m.limited high))
  | outOfFuel : CutOff low high .outOfFuel .outOfFuel
  | cut {d : Nat} {b : Backtrace} {m : Machine} {r : Result α}
      (h : ∀ m', r.machine? = some m' → m.console.Before m'.console) :
      CutOff low high (.error ⟨.recursionLimit d, b⟩ m) r

/-- Whatever the limit of calls, the evaluation does the same. -/
def Eval.LimitBlind {α : Type} (x : Eval α) : Prop :=
  ∀ limit (m : Machine), x (m.limited limit) = (x m).map id (Machine.limited limit)

/-- A lower limit only cuts the evaluation off. -/
def Eval.CutOff (low high : Option Nat) {α : Type} (x : Eval α) : Prop :=
  ∀ m : Machine, Result.CutOff low high (x (m.limited low)) (x (m.limited high))

namespace Eval

variable {α β : Type} {low high : Option Nat} {x : Eval α}

theorem LimitBlind.cutOff (h : x.LimitBlind) : x.CutOff low high := by
  intro m
  rw [h low m, h high m]
  rcases x m with ⟨a, m₁⟩ | ⟨e, m₁⟩ | _
  · exact .ok a m₁
  · exact .error e m₁
  · exact .outOfFuel

theorem LimitBlind.orRaise {y : Machine → Option α} {f : Machine → Fault}
    (hy : ∀ limit m, y (m.limited limit) = y m) (hf : ∀ limit m, f (m.limited limit) = f m) :
    LimitBlind fun m => Eval.orRaise (y m) (f m) m := by
  intro limit m
  dsimp only
  rw [hy, hf]
  cases y m <;> rfl

theorem LimitBlind.ofExcept (y : Except Fault α) : (Eval.ofExcept y).LimitBlind := by
  intro limit m
  cases y <;> rfl

theorem CutOff.bind {f : α → Eval β} {good : α → Prop} (hx : x.CutOff low high)
    (hgood : Returns x good) (hf : ∀ a, good a → (f a).CutOff low high)
    (hgrows : ∀ a, good a → (f a).ConsoleGrows) : (x >>= f).CutOff low high := by
  intro m
  rw [bind_apply, bind_apply]
  have hm := hx m
  have hlow := hgood (m.limited low)
  have hhigh := hgood (m.limited high)
  generalize x (m.limited low) = s, x (m.limited high) = t at hm hlow hhigh
  cases hm with
  | ok a m₁ => exact hf a (hlow a _ rfl) m₁
  | error e m₁ => exact .error e m₁
  | outOfFuel => exact .outOfFuel
  | cut h =>
    refine .cut fun m' hm' => ?_
    rcases t with ⟨a, m₁⟩ | ⟨e, m₁⟩ | _
    · exact (h m₁ rfl).trans (hgrows a (hhigh a m₁ rfl) m₁ m' hm')
    · exact h m' hm'
    · cases hm'

theorem CutOff.traced (h : x.CutOff low high) : (traced x).CutOff low high := by
  intro m
  have hm := h m
  have hmachine := machine?_traced x (m.limited high)
  rw [Eval.traced, Eval.traced] at *
  generalize x (m.limited low) = s, x (m.limited high) = t at hm hmachine
  cases hm with
  | ok a m₁ => exact .ok a m₁
  | error e m₁ => exact .error (e.withBacktrace m₁.calls.capture) m₁
  | outOfFuel => exact .outOfFuel
  | @cut d b m₁ _ h =>
    have hcut : ∀ m', Result.machine? _ = some m' → m₁.console.Before m'.console :=
      fun m' hm' => h m' (hmachine ▸ hm')
    obtain _ | _ := b
    · exact .cut hcut
    · exact .cut hcut

end Eval

/-- A course on which everything is allowed only prints and reads, too. -/
theorem Regime.Course.consoleGrows {w : Unit} {α : Type} {Q : Unit → α → Prop}
    {part : Engine → Eval α} (h : Regime.free.Course w Q part) {engine : Engine}
    (hgrows : engine.ConsoleGrows) : (part engine).ConsoleGrows := by
  induction h with
  | pure => exact (Part.pure _).consoleGrows hgrows
  | bind hx _ ihx ihf => exact ihx.bind (hx.returns engine) fun a ha => ihf () trivial a ha
  | refuse f h => exact (Part.read fun m => .raise (h m.classes.name)).consoleGrows hgrows
  | resolve name => exact (Part.resolve name).consoleGrows hgrows
  | property _ name => exact (Part.property _ name).consoleGrows hgrows
  | lookupClass name => exact (Part.lookupClass name).consoleGrows hgrows
  | display v => exact (Part.read fun m => .pure (m.classes.display v)).consoleGrows hgrows
  | declareLocal | assign | newObject | printLine | readLine =>
    exact Primitive.consoleGrows (by constructor)
  | @registerClass _ d parent overrides defaults =>
    exact (Part.registerClass d parent overrides defaults).consoleGrows hgrows
  | @declareFunction _ d => exact (Part.declareFunction d).consoleGrows hgrows
  | @eval _ e => exact hgrows.eval e
  | @block _ stmts mode => exact hgrows.block mode stmts
  | @loop _ condition body mode => exact hgrows.loop mode condition body
  | callNamed function => exact (Part.callNamed function _).consoleGrows hgrows
  | invokeMethod _ method => exact (Part.invokeMethod _ method _).consoleGrows hgrows
  | constructDeclared => exact (Part.constructDeclared _ _).consoleGrows hgrows

/-! ## Calls at two limits -/

/-- What the lower limit lets pass, the higher one lets pass. -/
theorem CallStack.push_of_limitLE {low high : Option Nat} (hle : LimitLE low high)
    {frames : List String} {frame : String} {calls : CallStack}
    (h : CallStack.push ⟨frames, low⟩ frame = .ok calls) :
    CallStack.push ⟨frames, high⟩ frame = .ok ⟨frame :: frames, high⟩ := by
  cases hhigh : CallStack.push ⟨frames, high⟩ frame with
  | ok calls' => rw [(push_eq_ok hhigh).1]
  | error f =>
    obtain ⟨max, rfl, hmax, -⟩ := push_eq_error_iff.mp hhigh
    obtain _ | min := low
    · cases hle
    · have hlow : CallStack.push ⟨frames, some min⟩ frame = .error (.recursionLimit min) :=
        push_eq_error_iff.mpr ⟨min, rfl, Nat.le_trans hle hmax, rfl⟩
      rw [hlow] at h
      cases h

namespace Engine

/-- The lower limit refuses a call, or the call is refused or accepted at both. -/
theorem checkCall_limited {low high : Option Nat} (hle : CallStack.LimitLE low high)
    (callable : Callable) (owner : Option ClassRef) (args : List Value) (frame : String)
    (m : Machine) :
    (∃ d, checkCall callable owner args frame (m.limited low) = .error (.recursionLimit d)) ∨
    (∃ f, ∀ limit, checkCall callable owner args frame (m.limited limit) = .error f) ∨
    ∀ limit, limit = low ∨ limit = high →
      checkCall callable owner args frame (m.limited limit) =
        .ok ⟨frame :: m.calls.frames, limit⟩ := by
  simp only [checkCall]
  split
  · exact .inr (.inl ⟨_, fun _ => rfl⟩)
  · change (∃ d, (m.classes.checkArguments owner callable.params args >>= _) = _) ∨
      (∃ f, ∀ limit, (m.classes.checkArguments owner callable.params args >>= _) = _) ∨
      ∀ limit, _ → (m.classes.checkArguments owner callable.params args >>= _) = _
    cases m.classes.checkArguments owner callable.params args with
    | error f => exact .inr (.inl ⟨f, fun _ => rfl⟩)
    | ok =>
      cases hpush : CallStack.push ⟨m.calls.frames, low⟩ frame with
      | error f =>
        obtain ⟨d, -, -, rfl⟩ := CallStack.push_eq_error_iff.mp hpush
        exact .inl ⟨d, hpush⟩
      | ok calls =>
        refine .inr (.inr ?_)
        rintro limit (rfl | rfl)
        · rw [(CallStack.push_eq_ok hpush).1] at hpush
          exact hpush
        · exact CallStack.push_of_limitLE hle hpush

/-- Whatever the engine does, a lower limit only cuts it off. -/
abbrev CutOff (low high : Option Nat) (engine : Engine) : Prop :=
  engine.Related (fun x _ => x.CutOff low high) (fun x _ => x.CutOff low high) engine

end Engine

theorem Result.CutOff.map {low high : Option Nat} {α β : Type} {s t : Result α}
    (h : CutOff low high s t) (f : α → β) {g : Machine → Machine}
    (hlimited : ∀ limit m, g (m.limited limit) = (g m).limited limit)
    (hconsole : ∀ m, (g m).console = m.console) : CutOff low high (s.map f g) (t.map f g) := by
  cases h with
  | ok a m =>
    rw [Result.map, Result.map, hlimited, hlimited]
    exact .ok (f a) (g m)
  | error e m =>
    rw [Result.map, Result.map, hlimited, hlimited]
    exact .error e (g m)
  | outOfFuel => exact .outOfFuel
  | cut h =>
    refine .cut fun m' hm' => ?_
    rw [Result.machine?_map, Option.map_eq_some_iff] at hm'
    obtain ⟨inner, hinner, rfl⟩ := hm'
    rw [hconsole, hconsole]
    exact h inner hinner

namespace Engine.CutOff

variable {low high : Option Nat} {engine : Engine}

theorem invoke (h : engine.CutOff low high) (hle : CallStack.LimitLE low high)
    (hgrows : engine.ConsoleGrows) (callable : Callable) (owner : Option ClassRef)
    (receiver : Option Value) (args : List Value) (frame : String) :
    (engine.invoke callable owner receiver args frame).CutOff low high := by
  intro m
  rcases checkCall_limited hle callable owner args frame m with ⟨d, hlow⟩ | ⟨f, hf⟩ | hok
  · -- from here on, the run with the higher limit is on its own
    rw [engine.invoke_of_error receiver hlow]
    exact .cut fun m' hm' =>
      hgrows.invoke callable owner receiver args frame (m.limited high) m' hm'
  · rw [engine.invoke_of_error receiver (hf low), engine.invoke_of_error receiver (hf high)]
    exact .error ⟨f, []⟩ m
  · rw [engine.invoke_of_ok receiver (hok low (.inl rfl)),
      engine.invoke_of_ok receiver (hok high (.inr rfl))]
    have hbody := h.body callable.body
      (enter callable receiver args ⟨frame :: m.calls.frames, none⟩ m)
    exact hbody.map BlockExit.value (fun _ _ => rfl) fun _ => rfl

theorem callNamed (h : engine.CutOff low high) (hle : CallStack.LimitLE low high)
    (hgrows : engine.ConsoleGrows) (function : String) (args : List Value) :
    (engine.callNamed function args).CutOff low high := by
  intro m
  simp only [callNamed_apply, functions_limited]
  cases m.functions.get? function with
  | none => exact .error _ m
  | some callable => exact h.invoke hle hgrows callable none m.scope.receiver args _ m

theorem invokeMethod (h : engine.CutOff low high) (hle : CallStack.LimitLE low high)
    (hgrows : engine.ConsoleGrows) (receiver : Value) (method : String) (args : List Value) :
    (engine.invokeMethod receiver method args).CutOff low high := by
  intro m
  simp only [invokeMethod_apply, classes_limited]
  rcases m.classes.resolveMethod? receiver.cls method with _ | ⟨owner, callable⟩ | b
  · exact .error _ m
  · exact h.invoke hle hgrows callable (some owner) (some receiver) args _ m
  · exact (LimitBlind.ofExcept _).cutOff m

theorem constructDeclared (h : engine.CutOff low high) (hle : CallStack.LimitLE low high)
    (hgrows : engine.ConsoleGrows) (c : ClassRef) (args : List Value) :
    (engine.constructDeclared c args).CutOff low high := by
  intro m
  simp only [constructDeclared_apply, classes_limited, heap_limited]
  cases m.classes.findMethod? c initMethod with
  | some found =>
    obtain ⟨owner, init⟩ := found
    have hinit := h.invoke hle hgrows init (some owner) (some ⟨c, .ref m.heap.cells.size⟩) args
      (CallStack.methodFrame (m.classes.name owner) initMethod)
    exact hinit.bind .trivial (fun _ _ => LimitBlind.cutOff fun _ _ => rfl)
      (fun _ _ => (Part.pure _).consoleGrows hgrows)
      { m with heap := (m.heap.alloc (m.classes.mergedDefaults c)).1 }
  | none =>
    dsimp only
    split
    · exact .ok _ { m with heap := (m.heap.alloc (m.classes.mergedDefaults c)).1 }
    · exact .error _ { m with heap := (m.heap.alloc (m.classes.mergedDefaults c)).1 }

theorem runProgram (h : engine.CutOff low high) (p : Program) :
    (engine.runProgram p).CutOff low high := fun m =>
  (h.block .topLevel p.statements { m with scope := .topLevel }).map BlockExit.outcome
    (fun _ _ => rfl) fun _ => rfl

end Engine.CutOff

/-! ## The interpreter at two limits -/

/-- **One step.** Nothing on a course can tell the limit but the calls. -/
theorem Regime.Course.cutOff {low high : Option Nat} (hle : CallStack.LimitLE low high) {w : Unit}
    {α : Type} {Q : Unit → α → Prop} {part : Engine → Eval α} (h : Regime.free.Course w Q part)
    {engine : Engine} (hgrows : engine.ConsoleGrows) (hcut : engine.CutOff low high) :
    (part engine).CutOff low high := by
  induction h with
  | pure | refuse | display | declareLocal | newObject | printLine =>
    exact LimitBlind.cutOff fun _ _ => rfl
  | bind hx hf ihx ihf =>
    exact ihx.bind (hx.returns engine) (fun a ha => ihf () trivial a ha)
      fun a ha => (hf () trivial a ha).consoleGrows hgrows
  | resolve | property | lookupClass =>
    exact (LimitBlind.orRaise (fun _ _ => rfl) fun _ _ => rfl).cutOff
  | @assign _ v _ name =>
    refine LimitBlind.cutOff fun limit m => ?_
    simp only [Machine.assign, scope_limited, heap_limited]
    cases m.scope.update? m.heap name v <;> rfl
  | readLine =>
    refine LimitBlind.cutOff fun limit m => ?_
    simp only [Machine.readLine, console_limited]
    rcases m.console.readLine.1 with _ | _ | _ <;> rfl
  | @registerClass _ d =>
    refine LimitBlind.cutOff fun limit m => ?_
    simp only [Engine.registerClass_apply, classes_limited]
    cases m.classes.resolveMethods d.name d.methods <;> rfl
  | @declareFunction _ d =>
    refine LimitBlind.cutOff fun limit m => ?_
    simp only [Engine.declareFunction_apply, classes_limited]
    cases m.classes.resolveCallable none d <;> rfl
  | @eval _ e => exact hcut.eval e
  | @block _ stmts mode => exact hcut.block mode stmts
  | @loop _ condition body mode => exact hcut.loop mode condition body
  | callNamed function => exact hcut.callNamed hle hgrows function _
  | invokeMethod _ method => exact hcut.invokeMethod hle hgrows _ method _
  | constructDeclared => exact hcut.constructDeclared hle hgrows _ _

/-- **Lock step.** A lower limit only cuts the interpreter off. -/
theorem Engine.withFuel_cutOff {low high : Option Nat} (hle : CallStack.LimitLE low high) (n : Nat) :
    (withFuel n).CutOff low high := by
  induction n with
  | zero =>
    exact ⟨fun _ _ => .outOfFuel, fun _ _ _ => .outOfFuel, fun _ _ => .outOfFuel,
      fun _ _ _ _ => .outOfFuel⟩
  | succ n ih =>
    have hgrows := withFuel_consoleGrows n
    have hblock : ∀ mode stmts, ((withFuel n).execBlock mode stmts).CutOff low high :=
      fun mode stmts => (Regime.Course.execBlock (w := ()) mode fun s _ =>
        Regime.free_stmt s).cutOff hle hgrows ih
    rw [withFuel_succ]
    refine ⟨fun e => ?_, hblock, fun stmts => (hblock .inFunction stmts).traced,
      fun mode condition body => ?_⟩
    · exact (Regime.Course.evalExpr (w := ()) fun _ _ => trivial).cutOff hle hgrows ih
    · exact (Regime.Course.loopStep (w := ()) mode trivial trivial trivial).cutOff hle hgrows ih

/-- What is not cut off is the same. -/
theorem Result.CutOff.eq_map {low high : Option Nat} {α : Type} {s t : Result α}
    (h : CutOff low high s t) (hlimit : ∀ d b m, s ≠ .error ⟨.recursionLimit d, b⟩ m) :
    t = s.map id (Machine.limited high) := by
  cases h with
  | ok | error | outOfFuel => rfl
  | cut => exact absurd rfl (hlimit _ _ _)

/-- What is cut off has printed and read what the other run prints and reads first. -/
theorem Result.CutOff.before {low high : Option Nat} {α : Type} {s t : Result α}
    (h : CutOff low high s t) {m m' : Machine} (hm : s.machine? = some m)
    (hm' : t.machine? = some m') : m.console.Before m'.console := by
  cases h with
  | ok | error =>
    cases hm
    cases hm'
    exact .refl _
  | outOfFuel => cases hm
  | cut h =>
    cases hm
    exact h m' hm'

/-- **The limit of calls is only a cut-off.** A program that ends in some other way than at the limit
ends in the same way with every higher limit. If it is cut off at the limit and does end with a higher
one, all that it printed until then is printed in both runs, and all that it read is read in both. -/
theorem limit_only_cuts_off (p : Program) (console : Console) {low high : Option Nat}
    (hle : CallStack.LimitLE low high) :
    (∀ r, Ends (fun engine => engine.runProgram p) (.fresh console low) r →
      (∀ d b m, r ≠ .error ⟨.recursionLimit d, b⟩ m) →
        Ends (fun engine => engine.runProgram p) (.fresh console high)
          (r.map id (Machine.limited high))) ∧
    ∀ d b m r, Ends (fun engine => engine.runProgram p) (.fresh console low)
        (.error ⟨.recursionLimit d, b⟩ m) →
      Ends (fun engine => engine.runProgram p) (.fresh console high) r →
        ∃ m', r.machine? = some m' ∧ (∃ text, m'.console.output = m.console.output ++ text) ∧
          ∃ consumed consumed', console.input = consumed ++ m.console.input ∧
            console.input = consumed' ++ m'.console.input ∧ consumed <+: consumed' := by
  have hcut : ∀ n, Result.CutOff low high ((Engine.withFuel n).runProgram p (.fresh console low))
      ((Engine.withFuel n).runProgram p (.fresh console high)) := fun n =>
    (Engine.withFuel_cutOff hle n).runProgram p (.fresh console none)
  constructor
  · rintro r ⟨hr, n, rfl⟩ hlimit
    exact ⟨fun h => hr (Result.map_eq_outOfFuel.mp h), n, (hcut n).eq_map hlimit⟩
  · intro d b m r hlow hhigh
    obtain ⟨n, hm, rfl⟩ := Ends.exists_common (.program p) (.program p) hlow hhigh
    obtain ⟨m', hm'⟩ := Result.exists_machine?_of_ne hhigh.1
    have hm : (p.run n (.fresh console low)).machine? = some m := by
      rw [Program.run, hm]
      rfl
    obtain ⟨-, consumed, -, hconsumed⟩ :=
      (Engine.withFuel_consoleGrows n).runProgram p (.fresh console low) m hm
    obtain ⟨text, lines, htext, hlines⟩ := (hcut n).before hm hm'
    refine ⟨m', hm', ⟨text, htext⟩, consumed, consumed ++ lines, hconsumed, ?_, lines, rfl⟩
    rw [List.append_assoc, ← hlines]
    exact hconsumed

/-- A question at the top level, and another one in a call inside a call. -/
def twoQuestions : Program :=
  ⟨[.functionDecl ⟨"g", [], "Und", [.echo (.ask (.name "und"))]⟩,
    .functionDecl ⟨"f", [], "Und", [.call "g" []]⟩,
    .echo (.ask (.name "und")),
    .call "f" []]⟩

/-- At the limit of one call the second question is never asked. At the limit of two calls the program
runs as it does without a limit. -/
theorem limit_only_cuts_off_two_questions :
    (∃ m m', Ends (fun engine => engine.runProgram twoQuestions)
        (.fresh (.scripted ["a", "b"]) (some 1)) (.error ⟨.recursionLimit 1, ["f"]⟩ m) ∧
      Ends (fun engine => engine.runProgram twoQuestions) (.fresh (.scripted ["a", "b"]) none)
        (.ok .completed m') ∧
      (∃ text, m'.console.output = m.console.output ++ text) ∧
      m.console.input = [.text "b"] ∧ m'.console.input = []) ∧
    ∃ m, Ends (fun engine => engine.runProgram twoQuestions)
        (.fresh (.scripted ["a", "b"]) (some 2)) (.ok .completed m) ∧
      Ends (fun engine => engine.runProgram twoQuestions) (.fresh (.scripted ["a", "b"]) none)
        (.ok .completed (m.limited none)) := by
  constructor
  · have hlow : Ends (fun engine => engine.runProgram twoQuestions)
        (.fresh (.scripted ["a", "b"]) (some 1)) (.error ⟨.recursionLimit 1, ["f"]⟩ _) :=
      ⟨nofun, 20, rfl⟩
    have hhigh : Ends (fun engine => engine.runProgram twoQuestions)
        (.fresh (.scripted ["a", "b"]) none) (.ok .completed _) := ⟨nofun, 20, rfl⟩
    have hcut := limit_only_cuts_off twoQuestions (.scripted ["a", "b"])
      (CallStack.limitLE_none (some 1))
    obtain ⟨_, ⟨⟩, htext, -⟩ := hcut.2 1 ["f"] _ _ hlow hhigh
    exact ⟨_, _, hlow, hhigh, htext, rfl, rfl⟩
  · have hlow : Ends (fun engine => engine.runProgram twoQuestions)
        (.fresh (.scripted ["a", "b"]) (some 2)) (.ok .completed _) := ⟨nofun, 20, rfl⟩
    have hcut := limit_only_cuts_off twoQuestions (.scripted ["a", "b"])
      (CallStack.limitLE_none (some 2))
    exact ⟨_, hlow, hcut.1 _ hlow nofun⟩

end FlannelScript
