import FlannelScript.Proofs.WellFormed
import Mathlib.Logic.Relation

/-!
# The moments of a session

A session is what happens on one machine: programs are run on it one after the other, to their end or
to an error. Between programs there is not much to be seen of what they do, so a session is taken apart
into moments (`Moment.Next`). From one moment to the next, a request is answered as a whole, be it to
run a program or to evaluate an expression; or something of the inside of a request is brought to view:
a program starts or finishes, an instance is allocated, a call is entered or left. Any code may be asked
for at any moment, and any value that has been returned so far may be handed to a call.

All values that can be met at any moment of a session are well-formed, and instances never gain or lose
a property (`values_well_formed`).
-/

namespace FlannelScript

open Eval Machine

/-! ## Moments -/

/-- A moment: the machine, the scopes that wait for what runs, innermost first, and all values that
have been returned so far. -/
structure Moment where
  machine : Machine
  waiting : List Scope := []
  returned : List Value := []

/-- What passes for a value that a program ends with. -/
def Outcome.value? : Outcome → Option Value
  | completed => none
  | returned v => some v

/-- The value that an evaluation returned, if it did. -/
def Result.value? {α : Type} (value? : α → Option Value) : Result α → Option Value
  | ok a _ => value? a
  | error _ _ | outOfFuel => none

/-- What can be asked for on a machine, with what passes for its value. -/
inductive Request (m : Machine) (returned : List Value) :
    {α : Type} → (α → Option Value) → (Engine → Eval α) → Prop where
  | program (p : Program) : Request m returned Outcome.value? fun engine => engine.runProgram p
  | block (mode : Mode) (stmts : List Stmt) :
      Request m returned BlockExit.value? fun engine => engine.block mode stmts
  | stmt (mode : Mode) (s : Stmt) :
      Request m returned Flow.value? fun engine => engine.execStmt mode s
  | expr (e : Expr) : Request m returned some fun engine => engine.eval e
  | function (name : String) {args : List Value} (hargs : ∀ v ∈ args, v ∈ returned) :
      Request m returned some fun engine => engine.callNamed name args
  | method {receiver : Value} (hreceiver : receiver ∈ returned) (name : String) {args : List Value}
      (hargs : ∀ v ∈ args, v ∈ returned) :
      Request m returned some fun engine => engine.invokeMethod receiver name args
  | construct {name : String} {c : ClassRef} (hc : m.classes.lookup? name = some c)
      {args : List Value} (hargs : ∀ v ∈ args, v ∈ returned) :
      Request m returned some fun engine => engine.construct c args

/-- The calls that there can be: what is called, the class that declares it, the receiver, the
arguments and the frame. -/
inductive Request.Call (m : Machine) (returned : List Value) :
    Callable → Option ClassRef → Option Value → List Value → String → Prop where
  | function {name : String} {callable : Callable} {args : List Value}
      (h : m.functions.get? name = some callable) (hargs : ∀ v ∈ args, v ∈ returned) :
      Call m returned callable none m.scope.receiver args (CallStack.functionFrame callable.name)
  | method {receiver : Value} {name : String} {owner : ClassRef} {callable : Callable}
      {args : List Value} (hreceiver : receiver ∈ returned)
      (h : m.classes.resolveMethod? receiver.cls name = some (.declared owner callable))
      (hargs : ∀ v ∈ args, v ∈ returned) :
      Call m returned callable (some owner) (some receiver) args
        (CallStack.methodFrame (m.classes.name owner) name)
  | init {fresh : Value} {owner : ClassRef} {callable : Callable} {args : List Value}
      (hfresh : fresh ∈ returned)
      (h : m.classes.findMethod? fresh.cls Engine.initMethod = some (owner, callable))
      (hargs : ∀ v ∈ args, v ∈ returned) :
      Call m returned callable (some owner) (some fresh) args
        (CallStack.methodFrame (m.classes.name owner) Engine.initMethod)

namespace Moment

/-- The first moment of a session. -/
def first (console : Console) (limit : Option Nat) : Moment := { machine := .fresh console limit }

/-- What can come next. -/
inductive Next : Moment → Moment → Prop where
  /-- a request is answered, or fails -/
  | answer {m m' : Machine} {waiting : List Scope} {returned : List Value} {α : Type}
      {value? : α → Option Value} {part : Engine → Eval α} (h : Request m returned value? part)
      (fuel : Nat) (hm' : (part (Engine.withFuel fuel) m).machine? = some m') :
      Next ⟨m, waiting, returned⟩
        ⟨m', waiting, ((part (Engine.withFuel fuel) m).value? value?).toList ++ returned⟩
  | start {m : Machine} {returned : List Value} :
      Next ⟨m, [], returned⟩ ⟨{ m with scope := .topLevel }, [m.scope], returned⟩
  | finish {m : Machine} {outer : Scope} {returned : List Value} :
      Next ⟨m, [outer], returned⟩ ⟨{ m with scope := outer }, [], returned⟩
  | allocate {m : Machine} {waiting : List Scope} {returned : List Value} (name : String) {id : Nat}
      (h : m.classes.lookup? name = some (.declared id)) :
      Next ⟨m, waiting, returned⟩
        ⟨{ m with heap := (m.heap.alloc (m.classes.mergedDefaults (.declared id))).1 }, waiting,
          ⟨.declared id, .ref m.heap.cells.size⟩ :: returned⟩
  | enter {m : Machine} {waiting : List Scope} {returned : List Value} {callable : Callable}
      {owner : Option ClassRef} {receiver : Option Value} {args : List Value} {frame : String}
      {calls : CallStack} (h : Request.Call m returned callable owner receiver args frame)
      (hcheck : Engine.checkCall callable owner args frame m = .ok calls) :
      Next ⟨m, waiting, returned⟩
        ⟨Engine.enter callable receiver args calls m, m.scope :: waiting, returned⟩
  | leave {m : Machine} {caller outer : Scope} {waiting : List Scope} {returned : List Value} :
      Next ⟨m, caller :: outer :: waiting, returned⟩
        ⟨Engine.leave caller m, outer :: waiting, returned⟩

/-- One moment comes before another one, or is the same. -/
abbrev Before : Moment → Moment → Prop := Relation.ReflTransGen Next

/-- All values that are met at a moment are good. -/
structure AllValues (P : Value → Prop) (s : Moment) : Prop where
  machine : s.machine.AllValues P
  waiting : ∀ scope ∈ s.waiting, scope.AllValues P
  returned : ∀ v ∈ s.returned, P v

end Moment

/-! ## Requests are sound -/

theorem Engine.Sound.runProgram {engine : Engine} (h : engine.Sound) (p : Program) (m : Machine) :
    (engine.runProgram p).Sound m (Regime.wellFormed.optional Outcome.value?) := by
  intro hm
  have hinside : Machine.Sound { m with scope := .topLevel } :=
    hm.rescope rfl rfl (.topLevel (.of_isData .undefined))
  refine (h.block .topLevel p.statements _ hinside).map hm rfl rfl BlockExit.outcome (fun _ => rfl)
    (fun _ => rfl) (fun _ => rfl) fun exit inner hexit => ?_
  cases exit with
  | completed | returned => exact nofun
  | halted v =>
    rintro _ ⟨⟩
    exact (hexit v rfl).mono (.of_eq rfl rfl)

/-- A value that an evaluation returned is well-formed where it ended. -/
theorem Result.Sound.wellFormed_value? {m m' : Machine} {α : Type} {value? : α → Option Value}
    {r : Result α} (hr : r.Sound m (Regime.wellFormed.optional value?)) (hm' : r.machine? = some m')
    {v : Value} (hv : r.value? value? = some v) : v.WellFormed m' := by
  cases r with
  | ok a inner =>
    cases hm'
    exact hr.returned a m' rfl v hv
  | error | outOfFuel => cases hv

theorem Request.sound {m : Machine} (hm : m.Sound) {returned : List Value}
    (hreturned : ∀ v ∈ returned, v.WellFormed m) {α : Type} {value? : α → Option Value}
    {part : Engine → Eval α} (h : Request m returned value? part) {engine : Engine}
    (hengine : engine.Sound) : (part engine).Sound m (Regime.wellFormed.optional value?) := by
  have hvalue : ∀ {x : Eval Value}, x.Sound m Value.WellFormed →
      x.Sound m (Regime.wellFormed.optional some) := by
    intro x hx hm
    refine ⟨(hx hm).machine, ?_⟩
    rintro v m' hok _ ⟨⟩
    exact (hx hm).returned v m' hok
  cases h with
  | program p => exact hengine.runProgram p m
  | block mode stmts => exact hengine.block mode stmts m
  | stmt mode s => exact (Regime.Course.execStmt mode (Regime.wellFormed_stmt s)).sound hengine
  | expr e => exact hvalue (hengine.eval e m)
  | function name hargs => exact hvalue (hengine.callNamed name fun v hv => hreturned v (hargs v hv))
  | method hreceiver name hargs =>
    exact hvalue (hengine.invokeMethod (hreturned _ hreceiver) name fun v hv =>
      hreturned v (hargs v hv))
  | construct hc hargs =>
    have hcourse := Regime.Course.construct (r := Regime.wellFormed) (hm.names.of_get? hc)
      fun v hv => hreturned v (hargs v hv)
    exact hvalue (hcourse.sound hengine)

theorem Request.Call.wellFormed_receiver {m : Machine} (hm : m.Sound) {returned : List Value}
    (hreturned : ∀ v ∈ returned, v.WellFormed m) {callable : Callable} {owner : Option ClassRef}
    {receiver : Option Value} {args : List Value} {frame : String}
    (h : Request.Call m returned callable owner receiver args frame) :
    ∀ v, receiver = some v → v.WellFormed m := by
  cases h with
  | function => exact hm.values.scope.receiver
  | method hreceiver | init hreceiver =>
    rintro v ⟨⟩
    exact hreturned _ hreceiver

theorem Request.Call.mem_returned {m : Machine} {returned : List Value} {callable : Callable}
    {owner : Option ClassRef} {receiver : Option Value} {args : List Value} {frame : String}
    (h : Request.Call m returned callable owner receiver args frame) : ∀ v ∈ args, v ∈ returned := by
  cases h with
  | function _ hargs | method _ _ hargs | init _ _ hargs => exact hargs

/-! ## Moments are sound -/

/-- All values at the moment are well-formed, and all class names stand for classes. -/
structure Moment.Sound (s : Moment) : Prop where
  machine : s.machine.Sound
  waiting : ∀ scope ∈ s.waiting, scope.AllValues (Value.WellFormed s.machine)
  returned : ∀ v ∈ s.returned, v.WellFormed s.machine

namespace Moment

theorem sound_first (console : Console) (limit : Option Nat) : (first console limit).Sound :=
  ⟨.fresh console limit, nofun, nofun⟩

/-- What waits and what has been returned is good on a machine that has grown. -/
theorem Sound.grow {m m' : Machine} {waiting : List Scope} {returned : List Value}
    (hwaiting : ∀ scope ∈ waiting, scope.AllValues (Value.WellFormed m))
    (hreturned : ∀ v ∈ returned, v.WellFormed m) (hgrows : m.Grows m') (hm' : m'.Sound) :
    Sound ⟨m', waiting, returned⟩ where
  machine := hm'
  waiting scope hscope := (hwaiting scope hscope).imp fun _ hv => hv.mono hgrows
  returned v hv := (hreturned v hv).mono hgrows

/-- What changes neither classes nor instances, and leaves good scopes. -/
theorem Sound.rescope {m m' : Machine} {waiting : List Scope} {returned : List Value}
    (hm : m.Sound) (hclasses : m'.classes = m.classes) (hheap : m'.heap = m.heap)
    (hscope : m'.scope.AllValues (Value.WellFormed m))
    (hwaiting : ∀ scope ∈ waiting, scope.AllValues (Value.WellFormed m))
    (hreturned : ∀ v ∈ returned, v.WellFormed m) :
    m.Grows m' ∧ Sound ⟨m', waiting, returned⟩ := by
  have hgrows : m.Grows m' := .of_eq hclasses hheap
  exact ⟨hgrows, .grow hwaiting hreturned hgrows (hm.rescope hclasses hheap hscope)⟩

/-- **One step** leads from sound moments to sound moments, and lets the machine grow. -/
theorem Next.sound {s s' : Moment} (h : s.Next s') (hs : s.Sound) :
    s.machine.Grows s'.machine ∧ s'.Sound := by
  obtain ⟨hm, hwaiting, hreturned⟩ := hs
  cases h with
  | @answer m m' _ returned _ _ _ h fuel hm' =>
    have hresult := h.sound hm hreturned (Engine.withFuel_sound fuel) hm
    obtain ⟨hgrows, hsound⟩ := hresult.machine m' hm'
    obtain ⟨-, hwaiting', hreturned'⟩ := Sound.grow hwaiting hreturned hgrows hsound
    refine ⟨hgrows, hsound, hwaiting', List.forall_mem_append.mpr ⟨fun v hv => ?_, hreturned'⟩⟩
    exact hresult.wellFormed_value? hm' (Option.mem_toList.mp hv)
  | start =>
    exact Sound.rescope hm rfl rfl (.topLevel (.of_isData .undefined))
      (List.forall_mem_singleton.mpr hm.values.scope) hreturned
  | finish => exact Sound.rescope hm rfl rfl (List.forall_mem_singleton.mp hwaiting) nofun hreturned
  | allocate name h =>
    obtain ⟨hgrows, hsound, hnew⟩ := hm.alloc (hm.names.of_get? h) rfl
    obtain ⟨-, hwaiting', hreturned'⟩ := Sound.grow hwaiting hreturned hgrows hsound
    exact ⟨hgrows, hsound, hwaiting', List.forall_mem_cons.mpr ⟨hnew, hreturned'⟩⟩
  | enter h =>
    -- the scope of a call holds nothing but the receiver, the arguments and the constants
    refine Sound.rescope hm rfl rfl (.ofCall (.of_isData .undefined) (h.wellFormed_receiver hm hreturned)
      fun p hp => ?_) (List.forall_mem_cons.mpr ⟨hm.values.scope, hwaiting⟩) hreturned
    exact hreturned p.2 (h.mem_returned p.2 (List.of_mem_zip hp).2)
  | leave =>
    obtain ⟨hcaller, hwaiting⟩ := List.forall_mem_cons.mp hwaiting
    exact Sound.rescope hm rfl rfl hcaller hwaiting hreturned

/-- **A whole session** is made of such steps. -/
theorem Before.sound {s s' : Moment} (h : s.Before s') (hs : s.Sound) :
    s.machine.Grows s'.machine ∧ s'.Sound := by
  induction h with
  | refl => exact ⟨.refl _, hs⟩
  | tail _ hnext ih =>
    obtain ⟨hgrows, hsound⟩ := ih
    obtain ⟨hgrows', hsound'⟩ := hnext.sound hsound
    exact ⟨hgrows.trans hgrows', hsound'⟩

end Moment

/-- **Well-formed values.** At every moment of a session, all values that are held in a local, a
receiver, a constant, a property, a default or an override, or that have been returned, are
well-formed, and from then on no instance gains or loses a property. -/
theorem values_well_formed {console : Console} {limit : Option Nat} {s : Moment}
    (h : (Moment.first console limit).Before s) :
    s.AllValues (Value.WellFormed s.machine) ∧
    ∀ s', s.Before s' → ∀ loc < s.machine.heap.cells.size,
      (s'.machine.heap.properties loc).keys = (s.machine.heap.properties loc).keys := by
  obtain ⟨-, hsound⟩ := h.sound (Moment.sound_first console limit)
  refine ⟨⟨hsound.machine.values, hsound.waiting, hsound.returned⟩, fun s' hs' => ?_⟩
  exact (hs'.sound hsound).1.keys

/-- A class that takes the name of the built-in class from which it descends. -/
def shadowedInt : Stmt :=
  .classDecl
    { name := "Int"
      parent := some "Int"
      overrides := []
      properties := [⟨"Und", "x", .name "und"⟩]
      methods := [] }

/-- Its instances hold no number, and have the one property that the class declares. -/
theorem values_well_formed_shadowedInt :
    ∃ s, (Moment.first {} none).Before s ∧ s.returned = [⟨.declared 0, .ref 0⟩] ∧
      Value.WellFormed s.machine ⟨.declared 0, .ref 0⟩ ∧
      (s.machine.heap.properties 0).keys = ["x"] := by
  have hstart : (Moment.first {} none).Before ⟨.fresh {} none, [.topLevel], []⟩ := .single .start
  have hdeclared := hstart.tail (.answer (.stmt .topLevel shadowedInt) 5 rfl)
  have hallocated := hdeclared.tail (.allocate "Int" rfl)
  obtain ⟨hvalues, -⟩ := values_well_formed hallocated
  have hvalue := hvalues.returned ⟨.declared 0, .ref 0⟩ List.mem_cons_self
  refine ⟨_, hallocated, rfl, hvalue, ?_⟩
  rw [hvalue.keys 0 rfl, ClassTable.mergedDefaults, ClassTable.ancestors, ClassTable.declaredChain]
  rfl

end FlannelScript
