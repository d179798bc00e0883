import FlannelScript.Proofs.Moments

/-!
# What can happen to a machine

Whatever is run, a machine changes in a few ways only (`Machine.Change`): another scope and other
calls become the active ones, a property is rebound, an instance is added, a line is printed or
read, a class or a function is declared. An evaluation is a sequence of such changes, however it
ends, and so is all that lies between two moments of a session (`Moment.Before.evolves`).

What each change keeps is therefore kept by sessions, and changes are all that has to be looked at.
-/

namespace FlannelScript

open Eval Machine

/-- One change of a machine. -/
inductive Machine.Change : Machine → Machine → Prop where
  /-- the scope and the active calls are others, or the same scope has another local -/
  | activation (m : Machine) (scope : Scope) (calls : CallStack) : Change m { m with scope, calls }
  | setProperty {m : Machine} {loc : Loc} {name : String} {v : Value} {heap : Heap}
      (h : m.heap.set? loc name v = some heap) : Change m { m with heap }
  | newInstance {m : Machine} {c : ClassRef} (hc : m.classes.Known c) :
      Change m { m with heap := (m.heap.alloc (m.classes.mergedDefaults c)).1 }
  | printLine (m : Machine) (line : String) :
      Change m { m with console := m.console.printLine line }
  | readLine (m : Machine) : Change m { m with console := m.console.readLine.2 }
  | declareClass {m : Machine} {d : ClassDecl} {parent : ClassRef}
      {overrides defaults : List (String × Value)} {methods : List (String × Callable)}
      (hparent : m.classes.Known parent)
      (h : m.classes.resolveMethods d.name d.methods = .ok methods) :
      Change m { m with
        classes := m.classes.declare
          ⟨d.name, parent, .ofList overrides, .ofList defaults, .ofList methods⟩ }
  | declareFunction {m : Machine} {d : FunctionDecl} {callable : Callable}
      (h : m.classes.resolveCallable none d = .ok callable) :
      Change m { m with functions := m.functions.insert d.name callable }

/-- One machine comes from another by changes. -/
abbrev Machine.Evolves : Machine → Machine → Prop := Relation.ReflTransGen Machine.Change

/-! ## Evaluations -/

/-- However it ends, all that the evaluation does to a sound machine are changes. -/
def Eval.Evolves {α : Type} (m : Machine) (x : Eval α) : Prop :=
  m.Sound → ∀ m', (x m).machine? = some m' → m.Evolves m'

namespace Eval.Evolves

variable {α β : Type} {m : Machine}

theorem bind {x : Eval α} {f : α → Eval β} {P : Machine → α → Prop} (hsound : x.Sound m P)
    (hx : x.Evolves m) (hf : ∀ m', m.Grows m' → ∀ a, P m' a → (f a).Evolves m') :
    (x >>= f).Evolves m := by
  intro hm m' hm'
  obtain ⟨hmachine, hreturned⟩ := hsound hm
  have hfirst := hx hm
  rw [bind_apply] at hm'
  generalize x m = r at hmachine hreturned hfirst hm'
  rcases r with ⟨a, m₁⟩ | ⟨e, m₁⟩ | _
  · obtain ⟨hgrows, hm₁⟩ := hmachine m₁ rfl
    exact (hfirst m₁ rfl).trans (hf m₁ hgrows a (hreturned a m₁ rfl) hm₁ m' hm')
  · exact hfirst m' hm'
  · cases hm'

theorem traced {x : Eval α} (hx : x.Evolves m) : (traced x).Evolves m := by
  intro hm m' hm'
  rw [machine?_traced] at hm'
  exact hx hm m' hm'

/-- What only looks at the machine. -/
theorem of_eq {x : Eval α} (h : (x m).machine? = some m) : x.Evolves m := by
  rintro - m' hm'
  rw [h] at hm'
  cases hm'
  exact .refl

theorem orRaise {y : Machine → Option α} {f : Machine → Fault} :
    Eval.Evolves m fun m => Eval.orRaise (y m) (f m) m := by
  refine of_eq ?_
  cases y m <;> rfl

theorem assign (name : String) (v : Value) : (Machine.assign name v).Evolves m := by
  rintro - m' hm'
  rcases assign_cases name v m with hok | ⟨loc, heap, -, hset, hok⟩ | herror
  · rw [hok] at hm'
    cases hm'
    exact .single (.activation m _ m.calls)
  · rw [hok] at hm'
    cases hm'
    exact .single (.setProperty hset)
  · rw [herror] at hm'
    cases hm'
    exact .refl

theorem readLine : Machine.readLine.Evolves m := by
  rintro - m' hm'
  rw [Machine.readLine] at hm'
  dsimp only at hm'
  split at hm' <;> cases hm' <;> exact .single (.readLine m)

theorem registerClass (d : ClassDecl) {parent : ClassRef} (hparent : m.classes.Known parent)
    (overrides defaults : List (String × Value)) :
    (Engine.registerClass d parent overrides defaults).Evolves m := by
  rintro - m' hm'
  rw [Engine.registerClass_apply] at hm'
  cases hmethods : m.classes.resolveMethods d.name d.methods with
  | error f =>
    rw [hmethods] at hm'
    cases hm'
    exact .refl
  | ok methods =>
    rw [hmethods] at hm'
    cases hm'
    exact .single (.declareClass hparent hmethods)

theorem declareFunction (d : FunctionDecl) : (Engine.declareFunction d).Evolves m := by
  rintro - m' hm'
  rw [Engine.declareFunction_apply] at hm'
  cases hcallable : m.classes.resolveCallable none d with
  | error f =>
    rw [hcallable] at hm'
    cases hm'
    exact .refl
  | ok callable =>
    rw [hcallable] at hm'
    cases hm'
    exact .single (.declareFunction hcallable)

end Eval.Evolves

/-! ## Calls -/

/-- All that the engine does to sound machines are changes. -/
structure Engine.Evolves (engine : Engine) : Prop where
  eval : ∀ e m, (engine.eval e).Evolves m
  block : ∀ mode stmts m, (engine.block mode stmts).Evolves m
  body : ∀ stmts m, (engine.body stmts).Evolves m
  loop : ∀ mode condition body m, (engine.loop mode condition body).Evolves m

/-- A call starts on a sound machine. -/
theorem Machine.Sound.enter {m : Machine} (hm : m.Sound) (callable : Callable)
    {receiver : Option Value} (hreceiver : ∀ v, receiver = some v → v.WellFormed m)
    {args : List Value} (hargs : ∀ v ∈ args, v.WellFormed m) (calls : CallStack) :
    (Engine.enter callable receiver args calls m).Sound :=
  hm.rescope rfl rfl (.ofCall (.of_isData .undefined) hreceiver fun p hp =>
    hargs p.2 (List.of_mem_zip hp).2)

namespace Engine.Evolves

variable {engine : Engine} {m : Machine}

theorem invoke (h : engine.Evolves) (callable : Callable) (owner : Option ClassRef)
    {receiver : Option Value} (hreceiver : ∀ v, receiver = some v → v.WellFormed m)
    {args : List Value} (hargs : ∀ v ∈ args, v.WellFormed m) (frame : String) :
    (engine.invoke callable owner receiver args frame).Evolves m := by
  intro hm m' hm'
  cases hcall : checkCall callable owner args frame m with
  | error f =>
    rw [engine.invoke_of_error receiver hcall] at hm'
    cases hm'
    exact .refl
  | ok calls =>
    rw [engine.invoke_of_ok receiver hcall, Result.machine?_map, Option.map_eq_some_iff] at hm'
    obtain ⟨inner, hinner, rfl⟩ := hm'
    have henter : m.Evolves (enter callable receiver args calls m) :=
      .single (.activation m _ calls)
    have hbody := h.body callable.body _ (hm.enter callable hreceiver hargs calls) inner hinner
    exact (henter.trans hbody).tail (.activation inner m.scope inner.calls.pop)

theorem callNamed (h : engine.Evolves) (function : String) {args : List Value}
    (hargs : ∀ v ∈ args, v.WellFormed m) : (engine.callNamed function args).Evolves m := by
  intro hm m' hm'
  rw [callNamed_apply] at hm'
  cases hfunction : m.functions.get? function with
  | none =>
    rw [hfunction] at hm'
    cases hm'
    exact .refl
  | some callable =>
    rw [hfunction] at hm'
    exact h.invoke callable none hm.values.scope.receiver hargs _ hm m' hm'

theorem invokeMethod (h : engine.Evolves) {receiver : Value} (hreceiver : receiver.WellFormed m)
    (method : String) {args : List Value} (hargs : ∀ v ∈ args, v.WellFormed m) :
    (engine.invokeMethod receiver method args).Evolves m := by
  intro hm m' hm'
  rw [invokeMethod_apply] at hm'
  rcases hmethod : m.classes.resolveMethod? receiver.cls method with _ | ⟨owner, callable⟩ | b <;>
    rw [hmethod] at hm'
  · cases hm'
    exact .refl
  · refine h.invoke callable (some owner) ?_ hargs _ hm m' hm'
    rintro v ⟨⟩
    exact hreceiver
  · dsimp only at hm'
    cases hresult : m.classes.callBuiltin b receiver method args <;> rw [hresult] at hm' <;>
      cases hm' <;> exact .refl

theorem constructDeclared (h : engine.Evolves) (hsound : engine.Sound) {id : Nat}
    (hc : m.classes.Known (.declared id)) {args : List Value} (hargs : ∀ v ∈ args, v.WellFormed m) :
    (engine.constructDeclared (.declared id) args).Evolves m := by
  intro hm m' hm'
  rw [constructDeclared_apply] at hm'
  obtain ⟨hgrows, hplaced, hnew⟩ := hm.alloc hc rfl
  have hfirst : m.Evolves { m with
      heap := (m.heap.alloc (m.classes.mergedDefaults (.declared id))).1 } :=
    .single (.newInstance hc)
  refine hfirst.trans ?_
  cases hinit : m.classes.findMethod? (.declared id) initMethod with
  | none =>
    rw [hinit] at hm'
    dsimp only at hm'
    split at hm' <;> cases hm' <;> exact .refl
  | some found =>
    obtain ⟨owner, init⟩ := found
    rw [hinit] at hm'
    have hreceiver : ∀ v, some (Value.mk (.declared id) (.ref m.heap.cells.size)) = some v →
        v.WellFormed { m with
          heap := (m.heap.alloc (m.classes.mergedDefaults (.declared id))).1 } := by
      rintro v ⟨⟩
      exact hnew
    have hargs' := fun v hv => (hargs v hv).mono hgrows
    refine Eval.Evolves.bind (hsound.invoke init (some owner) hreceiver hargs' _)
      (h.invoke init (some owner) hreceiver hargs' _) (fun _ _ _ _ => .of_eq rfl) hplaced m' hm'

end Engine.Evolves

/-! ## The interpreter -/

/-- **One step.** Along a course there are only changes. -/
theorem Regime.Course.evolves {m : Machine} {α : Type} {Q : Machine → α → Prop}
    {part : Engine → Eval α} (h : Regime.wellFormed.Course m Q part) {engine : Engine}
    (hsound : engine.Sound) (hengine : engine.Evolves) : (part engine).Evolves m := by
  induction h with
  | pure | refuse | display => exact .of_eq rfl
  | bind hx _ ihx ihf => exact ihx.bind (hx.sound hsound) ihf
  | resolve | property | lookupClass => exact .orRaise
  | declareLocal =>
    rintro - m' ⟨⟩
    exact .single (.activation _ _ _)
  | assign _ name => exact .assign name _
  | newObject =>
    rintro - m' ⟨⟩
    exact .single (.newInstance (c := .builtin .obj) trivial)
  | printLine line =>
    rintro - m' ⟨⟩
    exact .single (.printLine _ line)
  | readLine => exact .readLine
  | registerClass _ hparent => exact .registerClass _ hparent _ _
  | declareFunction => exact .declareFunction _
  | @eval m e => exact hengine.eval e m
  | @block m stmts mode => exact hengine.block mode stmts m
  | @loop m condition body mode => exact hengine.loop mode condition body m
  | callNamed function hargs => exact hengine.callNamed function hargs
  | invokeMethod hreceiver method hargs => exact hengine.invokeMethod hreceiver method hargs
  | constructDeclared hc hargs => exact hengine.constructDeclared hsound hc hargs

/-- **All that the interpreter does to machines are changes.** -/
theorem Engine.withFuel_evolves (n : Nat) : (withFuel n).Evolves := by
  induction n with
  | zero => exact ⟨fun _ _ _ => nofun, fun _ _ _ _ => nofun, fun _ _ _ => nofun,
      fun _ _ _ _ _ => nofun⟩
  | succ n ih =>
    have hsound := withFuel_sound n
    have hblock : ∀ mode stmts m, ((withFuel n).execBlock mode stmts).Evolves m :=
      fun mode stmts m =>
        (Regime.Course.execBlock mode fun s _ => Regime.wellFormed_stmt s).evolves hsound ih
    rw [withFuel_succ]
    refine ⟨fun e m => ?_, hblock, fun stmts m => (hblock .inFunction stmts m).traced,
      fun mode condition body m => ?_⟩
    · exact (Regime.Course.evalExpr fun _ _ => trivial).evolves hsound ih
    · exact (Regime.Course.loopStep mode trivial trivial trivial).evolves hsound ih

/-! ## Sessions -/

theorem Engine.Evolves.runProgram {engine : Engine} (h : engine.Evolves) (p : Program)
    (m : Machine) : (engine.runProgram p).Evolves m := by
  intro hm m' hm'
  rw [Engine.runProgram, Result.machine?_map, Option.map_eq_some_iff] at hm'
  obtain ⟨inner, hinner, rfl⟩ := hm'
  have hstart : m.Evolves { m with scope := .topLevel } := .single (.activation m _ m.calls)
  have hinside : Machine.Sound { m with scope := .topLevel } :=
    hm.rescope rfl rfl (.topLevel (.of_isData .undefined))
  have hblock := h.block .topLevel p.statements _ hinside inner hinner
  exact (hstart.trans hblock).tail (.activation inner m.scope inner.calls)

theorem Request.evolves {m : Machine} (hm : m.Sound) {returned : List Value}
    (hreturned : ∀ v ∈ returned, v.WellFormed m) {α : Type} {value? : α → Option Value}
    {part : Engine → Eval α} (h : Request m returned value? part) {engine : Engine}
    (hsound : engine.Sound) (hengine : engine.Evolves) : (part engine).Evolves m := by
  cases h with
  | program p => exact hengine.runProgram p m
  | block mode stmts => exact hengine.block mode stmts m
  | stmt mode s =>
    exact (Regime.Course.execStmt mode (Regime.wellFormed_stmt s)).evolves hsound hengine
  | expr e => exact hengine.eval e m
  | function name hargs => exact hengine.callNamed name fun v hv => hreturned v (hargs v hv)
  | method hreceiver name hargs =>
    exact hengine.invokeMethod (hreturned _ hreceiver) name fun v hv => hreturned v (hargs v hv)
  | construct hc hargs =>
    have hcourse := Regime.Course.construct (r := Regime.wellFormed) (hm.names.of_get? hc)
      fun v hv => hreturned v (hargs v hv)
    exact hcourse.evolves hsound hengine

namespace Moment

/-- **One step** of a session is a sequence of changes. -/
theorem Next.evolves {s s' : Moment} (h : s.Next s') (hs : s.Sound) :
    s.machine.Evolves s'.machine := by
  obtain ⟨hm, -, hreturned⟩ := hs
  cases h with
  | answer h fuel hm' =>
    exact h.evolves hm hreturned (Engine.withFuel_sound fuel) (Engine.withFuel_evolves fuel) hm _ hm'
  | @start m => exact .single (.activation m _ m.calls)
  | @finish m => exact .single (.activation m _ m.calls)
  | allocate name h => exact .single (.newInstance (hm.names.of_get? h))
  | @enter m _ _ _ _ _ _ _ calls => exact .single (.activation m _ calls)
  | @leave m => exact .single (.activation m _ m.calls.pop)

/-- **A whole session** is a sequence of changes. -/
theorem Before.evolves {s s' : Moment} (h : s.Before s') (hs : s.Sound) :
    s.machine.Evolves s'.machine := by
  induction h with
  | refl => exact .refl
  | tail hbefore hnext ih => exact ih.trans (hnext.evolves (Before.sound hbefore hs).2)

end Moment

end FlannelScript
