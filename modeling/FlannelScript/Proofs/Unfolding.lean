import FlannelScript.Proofs.Scenes

/-!
# Runs unfold into scenes

All that the interpreter does are steps from scene to scene (`Eval.Unfolds`), and of an interpreter
that stops at assignments that are not permitted it is known which assignments there can be in these
steps: permitted ones only (`Engine.permitting_unfolds`).

That the scenes are those of the run is shown by an observer who checks the machine before and after
every expression, statement list, body and loop (`Watch.inspect`): whatever is checked, if it holds
at all scenes, the observed interpreter gives the same results (`Watch.agreeFrom_inspect`).
-/

namespace FlannelScript

open Eval Machine

variable {permitted : Assignment → Bool}

/-! ## Evaluations unfold into steps -/

/-- What may be passed on at a scene: instances of the classes from which they were made, plain
data, and classes that exist. -/
def Regime.scenes (permitted : Assignment → Bool) : Regime Scene where
  le := Scene.Before permitted
  le_refl _ := .refl
  le_trans := .trans
  value s := Value.OfKind s.kinds
  value_mono h hv := hv.mono h.grows.2
  value_of_isData _ _ hv := .of_isData hv
  cls s := s.machine.classes.Known
  cls_mono h hc := hc.mono h.grows.1
  cls_builtin _ _ := trivial
  expr _ := True
  block _ := True
  loop _ _ := True
  classDecl _ := True
  functionDecl _ := True
  assigns := False

theorem Regime.scenes_stmt (permitted : Assignment → Bool) {s : Stmt}
    (hs : ∀ name value, s ≠ .assign name value) : (Regime.scenes permitted).stmt s :=
  stmt_of_forall _ (fun _ => trivial) (fun _ => trivial) (fun _ _ => trivial) (fun _ => trivial)
    (fun _ => trivial) fun name value h => hs name value h

/-- The result has been reached by steps from a scene. The same scopes are waiting at the end, and
what is returned is good there. -/
inductive Result.Unfolds (permitted : Assignment → Bool) {α : Type} (s : Scene)
    (Q : Scene → α → Prop) : Result α → Prop where
  | ok {a : α} {s' : Scene} (h : s.Before permitted s') (hwaiting : s'.waiting = s.waiting)
      (ha : Q s' a) : Unfolds permitted s Q (.ok a s'.machine)
  | error {e : EvalError} {s' : Scene} (h : s.Before permitted s')
      (hwaiting : s'.waiting = s.waiting) : Unfolds permitted s Q (.error e s'.machine)
  | outOfFuel : Unfolds permitted s Q .outOfFuel

/-- From a scene, if that is sealed, the evaluation unfolds into steps. -/
def Eval.Unfolds (permitted : Assignment → Bool) {α : Type} (s : Scene) (Q : Scene → α → Prop)
    (x : Eval α) : Prop :=
  s.Sealed → (x s.machine).Unfolds permitted s Q

namespace Result.Unfolds

variable {α β : Type} {s s₁ : Scene} {P : Scene → α → Prop} {Q : Scene → β → Prop} {r : Result α}

theorem after (h : s.Before permitted s₁) (hwaiting : s₁.waiting = s.waiting)
    (hr : r.Unfolds permitted s₁ P) : r.Unfolds permitted s P := by
  cases hr with
  | ok h' hwaiting' ha => exact .ok (h.trans h') (hwaiting'.trans hwaiting) ha
  | error h' hwaiting' => exact .error (h.trans h') (hwaiting'.trans hwaiting)
  | outOfFuel => exact .outOfFuel

/-- What has been done in a scope of its own, when that is left and the scope before is back. -/
theorem back {outer : Scope} {f : α → β} {g : Machine → Machine}
    (h : s.Before permitted s₁) (hwaiting : s₁.waiting = outer :: s.waiting)
    (hr : r.Unfolds permitted s₁ P)
    (hback : ∀ m kinds,
      Scene.Step permitted ⟨m, outer :: s.waiting, kinds⟩ ⟨g m, s.waiting, kinds⟩)
    (hvalue : ∀ a m waiting kinds, P ⟨m, waiting, kinds⟩ a → Q ⟨g m, s.waiting, kinds⟩ (f a)) :
    (r.map f g).Unfolds permitted s Q := by
  have hend : ∀ s₂ : Scene, s₁.Before permitted s₂ → s₂.waiting = s₁.waiting →
      s.Before permitted ⟨g s₂.machine, s.waiting, s₂.kinds⟩ := by
    rintro ⟨m, _, kinds⟩ h' rfl
    refine (h.trans h').tail ?_
    rw [hwaiting]
    exact hback m kinds
  cases hr with
  | @ok a s₂ h' hwaiting' ha => exact .ok (hend s₂ h' hwaiting') rfl (hvalue a _ _ _ ha)
  | @error e s₂ h' hwaiting' => exact .error (hend s₂ h' hwaiting') rfl
  | outOfFuel => exact .outOfFuel

end Result.Unfolds

namespace Eval.Unfolds

variable {α β : Type} {s s' : Scene} {P : Scene → α → Prop} {Q : Scene → β → Prop}

theorem bind {x : Eval α} {f : α → Eval β} (hx : x.Unfolds permitted s P)
    (hf : ∀ s', s.Before permitted s' → ∀ a, P s' a → (f a).Unfolds permitted s' Q) :
    (x >>= f).Unfolds permitted s Q := by
  intro hs
  have hfirst := hx hs
  rw [bind_apply]
  generalize x s.machine = r at hfirst
  cases hfirst with
  | @ok a s₁ h hwaiting ha => exact .after h hwaiting (hf s₁ h a ha (h.sealed hs))
  | error h hwaiting => exact .error h hwaiting
  | outOfFuel => exact .outOfFuel

/-- Continuations that do the same at all scenes at which they can start are interchangeable. -/
theorem bind_congr {x y : Eval α} {f g : α → Eval β} (hy : y.Unfolds permitted s P) (hs : s.Sealed)
    (hx : x s.machine = y s.machine)
    (hf : ∀ s', s.Before permitted s' → ∀ a, P s' a → f a s'.machine = g a s'.machine) :
    (x >>= f) s.machine = (y >>= g) s.machine := by
  have hfirst := hy hs
  rw [bind_apply, bind_apply, hx]
  generalize y s.machine = r at hfirst
  cases hfirst with
  | @ok a s₁ h _ ha => exact hf s₁ h a ha
  | error | outOfFuel => rfl

theorem traced {x : Eval α} (hx : x.Unfolds permitted s P) : (traced x).Unfolds permitted s P := by
  intro hs
  have hbody := hx hs
  rw [Eval.traced]
  generalize x s.machine = r at hbody
  cases hbody with
  | ok h hwaiting ha => exact .ok h hwaiting ha
  | error h hwaiting => exact .error h hwaiting
  | outOfFuel => exact .outOfFuel

theorem pure {a : α} (ha : P s a) : (Pure.pure a : Eval α).Unfolds permitted s P :=
  fun _ => .ok .refl rfl ha

theorem orRaise {y : Machine → Option α} {f : Machine → Fault}
    (h : s.Sealed → ∀ a, y s.machine = some a → P s a) :
    Eval.Unfolds permitted s P fun m => Eval.orRaise (y m) (f m) m := by
  intro hs
  dsimp only
  cases hy : y s.machine with
  | none => exact .error .refl rfl
  | some a => exact .ok .refl rfl (h hs a hy)

/-- One step that succeeds. -/
theorem step {x : Eval α} {a : α} (h : s.Step permitted s') (hwaiting : s'.waiting = s.waiting)
    (hx : x s.machine = .ok a s'.machine) (ha : P s' a) : x.Unfolds permitted s P := by
  intro _
  rw [hx]
  exact .ok (.single h) hwaiting ha

/-- Of the assignments only those that are permitted are carried out. -/
theorem assignIf (f : Fault) (name : String) {v : Value} (hv : v.OfKind s.kinds) :
    (Machine.assignIf permitted f name v).Unfolds permitted s Regime.anything := by
  intro hs
  rw [Machine.assignIf]
  cases hpermitted : permitted ⟨s.machine, name, v⟩ with
  | false => exact .error .refl rfl
  | true =>
    rw [if_pos rfl]
    cases hassign : assign name v s.machine with
    | ok u m' => exact .ok (.single (.assign hpermitted hv hassign)) rfl trivial
    | error e m' =>
      rcases assign_cases name v s.machine with hok | ⟨loc, heap, -, -, hok⟩ | herror
      · cases hok.symm.trans hassign
      · cases hok.symm.trans hassign
      · cases herror.symm.trans hassign
        exact .error .refl rfl
    | outOfFuel => exact .outOfFuel

theorem readLine : Machine.readLine.Unfolds permitted s Regime.anything := by
  intro _
  have hstep : s.Before permitted
      ⟨{ s.machine with console := s.machine.console.readLine.2 }, s.waiting, s.kinds⟩ :=
    .single .readLine
  rw [Machine.readLine]
  dsimp only
  split
  · exact .ok hstep rfl trivial
  · exact .error hstep rfl
  · exact .error hstep rfl

theorem registerClass (d : ClassDecl) {parent : ClassRef}
    {overrides defaults : List (String × Value)} (hparent : s.machine.classes.Known parent)
    (hoverrides : ∀ p ∈ overrides, p.2.OfKind s.kinds)
    (hdefaults : ∀ p ∈ defaults, p.2.OfKind s.kinds) :
    (Engine.registerClass d parent overrides defaults).Unfolds permitted s Regime.anything := by
  intro _
  rw [Engine.registerClass_apply]
  cases hmethods : s.machine.classes.resolveMethods d.name d.methods with
  | error f => exact .error .refl rfl
  | ok methods =>
    have hstep : s.Step permitted ⟨{ s.machine with
        classes := s.machine.classes.declare
          ⟨d.name, parent, .ofList overrides, .ofList defaults, .ofList methods⟩ },
        s.waiting, s.kinds⟩ := .declareClass hparent hoverrides hdefaults hmethods
    exact .ok (.single hstep) rfl trivial

theorem declareFunction (d : FunctionDecl) :
    (Engine.declareFunction d).Unfolds permitted s Regime.anything := by
  intro _
  rw [Engine.declareFunction_apply]
  cases hcallable : s.machine.classes.resolveCallable none d with
  | error f => exact .error .refl rfl
  | ok callable =>
    have hstep : s.Step permitted
        ⟨{ s.machine with functions := s.machine.functions.insert d.name callable }, s.waiting,
          s.kinds⟩ := .declareFunction hcallable
    exact .ok (.single hstep) rfl trivial

end Eval.Unfolds

/-! ## Calls -/

/-- All that the engine does unfolds into steps. -/
structure Engine.Unfolds (permitted : Assignment → Bool) (engine : Engine) : Prop where
  eval : ∀ e s, (engine.eval e).Unfolds permitted s (Regime.scenes permitted).value
  block : ∀ mode stmts s, (engine.block mode stmts).Unfolds permitted s
    ((Regime.scenes permitted).optional BlockExit.value?)
  body : ∀ stmts s, (engine.body stmts).Unfolds permitted s
    ((Regime.scenes permitted).optional BlockExit.value?)
  loop : ∀ mode condition body s, (engine.loop mode condition body).Unfolds permitted s
    ((Regime.scenes permitted).optional Flow.value?)

namespace Engine.Unfolds

variable {engine : Engine} {s : Scene}

/-- A call is entered and left, and what is done in it is done between the two. -/
theorem invoke (h : engine.Unfolds permitted) {callable : Callable} {owner : Option ClassRef}
    {receiver : Option Value} {frame : String}
    (hcall : Scene.Call s.machine s.kinds callable owner receiver frame) {args : List Value}
    (hargs : ∀ v ∈ args, v.OfKind s.kinds) :
    (engine.invoke callable owner receiver args frame).Unfolds permitted s
      (Regime.scenes permitted).value := by
  intro hs
  cases hcheck : checkCall callable owner args frame s.machine with
  | error f =>
    rw [engine.invoke_of_error receiver hcheck]
    exact .error .refl rfl
  | ok calls =>
    rw [engine.invoke_of_ok receiver hcheck]
    have hstep : s.Step permitted
        ⟨enter callable receiver args calls s.machine, s.machine.scope :: s.waiting, s.kinds⟩ :=
      .enter hcall hargs hcheck
    refine .back (.single hstep) rfl (h.body callable.body _ (hstep.sealed hs))
      (fun _ _ => .leave) fun exit m waiting kinds hexit => ?_
    cases exit with
    | completed => exact (Regime.scenes permitted).value_of_isData _ .undefined
    | returned v | halted v => exact hexit v rfl

theorem callNamed (h : engine.Unfolds permitted) (function : String) {args : List Value}
    (hargs : ∀ v ∈ args, v.OfKind s.kinds) :
    (engine.callNamed function args).Unfolds permitted s (Regime.scenes permitted).value := by
  intro hs
  rw [callNamed_apply]
  cases hfunction : s.machine.functions.get? function with
  | none => exact .error .refl rfl
  | some callable => exact h.invoke (.function hfunction) hargs hs

theorem invokeMethod (h : engine.Unfolds permitted) {receiver : Value}
    (hreceiver : receiver.OfKind s.kinds) (method : String) {args : List Value} (hargs : ∀ v ∈ args, v.OfKind s.kinds) :
    (engine.invokeMethod receiver method args).Unfolds permitted s
      (Regime.scenes permitted).value := by
  intro hs
  rw [invokeMethod_apply]
  rcases hmethod : s.machine.classes.resolveMethod? receiver.cls method with
    _ | ⟨owner, callable⟩ | b
  · exact .error .refl rfl
  · exact h.invoke (.method hreceiver hmethod) hargs hs
  · dsimp only
    cases hresult : s.machine.classes.callBuiltin b receiver method args with
    | error f => exact .error .refl rfl
    | ok v => exact .ok .refl rfl (.of_isData (ClassTable.isData_of_callBuiltin hresult))

/-- A new instance is of the class from which it is made. -/
theorem newInstance (hs : s.Sealed) {c : ClassRef} (hc : s.machine.classes.Known c) :
    s.Step permitted ⟨{ s.machine with
        heap := (s.machine.heap.alloc (s.machine.classes.mergedDefaults c)).1 },
      s.waiting, s.kinds ++ [c]⟩ ∧
    Value.OfKind (s.kinds ++ [c]) ⟨c, .ref s.machine.heap.cells.size⟩ := by
  refine ⟨.newInstance hc, ?_⟩
  change (s.kinds ++ [c])[s.machine.heap.cells.size]? = some c
  rw [← hs.size]
  exact List.getElem?_concat_length

theorem constructDeclared (h : engine.Unfolds permitted) {id : Nat}
    (hc : s.machine.classes.Known (.declared id)) {args : List Value}
    (hargs : ∀ v ∈ args, v.OfKind s.kinds) :
    (engine.constructDeclared (.declared id) args).Unfolds permitted s
      (Regime.scenes permitted).value := by
  intro hs
  rw [constructDeclared_apply]
  obtain ⟨hstep, hfresh⟩ := newInstance hs hc
  cases hinit : s.machine.classes.findMethod? (.declared id) initMethod with
  | none =>
    dsimp only
    split
    · exact .ok (.single hstep) rfl hfresh
    · exact .error (.single hstep) rfl
  | some found =>
    -- `init` runs with the new instance in place
    obtain ⟨owner, init⟩ := found
    refine .after (.single hstep) rfl (Eval.Unfolds.bind (h.invoke (.init hfresh hinit) ?_)
      (fun s' hs' _ _ => .pure (hfresh.mono hs'.grows.2)) (hstep.sealed hs))
    exact fun v hv => (hargs v hv).mono (List.prefix_append _ _)

theorem runProgram (h : engine.Unfolds permitted) (p : Program) :
    (engine.runProgram p).Unfolds permitted s Regime.anything := by
  intro hs
  have hstep : s.Step permitted
      ⟨{ s.machine with scope := .topLevel }, s.machine.scope :: s.waiting, s.kinds⟩ := .start
  exact .back (.single hstep) rfl (h.block .topLevel p.statements _ (hstep.sealed hs))
    (fun _ _ => .finish) fun _ _ _ _ _ => trivial

end Engine.Unfolds

/-! ## The interpreter -/

/-- **One layer.** Along a course there are only steps. -/
theorem Regime.Course.unfolds {s : Scene} {α : Type} {Q : Scene → α → Prop} {part : Engine → Eval α}
    (h : (Regime.scenes permitted).Course s Q part) {engine : Engine}
    (hengine : engine.Unfolds permitted) :
    (part engine).Unfolds permitted s Q := by
  induction h with
  | pure ha => exact .pure ha
  | bind _ _ ihx ihf => exact ihx.bind ihf
  | refuse => exact fun _ => .error .refl rfl
  | resolve name => exact .orRaise fun hs v hv => hs.scope.values.of_resolve? hs.properties hv
  | property _ name =>
    refine .orRaise fun hs v hv => ?_
    obtain ⟨loc, -, hget⟩ := Option.bind_eq_some_iff.mp hv
    exact Heap.of_get? hs.properties hget
  | lookupClass name => exact .orRaise fun hs c hc => hs.names.of_get? hc
  | display v => exact fun _ => .ok .refl rfl trivial
  | declareLocal name hv => exact .step (.declareLocal name hv) rfl rfl trivial
  | assign hassigns => exact hassigns.elim
  | newObject =>
    intro hs
    obtain ⟨hstep, hfresh⟩ := Engine.Unfolds.newInstance hs (c := .builtin .obj) trivial
    exact .ok (.single hstep) rfl hfresh
  | printLine line => exact .step (.printLine line) rfl rfl trivial
  | readLine => exact .readLine
  | registerClass _ hparent hoverrides hdefaults =>
    exact .registerClass _ hparent hoverrides hdefaults
  | declareFunction => exact .declareFunction _
  | @eval s e => exact hengine.eval e s
  | @block s stmts mode => exact hengine.block mode stmts s
  | @loop s condition body mode => exact hengine.loop mode condition body s
  | callNamed function hargs => exact hengine.callNamed function hargs
  | invokeMethod hreceiver method hargs => exact hengine.invokeMethod hreceiver method hargs
  | constructDeclared hc hargs => exact hengine.constructDeclared hc hargs

/-- **Statement lists.** What is assigned in them is permitted. -/
theorem Engine.Unfolds.execBlockBy {engine : Engine} (h : engine.Unfolds permitted) (f : Fault)
    (mode : Mode) (stmts : List Stmt) (s : Scene) :
    (engine.execBlockBy (assignIf permitted f) mode stmts).Unfolds permitted s
      ((Regime.scenes permitted).optional BlockExit.value?) := by
  induction stmts generalizing s with
  | nil => exact .pure nofun
  | cons stmt rest ih =>
    rcases stmt.assign_or with ⟨name, value, rfl⟩ | hstmt
    · exact (h.eval value s).bind fun s₁ _ v hv =>
        (Eval.Unfolds.assignIf f name hv).bind fun s₂ _ _ _ => ih s₂
    · rw [execBlockBy_cons engine mode _ hstmt]
      have hfirst := Regime.Course.execBlock (w := s) mode
        (List.forall_mem_singleton.mpr (Regime.scenes_stmt permitted hstmt))
      refine (hfirst.unfolds h).bind fun s₁ _ exit hexit => ?_
      cases exit with
      | completed => exact ih s₁
      | returned v | halted v => exact .pure hexit

/-- Raise an alarm if a check fails before or after an evaluation. -/
def Eval.inspected {α : Type} (check : Machine → Bool) (alarm : EvalError) (x : Eval α) : Eval α :=
  fun m =>
    if check m then
      match x m with
      | .ok a m' => if check m' then .ok a m' else .error alarm m'
      | .error e m' => if check m' then .error e m' else .error alarm m'
      | .outOfFuel => .outOfFuel
    else .error alarm m

/-- Have machines checked all the way. -/
def Watch.inspect (check : Machine → Bool) (alarm : EvalError) : Watch where
  run part engine := inspected check alarm (part engine)
  leave := traced

/-- Two evaluations do the same at all scenes from a given one on. -/
def Eval.AgreeFrom (permitted : Assignment → Bool) (start : Scene) {α : Type} (x y : Eval α) :
    Prop :=
  ∀ s, start.Before permitted s → x s.machine = y s.machine

/-- Two engines do the same at all scenes from a given one on. -/
abbrev Engine.AgreeFrom (permitted : Assignment → Bool) (start : Scene) (engine engine' : Engine) :
    Prop :=
  engine.Related (Eval.AgreeFrom permitted start) (Eval.AgreeFrom permitted start) engine'

namespace Eval.AgreeFrom

variable {start : Scene} {α : Type} {x y : Eval α}

theorem traced (h : x.AgreeFrom permitted start y) :
    (traced x).AgreeFrom permitted start (Eval.traced y) := by
  intro s hs
  rw [Eval.traced, Eval.traced, h s hs]

/-- A check that holds at all scenes does not change an evaluation that unfolds into steps. -/
theorem inspected (h : x.AgreeFrom permitted start y) (hstart : start.Sealed) {Q : Scene → α → Prop}
    (hy : ∀ s, y.Unfolds permitted s Q) {check : Machine → Bool}
    (hcheck : ∀ s, start.Before permitted s → check s.machine = true) (alarm : EvalError) :
    (inspected check alarm x).AgreeFrom permitted start y := by
  intro s hs
  rw [Eval.inspected, if_pos (hcheck s hs), h s hs]
  have hend := hy s (hs.sealed hstart)
  generalize y s.machine = r at hend
  cases hend with
  | @ok a s' hbefore => exact if_pos (hcheck s' (hs.trans hbefore))
  | @error e s' hbefore => exact if_pos (hcheck s' (hs.trans hbefore))
  | outOfFuel => rfl

end Eval.AgreeFrom

namespace Engine.AgreeFrom

variable {start s : Scene} {engine engine' : Engine}

variable (h : engine.AgreeFrom permitted start engine') (hs : start.Before permitted s)
include h hs

theorem invoke {callable : Callable} {owner : Option ClassRef} {receiver : Option Value}
    {frame : String} (hcall : Scene.Call s.machine s.kinds callable owner receiver frame)
    {args : List Value} (hargs : ∀ v ∈ args, v.OfKind s.kinds) :
    engine.invoke callable owner receiver args frame s.machine =
      engine'.invoke callable owner receiver args frame s.machine := by
  cases hcheck : checkCall callable owner args frame s.machine with
  | error f => rw [engine.invoke_of_error receiver hcheck, engine'.invoke_of_error receiver hcheck]
  | ok calls =>
    have hstep : s.Step permitted
        ⟨enter callable receiver args calls s.machine, s.machine.scope :: s.waiting, s.kinds⟩ :=
      .enter hcall hargs hcheck
    rw [engine.invoke_of_ok receiver hcheck, engine'.invoke_of_ok receiver hcheck]
    exact congrArg (Result.map _ _) (h.body callable.body _ (hs.tail hstep))

theorem callNamed (function : String) {args : List Value} (hargs : ∀ v ∈ args, v.OfKind s.kinds) :
    engine.callNamed function args s.machine = engine'.callNamed function args s.machine := by
  rw [callNamed_apply, callNamed_apply]
  cases hfunction : s.machine.functions.get? function with
  | none => rfl
  | some callable => exact h.invoke hs (.function hfunction) hargs

theorem invokeMethod {receiver : Value} (hreceiver : receiver.OfKind s.kinds) (method : String)
    {args : List Value} (hargs : ∀ v ∈ args, v.OfKind s.kinds) :
    engine.invokeMethod receiver method args s.machine =
      engine'.invokeMethod receiver method args s.machine := by
  rw [invokeMethod_apply, invokeMethod_apply]
  rcases hmethod : s.machine.classes.resolveMethod? receiver.cls method with
    _ | ⟨owner, callable⟩ | b
  · rfl
  · exact h.invoke hs (.method hreceiver hmethod) hargs
  · rfl

theorem constructDeclared (hstart : start.Sealed) {id : Nat}
    (hc : s.machine.classes.Known (.declared id)) {args : List Value}
    (hargs : ∀ v ∈ args, v.OfKind s.kinds) :
    engine.constructDeclared (.declared id) args s.machine =
      engine'.constructDeclared (.declared id) args s.machine := by
  rw [constructDeclared_apply, constructDeclared_apply]
  obtain ⟨hstep, hfresh⟩ := Engine.Unfolds.newInstance (hs.sealed hstart) hc
  cases hinit : s.machine.classes.findMethod? (.declared id) initMethod with
  | none => rfl
  | some found =>
    obtain ⟨owner, init⟩ := found
    have hargs' := fun v hv => (hargs v hv).mono (List.prefix_append s.kinds [.declared id])
    have hsame := h.invoke (hs.tail hstep) (.init hfresh hinit) hargs'
    dsimp only at hsame ⊢
    rw [bind_apply, bind_apply, hsame]

theorem runProgram (p : Program) :
    engine.runProgram p s.machine = engine'.runProgram p s.machine := by
  have hstep : s.Step permitted
      ⟨{ s.machine with scope := .topLevel }, s.machine.scope :: s.waiting, s.kinds⟩ := .start
  exact congrArg (Result.map _ _) (h.block .topLevel p.statements _ (hs.tail hstep))

end Engine.AgreeFrom

section

variable {start : Scene} (hstart : start.Sealed) {engine engine' : Engine}
  (hagree : engine.AgreeFrom permitted start engine') (hunfolds : engine'.Unfolds permitted)
include hstart hagree hunfolds

/-- Along a course, engines cannot be told apart that do the same at all scenes. -/
theorem Regime.Course.agreeFrom {s : Scene} {α : Type} {Q : Scene → α → Prop}
    {part : Engine → Eval α} (h : (Regime.scenes permitted).Course s Q part)
    (hs : start.Before permitted s) : part engine s.machine = part engine' s.machine := by
  induction h with
  | bind hx _ ihx ihf =>
    exact (hx.unfolds hunfolds).bind_congr (hs.sealed hstart) (ihx hs) fun s' hs' a ha =>
      ihf s' hs' a ha (hs.trans hs')
  | @eval s e => exact hagree.eval e s hs
  | @block s stmts mode => exact hagree.block mode stmts s hs
  | @loop s condition body mode => exact hagree.loop mode condition body s hs
  | callNamed function hargs => exact hagree.callNamed hs function hargs
  | invokeMethod hreceiver method hargs => exact hagree.invokeMethod hs hreceiver method hargs
  | constructDeclared hc hargs => exact hagree.constructDeclared hs hstart hc hargs
  | _ => rfl

/-- Nor can they along a statement list. -/
theorem Engine.AgreeFrom.execBlockBy (f : Fault) (mode : Mode) (stmts : List Stmt) :
    (engine.execBlockBy (assignIf permitted f) mode stmts).AgreeFrom permitted start
      (engine'.execBlockBy (assignIf permitted f) mode stmts) := by
  induction stmts with
  | nil => exact fun _ _ => rfl
  | cons stmt rest ih =>
    intro s hs
    rcases stmt.assign_or with ⟨name, value, rfl⟩ | hstmt
    · refine (hunfolds.eval value s).bind_congr (hs.sealed hstart) (hagree.eval value s hs)
        fun s₁ hs₁ v hv => ?_
      have hs₁ : start.Before permitted s₁ := hs.trans hs₁
      exact (Eval.Unfolds.assignIf f name hv).bind_congr (hs₁.sealed hstart) rfl
        fun s₂ hs₂ _ _ => ih s₂ (hs₁.trans hs₂)
    · rw [execBlockBy_cons engine mode _ hstmt, execBlockBy_cons engine' mode _ hstmt]
      have hfirst := Regime.Course.execBlock (w := s) mode
        (List.forall_mem_singleton.mpr (Regime.scenes_stmt permitted hstmt))
      refine (hfirst.unfolds hunfolds).bind_congr (hs.sealed hstart)
        (hfirst.agreeFrom hstart hagree hunfolds hs) fun s₁ hs₁ exit _ => ?_
      cases exit with
      | completed => exact ih s₁ (hs.trans hs₁)
      | returned | halted => rfl

end

end FlannelScript
