import FlannelScript.Proofs.Course
import FlannelScript.Proofs.Balance
import FlannelScript.Proofs.Growth

/-!
# Well-formed values

A value is well-formed on a machine (`Value.WellFormed`) if its class exists, its payload is of the sort
that its class stands for, and the instance it refers to has the properties that its class gives to
instances. Nothing in the types says so; it is an invariant. A machine is sound if all values that it
holds are well-formed and all class names stand for existing classes (`Machine.Sound`).

What is well-formed stays so while classes and instances are added. The values that an evaluation has
at hand, and those of the callers that wait for it, are therefore good for the rest of it: this is what
`Regime.wellFormed` says, with machines for the stages and their growth for the order. That every step
keeps machines sound is left to show, and in particular calls, constructions and declarations of
classes.
-/

namespace FlannelScript

open Eval Machine

/-! ## Values -/

/-- Whether a payload is of the sort that a class stands for: each built-in class has its own, and
values of the root and of declared classes are instances with properties. -/
def ClassRef.carries : ClassRef → Payload → Bool
  | .builtin .obj, .ref _ => true
  | .builtin .und, .undefined => true
  | .builtin .bln, .bool _ => true
  | .builtin .int, .int _ => true
  | .builtin .flt, .float _ => true
  | .builtin .str, .text _ => true
  | .declared _, .ref _ => true
  | _, _ => false

/-- A value of an existing class, with the payload of that class; and if that is an instance, it is
there and has just the properties that the class gives to instances. -/
structure Value.WellFormed (m : Machine) (v : Value) : Prop where
  known : m.classes.Known v.cls
  carries : v.cls.carries v.payload = true
  placed : ∀ loc, v.payload = .ref loc → loc < m.heap.cells.size
  keys : ∀ loc, v.payload = .ref loc →
    (m.heap.properties loc).keys = (m.classes.mergedDefaults v.cls).keys

namespace Value.WellFormed

variable {m m' : Machine} {v : Value}

/-- **What is well-formed stays well-formed.** -/
theorem mono (hv : v.WellFormed m) (h : m.Grows m') : v.WellFormed m' where
  known := hv.known.mono h.classes
  carries := hv.carries
  placed loc hloc := Nat.lt_of_lt_of_le (hv.placed loc hloc) h.size
  keys loc hloc := by
    rw [h.keys loc (hv.placed loc hloc), hv.keys loc hloc, h.classes.mergedDefaults hv.known]

/-- Plain data is well-formed on all machines. -/
theorem of_isData (hv : v.IsData) : v.WellFormed m := by
  cases hv <;> exact ⟨trivial, rfl, nofun, nofun⟩

end Value.WellFormed

/-! ## Machines -/

/-- All values of a scope are good. -/
structure Scope.AllValues (P : Value → Prop) (s : Scope) : Prop where
  locals : s.locals.All P
  receiver : ∀ v, s.receiver = some v → P v
  constants : s.constants.All P

/-- All values that a machine holds are good. -/
structure Machine.AllValues (P : Value → Prop) (m : Machine) : Prop where
  scope : m.scope.AllValues P
  properties : ∀ table ∈ m.heap.cells, table.All P
  overrides : ∀ info ∈ m.classes.classes, info.overrides.All P
  defaults : ∀ info ∈ m.classes.classes, info.defaults.All P

/-- All values on the machine are well-formed, and all class names stand for classes. -/
structure Machine.Sound (m : Machine) : Prop where
  values : m.AllValues (Value.WellFormed m)
  names : m.classes.names.All m.classes.Known

namespace Scope.AllValues

variable {P P' : Value → Prop} {s : Scope}

theorem imp (hs : s.AllValues P) (h : ∀ v, P v → P' v) : s.AllValues P' where
  locals := hs.locals.imp h
  receiver v hv := h v (hs.receiver v hv)
  constants := hs.constants.imp h

theorem globals (h : P .undefined) : Scope.globals.All P :=
  .ofList (List.forall_mem_singleton.mpr h)

theorem topLevel (h : P .undefined) : Scope.topLevel.AllValues P :=
  ⟨.empty, nofun, globals h⟩

theorem ofCall (h : P .undefined) {receiver : Option Value} (hreceiver : ∀ v, receiver = some v → P v)
    {arguments : List (String × Value)} (harguments : ∀ p ∈ arguments, P p.2) :
    (Scope.ofCall receiver arguments).AllValues P :=
  ⟨.ofList harguments, hreceiver, globals h⟩

theorem declare (hs : s.AllValues P) (name : String) {v : Value} (hv : P v) :
    (s.declare name v).AllValues P :=
  ⟨hs.locals.insert name hv, hs.receiver, hs.constants⟩

/-- What a name stands for is held by the scope or is a property. -/
theorem of_resolve? (hs : s.AllValues P) {h : Heap} (hheap : ∀ table ∈ h.cells, table.All P)
    {name : String} {v : Value} (hv : s.resolve? h name = some v) : P v := by
  rw [Scope.resolve?] at hv
  rcases Option.or_eq_some_iff.mp hv with hv | ⟨-, hconstant⟩
  · rcases Option.or_eq_some_iff.mp hv with hlocal | ⟨-, hproperty⟩
    · exact hs.locals.of_get? hlocal
    · obtain ⟨loc, -, hget⟩ := Option.bind_eq_some_iff.mp hproperty
      exact Heap.of_get? hheap hget
  · exact hs.constants.of_get? hconstant

end Scope.AllValues

namespace Machine.Sound

variable {m m' : Machine}

theorem fresh (console : Console) (limit : Option Nat) : (fresh console limit).Sound where
  values := ⟨.topLevel (.of_isData .undefined), nofun, nofun, nofun⟩
  names := .ofList (by
    intro p hp
    obtain ⟨b, -, rfl⟩ := List.mem_map.mp hp
    trivial)

/-- What a machine has is good on a machine that has grown from it; what is new has to be good
there, too. -/
theorem grow (h : m.Sound) (hgrows : m.Grows m') (hscope : m'.scope.AllValues (Value.WellFormed m'))
    (hproperties : ∀ table ∈ m'.heap.cells,
      table ∈ m.heap.cells ∨ table.All (Value.WellFormed m'))
    (hclasses : ∀ info ∈ m'.classes.classes, info ∈ m.classes.classes ∨
      info.overrides.All (Value.WellFormed m') ∧ info.defaults.All (Value.WellFormed m'))
    (hnames : m'.classes.names.All m'.classes.Known) : m'.Sound := by
  have hstays : ∀ v : Value, v.WellFormed m → v.WellFormed m' := fun v hv => hv.mono hgrows
  refine ⟨⟨hscope, fun table htable => ?_, fun info hinfo => ?_, fun info hinfo => ?_⟩, hnames⟩
  · rcases hproperties table htable with hold | hnew
    · exact (h.values.properties table hold).imp hstays
    · exact hnew
  · rcases hclasses info hinfo with hold | ⟨hnew, -⟩
    · exact (h.values.overrides info hold).imp hstays
    · exact hnew
  · rcases hclasses info hinfo with hold | ⟨-, hnew⟩
    · exact (h.values.defaults info hold).imp hstays
    · exact hnew

/-- What changes neither classes nor instances, and leaves a good scope. -/
theorem rescope (h : m.Sound) (hclasses : m'.classes = m.classes) (hheap : m'.heap = m.heap)
    (hscope : m'.scope.AllValues (Value.WellFormed m)) : m'.Sound := by
  have hgrows : m.Grows m' := .of_eq hclasses hheap
  refine h.grow hgrows (hscope.imp fun v hv => hv.mono hgrows) ?_ ?_ ?_
  · rw [hheap]
    exact fun table htable => .inl htable
  · rw [hclasses]
    exact fun info hinfo => .inl hinfo
  · rw [hclasses]
    exact h.names

/-- Rebinding a property. -/
theorem setProperty (h : m.Sound) {loc : Loc} {name : String} {v : Value} (hv : v.WellFormed m)
    {heap : Heap} (hset : m.heap.set? loc name v = some heap) :
    m.Grows { m with heap } ∧ Machine.Sound { m with heap } := by
  have hgrows : m.Grows { m with heap } :=
    ⟨.refl _, Nat.le_of_eq (Heap.size_of_set? hset).symm, fun loc' _ => Heap.keys_of_set? hset loc'⟩
  have hstays : ∀ v : Value, v.WellFormed m → v.WellFormed { m with heap } := fun v hv =>
    hv.mono hgrows
  refine ⟨hgrows, h.grow hgrows (h.values.scope.imp hstays) (fun table htable => .inr ?_)
    (fun info hinfo => .inl hinfo) h.names⟩
  exact (Heap.all_of_set? h.values.properties hv hset table htable).imp hstays

/-- A new instance of a class, with the properties that the class gives to it. -/
theorem alloc (h : m.Sound) {c : ClassRef} (hc : m.classes.Known c)
    (hcarries : c.carries (.ref m.heap.cells.size) = true) :
    let m' := { m with heap := (m.heap.alloc (m.classes.mergedDefaults c)).1 }
    m.Grows m' ∧ m'.Sound ∧ Value.WellFormed m' ⟨c, .ref m.heap.cells.size⟩ := by
  intro m'
  have hsize : m'.heap.cells.size = m.heap.cells.size + 1 := Array.size_push _
  have hgrows : m.Grows m' := by
    refine ⟨.refl _, by omega, fun loc hloc => ?_⟩
    change ((m.heap.alloc (m.classes.mergedDefaults c)).1.properties loc).keys = _
    rw [Heap.properties_alloc, if_neg (Nat.ne_of_lt hloc)]
  have hstays : ∀ v : Value, v.WellFormed m → v.WellFormed m' := fun v hv => hv.mono hgrows
  refine ⟨hgrows, h.grow hgrows (h.values.scope.imp hstays) (fun table htable => ?_)
    (fun info hinfo => .inl hinfo) h.names, hc, hcarries, ?_, ?_⟩
  · rcases Array.mem_push.mp htable with hold | rfl
    · exact .inl hold
    · refine .inr (.imp (ClassTable.all_mergedDefaults (fun info hinfo => ?_) c) hstays)
      exact ⟨h.values.overrides info hinfo, h.values.defaults info hinfo⟩
  · rintro _ ⟨⟩
    exact Nat.lt_of_lt_of_eq (Nat.lt_succ_self _) hsize.symm
  · rintro _ ⟨⟩
    exact congrArg Bindings.keys (Heap.properties_alloc_self m.heap (m.classes.mergedDefaults c))

/-- A new class. -/
theorem declare (h : m.Sound) (info : ClassInfo) (hoverrides : info.overrides.All (Value.WellFormed m))
    (hdefaults : info.defaults.All (Value.WellFormed m)) :
    m.Grows { m with classes := m.classes.declare info } ∧
      Machine.Sound { m with classes := m.classes.declare info } := by
  let m' := { m with classes := m.classes.declare info }
  have hgrows : m.Grows m' :=
    ⟨ClassTable.extends_declare _ _, Nat.le_refl _, fun _ _ => rfl⟩
  have hstays : ∀ v : Value, v.WellFormed m → v.WellFormed m' := fun v hv => hv.mono hgrows
  refine ⟨hgrows, h.grow hgrows (h.values.scope.imp hstays) (fun table htable => .inl htable)
    (fun other hother => ?_) ?_⟩
  · rcases Array.mem_push.mp hother with hold | rfl
    · exact .inl hold
    · exact .inr ⟨hoverrides.imp hstays, hdefaults.imp hstays⟩
  · refine Bindings.All.insert (h.names.imp fun c hc => hc.mono hgrows.classes) info.name ?_
    change m.classes.classes.size < (m.classes.classes.push info).size
    rw [Array.size_push]
    exact Nat.lt_succ_self _

end Machine.Sound

/-! ## Evaluations -/

/-- What may be passed on: values that are well-formed, and classes that exist. -/
def Regime.wellFormed : Regime Machine where
  le := Machine.Grows
  le_refl := .refl
  le_trans := .trans
  value := Value.WellFormed
  value_mono h hv := hv.mono h
  value_of_isData _ _ hv := .of_isData hv
  cls m c := m.classes.Known c
  cls_mono h hc := hc.mono h.classes
  cls_builtin _ _ := trivial
  expr _ := True
  block _ := True
  loop _ _ := True
  classDecl _ := True
  functionDecl _ := True

/-- However an evaluation from a machine has ended, it left a sound machine that has grown; and if it
returned, what it returned is good there. -/
structure Result.Sound {α : Type} (m : Machine) (Q : Machine → α → Prop) (r : Result α) : Prop where
  machine : ∀ m', r.machine? = some m' → m.Grows m' ∧ m'.Sound
  returned : ∀ a m', r = .ok a m' → Q m' a

/-- From a machine, if that is sound, the evaluation is sound. -/
def Eval.Sound {α : Type} (m : Machine) (Q : Machine → α → Prop) (x : Eval α) : Prop :=
  m.Sound → (x m).Sound m Q

namespace Result.Sound

variable {α : Type} {m m' : Machine} {Q : Machine → α → Prop}

theorem ok {a : α} (hgrows : m.Grows m') (hm' : m'.Sound) (ha : Q m' a) :
    Result.Sound m Q (.ok a m') where
  machine := by
    rintro _ ⟨⟩
    exact ⟨hgrows, hm'⟩
  returned := by
    rintro _ _ ⟨⟩
    exact ha

theorem error {e : EvalError} (hgrows : m.Grows m') (hm' : m'.Sound) :
    Result.Sound m Q (.error e m') where
  machine := by
    rintro _ ⟨⟩
    exact ⟨hgrows, hm'⟩
  returned := nofun

theorem outOfFuel : Result.Sound m Q .outOfFuel := ⟨nofun, nofun⟩

/-- What is sound from some machine is so from an earlier one. -/
theorem after {r : Result α} (hgrows : m.Grows m') (h : r.Sound m' Q) : r.Sound m Q := by
  refine ⟨fun m'' hm'' => ?_, h.returned⟩
  obtain ⟨hgrows', hsound⟩ := h.machine m'' hm''
  exact ⟨hgrows.trans hgrows', hsound⟩

end Result.Sound

namespace Eval.Sound

variable {α β : Type} {m : Machine} {P : Machine → α → Prop} {Q : Machine → β → Prop}

theorem bind {x : Eval α} {f : α → Eval β} (hx : x.Sound m P)
    (hf : ∀ m', m.Grows m' → ∀ a, P m' a → (f a).Sound m' Q) : (x >>= f).Sound m Q := by
  intro hm
  have hxm := hx hm
  rw [bind_apply]
  generalize x m = r at hxm
  rcases r with ⟨a, m₁⟩ | ⟨e, m₁⟩ | _
  · obtain ⟨hgrows, hm₁⟩ := hxm.machine m₁ rfl
    exact .after hgrows (hf m₁ hgrows a (hxm.returned a m₁ rfl) hm₁)
  · obtain ⟨hgrows, hm₁⟩ := hxm.machine m₁ rfl
    exact .error hgrows hm₁
  · exact .outOfFuel

theorem traced {x : Eval α} (hx : x.Sound m P) : (traced x).Sound m P := by
  intro hm
  refine ⟨fun m' hm' => ?_, fun a m' hok => ?_⟩
  · rw [machine?_traced] at hm'
    exact (hx hm).machine m' hm'
  · refine (hx hm).returned a m' ?_
    rw [Eval.traced] at hok
    split at hok <;> cases hok
    assumption

theorem pure {a : α} (ha : P m a) : (Pure.pure a : Eval α).Sound m P := fun hm => .ok (.refl m) hm ha

theorem orRaise {y : Machine → Option α} {f : Machine → Fault}
    (h : m.Sound → ∀ a, y m = some a → P m a) :
    Eval.Sound m P fun m => Eval.orRaise (y m) (f m) m := by
  intro hm
  dsimp only
  cases hy : y m with
  | none => exact .error (.refl m) hm
  | some a => exact .ok (.refl m) hm (h hm a hy)

/-- Steps that change neither classes nor instances, and leave a good scope. -/
theorem change {f : Machine → Machine} (hclasses : (f m).classes = m.classes)
    (hheap : (f m).heap = m.heap) (hscope : m.Sound → (f m).scope.AllValues (Value.WellFormed m)) :
    (Eval.change f).Sound m Regime.anything := fun hm =>
  .ok (.of_eq hclasses hheap) (hm.rescope hclasses hheap (hscope hm)) trivial

theorem assign (name : String) {v : Value} (hv : v.WellFormed m) :
    (Machine.assign name v).Sound m Regime.anything := by
  intro hm
  rcases assign_cases name v m with hok | ⟨loc, heap, -, hset, hok⟩ | herror
  · rw [hok]
    exact .ok (.of_eq rfl rfl) (hm.rescope rfl rfl (hm.values.scope.declare name hv)) trivial
  · rw [hok]
    obtain ⟨hgrows, hsound⟩ := hm.setProperty hv hset
    exact .ok hgrows hsound trivial
  · rw [herror]
    exact .error (.refl m) hm

theorem readLine : Machine.readLine.Sound m Regime.anything := by
  intro hm
  have hsound : Machine.Sound { m with console := m.console.readLine.2 } :=
    hm.rescope rfl rfl hm.values.scope
  rw [Machine.readLine]
  dsimp only
  split
  · exact .ok (.of_eq rfl rfl) hsound trivial
  · exact .error (.of_eq rfl rfl) hsound
  · exact .error (.of_eq rfl rfl) hsound

theorem declareFunction (d : FunctionDecl) : (Engine.declareFunction d).Sound m Regime.anything := by
  intro hm
  rw [Engine.declareFunction_apply]
  cases m.classes.resolveCallable none d with
  | error f => exact .error (.refl m) hm
  | ok callable => exact .ok (.of_eq rfl rfl) (hm.rescope rfl rfl hm.values.scope) trivial

theorem registerClass (d : ClassDecl) (parent : ClassRef) {overrides defaults : List (String × Value)}
    (hoverrides : ∀ p ∈ overrides, p.2.WellFormed m) (hdefaults : ∀ p ∈ defaults, p.2.WellFormed m) :
    (Engine.registerClass d parent overrides defaults).Sound m Regime.anything := by
  intro hm
  rw [Engine.registerClass_apply]
  cases m.classes.resolveMethods d.name d.methods with
  | error f => exact .error (.refl m) hm
  | ok methods =>
    obtain ⟨hgrows, hsound⟩ := hm.declare
      ⟨d.name, parent, .ofList overrides, .ofList defaults, .ofList methods⟩
      (.ofList hoverrides) (.ofList hdefaults)
    exact .ok hgrows hsound trivial

end Eval.Sound

/-! ## Calls -/

/-- All that the engine does is sound. -/
structure Engine.Sound (engine : Engine) : Prop where
  eval : ∀ e m, (engine.eval e).Sound m Value.WellFormed
  block : ∀ mode stmts m,
    (engine.block mode stmts).Sound m (Regime.wellFormed.optional BlockExit.value?)
  body : ∀ stmts m, (engine.body stmts).Sound m (Regime.wellFormed.optional BlockExit.value?)
  loop : ∀ mode condition body m,
    (engine.loop mode condition body).Sound m (Regime.wellFormed.optional Flow.value?)

/-- The value of a body is the one it ended with, or undefined. -/
theorem BlockExit.wellFormed_value {m : Machine} {exit : BlockExit}
    (h : Regime.wellFormed.optional BlockExit.value? m exit) : exit.value.WellFormed m := by
  cases exit with
  | completed => exact .of_isData .undefined
  | returned v | halted v => exact h v rfl

/-- An evaluation in another scope: when it has ended, the scope that was left is back, and its values
have stayed well-formed meanwhile. -/
theorem Result.Sound.map {α β : Type} {m inside : Machine} {P : Machine → α → Prop}
    {Q : Machine → β → Prop} {r : Result α} (hr : r.Sound inside P) (hm : m.Sound)
    (hclasses : inside.classes = m.classes) (hheap : inside.heap = m.heap) (f : α → β)
    {g : Machine → Machine} (hgclasses : ∀ inner, (g inner).classes = inner.classes)
    (hgheap : ∀ inner, (g inner).heap = inner.heap) (hgscope : ∀ inner, (g inner).scope = m.scope)
    (hf : ∀ a inner, P inner a → Q (g inner) (f a)) : (r.map f g).Sound m Q := by
  have hback : ∀ inner, inside.Grows inner ∧ inner.Sound →
      m.Grows (g inner) ∧ (g inner).Sound := by
    rintro inner ⟨hgrows, hinner⟩
    have hgrown : m.Grows inner := Machine.Grows.trans (.of_eq hclasses hheap) hgrows
    refine ⟨hgrown.trans (.of_eq (hgclasses inner) (hgheap inner)), ?_⟩
    refine hinner.rescope (hgclasses inner) (hgheap inner) ?_
    rw [hgscope]
    exact hm.values.scope.imp fun v hv => hv.mono hgrown
  rcases r with ⟨a, inner⟩ | ⟨e, inner⟩ | _
  · obtain ⟨hgrows, hsound⟩ := hback inner (hr.machine inner rfl)
    exact .ok hgrows hsound (hf a inner (hr.returned a inner rfl))
  · obtain ⟨hgrows, hsound⟩ := hback inner (hr.machine inner rfl)
    exact .error hgrows hsound
  · exact .outOfFuel

namespace Engine.Sound

variable {engine : Engine} {m : Machine}

theorem invoke (h : engine.Sound) (callable : Callable) (owner : Option ClassRef)
    {receiver : Option Value} (hreceiver : ∀ v, receiver = some v → v.WellFormed m)
    {args : List Value} (hargs : ∀ v ∈ args, v.WellFormed m) (frame : String) :
    (engine.invoke callable owner receiver args frame).Sound m Value.WellFormed := by
  intro hm
  cases hcall : checkCall callable owner args frame m with
  | error f =>
    rw [engine.invoke_of_error receiver hcall]
    exact .error (.refl m) hm
  | ok calls =>
    rw [engine.invoke_of_ok receiver hcall]
    have hinside : (enter callable receiver args calls m).Sound :=
      hm.rescope rfl rfl (.ofCall (.of_isData .undefined) hreceiver fun p hp =>
        hargs p.2 (List.of_mem_zip hp).2)
    exact (h.body callable.body _ hinside).map hm rfl rfl BlockExit.value (fun _ => rfl)
      (fun _ => rfl) (fun _ => rfl) fun exit inner hexit =>
        (BlockExit.wellFormed_value hexit).mono (.of_eq rfl rfl)

theorem callNamed (h : engine.Sound) (function : String) {args : List Value}
    (hargs : ∀ v ∈ args, v.WellFormed m) :
    (engine.callNamed function args).Sound m Value.WellFormed := by
  intro hm
  rw [callNamed_apply]
  cases m.functions.get? function with
  | none => exact .error (.refl m) hm
  | some callable => exact h.invoke callable none hm.values.scope.receiver hargs _ hm

theorem invokeMethod (h : engine.Sound) {receiver : Value} (hreceiver : receiver.WellFormed m)
    (method : String) {args : List Value} (hargs : ∀ v ∈ args, v.WellFormed m) :
    (engine.invokeMethod receiver method args).Sound m Value.WellFormed := by
  intro hm
  rw [invokeMethod_apply]
  rcases m.classes.resolveMethod? receiver.cls method with _ | ⟨owner, callable⟩ | b
  · exact .error (.refl m) hm
  · refine h.invoke callable (some owner) ?_ hargs _ hm
    rintro v ⟨⟩
    exact hreceiver
  · -- built-in methods give plain data, whatever they are called on
    dsimp only
    cases hresult : m.classes.callBuiltin b receiver method args with
    | error f => exact .error (.refl m) hm
    | ok v => exact .ok (.refl m) hm (.of_isData (ClassTable.isData_of_callBuiltin hresult))

theorem constructDeclared (h : engine.Sound) {id : Nat} (hc : m.classes.Known (.declared id))
    {args : List Value} (hargs : ∀ v ∈ args, v.WellFormed m) :
    (engine.constructDeclared (.declared id) args).Sound m Value.WellFormed := by
  intro hm
  rw [constructDeclared_apply]
  obtain ⟨hgrows, hsound, hnew⟩ := hm.alloc hc rfl
  cases m.classes.findMethod? (.declared id) initMethod with
  | none =>
    dsimp only
    split
    · exact .ok hgrows hsound hnew
    · exact .error hgrows hsound
  | some found =>
    -- `init` runs with the new instance in place, and the instance outlasts what `init` does
    obtain ⟨owner, init⟩ := found
    refine .after hgrows (Eval.Sound.bind (h.invoke init (some owner) ?_ ?_ _)
      (fun m' hm' _ _ => .pure (hnew.mono hm')) hsound)
    · rintro v ⟨⟩
      exact hnew
    · exact fun v hv => (hargs v hv).mono hgrows

end Engine.Sound

/-! ## The interpreter -/

/-- **One step.** What keeps to well-formed values and existing classes keeps machines sound. -/
theorem Regime.Course.sound {m : Machine} {α : Type} {Q : Machine → α → Prop}
    {part : Engine → Eval α} (h : Regime.wellFormed.Course m Q part) {engine : Engine}
    (hengine : engine.Sound) : (part engine).Sound m Q := by
  induction h with
  | pure ha => exact .pure ha
  | bind _ _ ihx ihf => exact ihx.bind ihf
  | refuse => exact fun hm => .error (.refl _) hm
  | resolve name =>
    exact .orRaise fun hm v hv => hm.values.scope.of_resolve? hm.values.properties hv
  | property _ name =>
    refine .orRaise fun hm v hv => ?_
    obtain ⟨loc, -, hget⟩ := Option.bind_eq_some_iff.mp hv
    exact Heap.of_get? hm.values.properties hget
  | lookupClass name => exact .orRaise fun hm c hc => hm.names.of_get? hc
  | display v => exact fun hm => .ok (.refl _) hm trivial
  | declareLocal name hv => exact .change rfl rfl fun hm => hm.values.scope.declare name hv
  | printLine line => exact .change rfl rfl fun hm => hm.values.scope
  | assign _ name hv => exact .assign name hv
  | newObject =>
    intro hm
    obtain ⟨hgrows, hsound, hnew⟩ := hm.alloc (c := .builtin .obj) trivial rfl
    exact .ok hgrows hsound hnew
  | readLine => exact .readLine
  | registerClass _ _ hoverrides hdefaults => exact .registerClass _ _ hoverrides hdefaults
  | declareFunction => exact .declareFunction _
  | @eval m e => exact hengine.eval e m
  | @block m stmts mode => exact hengine.block mode stmts m
  | @loop m condition body mode => exact hengine.loop mode condition body m
  | callNamed function hargs => exact hengine.callNamed function hargs
  | invokeMethod hreceiver method hargs => exact hengine.invokeMethod hreceiver method hargs
  | constructDeclared hc hargs => exact hengine.constructDeclared hc hargs

theorem Regime.wellFormed_stmt (s : Stmt) : Regime.wellFormed.stmt s :=
  stmt_of_forall _ (fun _ => trivial) (fun _ => trivial) (fun _ _ => trivial) (fun _ => trivial)
    (fun _ => trivial) fun _ _ _ => trivial

/-- **The interpreter keeps machines sound.** -/
theorem Engine.withFuel_sound (n : Nat) : (withFuel n).Sound := by
  induction n with
  | zero =>
    exact ⟨fun _ _ _ => .outOfFuel, fun _ _ _ _ => .outOfFuel, fun _ _ _ => .outOfFuel,
      fun _ _ _ _ _ => .outOfFuel⟩
  | succ n ih =>
    have hblock : ∀ mode stmts m, ((withFuel n).execBlock mode stmts).Sound m
        (Regime.wellFormed.optional BlockExit.value?) := fun mode stmts m =>
      (Regime.Course.execBlock mode fun s _ => Regime.wellFormed_stmt s).sound ih
    rw [withFuel_succ]
    refine ⟨fun e m => ?_, hblock, fun stmts m => (hblock .inFunction stmts m).traced,
      fun mode condition body m => ?_⟩
    · exact (Regime.Course.evalExpr fun _ _ => trivial).sound ih
    · exact (Regime.Course.loopStep mode trivial trivial trivial).sound ih

end FlannelScript
