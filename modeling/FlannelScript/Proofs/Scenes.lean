import FlannelScript.Proofs.Assignments
import FlannelScript.Proofs.Chains

/-!
# Scenes

A run is taken apart into its smallest steps, from one scene to the next (`Scene.Step`). A scene is
a machine together with the scopes that wait for what runs, and with the class of each instance that
there is. In a step a local is bound, something is assigned, an instance is allocated, a line is
printed or read, a class or a function is declared, or a call or a program begins or ends.

Which assignments there are among the steps is up to a permission, and so what happens to an instance
is told by assignments that are permitted (`Scene.Leads`).

The receiver of a scope is what assignments can reach, so it matters where receivers come from. A
function takes over the receiver of its caller, and else a receiver is an instance on which a
declared method has been found. So at every scene that comes from the first one, all receivers are
instances of classes with declared methods (`Scene.Sealed`), and an instance of any other class is
as it was made.
-/

namespace FlannelScript

open Machine

/-! ## Classes with methods -/

namespace ClassTable

variable {t t' : ClassTable} {c : ClassRef}

/-- The class or one of its ancestors declares a method. -/
def HasMethod (t : ClassTable) (c : ClassRef) : Prop :=
  ∃ owner ∈ t.ancestors c, ∃ method callable, t.ownMethod? owner method = some callable

theorem Extends.hasMethod_iff (h : t.Extends t') (hc : t.Known c) :
    t'.HasMethod c ↔ t.HasMethod c := by
  rw [HasMethod, HasMethod, h.ancestors hc]
  refine exists_congr fun owner => and_congr_right fun howner => ?_
  simp only [h.ownMethod? (hc.of_mem_ancestors howner)]

theorem hasMethod_of_resolveMethod? {method : String} {owner : ClassRef} {callable : Callable}
    (h : t.resolveMethod? c method = some (.declared owner callable)) : t.HasMethod c := by
  obtain ⟨c', hc', hd⟩ := List.exists_of_findSome?_eq_some h
  cases c' with
  | builtin b =>
    obtain ⟨_, -, ⟨⟩⟩ := Option.map_eq_some_iff.mp hd
  | declared id =>
    obtain ⟨callable', hown, -⟩ := Option.map_eq_some_iff.mp hd
    exact ⟨_, hc', method, callable', hown⟩

theorem hasMethod_of_findMethod? {method : String} {found : ClassRef × Callable}
    (h : t.findMethod? c method = some found) : t.HasMethod c := by
  obtain ⟨owner, howner, hd⟩ := List.exists_of_findSome?_eq_some h
  obtain ⟨callable, hown, -⟩ := Option.map_eq_some_iff.mp hd
  exact ⟨owner, howner, method, callable, hown⟩

/-- The built-in classes have built-in methods only. -/
theorem not_hasMethod_builtin (t : ClassTable) (b : BuiltinClass) : ¬t.HasMethod (.builtin b) := by
  rintro ⟨owner, howner, method, callable, hown⟩
  cases owner with
  | builtin _ => cases hown
  | declared id => exact not_declared_mem_builtinChain b id howner

end ClassTable

/-! ## Values and their classes -/

namespace Value

variable {kinds kinds' : List ClassRef} {t t' : ClassTable} {v : Value}

/-- A value is an instance of the class from which that was made, where `kinds` has the classes of
all instances by place; any other value is of a built-in class. -/
def OfKind (kinds : List ClassRef) (v : Value) : Prop :=
  match v.loc? with
  | some loc => kinds[loc]? = some v.cls
  | none => ∃ b, v.cls = .builtin b

/-- A value on which declared methods can be run: an instance whose class has any. -/
def CanReceive (t : ClassTable) (kinds : List ClassRef) (v : Value) : Prop :=
  ∃ loc, v.loc? = some loc ∧ kinds[loc]? = some v.cls ∧ t.HasMethod v.cls

theorem OfKind.of_isData (hv : v.IsData) : v.OfKind kinds := by
  cases hv <;> exact ⟨_, rfl⟩

theorem getElem?_of_prefix (h : kinds <+: kinds') {loc : Loc} {c : ClassRef}
    (hloc : kinds[loc]? = some c) : kinds'[loc]? = some c := by
  obtain ⟨more, rfl⟩ := h
  obtain ⟨hlt, -⟩ := List.getElem?_eq_some_iff.mp hloc
  rwa [List.getElem?_append_left hlt]

theorem OfKind.mono (hv : v.OfKind kinds) (h : kinds <+: kinds') : v.OfKind kinds' := by
  rw [OfKind] at hv ⊢
  split at hv
  · exact getElem?_of_prefix h hv
  · exact hv

theorem OfKind.canReceive (hv : v.OfKind kinds) (hmethod : t.HasMethod v.cls) :
    v.CanReceive t kinds := by
  rw [OfKind] at hv
  split at hv
  · rename_i loc hloc
    exact ⟨loc, hloc, hv, hmethod⟩
  · obtain ⟨b, hb⟩ := hv
    rw [hb] at hmethod
    exact absurd hmethod (t.not_hasMethod_builtin b)

theorem CanReceive.mono (hv : v.CanReceive t kinds) (hknown : ∀ c ∈ kinds, t.Known c)
    (ht : t.Extends t') (h : kinds <+: kinds') : v.CanReceive t' kinds' := by
  obtain ⟨loc, hloc, hkind, hmethod⟩ := hv
  have hc := hknown v.cls (List.mem_of_getElem? hkind)
  exact ⟨loc, hloc, getElem?_of_prefix h hkind, (ht.hasMethod_iff hc).mpr hmethod⟩

end Value

/-! ## Scenes and their steps -/

/-- A scene: the machine, the scopes that wait for what runs, innermost first, and the classes of
all instances, by place. -/
structure Scene where
  machine : Machine
  waiting : List Scope := []
  kinds : List ClassRef := []

namespace Scene

/-- The first scene, on a fresh machine. -/
def first (console : Console) (limit : Option Nat) : Scene := { machine := .fresh console limit }

/-- The calls that there can be: what is called, the class that declares it, the receiver and the
frame. -/
inductive Call (m : Machine) (kinds : List ClassRef) :
    Callable → Option ClassRef → Option Value → String → Prop where
  /-- a function takes over the receiver of its caller -/
  | function {name : String} {callable : Callable} (h : m.functions.get? name = some callable) :
      Call m kinds callable none m.scope.receiver (CallStack.functionFrame callable.name)
  | method {receiver : Value} {name : String} {owner : ClassRef} {callable : Callable}
      (hreceiver : receiver.OfKind kinds)
      (h : m.classes.resolveMethod? receiver.cls name = some (.declared owner callable)) :
      Call m kinds callable (some owner) (some receiver)
        (CallStack.methodFrame (m.classes.name owner) name)
  | init {fresh : Value} {owner : ClassRef} {callable : Callable} (hfresh : fresh.OfKind kinds)
      (h : m.classes.findMethod? fresh.cls Engine.initMethod = some (owner, callable)) :
      Call m kinds callable (some owner) (some fresh)
        (CallStack.methodFrame (m.classes.name owner) Engine.initMethod)

/-- The steps of a run, if only such assignments are carried out as are permitted. -/
inductive Step (permitted : Assignment → Bool) : Scene → Scene → Prop where
  | declareLocal {m : Machine} {waiting : List Scope} {kinds : List ClassRef} (name : String)
      {v : Value} (hv : v.OfKind kinds) :
      Step permitted ⟨m, waiting, kinds⟩
        ⟨{ m with scope := m.scope.declare name v }, waiting, kinds⟩
  | assign {m m' : Machine} {waiting : List Scope} {kinds : List ClassRef} {name : String}
      {v : Value} (hpermitted : permitted ⟨m, name, v⟩ = true) (hv : v.OfKind kinds)
      (h : Machine.assign name v m = .ok () m') :
      Step permitted ⟨m, waiting, kinds⟩ ⟨m', waiting, kinds⟩
  | newInstance {m : Machine} {waiting : List Scope} {kinds : List ClassRef} {c : ClassRef}
      (hc : m.classes.Known c) :
      Step permitted ⟨m, waiting, kinds⟩
        ⟨{ m with heap := (m.heap.alloc (m.classes.mergedDefaults c)).1 }, waiting, kinds ++ [c]⟩
  | printLine {m : Machine} {waiting : List Scope} {kinds : List ClassRef} (line : String) :
      Step permitted ⟨m, waiting, kinds⟩
        ⟨{ m with console := m.console.printLine line }, waiting, kinds⟩
  | readLine {m : Machine} {waiting : List Scope} {kinds : List ClassRef} :
      Step permitted ⟨m, waiting, kinds⟩
        ⟨{ m with console := m.console.readLine.2 }, waiting, kinds⟩
  | declareClass {m : Machine} {waiting : List Scope} {kinds : List ClassRef} {d : ClassDecl}
      {parent : ClassRef} {overrides defaults : List (String × Value)}
      {methods : List (String × Callable)} (hparent : m.classes.Known parent)
      (hoverrides : ∀ p ∈ overrides, p.2.OfKind kinds)
      (hdefaults : ∀ p ∈ defaults, p.2.OfKind kinds)
      (h : m.classes.resolveMethods d.name d.methods = .ok methods) :
      Step permitted ⟨m, waiting, kinds⟩
        ⟨{ m with
          classes := m.classes.declare
            ⟨d.name, parent, .ofList overrides, .ofList defaults, .ofList methods⟩ },
          waiting, kinds⟩
  | declareFunction {m : Machine} {waiting : List Scope} {kinds : List ClassRef} {d : FunctionDecl}
      {callable : Callable} (h : m.classes.resolveCallable none d = .ok callable) :
      Step permitted ⟨m, waiting, kinds⟩
        ⟨{ m with functions := m.functions.insert d.name callable }, waiting, kinds⟩
  | enter {m : Machine} {waiting : List Scope} {kinds : List ClassRef} {callable : Callable}
      {owner : Option ClassRef} {receiver : Option Value} {args : List Value} {frame : String}
      {calls : CallStack} (h : Call m kinds callable owner receiver frame)
      (hargs : ∀ v ∈ args, v.OfKind kinds)
      (hcheck : Engine.checkCall callable owner args frame m = .ok calls) :
      Step permitted ⟨m, waiting, kinds⟩
        ⟨Engine.enter callable receiver args calls m, m.scope :: waiting, kinds⟩
  | leave {m : Machine} {caller : Scope} {waiting : List Scope} {kinds : List ClassRef} :
      Step permitted ⟨m, caller :: waiting, kinds⟩ ⟨Engine.leave caller m, waiting, kinds⟩
  | start {m : Machine} {waiting : List Scope} {kinds : List ClassRef} :
      Step permitted ⟨m, waiting, kinds⟩ ⟨{ m with scope := .topLevel }, m.scope :: waiting, kinds⟩
  | finish {m : Machine} {outer : Scope} {waiting : List Scope} {kinds : List ClassRef} :
      Step permitted ⟨m, outer :: waiting, kinds⟩ ⟨{ m with scope := outer }, waiting, kinds⟩

/-- One scene comes before another one, or is the same. -/
abbrev Before (permitted : Assignment → Bool) : Scene → Scene → Prop :=
  Relation.ReflTransGen (Step permitted)

/-! ## What stays -/

variable {permitted : Assignment → Bool} {s s' : Scene}

/-- **One step** keeps all classes as they are, and the classes of all instances. -/
theorem Step.grows (h : s.Step permitted s') :
    s.machine.classes.Extends s'.machine.classes ∧ s.kinds <+: s'.kinds := by
  cases h with
  | @assign m _ _ _ name v _ _ h =>
    refine ⟨?_, List.prefix_rfl⟩
    rcases assign_cases name v m with hok | ⟨loc, heap, -, -, hok⟩ | herror
    · cases hok.symm.trans h
      exact .refl _
    · cases hok.symm.trans h
      exact .refl _
    · cases herror.symm.trans h
  | newInstance => exact ⟨.refl _, List.prefix_append _ _⟩
  | declareClass => exact ⟨ClassTable.extends_declare _ _, List.prefix_rfl⟩
  | _ => exact ⟨.refl _, List.prefix_rfl⟩

theorem Before.grows (h : s.Before permitted s') :
    s.machine.classes.Extends s'.machine.classes ∧ s.kinds <+: s'.kinds := by
  induction h with
  | refl => exact ⟨.refl _, List.prefix_rfl⟩
  | tail _ hstep ih =>
    obtain ⟨hclasses, hkinds⟩ := hstep.grows
    exact ⟨ih.1.trans hclasses, ih.2.trans hkinds⟩

end Scene

/-- Rebinding a property leaves all other instances alone. -/
theorem Heap.properties_of_set? {h h' : Heap} {loc loc' : Loc} {name : String} {v : Value}
    (hset : h.set? loc name v = some h') (hloc : loc' ≠ loc) :
    h'.properties loc' = h.properties loc' := by
  obtain ⟨-, rfl⟩ := set?_eq_some hset
  rw [properties, properties, Array.getElem?_modify, if_neg (Ne.symm hloc)]

/-! ## Where receivers come from -/

/-- All values of a scope are instances of the classes from which they were made, and the receiver
is an instance of a class with methods. -/
structure Scope.Sealed (t : ClassTable) (kinds : List ClassRef) (scope : Scope) : Prop where
  values : scope.AllValues (Value.OfKind kinds)
  receiver : ∀ v, scope.receiver = some v → v.CanReceive t kinds

namespace Scope.Sealed

variable {t t' : ClassTable} {kinds kinds' : List ClassRef} {scope : Scope}

theorem mono (h : scope.Sealed t kinds) (hknown : ∀ c ∈ kinds, t.Known c) (ht : t.Extends t')
    (hkinds : kinds <+: kinds') : scope.Sealed t' kinds' where
  values := h.values.imp fun _ hv => hv.mono hkinds
  receiver v hv := (h.receiver v hv).mono hknown ht hkinds

theorem topLevel : Scope.topLevel.Sealed t kinds := ⟨.topLevel (.of_isData .undefined), nofun⟩

theorem ofCall {receiver : Option Value}
    (hreceiver : ∀ v, receiver = some v → v.OfKind kinds ∧ v.CanReceive t kinds)
    {arguments : List (String × Value)} (harguments : ∀ p ∈ arguments, p.2.OfKind kinds) :
    (Scope.ofCall receiver arguments).Sealed t kinds where
  values := .ofCall (.of_isData .undefined) (fun v hv => (hreceiver v hv).1) harguments
  receiver v hv := (hreceiver v hv).2

theorem declare (h : scope.Sealed t kinds) (name : String) {v : Value} (hv : v.OfKind kinds) :
    (scope.declare name v).Sealed t kinds :=
  ⟨h.values.declare name hv, h.receiver⟩

end Scope.Sealed

/-- All values are instances of the classes from which they were made, all receivers are instances
of classes with methods, and the instances of classes without methods are as they were made. -/
structure Scene.Sealed (s : Scene) : Prop where
  names : s.machine.classes.names.All s.machine.classes.Known
  size : s.kinds.length = s.machine.heap.cells.size
  known : ∀ c ∈ s.kinds, s.machine.classes.Known c
  scopes : ∀ scope ∈ s.machine.scope :: s.waiting, scope.Sealed s.machine.classes s.kinds
  properties : ∀ table ∈ s.machine.heap.cells, table.All (Value.OfKind s.kinds)
  defaults : ∀ info ∈ s.machine.classes.classes,
    info.overrides.All (Value.OfKind s.kinds) ∧ info.defaults.All (Value.OfKind s.kinds)
  untouched : ∀ loc c, s.kinds[loc]? = some c → ¬s.machine.classes.HasMethod c →
    s.machine.heap.properties loc = s.machine.classes.mergedDefaults c

namespace Scene.Sealed

variable {m m' : Machine} {waiting waiting' : List Scope} {kinds : List ClassRef}

theorem first (console : Console) (limit : Option Nat) : (Scene.first console limit).Sealed where
  names := (Machine.Sound.fresh console limit).names
  size := rfl
  known := nofun
  scopes := List.forall_mem_singleton.mpr .topLevel
  properties := nofun
  defaults := nofun
  untouched := nofun

theorem scope {s : Scene} (h : s.Sealed) : s.machine.scope.Sealed s.machine.classes s.kinds :=
  h.scopes _ List.mem_cons_self

theorem callers {s : Scene} (h : s.Sealed) :
    ∀ scope ∈ s.waiting, scope.Sealed s.machine.classes s.kinds :=
  (List.forall_mem_cons.mp h.scopes).2

/-- What changes neither classes nor instances, and leaves good scopes. -/
theorem rescope (h : Scene.Sealed ⟨m, waiting, kinds⟩) (hclasses : m'.classes = m.classes)
    (hheap : m'.heap = m.heap)
    (hscopes : ∀ scope ∈ m'.scope :: waiting', scope.Sealed m.classes kinds) :
    Scene.Sealed ⟨m', waiting', kinds⟩ := by
  obtain ⟨names, size, known, -, properties, defaults, untouched⟩ := h
  dsimp only at *
  rw [← hclasses] at names known hscopes defaults untouched
  rw [← hheap] at size properties untouched
  exact ⟨names, size, known, hscopes, properties, defaults, untouched⟩

/-- The receiver is an instance of a class with methods. -/
theorem hasMethod_of_receiverLoc? {s : Scene} (h : s.Sealed) {loc : Loc}
    (hloc : s.machine.scope.receiverLoc? = some loc) :
    ∃ c, s.kinds[loc]? = some c ∧ s.machine.classes.HasMethod c := by
  obtain ⟨v, hv, hvloc⟩ := Option.bind_eq_some_iff.mp hloc
  obtain ⟨loc', hloc', hkind, hmethod⟩ := h.scope.receiver v hv
  obtain rfl : loc' = loc := Option.some.inj (hloc'.symm.trans hvloc)
  exact ⟨v.cls, hkind, hmethod⟩

/-- Rebinding a property of the receiver. -/
theorem setProperty (h : Scene.Sealed ⟨m, waiting, kinds⟩) {loc : Loc} {name : String} {v : Value}
    {heap : Heap} (hv : v.OfKind kinds) (hloc : m.scope.receiverLoc? = some loc)
    (hset : m.heap.set? loc name v = some heap) :
    Scene.Sealed ⟨{ m with heap }, waiting, kinds⟩ where
  names := h.names
  size := h.size.trans (Heap.size_of_set? hset).symm
  known := h.known
  scopes := h.scopes
  properties := Heap.all_of_set? h.properties hv hset
  defaults := h.defaults
  untouched := by
    intro loc' c hkind hmethod
    -- a class without methods is not that of the receiver
    have hne : loc' ≠ loc := by
      rintro rfl
      obtain ⟨c', hkind', hmethod'⟩ := h.hasMethod_of_receiverLoc? hloc
      obtain rfl : c' = c := Option.some.inj (hkind'.symm.trans hkind)
      exact hmethod hmethod'
    exact (Heap.properties_of_set? hset hne).trans (h.untouched loc' c hkind hmethod)

theorem assign (h : Scene.Sealed ⟨m, waiting, kinds⟩) {name : String} {v : Value}
    (hv : v.OfKind kinds) (hm' : Machine.assign name v m = .ok () m') :
    Scene.Sealed ⟨m', waiting, kinds⟩ := by
  rcases assign_cases name v m with hok | ⟨loc, heap, hloc, hset, hok⟩ | herror
  · cases hok.symm.trans hm'
    exact h.rescope rfl rfl (List.forall_mem_cons.mpr ⟨h.scope.declare name hv, h.callers⟩)
  · cases hok.symm.trans hm'
    exact h.setProperty hv hloc hset
  · cases herror.symm.trans hm'

/-- A new instance is as it is made. -/
theorem newInstance (h : Scene.Sealed ⟨m, waiting, kinds⟩) {c : ClassRef} (hc : m.classes.Known c) :
    Scene.Sealed ⟨{ m with heap := (m.heap.alloc (m.classes.mergedDefaults c)).1 }, waiting,
      kinds ++ [c]⟩ := by
  have hkinds : kinds <+: kinds ++ [c] := List.prefix_append _ _
  have hstays : ∀ v : Value, v.OfKind kinds → v.OfKind (kinds ++ [c]) := fun v hv => hv.mono hkinds
  refine ⟨h.names, ?_, ?_, fun scope hscope => ?_, fun table htable => ?_, fun info hinfo => ?_, ?_⟩
  · change (kinds ++ [c]).length = (m.heap.cells.push _).size
    rw [List.length_append, Array.size_push, ← h.size]
    rfl
  · exact List.forall_mem_append.mpr ⟨h.known, List.forall_mem_singleton.mpr hc⟩
  · exact (h.scopes scope hscope).mono h.known (.refl _) hkinds
  · rcases Array.mem_push.mp htable with hold | rfl
    · exact (h.properties table hold).imp hstays
    · exact (ClassTable.all_mergedDefaults h.defaults c).imp hstays
  · exact ⟨(h.defaults info hinfo).1.imp hstays, (h.defaults info hinfo).2.imp hstays⟩
  · intro loc c' hkind hmethod
    change (m.heap.alloc (m.classes.mergedDefaults c)).1.properties loc = _
    rw [Heap.properties_alloc]
    split
    · rename_i hloc
      rw [hloc, ← h.size, List.getElem?_concat_length] at hkind
      cases hkind
      rfl
    · rename_i hloc
      have hlt : loc < kinds.length := by
        obtain ⟨hlt, -⟩ := List.getElem?_eq_some_iff.mp hkind
        rw [List.length_append, List.length_singleton] at hlt
        exact Nat.lt_of_le_of_ne (Nat.le_of_lt_succ hlt) fun heq => hloc (heq.trans h.size)
      rw [List.getElem?_append_left hlt] at hkind
      exact h.untouched loc c' hkind hmethod

/-- A new class leaves the old ones as they are. -/
theorem declareClass (h : Scene.Sealed ⟨m, waiting, kinds⟩) {info : ClassInfo}
    (hoverrides : info.overrides.All (Value.OfKind kinds))
    (hdefaults : info.defaults.All (Value.OfKind kinds)) :
    Scene.Sealed ⟨{ m with classes := m.classes.declare info }, waiting, kinds⟩ := by
  have hextends : m.classes.Extends (m.classes.declare info) := ClassTable.extends_declare _ _
  refine ⟨?_, h.size, fun c hc => (h.known c hc).mono hextends, fun scope hscope => ?_,
    h.properties, fun other hother => ?_, fun loc c hkind hmethod => ?_⟩
  · exact Bindings.All.insert (h.names.imp fun c hc => hc.mono hextends) info.name
      (m.classes.known_next_declare info)
  · exact (h.scopes scope hscope).mono h.known hextends List.prefix_rfl
  · rcases Array.mem_push.mp hother with hold | rfl
    · exact h.defaults other hold
    · exact ⟨hoverrides, hdefaults⟩
  · have hc := h.known c (List.mem_of_getElem? hkind)
    have hmethod' : ¬m.classes.HasMethod c := fun hold =>
      hmethod ((hextends.hasMethod_iff hc).mpr hold)
    exact (h.untouched loc c hkind hmethod').trans (hextends.mergedDefaults hc).symm

end Scene.Sealed

namespace Scene

variable {permitted : Assignment → Bool} {s s' : Scene}

/-- What a call is made on can receive it. -/
theorem Call.canReceive {m : Machine} {waiting : List Scope} {kinds : List ClassRef}
    (hs : Sealed ⟨m, waiting, kinds⟩) {callable : Callable} {owner : Option ClassRef}
    {receiver : Option Value} {frame : String} (h : Call m kinds callable owner receiver frame) :
    ∀ v, receiver = some v → v.OfKind kinds ∧ v.CanReceive m.classes kinds := by
  intro v hv
  cases h with
  | function => exact ⟨hs.scope.values.receiver v hv, hs.scope.receiver v hv⟩
  | method hreceiver h =>
    cases hv
    exact ⟨hreceiver, hreceiver.canReceive (ClassTable.hasMethod_of_resolveMethod? h)⟩
  | init hfresh h =>
    cases hv
    exact ⟨hfresh, hfresh.canReceive (ClassTable.hasMethod_of_findMethod? h)⟩

/-- **One step** keeps a scene sealed. -/
theorem Step.sealed (h : s.Step permitted s') (hs : s.Sealed) : s'.Sealed := by
  cases h with
  | declareLocal name hv =>
    exact hs.rescope rfl rfl (List.forall_mem_cons.mpr ⟨hs.scope.declare name hv, hs.callers⟩)
  | assign _ hv h => exact hs.assign hv h
  | newInstance hc => exact hs.newInstance hc
  | printLine | readLine | declareFunction => exact hs.rescope rfl rfl hs.scopes
  | declareClass _ hoverrides hdefaults =>
    exact hs.declareClass (.ofList hoverrides) (.ofList hdefaults)
  | enter h hargs =>
    refine hs.rescope rfl rfl (List.forall_mem_cons.mpr ⟨.ofCall (h.canReceive hs) ?_, hs.scopes⟩)
    exact fun p hp => hargs p.2 (List.of_mem_zip hp).2
  | leave => exact hs.rescope rfl rfl hs.callers
  | start => exact hs.rescope rfl rfl (List.forall_mem_cons.mpr ⟨.topLevel, hs.scopes⟩)
  | finish => exact hs.rescope rfl rfl hs.callers

/-- **A whole run** keeps a scene sealed. -/
theorem Before.sealed (h : s.Before permitted s') (hs : s.Sealed) : s'.Sealed := by
  induction h with
  | refl => exact hs
  | tail _ hstep ih => exact hstep.sealed ih

/-! ## The account of an instance -/

/-- Some assignment that is permitted turns one table of properties of the instance at `loc` into
another one, in a scope of which it is the receiver. -/
inductive Rewrites (permitted : Assignment → Bool) (loc : Loc) :
    Bindings Value → Bindings Value → Prop where
  | assign {a : Assignment} {m' : Machine} (ha : permitted a = true)
      (hreceiver : a.machine.scope.receiverLoc? = some loc)
      (h : Machine.assign a.name a.value a.machine = .ok () m') :
      Rewrites permitted loc (a.machine.heap.properties loc) (m'.heap.properties loc)

/-- **Who can change a property.** In one step, an instance that is there changes only by an
assignment in a scope of which it is the receiver. -/
theorem Step.rewrites (h : s.Step permitted s') {loc : Loc}
    (hloc : loc < s.machine.heap.cells.size) :
    Relation.ReflGen (Rewrites permitted loc) (s.machine.heap.properties loc)
      (s'.machine.heap.properties loc) := by
  cases h with
  | @assign m _ _ _ name v hpermitted _ h =>
    rcases assign_cases name v m with hok | ⟨loc', heap, hreceiver, hset, hok⟩ | herror
    · cases hok.symm.trans h
      exact .refl
    · by_cases heq : loc = loc'
      · subst heq
        exact .single (.assign (a := ⟨m, name, v⟩) hpermitted hreceiver h)
      · cases hok.symm.trans h
        dsimp only
        rw [Heap.properties_of_set? hset heq]
    · cases herror.symm.trans h
  | @newInstance m _ _ c =>
    have hsame : (m.heap.alloc (m.classes.mergedDefaults c)).1.properties loc =
        m.heap.properties loc := by
      rw [Heap.properties_alloc, if_neg (Nat.ne_of_lt hloc)]
    dsimp only
    rw [hsame]
  | _ => exact .refl

/-- An instance that was not there before the step is as its class makes it. -/
theorem Step.made (h : s.Step permitted s') (hs : s.Sealed) {loc : Loc} {c : ClassRef}
    (hkind : s'.kinds[loc]? = some c) (hloc : s.machine.heap.cells.size ≤ loc) :
    s'.machine.heap.properties loc = s'.machine.classes.mergedDefaults c := by
  -- there is no such instance in the other steps
  have hnone : s.kinds[loc]? = none := List.getElem?_eq_none (hs.size ▸ hloc)
  cases h with
  | @newInstance m _ kinds c' =>
    have hloc' : loc = m.heap.cells.size := by
      obtain ⟨hlt, -⟩ := List.getElem?_eq_some_iff.mp hkind
      rw [List.length_append, List.length_singleton, hs.size] at hlt
      exact Nat.le_antisymm (Nat.le_of_lt_succ hlt) hloc
    subst hloc'
    rw [← hs.size, List.getElem?_concat_length] at hkind
    cases hkind
    exact Heap.properties_alloc_self _ _
  | _ => cases hnone.symm.trans hkind

/-- The properties with which the account of an instance of the class `c` begins: those at the first
scene if it was there then, and else those with which it was made. -/
def opening (s s' : Scene) (loc : Loc) (c : ClassRef) : Bindings Value :=
  if loc < s.machine.heap.cells.size then s.machine.heap.properties loc
  else s'.machine.classes.mergedDefaults c

/-- One scene leads to another one by steps in which only permitted assignments are carried out, and
for the properties of each instance there is an account: permitted assignments, in scopes of which it
is the receiver, are all that has happened to them. -/
structure Leads (permitted : Assignment → Bool) (s s' : Scene) : Prop where
  before : s.Before permitted s'
  account : ∀ loc c, s'.kinds[loc]? = some c →
    Relation.ReflTransGen (Rewrites permitted loc) (s.opening s' loc c)
      (s'.machine.heap.properties loc)

theorem Sealed.leads (hs : s.Sealed) (h : s.Before permitted s') : s.Leads permitted s' := by
  refine ⟨h, ?_⟩
  induction h with
  | refl =>
    intro loc c hkind
    obtain ⟨hlt, -⟩ := List.getElem?_eq_some_iff.mp hkind
    rw [opening, if_pos (hs.size ▸ hlt)]
  | @tail s₁ s₂ hbefore hstep ih =>
    intro loc c hkind
    have hs₁ : s₁.Sealed := Before.sealed hbefore hs
    by_cases hloc : loc < s₁.machine.heap.cells.size
    · -- the instance was there before the step
      obtain ⟨hextends, more, hkinds⟩ := hstep.grows
      rw [← hkinds, List.getElem?_append_left (hs₁.size ▸ hloc)] at hkind
      have hc := hs₁.known c (List.mem_of_getElem? hkind)
      have hopening : s.opening s₂ loc c = s.opening s₁ loc c := by
        rw [opening, opening, hextends.mergedDefaults hc]
      rw [hopening]
      exact (ih loc c hkind).trans (hstep.rewrites hloc).to_reflTransGen
    · -- it is made in this step, so it was not there at the first scene either
      have hle := (Before.grows hbefore).2.length_le
      rw [hs.size, hs₁.size] at hle
      rw [opening, if_neg fun hlt => hloc (Nat.lt_of_lt_of_le hlt hle),
        hstep.made hs₁ hkind (Nat.le_of_not_lt hloc)]

end Scene

end FlannelScript
