import FlannelScript.Proofs.Identity

/-!
# Class chains

The way from a class to its parent, the parent of that and so on (`ClassTable.Walk`) is not bounded
by anything in the text of a program: a parent is what its name stands for when the declaration
runs, and names can be declared anew, be it the name of the class itself or of a built-in class.
What bounds it is that a parent exists before its child (`ClassTable.Grounded`). So each walk goes
through declared classes, each older than the one before, then through a built-in class or none, and
ends at the root (`ClassTable.Rooted`).

Methods are looked for along this way. As it always ends at the root, every value has the methods of
the root, and a method is unknown just if no class on the way has it (`Machine.Dispatches`).
-/

namespace FlannelScript

open Eval Machine

namespace ClassTable

variable {t t' : ClassTable}

/-- The list is the walk from a class to the root: behind each class stands its parent, and the last
class has none. -/
inductive Walk (t : ClassTable) : ClassRef → List ClassRef → Prop where
  | root {c : ClassRef} (h : t.parent? c = none) : Walk t c [c]
  | up {c parent : ClassRef} {chain : List ClassRef} (h : t.parent? c = some parent)
      (hchain : Walk t parent chain) : Walk t c (c :: chain)

/-- The ancestors of the class are all that the walk meets: no class twice, first declared classes,
then at most one built-in class, and the root. -/
structure Rooted (t : ClassTable) (c : ClassRef) : Prop where
  walk : t.Walk c (t.ancestors c)
  nodup : (t.ancestors c).Nodup
  shape : ∃ (ids : List Nat) (below : Option BuiltinClass), below ≠ some .obj ∧
    t.ancestors c = ids.map .declared ++ (below.toList.map .builtin ++ [.builtin .obj])

/-- A declared parent is older than its child. -/
def Grounded (t : ClassTable) : Prop :=
  ∀ (id : Nat) info, t.classes[id]? = some info → ∀ up, info.parent = .declared up → up < id

/-! ## The walk -/

theorem Grounded.known_parent (h : t.Grounded) {id : Nat} {info : ClassInfo}
    (hinfo : t.classes[id]? = some info) : t.Known info.parent := by
  cases hparent : info.parent with
  | builtin b => trivial
  | declared up =>
    obtain ⟨hid, -⟩ := Array.getElem?_eq_some_iff.mp hinfo
    exact Nat.lt_trans (h id info hinfo up hparent) hid

/-- **Induction along the walk**, from the built-in classes down to their descendants. -/
theorem Grounded.induction (h : t.Grounded) {P : ClassRef → Prop} (builtin : ∀ b, P (.builtin b))
    (declared : ∀ (id : Nat) info, t.classes[id]? = some info → P info.parent → P (.declared id))
    (c : ClassRef) (hc : t.Known c) : P c := by
  cases c with
  | builtin b => exact builtin b
  | declared id =>
    induction id using Nat.strongRecOn with
    | ind id ih =>
      have hinfo : t.classes[id]? = some t.classes[id] := Array.getElem?_eq_getElem hc
      refine declared id _ hinfo ?_
      have hknown := h.known_parent hinfo
      cases hparent : t.classes[id].parent with
      | builtin b => exact builtin b
      | declared up =>
        rw [hparent] at hknown
        exact ih up (h id _ hinfo up hparent) hknown

/-- The ancestors of a declared class are the class and the ancestors of its parent. -/
theorem Grounded.ancestors_declared (h : t.Grounded) {id : Nat} {info : ClassInfo}
    (hinfo : t.classes[id]? = some info) :
    t.ancestors (.declared id) = .declared id :: t.ancestors info.parent := by
  rw [ancestors, declaredChain, hinfo]
  dsimp only
  cases hparent : info.parent with
  | builtin b => rfl
  | declared up =>
    dsimp only
    rw [if_pos (h id info hinfo up hparent), ancestors]

theorem parent?_declared {id : Nat} {info : ClassInfo} (hinfo : t.classes[id]? = some info) :
    t.parent? (.declared id) = some info.parent := by
  rw [parent?, hinfo]
  rfl

theorem not_declared_mem_builtinChain (b : BuiltinClass) (id : Nat) :
    .declared id ∉ builtinChain b := by
  cases b <;> simp [builtinChain]

/-- A class is not among the ancestors of its parent. -/
theorem Grounded.not_mem_ancestors_parent (h : t.Grounded) {id : Nat} {info : ClassInfo}
    (hinfo : t.classes[id]? = some info) : .declared id ∉ t.ancestors info.parent := by
  cases hparent : info.parent with
  | builtin b => exact not_declared_mem_builtinChain b id
  | declared up =>
    intro hmem
    have hlt := h id info hinfo up hparent
    exact Nat.lt_irrefl id (Nat.lt_of_le_of_lt (le_of_mem_declaredChain hmem) hlt)

theorem rooted_builtin (t : ClassTable) (b : BuiltinClass) : t.Rooted (.builtin b) where
  walk := by
    cases b with
    | obj => exact .root rfl
    | und | bln | int | flt | str => exact .up rfl (.root rfl)
  nodup := by
    cases b <;> simp [ancestors, builtinChain]
  shape := by
    by_cases hb : b = .obj
    · exact ⟨[], none, (Option.some_ne_none _).symm, by rw [hb]; rfl⟩
    · refine ⟨[], some b, fun h => hb (Option.some.inj h), ?_⟩
      cases b with
      | obj => exact absurd rfl hb
      | und | bln | int | flt | str => rfl

/-- **Every walk ends at the root.** -/
theorem Grounded.rooted (h : t.Grounded) {c : ClassRef} (hc : t.Known c) : t.Rooted c := by
  refine h.induction t.rooted_builtin (fun id info hinfo hparent => ?_) c hc
  have hancestors := h.ancestors_declared hinfo
  refine ⟨?_, ?_, ?_⟩
  · rw [hancestors]
    exact .up (parent?_declared hinfo) hparent.walk
  · rw [hancestors]
    exact List.nodup_cons.mpr ⟨h.not_mem_ancestors_parent hinfo, hparent.nodup⟩
  · obtain ⟨ids, below, hbelow, hshape⟩ := hparent.shape
    exact ⟨id :: ids, below, hbelow, by rw [hancestors, hshape]; rfl⟩

theorem Rooted.root_mem {c : ClassRef} (h : t.Rooted c) : .builtin .obj ∈ t.ancestors c := by
  obtain ⟨ids, below, -, hshape⟩ := h.shape
  rw [hshape]
  simp

theorem Grounded.declare (h : t.Grounded) {info : ClassInfo} (hparent : t.Known info.parent) :
    (t.declare info).Grounded := by
  intro id other hother up hup
  change (t.classes.push info)[id]? = some other at hother
  rw [Array.getElem?_push] at hother
  split at hother
  · -- the new class: its parent is known, and what is known is older
    rename_i hid
    cases hother
    rw [hup] at hparent
    rw [hid]
    exact hparent
  · exact h id other hother up hup

/-! ## Methods along the walk -/

/-- No class on the way to the root has the method: no declared class has it in its table, and no
built-in class declares it. -/
structure Lacks (t : ClassTable) (c : ClassRef) (method : String) : Prop where
  declared : ∀ (id : Nat) info, .declared id ∈ t.ancestors c → t.classes[id]? = some info →
    info.methods.get? method = none
  builtin : ∀ b, .builtin b ∈ t.ancestors c → b.method? method = none

theorem resolveMethod?_eq_none_iff {c : ClassRef} {method : String} :
    t.resolveMethod? c method = none ↔ t.Lacks c method := by
  rw [resolveMethod?, List.findSome?_eq_none_iff]
  constructor
  · intro h
    refine ⟨fun id info hmem hinfo => ?_, fun b hmem => ?_⟩
    · have hnone := h _ hmem
      rw [definition?, Option.map_eq_none_iff, ownMethod?, info?, hinfo] at hnone
      exact hnone
    · exact Option.map_eq_none_iff.mp (h _ hmem)
  · rintro ⟨hdeclared, hbuiltin⟩ (b | id) hmem
    · exact Option.map_eq_none_iff.mpr (hbuiltin b hmem)
    · rw [definition?, Option.map_eq_none_iff, ownMethod?, info?]
      cases hinfo : t.classes[id]? with
      | none => rfl
      | some info => exact hdeclared id info hmem hinfo

/-- The methods of the root are found for all classes. -/
theorem Rooted.exists_definition {c : ClassRef} (h : t.Rooted c) {method : String}
    (hmethod : BuiltinClass.obj.method? method ≠ none) :
    ∃ d, t.resolveMethod? c method = some d := by
  cases hd : t.resolveMethod? c method with
  | none => exact absurd ((resolveMethod?_eq_none_iff.mp hd).builtin .obj h.root_mem) hmethod
  | some d => exact ⟨d, rfl⟩

/-- A built-in method that is called with two arguments fails, and not as an unknown method. -/
theorem callBuiltin_two_arguments (t : ClassTable) (b : BuiltinMethod) (receiver v w : Value)
    (method : String) : ∃ f, t.callBuiltin b receiver method [v, w] = .error f ∧
      ∀ className, f ≠ .unknownMethod method className := by
  have hbinary : ∀ {α : Type} (c : BuiltinClass) (read : Value → Option α) apply,
      ∃ f, t.binary c read apply receiver method [v, w] = .error f ∧
        ∀ className, f ≠ .unknownMethod method className := by
    intro α c read apply
    rw [binary, datum]
    cases read receiver with
    | none => exact ⟨_, rfl, by rintro _ ⟨⟩⟩
    | some a => exact ⟨_, rfl, by rintro _ ⟨⟩⟩
  cases b with
  | equals | doesNotEqual | getStr => exact ⟨_, rfl, by rintro _ ⟨⟩⟩
  | and | or | intArith | intCompare | floatArith | floatCompare | concat | textCompare =>
    exact hbinary _ _ _

end ClassTable

/-- What method calls on a value find: the methods of the root always, and any other method unless
no class on the way to the root has it. Then, and only then, it is the search itself that fails,
whatever the arguments are. -/
structure Machine.Dispatches (m : Machine) (v : Value) : Prop where
  root : ∀ method ∈ ["equals", "doesNotEqual", "getStr"],
    ∃ d, m.classes.resolveMethod? v.cls method = some d
  unknown_iff : ∀ method,
    (∀ (engine : Engine) args, engine.invokeMethod v method args m =
      .error ⟨.unknownMethod method (m.classes.name v.cls), []⟩ m) ↔ m.classes.Lacks v.cls method

/-- What is found is called, so the search does not fail. -/
theorem Engine.exists_invokeMethod_ne {m : Machine} {v : Value} {method : String} {d : MethodDef}
    (hd : m.classes.resolveMethod? v.cls method = some d) (engine : Engine) :
    ∃ args, engine.invokeMethod v method args m ≠
      .error ⟨.unknownMethod method (m.classes.name v.cls), []⟩ m := by
  cases d with
  | builtin b =>
    obtain ⟨f, hf, hne⟩ := m.classes.callBuiltin_two_arguments b v .undefined .undefined method
    refine ⟨[.undefined, .undefined], ?_⟩
    rw [invokeMethod_apply, hd]
    dsimp only
    rw [hf]
    intro h
    cases h
    exact hne _ rfl
  | declared owner callable =>
    -- one argument too many: the call is refused for that
    refine ⟨List.replicate (callable.arity + 1) .undefined, ?_⟩
    rw [invokeMethod_apply, hd]
    dsimp only
    have hrefused : checkCall callable (some owner) (List.replicate (callable.arity + 1) .undefined)
        (CallStack.methodFrame (m.classes.name owner) method) m =
          .error (.arityMismatch callable.name callable.arity (callable.arity + 1)) := by
      rw [checkCall, if_pos (by simp), List.length_replicate]
    rw [engine.invoke_of_error (some v) hrefused]
    rintro ⟨⟩

theorem ClassTable.Rooted.dispatches {m : Machine} {v : Value} (h : m.classes.Rooted v.cls) :
    m.Dispatches v where
  root method hmethod := by
    refine h.exists_definition ?_
    simp only [List.mem_cons, List.not_mem_nil, or_false] at hmethod
    rcases hmethod with rfl | rfl | rfl <;> nofun
  unknown_iff method := by
    rw [← ClassTable.resolveMethod?_eq_none_iff]
    constructor
    · intro hunknown
      cases hd : m.classes.resolveMethod? v.cls method with
      | none => rfl
      | some d =>
        obtain ⟨args, hne⟩ := Engine.exists_invokeMethod_ne hd .exhausted
        exact absurd (hunknown .exhausted args) hne
    · intro hnone engine args
      rw [engine.invokeMethod_apply, hnone]

/-! ## Which classes there are -/

/-- All classes that a callable asks for are good. -/
structure Callable.AllClasses (P : ClassRef → Prop) (callable : Callable) : Prop where
  params : ∀ p ∈ callable.params, ∀ c, p.type = .cls c → P c
  returns : ∀ c, callable.returns = .cls c → P c

theorem Callable.AllClasses.imp {P P' : ClassRef → Prop} {callable : Callable}
    (hcallable : callable.AllClasses P) (h : ∀ c, P c → P' c) : callable.AllClasses P' :=
  ⟨fun p hp c hc => h c (hcallable.params p hp c hc), fun c hc => h c (hcallable.returns c hc)⟩

/-- All classes that are met at a moment are good: those built in, those ever declared, and those
that a name, a class, a callable or a value refers to. -/
structure Moment.AllClasses (P : ClassRef → Prop) (s : Moment) : Prop where
  builtin : ∀ b, P (.builtin b)
  declared : ∀ id < s.machine.classes.classes.size, P (.declared id)
  names : s.machine.classes.names.All P
  parents : ∀ info ∈ s.machine.classes.classes, P info.parent
  functions : s.machine.functions.All (Callable.AllClasses P)
  methods : ∀ info ∈ s.machine.classes.classes, info.methods.All (Callable.AllClasses P)
  values : s.AllValues fun v => P v.cls

/-- Parents are older than their children, and callables ask for existing classes only. -/
structure Machine.Grounded (m : Machine) : Prop where
  classes : m.classes.Grounded
  functions : m.functions.All (Callable.AllClasses m.classes.Known)
  methods : ∀ info ∈ m.classes.classes, info.methods.All (Callable.AllClasses m.classes.Known)

namespace ClassTable

variable {t : ClassTable} (hnames : ∀ name c, t.lookup? name = some c → t.Known c)
include hnames

theorem known_of_resolveType {enclosing : Option String} {name : String} {type : ParamType}
    (h : t.resolveType enclosing name = .ok type) : ∀ c, type = .cls c → t.Known c := by
  rintro c rfl
  rw [resolveType] at h
  split at h
  · cases h
  · cases hc : t.lookup? name with
    | none =>
      rw [hc] at h
      cases h
    | some c =>
      rw [hc] at h
      cases h
      exact hnames name c hc

theorem known_of_resolveParams {enclosing : Option String} {decls : List Param}
    {params : List Parameter} (h : t.resolveParams enclosing decls = .ok params) :
    ∀ p ∈ params, ∀ c, p.type = .cls c → t.Known c := by
  induction decls generalizing params with
  | nil =>
    cases h
    exact nofun
  | cons d rest ih =>
    obtain ⟨type, htype, h⟩ := exists_of_bind_eq_ok h
    obtain ⟨others, hothers, h⟩ := exists_of_bind_eq_ok h
    cases h
    exact List.forall_mem_cons.mpr ⟨known_of_resolveType hnames htype, ih hothers⟩

theorem allClasses_of_resolveCallable {enclosing : Option String} {d : FunctionDecl}
    {callable : Callable} (h : t.resolveCallable enclosing d = .ok callable) :
    callable.AllClasses t.Known := by
  obtain ⟨params, hparams, h⟩ := exists_of_bind_eq_ok h
  obtain ⟨returns, hreturns, h⟩ := exists_of_bind_eq_ok h
  cases h
  exact ⟨known_of_resolveParams hnames hparams, known_of_resolveType hnames hreturns⟩

theorem allClasses_of_resolveMethods {className : String} {decls : List FunctionDecl}
    {methods : List (String × Callable)} (h : t.resolveMethods className decls = .ok methods) :
    ∀ p ∈ methods, p.2.AllClasses t.Known := by
  induction decls generalizing methods with
  | nil =>
    cases h
    exact nofun
  | cons d rest ih =>
    obtain ⟨callable, hcallable, h⟩ := exists_of_bind_eq_ok h
    obtain ⟨others, hothers, h⟩ := exists_of_bind_eq_ok h
    cases h
    exact List.forall_mem_cons.mpr ⟨allClasses_of_resolveCallable hnames hcallable, ih hothers⟩

end ClassTable

namespace Machine.Grounded

variable {m m' : Machine}

theorem fresh (console : Console) (limit : Option Nat) : (fresh console limit).Grounded :=
  ⟨nofun, nofun, nofun⟩

theorem declareClass (h : m.Grounded) (hnamed : m.Named) {d : ClassDecl} {parent : ClassRef}
    (hparent : m.classes.Known parent) (overrides defaults : List (String × Value))
    {methods : List (String × Callable)}
    (hmethods : m.classes.resolveMethods d.name d.methods = .ok methods) :
    Machine.Grounded { m with
      classes := m.classes.declare
        ⟨d.name, parent, .ofList overrides, .ofList defaults, .ofList methods⟩ } := by
  have hextends := m.classes.extends_declare
    ⟨d.name, parent, .ofList overrides, .ofList defaults, .ofList methods⟩
  have hstays : ∀ callable : Callable, callable.AllClasses m.classes.Known →
      callable.AllClasses (m.classes.declare
        ⟨d.name, parent, .ofList overrides, .ofList defaults, .ofList methods⟩).Known :=
    fun callable hcallable => hcallable.imp fun c hc => hc.mono hextends
  refine ⟨h.classes.declare hparent, h.functions.imp hstays, fun info hinfo => ?_⟩
  rcases Array.mem_push.mp hinfo with hold | rfl
  · exact (h.methods info hold).imp hstays
  · have hnames := fun name c hc => (hnamed.classes name c hc).1
    exact .ofList fun p hp =>
      hstays p.2 (ClassTable.allClasses_of_resolveMethods hnames hmethods p hp)

/-- **One change** keeps parents older than their children. -/
theorem change (h : m.Grounded) (hnamed : m.Named) (hchange : m.Change m') : m'.Grounded := by
  cases hchange with
  | activation | setProperty | newInstance | printLine | readLine =>
    exact ⟨h.classes, h.functions, h.methods⟩
  | declareClass hparent hmethods => exact h.declareClass hnamed hparent _ _ hmethods
  | declareFunction hcallable =>
    have hnames := fun name c hc => (hnamed.classes name c hc).1
    exact ⟨h.classes,
      h.functions.insert _ (ClassTable.allClasses_of_resolveCallable hnames hcallable), h.methods⟩

theorem evolves (h : m.Grounded) (hnamed : m.Named) (hevolves : m.Evolves m') : m'.Grounded := by
  induction hevolves with
  | refl => exact h
  | tail hbefore hchange ih => exact ih.change (hnamed.evolves hbefore) hchange

end Machine.Grounded

namespace Moment

variable {s : Moment}

theorem AllValues.imp {P P' : Value → Prop} (hs : s.AllValues P) (h : ∀ v, P v → P' v) :
    s.AllValues P' where
  machine :=
    ⟨hs.machine.scope.imp h, fun table htable => (hs.machine.properties table htable).imp h,
      fun info hinfo => (hs.machine.overrides info hinfo).imp h,
      fun info hinfo => (hs.machine.defaults info hinfo).imp h⟩
  waiting scope hscope := (hs.waiting scope hscope).imp h
  returned v hv := h v (hs.returned v hv)

theorem AllClasses.imp {P P' : ClassRef → Prop} (hs : s.AllClasses P) (h : ∀ c, P c → P' c) :
    s.AllClasses P' where
  builtin b := h _ (hs.builtin b)
  declared id hid := h _ (hs.declared id hid)
  names := hs.names.imp h
  parents info hinfo := h _ (hs.parents info hinfo)
  functions := hs.functions.imp fun _ hcallable => hcallable.imp h
  methods info hinfo := (hs.methods info hinfo).imp fun _ hcallable => hcallable.imp h
  values := hs.values.imp fun v => h v.cls

/-- All classes that are met exist. -/
theorem Sound.allClasses_known (hs : s.Sound) (hgrounded : s.machine.Grounded) :
    s.AllClasses s.machine.classes.Known where
  builtin _ := trivial
  declared _ hid := hid
  names := hs.machine.names
  parents info hinfo := by
    obtain ⟨id, hid⟩ := Array.getElem?_of_mem hinfo
    exact hgrounded.classes.known_parent hid
  functions := hgrounded.functions
  methods := hgrounded.methods
  values := AllValues.imp ⟨hs.machine.values, hs.waiting, hs.returned⟩ fun _ hv => hv.known

end Moment

/-- **Class chains end at the root.** At every moment of a session, the walk from any class to its
ancestors ends, whatever has been declared under whatever name: it meets no class twice, and goes
through declared classes, then at most one built-in class, to the root. So for all values, the
methods of the root are found, and any other method is unknown just if no class on the way has it.
-/
theorem class_chains_end_at_root {console : Console} {limit : Option Nat} {s : Moment}
    (h : (Moment.first console limit).Before s) :
    s.AllClasses s.machine.classes.Rooted ∧ s.AllValues s.machine.Dispatches := by
  have hfirst := Moment.sound_first console limit
  obtain ⟨-, hsound⟩ := h.sound hfirst
  have hgrounded : s.machine.Grounded :=
    (Machine.Grounded.fresh console limit).evolves (.fresh console limit) (h.evolves hfirst)
  have hrooted : s.AllClasses s.machine.classes.Rooted :=
    (hsound.allClasses_known hgrounded).imp fun c hc => hgrounded.classes.rooted hc
  exact ⟨hrooted, hrooted.values.imp fun v hv => hv.dispatches⟩

/-- A class of the given name and parent that has nothing of its own. -/
def emptyClass (name : String) (parent : Option String) : Stmt :=
  .classDecl ⟨name, parent, [], [], []⟩

/-- Classes that seem to be their own parents, and built-in names that come to stand for others: a
class that takes the name of its parent, one that takes the name of the root and descends from
`Int`, and one that then takes the name of `Int`. -/
def tangledNames : List Stmt :=
  [emptyClass "A" none, emptyClass "A" (some "A"), emptyClass "Obj" (some "Int"),
    emptyClass "Int" none]

/-- Their chains are straight, and an instance of what is now called `Obj` finds the methods of the
root, but no `init`. -/
theorem class_chains_end_at_root_tangled :
    ∃ s, (Moment.first {} none).Before s ∧
      s.machine.classes.lookup? "A" = some (.declared 1) ∧
      s.machine.classes.ancestors (.declared 1) = [.declared 1, .declared 0, .builtin .obj] ∧
      s.machine.classes.Rooted (.declared 1) ∧
      s.returned = [⟨.declared 2, .ref 0⟩] ∧
      s.machine.classes.ancestors (.declared 2) = [.declared 2, .builtin .int, .builtin .obj] ∧
      s.machine.Dispatches ⟨.declared 2, .ref 0⟩ ∧
      s.machine.classes.Lacks (.declared 2) "init" := by
  have hdeclared : (Moment.first {} none).Before _ :=
    .single (.answer (.block .topLevel tangledNames) 9 rfl)
  have hbefore := hdeclared.tail (.allocate "Obj" rfl)
  obtain ⟨hclasses, hvalues⟩ := class_chains_end_at_root hbefore
  refine ⟨_, hbefore, rfl, ?_, hclasses.declared 1 (by decide), rfl, ?_,
    hvalues.returned _ List.mem_cons_self, ?_⟩
  · rw [ClassTable.ancestors, ClassTable.declaredChain]
    change _ :: ClassTable.declaredChain _ 0 = _
    rw [ClassTable.declaredChain]
    rfl
  · rw [ClassTable.ancestors, ClassTable.declaredChain]
    rfl
  · rw [← ClassTable.resolveMethod?_eq_none_iff, ClassTable.resolveMethod?, ClassTable.ancestors,
      ClassTable.declaredChain]
    rfl

end FlannelScript
