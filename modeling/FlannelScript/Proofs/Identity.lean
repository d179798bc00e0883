import FlannelScript.Proofs.Changes

/-!
# The identity of classes

A class is what one declaration made, a name is what it can be found by, and the two come apart when
a name is declared anew. The old class stays as it is, together with all that follows from its
declaration (`ClassTable.SameClass`), for those who still hold a reference to it: its instances, the
classes that descend from it, the callables with parameters of that type. The name leads to the new
class, and where the new class is asked for, values of the old one are refused (`ClassRef.Refuses`).

What names lead to has that name, be it a class, a function or a method (`Machine.Named`).
-/

namespace FlannelScript

open Eval Machine

/-! ## Everything under its own name -/

namespace Bindings

variable {α : Type}

theorem mem_or_mem_of_mem_insertAll {t : Bindings α} {pairs : List (String × α)} {p : String × α}
    (h : p ∈ (t.insertAll pairs).entries) : p ∈ pairs ∨ p ∈ t.entries := by
  induction pairs generalizing t with
  | nil => exact .inr h
  | cons q rest ih =>
    rcases ih h with h | h
    · exact .inl (List.mem_cons_of_mem q h)
    · rcases eq_or_mem_of_mem_put h with rfl | h
      · exact .inl List.mem_cons_self
      · exact .inr h

theorem mem_of_get?_ofList {pairs : List (String × α)} {name : String} {a : α}
    (h : (ofList pairs).get? name = some a) : (name, a) ∈ pairs := by
  rcases mem_or_mem_of_mem_insertAll (mem_of_find h) with h | h
  · exact h
  · cases h

end Bindings

/-- Every name of a class, a function or a method leads to something of that name. -/
structure Machine.Named (m : Machine) : Prop where
  classes : ∀ name c, m.classes.lookup? name = some c → m.classes.Known c ∧ m.classes.name c = name
  functions : ∀ name callable, m.functions.get? name = some callable → callable.name = name
  methods : ∀ c name callable, m.classes.ownMethod? c name = some callable → callable.name = name

namespace ClassTable

variable {t t' : ClassTable}

theorem name_of_resolveCallable {enclosing : Option String} {d : FunctionDecl} {callable : Callable}
    (h : t.resolveCallable enclosing d = .ok callable) : callable.name = d.name := by
  obtain ⟨params, -, h⟩ := exists_of_bind_eq_ok h
  obtain ⟨returns, -, h⟩ := exists_of_bind_eq_ok h
  cases h
  rfl

theorem name_of_mem_resolveMethods {className : String} {decls : List FunctionDecl}
    {methods : List (String × Callable)} (h : t.resolveMethods className decls = .ok methods)
    {p : String × Callable} (hp : p ∈ methods) : p.2.name = p.1 := by
  induction decls generalizing methods with
  | nil =>
    cases h
    cases hp
  | cons d rest ih =>
    obtain ⟨callable, hcallable, h⟩ := exists_of_bind_eq_ok h
    obtain ⟨others, hothers, h⟩ := exists_of_bind_eq_ok h
    cases h
    rcases List.mem_cons.mp hp with rfl | hp
    · exact name_of_resolveCallable hcallable
    · exact ih hothers hp

/-- The reference to the class that is declared next. -/
def next (t : ClassTable) : ClassRef := .declared t.classes.size

theorem not_known_next (t : ClassTable) : ¬t.Known t.next := Nat.lt_irrefl t.classes.size

theorem known_next_declare (t : ClassTable) (info : ClassInfo) : (t.declare info).Known t.next := by
  change t.classes.size < (t.classes.push info).size
  rw [Array.size_push]
  exact Nat.lt_succ_self _

theorem info?_next_declare (t : ClassTable) (info : ClassInfo) :
    (t.declare info).info? t.next = some info :=
  Array.getElem?_push_size

theorem name_next_declare (t : ClassTable) (info : ClassInfo) :
    (t.declare info).name t.next = info.name := by
  have hinfo := t.info?_next_declare info
  change (t.declare info).classes[t.classes.size]? = some info at hinfo
  rw [next, name, hinfo]
  rfl

theorem lookup?_declare (t : ClassTable) (info : ClassInfo) (name : String) :
    (t.declare info).lookup? name = if info.name = name then some t.next else t.lookup? name :=
  t.names.get?_insert info.name name t.next

/-- What is known after a declaration was known before it or is the new class. -/
theorem Known.of_declare {info : ClassInfo} {c : ClassRef} (hc : (t.declare info).Known c) :
    t.Known c ∨ c = t.next := by
  cases c with
  | builtin b => exact .inl trivial
  | declared id =>
    change id < (t.classes.push info).size at hc
    rw [Array.size_push] at hc
    rcases Nat.lt_or_eq_of_le (Nat.le_of_lt_succ hc) with hlt | rfl
    · exact .inl hlt
    · exact .inr rfl

theorem Known.of_info? {c : ClassRef} {info : ClassInfo} (h : t.info? c = some info) : t.Known c := by
  cases c with
  | builtin b => trivial
  | declared id => exact (Array.getElem?_eq_some_iff.mp h).1

/-! ## Declared classes stay as they are -/

/-- In both tables the class has the same declaration, and all that follows from it is the same. -/
structure SameClass (t t' : ClassTable) (c : ClassRef) : Prop where
  /-- name, parent, overrides, defaults and methods, as declared -/
  info : t'.info? c = t.info? c
  name : t'.name c = t.name c
  parent : t'.parent? c = t.parent? c
  ancestors : t'.ancestors c = t.ancestors c
  mergedDefaults : t'.mergedDefaults c = t.mergedDefaults c
  ownMethod : ∀ method, t'.ownMethod? c method = t.ownMethod? c method
  findMethod : ∀ method, t'.findMethod? c method = t.findMethod? c method
  resolveMethod : ∀ method, t'.resolveMethod? c method = t.resolveMethod? c method

theorem Extends.getElem? (h : t.Extends t') {id : Nat} (hid : t.Known (.declared id)) :
    t'.classes[id]? = t.classes[id]? :=
  h.info? hid

theorem Extends.name (h : t.Extends t') {c : ClassRef} (hc : t.Known c) : t'.name c = t.name c := by
  cases c with
  | builtin b => rfl
  | declared id => rw [ClassTable.name, ClassTable.name, h.getElem? hc]

theorem Extends.ownMethod? (h : t.Extends t') {c : ClassRef} (hc : t.Known c) (method : String) :
    t'.ownMethod? c method = t.ownMethod? c method := by
  rw [ClassTable.ownMethod?, ClassTable.ownMethod?, h.info? hc]

/-- What is looked for along the ancestors of a known class is found in both tables or in none. -/
theorem Extends.findSome?_ancestors (h : t.Extends t') {c : ClassRef} (hc : t.Known c) {α : Type}
    {f f' : ClassRef → Option α} (hf : ∀ owner, t.Known owner → f' owner = f owner) :
    (t'.ancestors c).findSome? f' = (t.ancestors c).findSome? f := by
  rw [h.ancestors hc]
  have hknown : ∀ owner ∈ t.ancestors c, t.Known owner := fun owner howner =>
    hc.of_mem_ancestors howner
  generalize t.ancestors c = chain at hknown
  induction chain with
  | nil => rfl
  | cons owner rest ih =>
    obtain ⟨howner, hrest⟩ := List.forall_mem_cons.mp hknown
    rw [List.findSome?_cons, List.findSome?_cons, hf owner howner, ih hrest]

theorem Extends.definition? (h : t.Extends t') {c : ClassRef} (hc : t.Known c) (method : String) :
    t'.definition? method c = t.definition? method c := by
  cases c with
  | builtin b => rfl
  | declared id => rw [ClassTable.definition?, ClassTable.definition?, h.ownMethod? hc]

/-- **Declared classes stay as they are**, and so does all that follows from their declarations. -/
theorem Extends.sameClass (h : t.Extends t') {c : ClassRef} (hc : t.Known c) : t.SameClass t' c where
  info := h.info? hc
  name := h.name hc
  parent := by
    cases c with
    | builtin b => cases b <;> rfl
    | declared id => rw [parent?, parent?, h.getElem? hc]
  ancestors := h.ancestors hc
  mergedDefaults := h.mergedDefaults hc
  ownMethod := h.ownMethod? hc
  findMethod method := h.findSome?_ancestors hc fun owner howner => by rw [h.ownMethod? howner]
  resolveMethod method := h.findSome?_ancestors hc fun owner howner => h.definition? howner method

end ClassTable

/-! ## Names through a session -/

namespace Machine.Named

variable {m m' : Machine}

theorem fresh (console : Console) (limit : Option Nat) : (fresh console limit).Named where
  classes name c hc := by
    obtain ⟨b, -, hb⟩ := List.mem_map.mp (Bindings.mem_of_get?_ofList hc)
    cases hb
    exact ⟨trivial, rfl⟩
  functions := nofun
  methods c name callable h := by
    obtain ⟨info, hinfo, -⟩ := Option.bind_eq_some_iff.mp h
    cases c with
    | builtin b => cases hinfo
    | declared id => cases hinfo

theorem declareFunction (h : m.Named) {d : FunctionDecl} {callable : Callable}
    (hcallable : m.classes.resolveCallable none d = .ok callable) :
    Machine.Named { m with functions := m.functions.insert d.name callable } where
  classes := h.classes
  functions name other hother := by
    rw [Bindings.get?_insert] at hother
    split at hother
    · rename_i hname
      cases hother
      rw [ClassTable.name_of_resolveCallable hcallable, hname]
    · exact h.functions name other hother
  methods := h.methods

theorem declareClass (h : m.Named) {d : ClassDecl} (parent : ClassRef)
    (overrides defaults : List (String × Value)) {methods : List (String × Callable)}
    (hmethods : m.classes.resolveMethods d.name d.methods = .ok methods) :
    Machine.Named { m with
      classes := m.classes.declare
        ⟨d.name, parent, .ofList overrides, .ofList defaults, .ofList methods⟩ } where
  classes name c hc := by
    have hextends := m.classes.extends_declare
      ⟨d.name, parent, .ofList overrides, .ofList defaults, .ofList methods⟩
    rw [ClassTable.lookup?_declare] at hc
    split at hc
    · rename_i hname
      cases hc
      exact ⟨ClassTable.known_next_declare _ _, (ClassTable.name_next_declare _ _).trans hname⟩
    · obtain ⟨hknown, hname⟩ := h.classes name c hc
      exact ⟨hknown.mono hextends, (hextends.name hknown).trans hname⟩
  functions := h.functions
  methods c name callable hcallable := by
    have hextends := m.classes.extends_declare
      ⟨d.name, parent, .ofList overrides, .ofList defaults, .ofList methods⟩
    obtain ⟨info, hinfo, hmethod⟩ := Option.bind_eq_some_iff.mp hcallable
    rcases (ClassTable.Known.of_info? hinfo).of_declare with hknown | rfl
    · rw [hextends.ownMethod? hknown] at hcallable
      exact h.methods c name callable hcallable
    · rw [ClassTable.info?_next_declare] at hinfo
      cases hinfo
      exact ClassTable.name_of_mem_resolveMethods hmethods (Bindings.mem_of_get?_ofList hmethod)

/-- **One change** keeps everything under its own name. -/
theorem change (h : m.Named) (hchange : m.Change m') : m'.Named := by
  cases hchange with
  | activation | setProperty | newInstance | printLine | readLine =>
    exact ⟨h.classes, h.functions, h.methods⟩
  | declareClass _ hmethods => exact h.declareClass _ _ _ hmethods
  | declareFunction hcallable => exact h.declareFunction hcallable

theorem evolves (h : m.Named) (hevolves : m.Evolves m') : m'.Named := by
  induction hevolves with
  | refl => exact h
  | tail _ hchange ih => exact ih.change hchange

end Machine.Named

/-! ## Declarations make new classes -/

/-- The new class of a declaration did not exist before, and its name leads to it. -/
structure Machine.Declares (m : Machine) (d : ClassDecl) (m' : Machine) (c : ClassRef) : Prop where
  /-- all that the machine was when everything in the declaration had been evaluated -/
  before : ∃ before : Machine, m.Grows before ∧ ¬before.classes.Known c ∧
    ∃ info, info.name = d.name ∧ m' = { before with classes := before.classes.declare info } ∧
      m'.classes.info? c = some info
  lookup : m'.classes.lookup? d.name = some c

theorem Engine.Sound.declares {engine : Engine} (h : engine.Sound) {d : ClassDecl} {m m' : Machine}
    (hm : m.Sound) (hok : engine.declareClass d m = .ok () m') : ∃ c, m.Declares d m' c := by
  obtain ⟨parent, m₁, hparent, hok⟩ := bind_eq_ok hok
  obtain ⟨overrides, m₂, hoverrides, hok⟩ := bind_eq_ok hok
  obtain ⟨defaults, m₃, hdefaults, hok⟩ := bind_eq_ok hok
  have hok : registerClass d parent overrides defaults m₃ = .ok () m' := hok
  -- what is evaluated first only adds to the machine
  have hexprs : ∀ exprs : List Expr, ∀ e ∈ exprs, Regime.wellFormed.expr e := fun _ _ _ => trivial
  have hsound₁ := (Regime.Course.declaredParent d.parent).sound h hm
  rw [hparent] at hsound₁
  obtain ⟨hgrows₁, hm₁⟩ := hsound₁.machine m₁ rfl
  have hsound₂ := (Regime.Course.evalOverrides (hexprs (d.overrides.map (·.value)))).sound h hm₁
  rw [hoverrides] at hsound₂
  obtain ⟨hgrows₂, hm₂⟩ := hsound₂.machine m₂ rfl
  have hsound₃ := (Regime.Course.evalProperties (hexprs (d.properties.map (·.value)))).sound h hm₂
  rw [hdefaults] at hsound₃
  obtain ⟨hgrows₃, -⟩ := hsound₃.machine m₃ rfl
  rw [registerClass_apply] at hok
  cases hmethods : m₃.classes.resolveMethods d.name d.methods with
  | error f =>
    rw [hmethods] at hok
    cases hok
  | ok methods =>
    rw [hmethods] at hok
    cases hok
    refine ⟨m₃.classes.next, ⟨m₃, (hgrows₁.trans hgrows₂).trans hgrows₃,
      m₃.classes.not_known_next, _, rfl, rfl, m₃.classes.info?_next_declare _⟩, ?_⟩
    rw [ClassTable.lookup?_declare, if_pos rfl]

/-! ## Values of another class are refused -/

/-- The class that a parameter type stands for in a method of the given class. -/
def ParamType.meant (owner : Option ClassRef) : ParamType → Option ClassRef
  | .cls c => some c
  | .enclosing => owner

/-- Wherever the class is asked for, the value is refused: for a variable and for a property of that
type, and for a parameter of that type, be it that the type was named in the declaration of the
callable or that it is the class around it. -/
structure ClassRef.Refuses (m : Machine) (c : ClassRef) (v : Value) : Prop where
  variableOf : ∀ (engine : Engine) (mode : Mode) (type name : String) (e : Expr) (start : Machine),
    engine.eval e start = .ok v m → m.classes.lookup? type = some c →
      engine.execStmt mode (.varDecl type name e) start =
        .error ⟨.typeMismatch (m.classes.name c) (m.classes.name v.cls), []⟩ m
  propertyOf : ∀ (engine : Engine) (d : PropertyDecl) (rest : List PropertyDecl) (start : Machine),
    engine.eval d.value start = .ok v m → m.classes.lookup? d.type = some c →
      engine.evalProperties (d :: rest) start =
        .error ⟨.typeMismatch (m.classes.name c) (m.classes.name v.cls), []⟩ m
  argumentOf : ∀ (engine : Engine) (callable : Callable) (owner : Option ClassRef)
    (receiver : Option Value) (frame : String) (front back : List Parameter) (p : Parameter)
    (before after : List Value), callable.params = front ++ p :: back →
      callable.arity = (before ++ v :: after).length → front.length = before.length →
      m.classes.checkArguments owner front before = .ok () → p.type.meant owner = some c →
      engine.invoke callable owner receiver (before ++ v :: after) frame m =
        .error ⟨.typeMismatch (m.classes.name c) (m.classes.name v.cls), []⟩ m

theorem ClassTable.checkArguments_append (t : ClassTable) (owner : Option ClassRef)
    {front back : List Parameter} {before after : List Value} (hlength : front.length = before.length)
    (h : t.checkArguments owner front before = .ok ()) :
    t.checkArguments owner (front ++ back) (before ++ after) = t.checkArguments owner back after := by
  induction front generalizing before with
  | nil =>
    cases before with
    | nil => rfl
    | cons v before => cases hlength
  | cons p front ih =>
    cases before with
    | nil => cases hlength
    | cons v before =>
      rw [checkArguments] at h
      rw [List.cons_append, List.cons_append, checkArguments]
      split at h
      · rename_i haccepts
        rw [if_pos haccepts]
        exact ih (Nat.succ.inj hlength) h
      · cases h

theorem Machine.requireClass_of_ne {c : ClassRef} {v : Value} (h : v.cls ≠ c) (m : Machine) :
    requireClass c v m = .error ⟨.typeMismatch (m.classes.name c) (m.classes.name v.cls), []⟩ m := by
  rw [requireClass, if_neg h]
  rfl

/-- **Identity counts.** Values of another class are refused, whatever the classes are named. -/
theorem ClassRef.refuses_of_ne {c : ClassRef} {v : Value} (h : v.cls ≠ c) (m : Machine) :
    c.Refuses m v where
  variableOf engine mode type name e start heval hlookup := by
    rw [Engine.execStmt, bind_of_ok heval]
    have hclass : lookupClass type m = .ok c m := by
      rw [lookupClass, hlookup]
      rfl
    rw [bind_of_ok hclass, bind_apply, requireClass_of_ne h]
  propertyOf engine d rest start heval hlookup := by
    rw [Engine.evalProperties, bind_of_ok heval]
    have hclass : lookupClass d.type m = .ok c m := by
      rw [lookupClass, hlookup]
      rfl
    rw [bind_of_ok hclass, bind_apply, requireClass_of_ne h]
  argumentOf engine callable owner receiver frame front back p before after hparams harity hlength
      haccepted hmeant := by
    refine engine.invoke_of_error receiver ?_
    have hcheck : m.classes.checkArguments owner callable.params (before ++ v :: after) =
        .error (.typeMismatch (m.classes.name c) (m.classes.name v.cls)) := by
      rw [hparams, m.classes.checkArguments_append owner hlength haccepted,
        ClassTable.checkArguments]
      cases htype : p.type with
      | cls c' =>
        rw [htype] at hmeant
        cases hmeant
        rw [if_neg (by simpa [ParamType.accepts] using h)]
        rfl
      | enclosing =>
        rw [htype] at hmeant
        cases (show owner = some c from hmeant)
        rw [if_neg (by simpa [ParamType.accepts] using Ne.symm h)]
        rfl
    rw [Engine.checkCall, if_neg (by simp [harity]), hcheck]
    rfl

/-- **Classes keep their identity.** At every moment of a session, names lead to what has that name.
From then on, all classes that exist stay as they are, whatever is declared. Each declaration of a
class makes a class that did not exist before. So what a method name means for a value never
changes, and where a class is asked for that has been declared since, under the name of the class of
the value or another one, the value is refused. -/
theorem class_identity {console : Console} {limit : Option Nat} {s : Moment}
    (h : (Moment.first console limit).Before s) :
    s.machine.Named ∧
    (∀ s', s.Before s' → ∀ c, s.machine.classes.Known c →
      s.machine.classes.SameClass s'.machine.classes c) ∧
    (∀ fuel mode d flow m',
      (Engine.withFuel fuel).execStmt mode (.classDecl d) s.machine = .ok flow m' →
        ∃ c, s.machine.Declares d m' c) ∧
    ∀ s', s.Before s' → ∀ v : Value, s.machine.classes.Known v.cls →
      (∀ method, s'.machine.classes.resolveMethod? v.cls method =
        s.machine.classes.resolveMethod? v.cls method) ∧
      ∀ name c, s'.machine.classes.lookup? name = some c → ¬s.machine.classes.Known c →
        s'.machine.classes.name c = name ∧ c.Refuses s'.machine v := by
  have hfirst := Moment.sound_first console limit
  obtain ⟨-, hsound⟩ := h.sound hfirst
  have hnamed : s.machine.Named := (Machine.Named.fresh console limit).evolves (h.evolves hfirst)
  have hsame : ∀ s', s.Before s' → ∀ c, s.machine.classes.Known c →
      s.machine.classes.SameClass s'.machine.classes c := fun s' hs' c hc =>
    (hs'.sound hsound).1.classes.sameClass hc
  refine ⟨hnamed, hsame, fun fuel mode d flow m' hok => ?_, fun s' hs' v hv => ⟨?_, ?_⟩⟩
  · obtain ⟨_, m₁, hdeclare, hpure⟩ := bind_eq_ok hok
    cases hpure
    exact (Engine.withFuel_sound fuel).declares hsound.machine hdeclare
  · exact (hsame s' hs' v.cls hv).resolveMethod
  · intro name c hc hnew
    have hnamed' : s'.machine.Named := hnamed.evolves (hs'.evolves hsound)
    refine ⟨(hnamed'.classes name c hc).2, ClassRef.refuses_of_ne ?_ s'.machine⟩
    rintro rfl
    exact hnew hv

/-- A class `P` whose method `m` has the given body. -/
def classP (body : List Stmt) : Stmt :=
  .classDecl
    { name := "P"
      parent := none
      overrides := []
      properties := []
      methods := [⟨"m", [], "Und", body⟩] }

/-- An instance of `P` is allocated and `P` is declared anew: the instance keeps its method, and as
it is not a `P` any more, it is refused where one is asked for. -/
theorem class_identity_declared_twice :
    ∃ s s', (Moment.first {} none).Before s ∧ s.Before s' ∧
      s.returned = [⟨.declared 0, .ref 0⟩] ∧
      s'.machine.classes.lookup? "P" = some (.declared 1) ∧
      s'.machine.classes.name (.declared 0) = "P" ∧
      s'.machine.classes.resolveMethod? (.declared 0) "m" =
        s.machine.classes.resolveMethod? (.declared 0) "m" ∧
      ClassRef.Refuses s'.machine (.declared 1) ⟨.declared 0, .ref 0⟩ ∧
      (∃ c, s.machine.Declares ⟨"P", none, [], [], [⟨"m", [], "Und", []⟩]⟩ s'.machine c) := by
  have hstart : (Moment.first {} none).Before ⟨.fresh {} none, [.topLevel], []⟩ := .single .start
  have hdeclared := hstart.tail (.answer (.stmt .topLevel (classP [.echo (.name "und")])) 5 rfl)
  have hallocated := hdeclared.tail (.allocate "P" rfl)
  obtain ⟨-, -, hdeclares, hvalues⟩ := class_identity hallocated
  obtain ⟨hmethods, hrefused⟩ := hvalues _
    (.single (.answer (.stmt .topLevel (classP [])) 5 rfl)) ⟨.declared 0, .ref 0⟩ Nat.zero_lt_one
  refine ⟨_, _, hallocated, .single (.answer (.stmt .topLevel (classP [])) 5 rfl), rfl, rfl, rfl,
    hmethods "m", ?_, hdeclares 5 .topLevel _ .next _ rfl⟩
  exact (hrefused "P" (.declared 1) rfl (Nat.lt_irrefl 1)).2

end FlannelScript
