import FlannelScript.Proofs.Defaults

/-!
# Class declarations are all or nothing

A class declaration runs code: its overrides and the defaults of its properties are expressions, and
what they do stays, whatever becomes of the declaration. All that a declaration does beyond that is
to put one new class under its name, as the very last thing. So a declaration that fails leaves the
machine as the expressions evaluated so far left it, and one that succeeds adds the class to that
(`class_declaration_atomic`).

Overrides and properties are entries of one kind here (`ClassEntry`), and `ClassDecl.Ends` lists the
ways in which a declaration can end.
-/

namespace FlannelScript

open Eval Machine

/-! ## Entries -/

/-- An entry of a class declaration: a property with the name of its type, or an override, for which
no type is given. -/
structure ClassEntry where
  name : String
  type? : Option String
  value : Expr

namespace ClassEntry

def ofOverride (d : OverrideDecl) : ClassEntry := ⟨d.name, none, d.value⟩

def ofProperty (d : PropertyDecl) : ClassEntry := ⟨d.name, some d.type, d.value⟩

variable {entry : ClassEntry} {m : Machine} {v : Value} {f : Fault}

/-- The value is of the class that the type names. -/
def Admits (entry : ClassEntry) (m : Machine) (v : Value) : Prop :=
  ∀ type, entry.type? = some type → m.classes.lookup? type = some v.cls

/-- Why a value is not admitted. -/
inductive Refuses (entry : ClassEntry) (m : Machine) (v : Value) : Fault → Prop where
  | unknownType {type : String} (htype : entry.type? = some type)
      (hunknown : m.classes.lookup? type = none) : Refuses entry m v (.unknownType type)
  | otherClass {type : String} {c : ClassRef} (htype : entry.type? = some type)
      (hc : m.classes.lookup? type = some c) (hv : v.cls ≠ c) :
      Refuses entry m v (.typeMismatch (m.classes.name c) (m.classes.name v.cls))

/-- Demand that a value is admitted. -/
def check (entry : ClassEntry) (v : Value) : Eval Unit :=
  match entry.type? with
  | none => pure ()
  | some type => do
    let c ← lookupClass type
    requireClass c v

theorem check_of_admits (h : entry.Admits m v) : entry.check v m = .ok () m := by
  rw [check]
  cases htype : entry.type? with
  | none => rfl
  | some type =>
    change (lookupClass type >>= fun c => requireClass c v) m = _
    rw [bind_apply, lookupClass, h type htype]
    exact if_pos rfl

theorem check_of_refuses (h : entry.Refuses m v f) : entry.check v m = .error ⟨f, []⟩ m := by
  rw [check]
  cases h with
  | unknownType htype hunknown =>
    rw [htype]
    change (lookupClass _ >>= fun c => requireClass c v) m = _
    rw [bind_apply, lookupClass, hunknown]
    rfl
  | otherClass htype hc hv =>
    rw [htype]
    change (lookupClass _ >>= fun c => requireClass c v) m = _
    rw [bind_apply, lookupClass, hc]
    exact if_neg hv

theorem admits_or_refuses (entry : ClassEntry) (m : Machine) (v : Value) :
    entry.Admits m v ∨ ∃ f, entry.Refuses m v f := by
  cases htype : entry.type? with
  | none => exact .inl fun type h => nomatch htype.symm.trans h
  | some type =>
    cases hc : m.classes.lookup? type with
    | none => exact .inr ⟨_, .unknownType htype hc⟩
    | some c =>
      by_cases hv : v.cls = c
      · refine .inl fun type' h => ?_
        cases htype.symm.trans h
        rw [hc, hv]
      · exact .inr ⟨_, .otherClass htype hc hv⟩

end ClassEntry

namespace Engine

variable {engine : Engine} {m m' : Machine} {entries : List ClassEntry}
  {pairs : List (String × Value)}

/-- All entries have been evaluated, each on the machine that the one before it left, and their
values are admitted. -/
inductive Evaluates (engine : Engine) :
    Machine → List ClassEntry → List (String × Value) → Machine → Prop where
  | nil (m : Machine) : Evaluates engine m [] [] m
  | cons {m m₁ m' : Machine} {entry : ClassEntry} {v : Value} {entries : List ClassEntry}
      {pairs : List (String × Value)} (hv : engine.eval entry.value m = .ok v m₁)
      (hadmits : entry.Admits m₁ v) (rest : Evaluates engine m₁ entries pairs m') :
      Evaluates engine m (entry :: entries) ((entry.name, v) :: pairs) m'

/-- The machine that is left by expressions, each evaluated once, one after the other, on the
machine that the one before it left. Only the last one may have failed. -/
inductive Leaves (engine : Engine) : Machine → List Expr → Machine → Prop where
  | nothing (m : Machine) : Leaves engine m [] m
  | next {m m₁ m' : Machine} {e : Expr} {v : Value} {exprs : List Expr}
      (hv : engine.eval e m = .ok v m₁) (rest : Leaves engine m₁ exprs m') :
      Leaves engine m (e :: exprs) m'
  | failed {m m' : Machine} {e : Expr} {error : EvalError} (h : engine.eval e m = .error error m') :
      Leaves engine m [e] m'

theorem Evaluates.leaves_append {exprs : List Expr} {m'' : Machine}
    (h : engine.Evaluates m entries pairs m') (hrest : engine.Leaves m' exprs m'') :
    engine.Leaves m (entries.map (·.value) ++ exprs) m'' := by
  induction h with
  | nil => exact hrest
  | cons hv _ _ ih => exact .next hv (ih hrest)

theorem Evaluates.leaves (h : engine.Evaluates m entries pairs m') :
    engine.Leaves m (entries.map (·.value)) m' := by
  have hleaves := h.leaves_append (.nothing m')
  rwa [List.append_nil] at hleaves

/-- Evaluate an entry. -/
def evalEntry (engine : Engine) (entry : ClassEntry) : Eval (String × Value) := do
  let v ← engine.eval entry.value
  entry.check v
  pure (entry.name, v)

/-- Overrides are evaluated as entries. -/
theorem evalOverrides_eq (engine : Engine) (overrides : List OverrideDecl) :
    engine.evalOverrides overrides = (overrides.map .ofOverride).mapM engine.evalEntry := by
  induction overrides with
  | nil => rfl
  | cons d rest ih =>
    rw [evalOverrides, ih, List.map_cons, List.mapM_cons, evalEntry]
    simp only [bind_assoc, pure_bind, ClassEntry.check, ClassEntry.ofOverride]

/-- Properties are evaluated as entries. -/
theorem evalProperties_eq (engine : Engine) (properties : List PropertyDecl) :
    engine.evalProperties properties = (properties.map .ofProperty).mapM engine.evalEntry := by
  induction properties with
  | nil => rfl
  | cons d rest ih =>
    rw [evalProperties, ih, List.map_cons, List.mapM_cons, evalEntry]
    simp only [bind_assoc, pure_bind, ClassEntry.check, ClassEntry.ofProperty]

theorem Evaluates.mapM_eq (h : engine.Evaluates m entries pairs m') :
    entries.mapM engine.evalEntry m = .ok pairs m' := by
  induction h with
  | nil => rfl
  | cons hv hadmits _ ih =>
    rw [List.mapM_cons, evalEntry, bind_assoc, bind_of_ok hv, bind_assoc,
      bind_of_ok (ClassEntry.check_of_admits hadmits), pure_bind, bind_of_ok ih]
    rfl

/-- What comes behind the entries that have been evaluated. -/
theorem Evaluates.mapM_append_bind {γ : Type} {rest : List ClassEntry}
    {g : List (String × Value) → Eval γ} (h : engine.Evaluates m entries pairs m') :
    ((entries ++ rest).mapM engine.evalEntry >>= g) m =
      (rest.mapM engine.evalEntry >>= fun others => g (pairs ++ others)) m' := by
  rw [List.mapM_append, bind_assoc, bind_of_ok h.mapM_eq, bind_assoc]
  simp only [pure_bind]

/-- Entries are evaluated up to the last one, or up to one that does not come to an end or whose
value is not admitted. -/
theorem evaluates_cases (engine : Engine) (entries : List ClassEntry) (m : Machine) :
    (∃ pairs m', engine.Evaluates m entries pairs m') ∨
    ∃ done entry rest pairs m₁, entries = done ++ entry :: rest ∧
      engine.Evaluates m done pairs m₁ ∧
      ((∃ error m', engine.eval entry.value m₁ = .error error m') ∨
        engine.eval entry.value m₁ = .outOfFuel ∨
        ∃ v m' f, engine.eval entry.value m₁ = .ok v m' ∧ entry.Refuses m' v f) := by
  induction entries generalizing m with
  | nil => exact .inl ⟨[], m, .nil m⟩
  | cons entry entries ih =>
    rcases hv : engine.eval entry.value m with ⟨v, m₁⟩ | ⟨error, m'⟩ | _
    · rcases entry.admits_or_refuses m₁ v with hadmits | ⟨f, hrefuses⟩
      · obtain ⟨pairs, m', hrest⟩ | ⟨done, entry', rest, pairs, m₂, rfl, hdone, hstop⟩ := ih m₁
        · exact .inl ⟨_, m', .cons hv hadmits hrest⟩
        · exact .inr ⟨entry :: done, entry', rest, _, m₂, rfl, .cons hv hadmits hdone, hstop⟩
      · exact .inr ⟨[], entry, entries, [], m, rfl, .nil m, .inr (.inr ⟨v, m₁, f, hv, hrefuses⟩)⟩
    · exact .inr ⟨[], entry, entries, [], m, rfl, .nil m, .inl ⟨error, m', hv⟩⟩
    · exact .inr ⟨[], entry, entries, [], m, rfl, .nil m, .inr (.inl hv)⟩

end Engine

/-! ## Types of methods -/

/-- The types that a declaration mentions, in the order in which they are looked up. -/
def FunctionDecl.types (d : FunctionDecl) : List String := d.params.map (·.type) ++ [d.returnType]

namespace ClassTable

variable {α β : Type} {t : ClassTable} {enclosing : Option String}

/-- The name is neither that of the enclosing class nor that of a class of the table. -/
def misses (t : ClassTable) (enclosing : Option String) (type : String) : Bool :=
  enclosing ≠ some type && (t.lookup? type).isNone

/-- A computation that looks up types fails at the first one that is missing, and only there. -/
def Settles (t : ClassTable) (enclosing : Option String) (types : List String)
    (x : Except Fault α) : Prop :=
  match types.find? (t.misses enclosing) with
  | some type => x = .error (.unknownType type)
  | none => ∃ a, x = .ok a

theorem Settles.pure (a : α) : t.Settles enclosing [] (.ok a) := ⟨a, rfl⟩

theorem Settles.bind {types types' : List String} {x : Except Fault α} {f : α → Except Fault β}
    (hx : t.Settles enclosing types x) (hf : ∀ a, t.Settles enclosing types' (f a)) :
    t.Settles enclosing (types ++ types') (x >>= f) := by
  rw [Settles, List.find?_append]
  rw [Settles] at hx
  cases hmissing : types.find? (t.misses enclosing) with
  | some type =>
    rw [hmissing] at hx
    obtain rfl := hx
    rfl
  | none =>
    rw [hmissing] at hx
    obtain ⟨a, rfl⟩ := hx
    exact hf a

theorem Settles.map {types : List String} {x : Except Fault α} (hx : t.Settles enclosing types x)
    (g : α → β) : t.Settles enclosing types (x >>= fun a => .ok (g a)) := by
  have hbind := hx.bind fun a => Settles.pure (g a)
  rwa [List.append_nil] at hbind

theorem settles_resolveType (t : ClassTable) (enclosing : Option String) (type : String) :
    t.Settles enclosing [type] (t.resolveType enclosing type) := by
  rw [Settles, List.find?_singleton, misses, resolveType]
  by_cases henclosing : enclosing = some type
  · simp [henclosing]
  · cases hc : t.lookup? type <;> simp [henclosing]

theorem settles_resolveParams (t : ClassTable) (enclosing : Option String) (params : List Param) :
    t.Settles enclosing (params.map (·.type)) (t.resolveParams enclosing params) := by
  induction params with
  | nil => exact .pure _
  | cons p rest ih =>
    change t.Settles enclosing ([p.type] ++ rest.map (·.type)) _
    exact (t.settles_resolveType enclosing p.type).bind fun type =>
      ih.map (Parameter.mk p.name type :: ·)

theorem settles_resolveCallable (t : ClassTable) (enclosing : Option String) (d : FunctionDecl) :
    t.Settles enclosing d.types (t.resolveCallable enclosing d) :=
  (t.settles_resolveParams enclosing d.params).bind fun _ =>
    (t.settles_resolveType enclosing d.returnType).map _

theorem settles_resolveMethods (t : ClassTable) (className : String) (decls : List FunctionDecl) :
    t.Settles (some className) (decls.flatMap (·.types)) (t.resolveMethods className decls) := by
  induction decls with
  | nil => exact .pure _
  | cons d rest ih =>
    exact (t.settles_resolveCallable (some className) d).bind fun callable =>
      ih.map ((d.name, callable) :: ·)

end ClassTable

/-! ## Declarations -/

namespace ClassDecl

/-- Everything that the declaration evaluates: first the overrides, then the properties. -/
def entries (d : ClassDecl) : List ClassEntry :=
  d.overrides.map .ofOverride ++ d.properties.map .ofProperty

/-- The expressions of the declaration, in the order of the text. -/
def exprs (d : ClassDecl) : List Expr :=
  d.overrides.map (·.value) ++ d.properties.map (·.value)

theorem map_value_entries (d : ClassDecl) : d.entries.map (·.value) = d.exprs := by
  rw [entries, exprs, List.map_append, List.map_map, List.map_map]
  rfl

/-- The parent of the class, by what names stand for in the table. -/
def parentIn? (d : ClassDecl) (t : ClassTable) : Option ClassRef :=
  match d.parent with
  | some name => t.lookup? name
  | none => some (.builtin .obj)

/-- The class that the declaration makes of the evaluated entries. -/
def info (d : ClassDecl) (parent : ClassRef) (pairs : List (String × Value))
    (methods : List (String × Callable)) : ClassInfo where
  name := d.name
  parent
  overrides := .ofList (pairs.take d.overrides.length)
  defaults := .ofList (pairs.drop d.overrides.length)
  methods := .ofList methods

/-- The ways in which a declaration can end, with the expressions evaluated by then. -/
inductive Ends (engine : Engine) (d : ClassDecl) (m : Machine) :
    List Expr → Result Unit → Prop where
  | unknownParent {name : String} (hname : d.parent = some name)
      (hunknown : m.classes.lookup? name = none) :
      Ends engine d m [] (.error ⟨.unknownType name, []⟩ m)
  /-- an expression fails -/
  | failed {parent : ClassRef} {done rest : List ClassEntry} {entry : ClassEntry}
      {pairs : List (String × Value)} {m₁ m' : Machine} {error : EvalError}
      (hparent : d.parentIn? m.classes = some parent)
      (hentries : d.entries = done ++ entry :: rest) (hdone : engine.Evaluates m done pairs m₁)
      (herror : engine.eval entry.value m₁ = .error error m') :
      Ends engine d m (done.map (·.value) ++ [entry.value]) (.error error m')
  /-- an expression runs out of fuel -/
  | exhausted {parent : ClassRef} {done rest : List ClassEntry} {entry : ClassEntry}
      {pairs : List (String × Value)} {m₁ : Machine}
      (hparent : d.parentIn? m.classes = some parent)
      (hentries : d.entries = done ++ entry :: rest) (hdone : engine.Evaluates m done pairs m₁)
      (hfuel : engine.eval entry.value m₁ = .outOfFuel) :
      Ends engine d m (done.map (·.value) ++ [entry.value]) .outOfFuel
  /-- the type of a property is unknown, or its default is of another class -/
  | refused {parent : ClassRef} {done rest : List ClassEntry} {entry : ClassEntry}
      {pairs : List (String × Value)} {m₁ m' : Machine} {v : Value} {f : Fault}
      (hparent : d.parentIn? m.classes = some parent)
      (hentries : d.entries = done ++ entry :: rest) (hdone : engine.Evaluates m done pairs m₁)
      (hv : engine.eval entry.value m₁ = .ok v m') (hrefuses : entry.Refuses m' v f) :
      Ends engine d m (done.map (·.value) ++ [entry.value]) (.error ⟨f, []⟩ m')
  /-- the type of a parameter or of a result is unknown -/
  | unknownType {parent : ClassRef} {pairs : List (String × Value)} {m' : Machine} {type : String}
      (hparent : d.parentIn? m.classes = some parent)
      (hdone : engine.Evaluates m d.entries pairs m')
      (htype : (d.methods.flatMap (·.types)).find? (m'.classes.misses (some d.name)) = some type) :
      Ends engine d m d.exprs (.error ⟨.unknownType type, []⟩ m')
  | declared {parent : ClassRef} {pairs : List (String × Value)} {before : Machine}
      {methods : List (String × Callable)} (hparent : d.parentIn? m.classes = some parent)
      (hdone : engine.Evaluates m d.entries pairs before)
      (hmethods : before.classes.resolveMethods d.name d.methods = .ok methods) :
      Ends engine d m d.exprs
        (.ok () { before with classes := before.classes.declare (d.info parent pairs methods) })

end ClassDecl

namespace Engine

variable {engine : Engine} {d : ClassDecl} {m m' : Machine}

theorem declareClass_of_unknownParent {name : String} (hname : d.parent = some name)
    (hunknown : m.classes.lookup? name = none) :
    engine.declareClass d m = .error ⟨.unknownType name, []⟩ m := by
  refine bind_of_error ?_
  rw [hname]
  change orRaise (m.classes.lookup? name) (.unknownType name) m = _
  rw [hunknown]
  rfl

/-- **One list of entries.** Once the parent is found, a declaration evaluates its entries one after
the other and then puts the class under its name. -/
theorem declareClass_of_parent {parent : ClassRef} (hparent : d.parentIn? m.classes = some parent) :
    engine.declareClass d m =
      (d.entries.mapM engine.evalEntry >>= fun pairs =>
        registerClass d parent (pairs.take d.overrides.length)
          (pairs.drop d.overrides.length)) m := by
  have hfound : declaredParent d.parent m = .ok parent m := by
    rw [ClassDecl.parentIn?] at hparent
    cases hname : d.parent with
    | none =>
      rw [hname] at hparent
      cases hparent
      rfl
    | some name =>
      rw [hname] at hparent
      change orRaise (m.classes.lookup? name) (.unknownType name) m = _
      rw [show m.classes.lookup? name = some parent from hparent]
      rfl
  have hlength : (engine.evalOverrides d.overrides).Returns (·.length = d.overrides.length) := by
    intro m₁ overrides m₂ h
    have hnames := congrArg List.length (names_of_evalOverrides h)
    rwa [List.length_map, List.length_map] at hnames
  have hphases : (engine.evalOverrides d.overrides >>= fun overrides =>
        engine.evalProperties d.properties >>= fun defaults =>
          registerClass d parent overrides defaults) =
      d.entries.mapM engine.evalEntry >>= fun pairs =>
        registerClass d parent (pairs.take d.overrides.length) (pairs.drop d.overrides.length) := by
    rw [ClassDecl.entries, List.mapM_append, ← evalOverrides_eq, ← evalProperties_eq]
    simp only [bind_assoc, pure_bind]
    refine hlength.bind_congr fun overrides hoverrides => ?_
    rw [← hoverrides]
    simp only [List.take_left, List.drop_left]
  rw [← hphases]
  exact bind_of_ok hfound

/-- A declaration whose entries have been evaluated registers the class, or fails at the first type
that is missing. -/
theorem declareClass_of_evaluates {parent : ClassRef} {pairs : List (String × Value)}
    (hparent : d.parentIn? m.classes = some parent)
    (hdone : engine.Evaluates m d.entries pairs m') :
    engine.declareClass d m =
      registerClass d parent (pairs.take d.overrides.length) (pairs.drop d.overrides.length)
        m' := by
  rw [declareClass_of_parent hparent]
  exact bind_of_ok hdone.mapM_eq

/-- A declaration that has come to one of its entries goes on with that entry. -/
theorem declareClass_of_done {parent : ClassRef} {done rest : List ClassEntry} {entry : ClassEntry}
    {pairs : List (String × Value)} (hparent : d.parentIn? m.classes = some parent)
    (hentries : d.entries = done ++ entry :: rest) (hdone : engine.Evaluates m done pairs m') :
    ∃ g : Value → Eval Unit, engine.declareClass d m =
      (engine.eval entry.value >>= fun v => entry.check v >>= fun _ => g v) m' := by
  rw [declareClass_of_parent hparent, hentries, hdone.mapM_append_bind]
  simp only [List.mapM_cons, evalEntry, bind_assoc, pure_bind]
  exact ⟨_, rfl⟩

end Engine

namespace ClassDecl

variable {engine : Engine} {d : ClassDecl} {m m' : Machine} {evaluated : List Expr}
  {r : Result Unit}

/-- Each way to end is what the declaration comes to. -/
theorem Ends.declareClass_eq (h : d.Ends engine m evaluated r) : engine.declareClass d m = r := by
  cases h with
  | unknownParent hname hunknown => exact Engine.declareClass_of_unknownParent hname hunknown
  | failed hparent hentries hdone herror =>
    obtain ⟨g, hg⟩ := Engine.declareClass_of_done hparent hentries hdone
    exact hg.trans (bind_of_error herror)
  | exhausted hparent hentries hdone hfuel =>
    obtain ⟨g, hg⟩ := Engine.declareClass_of_done hparent hentries hdone
    rw [hg, bind_apply, hfuel]
  | refused hparent hentries hdone hv hrefuses =>
    obtain ⟨g, hg⟩ := Engine.declareClass_of_done hparent hentries hdone
    rw [hg, bind_of_ok hv]
    exact bind_of_error (ClassEntry.check_of_refuses hrefuses)
  | @unknownType _ _ m' _ hparent hdone htype =>
    have hsettles := m'.classes.settles_resolveMethods d.name d.methods
    rw [ClassTable.Settles, htype] at hsettles
    rw [Engine.declareClass_of_evaluates hparent hdone, Engine.registerClass_apply, hsettles]
  | declared hparent hdone hmethods =>
    rw [Engine.declareClass_of_evaluates hparent hdone, Engine.registerClass_apply, hmethods]
    rfl

/-- A declaration ends in one of these ways. -/
theorem exists_ends (engine : Engine) (d : ClassDecl) (m : Machine) :
    ∃ evaluated r, d.Ends engine m evaluated r := by
  cases hparent : d.parentIn? m.classes with
  | none =>
    cases hname : d.parent with
    | none =>
      rw [parentIn?, hname] at hparent
      cases hparent
    | some name =>
      rw [parentIn?, hname] at hparent
      exact ⟨_, _, .unknownParent hname hparent⟩
  | some parent =>
    obtain ⟨pairs, before, hdone⟩ | ⟨done, entry, rest, pairs, m₁, hentries, hdone, hstop⟩ :=
      engine.evaluates_cases d.entries m
    · have hsettles := before.classes.settles_resolveMethods d.name d.methods
      rw [ClassTable.Settles] at hsettles
      split at hsettles
      · rename_i type htype
        exact ⟨_, _, .unknownType hparent hdone htype⟩
      · obtain ⟨methods, hmethods⟩ := hsettles
        exact ⟨_, _, .declared hparent hdone hmethods⟩
    · obtain ⟨error, m', herror⟩ | hfuel | ⟨v, m', f, hv, hrefuses⟩ := hstop
      · exact ⟨_, _, .failed hparent hentries hdone herror⟩
      · exact ⟨_, _, .exhausted hparent hentries hdone hfuel⟩
      · exact ⟨_, _, .refused hparent hentries hdone hv hrefuses⟩

theorem declareClass_eq_iff :
    engine.declareClass d m = r ↔ ∃ evaluated, d.Ends engine m evaluated r := by
  constructor
  · rintro rfl
    obtain ⟨evaluated, r, hends⟩ := exists_ends engine d m
    rw [hends.declareClass_eq]
    exact ⟨evaluated, hends⟩
  · rintro ⟨evaluated, hends⟩
    exact hends.declareClass_eq

/-- **Nothing but the expressions.** What has been evaluated is the first part of the declaration,
and a failed declaration leaves the machine that this part left. -/
theorem Ends.leaves {e : EvalError} (h : d.Ends engine m evaluated (.error e m')) :
    evaluated <+: d.exprs ∧ engine.Leaves m evaluated m' := by
  have hpart {done rest : List ClassEntry} {entry : ClassEntry}
      (hentries : d.entries = done ++ entry :: rest) :
      done.map (·.value) ++ [entry.value] <+: d.exprs := by
    rw [← map_value_entries, hentries]
    exact ⟨rest.map (·.value), by simp⟩
  cases h with
  | unknownParent => exact ⟨List.nil_prefix, .nothing m⟩
  | failed _ hentries hdone herror => exact ⟨hpart hentries, hdone.leaves_append (.failed herror)⟩
  | refused _ hentries hdone hv =>
    exact ⟨hpart hentries, hdone.leaves_append (.next hv (.nothing _))⟩
  | unknownType _ hdone =>
    rw [← map_value_entries]
    exact ⟨List.prefix_rfl, hdone.leaves⟩

end ClassDecl

/-- The second machine is the first one with one more class, which is registered under its name in
place of what the name stood for. -/
structure Machine.Registers (before : Machine) (info : ClassInfo) (after : Machine) : Prop where
  /-- nothing has changed but the classes -/
  rest : after = { before with classes := after.classes }
  new : ¬before.classes.Known before.classes.next
  known : ∀ c, after.classes.Known c ↔ before.classes.Known c ∨ c = before.classes.next
  declaration : after.classes.info? before.classes.next = some info
  lookup : after.classes.lookup? info.name = some before.classes.next
  otherNames : ∀ name, name ≠ info.name → after.classes.lookup? name = before.classes.lookup? name
  otherClasses : ∀ c, before.classes.Known c → before.classes.SameClass after.classes c

theorem Machine.registers_declare (before : Machine) (info : ClassInfo) :
    before.Registers info { before with classes := before.classes.declare info } where
  rest := rfl
  new := before.classes.not_known_next
  known c := by
    refine ⟨ClassTable.Known.of_declare, ?_⟩
    rintro (hc | rfl)
    · exact hc.mono (ClassTable.extends_declare _ info)
    · exact before.classes.known_next_declare info
  declaration := before.classes.info?_next_declare info
  lookup := by rw [ClassTable.lookup?_declare, if_pos rfl]
  otherNames name hname := by rw [ClassTable.lookup?_declare, if_neg (Ne.symm hname)]
  otherClasses c hc := (ClassTable.extends_declare _ info).sameClass hc

/-- **All or nothing.** A declaration ends in one of the ways listed, whatever code its expressions
run. If it fails, the machine is the one left by the expressions evaluated so far, which are the
first ones of the declaration, each evaluated once. If it succeeds, all have been evaluated and
admitted, and the only difference that the declaration makes beyond them is one new class under its
name; the parent of that class is what its name stood for before any of the expressions ran. -/
theorem class_declaration_atomic (engine : Engine) (d : ClassDecl) (m : Machine) :
    (∀ r, engine.declareClass d m = r ↔ ∃ evaluated, d.Ends engine m evaluated r) ∧
    (∀ e m', engine.declareClass d m = .error e m' →
      ∃ evaluated, evaluated <+: d.exprs ∧ engine.Leaves m evaluated m') ∧
    ∀ m', engine.declareClass d m = .ok () m' →
      ∃ parent pairs methods before, d.parentIn? m.classes = some parent ∧
        engine.Evaluates m d.entries pairs before ∧ engine.Leaves m d.exprs before ∧
        before.classes.resolveMethods d.name d.methods = .ok methods ∧
        before.Registers (d.info parent pairs methods) m' := by
  refine ⟨fun r => ClassDecl.declareClass_eq_iff, fun e m' herror => ?_, fun m' hok => ?_⟩
  · obtain ⟨evaluated, hends⟩ := ClassDecl.declareClass_eq_iff.mp herror
    exact ⟨evaluated, hends.leaves⟩
  · obtain ⟨evaluated, hends⟩ := ClassDecl.declareClass_eq_iff.mp hok
    obtain _ | _ | _ | _ | _ | ⟨hparent, hdone, hmethods⟩ := hends
    rw [← d.map_value_entries]
    exact ⟨_, _, _, _, hparent, hdone, hdone.leaves, hmethods, Machine.registers_declare _ _⟩

/-- A machine with a class `P` and a function `f` that declares a class of the same name anew. -/
def Machine.redeclaring : Machine where
  classes := ClassTable.initial.declare ⟨"P", .builtin .obj, ∅, ∅, ∅⟩
  functions := .ofList
    [("f", ⟨"f", [], .cls (.builtin .int), [.classDecl ⟨"P", none, [], [], []⟩, .ret (.ofInt 1)]⟩)]

/-- A child of `P` with a property for which `f` is called. -/
def ClassDecl.calling (type : String) : ClassDecl :=
  ⟨"C", some "P", [], [⟨type, "n", .call "f" []⟩], []⟩

/-- The new class is a child of the class that was called `P` at first, though another one is called
so by then. If the type of its property is unknown, all that remains is what `f` has declared. -/
theorem class_declaration_atomic_redeclaring :
    (∃ m', (Engine.withFuel 9).declareClass (.calling "Int") .redeclaring = .ok () m' ∧
      m'.classes.lookup? "P" = some (.declared 1) ∧ m'.classes.lookup? "C" = some (.declared 2) ∧
      (m'.classes.info? (.declared 2)).map (·.parent) = some (.declared 0)) ∧
    ∃ e m', (Engine.withFuel 9).declareClass (.calling "Missing") .redeclaring = .error e m' ∧
      (Engine.withFuel 9).Leaves .redeclaring [.call "f" []] m' ∧
      m'.classes.lookup? "P" = some (.declared 1) ∧ m'.classes.lookup? "C" = none := by
  obtain ⟨-, -, hok⟩ := class_declaration_atomic (Engine.withFuel 9) (.calling "Int") .redeclaring
  obtain ⟨-, herror, -⟩ :=
    class_declaration_atomic (Engine.withFuel 9) (.calling "Missing") .redeclaring
  refine ⟨⟨_, rfl, rfl, rfl, ?_⟩, ⟨_, _, rfl, ?_, rfl, rfl⟩⟩
  · obtain ⟨parent, pairs, methods, before, hparent, -, -, -, hregisters⟩ := hok _ rfl
    have hnext : before.classes.next = .declared 2 :=
      Option.some.inj (hregisters.lookup.symm.trans rfl)
    have hclass := hregisters.declaration
    rw [hnext] at hclass
    rw [hclass]
    exact hparent.symm
  · obtain ⟨evaluated, hevaluated, hleaves⟩ := herror _ _ rfl
    -- were nothing evaluated, `P` would still be the old class
    cases hleaves with
    | next hv rest =>
      obtain ⟨rfl, hrest⟩ := List.cons_prefix_cons.mp hevaluated
      obtain rfl := List.prefix_nil.mp hrest
      exact .next hv rest
    | failed h =>
      obtain ⟨rfl, -⟩ := List.cons_prefix_cons.mp hevaluated
      exact .failed h

end FlannelScript
