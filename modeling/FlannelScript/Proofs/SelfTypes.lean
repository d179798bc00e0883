import FlannelScript.Proofs.Alike
import FlannelScript.Proofs.Atomicity
import FlannelScript.Proofs.Dispatch

/-!
# What a class means by its own name

The types of parameters are settled when a method is declared, with one exception: inside a class,
the name of the class means the class that is being declared, and that does not exist yet. Which
class it is must be found out at each call, from the class on which the method is found. That class
is always the one that the declaration around the method went on to make (`Machine.Creates`), so in
the end a parameter takes values of one class only, which is known from the declaration
(`ClassDecl.Takes`). It does not matter by which of its descendants the method was found, or what
other classes of that name there have been before or since. Whether a call is run or refused, and
how, follows from that alone (`Callable.Implements`).

Functions are not inside of any class, and have no such types (`Callable.SelfFree`). They take
values of the classes that had the names when they were declared (`ClassTable.Named`).
-/

namespace FlannelScript

open Eval Machine

/-! ## Types and what they accept -/

/-- No type of the callable is the class around it. -/
structure Callable.SelfFree (callable : Callable) : Prop where
  params : ∀ p ∈ callable.params, p.type ≠ .enclosing
  returns : callable.returns ≠ .enclosing

/-- What a parameter takes in a method of the class `c`, by what names stood for when the class was
declared: values of the class itself, if that is what the type names, and else values of the class
that had the name. -/
def ClassDecl.Takes (d : ClassDecl) (t : ClassTable) (c : ClassRef) (p : Param) (v : Value) :
    Prop :=
  if p.type = d.name then v.cls = c else t.lookup? p.type = some v.cls

/-- What a parameter takes in a function, by what names stood for when the function was declared. -/
def ClassTable.Named (t : ClassTable) (p : Param) (v : Value) : Prop :=
  t.lookup? p.type = some v.cls

/-- A type accepts the values of exactly one class. -/
theorem ParamType.accepts_iff (type : ParamType) (owner : Option ClassRef) (v : Value) :
    type.accepts owner v = true ↔ type.meant owner = some v.cls := by
  cases type <;> simp [accepts, meant, eq_comm]

namespace ClassTable

variable {t : ClassTable} {enclosing : Option String}

theorem resolveType_ne_enclosing {name : String} {type : ParamType}
    (h : t.resolveType none name = .ok type) : type ≠ .enclosing := by
  rw [resolveType, if_neg (by simp)] at h
  cases hc : t.lookup? name with
  | none =>
    rw [hc] at h
    cases h
  | some c =>
    rw [hc] at h
    cases h
    rintro ⟨⟩

/-- In a method, a type accepts what the parameter takes. -/
theorem accepts_iff_takes {d : ClassDecl} {p : Param} {type : ParamType}
    (h : t.resolveType (some d.name) p.type = .ok type) (c : ClassRef) (v : Value) :
    type.accepts (some c) v = true ↔ d.Takes t c p v := by
  rw [resolveType] at h
  by_cases hself : p.type = d.name
  · rw [if_pos (by rw [hself])] at h
    cases h
    simp [ParamType.accepts, ClassDecl.Takes, hself, eq_comm]
  · rw [if_neg fun heq => hself (Option.some.inj heq).symm] at h
    cases hc : t.lookup? p.type with
    | none =>
      rw [hc] at h
      cases h
    | some k =>
      rw [hc] at h
      cases h
      simp [ParamType.accepts, ClassDecl.Takes, hself, hc, eq_comm]

/-- In a function, a type accepts what the parameter takes. -/
theorem accepts_iff_named {p : Param} {type : ParamType}
    (h : t.resolveType none p.type = .ok type) (v : Value) :
    type.accepts none v = true ↔ t.Named p v := by
  rw [resolveType, if_neg (by simp)] at h
  cases hc : t.lookup? p.type with
  | none =>
    rw [hc] at h
    cases h
  | some k =>
    rw [hc] at h
    cases h
    simp [ParamType.accepts, Named, hc, eq_comm]

/-- Parameters are resolved one by one. -/
theorem forall₂_of_resolveParams {params : List Param} {resolved : List Parameter}
    (h : t.resolveParams enclosing params = .ok resolved) :
    List.Forall₂ (fun p q => q.name = p.name ∧ t.resolveType enclosing p.type = .ok q.type)
      params resolved := by
  induction params generalizing resolved with
  | nil =>
    cases h
    exact .nil
  | cons p rest ih =>
    obtain ⟨type, htype, h⟩ := exists_of_bind_eq_ok h
    obtain ⟨others, hothers, h⟩ := exists_of_bind_eq_ok h
    cases h
    exact .cons ⟨rfl, htype⟩ (ih hothers)

/-- Methods are resolved one by one. -/
theorem forall₂_of_resolveMethods {className : String} {decls : List FunctionDecl}
    {methods : List (String × Callable)} (h : t.resolveMethods className decls = .ok methods) :
    List.Forall₂ (fun f p => p.1 = f.name ∧ t.resolveCallable (some className) f = .ok p.2)
      decls methods := by
  induction decls generalizing methods with
  | nil =>
    cases h
    exact .nil
  | cons f rest ih =>
    obtain ⟨callable, hcallable, h⟩ := exists_of_bind_eq_ok h
    obtain ⟨others, hothers, h⟩ := exists_of_bind_eq_ok h
    cases h
    exact .cons ⟨rfl, hcallable⟩ (ih hothers)

theorem ne_enclosing_of_resolveParams {params : List Param} {resolved : List Parameter}
    (h : t.resolveParams none params = .ok resolved) : ∀ q ∈ resolved, q.type ≠ .enclosing := by
  have hpairs := forall₂_of_resolveParams h
  clear h
  induction hpairs with
  | nil => exact nofun
  | cons hp _ ih => exact List.forall_mem_cons.mpr ⟨resolveType_ne_enclosing hp.2, ih⟩

theorem selfFree_of_resolveCallable {f : FunctionDecl} {callable : Callable}
    (h : t.resolveCallable none f = .ok callable) : callable.SelfFree := by
  obtain ⟨params, hparams, h⟩ := exists_of_bind_eq_ok h
  obtain ⟨returns, hreturns, h⟩ := exists_of_bind_eq_ok h
  cases h
  exact ⟨ne_enclosing_of_resolveParams hparams, resolveType_ne_enclosing hreturns⟩

/-- A class finds its own methods first. -/
theorem resolveMethod?_of_own {id : Nat} {method : String} {callable : Callable}
    (h : t.ownMethod? (.declared id) method = some callable) :
    t.resolveMethod? (.declared id) method = some (.declared (.declared id) callable) := by
  rw [resolveMethod?, ancestors, declaredChain, List.findSome?_cons, definition?, h]
  rfl

/-- Arguments are accepted if each of them is. -/
theorem checkArguments_eq_ok_iff {owner : Option ClassRef} {params : List Parameter}
    {args : List Value} (h : params.length = args.length) :
    t.checkArguments owner params args = .ok () ↔
      List.Forall₂ (fun q v => q.type.accepts owner v = true) params args := by
  induction params generalizing args with
  | nil =>
    obtain rfl := List.length_eq_zero_iff.mp h.symm
    exact iff_of_true rfl .nil
  | cons q params ih =>
    cases args with
    | nil => cases h
    | cons v args =>
      rw [checkArguments, List.forall₂_cons, ← ih (Nat.succ.inj h)]
      by_cases hv : q.type.accepts owner v = true
      · simp [hv]
      · simp [hv]

end ClassTable

namespace Engine

variable (engine : Engine) {callable : Callable} {owner : Option ClassRef} (receiver : Option Value)
  {args : List Value} (frame : String) {m : Machine}

/-- A call whose arguments are accepted is run, unless calls are nested too deeply. -/
theorem invoke_of_accepted (harity : callable.arity = args.length)
    (h : m.classes.checkArguments owner callable.params args = .ok ()) :
    engine.invoke callable owner receiver args frame m =
      match m.calls.push frame with
      | .ok calls =>
        (engine.body callable.body (enter callable receiver args calls m)).map BlockExit.value
          (leave m.scope)
      | .error fault => .error ⟨fault, []⟩ m := by
  have hcheck : checkCall callable owner args frame m = m.calls.push frame := by
    rw [checkCall, if_neg (by simp [harity]), h]
    rfl
  cases hpush : m.calls.push frame with
  | error fault => rw [engine.invoke_of_error receiver (hcheck.trans hpush)]
  | ok calls => rw [engine.invoke_of_ok receiver (hcheck.trans hpush)]

/-- A call with a wrong number of arguments is refused. -/
theorem invoke_of_length_ne (h : args.length ≠ callable.arity) :
    engine.invoke callable owner receiver args frame m =
      .error ⟨.arityMismatch callable.name callable.arity args.length, []⟩ m :=
  engine.invoke_of_error receiver (by rw [checkCall, if_pos h])

end Engine

/-! ## Declarations and the classes that they make -/

/-- The callable is what a declaration comes to, for a method in the class `owner`. Whether it is run
is a question of the arguments: each of them has to be one that its parameter `takes`. -/
structure Callable.Implements (callable : Callable) (f : FunctionDecl) (owner : Option ClassRef)
    (takes : Param → Value → Prop) : Prop where
  name : callable.name = f.name
  body : callable.body = f.body
  params : List.Forall₂ (fun p q => q.name = p.name ∧
    ∀ v, q.type.accepts owner v = true ↔ takes p v) f.params callable.params
  accepted : ∀ (t : ClassTable) (args : List Value), callable.arity = args.length →
    (t.checkArguments owner callable.params args = .ok () ↔ List.Forall₂ takes f.params args)
  /-- on arguments that are taken the body is run, unless calls are nested too deeply -/
  runs : ∀ (engine : Engine) (receiver : Option Value) (args : List Value) (frame : String)
    (m : Machine), List.Forall₂ takes f.params args →
      engine.invoke callable owner receiver args frame m =
        match m.calls.push frame with
        | .ok calls =>
          (engine.body f.body (Engine.enter callable receiver args calls m)).map BlockExit.value
            (Engine.leave m.scope)
        | .error fault => .error ⟨fault, []⟩ m
  miscounted : ∀ (engine : Engine) (receiver : Option Value) (args : List Value) (frame : String)
    (m : Machine), args.length ≠ f.params.length →
      engine.invoke callable owner receiver args frame m =
        .error ⟨.arityMismatch f.name f.params.length args.length, []⟩ m
  /-- the first argument that is not taken is refused; the fault tells the one class of which the
  parameter takes values -/
  refuses : ∀ (engine : Engine) (receiver : Option Value) (frame : String) (m : Machine)
    (front back : List Param) (p : Param) (before after : List Value) (v : Value),
      f.params = front ++ p :: back → f.params.length = (before ++ v :: after).length →
      List.Forall₂ takes front before → ¬takes p v →
        ∃ c, (∀ w, takes p w ↔ w.cls = c) ∧
          engine.invoke callable owner receiver (before ++ v :: after) frame m =
            .error ⟨.typeMismatch (m.classes.name c) (m.classes.name v.cls), []⟩ m

theorem forall₂_iff_forall₂ {α β γ : Type} {P : α → γ → Prop} {Q : β → γ → Prop} {as : List α}
    {bs : List β} (h : List.Forall₂ (fun a b => ∀ c, Q b c ↔ P a c) as bs) (cs : List γ) :
    List.Forall₂ Q bs cs ↔ List.Forall₂ P as cs := by
  induction h generalizing cs with
  | nil => rw [List.forall₂_nil_left_iff, List.forall₂_nil_left_iff]
  | cons hab _ ih =>
    cases cs with
    | nil => exact iff_of_false nofun nofun
    | cons c cs => rw [List.forall₂_cons, List.forall₂_cons, hab, ih]

/-- The partner of an element in the middle stands in the middle. -/
theorem exists_of_forall₂_append_cons {α β : Type} {R : α → β → Prop} {front back : List α} {a : α}
    {bs : List β} (h : List.Forall₂ R (front ++ a :: back) bs) :
    ∃ front' b back', bs = front' ++ b :: back' ∧ List.Forall₂ R front front' ∧ R a b := by
  induction front generalizing bs with
  | nil =>
    cases h with
    | @cons _ b _ back' hab _ => exact ⟨[], b, back', rfl, .nil, hab⟩
  | cons a' front ih =>
    cases h with
    | @cons _ b' _ _ hab hrest =>
      obtain ⟨front', b, back', rfl, hfront, hb⟩ := ih hrest
      exact ⟨b' :: front', b, back', rfl, .cons hab hfront, hb⟩

/-- What is known of the parameters one by one tells whether a call is run. -/
theorem Callable.Implements.of_params {callable : Callable} {f : FunctionDecl}
    {owner : Option ClassRef} {takes : Param → Value → Prop} (hname : callable.name = f.name)
    (hbody : callable.body = f.body)
    (hparams : List.Forall₂ (fun p q => q.name = p.name ∧
      ∀ v, q.type.accepts owner v = true ↔ takes p v) f.params callable.params)
    (hmeant : ∀ q ∈ callable.params, ∃ c, q.type.meant owner = some c) :
    callable.Implements f owner takes := by
  have hlength : callable.params.length = f.params.length := hparams.length_eq.symm
  have htakes := hparams.imp fun p q hpq => hpq.2
  have haccepted : ∀ (t : ClassTable) (args : List Value), callable.arity = args.length →
      (t.checkArguments owner callable.params args = .ok () ↔ List.Forall₂ takes f.params args) :=
    fun t args harity => by
      rw [ClassTable.checkArguments_eq_ok_iff harity]
      exact forall₂_iff_forall₂ htakes args
  refine ⟨hname, hbody, hparams, haccepted, fun engine receiver args frame m htaken => ?_,
    fun engine receiver args frame m hcount => ?_,
    fun engine receiver frame m front back p before after v hsplit harity htaken hrefused => ?_⟩
  · have harity : callable.arity = args.length := hlength.trans htaken.length_eq
    rw [← hbody]
    exact engine.invoke_of_accepted receiver frame harity
      ((haccepted m.classes args harity).mpr htaken)
  · have hne : args.length ≠ callable.arity := fun heq => hcount (heq.trans hlength)
    rw [← hname, ← hlength]
    exact engine.invoke_of_length_ne receiver frame hne
  · -- the parameter that refuses, and those before it
    rw [hsplit] at htakes
    obtain ⟨front', q, back', hparams', hfront, hq⟩ := exists_of_forall₂_append_cons htakes
    obtain ⟨c, hc⟩ := hmeant q (by rw [hparams']; simp)
    have hclass : ∀ w, takes p w ↔ w.cls = c := fun w => by
      rw [← hq w, q.type.accepts_iff, hc, Option.some.injEq, eq_comm]
    have hbefore : m.classes.checkArguments owner front' before = .ok () := by
      rw [ClassTable.checkArguments_eq_ok_iff (hfront.length_eq.symm.trans htaken.length_eq)]
      exact (forall₂_iff_forall₂ hfront before).mpr htaken
    have hne : v.cls ≠ c := fun heq => hrefused ((hclass v).mpr heq)
    refine ⟨c, hclass, (ClassRef.refuses_of_ne hne m).argumentOf engine callable owner receiver
      frame front' back' q before after hparams' (hlength.trans harity) ?_ hbefore hc⟩
    exact hfront.length_eq.symm.trans htaken.length_eq

namespace ClassTable

variable {t : ClassTable} {f : FunctionDecl} {callable : Callable}

/-- A method takes what its declaration says, in the class that it is declared in. -/
theorem implements_of_resolveMethod {d : ClassDecl}
    (h : t.resolveCallable (some d.name) f = .ok callable) (c : ClassRef) :
    callable.Implements f (some c) (d.Takes t c) := by
  obtain ⟨params, hparams, h⟩ := exists_of_bind_eq_ok h
  obtain ⟨returns, -, h⟩ := exists_of_bind_eq_ok h
  cases h
  refine .of_params rfl rfl ((forall₂_of_resolveParams hparams).imp fun p q hpq =>
    ⟨hpq.1, accepts_iff_takes hpq.2 c⟩) fun q _ => ?_
  cases q.type with
  | cls k => exact ⟨k, rfl⟩
  | enclosing => exact ⟨c, rfl⟩

/-- A function takes what its declaration says. -/
theorem implements_of_resolveFunction (h : t.resolveCallable none f = .ok callable) :
    callable.Implements f none t.Named := by
  have hfree := selfFree_of_resolveCallable h
  obtain ⟨params, hparams, h⟩ := exists_of_bind_eq_ok h
  obtain ⟨returns, -, h⟩ := exists_of_bind_eq_ok h
  cases h
  refine .of_params rfl rfl ((forall₂_of_resolveParams hparams).imp fun p q hpq =>
    ⟨hpq.1, accepts_iff_named hpq.2⟩) fun q hq => ?_
  cases htype : q.type with
  | cls k => exact ⟨k, rfl⟩
  | enclosing => exact absurd htype (hfree.params q hq)

end ClassTable

/-- The method of a name; if there are several, the last one counts. -/
def ClassDecl.method? (d : ClassDecl) (name : String) : Option FunctionDecl :=
  (Bindings.ofList (d.methods.map fun f => (f.name, f))).get? name

/-- Once everything in the declaration `d` has been evaluated, it makes the class `c`. -/
structure Machine.Creates (before : Machine) (d : ClassDecl) (c : ClassRef) (after : Machine) :
    Prop where
  new : c = before.classes.next
  made : ∃ parent overrides defaults methods,
    before.classes.resolveMethods d.name d.methods = .ok methods ∧
    after = { before with
      classes := before.classes.declare
        ⟨d.name, parent, .ofList overrides, .ofList defaults, .ofList methods⟩ }

/-- The methods of the class `c` are those that the declaration says, and the class itself finds
them at once. -/
structure ClassDecl.Rules (d : ClassDecl) (t : ClassTable) (c : ClassRef) (later : ClassTable) :
    Prop where
  methods : ∀ name,
    Option.Rel (fun f callable => callable.Implements f (some c) (d.Takes t c)) (d.method? name)
      (later.ownMethod? c name)
  itself : ∀ name callable, later.ownMethod? c name = some callable →
    later.resolveMethod? c name = some (.declared c callable)

/-- **Methods stay with their class.** What a declaration says of the methods of its class holds
from then on. -/
theorem Machine.Creates.rules {before after : Machine} {d : ClassDecl} {c : ClassRef}
    (h : before.Creates d c after) {later : ClassTable} (hlater : after.classes.Extends later) :
    d.Rules before.classes c later := by
  obtain ⟨rfl, parent, overrides, defaults, methods, hmethods, rfl⟩ := h
  have hknown := before.classes.known_next_declare
    ⟨d.name, parent, .ofList overrides, .ofList defaults, .ofList methods⟩
  have hown (name : String) : later.ownMethod? before.classes.next name =
      (Bindings.ofList methods).get? name := by
    rw [hlater.ownMethod? hknown, ClassTable.ownMethod?, ClassTable.info?_next_declare]
    rfl
  refine ⟨fun name => ?_, fun name callable hcallable => ?_⟩
  · rw [hown]
    have hpairs : List.Forall₂ (fun p p' => p'.1 = p.1 ∧
        p'.2.Implements p.2 (some before.classes.next) (d.Takes before.classes before.classes.next))
        (d.methods.map fun f => (f.name, f)) methods := by
      rw [List.forall₂_map_left_iff]
      exact (ClassTable.forall₂_of_resolveMethods hmethods).imp fun f p hfp =>
        ⟨hfp.1, ClassTable.implements_of_resolveMethod hfp.2 _⟩
    have hempty : (∅ : Bindings FunctionDecl).Alike
        (fun f (callable : Callable) => callable.Implements f (some before.classes.next)
          (d.Takes before.classes before.classes.next)) ∅ :=
      fun _ => .none
    exact hempty.insertAll hpairs name
  · exact ClassTable.resolveMethod?_of_own hcallable

/-- A declaration that succeeds makes a class. -/
theorem exists_creates_of_declareClass {engine : Engine} {d : ClassDecl} {m m' : Machine}
    (h : engine.declareClass d m = .ok () m') :
    ∃ pairs before, engine.Evaluates m d.entries pairs before ∧
      before.Creates d before.classes.next m' := by
  obtain ⟨evaluated, hends⟩ := ClassDecl.declareClass_eq_iff.mp h
  obtain _ | _ | _ | _ | _ | ⟨-, hdone, hmethods⟩ := hends
  exact ⟨_, _, hdone, rfl, _, _, _, _, hmethods, rfl⟩

/-! ## Through a session -/

namespace Machine

variable {m m' : Machine} {c : ClassRef}

theorem Change.extends_classes (h : m.Change m') : m.classes.Extends m'.classes := by
  cases h with
  | declareClass => exact ClassTable.extends_declare _ _
  | _ => exact .refl _

theorem Evolves.extends_classes (h : m.Evolves m') : m.classes.Extends m'.classes := by
  induction h with
  | refl => exact .refl _
  | tail _ hchange ih => exact ih.trans hchange.extends_classes

/-- **One change** makes no class, unless it is the declaration of that class. -/
theorem Change.known_or_creates (h : m.Change m') (hc : m'.classes.Known c) :
    m.classes.Known c ∨ ∃ d, m.Creates d c m' := by
  cases h with
  | @declareClass d parent overrides defaults methods _ hmethods =>
    rcases hc.of_declare with hknown | hnext
    · exact .inl hknown
    · exact .inr ⟨d, hnext, parent, overrides, defaults, methods, hmethods, rfl⟩
  | _ => exact .inl hc

/-- **Every class has its declaration.** A class that has not been there all the time was made by a
declaration in between. -/
theorem Evolves.exists_creates (h : m.Evolves m') (hnew : ¬m.classes.Known c)
    (hc : m'.classes.Known c) :
    ∃ d before after, m.Evolves before ∧ before.Creates d c after ∧ after.Evolves m' := by
  induction h with
  | refl => exact absurd hc hnew
  | @tail m₁ m₂ hbefore hchange ih =>
    rcases hchange.known_or_creates hc with hknown | ⟨d, hcreates⟩
    · obtain ⟨d, before, after, hstart, hcreates, hend⟩ := ih hknown
      exact ⟨d, before, after, hstart, hcreates, hend.tail hchange⟩
    · exact ⟨d, m₁, m₂, hbefore, hcreates, .refl⟩

/-- A declaration on the way from `start` to `m` made the function: it has no type that depends on a
class around it, and takes what names stood for then. -/
def FunctionOrigin (start m : Machine) (callable : Callable) : Prop :=
  callable.SelfFree ∧ ∃ f before, start.Evolves before ∧ before.Evolves m ∧
    before.classes.resolveCallable none f = .ok callable ∧
    callable.Implements f none before.classes.Named

theorem FunctionOrigin.tail {start : Machine} {callable : Callable}
    (h : FunctionOrigin start m callable) (hchange : m.Change m') : FunctionOrigin start m' callable := by
  obtain ⟨hfree, f, before, hstart, hend, himplements⟩ := h
  exact ⟨hfree, f, before, hstart, hend.tail hchange, himplements⟩

/-- **Every function has its declaration**, if there were none at the start. -/
theorem Evolves.functions_declared (h : m.Evolves m') (hempty : m.functions = ∅) :
    m'.functions.All (FunctionOrigin m m') := by
  induction h with
  | refl =>
    rw [hempty]
    exact .empty
  | @tail m₁ m₂ hbefore hchange ih =>
    have hold : m₁.functions.All (FunctionOrigin m m₂) := ih.imp fun _ h => h.tail hchange
    cases hchange with
    | @declareFunction f callable hcallable =>
      refine hold.insert f.name ⟨ClassTable.selfFree_of_resolveCallable hcallable, f, m₁, hbefore,
        .single (.declareFunction hcallable), hcallable, ?_⟩
      exact ClassTable.implements_of_resolveFunction hcallable
    | _ => exact hold

end Machine

/-! ## How methods are run -/

namespace ClassTable

variable {t : ClassTable} {c owner : ClassRef} {method : String} {callable : Callable}

/-- The class that goes with a method that is found is one that declares it. -/
theorem ownMethod?_of_resolveMethod?
    (h : t.resolveMethod? c method = some (.declared owner callable)) :
    t.ownMethod? owner method = some callable := by
  obtain ⟨c', -, hd⟩ := List.exists_of_findSome?_eq_some h
  cases c' with
  | builtin b => obtain ⟨_, -, ⟨⟩⟩ := Option.map_eq_some_iff.mp hd
  | declared id =>
    obtain ⟨_, hown, heq⟩ := Option.map_eq_some_iff.mp hd
    cases heq
    exact hown

theorem ownMethod?_of_findMethod? (h : t.findMethod? c method = some (owner, callable)) :
    t.ownMethod? owner method = some callable := by
  obtain ⟨c', -, hd⟩ := List.exists_of_findSome?_eq_some h
  obtain ⟨_, hown, heq⟩ := Option.map_eq_some_iff.mp hd
  cases heq
  exact hown

end ClassTable

/-- Wherever a method is run, the class that declares it is what the arguments are checked for. A
function has no such class. -/
structure Engine.PassesOwner (engine : Engine) (m : Machine) : Prop where
  function : ∀ name args callable, m.functions.get? name = some callable →
    engine.callNamed name args m =
      engine.invoke callable none m.scope.receiver args (CallStack.functionFrame callable.name) m
  call : ∀ receiver method args owner callable,
    m.classes.resolveMethod? receiver.cls method = some (.declared owner callable) →
    m.classes.ownMethod? owner method = some callable ∧
    engine.invokeMethod receiver method args m =
      engine.invoke callable (some owner) (some receiver) args
        (CallStack.methodFrame (m.classes.name owner) method) m
  /-- an operator is a call on its left operand -/
  operator : ∀ n chain (r : Redex Slot), chain.redex? = some r →
    engine.reduceSteps (n + 1) chain = (do
      let left ← engine.force r.left
      let right ← engine.force r.right
      let result ← engine.invokeMethod left r.op.method [right]
      engine.reduceSteps n (r.contract (.ready result)))
  /-- rendering is a call of `getStr` -/
  rendering : ∀ v : Value, (∀ text, v ≠ .ofText text) →
    engine.renderValue v = (do
      let shown ← engine.invokeMethod v "getStr" []
      let m ← machine
      pure (shown.text?.getD (m.classes.display shown)))
  init : ∀ c args owner callable,
    m.classes.findMethod? c initMethod = some (owner, callable) →
    m.classes.ownMethod? owner initMethod = some callable ∧
    engine.constructDeclared c args m = (do
      let _ ← engine.invoke callable (some owner) (some ⟨c, .ref m.heap.cells.size⟩) args
        (CallStack.methodFrame (m.classes.name owner) initMethod)
      pure ⟨c, .ref m.heap.cells.size⟩ : Eval Value) (m.withInstance c)

theorem Engine.passesOwner (engine : Engine) (m : Machine) : engine.PassesOwner m where
  function name args callable h := by
    rw [callNamed_apply, h]
    rfl
  call receiver method args owner callable h := by
    refine ⟨ClassTable.ownMethod?_of_resolveMethod? h, ?_⟩
    rw [invokeMethod_apply, h]
  operator n chain r h := by
    rw [reduceSteps, h]
  rendering v h := by
    rw [renderValue]
    split
    · rename_i text hcls hpayload
      obtain ⟨cls, payload⟩ := v
      cases hcls
      cases hpayload
      exact absurd rfl (h text)
    · congr 1
      funext shown
      rw [Value.text?]
      cases shown.payload with
      | text _ | undefined | bool _ | int _ | float _ | ref _ => rfl
  init c args owner callable h := by
    refine ⟨ClassTable.ownMethod?_of_findMethod? h, ?_⟩
    rw [constructDeclared_apply, h]
    rfl

/-- **Self types follow the declaration.** At every moment of a session, no function has a type that
depends on a class around it, and each takes values of the classes that had the names when it was
declared. Wherever a method is run, be it by a call, an operator, for rendering or as an `init`, the
arguments are checked for the class that declares it; and this is the very class that some
declaration in the past of the session made, and the method is one of that declaration. So from each
declaration of a class on, whatever else is declared and whoever finds its methods, these run on the
arguments that the declaration says: instances of the new class where it names itself, and else of
the class that had the name when the declaration ran. Any other call of them is refused. -/
theorem self_types_follow_declaration {console : Console} {limit : Option Nat} {s : Moment}
    (h : (Moment.first console limit).Before s) :
    s.machine.functions.All (Machine.FunctionOrigin (.fresh console limit) s.machine) ∧
    (∀ engine : Engine, engine.PassesOwner s.machine) ∧
    (∀ owner method callable, s.machine.classes.ownMethod? owner method = some callable →
      ∃ d before after, (Machine.fresh console limit).Evolves before ∧
        before.Creates d owner after ∧ after.Evolves s.machine ∧
        d.Rules before.classes owner s.machine.classes) ∧
    ∀ fuel mode d flow m',
      (Engine.withFuel fuel).execStmt mode (.classDecl d) s.machine = .ok flow m' →
      ∃ c pairs before, (Engine.withFuel fuel).Evaluates s.machine d.entries pairs before ∧
        before.Creates d c m' ∧
        ∀ s', Moment.Before ⟨m', s.waiting, s.returned⟩ s' →
          d.Rules before.classes c s'.machine.classes := by
  have hfirst := Moment.sound_first console limit
  obtain ⟨-, hsound⟩ := h.sound hfirst
  have hevolves : (Machine.fresh console limit).Evolves s.machine := h.evolves hfirst
  refine ⟨hevolves.functions_declared rfl, fun engine => engine.passesOwner s.machine,
    fun owner method callable hown => ?_, fun fuel mode d flow m' hok => ?_⟩
  · obtain ⟨info, hinfo, -⟩ := Option.bind_eq_some_iff.mp hown
    have hnew : ¬(Machine.fresh console limit).classes.Known owner := by
      cases owner with
      | builtin b => cases hinfo
      | declared id => exact Nat.not_lt_zero id
    obtain ⟨d, before, after, hstart, hcreates, hend⟩ :=
      Machine.Evolves.exists_creates hevolves hnew (.of_info? hinfo)
    refine ⟨d, before, after, hstart, hcreates, hend, hcreates.rules ?_⟩
    exact Machine.Evolves.extends_classes hend
  · obtain ⟨_, m₁, hdeclare, hpure⟩ := bind_eq_ok hok
    cases hpure
    obtain ⟨pairs, before, hdone, hcreates⟩ := exists_creates_of_declareClass hdeclare
    refine ⟨_, pairs, before, hdone, hcreates, fun s' hs' => hcreates.rules ?_⟩
    have hnext : s.Next ⟨m', s.waiting, s.returned⟩ := by
      have hanswer : s.Next _ := .answer (.stmt mode (.classDecl d)) fuel (by rw [hok]; rfl)
      rwa [hok] at hanswer
    exact (hs'.sound (hnext.sound hsound).2).1.classes

/-- A class `P` with a method that takes another `P`. -/
def selfTypedP : ClassDecl := ⟨"P", none, [], [], [⟨"m", [⟨"P", "other"⟩], "Und", []⟩]⟩

/-- What its method comes to. -/
def methodOfP : Callable := ⟨"m", [⟨"other", .enclosing⟩], .cls (.builtin .und), []⟩

/-- The machine on which `P` has been declared. -/
def Machine.withP : Machine :=
  { Machine.fresh {} none with
    classes := ClassTable.initial.declare
      ⟨"P", .builtin .obj, ∅, ∅, .ofList [("m", methodOfP)]⟩ }

/-- A class `Q` that descends from `P`. -/
def childQ : ClassDecl := ⟨"Q", some "P", [], [], []⟩

/-- `P` is declared, then `Q`, and then `P` anew. On an instance of `Q`, the method still runs as
one of the first `P`: it takes an instance of that class, and one of the second `P` is refused. -/
theorem self_types_follow_declaration_redeclared :
    ∃ s, (Moment.first {} none).Before s ∧
      s.returned = [⟨.declared 2, .ref 2⟩, ⟨.declared 1, .ref 1⟩, ⟨.declared 0, .ref 0⟩] ∧
      s.machine.classes.lookup? "P" = some (.declared 2) ∧
      (∀ engine : Engine, engine.invokeMethod ⟨.declared 1, .ref 1⟩ "m" [⟨.declared 0, .ref 0⟩]
        s.machine =
          (engine.body [] (Engine.enter methodOfP (some ⟨.declared 1, .ref 1⟩)
            [⟨.declared 0, .ref 0⟩] ⟨["P.m"], none⟩ s.machine)).map BlockExit.value
              (Engine.leave .topLevel)) ∧
      ∀ engine : Engine, engine.invokeMethod ⟨.declared 1, .ref 1⟩ "m" [⟨.declared 2, .ref 2⟩]
        s.machine = .error ⟨.typeMismatch "P" "P", []⟩ s.machine := by
  have hstart : (Moment.first {} none).Before ⟨.fresh {} none, [.topLevel], []⟩ := .single .start
  have hfirst : Moment.Next ⟨.fresh {} none, [.topLevel], []⟩ ⟨.withP, [.topLevel], []⟩ :=
    .answer (.stmt .topLevel (.classDecl selfTypedP)) 5 rfl
  have hparent : Moment.Before ⟨.withP, [.topLevel], []⟩ _ := .single (.allocate "P" rfl)
  have hchild := (hparent.tail (.answer (.stmt .topLevel (.classDecl childQ)) 5 rfl)).tail
    (.allocate "Q" rfl)
  have hagain := (hchild.tail (.answer (.stmt .topLevel (.classDecl selfTypedP)) 5 rfl)).tail
    (.allocate "P" rfl)
  -- what the declaration of the first `P` says of its method
  obtain ⟨-, -, -, hdeclares⟩ := self_types_follow_declaration hstart
  obtain ⟨c, pairs, before, hdone, hcreates, hlater⟩ :=
    hdeclares 5 .topLevel selfTypedP .next .withP rfl
  cases hdone
  obtain rfl : c = .declared 0 := hcreates.new
  obtain ⟨hnone, -⟩ | ⟨f, callable, hf, hcallable, himplements⟩ :=
    rel_cases ((hlater _ hagain).methods "m")
  · cases hnone
  cases hf
  cases hcallable
  -- the way from `Q` to that method
  obtain ⟨-, hpasses, -⟩ := self_types_follow_declaration ((hstart.tail hfirst).trans hagain)
  have hcall := fun (engine : Engine) args =>
    ((hpasses engine).call ⟨.declared 1, .ref 1⟩ "m" args (.declared 0) methodOfP (by
      rw [ClassTable.resolveMethod?, ClassTable.ancestors, ClassTable.declaredChain]
      change (_ :: ClassTable.declaredChain _ 0).findSome? _ = _
      rw [ClassTable.declaredChain]
      rfl)).2
  refine ⟨_, (hstart.tail hfirst).trans hagain, rfl, rfl, fun engine => ?_, fun engine => ?_⟩
  · refine (hcall engine _).trans (himplements.runs engine _ _ _ _ ?_)
    exact .cons rfl .nil
  · obtain ⟨c, hc, hrefused⟩ := himplements.refuses engine (some ⟨.declared 1, .ref 1⟩) "P.m" _
      [] [] ⟨"P", "other"⟩ [] [] ⟨.declared 2, .ref 2⟩ rfl rfl .nil (by rintro ⟨⟩)
    obtain rfl : ClassRef.declared 0 = c := (hc ⟨.declared 0, .ref 0⟩).mp rfl
    exact (hcall engine _).trans hrefused

end FlannelScript
