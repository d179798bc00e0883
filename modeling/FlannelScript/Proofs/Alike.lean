import Mathlib.Data.List.Forall2
import FlannelScript.Proofs.Course
import FlannelScript.Proofs.Fuel

/-!
# Machines that differ in what they have stored to run

The body of a function or method is put on a machine by its declaration and taken from there by its
calls, and nothing else ever looks at it. So if the bodies that are stored on two machines are
related in some way and all else is the same (`Machine.Alike`), the two cannot be told apart by
anything but the running of these bodies.

Two such machines can be run side by side. The runs need not take the same fuel, since related
bodies may differ in their depth: `Eval.FollowedBy` says that whenever the one run ends, the other
one ends alike from some amount of fuel on. That single steps do so is shown here, and that calls do
so if the related bodies do.
-/

namespace FlannelScript

open Eval Machine

/-! ## Relations

A table of callables is related to another one entry by entry, and so is what is found in it. -/

theorem rel_cases {α β : Type} {E : α → β → Prop} {x : Option α} {y : Option β}
    (h : Option.Rel E x y) : (x = none ∧ y = none) ∨ ∃ a b, x = some a ∧ y = some b ∧ E a b := by
  cases h with
  | none => exact .inl ⟨rfl, rfl⟩
  | some h => exact .inr ⟨_, _, rfl, rfl, h⟩

theorem rel_map {α β γ δ : Type} {E : α → β → Prop} {E' : γ → δ → Prop} {f : α → γ} {g : β → δ}
    (hfg : ∀ a b, E a b → E' (f a) (g b)) {x : Option α} {y : Option β} (h : Option.Rel E x y) :
    Option.Rel E' (x.map f) (y.map g) := by
  cases h with
  | none => exact .none
  | some h => exact .some (hfg _ _ h)

theorem rel_findSome? {α β γ : Type} {E : β → γ → Prop} {f : α → Option β} {g : α → Option γ}
    (h : ∀ a, Option.Rel E (f a) (g a)) (l : List α) :
    Option.Rel E (l.findSome? f) (l.findSome? g) := by
  induction l with
  | nil => exact .none
  | cons a rest ih =>
    rw [List.findSome?_cons, List.findSome?_cons]
    obtain ⟨hf, hg⟩ | ⟨b, c, hf, hg, hbc⟩ := rel_cases (h a) <;> rw [hf, hg]
    · exact ih
    · exact .some hbc

/-- Two computations without a machine fail with the same fault, or their results are related. -/
inductive FaultAlike {α β : Type} (E : α → β → Prop) : Except Fault α → Except Fault β → Prop where
  | error (f : Fault) : FaultAlike E (.error f) (.error f)
  | ok {a : α} {b : β} (h : E a b) : FaultAlike E (.ok a) (.ok b)

theorem FaultAlike.bind {α β γ δ : Type} {E : α → β → Prop} {E' : γ → δ → Prop}
    {x : Except Fault α} {y : Except Fault β} {f : α → Except Fault γ} {g : β → Except Fault δ}
    (h : FaultAlike E x y) (hfg : ∀ a b, E a b → FaultAlike E' (f a) (g b)) :
    FaultAlike E' (x >>= f) (y >>= g) := by
  cases h with
  | error f => exact .error f
  | ok h => exact hfg _ _ h

theorem FaultAlike.refl {α : Type} (x : Except Fault α) : FaultAlike Eq x x := by
  cases x with
  | error f => exact .error f
  | ok a => exact .ok rfl

/-- Two tables bind the same names, and what they bind them to is related. -/
def Bindings.Alike {α β : Type} (E : α → β → Prop) (t : Bindings α) (t' : Bindings β) : Prop :=
  ∀ name, Option.Rel E (t.get? name) (t'.get? name)

namespace Bindings.Alike

variable {α β : Type} {E : α → β → Prop} {t : Bindings α} {t' : Bindings β}

theorem refl {E : α → α → Prop} (h : ∀ a, E a a) (t : Bindings α) : t.Alike E t := by
  intro name
  cases t.get? name with
  | none => exact .none
  | some a => exact .some (h a)

theorem insert (h : t.Alike E t') (name : String) {a : α} {b : β} (hab : E a b) :
    (t.insert name a).Alike E (t'.insert name b) := by
  intro other
  rw [get?_insert, get?_insert]
  split
  · exact .some hab
  · exact h other

theorem insertAll (h : t.Alike E t') {pairs : List (String × α)} {pairs' : List (String × β)}
    (hpairs : List.Forall₂ (fun p p' => p'.1 = p.1 ∧ E p.2 p'.2) pairs pairs') :
    (t.insertAll pairs).Alike E (t'.insertAll pairs') := by
  induction hpairs generalizing t t' with
  | nil => exact h
  | @cons p p' _ _ hp _ ih =>
    obtain ⟨k, a⟩ := p
    obtain ⟨_, b⟩ := p'
    obtain ⟨rfl, hab⟩ := hp
    exact ih (h.insert _ hab)

end Bindings.Alike

section

variable (R : List Stmt → List Stmt → Prop)

/-- Callables that differ in their bodies only, and those are related. -/
inductive Callable.Alike (c : Callable) : Callable → Prop where
  | mk {body : List Stmt} (h : R c.body body) : Alike c { c with body }

/-- Classes that differ in the bodies of their methods. -/
inductive ClassInfo.Alike (info : ClassInfo) : ClassInfo → Prop where
  | mk {methods : Bindings Callable} (h : info.methods.Alike (Callable.Alike R) methods) :
      Alike info { info with methods }

/-- The same classes under the same names, except for the bodies of methods. -/
inductive ClassTable.Alike (t : ClassTable) : ClassTable → Prop where
  | mk {classes : Array ClassInfo} (hsize : classes.size = t.classes.size)
      (h : ∀ id : Nat, Option.Rel (ClassInfo.Alike R) t.classes[id]? classes[id]?) :
      Alike t { t with classes }

/-- The same machine, except for the bodies of functions and methods. -/
inductive Machine.Alike (m : Machine) : Machine → Prop where
  | mk {classes : ClassTable} {functions : Bindings Callable}
      (hclasses : m.classes.Alike R classes)
      (hfunctions : m.functions.Alike (Callable.Alike R) functions) :
      Alike m { m with classes, functions }

/-- What a method name means, except for the body of a declared method. -/
inductive MethodDef.Alike : MethodDef → MethodDef → Prop where
  | declared (owner : ClassRef) {c c' : Callable} (h : c.Alike R c') :
      Alike (.declared owner c) (.declared owner c')
  | builtin (method : BuiltinMethod) : Alike (.builtin method) (.builtin method)

/-- Declarations that differ in their bodies only. -/
inductive FunctionDecl.Alike (d : FunctionDecl) : FunctionDecl → Prop where
  | mk {body : List Stmt} (h : R d.body body) : Alike d { d with body }

/-- The same ending on machines that are alike. -/
inductive Result.Alike {α : Type} : Result α → Result α → Prop where
  | ok (a : α) {m m' : Machine} (h : m.Alike R m') : Alike (.ok a m) (.ok a m')
  | error (e : EvalError) {m m' : Machine} (h : m.Alike R m') : Alike (.error e m) (.error e m')

end

section

variable {R : List Stmt → List Stmt → Prop}

theorem Callable.Alike.refl (h : ∀ l, R l l) (c : Callable) : c.Alike R c := .mk (h c.body)

theorem FunctionDecl.Alike.refl (h : ∀ l, R l l) (d : FunctionDecl) : d.Alike R d := by
  cases d
  exact .mk (h _)

theorem Machine.Alike.refl (h : ∀ l, R l l) (m : Machine) : m.Alike R m := by
  have hmethods := Bindings.Alike.refl (Callable.Alike.refl h)
  refine .mk (.mk rfl fun id => ?_) (hmethods m.functions)
  cases m.classes.classes[id]? with
  | none => exact .none
  | some info => exact .some (.mk (hmethods info.methods))

end

/-! ## Class tables -/

namespace ClassTable.Alike

variable {R : List Stmt → List Stmt → Prop} {t t' : ClassTable} (h : t.Alike R t')
include h

theorem getElem? (id : Nat) : Option.Rel (ClassInfo.Alike R) t.classes[id]? t'.classes[id]? := by
  obtain ⟨-, hinfo⟩ := h
  exact hinfo id

theorem lookup?_eq (name : String) : t'.lookup? name = t.lookup? name := by
  cases h
  rfl

theorem name_eq (c : ClassRef) : t'.name c = t.name c := by
  cases c with
  | builtin b => rfl
  | declared id =>
    rw [ClassTable.name, ClassTable.name]
    obtain ⟨hx, hy⟩ | ⟨info, _, hx, hy, ⟨-⟩⟩ := rel_cases (h.getElem? id)
    · rw [hx, hy]
    · rw [hx, hy]
      rfl

theorem declaredChain_eq (id : Nat) : t'.declaredChain id = t.declaredChain id := by
  induction id using Nat.strongRecOn with
  | ind id ih =>
    rw [declaredChain.eq_def t', declaredChain.eq_def t]
    obtain ⟨hx, hy⟩ | ⟨info, _, hx, hy, ⟨-⟩⟩ := rel_cases (h.getElem? id) <;> rw [hx, hy]
    · dsimp only
      cases info.parent with
      | builtin b => rfl
      | declared up =>
        dsimp only
        split
        · rename_i hup
          rw [ih up hup]
        · rfl

theorem ancestors_eq (c : ClassRef) : t'.ancestors c = t.ancestors c := by
  cases c with
  | builtin b => rfl
  | declared id => exact h.declaredChain_eq id

theorem info? (c : ClassRef) : Option.Rel (ClassInfo.Alike R) (t.info? c) (t'.info? c) := by
  cases c with
  | builtin b => exact .none
  | declared id => exact h.getElem? id

theorem mergedDefaults_eq (c : ClassRef) : t'.mergedDefaults c = t.mergedDefaults c := by
  have happly : t'.applyDefaults = t.applyDefaults := by
    funext c inherited
    rw [applyDefaults, applyDefaults]
    obtain ⟨hx, hy⟩ | ⟨info, _, hx, hy, ⟨-⟩⟩ := rel_cases (h.info? c) <;> rw [hx, hy]
  rw [mergedDefaults, mergedDefaults, h.ancestors_eq, happly]

theorem ownMethod? (c : ClassRef) (method : String) :
    Option.Rel (Callable.Alike R) (t.ownMethod? c method) (t'.ownMethod? c method) := by
  rw [ClassTable.ownMethod?, ClassTable.ownMethod?]
  obtain ⟨hx, hy⟩ | ⟨info, _, hx, hy, ⟨hmethods⟩⟩ := rel_cases (h.info? c) <;> rw [hx, hy]
  · exact .none
  · exact hmethods method

theorem findMethod? (c : ClassRef) (method : String) :
    Option.Rel (fun found found' => found'.1 = found.1 ∧ found.2.Alike R found'.2)
      (t.findMethod? c method) (t'.findMethod? c method) := by
  rw [ClassTable.findMethod?, ClassTable.findMethod?, h.ancestors_eq]
  exact rel_findSome? (fun owner => rel_map (fun _ _ hc => ⟨rfl, hc⟩) (h.ownMethod? owner method)) _

theorem resolveMethod? (c : ClassRef) (method : String) :
    Option.Rel (MethodDef.Alike R) (t.resolveMethod? c method) (t'.resolveMethod? c method) := by
  rw [ClassTable.resolveMethod?, ClassTable.resolveMethod?, h.ancestors_eq]
  refine rel_findSome? (fun owner => ?_) _
  cases owner with
  | builtin b =>
    rw [definition?, definition?]
    cases b.method? method with
    | none => exact .none
    | some b => exact .some (.builtin b)
  | declared id =>
    exact rel_map (fun _ _ hc => .declared _ hc) (h.ownMethod? (.declared id) method)

theorem resolveType_eq (enclosing : Option String) (name : String) :
    t'.resolveType enclosing name = t.resolveType enclosing name := by
  rw [resolveType, resolveType, h.lookup?_eq]

theorem resolveParams_eq (enclosing : Option String) (params : List Param) :
    t'.resolveParams enclosing params = t.resolveParams enclosing params := by
  induction params with
  | nil => rfl
  | cons p rest ih => rw [resolveParams, resolveParams, h.resolveType_eq, ih]

theorem resolveCallable {d d' : FunctionDecl} (hd : d.Alike R d') (enclosing : Option String) :
    FaultAlike (Callable.Alike R) (t.resolveCallable enclosing d)
      (t'.resolveCallable enclosing d') := by
  cases hd with
  | mk hbody =>
    rw [ClassTable.resolveCallable, ClassTable.resolveCallable, h.resolveParams_eq,
      h.resolveType_eq]
    refine .bind (.refl _) ?_
    rintro params _ rfl
    refine .bind (.refl _) ?_
    rintro returns _ rfl
    exact .ok (.mk hbody)

theorem resolveMethods (className : String) {methods methods' : List FunctionDecl}
    (hmethods : List.Forall₂ (FunctionDecl.Alike R) methods methods') :
    FaultAlike (List.Forall₂ fun p p' => p'.1 = p.1 ∧ p.2.Alike R p'.2)
      (t.resolveMethods className methods) (t'.resolveMethods className methods') := by
  induction hmethods with
  | nil => exact .ok .nil
  | @cons d d' rest rest' hd _ ih =>
    rw [ClassTable.resolveMethods, ClassTable.resolveMethods]
    have hname : d'.name = d.name := by
      cases hd
      rfl
    exact (h.resolveCallable hd (some className)).bind fun c c' hc =>
      ih.bind fun _ _ hrest => .ok (.cons ⟨hname, hc⟩ hrest)

theorem declare {info info' : ClassInfo} (hinfo : info.Alike R info') :
    (t.declare info).Alike R (t'.declare info') := by
  have hname : info'.name = info.name := by
    cases hinfo
    rfl
  obtain ⟨hsize, hclasses⟩ := h
  rename_i classes
  have hadd : ∀ id : Nat, Option.Rel (ClassInfo.Alike R) (t.classes.push info)[id]?
      (classes.push info')[id]? := by
    intro id
    rw [Array.getElem?_push, Array.getElem?_push, hsize]
    split
    · exact .some hinfo
    · exact hclasses id
  rw [ClassTable.declare, ClassTable.declare, hname]
  simp only [add, hsize]
  exact .mk (by rw [Array.size_push, Array.size_push, hsize]) hadd

end ClassTable.Alike

/-! ## Runs side by side -/

/-- Whenever the evaluation ends, the part ends alike on every machine that is alike, from some
amount of fuel on. -/
def Eval.FollowedBy (R : List Stmt → List Stmt → Prop) {α : Type} (x : Eval α)
    (part : Engine → Eval α) : Prop :=
  ∀ m m', m.Alike R m' → x m ≠ .outOfFuel →
    ∃ r k, (x m).Alike R r ∧ ∀ n, k ≤ n → part (Engine.withFuel n) m' = r

theorem Result.Alike.ne_outOfFuel {R : List Stmt → List Stmt → Prop} {α : Type} {r r' : Result α}
    (h : r.Alike R r') : r' ≠ .outOfFuel := by
  cases h <;> nofun

theorem Result.Alike.of_ok {R : List Stmt → List Stmt → Prop} {α : Type} {a : α} {m : Machine}
    {r : Result α} (h : (Result.ok a m).Alike R r) : ∃ m', m.Alike R m' ∧ r = .ok a m' := by
  cases h with
  | ok _ h => exact ⟨_, h, rfl⟩

theorem Result.Alike.of_error {R : List Stmt → List Stmt → Prop} {α : Type} {e : EvalError}
    {m : Machine} {r : Result α} (h : (Result.error e m).Alike R r) :
    ∃ m', m.Alike R m' ∧ r = .error e m' := by
  cases h with
  | error _ h => exact ⟨_, h, rfl⟩

theorem Result.Alike.map {R : List Stmt → List Stmt → Prop} {α β : Type} {r r' : Result α}
    (h : r.Alike R r') (f : α → β) {g g' : Machine → Machine}
    (hg : ∀ m m', m.Alike R m' → (g m).Alike R (g' m')) : (r.map f g).Alike R (r'.map f g') := by
  cases h with
  | ok a h => exact .ok (f a) (hg _ _ h)
  | error e h => exact .error e (hg _ _ h)

namespace Eval.FollowedBy

variable {R : List Stmt → List Stmt → Prop} {α β : Type}

/-- What does not ask the engine. -/
theorem of_alike {x x' : Eval α} (h : ∀ m m', m.Alike R m' → (x m).Alike R (x' m')) :
    x.FollowedBy R fun _ => x' :=
  fun m m' hm _ => ⟨x' m', 0, h m m' hm, fun _ _ => rfl⟩

theorem pure (a : α) : FollowedBy R (pure a) fun _ => Pure.pure a :=
  of_alike fun _ _ hm => .ok a hm

theorem bind {x : Eval α} {f : α → Eval β} {x' : Engine → Eval α} {f' : α → Engine → Eval β}
    {good : α → Prop} (hx : x.FollowedBy R x') (hgood : Returns x good)
    (hf : ∀ a, good a → (f a).FollowedBy R (f' a)) :
    (x >>= f).FollowedBy R fun engine => x' engine >>= fun a => f' a engine := by
  intro m m' hm hends
  rw [bind_apply] at hends ⊢
  have hfirst := hx m m' hm
  have hvalue := hgood m
  generalize x m = r at hends hfirst hvalue
  rcases r with ⟨a, m₁⟩ | ⟨e, m₁⟩ | _
  · obtain ⟨_, k, halike, hx'⟩ := hfirst nofun
    obtain ⟨m₁', hm₁, rfl⟩ := halike.of_ok
    obtain ⟨r, l, hr, hf'⟩ := hf a (hvalue a m₁ rfl) m₁ m₁' hm₁ hends
    -- the larger of the two amounts of fuel is enough for both halves
    refine ⟨r, max k l, hr, fun n hn => ?_⟩
    exact (bind_of_ok (hx' n (by omega))).trans (hf' n (by omega))
  · obtain ⟨_, k, halike, hx'⟩ := hfirst nofun
    obtain ⟨m₁', hm₁, rfl⟩ := halike.of_error
    exact ⟨_, k, .error e hm₁, fun n hn => bind_of_error (hx' n hn)⟩
  · exact absurd rfl hends

theorem traced {x : Eval α} {part : Engine → Eval α} (h : x.FollowedBy R part) :
    (traced x).FollowedBy R fun engine => Eval.traced (part engine) := by
  intro m m' hm hends
  rw [Eval.traced] at hends ⊢
  have hx := h m m' hm
  generalize x m = r at hends hx
  rcases r with ⟨a, m₁⟩ | ⟨e, m₁⟩ | _
  · obtain ⟨_, k, halike, hpart⟩ := hx (by rintro ⟨⟩)
    obtain ⟨m₁', hm₁, rfl⟩ := halike.of_ok
    exact ⟨_, k, .ok a hm₁, fun n hn => by simp only [Eval.traced, hpart n hn]⟩
  · obtain ⟨_, k, halike, hpart⟩ := hx (by rintro ⟨⟩)
    obtain ⟨m₁', hm₁, rfl⟩ := halike.of_error
    have hcalls : m₁'.calls = m₁.calls := by
      cases hm₁
      rfl
    exact ⟨_, k, .error _ hm₁, fun n hn => by simp only [Eval.traced, hpart n hn, hcalls]⟩
  · exact absurd rfl hends

/-- What one layer does, the interpreter does with one unit more. -/
theorem of_succ {x : Eval α} {part layer : Engine → Eval α}
    (hsucc : ∀ n, part (Engine.withFuel (n + 1)) = layer (Engine.withFuel n))
    (h : x.FollowedBy R layer) : x.FollowedBy R part := by
  intro m m' hm hends
  obtain ⟨r, k, hr, hlayer⟩ := h m m' hm hends
  refine ⟨r, k + 1, hr, fun n hn => ?_⟩
  obtain ⟨n, rfl⟩ : ∃ n', n = n' + 1 := ⟨n - 1, by omega⟩
  rw [hsucc]
  exact hlayer n (by omega)

/-- Looking up what is the same on both machines. -/
theorem orRaise {x : Machine → Option α} {f : Machine → Fault}
    (hx : ∀ m m', m.Alike R m' → x m' = x m) (hf : ∀ m m', m.Alike R m' → f m' = f m) :
    FollowedBy R (fun m => Eval.orRaise (x m) (f m) m) fun _ m => Eval.orRaise (x m) (f m) m := by
  refine of_alike fun m m' hm => ?_
  rw [hx m m' hm, hf m m' hm]
  cases x m with
  | none => exact .error _ hm
  | some a => exact .ok a hm

/-! ### Declarations -/

theorem declareFunction {d d' : FunctionDecl} (hd : d.Alike R d') :
    (Engine.declareFunction d).FollowedBy R fun _ => Engine.declareFunction d' := by
  refine of_alike fun m m' hm => ?_
  have hname : d'.name = d.name := by
    cases hd
    rfl
  cases hm with
  | mk hclasses hfunctions =>
    rw [Engine.declareFunction_apply, Engine.declareFunction_apply, hname]
    have hcallable := hclasses.resolveCallable hd none
    generalize m.classes.resolveCallable none d = x at hcallable
    dsimp only
    generalize ClassTable.resolveCallable _ none d' = y at hcallable
    cases hcallable with
    | error f => exact .error _ (.mk hclasses hfunctions)
    | ok hc => exact .ok () (.mk hclasses (hfunctions.insert d.name hc))

theorem registerClass {d : ClassDecl} {methods : List FunctionDecl}
    (hmethods : List.Forall₂ (FunctionDecl.Alike R) d.methods methods) (parent : ClassRef)
    (overrides defaults : List (String × Value)) :
    (Engine.registerClass d parent overrides defaults).FollowedBy R fun _ =>
      Engine.registerClass { d with methods } parent overrides defaults := by
  refine of_alike fun m m' hm => ?_
  cases hm with
  | mk hclasses hfunctions =>
    rw [Engine.registerClass_apply, Engine.registerClass_apply]
    have hresolved := hclasses.resolveMethods d.name hmethods
    generalize m.classes.resolveMethods d.name d.methods = x at hresolved
    dsimp only
    generalize ClassTable.resolveMethods _ d.name methods = y at hresolved
    cases hresolved with
    | error f => exact .error _ (.mk hclasses hfunctions)
    | ok hpairs =>
      have hempty : (∅ : Bindings Callable).Alike (Callable.Alike R) ∅ := fun _ => .none
      exact .ok () (.mk (hclasses.declare (.mk (hempty.insertAll hpairs))) hfunctions)

end Eval.FollowedBy

/-! ## Calls -/

/-- All that the engine does is followed, the running of code by that of related code. -/
structure Engine.Followed (S : Mode → List Stmt → List Stmt → Prop) (engine : Engine) : Prop where
  eval : ∀ e, (engine.eval e).FollowedBy (S .inFunction) fun engine => engine.eval e
  block : ∀ mode {stmts stmts'}, S mode stmts stmts' →
    (engine.block mode stmts).FollowedBy (S .inFunction) fun engine => engine.block mode stmts'
  body : ∀ {stmts stmts'}, S .inFunction stmts stmts' →
    (engine.body stmts).FollowedBy (S .inFunction) fun engine => engine.body stmts'
  loop : ∀ mode condition {body body'}, S mode body body' →
    (engine.loop mode condition body).FollowedBy (S .inFunction) fun engine =>
      engine.loop mode condition body'

namespace Engine

theorem checkCall_alike {R : List Stmt → List Stmt → Prop} {c c' : Callable} {m m' : Machine}
    (hc : c.Alike R c') (hm : m.Alike R m') (owner : Option ClassRef) (args : List Value)
    (frame : String) : checkCall c' owner args frame m' = checkCall c owner args frame m := by
  cases hc with
  | mk hbody =>
    cases hm with
    | mk hclasses hfunctions =>
      simp only [checkCall, ClassTable.checkArguments_congr hclasses.name_eq]
      rfl

namespace Followed

variable {S : Mode → List Stmt → List Stmt → Prop} {engine : Engine}

theorem invoke (h : engine.Followed S) {c c' : Callable} (hc : c.Alike (S .inFunction) c')
    (owner : Option ClassRef) (receiver : Option Value) (args : List Value) (frame : String) :
    (engine.invoke c owner receiver args frame).FollowedBy (S .inFunction) fun engine =>
      engine.invoke c' owner receiver args frame := by
  intro m m' hm hends
  have hcheck := checkCall_alike hc hm owner args frame
  cases hcall : checkCall c owner args frame m with
  | error f =>
    rw [engine.invoke_of_error receiver hcall]
    exact ⟨_, 0, .error _ hm, fun n _ => invoke_of_error _ receiver (hcheck.trans hcall)⟩
  | ok calls =>
    rw [engine.invoke_of_ok receiver hcall] at hends ⊢
    have henter : (enter c receiver args calls m).Alike (S .inFunction)
        (enter c' receiver args calls m') := by
      cases hc
      cases hm with
      | mk hclasses hfunctions => exact .mk hclasses hfunctions
    have hleave : ∀ inner inner', inner.Alike (S .inFunction) inner' →
        (leave m.scope inner).Alike (S .inFunction) (leave m'.scope inner') := by
      intro inner inner' hinner
      cases hm
      cases hinner with
      | mk hclasses hfunctions => exact .mk hclasses hfunctions
    have hbody : S .inFunction c.body c'.body := by
      obtain ⟨hbody⟩ := hc
      exact hbody
    obtain ⟨r, k, hr, hpart⟩ := h.body hbody _ _ henter fun hout =>
      hends (Result.map_eq_outOfFuel.mpr hout)
    refine ⟨_, k, hr.map BlockExit.value hleave, fun n hn => ?_⟩
    exact (invoke_of_ok _ receiver (hcheck.trans hcall)).trans (congrArg _ (hpart n hn))

theorem callNamed (h : engine.Followed S) (function : String) (args : List Value) :
    (engine.callNamed function args).FollowedBy (S .inFunction) fun engine =>
      engine.callNamed function args := by
  rintro m _ ⟨hclasses, hfunctions⟩
  simp only [callNamed_apply]
  obtain ⟨hx, hy⟩ | ⟨c, _, hx, hy, ⟨hbody⟩⟩ := rel_cases (hfunctions function) <;>
    simp only [hx, hy]
  · exact fun _ => ⟨_, 0, .error _ (.mk hclasses hfunctions), fun _ _ => rfl⟩
  · exact h.invoke (.mk hbody) none m.scope.receiver args _ m _ (.mk hclasses hfunctions)

theorem invokeMethod (h : engine.Followed S) (receiver : Value) (method : String)
    (args : List Value) :
    (engine.invokeMethod receiver method args).FollowedBy (S .inFunction) fun engine =>
      engine.invokeMethod receiver method args := by
  rintro m _ ⟨hclasses, hfunctions⟩
  simp only [invokeMethod_apply, hclasses.name_eq,
    ClassTable.callBuiltin_congr hclasses.name_eq]
  obtain ⟨hx, hy⟩ | ⟨d, d', hx, hy, hd⟩ :=
    rel_cases (hclasses.resolveMethod? receiver.cls method) <;> simp only [hx, hy]
  · exact fun _ => ⟨_, 0, .error _ (.mk hclasses hfunctions), fun _ _ => rfl⟩
  · cases hd with
    | declared owner hc =>
      exact h.invoke hc (some owner) (some receiver) args _ m _ (.mk hclasses hfunctions)
    | builtin b =>
      dsimp only
      cases m.classes.callBuiltin b receiver method args with
      | error f => exact fun _ => ⟨_, 0, .error _ (.mk hclasses hfunctions), fun _ _ => rfl⟩
      | ok v => exact fun _ => ⟨_, 0, .ok v (.mk hclasses hfunctions), fun _ _ => rfl⟩

theorem constructDeclared (h : engine.Followed S) (c : ClassRef) (args : List Value) :
    (engine.constructDeclared c args).FollowedBy (S .inFunction) fun engine =>
      engine.constructDeclared c args := by
  rintro m _ ⟨hclasses, hfunctions⟩
  simp only [constructDeclared_apply, hclasses.name_eq, hclasses.mergedDefaults_eq]
  -- the machine with the new instance, on which `init` runs
  let placed : Machine := { m with heap := (m.heap.alloc (m.classes.mergedDefaults c)).1 }
  have hplaced := Machine.Alike.mk (m := placed) hclasses hfunctions
  obtain ⟨hx, hy⟩ | ⟨⟨owner, init⟩, ⟨_, init'⟩, hx, hy, rfl, hinit⟩ :=
    rel_cases (hclasses.findMethod? c initMethod) <;> simp only [hx, hy]
  · split
    · exact fun _ => ⟨_, 0, .ok _ hplaced, fun _ _ => rfl⟩
    · exact fun _ => ⟨_, 0, .error _ hplaced, fun _ _ => rfl⟩
  · exact ((h.invoke hinit _ _ args _).bind .trivial fun _ _ => .pure _) placed _ hplaced

end Followed

end Engine

/-! ## Courses -/

/-- **One step.** On machines that are alike, a course is followed by itself, if the code that it
has run is. -/
theorem Regime.Course.followed {S : Mode → List Stmt → List Stmt → Prop}
    (hS : ∀ mode l, S mode l l) {w : Unit} {α : Type} {Q : Unit → α → Prop}
    {part : Engine → Eval α} (h : Regime.free.Course w Q part) {engine : Engine}
    (hengine : engine.Followed S) : (part engine).FollowedBy (S .inFunction) part := by
  induction h with
  | pure => exact .pure _
  | bind hx _ ihx ihf => exact ihx.bind (hx.returns engine) fun a ha => ihf () trivial a ha
  | refuse f =>
    rintro m _ ⟨hclasses, hfunctions⟩ -
    have hnames : _ = m.classes.name := funext hclasses.name_eq
    refine ⟨.error ⟨f m.classes.name, []⟩ _, 0, .error _ (.mk hclasses hfunctions), fun _ _ => ?_⟩
    exact congrArg (fun name => Result.error ⟨f name, []⟩ _) hnames
  | display v =>
    rintro m _ ⟨hclasses, hfunctions⟩ -
    refine ⟨.ok (m.classes.display v) _, 0, .ok _ (.mk hclasses hfunctions), fun _ _ => ?_⟩
    refine congrArg (fun text => Result.ok text _) ?_
    simp only [ClassTable.display, hclasses.name_eq]
  | resolve =>
    refine .orRaise ?_ fun _ _ _ => rfl
    rintro m _ ⟨-, -⟩
    rfl
  | lookupClass name =>
    refine .orRaise ?_ fun _ _ _ => rfl
    rintro m _ ⟨hclasses, -⟩
    exact hclasses.lookup?_eq name
  | property =>
    refine .orRaise ?_ ?_
    · rintro m _ ⟨-, -⟩
      rfl
    · rintro m _ ⟨hclasses, -⟩
      exact congrArg _ (hclasses.name_eq _)
  | declareLocal | newObject | printLine =>
    -- these change what is the same on both machines in the same way
    refine .of_alike ?_
    rintro m _ ⟨hclasses, hfunctions⟩
    exact .ok _ (.mk hclasses hfunctions)
  | @assign _ v _ name =>
    refine .of_alike ?_
    rintro m _ ⟨hclasses, hfunctions⟩
    simp only [Machine.assign]
    cases m.scope.update? m.heap name v with
    | none => exact .error _ (.mk hclasses hfunctions)
    | some p => exact .ok _ (.mk hclasses hfunctions)
  | readLine =>
    refine .of_alike ?_
    rintro m _ ⟨hclasses, hfunctions⟩
    simp only [Machine.readLine]
    rcases m.console.readLine.1 with _ | _ | _
    · exact .error _ (.mk hclasses hfunctions)
    · exact .ok _ (.mk hclasses hfunctions)
    · exact .error _ (.mk hclasses hfunctions)
  | @registerClass _ d =>
    exact .registerClass (List.forall₂_same.mpr fun d _ => .refl (hS .inFunction) d) _ _ _
  | @declareFunction _ d => exact .declareFunction (.refl (hS .inFunction) d)
  | @eval _ e => exact hengine.eval e
  | block mode => exact hengine.block mode (hS mode _)
  | loop mode => exact hengine.loop mode _ (hS mode _)
  | callNamed function => exact hengine.callNamed function _
  | invokeMethod _ method => exact hengine.invokeMethod _ method _
  | constructDeclared => exact hengine.constructDeclared _ _

end FlannelScript
