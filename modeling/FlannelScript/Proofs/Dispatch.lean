import FlannelScript.Proofs.Course
import FlannelScript.Proofs.Scoping

/-!
# Two ways to one call

Methods are looked for in two ways. A method call goes from the class of its receiver to the root
and takes the first definition, declared or built in; a construction looks for an `init` among
declared methods only. On the way to the root declared classes come first, so the two searches find
the same declared method, and where there is none, the first one goes on to the built-in classes
(`ClassTable.resolveMethod?_eq`). No built-in class has an `init`. A construction is therefore an
allocation and then a call of the method `init` on the new instance
(`construction_dispatches_init`).

A method is also called in two ways, by its name and by an operator. The operands are evaluated in
opposite orders, but as no expression rebinds a local, an operator on a local is a call of its
method (`operator_is_method_call`).
-/

namespace FlannelScript

open Eval Machine

/-! ## The two searches -/

/-- The definition that a declared method is. -/
def MethodDef.ofDeclared (found : ClassRef × Callable) : MethodDef := .declared found.1 found.2

/-- The method that a class itself has under a name if it is built in. -/
def ClassRef.builtinMethod? (method : String) : ClassRef → Option BuiltinMethod
  | .builtin b => b.method? method
  | .declared _ => none

namespace ClassTable

variable (t : ClassTable) (c : ClassRef) (method : String)

/-- The nearest built-in method on the way from a class to the root, whatever declared methods come
before it. -/
def builtinMethod? : Option BuiltinMethod :=
  (t.ancestors c).findSome? (ClassRef.builtinMethod? method)

/-- **Declared classes come first** on the way to the root. -/
theorem exists_ancestors_eq : ∃ (ids : List Nat) (bs : List BuiltinClass),
    t.ancestors c = ids.map .declared ++ bs.map .builtin := by
  have hbuiltin : ∀ b, ∃ bs : List BuiltinClass, builtinChain b = bs.map .builtin := by
    intro b
    cases b with
    | obj => exact ⟨[.obj], rfl⟩
    | und | bln | int | flt | str => exact ⟨[_, .obj], rfl⟩
  cases c with
  | builtin b =>
    obtain ⟨bs, hbs⟩ := hbuiltin b
    exact ⟨[], bs, hbs⟩
  | declared id =>
    rw [ancestors]
    induction id using Nat.strongRecOn with
    | ind id ih =>
      rw [declaredChain]
      -- behind the class: nothing, a built-in parent, or an older declared one
      split
      · exact ⟨[id], [], rfl⟩
      · split
        · rename_i b _
          obtain ⟨bs, hbs⟩ := hbuiltin b
          exact ⟨[id], bs, by rw [hbs]; rfl⟩
        · split
          · rename_i up _ hup
            obtain ⟨ids, bs, hchain⟩ := ih up hup
            exact ⟨id :: ids, bs, by rw [hchain]; rfl⟩
          · exact ⟨[id], [], rfl⟩

/-- **The two searches.** What a method call finds is the declared method that a construction would
find and, failing that, a built-in one. -/
theorem resolveMethod?_eq :
    t.resolveMethod? c method =
      ((t.findMethod? c method).map .ofDeclared).or ((t.builtinMethod? c method).map .builtin) := by
  obtain ⟨ids, bs, hchain⟩ := t.exists_ancestors_eq c
  have hdeclared : (t.findMethod? c method).map .ofDeclared =
      (ids.map .declared).findSome? (t.definition? method) := by
    have hbuiltin : (bs.map .builtin).findSome? (fun owner =>
        (t.ownMethod? owner method).map (owner, ·)) = none :=
      List.findSome?_eq_none_iff.mpr (List.forall_mem_map.mpr fun _ _ => rfl)
    rw [findMethod?, hchain, List.findSome?_append, hbuiltin, Option.or_none, List.map_findSome?,
      List.findSome?_map, List.findSome?_map]
    congr 1
    funext id
    exact Option.map_map ..
  have hbuiltin : (t.builtinMethod? c method).map .builtin =
      (bs.map .builtin).findSome? (t.definition? method) := by
    have hdeclared : (ids.map .declared).findSome? (ClassRef.builtinMethod? method) = none :=
      List.findSome?_eq_none_iff.mpr (List.forall_mem_map.mpr fun _ _ => rfl)
    rw [builtinMethod?, hchain, List.findSome?_append, hdeclared, Option.none_or,
      List.map_findSome?, List.findSome?_map, List.findSome?_map]
    rfl
  rw [resolveMethod?, hchain, List.findSome?_append, hdeclared, hbuiltin]

variable {t c method}

theorem exists_of_builtinMethod?_eq_some {found : BuiltinMethod}
    (h : t.builtinMethod? c method = some found) :
    ∃ b : BuiltinClass, b.method? method = some found := by
  obtain ⟨owner, -, howner⟩ := List.exists_of_findSome?_eq_some h
  cases owner with
  | builtin b => exact ⟨b, howner⟩
  | declared id => cases howner

/-- For a name that no built-in class has, both searches find the same. -/
theorem resolveMethod?_of_forall_builtin (h : ∀ b : BuiltinClass, b.method? method = none) :
    t.resolveMethod? c method = (t.findMethod? c method).map .ofDeclared := by
  have hnone : t.builtinMethod? c method = none := by
    cases hfound : t.builtinMethod? c method with
    | none => rfl
    | some found =>
      obtain ⟨b, hb⟩ := exists_of_builtinMethod?_eq_some hfound
      rw [h b] at hb
      cases hb
  rw [resolveMethod?_eq, hnone, Option.map_none, Option.or_none]

/-- A search among declared methods fails just if no class on the way declares the method. -/
theorem findMethod?_eq_none_iff :
    t.findMethod? c method = none ↔ ∀ owner ∈ t.ancestors c, t.ownMethod? owner method = none := by
  rw [findMethod?, List.findSome?_eq_none_iff]
  simp only [Option.map_eq_none_iff]

end ClassTable

/-! ## Construction -/

/-- No built-in class has an `init`. -/
theorem BuiltinClass.method?_init (b : BuiltinClass) : b.method? Engine.initMethod = none := by
  cases b <;> rfl

/-- The machine with one more instance of a class, as the class makes them. -/
def Machine.withInstance (m : Machine) (c : ClassRef) : Machine :=
  { m with heap := (m.heap.alloc (m.classes.mergedDefaults c)).1 }

namespace Engine

variable (engine : Engine) {c : ClassRef} (args : List Value) {m : Machine}

/-- Where there is an `init`, a construction calls it as a method of the new instance. -/
theorem constructDeclared_of_init (h : m.classes.findMethod? c initMethod ≠ none) :
    engine.constructDeclared c args m = (do
      let fresh ← newInstance c (m.classes.mergedDefaults c)
      let _ ← engine.invokeMethod fresh initMethod args
      pure fresh) m := by
  obtain ⟨⟨owner, init⟩, hfind⟩ := Option.ne_none_iff_exists'.mp h
  have hresolve : (m.withInstance c).classes.resolveMethod? c initMethod =
      some (.declared owner init) := by
    rw [ClassTable.resolveMethod?_of_forall_builtin BuiltinClass.method?_init]
    exact congrArg _ hfind
  have hnew : newInstance c (m.classes.mergedDefaults c) m =
      .ok ⟨c, .ref m.heap.cells.size⟩ (m.withInstance c) := rfl
  have hinvoke :
      engine.invokeMethod ⟨c, .ref m.heap.cells.size⟩ initMethod args (m.withInstance c) =
      engine.invoke init (some owner) (some ⟨c, .ref m.heap.cells.size⟩) args
        (CallStack.methodFrame (m.classes.name owner) initMethod) (m.withInstance c) := by
    rw [invokeMethod_apply, hresolve]
    rfl
  have hconstruct : engine.constructDeclared c args m = (do
      let _ ← engine.invoke init (some owner) (some ⟨c, .ref m.heap.cells.size⟩) args
        (CallStack.methodFrame (m.classes.name owner) initMethod)
      pure (⟨c, .ref m.heap.cells.size⟩ : Value)) (m.withInstance c) := by
    rw [constructDeclared_apply, hfind]
    rfl
  rw [hconstruct, bind_of_ok hnew, bind_apply, bind_apply, hinvoke]

theorem constructDeclared_of_no_init (h : m.classes.findMethod? c initMethod = none) :
    engine.constructDeclared c args m =
      if args = [] then .ok ⟨c, .ref m.heap.cells.size⟩ (m.withInstance c)
      else .error ⟨.arityMismatch (m.classes.name c) 0 args.length, []⟩ (m.withInstance c) := by
  rw [constructDeclared_apply, h]
  cases args <;> rfl

end Engine

/-- **Construction dispatches `init`.** If a class on the way from a declared class to the root has
an `init`, to construct an instance is to allocate one with the merged defaults and to call the
method `init` on it: with the same errors, in the same frame, with the same meaning of the enclosing
class and the same effects. Without an `init`, no arguments are taken and the allocation is all that
happens. For any name that no built-in class has, the search among declared methods and that of a
method call find the same callable of the same class. -/
theorem construction_dispatches_init (engine : Engine) (m : Machine) (id : Nat)
    (args : List Value) :
    ((∃ owner ∈ m.classes.ancestors (.declared id), m.classes.ownMethod? owner "init" ≠ none) →
      engine.construct (.declared id) args m = (do
        let fresh ← newInstance (.declared id) (m.classes.mergedDefaults (.declared id))
        let _ ← engine.invokeMethod fresh "init" args
        pure fresh) m) ∧
    ((∀ owner ∈ m.classes.ancestors (.declared id), m.classes.ownMethod? owner "init" = none) →
      engine.construct (.declared id) args m =
        if args = [] then .ok ⟨.declared id, .ref m.heap.cells.size⟩ (m.withInstance (.declared id))
        else .error ⟨.arityMismatch (m.classes.name (.declared id)) 0 args.length, []⟩
          (m.withInstance (.declared id))) ∧
    ∀ c method, (∀ b : BuiltinClass, b.method? method = none) →
      m.classes.resolveMethod? c method = (m.classes.findMethod? c method).map .ofDeclared := by
  refine ⟨?_, ?_, fun c method h => ClassTable.resolveMethod?_of_forall_builtin h⟩
  · rintro ⟨owner, howner, hinit⟩
    refine engine.constructDeclared_of_init args fun hnone => hinit ?_
    exact ClassTable.findMethod?_eq_none_iff.mp hnone owner howner
  · intro h
    exact engine.constructDeclared_of_no_init args (ClassTable.findMethod?_eq_none_iff.mpr h)

/-- A class `P` with a property `b` and an `init` that takes another `P` and sets `b`; a class `Q`
that descends from it; and an instance of `P`. -/
def Machine.inheritedInit : Machine where
  classes :=
    (ClassTable.initial.declare
      { name := "P"
        parent := .builtin .obj
        defaults := .ofList [("b", .ofBool false)]
        methods := .ofList
          [("init", ⟨"init", [⟨"other", .enclosing⟩], .cls (.builtin .und),
            [.assign "b" (.ofBool true)]⟩)] }).declare { name := "Q", parent := .declared 0 }
  heap := ⟨#[.ofList [("b", .ofBool false)]]⟩

/-- An instance of `Q` is constructed by the `init` of `P`, which takes the instance of `P` and then
finds the property of the new one. -/
theorem construction_dispatches_init_inherited :
    let m := Machine.inheritedInit
    let args : List Value := [⟨.declared 0, .ref 0⟩]
    (∃ owner ∈ m.classes.ancestors (.declared 1), m.classes.ownMethod? owner "init" ≠ none) ∧
    ∃ m', (Engine.withFuel 5).construct (.declared 1) args m = .ok ⟨.declared 1, .ref 1⟩ m' ∧
      m'.heap.get? 1 "b" = some (.ofBool true) ∧
      (do
        let fresh ← newInstance (.declared 1) (m.classes.mergedDefaults (.declared 1))
        let _ ← (Engine.withFuel 5).invokeMethod fresh "init" args
        pure fresh) m = .ok ⟨.declared 1, .ref 1⟩ m' := by
  intro m args
  have hchain : m.classes.ancestors (.declared 1) =
      [.declared 1, .declared 0, .builtin .obj] := by
    rw [ClassTable.ancestors, ClassTable.declaredChain]
    change _ :: ClassTable.declaredChain _ 0 = _
    rw [ClassTable.declaredChain]
    rfl
  have hinit : ∃ owner ∈ m.classes.ancestors (.declared 1),
      m.classes.ownMethod? owner "init" ≠ none := by
    rw [hchain]
    exact ⟨.declared 0, by decide, Option.isSome_iff_ne_none.mp rfl⟩
  obtain ⟨m', hm', hb⟩ : ∃ m', (Engine.withFuel 5).construct (.declared 1) args m =
      .ok ⟨.declared 1, .ref 1⟩ m' ∧ m'.heap.get? 1 "b" = some (.ofBool true) := by
    rw [Engine.construct, Engine.constructDeclared_apply, ClassTable.findMethod?,
      ClassTable.mergedDefaults, hchain]
    exact ⟨_, rfl, rfl⟩
  have hsame := (construction_dispatches_init (Engine.withFuel 5) m 1 args).1 hinit
  exact ⟨hinit, m', hm', hb, hsame.symm.trans hm'⟩

/-! ## Operators -/

namespace Engine

variable (engine : Engine)

/-- With one operator, both operands are evaluated from left to right, and then the call is made. -/
theorem reduce_single (head e : Expr) (op : Operator) :
    engine.reduce head [(op.symbol, e)] = (do
      let left ← engine.eval head
      let right ← engine.eval e
      engine.invokeMethod left op.method [right]) := by
  have hchain : Chain.ofExpr head [(op.symbol, e)] =
      .ok ⟨.pending head, [(op, .pending e)]⟩ := by
    rw [Chain.ofExpr, Chain.resolveTail, Operator.ofSymbol?_symbol]
    rfl
  rw [reduce, hchain]
  -- the result of the only step is the operand that is left
  change (do
    let left ← engine.eval head
    let right ← engine.eval e
    engine.invokeMethod left op.method [right] >>= pure) = _
  simp only [bind_pure]

/-- With one argument, the argument is evaluated before the receiver is looked up. -/
theorem evalMethodCall_single (object method : String) (e : Expr) :
    engine.evalMethodCall object method [e] = (do
      let right ← engine.eval e
      let left ← resolve object
      engine.invokeMethod left method [right]) := by
  simp only [evalMethodCall, evalArgs, bind_assoc, pure_bind]

end Engine

theorem Machine.resolve_of_local {m : Machine} {x : String} {v : Value}
    (h : m.scope.locals.get? x = some v) : resolve x m = .ok v m := by
  rw [resolve, Scope.resolve?, h]
  rfl

/-- Whatever an expression runs, a local stands for the same value after it as before it. -/
theorem Engine.resolve_after_eval {n : Nat} {e : Expr} {m m' : Machine} {right v : Value}
    {x : String} (hlocal : m.scope.locals.get? x = some v)
    (he : (withFuel n).eval e m = .ok right m') :
    resolve x m' = .ok v m' := by
  have hscope : m'.scope = m.scope :=
    ((withFuel_keeps .scoping n).eval e m m' (by rw [he]; rfl)).1
  exact resolve_of_local (hscope ▸ hlocal)

/-- **An operator on a local is a call of its method.** The receiver of the call is looked up after
the argument has run, the left operand before the right one; the two give the same value or the same
error, and leave the same machine, whatever the right operand does. -/
theorem operator_is_method_call (n : Nat) (m : Machine) {x : String}
    (hx : m.scope.locals.contains x = true) (op : Operator) (e : Expr) :
    (Engine.withFuel n).eval (.compound (.name x) [(op.symbol, e)]) m =
      (Engine.withFuel n).eval (.methodCall x op.method [e]) m := by
  obtain ⟨v, hv⟩ := Option.isSome_iff_exists.mp hx
  -- without fuel for its parts, neither form is evaluated
  rcases n with _ | _ | n
  · rfl
  · cases op <;> rfl
  · have hleft : (Engine.withFuel (n + 1)).eval (.name x) m = .ok v m := resolve_of_local hv
    change (Engine.withFuel (n + 1)).reduce (.name x) [(op.symbol, e)] m =
      (Engine.withFuel (n + 1)).evalMethodCall x op.method [e] m
    rw [Engine.reduce_single, Engine.evalMethodCall_single, bind_of_ok hleft, bind_apply,
      bind_apply]
    cases he : (Engine.withFuel (n + 1)).eval e m with
    | ok right m' =>
      change _ = (resolve x >>= fun left => _) m'
      rw [bind_of_ok (Engine.resolve_after_eval hv he)]
    | error err m' => rfl
    | outOfFuel => rfl

/-- The machine of `Machine.insideMethod` with a local `n` in front of the property `n`, which the
function `f` goes on to rebind. -/
def Machine.shadowing : Machine :=
  { insideMethod with scope := insideMethod.scope.declare "n" (.ofInt 2) }

/-- `n + f()` and `n.add(f())` for a local `n`: both call `f`, which rebinds the property of that
name, and fail alike on its undefined result. -/
theorem operator_is_method_call_shadowing :
    Machine.shadowing.scope.locals.contains "n" = true ∧
    ∃ m', (Engine.withFuel 9).eval (.compound (.name "n") [("+", .call "f" [])]) .shadowing =
        .error ⟨.typeMismatch "Int" "Und", []⟩ m' ∧
      m'.heap.get? 0 "n" = some .undefined ∧
      (Engine.withFuel 9).eval (.methodCall "n" "add" [.call "f" []]) .shadowing =
        .error ⟨.typeMismatch "Int" "Und", []⟩ m' := by
  have hlocal : Machine.shadowing.scope.locals.contains "n" = true := rfl
  refine ⟨hlocal, _, rfl, rfl, ?_⟩
  exact (operator_is_method_call 9 .shadowing hlocal .add (.call "f" [])).symm.trans rfl

-- A property of the receiver is no local: the operator takes its value before `f` runs, the call
-- after.
example :
    (∃ m', (Engine.withFuel 9).eval (.compound (.name "n") [("+", .call "f" [])]) .insideMethod =
      .error ⟨.typeMismatch "Int" "Und", []⟩ m') ∧
    ∃ m', (Engine.withFuel 9).eval (.methodCall "n" "add" [.call "f" []]) .insideMethod =
      .error ⟨.unknownMethod "add" "Und", []⟩ m' := ⟨⟨_, rfl⟩, ⟨_, rfl⟩⟩

end FlannelScript
