import FlannelScript.Interpreter
import FlannelScript.Proofs.Data
import FlannelScript.Proofs.Grouping

/-!
# The value of a grouped chain

A tree of operators can be evaluated from the bottom up, without any machine, as long as its
operands are values of built-in classes: the methods of these classes are plain functions, and what
they give is a value of a built-in class again (`ClassTable.isBuiltin_of_operate`).

The main statement (`Engine.reduce_parse`) is that the reduction of a compound expression finds the
value of its tree, and fails just if the tree has none. It is a simulation: each step of a reduction
contracts the tree, too, and keeps its value (`Engine.reduceChain_grouped`).
-/

namespace FlannelScript

open Eval

/-! ## The value of a tree -/

/-- Values of built-in classes. -/
def Value.IsBuiltin (v : Value) : Prop := ∃ b, v.cls = .builtin b

/-- The method that a name means for the values of a built-in class: one of its own, or else one of
the root. -/
def BuiltinClass.inherited? (b : BuiltinClass) (method : String) : Option BuiltinMethod :=
  (b.method? method).or (obj.method? method)

/-- Apply an operator to values of built-in classes. -/
def ClassTable.operate (t : ClassTable) (op : Operator) (x y : Value) : Except Fault Value :=
  match x.cls with
  | .builtin b =>
    match b.inherited? op.method with
    | some method => t.callBuiltin method x op.method [y]
    | none => .error (.unknownMethod op.method b.name)
  | .declared id => .error (.unknownMethod op.method (t.name (.declared id)))

/-- Evaluate a tree from the bottom up. -/
def OpTree.eval {α : Type} (t : ClassTable) (value : α → Value) : OpTree α → Except Fault Value
  | operand x => .ok (value x)
  | node op left right => do
    let x ← left.eval t value
    let y ← right.eval t value
    t.operate op x y

theorem OpTree.eval_map {α β : Type} (t : ClassTable) (f : α → β) (value : β → Value)
    (tree : OpTree α) : (tree.map f).eval t value = tree.eval t (value ∘ f) := by
  induction tree with
  | operand x => rfl
  | node op left right ihleft ihright => rw [map, eval, eval, ihleft, ihright]

namespace ClassTable

theorem builtinChain_of_ne {b : BuiltinClass} (h : b ≠ .obj) :
    builtinChain b = [.builtin b, .builtin .obj] := by
  cases b with
  | obj => exact absurd rfl h
  | und | bln | int | flt | str => rfl

theorem resolveMethod?_builtin (t : ClassTable) (b : BuiltinClass) (method : String) :
    t.resolveMethod? (.builtin b) method = (b.inherited? method).map .builtin := by
  rw [resolveMethod?, ancestors, BuiltinClass.inherited?]
  by_cases hb : b = .obj
  · subst hb
    cases hroot : BuiltinClass.obj.method? method <;> simp [builtinChain, definition?, hroot]
  · rw [builtinChain_of_ne hb]
    cases hown : b.method? method <;> cases hroot : BuiltinClass.obj.method? method <;>
      simp [definition?, hown, hroot]

/-- Methods of built-in classes give values of built-in classes. -/
theorem isBuiltin_of_callBuiltin {t : ClassTable} {method : BuiltinMethod} {receiver v : Value}
    {name : String} {args : List Value} (h : t.callBuiltin method receiver name args = .ok v) :
    v.IsBuiltin :=
  (isData_of_callBuiltin h).cls_eq

theorem isBuiltin_of_operate {t : ClassTable} {op : Operator} {x y v : Value}
    (h : t.operate op x y = .ok v) : v.IsBuiltin := by
  rw [operate] at h
  split at h
  · split at h
    · exact isBuiltin_of_callBuiltin h
    · cases h
  · cases h

end ClassTable

/-- An operator on values of built-in classes changes nothing. -/
theorem Engine.invokeMethod_builtin (engine : Engine) (op : Operator) {x : Value}
    (hx : x.IsBuiltin) (y : Value) (m : Machine) :
    engine.invokeMethod x op.method [y] m = ofExcept (m.classes.operate op x y) m := by
  obtain ⟨b, hb⟩ := hx
  simp only [invokeMethod, ClassTable.operate, hb, ClassTable.resolveMethod?_builtin]
  cases b.inherited? op.method <;> rfl

namespace OpTree.Contracts

variable {α : Type} {op : Operator} {x y v : α} {tree tree' : OpTree α} {t : ClassTable}
  {value : α → Value}

/-- A contraction that gives the value of the node keeps the value of the tree. -/
theorem eval_eq (h : Contracts op x y v tree tree')
    (hop : t.operate op (value x) (value y) = .ok (value v)) :
    tree'.eval t value = tree.eval t value := by
  induction h with
  | here => exact hop.symm
  | left r _ ih => rw [eval, eval, ih]
  | right l _ ih => rw [eval, eval, ih]

/-- A tree with a node that has no value has none. -/
theorem eval_error (h : Contracts op x y v tree tree') {f : Fault}
    (hop : t.operate op (value x) (value y) = .error f) : ∃ f', tree.eval t value = .error f' := by
  induction h with
  | here => exact ⟨f, hop⟩
  | left r _ ih =>
    obtain ⟨f', ih⟩ := ih
    rw [eval, ih]
    exact ⟨f', rfl⟩
  | right l _ ih =>
    obtain ⟨f', ih⟩ := ih
    rw [eval, ih]
    cases l.eval t value with
    | error f'' => exact ⟨f'', rfl⟩
    | ok z => exact ⟨f', rfl⟩

end OpTree.Contracts

/-! ## Reduction -/

/-- The value of an operand, given the values of those to be evaluated. -/
def Slot.value (value : Expr → Value) : Slot → Value
  | pending e => value e
  | ready v => v

/-- A result on an unchanged machine: the value if there is one, or some error. -/
def Result.Reports (m : Machine) (r : Result Value) : Except Fault Value → Prop
  | .ok v => r = .ok v m
  | .error _ => ∃ f, r = .error ⟨f, []⟩ m

namespace Result.Reports

variable {m : Machine} {r : Result Value} {x : Except Fault Value}

theorem ok_iff (h : r.Reports m x) (v : Value) (m' : Machine) :
    r = .ok v m' ↔ x = .ok v ∧ m' = m := by
  cases x with
  | ok w =>
    obtain rfl := h
    constructor
    · rintro ⟨⟩
      exact ⟨rfl, rfl⟩
    · rintro ⟨⟨⟩, rfl⟩
      rfl
  | error f =>
    obtain ⟨f', rfl⟩ := h
    constructor
    · rintro ⟨⟩
    · rintro ⟨⟨⟩, -⟩

theorem error_iff (h : r.Reports m x) :
    (∃ e m', r = .error e m') ↔ ∃ f, x = .error f := by
  cases x with
  | ok w =>
    obtain rfl := h
    constructor
    · rintro ⟨e, m', ⟨⟩⟩
    · rintro ⟨f, ⟨⟩⟩
  | error f =>
    obtain ⟨f', rfl⟩ := h
    exact ⟨fun _ => ⟨f, rfl⟩, fun _ => ⟨_, _, rfl⟩⟩

/-- An error leaves the machine as it was. -/
theorem machine_eq (h : r.Reports m x) {e : EvalError} {m' : Machine} (he : r = .error e m') :
    m' = m := by
  cases x with
  | ok w =>
    obtain rfl := h
    cases he
  | error f =>
    obtain ⟨f', rfl⟩ := h
    cases he
    rfl

end Result.Reports

namespace Engine

variable (engine : Engine)

/-- An operand has a value of a built-in class, and its evaluation leaves the machine as it is. -/
def HasValue (m : Machine) (x : Slot) (v : Value) : Prop :=
  engine.force x m = .ok v m ∧ v.IsBuiltin

theorem applyOperator_of_hasValue {m : Machine} {x y : Slot} {v w : Value} (op : Operator)
    (hx : engine.HasValue m x v) (hy : engine.HasValue m y w) :
    engine.applyOperator op x y m = ofExcept (m.classes.operate op v w) m := by
  rw [applyOperator, bind_apply, hx.1]
  dsimp only
  rw [bind_apply, hy.1]
  exact engine.invokeMethod_builtin op hx.2 w m

/-- **Simulation.** The chain of a grouped tree is reduced to the value of the tree. -/
theorem reduceChain_grouped (m : Machine) (value : Expr → Value) {tree : OpTree Slot}
    (h : tree.Grouped)
    (hslots : ∀ x ∈ tree.chain.operands, engine.HasValue m x (x.value value)) :
    (engine.reduceChain tree.chain m).Reports m (tree.eval m.classes (Slot.value value)) := by
  -- each step takes an operator away
  induction hn : tree.chain.rest.length using Nat.strongRecOn generalizing tree with
  | ind n ih =>
    rcases OpTree.operand_or_opens h with ⟨x, rfl⟩ | ⟨r, hr⟩
    · exact (hslots x List.mem_cons_self).1
    · rw [← hr.chain_eq] at hslots hn ⊢
      have hleft := hslots r.left (Chain.left_mem_operands r)
      have hright := hslots r.right (Chain.right_mem_operands r)
      rw [engine.reduceChain_chain hr.isNext, bind_apply,
        engine.applyOperator_of_hasValue r.op hleft hright]
      cases hop : m.classes.operate r.op (r.left.value value) (r.right.value value) with
      | error f =>
        -- whatever is put in its place, the node is part of the tree
        obtain ⟨tree', -, -, hcontracts⟩ := hr.contract r.left
        obtain ⟨f', hf'⟩ := hcontracts.eval_error hop
        rw [hf']
        exact ⟨f, rfl⟩
      | ok v =>
        obtain ⟨tree', hgrouped, hchain, hcontracts⟩ := hr.contract (.ready v)
        have hslots' : ∀ x ∈ tree'.chain.operands, engine.HasValue m x (x.value value) := by
          intro x hx
          rw [hchain] at hx
          rcases Chain.mem_operands_contract hx with rfl | hx
          · exact ⟨rfl, ClassTable.isBuiltin_of_operate hop⟩
          · exact hslots x hx
        have hlt : tree'.chain.rest.length < n := by
          have := r.length_chain (.ready v)
          rw [hchain]
          omega
        have hreports := ih _ hlt hgrouped hslots' rfl
        rwa [hchain, hcontracts.eval_eq hop] at hreports

end Engine

/-- **Reduction agrees with the tree.** If all operands evaluate to values of built-in classes and
leave the machine as it is, a compound expression has just the value of the tree that precedence
climbing makes of it, on the same machine, and fails just if the tree has no value. -/
theorem Engine.reduce_parse (engine : Engine) (m : Machine) (head : Expr)
    (tail : List (String × Expr)) (value : Expr → Value)
    (hknown : Chain.unknownSymbol? tail = none)
    (hoperands : ∀ e ∈ head :: tail.map (·.2),
      engine.eval e m = .ok (value e) m ∧ (value e).IsBuiltin) :
    let tree := Chain.parse ⟨head, Chain.known tail⟩
    (tree.Grouped ∧ tree.chain = ⟨head, Chain.known tail⟩) ∧
    (∀ v m', engine.reduce head tail m = .ok v m' ↔
      tree.eval m.classes value = .ok v ∧ m' = m) ∧
    ((∃ e m', engine.reduce head tail m = .error e m') ↔
      ∃ f, tree.eval m.classes value = .error f) ∧
    ∀ e m', engine.reduce head tail m = .error e m' → m' = m := by
  intro tree
  obtain ⟨hgrouped, hchain⟩ := Chain.parse_spec ⟨head, Chain.known tail⟩
  have hslots : (tree.map Slot.pending).chain =
      ⟨.pending head, (Chain.known tail).map fun p => (p.1, .pending p.2)⟩ := by
    rw [OpTree.chain_map, hchain]
    rfl
  have hgood : ∀ x ∈ (tree.map Slot.pending).chain.operands,
      engine.HasValue m x (x.value value) := by
    intro x hx
    rw [OpTree.chain_map, Chain.operands_map, hchain] at hx
    obtain ⟨e, he, rfl⟩ := List.mem_map.mp hx
    refine hoperands e ?_
    rwa [← (Chain.resolveTail_of_known hknown).2]
  have hreports := engine.reduceChain_grouped m value (hgrouped.map Slot.pending) hgood
  rw [hslots, ← engine.reduce_of_known head hknown, OpTree.eval_map] at hreports
  exact ⟨⟨hgrouped, hchain⟩, hreports.ok_iff, hreports.error_iff, fun _ _ => hreports.machine_eq⟩

/-- `true or false == false` is `true or (false == false)`. -/
theorem Engine.reduce_parse_or_eq :
    (Engine.withFuel 1).reduce (.literal .bool "true")
      [("or", .literal .bool "false"), ("==", .literal .bool "false")] default =
        .ok (.ofBool true) default := by
  let value : Expr → Value := fun
    | .literal .bool "true" => .ofBool true
    | _ => .ofBool false
  have htree : Chain.parse ⟨Expr.literal .bool "true",
      [(.or, .literal .bool "false"), (.eq, .literal .bool "false")]⟩ =
      .node .or (.operand (.literal .bool "true"))
        (.node .eq (.operand (.literal .bool "false")) (.operand (.literal .bool "false"))) :=
    Chain.parse_eq_iff.mpr ⟨.node (.operand _) (.node (.operand _) (.operand _) (by decide)
      (by decide)) (by decide) (by decide), rfl⟩
  refine ((Engine.reduce_parse (Engine.withFuel 1) default _ _ value (by decide) ?_).2.1 _ _).mpr
    ⟨?_, rfl⟩
  · intro e he
    simp only [List.map_cons, List.map_nil, List.mem_cons, List.not_mem_nil, or_false] at he
    rcases he with rfl | rfl | rfl <;> exact ⟨rfl, .bln, rfl⟩
  · exact (congrArg (OpTree.eval _ value) htree).trans rfl

end FlannelScript
