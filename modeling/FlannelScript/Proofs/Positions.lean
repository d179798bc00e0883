import FlannelScript.Interpreter
import FlannelScript.Proofs.Evaluation
import FlannelScript.Proofs.Grouping

/-!
# Positions in a reduction

A `Chain` has an operand on either side of each operator by construction. The same reduction can be
carried out on a list of operators and a list of operands that know nothing of each other
(`SplitChain`): the strongest operator is selected by its position and taken out, its operands are
looked up at that position and the one behind it, and only when its method has returned, one of them
is taken out and the other one replaced. A look-up outside of a list ends the evaluation there and
then (`Absent`), and so does an end without an operand that could be the result.

The main statement (`Engine.positions_in_range`) is that no look-up is in vain, whatever the operands
do: the reduction on two lists is the one on chains, by as many steps as there are operators. What
carries it is that the operands are one more than the operators whenever an operator is selected
(`SplitChain.Balanced`), so the position that selection finds (`Operator.LeftmostStrongest`) and the
one behind it are those of operands.
-/

namespace FlannelScript

open Eval

/-! ## Selection by position -/

namespace Operator

/-- The operator at a position is the leftmost one of the greatest precedence. -/
structure LeftmostStrongest (ops : List Operator) (i : Nat) : Prop where
  inRange : i < ops.length
  le : ∀ op ∈ ops, op.precedence ≤ ops[i].precedence
  lt : ∀ j (h : j < i), ops[j].precedence < ops[i].precedence

/-- An operator that is stronger than all before it and at least as strong as all behind it. -/
theorem leftmostStrongest_append_cons {before after : List Operator} {op : Operator}
    (hbefore : ∀ o ∈ before, o.precedence < op.precedence)
    (hafter : ∀ o ∈ after, o.precedence ≤ op.precedence) :
    LeftmostStrongest (before ++ op :: after) before.length := by
  have hlt : before.length < (before ++ op :: after).length := by simp
  have hat : (before ++ op :: after)[before.length] = op := by simp
  refine ⟨hlt, fun o ho => ?_, fun j hj => ?_⟩
  · rw [hat]
    rw [List.mem_append, List.mem_cons] at ho
    rcases ho with ho | rfl | ho
    · exact Nat.le_of_lt (hbefore o ho)
    · exact Nat.le_refl _
    · exact hafter o ho
  · rw [hat, List.getElem_append_left hj]
    exact hbefore _ (List.getElem_mem hj)

/-- **Selection by position.** Of operators that are at least one, the leftmost one of the greatest
precedence is selected. -/
theorem select_leftmostStrongest {ops : List Operator} (h : ops ≠ []) :
    ∃ i, select ops = some i ∧ LeftmostStrongest ops i := by
  obtain ⟨before, op, after, rfl, hbefore, hafter⟩ := exists_leftmost_max precedence h
  exact ⟨before.length, select_append_cons hbefore hafter,
    leftmostStrongest_append_cons hbefore hafter⟩

example : select [.or, .add, .exp, .mul, .exp] = some 2 := rfl

theorem select_eq_none_iff {ops : List Operator} : select ops = none ↔ ops = [] := by
  cases ops with
  | nil => simp
  | cons op rest => simp [select]

end Operator

/-! ## Reduction on two lists -/

/-- A chain taken apart: operator `i` is meant to stand between the operands `i` and `i + 1`. -/
structure SplitChain where
  operators : List Operator
  operands : List Slot

/-- What is not there when it is asked for. -/
inductive Absent where
  | operator (i : Nat)
  | operand (i : Nat)
  /-- no operand is left at the end, and the first one of all would have to be evaluated again -/
  | last
  deriving DecidableEq, Repr

/-- An evaluation that stops where it asks for something that is not there. -/
abbrev Checked : Type → Type := ExceptT Absent Eval

namespace Checked

variable {α : Type}

/-- A value that may be missing. -/
def demand (x : Option α) (absent : Absent) : Checked α :=
  match x with
  | some a => pure a
  | none => throw absent

@[simp] theorem demand_some (a : α) (absent : Absent) : demand (some a) absent = pure a := rfl

/-- A sequence whose first half finds all it asks for, and succeeds, is its second half. -/
theorem run_bind_of_ok {β : Type} {x : Checked α} {f : α → Checked β} {m m₁ : Machine} {a : α}
    (h : x.run m = .ok (.ok a) m₁) : (x >>= f).run m = (f a).run m₁ := by
  rw [ExceptT.run_bind]
  exact bind_of_ok h

/-- A plain evaluation asks for nothing. -/
theorem run_liftM (x : Eval α) : (liftM x : Checked α).run = Except.ok <$> x := rfl

/-- Take out what stands at a position. -/
def remove (l : List α) (i : Nat) (absent : Absent) : Checked (List α) := do
  let _ ← demand l[i]? absent
  pure (l.eraseIdx i)

/-- Replace what stands at a position. -/
def replace (l : List α) (i : Nat) (a : α) (absent : Absent) : Checked (List α) := do
  let _ ← demand l[i]? absent
  pure (l.set i a)

end Checked

open Checked

namespace Engine

/-- Reduce an operator at a position: evaluate the operands there and behind it, call the method, and
put the result in their place. -/
def reduceAt (engine : Engine) (op : Operator) (operands : List Slot) (i : Nat) :
    Checked (List Slot) := do
  let left ← engine.force (← demand operands[i]? (.operand i))
  let right ← engine.force (← demand operands[i + 1]? (.operand (i + 1)))
  let result ← engine.invokeMethod left op.method [right]
  -- until here the operands have stood where they were
  let operands ← remove operands (i + 1) (.operand (i + 1))
  replace operands i (.ready result) (.operand i)

/-- Reduce the selected operator as long as there is one: the value, and the number of operators
that have been reduced. -/
def reduceSplit (engine : Engine) (c : SplitChain) : Checked (Value × Nat) :=
  match _h : Operator.select c.operators with
  | none => do
    let v ← engine.force (← demand c.operands.getLast? .last)
    pure (v, 0)
  | some i => do
    let op ← demand c.operators[i]? (.operator i)
    -- the operator is gone before its operands are evaluated
    let operators := c.operators.eraseIdx i
    let operands ← engine.reduceAt op c.operands i
    let (v, n) ← engine.reduceSplit ⟨operators, operands⟩
    pure (v, n + 1)
termination_by c.operators.length
decreasing_by
  have := Operator.select_lt _h
  rw [List.length_eraseIdx_of_lt this]
  omega

variable (engine : Engine)

theorem reduceSplit_of_none {c : SplitChain} (h : Operator.select c.operators = none) :
    engine.reduceSplit c = (do
      let v ← engine.force (← demand c.operands.getLast? .last)
      pure (v, 0)) := by
  rw [reduceSplit]
  split
  · rfl
  · rename_i i hi
    rw [h] at hi
    cases hi

theorem reduceSplit_of_some {c : SplitChain} {i : Nat} (h : Operator.select c.operators = some i) :
    engine.reduceSplit c = (do
      let op ← demand c.operators[i]? (.operator i)
      let operands ← engine.reduceAt op c.operands i
      let (v, n) ← engine.reduceSplit ⟨c.operators.eraseIdx i, operands⟩
      pure (v, n + 1)) := by
  rw [reduceSplit]
  split
  · rename_i hi
    rw [h] at hi
    cases hi
  · rename_i j hj
    obtain rfl : i = j := Option.some.inj (h.symm.trans hj)
    rfl

end Engine

/-! ## A split chain is a chain

Taking a chain apart gives lists of the right lengths, and a step on the lists is a step on the
chain. -/

namespace Chain

/-- A chain taken apart. -/
def split (c : Chain Slot) : SplitChain := ⟨c.operators, c.operands⟩

@[simp] theorem operators_split (c : Chain Slot) : c.split.operators = c.operators := rfl

@[simp] theorem operands_split (c : Chain Slot) : c.split.operands = c.operands := rfl

end Chain

namespace Redex

variable {α : Type} (r : Redex α)

theorem operands_chain :
    r.chain.operands = r.before.map (·.1) ++ r.left :: r.right :: r.after.map (·.2) :=
  Chain.operands_prepend ..

theorem operands_contract (v : α) :
    (r.contract v).operands = r.before.map (·.1) ++ v :: r.after.map (·.2) :=
  Chain.operands_prepend ..

theorem getElem?_operators_chain : r.chain.operators[r.before.length]? = some r.op := by
  simp [operators_chain]

theorem eraseIdx_operators_chain (v : α) :
    r.chain.operators.eraseIdx r.before.length = (r.contract v).operators := by
  simp [operators_chain, operators_contract, List.eraseIdx_append_of_length_le]

end Redex

namespace SplitChain

/-- The operands are one more than the operators. -/
def Balanced (c : SplitChain) : Prop := c.operands.length = c.operators.length + 1

/-- The selected position and the one behind it are those of operands. -/
theorem Balanced.lt_of_select {c : SplitChain} (h : c.Balanced) {i : Nat}
    (hi : Operator.select c.operators = some i) : i + 1 < c.operands.length := by
  have := Operator.select_lt hi
  rw [Balanced] at h
  omega

end SplitChain

namespace Engine

variable (engine : Engine)

/-- **One reduction.** With an operand at the position and one behind it, nothing that is asked for
is absent. -/
theorem reduceAt_append (op : Operator) (before : List Slot) (x y : Slot) (after : List Slot) :
    engine.reduceAt op (before ++ x :: y :: after) before.length =
      liftM ((fun v => before ++ .ready v :: after) <$> engine.applyOperator op x y) := by
  have hleft : (before ++ x :: y :: after)[before.length]? = some x := by simp
  have hright : (before ++ x :: y :: after)[before.length + 1]? = some y := by simp
  have herase : (before ++ x :: y :: after).eraseIdx (before.length + 1) = before ++ x :: after := by
    simp [List.eraseIdx_append_of_length_le]
  have hrest : (before ++ x :: after)[before.length]? = some x := by simp
  have hset (v : Value) : (before ++ x :: after).set before.length (.ready v) =
      before ++ .ready v :: after := by
    simp
  simp only [reduceAt, remove, replace, applyOperator, hleft, hright, herase, hset, hrest,
    demand_some, pure_bind, map_eq_pure_bind, liftM_bind, liftM_pure, bind_assoc]

/-- A reduction on the operands of a chain gives those of its contraction. -/
theorem reduceAt_chain (r : Redex Slot) :
    engine.reduceAt r.op r.chain.operands r.before.length =
      liftM ((fun v => (r.contract (.ready v)).operands) <$>
        engine.applyOperator r.op r.left r.right) := by
  have happend := engine.reduceAt_append r.op (r.before.map (·.1)) r.left r.right
    (r.after.map (·.2))
  rw [List.length_map] at happend
  simpa only [r.operands_chain, r.operands_contract] using happend

/-- **The reduction on two lists.** A chain that is taken apart is reduced as the chain is, by as
many steps as it has operators. -/
theorem reduceSplit_split (c : Chain Slot) :
    engine.reduceSplit c.split = liftM ((·, c.rest.length) <$> engine.reduceChain c) := by
  induction c using Chain.reduction_induction with
  | nil x =>
    rw [engine.reduceSplit_of_none rfl]
    simp [Chain.operands]
  | step r hr ih =>
    have hlength (v : Slot) : (r.contract v).rest.length + 1 = r.chain.rest.length :=
      (r.length_chain v).symm
    have hsplit (v : Slot) : SplitChain.mk (r.chain.operators.eraseIdx r.before.length)
        (r.contract v).operands = (r.contract v).split :=
      congrArg (SplitChain.mk · _) (r.eraseIdx_operators_chain v)
    rw [engine.reduceSplit_of_some (c := r.chain.split) hr.select_operators,
      engine.reduceChain_chain hr, Chain.operators_split, Chain.operands_split,
      r.getElem?_operators_chain, demand_some, pure_bind, engine.reduceAt_chain]
    -- the two lists of the contraction are those of the next step
    simp [hsplit, ih, hlength]

end Engine

/-! ## Compound expressions -/

namespace SplitChain

/-- The operator that a symbol stands for. -/
def resolve (symbol : String) : Except Fault Operator :=
  match Operator.ofSymbol? symbol with
  | some op => .ok op
  | none => .error (.unsupportedOperator symbol)

/-- The operators and the operands of a compound expression; the leftmost unknown symbol is
reported. -/
def ofExpr (head : Expr) (tail : List (String × Expr)) : Except Fault SplitChain := do
  let operators ← tail.mapM fun p => resolve p.1
  pure ⟨operators, .pending head :: tail.map fun p => .pending p.2⟩

theorem mapM_resolve (tail : List (String × Expr)) :
    (tail.mapM fun p => resolve p.1) = (Chain.resolveTail tail).map (List.map (·.1)) := by
  induction tail with
  | nil => rfl
  | cons p tail ih =>
    rw [List.mapM_cons, Chain.resolveTail, resolve, ih]
    cases Operator.ofSymbol? p.1 with
    | none => rfl
    | some op => cases Chain.resolveTail tail <;> rfl

end SplitChain

namespace Chain

theorem operands_of_resolveTail {tail : List (String × Expr)} {rest : List (Operator × Slot)}
    (h : resolveTail tail = .ok rest) : rest.map (·.2) = tail.map fun p => .pending p.2 := by
  cases hunknown : unknownSymbol? tail with
  | some symbol =>
    rw [resolveTail_of_unknown hunknown] at h
    cases h
  | none =>
    obtain ⟨hresolve, hoperands⟩ := resolveTail_of_known hunknown
    obtain rfl := Except.ok.inj (hresolve.symm.trans h)
    simpa only [List.map_map, Function.comp_def] using congrArg (List.map Slot.pending) hoperands

theorem length_of_resolveTail {tail : List (String × Expr)} {rest : List (Operator × Slot)}
    (h : resolveTail tail = .ok rest) : rest.length = tail.length := by
  simpa using congrArg List.length (operands_of_resolveTail h)

end Chain

namespace SplitChain

/-- It makes no difference whether a compound expression is taken apart before or after its symbols
are looked up. -/
theorem ofExpr_eq (head : Expr) (tail : List (String × Expr)) :
    ofExpr head tail = (Chain.ofExpr head tail).map Chain.split := by
  rw [ofExpr, Chain.ofExpr, mapM_resolve]
  cases hrest : Chain.resolveTail tail with
  | error f => rfl
  | ok rest =>
    rw [← Chain.operands_of_resolveTail hrest]
    rfl

/-- What an expression is taken apart to is balanced, with an operator for each symbol. -/
theorem balanced_of_ofExpr {head : Expr} {tail : List (String × Expr)} {c : SplitChain}
    (h : ofExpr head tail = .ok c) : c.Balanced ∧ c.operators.length = tail.length := by
  rw [ofExpr_eq, Chain.ofExpr] at h
  cases hrest : Chain.resolveTail tail with
  | error f =>
    rw [hrest] at h
    cases h
  | ok rest =>
    rw [hrest] at h
    cases h
    simp [Balanced, Chain.operands, Chain.length_of_resolveTail hrest]

end SplitChain

namespace Engine

/-- Evaluate a compound expression on two lists: the value, and the number of operators that have
been reduced. -/
def reduceByPosition (engine : Engine) (head : Expr) (tail : List (String × Expr)) :
    Checked (Value × Nat) := do
  let c ← (Eval.ofExcept (SplitChain.ofExpr head tail) : Eval SplitChain)
  engine.reduceSplit c

/-- Nothing is absent in the reduction of a compound expression, which takes as many steps as the
expression has operators. -/
theorem reduceByPosition_eq (engine : Engine) (head : Expr) (tail : List (String × Expr)) :
    engine.reduceByPosition head tail = liftM ((·, tail.length) <$> engine.reduce head tail) := by
  rw [reduceByPosition, reduce, SplitChain.ofExpr_eq, Chain.ofExpr]
  cases hrest : Chain.resolveTail tail with
  | error f => rfl
  | ok rest =>
    rw [← Chain.length_of_resolveTail hrest]
    exact engine.reduceSplit_split ⟨.pending head, rest⟩

end Engine

/-! ## Every stage of a reduction -/

/-- A reduction comes from a split chain to another one in `n` steps, on the machine that these
leave. -/
inductive Engine.Reaches (engine : Engine) (c : SplitChain) (m : Machine) :
    Nat → SplitChain → Machine → Prop
  | start : Reaches engine c m 0 c m
  | step {n : Nat} {d : SplitChain} {m₁ m₂ : Machine} {i : Nat} {op : Operator}
      {operands : List Slot} (reached : Reaches engine c m n d m₁)
      (select : Operator.select d.operators = some i) (operator : d.operators[i]? = some op)
      (reduced : (engine.reduceAt op d.operands i).run m₁ = .ok (.ok operands) m₂) :
      Reaches engine c m (n + 1) ⟨d.operators.eraseIdx i, operands⟩ m₂

/-- A list is cut at two neighbouring positions. -/
theorem exists_append_of_succ_lt {α : Type} {l : List α} {i : Nat} (h : i + 1 < l.length) :
    ∃ before x y after, l = before ++ x :: y :: after ∧ before.length = i := by
  refine ⟨l.take i, l[i], l[i + 1], l.drop (i + 2), ?_, ?_⟩
  · simp
  · rw [List.length_take]
    omega

namespace Engine

variable {engine : Engine}

/-- A reduction leaves one operand less. -/
theorem length_of_reduceAt {op : Operator} {operands operands' : List Slot} {i : Nat}
    {m m' : Machine} (hi : i + 1 < operands.length)
    (h : (engine.reduceAt op operands i).run m = .ok (.ok operands') m') :
    operands'.length + 1 = operands.length := by
  obtain ⟨before, x, y, after, rfl, rfl⟩ := exists_append_of_succ_lt hi
  rw [engine.reduceAt_append, run_liftM, map_eq_pure_bind, map_eq_pure_bind, bind_assoc] at h
  obtain ⟨v, m₁, -, hv⟩ := bind_eq_ok h
  cases hv
  simp only [List.length_append, List.length_cons]
  omega

end Engine

/-- **One step.** The operands stay one more than the operators, of which there is one less. -/
theorem SplitChain.Balanced.step {engine : Engine} {c : SplitChain} (h : c.Balanced) {i : Nat}
    {op : Operator} {operands : List Slot} {m m' : Machine}
    (hselect : Operator.select c.operators = some i)
    (hreduce : (engine.reduceAt op c.operands i).run m = .ok (.ok operands) m') :
    (SplitChain.mk (c.operators.eraseIdx i) operands).Balanced ∧
      (c.operators.eraseIdx i).length + 1 = c.operators.length := by
  have hi := Operator.select_lt hselect
  have herase : (c.operators.eraseIdx i).length + 1 = c.operators.length := by
    rw [List.length_eraseIdx_of_lt hi]
    omega
  have hoperands := Engine.length_of_reduceAt (h.lt_of_select hselect) hreduce
  simp only [SplitChain.Balanced] at h ⊢
  omega

namespace Engine.Reaches

variable {engine : Engine} {c d : SplitChain} {m m' : Machine} {n : Nat}

/-- **All steps.** From a balanced chain on, the operands are one more than the operators, and each
step takes an operator away. -/
theorem balanced (h : engine.Reaches c m n d m') (hc : c.Balanced) :
    d.Balanced ∧ d.operators.length + n = c.operators.length := by
  induction h with
  | start => exact ⟨hc, rfl⟩
  | step _ hselect _ hreduced ih =>
    obtain ⟨hbalanced, hlength⟩ := ih
    obtain ⟨hnext, hless⟩ := hbalanced.step hselect hreduced
    refine ⟨hnext, ?_⟩
    dsimp only
    omega

/-- What is left to do at a stage of a reduction is what the reduction does. -/
theorem run_reduceSplit (h : engine.Reaches c m n d m') :
    (engine.reduceSplit c).run m =
      ((fun p => (p.1, p.2 + n)) <$> engine.reduceSplit d).run m' := by
  induction h with
  | start => simp
  | step _ hselect hop hreduced ih =>
    rw [ih, engine.reduceSplit_of_some hselect, hop, demand_some, pure_bind, map_eq_pure_bind,
      bind_assoc, run_bind_of_ok hreduced]
    simp only [bind_assoc, pure_bind, map_eq_pure_bind, Nat.add_assoc, Nat.add_comm 1]

end Engine.Reaches

/-- **Positions.** Selection finds nothing among no operators, and otherwise the leftmost operator of
the greatest precedence. A compound expression is evaluated on a list of operators and a list of
operands as on a chain: whatever its operands do, nothing is asked for in vain, and a success has
taken as many steps as there are operators. Whenever an operator is about to be selected, the
operands are one more than the operators that remain, so that there are operands at the selected
position and behind it until the step is over, and in the end exactly one. -/
theorem Engine.positions_in_range :
    (∀ ops, Operator.select ops = none ↔ ops = []) ∧
    (∀ ops, ops ≠ [] → ∃ i, Operator.select ops = some i ∧ Operator.LeftmostStrongest ops i) ∧
    ∀ (engine : Engine) (head : Expr) (tail : List (String × Expr)),
      (engine.reduceByPosition head tail).run =
        (fun v => .ok (v, tail.length)) <$> engine.reduce head tail ∧
      ∀ c, SplitChain.ofExpr head tail = .ok c → ∀ m n d m', engine.Reaches c m n d m' →
        d.operands.length = d.operators.length + 1 ∧
        d.operators.length + n = tail.length ∧
        (∀ i, Operator.select d.operators = some i →
          i + 1 < d.operands.length ∧ d.operands.length = (d.operators.eraseIdx i).length + 2) ∧
        (Operator.select d.operators = none → ∃ x, d.operands = [x]) ∧
        (engine.reduceByPosition head tail).run m =
          ((fun p => (p.1, p.2 + n)) <$> engine.reduceSplit d).run m' := by
  refine ⟨fun ops => Operator.select_eq_none_iff, fun ops => Operator.select_leftmostStrongest,
    fun engine head tail => ⟨?_, fun c hc m n d m' hreaches => ?_⟩⟩
  · rw [engine.reduceByPosition_eq, run_liftM, Functor.map_map]
  · obtain ⟨hbalanced, hlength⟩ := SplitChain.balanced_of_ofExpr hc
    obtain ⟨hd, hn⟩ := hreaches.balanced hbalanced
    refine ⟨hd, hn.trans hlength, fun i hi => ⟨hd.lt_of_select hi, ?_⟩, fun hnone => ?_, ?_⟩
    · have hlt := Operator.select_lt hi
      rw [hd, List.length_eraseIdx_of_lt hlt]
      omega
    · rw [SplitChain.Balanced, Operator.select_eq_none_iff.mp hnone] at hd
      exact List.length_eq_one_iff.mp hd
    · rw [← hreaches.run_reduceSplit, reduceByPosition, hc]
      rfl

/-- In `ask und == und and und != und` the first of the two comparisons is reduced first, which reads
a line. The other one is found one position further left then, with operands on both sides. -/
theorem Engine.positions_in_range_two_comparisons :
    ∃ c d m', SplitChain.ofExpr (.ask (.name "und"))
        [("==", .name "und"), ("and", .name "und"), ("!=", .name "und")] = .ok c ∧
      (Engine.withFuel 3).Reaches c (.fresh (.scripted ["a"]) none) 1 d m' ∧
      m'.console.output = "und\n" ∧
      Operator.LeftmostStrongest c.operators 0 ∧
      d.operators = [.and, .notEq] ∧ Operator.select d.operators = some 1 ∧
      d.operands.length = 3 ∧ 1 + 1 < d.operands.length := by
  obtain ⟨-, hselect, hreduce⟩ := Engine.positions_in_range
  have hreaches : (Engine.withFuel 3).Reaches
      ⟨[.eq, .and, .notEq],
        .pending (.ask (.name "und")) :: List.replicate 3 (.pending (.name "und"))⟩
      (.fresh (.scripted ["a"]) none) 1 _ _ := .step .start rfl rfl rfl
  obtain ⟨i, hi, hstrongest⟩ := hselect [.eq, .and, .notEq] nofun
  obtain ⟨hlength, -, hrange, -, -⟩ := (hreduce _ (.ask (.name "und"))
    [("==", .name "und"), ("and", .name "und"), ("!=", .name "und")]).2 _ rfl _ _ _ _ hreaches
  cases hi
  exact ⟨_, _, _, rfl, hreaches, rfl, hstrongest, rfl, rfl, hlength, (hrange 1 rfl).1⟩

end FlannelScript
