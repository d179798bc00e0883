import FlannelScript.Reduction

/-!
# The operator that is reduced next

A chain with operators can be opened at exactly one operator that is stronger than all before it and
at least as strong as all behind it (`Redex.IsNext`). It is the one that `Chain.redex?` finds, so a
reduction is described by two equations: a lone operand is forced (`Engine.reduceChain_nil`), and a
chain opened at its next operator is reduced there and goes on (`Engine.reduceChain_chain`). What
holds of every chain can be shown along these two (`Chain.reduction_induction`).

A compound expression is the chain of its operators and operands, all of them still to be evaluated,
if each of its symbols is known (`Engine.reduce_of_known`).
-/

namespace FlannelScript

open Eval

/-! ## Selection -/

/-- Every list that is not empty has a leftmost element of the greatest weight. -/
theorem exists_leftmost_max {α : Type} (weight : α → Nat) {l : List α} (h : l ≠ []) :
    ∃ before a after, l = before ++ a :: after ∧ (∀ b ∈ before, weight b < weight a) ∧
      ∀ b ∈ after, weight b ≤ weight a := by
  induction l with
  | nil => exact absurd rfl h
  | cons b l ih =>
    by_cases hl : l = []
    · subst hl
      exact ⟨[], b, [], rfl, by simp, by simp⟩
    · obtain ⟨before, a, after, rfl, hlt, hle⟩ := ih hl
      -- the first element yields only to a heavier one
      by_cases hb : weight b < weight a
      · exact ⟨b :: before, a, after, rfl, List.forall_mem_cons.mpr ⟨hb, hlt⟩, hle⟩
      · refine ⟨[], b, before ++ a :: after, rfl, by simp, ?_⟩
        intro c hc
        rw [List.mem_append, List.mem_cons] at hc
        rcases hc with hc | rfl | hc
        · have := hlt c hc
          omega
        · omega
        · have := hle c hc
          omega

namespace Operator

/-- Operators that are no stronger than the best so far do not displace it. -/
theorem strongest_of_le {ops : List Operator} {best : Nat × Nat} (next : Nat)
    (h : ∀ o ∈ ops, o.precedence ≤ best.2) : strongest best next ops = best.1 := by
  induction ops generalizing next with
  | nil => rfl
  | cons o rest ih =>
    obtain ⟨ho, hrest⟩ := List.forall_mem_cons.mp h
    rw [strongest, if_neg (Nat.not_lt.mpr ho)]
    exact ih (next + 1) hrest

/-- An operator that is stronger than all before it becomes the best. -/
theorem strongest_append_cons {before : List Operator} {op : Operator} (after : List Operator)
    {best : Nat × Nat} (next : Nat) (hbest : best.2 < op.precedence)
    (h : ∀ o ∈ before, o.precedence < op.precedence) :
    strongest best next (before ++ op :: after) =
      strongest (next + before.length, op.precedence) (next + before.length + 1) after := by
  induction before generalizing best next with
  | nil => rw [List.nil_append, strongest, if_pos hbest]; rfl
  | cons o rest ih =>
    obtain ⟨ho, hrest⟩ := List.forall_mem_cons.mp h
    have hlen : next + (o :: rest).length = next + 1 + rest.length := by
      rw [List.length_cons]; omega
    rw [List.cons_append, strongest, hlen]
    split
    · exact ih (next + 1) ho hrest
    · exact ih (next + 1) hbest hrest

/-- **Selection.** An operator that is stronger than all before it and at least as strong as all
behind it is selected. -/
theorem select_append_cons {before after : List Operator} {op : Operator}
    (hbefore : ∀ o ∈ before, o.precedence < op.precedence)
    (hafter : ∀ o ∈ after, o.precedence ≤ op.precedence) :
    select (before ++ op :: after) = some before.length := by
  cases before with
  | nil => exact congrArg some (strongest_of_le 1 hafter)
  | cons o rest =>
    obtain ⟨ho, hrest⟩ := List.forall_mem_cons.mp hbefore
    rw [List.cons_append, select, strongest_append_cons after 1 ho hrest,
      strongest_of_le _ hafter, List.length_cons, Nat.add_comm]

end Operator

/-! ## Opening and closing a chain -/

namespace Chain

variable {α : Type}

@[simp] theorem prepend_nil (c : Chain α) : c.prepend [] = c := rfl

@[simp] theorem prepend_cons (c : Chain α) (x : α) (op : Operator)
    (before : List (α × Operator)) :
    c.prepend ((x, op) :: before) =
      ⟨x, (op, (c.prepend before).first) :: (c.prepend before).rest⟩ := rfl

theorem operators_prepend (c : Chain α) (before : List (α × Operator)) :
    (c.prepend before).operators = before.map (·.2) ++ c.operators := by
  induction before with
  | nil => rfl
  | cons p rest ih =>
    rw [prepend_cons, operators, List.map_cons]
    exact congrArg (p.2 :: ·) ih

@[simp] theorem length_operators (c : Chain α) : c.operators.length = c.rest.length :=
  List.length_map ..

end Chain

namespace Redex

variable {α : Type}

/-- The chain that was opened. -/
def chain (r : Redex α) : Chain α := (Chain.mk r.left ((r.op, r.right) :: r.after)).prepend r.before

/-- The operator of the redex is the leftmost one of the greatest precedence. -/
structure IsNext (r : Redex α) : Prop where
  before_lt : ∀ p ∈ r.before, p.2.precedence < r.op.precedence
  after_le : ∀ p ∈ r.after, p.1.precedence ≤ r.op.precedence

theorem operators_chain (r : Redex α) :
    r.chain.operators = r.before.map (·.2) ++ r.op :: r.after.map (·.1) :=
  Chain.operators_prepend ..

theorem operators_contract (r : Redex α) (v : α) :
    (r.contract v).operators = r.before.map (·.2) ++ r.after.map (·.1) :=
  Chain.operators_prepend ..

theorem operators_contract_subset (r : Redex α) (v : α) :
    (r.contract v).operators ⊆ r.chain.operators := by
  rw [operators_contract, operators_chain]
  intro op hop
  rcases List.mem_append.mp hop with hop | hop
  · exact List.mem_append_left _ hop
  · exact List.mem_append_right _ (List.mem_cons_of_mem _ hop)

/-- Contraction takes one operator away. -/
theorem length_chain (r : Redex α) (v : α) :
    r.chain.rest.length = (r.contract v).rest.length + 1 := by
  rw [← Chain.length_operators, ← Chain.length_operators, operators_chain, operators_contract,
    List.length_append, List.length_append, List.length_cons]
  omega

/-- The next operator is selected at its position. -/
theorem IsNext.select_operators {r : Redex α} (h : r.IsNext) :
    Operator.select r.chain.operators = some r.before.length := by
  rw [operators_chain, Operator.select_append_cons, List.length_map]
  · exact List.forall_mem_map.mpr h.before_lt
  · exact List.forall_mem_map.mpr h.after_le

/-- No operator of the chain is stronger than the next one. -/
theorem IsNext.le_of_mem {r : Redex α} (h : r.IsNext) {op : Operator}
    (hop : op ∈ r.chain.operators) : op.precedence ≤ r.op.precedence := by
  rw [operators_chain, List.mem_append, List.mem_cons] at hop
  rcases hop with hop | rfl | hop
  · obtain ⟨p, hp, rfl⟩ := List.mem_map.mp hop
    exact Nat.le_of_lt (h.before_lt p hp)
  · exact Nat.le_refl _
  · obtain ⟨p, hp, rfl⟩ := List.mem_map.mp hop
    exact h.after_le p hp

end Redex

namespace Chain

variable {α : Type}

theorem openAt_chain (r : Redex α) :
    openAt r.before.length r.chain.first r.chain.rest = some r := by
  obtain ⟨before, left, op, right, after⟩ := r
  induction before with
  | nil => rfl
  | cons p rest ih =>
    obtain ⟨x, o⟩ := p
    rw [Redex.chain] at ih ⊢
    rw [prepend_cons, List.length_cons, openAt, ih]
    rfl

/-- **The redex.** A chain that is opened at its next operator is what `redex?` opens it to. -/
theorem redex?_chain {r : Redex α} (h : r.IsNext) : r.chain.redex? = some r := by
  rw [redex?, h.select_operators]
  exact openAt_chain r

/-- Operands and operators at the front of a chain, up to the last of the operands. -/
theorem exists_prepend_eq (x : α) (before : List (Operator × α)) :
    ∃ (front : List (α × Operator)) (left : α), front.map (·.2) = before.map (·.1) ∧
      ∀ rest, (Chain.mk left rest).prepend front = ⟨x, before ++ rest⟩ := by
  induction before generalizing x with
  | nil => exact ⟨[], x, rfl, fun _ => rfl⟩
  | cons p before ih =>
    obtain ⟨o, y⟩ := p
    obtain ⟨front, left, hops, hfront⟩ := ih y
    refine ⟨(x, o) :: front, left, congrArg (o :: ·) hops, fun rest => ?_⟩
    rw [prepend_cons, hfront]
    rfl

/-- Every chain with operators can be opened at its next operator. -/
theorem exists_isNext {c : Chain α} (h : c.rest ≠ []) :
    ∃ r : Redex α, r.IsNext ∧ r.chain = c := by
  obtain ⟨x, rest⟩ := c
  obtain ⟨before, ⟨op, y⟩, after, rfl, hlt, hle⟩ :=
    exists_leftmost_max (fun p : Operator × α => p.1.precedence) h
  obtain ⟨front, left, hops, hfront⟩ := exists_prepend_eq x before
  refine ⟨⟨front, left, op, y, after⟩, ⟨fun p hp => ?_, hle⟩, hfront _⟩
  have hmem : p.2 ∈ before.map (·.1) := hops ▸ List.mem_map_of_mem hp
  obtain ⟨q, hq, hqp⟩ := List.mem_map.mp hmem
  rw [← hqp]
  exact hlt q hq

/-- **Induction along a reduction.** What holds of lone operands, and of a chain if it holds of all
its contractions at the next operator, holds of every chain. -/
theorem reduction_induction {motive : Chain α → Prop} (nil : ∀ x, motive ⟨x, []⟩)
    (step : ∀ r : Redex α, r.IsNext → (∀ v, motive (r.contract v)) → motive r.chain)
    (c : Chain α) : motive c := by
  induction hn : c.rest.length generalizing c with
  | zero =>
    obtain ⟨x, rest⟩ := c
    obtain rfl := List.eq_nil_of_length_eq_zero hn
    exact nil x
  | succ n ih =>
    obtain ⟨r, hr, rfl⟩ := exists_isNext (List.ne_nil_of_length_eq_add_one hn)
    refine step r hr fun v => ih (r.contract v) ?_
    have := r.length_chain v
    omega

end Chain

/-! ## Reduction by its equations -/

namespace Engine

variable (engine : Engine)

/-- Call the method of an operator on two operands. -/
def applyOperator (op : Operator) (x y : Slot) : Eval Value := do
  let left ← engine.force x
  let right ← engine.force y
  engine.invokeMethod left op.method [right]

/-- Reduce a chain to its value. -/
def reduceChain (c : Chain Slot) : Eval Value := engine.reduceSteps c.rest.length c

@[simp] theorem reduceChain_nil (x : Slot) : engine.reduceChain ⟨x, []⟩ = engine.force x := rfl

/-- **One step.** A chain is reduced at its next operator, and then its contraction is. -/
theorem reduceChain_chain {r : Redex Slot} (h : r.IsNext) :
    engine.reduceChain r.chain = (do
      let result ← engine.applyOperator r.op r.left r.right
      engine.reduceChain (r.contract (.ready result))) := by
  obtain ⟨n, hn⟩ : ∃ n, r.chain.rest.length = n + 1 := ⟨_, r.length_chain r.left⟩
  have hcontract (v : Slot) : (r.contract v).rest.length = n := by
    have := r.length_chain v
    omega
  rw [reduceChain, hn, reduceSteps, Chain.redex?_chain h]
  simp only [applyOperator, bind_assoc, reduceChain, hcontract]

end Engine

/-! ## Compound expressions -/

namespace Chain

/-- The leftmost symbol that is no operator. -/
def unknownSymbol? (tail : List (String × Expr)) : Option String :=
  (tail.map (·.1)).find? fun symbol => (Operator.ofSymbol? symbol).isNone

/-- The operators of a compound expression, each with its right operand. -/
def known (tail : List (String × Expr)) : List (Operator × Expr) :=
  tail.filterMap fun p => (Operator.ofSymbol? p.1).map fun op => (op, p.2)

section known

variable {symbol : String} {op : Operator} (e : Expr) (tail : List (String × Expr))

theorem known_cons (h : Operator.ofSymbol? symbol = some op) :
    known ((symbol, e) :: tail) = (op, e) :: known tail := by
  simp [known, h]

theorem unknownSymbol?_cons_of_none (h : Operator.ofSymbol? symbol = none) :
    unknownSymbol? ((symbol, e) :: tail) = some symbol := by
  simp [unknownSymbol?, h]

theorem unknownSymbol?_cons_of_some (h : Operator.ofSymbol? symbol = some op) :
    unknownSymbol? ((symbol, e) :: tail) = unknownSymbol? tail := by
  simp [unknownSymbol?, h]

end known

theorem resolveTail_of_unknown {tail : List (String × Expr)} {symbol : String}
    (h : unknownSymbol? tail = some symbol) :
    resolveTail tail = .error (.unsupportedOperator symbol) := by
  induction tail with
  | nil => cases h
  | cons p tail ih =>
    obtain ⟨s, e⟩ := p
    rw [resolveTail]
    cases hs : Operator.ofSymbol? s with
    | none =>
      rw [unknownSymbol?_cons_of_none e tail hs] at h
      cases h
      rfl
    | some op =>
      rw [unknownSymbol?_cons_of_some e tail hs] at h
      rw [ih h]
      rfl

/-- With all symbols known, every operand stands behind its operator, in order. -/
theorem resolveTail_of_known {tail : List (String × Expr)} (h : unknownSymbol? tail = none) :
    resolveTail tail = .ok ((known tail).map fun p => (p.1, .pending p.2)) ∧
      (known tail).map (·.2) = tail.map (·.2) := by
  induction tail with
  | nil => exact ⟨rfl, rfl⟩
  | cons p tail ih =>
    obtain ⟨s, e⟩ := p
    rw [resolveTail]
    cases hs : Operator.ofSymbol? s with
    | none =>
      rw [unknownSymbol?_cons_of_none e tail hs] at h
      cases h
    | some op =>
      rw [unknownSymbol?_cons_of_some e tail hs] at h
      obtain ⟨hresolve, hmap⟩ := ih h
      rw [known_cons e tail hs, hresolve]
      exact ⟨rfl, congrArg (e :: ·) hmap⟩

theorem length_known {tail : List (String × Expr)} (h : unknownSymbol? tail = none) :
    (known tail).length = tail.length := by
  have := congrArg List.length (resolveTail_of_known h).2
  simpa using this

end Chain

namespace Engine

variable (engine : Engine) (head : Expr) {tail : List (String × Expr)}

theorem reduce_of_unknown {symbol : String} (h : Chain.unknownSymbol? tail = some symbol)
    (m : Machine) : engine.reduce head tail m = .error ⟨.unsupportedOperator symbol, []⟩ m := by
  rw [reduce, Chain.ofExpr, Chain.resolveTail_of_unknown h]
  rfl

theorem reduce_of_known (h : Chain.unknownSymbol? tail = none) :
    engine.reduce head tail = engine.reduceChain
      ⟨.pending head, (Chain.known tail).map fun p => (p.1, .pending p.2)⟩ := by
  rw [reduce, Chain.ofExpr, (Chain.resolveTail_of_known h).1]
  rfl

end Engine

end FlannelScript
