import FlannelScript.Proofs.Evaluation
import FlannelScript.Proofs.Redex

/-!
# Reduction level by level

The operators of a chain can also be reduced one level of precedence after the other, the strongest
level first, in a single pass from left to right for each (`Engine.reduceByLevel`). The main
statement is that this is the same evaluation as the reduction of one operator at a time
(`Engine.reduceChain_eq_passes`): the next operator is always the leftmost one of the level that the
pass is at, and what a pass leaves behind has no operators of its level.
-/

namespace FlannelScript

open Eval

/-- The levels of precedence, strongest first. -/
def Operator.levels : List Nat := [60, 50, 40, 30, 20, 10]

theorem Operator.precedence_mem_levels (op : Operator) : op.precedence ∈ levels := by
  cases op <;> decide

namespace Engine

/-- A pass from left to right over operands and operators: each operator of the level is reduced
where it stands, every other one stays. -/
def pass (engine : Engine) (level : Nat) : Slot → List (Operator × Slot) → Eval (Chain Slot)
  | x, [] => pure ⟨x, []⟩
  | x, (op, y) :: rest =>
    if op.precedence = level then do
      let result ← engine.applyOperator op x y
      engine.pass level (.ready result) rest
    else do
      let c ← engine.pass level y rest
      pure ⟨x, (op, c.first) :: c.rest⟩

/-- A pass for each level, one after the other. -/
def passes (engine : Engine) : List Nat → Chain Slot → Eval (Chain Slot)
  | [], c => pure c
  | level :: levels, c => do
    let c ← engine.pass level c.first c.rest
    engine.passes levels c

/-- Evaluate a compound expression level by level. -/
def reduceByLevel (engine : Engine) (head : Expr) (tail : List (Operator × Expr)) : Eval Value := do
  let c ← engine.passes Operator.levels ⟨.pending head, tail.map fun p => (p.1, .pending p.2)⟩
  engine.force c.first

variable (engine : Engine)

/-! ## One pass -/

/-- The operators of the level are gone after a pass, and the others are still there. -/
theorem pass_returns (level : Nat) (x : Slot) (rest : List (Operator × Slot)) :
    (engine.pass level x rest).Returns fun c =>
      c.operators = (rest.map (·.1)).filter fun op => op.precedence ≠ level := by
  induction rest generalizing x with
  | nil => exact .pure rfl
  | cons p rest ih =>
    obtain ⟨op, y⟩ := p
    rw [pass, List.map_cons]
    by_cases hop : op.precedence = level
    · rw [if_pos hop, List.filter_cons_of_neg (by simp [hop])]
      exact .bind fun v => ih (.ready v)
    · rw [if_neg hop, List.filter_cons_of_pos (by simp [hop])]
      intro m c m' hc
      obtain ⟨inner, m₁, hinner, hpure⟩ := bind_eq_ok hc
      cases hpure
      exact congrArg (op :: ·) (ih y m inner m' hinner)

/-- A pass leaves a chain without operators of its level as it is. -/
theorem pass_of_forall_ne {level : Nat} (x : Slot) (rest : List (Operator × Slot))
    (h : ∀ p ∈ rest, p.1.precedence ≠ level) : engine.pass level x rest = pure ⟨x, rest⟩ := by
  induction rest generalizing x with
  | nil => rfl
  | cons p rest ih =>
    obtain ⟨op, y⟩ := p
    obtain ⟨hop, hrest⟩ := List.forall_mem_cons.mp h
    rw [pass, if_neg hop, ih y hrest, pure_bind]

/-- A pass begins with the leftmost operator of its level. -/
theorem pass_chain {level : Nat} {r : Redex Slot} (hop : r.op.precedence = level)
    (hbefore : ∀ p ∈ r.before, p.2.precedence ≠ level) :
    engine.pass level r.chain.first r.chain.rest = (do
      let result ← engine.applyOperator r.op r.left r.right
      engine.pass level (r.contract (.ready result)).first (r.contract (.ready result)).rest) := by
  obtain ⟨before, left, op, right, after⟩ := r
  induction before with
  | nil =>
    change engine.pass level left ((op, right) :: after) = _
    rw [pass, if_pos hop]
    rfl
  | cons p before ih =>
    obtain ⟨x, o⟩ := p
    obtain ⟨ho, hrest⟩ := List.forall_mem_cons.mp hbefore
    have hinner := ih hop hrest
    simp only [Redex.chain, Redex.contract, Chain.prepend_cons] at hinner ⊢
    -- the operators in front are of other levels, so the pass goes by
    simp only [pass, if_neg ho]
    rw [hinner, bind_assoc]

/-- **One level.** Where no operator is stronger than a level, a pass at it may come first. -/
theorem reduceChain_eq_pass {level : Nat} (c : Chain Slot)
    (h : ∀ op ∈ c.operators, op.precedence ≤ level) :
    engine.reduceChain c = engine.pass level c.first c.rest >>= engine.reduceChain := by
  induction c using Chain.reduction_induction with
  | nil x => simp [pass]
  | step r hr ih =>
    by_cases hop : r.op.precedence = level
    · have hbefore : ∀ p ∈ r.before, p.2.precedence ≠ level := by
        intro p hp
        have := hr.before_lt p hp
        omega
      rw [engine.reduceChain_chain hr, engine.pass_chain hop hbefore, bind_assoc]
      exact bind_congr fun v => ih _ fun op hmem => h op (r.operators_contract_subset _ hmem)
    · -- the next operator is the strongest, so no operator is of the level
      have hlt : r.op.precedence < level := by
        have hmem : r.op ∈ r.chain.operators := by simp [r.operators_chain]
        exact Nat.lt_of_le_of_ne (h r.op hmem) hop
      have hne : ∀ p ∈ r.chain.rest, p.1.precedence ≠ level := by
        intro p hp
        have := hr.le_of_mem (List.mem_map_of_mem hp)
        omega
      rw [engine.pass_of_forall_ne _ _ hne, pure_bind]

/-! ## All levels -/

/-- **Level by level.** With passes for all levels of its operators, from the strongest on, a chain
is reduced to its value. -/
theorem reduceChain_eq_passes (levels : List Nat) (hlevels : levels.Pairwise (· > ·))
    (c : Chain Slot) (h : ∀ op ∈ c.operators, op.precedence ∈ levels) :
    engine.reduceChain c = (do
      let c ← engine.passes levels c
      engine.force c.first) := by
  induction levels generalizing c with
  | nil =>
    obtain ⟨x, rest⟩ := c
    cases rest with
    | nil => rfl
    | cons p rest => exact absurd (h p.1 List.mem_cons_self) List.not_mem_nil
  | cons level levels ih =>
    obtain ⟨hlevel, hlevels⟩ := List.pairwise_cons.mp hlevels
    have hle : ∀ op ∈ c.operators, op.precedence ≤ level := by
      intro op hop
      rcases List.mem_cons.mp (h op hop) with heq | hmem
      · exact Nat.le_of_eq heq
      · exact Nat.le_of_lt (hlevel _ hmem)
    rw [engine.reduceChain_eq_pass c hle, passes, bind_assoc]
    refine (engine.pass_returns level c.first c.rest).bind_congr fun c' hc' => ?_
    refine ih hlevels c' fun op hop => ?_
    rw [hc', List.mem_filter] at hop
    exact (List.mem_cons.mp (h op hop.1)).resolve_left (by simpa using hop.2)

end Engine

end FlannelScript
