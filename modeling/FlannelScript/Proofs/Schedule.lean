import FlannelScript.Interpreter
import FlannelScript.Proofs.Levels
import Mathlib.Data.List.Sort

/-!
# The schedule of a reduction

What a reduction does, and in which order, does not depend on any value: it can be written down from
the operators alone, as straight-line code over one register for each operand (`schedule`). The
operators are taken in the order of a stable sort of their positions, the strongest first. Each
operand is evaluated into its register at the first operator next to it that is reduced, the left
one before the right one, and never again. The value of a group of operands that have been joined is
kept in the register of the leftmost one.

The main statement (`Engine.reduce_schedule`) is that a compound expression whose symbols are all
known is evaluated level by level as well as by the execution of its schedule, and that the schedule
evaluates each operand exactly once; with an unknown symbol nothing is evaluated at all.
-/

namespace FlannelScript

open Eval

/-! ## Straight-line code -/

/-- A step of a reduction. Operands are numbered from left to right, and each has a register. -/
inductive Action where
  /-- evaluate an operand into its register -/
  | operand (i : Nat)
  /-- call the method of an operator on the value in the register `left` with the value in the
  register `right`; the result is left in `left` -/
  | method (op : Operator) (left right : Nat)
  deriving DecidableEq, Repr

namespace Action

/-- Whether an operator next to an operand has been reduced; operator `i` stands between the
operands `i` and `i + 1`. -/
def touched (done : List Nat) : Nat → Bool
  | 0 => done.contains 0
  | i + 1 => done.contains i || done.contains (i + 1)

/-- The leftmost of the operands that have been joined with an operand from the left. -/
def groupStart (done : List Nat) : Nat → Nat
  | 0 => 0
  | k + 1 => if done.contains k then groupStart done k else k + 1

/-- Evaluate an operand, unless an operator next to it has been reduced. -/
def fetch (done : List Nat) (i : Nat) : List Action :=
  if touched done i then [] else [.operand i]

/-- Reduce operators, given with their positions, in the given order. -/
def reductions (done : List Nat) : List (Operator × Nat) → List Action
  | [] => fetch done 0
  | (op, k) :: order =>
    fetch done k ++ fetch done (k + 1) ++
      .method op (groupStart done k) (k + 1) :: reductions (k :: done) order

end Action

/-- The operator `p` is reduced before `q` if it is at least as strong. -/
abbrev Operator.Before (p q : Operator × Nat) : Prop := q.1.precedence ≤ p.1.precedence

/-- The positions of operators, in a stable sort by descending precedence. -/
def Operator.reductionOrder (ops : List Operator) : List (Operator × Nat) :=
  ops.zipIdx.insertionSort Operator.Before

/-- The code of a reduction with the given operators. -/
def schedule (ops : List Operator) : List Action :=
  Action.reductions [] (Operator.reductionOrder ops)

namespace Engine

/-- Take a step of a reduction with the given operands. -/
def act (engine : Engine) (operands : Nat → Expr) : Action → (Nat → Value) → Eval (Nat → Value)
  | .operand i, registers => do
    let v ← engine.eval (operands i)
    pure (Function.update registers i v)
  | .method op left right, registers => do
    let v ← engine.invokeMethod (registers left) op.method [registers right]
    pure (Function.update registers left v)

/-- Take steps one after the other. -/
def execute (engine : Engine) (operands : Nat → Expr) :
    List Action → (Nat → Value) → Eval (Nat → Value)
  | [], registers => pure registers
  | action :: actions, registers => do
    let registers ← engine.act operands action registers
    engine.execute operands actions registers

/-- Execute code from the beginning; the result is in the leftmost register. -/
def runSchedule (engine : Engine) (operands : Nat → Expr) (actions : List Action) :
    Eval Value := do
  let registers ← engine.execute operands actions fun _ => .undefined
  pure (registers 0)

theorem execute_append (engine : Engine) (operands : Nat → Expr) (xs ys : List Action)
    (registers : Nat → Value) :
    engine.execute operands (xs ++ ys) registers =
      engine.execute operands xs registers >>= engine.execute operands ys := by
  induction xs generalizing registers with
  | nil => rfl
  | cons x xs ih => simp only [List.cons_append, execute, ih, bind_assoc]

end Engine

/-! ## Each operand is evaluated once -/

namespace Action

theorem touched_cons_of_ne {done : List Nat} {k i : Nat} (hk : i ≠ k) (hk' : i ≠ k + 1) :
    touched (k :: done) i = touched done i := by
  cases i with
  | zero => simp [touched, hk]
  | succ i =>
    have : i ≠ k := fun h => hk' (congrArg (· + 1) h)
    simp [touched, hk, this]

theorem touched_of_mem {done : List Nat} {i : Nat} (h : i ∈ done) : touched done i = true := by
  cases i with
  | zero => simpa [touched] using h
  | succ i => simp [touched, h]

theorem touched_succ_of_mem {done : List Nat} {i : Nat} (h : i ∈ done) :
    touched done (i + 1) = true := by
  simp [touched, h]

theorem count_fetch (done : List Nat) (i k : Nat) :
    (fetch done k).count (.operand i) = if i = k ∧ touched done i = false then 1 else 0 := by
  rw [fetch]
  by_cases hik : i = k
  · subst hik
    cases htouched : touched done i <;> simp
  · have hne : ¬(i = k ∧ touched done i = false) := fun h => hik h.1
    rw [if_neg hne]
    split
    · rfl
    · exact List.count_eq_zero.mpr (by simpa using hik)

/-- The reductions that remain evaluate each operand that no reduced operator has touched. -/
theorem count_operand_reductions {n : Nat} {done : List Nat} {order : List (Operator × Nat)}
    (hall : ∀ k < n, k ∈ done ∨ k ∈ order.map (·.2)) (hlt : ∀ p ∈ order, p.2 < n) (i : Nat) :
    (reductions done order).count (.operand i) =
      if i ≤ n ∧ touched done i = false then 1 else 0 := by
  induction order generalizing done with
  | nil =>
    have hdone : ∀ k < n, k ∈ done := fun k hk => (hall k hk).resolve_right List.not_mem_nil
    rw [reductions, count_fetch]
    congr 1
    refine propext (and_congr_left fun hfalse => ⟨fun h => h ▸ Nat.zero_le n, fun hi => ?_⟩)
    cases i with
    | zero => rfl
    | succ i => exact absurd (touched_succ_of_mem (hdone i hi)) (by simp [hfalse])
  | cons p order ih =>
    obtain ⟨op, k⟩ := p
    obtain ⟨hk, hlt⟩ := List.forall_mem_cons.mp hlt
    have hall' : ∀ j < n, j ∈ k :: done ∨ j ∈ order.map (·.2) := by
      intro j hj
      rcases hall j hj with h | h
      · exact .inl (List.mem_cons_of_mem _ h)
      · rcases List.mem_cons.mp h with rfl | h
        · exact .inl List.mem_cons_self
        · exact .inr h
    rw [reductions, List.count_append, List.count_append, List.count_cons, ih hall' hlt,
      count_fetch, count_fetch]
    -- only the two operands next to the operator are fetched now, and not again
    by_cases hi : i = k
    · subst hi
      simp [touched_of_mem, Nat.le_of_lt hk]
    · by_cases hi' : i = k + 1
      · subst hi'
        simp [touched_succ_of_mem, Nat.succ_le_of_lt hk]
      · simp [hi, hi', touched_cons_of_ne hi hi']

end Action

/-- **Once.** The code of a reduction evaluates each operand exactly once. -/
theorem count_operand_schedule (ops : List Operator) (i : Nat) :
    (schedule ops).count (.operand i) = if i ≤ ops.length then 1 else 0 := by
  have hmem : ∀ p, p ∈ Operator.reductionOrder ops ↔ p ∈ ops.zipIdx := fun p =>
    List.mem_insertionSort _
  rw [schedule, Action.count_operand_reductions (n := ops.length)]
  · cases i <;> simp [Action.touched]
  · intro k hk
    refine .inr (List.mem_map.mpr ⟨(ops[k], k), (hmem _).mpr ?_, rfl⟩)
    exact List.mk_mem_zipIdx_iff_getElem?.mpr (List.getElem?_eq_getElem hk)
  · intro p hp
    have := List.snd_lt_add_of_mem_zipIdx ((hmem p).mp hp)
    omega

/-! ## The code does what the reduction does

The chain in the middle of a reduction is told by three things: the operators that remain, with
their positions, the positions of those that are done, and the registers. -/

/-- The operand or group that begins at the given operand. -/
def slotAt (operands : Nat → Expr) (done : List Nat) (registers : Nat → Value) (i : Nat) : Slot :=
  if Action.touched done i then .ready (registers i) else .pending (operands i)

namespace Chain

/-- The chain of the operators that remain, from operand `i` on. -/
def ofPositions (slot : Nat → Slot) (i : Nat) (ops : List (Operator × Nat)) : Chain Slot :=
  ⟨slot i, ops.map fun p => (p.1, slot (p.2 + 1))⟩

/-- Where the operand behind the last of the given operators begins. -/
def endOf (i : Nat) (ops : List (Operator × Nat)) : Nat := ops.foldl (fun _ p => p.2 + 1) i

/-- Operands and operators from operand `i` up to the last of the given operators. -/
def leftOf (slot : Nat → Slot) : Nat → List (Operator × Nat) → List (Slot × Operator)
  | _, [] => []
  | i, (op, k) :: ops => (slot i, op) :: leftOf slot (k + 1) ops

/-- The positions of operators from operand `i` on, in order. -/
structure Ascending (i : Nat) (ops : List (Operator × Nat)) : Prop where
  le : ∀ p ∈ ops, i ≤ p.2
  lt : ops.Pairwise fun p q => p.2 < q.2

theorem Ascending.tail {i k : Nat} {op : Operator} {ops : List (Operator × Nat)}
    (h : Ascending i ((op, k) :: ops)) : Ascending (k + 1) ops :=
  ⟨(List.pairwise_cons.mp h.lt).1, (List.pairwise_cons.mp h.lt).2⟩

theorem Ascending.le_endOf {i : Nat} {ops : List (Operator × Nat)} (h : Ascending i ops) :
    i ≤ endOf i ops := by
  induction ops generalizing i with
  | nil => exact Nat.le_refl i
  | cons p ops ih =>
    have := h.le p List.mem_cons_self
    have := ih h.tail
    simp only [endOf, List.foldl_cons] at this ⊢
    omega

theorem Ascending.lt_endOf {i : Nat} {ops : List (Operator × Nat)} (h : Ascending i ops)
    {p : Operator × Nat} (hp : p ∈ ops) : p.2 < endOf i ops := by
  induction ops generalizing i with
  | nil => cases hp
  | cons q ops ih =>
    rcases List.mem_cons.mp hp with rfl | hp
    · exact h.tail.le_endOf
    · exact ih h.tail hp

/-- The redex at one of the operators that remain. -/
def redexAt (slot : Nat → Slot) (i : Nat) (before : List (Operator × Nat)) (op : Operator) (k : Nat)
    (after : List (Operator × Nat)) : Redex Slot :=
  ⟨leftOf slot i before, slot (endOf i before), op, slot (k + 1),
    after.map fun p => (p.1, slot (p.2 + 1))⟩

theorem chain_redexAt (slot : Nat → Slot) (i : Nat) (before : List (Operator × Nat)) (op : Operator)
    (k : Nat) (after : List (Operator × Nat)) :
    (redexAt slot i before op k after).chain =
      ofPositions slot i (before ++ (op, k) :: after) := by
  induction before generalizing i with
  | nil => rfl
  | cons p before ih =>
    have hinner := ih (p.2 + 1)
    simp only [redexAt, Redex.chain, endOf, leftOf, ofPositions, prepend_cons, List.foldl_cons,
      List.cons_append, List.map_cons] at hinner ⊢
    rw [hinner]

/-- A contraction gives the chain of the operators that are left then, if the operands away from the
contracted operator stay as they are. -/
theorem contract_redexAt {slot slot' : Nat → Slot} {i : Nat} {before : List (Operator × Nat)}
    (op : Operator) {k : Nat} {after : List (Operator × Nat)} (v : Value)
    (hasc : Ascending i before) (hafter : ∀ p ∈ after, k < p.2)
    (hend : slot' (endOf i before) = .ready v)
    (hleft : ∀ j < endOf i before, slot' j = slot j) (hright : ∀ j > k + 1, slot' j = slot j) :
    (redexAt slot i before op k after).contract (.ready v) =
      ofPositions slot' i (before ++ after) := by
  induction before generalizing i with
  | nil =>
    simp only [redexAt, Redex.contract, leftOf, ofPositions, prepend_nil, List.nil_append]
    rw [show slot' i = .ready v from hend]
    congr 1
    refine List.map_congr_left fun p hp => ?_
    rw [hright (p.2 + 1) (Nat.succ_lt_succ (hafter p hp))]
  | cons p before ih =>
    have hlt : i < endOf i (p :: before) := by
      have := hasc.le p List.mem_cons_self
      have := hasc.tail.le_endOf
      simp only [endOf, List.foldl_cons] at this ⊢
      omega
    have hinner := ih hasc.tail hend hleft
    -- the first operand is away from the contracted operator
    simp only [redexAt, Redex.contract, leftOf, ofPositions, prepend_cons, endOf, List.foldl_cons,
      List.cons_append, List.map_cons] at hinner ⊢
    rw [hinner, hleft i hlt]

/-- The redex at the strongest of the operators that remain, the leftmost of these, is next. -/
theorem isNext_redexAt (slot : Nat → Slot) (i : Nat) {before after : List (Operator × Nat)}
    {op : Operator} (k : Nat) (hlt : ∀ p ∈ before, p.1.precedence < op.precedence)
    (hle : ∀ p ∈ after, p.1.precedence ≤ op.precedence) :
    (redexAt slot i before op k after).IsNext := by
  constructor
  · simp only [redexAt]
    induction before generalizing i with
    | nil => intro p hp; cases hp
    | cons q before ih =>
      obtain ⟨hq, hlt⟩ := List.forall_mem_cons.mp hlt
      exact List.forall_mem_cons.mpr ⟨hq, ih (q.2 + 1) hlt⟩
  · intro p hp
    obtain ⟨q, hq, rfl⟩ := List.mem_map.mp hp
    exact hle q hq

end Chain

namespace Action

/-- A group begins behind the last operator to its left that has not been reduced. -/
theorem groupStart_eq {done : List Nat} {s k : Nat} (hsk : s ≤ k)
    (hdone : ∀ j, s ≤ j → j < k → j ∈ done) (hs : s = 0 ∨ ∃ j, s = j + 1 ∧ j ∉ done) :
    groupStart done k = s := by
  induction k with
  | zero => exact (Nat.le_zero.mp hsk).symm
  | succ k ih =>
    rw [groupStart]
    rcases Nat.lt_or_eq_of_le hsk with hlt | rfl
    · have hk : k ∈ done := hdone k (Nat.le_of_lt_succ hlt) (Nat.lt_succ_self k)
      rw [if_pos (List.contains_iff_mem.mpr hk)]
      exact ih (Nat.le_of_lt_succ hlt) fun j hj hjk => hdone j hj (Nat.lt_succ_of_lt hjk)
    · have hk : k ∉ done := by
        rcases hs with h | ⟨j, hj, hmem⟩
        · cases h
        · obtain rfl : k = j := by omega
          exact hmem
      rw [if_neg fun h => hk (List.contains_iff_mem.mp h)]

/-- An operand is the first of its group, or it and the first of its group have been touched. -/
theorem groupStart_cases (done : List Nat) (k : Nat) :
    groupStart done k = k ∨
      groupStart done k < k ∧ groupStart done k ∈ done ∧ touched done k = true := by
  induction k with
  | zero => exact .inl rfl
  | succ k ih =>
    rw [groupStart]
    split
    · rename_i hk
      have hk : k ∈ done := List.contains_iff_mem.mp hk
      refine .inr ⟨?_, ?_, touched_succ_of_mem hk⟩
      · rcases ih with h | h <;> omega
      · rcases ih with h | h
        · rw [h]
          exact hk
        · exact h.2.1
    · exact .inl rfl

theorem groupStart_le (done : List Nat) (k : Nat) : groupStart done k ≤ k := by
  rcases groupStart_cases done k with h | h <;> omega

/-- With the first operand of its group, an operand has been evaluated. -/
theorem fetch_groupStart (done : List Nat) (k : Nat) :
    fetch done (groupStart done k) = fetch done k := by
  rcases groupStart_cases done k with h | ⟨-, hmem, htouched⟩
  · rw [h]
  · rw [fetch, fetch, if_pos (touched_of_mem hmem), if_pos htouched]

theorem touched_groupStart (done : List Nat) (k : Nat) :
    touched (k :: done) (groupStart done k) = true := by
  rcases groupStart_cases done k with h | ⟨-, hmem, -⟩
  · rw [h]
    exact touched_of_mem List.mem_cons_self
  · exact touched_of_mem (List.mem_cons_of_mem _ hmem)

/-- The operators that remain out of `n`, with their positions, when some are done. -/
structure Remaining (n : Nat) (done : List Nat) (ops : List (Operator × Nat)) : Prop where
  ascending : Chain.Ascending 0 ops
  notMem : ∀ p ∈ ops, p.2 ∉ done
  all : ∀ k < n, k ∈ done ∨ k ∈ ops.map (·.2)
  lt : ∀ p ∈ ops, p.2 < n

section Remaining

variable {n k : Nat} {done : List Nat} {op : Operator} {before after : List (Operator × Nat)}

theorem Remaining.before_lt (h : Remaining n done (before ++ (op, k) :: after)) :
    ∀ p ∈ before, p.2 < k := fun p hp =>
  (List.pairwise_append.mp h.ascending.lt).2.2 p hp _ List.mem_cons_self

theorem Remaining.lt_after (h : Remaining n done (before ++ (op, k) :: after)) :
    ∀ p ∈ after, k < p.2 :=
  (List.pairwise_cons.mp (List.pairwise_append.mp h.ascending.lt).2.1).1

theorem Remaining.ascending_before (h : Remaining n done (before ++ (op, k) :: after)) :
    Chain.Ascending 0 before :=
  ⟨fun _ _ => Nat.zero_le _, (List.pairwise_append.mp h.ascending.lt).1⟩

/-- The group to the left of an operator begins behind the operator that remains before it. -/
theorem Remaining.groupStart_eq_endOf (h : Remaining n done (before ++ (op, k) :: after)) :
    groupStart done k = Chain.endOf 0 before := by
  refine groupStart_eq ?_ ?_ ?_
  · rcases List.eq_nil_or_concat' before with rfl | ⟨init, last, rfl⟩
    · exact Nat.zero_le k
    · rw [Chain.endOf, List.foldl_append]
      exact h.before_lt last (List.mem_append_right _ List.mem_cons_self)
  · -- an operator inside the group is done: those that remain are before or behind it
    intro j hj hjk
    have hkn : k < n := h.lt (op, k) (List.mem_append_right _ List.mem_cons_self)
    refine (h.all j (hjk.trans hkn)).resolve_right fun hmem => ?_
    obtain ⟨p, hp, rfl⟩ := List.mem_map.mp hmem
    rcases List.mem_append.mp hp with hp | hp
    · have := h.ascending_before.lt_endOf hp
      omega
    · rcases List.mem_cons.mp hp with rfl | hp
      · exact absurd hjk (Nat.lt_irrefl _)
      · have := h.lt_after p hp
        omega
  · rcases List.eq_nil_or_concat' before with rfl | ⟨init, last, rfl⟩
    · exact .inl rfl
    · refine .inr ⟨last.2, ?_, h.notMem last (by simp)⟩
      rw [Chain.endOf, List.foldl_append]
      rfl

/-- One operator less remains. -/
theorem Remaining.contract (h : Remaining n done (before ++ (op, k) :: after)) :
    Remaining n (k :: done) (before ++ after) := by
  have hmem : ∀ p ∈ before ++ after, p ∈ before ++ (op, k) :: after ∧ p.2 ≠ k := by
    intro p hp
    rcases List.mem_append.mp hp with hp | hp
    · exact ⟨List.mem_append_left _ hp, Nat.ne_of_lt (h.before_lt p hp)⟩
    · exact ⟨List.mem_append_right _ (List.mem_cons_of_mem _ hp),
        Nat.ne_of_gt (h.lt_after p hp)⟩
  refine ⟨⟨fun _ _ => Nat.zero_le _, ?_⟩, ?_, ?_, fun p hp => h.lt p (hmem p hp).1⟩
  · exact h.ascending.lt.sublist ((List.sublist_cons_self ..).append_left before)
  · intro p hp
    rw [List.mem_cons, not_or]
    exact ⟨(hmem p hp).2, h.notMem p (hmem p hp).1⟩
  · intro j hj
    rcases h.all j hj with hdone | hops
    · exact .inl (List.mem_cons_of_mem _ hdone)
    · simp only [List.map_append, List.map_cons, List.mem_append, List.mem_cons] at hops ⊢
      rcases hops with hops | rfl | hops
      · exact .inr (.inl hops)
      · exact .inl (.inl rfl)
      · exact .inr (.inr hops)

end Remaining

end Action

/-- A stable sort puts the leftmost of the strongest operators first. -/
theorem Operator.insertionSort_append_cons {before after : List (Operator × Nat)}
    {p : Operator × Nat} (hlt : ∀ q ∈ before, q.1.precedence < p.1.precedence)
    (hle : ∀ q ∈ after, q.1.precedence ≤ p.1.precedence) :
    (before ++ p :: after).insertionSort Operator.Before =
      p :: (before ++ after).insertionSort Operator.Before := by
  induction before with
  | nil => exact List.insertionSort_cons_of_forall_rel _ hle
  | cons q before ih =>
    obtain ⟨hq, hlt⟩ := List.forall_mem_cons.mp hlt
    have hnot : ¬Operator.Before q p := Nat.not_le.mpr hq
    rw [List.cons_append, List.insertionSort_cons, ih hlt, List.orderedInsert_of_not_le _ _ hnot,
      List.cons_append, List.insertionSort_cons]

section slotAt

variable {operands : Nat → Expr} {done : List Nat} {k : Nat} {registers : Nat → Value}
  (left right : Value)

/-- The group around a reduced operator has a value. -/
theorem slotAt_groupStart (v : Value) :
    slotAt operands (k :: done) (Function.update (Function.update (Function.update registers
      (Action.groupStart done k) left) (k + 1) right) (Action.groupStart done k) v)
        (Action.groupStart done k) = .ready v := by
  rw [slotAt, if_pos (Action.touched_groupStart done k), Function.update_self]

/-- Operands away from a reduced operator stay as they are. -/
theorem slotAt_of_ne {v : Value} {i : Nat} (hstart : i ≠ Action.groupStart done k) (hk : i ≠ k)
    (hk' : i ≠ k + 1) :
    slotAt operands (k :: done) (Function.update (Function.update (Function.update registers
      (Action.groupStart done k) left) (k + 1) right) (Action.groupStart done k) v) i =
        slotAt operands done registers i := by
  rw [slotAt, slotAt, Action.touched_cons_of_ne hk hk', Function.update_of_ne hstart,
    Function.update_of_ne hk', Function.update_of_ne hstart]

end slotAt

namespace Engine

variable (engine : Engine) (operands : Nat → Expr)

theorem execute_fetch (done : List Nat) (registers : Nat → Value) (i : Nat) :
    engine.execute operands (Action.fetch done i) registers = (do
      let v ← engine.force (slotAt operands done registers i)
      pure (Function.update registers i v)) := by
  rw [Action.fetch, slotAt]
  split
  · simp [execute, force]
  · simp [execute, act, force]

/-- **One reduction.** The code of an operator evaluates the operand or group on its left, then the
one on its right, and calls the method. -/
theorem execute_reductions_cons (done : List Nat) (op : Operator) (k : Nat)
    (order : List (Operator × Nat)) (registers : Nat → Value) :
    engine.execute operands (Action.reductions done ((op, k) :: order)) registers = (do
      let left ← engine.force (slotAt operands done registers (Action.groupStart done k))
      let right ← engine.force (slotAt operands done registers (k + 1))
      let v ← engine.invokeMethod left op.method [right]
      engine.execute operands (Action.reductions (k :: done) order)
        (Function.update (Function.update (Function.update registers
          (Action.groupStart done k) left) (k + 1) right) (Action.groupStart done k) v)) := by
  have hne : Action.groupStart done k ≠ k + 1 := by
    have := Action.groupStart_le done k
    omega
  have hslot (v : Value) : slotAt operands done
      (Function.update registers (Action.groupStart done k) v) (k + 1) =
        slotAt operands done registers (k + 1) := by
    rw [slotAt, Function.update_of_ne hne.symm]
    rfl
  rw [Action.reductions, execute_append, execute_append, ← Action.fetch_groupStart,
    execute_fetch]
  simp only [bind_assoc, pure_bind, execute_fetch, hslot, execute, act,
    Function.update_of_ne hne, Function.update_self]

/-- **The code of a reduction.** From wherever a reduction stands, the code of the operators that
remain computes what reducing the chain does. -/
theorem reduceChain_ofPositions {n : Nat} {done : List Nat} {ops : List (Operator × Nat)}
    (h : Action.Remaining n done ops) (registers : Nat → Value) :
    engine.reduceChain (Chain.ofPositions (slotAt operands done registers) 0 ops) = (do
      let registers ← engine.execute operands
        (Action.reductions done (ops.insertionSort Operator.Before)) registers
      pure (registers 0)) := by
  induction hlen : ops.length generalizing done ops registers with
  | zero =>
    obtain rfl := List.eq_nil_of_length_eq_zero hlen
    simp only [Chain.ofPositions, List.map_nil, reduceChain_nil, List.insertionSort_nil,
      Action.reductions, execute_fetch, bind_assoc, pure_bind, Function.update_self, bind_pure]
  | succ len ih =>
    obtain ⟨before, ⟨op, k⟩, after, rfl, hlt, hle⟩ :=
      exists_leftmost_max (fun p : Operator × Nat => p.1.precedence)
        (List.ne_nil_of_length_eq_add_one hlen)
    have hstart := h.groupStart_eq_endOf
    -- the operator that is reduced next comes first in the sort
    rw [Operator.insertionSort_append_cons hlt hle, execute_reductions_cons,
      ← Chain.chain_redexAt, engine.reduceChain_chain (Chain.isNext_redexAt _ 0 k hlt hle)]
    simp only [applyOperator, Chain.redexAt, bind_assoc, ← hstart]
    refine bind_congr fun left => bind_congr fun right => bind_congr fun v => ?_
    rw [← ih h.contract _ (by simp at hlen ⊢; omega)]
    -- the contracted chain is told by the updated registers, which differ at its operands only
    refine congrArg engine.reduceChain (Chain.contract_redexAt op v h.ascending_before h.lt_after ?_
      (fun j hj => ?_) fun j hj => ?_)
    · rw [← hstart]
      exact slotAt_groupStart ..
    · rw [← hstart] at hj
      have := Action.groupStart_le done k
      exact slotAt_of_ne _ _ (by omega) (by omega) (by omega)
    · have := Action.groupStart_le done k
      exact slotAt_of_ne _ _ (by omega) (by omega) (by omega)

end Engine

/-! ## Compound expressions -/

namespace Chain

/-- The operands of a compound expression, by number. -/
def operandAt (head : Expr) (tail : List (String × Expr)) (i : Nat) : Expr :=
  (head :: tail.map (·.2)).getD i head

/-- Before anything is reduced, the chain is told by the positions of all operators. -/
theorem ofPositions_zipIdx (head : Expr) {tail : List (String × Expr)}
    (h : unknownSymbol? tail = none) (registers : Nat → Value) :
    ofPositions (slotAt (operandAt head tail) [] registers) 0 ((known tail).map (·.1)).zipIdx =
      ⟨.pending head, (known tail).map fun p => (p.1, .pending p.2)⟩ := by
  have hslot (i : Nat) : slotAt (operandAt head tail) [] registers i =
      .pending (operandAt head tail i) := by
    cases i <;> rfl
  have hoperand (i : Nat) (hi : i < (known tail).length) :
      operandAt head tail (i + 1) = (known tail)[i].2 := by
    rw [operandAt, ← (resolveTail_of_known h).2, List.getD_cons_succ,
      List.getD_eq_getElem?_getD, List.getElem?_map, List.getElem?_eq_getElem hi]
    rfl
  rw [ofPositions, hslot]
  congr 1
  refine List.ext_getElem (by simp) fun i hi hi' => ?_
  rw [List.length_map] at hi'
  simp [hslot, hoperand i hi']

end Chain

theorem Action.remaining_zipIdx (ops : List Operator) : Remaining ops.length [] ops.zipIdx := by
  refine ⟨⟨fun _ _ => Nat.zero_le _, ?_⟩, fun _ _ => List.not_mem_nil, fun k hk => .inr ?_,
    fun p hp => ?_⟩
  · refine List.pairwise_map.mp ?_
    rw [List.zipIdx_map_snd]
    exact List.pairwise_lt_range'
  · simpa using hk
  · have := List.snd_lt_add_of_mem_zipIdx hp
    omega

/-- **The order of a reduction.** A compound expression with an unknown symbol fails with the
leftmost one and leaves the machine as it was. Any other one is evaluated as its operators are
reduced level by level, and as its schedule is executed, in which each operand is evaluated exactly
once. -/
theorem Engine.reduce_schedule (engine : Engine) (head : Expr) (tail : List (String × Expr)) :
    (∀ symbol, Chain.unknownSymbol? tail = some symbol →
      ∀ m, engine.reduce head tail m = .error ⟨.unsupportedOperator symbol, []⟩ m) ∧
    (Chain.unknownSymbol? tail = none →
      engine.reduce head tail = engine.reduceByLevel head (Chain.known tail) ∧
      engine.reduce head tail = engine.runSchedule (Chain.operandAt head tail)
        (schedule ((Chain.known tail).map (·.1))) ∧
      ∀ i, (schedule ((Chain.known tail).map (·.1))).count (.operand i) =
        if i ≤ tail.length then 1 else 0) ∧
    (tail = [] → engine.reduce head tail = engine.eval head) := by
  refine ⟨fun symbol h m => ?_, fun h => ?_, fun h => ?_⟩
  · exact engine.reduce_of_unknown head h m
  · have hreduce := engine.reduce_of_known head h
    refine ⟨?_, ?_, fun i => ?_⟩
    · rw [hreduce, engine.reduceChain_eq_passes Operator.levels (by decide) _
        fun op _ => op.precedence_mem_levels]
      rfl
    · rw [hreduce, ← Chain.ofPositions_zipIdx head h fun _ => .undefined,
        reduceChain_ofPositions engine _ (Action.remaining_zipIdx _)]
      rfl
    · rw [count_operand_schedule, List.length_map, Chain.length_known h]
  · subst h
    rfl

/-- In `a + 2 * 3` the operands of `*` are evaluated first; in `a + 2 ** 3` none is. -/
theorem Engine.reduce_schedule_mul_before_add :
    (Engine.withFuel 1).reduce (.name "a") [("+", .literal .int "2"), ("*", .literal .int "3")] =
      (Engine.withFuel 1).runSchedule
        (Chain.operandAt (.name "a") [("+", .literal .int "2"), ("*", .literal .int "3")])
        [.operand 1, .operand 2, .method .mul 1 2, .operand 0, .method .add 0 1] ∧
    (Engine.withFuel 1).reduce (.name "a") [("+", .literal .int "2"), ("**", .literal .int "3")]
        default = .error ⟨.unsupportedOperator "**", []⟩ default ∧
    (Engine.withFuel 1).reduce (.name "a") [] = (Engine.withFuel 1).eval (.name "a") :=
  ⟨((Engine.reduce_schedule _ _ _).2.1 (by decide)).2.1,
    (Engine.reduce_schedule _ _ _).1 "**" (by decide) default,
    (Engine.reduce_schedule _ _ _).2.2 rfl⟩

end FlannelScript
