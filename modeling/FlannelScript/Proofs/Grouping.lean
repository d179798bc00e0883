import FlannelScript.Proofs.Redex

/-!
# The grouping of an operator chain

A chain comes without brackets, but the strength of the operators says where they would stand: a
stronger operator is grouped with its operands before a weaker one, and equally strong ones are from
left to right (`OpTree.Grouped`). There is only one such tree, and it is what precedence climbing
makes of the chain (`Chain.parse_eq_iff`).

The operator of a chain that is reduced next stands between two operands in the tree as well
(`OpTree.operand_or_opens`): to contract the chain there is to put an operand in the place of a
node, and the tree that is left is grouped as before.
-/

namespace FlannelScript

/-! ## Chains -/

attribute [ext] Chain

namespace Chain

variable {α β : Type}

/-- Put two chains together with an operator in the middle. -/
def append (a : Chain α) (op : Operator) (b : Chain α) : Chain α :=
  ⟨a.first, a.rest ++ (op, b.first) :: b.rest⟩

@[simp] theorem operators_append (a : Chain α) (op : Operator) (b : Chain α) :
    (a.append op b).operators = a.operators ++ op :: b.operators := by
  simp [append, operators]

theorem prepend_append (a : Chain α) (op : Operator) (b : Chain α)
    (before : List (α × Operator)) :
    (a.append op b).prepend before = (a.prepend before).append op b := by
  induction before with
  | nil => rfl
  | cons p before ih =>
    obtain ⟨x, o⟩ := p
    rw [prepend_cons, prepend_cons, ih]
    rfl

theorem prepend_prepend (c : Chain α) (front before : List (α × Operator)) :
    c.prepend (front ++ before) = (c.prepend before).prepend front := by
  induction front with
  | nil => rfl
  | cons p front ih =>
    obtain ⟨x, o⟩ := p
    rw [List.cons_append, prepend_cons, prepend_cons, ih]

/-- To put a chain and an operator in front is to put operands and operators in front. -/
theorem exists_prepend_eq_append (a : Chain α) (op : Operator) :
    ∃ front : List (α × Operator), front.map (·.2) = a.operators ++ [op] ∧
      ∀ (c : Chain α) (before : List (α × Operator)),
        c.prepend (front ++ before) = a.append op (c.prepend before) := by
  obtain ⟨front, left, hops, hfront⟩ := exists_prepend_eq a.first a.rest
  refine ⟨front ++ [(left, op)], by simp [operators, hops], fun c before => ?_⟩
  rw [List.append_assoc, prepend_prepend]
  exact hfront _

/-- The operands of a chain. -/
def operands (c : Chain α) : List α := c.first :: c.rest.map (·.2)

theorem operands_prepend (c : Chain α) (before : List (α × Operator)) :
    (c.prepend before).operands = before.map (·.1) ++ c.operands := by
  induction before with
  | nil => rfl
  | cons p before ih => exact congrArg (p.1 :: ·) ih

theorem mem_operands_prepend {c : Chain α} {before : List (α × Operator)} {x : α} :
    x ∈ (c.prepend before).operands ↔ x ∈ before.map (·.1) ∨ x ∈ c.operands := by
  rw [operands_prepend, List.mem_append]

theorem mem_operands_contract {r : Redex α} {v x : α} (h : x ∈ (r.contract v).operands) :
    x = v ∨ x ∈ r.chain.operands := by
  rw [Redex.chain, mem_operands_prepend]
  rcases mem_operands_prepend.mp h with h | h
  · exact .inr (.inl h)
  · rcases List.mem_cons.mp h with h | h
    · exact .inl h
    · exact .inr (.inr (List.mem_cons_of_mem _ (List.mem_cons_of_mem _ h)))

theorem left_mem_operands (r : Redex α) : r.left ∈ r.chain.operands :=
  mem_operands_prepend.mpr (.inr List.mem_cons_self)

theorem right_mem_operands (r : Redex α) : r.right ∈ r.chain.operands :=
  mem_operands_prepend.mpr (.inr (List.mem_cons_of_mem _ List.mem_cons_self))

/-- Change the operands of a chain. -/
def map (f : α → β) (c : Chain α) : Chain β := ⟨f c.first, c.rest.map fun p => (p.1, f p.2)⟩

@[simp] theorem operators_map (f : α → β) (c : Chain α) : (c.map f).operators = c.operators := by
  simp [map, operators]

@[simp] theorem operands_map (f : α → β) (c : Chain α) : (c.map f).operands = c.operands.map f := by
  simp [map, operands]

end Chain

/-! ## Trees -/

/-- Operands and operators, grouped. -/
inductive OpTree (α : Type) where
  | operand (x : α)
  | node (op : Operator) (left right : OpTree α)

namespace OpTree

variable {α β : Type}

/-- The chain that is left when the grouping of a tree is forgotten. -/
def chain : OpTree α → Chain α
  | operand x => ⟨x, []⟩
  | node op left right => left.chain.append op right.chain

/-- In every node, the operators to the right bind tighter, and those to the left at least as
tight. -/
inductive Grouped : OpTree α → Prop where
  | operand (x : α) : Grouped (operand x)
  | node {op : Operator} {left right : OpTree α} (hleft : Grouped left) (hright : Grouped right)
      (left_le : ∀ o ∈ left.chain.operators, op.precedence ≤ o.precedence)
      (right_lt : ∀ o ∈ right.chain.operators, op.precedence < o.precedence) :
      Grouped (node op left right)

/-- Change the operands of a tree. -/
def map (f : α → β) : OpTree α → OpTree β
  | operand x => operand (f x)
  | node op left right => node op (left.map f) (right.map f)

theorem chain_map (f : α → β) (tree : OpTree α) : (tree.map f).chain = tree.chain.map f := by
  induction tree with
  | operand x => rfl
  | node op left right ihleft ihright =>
    rw [map, chain, chain, ihleft, ihright]
    simp [Chain.append, Chain.map]

theorem Grouped.map {tree : OpTree α} (h : tree.Grouped) (f : α → β) : (tree.map f).Grouped := by
  induction h with
  | operand x => exact .operand (f x)
  | node _ _ left_le right_lt ihleft ihright =>
    refine .node ihleft ihright ?_ ?_
    · rwa [chain_map, Chain.operators_map]
    · rwa [chain_map, Chain.operators_map]

/-- Two nodes of one chain cannot have their operators at different places: the one further to the
left would have to be weaker than the other and at least as strong. -/
theorem Grouped.not_shifted {op op' : Operator} {left right left' right' : OpTree α}
    (h : (OpTree.node op left right).Grouped) (h' : (OpTree.node op' left' right').Grouped)
    {between : List (Operator × α)}
    (hleft : left'.chain.rest = left.chain.rest ++ (op, right.chain.first) :: between)
    (hright : right.chain.rest = between ++ (op', right'.chain.first) :: right'.chain.rest) :
    False := by
  cases h with
  | node _ _ _ right_lt =>
    cases h' with
    | node _ _ left_le _ =>
      have hlt : op.precedence < op'.precedence := right_lt op' (by simp [Chain.operators, hright])
      have hle : op'.precedence ≤ op.precedence := left_le op (by simp [Chain.operators, hleft])
      omega

/-- The operator of a grouped node and its two sides can be told from its chain. -/
theorem Grouped.chain_sides {op op' : Operator} {left right left' right' : OpTree α}
    (h : (OpTree.node op left right).Grouped) (h' : (OpTree.node op' left' right').Grouped)
    (hchain : (OpTree.node op left right).chain = (OpTree.node op' left' right').chain) :
    op = op' ∧ left.chain = left'.chain ∧ right.chain = right'.chain := by
  have hfirst : left.chain.first = left'.chain.first := (Chain.mk.inj hchain).1
  have hrest := (Chain.mk.inj hchain).2
  -- compare the places of the two operators
  rcases List.append_eq_append_iff.mp hrest with ⟨between, hl, hr⟩ | ⟨between, hl, hr⟩ <;>
    rcases between with _ | ⟨p, between⟩
  · injection hr with hop hr
    injection hop with hop hr'
    exact ⟨hop, Chain.ext hfirst (by simpa using hl.symm), Chain.ext hr' hr⟩
  · obtain ⟨rfl, hmid⟩ := List.cons.inj hr
    exact (h.not_shifted h' hl hmid).elim
  · injection hr with hop hr
    injection hop with hop hr'
    exact ⟨hop.symm, Chain.ext hfirst (by simpa using hl), (Chain.ext hr' hr).symm⟩
  · obtain ⟨rfl, hmid⟩ := List.cons.inj hr
    exact (h'.not_shifted h hl hmid).elim

/-- **Uniqueness.** A chain can be grouped in one way only. -/
theorem Grouped.unique {tree tree' : OpTree α} (h : tree.Grouped) (h' : tree'.Grouped)
    (hchain : tree.chain = tree'.chain) : tree = tree' := by
  induction h generalizing tree' with
  | operand x =>
    cases h' with
    | operand y => rw [(Chain.mk.inj hchain).1]
    | node => simp [chain, Chain.append] at hchain
  | node hleft hright left_le right_lt ihleft ihright =>
    cases h' with
    | operand y => simp [chain, Chain.append] at hchain
    | node hleft' hright' left_le' right_lt' =>
      obtain ⟨rfl, hl, hr⟩ := chain_sides (.node hleft hright left_le right_lt)
        (.node hleft' hright' left_le' right_lt') hchain
      rw [ihleft hleft' hl, ihright hright' hr]

end OpTree

/-! ## Precedence climbing -/

namespace Chain

variable {α : Type}

/-- Climb: as long as an operator of at least the strength `min` follows the tree, group it with the
tree that can be made behind it from the stronger operators there. The answer is the tree and what
follows it. -/
def climb (min : Nat) (left : OpTree α) :
    (rest : List (Operator × α)) →
      OpTree α × { leftover : List (Operator × α) // leftover.length ≤ rest.length }
  | [] => (left, ⟨[], Nat.le_refl _⟩)
  | (op, y) :: rest =>
    if op.precedence < min then (left, ⟨(op, y) :: rest, Nat.le_refl _⟩)
    else
      let right := climb (op.precedence + 1) (.operand y) rest
      have hright := Nat.le_succ_of_le right.2.2
      let tree := climb min (.node op left right.1) right.2.1
      (tree.1, ⟨tree.2.1, Nat.le_trans tree.2.2 hright⟩)
termination_by rest => rest.length
decreasing_by
  · exact Nat.lt_succ_self _
  · exact Nat.lt_succ_of_le right.2.2

/-- The tree of a chain. -/
def parse (c : Chain α) : OpTree α := (climb 0 (.operand c.first) c.rest).1

/-- A tree that was made from `left` and operators of at least the strength `min` behind it. -/
structure Climbed (min : Nat) (left : OpTree α) (rest : List (Operator × α)) (tree : OpTree α)
    (leftover : List (Operator × α)) : Prop where
  first_eq : tree.chain.first = left.chain.first
  rest_eq : tree.chain.rest ++ leftover = left.chain.rest ++ rest
  grouped : tree.Grouped
  min_le : ∀ o ∈ tree.chain.operators, min ≤ o.precedence
  next_lt : ∀ p ∈ leftover.head?, p.1.precedence < min

/-- **Climbing.** A grouped tree whose operators are at least as strong as the next one grows to a
grouped tree. -/
theorem climb_spec (min : Nat) (left : OpTree α) (rest : List (Operator × α))
    (hleft : left.Grouped) (hmin : ∀ o ∈ left.chain.operators, min ≤ o.precedence)
    (hnext : ∀ p ∈ rest.head?, ∀ o ∈ left.chain.operators, p.1.precedence ≤ o.precedence) :
    Climbed min left rest (climb min left rest).1 (climb min left rest).2.1 := by
  fun_induction climb min left rest with
  | case1 min left => exact ⟨rfl, rfl, hleft, hmin, by simp⟩
  | case2 min left op y rest hop => exact ⟨rfl, rfl, hleft, hmin, by simpa using hop⟩
  | case3 min left op y rest hop right hright tree ihright ihtree =>
    -- the climb behind `op` stops at an operator that is no stronger, so all that has been grouped
    -- by then is at least as strong as the next one
    have hr := ihright (.operand y) (by simp [OpTree.chain, operators])
      (by simp [OpTree.chain, operators])
    have hle : ∀ o ∈ left.chain.operators, op.precedence ≤ o.precedence :=
      hnext (op, y) rfl
    have hlt : ∀ o ∈ right.1.chain.operators, op.precedence < o.precedence := hr.min_le
    have hnode : ∀ o ∈ (OpTree.node op left right.1).chain.operators,
        op.precedence ≤ o.precedence := by
      intro o ho
      rw [OpTree.chain, operators_append, List.mem_append, List.mem_cons] at ho
      rcases ho with ho | rfl | ho
      · exact hle o ho
      · exact Nat.le_refl _
      · exact Nat.le_of_lt (hlt o ho)
    have ht := ihtree (.node hleft hr.grouped hle hlt)
      (fun o ho => Nat.le_trans (Nat.le_of_not_lt hop) (hnode o ho))
      (fun p hp o ho => Nat.le_trans (Nat.le_of_lt_succ (hr.next_lt p hp)) (hnode o ho))
    refine ⟨ht.first_eq, ?_, ht.grouped, ht.min_le, ht.next_lt⟩
    calc tree.1.chain.rest ++ tree.2.1
      _ = left.chain.rest ++ (op, right.1.chain.first) :: right.1.chain.rest ++ right.2.1 :=
        ht.rest_eq
      _ = left.chain.rest ++ (op, y) :: (right.1.chain.rest ++ right.2.1) := by
        rw [hr.first_eq, List.append_assoc]
        rfl
      _ = left.chain.rest ++ (op, y) :: rest := by
        rw [hr.rest_eq]
        rfl

/-- **The tree of a chain** is a grouping of just that chain. -/
theorem parse_spec (c : Chain α) : c.parse.Grouped ∧ c.parse.chain = c := by
  have h : Climbed 0 (.operand c.first) c.rest c.parse (climb 0 (.operand c.first) c.rest).2.1 :=
    climb_spec 0 (.operand c.first) c.rest (.operand c.first) (fun _ _ => Nat.zero_le _)
      (by simp [OpTree.chain, operators])
  have hnil : (climb 0 (.operand c.first) c.rest).2.1 = [] := by
    cases hleft : (climb 0 (.operand c.first) c.rest).2.1 with
    | nil => rfl
    | cons p leftover =>
      have := h.next_lt p (by rw [hleft]; rfl)
      omega
  have hrest := h.rest_eq
  rw [hnil, List.append_nil] at hrest
  refine ⟨h.grouped, ?_⟩
  exact Chain.ext h.first_eq hrest

/-- The tree of a chain is its only grouping. -/
theorem parse_eq_iff {c : Chain α} {tree : OpTree α} :
    c.parse = tree ↔ tree.Grouped ∧ tree.chain = c := by
  obtain ⟨hgrouped, hchain⟩ := c.parse_spec
  constructor
  · rintro rfl
    exact ⟨hgrouped, hchain⟩
  · rintro ⟨h, rfl⟩
    exact hgrouped.unique h hchain

end Chain

/-! ## Opening a tree -/

namespace OpTree

variable {α : Type}

/-- A node between the operands `x` and `y` is replaced by the operand `v`. -/
inductive Contracts (op : Operator) (x y v : α) : OpTree α → OpTree α → Prop where
  | here : Contracts op x y v (node op (operand x) (operand y)) (operand v)
  | left {o : Operator} {l l' : OpTree α} (r : OpTree α) (h : Contracts op x y v l l') :
      Contracts op x y v (node o l r) (node o l' r)
  | right {o : Operator} (l : OpTree α) {r r' : OpTree α} (h : Contracts op x y v r r') :
      Contracts op x y v (node o l r) (node o l r')

/-- The chain of the tree opens to a redex at its next operator, and to contract that redex is to
contract the tree. -/
structure Opens (tree : OpTree α) (r : Redex α) : Prop where
  chain_eq : r.chain = tree.chain
  isNext : r.IsNext
  contract : ∀ v, ∃ tree', tree'.Grouped ∧ tree'.chain = r.contract v ∧
    Contracts r.op r.left r.right v tree tree'

section node

variable {op : Operator} {left right : OpTree α} {r : Redex α}

/-- The next operator of a node is that of its left side, if the right side has no stronger one. -/
theorem Opens.node_left (h : (node op left right).Grouped) (hleft : left.Opens r)
    (hle : ∀ o ∈ right.chain.operators, o.precedence ≤ r.op.precedence) :
    (node op left right).Opens
      { r with after := r.after ++ (op, right.chain.first) :: right.chain.rest } := by
  cases h with
  | node _ hright left_le right_lt =>
    rw [← hleft.chain_eq] at left_le
    refine ⟨?_, ⟨hleft.isNext.before_lt, ?_⟩, fun v => ?_⟩
    · rw [chain, ← hleft.chain_eq]
      exact Chain.prepend_append ⟨r.left, (r.op, r.right) :: r.after⟩ op right.chain r.before
    · -- behind the redex: the rest of the left side, the node itself and the right side
      intro p hp
      rcases List.mem_append.mp hp with hp | hp
      · exact hleft.isNext.after_le p hp
      · rcases List.mem_cons.mp hp with rfl | hp
        · exact left_le r.op (by simp [r.operators_chain])
        · exact hle p.1 (List.mem_map_of_mem hp)
    · obtain ⟨left', hgrouped, hchain, hcontracts⟩ := hleft.contract v
      refine ⟨node op left' right, .node hgrouped hright (fun o ho => left_le o ?_) right_lt, ?_,
        .left right hcontracts⟩
      · rw [hchain] at ho
        exact r.operators_contract_subset v ho
      · rw [chain, hchain]
        exact (Chain.prepend_append ⟨v, r.after⟩ op right.chain r.before).symm

/-- The next operator of a node is that of its right side, if it is stronger than all of the left
side. -/
theorem Opens.node_right (h : (node op left right).Grouped) (hright : right.Opens r)
    (hlt : ∀ o ∈ left.chain.operators, o.precedence < r.op.precedence) :
    ∃ r' : Redex α, (node op left right).Opens r' := by
  cases h with
  | node hleft _ left_le right_lt =>
    rw [← hright.chain_eq] at right_lt
    obtain ⟨front, hops, hfront⟩ := left.chain.exists_prepend_eq_append op
    refine ⟨{ r with before := front ++ r.before }, ?_, ⟨?_, hright.isNext.after_le⟩, fun v => ?_⟩
    · rw [chain, ← hright.chain_eq]
      exact hfront ⟨r.left, (r.op, r.right) :: r.after⟩ r.before
    · -- before the redex: the left side, the node itself and the beginning of the right side
      intro p hp
      rcases List.mem_append.mp hp with hp | hp
      · have hmem : p.2 ∈ left.chain.operators ++ [op] := hops ▸ List.mem_map_of_mem hp
        rcases List.mem_append.mp hmem with hmem | hmem
        · exact hlt p.2 hmem
        · rw [List.mem_singleton.mp hmem]
          exact right_lt r.op (by simp [r.operators_chain])
      · exact hright.isNext.before_lt p hp
    · obtain ⟨right', hgrouped, hchain, hcontracts⟩ := hright.contract v
      refine ⟨node op left right', .node hleft hgrouped left_le fun o ho => right_lt o ?_, ?_,
        .right left hcontracts⟩
      · rw [hchain] at ho
        exact r.operators_contract_subset v ho
      · rw [chain, hchain]
        exact (hfront ⟨v, r.after⟩ r.before).symm

end node

/-- **One step.** A grouped tree is a lone operand, or its chain opens at a node between two
operands. -/
theorem operand_or_opens {tree : OpTree α} (h : tree.Grouped) :
    (∃ x, tree = operand x) ∨ ∃ r : Redex α, tree.Opens r := by
  induction h with
  | operand x => exact .inl ⟨x, rfl⟩
  | @node op left right hleft hright left_le right_lt ihleft ihright =>
    refine .inr ?_
    have hnode : (node op left right).Grouped := .node hleft hright left_le right_lt
    rcases ihleft with ⟨x, rfl⟩ | ⟨l, hl⟩ <;> rcases ihright with ⟨y, rfl⟩ | ⟨r, hr⟩
    · exact ⟨⟨[], x, op, y, []⟩, rfl, ⟨by simp, by simp⟩,
        fun v => ⟨operand v, .operand v, rfl, .here⟩⟩
    · exact hr.node_right hnode (by simp [chain, Chain.operators])
    · exact ⟨_, hl.node_left hnode (by simp [chain, Chain.operators])⟩
    · -- the stronger of the two sides is reduced first, and the left one if they are equal
      by_cases hlt : l.op.precedence < r.op.precedence
      · refine hr.node_right hnode fun o ho => Nat.lt_of_le_of_lt (hl.isNext.le_of_mem ?_) hlt
        rwa [hl.chain_eq]
      · refine ⟨_, hl.node_left hnode fun o ho => ?_⟩
        refine Nat.le_trans (hr.isNext.le_of_mem ?_) (Nat.le_of_not_lt hlt)
        rwa [hr.chain_eq]

end OpTree

end FlannelScript
