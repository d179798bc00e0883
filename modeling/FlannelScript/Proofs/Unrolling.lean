import FlannelScript.Proofs.Exchange

/-!
# Unrolling and inlining

A loop is the condition that runs its list and then the loop again, and a condition that always
holds is the list in it. Both are so because the lists of loops and conditions run in the scope
around them; and both fail in a function for a list with a `return` of its own, which ends no more
than that list: a loop goes on after it, but what stands behind the list in the unrolled condition is
not reached, and an inlined `return` ends the list around it. At the top level, where a `return` ends
the program, it makes no difference.

Since the two sides always end in the same way, they can be exchanged anywhere in a program.
-/

namespace FlannelScript

open Eval

/-! ## Exits without a `return` -/

/-- How a list with a single statement ends. -/
def Flow.exit : Flow → BlockExit
  | next => .completed
  | halt v => .halted v

@[simp] theorem Flow.flow_exit (flow : Flow) : flow.exit.flow = flow := by
  cases flow <;> rfl

namespace Engine

variable {mode : Mode} {stmts : List Stmt}

theorem execBlock_singleton (engine : Engine) {s : Stmt}
    (hs : mode = .inFunction → s.isReturn = false) :
    engine.execBlock mode [s] = (do
      let flow ← engine.execStmt mode s
      pure flow.exit) := by
  rw [execBlock_cons engine hs]
  refine bind_congr fun flow => ?_
  cases flow <;> rfl

/-- A list that is not ended by a `return` of its own tells by its exit no more than a statement. -/
theorem execBlock_returns_exit (engine : Engine)
    (h : mode = .inFunction → ∀ s ∈ stmts, s.isReturn = false) :
    Returns (engine.execBlock mode stmts) fun exit => exit.flow.exit = exit := by
  induction stmts with
  | nil => exact .pure rfl
  | cons s rest ih =>
    have hs : mode = .inFunction → s.isReturn = false := fun hmode => h hmode s List.mem_cons_self
    rw [execBlock_cons engine hs]
    refine .bind fun flow => ?_
    cases flow with
    | next => exact ih fun hmode s hmem => h hmode s (List.mem_cons_of_mem _ hmem)
    | halt v => exact .pure rfl

theorem block_returns_exit (n : Nat) (h : mode = .inFunction → ∀ s ∈ stmts, s.isReturn = false) :
    Returns ((withFuel n).block mode stmts) fun exit => exit.flow.exit = exit := by
  cases n with
  | zero => rintro m exit m' ⟨⟩
  | succ n => exact (withFuel n).execBlock_returns_exit h

end Engine

/-! ## Single statements -/

/-- A list with a single statement, as a statement. -/
theorem ends_block_singleton_iff {mode : Mode} {s : Stmt}
    (hs : mode = .inFunction → s.isReturn = false) {m : Machine} {r : Result Flow} :
    Ends (fun engine => engine.block mode [s] >>= fun exit => pure exit.flow) m r ↔
      Ends (fun engine => engine.execStmt mode s) m r := by
  refine ends_iff_of_succ (fun _ => rfl) fun n => ?_
  calc (Engine.withFuel (n + 1)).block mode [s] >>= fun exit => pure exit.flow
    _ = (Engine.withFuel n).execBlock mode [s] >>= fun exit => pure exit.flow := rfl
    _ = (Engine.withFuel n).execStmt mode s := by
      simp only [Engine.execBlock_singleton _ hs, bind_assoc, pure_bind, Flow.flow_exit, bind_pure]

/-- A single statement may be exchanged for what ends in the same way. -/
theorem ends_block_of_stmt_iff {mode : Mode} {s : Stmt}
    (hs : mode = .inFunction → s.isReturn = false) {x : Engine → Eval Flow} (hx : Part x)
    (h : ∀ m r, Ends (fun engine => engine.execStmt mode s) m r ↔ Ends x m r) {m : Machine}
    {r : Result BlockExit} :
    Ends (fun engine => engine.block mode [s]) m r ↔
      Ends (fun engine => x engine >>= fun flow => pure flow.exit) m r := by
  rw [ends_block_iff]
  simp only [Engine.execBlock_singleton _ hs]
  exact Ends.bind_congr_left (.execStmt mode s) hx (fun flow => .pure flow.exit) h

/-! ## Conditions -/

/-- If the condition holds, do this. -/
def Engine.when (engine : Engine) (condition : Expr) (x : Eval Flow) : Eval Flow := do
  if ← engine.evalCondition condition then x else pure .next

section

variable {x y : Engine → Eval Flow} (hx : Part x)
include hx

theorem Part.ite (holds : Bool) :
    Part fun engine => if holds then x engine else Pure.pure .next := by
  cases holds with
  | false => exact .pure _
  | true => exact hx

theorem Ends.when_congr (hy : Part y) (condition : Expr) (h : ∀ m r, Ends x m r ↔ Ends y m r)
    {m : Machine} {r : Result Flow} :
    Ends (fun engine => engine.when condition (x engine)) m r ↔
      Ends (fun engine => engine.when condition (y engine)) m r := by
  refine bind_congr (.evalCondition condition) hx.ite hy.ite (fun _ => .trivial)
    fun holds _ m r => ?_
  cases holds with
  | false => exact Iff.rfl
  | true => exact h m r

/-- The condition that always holds. -/
theorem ends_when_true_iff {m : Machine} {r : Result Flow} :
    Ends (fun engine => engine.when (.ofBool true) (x engine)) m r ↔ Ends x m r := by
  have hcondition : ∀ m r, Ends (fun engine => engine.evalCondition (.ofBool true)) m r ↔
      Ends (fun _ => (pure true : Eval Bool)) m r :=
    fun m r => ends_iff_of_succ (fun _ => rfl) fun _ => rfl
  exact Ends.bind_congr_left (.evalCondition _) (.pure true) hx.ite hcondition

end

/-! ## Unrolling -/

/-- Go on with a loop after a round in which its list ended so. -/
def BlockExit.thenLoop (again : Eval Flow) : BlockExit → Eval Flow
  | halted v => pure (.halt v)
  | completed | returned _ => again

theorem Part.thenLoop (mode : Mode) (condition : Expr) (body : List Stmt) (exit : BlockExit) :
    Part fun engine => exit.thenLoop (engine.loop mode condition body) := by
  cases exit with
  | completed | returned => exact .loop mode condition body
  | halted v => exact .pure _

theorem Part.andThen_flow (mode : Mode) (stmts : List Stmt) (exit : BlockExit) :
    Part fun engine => exit.andThen (engine.block mode stmts) >>= fun exit =>
      Pure.pure exit.flow := by
  cases exit with
  | completed => exact .bind (.block mode stmts) fun exit => .pure _
  | returned | halted => exact .pure _

theorem Engine.loopStep_eq (engine : Engine) (mode : Mode) (condition : Expr) (body : List Stmt) :
    engine.loopStep mode condition body = engine.when condition (do
      let exit ← engine.block mode body
      exit.thenLoop (engine.loop mode condition body)) := by
  rw [loopStep, loopRound, bind_assoc]
  refine bind_congr fun holds => ?_
  cases holds with
  | false => rfl
  | true =>
    simp only [if_true, bind_assoc]
    refine bind_congr fun exit => ?_
    cases exit <;> rfl

theorem Engine.execStmt_branch_append (n : Nat) (mode : Mode) (condition : Expr)
    (first second : List Stmt) :
    (withFuel n).execStmt mode (.branch condition (first ++ second)) =
      (withFuel n).when condition (do
        let exit ← (withFuel n).block mode first
        let exit ← exit.andThen ((withFuel n).block mode second)
        pure exit.flow) := by
  simp only [execStmt, Engine.when, block_append, bind_assoc]

section

variable {mode : Mode} {body : List Stmt}
  (h : mode = .inFunction → ∀ s ∈ body, s.isReturn = false)
include h

/-- One round and the loop again, and the list with the loop behind it. -/
theorem ends_round_iff (condition : Expr) (m : Machine) (r : Result Flow) :
    Ends (fun engine => engine.block mode body >>= fun exit =>
        exit.thenLoop (engine.loop mode condition body)) m r ↔
      Ends (fun engine => engine.block mode body >>= fun exit =>
        exit.andThen (engine.block mode [.loop condition body]) >>= fun exit =>
          pure exit.flow) m r := by
  refine Ends.bind_congr (.block mode body) (.thenLoop mode condition body)
    (.andThen_flow mode [.loop condition body]) (fun n => Engine.block_returns_exit n h)
    fun exit hexit m r => ?_
  cases exit with
  | completed =>
    have hloop : mode = .inFunction → (Stmt.loop condition body).isReturn = false := fun _ => rfl
    exact (ends_block_singleton_iff hloop).symm
  | returned v =>
    -- here the two differ: the loop would go on, and the list would have ended
    cases hexit
  | halted v => exact Iff.rfl

/-- **Unrolling.** A loop ends as the condition does that runs its list and then the loop. -/
theorem ends_loop_unrolled_iff (condition : Expr) (m : Machine) (r : Result Flow) :
    Ends (fun engine => engine.execStmt mode (.loop condition body)) m r ↔
      Ends (fun engine => engine.execStmt mode
        (.branch condition (body ++ [.loop condition body]))) m r := by
  have hstep : Ends (fun engine => engine.execStmt mode (.loop condition body)) m r ↔
      Ends (fun engine => engine.loopStep mode condition body) m r := ends_loop_iff
  rw [hstep]
  simp only [Engine.loopStep_eq]
  rw [Ends.when_congr (.bind (.block mode body) (.thenLoop mode condition body))
    (.bind (.block mode body) (.andThen_flow mode [.loop condition body])) condition
    (ends_round_iff h condition)]
  simp only [Ends, Engine.execStmt_branch_append]

theorem interchangeable_unrolled (condition : Expr) :
    Interchangeable mode [.loop condition body]
      [.branch condition (body ++ [.loop condition body])] := by
  intro m r
  rw [ends_block_of_stmt_iff (fun _ => rfl) (.execStmt mode _) (ends_loop_unrolled_iff h condition),
    ends_block_of_stmt_iff (fun _ => rfl) (.execStmt mode _) fun _ _ => Iff.rfl]

/-! ## Inlining -/

/-- **Inlining.** A condition that always holds is the list in it. -/
theorem interchangeable_inlined : Interchangeable mode [.branch (.ofBool true) body] body := by
  intro m r
  have hflow : Part fun engine => engine.block mode body >>= fun exit => pure exit.flow :=
    .bind (.block mode body) fun exit => .pure exit.flow
  have hstmt : ∀ m r, Ends (fun engine => engine.execStmt mode (.branch (.ofBool true) body)) m r ↔
      Ends (fun engine => engine.block mode body >>= fun exit => pure exit.flow) m r :=
    fun _ _ => ends_when_true_iff hflow
  have hexit : ∀ n, (((Engine.withFuel n).block mode body >>= fun exit => pure exit.flow) >>=
      fun flow => pure flow.exit) = (Engine.withFuel n).block mode body := by
    intro n
    rw [bind_assoc]
    simp only [pure_bind]
    refine ((Engine.block_returns_exit n h).bind_congr fun exit hexit => ?_).trans (bind_pure _)
    rw [hexit]
  rw [ends_block_of_stmt_iff (fun _ => rfl) hflow hstmt]
  simp only [Ends, hexit]

end

/-- **Unrolling and inlining.** Let a list have no `return` of its own, unless it is at the top
level. Then the loop over it ends just as the condition that runs the list and the loop behind it:
with the same flow or error, on the same machine, and in the same scope. The condition that always
holds can be replaced by its list in every list around it, with the same ends. And neither exchange
shows in a program, wherever in it the code stands and on whatever machine the program is run. -/
theorem loop_unrolling_and_inlining (mode : Mode) (condition : Expr) (body : List Stmt)
    (h : mode = .inFunction → ∀ s ∈ body, s.isReturn = false) :
    (∀ m r, Ends (fun engine => engine.execStmt mode (.loop condition body)) m r ↔
      Ends (fun engine => engine.execStmt mode
        (.branch condition (body ++ [.loop condition body]))) m r) ∧
    (∀ before after m r,
      Ends (fun engine => engine.block mode
        (before ++ [.branch (.ofBool true) body] ++ after)) m r ↔
      Ends (fun engine => engine.block mode (before ++ body ++ after)) m r) ∧
    (∀ p q : Program, Replaced mode [.loop condition body]
        [.branch condition (body ++ [.loop condition body])] .topLevel p.statements q.statements →
      ∀ m b, p.ShowsOn m b ↔ q.ShowsOn m b) ∧
    (∀ p q : Program,
      Replaced mode [.branch (.ofBool true) body] body .topLevel p.statements q.statements →
      ∀ m b, p.ShowsOn m b ↔ q.ShowsOn m b) := by
  have hunrolled := interchangeable_unrolled h condition
  have hinlined := interchangeable_inlined h
  refine ⟨ends_loop_unrolled_iff h condition, hinlined.between, ?_, ?_⟩
  · intro p q hreplaced
    exact hreplaced.showsOn_iff hunrolled
  · intro p q hreplaced
    exact hreplaced.showsOn_iff hinlined

/-- A function of a truth value, and a call of it. -/
def calledOnTrue (body : List Stmt) : Program :=
  ⟨[.functionDecl ⟨"f", [⟨"Bln", "x"⟩], "Und", body⟩, .call "f" [.ofBool true]]⟩

/-- The list of a loop that takes one round. -/
def lastRound : List Stmt := [.echo (.name "x"), .assign "x" (.ofBool false)]

/-- A function with a loop, the same function with the loop unrolled, and with its first round
inlined. -/
theorem loop_unrolling_and_inlining_in_function :
    let loop := Stmt.loop (.name "x") lastRound
    let shown : Behaviour := ⟨.ok .completed, "true\n", []⟩
    (∀ s ∈ lastRound, s.isReturn = false) ∧
    (calledOnTrue [loop]).ShowsOn (.fresh {} none) shown ∧
    (calledOnTrue [.branch (.name "x") (lastRound ++ [loop])]).ShowsOn (.fresh {} none) shown ∧
    (calledOnTrue [.branch (.ofBool true) lastRound, loop]).ShowsOn (.fresh {} none) shown ∧
    (calledOnTrue (lastRound ++ [loop])).ShowsOn (.fresh {} none) shown := by
  intro loop shown
  have hlist : ∀ s ∈ lastRound, s.isReturn = false := by decide
  obtain ⟨-, -, hunrolled, hinlined⟩ :=
    loop_unrolling_and_inlining .inFunction (.name "x") lastRound fun _ => hlist
  have hloop : (calledOnTrue [loop]).ShowsOn (.fresh {} none) shown :=
    Program.shows_iff.mpr ⟨9, rfl⟩
  have hbranch : (calledOnTrue [.branch (.ofBool true) lastRound, loop]).ShowsOn (.fresh {} none)
      shown := Program.shows_iff.mpr ⟨9, rfl⟩
  refine ⟨hlist, hloop, (hunrolled _ _ ?_ _ _).mp hloop, hbranch, (hinlined _ _ ?_ _ _).mp hbranch⟩
  · exact .function .topLevel [] ⟨"f", [⟨"Bln", "x"⟩], "Und", []⟩ _ (.here [] [])
  · exact .function .topLevel [] ⟨"f", [⟨"Bln", "x"⟩], "Und", []⟩ _ (.here [] [loop])

-- In a function, a `return` in the condition ends nothing but the condition.
example :
    let program (body : List Stmt) : Program :=
      ⟨[.functionDecl ⟨"f", [], "Und", body⟩, .call "f" []]⟩
    let output (body : List Stmt) :=
      ((program body).run 9 (.fresh {} none)).machine?.map (·.console.output)
    output [.branch (.ofBool true) [.ret (.name "und")], .echo (.name "und")] = some "und\n" ∧
    output [.ret (.name "und"), .echo (.name "und")] = some "" :=
  ⟨rfl, rfl⟩

end FlannelScript
