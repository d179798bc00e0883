import FlannelScript.Proofs.Fuel

/-!
# What a `return` ends

A statement list in a function never halts the program, and one at the top level never ends by a
`return` of its own (`Engine.withFuel_keepsMode`), however deep conditions and loops are nested.

So a call yields the value of the first `return` that stands in the body itself, after everything in
front of it has run, and undefined if there is none; what is returned inside conditions and loops
does not matter (`Yields`). And a program ends with a value just if it runs into a `return` outside
of all functions, which is then the last thing it does (`ReachesReturn`).
-/

namespace FlannelScript

open Eval Machine

/-- Whether a statement is a `return`. -/
def Stmt.isReturn : Stmt → Bool
  | .ret _ => true
  | _ => false

/-- Whether a statement decides what is run next. -/
def Stmt.isControl : Stmt → Bool
  | .ret _ | .loop _ _ | .branch _ _ => true
  | _ => false

/-! ## Exits by mode -/

/-- Whether a statement list can end so: in a function it does not halt, and at the top level it has
no `return` of its own. -/
def BlockExit.allowed : Mode → BlockExit → Bool
  | .inFunction, halted _ => false
  | .topLevel, returned _ => false
  | _, _ => true

/-- Whether a statement can finish so: in a function it does not halt. -/
def Flow.allowed : Mode → Flow → Bool
  | .inFunction, halt _ => false
  | _, _ => true

theorem Flow.allowed_next (mode : Mode) : Flow.next.allowed mode = true := by
  cases mode <;> rfl

theorem BlockExit.allowed_flow {mode : Mode} {exit : BlockExit} (h : exit.allowed mode = true) :
    exit.flow.allowed mode = true := by
  cases mode <;> cases exit <;> first | rfl | cases h

namespace Engine

/-- Statement lists and loops end as they can in their mode. -/
structure KeepsMode (engine : Engine) : Prop where
  block : ∀ mode stmts, Returns (engine.block mode stmts) fun exit => exit.allowed mode = true
  loop : ∀ mode condition body,
    Returns (engine.loop mode condition body) fun flow => flow.allowed mode = true

/-- A list is its first statement, unless that is the `return` of a function, and then the others. -/
theorem execBlock_cons (engine : Engine) {mode : Mode} {s : Stmt}
    (h : mode = .inFunction → s.isReturn = false) (rest : List Stmt) :
    engine.execBlock mode (s :: rest) = (do
      match ← engine.execStmt mode s with
      | .halt v => pure (.halted v)
      | .next => engine.execBlock mode rest) := by
  cases mode with
  | topLevel => rfl
  | inFunction =>
    cases s with
    | ret value => cases h rfl
    | _ => rfl

/-- After all other statements, the next one runs. -/
theorem execStmt_returns_next (engine : Engine) (mode : Mode) {s : Stmt}
    (h : s.isControl = false) : Returns (engine.execStmt mode s) fun flow => flow = .next := by
  cases s with
  | varDecl => exact .bind fun _ => .bind fun _ => .bind fun _ => .bind fun _ => .pure rfl
  | assign => exact .bind fun _ => .bind fun _ => .pure rfl
  | call | methodCall | classDecl | functionDecl => exact .bind fun _ => .pure rfl
  | echo => exact .bind fun _ => .bind fun _ => .bind fun _ => .pure rfl
  | ret | loop | branch => cases h

namespace KeepsMode

variable {engine : Engine} {mode : Mode}

theorem execStmt (h : engine.KeepsMode) {s : Stmt} (hs : mode = .inFunction → s.isReturn = false) :
    Returns (engine.execStmt mode s) fun flow => flow.allowed mode = true := by
  cases s with
  | ret value =>
    cases mode with
    | topLevel => exact .bind fun _ => .bind fun _ => .bind fun _ => .pure rfl
    | inFunction => cases hs rfl
  | loop condition body => exact h.loop mode condition body
  | branch condition body =>
    refine .bind fun holds => ?_
    cases holds with
    | false => exact .pure (Flow.allowed_next mode)
    | true => exact (h.block mode body).bind_of fun exit hexit => .pure (BlockExit.allowed_flow hexit)
  | _ =>
    intro m flow m' hflow
    rw [execStmt_returns_next engine mode rfl m flow m' hflow]
    exact Flow.allowed_next mode

theorem execBlock (h : engine.KeepsMode) (stmts : List Stmt) :
    Returns (engine.execBlock mode stmts) fun exit => exit.allowed mode = true := by
  induction stmts with
  | nil => exact .pure (by cases mode <;> rfl)
  | cons s rest ih =>
    by_cases hs : mode = .inFunction ∧ s.isReturn = true
    · -- the `return` of a function that stands in the list itself
      obtain ⟨rfl, hs⟩ := hs
      cases s with
      | ret value => exact .bind fun v => .pure rfl
      | _ => cases hs
    · have hs : mode = .inFunction → s.isReturn = false := by simpa using hs
      rw [execBlock_cons engine hs]
      refine (h.execStmt hs).bind_of fun flow hflow => ?_
      cases flow with
      | next => exact ih
      | halt v =>
        cases mode with
        | topLevel => exact .pure rfl
        | inFunction => cases hflow

theorem loopStep (h : engine.KeepsMode) (condition : Expr) (body : List Stmt) :
    Returns (engine.loopStep mode condition body) fun flow => flow.allowed mode = true := by
  have hround : Returns (engine.loopRound mode condition body) fun round =>
      ∀ flow, round = some flow → flow.allowed mode = true := by
    refine .bind fun holds => ?_
    cases holds with
    | false => exact .pure (by rintro flow ⟨⟩; exact Flow.allowed_next mode)
    | true =>
      refine (h.block mode body).bind_of fun exit hexit => ?_
      cases exit with
      | halted v => exact .pure (by rintro flow ⟨⟩; exact BlockExit.allowed_flow hexit)
      | completed | returned => exact .pure nofun
  refine hround.bind_of fun round hflow => ?_
  cases round with
  | none => exact h.loop mode condition body
  | some flow => exact .pure (hflow flow rfl)

end KeepsMode

/-- **Exits by mode.** -/
theorem withFuel_keepsMode (n : Nat) : (withFuel n).KeepsMode := by
  induction n with
  | zero =>
    constructor
    · rintro mode stmts m exit m' ⟨⟩
    · rintro mode condition body m flow m' ⟨⟩
  | succ n ih =>
    rw [withFuel_succ]
    exact ⟨fun mode stmts => ih.execBlock stmts, fun mode condition body => ih.loopStep condition body⟩

end Engine

/-! ## What a call yields -/

/-- The statements run one after the other, each of them to its end. -/
inductive RunsThrough (mode : Mode) : List Stmt → Machine → Machine → Prop where
  | nil (m : Machine) : RunsThrough mode [] m m
  | cons {s : Stmt} {rest : List Stmt} {m m₁ m' : Machine}
      (first : Ends (fun engine => engine.execStmt mode s) m (.ok .next m₁))
      (others : RunsThrough mode rest m₁ m') : RunsThrough mode (s :: rest) m m'

/-- What a body yields: the value of the first `return` of its own, evaluated when everything in
front of it has run, or undefined if it has no `return` of its own. -/
inductive Yields (body : List Stmt) (m : Machine) : Value → Machine → Prop where
  | ofReturn {before after : List Stmt} {value : Expr} {v : Value} {m₁ m' : Machine}
      (split : body = before ++ .ret value :: after)
      (first : ∀ s ∈ before, s.isReturn = false)
      (ran : RunsThrough .inFunction before m m₁)
      (evaluated : Ends (fun engine => engine.eval value) m₁ (.ok v m')) : Yields body m v m'
  | ofEnd {m' : Machine} (none : ∀ s ∈ body, s.isReturn = false)
      (ran : RunsThrough .inFunction body m m') : Yields body m .undefined m'

theorem ends_execBlock_cons_iff {mode : Mode} {s : Stmt} {rest : List Stmt}
    (hs : mode = .inFunction → s.isReturn = false) {m m' : Machine} {exit : BlockExit} :
    Ends (fun engine => engine.execBlock mode (s :: rest)) m (.ok exit m') ↔
      (∃ v, Ends (fun engine => engine.execStmt mode s) m (.ok (.halt v) m') ∧ exit = .halted v) ∨
      ∃ m₁, Ends (fun engine => engine.execStmt mode s) m (.ok .next m₁) ∧
        Ends (fun engine => engine.execBlock mode rest) m₁ (.ok exit m') := by
  simp only [Engine.execBlock_cons _ hs]
  rw [Ends.bind_iff (.execStmt mode s)]
  · constructor
    · rintro ⟨_ | v, m₁, hs, hrest⟩
      · exact .inr ⟨m₁, hs, hrest⟩
      · obtain ⟨rfl, rfl⟩ := Ends.pure_iff.mp hrest
        exact .inl ⟨v, hs, rfl⟩
    · rintro (⟨v, hs, rfl⟩ | ⟨m₁, hs, hrest⟩)
      · exact ⟨.halt v, m', hs, Ends.pure_iff.mpr ⟨rfl, rfl⟩⟩
      · exact ⟨.next, m₁, hs, hrest⟩
  · intro flow
    cases flow with
    | next => exact .execBlock mode rest
    | halt v => exact .pure _

theorem ends_execBlock_topLevel_iff {s : Stmt} {rest : List Stmt} {m m' : Machine}
    {exit : BlockExit} :
    Ends (fun engine => engine.execBlock .topLevel (s :: rest)) m (.ok exit m') ↔
      (∃ v, Ends (fun engine => engine.execStmt .topLevel s) m (.ok (.halt v) m') ∧
        exit = .halted v) ∨
      ∃ m₁, Ends (fun engine => engine.execStmt .topLevel s) m (.ok .next m₁) ∧
        Ends (fun engine => engine.execBlock .topLevel rest) m₁ (.ok exit m') := by
  refine ends_execBlock_cons_iff ?_
  rintro ⟨⟩

theorem ends_execBlock_return_iff {value : Expr} {rest : List Stmt} {m m' : Machine}
    {exit : BlockExit} :
    Ends (fun engine => engine.execBlock .inFunction (.ret value :: rest)) m (.ok exit m') ↔
      ∃ v, Ends (fun engine => engine.eval value) m (.ok v m') ∧ exit = .returned v := by
  refine (Ends.bind_iff (.eval value) fun v => .pure _).trans ?_
  simp only [Ends.pure_iff]
  constructor
  · rintro ⟨v, m₁, hv, rfl, rfl⟩
    exact ⟨v, hv, rfl⟩
  · rintro ⟨v, hv, rfl⟩
    exact ⟨v, m', hv, rfl, rfl⟩

theorem RunsThrough.ends_append {before rest : List Stmt} {m m₁ m' : Machine} {exit : BlockExit}
    (h : RunsThrough .inFunction before m m₁) (hbefore : ∀ s ∈ before, s.isReturn = false)
    (hrest : Ends (fun engine => engine.execBlock .inFunction rest) m₁ (.ok exit m')) :
    Ends (fun engine => engine.execBlock .inFunction (before ++ rest)) m (.ok exit m') := by
  induction h with
  | nil m => exact hrest
  | @cons s others m m₁ m₂ hs _ ih =>
    rw [List.forall_mem_cons] at hbefore
    exact (ends_execBlock_cons_iff fun _ => hbefore.1).mpr (.inr ⟨m₁, hs, ih hbefore.2 hrest⟩)

/-- A body that ends yields something. -/
theorem yields_of_ends {body : List Stmt} {m m' : Machine} {exit : BlockExit}
    (h : Ends (fun engine => engine.execBlock .inFunction body) m (.ok exit m')) :
    Yields body m exit.value m' := by
  induction body generalizing m with
  | nil =>
    obtain ⟨rfl, rfl⟩ := Ends.pure_iff.mp h
    exact .ofEnd (fun _ hs => absurd hs List.not_mem_nil) (.nil m')
  | cons s rest ih =>
    by_cases hs : s.isReturn = true
    · cases s with
      | ret value =>
        obtain ⟨v, hv, rfl⟩ := ends_execBlock_return_iff.mp h
        have hsplit : Stmt.ret value :: rest = [] ++ .ret value :: rest := rfl
        exact .ofReturn hsplit (fun _ hs => absurd hs List.not_mem_nil) (.nil m) hv
      | _ => cases hs
    · replace hs : s.isReturn = false := by simpa using hs
      rcases (ends_execBlock_cons_iff fun _ => hs).mp h with ⟨v, hv, -⟩ | ⟨m₁, hs', hrest⟩
      · -- in a function, no statement halts
        obtain ⟨n, hn⟩ := hv.exists_fuel
        cases ((Engine.withFuel_keepsMode n).execStmt fun _ => hs) m _ m' hn
      · generalize exit.value = v at ih
        cases ih hrest with
        | ofReturn split first ran evaluated =>
          have hsplit := congrArg (s :: ·) split
          exact .ofReturn hsplit (List.forall_mem_cons.mpr ⟨hs, first⟩) (.cons hs' ran) evaluated
        | ofEnd none ran =>
          exact .ofEnd (List.forall_mem_cons.mpr ⟨hs, none⟩) (.cons hs' ran)

theorem Yields.exists_ends {body : List Stmt} {m m' : Machine} {v : Value}
    (h : Yields body m v m') :
    ∃ exit : BlockExit, exit.value = v ∧
      Ends (fun engine => engine.execBlock .inFunction body) m (.ok exit m') := by
  cases h with
  | ofReturn split first ran evaluated =>
    subst split
    exact ⟨.returned v, rfl,
      ran.ends_append first (ends_execBlock_return_iff.mpr ⟨v, evaluated, rfl⟩)⟩
  | ofEnd none ran =>
    refine ⟨.completed, rfl, ?_⟩
    rw [← List.append_nil body]
    exact ran.ends_append none (Ends.pure_iff.mpr ⟨rfl, rfl⟩)

theorem ends_body_iff {body : List Stmt} {m m' : Machine} {exit : BlockExit} :
    Ends (fun engine => engine.body body) m (.ok exit m') ↔
      Ends (fun engine => engine.execBlock .inFunction body) m (.ok exit m') := by
  rw [← ends_block_iff]
  have htraced : ∀ x : Eval BlockExit, traced x m = .ok exit m' ↔ x m = .ok exit m' := by
    intro x
    rcases hx : x m with ⟨a, m₁⟩ | ⟨e, m₁⟩ | _ <;> simp only [traced, hx, reduceCtorEq]
  simp only [Ends, Engine.withFuel, htraced]

/-- **Calls.** A call that succeeds has been accepted, and gives what its body yields. -/
theorem ends_invoke_iff {callable : Callable} {owner : Option ClassRef} {receiver : Option Value}
    {args : List Value} {frame : String} {m m' : Machine} {v : Value} :
    Ends (fun engine => engine.invoke callable owner receiver args frame) m (.ok v m') ↔
      ∃ calls inner, Engine.checkCall callable owner args frame m = .ok calls ∧
        Yields callable.body (Engine.enter callable receiver args calls m) v inner ∧
        m' = Engine.leave m.scope inner := by
  constructor
  · intro h
    obtain ⟨n, hn⟩ := h.exists_fuel
    cases hcall : Engine.checkCall callable owner args frame m with
    | error f =>
      rw [Engine.invoke_of_error _ receiver hcall] at hn
      cases hn
    | ok calls =>
      rw [Engine.invoke_of_ok _ receiver hcall] at hn
      generalize hinside : Engine.enter callable receiver args calls m = inside at hn
      rcases hbody : (Engine.withFuel n).body callable.body inside with ⟨exit, inner⟩ | _ | _ <;>
        rw [hbody] at hn <;> cases hn
      exact ⟨calls, inner, rfl, hinside ▸ yields_of_ends (ends_body_iff.mp (.ok hbody)), rfl⟩
  · rintro ⟨calls, inner, hcall, hyields, rfl⟩
    obtain ⟨exit, rfl, hends⟩ := hyields.exists_ends
    obtain ⟨n, hn⟩ := (ends_body_iff.mpr hends).exists_fuel
    refine .ok (n := n) ?_
    rw [Engine.invoke_of_ok _ receiver hcall, hn]
    rfl

/-! ## The end of a program -/

/-- At the top level, the statements run into a `return` outside of all functions: `v` is its value,
`text` what the value is rendered as, and the last machine the one on which all of this is done and
the notice of the `return` is about to be printed. -/
inductive ReachesReturn : List Stmt → Machine → Value → String → Machine → Prop where
  | here {value : Expr} {rest : List Stmt} {m m₁ m₂ : Machine} {v : Value} {text : String}
      (evaluated : Ends (fun engine => engine.eval value) m (.ok v m₁))
      (rendered : Ends (fun engine => engine.renderValue v) m₁ (.ok text m₂)) :
      ReachesReturn (.ret value :: rest) m v text m₂
  | branch {condition : Expr} {body rest : List Stmt} {m m₁ m' : Machine} {v : Value}
      {text : String}
      (holds : Ends (fun engine => engine.evalCondition condition) m (.ok true m₁))
      (inside : ReachesReturn body m₁ v text m') :
      ReachesReturn (.branch condition body :: rest) m v text m'
  | loop {condition : Expr} {body rest : List Stmt} {m m₁ m' : Machine} {v : Value} {text : String}
      (holds : Ends (fun engine => engine.evalCondition condition) m (.ok true m₁))
      (inside : ReachesReturn body m₁ v text m') :
      ReachesReturn (.loop condition body :: rest) m v text m'
  | nextRound {condition : Expr} {body rest : List Stmt} {m m₁ m₂ m' : Machine} {v : Value}
      {text : String}
      (holds : Ends (fun engine => engine.evalCondition condition) m (.ok true m₁))
      (round : Ends (fun engine => engine.block .topLevel body) m₁ (.ok .completed m₂))
      (later : ReachesReturn (.loop condition body :: rest) m₂ v text m') :
      ReachesReturn (.loop condition body :: rest) m v text m'
  | later {s : Stmt} {rest : List Stmt} {m m₁ m' : Machine} {v : Value} {text : String}
      (first : Ends (fun engine => engine.execStmt .topLevel s) m (.ok .next m₁))
      (others : ReachesReturn rest m₁ v text m') : ReachesReturn (s :: rest) m v text m'

/-- The machine after the notice of a `return`. -/
def Machine.noticed (m : Machine) (text : String) : Machine :=
  { m with console := m.console.printLine ("returned: " ++ text) }

/-- The statements run into a `return`, and the last thing that is done is to print its notice. -/
def HaltsBy (stmts : List Stmt) (m : Machine) (v : Value) (m' : Machine) : Prop :=
  ∃ text inner, ReachesReturn stmts m v text inner ∧ m' = inner.noticed text

theorem ends_return_iff {value : Expr} {m m' : Machine} {flow : Flow} :
    Ends (fun engine => engine.execStmt .topLevel (.ret value)) m (.ok flow m') ↔
      ∃ v m₁ text m₂, Ends (fun engine => engine.eval value) m (.ok v m₁) ∧
        Ends (fun engine => engine.renderValue v) m₁ (.ok text m₂) ∧
        flow = .halt v ∧ m' = m₂.noticed text := by
  constructor
  · intro h
    obtain ⟨v, m₁, hv, h⟩ := Ends.of_bind h
    obtain ⟨text, m₂, htext, h⟩ := Ends.of_bind h
    obtain ⟨_, m₃, hprint, h⟩ := Ends.of_bind h
    obtain ⟨rfl, rfl⟩ := Ends.pure_iff.mp h
    cases (Ends.const_iff.mp hprint).2
    exact ⟨v, m₁, text, m₂, hv, htext, rfl, rfl⟩
  · rintro ⟨v, m₁, text, m₂, hv, htext, rfl, rfl⟩
    obtain ⟨n, hv, htext⟩ := hv.exists_common (.eval value) (.renderValue v) htext
    exact .ok (n := n) ((bind_of_ok hv).trans ((bind_of_ok htext).trans rfl))

/-- What one round of a loop comes to. -/
theorem Engine.loopRound_eq_ok {engine : Engine} {mode : Mode} {condition : Expr}
    {body : List Stmt} {m m' : Machine} {round : Option Flow}
    (h : engine.loopRound mode condition body m = .ok round m') :
    round = some .next ∧ engine.evalCondition condition m = .ok false m' ∨
    ∃ m₁ exit, engine.evalCondition condition m = .ok true m₁ ∧
      engine.block mode body m₁ = .ok exit m' ∧
      (round = none ∧ (∀ v, exit ≠ .halted v) ∨ ∃ v, exit = .halted v ∧ round = some (.halt v)) := by
  obtain ⟨holds, m₁, hcondition, h⟩ := bind_eq_ok h
  cases holds with
  | false =>
    cases h
    exact .inl ⟨rfl, hcondition⟩
  | true =>
    obtain ⟨exit, m₂, hblock, h⟩ := bind_eq_ok h
    refine .inr ⟨m₁, exit, hcondition, ?_⟩
    cases exit with
    | halted v =>
      cases h
      exact ⟨hblock, .inr ⟨v, rfl, rfl⟩⟩
    | completed | returned =>
      cases h
      exact ⟨hblock, .inl ⟨rfl, nofun⟩⟩

/-- A loop that is halted in a round. -/
theorem ends_loop_of_halted {mode : Mode} {condition : Expr} {body : List Stmt}
    {m m₁ m' : Machine} {v : Value}
    (hcondition : Ends (fun engine => engine.evalCondition condition) m (.ok true m₁))
    (hbody : Ends (fun engine => engine.block mode body) m₁ (.ok (.halted v) m')) :
    Ends (fun engine => engine.loop mode condition body) m (.ok (.halt v) m') := by
  obtain ⟨n, hcondition, hbody⟩ :=
    hcondition.exists_common (.evalCondition condition) (.block mode body) hbody
  have hround : (Engine.withFuel n).loopRound mode condition body m = .ok (some (.halt v)) m' :=
    (bind_of_ok hcondition).trans ((bind_of_ok hbody).trans rfl)
  exact ends_loop_iff.mpr (.ok (n := n) ((bind_of_ok hround).trans rfl))

/-- A loop that goes round once more. -/
theorem ends_loop_of_completed {mode : Mode} {condition : Expr} {body : List Stmt}
    {m m₁ m₂ m' : Machine} {flow : Flow}
    (hcondition : Ends (fun engine => engine.evalCondition condition) m (.ok true m₁))
    (hbody : Ends (fun engine => engine.block mode body) m₁ (.ok .completed m₂))
    (hloop : Ends (fun engine => engine.loop mode condition body) m₂ (.ok flow m')) :
    Ends (fun engine => engine.loop mode condition body) m (.ok flow m') := by
  obtain ⟨n, hcondition, hbody⟩ :=
    hcondition.exists_common (.evalCondition condition) (.block mode body) hbody
  have hround : Ends (fun engine => engine.loopRound mode condition body) m (.ok none m₂) :=
    .ok (n := n) ((bind_of_ok hcondition).trans ((bind_of_ok hbody).trans rfl))
  obtain ⟨k, hround, hloop⟩ :=
    hround.exists_common (.loopRound mode condition body) (.loop mode condition body) hloop
  exact ends_loop_iff.mpr (.ok (n := k) ((bind_of_ok hround).trans hloop))

theorem ends_branch_of_halted {mode : Mode} {condition : Expr} {body : List Stmt}
    {m m₁ m' : Machine} {v : Value}
    (hcondition : Ends (fun engine => engine.evalCondition condition) m (.ok true m₁))
    (hbody : Ends (fun engine => engine.block mode body) m₁ (.ok (.halted v) m')) :
    Ends (fun engine => engine.execStmt mode (.branch condition body)) m (.ok (.halt v) m') := by
  obtain ⟨n, hcondition, hbody⟩ :=
    hcondition.exists_common (.evalCondition condition) (.block mode body) hbody
  exact .ok (n := n) ((bind_of_ok hcondition).trans ((bind_of_ok hbody).trans rfl))

/-- Statements that run into a `return` halt. -/
theorem ReachesReturn.ends {stmts : List Stmt} {m inner : Machine} {v : Value} {text : String}
    (h : ReachesReturn stmts m v text inner) :
    Ends (fun engine => engine.execBlock .topLevel stmts) m
      (.ok (.halted v) (inner.noticed text)) := by
  -- on how the `return` is reached; a list ends when its first statement halts
  have hhead : ∀ {s rest m m' v},
      Ends (fun engine => engine.execStmt .topLevel s) m (.ok (.halt v) m') →
        Ends (fun engine => engine.execBlock .topLevel (s :: rest)) m (.ok (.halted v) m') :=
    fun hs => ends_execBlock_topLevel_iff.mpr (.inl ⟨_, hs, rfl⟩)
  induction h with
  | here evaluated rendered =>
    exact hhead (ends_return_iff.mpr ⟨_, _, _, _, evaluated, rendered, rfl, rfl⟩)
  | branch holds _ ih => exact hhead (ends_branch_of_halted holds (ends_block_iff.mpr ih))
  | loop holds _ ih => exact hhead (ends_loop_of_halted holds (ends_block_iff.mpr ih))
  | nextRound holds round _ ih =>
    -- the loop is entered one round earlier
    rcases ends_execBlock_topLevel_iff.mp ih with ⟨v, hloop, hv⟩ | ⟨m₃, hloop, hrest⟩
    · cases hv
      exact hhead (ends_loop_of_completed holds round hloop)
    · exact ends_execBlock_topLevel_iff.mpr
        (.inr ⟨m₃, ends_loop_of_completed holds round hloop, hrest⟩)
  | later first _ ih => exact ends_execBlock_topLevel_iff.mpr (.inr ⟨_, first, ih⟩)

/-- What the statement lists and loops of an engine halt by. -/
structure Engine.HaltsByReturn (engine : Engine) : Prop where
  block : ∀ {stmts m v m'}, engine.block .topLevel stmts m = .ok (.halted v) m' →
    HaltsBy stmts m v m'
  loop : ∀ {condition body m v m'}, engine.loop .topLevel condition body m = .ok (.halt v) m' →
    ∀ rest, HaltsBy (.loop condition body :: rest) m v m'

namespace Engine

variable {n : Nat}

/-- A statement halts by a `return` that it is or holds. -/
theorem HaltsByReturn.execStmt (h : (withFuel n).HaltsByReturn) {s : Stmt} {m m' : Machine}
    {v : Value} (hs : (withFuel n).execStmt .topLevel s m = .ok (.halt v) m') (rest : List Stmt) :
    HaltsBy (s :: rest) m v m' := by
  cases s with
  | ret value =>
    obtain ⟨v', m₁, text, m₂, hv, htext, ⟨⟩, rfl⟩ := ends_return_iff.mp (.ok hs)
    exact ⟨text, m₂, .here hv htext, rfl⟩
  | loop condition body => exact h.loop hs rest
  | branch condition body =>
    obtain ⟨holds, m₁, hcondition, hs⟩ := bind_eq_ok hs
    cases holds with
    | false => cases hs
    | true =>
      obtain ⟨exit, m₂, hbody, hs⟩ := bind_eq_ok hs
      cases exit with
      | halted v' =>
        cases hs
        obtain ⟨text, inner, hreturn, rfl⟩ := h.block hbody
        exact ⟨text, inner, .branch (.ok hcondition) hreturn, rfl⟩
      | completed | returned => cases hs
  | _ => cases execStmt_returns_next _ _ rfl _ _ _ hs

theorem HaltsByReturn.execBlock (h : (withFuel n).HaltsByReturn) {stmts : List Stmt}
    {m m' : Machine} {v : Value}
    (hstmts : (withFuel n).execBlock .topLevel stmts m = .ok (.halted v) m') :
    HaltsBy stmts m v m' := by
  induction stmts generalizing m with
  | nil => cases hstmts
  | cons s rest ih =>
    obtain ⟨flow, m₁, hs, hrest⟩ := bind_eq_ok hstmts
    cases flow with
    | halt v' =>
      cases hrest
      exact h.execStmt hs rest
    | next =>
      obtain ⟨text, inner, hreturn, rfl⟩ := ih hrest
      exact ⟨text, inner, .later (.ok hs) hreturn, rfl⟩

theorem HaltsByReturn.loopStep (h : (withFuel n).HaltsByReturn) {condition : Expr}
    {body : List Stmt} {m m' : Machine} {v : Value}
    (hloop : (withFuel n).loopStep .topLevel condition body m = .ok (.halt v) m')
    (rest : List Stmt) : HaltsBy (.loop condition body :: rest) m v m' := by
  obtain ⟨round, m₂, hround, hloop⟩ := bind_eq_ok hloop
  rcases loopRound_eq_ok hround with
    ⟨rfl, -⟩ | ⟨m₁, exit, hcondition, hbody, ⟨rfl, hexit⟩ | ⟨v', rfl, rfl⟩⟩
  · cases hloop
  · obtain ⟨text, inner, hreturn, rfl⟩ := h.loop hloop rest
    cases exit with
    | completed => exact ⟨text, inner, .nextRound (.ok hcondition) (.ok hbody) hreturn, rfl⟩
    | returned => cases (withFuel_keepsMode n).block .topLevel body _ _ _ hbody
    | halted v' => exact absurd rfl (hexit v')
  · cases hloop
    obtain ⟨text, inner, hreturn, rfl⟩ := h.block hbody
    exact ⟨text, inner, .loop (.ok hcondition) hreturn, rfl⟩

/-- **Halts.** At the top level, whatever halts has run into a `return`. -/
theorem withFuel_haltsByReturn (n : Nat) : (withFuel n).HaltsByReturn := by
  induction n with
  | zero =>
    constructor
    · rintro stmts m v m' ⟨⟩
    · rintro condition body m v m' ⟨⟩
  | succ n ih =>
    constructor
    · exact fun hstmts => ih.execBlock hstmts
    · intro condition body m v m' hloop rest
      rw [withFuel_succ] at hloop
      exact ih.loopStep hloop rest

end Engine

/-- **Programs.** A program ends with a value just if it runs into a `return` with that value outside
of all functions, and it ends there. -/
theorem ends_runProgram_iff {p : Program} {m m' : Machine} {v : Value} :
    Ends (fun engine => engine.runProgram p) m (.ok (.returned v) m') ↔
      ∃ text inner, ReachesReturn p.statements { m with scope := .topLevel } v text inner ∧
        m' = { inner.noticed text with scope := m.scope } := by
  constructor
  · intro h
    obtain ⟨n, hn⟩ := h.exists_fuel
    rw [Engine.runProgram] at hn
    rcases hblock : (Engine.withFuel n).block .topLevel p.statements { m with scope := .topLevel }
      with ⟨_ | v' | v', inner⟩ | _ | _ <;> rw [hblock] at hn <;> cases hn
    obtain ⟨text, inner, hreturn, rfl⟩ := (Engine.withFuel_haltsByReturn n).block hblock
    exact ⟨text, inner, hreturn, rfl⟩
  · rintro ⟨text, inner, hreturn, rfl⟩
    obtain ⟨n, hn⟩ := (ends_block_iff.mpr hreturn.ends).exists_fuel
    refine .ok (n := n) ?_
    rw [Engine.runProgram, hn]
    rfl

theorem Machine.output_noticed (m : Machine) (text : String) :
    (m.noticed text).console.output = m.console.output ++ "returned: " ++ text ++ "\n" := by
  simp only [noticed, Console.printLine, String.append_assoc]

/-- **What a `return` ends.** In a function no statement list halts, and at the top level none ends
by a `return` of its own. A call succeeds just if it is accepted and its body yields a value, which
is that of its first own `return` or undefined. A program ends with a value just if it runs into a
`return` with that value outside of all functions; nothing is done after the notice of it, which is
the end of the output. -/
theorem return_propagation :
    (∀ fuel stmts m v m', (Engine.withFuel fuel).block .inFunction stmts m ≠ .ok (.halted v) m') ∧
    (∀ fuel stmts m v m', (Engine.withFuel fuel).block .topLevel stmts m ≠ .ok (.returned v) m') ∧
    (∀ callable owner receiver args frame m v m',
      Ends (fun engine => engine.invoke callable owner receiver args frame) m (.ok v m') ↔
        ∃ calls inner, Engine.checkCall callable owner args frame m = .ok calls ∧
          Yields callable.body (Engine.enter callable receiver args calls m) v inner ∧
          m' = Engine.leave m.scope inner) ∧
    ∀ (p : Program) m v m',
      Ends (fun engine => engine.runProgram p) m (.ok (.returned v) m') ↔
        ∃ text inner, ReachesReturn p.statements { m with scope := .topLevel } v text inner ∧
          m' = { inner.noticed text with scope := m.scope } ∧
          m'.console.output = inner.console.output ++ "returned: " ++ text ++ "\n" := by
  refine ⟨fun fuel stmts m v m' h => ?_, fun fuel stmts m v m' h => ?_,
    fun callable owner receiver args frame m v m' => ends_invoke_iff, fun p m v m' => ?_⟩
  · cases (Engine.withFuel_keepsMode fuel).block .inFunction stmts m _ m' h
  · cases (Engine.withFuel_keepsMode fuel).block .topLevel stmts m _ m' h
  · rw [ends_runProgram_iff]
    constructor
    · rintro ⟨text, inner, hreturn, rfl⟩
      exact ⟨text, inner, hreturn, rfl, inner.output_noticed text⟩
    · rintro ⟨text, inner, hreturn, hm', -⟩
      exact ⟨text, inner, hreturn, hm'⟩

end FlannelScript
