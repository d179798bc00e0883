import FlannelScript.Proofs.ReturnFlow
import FlannelScript.Proofs.Scoping

/-!
# One after the other

A statement list that is put together from two is run by running the first and then, if that came to
its end, the second on the machine that the first one left (`Engine.execBlock_append`).

For programs this is not quite so, since each program starts in a scope of its own. A program that is
behind another one in the same list can use the variables that the first one declared; a program that
is run after it cannot. But that is all: a program that declares no variables outside of functions
and methods (`Program.varFree`) leaves the scope of its top level as empty as it was, and then there
is no difference between two runs on one machine and the run of both in one (`runProgram_append`).
-/

namespace FlannelScript

open Eval

/-! ## Statement lists -/

/-- Go on after a statement list that ran to its end; every other exit is final. -/
def BlockExit.andThen (next : Eval BlockExit) : BlockExit → Eval BlockExit
  | completed => next
  | returned v => pure (.returned v)
  | halted v => pure (.halted v)

namespace Engine

/-- A function ends its list with a `return` that stands in it. -/
theorem execBlock_return (engine : Engine) (value : Expr) (rest : List Stmt) :
    engine.execBlock .inFunction (.ret value :: rest) = (do
      let v ← engine.eval value
      pure (.returned v)) := rfl

theorem execBlock_append (engine : Engine) (mode : Mode) (first second : List Stmt) :
    engine.execBlock mode (first ++ second) =
      engine.execBlock mode first >>= BlockExit.andThen (engine.execBlock mode second) := by
  induction first with
  | nil => rfl
  | cons s rest ih =>
    by_cases hs : mode = .inFunction ∧ s.isReturn = true
    · -- the list ends here, whatever follows
      obtain ⟨rfl, hs⟩ := hs
      cases s with
      | ret value =>
        rw [List.cons_append, execBlock_return, execBlock_return, bind_assoc]
        rfl
      | _ => cases hs
    · have hs : mode = .inFunction → s.isReturn = false := by simpa using hs
      rw [List.cons_append, execBlock_cons engine hs, execBlock_cons engine hs, bind_assoc]
      refine bind_congr fun flow => ?_
      cases flow with
      | next => exact ih
      | halt v => rfl

/-- **Lists one after the other**, with any amount of fuel. -/
theorem block_append (fuel : Nat) (mode : Mode) (first second : List Stmt) :
    (withFuel fuel).block mode (first ++ second) =
      (withFuel fuel).block mode first >>=
        BlockExit.andThen ((withFuel fuel).block mode second) := by
  cases fuel with
  | zero => rfl
  | succ n => exact (withFuel n).execBlock_append mode first second

end Engine

/-! ## Code that declares no variables -/

mutual

/-- Whether a statement declares no variable, those in the bodies of functions and methods apart. -/
def Stmt.varFree : Stmt → Bool
  | .varDecl _ _ _ => false
  | .loop _ body => blockVarFree body
  | .branch _ body => blockVarFree body
  | .assign _ _ | .call _ _ | .methodCall _ _ _ | .echo _ | .ret _ | .classDecl _
  | .functionDecl _ => true

/-- Whether a statement list declares no variable. -/
def blockVarFree : List Stmt → Bool
  | [] => true
  | s :: rest => s.varFree && blockVarFree rest

end

/-- Whether a program declares no variable outside of functions and methods. -/
def Program.varFree (p : Program) : Bool := blockVarFree p.statements

/-- The same names are bound in the running scope, and they are looked up in the same places. -/
structure Machine.SameNames (m m' : Machine) : Prop where
  locals : ∀ name, m'.scope.locals.contains name = m.scope.locals.contains name
  receiver : m'.scope.receiver = m.scope.receiver
  constants : m'.scope.constants = m.scope.constants

namespace Machine.SameNames

variable {m m' m'' : Machine}

theorem of_scope (h : m'.scope = m.scope) : m.SameNames m' := by
  refine ⟨fun name => ?_, ?_, ?_⟩ <;> rw [h]

theorem trans (h : m.SameNames m') (h' : m'.SameNames m'') : m.SameNames m'' where
  locals name := (h'.locals name).trans (h.locals name)
  receiver := h'.receiver.trans h.receiver
  constants := h'.constants.trans h.constants

/-- Binding a local that is bound. -/
theorem declare {name : String} (h : m.scope.locals.contains name = true) (v : Value) :
    m.SameNames { m with scope := m.scope.declare name v } where
  locals other := by
    change (m.scope.locals.insert name v).contains other = m.scope.locals.contains other
    rw [Bindings.contains, Bindings.get?_insert]
    split
    · rename_i heq
      rw [← heq, h]
      rfl
    · rfl
  receiver := rfl
  constants := rfl

end Machine.SameNames

theorem Bindings.eq_empty_of_contains {α : Type} {t : Bindings α}
    (h : ∀ name, t.contains name = false) : t = ∅ := by
  obtain ⟨_ | ⟨⟨k, a⟩, rest⟩⟩ := t
  · rfl
  · have hk := h k
    rw [contains, get?, find, if_pos rfl] at hk
    cases hk

/-- A top level on which nothing is bound stays as it is. -/
theorem Machine.SameNames.topLevel {m m' : Machine} (h : m.SameNames m')
    (hm : m.scope = .topLevel) : m'.scope = .topLevel := by
  have hlocals : m'.scope.locals = ∅ := by
    refine Bindings.eq_empty_of_contains fun name => ?_
    rw [h.locals, hm]
    rfl
  calc m'.scope = ⟨m'.scope.locals, m'.scope.receiver, m'.scope.constants⟩ := rfl
    _ = ⟨∅, m.scope.receiver, m.scope.constants⟩ := by rw [hlocals, h.receiver, h.constants]
    _ = .topLevel := by rw [hm]; rfl

/-- An assignment binds no name. -/
theorem Machine.assign_keeps_sameNames (name : String) (v : Value) :
    (assign name v).Keeps SameNames := by
  intro m m' hm'
  rw [assign, Scope.update?] at hm'
  by_cases hlocal : m.scope.locals.contains name = true
  · rw [if_pos hlocal] at hm'
    cases hm'
    exact .declare hlocal v
  · rw [if_neg hlocal] at hm'
    cases hset : m.scope.receiverLoc?.bind fun loc => m.heap.set? loc name v with
    | none =>
      rw [hset] at hm'
      cases hm'
      exact .of_scope rfl
    | some heap =>
      rw [hset] at hm'
      cases hm'
      exact .of_scope rfl

/-- Where no variable is declared, the engine binds no names. -/
structure Engine.KeepsNames (engine : Engine) : Prop where
  block : ∀ mode stmts, blockVarFree stmts = true →
    (engine.block mode stmts).Keeps Machine.SameNames
  loop : ∀ mode condition body, blockVarFree body = true →
    (engine.loop mode condition body).Keeps Machine.SameNames

namespace Engine.KeepsNames

variable {engine : Engine}

/-- What only reads the running scope. -/
theorem of_reads (hscoping : engine.Keeps .scoping) {α : Type} {part : Engine → Eval α}
    (hpart : Deed .reads part) : (part engine).Keeps Machine.SameNames := by
  intro m m' hm'
  exact .of_scope (hpart.keeps .scoping hscoping m m' hm').1

variable (h : engine.KeepsNames) (hscoping : engine.Keeps .scoping)
include h hscoping

theorem loopRound (mode : Mode) (condition : Expr) {body : List Stmt}
    (hbody : blockVarFree body = true) :
    (engine.loopRound mode condition body).Keeps Machine.SameNames := by
  refine (of_reads hscoping (.evalCondition condition)).bind .trans fun holds => ?_
  cases holds with
  | false => exact of_reads hscoping (.pure _)
  | true =>
    refine (h.block mode body hbody).bind .trans fun exit => ?_
    cases exit <;> exact of_reads hscoping (.pure _)

theorem loopStep (mode : Mode) (condition : Expr) {body : List Stmt}
    (hbody : blockVarFree body = true) :
    (engine.loopStep mode condition body).Keeps Machine.SameNames := by
  refine (h.loopRound hscoping mode condition hbody).bind .trans fun round => ?_
  cases round with
  | none => exact h.loop mode condition body hbody
  | some flow => exact of_reads hscoping (.pure flow)

theorem execStmt (mode : Mode) {s : Stmt} (hs : s.varFree = true) :
    (engine.execStmt mode s).Keeps Machine.SameNames := by
  cases s with
  | varDecl => cases hs
  | assign name value =>
    refine (of_reads hscoping (.eval value)).bind .trans fun v => ?_
    exact (Machine.assign_keeps_sameNames name v).bind .trans fun _ => of_reads hscoping (.pure _)
  | loop condition body => exact h.loop mode condition body hs
  | branch condition body =>
    refine (of_reads hscoping (.evalCondition condition)).bind .trans fun holds => ?_
    cases holds with
    | false => exact of_reads hscoping (.pure _)
    | true => exact (h.block mode body hs).bind .trans fun _ => of_reads hscoping (.pure _)
  | call function args => exact of_reads hscoping (.bind (.evalCall function args) fun _ => .pure _)
  | methodCall object method args =>
    exact of_reads hscoping (.bind (.evalMethodCall object method args) fun _ => .pure _)
  | echo value =>
    exact of_reads hscoping (.bind (.eval value) fun v => .bind (.renderValue v) fun _ =>
      .bind (.printLine _) fun _ => .pure _)
  | ret value =>
    exact of_reads hscoping (.bind (.eval value) fun v => .bind (.renderValue v) fun _ =>
      .bind (.printLine _) fun _ => .pure _)
  | classDecl d => exact of_reads hscoping (.bind (.declareClass d) fun _ => .pure _)
  | functionDecl d => exact of_reads hscoping (.bind (.declareFunction d) fun _ => .pure _)

theorem execBlock (mode : Mode) {stmts : List Stmt} (hstmts : blockVarFree stmts = true) :
    (engine.execBlock mode stmts).Keeps Machine.SameNames := by
  induction stmts with
  | nil => exact of_reads hscoping (.pure _)
  | cons s rest ih =>
    rw [blockVarFree, Bool.and_eq_true] at hstmts
    simp only [Engine.execBlock]
    split
    · exact of_reads hscoping (.bind (.eval _) fun _ => .pure _)
    · refine (h.execStmt hscoping mode hstmts.1).bind .trans fun flow => ?_
      cases flow with
      | next => exact ih hstmts.2
      | halt v => exact of_reads hscoping (.pure _)

end Engine.KeepsNames

/-- **No variable is declared, no name is bound.** -/
theorem Engine.withFuel_keepsNames (n : Nat) : (withFuel n).KeepsNames := by
  induction n with
  | zero => exact ⟨fun _ _ _ _ _ => nofun, fun _ _ _ _ _ _ => nofun⟩
  | succ n ih =>
    have hscoping := withFuel_keeps .scoping n
    rw [withFuel_succ]
    exact ⟨fun mode _ hstmts => ih.execBlock hscoping mode hstmts,
      fun mode condition _ hbody => ih.loopStep hscoping mode condition hbody⟩

/-! ## Programs -/

instance : Append Program := ⟨fun p q => ⟨p.statements ++ q.statements⟩⟩

/-- Go on after a program that completed; a `return` at its top level is final. -/
def Outcome.andThen (next : Eval Outcome) : Outcome → Eval Outcome
  | completed => next
  | returned v => pure (.returned v)

/-- **Programs one after the other**, with any amount of fuel. -/
theorem runProgram_append (fuel : Nat) {p : Program} (hp : p.varFree = true) (q : Program) :
    (Engine.withFuel fuel).runProgram (p ++ q) =
      (Engine.withFuel fuel).runProgram p >>=
        Outcome.andThen ((Engine.withFuel fuel).runProgram q) := by
  funext m
  have hnames := (Engine.withFuel_keepsNames fuel).block .topLevel p.statements hp
    { m with scope := .topLevel }
  have hmode := (Engine.withFuel_keepsMode fuel).block .topLevel p.statements
    { m with scope := .topLevel }
  change Result.map _ _ ((Engine.withFuel fuel).block .topLevel (p.statements ++ q.statements)
    { m with scope := .topLevel }) = _
  rw [Engine.block_append, bind_apply, bind_apply, Engine.runProgram]
  generalize (Engine.withFuel fuel).block .topLevel p.statements { m with scope := .topLevel } = r
    at hnames hmode
  rcases r with ⟨_ | v | v, inner⟩ | ⟨e, inner⟩ | _
  · -- the second program starts in the scope that the first one left
    have hscope : inner.scope = .topLevel := (hnames inner rfl).topLevel rfl
    have hinner : { inner with scope := .topLevel } = inner := by rw [← hscope]
    change Result.map _ _ ((Engine.withFuel fuel).block .topLevel q.statements inner) =
      Result.map _ _ ((Engine.withFuel fuel).block .topLevel q.statements
        { inner with scope := .topLevel })
    rw [hinner]
  · -- a list at the top level has no `return` of its own
    cases hmode _ inner rfl
  · rfl
  · rfl
  · rfl

/-! ## Ends -/

/-- What goes on after one of the values that it can return, and returns every other one. -/
theorem Ends.andThen_iff {α : Type} (done : α) {x next : Engine → Eval α}
    {f : α → Engine → Eval α} (hx : Part x) (hnext : Part next) (hdone : f done = next)
    (hother : ∀ a, a ≠ done → f a = fun _ => pure a) {m : Machine} {r : Result α} :
    Ends (fun engine => x engine >>= fun a => f a engine) m r ↔
      (∃ m₁, Ends x m (.ok done m₁) ∧ Ends next m₁ r) ∨
      Ends x m r ∧ ∀ m₁, r ≠ .ok done m₁ := by
  have hf : ∀ a, Part (f a) := by
    intro a
    by_cases ha : a = done
    · rwa [ha, hdone]
    · rw [hother a ha]
      exact .pure a
  rw [sequence_iff hx hf]
  constructor
  · rintro (⟨a, m₁, h, h'⟩ | ⟨e, m₁, h, rfl⟩)
    · by_cases ha : a = done
      · subst ha
        exact .inl ⟨m₁, h, hdone ▸ h'⟩
      · rw [hother a ha] at h'
        obtain ⟨-, rfl⟩ := const_iff.mp h'
        refine .inr ⟨h, ?_⟩
        rintro m₂ ⟨⟩
        exact ha rfl
    · exact .inr ⟨h, nofun⟩
  · rintro (⟨m₁, h, h'⟩ | ⟨h, hr⟩)
    · exact .inl ⟨done, m₁, h, hdone.symm ▸ h'⟩
    · rcases r with ⟨a, m₁⟩ | ⟨e, m₁⟩ | _
      · refine .inl ⟨a, m₁, h, ?_⟩
        rw [hother a fun ha => hr m₁ (by rw [ha])]
        exact const_iff.mpr ⟨nofun, rfl⟩
      · exact .inr ⟨e, m₁, h, rfl⟩
      · exact absurd rfl h.1

theorem ends_block_append_iff {mode : Mode} {first second : List Stmt} {m : Machine}
    {r : Result BlockExit} :
    Ends (fun engine => engine.block mode (first ++ second)) m r ↔
      (∃ m₁, Ends (fun engine => engine.block mode first) m (.ok .completed m₁) ∧
        Ends (fun engine => engine.block mode second) m₁ r) ∨
      Ends (fun engine => engine.block mode first) m r ∧ ∀ m₁, r ≠ .ok .completed m₁ := by
  have hends : Ends (fun engine => engine.block mode (first ++ second)) m r ↔
      Ends (fun engine => engine.block mode first >>= fun exit =>
        exit.andThen (engine.block mode second)) m r := by
    simp only [Ends, Engine.block_append]
  rw [hends]
  refine Ends.andThen_iff .completed
    (f := fun exit engine => exit.andThen (engine.block mode second)) (.block mode first)
    (.block mode second) rfl fun exit hexit => ?_
  cases exit with
  | completed => exact absurd rfl hexit
  | returned v | halted v => rfl

theorem ends_runProgram_append_iff {p : Program} (hp : p.varFree = true) {q : Program} {m : Machine}
    {r : Result Outcome} :
    Ends (fun engine => engine.runProgram (p ++ q)) m r ↔
      (∃ m₁, Ends (fun engine => engine.runProgram p) m (.ok .completed m₁) ∧
        Ends (fun engine => engine.runProgram q) m₁ r) ∨
      Ends (fun engine => engine.runProgram p) m r ∧ ∀ m₁, r ≠ .ok .completed m₁ := by
  have hends : Ends (fun engine => engine.runProgram (p ++ q)) m r ↔
      Ends (fun engine => engine.runProgram p >>= fun outcome =>
        outcome.andThen (engine.runProgram q)) m r := by
    simp only [Ends, runProgram_append _ hp]
  rw [hends]
  refine Ends.andThen_iff .completed
    (f := fun outcome engine => outcome.andThen (engine.runProgram q)) (.program p)
    (.program q) rfl fun outcome houtcome => ?_
  cases outcome with
  | completed => exact absurd rfl houtcome
  | returned v => rfl

/-- **One after the other.** Two statement lists in one are run as the first and, if that comes to
its end, the second on the machine and in the scope that the first one leaves; this holds with any
amount of fuel, so it holds however the lists end and if they never do. Two programs in one are run
as the first and, if that completes, the second on the same machine, if the first declares no
variable outside of functions and methods: the outcome or error is the same, and so is the machine
with all that was printed, read, declared and stored. -/
theorem sequential_composition :
    (∀ fuel mode first second,
      (Engine.withFuel fuel).block mode (first ++ second) =
        (Engine.withFuel fuel).block mode first >>=
          BlockExit.andThen ((Engine.withFuel fuel).block mode second)) ∧
    (∀ mode first second m r,
      Ends (fun engine => engine.block mode (first ++ second)) m r ↔
        (∃ m₁, Ends (fun engine => engine.block mode first) m (.ok .completed m₁) ∧
          Ends (fun engine => engine.block mode second) m₁ r) ∨
        Ends (fun engine => engine.block mode first) m r ∧ ∀ m₁, r ≠ .ok .completed m₁) ∧
    ∀ p q : Program, p.varFree = true →
      (∀ fuel, (p ++ q).run fuel = p.run fuel >>= Outcome.andThen (q.run fuel)) ∧
      ∀ m r, Ends (fun engine => engine.runProgram (p ++ q)) m r ↔
        (∃ m₁, Ends (fun engine => engine.runProgram p) m (.ok .completed m₁) ∧
          Ends (fun engine => engine.runProgram q) m₁ r) ∨
        Ends (fun engine => engine.runProgram p) m r ∧ ∀ m₁, r ≠ .ok .completed m₁ := by
  refine ⟨Engine.block_append, fun mode first second m r => ends_block_append_iff,
    fun p q hp => ⟨fun fuel => ?_, fun m r => ends_runProgram_append_iff hp⟩⟩
  exact runProgram_append fuel hp q

/-- A function that declares a variable, and a call of it in a condition. -/
def variableInFunction : Program :=
  ⟨[.functionDecl ⟨"f", [], "Und", [.varDecl "Und" "x" (.name "und"), .echo (.name "x")]⟩,
    .branch (.not (.ofBool false)) [.call "f" []]]⟩

/-- A call of the function, and a use of its variable outside of it. -/
def variableOutside : Program := ⟨[.call "f" [], .echo (.name "x")]⟩

/-- The function stays declared for the second program and its variable does not, in two runs as in
one. -/
theorem sequential_composition_variable_in_function :
    variableInFunction.varFree = true ∧
    ∃ m₁ m', Ends (fun engine => engine.runProgram variableInFunction) (.fresh {} none)
        (.ok .completed m₁) ∧
      m₁.console.output = "und\n" ∧
      Ends (fun engine => engine.runProgram variableOutside) m₁
        (.error ⟨.unboundVariable "x", []⟩ m') ∧
      m'.console.output = "und\nund\n" ∧
      Ends (fun engine => engine.runProgram (variableInFunction ++ variableOutside))
        (.fresh {} none) (.error ⟨.unboundVariable "x", []⟩ m') := by
  obtain ⟨-, hprograms⟩ := sequential_composition.2.2 variableInFunction variableOutside rfl
  refine ⟨rfl, _, _, ⟨nofun, 9, rfl⟩, rfl, ⟨nofun, 9, rfl⟩, rfl, ?_⟩
  exact (hprograms _ _).mpr (.inl ⟨_, ⟨nofun, 9, rfl⟩, nofun, 9, rfl⟩)

end FlannelScript
