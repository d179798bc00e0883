import FlannelScript.Proofs.Balance

/-!
# What holds across an evaluation

Many facts about an evaluation relate the machine before it and the machine after it, however it
ended. If such a relation holds across every single step, and what is done in the scope of a call
may be seen from the outside, then it holds across all that the interpreter does
(`Engine.withFuel_keeps`). A `Conduct` is such a relation. It comes in two strengths: what only
reads the names of the running scope may keep more than what binds them.
-/

namespace FlannelScript

open Eval Machine

/-- A relation between the machines before and after an evaluation, by the access that the
evaluation has to the running scope. -/
structure Conduct where
  across : Access → Machine → Machine → Prop
  refl : ∀ access m, across access m m
  trans : ∀ {access m m' m''}, across access m m' → across access m' m'' → across access m m''
  weaken : ∀ {m m'}, across .reads m m' → across .binds m m'
  newInstance : ∀ m properties, across .reads m { m with heap := (m.heap.alloc properties).1 }
  printLine : ∀ m line, across .reads m { m with console := m.console.printLine line }
  question : ∀ m prompt,
    across .reads m { m with console := (m.console.printLine prompt).readLine.2 }
  addClass : ∀ m info, across .reads m { m with classes := m.classes.declare info }
  addFunction : ∀ m name callable,
    across .reads m { m with functions := m.functions.insert name callable }
  declareLocal : ∀ m name v, across .binds m { m with scope := m.scope.declare name v }
  setProperty : ∀ {m loc name v heap}, m.heap.set? loc name v = some heap →
    across .binds m { m with heap }
  /-- what has been done in another scope, when the scope before it is back -/
  elsewhere : ∀ {m scope calls inner} calls', across .binds { m with scope, calls } inner →
    across .reads m { inner with scope := m.scope, calls := calls' }

/-- However the evaluation ends, the machines before and after it are related. -/
def Eval.Keeps {α : Type} (R : Machine → Machine → Prop) (x : Eval α) : Prop :=
  ∀ m m', (x m).machine? = some m' → R m m'

/-- What is kept by both halves of a sequence is kept by the sequence. -/
theorem Eval.Keeps.bind {α β : Type} {R : Machine → Machine → Prop} {x : Eval α} {f : α → Eval β}
    (hx : x.Keeps R) (htrans : ∀ {m m' m''}, R m m' → R m' m'' → R m m'')
    (hf : ∀ a, (f a).Keeps R) : (x >>= f).Keeps R := by
  intro m m' h
  rw [bind_apply] at h
  have hfirst := hx m
  generalize x m = r at h hfirst
  rcases r with ⟨a, m₁⟩ | ⟨e, m₁⟩ | _
  · exact htrans (hfirst m₁ rfl) (hf a m₁ m' h)
  · exact hfirst m' h
  · cases h

/-- The relation holds across all that the engine does. Only expressions leave the running scope
alone. -/
structure Engine.Keeps (c : Conduct) (engine : Engine) : Prop where
  eval : ∀ e, (engine.eval e).Keeps (c.across .reads)
  block : ∀ mode stmts, (engine.block mode stmts).Keeps (c.across .binds)
  body : ∀ stmts, (engine.body stmts).Keeps (c.across .binds)
  loop : ∀ mode condition body, (engine.loop mode condition body).Keeps (c.across .binds)

namespace Conduct

variable (c : Conduct) {α β : Type}

theorem of_reads {access : Access} {m m' : Machine} (h : c.across .reads m m') :
    c.across access m m' := by
  cases access with
  | reads => exact h
  | binds => exact c.weaken h

/-- What only looks at the machine. -/
theorem keeps_of_eq {access : Access} {x : Eval α} (h : ∀ m, (x m).machine? = some m) :
    x.Keeps (c.across access) := by
  intro m m' hm'
  rw [h m] at hm'
  cases hm'
  exact c.refl access m

theorem keeps_bind {access : Access} {x : Eval α} {f : α → Eval β}
    (hx : x.Keeps (c.across access)) (hf : ∀ a, (f a).Keeps (c.across access)) :
    (x >>= f).Keeps (c.across access) :=
  hx.bind c.trans hf

theorem keeps_traced {access : Access} {x : Eval α} (hx : x.Keeps (c.across access)) :
    (traced x).Keeps (c.across access) := by
  intro m m' hm'
  rw [machine?_traced] at hm'
  exact hx m m' hm'

theorem keeps_assign (name : String) (v : Value) :
    (Machine.assign name v).Keeps (c.across .binds) := by
  intro m m' hm'
  rcases assign_cases name v m with hok | ⟨loc, heap, -, hset, hok⟩ | herror
  · rw [hok] at hm'
    cases hm'
    exact c.declareLocal m name v
  · rw [hok] at hm'
    cases hm'
    exact c.setProperty hset
  · rw [herror] at hm'
    cases hm'
    exact c.refl .binds m

theorem keeps_question (prompt : String) :
    Eval.Keeps (c.across .reads) (do Machine.printLine prompt; Machine.readLine) := by
  intro m m' hm'
  have hread : m' = { m with console := (m.console.printLine prompt).readLine.2 } := by
    rw [bind_apply] at hm'
    simp only [Machine.printLine, change, Machine.readLine] at hm'
    split at hm' <;> cases hm' <;> rfl
  rw [hread]
  exact c.question m prompt

theorem keeps_invoke {engine : Engine} (h : engine.Keeps c) (callable : Callable)
    (owner : Option ClassRef) (receiver : Option Value) (args : List Value) (frame : String) :
    (engine.invoke callable owner receiver args frame).Keeps (c.across .reads) := by
  intro m m' hm'
  cases hcall : Engine.checkCall callable owner args frame m with
  | error f =>
    rw [engine.invoke_of_error receiver hcall] at hm'
    cases hm'
    exact c.refl .reads m
  | ok calls =>
    rw [engine.invoke_of_ok receiver hcall, Result.machine?_map, Option.map_eq_some_iff] at hm'
    obtain ⟨inner, hinner, rfl⟩ := hm'
    exact c.elsewhere inner.calls.pop (h.body callable.body _ inner hinner)

theorem keeps_runProgram {engine : Engine} (h : engine.Keeps c) (p : Program) :
    (engine.runProgram p).Keeps (c.across .reads) := by
  intro m m' hm'
  rw [Engine.runProgram, Result.machine?_map, Option.map_eq_some_iff] at hm'
  obtain ⟨inner, hinner, rfl⟩ := hm'
  exact c.elsewhere inner.calls
    (h.block .topLevel p.statements { m with scope := .topLevel, calls := m.calls } inner hinner)

end Conduct

/-- **One layer.** What holds across all steps holds across what is made of them. -/
theorem Deed.keeps {access : Access} {α : Type} {part : Engine → Eval α} (h : Deed access part)
    (c : Conduct) {engine : Engine} (hengine : engine.Keeps c) :
    (part engine).Keeps (c.across access) := by
  -- what holds across a step that only reads holds across it at any access
  have hreads : ∀ {access : Access} {α : Type} {x : Eval α}, x.Keeps (c.across .reads) →
      x.Keeps (c.across access) := fun hx m m' hm' => c.of_reads (hx m m' hm')
  induction h with
  | pure | raise | machine => exact c.keeps_of_eq fun _ => rfl
  | newInstance cls properties =>
    rintro m m' ⟨⟩
    exact c.of_reads (c.newInstance m properties)
  | printLine line =>
    rintro m m' ⟨⟩
    exact c.of_reads (c.printLine m line)
  | question prompt => exact hreads (c.keeps_question prompt)
  | addClass info =>
    rintro m m' ⟨⟩
    exact c.of_reads (c.addClass m info)
  | addFunction name callable =>
    rintro m m' ⟨⟩
    exact c.of_reads (c.addFunction m name callable)
  | declareLocal name v =>
    rintro m m' ⟨⟩
    exact c.declareLocal m name v
  | assign name v => exact c.keeps_assign name v
  | bind _ _ ihx ihf => exact c.keeps_bind ihx ihf
  | eval e => exact hreads (hengine.eval e)
  | block mode stmts => exact hengine.block mode stmts
  | loop mode condition body => exact hengine.loop mode condition body
  | invoke callable owner receiver args frame =>
    exact hreads (c.keeps_invoke hengine callable owner receiver args frame)

/-- **All layers.** -/
theorem Engine.withFuel_keeps (c : Conduct) (n : Nat) : (withFuel n).Keeps c := by
  induction n with
  | zero => exact ⟨fun _ _ _ => nofun, fun _ _ _ _ => nofun, fun _ _ _ => nofun,
      fun _ _ _ _ _ => nofun⟩
  | succ n ih =>
    have hblock : ∀ mode stmts, ((withFuel n).execBlock mode stmts).Keeps (c.across .binds) :=
      fun mode stmts => (Deed.execBlock mode stmts).keeps c ih
    rw [withFuel_succ]
    refine ⟨fun e => ?_, hblock, fun stmts => c.keeps_traced (hblock .inFunction stmts),
      fun mode condition body => ?_⟩
    · exact (Deed.evalExpr e).keeps c ih
    · exact (Deed.loopStep mode condition body).keeps c ih

end FlannelScript
