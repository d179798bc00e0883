import FlannelScript.Proofs.Evaluation
import FlannelScript.Proofs.Layers

/-!
# The call stack is balanced and bounded

Whatever is evaluated, and however it ends, the call stack is afterwards what it was before
(`Eval.Balanced`). A call is the only step that touches it, and it takes back its frame on every way
out.

The depth of calls never passes the limit, neither in the end nor on the way. To say so, the
interpreter is put under the observation of a guard that looks at the call stack before and after
every expression, statement list, body and loop, and raises an alarm if the stack is too deep
(`Watch.guard`): whatever the alarm would be, the guarded interpreter gives the same results.

The fault that tells of the limit is raised at the limit only, so it is always reported with as many
calls as the limit allows (`Eval.LimitTold`).
-/

namespace FlannelScript

open Eval Machine

/-! ## Balance -/

/-- The machine that an evaluation left, if it ended. -/
def Result.machine? {α : Type} : Result α → Option Machine
  | ok _ m => some m
  | error _ m => some m
  | outOfFuel => none

theorem Result.exists_of_map_eq_error {α β : Type} {f : α → β} {g : Machine → Machine}
    {r : Result α} {e : EvalError} {m : Machine} (h : r.map f g = .error e m) :
    ∃ inner, r = .error e inner ∧ m = g inner := by
  cases r with
  | ok | outOfFuel => cases h
  | error e' inner =>
    cases h
    exact ⟨inner, rfl, rfl⟩

theorem Result.machine?_map {α β : Type} (f : α → β) (g : Machine → Machine) (r : Result α) :
    (r.map f g).machine? = r.machine?.map g := by
  cases r <;> rfl

theorem Result.exists_machine?_of_ne {α : Type} {r : Result α} (h : r ≠ .outOfFuel) :
    ∃ m, r.machine? = some m := by
  cases r with
  | ok _ m | error _ m => exact ⟨m, rfl⟩
  | outOfFuel => exact absurd rfl h

namespace Eval

variable {α β : Type}

theorem machine?_traced (x : Eval α) (m : Machine) : (traced x m).machine? = (x m).machine? := by
  rw [traced]
  cases x m <;> rfl

/-- However the evaluation ends, the call stack is as it was. -/
def Balanced (x : Eval α) : Prop := ∀ m m', (x m).machine? = some m' → m'.calls = m.calls

theorem Balanced.of_ok {x : Eval α} (h : x.Balanced) {m m' : Machine} {a : α}
    (hx : x m = .ok a m') : m'.calls = m.calls :=
  h m m' (by rw [hx]; rfl)

theorem Balanced.of_error {x : Eval α} (h : x.Balanced) {m m' : Machine} {e : EvalError}
    (hx : x m = .error e m') : m'.calls = m.calls :=
  h m m' (by rw [hx]; rfl)

theorem Balanced.bind {x : Eval α} {f : α → Eval β} (hx : x.Balanced)
    (hf : ∀ a, (f a).Balanced) : (x >>= f).Balanced := by
  intro m m' h
  rw [bind_apply] at h
  rcases hm : x m with ⟨a, m₁⟩ | ⟨e, m₁⟩ | _ <;> rw [hm] at h
  · rw [hf a m₁ m' h, hx.of_ok hm]
  · cases h
    exact hx.of_error hm
  · cases h

theorem Balanced.traced {x : Eval α} (h : x.Balanced) : (traced x).Balanced := by
  intro m m' hm'
  rcases hm : x m with ⟨a, m₁⟩ | ⟨e, m₁⟩ | _ <;> simp only [Eval.traced, hm] at hm' <;> cases hm'
  · exact h.of_ok hm
  · exact h.of_error hm

end Eval

theorem Primitive.balanced {α : Type} {x : Eval α} (h : Primitive x) : x.Balanced := by
  intro m m' hm'
  rcases h.ok_or_error m with ⟨a, m₁, hx, hcalls⟩ | ⟨f, m₁, hx, -, hcalls⟩ <;> rw [hx] at hm' <;>
    cases hm' <;> exact hcalls

namespace Engine

/-- All that the engine does is balanced. -/
abbrev Balanced (engine : Engine) : Prop :=
  engine.Related (fun x _ => x.Balanced) (fun x _ => x.Balanced) engine

/-- A call that is accepted has its frame on top of the stack. -/
theorem push_of_checkCall {callable : Callable} {owner : Option ClassRef} {args : List Value}
    {frame : String} {m : Machine} {calls : CallStack}
    (h : checkCall callable owner args frame m = .ok calls) : m.calls.push frame = .ok calls := by
  rw [checkCall] at h
  split at h
  · cases h
  · obtain ⟨-, -, h⟩ := exists_of_bind_eq_ok h
    exact h

theorem Balanced.invoke {engine : Engine} (h : engine.Balanced) (callable : Callable)
    (owner : Option ClassRef) (receiver : Option Value) (args : List Value) (frame : String) :
    (engine.invoke callable owner receiver args frame).Balanced := by
  intro m m' hm'
  cases hcall : checkCall callable owner args frame m with
  | error f =>
    rw [engine.invoke_of_error receiver hcall] at hm'
    cases hm'
    rfl
  | ok calls =>
    rw [engine.invoke_of_ok receiver hcall, Result.machine?_map, Option.map_eq_some_iff] at hm'
    obtain ⟨inner, hinner, rfl⟩ := hm'
    rw [leave, h.body _ _ _ hinner]
    exact CallStack.pop_of_push (push_of_checkCall hcall)

theorem Balanced.runProgram {engine : Engine} (h : engine.Balanced) (p : Program) :
    (engine.runProgram p).Balanced := by
  intro m m' hm'
  rw [Engine.runProgram, Result.machine?_map, Option.map_eq_some_iff] at hm'
  obtain ⟨inner, hinner, rfl⟩ := hm'
  exact h.block .topLevel p.statements { m with scope := .topLevel } inner hinner

end Engine

/-- **Balance of the parts.** -/
theorem Part.balanced {α : Type} {part : Engine → Eval α} (h : Part part) {engine : Engine}
    (hengine : engine.Balanced) : (part engine).Balanced := by
  induction h with
  | primitive h => exact h.balanced
  | bind _ _ ihx ihf => exact ihx.bind ihf
  | eval e => exact hengine.eval e
  | block mode stmts => exact hengine.block mode stmts
  | loop mode condition body => exact hengine.loop mode condition body
  | invoke callable owner receiver args frame =>
    exact hengine.invoke callable owner receiver args frame
  | program p => exact hengine.runProgram p

/-- **Balance of the interpreter.** -/
theorem Engine.withFuel_balanced (n : Nat) : (withFuel n).Balanced := by
  have hrelated : (Watch.plain.engine n).Related (fun x _ => x.Balanced) (fun x _ => x.Balanced)
      (withFuel n) := by
    refine Watch.related_withFuel ?_ ?_ ?_ ?_ n
    · rintro α m m' ⟨⟩
    · rintro m m' ⟨⟩
    · intro n ih α part h
      rw [Watch.engine_plain] at ih ⊢
      exact h.balanced ih
    · intro n part _ h
      exact h.traced
  rwa [Watch.engine_plain] at hrelated

/-! ## The bound on the way -/

/-- Whether there are no more active calls than the limit allows. -/
def CallStack.withinLimit (s : CallStack) : Bool := s.maxDepth.all fun max => s.depth ≤ max

theorem CallStack.withinLimit_iff {s : CallStack} :
    s.withinLimit = true ↔ ∀ max, s.maxDepth = some max → s.depth ≤ max := by
  rw [withinLimit]
  cases s.maxDepth <;> simp

/-- A call that is entered is within the limit. -/
theorem CallStack.withinLimit_of_push {s t : CallStack} {frame : String}
    (h : s.push frame = .ok t) : t.withinLimit = true := by
  obtain ⟨rfl, -⟩ := push_eq_ok h
  rw [withinLimit_iff]
  intro max hmax
  refine Nat.le_of_not_lt fun hgt => ?_
  have hle : max ≤ s.depth := Nat.le_of_lt_succ hgt
  have herror : s.push frame = .error (.recursionLimit max) :=
    push_eq_error_iff.mpr ⟨max, hmax, hle, rfl⟩
  rw [herror] at h
  cases h

/-- Raise an alarm if there are too many active calls before or after an evaluation. -/
def Eval.guarded {α : Type} (alarm : EvalError) (x : Eval α) : Eval α := fun m =>
  if m.calls.withinLimit then
    match x m with
    | .ok a m' => if m'.calls.withinLimit then .ok a m' else .error alarm m'
    | .error e m' => if m'.calls.withinLimit then .error e m' else .error alarm m'
    | .outOfFuel => .outOfFuel
  else .error alarm m

/-- Keep a guard on the depth of calls. -/
def Watch.guard (alarm : EvalError) : Watch where
  run part engine := guarded alarm (part engine)
  leave := traced

/-- Two evaluations do the same from machines within the limit. -/
def Eval.AgreeWithin {α : Type} (x y : Eval α) : Prop :=
  ∀ m, m.calls.withinLimit = true → x m = y m

/-- Two engines do the same on machines within the limit. -/
abbrev Engine.AgreeWithin (engine engine' : Engine) : Prop :=
  engine.Related Eval.AgreeWithin Eval.AgreeWithin engine'

namespace Eval.AgreeWithin

variable {α β : Type} {x y : Eval α}

theorem bind {f g : α → Eval β} (hx : x.AgreeWithin y) (hbalanced : y.Balanced)
    (hf : ∀ a, (f a).AgreeWithin (g a)) : (x >>= f).AgreeWithin (y >>= g) := by
  intro m hm
  rw [bind_apply, bind_apply, hx m hm]
  rcases hy : y m with ⟨a, m₁⟩ | ⟨e, m₁⟩ | _
  · -- the first half is balanced, so the second one starts within the limit, too
    refine hf a m₁ ?_
    rwa [hbalanced.of_ok hy]
  · rfl
  · rfl

theorem traced (h : x.AgreeWithin y) : (traced x).AgreeWithin (Eval.traced y) := by
  intro m hm
  rw [Eval.traced, Eval.traced, h m hm]

/-- A guard does not change a balanced evaluation that starts within the limit. -/
theorem guarded (h : x.AgreeWithin y) (hbalanced : y.Balanced) (alarm : EvalError) :
    (guarded alarm x).AgreeWithin y := by
  intro m hm
  rw [Eval.guarded, if_pos hm, h m hm]
  rcases hy : y m with ⟨a, m'⟩ | ⟨e, m'⟩ | _
  · dsimp only
    rw [hbalanced.of_ok hy, if_pos hm]
  · dsimp only
    rw [hbalanced.of_error hy, if_pos hm]
  · rfl

end Eval.AgreeWithin

theorem Engine.AgreeWithin.invoke {engine engine' : Engine} (h : engine.AgreeWithin engine')
    (callable : Callable) (owner : Option ClassRef) (receiver : Option Value) (args : List Value)
    (frame : String) :
    (engine.invoke callable owner receiver args frame).AgreeWithin
      (engine'.invoke callable owner receiver args frame) := by
  intro m hm
  cases hcall : checkCall callable owner args frame m with
  | error f => rw [engine.invoke_of_error receiver hcall, engine'.invoke_of_error receiver hcall]
  | ok calls =>
    have hcalls := CallStack.withinLimit_of_push (push_of_checkCall hcall)
    rw [engine.invoke_of_ok receiver hcall, engine'.invoke_of_ok receiver hcall,
      h.body _ (enter callable receiver args calls m) hcalls]

theorem Engine.AgreeWithin.runProgram {engine engine' : Engine} (h : engine.AgreeWithin engine')
    (p : Program) : (engine.runProgram p).AgreeWithin (engine'.runProgram p) := by
  intro m hm
  rw [Engine.runProgram, Engine.runProgram,
    h.block .topLevel p.statements { m with scope := .topLevel } hm]

/-- Parts cannot tell engines apart that do the same within the limit. -/
theorem Part.agreeWithin {α : Type} {part : Engine → Eval α} (h : Part part)
    {engine engine' : Engine} (hagree : engine.AgreeWithin engine') (hbalanced : engine'.Balanced) :
    (part engine).AgreeWithin (part engine') := by
  induction h with
  | primitive h => exact fun m _ => rfl
  | bind hx _ ihx ihf => exact ihx.bind (hx.balanced hbalanced) ihf
  | eval e => exact hagree.eval e
  | block mode stmts => exact hagree.block mode stmts
  | loop mode condition body => exact hagree.loop mode condition body
  | invoke callable owner receiver args frame =>
    exact hagree.invoke callable owner receiver args frame
  | program p => exact hagree.runProgram p

/-- **The bound.** The guard never raises its alarm. -/
theorem Watch.agreeWithin_guard (alarm : EvalError) (n : Nat) :
    ((Watch.guard alarm).engine n).AgreeWithin (Engine.withFuel n) := by
  refine Watch.related_withFuel (fun _ _ => rfl) (fun _ _ => rfl) ?_ ?_ n
  · intro n ih α part h
    have hbalanced := Engine.withFuel_balanced n
    exact (h.agreeWithin ih hbalanced).guarded (h.balanced hbalanced) alarm
  · intro n part _ h
    exact h.traced

/-! ## The limit -/

namespace Eval

variable {α β : Type}

/-- Within the limit, the fault that tells of the limit tells the limit of the machine; it comes
without a backtrace from evaluations at the limit, and else with one as long as the limit. -/
def LimitTold (x : Eval α) : Prop :=
  ∀ m, m.calls.withinLimit = true → ∀ d b m', x m = .error ⟨.recursionLimit d, b⟩ m' →
    m.calls.maxDepth = some d ∧ (b = [] ∧ m.calls.depth = d ∨ b ≠ [] ∧ b.length = d)

theorem LimitTold.bind {x : Eval α} {f : α → Eval β} (hx : x.LimitTold) (hbalanced : x.Balanced)
    (hf : ∀ a, (f a).LimitTold) : (x >>= f).LimitTold := by
  intro m hm d b m' h
  rcases bind_eq_error h with h | ⟨a, m₁, hok, h⟩
  · exact hx m hm d b m' h
  · rw [← hbalanced.of_ok hok] at hm ⊢
    exact hf a m₁ hm d b m' h

/-- The same for the body of a call, where the backtrace has been attached by the end. -/
def LimitToldInCall (x : Eval α) : Prop :=
  ∀ m, m.calls.withinLimit = true → m.calls.frames ≠ [] →
    ∀ d b m', x m = .error ⟨.recursionLimit d, b⟩ m' →
      m.calls.maxDepth = some d ∧ b ≠ [] ∧ b.length = d

theorem LimitTold.traced {x : Eval α} (hx : x.LimitTold) (hbalanced : x.Balanced) :
    (traced x).LimitToldInCall := by
  intro m hm hcall d b m' h
  obtain ⟨⟨f, b'⟩, hx', he⟩ := traced_eq_error h
  obtain rfl : Fault.recursionLimit d = f := by
    have := congrArg EvalError.fault he
    rwa [EvalError.fault_withBacktrace] at this
  obtain ⟨hmax, ⟨rfl, hdepth⟩ | ⟨hb, hlen⟩⟩ := hx m hm d b' m' hx'
  · -- raised here, at the limit: the active calls are attached
    cases he
    rw [hbalanced.of_error hx']
    exact ⟨hmax, hcall, hdepth⟩
  · -- raised in a call further inside
    rw [EvalError.withBacktrace_of_ne_nil hb] at he
    cases he
    exact ⟨hmax, hb, hlen⟩

end Eval

theorem Primitive.limitTold {α : Type} {x : Eval α} (h : Primitive x) : x.LimitTold := by
  intro m hm d b m' hx'
  rcases h.ok_or_error m with ⟨a, m₁, hx, -⟩ | ⟨f, m₁, hx, hf, -⟩ <;> rw [hx] at hx' <;> cases hx'
  cases hf

namespace Engine

/-- All that the engine does tells the limit, and its bodies do so with a backtrace. -/
abbrev LimitTold (engine : Engine) : Prop :=
  engine.Related (fun x _ => x.LimitTold) (fun x _ => x.LimitToldInCall) engine

/-- A call that is refused for the limit is refused at the limit. -/
theorem limit_of_checkCall {callable : Callable} {owner : Option ClassRef} {args : List Value}
    {frame : String} {m : Machine} {d : Nat}
    (h : checkCall callable owner args frame m = .error (.recursionLimit d)) :
    m.calls.maxDepth = some d ∧ d ≤ m.calls.depth := by
  rw [checkCall] at h
  split at h
  · cases h
  · cases hargs : m.classes.checkArguments owner callable.params args with
    | error f =>
      rw [hargs] at h
      cases h
      cases NeverLimit.checkArguments _ _ _ _ _ hargs
    | ok =>
      rw [hargs] at h
      obtain ⟨max, hmax, hle, ⟨⟩⟩ := CallStack.push_eq_error_iff.mp h
      exact ⟨hmax, hle⟩

theorem LimitTold.invoke {engine : Engine} (h : engine.LimitTold) (callable : Callable)
    (owner : Option ClassRef) (receiver : Option Value) (args : List Value) (frame : String) :
    (engine.invoke callable owner receiver args frame).LimitTold := by
  intro m hm d b m' herror
  cases hcall : checkCall callable owner args frame m with
  | error f =>
    rw [engine.invoke_of_error receiver hcall] at herror
    cases herror
    -- not below the limit, and within it
    obtain ⟨hmax, hle⟩ := limit_of_checkCall hcall
    exact ⟨hmax, .inl ⟨rfl, Nat.le_antisymm (CallStack.withinLimit_iff.mp hm d hmax) hle⟩⟩
  | ok calls =>
    rw [engine.invoke_of_ok receiver hcall] at herror
    have hpush := push_of_checkCall hcall
    obtain ⟨rfl, -⟩ := CallStack.push_eq_ok hpush
    obtain ⟨inner, hbody, -⟩ := Result.exists_of_map_eq_error herror
    obtain ⟨hmax, hb⟩ := h.body _ _ (CallStack.withinLimit_of_push hpush)
      (List.cons_ne_nil _ _) d b inner hbody
    exact ⟨hmax, .inr hb⟩

theorem LimitTold.runProgram {engine : Engine} (h : engine.LimitTold) (p : Program) :
    (engine.runProgram p).LimitTold := by
  intro m hm d b m' herror
  obtain ⟨inner, hblock, -⟩ := Result.exists_of_map_eq_error herror
  exact h.block .topLevel p.statements { m with scope := .topLevel } hm d b inner hblock

end Engine

theorem Part.limitTold {α : Type} {part : Engine → Eval α} (h : Part part) {engine : Engine}
    (hbalanced : engine.Balanced) (htold : engine.LimitTold) : (part engine).LimitTold := by
  induction h with
  | primitive h => exact h.limitTold
  | bind hx _ ihx ihf => exact ihx.bind (hx.balanced hbalanced) ihf
  | eval e => exact htold.eval e
  | block mode stmts => exact htold.block mode stmts
  | loop mode condition body => exact htold.loop mode condition body
  | invoke callable owner receiver args frame =>
    exact htold.invoke callable owner receiver args frame
  | program p => exact htold.runProgram p

/-- **The limit is told.** -/
theorem Engine.withFuel_limitTold (n : Nat) : (withFuel n).LimitTold := by
  have hrelated : (Watch.plain.engine n).Related (fun x _ => x.LimitTold)
      (fun x _ => x.LimitToldInCall) (withFuel n) := by
    refine Watch.related_withFuel ?_ ?_ ?_ ?_ n
    · rintro α m hm d b m' ⟨⟩
    · rintro m hm hcall d b m' ⟨⟩
    · intro n ih α part h
      rw [Watch.engine_plain] at ih ⊢
      exact h.limitTold (withFuel_balanced n) ih
    · intro n part hpart h
      rw [Watch.engine_plain] at h ⊢
      exact h.traced (hpart.balanced (withFuel_balanced n))
  rwa [Watch.engine_plain] at hrelated

/-! ## The discipline of the call stack -/

/-- With some fuel, and from a machine within the limit, an evaluation leaves the call stack as it
was, however it ends, and a guard raises no alarm on the way. -/
def KeepsCallStack {α : Type} (fuel : Nat) (x : Engine → Eval α) : Prop :=
  ∀ m, m.calls.withinLimit = true →
    (∀ m', (x (Engine.withFuel fuel) m).machine? = some m' → m'.calls = m.calls) ∧
    ∀ alarm, x ((Watch.guard alarm).engine fuel) m = x (Engine.withFuel fuel) m

theorem Part.keepsCallStack {α : Type} {part : Engine → Eval α} (h : Part part) (fuel : Nat) :
    KeepsCallStack fuel part := by
  intro m hm
  have hbalanced := Engine.withFuel_balanced fuel
  exact ⟨h.balanced hbalanced m,
    fun alarm => h.agreeWithin (Watch.agreeWithin_guard alarm fuel) hbalanced m hm⟩

/-- **The call stack is balanced and bounded**, in every use of the interpreter. When a program that
starts outside any call fails because its calls are nested too deeply, it fails with the limit of
the machine and a backtrace of just so many calls. -/
theorem call_stack_balanced (fuel : Nat) :
    (∀ e, KeepsCallStack fuel fun engine => engine.eval e) ∧
    (∀ mode s, KeepsCallStack fuel fun engine => engine.execStmt mode s) ∧
    (∀ mode stmts, KeepsCallStack fuel fun engine => engine.block mode stmts) ∧
    (∀ receiver method args,
      KeepsCallStack fuel fun engine => engine.invokeMethod receiver method args) ∧
    (∀ function receiver args,
      KeepsCallStack fuel fun engine => engine.callFunction function receiver args) ∧
    (∀ c args, KeepsCallStack fuel fun engine => engine.construct c args) ∧
    (∀ p, KeepsCallStack fuel fun engine => engine.runProgram p) ∧
    ∀ (p : Program) m d b m', m.calls.frames = [] →
      p.run fuel m = .error ⟨.recursionLimit d, b⟩ m' →
        m.calls.maxDepth = some d ∧ b.length = d := by
  refine ⟨fun e => (Part.eval e).keepsCallStack fuel,
    fun mode s => (Part.execStmt mode s).keepsCallStack fuel,
    fun mode stmts => (Part.block mode stmts).keepsCallStack fuel,
    fun receiver method args => (Part.invokeMethod receiver method args).keepsCallStack fuel,
    fun function receiver args => (Part.callFunction function receiver args).keepsCallStack fuel,
    fun c args => (Part.construct c args).keepsCallStack fuel,
    fun p => (Part.program p).keepsCallStack fuel, ?_⟩
  intro p m d b m' hempty hrun
  have hdepth : m.calls.depth = 0 := by rw [CallStack.depth, hempty]; rfl
  have hwithin : m.calls.withinLimit = true :=
    CallStack.withinLimit_iff.mpr fun max _ => by rw [hdepth]; exact Nat.zero_le max
  obtain ⟨hmax, ⟨rfl, hd⟩ | ⟨-, hlen⟩⟩ :=
    (Engine.withFuel_limitTold fuel).runProgram p m hwithin d b m' hrun
  · exact ⟨hmax, by rw [← hd, hdepth]; rfl⟩
  · exact ⟨hmax, hlen⟩

/-- A function that does nothing but call itself, and a call of it. -/
def endlessRecursion : Program :=
  ⟨[.functionDecl ⟨"f", [], "Und", [.call "f" []]⟩, .call "f" []]⟩

/-- At the limit of two calls, the third one is refused. -/
theorem call_stack_balanced_endless_recursion :
    ∃ m', endlessRecursion.run 20 (Machine.fresh {} (some 2)) =
        .error ⟨.recursionLimit 2, ["f", "f"]⟩ m' ∧
      m'.calls = (Machine.fresh {} (some 2)).calls ∧ ["f", "f"].length = 2 := by
  obtain ⟨-, -, -, -, -, -, hrun, hlimit⟩ := call_stack_balanced 20
  refine ⟨_, rfl, ?_, ?_⟩
  · exact (hrun endlessRecursion (Machine.fresh {} (some 2)) rfl).1 _ rfl
  · exact (hlimit endlessRecursion (Machine.fresh {} (some 2)) 2 ["f", "f"] _ rfl rfl).2

end FlannelScript
