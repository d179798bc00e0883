import FlannelScript.Proofs.Balance

/-!
# Fuel is no part of an answer

An evaluation that ends with some fuel ends in the same way with more (`Part.mono`). What a part of
the interpreter does is therefore what it does with enough fuel (`Ends`), and that has one answer at
most. In these terms the layers of the interpreter are gone: an expression ends as its evaluation
over the same engine does (`ends_eval_iff`), and so do statement lists, loops and calls.
-/

namespace FlannelScript

open Eval

/-! ## More fuel -/

/-- Whenever the first evaluation ends, the second one ends in the same way. -/
def Eval.Approximates {α : Type} (x y : Eval α) : Prop := ∀ m, x m ≠ .outOfFuel → y m = x m

/-- All that the first engine ends, the second one ends in the same way. -/
abbrev Engine.Approximates (engine engine' : Engine) : Prop :=
  engine.Related Eval.Approximates Eval.Approximates engine'

namespace Eval.Approximates

variable {α β : Type} {x y : Eval α}

theorem bind {f g : α → Eval β} (hx : x.Approximates y) (hf : ∀ a, (f a).Approximates (g a)) :
    (x >>= f).Approximates (y >>= g) := by
  intro m hm
  rw [bind_apply] at hm
  rw [bind_apply, bind_apply]
  rcases hxm : x m with ⟨a, m₁⟩ | ⟨e, m₁⟩ | _ <;> rw [hxm] at hm
  · rw [hx m (by rw [hxm]; nofun), hxm]
    exact hf a m₁ hm
  · rw [hx m (by rw [hxm]; nofun), hxm]
  · exact absurd rfl hm

theorem traced (h : x.Approximates y) : (traced x).Approximates (Eval.traced y) := by
  intro m hm
  have hx : x m ≠ .outOfFuel := by
    intro hx
    simp only [Eval.traced, hx, ne_eq, not_true_eq_false] at hm
  rw [Eval.traced, Eval.traced, h m hx]

end Eval.Approximates

theorem Result.map_eq_outOfFuel {α β : Type} {f : α → β} {g : Machine → Machine} {r : Result α} :
    r.map f g = .outOfFuel ↔ r = .outOfFuel := by
  cases r <;> simp [Result.map]

theorem Engine.Approximates.invoke {engine engine' : Engine} (h : engine.Approximates engine')
    (callable : Callable) (owner : Option ClassRef) (receiver : Option Value) (args : List Value)
    (frame : String) :
    (engine.invoke callable owner receiver args frame).Approximates
      (engine'.invoke callable owner receiver args frame) := by
  intro m hm
  cases hcall : checkCall callable owner args frame m with
  | error f => rw [engine.invoke_of_error receiver hcall, engine'.invoke_of_error receiver hcall]
  | ok calls =>
    rw [engine.invoke_of_ok receiver hcall] at hm ⊢
    rw [engine'.invoke_of_ok receiver hcall, h.body]
    exact fun hbody => hm (Result.map_eq_outOfFuel.mpr hbody)

theorem Engine.Approximates.runProgram {engine engine' : Engine} (h : engine.Approximates engine')
    (p : Program) : (engine.runProgram p).Approximates (engine'.runProgram p) := by
  intro m hm
  rw [Engine.runProgram] at hm
  rw [Engine.runProgram, Engine.runProgram, h.block]
  exact fun hblock => hm (Result.map_eq_outOfFuel.mpr hblock)

theorem Part.approximates {α : Type} {part : Engine → Eval α} (h : Part part)
    {engine engine' : Engine} (happrox : engine.Approximates engine') :
    (part engine).Approximates (part engine') := by
  induction h with
  | primitive h => exact fun m _ => rfl
  | bind _ _ ihx ihf => exact ihx.bind ihf
  | eval e => exact happrox.eval e
  | block mode stmts => exact happrox.block mode stmts
  | loop mode condition body => exact happrox.loop mode condition body
  | invoke callable owner receiver args frame =>
    exact happrox.invoke callable owner receiver args frame
  | program p => exact happrox.runProgram p

/-- One unit more keeps every answer. -/
theorem Engine.withFuel_approximates_succ (n : Nat) :
    (withFuel n).Approximates (withFuel (n + 1)) := by
  induction n with
  | zero =>
    exact ⟨fun _ _ hm => absurd rfl hm, fun _ _ _ hm => absurd rfl hm,
      fun _ _ hm => absurd rfl hm, fun _ _ _ _ hm => absurd rfl hm⟩
  | succ n ih =>
    rw [withFuel_succ (n + 1), withFuel_succ n]
    refine ⟨fun e => ?_, fun mode stmts => ?_, fun stmts => ?_, fun mode condition body => ?_⟩
    · exact (Part.evalExpr e).approximates (withFuel_succ n ▸ ih)
    · exact (Part.execBlock mode stmts).approximates (withFuel_succ n ▸ ih)
    · exact ((Part.execBlock .inFunction stmts).approximates (withFuel_succ n ▸ ih)).traced
    · exact (Part.loopStep mode condition body).approximates (withFuel_succ n ▸ ih)

/-- **More fuel keeps every answer.** -/
theorem Part.mono {α : Type} {part : Engine → Eval α} (h : Part part) {n k : Nat} (hle : n ≤ k)
    {m : Machine} (hends : part (Engine.withFuel n) m ≠ .outOfFuel) :
    part (Engine.withFuel k) m = part (Engine.withFuel n) m := by
  induction hle with
  | refl => rfl
  | @step k _ ih =>
    -- that it ends with `k` units is known from the answer with `n`
    rw [← ih]
    refine h.approximates (Engine.withFuel_approximates_succ k) m ?_
    rwa [ih]

/-! ## What is done with enough fuel -/

/-- With enough fuel, the part ends with the given result. -/
def Ends {α : Type} (part : Engine → Eval α) (m : Machine) (r : Result α) : Prop :=
  r ≠ .outOfFuel ∧ ∃ n, part (Engine.withFuel n) m = r

namespace Ends

variable {α β : Type} {part : Engine → Eval α} {m : Machine} {r r' : Result α}

theorem ok {a : α} {m' : Machine} {n : Nat} (h : part (Engine.withFuel n) m = .ok a m') :
    Ends part m (.ok a m') :=
  ⟨nofun, n, h⟩

theorem exists_fuel (h : Ends part m r) : ∃ n, part (Engine.withFuel n) m = r := h.2

/-- From some amount of fuel on, the part ends so. -/
theorem exists_forall_le (hpart : Part part) (h : Ends part m r) :
    ∃ n, ∀ k, n ≤ k → part (Engine.withFuel k) m = r := by
  obtain ⟨hr, n, rfl⟩ := h
  exact ⟨n, fun k hle => hpart.mono hle hr⟩

/-- Fuel for two evaluations at once. -/
theorem exists_common {part' : Engine → Eval β} {m' : Machine} {s : Result β} (hpart : Part part)
    (hpart' : Part part') (h : Ends part m r) (h' : Ends part' m' s) :
    ∃ n, part (Engine.withFuel n) m = r ∧ part' (Engine.withFuel n) m' = s := by
  obtain ⟨n, hn⟩ := h.exists_forall_le hpart
  obtain ⟨k, hk⟩ := h'.exists_forall_le hpart'
  exact ⟨max n k, hn _ (Nat.le_max_left n k), hk _ (Nat.le_max_right n k)⟩

/-- **One answer.** -/
theorem unique (hpart : Part part) (h : Ends part m r) (h' : Ends part m r') : r = r' := by
  obtain ⟨n, hr, hr'⟩ := exists_common hpart hpart h h'
  exact hr.symm.trans hr'

/-- A sequence ends if its halves do. -/
theorem bind {x : Engine → Eval α} {f : α → Engine → Eval β} (hx : Part x)
    (hf : ∀ a, Part (f a)) {a : α} {m₁ : Machine} {r : Result β} (h : Ends x m (.ok a m₁))
    (h' : Ends (f a) m₁ r) : Ends (fun engine => x engine >>= fun a => f a engine) m r := by
  obtain ⟨n, hfirst, hsecond⟩ := exists_common hx (hf a) h h'
  exact ⟨h'.1, n, (bind_of_ok hfirst).trans hsecond⟩

/-- The halves of a sequence that succeeds. -/
theorem of_bind {x : Engine → Eval α} {f : α → Engine → Eval β} {b : β} {m' : Machine}
    (h : Ends (fun engine => x engine >>= fun a => f a engine) m (.ok b m')) :
    ∃ a m₁, Ends x m (.ok a m₁) ∧ Ends (f a) m₁ (.ok b m') := by
  obtain ⟨-, n, hn⟩ := h
  obtain ⟨a, m₁, hx, hf⟩ := bind_eq_ok hn
  exact ⟨a, m₁, .ok hx, .ok hf⟩

/-- **Sequences.** A sequence succeeds just if its halves do, one after the other. -/
theorem bind_iff {x : Engine → Eval α} {f : α → Engine → Eval β} (hx : Part x)
    (hf : ∀ a, Part (f a)) {b : β} {m' : Machine} :
    Ends (fun engine => x engine >>= fun a => f a engine) m (.ok b m') ↔
      ∃ a m₁, Ends x m (.ok a m₁) ∧ Ends (f a) m₁ (.ok b m') :=
  ⟨of_bind, fun ⟨_, _, h, h'⟩ => bind hx hf h h'⟩

/-- A sequence ends as its second half does, or with the error of the first one. -/
theorem sequence_iff {x : Engine → Eval α} {f : α → Engine → Eval β} (hx : Part x)
    (hf : ∀ a, Part (f a)) {r : Result β} :
    Ends (fun engine => x engine >>= fun a => f a engine) m r ↔
      (∃ a m₁, Ends x m (.ok a m₁) ∧ Ends (f a) m₁ r) ∨
      ∃ e m₁, Ends x m (.error e m₁) ∧ r = .error e m₁ := by
  constructor
  · rintro ⟨hr, n, hn⟩
    rcases r with ⟨b, m'⟩ | ⟨e, m'⟩ | _
    · obtain ⟨a, m₁, hx', hf'⟩ := bind_eq_ok hn
      exact .inl ⟨a, m₁, .ok hx', .ok hf'⟩
    · rcases bind_eq_error hn with hx' | ⟨a, m₁, hx', hf'⟩
      · exact .inr ⟨e, m', ⟨nofun, n, hx'⟩, rfl⟩
      · exact .inl ⟨a, m₁, .ok hx', nofun, n, hf'⟩
    · exact absurd rfl hr
  · rintro (⟨a, m₁, h, h'⟩ | ⟨e, m₁, ⟨-, n, hn⟩, rfl⟩)
    · exact bind hx hf h h'
    · exact ⟨nofun, n, bind_of_error hn⟩

/-- First halves that end in the same way. -/
theorem bind_congr_left {x y : Engine → Eval α} {f : α → Engine → Eval β} (hx : Part x)
    (hy : Part y) (hf : ∀ a, Part (f a)) (h : ∀ m r, Ends x m r ↔ Ends y m r) {r : Result β} :
    Ends (fun engine => x engine >>= fun a => f a engine) m r ↔
      Ends (fun engine => y engine >>= fun a => f a engine) m r := by
  rw [sequence_iff hx hf, sequence_iff hy hf]
  simp only [h]

/-- Second halves that end in the same way after all that the first half returns. -/
theorem bind_congr {x : Engine → Eval α} {f g : α → Engine → Eval β} {good : α → Prop}
    (hx : Part x) (hf : ∀ a, Part (f a)) (hg : ∀ a, Part (g a))
    (hgood : ∀ n, Returns (x (Engine.withFuel n)) good)
    (h : ∀ a, good a → ∀ m r, Ends (f a) m r ↔ Ends (g a) m r) {r : Result β} :
    Ends (fun engine => x engine >>= fun a => f a engine) m r ↔
      Ends (fun engine => x engine >>= fun a => g a engine) m r := by
  rw [sequence_iff hx hf, sequence_iff hx hg]
  refine or_congr ?_ Iff.rfl
  refine exists_congr fun a => exists_congr fun m₁ => and_congr_right fun ha => ?_
  obtain ⟨n, hn⟩ := ha.exists_fuel
  exact h a (hgood n m a m₁ hn) m₁ r

/-- What does not ask the engine ends as it does at once. -/
theorem const_iff {x : Eval α} : Ends (fun _ => x) m r ↔ r ≠ .outOfFuel ∧ x m = r := by
  simp [Ends]

@[simp] theorem pure_iff {a b : α} {m' : Machine} :
    Ends (fun _ => (pure a : Eval α)) m (.ok b m') ↔ b = a ∧ m' = m := by
  simp [const_iff, eq_comm]

end Ends

/-- What one layer does, the interpreter does with one unit more. -/
theorem ends_iff_of_succ {α : Type} {part layer : Engine → Eval α}
    (hzero : ∀ m, part (Engine.withFuel 0) m = .outOfFuel)
    (hsucc : ∀ n, part (Engine.withFuel (n + 1)) = layer (Engine.withFuel n)) {m : Machine}
    {r : Result α} : Ends part m r ↔ Ends layer m r := by
  constructor
  · rintro ⟨hr, _ | n, hn⟩
    · exact absurd (hn.symm.trans (hzero m)) hr
    · rw [hsucc] at hn
      exact ⟨hr, n, hn⟩
  · rintro ⟨hr, n, hn⟩
    exact ⟨hr, n + 1, by rw [hsucc, hn]⟩

theorem ends_eval_iff {e : Expr} {m : Machine} {r : Result Value} :
    Ends (fun engine => engine.eval e) m r ↔ Ends (fun engine => engine.evalExpr e) m r :=
  ends_iff_of_succ (fun _ => rfl) fun _ => rfl

theorem ends_block_iff {mode : Mode} {stmts : List Stmt} {m : Machine} {r : Result BlockExit} :
    Ends (fun engine => engine.block mode stmts) m r ↔
      Ends (fun engine => engine.execBlock mode stmts) m r :=
  ends_iff_of_succ (fun _ => rfl) fun _ => rfl

theorem ends_loop_iff {mode : Mode} {condition : Expr} {body : List Stmt} {m : Machine}
    {r : Result Flow} :
    Ends (fun engine => engine.loop mode condition body) m r ↔
      Ends (fun engine => engine.loopStep mode condition body) m r :=
  ends_iff_of_succ (fun _ => rfl) fun n => loopWith_succ n mode condition body

end FlannelScript
