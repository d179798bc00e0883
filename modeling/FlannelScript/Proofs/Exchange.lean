import Mathlib.Logic.Relation
import FlannelScript.Proofs.Alike
import FlannelScript.Proofs.Composition
import FlannelScript.Proofs.DeadCode

/-!
# Exchanging code

Two statement lists are interchangeable in a mode if they always end in the same way. That is about
a list that is run at once, on one machine; but then the one can also be put in the place of the
other anywhere in a program, as a stretch of any list that is in that mode (`Replaced`): in
conditions and loops, and in the bodies of functions and methods, which are run later and from
elsewhere. No run shows the difference (`Replaced.showsOn_iff`).

The two programs store different bodies and take different fuel, so their runs are compared as those
of machines that are alike: by induction on the fuel of the one run, it is followed by the other one
(`Engine.withFuel_followed`).
-/

namespace FlannelScript

open Eval

/-! ## Lists that end in the same way -/

/-- In the given mode, the two lists end in the same way on every machine. -/
def Interchangeable (mode : Mode) (A B : List Stmt) : Prop :=
  ∀ m r, Ends (fun engine => engine.block mode A) m r ↔ Ends (fun engine => engine.block mode B) m r

namespace Interchangeable

variable {mode : Mode} {A B : List Stmt}

theorem symm (h : Interchangeable mode A B) : Interchangeable mode B A := fun m r => (h m r).symm

theorem append_left (h : Interchangeable mode A B) (before : List Stmt) :
    Interchangeable mode (before ++ A) (before ++ B) := by
  intro m r
  rw [ends_block_append_iff, ends_block_append_iff]
  exact or_congr (exists_congr fun m₁ => and_congr Iff.rfl (h m₁ r)) Iff.rfl

theorem append_right (h : Interchangeable mode A B) (after : List Stmt) :
    Interchangeable mode (A ++ after) (B ++ after) := by
  intro m r
  rw [ends_block_append_iff, ends_block_append_iff]
  exact or_congr (exists_congr fun m₁ => and_congr (h m _) Iff.rfl) (and_congr (h m r) Iff.rfl)

/-- **In a list.** The list around them does not matter. -/
theorem between (h : Interchangeable mode A B) (before after : List Stmt) :
    Interchangeable mode (before ++ A ++ after) (before ++ B ++ after) :=
  (h.append_left before).append_right after

end Interchangeable

/-! ## Replacing code -/

/-- The second list is the first one with one occurrence of `A` replaced by `B`. It occurs as a
stretch of a list that is in the mode `place`: the list itself, a list in it or, where that mode is
that of functions, a list in the body of a function or method. -/
inductive Replaced (place : Mode) (A B : List Stmt) : Mode → List Stmt → List Stmt → Prop where
  | here (before after : List Stmt) :
      Replaced place A B place (before ++ A ++ after) (before ++ B ++ after)
  | loop {mode : Mode} {body body' : List Stmt} (before : List Stmt) (condition : Expr)
      (after : List Stmt) (h : Replaced place A B mode body body') :
      Replaced place A B mode (before ++ .loop condition body :: after)
        (before ++ .loop condition body' :: after)
  | branch {mode : Mode} {body body' : List Stmt} (before : List Stmt) (condition : Expr)
      (after : List Stmt) (h : Replaced place A B mode body body') :
      Replaced place A B mode (before ++ .branch condition body :: after)
        (before ++ .branch condition body' :: after)
  | function {body body' : List Stmt} (mode : Mode) (before : List Stmt) (d : FunctionDecl)
      (after : List Stmt) (h : Replaced place A B .inFunction body body') :
      Replaced place A B mode (before ++ .functionDecl { d with body } :: after)
        (before ++ .functionDecl { d with body := body' } :: after)
  | method {body body' : List Stmt} (mode : Mode) (before : List Stmt) (c : ClassDecl)
      (front : List FunctionDecl) (d : FunctionDecl) (back : List FunctionDecl) (after : List Stmt)
      (h : Replaced place A B .inFunction body body') :
      Replaced place A B mode
        (before ++ .classDecl { c with methods := front ++ { d with body } :: back } :: after)
        (before ++ .classDecl { c with methods := front ++ { d with body := body' } :: back } ::
          after)

theorem Replaced.symm {place mode : Mode} {A B stmts stmts' : List Stmt}
    (h : Replaced place A B mode stmts stmts') : Replaced place B A mode stmts' stmts := by
  induction h with
  | here before after => exact .here before after
  | loop before condition after _ ih => exact .loop before condition after ih
  | branch before condition after _ ih => exact .branch before condition after ih
  | function mode before d after _ ih => exact .function mode before d after ih
  | method mode before c front d back after _ ih =>
    exact .method mode before c front d back after ih

/-- The same list, or one with a replacement in it. -/
abbrev MaybeReplaced (place : Mode) (A B : List Stmt) (mode : Mode) :
    List Stmt → List Stmt → Prop :=
  Relation.ReflGen (Replaced place A B mode)

/-- The evaluation is followed by the part on machines with a replacement in their bodies. -/
abbrev Eval.FollowedAfter (place : Mode) (A B : List Stmt) {α : Type} (x : Eval α)
    (part : Engine → Eval α) : Prop :=
  x.FollowedBy (MaybeReplaced place A B .inFunction) part

/-! ## One layer -/

theorem Eval.FollowedBy.of_ends {R : List Stmt → List Stmt → Prop} {α : Type} {x : Eval α}
    {part part' : Engine → Eval α} (h : x.FollowedBy R part) (hpart' : Part part')
    (hends : ∀ m r, Ends part m r → Ends part' m r) : x.FollowedBy R part' := by
  intro m m' hm hx
  obtain ⟨r, k, hr, hpart⟩ := h m m' hm hx
  have hr' : Ends part' m' r := hends m' r ⟨hr.ne_outOfFuel, k, hpart k (Nat.le_refl k)⟩
  obtain ⟨k', hk'⟩ := hr'.exists_forall_le hpart'
  exact ⟨r, k', hr, hk'⟩

namespace Engine.Followed

variable {place : Mode} {A B : List Stmt} {engine : Engine}
  (h : engine.Followed (MaybeReplaced place A B))
include h

/-- The same code. -/
theorem of_course {α : Type} {Q : Unit → α → Prop} {part : Engine → Eval α}
    (hpart : Regime.free.Course () Q part) :
    (part engine).FollowedAfter place A B part :=
  hpart.followed (fun _ _ => .refl) h

theorem execBlock_same (mode : Mode) (stmts : List Stmt) :
    (engine.execBlock mode stmts).FollowedAfter place A B fun engine =>
      engine.execBlock mode stmts :=
  h.of_course (.execBlock mode fun s _ => Regime.free_stmt s)

/-- Lists that differ in one statement. -/
theorem execBlock_of_stmt {mode : Mode} {s s' : Stmt} (hs : s.isReturn = false)
    (hs' : s'.isReturn = false) (before after : List Stmt)
    (hstmt : (engine.execStmt mode s).FollowedAfter place A B fun engine =>
      engine.execStmt mode s') :
    (engine.execBlock mode (before ++ s :: after)).FollowedAfter place A B fun engine =>
      engine.execBlock mode (before ++ s' :: after) := by
  simp only [Engine.execBlock_append, Engine.execBlock_cons _ fun _ => hs,
    Engine.execBlock_cons _ fun _ => hs']
  refine (h.execBlock_same mode before).bind .trivial fun exit _ => ?_
  cases exit with
  | completed =>
    refine hstmt.bind .trivial fun flow _ => ?_
    cases flow with
    | next => exact h.execBlock_same mode after
    | halt v => exact .pure _
  | returned v | halted v => exact .pure _

theorem execStmt_branch (mode : Mode) (condition : Expr) {body body' : List Stmt}
    (hbody : MaybeReplaced place A B mode body body') :
    (engine.execStmt mode (.branch condition body)).FollowedAfter place A B fun engine =>
      engine.execStmt mode (.branch condition body') := by
  refine (h.of_course (.evalCondition trivial)).bind .trivial fun holds _ => ?_
  cases holds with
  | false => exact .pure _
  | true => exact (h.block mode hbody).bind .trivial fun exit _ => .pure _

theorem declareClass (d : ClassDecl) {methods : List FunctionDecl}
    (hmethods : List.Forall₂ (FunctionDecl.Alike (MaybeReplaced place A B .inFunction))
      d.methods methods) :
    (engine.declareClass d).FollowedAfter place A B fun engine =>
      engine.declareClass { d with methods } := by
  refine (h.of_course (.declaredParent d.parent)).bind .trivial fun parent _ => ?_
  refine (h.of_course (.evalOverrides fun _ _ => trivial)).bind .trivial fun overrides _ => ?_
  refine (h.of_course (.evalProperties fun _ _ => trivial)).bind .trivial fun defaults _ => ?_
  exact .registerClass hmethods parent overrides defaults

theorem loopStep (mode : Mode) (condition : Expr) {body body' : List Stmt}
    (hbody : MaybeReplaced place A B mode body body') :
    (engine.loopStep mode condition body).FollowedAfter place A B fun engine =>
      engine.loopStep mode condition body' := by
  have hround : (engine.loopRound mode condition body).FollowedAfter place A B fun engine =>
      engine.loopRound mode condition body' := by
    refine (h.of_course (.evalCondition trivial)).bind .trivial fun holds _ => ?_
    cases holds with
    | false => exact .pure _
    | true =>
      refine (h.block mode hbody).bind .trivial fun exit _ => ?_
      cases exit <;> exact .pure _
  refine hround.bind .trivial fun round _ => ?_
  cases round with
  | none => exact h.loop mode condition hbody
  | some flow => exact .pure flow

/-- **Statement lists.** A list is followed by the list with a replacement in it. -/
theorem execBlock (hAB : Interchangeable place A B) (mode : Mode) {stmts stmts' : List Stmt}
    (hstmts : MaybeReplaced place A B mode stmts stmts') :
    (engine.execBlock mode stmts).FollowedAfter place A B fun engine =>
      engine.execBlock mode stmts' := by
  cases hstmts with
  | refl => exact h.execBlock_same mode stmts
  | single hreplaced =>
    cases hreplaced with
    | here before after =>
      -- the list is followed by itself first, and on that machine the two end in the same way
      refine (h.execBlock_same _ _).of_ends (.execBlock _ _) fun m r hr => ?_
      rw [← ends_block_iff] at hr ⊢
      exact (hAB.between before after m r).mp hr
    | loop before condition after hbody =>
      exact h.execBlock_of_stmt rfl rfl before after (h.loop mode condition (.single hbody))
    | branch before condition after hbody =>
      exact h.execBlock_of_stmt rfl rfl before after
        (h.execStmt_branch mode condition (.single hbody))
    | function _ before d after hbody =>
      have hd := FunctionDecl.Alike.mk (d := { d with body := _ }) (Relation.ReflGen.single hbody)
      exact h.execBlock_of_stmt rfl rfl before after
        ((Eval.FollowedBy.declareFunction hd).bind .trivial fun _ _ => .pure _)
    | method _ before c front d back after hbody =>
      have hd := FunctionDecl.Alike.mk (d := { d with body := _ }) (Relation.ReflGen.single hbody)
      have hsame : ∀ l : List FunctionDecl, List.Forall₂
          (FunctionDecl.Alike (MaybeReplaced place A B .inFunction)) l l :=
        fun l => List.forall₂_same.mpr fun d _ => .refl (fun _ => .refl) d
      have hmethods := List.rel_append (hsame front) (List.Forall₂.cons hd (hsame back))
      exact h.execBlock_of_stmt rfl rfl before after
        ((h.declareClass { c with methods := _ } hmethods).bind .trivial fun _ _ => .pure _)

end Engine.Followed

/-! ## All layers -/

/-- **Side by side.** Whatever the interpreter does with some fuel is followed by what it does where
the code has been replaced. -/
theorem Engine.withFuel_followed {place : Mode} {A B : List Stmt}
    (hAB : Interchangeable place A B) (n : Nat) :
    (withFuel n).Followed (MaybeReplaced place A B) := by
  induction n with
  | zero =>
    exact ⟨fun _ _ _ _ hends => absurd rfl hends, fun _ _ _ _ _ _ _ hends => absurd rfl hends,
      fun _ _ _ _ hends => absurd rfl hends, fun _ _ _ _ _ _ _ _ hends => absurd rfl hends⟩
  | succ n ih =>
    rw [withFuel_succ]
    refine ⟨fun e => ?_, fun mode _ _ hstmts => ?_, fun hstmts => ?_,
      fun mode condition _ _ hbody => ?_⟩
    · exact (ih.of_course (.evalExpr fun _ _ => trivial)).of_succ fun _ => rfl
    · exact (ih.execBlock hAB mode hstmts).of_succ fun _ => rfl
    · exact (ih.execBlock hAB .inFunction hstmts).traced.of_succ fun _ => rfl
    · refine .of_succ (fun n => ?_) (ih.loopStep mode condition hbody)
      exact loopWith_succ n mode condition _

/-! ## Programs -/

/-- Run on this machine, the program ends and shows this. -/
def Program.ShowsOn (p : Program) (m : Machine) (b : Behaviour) : Prop :=
  ∃ r, Ends (fun engine => engine.runProgram p) m r ∧ r.behaviour? = some b

theorem Result.Alike.behaviour?_eq {R : List Stmt → List Stmt → Prop} {r r' : Result Outcome}
    (h : r.Alike R r') : r'.behaviour? = r.behaviour? := by
  cases h with
  | ok outcome h =>
    cases h
    rfl
  | error e h =>
    cases h
    rfl

namespace Replaced

variable {place : Mode} {A B : List Stmt} {p q : Program}

/-- **Programs.** On machines that are alike, a program and the same program with a replacement in
it end alike. -/
theorem ends_alike (h : Replaced place A B .topLevel p.statements q.statements)
    (hAB : Interchangeable place A B) {m m' : Machine}
    (hm : m.Alike (MaybeReplaced place A B .inFunction) m') {r : Result Outcome}
    (hr : Ends (fun engine => engine.runProgram p) m r) :
    ∃ r', Ends (fun engine => engine.runProgram q) m' r' ∧
      r.Alike (MaybeReplaced place A B .inFunction) r' := by
  obtain ⟨hne, n, rfl⟩ := hr
  have hstart : Machine.Alike (MaybeReplaced place A B .inFunction)
      { m with scope := .topLevel } { m' with scope := .topLevel } := by
    cases hm with
    | mk hclasses hfunctions => exact .mk hclasses hfunctions
  have hback : ∀ inner inner' : Machine, inner.Alike (MaybeReplaced place A B .inFunction) inner' →
      Machine.Alike (MaybeReplaced place A B .inFunction) { inner with scope := m.scope }
        { inner' with scope := m'.scope } := by
    intro inner inner' hinner
    cases hm
    cases hinner with
    | mk hclasses hfunctions => exact .mk hclasses hfunctions
  obtain ⟨r', k, hr', hblock⟩ := (Engine.withFuel_followed hAB n).block .topLevel (.single h) _ _
    hstart fun hout => hne (Result.map_eq_outOfFuel.mpr hout)
  have halike := hr'.map BlockExit.outcome hback
  exact ⟨_, ⟨halike.ne_outOfFuel, k, congrArg _ (hblock k (Nat.le_refl k))⟩, halike⟩

/-- **Nothing shows.** On every machine, a program and the same program with a replacement in it
show the same. -/
theorem showsOn_iff (h : Replaced place A B .topLevel p.statements q.statements)
    (hAB : Interchangeable place A B) (m : Machine) (b : Behaviour) :
    p.ShowsOn m b ↔ q.ShowsOn m b := by
  constructor
  · rintro ⟨r, hr, hb⟩
    obtain ⟨r', hr', halike⟩ := h.ends_alike hAB (.refl (fun _ => .refl) m) hr
    exact ⟨r', hr', halike.behaviour?_eq.trans hb⟩
  · rintro ⟨r, hr, hb⟩
    obtain ⟨r', hr', halike⟩ := h.symm.ends_alike hAB.symm (.refl (fun _ => .refl) m) hr
    exact ⟨r', hr', halike.behaviour?_eq.trans hb⟩

end Replaced

end FlannelScript
