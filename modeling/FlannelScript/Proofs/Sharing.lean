import FlannelScript.Proofs.Balance
import FlannelScript.Proofs.Growth
import Mathlib.Logic.Function.Basic

/-!
# Activations that share receivers

Many activations can be open on one machine, each with a scope of its own, and all scopes look up
properties on the same heap. A name that is written to in one of them is therefore seen by others:
exactly by those that run on the same receiver and have no local of that name
(`scope_store_laws`). Constants are read through the two tiers that can be written to and are never
written to themselves.
-/

namespace FlannelScript

/-! ## One scope -/

namespace Scope

variable {s : Scope} {h h' : Heap} {loc : Loc} {x : String} {v : Value}

/-- The name stands in one of the two tiers that can be written to: it is a local, or a property of
the receiver. -/
def Binds (s : Scope) (h : Heap) (name : String) : Prop :=
  s.locals.contains name = true ∨
    ∃ loc, s.receiverLoc? = some loc ∧ (h.properties loc).contains name = true

theorem receiverProperty?_isSome_iff :
    (s.receiverProperty? h x).isSome = true ↔
      ∃ loc, s.receiverLoc? = some loc ∧ (h.properties loc).contains x = true := by
  rw [receiverProperty?]
  cases s.receiverLoc? with
  | none => simp
  | some loc => simp [Heap.get?, Bindings.contains]

/-- **Constants come last.** They are what is found where the other tiers do not have the name. -/
theorem resolve?_of_not_binds (hx : ¬s.Binds h x) : s.resolve? h x = s.constants.get? x := by
  obtain ⟨hlocal, hproperty⟩ := not_or.mp hx
  rw [← receiverProperty?_isSome_iff, Option.not_isSome_iff_eq_none] at hproperty
  rw [Bindings.contains, Option.not_isSome_iff_eq_none] at hlocal
  rw [resolve?, hlocal, hproperty]
  rfl

/-- A declared local is found under its name, and all other names are found as before. -/
theorem resolve?_declare (s : Scope) (h : Heap) (x y : String) (v : Value) :
    (s.declare x v).resolve? h y = if x = y then some v else s.resolve? h y := by
  change (((s.locals.insert x v).get? y).or (s.receiverProperty? h y)).or _ = _
  rw [Bindings.get?_insert]
  split
  · rfl
  · rfl

/-- A rebound property is found by the scopes of its instance that have no local of its name. -/
theorem resolve?_of_set? (hset : h.set? loc x v = some h') (s : Scope) (y : String) :
    s.resolve? h' y =
      if x = y ∧ s.receiverLoc? = some loc ∧ s.locals.contains x = false then some v
      else s.resolve? h y := by
  rw [resolve?, resolve?, receiverProperty?, receiverProperty?, Bindings.contains]
  cases hloc : s.receiverLoc? with
  | none => simp
  | some loc' =>
    rw [Option.bind_some, Option.bind_some, Heap.get?_of_set? hset]
    by_cases hxy : x = y
    · subst hxy
      cases hlocal : s.locals.get? x with
      | none => by_cases hl : loc = loc' <;> simp [hl, eq_comm]
      | some w => simp
    · simp [hxy]

theorem binds_declare_iff {y : String} : (s.declare x v).Binds h y ↔ s.Binds h y ∨ x = y := by
  have hlocal : (s.declare x v).locals.contains y = true ↔ s.locals.contains y = true ∨ x = y := by
    change ((s.locals.insert x v).get? y).isSome = true ↔ _
    rw [Bindings.get?_insert]
    by_cases hxy : x = y <;> simp [hxy, Bindings.contains]
  rw [Binds, Binds, hlocal]
  exact or_right_comm

/-- Rebinding a property neither adds a name nor takes one away. -/
theorem binds_of_set?_iff (hset : h.set? loc x v = some h') {y : String} :
    s.Binds h' y ↔ s.Binds h y := by
  have hproperty (loc' : Loc) :
      (h'.properties loc').contains y = (h.properties loc').contains y := by
    change (h'.get? loc' y).isSome = (h.get? loc' y).isSome
    rw [Heap.get?_of_set? hset]
    split
    · rename_i hsame
      obtain ⟨rfl, rfl⟩ := hsame
      exact (Heap.set?_eq_some hset).1.symm
    · rfl
  simp only [Binds, hproperty]

end Scope

/-- **Assignment by tier.** A local is rebound if there is one, and otherwise a property of the
receiver; a name that is neither is refused. -/
theorem Machine.assign_by_tier (x : String) (v : Value) (m : Machine) :
    (m.scope.locals.contains x = true ∧
      assign x v m = .ok () { m with scope := m.scope.declare x v }) ∨
    (m.scope.locals.contains x = false ∧ ∃ loc heap, m.scope.receiverLoc? = some loc ∧
      m.heap.set? loc x v = some heap ∧ assign x v m = .ok () { m with heap }) ∨
    (¬m.scope.Binds m.heap x ∧ assign x v m = .error ⟨.unboundVariable x, []⟩ m) := by
  rw [assign, Scope.update?]
  cases hlocal : m.scope.locals.contains x with
  | true => exact .inl ⟨rfl, rfl⟩
  | false =>
    refine .inr ?_
    cases hset : m.scope.receiverLoc?.bind fun loc => m.heap.set? loc x v with
    | none =>
      refine .inr ⟨?_, rfl⟩
      rintro (hbound | ⟨loc, hloc, hbound⟩)
      · exact Bool.noConfusion (hlocal.symm.trans hbound)
      · rw [hloc, Option.bind_some, Heap.set?, if_pos hbound] at hset
        cases hset
    | some heap =>
      obtain ⟨loc, hloc, hset⟩ := Option.bind_eq_some_iff.mp hset
      exact .inl ⟨rfl, loc, heap, hloc, hset, rfl⟩

/-! ## Many scopes -/

/-- Activations on one machine, each with its scope. -/
structure Activations (ι : Type) where
  /-- what all activations share; its own scope plays no part -/
  machine : Machine
  scope : ι → Scope

/-- What can be done to a scope. -/
inductive Write (ι : Type) where
  /-- bind a local of an activation -/
  | declare (a : ι) (name : String) (v : Value)
  /-- rebind a name of an activation -/
  | update (a : ι) (name : String) (v : Value)

namespace Write

variable {ι : Type}

/-- The activation that writes. -/
def activation : Write ι → ι
  | declare a _ _ | update a _ _ => a

/-- What it does. -/
def eval : Write ι → Eval Unit
  | declare _ name v => Machine.declareLocal name v
  | update _ name v => Machine.assign name v

end Write

namespace Activations

variable {ι : Type}

/-- The machine while an activation is running. -/
def within (σ : Activations ι) (a : ι) : Machine := { σ.machine with scope := σ.scope a }

/-- What a name stands for in an activation. -/
def resolve? (σ : Activations ι) (a : ι) (name : String) : Option Value :=
  (σ.scope a).resolve? σ.machine.heap name

/-- The name is a local of the activation, or a property of its receiver. -/
def Binds (σ : Activations ι) (a : ι) (name : String) : Prop :=
  (σ.scope a).Binds σ.machine.heap name

/-- What `a` writes to the name is what `b` finds under it: they are the same activation, or `a`
writes to its receiver, and `b` has the same one and looks the name up there. -/
def Shares (σ : Activations ι) (a b : ι) (name : String) : Prop :=
  b = a ∨
    (σ.scope a).locals.contains name = false ∧
    (∃ loc, (σ.scope a).receiverLoc? = some loc ∧ (σ.scope b).receiverLoc? = some loc) ∧
    (σ.scope b).locals.contains name = false

section

variable [DecidableEq ι]

/-- An activation has left this machine; all others keep their scopes. -/
def put (σ : Activations ι) (a : ι) (m : Machine) : Activations ι :=
  ⟨{ m with scope := σ.machine.scope }, Function.update σ.scope a m.scope⟩

/-- Let an activation write. -/
def perform (σ : Activations ι) (w : Write ι) : Activations ι :=
  match (w.eval (σ.within w.activation)).machine? with
  | some m => σ.put w.activation m
  | none => σ

/-- Perform writes one after the other. -/
def run (σ : Activations ι) (ws : List (Write ι)) : Activations ι := ws.foldl perform σ

/-- An activation has a new local. -/
def declare (σ : Activations ι) (a : ι) (name : String) (v : Value) : Activations ι :=
  { σ with scope := Function.update σ.scope a ((σ.scope a).declare name v) }

end

/-- The instances have changed. -/
def store (σ : Activations ι) (heap : Heap) : Activations ι :=
  { σ with machine := { σ.machine with heap } }

/-! ## What a write does -/

variable {σ : Activations ι} {a : ι} {x : String} {v : Value}

/-- An update goes through exactly where the name is bound. -/
theorem exists_assign_iff : (∃ m', Machine.assign x v (σ.within a) = .ok () m') ↔ σ.Binds a x := by
  obtain ⟨hlocal, hassign⟩ | ⟨-, loc, heap, hloc, hset, hassign⟩ | ⟨hunbound, hassign⟩ :=
    Machine.assign_by_tier x v (σ.within a)
  · exact iff_of_true ⟨_, hassign⟩ (.inl hlocal)
  · exact iff_of_true ⟨_, hassign⟩ (.inr ⟨loc, hloc, (Heap.set?_eq_some hset).1⟩)
  · refine iff_of_false ?_ hunbound
    rintro ⟨m', hm'⟩
    cases hm'.symm.trans hassign

theorem assign_of_not_binds (h : ¬σ.Binds a x) :
    Machine.assign x v (σ.within a) = .error ⟨.unboundVariable x, []⟩ (σ.within a) := by
  obtain ⟨hlocal, -⟩ | ⟨-, loc, heap, hloc, hset, -⟩ | ⟨-, hassign⟩ :=
    Machine.assign_by_tier x v (σ.within a)
  · exact absurd (.inl hlocal) h
  · exact absurd (.inr ⟨loc, hloc, (Heap.set?_eq_some hset).1⟩) h
  · exact hassign

section

variable [DecidableEq ι]

/-- A machine that has not changed is put back without effect. -/
theorem put_within (σ : Activations ι) (a : ι) : σ.put a (σ.within a) = σ := by
  change Activations.mk _ (Function.update σ.scope a (σ.scope a)) = σ
  rw [Function.update_eq_self]
  rfl

theorem put_store (σ : Activations ι) (a : ι) (heap : Heap) :
    σ.put a { σ.within a with heap } = σ.store heap := by
  change Activations.mk _ (Function.update σ.scope a (σ.scope a)) = _
  rw [Function.update_eq_self]
  rfl

/-- **Updates by tier.** Where an update goes through, it rebinds a local if there is one, and
otherwise a property of the receiver. -/
theorem put_of_assign {m' : Machine} (h : Machine.assign x v (σ.within a) = .ok () m') :
    ((σ.scope a).locals.contains x = true ∧ σ.put a m' = σ.declare a x v) ∨
    ((σ.scope a).locals.contains x = false ∧ ∃ loc heap, (σ.scope a).receiverLoc? = some loc ∧
      σ.machine.heap.set? loc x v = some heap ∧ σ.put a m' = σ.store heap) := by
  obtain ⟨hlocal, hassign⟩ | ⟨hlocal, loc, heap, hloc, hset, hassign⟩ | ⟨-, hassign⟩ :=
    Machine.assign_by_tier x v (σ.within a)
  · cases h.symm.trans hassign
    exact .inl ⟨hlocal, rfl⟩
  · cases h.symm.trans hassign
    exact .inr ⟨hlocal, loc, heap, hloc, hset, put_store σ a heap⟩
  · cases h.symm.trans hassign

/-- A new local is seen by its activation and by no other one. -/
theorem resolve?_declare (σ : Activations ι) (a b : ι) (x y : String) (v : Value) :
    (σ.declare a x v).resolve? b y = if x = y ∧ b = a then some v else σ.resolve? b y := by
  change (Function.update σ.scope a _ b).resolve? σ.machine.heap y = _
  rw [Function.update_apply]
  by_cases hb : b = a
  · subst hb
    rw [if_pos rfl, Scope.resolve?_declare]
    simp only [and_true]
    rfl
  · simp only [hb, and_false, if_false]
    rfl

/-- **Reach of an update.** It is seen where the name is shared with the activation that writes, and
nowhere else. -/
theorem resolve?_of_assign {m' : Machine} (h : Machine.assign x v (σ.within a) = .ok () m') (b : ι)
    (y : String) :
    (y = x ∧ σ.Shares a b x → (σ.put a m').resolve? b y = some v) ∧
    (¬(y = x ∧ σ.Shares a b x) → (σ.put a m').resolve? b y = σ.resolve? b y) := by
  rw [eq_comm (a := y)]
  obtain ⟨hlocal, hput⟩ | ⟨hlocal, loc, heap, hloc, hset, hput⟩ := put_of_assign h
  · have hshares : σ.Shares a b x ↔ b = a :=
      or_iff_left fun hother => Bool.noConfusion (hlocal.symm.trans hother.1)
    rw [hput, resolve?_declare, hshares]
    exact ⟨fun hseen => if_pos hseen, fun hseen => if_neg hseen⟩
  · have hshares : σ.Shares a b x ↔
        (σ.scope b).receiverLoc? = some loc ∧ (σ.scope b).locals.contains x = false := by
      constructor
      · rintro (rfl | ⟨-, ⟨loc', hloc', hb⟩, hnone⟩)
        · exact ⟨hloc, hlocal⟩
        · cases hloc.symm.trans hloc'
          exact ⟨hb, hnone⟩
      · rintro ⟨hb, hnone⟩
        exact .inr ⟨hlocal, ⟨loc, hloc, hb⟩, hnone⟩
    have hresolve : (σ.store heap).resolve? b y = _ := Scope.resolve?_of_set? hset (σ.scope b) y
    rw [hput, hresolve, hshares]
    exact ⟨fun hseen => if_pos hseen, fun hseen => if_neg hseen⟩

/-- The activation that writes finds what it has written. -/
theorem resolve_of_assign {m' : Machine} (h : Machine.assign x v (σ.within a) = .ok () m') :
    Machine.resolve x m' = .ok v m' := by
  have hseen : (Function.update σ.scope a m'.scope a).resolve? m'.heap x = some v :=
    (resolve?_of_assign h a x).1 ⟨rfl, .inl rfl⟩
  rw [Function.update_self] at hseen
  rw [Machine.resolve, hseen]
  rfl

/-! ## Runs of writes -/

theorem perform_declare (σ : Activations ι) (a : ι) (x : String) (v : Value) :
    σ.perform (.declare a x v) = σ.declare a x v := rfl

/-- What an update comes to, also where it fails. -/
theorem perform_update (σ : Activations ι) (a : ι) (x : String) (v : Value) :
    (σ.Binds a x ∧ σ.perform (.update a x v) = σ.declare a x v) ∨
    (∃ loc heap, σ.machine.heap.set? loc x v = some heap ∧
      σ.perform (.update a x v) = σ.store heap) ∨
    σ.perform (.update a x v) = σ := by
  by_cases hbinds : σ.Binds a x
  · obtain ⟨m', hassign⟩ := exists_assign_iff (v := v).mpr hbinds
    have hperform : σ.perform (.update a x v) = σ.put a m' := by
      rw [perform, Write.eval, Write.activation, hassign]
      rfl
    rw [hperform]
    obtain ⟨-, hput⟩ | ⟨-, loc, heap, -, hset, hput⟩ := put_of_assign hassign
    · exact .inl ⟨hbinds, hput⟩
    · exact .inr (.inl ⟨loc, heap, hset, hput⟩)
  · refine .inr (.inr ?_)
    rw [perform, Write.eval, Write.activation, assign_of_not_binds hbinds]
    exact put_within σ a

theorem constants_declare (σ : Activations ι) (a b : ι) (x : String) (v : Value) :
    ((σ.declare a x v).scope b).constants = (σ.scope b).constants := by
  change (Function.update σ.scope a _ b).constants = _
  rw [Function.update_apply]
  split
  · rename_i hb
    rw [hb]
    rfl
  · rfl

theorem binds_declare_iff {b : ι} {y : String} :
    (σ.declare a x v).Binds b y ↔ σ.Binds b y ∨ b = a ∧ x = y := by
  change (Function.update σ.scope a _ b).Binds σ.machine.heap y ↔ _
  rw [Function.update_apply]
  by_cases hb : b = a
  · subst hb
    rw [if_pos rfl, Scope.binds_declare_iff]
    simp only [true_and]
    rfl
  · simp only [hb, false_and, or_false, if_false]
    rfl

/-- A write keeps the constants of every scope. -/
theorem constants_perform (σ : Activations ι) (w : Write ι) (b : ι) :
    ((σ.perform w).scope b).constants = (σ.scope b).constants := by
  cases w with
  | declare a x v => exact constants_declare σ a b x v
  | update a x v =>
    obtain ⟨-, hperform⟩ | ⟨loc, heap, -, hperform⟩ | hperform := perform_update σ a x v <;>
      rw [hperform]
    · exact constants_declare σ a b x v
    · rfl

/-- After a write, the names that are bound are those that were so before and the one that it
declares. -/
theorem binds_perform_iff {w : Write ι} {b : ι} {y : String} :
    (σ.perform w).Binds b y ↔ σ.Binds b y ∨ ∃ v, w = .declare b y v := by
  cases w with
  | declare a x v =>
    rw [perform_declare, binds_declare_iff]
    simp [eq_comm]
  | update a x v =>
    have hkeeps : (σ.perform (.update a x v)).Binds b y ↔ σ.Binds b y := by
      obtain ⟨hbinds, hperform⟩ | ⟨loc, heap, hset, hperform⟩ | hperform :=
        perform_update σ a x v <;> rw [hperform]
      · rw [binds_declare_iff]
        refine or_iff_left_of_imp ?_
        rintro ⟨rfl, rfl⟩
        exact hbinds
      · exact Scope.binds_of_set?_iff hset
    simp [hkeeps]

theorem constants_run (σ : Activations ι) (ws : List (Write ι)) (b : ι) :
    ((σ.run ws).scope b).constants = (σ.scope b).constants := by
  induction ws generalizing σ with
  | nil => rfl
  | cons w ws ih => exact (ih (σ.perform w)).trans (constants_perform σ w b)

/-- **Shadowing.** The names that are bound after a run are those that were so before and those that
have been declared. -/
theorem binds_run_iff {ws : List (Write ι)} {b : ι} {y : String} :
    (σ.run ws).Binds b y ↔ σ.Binds b y ∨ ∃ v, .declare b y v ∈ ws := by
  induction ws generalizing σ with
  | nil => simp [run]
  | cons w ws ih =>
    change ((σ.perform w).run ws).Binds b y ↔ _
    rw [ih, binds_perform_iff, or_assoc, ← exists_or]
    simp [eq_comm]

end

end Activations

/-- **Scopes over one heap.** An update goes through exactly where the name is a local or a property
of the receiver, and otherwise changes nothing. The activation that writes finds what it has
written, and so does every activation that shares the name with it; nothing else is found anew.
However many writes there are, a name that is bound in neither tier stands for its constant, as it
always did. -/
theorem scope_store_laws {ι : Type} [DecidableEq ι] (σ : Activations ι) (a : ι) (x : String)
    (v : Value) :
    ((∃ m', Machine.assign x v (σ.within a) = .ok () m') ↔ σ.Binds a x) ∧
    (¬σ.Binds a x →
      Machine.assign x v (σ.within a) = .error ⟨.unboundVariable x, []⟩ (σ.within a)) ∧
    (∀ m', Machine.assign x v (σ.within a) = .ok () m' →
      Machine.resolve x m' = .ok v m' ∧
      ∀ b y, (y = x ∧ σ.Shares a b x → (σ.put a m').resolve? b y = some v) ∧
        (¬(y = x ∧ σ.Shares a b x) → (σ.put a m').resolve? b y = σ.resolve? b y)) ∧
    ∀ ws b y, ((σ.run ws).Binds b y ↔ σ.Binds b y ∨ ∃ w, .declare b y w ∈ ws) ∧
      (¬(σ.run ws).Binds b y →
        (σ.run ws).resolve? b y = (σ.scope b).constants.get? y ∧
        σ.resolve? b y = (σ.scope b).constants.get? y) := by
  refine ⟨Activations.exists_assign_iff, Activations.assign_of_not_binds, fun m' hassign => ?_,
    fun ws b y => ⟨Activations.binds_run_iff, fun hrun => ⟨?_, ?_⟩⟩⟩
  · exact ⟨Activations.resolve_of_assign hassign, Activations.resolve?_of_assign hassign⟩
  · rw [Activations.resolve?, Scope.resolve?_of_not_binds hrun, Activations.constants_run]
  · refine Scope.resolve?_of_not_binds fun hbinds => hrun ?_
    exact Activations.binds_run_iff.mpr (.inl hbinds)

/-- Three activations on one instance with a property `n`; the last one has a local `n`. -/
def Activations.onOneInstance : Activations (Fin 3) where
  machine := { heap := ⟨#[.ofList [("n", .ofInt 1)]]⟩ }
  scope
    | 2 => .ofCall (some ⟨.declared 0, .ref 0⟩) [("n", .ofInt 7)]
    | _ => .ofCall (some ⟨.declared 0, .ref 0⟩) []

/-- What the first activation writes to `n` is found by the second one and not by the third one. It
cannot write to the constant `und`, and a local of that name hides the constant from nobody else. -/
theorem scope_store_laws_on_one_instance :
    (∃ m', Machine.assign "n" (.ofInt 5) (Activations.onOneInstance.within 0) = .ok () m' ∧
      (Activations.onOneInstance.put 0 m').resolve? 1 "n" = some (.ofInt 5) ∧
      (Activations.onOneInstance.put 0 m').resolve? 2 "n" = some (.ofInt 7)) ∧
    (¬∃ m', Machine.assign "und" (.ofInt 5) (Activations.onOneInstance.within 0) = .ok () m') ∧
    (Activations.onOneInstance.run
      [.declare 2 "und" (.ofInt 3), .update 1 "und" (.ofInt 4)]).resolve? 1 "und" =
        some .undefined := by
  have hbinds : Activations.onOneInstance.Binds 0 "n" := .inr ⟨0, rfl, rfl⟩
  have hund : ¬Activations.onOneInstance.Binds 0 "und" := by
    rintro (hlocal | ⟨loc, hloc, hproperty⟩)
    · cases hlocal
    · cases hloc
      cases hproperty
  obtain ⟨hiff, -, hseen, -⟩ := scope_store_laws Activations.onOneInstance 0 "n" (.ofInt 5)
  refine ⟨?_, ?_, ?_⟩
  · obtain ⟨m', hm'⟩ := hiff.mpr hbinds
    have hafter := (hseen m' hm').2
    refine ⟨m', hm', ?_, ?_⟩
    · exact (hafter 1 "n").1 ⟨rfl, .inr ⟨rfl, ⟨0, rfl, rfl⟩, rfl⟩⟩
    · refine (hafter 2 "n").2 ?_
      rintro ⟨-, hsame | ⟨-, -, hnone⟩⟩
      · cases hsame
      · cases hnone
  · rw [(scope_store_laws Activations.onOneInstance 0 "und" (.ofInt 5)).1]
    exact hund
  · obtain ⟨-, -, -, hruns⟩ := scope_store_laws Activations.onOneInstance 1 "und" .undefined
    obtain ⟨hshadowed, hconstant⟩ :=
      hruns [.declare 2 "und" (.ofInt 3), .update 1 "und" (.ofInt 4)] 1 "und"
    refine (hconstant fun hbound => ?_).1
    rcases hshadowed.mp hbound with hbound | ⟨w, hw⟩
    · exact hund hbound
    · simp at hw

end FlannelScript
