import FlannelScript.Proofs.Conduct

/-!
# What becomes of the names of a scope

Expressions do not touch the scope in which they are evaluated, whatever the code does that they
run. Statements may bind locals, and nothing ever unbinds a name: the receiver stays the same,
locals are only added, and an instance keeps the names of its properties, so a name that could be
resolved can still be resolved (`scope_discipline`). What it stands for may have changed, since a
call can rebind the properties of the receiver through which its caller resolves names.
-/

namespace FlannelScript

open Eval

/-! ## Names that stay -/

theorem Bindings.contains_insert {α : Type} {t : Bindings α} {name : String}
    (h : t.contains name = true) (k : String) (a : α) : (t.insert k a).contains name = true := by
  rw [contains, get?_insert]
  split
  · rfl
  · exact h

namespace Heap

variable {h h' h'' : Heap}

/-- Every instance has all properties that it had. -/
def KeepsNames (h h' : Heap) : Prop :=
  ∀ loc name, (h.get? loc name).isSome = true → (h'.get? loc name).isSome = true

theorem KeepsNames.refl (h : Heap) : h.KeepsNames h := fun _ _ hname => hname

theorem KeepsNames.trans (hh : h.KeepsNames h') (hh' : h'.KeepsNames h'') : h.KeepsNames h'' :=
  fun loc name hname => hh' loc name (hh loc name hname)

/-- A place that is not there yet has no properties. -/
theorem keepsNames_alloc (h : Heap) (table : Bindings Value) : h.KeepsNames (h.alloc table).1 := by
  intro loc name hname
  have hloc : loc ≠ h.cells.size := by
    rintro rfl
    rw [get?, properties, Array.getElem?_eq_none (Nat.le_refl _)] at hname
    cases hname
  rwa [get?, properties_alloc, if_neg hloc]

theorem keepsNames_of_set? {loc : Loc} {name : String} {v : Value}
    (hset : h.set? loc name v = some h') : h.KeepsNames h' := by
  intro loc' name' hname
  rw [get?_of_set? hset]
  split
  · rfl
  · exact hname

end Heap

namespace Machine

variable {m m' m'' : Machine}

/-- What the names of the running scope are looked up in only gains names. -/
structure KeepsNames (m m' : Machine) : Prop where
  receiver : m'.scope.receiver = m.scope.receiver
  constants : m'.scope.constants = m.scope.constants
  locals : ∀ name, m.scope.locals.contains name = true → m'.scope.locals.contains name = true
  heap : m.heap.KeepsNames m'.heap

theorem KeepsNames.trans (h : m.KeepsNames m') (h' : m'.KeepsNames m'') : m.KeepsNames m'' where
  receiver := h'.receiver.trans h.receiver
  constants := h'.constants.trans h.constants
  locals name hname := h'.locals name (h.locals name hname)
  heap := h.heap.trans h'.heap

/-- The running scope is the same. -/
theorem KeepsNames.of_scope (hscope : m'.scope = m.scope) (hheap : m.heap.KeepsNames m'.heap) :
    m.KeepsNames m' where
  receiver := by rw [hscope]
  constants := by rw [hscope]
  locals name hname := by rwa [hscope]
  heap := hheap

theorem keepsNames_declare (m : Machine) (name : String) (v : Value) :
    m.KeepsNames { m with scope := m.scope.declare name v } where
  receiver := rfl
  constants := rfl
  locals _ hname := Bindings.contains_insert hname name v
  heap := .refl m.heap

/-- The name can be resolved in the running scope. -/
def Resolves (m : Machine) (name : String) : Prop := (m.scope.resolve? m.heap name).isSome = true

/-- A name is resolved if one of the three tiers has it. -/
theorem resolves_iff {name : String} :
    m.Resolves name ↔ m.scope.locals.contains name = true ∨
      (m.scope.receiverProperty? m.heap name).isSome = true ∨
      (m.scope.constants.get? name).isSome = true := by
  rw [Resolves, Scope.resolve?, Option.isSome_or, Option.isSome_or, Bool.or_eq_true,
    Bool.or_eq_true, or_assoc, Bindings.contains]

theorem KeepsNames.resolves (h : m.KeepsNames m') {name : String} (hname : m.Resolves name) :
    m'.Resolves name := by
  rw [resolves_iff] at hname ⊢
  rcases hname with hlocal | hproperty | hconstant
  · exact .inl (h.locals name hlocal)
  · refine .inr (.inl ?_)
    rw [Scope.receiverProperty?, Scope.receiverLoc?] at hproperty ⊢
    rw [h.receiver]
    cases hloc : m.scope.receiver.bind Value.loc? with
    | none =>
      rw [hloc] at hproperty
      cases hproperty
    | some loc =>
      rw [hloc] at hproperty
      exact h.heap loc name hproperty
  · refine .inr (.inr ?_)
    rwa [h.constants]

/-- Nothing has been taken away from the running scope: its receiver is the same, its locals are
still there, and what could be resolved still can. -/
structure NeverUnbinds (m m' : Machine) : Prop where
  receiver : m'.scope.receiver = m.scope.receiver
  locals : ∀ name, m.scope.locals.contains name = true → m'.scope.locals.contains name = true
  resolves : ∀ name, m.Resolves name → m'.Resolves name

theorem KeepsNames.neverUnbinds (h : m.KeepsNames m') : m.NeverUnbinds m' :=
  ⟨h.receiver, h.locals, fun _ => h.resolves⟩

end Machine

/-! ## Names that stay across an evaluation -/

/-- Where the running scope is only read, it stays the same as a whole. -/
def Conduct.scoping : Conduct where
  across
    | .reads, m, m' => m'.scope = m.scope ∧ m.heap.KeepsNames m'.heap
    | .binds, m, m' => m.KeepsNames m'
  refl
    | .reads, m => ⟨rfl, .refl m.heap⟩
    | .binds, m => .of_scope rfl (.refl m.heap)
  trans {access _ _ _} h h' := by
    cases access with
    | reads => exact ⟨h'.1.trans h.1, h.2.trans h'.2⟩
    | binds => exact h.trans h'
  weaken h := .of_scope h.1 h.2
  newInstance m properties := ⟨rfl, m.heap.keepsNames_alloc properties⟩
  printLine m _ := ⟨rfl, .refl m.heap⟩
  question m _ := ⟨rfl, .refl m.heap⟩
  addClass m _ := ⟨rfl, .refl m.heap⟩
  addFunction m _ _ := ⟨rfl, .refl m.heap⟩
  declareLocal := Machine.keepsNames_declare
  setProperty h := .of_scope rfl (Heap.keepsNames_of_set? h)
  elsewhere _ h := ⟨rfl, h.heap⟩

/-- **Expressions do not touch the scope; statements never unbind.** This holds from every machine,
and however the evaluation ends. -/
theorem scope_discipline (fuel : Nat) (m m' : Machine) :
    (∀ e, ((Engine.withFuel fuel).eval e m).machine? = some m' →
      m'.scope.locals = m.scope.locals ∧ m'.scope.receiver = m.scope.receiver) ∧
    (∀ mode s, ((Engine.withFuel fuel).execStmt mode s m).machine? = some m' → m.NeverUnbinds m') ∧
    ∀ mode stmts, ((Engine.withFuel fuel).block mode stmts m).machine? = some m' →
      m.NeverUnbinds m' := by
  have hkeeps := Engine.withFuel_keeps .scoping fuel
  refine ⟨fun e hm' => ?_, fun mode s hm' => ?_, fun mode stmts hm' => ?_⟩
  · obtain ⟨hscope, -⟩ := hkeeps.eval e m m' hm'
    rw [hscope]
    exact ⟨rfl, rfl⟩
  · exact ((Deed.execStmt mode s).keeps .scoping hkeeps m m' hm').neverUnbinds
  · exact (hkeeps.block mode stmts m m' hm').neverUnbinds

/-- A machine in a method of an instance with a property `n`, and a function `f` that has a local of
its own and rebinds `n`. -/
def Machine.insideMethod : Machine where
  functions := .ofList
    [("f", ⟨"f", [], .cls (.builtin .und),
      [.varDecl "Und" "k" (.name "und"), .assign "n" (.name "k")]⟩)]
  heap := ⟨#[.ofList [("n", .ofInt 1)]]⟩
  scope := .ofCall (some ⟨.declared 0, .ref 0⟩) [("x", .ofInt 2)]

/-- Call `f`, bind `y` and fail. -/
def rebindAndFail : List Stmt := [.varDecl "Und" "y" (.call "f" []), .call "missing" []]

/-- A call of `f` rebinds `n` for its caller and leaves the scope of the caller alone. A statement
list that calls it, binds `y` and then fails has unbound nothing. -/
theorem scope_discipline_inside_method :
    (∃ m', ((Engine.withFuel 9).eval (.call "f" []) .insideMethod).machine? = some m' ∧
      m'.scope.resolve? m'.heap "n" = some .undefined ∧
      m'.scope.locals = Machine.insideMethod.scope.locals) ∧
    ∃ m', ((Engine.withFuel 9).block .inFunction rebindAndFail .insideMethod).machine? = some m' ∧
      m'.scope.locals.contains "y" = true ∧ m'.Resolves "n" ∧
      m'.scope.locals.contains "x" = true := by
  refine ⟨⟨_, rfl, rfl, ?_⟩, ⟨_, rfl, rfl, ?_⟩⟩
  · exact ((scope_discipline 9 .insideMethod _).1 (.call "f" []) rfl).1
  · have hkept := (scope_discipline 9 .insideMethod _).2.2 .inFunction rebindAndFail rfl
    exact ⟨hkept.resolves "n" rfl, hkept.locals "x" rfl⟩

end FlannelScript
