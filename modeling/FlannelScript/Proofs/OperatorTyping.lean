import FlannelScript.Proofs.Dispatch
import FlannelScript.Proofs.Moments

/-!
# The types of the operators

There is no widening. An operator other than `==` and `!=` has a value only for two operands of one
built-in class, and `Operator.result?` is the table of these classes and of what comes out. A method
of a built-in class can be called on other values, too: instances of a class that is derived from a
built-in one inherit its methods, and the class may even have its name. Such a call fails, since the
receiver is asked for its data and the argument for its very class.

That the values of a built-in class do have the data of their class is no matter of types but an
invariant of sessions, so the main statement (`operators_never_widen`) is about the values that are
met at some moment.
-/

namespace FlannelScript

open Eval

/-! ## The table of types -/

namespace Operator

/-- The operators on truth values. -/
def isLogical : Operator → Bool
  | and | or => true
  | _ => false

/-- The operators that compare by order. -/
def isOrdering : Operator → Bool
  | gt | lt | gtEq | ltEq => true
  | _ => false

/-- The operators that calculate. -/
def isArithmetic : Operator → Bool
  | add | sub | mul | div | mod | exp => true
  | _ => false

/-- The class of what an operator gives for two values of a built-in class, if it takes them.
Equality, which takes everything, is left out. -/
def result? (op : Operator) : BuiltinClass → Option BuiltinClass
  | .bln => if op.isLogical then some .bln else none
  | .int => if op.isArithmetic then some .int else if op.isOrdering then some .bln else none
  | .flt => if op.isArithmetic then some .flt else if op.isOrdering then some .bln else none
  | .str => if op = add then some .str else if op.isOrdering then some .bln else none
  | .obj | .und => none

/-- An operator takes a receiver and one argument of the same built-in class; `c` is the class of
what it gives. -/
inductive Takes (op : Operator) (c : BuiltinClass) : Value → List Value → Prop where
  | intro {b : BuiltinClass} (hop : op.result? b = some c) {r arg : Value} (hr : r.cls = .builtin b)
      (harg : arg.cls = .builtin b) : Takes op c r [arg]

end Operator

/-- The faults of a call whose receiver or arguments are not what the method is for. -/
def Fault.isMisfit : Fault → Bool
  | typeMismatch _ _ | arityMismatch _ _ _ | unknownMethod _ _ => true
  | _ => false

/-- The faults of a calculation. -/
def Fault.isArithmetic : Fault → Bool
  | divisionByZero | integerOverflow _ | negativeExponent _ => true
  | _ => false

/-- The class on whose values a method of a built-in class works, and the class of its result; the
methods of the root work on everything. -/
def BuiltinMethod.typing? : BuiltinMethod → Option (BuiltinClass × BuiltinClass)
  | equals | doesNotEqual | getStr => none
  | and | or => some (.bln, .bln)
  | intArith _ => some (.int, .int)
  | intCompare _ => some (.int, .bln)
  | floatArith _ => some (.flt, .flt)
  | floatCompare _ => some (.flt, .bln)
  | concat => some (.str, .str)
  | textCompare _ => some (.str, .bln)

namespace BuiltinClass

variable {b c : BuiltinClass} {op : Operator}

/-- The methods of operators other than equality are typed as the table has it. -/
theorem typing?_of_method? (heq : op ≠ .eq) (hne : op ≠ .notEq) {found : BuiltinMethod}
    (h : b.method? op.method = some found) :
    ∃ c, op.result? b = some c ∧ found.typing? = some (b, c) := by
  cases b with
  | obj => cases op <;> cases h <;> contradiction
  | und => cases h
  | bln | int | flt | str => cases op <;> cases h <;> exact ⟨_, rfl, rfl⟩

/-- The table has no entry without a method. -/
theorem exists_method?_of_result? (h : op.result? b = some c) :
    ∃ found, b.method? op.method = some found := by
  cases b <;> cases op <;> cases h <;> exact ⟨_, rfl⟩

end BuiltinClass

/-! ## Methods on data -/

/-- Among values with the payload of their class, the reader gives the data of just those of a
built-in class. -/
def BuiltinClass.ReadBy {α : Type} (b : BuiltinClass) (read : Value → Option α) : Prop :=
  ∀ v : Value, v.cls.carries v.payload = true → ((read v).isSome = true ↔ v.cls = .builtin b)

namespace Value

theorem readBy_bool? : BuiltinClass.bln.ReadBy bool? := by
  rintro ⟨⟨⟨⟩⟩ | _, ⟨⟩⟩ h <;> simp_all [ClassRef.carries, bool?]

theorem readBy_int? : BuiltinClass.int.ReadBy int? := by
  rintro ⟨⟨⟨⟩⟩ | _, ⟨⟩⟩ h <;> simp_all [ClassRef.carries, int?]

theorem readBy_float? : BuiltinClass.flt.ReadBy float? := by
  rintro ⟨⟨⟨⟩⟩ | _, ⟨⟩⟩ h <;> simp_all [ClassRef.carries, float?]

theorem readBy_text? : BuiltinClass.str.ReadBy text? := by
  rintro ⟨⟨⟨⟩⟩ | _, ⟨⟩⟩ h <;> simp_all [ClassRef.carries, text?]

end Value

/-- What a calculation on the data of a class comes to: a value of class `c`, or a fault of integer
arithmetic. -/
def Calculates (c : BuiltinClass) (x : Except Fault Value) : Prop :=
  (∃ v, x = .ok v ∧ v.cls = .builtin c) ∨ ∃ f, x = .error f ∧ f.isArithmetic = true ∧ c = .int

theorem Calculates.ok {c : BuiltinClass} {v : Value} (h : v.cls = .builtin c) :
    Calculates c (.ok v) :=
  .inl ⟨v, rfl, h⟩

theorem Arith.ints_calculates (op : Arith) (a b : Int64) :
    Calculates .int ((op.ints a b).map .ofInt) := by
  rw [ints]
  split
  · exact .ok rfl
  all_goals exact .inr ⟨_, rfl, rfl, rfl⟩

/-- What a method of class `b` with results of class `c` comes to: a calculation if the receiver and
the only argument are of that class, and else a misfit. -/
structure Operates (b c : BuiltinClass) (r : Value) (args : List Value) (x : Except Fault Value) :
    Prop where
  fit : ∀ arg, args = [arg] → r.cls = .builtin b → arg.cls = .builtin b → Calculates c x
  misfit : (∀ arg, args = [arg] → r.cls = .builtin b → arg.cls ≠ .builtin b) →
    ∃ f, x = .error f ∧ f.isMisfit = true

namespace ClassTable

variable (t : ClassTable) {b c : BuiltinClass} {r : Value} {args : List Value}

/-- **No widening.** A method of two operands reads the data of the receiver, and then the argument,
which has to be of its very class. -/
theorem binary_operates {α : Type} {read : Value → Option α} (hread : b.ReadBy read)
    {apply : α → α → Except Fault Value} (happly : ∀ x y, Calculates c (apply x y))
    (hr : r.cls.carries r.payload = true)
    (hargs : ∀ v ∈ args, v.cls.carries v.payload = true) (method : String) :
    Operates b c r args (t.binary b read apply r method args) := by
  constructor
  · rintro arg rfl hrb hargb
    obtain ⟨x, hx⟩ := Option.isSome_iff_exists.mp ((hread r hr).mpr hrb)
    obtain ⟨y, hy⟩ := Option.isSome_iff_exists.mp
      ((hread arg (hargs arg List.mem_cons_self)).mpr hargb)
    have hbinary : t.binary b read apply r method [arg] = apply x y := by
      simp only [binary, datum, hx, argumentOf, onlyArgument, bind, Except.bind, if_pos hargb, hy]
    rw [hbinary]
    exact happly x y
  · intro hmisfit
    cases hx : read r with
    | none => exact ⟨_, by simp only [binary, datum, hx]; rfl, rfl⟩
    | some x =>
      have hrb : r.cls = .builtin b := (hread r hr).mp (by rw [hx]; rfl)
      rcases args with _ | ⟨arg, _ | ⟨_, _⟩⟩
      · exact ⟨_, by simp only [binary, datum, hx]; rfl, rfl⟩
      · have hargb := hmisfit arg rfl hrb
        refine ⟨.typeMismatch b.name (t.name arg.cls), ?_, rfl⟩
        simp only [binary, datum, hx, argumentOf, onlyArgument, bind, Except.bind, if_neg hargb]
      · exact ⟨_, by simp only [binary, datum, hx]; rfl, rfl⟩

/-- Each method of a built-in class does what its type says. -/
theorem callBuiltin_operates {found : BuiltinMethod} (h : found.typing? = some (b, c))
    (hr : r.cls.carries r.payload = true)
    (hargs : ∀ v ∈ args, v.cls.carries v.payload = true) (method : String) :
    Operates b c r args (t.callBuiltin found r method args) := by
  cases found with
  | equals | doesNotEqual | getStr => cases h
  | and | or =>
    cases h
    exact t.binary_operates Value.readBy_bool? (fun _ _ => .ok rfl) hr hargs method
  | intArith op =>
    cases h
    exact t.binary_operates Value.readBy_int? op.ints_calculates hr hargs method
  | intCompare =>
    cases h
    exact t.binary_operates Value.readBy_int? (fun _ _ => .ok rfl) hr hargs method
  | floatArith | floatCompare =>
    cases h
    exact t.binary_operates Value.readBy_float? (fun _ _ => .ok rfl) hr hargs method
  | concat | textCompare =>
    cases h
    exact t.binary_operates Value.readBy_text? (fun _ _ => .ok rfl) hr hargs method

/-! ## Operators on values -/

/-- The outcome of a method call that no declared class has a say in. -/
def callInherited (r : Value) (method : String) (args : List Value) : Except Fault Value :=
  match t.builtinMethod? r.cls method with
  | some found => t.callBuiltin found r method args
  | none => .error (.unknownMethod method (t.name r.cls))

theorem builtinMethod?_of_method? {method : String} {found : BuiltinMethod}
    (h : b.method? method = some found) : t.builtinMethod? (.builtin b) method = some found := by
  cases b <;>
    simp only [builtinMethod?, ancestors, builtinChain, List.findSome?_cons,
      ClassRef.builtinMethod?, h]

variable {t} {op : Operator}

/-- Where the operator takes the operands, it calculates. -/
theorem callInherited_of_takes (heq : op ≠ .eq) (hne : op ≠ .notEq)
    (hr : r.cls.carries r.payload = true) (hargs : ∀ v ∈ args, v.cls.carries v.payload = true)
    (h : op.Takes c r args) : Calculates c (t.callInherited r op.method args) := by
  obtain @⟨b, hop, _, arg, hrb, hargb⟩ := h
  obtain ⟨found, hfound⟩ := BuiltinClass.exists_method?_of_result? hop
  obtain ⟨c', hop', htyping⟩ := BuiltinClass.typing?_of_method? heq hne hfound
  obtain rfl : c' = c := Option.some.inj (hop'.symm.trans hop)
  rw [callInherited, hrb, t.builtinMethod?_of_method? hfound]
  exact (t.callBuiltin_operates htyping hr hargs op.method).fit arg rfl hrb hargb

/-- Where it does not, the call is a misfit. -/
theorem callInherited_of_not_takes (heq : op ≠ .eq) (hne : op ≠ .notEq)
    (hr : r.cls.carries r.payload = true) (hargs : ∀ v ∈ args, v.cls.carries v.payload = true)
    (h : ∀ c, ¬op.Takes c r args) :
    ∃ f, t.callInherited r op.method args = .error f ∧ f.isMisfit = true := by
  rw [callInherited]
  cases hfound : t.builtinMethod? r.cls op.method with
  | none => exact ⟨_, rfl, rfl⟩
  | some found =>
    -- the class that has the method need not be the class of the receiver
    obtain ⟨b, hb⟩ := exists_of_builtinMethod?_eq_some hfound
    obtain ⟨c, hop, htyping⟩ := BuiltinClass.typing?_of_method? heq hne hb
    refine (t.callBuiltin_operates htyping hr hargs op.method).misfit fun arg harg hrb hargb => ?_
    subst harg
    exact h c (.intro hop hrb hargb)

end ClassTable

theorem Operator.Takes.not_declared {op : Operator} {c : BuiltinClass} {r : Value}
    {args : List Value} (h : op.Takes c r args) : ∀ v ∈ r :: args, ∀ id, v.cls ≠ .declared id := by
  obtain @⟨b, -, _, arg, hr, harg⟩ := h
  intro v hv id hid
  rcases List.mem_cons.mp hv with rfl | hv
  · cases hr.symm.trans hid
  · obtain rfl := List.mem_singleton.mp hv
    cases harg.symm.trans hid

/-- Without a declared method of the name, a call comes to what the built-in classes make of it. -/
theorem Engine.invokeMethod_of_undeclared (engine : Engine) {r : Value} {method : String}
    {m : Machine} (h : m.classes.findMethod? r.cls method = none) (args : List Value) :
    engine.invokeMethod r method args m = ofExcept (m.classes.callInherited r method args) m := by
  rw [invokeMethod_apply, ClassTable.resolveMethod?_eq, h, ClassTable.callInherited]
  cases m.classes.builtinMethod? r.cls method <;> rfl

/-- The value is one of those that are met at the moment: what all of them are, it is, too. -/
def Moment.Meets (s : Moment) (v : Value) : Prop := ∀ P, s.AllValues P → P v

/-- At a moment of a session, the values that are met have the payload of their class. -/
theorem Moment.Meets.carries {console : Console} {limit : Option Nat} {s : Moment}
    (h : (first console limit).Before s) {v : Value} (hv : s.Meets v) :
    v.cls.carries v.payload = true := by
  obtain ⟨-, hsound⟩ := h.sound (sound_first console limit)
  exact (hv _ ⟨hsound.machine.values, hsound.waiting, hsound.returned⟩).carries

/-- **No widening.** At any moment of a session, call the method of an operator other than equality
on values that are met there, and let no class on the way from the class of the receiver to the root
declare the method. The call changes nothing. It has a value only if there is one argument, of the
very class of the receiver, and the operator takes values of that class; the value is then of the
class that the table says. Where the operator takes the operands, nothing but integer arithmetic can
fail. In all other cases, and in particular if the receiver or an argument is an instance of a
declared class, the call fails for the type or the number of its operands, or for want of a method.
-/
theorem operators_never_widen {console : Console} {limit : Option Nat} {s : Moment}
    (h : (Moment.first console limit).Before s) {r : Value} (hr : s.Meets r) {args : List Value}
    (hargs : ∀ v ∈ args, s.Meets v) {op : Operator} (heq : op ≠ .eq) (hne : op ≠ .notEq)
    (hundeclared : ∀ owner ∈ s.machine.classes.ancestors r.cls,
      s.machine.classes.ownMethod? owner op.method = none) :
    ∃ outcome : Except Fault Value,
      (∀ engine : Engine,
        engine.invokeMethod r op.method args s.machine = ofExcept outcome s.machine) ∧
      (∀ v, outcome = .ok v → ∃ c, op.Takes c r args ∧ v.cls = .builtin c) ∧
      (∀ c, op.Takes c r args → (∃ v, outcome = .ok v) ∨
        ∃ f, outcome = .error f ∧ f.isArithmetic = true ∧ c = .int) ∧
      ((∀ c, ¬op.Takes c r args) → ∃ f, outcome = .error f ∧ f.isMisfit = true) ∧
      ((∃ v ∈ r :: args, ∃ id, v.cls = .declared id) →
        ∃ f, outcome = .error f ∧ f.isMisfit = true) := by
  have hr' := hr.carries h
  have hargs' : ∀ v ∈ args, v.cls.carries v.payload = true := fun v hv => (hargs v hv).carries h
  have hmisfit := ClassTable.callInherited_of_not_takes (t := s.machine.classes) heq hne hr' hargs'
  refine ⟨s.machine.classes.callInherited r op.method args, fun engine => ?_, fun v hv => ?_,
    fun c hc => ?_, hmisfit, fun hdeclared => hmisfit fun c hc => ?_⟩
  · exact engine.invokeMethod_of_undeclared
      (ClassTable.findMethod?_eq_none_iff.mpr hundeclared) args
  · by_cases htakes : ∃ c, op.Takes c r args
    · obtain ⟨c, hc⟩ := htakes
      obtain ⟨w, hw, hcls⟩ | ⟨f, hf, -⟩ :=
        ClassTable.callInherited_of_takes (t := s.machine.classes) heq hne hr' hargs' hc
      · obtain rfl : w = v := Except.ok.inj (hw.symm.trans hv)
        exact ⟨c, hc, hcls⟩
      · cases hf.symm.trans hv
    · obtain ⟨f, hf, -⟩ := hmisfit (not_exists.mp htakes)
      cases hf.symm.trans hv
  · obtain ⟨w, hw, -⟩ | hf :=
      ClassTable.callInherited_of_takes (t := s.machine.classes) heq hne hr' hargs' hc
    · exact .inl ⟨w, hw⟩
    · exact .inr hf
  · obtain ⟨v, hv, id, hid⟩ := hdeclared
    exact hc.not_declared v hv id hid

/-- A session with the integer 0 and then an instance of a class that takes the name of the class of
integers, from which it descends. It inherits the method of `+`, and yet neither it plus 0 nor 0
plus it has a value; 0 plus 0 has one. -/
theorem operators_never_widen_shadowedInt :
    ∃ s, (Moment.first {} none).Before s ∧ s.returned = [⟨.declared 0, .ref 0⟩, .ofInt 0] ∧
      s.machine.classes.builtinMethod? (.declared 0) "add" = some (.intArith .add) ∧
      (∃ f : Fault, f.isMisfit = true ∧ ∀ engine : Engine,
        engine.invokeMethod ⟨.declared 0, .ref 0⟩ "add" [.ofInt 0] s.machine =
          .error ⟨f, []⟩ s.machine) ∧
      (∃ f : Fault, f.isMisfit = true ∧ ∀ engine : Engine,
        engine.invokeMethod (.ofInt 0) "add" [⟨.declared 0, .ref 0⟩] s.machine =
          .error ⟨f, []⟩ s.machine) ∧
      ∃ v : Value, (∃ c, Operator.add.Takes c (.ofInt 0) [.ofInt 0] ∧ v.cls = .builtin c) ∧
        ∀ engine : Engine,
          engine.invokeMethod (.ofInt 0) "add" [.ofInt 0] s.machine = .ok v s.machine := by
  obtain ⟨s, hs, hreturned, hchain, hown⟩ : ∃ s, (Moment.first {} none).Before s ∧
      s.returned = [⟨.declared 0, .ref 0⟩, .ofInt 0] ∧
      s.machine.classes.ancestors (.declared 0) = [.declared 0, .builtin .int, .builtin .obj] ∧
      s.machine.classes.ownMethod? (.declared 0) "add" = none := by
    have hstart : (Moment.first {} none).Before ⟨.fresh {} none, [.topLevel], []⟩ := .single .start
    have hname : (Machine.fresh {} none).classes.lookup? "Int" = some (.builtin .int) := rfl
    have hconstruct : Request (.fresh {} none) [] some
        fun engine => engine.construct (.builtin .int) [] := .construct hname fun _ hv => hv
    have hzero := hstart.tail (.answer hconstruct 5 rfl)
    have hdeclared := hzero.tail (.answer (.stmt .topLevel shadowedInt) 5 rfl)
    refine ⟨_, hdeclared.tail (.allocate "Int" rfl), rfl, ?_, rfl⟩
    rw [ClassTable.ancestors, ClassTable.declaredChain]
    rfl
  have hmet : ∀ v ∈ s.returned, s.Meets v := fun v hv P hP => hP.returned v hv
  have hinstance := hmet ⟨.declared 0, .ref 0⟩ (by rw [hreturned]; exact List.mem_cons_self)
  have hzero := hmet (.ofInt 0) (by rw [hreturned]; exact .tail _ (.head _))
  have hadd : Operator.add ≠ .eq ∧ Operator.add ≠ .notEq := by decide
  have hbuiltin : ∀ owner ∈ [.builtin .int, .builtin .obj],
      s.machine.classes.ownMethod? owner Operator.add.method = none := by
    rintro _ (_ | ⟨_, _ | ⟨_, ⟨⟩⟩⟩) <;> rfl
  have hderived : ∀ owner ∈ s.machine.classes.ancestors (.declared 0),
      s.machine.classes.ownMethod? owner Operator.add.method = none := by
    rw [hchain]
    exact List.forall_mem_cons.mpr ⟨hown, hbuiltin⟩
  refine ⟨s, hs, hreturned, ?_, ?_, ?_, ?_⟩
  · rw [ClassTable.builtinMethod?, hchain]
    rfl
  · obtain ⟨outcome, hcall, -, -, -, hfail⟩ := operators_never_widen hs hinstance
      (List.forall_mem_singleton.mpr hzero) hadd.1 hadd.2 hderived
    obtain ⟨f, rfl, hf⟩ := hfail ⟨_, List.mem_cons_self, 0, rfl⟩
    exact ⟨f, hf, hcall⟩
  · obtain ⟨outcome, hcall, -, -, -, hfail⟩ := operators_never_widen hs hzero
      (List.forall_mem_singleton.mpr hinstance) hadd.1 hadd.2 hbuiltin
    obtain ⟨f, rfl, hf⟩ := hfail ⟨_, List.mem_cons_of_mem _ List.mem_cons_self, 0, rfl⟩
    exact ⟨f, hf, hcall⟩
  · obtain ⟨outcome, hcall, hvalue, -⟩ := operators_never_widen hs hzero
      (List.forall_mem_singleton.mpr hzero) hadd.1 hadd.2 hbuiltin
    cases outcome with
    | ok v => exact ⟨v, hvalue v rfl, hcall⟩
    | error f =>
      have hsum : Result.ok (Value.ofInt 0) s.machine = .error ⟨f, []⟩ s.machine :=
        hcall (Engine.withFuel 0)
      cases hsum

end FlannelScript
