import FlannelScript.Fault

/-!
# The call stack

One frame for each active call, so that the depth of calls can be limited and an error can tell
which calls were in flight. A frame is the name of a function, or the name of the declaring class
and the name of the method with a dot between them.
-/

namespace FlannelScript

/-- The active calls, innermost first, and how many there may be at most. -/
structure CallStack where
  frames : List String := []
  /-- the greatest number of nested calls; `none` for no limit -/
  maxDepth : Option Nat := none
  deriving Inhabited

namespace CallStack

/-- The frame of a function. -/
def functionFrame (name : String) : String := name

/-- The frame of a method. -/
def methodFrame (className name : String) : String := className ++ "." ++ name

/-- The number of active calls. -/
def depth (s : CallStack) : Nat := s.frames.length

/-- Whether one more call is allowed, and if not, the limit that forbids it. -/
def limitReached? (s : CallStack) : Option Nat :=
  s.maxDepth.filter fun max => decide (max ≤ s.depth)

/-- Enter a call. At the limit the call is refused and the stack stays as it is. -/
def push (s : CallStack) (frame : String) : Except Fault CallStack :=
  match s.limitReached? with
  | some max => .error (.recursionLimit max)
  | none => .ok { s with frames := frame :: s.frames }

/-- Leave the innermost call. -/
def pop (s : CallStack) : CallStack := { s with frames := s.frames.tail }

/-- The active calls, innermost first. -/
def capture (s : CallStack) : Backtrace := s.frames

/-! ## Entering and leaving -/

theorem push_eq_ok {s t : CallStack} {frame : String} (h : s.push frame = .ok t) :
    t = { s with frames := frame :: s.frames } ∧ s.limitReached? = none := by
  unfold push at h
  split at h
  · cases h
  · cases h
    exact ⟨rfl, by assumption⟩

/-- **Balance.** Leaving a call that was entered gives the stack before it. -/
theorem pop_of_push {s t : CallStack} {frame : String} (h : s.push frame = .ok t) : t.pop = s := by
  rw [(push_eq_ok h).1]
  rfl

/-- **Refusal.** A call is refused exactly at the limit, which is what the fault tells. -/
theorem push_eq_error_iff {s : CallStack} {frame : String} {f : Fault} :
    s.push frame = .error f ↔ ∃ max, s.maxDepth = some max ∧ max ≤ s.depth ∧
      f = .recursionLimit max := by
  unfold push limitReached?
  cases s.maxDepth with
  | none => simp
  | some max =>
    by_cases hm : max ≤ s.depth
    · simp [Option.filter, hm, eq_comm]
    · simp [Option.filter, hm]

end CallStack

end FlannelScript
