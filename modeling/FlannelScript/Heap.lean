import FlannelScript.Bindings
import FlannelScript.Value

/-!
# The heap

Instances keep their properties on a heap that only grows: allocation hands out the next place, and
a place is never freed. The set of properties of an instance is fixed when it is allocated; from
then on a property can be rebound but none can be added or removed.
-/

namespace FlannelScript

/-- The property tables of all instances, by place. -/
structure Heap where
  cells : Array (Bindings Value) := #[]
  deriving Inhabited

namespace Heap

/-- Allocate an instance with the given properties. -/
def alloc (h : Heap) (properties : Bindings Value) : Heap × Loc :=
  (⟨h.cells.push properties⟩, h.cells.size)

/-- The properties of an instance. -/
def properties (h : Heap) (loc : Loc) : Bindings Value := h.cells[loc]?.getD ∅

/-- A property of an instance. -/
def get? (h : Heap) (loc : Loc) (name : String) : Option Value := (h.properties loc).get? name

/-- Rebind a property of an instance; `none` if there is no such property. -/
def set? (h : Heap) (loc : Loc) (name : String) (v : Value) : Option Heap :=
  if (h.properties loc).contains name then
    some ⟨h.cells.modify loc fun table => table.insert name v⟩
  else none

/-! ## What the operations do to the properties -/

theorem properties_alloc (h : Heap) (table : Bindings Value) (loc : Loc) :
    (h.alloc table).1.properties loc =
      if loc = h.cells.size then table else h.properties loc := by
  simp only [alloc, properties, Array.getElem?_push]
  split <;> rfl

/-- **Freshness.** The place handed out by an allocation holds the new instance. -/
@[simp] theorem properties_alloc_self (h : Heap) (table : Bindings Value) :
    (h.alloc table).1.properties (h.alloc table).2 = table := by
  rw [properties_alloc]
  simp [alloc]

/-- **Rebinding.** A rebound property has its new value; every other property of every instance has
its old one. -/
theorem get?_of_set? {h h' : Heap} {loc : Loc} {name : String} {v : Value}
    (hs : h.set? loc name v = some h') (loc' : Loc) (name' : String) :
    h'.get? loc' name' = if loc = loc' ∧ name = name' then some v else h.get? loc' name' := by
  unfold set? at hs
  split at hs
  · rename_i hc
    cases hs
    have hlt : loc < h.cells.size := by
      by_cases hlt : loc < h.cells.size
      · exact hlt
      · simp [properties, Array.getElem?_eq_none (Nat.le_of_not_lt hlt), Bindings.contains,
          EmptyCollection.emptyCollection] at hc
    by_cases hl : loc = loc'
    · subst hl
      simp [get?, properties, Array.getElem?_modify, Array.getElem?_eq_getElem hlt]
    · simp [get?, properties, Array.getElem?_modify, hl]
  · cases hs

end Heap

end FlannelScript
