/-!
# Bindings

Name-keyed tables. Locals, properties, defaults, method tables and the two registries are all
tables of this one kind: an association list that holds each name at most once as long as it is
grown by `insert`. A name that is already there keeps its place and gets the new entry; a new
name goes to the end.

Every fact about a table is stated through its view `get?`.
-/

namespace FlannelScript

/-- A finite table from names to `α`. -/
structure Bindings (α : Type) where
  /-- the pairs, oldest first -/
  entries : List (String × α) := []
  deriving Inhabited

namespace Bindings

variable {α : Type}

/-- The table without entries. -/
def empty : Bindings α := {}

instance : EmptyCollection (Bindings α) := ⟨empty⟩

/-- Look a name up in a list of pairs; the first pair of that name counts. -/
def find (name : String) : List (String × α) → Option α
  | [] => none
  | (k, a) :: rest => if k = name then some a else find name rest

/-- Rebind a name in a list of pairs, or add it at the end. -/
def put (name : String) (a : α) : List (String × α) → List (String × α)
  | [] => [(name, a)]
  | (k, b) :: rest => if k = name then (k, a) :: rest else (k, b) :: put name a rest

/-- The entry of a name. -/
def get? (t : Bindings α) (name : String) : Option α := find name t.entries

/-- Whether a name is bound. -/
def contains (t : Bindings α) (name : String) : Bool := (t.get? name).isSome

/-- Bind a name, replacing what it was bound to. -/
def insert (t : Bindings α) (name : String) (a : α) : Bindings α := ⟨put name a t.entries⟩

/-- The bound names, oldest first. -/
def keys (t : Bindings α) : List String := t.entries.map (·.1)

/-- Insert every pair of a list, from left to right. -/
def insertAll (t : Bindings α) (pairs : List (String × α)) : Bindings α :=
  pairs.foldl (fun acc p => acc.insert p.1 p.2) t

/-- The table of a list of pairs; of a repeated name the last pair counts. -/
def ofList (pairs : List (String × α)) : Bindings α := empty.insertAll pairs

/-- All entries of `t`, overlaid by all entries of `top`. -/
def overlay (t top : Bindings α) : Bindings α := t.insertAll top.entries

/-! ## What the operations do to the view -/

@[simp] theorem get?_empty (name : String) : (empty : Bindings α).get? name = none := rfl

theorem find_put (l : List (String × α)) (k name : String) (a : α) :
    find name (put k a l) = if k = name then some a else find name l := by
  induction l with
  | nil => simp [put, find]
  | cons p rest ih =>
    obtain ⟨k', b⟩ := p
    by_cases h : k' = k
    · subst h
      simp only [put, if_true, find]
      split <;> rfl
    · simp only [put, if_neg h, find, ih]
      by_cases h' : k' = name
      · subst h'
        simp [Ne.symm h]
      · simp [h']

/-- **Insertion.** The inserted name is bound to the new entry, every other name to its old one. -/
@[simp] theorem get?_insert (t : Bindings α) (k name : String) (a : α) :
    (t.insert k a).get? name = if k = name then some a else t.get? name :=
  find_put t.entries k name a

@[simp] theorem get?_insert_self (t : Bindings α) (k : String) (a : α) :
    (t.insert k a).get? k = some a := by simp

@[simp] theorem insertAll_nil (t : Bindings α) : t.insertAll [] = t := rfl

@[simp] theorem insertAll_cons (t : Bindings α) (k : String) (a : α)
    (rest : List (String × α)) :
    t.insertAll ((k, a) :: rest) = (t.insert k a).insertAll rest := rfl

theorem insertAll_append (t : Bindings α) (xs ys : List (String × α)) :
    t.insertAll (xs ++ ys) = (t.insertAll xs).insertAll ys := by
  simp [insertAll, List.foldl_append]

/-- Only names of the list are rebound. -/
theorem get?_insertAll_of_notMem (t : Bindings α) (pairs : List (String × α)) (name : String)
    (h : name ∉ pairs.map (·.1)) : (t.insertAll pairs).get? name = t.get? name := by
  induction pairs generalizing t with
  | nil => rfl
  | cons p rest ih =>
    obtain ⟨k, a⟩ := p
    simp only [List.map_cons, List.mem_cons, not_or] at h
    rw [insertAll_cons, ih _ h.2, get?_insert, if_neg (Ne.symm h.1)]

end Bindings

end FlannelScript
