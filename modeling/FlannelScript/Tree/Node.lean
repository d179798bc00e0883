import FlannelScript.Json

/-!
# Nodes of a tree in JSON

Every node of a syntax tree is a record with a fixed list of keys, and statements and expressions
carry a tag that says which record they are. A record is written as an object or, positionally, as
an array:

* in an **object** the keys may come in any order; a key that is not in the list is passed over,
  however often it is there, and a key of the list that is there twice spoils the record;
* in an **array** the fields come in the order of the list and the last ones may be left out; the
  tag of a tagged record comes first.

A missing field is not an error here: whether it may be missing is for the reader of the record to
say. The parts that a record hands out are smaller than the record, which is what makes reading a
tree a recursion on its size.
-/

namespace FlannelScript

namespace Json

/-- A value inside `j`. -/
abbrev Part (j : Json) := { v : Json // sizeOf v < sizeOf j }

/-- The values of all members with the given key, in order. -/
def valuesOf (key : String) (members : List (String × Json)) : List Json :=
  members.filterMap fun m => if m.1 = key then some m.2 else none

theorem sizeOf_lt_of_mem_valuesOf {key : String} {members : List (String × Json)} {v : Json}
    (h : v ∈ valuesOf key members) : sizeOf v < sizeOf (object members) := by
  unfold valuesOf at h
  obtain ⟨⟨k, w⟩, hm, hw⟩ := List.mem_filterMap.1 h
  have hs := List.sizeOf_lt_of_mem hm
  split at hw <;> simp_all
  omega

theorem sizeOf_lt_of_mem_items {items : List Json} {v : Json} (h : v ∈ items) :
    sizeOf v < sizeOf (array items) := by
  have := List.sizeOf_lt_of_mem h
  simp only [array.sizeOf_spec]
  omega

theorem sizeOf_items_lt {items : List Json} {n : Nat} (h : sizeOf (array items) < n) :
    sizeOf items < n := by
  simp only [array.sizeOf_spec] at h
  omega

theorem sizeOf_head_lt (j : Json) (rest : List Json) : sizeOf j < sizeOf (j :: rest) := by
  simp only [List.cons.sizeOf_spec]
  omega

theorem sizeOf_tail_lt (j : Json) (rest : List Json) : sizeOf rest < sizeOf (j :: rest) := by
  simp only [List.cons.sizeOf_spec]
  omega

/-- The field of an object: `none` if the key is repeated, `some none` if it is missing. -/
def field? (members : List (String × Json)) (key : String) :
    Option (Option (Part (object members))) :=
  match h : valuesOf key members with
  | [] => some none
  | [v] => some (some ⟨v, sizeOf_lt_of_mem_valuesOf (h ▸ List.mem_singleton.2 rfl)⟩)
  | _ => none

/-- The fields of a record with the given keys, in the order of the keys. -/
def fields? (keys : List String) : (j : Json) → Option (List (Option (Part j)))
  | object members => keys.mapM (field? members)
  | array items =>
    if items.length ≤ keys.length then
      some (items.attach.map (fun v => some ⟨v.1, sizeOf_lt_of_mem_items v.2⟩) ++
        List.replicate (keys.length - items.length) none)
    else none
  | _ => none

/-- The key of the tag. -/
def tagKey : String := "kind"

/-- The name that a tag stands for. A tag is one of the names; in a `nested` record it may also be
the position of a name in their list. -/
def tagName? (names : List String) (nested : Bool) : Json → Option String
  | string s => if s ∈ names then some s else none
  | integer n => if nested ∧ 0 ≤ n then names[n.toNat]? else none
  | _ => none

theorem sizeOf_array_tail_le (j : Json) (rest : List Json) :
    sizeOf (array rest) ≤ sizeOf (array (j :: rest)) := by
  simp only [array.sizeOf_spec, List.cons.sizeOf_spec]
  omega

/-- Split a tagged record into the name of its tag and the record of its fields. The tag of an
object is one of its members and no field of the record, so the object itself serves. -/
def tagged? (names : List String) (nested : Bool) :
    (j : Json) → Option (String × { b : Json // sizeOf b ≤ sizeOf j })
  | object members =>
    match valuesOf tagKey members with
    | [tag] => (tagName? names nested tag).map fun name => (name, ⟨object members, Nat.le_refl _⟩)
    | _ => none
  | array (tag :: fields) =>
    (tagName? names nested tag).map fun name =>
      (name, ⟨array fields, sizeOf_array_tail_le tag fields⟩)
  | _ => none

end Json

end FlannelScript
