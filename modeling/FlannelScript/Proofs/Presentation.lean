import FlannelScript.Proofs.Forms
import Mathlib.Data.List.Nodup
import Mathlib.Data.List.Permutation
import Mathlib.Logic.Relation

/-!
# What does not matter in a tree, and what must not be there twice

The same tree can be presented in many ways. In any object the order of the members does not matter;
in the object of a node, members that the node does not know and fields that stand for their
defaults may be there or not. A change of this kind (`Restates`) may happen anywhere inside a tree,
and what is allowed at a place depends on how the value there is read. So a place carries its
`Shape`, which is found on the way down (`Shape.member`, `Shape.item`): the form of a node says how
the values of its fields are read, and `Within` carries a change of one value up to the whole tree.
The object form of a sort of literal is no node, and nothing can be added to it.

To read a value is to read any of its parts, in its shape, and to go on from there
(`Shape.ReadsThrough`). Hence parts that are read alike may be exchanged for each other, and a part
that cannot be read spoils the whole. The main statement (`Program.decode_presentation`) has one
half for each: restating a tree does not change the program, and a known key that is there twice
(`Repeats`) spoils it.
-/

namespace FlannelScript

open Json (valuesOf tagged? tagName? tagKey)

/-! ## Places in a tree -/

namespace Node

/-- The form of a node, if it has one. -/
def formOf? (n : Node) (j : Json) : Option (Form n.Tree) := (n.open? j).map Prod.fst

/-- The keys that a node knows: those of its fields, and that of its tag. -/
def known (n : Node) (j : Json) : List String :=
  (if n.tags?.isSome then [tagKey] else []) ++
    (n.formOf? j).elim [] fun form => form.fields.map Field.key

/-- How a node reads its field at a position. -/
def fieldAt (n : Node) (j : Json) (i : Nat) : Shape :=
  ((n.formOf? j).bind (·.fields[i]?)).elim .ignored Field.shape

/-- How a node reads its field with a key. -/
def fieldOf (n : Node) (j : Json) (key : String) : Shape :=
  ((n.formOf? j).bind fun form => form.fields.find? (·.key == key)).elim .ignored Field.shape

end Node

namespace Shape

/-- How the value of a key is read inside an object that is read in the given way. -/
def member : Shape → Json → String → Shape
  | node n, j, key =>
    match n.tags? with
    | none => n.fieldOf j key
    | some (names, nested) => if key = tagKey then tag names nested else n.fieldOf j key
  | sort, _, _ => empty
  | _, _, _ => ignored

/-- How an item is read inside an array that is read in the given way. -/
def item : Shape → Json → Nat → Shape
  | nodes n, _, _ => node n
  | node n, j, i =>
    match n.tags?, i with
    | none, i => n.fieldAt j i
    | some (names, nested), 0 => tag names nested
    | some _, i + 1 => n.fieldAt j i
  | _, _, _ => ignored

end Shape

/-- A change of one value, somewhere inside a value that is read in the given way. -/
inductive Within (change : Shape → Json → Json → Prop) : Shape → Json → Json → Prop where
  | here {s : Shape} {j j' : Json} (h : change s j j') : Within change s j j'
  | member {s : Shape} {before after : List (String × Json)} {key : String} {v v' : Json}
      (h : Within change (s.member (.object (before ++ (key, v) :: after)) key) v v') :
      Within change s (.object (before ++ (key, v) :: after))
        (.object (before ++ (key, v') :: after))
  | item {s : Shape} {before after : List Json} {v v' : Json}
      (h : Within change (s.item (.array (before ++ v :: after)) before.length) v v') :
      Within change s (.array (before ++ v :: after)) (.array (before ++ v' :: after))

/-- Something is added to a node that tells nothing new about it. -/
inductive Node.Addition (n : Node) : Json → Json → Prop where
  /-- a member that the node does not know -/
  | unknown {before after : List (String × Json)} {key : String} {v : Json}
      (h : key ∉ n.known (.object (before ++ (key, v) :: after))) :
      Addition n (.object (before ++ after)) (.object (before ++ (key, v) :: after))
  /-- a missing field, with its default -/
  | field {before after : List (String × Json)} {form : Form n.Tree} {f : Field} {v : Json}
      (hform : n.formOf? (.object (before ++ (f.key, v) :: after)) = some form)
      (hf : f ∈ form.fields) (hdefault : f.default? = some v)
      (hmissing : f.key ∉ (before ++ after).map Prod.fst) :
      Addition n (.object (before ++ after)) (.object (before ++ (f.key, v) :: after))
  /-- the next field of a node that is written as an array, with its default -/
  | next {items fields : List Json} {form : Form n.Tree} {f : Field} {v : Json}
      (hform : n.open? (.array items) = some (form, .array fields))
      (hf : form.fields[fields.length]? = some f) (hdefault : f.default? = some v) :
      Addition n (.array items) (.array (items ++ [v]))

/-- The same is said in another way. -/
inductive Restates : Shape → Json → Json → Prop where
  | permute {s : Shape} {members members' : List (String × Json)} (h : members.Perm members') :
      Restates s (.object members) (.object members')
  | add {n : Node} {j j' : Json} (h : n.Addition j j') : Restates (.node n) j j'
  | remove {n : Node} {j j' : Json} (h : n.Addition j' j) : Restates (.node n) j j'

/-- A key of a node that the node knows is repeated, with any value. -/
inductive Repeats : Shape → Json → Json → Prop where
  | member {n : Node} {before after : List (String × Json)} {key : String}
      (hknown : key ∈ n.known (.object (before ++ after)))
      (hthere : key ∈ (before ++ after).map Prod.fst) (v : Json) :
      Repeats (.node n) (.object (before ++ after)) (.object (before ++ (key, v) :: after))

/-! ## Objects -/

namespace Node

/-- The form that the values of the tag stand for. -/
def formOfTags? (n : Node) (tags : List Json) : Option (Form n.Tree) :=
  match n.tags? with
  | none => n.form? ""
  | some (names, nested) =>
    match tags with
    | [tag] => (tagName? names nested tag).bind n.form?
    | _ => none

variable {n : Node}

theorem formOf?_of_open? {form? : Option (Form n.Tree)} {j record : Json}
    (h : n.open? j = form?.map (·, record)) : n.formOf? j = form? := by
  rw [formOf?, h, Option.map_map]
  exact Option.map_id'

theorem decode_of_open? {form? : Option (Form n.Tree)} {j record : Json}
    (h : n.open? j = form?.map (·, record)) : n.decode j = form?.bind (·.decode record) := by
  rw [decode_eq, h, Option.bind_map]
  rfl

theorem open?_of_tags?_eq_none (htags : n.tags? = none) (j : Json) :
    n.open? j = (n.form? "").map (·, j) := by
  rw [open?, htags]

theorem open?_object (members : List (String × Json)) : n.open? (.object members) =
    (n.formOfTags? (valuesOf tagKey members)).map (·, .object members) := by
  rw [open?, formOfTags?]
  cases n.tags? with
  | none => rfl
  | some tags =>
    dsimp only
    rw [tagged?]
    rcases valuesOf tagKey members with _ | ⟨tag, _ | _⟩
    · rfl
    · dsimp only
      cases tagName? tags.1 tags.2 tag <;> rfl
    · rfl

theorem open?_array_cons {names : List String} {nested : Bool}
    (htags : n.tags? = some (names, nested)) (tag : Json) (items : List Json) :
    n.open? (.array (tag :: items)) =
      ((tagName? names nested tag).bind n.form?).map (·, .array items) := by
  rw [open?, htags]
  dsimp only [tagged?]
  cases tagName? names nested tag <;> rfl

theorem formOfTags?_of_tags?_eq_none (htags : n.tags? = none) (values values' : List Json) :
    n.formOfTags? values = n.formOfTags? values' := by
  rw [formOfTags?, formOfTags?, htags]

/-- Objects are read alike if their tags and their fields are. -/
theorem decode_members_congr (n : Node) {members members' : List (String × Json)}
    (htags : n.formOfTags? (valuesOf tagKey members) = n.formOfTags? (valuesOf tagKey members'))
    (hfields : ∀ form, n.formOfTags? (valuesOf tagKey members) = some form → ∀ f ∈ form.fields,
      f.ofValues (valuesOf f.key members) = f.ofValues (valuesOf f.key members')) :
    n.decode (.object members) = n.decode (.object members') := by
  rw [decode_of_open? (open?_object _), decode_of_open? (open?_object _), ← htags]
  exact Option.bind_congr fun form hform => form.make.ofMembers_congr (hfields form hform)

end Node

/-! ## Members in another order -/

/-- If one value at most is allowed, its place among the values does not matter. -/
theorem eq_or_two_le_of_perm {α : Type} {l l' : List α} (h : l.Perm l') :
    l = l' ∨ 2 ≤ l.length ∧ 2 ≤ l'.length := by
  have hlen := h.length_eq
  rcases l with _ | ⟨a, _ | ⟨b, l⟩⟩
  · exact .inl (List.nil_perm.1 h).symm
  · exact .inl (List.singleton_perm.1 h)
  · refine .inr ⟨by simp, ?_⟩
    rw [← hlen]
    simp

theorem two_le_length_insert {α : Type} {before after : List α} (h : ¬(before = [] ∧ after = []))
    (a : α) : 2 ≤ (before ++ a :: after).length := by
  rw [← List.length_eq_zero_iff, ← List.length_eq_zero_iff] at h
  rw [List.length_append, List.length_cons]
  omega

theorem Field.ofValues_eq_none (f : Field) {values : List Json} (h : 2 ≤ values.length) :
    f.ofValues values = none := by
  rcases values with _ | ⟨v, _ | ⟨w, values⟩⟩
  · simp at h
  · simp at h
  · rfl

theorem Node.formOfTags?_eq_none {n : Node} (htags : n.tags?.isSome) {values : List Json}
    (h : 2 ≤ values.length) : n.formOfTags? values = none := by
  obtain ⟨tags, htags⟩ := Option.isSome_iff_exists.1 htags
  rcases values with _ | ⟨v, _ | ⟨w, values⟩⟩
  · simp at h
  · simp at h
  · rw [formOfTags?, htags]

theorem Node.decode_permute (n : Node) {members members' : List (String × Json)}
    (h : members.Perm members') : n.decode (.object members) = n.decode (.object members') := by
  have hvalues : ∀ key, (valuesOf key members).Perm (valuesOf key members') := fun key =>
    h.filterMap _
  refine n.decode_members_congr ?_ fun form _ f _ => ?_
  · cases htags : n.tags? with
    | none => exact formOfTags?_of_tags?_eq_none htags _ _
    | some tags =>
      rcases eq_or_two_le_of_perm (hvalues tagKey) with heq | ⟨hlen, hlen'⟩
      · rw [heq]
      · have hsome : n.tags?.isSome := by rw [htags]; rfl
        rw [formOfTags?_eq_none hsome hlen, formOfTags?_eq_none hsome hlen']
  · rcases eq_or_two_le_of_perm (hvalues f.key) with heq | ⟨hlen, hlen'⟩
    · rw [heq]
    · rw [f.ofValues_eq_none hlen, f.ofValues_eq_none hlen']

theorem LiteralKind.decode_object_singleton (word : String) (v : Json) :
    decode (.object [(word, v)]) = v.empty?.bind fun _ => ofWord? word := by
  rcases v with _ | _ | _ | _ | _ | _ | ⟨_ | _⟩ <;> rfl

theorem LiteralKind.decode_object_eq_none {members : List (String × Json)}
    (h : 2 ≤ members.length) : decode (.object members) = none := by
  rcases members with _ | ⟨⟨word, v⟩, _ | ⟨m', members⟩⟩
  · simp at h
  · simp at h
  · simp [decode]

/-- The order of the members makes no difference. -/
theorem Shape.decode_permute (s : Shape) {members members' : List (String × Json)}
    (h : members.Perm members') : s.decode (.object members) = s.decode (.object members') := by
  cases s with
  | node n => exact n.decode_permute h
  | nodes | text | parent | tag | ignored => rfl
  | sort =>
    rcases eq_or_two_le_of_perm h with heq | ⟨hlen, hlen'⟩
    · rw [heq]
    · exact (LiteralKind.decode_object_eq_none hlen).trans
        (LiteralKind.decode_object_eq_none hlen').symm
  | empty =>
    cases members with
    | nil => rw [List.nil_perm.1 h]
    | cons m members =>
      cases members' with
      | nil => exact absurd (List.perm_nil.1 h) (by simp)
      | cons m' members' => rfl

/-! ## More members -/

/-- A member beside the tag does not change the form. -/
theorem Node.formOfTags?_insert {n : Node} {key : String} (h : n.tags?.isSome → key ≠ tagKey)
    (v : Json) (before after : List (String × Json)) :
    n.formOfTags? (valuesOf tagKey (before ++ (key, v) :: after)) =
      n.formOfTags? (valuesOf tagKey (before ++ after)) := by
  cases htags : n.tags? with
  | none => exact formOfTags?_of_tags?_eq_none htags _ _
  | some tags => rw [Json.valuesOf_insert_of_ne (h (by rw [htags]; rfl))]

theorem Node.ne_tagKey_of_notMem_known {n : Node} {j : Json} {key : String} (h : key ∉ n.known j)
    (htags : n.tags?.isSome) : key ≠ tagKey := by
  rintro rfl
  simp [known, htags] at h

theorem Node.ne_key_of_notMem_known {n : Node} {j : Json} {key : String} {form : Form n.Tree}
    (h : key ∉ n.known j) (hform : n.formOf? j = some form) {f : Field} (hf : f ∈ form.fields) :
    key ≠ f.key := by
  rintro rfl
  refine h (List.mem_append_right _ ?_)
  rw [hform]
  exact List.mem_map_of_mem hf

theorem Form.key_ne_tagKey {T : Type} (form : Form T) {f : Field} (hf : f ∈ form.fields) :
    f.key ≠ tagKey := fun h => form.plain (h ▸ List.mem_map_of_mem hf)

theorem Form.eq_of_key_eq {T : Type} (form : Form T) {f f' : Field} (hf : f ∈ form.fields)
    (hf' : f' ∈ form.fields) (h : f.key = f'.key) : f = f' :=
  List.inj_on_of_nodup_map form.nodup hf hf' h

theorem Node.open?_array_append {n : Node} {items fields : List Json} {form : Form n.Tree}
    (h : n.open? (.array items) = some (form, .array fields)) (more : List Json) :
    n.open? (.array (items ++ more)) = some (form, .array (fields ++ more)) := by
  cases htags : n.tags? with
  | none =>
    rw [open?_of_tags?_eq_none htags] at h ⊢
    obtain ⟨form', hform, h⟩ := Option.map_eq_some_iff.1 h
    cases h
    rw [hform]
    rfl
  | some tags =>
    cases items with
    | nil =>
      rw [open?, htags] at h
      cases h
    | cons tag items =>
      rw [open?_array_cons htags] at h
      obtain ⟨form', hform, h⟩ := Option.map_eq_some_iff.1 h
      cases h
      rw [List.cons_append, open?_array_cons htags, hform]
      rfl

theorem Maker.ofItems_concat_default {T : Type} {fs : List Field} (g : Maker T fs)
    {items : List Json} {f : Field} {v : Json} (hf : fs[items.length]? = some f)
    (hdefault : f.default? = some v) : g.ofItems (items ++ [v]) = g.ofItems items := by
  induction fs generalizing items with
  | nil => cases hf
  | cons f' fs ih =>
    cases items with
    | nil =>
      cases hf
      rw [List.nil_append, ofItems, ofItems, Field.read, Field.read, hdefault]
      rfl
    | cons w items =>
      rw [List.cons_append, ofItems, ofItems]
      exact Option.bind_congr fun x _ => ih (g x) hf

theorem Node.Addition.decode_eq {n : Node} {j j' : Json} (h : n.Addition j j') :
    n.decode j = n.decode j' := by
  cases h with
  | @unknown before after key v h =>
    have htag := formOfTags?_insert (fun htags => ne_tagKey_of_notMem_known h htags) v before after
    refine (n.decode_members_congr htag fun form hform f hf => ?_).symm
    rw [← formOf?_of_open? (open?_object _)] at hform
    rw [Json.valuesOf_insert_of_ne (ne_key_of_notMem_known h hform hf)]
  | @field before after form f v hform hf hdefault hmissing =>
    have htag := formOfTags?_insert (n := n) (fun _ => form.key_ne_tagKey hf) v before after
    rw [formOf?_of_open? (open?_object _)] at hform
    refine (n.decode_members_congr htag fun form' hform' g hg => ?_).symm
    obtain rfl : form = form' := Option.some.inj (hform.symm.trans hform')
    by_cases hkey : f.key = g.key
    · obtain rfl := form.eq_of_key_eq hf hg hkey
      rw [List.map_append, List.mem_append, not_or] at hmissing
      rw [Json.valuesOf_insert_self, Json.valuesOf_append, Json.valuesOf_eq_nil hmissing.1,
        Json.valuesOf_eq_nil hmissing.2]
      simp [Field.ofValues, Field.read, hdefault]
    · rw [Json.valuesOf_insert_of_ne hkey]
  | @next items fields form f v hform hf hdefault =>
    rw [Node.decode_eq, Node.decode_eq, hform, open?_array_append hform]
    exact (form.make.ofItems_concat_default hf hdefault).symm

theorem Restates.decode_eq {s : Shape} {j j' : Json} (h : Restates s j j') :
    s.decode j = s.decode j' := by
  cases h with
  | permute h => exact s.decode_permute h
  | add h => exact h.decode_eq
  | remove h => exact h.decode_eq.symm

/-! ## Values inside values -/

/-- To read the whole as `s` is to read the part as `part` and to go on from there. -/
def Shape.ReadsThrough (s part : Shape) (whole : Json → Json) : Prop :=
  ∃ next : part.Tree → Option s.Tree, ∀ v, s.decode (whole v) = (part.decode v).bind next

namespace Shape.ReadsThrough

variable {s part : Shape} {whole : Json → Json}

theorem congr (h : s.ReadsThrough part whole) {v v' : Json} (hv : part.decode v = part.decode v') :
    s.decode (whole v) = s.decode (whole v') := by
  obtain ⟨next, hnext⟩ := h
  rw [hnext, hnext, hv]

theorem eq_none (h : s.ReadsThrough part whole) {v : Json} (hv : part.decode v = none) :
    s.decode (whole v) = none := by
  obtain ⟨next, hnext⟩ := h
  rw [hnext, hv]
  rfl

/-- Nothing is read, whatever the part is. -/
theorem of_eq_none (h : ∀ v, s.decode (whole v) = none) : s.ReadsThrough part whole :=
  ⟨fun _ => none, fun v => by rw [h, Option.bind_fun_none]⟩

/-- The part does not matter. -/
theorem of_eq {t : Option s.Tree} (h : ∀ v, s.decode (whole v) = t) :
    s.ReadsThrough ignored whole :=
  ⟨fun _ => t, fun v => by rw [h]; rfl⟩

end Shape.ReadsThrough

theorem Field.exists_ofValues_insert (f : Field) (before after : List Json) :
    ∃ next : f.shape.Tree → Option f.shape.Tree, ∀ v,
      f.ofValues (before ++ v :: after) = (f.shape.decode v).bind next := by
  by_cases h : before = [] ∧ after = []
  · obtain ⟨rfl, rfl⟩ := h
    exact ⟨some, fun v => (Option.bind_fun_some _).symm⟩
  · refine ⟨fun _ => none, fun v => ?_⟩
    rw [f.ofValues_eq_none (two_le_length_insert h v), Option.bind_fun_none]

theorem Maker.exists_ofMembers_insert {T : Type} {fs : List Field} (g : Maker T fs)
    (hnodup : (fs.map Field.key).Nodup) {f : Field} (hf : f ∈ fs)
    (before after : List (String × Json)) : ∃ next : f.shape.Tree → Option T, ∀ v,
      g.ofMembers (before ++ (f.key, v) :: after) = (f.shape.decode v).bind next := by
  induction fs with
  | nil => cases hf
  | cons f' fs ih =>
    rw [List.map_cons, List.nodup_cons] at hnodup
    rcases List.mem_cons.1 hf with rfl | hf
    · -- the other fields do not look at this member
      obtain ⟨next, hnext⟩ :=
        f.exists_ofValues_insert (valuesOf f.key before) (valuesOf f.key after)
      refine ⟨fun x => (next x).bind fun x => (g x).ofMembers (before ++ after), fun v => ?_⟩
      rw [ofMembers, Json.valuesOf_insert_self, hnext, Option.bind_assoc]
      refine Option.bind_congr fun x _ => Option.bind_congr fun y _ => ?_
      exact (g y).ofMembers_insert hnodup.1 v before after
    · have hne : f.key ≠ f'.key := fun h => hnodup.1 (h ▸ List.mem_map_of_mem hf)
      choose next hnext using fun x => ih (g x) hnodup.2 hf
      refine ⟨fun y => (f'.ofValues (valuesOf f'.key (before ++ after))).bind fun x => next x y,
        fun v => ?_⟩
      rw [ofMembers, Json.valuesOf_insert_of_ne hne]
      simp only [hnext]
      exact Option.bind_comm ..

theorem Maker.exists_ofItems_insert {T : Type} {fs : List Field} (g : Maker T fs)
    (before after : List Json) :
    ∃ next : ((fs[before.length]?).elim Shape.ignored Field.shape).Tree → Option T, ∀ v,
      g.ofItems (before ++ v :: after) =
        (((fs[before.length]?).elim Shape.ignored Field.shape).decode v).bind next := by
  induction fs generalizing before with
  | nil =>
    refine ⟨fun _ => none, fun v => ?_⟩
    rw [Option.bind_fun_none]
    cases before <;> rfl
  | cons f fs ih =>
    cases before with
    | nil => exact ⟨fun x => (g x).ofItems after, fun v => rfl⟩
    | cons w before =>
      choose next hnext using fun x => ih (g x) before
      refine ⟨fun y => (f.read (some w)).bind fun x => next x y, fun v => ?_⟩
      rw [List.cons_append, ofItems]
      simp only [hnext]
      exact Option.bind_comm ..

namespace Node

theorem readsThrough_tag {n : Node} {names : List String} {nested : Bool}
    (htags : n.tags? = some (names, nested)) (before after : List (String × Json)) :
    (Shape.node n).ReadsThrough (.tag names nested)
      (fun v => .object (before ++ (tagKey, v) :: after)) := by
  have hdecode : ∀ v, (Shape.node n).decode (.object (before ++ (tagKey, v) :: after)) =
      (n.formOfTags? (valuesOf tagKey before ++ v :: valuesOf tagKey after)).bind
        (·.make.ofMembers (before ++ after)) := by
    intro v
    refine (Node.decode_of_open? (Node.open?_object _)).trans ?_
    rw [Json.valuesOf_insert_self]
    exact Option.bind_congr fun form _ => form.make.ofMembers_insert form.plain v before after
  by_cases h : valuesOf tagKey before = [] ∧ valuesOf tagKey after = []
  · refine ⟨fun kind => (n.form? kind).bind (·.make.ofMembers (before ++ after)), fun v => ?_⟩
    rw [hdecode, h.1, h.2, formOfTags?, htags]
    exact Option.bind_assoc ..
  · refine .of_eq_none fun v => ?_
    rw [hdecode, formOfTags?_eq_none (by rw [htags]; rfl) (two_le_length_insert h v)]
    rfl

theorem readsThrough_field {n : Node} {key : String} (hkey : n.tags?.isSome → key ≠ tagKey)
    (before after : List (String × Json)) (v : Json) :
    (Shape.node n).ReadsThrough (n.fieldOf (.object (before ++ (key, v) :: after)) key)
      (fun w => .object (before ++ (key, w) :: after)) := by
  have hdecode : ∀ w, (Shape.node n).decode (.object (before ++ (key, w) :: after)) =
      (n.formOfTags? (valuesOf tagKey (before ++ after))).bind
        (·.make.ofMembers (before ++ (key, w) :: after)) := by
    intro w
    refine (Node.decode_of_open? (Node.open?_object _)).trans ?_
    rw [formOfTags?_insert hkey]
    rfl
  rw [fieldOf, formOf?_of_open? (open?_object _), formOfTags?_insert hkey]
  cases hform : n.formOfTags? (valuesOf tagKey (before ++ after)) with
  | none =>
    rw [hform] at hdecode
    exact .of_eq hdecode
  | some form =>
    rw [hform] at hdecode
    rw [Option.bind_some]
    cases hfind : form.fields.find? (·.key == key) with
    | none =>
      have hmem : key ∉ form.fields.map Field.key := by
        intro h
        obtain ⟨f, hf, rfl⟩ := List.mem_map.1 h
        exact absurd (List.find?_eq_none.1 hfind f hf) (by simp)
      exact .of_eq fun w => (hdecode w).trans (form.make.ofMembers_insert hmem w before after)
    | some f =>
      obtain rfl : f.key = key := by simpa using List.find?_some hfind
      obtain ⟨next, hnext⟩ := form.make.exists_ofMembers_insert form.nodup
        (List.mem_of_find?_eq_some hfind) before after
      exact ⟨next, fun w => (hdecode w).trans (hnext w)⟩

theorem readsThrough_items {n : Node} {form? : Option (Form n.Tree)} (before after : List Json)
    {whole : Json → Json}
    (h : ∀ v, n.decode (whole v) = form?.bind (·.make.ofItems (before ++ v :: after))) :
    (Shape.node n).ReadsThrough
      ((form?.bind (·.fields[before.length]?)).elim .ignored Field.shape) whole := by
  cases form? with
  | none => exact .of_eq h
  | some form =>
    obtain ⟨next, hnext⟩ := form.make.exists_ofItems_insert before after
    exact ⟨next, fun v => (h v).trans (hnext v)⟩

end Node

namespace Shape

theorem readsThrough_member (s : Shape) (before after : List (String × Json)) (key : String)
    (v : Json) : s.ReadsThrough (s.member (.object (before ++ (key, v) :: after)) key)
      (fun w => .object (before ++ (key, w) :: after)) := by
  cases s with
  | node n =>
    rw [member]
    cases htags : n.tags? with
    | none => exact Node.readsThrough_field (by simp [htags]) before after v
    | some tags =>
      dsimp only
      split
      · rename_i hkey
        subst hkey
        exact Node.readsThrough_tag htags before after
      · rename_i hkey
        exact Node.readsThrough_field (fun _ => hkey) before after v
  | nodes | text | parent | tag => exact .of_eq_none fun _ => rfl
  | ignored => exact .of_eq fun _ => rfl
  | empty => exact .of_eq_none fun w => by cases before <;> rfl
  | sort =>
    by_cases h : before = [] ∧ after = []
    · obtain ⟨rfl, rfl⟩ := h
      exact ⟨_, LiteralKind.decode_object_singleton key⟩
    · exact .of_eq_none fun w => LiteralKind.decode_object_eq_none (two_le_length_insert h _)

theorem readsThrough_item (s : Shape) (before after : List Json) (v : Json) :
    s.ReadsThrough (s.item (.array (before ++ v :: after)) before.length)
      (fun w => .array (before ++ w :: after)) := by
  cases s with
  | node n =>
    cases htags : n.tags? with
    | none =>
      have hopen := fun w =>
        Node.open?_of_tags?_eq_none htags (.array (before ++ w :: after))
      simp only [item, htags, Node.fieldAt, Node.formOf?_of_open? (hopen v)]
      exact Node.readsThrough_items before after fun w => Node.decode_of_open? (hopen w)
    | some tags =>
      cases before with
      | nil =>
        have hitem : (node n).item (.array (v :: after)) 0 = tag tags.1 tags.2 := by
          simp [item, htags]
        rw [List.nil_append, List.length_nil, hitem]
        refine ⟨fun kind => (n.form? kind).bind (·.make.ofItems after), fun w => ?_⟩
        refine (Node.decode_of_open? (Node.open?_array_cons htags w after)).trans ?_
        exact Option.bind_assoc ..
      | cons tag before =>
        have hopen := fun w => Node.open?_array_cons htags tag (before ++ w :: after)
        simp only [item, htags, List.cons_append, List.length_cons, Node.fieldAt,
          Node.formOf?_of_open? (hopen v)]
        exact Node.readsThrough_items before after fun w => Node.decode_of_open? (hopen w)
  | nodes n =>
    change (nodes n).ReadsThrough (node n) _
    refine ⟨fun x => (before.mapM n.decode).bind fun l =>
      (after.mapM n.decode).bind fun l' => some (l ++ x :: l'), fun w => ?_⟩
    change (before ++ w :: after).mapM n.decode = (n.decode w).bind _
    rw [List.mapM_append, List.mapM_cons, Option.bind_comm]
    simp [Option.bind_assoc]
  | text | sort | empty | parent | tag => exact .of_eq_none fun _ => rfl
  | ignored => exact .of_eq fun _ => rfl

end Shape

/-! ## Whole trees -/

theorem Within.decode_eq {s : Shape} {j j' : Json} (h : Within Restates s j j') :
    s.decode j = s.decode j' := by
  induction h with
  | here h => exact h.decode_eq
  | @member s before after key v v' _ ih =>
    exact (s.readsThrough_member before after key v).congr ih
  | @item s before after v v' _ ih => exact (s.readsThrough_item before after v).congr ih

theorem Maker.ofMembers_eq_none {T : Type} {fs : List Field} (g : Maker T fs)
    {members : List (String × Json)} {f : Field} (hf : f ∈ fs)
    (h : f.ofValues (valuesOf f.key members) = none) : g.ofMembers members = none := by
  induction fs with
  | nil => cases hf
  | cons f' fs ih =>
    rw [ofMembers]
    rcases List.mem_cons.1 hf with rfl | hf
    · rw [h]
      rfl
    · simp only [ih _ hf, Option.bind_fun_none]

theorem Json.two_le_length_valuesOf {key : String} {before after : List (String × Json)}
    (h : key ∈ (before ++ after).map Prod.fst) (v : Json) :
    2 ≤ (valuesOf key (before ++ (key, v) :: after)).length := by
  obtain ⟨m, hm, hkey⟩ := List.mem_map.1 h
  have hmem : m.2 ∈ valuesOf key (before ++ after) :=
    List.mem_filterMap.2 ⟨m, hm, if_pos hkey⟩
  have hlen := List.length_pos_of_mem hmem
  rw [valuesOf_append, List.length_append] at hlen
  rw [valuesOf_insert_self, List.length_append, List.length_cons]
  omega

theorem Repeats.decode_eq_none {s : Shape} {j j' : Json} (h : Repeats s j j') :
    s.decode j' = none := by
  obtain ⟨hknown, hthere, v⟩ := h
  rename_i n before after key
  have hlen := Json.two_le_length_valuesOf hthere v
  refine (Node.decode_of_open? (Node.open?_object _)).trans ?_
  by_cases htag : n.tags?.isSome ∧ key = tagKey
  · obtain ⟨htags, rfl⟩ := htag
    rw [Node.formOfTags?_eq_none htags hlen]
    rfl
  · rw [Node.formOfTags?_insert fun htags hkey => htag ⟨htags, hkey⟩]
    rw [Node.known, Node.formOf?_of_open? (Node.open?_object _)] at hknown
    cases hform : n.formOfTags? (valuesOf tagKey (before ++ after)) with
    | none => rfl
    | some form =>
      have hkey : key ∈ form.fields.map Field.key := by
        rw [hform] at hknown
        rcases List.mem_append.1 hknown with h | h
        · split at h
          · rename_i htags
            exact absurd ⟨htags, List.mem_singleton.1 h⟩ htag
          · cases h
        · exact h
      obtain ⟨f, hf, rfl⟩ := List.mem_map.1 hkey
      exact form.make.ofMembers_eq_none hf (f.ofValues_eq_none hlen)

theorem Within.decode_eq_none {s : Shape} {j j' : Json} (h : Within Repeats s j j') :
    s.decode j' = none := by
  induction h with
  | here h => exact h.decode_eq_none
  | @member s before after key v v' _ ih =>
    exact (s.readsThrough_member before after key v).eq_none ih
  | @item s before after v v' _ ih => exact (s.readsThrough_item before after v).eq_none ih

/-- **Presentation does not matter**, and keys must not be repeated. -/
theorem Program.decode_presentation :
    (∀ j j' p, decode j = some p →
      Relation.ReflTransGen (Within Restates (.node .program)) j j' → decode j' = some p) ∧
    (∀ j j', Within Repeats (.node .program) j j' → decode j' = none) := by
  refine ⟨fun j j' p hj h => ?_, fun j j' h => h.decode_eq_none⟩
  induction h with
  | refl => exact hj
  | tail _ hstep ih => exact hstep.decode_eq.symm.trans ih

theorem Within.of_statement {change : Shape → Json → Json → Prop} {j j' : Json}
    (h : Within change (.node (.stmt false)) j j') :
    Within change (.node .program) (.object [("statements", .array [j])])
      (.object [("statements", .array [j'])]) :=
  @member _ _ [] [] "statements" _ _ (@item _ (.nodes (.stmt false)) [] [] _ _ h)

/-- A class whose overrides are written out, with a remark in front and its tag at the end, is the
class without all that; with a second tag it is nothing. -/
theorem Program.decode_presentation_class :
    decode (.object [("statements", .array [.object [("remark", .bool true),
        ("name", .string "A"), ("overrides", .array []), ("kind", .string "class")]])]) =
      some ⟨[.classDecl ⟨"A", none, [], [], []⟩]⟩ ∧
    decode (.object [("statements", .array [.object [("kind", .string "class"),
        ("name", .string "A"), ("kind", .string "echo")]])]) = none := by
  have hswap : Restates (.node (.stmt false))
      (.object [("kind", .string "class"), ("name", .string "A")])
      (.object [("name", .string "A"), ("kind", .string "class")]) :=
    .permute (.swap ..)
  have hfield : Restates (.node (.stmt false))
      (.object [("name", .string "A"), ("kind", .string "class")])
      (.object [("name", .string "A"), ("overrides", .array []), ("kind", .string "class")]) :=
    .add (@Node.Addition.field (.stmt false) [("name", .string "A")] [("kind", .string "class")]
      ClassDecl.form ⟨"overrides", .nodes .override, some (.array [])⟩ _ rfl
      (by simp [ClassDecl.form]) rfl (by decide))
  have hremark : Restates (.node (.stmt false))
      (.object [("name", .string "A"), ("overrides", .array []), ("kind", .string "class")])
      (.object [("remark", .bool true), ("name", .string "A"), ("overrides", .array []),
        ("kind", .string "class")]) :=
    .add (@Node.Addition.unknown _ [] _ "remark" (.bool true) (by decide))
  have htag : Repeats (.node (.stmt false))
      (.object [("kind", .string "class"), ("name", .string "A")])
      (.object [("kind", .string "class"), ("name", .string "A"), ("kind", .string "echo")]) :=
    @Repeats.member _ [("kind", .string "class"), ("name", .string "A")] [] "kind" (by decide)
      (by decide) _
  refine ⟨decode_presentation.1 (.object [("statements", .array [.object
    [("kind", .string "class"), ("name", .string "A")]])]) _ _ (by cbv) ?_,
    decode_presentation.2 _ _ (Within.of_statement (.here htag))⟩
  exact .head (Within.of_statement (.here hswap)) (.head (Within.of_statement (.here hfield))
    (.single (Within.of_statement (.here hremark))))

end FlannelScript
