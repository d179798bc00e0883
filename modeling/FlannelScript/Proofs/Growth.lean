import FlannelScript.Machine

/-!
# Classes and instances stay

A session only adds to what there is. A class that has been declared keeps its declaration
(`ClassTable.Extends`), whatever its name comes to stand for, so that its ancestors and the properties
of its instances stay the same. An instance keeps its place and the names of its properties. Both
together make the order in which machines follow each other (`Machine.Grows`).
-/

namespace FlannelScript

/-! ## Tables -/

namespace Bindings

variable {α : Type} {P P' : α → Prop} {t : Bindings α}

/-- Every entry of a table is good. -/
def All (P : α → Prop) (t : Bindings α) : Prop := ∀ p ∈ t.entries, P p.2

theorem All.empty : All P (∅ : Bindings α) := nofun

theorem All.imp (ht : t.All P) (h : ∀ a, P a → P' a) : t.All P' := fun p hp => h p.2 (ht p hp)

theorem mem_of_find {name : String} {l : List (String × α)} {a : α} (h : find name l = some a) :
    (name, a) ∈ l := by
  induction l with
  | nil => cases h
  | cons p rest ih =>
    obtain ⟨k, b⟩ := p
    rw [find] at h
    split at h
    · rename_i hk
      cases h
      rw [hk]
      exact List.mem_cons_self
    · exact List.mem_cons_of_mem _ (ih h)

theorem All.of_get? (ht : t.All P) {name : String} {a : α} (h : t.get? name = some a) : P a :=
  ht (name, a) (mem_of_find h)

theorem eq_or_mem_of_mem_put {name : String} {a : α} {l : List (String × α)} {p : String × α}
    (h : p ∈ put name a l) : p = (name, a) ∨ p ∈ l := by
  induction l with
  | nil => exact .inl (List.mem_singleton.mp h)
  | cons q rest ih =>
    obtain ⟨k, b⟩ := q
    rw [put] at h
    split at h
    · rename_i hk
      rcases List.mem_cons.mp h with rfl | h
      · rw [hk]
        exact .inl rfl
      · exact .inr (List.mem_cons_of_mem _ h)
    · rcases List.mem_cons.mp h with rfl | h
      · exact .inr List.mem_cons_self
      · exact (ih h).imp_right (List.mem_cons_of_mem _)

theorem All.insert (ht : t.All P) (name : String) {a : α} (ha : P a) : (t.insert name a).All P := by
  intro p hp
  rcases eq_or_mem_of_mem_put hp with rfl | hp
  · exact ha
  · exact ht p hp

theorem All.insertAll (ht : t.All P) {pairs : List (String × α)} (h : ∀ p ∈ pairs, P p.2) :
    (t.insertAll pairs).All P := by
  induction pairs generalizing t with
  | nil => exact ht
  | cons p rest ih =>
    obtain ⟨hp, hrest⟩ := List.forall_mem_cons.mp h
    exact ih (ht.insert p.1 hp) hrest

theorem All.ofList {pairs : List (String × α)} (h : ∀ p ∈ pairs, P p.2) :
    (Bindings.ofList pairs).All P :=
  All.empty.insertAll h

theorem All.overlay (ht : t.All P) {top : Bindings α} (htop : top.All P) : (t.overlay top).All P :=
  ht.insertAll htop

/-- Rebinding a name keeps the names. -/
theorem keys_insert_of_contains {name : String} (h : t.contains name = true) (a : α) :
    (t.insert name a).keys = t.keys := by
  obtain ⟨entries⟩ := t
  change (put name a entries).map (·.1) = entries.map (·.1)
  replace h : (find name entries).isSome = true := h
  induction entries with
  | nil => cases h
  | cons p rest ih =>
    obtain ⟨k, b⟩ := p
    rw [find] at h
    rw [put]
    split at h
    · rename_i hk
      rw [if_pos hk]
      rfl
    · rename_i hk
      rw [if_neg hk, List.map_cons, List.map_cons, ih h]

end Bindings

/-! ## Classes -/

namespace ClassTable

variable {t t' t'' : ClassTable}

/-- The class is built in or declared. -/
def Known (t : ClassTable) : ClassRef → Prop
  | .builtin _ => True
  | .declared id => id < t.classes.size

/-- All classes that are declared in the first table are so in the second one. -/
def Extends (t t' : ClassTable) : Prop :=
  ∀ (id : Nat) info, t.classes[id]? = some info → t'.classes[id]? = some info

theorem Extends.refl (t : ClassTable) : t.Extends t := fun _ _ h => h

theorem Extends.trans (h : t.Extends t') (h' : t'.Extends t'') : t.Extends t'' :=
  fun id info hinfo => h' id info (h id info hinfo)

theorem extends_declare (t : ClassTable) (info : ClassInfo) : t.Extends (t.declare info) := by
  intro id old hold
  obtain ⟨hid, -⟩ := Array.getElem?_eq_some_iff.mp hold
  change (t.classes.push info)[id]? = some old
  rw [Array.getElem?_push_lt hid, ← Array.getElem?_eq_getElem hid, hold]

theorem Known.mono {c : ClassRef} (hc : t.Known c) (h : t.Extends t') : t'.Known c := by
  cases c with
  | builtin b => trivial
  | declared id =>
    obtain ⟨hid, -⟩ := Array.getElem?_eq_some_iff.mp (h id _ (Array.getElem?_eq_getElem hc))
    exact hid

/-- Known classes keep their declarations. -/
theorem Extends.info? (h : t.Extends t') {c : ClassRef} (hc : t.Known c) : t'.info? c = t.info? c := by
  cases c with
  | builtin b => rfl
  | declared id =>
    obtain ⟨info, hinfo⟩ : ∃ info, t.classes[id]? = some info := ⟨_, Array.getElem?_eq_getElem hc⟩
    rw [ClassTable.info?, ClassTable.info?, hinfo, h id info hinfo]

/-- Declared ancestors have lower numbers. -/
theorem le_of_mem_declaredChain {id j : Nat} (h : .declared j ∈ t.declaredChain id) : j ≤ id := by
  induction id using Nat.strongRecOn with
  | ind id ih =>
    rw [declaredChain] at h
    rcases List.mem_cons.mp h with h | h
    · cases h
      exact Nat.le_refl j
    · -- the parent: no such class, a built-in one, or a declared one with a lower number
      split at h
      · cases h
      · split at h
        · rename_i b _
          cases b <;> simp [builtinChain] at h
        · split at h
          · rename_i hup
            exact Nat.le_trans (ih _ hup h) (Nat.le_of_lt hup)
          · cases h

theorem Known.of_mem_ancestors {c c' : ClassRef} (hc : t.Known c) (h : c' ∈ t.ancestors c) :
    t.Known c' := by
  cases c' with
  | builtin b => trivial
  | declared j =>
    cases c with
    | builtin b => cases b <;> simp [ancestors, builtinChain] at h
    | declared id => exact Nat.lt_of_le_of_lt (le_of_mem_declaredChain h) hc

theorem Extends.declaredChain (h : t.Extends t') {id : Nat} (hid : id < t.classes.size) :
    t'.declaredChain id = t.declaredChain id := by
  induction id using Nat.strongRecOn with
  | ind id ih =>
    have hinfo : t.classes[id]? = some t.classes[id] := Array.getElem?_eq_getElem hid
    rw [ClassTable.declaredChain.eq_def t', ClassTable.declaredChain.eq_def t, hinfo, h id _ hinfo]
    dsimp only
    -- both tables have the same declaration here, and so the same parent
    cases t.classes[id].parent with
    | builtin b => rfl
    | declared up =>
      dsimp only
      split
      · rename_i hup
        rw [ih up hup (Nat.lt_trans hup hid)]
      · rfl

/-- **Ancestors stay.** -/
theorem Extends.ancestors (h : t.Extends t') {c : ClassRef} (hc : t.Known c) :
    t'.ancestors c = t.ancestors c := by
  cases c with
  | builtin b => rfl
  | declared id => exact h.declaredChain hc

/-- **Defaults stay.** -/
theorem Extends.mergedDefaults (h : t.Extends t') {c : ClassRef} (hc : t.Known c) :
    t'.mergedDefaults c = t.mergedDefaults c := by
  have hfold : ∀ chain : List ClassRef, (∀ c' ∈ chain, t.Known c') →
      chain.foldr t'.applyDefaults ∅ = chain.foldr t.applyDefaults ∅ := by
    intro chain hchain
    induction chain with
    | nil => rfl
    | cons c' rest ih =>
      obtain ⟨hc', hrest⟩ := List.forall_mem_cons.mp hchain
      rw [List.foldr_cons, List.foldr_cons, ih hrest, applyDefaults, applyDefaults, h.info? hc']
  rw [ClassTable.mergedDefaults, ClassTable.mergedDefaults, h.ancestors hc]
  exact hfold _ fun c' hc' => hc.of_mem_ancestors hc'

/-- The defaults of an instance come from the declarations. -/
theorem all_mergedDefaults {P : Value → Prop}
    (h : ∀ info ∈ t.classes, info.overrides.All P ∧ info.defaults.All P) (c : ClassRef) :
    (t.mergedDefaults c).All P := by
  rw [ClassTable.mergedDefaults]
  induction t.ancestors c with
  | nil => exact .empty
  | cons c' rest ih =>
    rw [List.foldr_cons, applyDefaults]
    cases hinfo : t.info? c' with
    | none => exact ih
    | some info =>
      have hmem : info ∈ t.classes := by
        cases c' with
        | builtin b => cases hinfo
        | declared id => exact Array.mem_of_getElem? hinfo
      exact (ih.overlay (h info hmem).1).overlay (h info hmem).2

end ClassTable

/-! ## Instances -/

namespace Heap

variable {h h' : Heap} {loc : Loc} {name : String} {v : Value}

theorem set?_eq_some (hs : h.set? loc name v = some h') :
    (h.properties loc).contains name = true ∧
      h' = ⟨h.cells.modify loc fun table => table.insert name v⟩ := by
  rw [set?] at hs
  split at hs
  · cases hs
    exact ⟨by assumption, rfl⟩
  · cases hs

theorem size_of_set? (hs : h.set? loc name v = some h') : h'.cells.size = h.cells.size := by
  obtain ⟨-, rfl⟩ := set?_eq_some hs
  exact Array.size_modify

/-- Rebinding a property keeps the names of all properties. -/
theorem keys_of_set? (hs : h.set? loc name v = some h') (loc' : Loc) :
    (h'.properties loc').keys = (h.properties loc').keys := by
  obtain ⟨hname, rfl⟩ := set?_eq_some hs
  simp only [properties, Array.getElem?_modify]
  split
  · rename_i hloc
    subst hloc
    rw [properties] at hname
    cases hcell : h.cells[loc]? with
    | none => rfl
    | some table =>
      rw [hcell] at hname
      exact Bindings.keys_insert_of_contains hname v
  · rfl

/-- What is good for all properties is good for what is found. -/
theorem of_get? {P : Value → Prop} (hall : ∀ table ∈ h.cells, table.All P)
    (hget : h.get? loc name = some v) : P v := by
  rw [get?, properties] at hget
  cases hcell : h.cells[loc]? with
  | none =>
    rw [hcell] at hget
    cases hget
  | some table =>
    rw [hcell] at hget
    exact (hall table (Array.mem_of_getElem? hcell)).of_get? hget

theorem all_of_set? {P : Value → Prop} (hall : ∀ table ∈ h.cells, table.All P) (hv : P v)
    (hs : h.set? loc name v = some h') : ∀ table ∈ h'.cells, table.All P := by
  obtain ⟨-, rfl⟩ := set?_eq_some hs
  intro table htable
  obtain ⟨loc', hloc'⟩ := Array.getElem?_of_mem htable
  rw [Array.getElem?_modify] at hloc'
  split at hloc'
  · obtain ⟨old, hold, rfl⟩ := Option.map_eq_some_iff.mp hloc'
    exact (hall old (Array.mem_of_getElem? hold)).insert name hv
  · exact hall table (Array.mem_of_getElem? hloc')

end Heap

/-! ## Machines -/

/-- The second machine has all classes and instances of the first one, the instances with the same
names of properties. -/
structure Machine.Grows (m m' : Machine) : Prop where
  classes : m.classes.Extends m'.classes
  size : m.heap.cells.size ≤ m'.heap.cells.size
  keys : ∀ loc < m.heap.cells.size, (m'.heap.properties loc).keys = (m.heap.properties loc).keys

namespace Machine.Grows

variable {m m' m'' : Machine}

theorem refl (m : Machine) : m.Grows m := ⟨.refl _, Nat.le_refl _, fun _ _ => rfl⟩

/-- What changes neither classes nor instances. -/
theorem of_eq (hclasses : m'.classes = m.classes) (hheap : m'.heap = m.heap) : m.Grows m' := by
  refine ⟨?_, ?_, ?_⟩
  · rw [hclasses]
    exact .refl _
  · exact Nat.le_of_eq (by rw [hheap])
  · rw [hheap]
    exact fun _ _ => rfl

theorem trans (h : m.Grows m') (h' : m'.Grows m'') : m.Grows m'' where
  classes := h.classes.trans h'.classes
  size := Nat.le_trans h.size h'.size
  keys loc hloc := (h'.keys loc (Nat.lt_of_lt_of_le hloc h.size)).trans (h.keys loc hloc)

end Machine.Grows

end FlannelScript
