import FlannelScript.Proofs.Chains
import Mathlib.Data.List.Nodup

/-!
# The defaults of a class

A new instance gets its properties from the root down: each class lays its overrides over what it
inherits, and its own properties over that. To know what a property starts with, one goes the other
way, from the class upwards, to the first class that says anything about the property
(`ClassTable.Nearest`). Both come to the same (`defaults_of_nearest`).

The tables of a class could be gone through in any order, as each holds a name once. This is because
they are made from the entries of one declaration by insertion, where the last entry of a name
counts (`Bindings.LastEntry`).
-/

namespace FlannelScript

open Eval Machine

/-! ## Tables made from entries -/

namespace Bindings

variable {α : Type} {t top : Bindings α} {entries : List (String × α)} {name : String} {a : α}

/-- The list has an entry of the name, and no other one of that name behind it. -/
def LastEntry (entries : List (String × α)) (name : String) (a : α) : Prop :=
  ∃ before after, entries = before ++ (name, a) :: after ∧ name ∉ after.map (·.1)

theorem exists_lastEntry (h : name ∈ entries.map (·.1)) : ∃ a, LastEntry entries name a := by
  induction entries with
  | nil => cases h
  | cons p rest ih =>
    by_cases hrest : name ∈ rest.map (·.1)
    · obtain ⟨a, before, after, rfl, hafter⟩ := ih hrest
      exact ⟨a, p :: before, after, rfl, hafter⟩
    · obtain rfl : name = p.1 := (List.mem_cons.mp h).resolve_right hrest
      exact ⟨p.2, [], rest, rfl, hrest⟩

theorem get?_insertAll_of_lastEntry (h : LastEntry entries name a) :
    (t.insertAll entries).get? name = some a := by
  obtain ⟨before, after, rfl, hafter⟩ := h
  rw [insertAll_append, insertAll_cons, get?_insertAll_of_notMem _ _ _ hafter, get?_insert_self]

/-- **The last entry of a name counts.** -/
theorem get?_ofList_eq_some_iff :
    (ofList entries).get? name = some a ↔ LastEntry entries name a := by
  refine ⟨fun h => ?_, get?_insertAll_of_lastEntry⟩
  by_cases hname : name ∈ entries.map (·.1)
  · obtain ⟨b, hb⟩ := exists_lastEntry hname
    obtain rfl : b = a := Option.some.inj ((get?_insertAll_of_lastEntry hb).symm.trans h)
    exact hb
  · rw [ofList, get?_insertAll_of_notMem _ _ _ hname] at h
    cases h

/-- The table holds each name once. -/
def Distinct (t : Bindings α) : Prop := t.keys.Nodup

theorem Distinct.insert (h : t.Distinct) (name : String) (a : α) : (t.insert name a).Distinct := by
  obtain ⟨entries⟩ := t
  change ((put name a entries).map (·.1)).Nodup
  replace h : (entries.map (·.1)).Nodup := h
  induction entries with
  | nil => exact List.nodup_singleton name
  | cons p rest ih =>
    obtain ⟨k, b⟩ := p
    obtain ⟨hk, hrest⟩ := List.nodup_cons.mp h
    rw [put]
    split
    · exact h
    · rename_i hne
      refine List.nodup_cons.mpr ⟨fun hmem => ?_, ih hrest⟩
      obtain ⟨p, hp, hpk⟩ := List.mem_map.mp hmem
      rcases eq_or_mem_of_mem_put hp with rfl | hp
      · exact hne hpk.symm
      · exact hk (List.mem_map.mpr ⟨p, hp, hpk⟩)

theorem distinct_ofList (entries : List (String × α)) : (ofList entries).Distinct := by
  have hinsertAll : ∀ {t : Bindings α}, t.Distinct → (t.insertAll entries).Distinct := by
    induction entries with
    | nil => exact fun ht => ht
    | cons p rest ih => exact fun ht => ih (ht.insert p.1 p.2)
  exact hinsertAll List.nodup_nil

theorem notMem_keys_of_get? (h : t.get? name = none) : name ∉ t.keys := by
  obtain ⟨entries⟩ := t
  replace h : find name entries = none := h
  change name ∉ entries.map (·.1)
  induction entries with
  | nil => exact List.not_mem_nil
  | cons p rest ih =>
    obtain ⟨k, b⟩ := p
    rw [find] at h
    split at h
    · cases h
    · rename_i hk
      exact fun hmem => (List.mem_cons.mp hmem).elim (Ne.symm hk) (ih h)

/-- **Any order.** A table that holds each name once may be laid over another one in any order. -/
theorem get?_insertAll_perm (htop : top.Distinct) (h : entries.Perm top.entries) (name : String) :
    (t.insertAll entries).get? name = (top.get? name).or (t.get? name) := by
  have hnames : (entries.map (·.1)).Perm top.keys := h.map _
  cases hname : top.get? name with
  | none =>
    rw [Option.none_or]
    exact get?_insertAll_of_notMem t entries name fun hmem =>
      notMem_keys_of_get? hname (hnames.mem_iff.mp hmem)
  | some a =>
    have hmem : (name, a) ∈ entries := h.mem_iff.mpr (mem_of_find hname)
    have hnodup : (entries.map (·.1)).Nodup := hnames.nodup_iff.mpr htop
    obtain ⟨before, after, rfl⟩ := List.append_of_mem hmem
    rw [List.map_append, List.nodup_append, List.map_cons, List.nodup_cons] at hnodup
    exact get?_insertAll_of_lastEntry ⟨before, after, rfl, hnodup.2.1.1⟩

end Bindings

/-! ## Merging and looking up -/

namespace ClassTable

variable {t : ClassTable} {c : ClassRef} {p : String} {v : Value}

/-- What a class itself says about a property: a property of its own comes before an override. -/
def ownDefault? (t : ClassTable) (c : ClassRef) (p : String) : Option Value :=
  (t.info? c).bind fun info => (info.defaults.get? p).or (info.overrides.get? p)

theorem ownDefault?_ne_none_iff : t.ownDefault? c p ≠ none ↔ ∃ info, t.info? c = some info ∧
    (info.defaults.contains p = true ∨ info.overrides.contains p = true) := by
  rw [ownDefault?, Option.ne_none_iff_isSome]
  cases t.info? c with
  | none => simp
  | some info =>
    rw [Option.bind_some, Option.isSome_or, Bool.or_eq_true]
    constructor
    · exact fun h => ⟨info, rfl, h⟩
    · rintro ⟨_, ⟨⟩, h⟩
      exact h

/-- On the way from a class to the root, the first class that says anything about a property says
this value. -/
inductive Nearest (t : ClassTable) (p : String) : ClassRef → Value → Prop where
  | here {c : ClassRef} {v : Value} (h : t.ownDefault? c p = some v) : Nearest t p c v
  | up {c parent : ClassRef} {v : Value} (hsilent : t.ownDefault? c p = none)
      (hparent : t.parent? c = some parent) (h : Nearest t p parent v) : Nearest t p c v

theorem nearest_iff_of_own {w : Value} (h : t.ownDefault? c p = some w) :
    t.Nearest p c v ↔ w = v := by
  constructor
  · rintro (hv | ⟨hsilent, -, -⟩)
    · exact Option.some.inj (h.symm.trans hv)
    · cases h.symm.trans hsilent
  · rintro rfl
    exact .here h

theorem nearest_iff_of_silent {parent : ClassRef} (h : t.ownDefault? c p = none)
    (hparent : t.parent? c = some parent) : t.Nearest p c v ↔ t.Nearest p parent v := by
  refine ⟨?_, .up h hparent⟩
  rintro (hv | ⟨-, hup, hv⟩)
  · cases h.symm.trans hv
  · cases hparent.symm.trans hup
    exact hv

theorem not_nearest_of_silent (h : t.ownDefault? c p = none) (hroot : t.parent? c = none) :
    ¬t.Nearest p c v := by
  rintro (hv | ⟨-, hup, -⟩)
  · cases h.symm.trans hv
  · cases hroot.symm.trans hup

theorem not_nearest_builtin (b : BuiltinClass) : ¬t.Nearest p (.builtin b) v := by
  cases b with
  | obj => exact not_nearest_of_silent rfl rfl
  | und | bln | int | flt | str =>
    rw [nearest_iff_of_silent rfl rfl]
    exact not_nearest_of_silent rfl rfl

/-- A result of merging defaults from the root down, with the tables of each class in any order. -/
inductive Merges (t : ClassTable) : ClassRef → Bindings Value → Prop where
  | builtin (b : BuiltinClass) : Merges t (.builtin b) ∅
  | declared {id : Nat} {info : ClassInfo} {inherited : Bindings Value}
      {overrides defaults : List (String × Value)} (hinfo : t.classes[id]? = some info)
      (hparent : Merges t info.parent inherited)
      (hoverrides : overrides.Perm info.overrides.entries)
      (hdefaults : defaults.Perm info.defaults.entries) :
      Merges t (.declared id) ((inherited.insertAll overrides).insertAll defaults)

/-- All tables of defaults hold each name once. -/
def DistinctDefaults (t : ClassTable) : Prop :=
  ∀ info ∈ t.classes, info.overrides.Distinct ∧ info.defaults.Distinct

theorem mergedDefaults_builtin (t : ClassTable) (b : BuiltinClass) :
    t.mergedDefaults (.builtin b) = ∅ := by
  cases b <;> rfl

/-- The defaults of a class are merged in one of these orders. -/
theorem Grounded.merges_mergedDefaults (h : t.Grounded) (hc : t.Known c) :
    t.Merges c (t.mergedDefaults c) := by
  refine h.induction (P := fun c => t.Merges c (t.mergedDefaults c)) (fun b => ?_)
    (fun id info hinfo hparent => ?_) c hc
  · rw [mergedDefaults_builtin]
    exact .builtin b
  · rw [mergedDefaults, h.ancestors_declared hinfo, List.foldr_cons, applyDefaults, info?, hinfo]
    exact .declared hinfo hparent (.refl _) (.refl _)

/-- **Whatever the order**, merging finds what the nearest class says. -/
theorem Merges.get?_eq_some_iff (ht : t.DistinctDefaults) {merged : Bindings Value}
    (h : t.Merges c merged) : merged.get? p = some v ↔ t.Nearest p c v := by
  induction h with
  | builtin b =>
    refine ⟨fun h => ?_, fun h => absurd h (not_nearest_builtin b)⟩
    cases h
  | @declared id info inherited overrides defaults hinfo _ hoverrides hdefaults ih =>
    obtain ⟨hoverride, hdefault⟩ := ht info (Array.mem_of_getElem? hinfo)
    have hown : t.ownDefault? (.declared id) p =
        (info.defaults.get? p).or (info.overrides.get? p) := by
      rw [ownDefault?, info?, hinfo]
      rfl
    rw [Bindings.get?_insertAll_perm hdefault hdefaults,
      Bindings.get?_insertAll_perm hoverride hoverrides, ← Option.or_assoc, ← hown]
    cases hfound : t.ownDefault? (.declared id) p with
    | none => rw [Option.none_or, ih, nearest_iff_of_silent hfound (parent?_declared hinfo)]
    | some w => rw [Option.some_or, Option.some_inj, nearest_iff_of_own hfound]

/-- A nearest class is found just if some class on the walk says something. -/
theorem Walk.exists_nearest_iff {chain : List ClassRef} (h : t.Walk c chain) :
    (∃ v, t.Nearest p c v) ↔ ∃ owner ∈ chain, t.ownDefault? owner p ≠ none := by
  induction h with
  | @root c hroot =>
    simp only [List.mem_singleton, exists_eq_left]
    cases hfound : t.ownDefault? c p with
    | none =>
      refine ⟨?_, fun h => absurd rfl h⟩
      rintro ⟨v, hv⟩
      exact absurd hv (not_nearest_of_silent hfound hroot)
    | some w => exact ⟨fun _ => Option.some_ne_none w, fun _ => ⟨w, .here hfound⟩⟩
  | @up c parent chain hparent _ ih =>
    simp only [List.mem_cons, exists_eq_or_imp]
    cases hfound : t.ownDefault? c p with
    | none =>
      simp only [nearest_iff_of_silent hfound hparent, ih, ne_eq, not_true_eq_false, false_or]
    | some w => exact ⟨fun _ => .inl (Option.some_ne_none w), fun _ => ⟨w, .here hfound⟩⟩

theorem distinctDefaults_fresh (console : Console) (limit : Option Nat) :
    (Machine.fresh console limit).classes.DistinctDefaults := by
  intro info hinfo
  cases Array.not_mem_empty info hinfo

/-- **One change** keeps names distinct. -/
theorem DistinctDefaults.change {m m' : Machine} (h : m.classes.DistinctDefaults)
    (hchange : m.Change m') : m'.classes.DistinctDefaults := by
  cases hchange with
  | activation | setProperty | newInstance | printLine | readLine | declareFunction => exact h
  | @declareClass _ parent overrides defaults methods =>
    intro info hinfo
    rcases Array.mem_push.mp hinfo with hold | rfl
    · exact h info hold
    · exact ⟨Bindings.distinct_ofList overrides, Bindings.distinct_ofList defaults⟩

theorem DistinctDefaults.evolves {m m' : Machine} (h : m.classes.DistinctDefaults)
    (hevolves : m.Evolves m') : m'.classes.DistinctDefaults := by
  induction hevolves with
  | refl => exact h
  | tail _ hchange ih => exact ih.change hchange

end ClassTable

/-! ## Declarations -/

namespace Engine

variable {engine : Engine} {m m' : Machine} {entries : List (String × Value)}

theorem names_of_evalOverrides {overrides : List OverrideDecl}
    (h : engine.evalOverrides overrides m = .ok entries m') :
    entries.map (·.1) = overrides.map (·.name) := by
  induction overrides generalizing m entries with
  | nil =>
    cases h
    rfl
  | cons d rest ih =>
    obtain ⟨v, m₁, -, h⟩ := bind_eq_ok h
    obtain ⟨others, m₂, hrest, h⟩ := bind_eq_ok h
    cases h
    exact congrArg (d.name :: ·) (ih hrest)

theorem names_of_evalProperties {properties : List PropertyDecl}
    (h : engine.evalProperties properties m = .ok entries m') :
    entries.map (·.1) = properties.map (·.name) := by
  induction properties generalizing m entries with
  | nil =>
    cases h
    rfl
  | cons d rest ih =>
    obtain ⟨v, m₁, -, h⟩ := bind_eq_ok h
    obtain ⟨c, m₂, -, h⟩ := bind_eq_ok h
    obtain ⟨-, m₃, -, h⟩ := bind_eq_ok h
    obtain ⟨others, m₄, hrest, h⟩ := bind_eq_ok h
    cases h
    exact congrArg (d.name :: ·) (ih hrest)

theorem eq_of_declaredParent {parent : Option String} {c : ClassRef}
    (h : declaredParent parent m = .ok c m') : m' = m := by
  cases parent with
  | none =>
    cases h
    rfl
  | some name =>
    change orRaise (m.classes.lookup? name) (.unknownType name) m = _ at h
    cases hname : m.classes.lookup? name with
    | none =>
      rw [hname] at h
      cases h
    | some c =>
      rw [hname] at h
      cases h
      rfl

/-- **Inversion of a declaration.** The overrides are evaluated first, then the properties, and then
the class is put under its name with the tables of both. -/
theorem declareClass_eq_ok {d : ClassDecl} (h : engine.declareClass d m = .ok () m') :
    ∃ parent overrides m₁ defaults m₂ methods,
      declaredParent d.parent m = .ok parent m ∧
      engine.evalOverrides d.overrides m = .ok overrides m₁ ∧
      engine.evalProperties d.properties m₁ = .ok defaults m₂ ∧
      m₂.classes.resolveMethods d.name d.methods = .ok methods ∧
      m' = { m₂ with
        classes := m₂.classes.declare
          ⟨d.name, parent, .ofList overrides, .ofList defaults, .ofList methods⟩ } := by
  obtain ⟨parent, m₀, hparent, hrest⟩ := bind_eq_ok h
  obtain rfl := eq_of_declaredParent hparent
  obtain ⟨overrides, m₁, hoverrides, hrest⟩ := bind_eq_ok hrest
  obtain ⟨defaults, m₂, hdefaults, hrest⟩ := bind_eq_ok hrest
  have hregister : registerClass d parent overrides defaults m₂ = .ok () m' := hrest
  rw [registerClass_apply] at hregister
  cases hmethods : m₂.classes.resolveMethods d.name d.methods with
  | error f =>
    rw [hmethods] at hregister
    cases hregister
  | ok methods =>
    rw [hmethods] at hregister
    cases hregister
    exact ⟨parent, overrides, m₁, defaults, m₂, methods, hparent, hoverrides, hdefaults, hmethods,
      rfl⟩

end Engine

/-- The tables of a class are those of a declaration: `overrides` and `defaults` are its evaluated
entries, in the order of the text, and of a repeated name the last entry counts. -/
structure ClassInfo.Tabulates (info : ClassInfo) (d : ClassDecl)
    (overrides defaults : List (String × Value)) : Prop where
  overrideNames : overrides.map (·.1) = d.overrides.map (·.name)
  defaultNames : defaults.map (·.1) = d.properties.map (·.name)
  overrides : ∀ p v, info.overrides.get? p = some v ↔ Bindings.LastEntry overrides p v
  defaults : ∀ p v, info.defaults.get? p = some v ↔ Bindings.LastEntry defaults p v

theorem Engine.exists_tabulates {engine : Engine} {d : ClassDecl} {m m' : Machine}
    (h : engine.declareClass d m = .ok () m') :
    ∃ overrides m₁ defaults m₂ info,
      engine.evalOverrides d.overrides m = .ok overrides m₁ ∧
      engine.evalProperties d.properties m₁ = .ok defaults m₂ ∧
      m' = { m₂ with classes := m₂.classes.declare info } ∧ info.name = d.name ∧
      info.Tabulates d overrides defaults := by
  obtain ⟨parent, overrides, m₁, defaults, m₂, methods, -, hoverrides, hdefaults, -, rfl⟩ :=
    declareClass_eq_ok h
  exact ⟨overrides, m₁, defaults, m₂, _, hoverrides, hdefaults, rfl, rfl,
    names_of_evalOverrides hoverrides, names_of_evalProperties hdefaults,
    fun _ _ => Bindings.get?_ofList_eq_some_iff, fun _ _ => Bindings.get?_ofList_eq_some_iff⟩

/-- **Merged defaults are nearest definitions.** At any moment of a session, a class gives its
instances just those properties that are among the own properties or the overrides of a class on the
way to the root; and the value is that of the first such class, where a property of its own comes
before an override. The order in which the tables of the classes are gone through makes no
difference. When a class is declared, the last entry of a repeated name counts. -/
theorem defaults_of_nearest {console : Console} {limit : Option Nat} {s : Moment}
    (h : (Moment.first console limit).Before s) :
    (∀ c, s.machine.classes.Known c →
      (∀ p, (s.machine.classes.mergedDefaults c).contains p = true ↔
        ∃ owner ∈ s.machine.classes.ancestors c, ∃ info, s.machine.classes.info? owner = some info ∧
          (info.defaults.contains p = true ∨ info.overrides.contains p = true)) ∧
      (∀ p v, (s.machine.classes.mergedDefaults c).get? p = some v ↔
        s.machine.classes.Nearest p c v) ∧
      s.machine.classes.Merges c (s.machine.classes.mergedDefaults c) ∧
      ∀ merged, s.machine.classes.Merges c merged →
        ∀ p, merged.get? p = (s.machine.classes.mergedDefaults c).get? p) ∧
    ∀ (engine : Engine) mode d flow m',
      engine.execStmt mode (.classDecl d) s.machine = .ok flow m' →
      ∃ overrides m₁ defaults m₂ info,
        engine.evalOverrides d.overrides s.machine = .ok overrides m₁ ∧
        engine.evalProperties d.properties m₁ = .ok defaults m₂ ∧
        m' = { m₂ with classes := m₂.classes.declare info } ∧ info.name = d.name ∧
        info.Tabulates d overrides defaults := by
  have hfirst := Moment.sound_first console limit
  have hgrounded : s.machine.Grounded :=
    (Machine.Grounded.fresh console limit).evolves (.fresh console limit) (h.evolves hfirst)
  have hdistinct : s.machine.classes.DistinctDefaults :=
    (ClassTable.distinctDefaults_fresh console limit).evolves (h.evolves hfirst)
  refine ⟨fun c hc => ?_, fun engine mode d flow m' hok => ?_⟩
  · have hmerges := hgrounded.classes.merges_mergedDefaults hc
    have hnearest : ∀ p v, (s.machine.classes.mergedDefaults c).get? p = some v ↔
        s.machine.classes.Nearest p c v := fun p v => hmerges.get?_eq_some_iff hdistinct
    refine ⟨fun p => ?_, hnearest, hmerges, fun merged hmerged p => Option.ext fun v => ?_⟩
    · rw [Bindings.contains, Option.isSome_iff_exists]
      simp only [hnearest, (hgrounded.classes.rooted hc).walk.exists_nearest_iff,
        ClassTable.ownDefault?_ne_none_iff]
    · exact (hmerged.get?_eq_some_iff hdistinct).trans (hnearest p v).symm
  · obtain ⟨_, m₁, hdeclare, hnext⟩ := bind_eq_ok hok
    cases hnext
    exact Engine.exists_tabulates hdeclare

/-- A class `B` with properties `w`, `x` and `y`; and a class `D` that descends from it, overrides
`x` and `y`, has a property `y` of its own nevertheless, and has `z` twice. -/
def layeredDefaults : List Stmt :=
  [.classDecl
    { name := "B"
      parent := none
      overrides := []
      properties := [⟨"Bln", "w", .ofBool false⟩, ⟨"Bln", "x", .ofBool false⟩,
        ⟨"Bln", "y", .ofBool false⟩]
      methods := [] },
   .classDecl
    { name := "D"
      parent := some "B"
      overrides := [⟨"x", .name "und"⟩, ⟨"y", .ofBool true⟩]
      properties := [⟨"Und", "y", .name "und"⟩, ⟨"Bln", "z", .ofBool false⟩,
        ⟨"Bln", "z", .ofBool true⟩]
      methods := [] }]

/-- For `D`, what `w` starts with is inherited, `x` is overridden, `y` is an own property, and the
second `z` counts. -/
theorem defaults_of_nearest_layered :
    ∃ s, (Moment.first {} none).Before s ∧
      s.machine.classes.lookup? "D" = some (.declared 1) ∧
      s.machine.classes.Nearest "w" (.declared 1) (.ofBool false) ∧
      s.machine.classes.Nearest "x" (.declared 1) .undefined ∧
      s.machine.classes.Nearest "y" (.declared 1) .undefined ∧
      s.machine.classes.Nearest "z" (.declared 1) (.ofBool true) ∧
      ¬∃ owner ∈ s.machine.classes.ancestors (.declared 1), ∃ info,
        s.machine.classes.info? owner = some info ∧
          (info.defaults.contains "u" = true ∨ info.overrides.contains "u" = true) := by
  obtain ⟨s, hs, hname, hknown, hmerged⟩ : ∃ s, (Moment.first {} none).Before s ∧
      s.machine.classes.lookup? "D" = some (.declared 1) ∧
      s.machine.classes.Known (.declared 1) ∧
      s.machine.classes.mergedDefaults (.declared 1) =
        ⟨[("w", .ofBool false), ("x", .undefined), ("y", .undefined), ("z", .ofBool true)]⟩ := by
    refine ⟨_, .single (.answer (.block .topLevel layeredDefaults) 9 rfl), rfl, Nat.one_lt_two, ?_⟩
    rw [ClassTable.mergedDefaults, ClassTable.ancestors, ClassTable.declaredChain]
    change List.foldr _ _ (_ :: ClassTable.declaredChain _ 0) = _
    rw [ClassTable.declaredChain]
    rfl
  obtain ⟨hbound, hnearest, -⟩ := (defaults_of_nearest hs).1 (.declared 1) hknown
  rw [hmerged] at hbound hnearest
  refine ⟨s, hs, hname, (hnearest _ _).mp rfl, (hnearest _ _).mp rfl, (hnearest _ _).mp rfl,
    (hnearest _ _).mp rfl, fun h => ?_⟩
  cases (hbound "u").mpr h

end FlannelScript
