import FlannelScript.Options
import FlannelScript.Proofs.Numerals

/-!
# The flags of a run

An argument of a run either is a flag that sets the greatest depth of calls, or is not understood
(`RunOptions.SetsDepth`). The arguments are read from left to right, and each flag replaces what the
ones before it have set. So the first argument that is no flag decides what is reported, and if all
are flags, the last one decides what is set (`run_options_exact`).
-/

namespace FlannelScript

namespace RunOptions

/-! ## One argument -/

/-- The argument is the flag with a number of 64 bits. -/
def SetsDepth (arg : String) (n : Nat) : Prop :=
  ∃ number : String, arg = "--max-depth=" ++ number ∧
    Natural.Denotes number.toList n ∧ n < UInt64.size

/-- The options with a greatest depth of `n`, where zero stands for no limit. -/
def ofDepth (n : Nat) : RunOptions := ⟨if n = 0 then none else some n⟩

theorem eq_flag_append_iff {arg number : String} :
    arg = "--max-depth=" ++ number ↔ arg.toList = depthFlag ++ number.toList := by
  rw [← String.toList_inj, String.toList_append]
  rfl

/-- **Flags.** An argument is understood just if it is the flag with a number of 64 bits. -/
theorem ofArg?_eq_some_iff {arg : String} {options : RunOptions} :
    ofArg? arg = some options ↔ ∃ n, SetsDepth arg n ∧ options = ofDepth n := by
  rw [ofArg?]
  constructor
  · intro h
    split at h
    · rename_i hflag
      obtain ⟨rest, hrest⟩ := List.isPrefixOf_iff_prefix.mp hflag
      rw [← hrest, List.drop_left] at h
      obtain ⟨n, hn, hoptions⟩ := Option.map_eq_some_iff.mp h
      obtain ⟨hdenotes, hlt⟩ := Natural.read?_eq_some_iff.mp hn
      rw [← String.toList_ofList (l := rest)] at hrest hdenotes
      exact ⟨n, ⟨_, eq_flag_append_iff.mpr hrest.symm, hdenotes, hlt⟩, hoptions.symm⟩
    · cases h
  · rintro ⟨n, ⟨number, hnumber, hdenotes, hlt⟩, rfl⟩
    have harg := eq_flag_append_iff.mp hnumber
    have hflag : depthFlag.isPrefixOf arg.toList = true :=
      List.isPrefixOf_iff_prefix.mpr (harg ▸ List.prefix_append _ _)
    rw [if_pos hflag, harg, List.drop_left, Natural.read?_eq_some_iff.mpr ⟨hdenotes, hlt⟩]
    rfl

theorem exists_ofArg?_iff {arg : String} :
    (∃ options, ofArg? arg = some options) ↔ ∃ n, SetsDepth arg n := by
  simp only [ofArg?_eq_some_iff]
  exact ⟨fun ⟨_, n, hn, _⟩ => ⟨n, hn⟩, fun ⟨n, hn⟩ => ⟨_, n, hn, rfl⟩⟩

theorem ofArg?_eq_none_iff {arg : String} : ofArg? arg = none ↔ ¬∃ n, SetsDepth arg n := by
  rw [← exists_ofArg?_iff, Option.eq_none_iff_forall_ne_some]
  exact not_exists.symm

/-! ## All arguments -/

/-- **Failure.** Whatever was set before, the first argument that is not understood is reported. -/
theorem parseFrom_eq_error_iff {sofar : RunOptions} {args : List String} {e : InvalidOption} :
    parseFrom sofar args = .error e ↔
      ∃ before after, args = before ++ e.arg :: after ∧
        (∀ arg ∈ before, ∃ n, SetsDepth arg n) ∧ ¬∃ n, SetsDepth e.arg n := by
  induction args generalizing sofar with
  | nil => simp [parseFrom]
  | cons arg rest ih =>
    rw [parseFrom]
    cases harg : ofArg? arg with
    | none =>
      have hbad := ofArg?_eq_none_iff.mp harg
      constructor
      · rintro ⟨⟩
        exact ⟨[], rest, rfl, nofun, hbad⟩
      · -- nothing comes before the first argument, as that is not understood itself
        rintro ⟨_ | ⟨first, before⟩, after, hsplit, hbefore, -⟩
        · obtain ⟨rfl, -⟩ := List.cons.inj hsplit
          rfl
        · obtain ⟨rfl, -⟩ := List.cons.inj hsplit
          exact absurd (hbefore _ List.mem_cons_self) hbad
    | some options =>
      have hgood := exists_ofArg?_iff.mp ⟨options, harg⟩
      refine ih.trans ⟨?_, ?_⟩
      · rintro ⟨before, after, rfl, hbefore, hbad⟩
        exact ⟨arg :: before, after, rfl, List.forall_mem_cons.mpr ⟨hgood, hbefore⟩, hbad⟩
      · rintro ⟨_ | ⟨first, before⟩, after, hsplit, hbefore, hbad⟩
        · obtain ⟨rfl, -⟩ := List.cons.inj hsplit
          exact absurd hgood hbad
        · obtain ⟨-, rfl⟩ := List.cons.inj hsplit
          exact ⟨before, after, rfl, (List.forall_mem_cons.mp hbefore).2, hbad⟩

/-- **Success.** If all arguments are flags, the last one counts, and without any, what was set
before. -/
theorem parseFrom_eq_ok_iff {sofar : RunOptions} {args : List String} {options : RunOptions} :
    parseFrom sofar args = .ok options ↔
      (args = [] ∧ options = sofar) ∨
      ∃ before last n, args = before ++ [last] ∧ (∀ arg ∈ before, ∃ n, SetsDepth arg n) ∧
        SetsDepth last n ∧ options = ofDepth n := by
  induction args generalizing sofar with
  | nil =>
    rw [parseFrom, Except.ok.injEq]
    constructor
    · rintro rfl
      exact .inl ⟨rfl, rfl⟩
    · rintro (⟨-, rfl⟩ | ⟨before, last, n, hsplit, -⟩)
      · rfl
      · exact absurd hsplit.symm (List.append_ne_nil_of_right_ne_nil before (List.cons_ne_nil _ _))
  | cons arg rest ih =>
    rw [parseFrom]
    cases harg : ofArg? arg with
    | none =>
      have hbad := ofArg?_eq_none_iff.mp harg
      refine iff_of_false nofun ?_
      rintro (⟨⟨⟩, -⟩ | ⟨_ | ⟨first, before⟩, last, n, hsplit, hbefore, hlast, -⟩)
      · obtain ⟨rfl, -⟩ := List.cons.inj hsplit
        exact hbad ⟨n, hlast⟩
      · obtain ⟨rfl, -⟩ := List.cons.inj hsplit
        exact hbad (hbefore _ List.mem_cons_self)
    | some depth =>
      obtain ⟨k, hk, rfl⟩ := ofArg?_eq_some_iff.mp harg
      refine ih.trans ⟨?_, ?_⟩
      · rintro (⟨rfl, rfl⟩ | ⟨before, last, n, rfl, hbefore, hlast⟩)
        · exact .inr ⟨[], arg, k, rfl, nofun, hk, rfl⟩
        · exact .inr ⟨arg :: before, last, n, rfl,
            List.forall_mem_cons.mpr ⟨⟨k, hk⟩, hbefore⟩, hlast⟩
      · rintro (⟨⟨⟩, -⟩ | ⟨_ | ⟨first, before⟩, last, n, hsplit, hbefore, hlast, rfl⟩)
        · -- a flag sets one depth only
          obtain ⟨rfl, rfl⟩ := List.cons.inj hsplit
          have hsame := ofArg?_eq_some_iff.mpr ⟨n, hlast, rfl⟩
          exact .inl ⟨rfl, Option.some.inj (hsame.symm.trans harg)⟩
        · obtain ⟨-, rfl⟩ := List.cons.inj hsplit
          exact .inr ⟨before, last, n, rfl, (List.forall_mem_cons.mp hbefore).2, hlast, rfl⟩

end RunOptions

/-- **Options of a run.** The arguments fail to be read just if there is one that is not the flag
with a number of 64 bits, and the first such argument is reported, whatever comes before or after
it. Otherwise the last argument sets the greatest depth of calls, with zero for no limit, whatever
comes before it; without any arguments, the depth is 1000. -/
theorem run_options_exact (args : List String) :
    (∀ e, RunOptions.parse args = .error e ↔
      ∃ before after, args = before ++ e.arg :: after ∧
        (∀ arg ∈ before, ∃ n, RunOptions.SetsDepth arg n) ∧
        ¬∃ n, RunOptions.SetsDepth e.arg n) ∧
    (∀ options, RunOptions.parse args = .ok options ↔
      (args = [] ∧ options.maxCallDepth = some 1000) ∨
      ∃ before last n, args = before ++ [last] ∧ (∀ arg ∈ before, ∃ n, RunOptions.SetsDepth arg n) ∧
        RunOptions.SetsDepth last n ∧
        options.maxCallDepth = if n = 0 then none else some n) := by
  refine ⟨fun e => RunOptions.parseFrom_eq_error_iff, fun ⟨depth⟩ => ?_⟩
  rw [RunOptions.parse, RunOptions.parseFrom_eq_ok_iff]
  simp only [RunOptions.default, RunOptions.ofDepth, RunOptions.mk.injEq, RunOptions.defaultDepth]

/-- Of two flags the second one counts, which is written with a sign and zeros in front; and a
number that is too large by one is reported, before a word that is no flag at all. -/
theorem run_options_exact_two_flags :
    (∀ arg ∈ ["--max-depth=5"], ∃ n, RunOptions.SetsDepth arg n) ∧
    RunOptions.parse ["--max-depth=5", "--max-depth=+007"] = .ok ⟨some 7⟩ ∧
    RunOptions.parse ["--max-depth=5", "--max-depth=18446744073709551616", "--fast"] =
      .error ⟨"--max-depth=18446744073709551616"⟩ := by
  have hfive : RunOptions.SetsDepth "--max-depth=5" 5 :=
    ⟨"5", rfl, .unsigned ⟨by decide, by simp⟩, by decide⟩
  have hdigits : IsNumeral ['0', '0', '7'] := ⟨by decide, by simp⟩
  have hseven : RunOptions.SetsDepth "--max-depth=+007" 7 :=
    ⟨"+007", rfl, .plus hdigits, by decide⟩
  have hlarge : ¬∃ n, RunOptions.SetsDepth "--max-depth=18446744073709551616" n :=
    RunOptions.ofArg?_eq_none_iff.mp (by decide)
  have hbefore : ∀ arg ∈ ["--max-depth=5"], ∃ n, RunOptions.SetsDepth arg n :=
    List.forall_mem_singleton.mpr ⟨5, hfive⟩
  refine ⟨hbefore, ?_, ?_⟩
  · exact ((run_options_exact _).2 _).mpr (.inr ⟨_, _, 7, rfl, hbefore, hseven, rfl⟩)
  · exact ((run_options_exact _).1 _).mpr ⟨_, _, rfl, hbefore, hlarge⟩

end FlannelScript
