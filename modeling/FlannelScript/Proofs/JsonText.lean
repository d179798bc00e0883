import FlannelScript.Json.Reader
import Mathlib.Tactic.SplitIfs

/-!
# Reading back what was written

The reader takes the text of a value without numbers for that value (`Json.readValue_text`), if the
value has no more levels than are allowed, and refuses it otherwise. The text is described twice:
`Json.render` appends to a string, and `Json.text` is the same as a list of characters, cut up the
way the reader goes through it.

Fuel is no restriction: between two characters that it consumes the reader makes three calls at
most, so that three times the length of a text is enough.
-/

namespace FlannelScript

namespace Json

/-! ## Strings -/

/-- The text of a character in a string. -/
def escaped (c : Char) : List Char := (writeChar "" c).toList

theorem toList_writeChar (out : String) (c : Char) :
    (writeChar out c).toList = out.toList ++ escaped c := by
  rw [escaped, writeChar, writeChar]
  split_ifs <;> simp

/-- The text of a string. -/
def quoted (s : String) : List Char := '"' :: (s.toList.flatMap escaped ++ ['"'])

theorem toList_foldl_writeChar (cs : List Char) (out : String) :
    (cs.foldl writeChar out).toList = out.toList ++ cs.flatMap escaped := by
  induction cs generalizing out with
  | nil => simp
  | cons c cs ih => simp [ih, toList_writeChar]

theorem toList_writeString (out s : String) :
    (writeString out s).toList = out.toList ++ quoted s := by
  simp [writeString, quoted, toList_foldl_writeChar]

/-- A piece of a string that is read as the given character. -/
def Piece.StandsFor (p : Piece) (c : Char) : Prop :=
  ∀ found rest, join true found (p :: rest) = join true (c :: found) rest

theorem Piece.StandsFor.char (c : Char) : (Piece.char c).StandsFor c := by
  intro found rest
  rw [join]

theorem Piece.StandsFor.unit {c : Char} (h : c.toNat < 32) : (Piece.unit c.toNat).StandsFor c := by
  intro found rest
  have hleading : isLeading c.toNat = false := by
    simp only [isLeading, decide_eq_false_iff_not]
    omega
  have htrailing : isTrailing c.toNat = false := by
    simp only [isTrailing, decide_eq_false_iff_not]
    omega
  rcases rest with _ | ⟨_ | _, rest⟩ <;> simp [join, hleading, htrailing]

theorem unit?_hexDigit : ∀ n < 32, unit? '0' '0' (hexDigit (n / 16)) (hexDigit n) = some n := by
  decide

/-- Every character is written as a piece that stands for it. -/
theorem exists_pieces_escaped (c : Char) : ∃ p : Piece, p.StandsFor c ∧
    ∀ found rest, pieces found (escaped c ++ rest) = pieces (p :: found) rest := by
  rw [escaped, writeChar]
  split_ifs with hquote hbackslash hn hr ht hb hf hcontrol
  · exact ⟨_, .char c, fun found rest => by subst hquote; simp [pieces, escape?]⟩
  · exact ⟨_, .char c, fun found rest => by subst hbackslash; simp [pieces, escape?]⟩
  · exact ⟨_, .char c, fun found rest => by subst hn; simp [pieces, escape?]⟩
  · exact ⟨_, .char c, fun found rest => by subst hr; simp [pieces, escape?]⟩
  · exact ⟨_, .char c, fun found rest => by subst ht; simp [pieces, escape?]⟩
  · refine ⟨_, .char c, fun found rest => ?_⟩
    have hc : c = Char.ofNat 8 := by rw [← hb, Char.ofNat_toNat]
    simp [pieces, escape?, hc]
  · refine ⟨_, .char c, fun found rest => ?_⟩
    have hc : c = Char.ofNat 12 := by rw [← hf, Char.ofNat_toNat]
    simp [pieces, escape?, hc]
  · refine ⟨_, .unit hcontrol, fun found rest => ?_⟩
    simp [pieces, unit?_hexDigit c.toNat hcontrol]
  · refine ⟨_, .char c, fun found rest => ?_⟩
    simp [pieces, hbackslash, hcontrol]

theorem exists_pieces_flatMap (cs : List Char) : ∃ ps : List Piece,
    (∀ found, join true found ps = some (found.reverse ++ cs)) ∧
    ∀ found rest, pieces found (cs.flatMap escaped ++ '"' :: rest) =
      some (found.reverse ++ ps, rest) := by
  induction cs with
  | nil => exact ⟨[], fun found => by simp [join], fun found rest => by simp [pieces]⟩
  | cons c cs ih =>
    obtain ⟨p, hp, hpieces⟩ := exists_pieces_escaped c
    obtain ⟨ps, hjoin, hrest⟩ := ih
    refine ⟨p :: ps, fun found => ?_, fun found rest => ?_⟩
    · rw [hp, hjoin, List.reverse_cons, List.append_assoc, List.singleton_append]
    · rw [List.flatMap_cons, List.append_assoc, hpieces, hrest, List.reverse_cons,
        List.append_assoc, List.singleton_append]

/-- **A string is read back.** -/
theorem readString_quoted (s : String) (rest : List Char) :
    readString true (s.toList.flatMap escaped ++ '"' :: rest) = some (s, rest) := by
  obtain ⟨ps, hjoin, hpieces⟩ := exists_pieces_flatMap s.toList
  simp [readString, hpieces, hjoin]

/-! ## The text of a value -/

mutual

/-- The text of a value. -/
def text : Json → List Char
  | null => ['n', 'u', 'l', 'l']
  | bool true => ['t', 'r', 'u', 'e']
  | bool false => ['f', 'a', 'l', 's', 'e']
  | integer n => (writeInteger "" n).toList
  | decimal d => (writeDecimal "" d).toList
  | string s => quoted s
  | array [] => ['[', ']']
  | array (j :: rest) => '[' :: (text j ++ textItems rest)
  | object [] => ['\x7b', '\x7d']
  | object ((k, j) :: rest) => '\x7b' :: (quoted k ++ ':' :: (text j ++ textMembers rest))

/-- The text from behind an item to the end of the array. -/
def textItems : List Json → List Char
  | [] => [']']
  | j :: rest => ',' :: (text j ++ textItems rest)

/-- The text from behind a member to the end of the object. -/
def textMembers : List (String × Json) → List Char
  | [] => ['\x7d']
  | (k, j) :: rest => ',' :: (quoted k ++ ':' :: (text j ++ textMembers rest))

end

theorem toList_writeInteger (out : String) (n : Int) :
    (writeInteger out n).toList = out.toList ++ (writeInteger "" n).toList := by
  rw [writeInteger, writeInteger]
  split <;> simp

theorem toList_writeDecimal (out : String) (d : Decimal) :
    (writeDecimal out d).toList = out.toList ++ (writeDecimal "" d).toList := by
  rw [writeDecimal, writeDecimal, toList_writeInteger, toList_writeInteger (_ ++ _)]
  split <;> simp

mutual

theorem toList_write (out : String) : (j : Json) → (write out j).toList = out.toList ++ text j
  | null => by simp [write, text]
  | bool true => by simp [write, text]
  | bool false => by simp [write, text]
  | integer n => by rw [write, text, toList_writeInteger]
  | decimal d => by rw [write, text, toList_writeDecimal]
  | string s => by rw [write, text, toList_writeString]
  | array [] => by simp [write, writeItems, text]
  | array (j :: rest) => by
    rw [write, writeItems, toList_writeItems _ rest, if_pos rfl, toList_write _ j]
    simp [text]
  | object [] => by simp [write, writeMembers, text]
  | object ((k, j) :: rest) => by
    rw [write, writeMembers, toList_writeMembers _ rest, if_pos rfl, toList_write _ j]
    simp [text, toList_writeString]

theorem toList_writeItems (out : String) : (items : List Json) →
    ((writeItems out false items).push ']').toList = out.toList ++ textItems items
  | [] => by simp [writeItems, textItems]
  | j :: rest => by
    rw [writeItems, toList_writeItems _ rest, toList_write _ j]
    simp [textItems]

theorem toList_writeMembers (out : String) : (members : List (String × Json)) →
    ((writeMembers out false members).push '\x7d').toList = out.toList ++ textMembers members
  | [] => by simp [writeMembers, textMembers]
  | (k, j) :: rest => by
    rw [writeMembers, toList_writeMembers _ rest, toList_write _ j]
    simp [textMembers, toList_writeString]

end

theorem toList_render (j : Json) : j.render.toList = text j := by
  rw [render, toList_write]
  rfl

/-! ## Reading a text back -/

mutual

/-- How deep arrays and objects are nested. -/
def levels : Json → Nat
  | array items => levelsOfItems items + 1
  | object members => levelsOfMembers members + 1
  | _ => 0

/-- The levels of the deepest item. -/
def levelsOfItems : List Json → Nat
  | [] => 0
  | j :: rest => max (levels j) (levelsOfItems rest)

/-- The levels of the deepest member. -/
def levelsOfMembers : List (String × Json) → Nat
  | [] => 0
  | (_, j) :: rest => max (levels j) (levelsOfMembers rest)

end

/-- Values without numbers. -/
inductive NumberFree : Json → Prop where
  | null : NumberFree null
  | bool (b : Bool) : NumberFree (bool b)
  | string (s : String) : NumberFree (string s)
  | array {items : List Json} (h : ∀ j ∈ items, NumberFree j) : NumberFree (array items)
  | object {members : List (String × Json)} (h : ∀ m ∈ members, NumberFree m.2) :
      NumberFree (object members)

theorem skipBlanks_cons {c : Char} {cs : List Char}
    (h : ¬(c = ' ' ∨ c = '\n' ∨ c = '\r' ∨ c = '\t')) : skipBlanks (c :: cs) = c :: cs := by
  rw [skipBlanks, List.dropWhile_cons_of_neg]
  simpa using h

/-- The text of a value starts with no blank and no closing bracket. -/
theorem exists_text_eq_cons {j : Json} (h : NumberFree j) : ∃ c cs, text j = c :: cs ∧
    ¬(c = ' ' ∨ c = '\n' ∨ c = '\r' ∨ c = '\t') ∧ c ≠ ']' := by
  cases h with
  | null => exact ⟨_, _, rfl, by decide, by decide⟩
  | bool b => cases b <;> exact ⟨_, _, rfl, by decide, by decide⟩
  | string s => exact ⟨_, _, rfl, by decide, by decide⟩
  | @array items => cases items <;> exact ⟨_, _, rfl, by decide, by decide⟩
  | @object members => cases members <;> exact ⟨_, _, rfl, by decide, by decide⟩

theorem readValue_array_cons {j : Json} (h : NumberFree j) (items : List Json) (fuel n : Nat)
    (rest : List Char) :
    readValue (fuel + 1) (.limited (n + 1)) (text (array (j :: items)) ++ rest) =
      readItems fuel (.limited n) [] (text j ++ textItems items ++ rest) := by
  obtain ⟨c, cs, htext, hblank, hbracket⟩ := exists_text_eq_cons h
  rw [text, List.cons_append, readValue, skipBlanks_cons (by decide)]
  simp only [Policy.limited, Policy.enter, htext, List.cons_append, skipBlanks_cons hblank]
  split
  · rename_i heq
    exact absurd (List.cons.inj heq).1 hbracket
  · rfl

theorem readObject_cons (k : String) (j : Json) (members : List (String × Json)) (fuel : Nat)
    (policy : String → Policy) (rest : List Char) :
    readObject (fuel + 1) true policy ((textMembers ((k, j) :: members)).tail ++ rest) =
      readMembers fuel true policy [] ((textMembers ((k, j) :: members)).tail ++ rest) := by
  simp [readObject, textMembers, quoted, skipBlanks_cons]

-- The three parts of the reader by one induction on the value. Behind an opening bracket the text is
-- that of the items with their commas, without the first comma.
mutual

/-- **A text is read back** if it does not have too many levels. -/
theorem readValue_text : (j : Json) → NumberFree j → ∀ fuel n rest, 3 * (text j).length ≤ fuel →
    readValue fuel (.limited n) (text j ++ rest) = if levels j ≤ n then some (j, rest) else none
  | null, _, fuel + 1, n, rest, _ => by
    simp [readValue, text, levels, skipBlanks]
  | bool true, _, fuel + 1, n, rest, _ => by
    simp [readValue, text, levels, skipBlanks]
  | bool false, _, fuel + 1, n, rest, _ => by
    simp [readValue, text, levels, skipBlanks]
  | string s, _, fuel + 1, n, rest, _ => by
    simp [readValue, text, levels, skipBlanks, quoted, Policy.limited, readString_quoted]
  | array [], _, fuel + 1, n, rest, _ => by
    cases n <;>
      simp [readValue, text, levels, levelsOfItems, skipBlanks, Policy.limited, Policy.enter]
  | array (j :: items), h, fuel + 1, 0, rest, hfuel => by
    simp [readValue, text, levels, skipBlanks, Policy.limited, Policy.enter]
  | array (j :: items), .array h, fuel + 1, n + 1, rest, hfuel => by
    have hlen : 3 * (textItems (j :: items)).tail.length ≤ fuel := by
      simp only [text, List.length_cons] at hfuel
      simp only [textItems, List.tail_cons]
      omega
    rw [readValue_array_cons (h j List.mem_cons_self), levels]
    have hitems := readItems_text (j :: items) h (by simp) fuel n [] rest hlen
    simpa [textItems] using hitems
  | object [], _, fuel + 1, n, rest, hfuel => by
    obtain ⟨fuel, rfl⟩ : ∃ f, fuel = f + 1 := ⟨fuel - 1, by simp [text] at hfuel; omega⟩
    cases n <;>
      simp [readValue, readObject, text, levels, levelsOfMembers, skipBlanks, Policy.limited,
        Policy.enter]
  | object ((k, j) :: members), h, fuel + 1, 0, rest, hfuel => by
    simp [readValue, text, levels, skipBlanks, Policy.limited, Policy.enter]
  | object ((k, j) :: members), .object h, fuel + 1, n + 1, rest, hfuel => by
    have hlen : 3 * (textMembers ((k, j) :: members)).tail.length + 2 ≤ fuel := by
      simp only [text, List.length_cons] at hfuel
      simp only [textMembers, List.tail_cons]
      omega
    obtain ⟨fuel, rfl⟩ : ∃ f, fuel = f + 1 := ⟨fuel - 1, by omega⟩
    have hmembers := readMembers_text ((k, j) :: members) h (by simp) fuel n
      (fun _ => .limited n) (fun _ _ => rfl) [] rest (by omega)
    rw [← readObject_cons] at hmembers
    rw [text, List.cons_append, readValue, skipBlanks_cons (by decide), levels]
    simpa [textMembers, Policy.limited, Policy.enter] using hmembers
  | j, h, 0, n, rest, hfuel => by
    obtain ⟨c, cs, htext, -⟩ := exists_text_eq_cons h
    simp [htext] at hfuel

theorem readItems_text : (items : List Json) → (∀ j ∈ items, NumberFree j) → items ≠ [] →
    ∀ fuel n found rest, 3 * (textItems items).tail.length ≤ fuel →
    readItems fuel (.limited n) found ((textItems items).tail ++ rest) =
      if levelsOfItems items ≤ n then some (array (found.reverse ++ items), rest) else none
  | [], _, hne, _, _, _, _, _ => absurd rfl hne
  | j :: items, h, _, fuel, n, found, rest, hfuel => by
    have hlen : 3 * (text j).length + 3 * (textItems items).tail.length + 3 ≤ fuel := by
      cases items <;> simp [textItems] at hfuel ⊢ <;> omega
    obtain ⟨fuel, rfl⟩ : ∃ f, fuel = f + 1 := ⟨fuel - 1, by omega⟩
    have hj := readValue_text j (h j List.mem_cons_self) fuel n (textItems items ++ rest) (by omega)
    rw [textItems, List.tail_cons, List.append_assoc, readItems, hj, levelsOfItems]
    by_cases hlevels : levels j ≤ n
    · rw [if_pos hlevels]
      cases items with
      | nil => simp [textItems, skipBlanks_cons, levelsOfItems, hlevels]
      | cons j' items =>
        have hitems := readItems_text (j' :: items) (fun i hi => h i (List.mem_cons_of_mem _ hi))
          (by simp) fuel n (j :: found) rest (by omega)
        simpa [textItems, skipBlanks_cons, Nat.max_le, hlevels] using hitems
    · rw [if_neg hlevels, if_neg]
      omega

theorem readMembers_text : (members : List (String × Json)) → (∀ m ∈ members, NumberFree m.2) →
    members ≠ [] → ∀ fuel n policy, (∀ m ∈ members, policy m.1 = .limited n) →
    ∀ found rest, 3 * (textMembers members).tail.length ≤ fuel →
    readMembers fuel true policy found ((textMembers members).tail ++ rest) =
      if levelsOfMembers members ≤ n then some (object (found.reverse ++ members), rest) else none
  | [], _, hne, _, _, _, _, _, _, _ => absurd rfl hne
  | (k, j) :: members, h, _, fuel, n, policy, hpolicy, found, rest, hfuel => by
    have hlen : 3 * (text j).length + 3 * (textMembers members).tail.length + 3 ≤ fuel := by
      cases members <;> simp [textMembers] at hfuel ⊢ <;> omega
    obtain ⟨fuel, rfl⟩ : ∃ f, fuel = f + 1 := ⟨fuel - 1, by omega⟩
    have hj := readValue_text j (h (k, j) List.mem_cons_self) fuel n (textMembers members ++ rest)
      (by omega)
    rw [← hpolicy (k, j) List.mem_cons_self] at hj
    rw [textMembers, List.tail_cons, quoted]
    simp only [List.cons_append, List.append_assoc, List.nil_append]
    rw [readMembers, skipBlanks_cons (by decide)]
    simp only [readString_quoted, skipBlanks_cons, Char.reduceEq, or_self, not_false_eq_true]
    rw [hj, levelsOfMembers]
    by_cases hlevels : levels j ≤ n
    · rw [if_pos hlevels]
      cases members with
      | nil => simp [textMembers, skipBlanks_cons, levelsOfMembers, hlevels]
      | cons m members =>
        have hmembers := readMembers_text (m :: members)
          (fun m' hm' => h m' (List.mem_cons_of_mem _ hm')) (by simp) fuel n policy
          (fun m' hm' => hpolicy m' (List.mem_cons_of_mem _ hm')) ((k, j) :: found) rest (by omega)
        simpa [textMembers, skipBlanks_cons, Nat.max_le, hlevels] using hmembers
    · rw [if_neg hlevels, if_neg]
      omega

end

/-- **A document is read back** just if it does not have too many levels. All of its members are
wanted here, so that none of them escapes the limit. -/
theorem readSelecting_render {wanted : String → Bool} {members : List (String × Json)}
    (hne : members ≠ []) (hfree : ∀ m ∈ members, NumberFree m.2)
    (hwanted : ∀ m ∈ members, wanted m.1 = true) (n : Nat) :
    readSelecting wanted (n + 1) (object members).render =
      if levels (object members) ≤ n + 1 then some (object members) else none := by
  obtain ⟨⟨k, j⟩, members, rfl⟩ := List.exists_cons_of_ne_nil hne
  have htext : text (object ((k, j) :: members)) =
      '\x7b' :: ((textMembers ((k, j) :: members)).tail ++ []) := by
    rw [text, textMembers, List.tail_cons, List.append_nil]
  have hmembers := readMembers_text ((k, j) :: members) hfree hne
    (fuelFor (text (object ((k, j) :: members))) - 1) n
    (fun key => if wanted key then .limited n else .skipped)
    (fun m hm => if_pos (hwanted m hm)) [] []
    (by simp only [fuelFor, htext, List.length_cons, List.append_nil]; omega)
  rw [← readObject_cons, List.reverse_nil, List.nil_append] at hmembers
  rw [readSelecting, toList_render, levels]
  generalize hfuel : fuelFor (text (object ((k, j) :: members))) = fuel at hmembers ⊢
  rw [Nat.sub_add_cancel (by rw [← hfuel, fuelFor]; omega)] at hmembers
  rw [htext, skipBlanks_cons (by decide)]
  simp only [Policy.limited, Policy.enter] at hmembers ⊢
  rw [hmembers]
  simp only [Nat.add_le_add_iff_right]
  split
  · rfl
  · rfl

end Json

end FlannelScript
