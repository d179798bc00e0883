import Mathlib.Data.List.DropRight
import FlannelScript.Console

/-!
# Lines of input

The lines of a text (`LinesOf`) are found by cutting it behind each newline, and the terminator of a
line (`withoutTerminator`) is the newline at its end, together with a carriage return right before
it. The console works on bytes, but in the encoding of a text the bytes of the newline and of the
carriage return stand for nothing else, so it finds the lines of the text (`cutLines_encode`).

What it takes from the end of a line is more than the terminator: it drops all newlines and carriage
returns there. The two are the same for a text just if none of its lines ends in a carriage return
when it has lost its terminator (`line_reading_exact_iff`).
-/

namespace FlannelScript

/-! ## Lines of a text -/

/-- The lines of a text: it is cut behind each newline, and what is left behind the last one is a
line, too, unless there is nothing left. -/
inductive LinesOf : List Char → List (List Char) → Prop where
  | nil : LinesOf [] []
  | last {content : List Char} (hne : content ≠ []) (hcontent : '\n' ∉ content) :
      LinesOf content [content]
  | line {content text : List Char} {lines : List (List Char)} (hcontent : '\n' ∉ content)
      (hrest : LinesOf text lines) :
      LinesOf (content ++ '\n' :: text) ((content ++ ['\n']) :: lines)

/-- A line without its terminator: a newline at the end, together with a carriage return right
before it. -/
def withoutTerminator (line : List Char) : List Char :=
  match line.reverse with
  | '\n' :: '\r' :: rest => rest.reverse
  | '\n' :: rest => rest.reverse
  | _ => line

/-- The characters that are dropped at the end of a line. -/
def isLineEnding (c : Char) : Bool := c = '\n' ∨ c = '\r'

/-- A line without all newlines and carriage returns at its end. -/
def withoutEnding (line : List Char) : List Char := line.rdropWhile isLineEnding

namespace LinesOf

/-- Every text has lines. -/
theorem exists_lines (text : List Char) : ∃ lines, LinesOf text lines := by
  induction hlength : text.length using Nat.strongRecOn generalizing text with
  | ind n ih =>
    by_cases hmem : '\n' ∈ text
    · obtain ⟨content, rest, rfl, hcontent⟩ := List.eq_append_cons_of_mem hmem
      obtain ⟨lines, hlines⟩ := ih rest.length (by simp at hlength; omega) rest rfl
      exact ⟨_, .line hcontent hlines⟩
    · by_cases hne : text = []
      · subst hne
        exact ⟨[], .nil⟩
      · exact ⟨[text], .last hne hmem⟩

/-- A newline stands at the end of a line only. -/
theorem notMem_dropLast {text : List Char} {lines : List (List Char)} (h : LinesOf text lines) :
    ∀ line ∈ lines, '\n' ∉ line.dropLast := by
  induction h with
  | nil => exact nofun
  | last _ hcontent =>
    exact List.forall_mem_singleton.mpr fun hmem => hcontent (List.dropLast_subset _ hmem)
  | line hcontent _ ih => exact List.forall_mem_cons.mpr ⟨by rwa [List.dropLast_concat], ih⟩

end LinesOf

/-! ## Bytes of a text -/

/-- The bytes that stand for some characters. -/
def encode (text : List Char) : List UInt8 := text.flatMap String.utf8EncodeChar

theorem toByteArray_encode (text : List Char) : (encode text).toByteArray = text.utf8Encode := rfl

theorem encode_toList (text : String) : text.toUTF8.data.toList = encode text.toList := by
  rw [String.toUTF8_eq_toByteArray, ← String.utf8Encode_toList, ← toByteArray_encode,
    List.toList_data_toByteArray]

theorem encode_injective : Function.Injective encode := by
  intro text text' h
  have hbytes : (String.ofList text).toByteArray = (String.ofList text').toByteArray := by
    rw [String.toByteArray_ofList, String.toByteArray_ofList, ← toByteArray_encode,
      ← toByteArray_encode, h]
  exact String.ofList_inj.mp (String.toByteArray_inj.mp hbytes)

/-- **ASCII.** In the encoding of a text, the byte of an ASCII character stands for nothing else. -/
theorem ascii_mem_utf8EncodeChar_iff {d c : Char} (hd : d.toNat < 128) :
    UInt8.ofNat d.toNat ∈ String.utf8EncodeChar c ↔ c = d := by
  have hsame : ∀ k, UInt8.ofNat d.toNat = UInt8.ofNat k ↔ d.toNat = k % 256 := by
    intro k
    rw [← UInt8.toNat_inj, UInt8.toNat_ofNat', UInt8.toNat_ofNat']
    omega
  have hval : c.val.toNat = c.toNat := Char.toNat_val
  rw [← Char.toNat_inj]
  -- one byte for the ASCII characters, and from 128 on nothing but bytes from 128 on
  fun_cases String.utf8EncodeChar c with
  | case1 v hone =>
    rw [List.mem_singleton, hsame]
    omega
  | case2 v hone htwo =>
    simp only [List.mem_cons, List.not_mem_nil, or_false, hsame]
    omega
  | case3 v hone htwo hthree =>
    simp only [List.mem_cons, List.not_mem_nil, or_false, hsame]
    omega
  | case4 v hone htwo hthree =>
    simp only [List.mem_cons, List.not_mem_nil, or_false, hsame]
    omega

theorem ascii_mem_encode_iff {d : Char} (hd : d.toNat < 128) {text : List Char} :
    UInt8.ofNat d.toNat ∈ encode text ↔ d ∈ text := by
  simp only [encode, List.mem_flatMap, ascii_mem_utf8EncodeChar_iff hd, exists_eq_right]

/-- The bytes that are dropped at the end of a line. -/
def isEndingByte (b : UInt8) : Bool := b = 10 ∨ b = 13

/-- A character is dropped at the end of a line just if each byte of it is. -/
theorem isEndingByte_of_mem {c : Char} {b : UInt8} (h : b ∈ String.utf8EncodeChar c) :
    isEndingByte b = isLineEnding c := by
  have hnewline : 10 ∈ String.utf8EncodeChar c ↔ c = '\n' :=
    ascii_mem_utf8EncodeChar_iff (d := '\n') (by decide)
  have hreturn : 13 ∈ String.utf8EncodeChar c ↔ c = '\r' :=
    ascii_mem_utf8EncodeChar_iff (d := '\r') (by decide)
  rw [isEndingByte, isLineEnding, decide_eq_decide]
  constructor
  · rintro (rfl | rfl)
    · exact .inl (hnewline.mp h)
    · exact .inr (hreturn.mp h)
  · rintro (rfl | rfl)
    · exact .inl (List.mem_singleton.mp h)
    · exact .inr (List.mem_singleton.mp h)

namespace InputLine

/-! ## What is cut -/

/-- Without a newline, there is no cut. -/
theorem cutLines_of_notMem {begun bytes : List UInt8} (h : 10 ∉ bytes) :
    cutLines begun bytes =
      if begun.reverse ++ bytes = [] then [] else [begun.reverse ++ bytes] := by
  induction bytes generalizing begun with
  | nil => cases begun <;> simp [cutLines]
  | cons b bytes ih =>
    obtain ⟨hb, hbytes⟩ := not_or.mp (mt List.mem_cons.mpr h)
    rw [cutLines, if_neg (Ne.symm hb), ih hbytes]
    simp

/-- The first cut is behind the first newline. -/
theorem cutLines_append_newline {begun bytes : List UInt8} (h : 10 ∉ bytes) (rest : List UInt8) :
    cutLines begun (bytes ++ 10 :: rest) =
      (begun.reverse ++ bytes ++ [10]) :: cutLines [] rest := by
  induction bytes generalizing begun with
  | nil => simp [cutLines]
  | cons b bytes ih =>
    obtain ⟨hb, hbytes⟩ := not_or.mp (mt List.mem_cons.mpr h)
    rw [List.cons_append, cutLines, if_neg (Ne.symm hb), ih hbytes]
    simp

/-- **Cutting.** The bytes of a text are cut into the bytes of its lines. -/
theorem cutLines_encode {text : List Char} {lines : List (List Char)} (h : LinesOf text lines) :
    cutLines [] (encode text) = lines.map encode := by
  have hnewline : ∀ {content : List Char}, '\n' ∉ content → 10 ∉ encode content :=
    fun hcontent => mt (ascii_mem_encode_iff (d := '\n') (by decide)).mp hcontent
  induction h with
  | nil => rfl
  | @last content hne hcontent =>
    have hbytes : encode content ≠ [] := fun hnil => hne (encode_injective hnil)
    rw [cutLines_of_notMem (hnewline hcontent), List.reverse_nil, List.nil_append, if_neg hbytes]
    rfl
  | @line content text lines hcontent _ ih =>
    have hencode : encode (content ++ '\n' :: text) = encode content ++ 10 :: encode text :=
      List.flatMap_append
    have hline : encode (content ++ ['\n']) = encode content ++ [10] := List.flatMap_append
    rw [hencode, cutLines_append_newline (hnewline hcontent), ih, List.map_cons, hline]
    rfl

/-! ## What is dropped -/

/-- **Dropping** the end of a line drops the bytes of it. -/
theorem trimEnd_encode (line : List Char) :
    trimEnd (encode line) = encode (withoutEnding line) := by
  change (encode line).rdropWhile isEndingByte = encode (line.rdropWhile isLineEnding)
  induction line using List.reverseRecOn with
  | nil => rfl
  | append_singleton line c ih =>
    have hencode : encode (line ++ [c]) = encode line ++ String.utf8EncodeChar c := by
      rw [encode, List.flatMap_append, List.flatMap_singleton]
      rfl
    -- the last byte of the character decides, and if it is dropped, there is no other
    obtain ⟨bytes, b, hbytes⟩ : ∃ bytes b, String.utf8EncodeChar c = bytes ++ [b] :=
      (List.eq_nil_or_concat' _).resolve_left String.utf8EncodeChar_ne_nil
    have hb : isEndingByte b = isLineEnding c :=
      isEndingByte_of_mem (hbytes ▸ List.mem_append_right bytes List.mem_cons_self)
    rw [hencode, List.rdropWhile_concat]
    split
    · rename_i hc
      have hlength : (String.utf8EncodeChar c).length = 1 := by
        rw [isLineEnding, decide_eq_true_eq] at hc
        rcases hc with rfl | rfl <;> rfl
      obtain rfl : bytes = [] := by
        rw [hbytes, List.length_append, List.length_singleton, Nat.add_eq_right] at hlength
        exact List.eq_nil_of_length_eq_zero hlength
      rw [hbytes, List.nil_append, List.rdropWhile_concat_pos _ _ _ (hb.trans hc), ih]
    · rename_i hc
      rw [hbytes, ← List.append_assoc, List.rdropWhile_concat_neg _ _ _ (hb ▸ hc), hencode, hbytes,
        List.append_assoc]

theorem ofBytes_encode (line : List Char) :
    ofBytes (encode line) = .text (String.ofList (withoutEnding line)) := by
  have hbytes : (⟨(encode (withoutEnding line)).toArray⟩ : ByteArray) =
      (String.ofList (withoutEnding line)).toByteArray := by
    rw [String.toByteArray_ofList, ← toByteArray_encode]
    exact ByteArray.ext (Array.toList_inj.mp List.toList_data_toByteArray.symm)
  rw [ofBytes, trimEnd_encode, hbytes, String.fromUTF8?,
    dif_pos (String.ofList (withoutEnding line)).isValidUTF8]
  rfl

/-- **Reading.** From the bytes of a text its lines are read, without all newlines and carriage
returns at their ends. -/
theorem ofStream_text {text : String} {lines : List (List Char)} (h : LinesOf text.toList lines) :
    ofStream text.toUTF8.data.toList =
      lines.map fun line => .text (String.ofList (withoutEnding line)) := by
  rw [ofStream, encode_toList, cutLines_encode h, List.map_map]
  exact List.map_congr_left fun line _ => ofBytes_encode line

end InputLine

/-- A text has its lines in one way only: they are what is cut from its bytes. -/
theorem LinesOf.unique {text : List Char} {lines lines' : List (List Char)} (h : LinesOf text lines)
    (h' : LinesOf text lines') : lines' = lines := by
  have hbytes : lines'.map encode = lines.map encode := by
    rw [← InputLine.cutLines_encode h, ← InputLine.cutLines_encode h']
  exact List.map_injective_iff.mpr encode_injective hbytes

/-! ## Terminators and endings -/

/-- A terminator consists of characters that are dropped at the end of a line. -/
theorem exists_terminator (line : List Char) :
    ∃ terminator, line = withoutTerminator line ++ terminator ∧
      ∀ c ∈ terminator, isLineEnding c = true := by
  rw [withoutTerminator]
  split
  · rename_i rest hline
    refine ⟨['\r', '\n'], ?_, by simp [isLineEnding]⟩
    rw [← List.reverse_reverse line, hline]
    simp
  · rename_i rest _ hline
    refine ⟨['\n'], ?_, by simp [isLineEnding]⟩
    rw [← List.reverse_reverse line, hline]
    simp
  · exact ⟨[], (List.append_nil line).symm, nofun⟩

/-- A line has no newline besides its terminator. -/
theorem notMem_withoutTerminator {line : List Char} (h : '\n' ∉ line.dropLast) :
    '\n' ∉ withoutTerminator line := by
  have htail : '\n' ∉ line.reverse.tail := by
    rwa [List.tail_reverse, List.mem_reverse]
  rw [withoutTerminator]
  split
  · rename_i rest hline
    rw [hline] at htail
    exact fun hmem => htail (List.mem_cons_of_mem _ (List.mem_reverse.mp hmem))
  · rename_i rest _ hline
    rw [hline] at htail
    exact fun hmem => htail (List.mem_reverse.mp hmem)
  · rename_i hline
    intro hmem
    rw [← List.mem_reverse] at hmem
    cases hreverse : line.reverse with
    | nil =>
      rw [hreverse] at hmem
      cases hmem
    | cons c rest =>
      rw [hreverse] at hmem htail
      rcases List.mem_cons.mp hmem with rfl | hrest
      · exact hline rest hreverse
      · exact htail hrest

/-- **Terminators and endings.** What is dropped at the end of a line is the terminator just if no
carriage return stands before that. -/
theorem withoutEnding_eq_iff {line : List Char} (h : '\n' ∉ line.dropLast) :
    withoutEnding line = withoutTerminator line ↔
      (withoutTerminator line).getLast? ≠ some '\r' := by
  obtain ⟨terminator, hline, hterminator⟩ := exists_terminator line
  have hending : withoutEnding line = withoutEnding (withoutTerminator line) := by
    have hreverse : ∀ c ∈ terminator.reverse, isLineEnding c = true :=
      fun c hc => hterminator c (List.mem_reverse.mp hc)
    calc withoutEnding line
      _ = (line.reverse.dropWhile isLineEnding).reverse := rfl
      _ = ((terminator.reverse ++ (withoutTerminator line).reverse).dropWhile
            isLineEnding).reverse := by rw [← List.reverse_append, ← hline]
      _ = withoutEnding (withoutTerminator line) := by
        rw [List.dropWhile_append_of_pos hreverse]
        rfl
  have hnewline := notMem_withoutTerminator h
  rw [hending, withoutEnding, List.rdropWhile_eq_self_iff]
  constructor
  · intro hlast hreturn
    have hne : withoutTerminator line ≠ [] := by
      intro hnil
      rw [hnil] at hreturn
      cases hreturn
    rw [List.getLast?_eq_some_getLast hne, Option.some.injEq] at hreturn
    exact hlast hne (hreturn ▸ rfl)
  · intro hreturn hne hlast
    rw [isLineEnding, decide_eq_true_eq] at hlast
    rcases hlast with hlast | hlast
    · exact hnewline (hlast ▸ List.getLast_mem hne)
    · exact hreturn (hlast ▸ List.getLast?_eq_some_getLast hne)

/-! ## The console -/

namespace Console

/-- What is read after `k` other lines. -/
def reading (c : Console) : Nat → Option InputLine
  | 0 => c.readLine.1
  | k + 1 => c.readLine.2.reading k

/-- Lines are read in order, and nothing is read once they are used up. -/
theorem reading_eq (c : Console) (k : Nat) : c.reading k = c.input[k]? := by
  induction k generalizing c with
  | zero =>
    rw [reading, readLine]
    cases c.input <;> rfl
  | succ k ih =>
    rw [reading, ih, readLine]
    cases hinput : c.input with
    | nil => exact congrArg (·[k]?) hinput
    | cons => rfl

/-- The console that has a text for its input. -/
def ofText (text : String) : Console := { input := InputLine.ofStream text.toUTF8.data.toList }

/-- Whether the lines of a text are read in order, with nothing but their terminators removed, and
then nothing for ever. -/
def ReadsExactly (text : String) : Prop :=
  ∀ lines, LinesOf text.toList lines → ∀ k, (ofText text).reading k =
    lines[k]?.map fun line => .text (String.ofList (withoutTerminator line))

variable {text : String} {lines : List (List Char)}

theorem reading_ofText (h : LinesOf text.toList lines) (k : Nat) :
    (ofText text).reading k =
      lines[k]?.map fun line => .text (String.ofList (withoutEnding line)) := by
  rw [reading_eq, ofText, InputLine.ofStream_text h, List.getElem?_map]

theorem readsExactly_iff (h : LinesOf text.toList lines) :
    ReadsExactly text ↔ ∀ line ∈ lines, (withoutTerminator line).getLast? ≠ some '\r' := by
  have hlines : ReadsExactly text ↔
      ∀ line ∈ lines, withoutEnding line = withoutTerminator line := by
    constructor
    · intro hexact line hline
      obtain ⟨k, hk⟩ := List.mem_iff_getElem?.mp hline
      have hread := hexact lines h k
      rw [reading_ofText h, hk, Option.map_some, Option.map_some, Option.some.injEq] at hread
      exact String.ofList_inj.mp (InputLine.text.inj hread)
    · intro hsame lines' h' k
      obtain rfl := h.unique h'
      rw [reading_ofText h]
      cases hk : lines'[k]? with
      | none => rfl
      | some line => rw [Option.map_some, Option.map_some, hsame line (List.mem_of_getElem? hk)]
  rw [hlines]
  exact forall₂_congr fun line hline => withoutEnding_eq_iff (h.notMem_dropLast line hline)

end Console

/-- **Reading lines.** From the bytes of a text its lines are read, one after the other and then
nothing for ever, each without all newlines and carriage returns at its end. Nothing but terminators
is removed just if no line of the text ends in a carriage return before its terminator. -/
theorem line_reading_exact_iff (text : String) :
    ∃ lines, LinesOf text.toList lines ∧
      (∀ lines', LinesOf text.toList lines' → lines' = lines) ∧
      (∀ k, (Console.ofText text).reading k =
        lines[k]?.map fun line => .text (String.ofList (withoutEnding line))) ∧
      (Console.ReadsExactly text ↔
        ∀ line ∈ lines, (withoutTerminator line).getLast? ≠ some '\r') := by
  obtain ⟨lines, hlines⟩ := LinesOf.exists_lines text.toList
  exact ⟨lines, hlines, fun lines' => hlines.unique, Console.reading_ofText hlines,
    Console.readsExactly_iff hlines⟩

/-- A line that ends in two carriage returns and a newline loses both, although only the second one
belongs to its terminator. -/
theorem not_readsExactly_two_returns : ¬Console.ReadsExactly "a\r\r\n" := by
  have hlines : LinesOf "a\r\r\n".toList [['a', '\r', '\r', '\n']] :=
    @LinesOf.line ['a', '\r', '\r'] [] [] (by decide) .nil
  intro hexact
  exact (Console.readsExactly_iff hlines).mp hexact _ List.mem_cons_self rfl

end FlannelScript
