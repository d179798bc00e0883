import FlannelScript.Json
import FlannelScript.Number.Scaled

/-!
# Reading JSON

A strict reader: no comments, no trailing commas, no data behind the value, no raw control
characters in strings. How much is checked beyond the grammar is a `Policy`:

* `levels` — how many levels of arrays and objects may still be opened;
* `checked` — whether escapes have to name whole characters and numbers have to be in range.

A part of a text that nobody will look at can be read under `Policy.skipped`, which asks for the
grammar alone. `Json.readSelecting` does so for all members of a document but the wanted ones.

The reader is a recursive descent over the characters. Every call is charged one unit of fuel, and
since at most three calls pass between two consumed characters, three times the length of the text
is always enough.
-/

namespace FlannelScript

namespace Json

/-- How strictly a part of a text is read. -/
structure Policy where
  /-- the levels that may still be opened, or `none` for no limit -/
  levels : Option Nat
  /-- whether escapes and numbers are checked for meaning -/
  checked : Bool

namespace Policy

/-- Everything is checked and any nesting is allowed. -/
def unlimited : Policy := ⟨none, true⟩

/-- Everything is checked and so many levels are allowed. -/
def limited (levels : Nat) : Policy := ⟨some levels, true⟩

/-- Only the grammar counts. -/
def skipped : Policy := ⟨none, false⟩

/-- The policy inside an array or object, if one may be opened. -/
def enter (p : Policy) : Option Policy :=
  match p.levels with
  | none => some p
  | some 0 => none
  | some (n + 1) => some { p with levels := some n }

end Policy

/-! ## Blanks and strings -/

/-- Drop the blanks at the front. -/
def skipBlanks (cs : List Char) : List Char :=
  cs.dropWhile fun c => c = ' ' ∨ c = '\n' ∨ c = '\r' ∨ c = '\t'

/-- A piece of a string: a character, or a 16-bit unit given by its code. -/
inductive Piece where
  | char (c : Char)
  | unit (code : Nat)

/-- The value of a hexadecimal digit. -/
def hexValue? (c : Char) : Option Nat :=
  if '0' ≤ c ∧ c ≤ '9' then some (c.toNat - '0'.toNat)
  else if 'a' ≤ c ∧ c ≤ 'f' then some (c.toNat - 'a'.toNat + 10)
  else if 'A' ≤ c ∧ c ≤ 'F' then some (c.toNat - 'A'.toNat + 10)
  else none

/-- The 16-bit unit of four hexadecimal digits. -/
def unit? (a b c d : Char) : Option Nat := do
  let a ← hexValue? a
  let b ← hexValue? b
  let c ← hexValue? c
  let d ← hexValue? d
  return ((a * 16 + b) * 16 + c) * 16 + d

/-- The character of an escape by a letter. -/
def escape? : Char → Option Char
  | '"' => some '"'
  | '\\' => some '\\'
  | '/' => some '/'
  | 'b' => some (Char.ofNat 8)
  | 'f' => some (Char.ofNat 12)
  | 'n' => some '\n'
  | 'r' => some '\r'
  | 't' => some '\t'
  | _ => none

/-- Cut a string, from behind its opening quote to its closing quote, into pieces. -/
def pieces (found : List Piece) : List Char → Option (List Piece × List Char)
  | [] => none
  | '"' :: rest => some (found.reverse, rest)
  | '\\' :: 'u' :: a :: b :: c :: d :: rest =>
    match unit? a b c d with
    | some code => pieces (.unit code :: found) rest
    | none => none
  | '\\' :: c :: rest =>
    match escape? c with
    | some e => pieces (.char e :: found) rest
    | none => none
  | c :: rest => if c.toNat < 32 ∨ c = '\\' then none else pieces (.char c :: found) rest

/-- Whether a unit is the first of a pair. -/
def isLeading (code : Nat) : Bool := decide (0xD800 ≤ code ∧ code < 0xDC00)

/-- Whether a unit is the second of a pair. -/
def isTrailing (code : Nat) : Bool := decide (0xDC00 ≤ code ∧ code < 0xE000)

/-- The character of a pair of units. -/
def pairChar (lead trail : Nat) : Char :=
  Char.ofNat (0x10000 + (lead - 0xD800) * 0x400 + (trail - 0xDC00))

/-- Put the pieces of a string together. A unit that lacks its partner is refused when the text is
checked, and replaced otherwise. -/
def join (checked : Bool) (found : List Char) : List Piece → Option (List Char)
  | [] => some found.reverse
  | .char c :: rest => join checked (c :: found) rest
  | .unit lead :: .unit trail :: rest =>
    if isLeading lead && isTrailing trail then join checked (pairChar lead trail :: found) rest
    else if isLeading lead || isTrailing lead then
      if checked then none else join checked (Char.ofNat 0xFFFD :: found) (.unit trail :: rest)
    else join checked (Char.ofNat lead :: found) (.unit trail :: rest)
  | .unit code :: rest =>
    if isLeading code || isTrailing code then
      if checked then none else join checked (Char.ofNat 0xFFFD :: found) rest
    else join checked (Char.ofNat code :: found) rest

/-- Read a string from behind its opening quote. -/
def readString (checked : Bool) (cs : List Char) : Option (String × List Char) := do
  let (found, rest) ← pieces [] cs
  let chars ← join checked [] found
  return (String.ofList chars, rest)

/-! ## Numbers -/

/-- Read the exponent of a number, if there is one. -/
def readExponent (cs : List Char) : Option (Option Int × List Char) :=
  match cs with
  | c :: rest => if c = 'e' ∨ c = 'E' then signed rest else some (none, cs)
  | [] => some (none, [])
where
  /-- An optional sign and one or more digits. -/
  signed : List Char → Option (Option Int × List Char)
    | '+' :: rest => digits false rest
    | '-' :: rest => digits true rest
    | rest => digits false rest
  /-- One or more digits. -/
  digits (negative : Bool) (cs : List Char) : Option (Option Int × List Char) :=
    let (ds, rest) := cs.span Char.isDigit
    if ds.isEmpty then none
    else
      let n : Int := Decimal.ofDigits ds
      some (some (if negative then -n else n), rest)

/-- Read the fraction of a number, if there is one. -/
def readFraction : List Char → Option (Option (List Char) × List Char)
  | '.' :: rest =>
    let (ds, rest) := rest.span Char.isDigit
    if ds.isEmpty then none else some (some ds, rest)
  | cs => some (none, cs)

/-- The value of a number with the given sign, digits, fraction and exponent. -/
def numberOf (negative : Bool) (whole : List Char) : Option (List Char) → Option Int → Json
  | none, none =>
    let n := Decimal.ofDigits whole
    if negative then if n = 0 then decimal ⟨true, 0, 0⟩ else integer (-n) else integer n
  | fraction, power =>
    decimal (Decimal.ofParts negative whole (fraction.getD []) (power.getD 0))

/-- Read a number. A leading zero stands alone, and a checked number must not overflow. -/
def readNumber (checked : Bool) (cs : List Char) : Option (Json × List Char) :=
  let (negative, cs) :=
    match cs with
    | '-' :: rest => (true, rest)
    | _ => (false, cs)
  let (whole, rest) := cs.span Char.isDigit
  match whole with
  | [] | '0' :: _ :: _ => none
  | _ => do
    let (fraction, rest) ← readFraction rest
    let (power, rest) ← readExponent rest
    if checked && (Scaled.ofParts whole (fraction.getD []) (power.getD 0)).overflows then none
    else return (numberOf negative whole fraction power, rest)

/-! ## Values -/

mutual

/-- Read a value, blanks before it included. -/
def readValue : Nat → Policy → List Char → Option (Json × List Char)
  | 0, _, _ => none
  | fuel + 1, p, cs =>
    match skipBlanks cs with
    | '\x7b' :: rest =>
      match p.enter with
      | none => none
      | some inner => readObject fuel inner.checked (fun _ => inner) rest
    | '[' :: rest =>
      match p.enter with
      | none => none
      | some inner =>
        match skipBlanks rest with
        | ']' :: rest => some (array [], rest)
        | rest => readItems fuel inner [] rest
    | '"' :: rest => (readString p.checked rest).map fun (s, rest) => (string s, rest)
    | 't' :: 'r' :: 'u' :: 'e' :: rest => some (bool true, rest)
    | 'f' :: 'a' :: 'l' :: 's' :: 'e' :: rest => some (bool false, rest)
    | 'n' :: 'u' :: 'l' :: 'l' :: rest => some (null, rest)
    | cs => readNumber p.checked cs

/-- Read the items of a non-empty array, up to its closing bracket. -/
def readItems : Nat → Policy → List Json → List Char → Option (Json × List Char)
  | 0, _, _, _ => none
  | fuel + 1, p, found, cs =>
    match readValue fuel p cs with
    | none => none
    | some (j, rest) =>
      match skipBlanks rest with
      | ',' :: rest => readItems fuel p (j :: found) rest
      | ']' :: rest => some (array (j :: found).reverse, rest)
      | _ => none

/-- Read an object from behind its opening brace; `policy` says how the value of each key is read,
and `checked` how the keys are. -/
def readObject : Nat → Bool → (String → Policy) → List Char → Option (Json × List Char)
  | 0, _, _, _ => none
  | fuel + 1, checked, policy, cs =>
    match skipBlanks cs with
    | '\x7d' :: rest => some (object [], rest)
    | cs => readMembers fuel checked policy [] cs

/-- Read the members of a non-empty object, up to its closing brace. -/
def readMembers : Nat → Bool → (String → Policy) → List (String × Json) → List Char →
    Option (Json × List Char)
  | 0, _, _, _, _ => none
  | fuel + 1, checked, policy, found, cs =>
    match skipBlanks cs with
    | '"' :: rest =>
      match readString checked rest with
      | none => none
      | some (key, rest) =>
        match skipBlanks rest with
        | ':' :: rest =>
          match readValue fuel (policy key) rest with
          | none => none
          | some (j, rest) =>
            match skipBlanks rest with
            | ',' :: rest => readMembers fuel checked policy ((key, j) :: found) rest
            | '\x7d' :: rest => some (object ((key, j) :: found).reverse, rest)
            | _ => none
        | _ => none
    | _ => none

end

/-- Fuel that suffices for a text. -/
def fuelFor (cs : List Char) : Nat := 3 * cs.length + 3

/-- Only blanks may follow a document. -/
def complete : Option (Json × List Char) → Option Json
  | some (j, rest) => if (skipBlanks rest).isEmpty then some j else none
  | none => none

/-- Read a whole text. -/
def read (p : Policy) (text : String) : Option Json :=
  let cs := text.toList
  complete (readValue (fuelFor cs) p cs)

/-- Read a whole text of at most `levels` levels; if it is an object, only the members that are
wanted are read for their value. -/
def readSelecting (wanted : String → Bool) (levels : Nat) (text : String) : Option Json :=
  let cs := text.toList
  match skipBlanks cs, (Policy.limited levels).enter with
  | '\x7b' :: rest, some inner =>
    complete <| readObject (fuelFor cs) true
      (fun key => if wanted key then inner else Policy.skipped) rest
  | _, _ => complete (readValue (fuelFor cs) (Policy.limited levels) cs)

end Json

end FlannelScript
