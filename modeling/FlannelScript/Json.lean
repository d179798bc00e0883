import FlannelScript.Number.Decimal

/-!
# JSON values

Syntax trees are exchanged as JSON. A value keeps what the rules of the exchange format depend on:
the members of an object in the order in which they were written, repeated keys included. A number
is an integer if it is written without fraction and exponent; minus zero is not an integer.

`Json.render` writes a value on one line without blanks.
-/

namespace FlannelScript

/-- A JSON value. -/
inductive Json where
  | null
  | bool (b : Bool)
  | integer (n : Int)
  | decimal (d : Decimal)
  | string (s : String)
  | array (items : List Json)
  | object (members : List (String × Json))
  deriving Inhabited

namespace Json

/-! ## Writing -/

/-- The digits of a number below 16. -/
def hexDigit (n : Nat) : Char := (Nat.toDigits 16 (n % 16)).headD '0'

/-- Append a character of a string. Quotes, backslashes and control characters are escaped, by a
letter if they have one and by their code otherwise. -/
def writeChar (out : String) (c : Char) : String :=
  if c = '"' then out ++ "\\\""
  else if c = '\\' then out ++ "\\\\"
  else if c = '\n' then out ++ "\\n"
  else if c = '\r' then out ++ "\\r"
  else if c = '\t' then out ++ "\\t"
  else if c.toNat = 8 then out ++ "\\b"
  else if c.toNat = 12 then out ++ "\\f"
  else if c.toNat < 32 then
    ((out ++ "\\u00").push (hexDigit (c.toNat / 16))).push (hexDigit c.toNat)
  else out.push c

/-- Append a string in quotes. -/
def writeString (out : String) (s : String) : String :=
  (s.toList.foldl writeChar (out.push '"')).push '"'

/-- Append the text of a number. -/
def writeInteger (out : String) (n : Int) : String :=
  if n < 0 then out ++ "-" ++ Nat.repr n.natAbs else out ++ Nat.repr n.natAbs

/-- Append the text of a number with an exponent. -/
def writeDecimal (out : String) (d : Decimal) : String :=
  let out := if d.negative then out.push '-' else out
  writeInteger (out ++ Nat.repr d.mantissa ++ "e") d.exponent

mutual

/-- Append the text of a value. -/
def write (out : String) : Json → String
  | null => out ++ "null"
  | bool true => out ++ "true"
  | bool false => out ++ "false"
  | integer n => writeInteger out n
  | decimal d => writeDecimal out d
  | string s => writeString out s
  | array items => (writeItems (out.push '[') true items).push ']'
  | object members => (writeMembers (out.push '\x7b') true members).push '\x7d'

/-- Append the items of an array, with a comma before every item but the first. -/
def writeItems (out : String) (first : Bool) : List Json → String
  | [] => out
  | j :: rest => writeItems (write (if first then out else out.push ',') j) false rest

/-- Append the members of an object, with a comma before every member but the first. -/
def writeMembers (out : String) (first : Bool) : List (String × Json) → String
  | [] => out
  | (k, j) :: rest =>
    let out := writeString (if first then out else out.push ',') k
    writeMembers (write (out.push ':') j) false rest

end

/-- The text of a value. -/
def render (j : Json) : String := write "" j

end Json

end FlannelScript
