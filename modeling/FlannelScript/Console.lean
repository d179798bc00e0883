/-!
# The console

`echo`, `ask` and the notice of a top-level `return` print lines, and `ask` reads lines. A console
holds everything printed so far and the lines still to be read.

Lines of a byte stream end behind each newline. Every newline and carriage return at the end of a
line is dropped when it is read, and a line that is not text fails when it is read and not before.
-/

namespace FlannelScript

/-- A line of input. -/
inductive InputLine where
  | text (s : String)
  /-- a line whose bytes are not text -/
  | undecodable
  deriving DecidableEq, Repr

/-- What was printed, and the input that is left. -/
structure Console where
  output : String := ""
  input : List InputLine := []
  deriving Inhabited

namespace Console

/-- A console that answers with the given lines. -/
def scripted (lines : List String) : Console := { input := lines.map .text }

/-- Print a line. -/
def printLine (c : Console) (line : String) : Console := { c with output := c.output ++ line ++ "\n" }

/-- Take the next line of input; `none` once it is used up. -/
def readLine (c : Console) : Option InputLine × Console :=
  match c.input with
  | [] => (none, c)
  | line :: rest => (some line, { c with input := rest })

end Console

/-! ## Lines of a byte stream -/

namespace InputLine

/-- Cut bytes behind each newline; `begun` holds the bytes of the line so far, last byte first. -/
def cutLines (begun : List UInt8) : List UInt8 → List (List UInt8)
  | [] => if begun.isEmpty then [] else [begun.reverse]
  | b :: rest =>
    if b = 10 then (b :: begun).reverse :: cutLines [] rest else cutLines (b :: begun) rest

/-- Drop every newline and carriage return at the end. -/
def trimEnd (bytes : List UInt8) : List UInt8 :=
  (bytes.reverse.dropWhile fun b => b = 10 ∨ b = 13).reverse

/-- The line of some bytes. -/
def ofBytes (bytes : List UInt8) : InputLine :=
  match String.fromUTF8? ⟨(trimEnd bytes).toArray⟩ with
  | some s => text s
  | none => undecodable

/-- All lines of a byte stream. -/
def ofStream (bytes : List UInt8) : List InputLine := (cutLines [] bytes).map ofBytes

end InputLine

end FlannelScript
