import FlannelScript.Builtin
import FlannelScript.Machine

/-!
# Inspection texts

How values and classes are shown to someone who looks into a machine, as opposed to the plain text
that programs print. A value shows its class and its data, an instance only the names of its
properties, for it may hold itself. Names are listed in order.
-/

namespace FlannelScript

namespace Inspect

/-- A hexadecimal number. -/
def hex (n : Nat) : String := String.ofList (Nat.toDigits 16 n)

/-- A character of a quoted text. -/
def character (c : Char) : String :=
  if c = '"' then "\\\""
  else if c = '\\' then "\\\\"
  else if c = '\n' then "\\n"
  else if c = '\r' then "\\r"
  else if c = '\t' then "\\t"
  else if c.toNat = 0 then "\\0"
  else if c.toNat < 32 ∨ c.toNat = 127 then "\\u\x7b" ++ hex c.toNat ++ "\x7d"
  else String.singleton c

/-- A text in double quotes. -/
def quoted (s : String) : String := "\"" ++ String.join (s.toList.map character) ++ "\""

/-- Names in order. -/
def sorted (names : List String) : List String := names.mergeSort fun a b => !decide (b < a)

/-- A list of quoted names. -/
def nameList (names : List String) : String :=
  "[" ++ ", ".intercalate ((sorted names).map quoted) ++ "]"

end Inspect

namespace Machine

/-- The inspection text of a payload. -/
def inspectPayload (m : Machine) : Payload → String
  | .undefined => "Undefined"
  | .bool b => "Bool(" ++ (if b then "true" else "false") ++ ")"
  | .int n => "Int(" ++ Integer.render n ++ ")"
  | .float x => "Float(" ++ FloatFormat.inspection.render x ++ ")"
  | .text s => "Text(" ++ Inspect.quoted s ++ ")"
  | .ref loc => "Instance(Instance(" ++ Inspect.nameList (m.heap.properties loc).keys ++ "))"

/-- The inspection text of a value. -/
def inspect (m : Machine) (v : Value) : String :=
  m.classes.name v.cls ++ "(" ++ m.inspectPayload v.payload ++ ")"

end Machine

namespace ClassTable

/-- The inspection text of a class. -/
def inspect (t : ClassTable) (c : ClassRef) : String :=
  let parent :=
    match t.parent? c with
    | some p => "Some(" ++ Inspect.quoted (t.name p) ++ ")"
    | none => "None"
  let kind :=
    match c with
    | .builtin b => "Builtin(" ++ b.name ++ ")"
    | .declared _ => "User"
  let methods := ((t.info? c).map (·.methods.keys)).getD []
  "ClassDescriptor \x7b name: " ++ Inspect.quoted (t.name c) ++ ", parent: " ++ parent ++
    ", kind: " ++ kind ++ ", methods: " ++ Inspect.nameList methods ++ ", .. \x7d"

end ClassTable

end FlannelScript
