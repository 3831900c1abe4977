/-!
# JSON with one item on a line

Values of JSON as text, for people and programs to read: an object has one field on a line and a
list one element, each set in by two blanks more than what it belongs to.

Inside a string a quotation mark and a backslash follow a backslash, and so does what stands for a
control character; everything else is written as it is.
-/

namespace HackStack

namespace Json

/-- A character as it is written inside a string of JSON. Control characters are escaped, by a
letter where there is one. -/
def escape (c : Char) : List Char :=
  match c with
  | '"' => ['\\', '"']
  | '\\' => ['\\', '\\']
  | '\n' => ['\\', 'n']
  | '\r' => ['\\', 'r']
  | '\t' => ['\\', 't']
  | '\x08' => ['\\', 'b']
  | '\x0c' => ['\\', 'f']
  | c =>
    if c.toNat < 32 then
      ['\\', 'u', '0', '0', Nat.digitChar (c.toNat / 16), Nat.digitChar (c.toNat % 16)]
    else [c]

/-- A string of JSON. -/
def quote (text : String) : String :=
  "\"" ++ String.ofList (text.toList.flatMap escape) ++ "\""

/-- The lines of a list that is not empty, each element on a line of its own. -/
def list (indent : String) (items : List String) : String :=
  "[\n" ++ ",\n".intercalate (items.map (indent ++ "  " ++ ·)) ++ "\n" ++ indent ++ "]"

/-- An object of JSON, one field on a line. -/
def object (fields : List (String × String)) : String :=
  "\x7b\n" ++
    ",\n".intercalate (fields.map fun (key, value) => "  " ++ quote key ++ ": " ++ value) ++
    "\n\x7d"

end Json

end HackStack
