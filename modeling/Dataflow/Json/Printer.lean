import Dataflow.Json.Basic
import Dataflow.Text.Hex

/-!
# Writing JSON

Two layouts of one text. `Json.compact` has no blanks at all, and its bytes are what fingerprints
are taken of. `Json.pretty` puts every item on a line of its own, indented by two spaces for each
level, with empty arrays and objects closed at once.

Inside strings the quote, the backslash and the control characters below U+0020 are escaped, five
of them by a letter and the others by four small hexadecimal digits; every other character stands
for itself.
-/

namespace Dataflow

namespace Json

/-- How a character is written inside a string. -/
def escapeChar (c : Char) : List Char :=
  match c with
  | '"' => ['\\', '"']
  | '\\' => ['\\', '\\']
  | '\n' => ['\\', 'n']
  | '\t' => ['\\', 't']
  | '\r' => ['\\', 'r']
  | '\x08' => ['\\', 'b']
  | '\x0c' => ['\\', 'f']
  | c =>
    if c.toNat < 32 then '\\' :: 'u' :: '0' :: '0' :: Hex.byte c.toNat else [c]

/-- A string between quotes. -/
def quote (s : String) : String :=
  String.ofList ('"' :: s.toList.flatMap escapeChar ++ ['"'])

mutual

/-- The text of a value without any blanks. -/
def compact : Json → String
  | .null => "null"
  | .bool b => if b then "true" else "false"
  | .int i => toString i
  | .decimal text => text
  | .str s => quote s
  | .arr items => "[" ++ ",".intercalate (compactItems items) ++ "]"
  | .obj fields => "\x7b" ++ ",".intercalate (compactFields fields) ++ "\x7d"

/-- The texts of the items of an array. -/
def compactItems : List Json → List String
  | [] => []
  | v :: rest => compact v :: compactItems rest

/-- The texts of the fields of an object. -/
def compactFields : List (String × Json) → List String
  | [] => []
  | (name, v) :: rest => (quote name ++ ":" ++ compact v) :: compactFields rest

end

/-- Items on lines of their own between two brackets. -/
def block (indent opening closing : String) (items : List String) : String :=
  if items.isEmpty then opening ++ closing
  else
    opening ++ "\n" ++ ",\n".intercalate (items.map (indent ++ "  " ++ ·)) ++ "\n" ++
      indent ++ closing

mutual

/-- The text of a value over several lines, those after the first indented by `indent` more. -/
def prettyAt (indent : String) : Json → String
  | .arr items => block indent "[" "]" (prettyItems (indent ++ "  ") items)
  | .obj fields => block indent "\x7b" "\x7d" (prettyFields (indent ++ "  ") fields)
  | v => compact v

/-- The texts of the items of an array. -/
def prettyItems (indent : String) : List Json → List String
  | [] => []
  | v :: rest => prettyAt indent v :: prettyItems indent rest

/-- The texts of the fields of an object. -/
def prettyFields (indent : String) : List (String × Json) → List String
  | [] => []
  | (name, v) :: rest => (quote name ++ ": " ++ prettyAt indent v) :: prettyFields indent rest

end

/-- The text of a value over several lines. -/
def pretty (v : Json) : String :=
  prettyAt "" v

end Json

end Dataflow
