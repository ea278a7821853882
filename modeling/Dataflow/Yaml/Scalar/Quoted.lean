import Dataflow.Text.Hex
import Dataflow.Yaml.Scalar.Gap

/-!
# Quoted scalars

Between single quotes everything stands for itself, and a quote is written twice. Between double
quotes a backslash starts an escape, and one at the end of a line joins it to the next. In both,
line breaks are folded.
-/

namespace Dataflow

namespace Yaml

namespace Quoted

/-- The character for an escape letter. -/
def unescape? : Char → Option Char
  | '0' => some '\x00'
  | 'a' => some '\x07'
  | 'b' => some '\x08'
  | 't' | '\t' => some '\t'
  | 'n' => some '\n'
  | 'v' => some '\x0b'
  | 'f' => some '\x0c'
  | 'r' => some '\r'
  | 'e' => some '\x1b'
  | ' ' => some ' '
  | '"' => some '"'
  | '/' => some '/'
  | '\\' => some '\\'
  | 'N' => some '\u0085'
  | '_' => some '\u00a0'
  | 'L' => some '\u2028'
  | 'P' => some '\u2029'
  | _ => none

/-- How many hexadecimal digits follow an escape letter. -/
def digitCount? : Char → Option Nat
  | 'x' => some 2
  | 'u' => some 4
  | 'U' => some 8
  | _ => none

/-- The character for the escape after a backslash, and how many characters the escape has. -/
def readEscape? : List Char → Option (Char × Nat)
  | [] => none
  | e :: rest =>
    match digitCount? e with
    | none => (unescape? e).map (·, 1)
    | some n => do
      let (code, _) ← Hex.read? n rest
      if Nat.isValidChar code then return (Char.ofNat code, n + 1) else none

/-- Reads up to the closing quote or the next white space. The answer has the characters that were
read, the last one first and before those in `word`, what is known of the white space that follows,
and the place of the next character. -/
def word? (single : Bool) : Nat → List Char → Cursor → Option (List Char × Gap × Cursor)
  | 0, _, _ => none
  | fuel + 1, word, c =>
    match c.rest with
    | [] => none
    | ch :: rest =>
      if isBlank ch || isBreak ch then some (word, Gap.empty, c)
      else if single then
        if ch = '\'' then
          if rest.head? = some '\'' then word? single fuel ('\'' :: word) (c.skip 2)
          else some (word, Gap.empty, c)
        else word? single fuel (ch :: word) (c.skip 1)
      else if ch = '"' then some (word, Gap.empty, c)
      else if ch = '\\' then
        if rest.head?.any isBreak then some (word, .breaks [] [], (c.skip 1).takeBreak.2)
        else do
          let (decoded, n) ← readEscape? rest
          word? single fuel (decoded :: word) (c.skip (n + 1))
      else word? single fuel (ch :: word) (c.skip 1)

/-- Reads to the closing quote and over it. `fuel` bounds the number of characters. -/
def words? (single : Bool) : Nat → List Char → Cursor → Option (List Char × Cursor)
  | 0, _, _ => none
  | fuel + 1, acc, c =>
    if c.atDocumentMark then none
    else do
      let (word, gap, c) ← word? single (fuel + 1) [] c
      let acc := acc ++ word.reverse
      if c.head? = some (if single then '\'' else '"') then return (acc, c.skip 1)
      let (gap, c) ← Gap.read? none fuel gap c
      words? single fuel (acc ++ gap.fold) c

/-- Reads a scalar from its opening quote on, from a text of at most `size` characters. -/
def read? (size : Nat) (single : Bool) (c : Cursor) : Option (String × Cursor) := do
  let (cs, c) ← words? single (size + 1) [] (c.skip 1)
  return (String.ofList cs, c)

end Quoted

end Yaml

end Dataflow
