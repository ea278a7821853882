import Dataflow.Json.Basic
import Dataflow.Text.Hex

/-!
# Reading JSON

`Json.parse?` reads one value with nothing but blanks around it. Every reader takes the characters
that are left and returns what it read together with the rest. Nested values are read with an
allowance that shrinks with every level and every item; the length of the text is always enough,
because each of them takes up at least one character.
-/

namespace Dataflow

namespace Json

/-- Passes over blanks. -/
def skipBlanks (cs : List Char) : List Char :=
  cs.dropWhile fun c ↦ c == ' ' || c == '\t' || c == '\n' || c == '\r'

/-- Passes over a fixed text. -/
def expect? : List Char → List Char → Option (List Char)
  | [], cs => some cs
  | w :: ws, c :: cs => if w = c then expect? ws cs else none
  | _ :: _, [] => none

/-- The digits at the front, and what follows. -/
def readDigits (cs : List Char) : List Char × List Char :=
  cs.span Char.isDigit

/-- The value of a row of digits. -/
def digitsValue (ds : List Char) : Nat :=
  ds.foldl (fun n d ↦ 10 * n + (d.toNat - 48)) 0

/-- A fraction, if there is one: its text and what follows. -/
def readFraction? : List Char → Option (List Char × List Char)
  | '.' :: cs =>
    let (ds, rest) := readDigits cs
    if ds.isEmpty then none else some ('.' :: ds, rest)
  | cs => some ([], cs)

/-- An exponent, if there is one: its text and what follows. -/
def readExponent? (cs : List Char) : Option (List Char × List Char) :=
  match cs with
  | e :: rest =>
    if e = 'e' ∨ e = 'E' then
      let (sign, rest) := match rest with
        | '+' :: r => (['+'], r)
        | '-' :: r => (['-'], r)
        | r => ([], r)
      let (ds, rest) := readDigits rest
      if ds.isEmpty then none else some (e :: sign ++ ds, rest)
    else some ([], cs)
  | [] => some ([], [])

/-- A number. Zero with a sign is no integer, and leading zeros are refused. -/
def readNumber? (cs : List Char) : Option (Json × List Char) := do
  let (negative, rest) := match cs with
    | '-' :: r => (true, r)
    | r => (false, r)
  let (ds, rest) := readDigits rest
  if ds.isEmpty || ds.length > 1 && ds.head? == some '0' then none
  else
    let (fraction, rest) ← readFraction? rest
    let (exponent, rest) ← readExponent? rest
    let n := digitsValue ds
    if fraction.isEmpty && exponent.isEmpty && !(negative && n == 0) then
      return (.int (if negative then -(n : Int) else n), rest)
    else
      let sign := if negative then ['-'] else []
      return (.decimal (String.ofList (sign ++ ds ++ fraction ++ exponent)), rest)

/-- The character for an escape letter. -/
def unescape? : Char → Option Char
  | '"' => some '"'
  | '\\' => some '\\'
  | '/' => some '/'
  | 'b' => some '\x08'
  | 'f' => some '\x0c'
  | 'n' => some '\n'
  | 'r' => some '\r'
  | 't' => some '\t'
  | _ => none

/-- The character for four hexadecimal digits, or for two such groups that form a surrogate pair. -/
def readCodePoint? (cs : List Char) : Option (Char × List Char) := do
  let (high, rest) ← Hex.read? 4 cs
  if 0xD800 ≤ high ∧ high < 0xDC00 then
    let rest ← expect? ['\\', 'u'] rest
    let (low, rest) ← Hex.read? 4 rest
    if 0xDC00 ≤ low ∧ low < 0xE000 then
      return (Char.ofNat (0x10000 + (high - 0xD800) * 0x400 + (low - 0xDC00)), rest)
    else none
  else if 0xDC00 ≤ high ∧ high < 0xE000 then none
  else return (Char.ofNat high, rest)

/-- The characters of a string up to the closing quote. `fuel` bounds their number. -/
def readString? : Nat → List Char → List Char → Option (String × List Char)
  | 0, _, _ => none
  | _ + 1, _, [] => none
  | fuel + 1, acc, c :: cs =>
    if c = '"' then some (String.ofList acc.reverse, cs)
    else if c = '\\' then
      match cs with
      | 'u' :: rest => do
        let (c, rest) ← readCodePoint? rest
        readString? fuel (c :: acc) rest
      | e :: rest => do
        readString? fuel ((← unescape? e) :: acc) rest
      | [] => none
    else if c.toNat < 32 then none
    else readString? fuel (c :: acc) cs

mutual

/-- A value, blanks before it allowed. -/
def readValue? : Nat → List Char → Option (Json × List Char)
  | 0, _ => none
  | fuel + 1, cs =>
    match skipBlanks cs with
    | 'n' :: rest => (expect? ['u', 'l', 'l'] rest).map (.null, ·)
    | 't' :: rest => (expect? ['r', 'u', 'e'] rest).map (.bool true, ·)
    | 'f' :: rest => (expect? ['a', 'l', 's', 'e'] rest).map (.bool false, ·)
    | '"' :: rest => (readString? fuel [] rest).map fun (s, rest) ↦ (.str s, rest)
    | '[' :: rest =>
      match skipBlanks rest with
      | ']' :: rest => some (.arr [], rest)
      | rest => (readItems? fuel [] rest).map fun (l, rest) ↦ (.arr l, rest)
    | '\x7b' :: rest =>
      match skipBlanks rest with
      | '\x7d' :: rest => some (.obj [], rest)
      | rest => (readFields? fuel [] rest).map fun (l, rest) ↦ (.obj l, rest)
    | rest => readNumber? rest

/-- The items of an array up to its closing bracket, those already read being in `acc`. -/
def readItems? : Nat → List Json → List Char → Option (List Json × List Char)
  | 0, _, _ => none
  | fuel + 1, acc, cs => do
    let (v, rest) ← readValue? fuel cs
    match skipBlanks rest with
    | ',' :: rest => readItems? fuel (v :: acc) rest
    | ']' :: rest => return ((v :: acc).reverse, rest)
    | _ => none

/-- The fields of an object up to its closing bracket, those already read being in `acc`. -/
def readFields? : Nat → List (String × Json) → List Char → Option (List (String × Json) × List Char)
  | 0, _, _ => none
  | fuel + 1, acc, cs =>
    match skipBlanks cs with
    | '"' :: rest => do
      let (name, rest) ← readString? fuel [] rest
      match skipBlanks rest with
      | ':' :: rest =>
        let (v, rest) ← readValue? fuel rest
        match skipBlanks rest with
        | ',' :: rest => readFields? fuel ((name, v) :: acc) rest
        | '\x7d' :: rest => return (((name, v) :: acc).reverse, rest)
        | _ => none
      | _ => none
    | _ => none

end

/-- The value that a text is written for. -/
def parse? (s : String) : Option Json := do
  let cs := s.toList
  let (v, rest) ← readValue? (2 * cs.length + 2) cs
  if (skipBlanks rest).isEmpty then return v else none

end Json

end Dataflow
