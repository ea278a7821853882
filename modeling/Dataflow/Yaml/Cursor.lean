/-!
# A place in a YAML text

Characters fall into breaks, which end a line, blanks, which are the space and the tab, and all
others. A `Cursor` is the text from some place on, together with the number of bytes before it, its
line and its column; what may stand at a place depends on them in many ways.
-/

namespace Dataflow

namespace Yaml

/-- Whether a character may stand in a YAML text at all. -/
def isAllowed (c : Char) : Bool :=
  c = '\t' || c = '\n' || c = '\r' || ' ' ≤ c && c ≤ '~' || c = '\u0085' ||
    '\u00a0' ≤ c && c.toNat ≤ 0xFFFD || 0x10000 ≤ c.toNat

/-- Whether a character ends a line. -/
def isBreak (c : Char) : Bool :=
  c = '\n' || c = '\r' || c = '\u0085' || c = '\u2028' || c = '\u2029'

/-- Whether a character is a space or a tab. -/
def isBlank (c : Char) : Bool :=
  c = ' ' || c = '\t'

/-- Whether a word ends before this character, or at the end of the text. -/
def endsWord : Option Char → Bool
  | none => true
  | some c => isBlank c || isBreak c

/-- Whether a line ends before this character, or at the end of the text. -/
def endsLine : Option Char → Bool
  | none => true
  | some c => isBreak c

/-- Whether a character may be part of the name of an anchor or a directive. -/
def isNameChar (c : Char) : Bool :=
  c.isAlphanum || c = '_' || c = '-'

/-- The text from some place on, and where that place is. -/
structure Cursor where
  rest : List Char
  /-- How many bytes come before. -/
  index : Nat
  line : Nat
  column : Nat
  deriving Inhabited

namespace Cursor

/-- The start of a text. -/
def start (cs : List Char) : Cursor :=
  ⟨cs, 0, 0, 0⟩

variable (c : Cursor)

/-- The character at the cursor; none at the end of the text. -/
def head? : Option Char :=
  c.rest.head?

/-- The character after the one at the cursor. -/
def second? : Option Char :=
  c.rest.tail.head?

/-- The index of the place `n` characters later. -/
def indexAfter (n : Nat) : Nat :=
  (c.rest.take n).foldl (fun i ch ↦ i + ch.utf8Size) c.index

/-- Moves over `n` characters of one line. -/
def skip (n : Nat) : Cursor :=
  { c with rest := c.rest.drop n, index := c.indexAfter n, column := c.column + n }

/-- Moves over the characters that satisfy `p`, none of which may be a break. -/
def takeWhile (p : Char → Bool) : List Char × Cursor :=
  let taken := c.rest.takeWhile p
  (taken, c.skip taken.length)

/-- Moves over `n` characters and to the start of the next line. -/
def nextLine (n : Nat) : Cursor :=
  ⟨c.rest.drop n, c.indexAfter n, c.line + 1, 0⟩

/-- Moves over one break, if there is one: what it contributes to a text, and the place after it.
The two line separators count as themselves and all other breaks as a line feed. -/
def takeBreak : List Char × Cursor :=
  match c.rest with
  | '\r' :: '\n' :: _ => (['\n'], c.nextLine 2)
  | b :: _ =>
    if b = '\u2028' || b = '\u2029' then ([b], c.nextLine 1)
    else if isBreak b then (['\n'], c.nextLine 1)
    else ([], c)
  | [] => ([], c)

/-- Whether the cursor is at one of the two marks, three dashes or three dots at the start of a
line, that separate documents. -/
def atDocumentMark : Bool :=
  c.column = 0 &&
    match c.rest with
    | '-' :: '-' :: '-' :: rest => endsWord rest.head?
    | '.' :: '.' :: '.' :: rest => endsWord rest.head?
    | _ => false

/-- Moves over blanks and a comment to the end of the line, and over its break. Fails if anything
else comes first. -/
def finishLine? : Option Cursor :=
  let c := (c.takeWhile isBlank).2
  let c := if c.head? = some '#' then (c.takeWhile (!isBreak ·)).2 else c
  if endsLine c.head? then some c.takeBreak.2 else none

end Cursor

end Yaml

end Dataflow
