import Dataflow.Yaml.Cursor

/-!
# Block scalars

A block scalar is a run of lines that are indented alike. In the literal style its line breaks stay
as they are; in the folded style single breaks between lines that start with a word become spaces.
What happens to the breaks at the end is said by a sign after the indicator: a minus drops them, a
plus keeps them all, and otherwise one is kept. A digit there gives the indentation; without it the
first line that is not empty does.
-/

namespace Dataflow

namespace Yaml

namespace Block

/-- How the breaks at the end of a block scalar are treated. -/
inductive Chomping
  | strip
  | clip
  | keep
  deriving DecidableEq

/-- The sign for a treatment. -/
def chomping? : Char → Option Chomping
  | '-' => some .strip
  | '+' => some .keep
  | _ => none

/-- A sign, if there is one. -/
def readChomping (c : Cursor) : Chomping × Cursor :=
  match c.head?.bind chomping? with
  | some chomping => (chomping, c.skip 1)
  | none => (.clip, c)

/-- A digit other than zero, if there is one; a zero is refused. -/
def readDigit? (c : Cursor) : Option (Nat × Cursor) :=
  match c.head? with
  | some d =>
    if d = '0' then none
    else if d.isDigit then some (d.toNat - 48, c.skip 1)
    else some (0, c)
  | none => some (0, c)

/-- The sign and the digit after the indicator, in either order; zero stands for no digit. -/
def readHeader? (c : Cursor) : Option (Chomping × Nat × Cursor) := do
  match readChomping c with
  | (.clip, c) =>
    let (n, c) ← readDigit? c
    let (chomping, c) := if n = 0 then (.clip, c) else readChomping c
    return (chomping, n, c)
  | (chomping, c) =>
    let (n, c) ← readDigit? c
    return (chomping, n, c)

/-- Moves over empty lines and over the indentation of the line after them. The answer has the
breaks and the widest indentation that was met. An indentation of zero is one not known yet. `fuel`
bounds the number of characters. -/
def readBreaks? (indent : Nat) : Nat → List Char → Nat → Cursor → Option (List Char × Nat × Cursor)
  | 0, breaks, widest, c => some (breaks, widest, c)
  | fuel + 1, breaks, widest, c =>
    let spaces := (c.rest.takeWhile (· = ' ')).length
    let c := c.skip (if indent = 0 then spaces else min spaces (indent - c.column))
    let widest := max widest c.column
    if (indent = 0 || c.column < indent) && c.head? = some '\t' then none
    else if c.head?.any isBreak then
      let (b, c) := c.takeBreak
      readBreaks? indent fuel (breaks ++ b) widest c
    else some (breaks, widest, c)

/-- Reads lines as long as they are indented. The text in `acc` ends before the break `last` and the
breaks of the empty lines after it; `indented` says whether the line before began with a blank.
`fuel` bounds the number of characters. -/
def readLines? (folded : Bool) (indent : Nat) :
    Nat → List Char → List Char → List Char → Bool → Cursor →
      Option (List Char × List Char × List Char × Cursor)
  | 0, _, _, _, _, _ => none
  | fuel + 1, acc, last, empties, indented, c =>
    if c.column ≠ indent || c.head? = none then some (acc, last, empties, c)
    else do
      let startsBlank := c.head?.any isBlank
      let joint :=
        if folded && last = ['\n'] && !indented && !startsBlank then
          if empties.isEmpty then [' '] else []
        else last
      let (line, c) := c.takeWhile (!isBreak ·)
      let (last, c) := c.takeBreak
      let (breaks, _, c) ← readBreaks? indent fuel [] 0 c
      readLines? folded indent fuel (acc ++ joint ++ empties ++ line) last breaks startsBlank c

/-- Reads a block scalar from its indicator on, inside a collection that is indented by `parent`,
from a text of at most `size` characters. -/
def read? (size : Nat) (folded : Bool) (parent : Int) (c : Cursor) :
    Option (String × Cursor) := do
  let (chomping, digit, c) ← readHeader? (c.skip 1)
  let c ← c.finishLine?
  let given := if digit = 0 then 0 else ((max parent 0) + digit).toNat
  let (empties, widest, c) ← readBreaks? given size [] 0 c
  let indent := if given = 0 then max (max widest (parent + 1).toNat) 1 else given
  let (text, last, empties, c) ←
    readLines? folded indent (size + 1) [] [] empties false c
  let ending := match chomping with
    | .strip => []
    | .clip => last
    | .keep => last ++ empties
  return (String.ofList (text ++ ending), c)

end Block

end Yaml

end Dataflow
