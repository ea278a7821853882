import Dataflow.Yaml.Scalar.Gap

/-!
# Plain scalars

A plain scalar goes on over blanks and line breaks until something ends it: a colon before white
space, a comment, an indicator of a flow collection inside one, a mark between documents, or,
outside of flow collections, a line that is not indented enough.
-/

namespace Dataflow

namespace Yaml

namespace Plain

/-- Characters with a meaning inside flow collections. -/
def isFlowIndicator (c : Char) : Bool :=
  c = ',' || c = '[' || c = ']' || c = '\x7b' || c = '\x7d'

/-- The word at the front of a text. Inside flow collections a colon is refused before another
indicator. -/
def word? (inFlow : Bool) : List Char → Option (List Char)
  | [] => some []
  | ch :: rest =>
    if isBlank ch || isBreak ch then some []
    else if inFlow && ch = ':' && rest.head?.any (fun d ↦ isFlowIndicator d || d = '?') then none
    else if ch = ':' && endsWord rest.head? then some []
    else if inFlow && isFlowIndicator ch then some []
    else (word? inFlow rest).map (ch :: ·)

/-- Reads the words that follow the text in `acc` after the white space in `gap`. The answer has the
whole text, whether a line break came after it, and the place where reading ended. `fuel` bounds the
number of characters. -/
def words? (inFlow : Bool) (indent : Int) :
    Nat → List Char → Gap → Cursor → Option (List Char × Bool × Cursor)
  | 0, _, _, _ => none
  | fuel + 1, acc, gap, c =>
    if c.atDocumentMark || c.head? = some '#' then some (acc, gap.isBroken, c)
    else do
      let word ← word? inFlow c.rest
      if word.isEmpty then return (acc, gap.isBroken, c)
      let acc := acc ++ gap.fold ++ word
      let c := c.skip word.length
      if !endsWord c.head? || c.head? = none then return (acc, false, c)
      let (gap, c) ← Gap.read? (some indent) fuel Gap.empty c
      if !inFlow && (c.column : Int) < indent then return (acc, gap.isBroken, c)
      words? inFlow indent fuel acc gap c

/-- Reads a plain scalar whose further lines are indented by `indent` at least, from a text of at
most `size` characters. -/
def read? (size : Nat) (inFlow : Bool) (indent : Int) (c : Cursor) :
    Option (String × Bool × Cursor) := do
  let (cs, broken, c) ← words? inFlow indent (size + 1) [] Gap.empty c
  return (String.ofList cs, broken, c)

end Plain

end Yaml

end Dataflow
