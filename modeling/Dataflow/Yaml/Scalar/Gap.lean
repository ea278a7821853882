import Dataflow.Yaml.Cursor

/-!
# White space inside scalars

Between two words of a plain or quoted scalar there may be blanks, which count as they are, or line
breaks, which are folded: a single break becomes a space, and of several breaks the first is
dropped. Blanks around breaks do not count.
-/

namespace Dataflow

namespace Yaml

/-- The white space between two words of a scalar. -/
inductive Gap
  | blanks (cs : List Char)
  /-- The first break, if it counts, and those after it. -/
  | breaks (first more : List Char)

namespace Gap

/-- No white space at all. -/
def empty : Gap :=
  blanks []

/-- Whether there is a line break in the gap. -/
def isBroken : Gap → Bool
  | blanks _ => false
  | breaks .. => true

/-- What the gap contributes to the text of the scalar. -/
def fold : Gap → List Char
  | blanks cs => cs
  | breaks first more =>
    if first = ['\n'] then (if more.isEmpty then [' '] else more) else first ++ more

/-- Reads white space, `gap` being what came before. After a break no tab may stand to the left of
the column `limit`, if there is one. `fuel` bounds the number of characters. -/
def read? (limit : Option Int) : Nat → Gap → Cursor → Option (Gap × Cursor)
  | 0, gap, c => some (gap, c)
  | fuel + 1, gap, c =>
    match c.head? with
    | none => some (gap, c)
    | some ch =>
      if isBlank ch then
        match gap with
        | blanks cs => read? limit fuel (blanks (cs ++ [ch])) (c.skip 1)
        | breaks .. =>
          if ch = '\t' && limit.any fun n ↦ (c.column : Int) < n then none
          else read? limit fuel gap (c.skip 1)
      else if isBreak ch then
        let (b, c) := c.takeBreak
        match gap with
        | blanks _ => read? limit fuel (breaks b []) c
        | breaks first more => read? limit fuel (breaks first (more ++ b)) c
      else some (gap, c)

end Gap

end Yaml

end Dataflow
