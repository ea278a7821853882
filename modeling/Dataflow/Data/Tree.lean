/-!
# Data as a decoder sees it

The types of this library are read from more than one data format, and the formats differ in what
counts as a number, an absent value or a list. `DataTree V` lists the questions that decoders ask of
a value; each format answers them by its own rules. A decoder is written once, over `DataTree`, and
every answer `none` means that the value does not have the shape in question.
-/

namespace Dataflow

/-- The fields of a record, by name; `none` for a field that is left out. -/
abbrev Fields (V : Type) :=
  String → Option V

/-- The questions that decoders ask of a value of a data format. -/
class DataTree (V : Type) where
  /-- The value as text. -/
  text? : V → Option String
  /-- The value as a natural number of at most 64 bits. -/
  word? : V → Option UInt64
  /-- The value as a truth value. -/
  flag? : V → Option Bool
  /-- Whether the value stands for no value at all. -/
  isAbsent : V → Bool
  /-- The items of a list. -/
  items? : V → Option (List V)
  /-- The value as the name of one of several alternatives that hold nothing else. -/
  name? : V → Option String
  /-- The value as a record with fields of the given names; further fields are passed over. -/
  record? : List String → V → Option (Fields V)
  /-- The value as a record whose field of the first name tells which of several alternatives it
  is. The second argument gives for every alternative the names of its own fields. -/
  choice? : String → List (String × List String) → V → Option (String × Fields V)

namespace DataTree

variable {V : Type} [DataTree V] {α β : Type}

/-- A list of values that can all be decoded. -/
def list? (decode? : V → Option α) (v : V) : Option (List α) := do
  (← items? v).mapM decode?

/-- A list of exactly two values. -/
def pair? (decodeFst? : V → Option α) (decodeSnd? : V → Option β) (v : V) : Option (α × β) := do
  match ← items? v with
  | [a, b] => return (← decodeFst? a, ← decodeSnd? b)
  | _ => none

/-- A value that may be absent. -/
def optional? (decode? : V → Option α) (v : V) : Option (Option α) :=
  if isAbsent v then some none else (decode? v).map some

/-- A field that has to be there. -/
def required (fields : Fields V) (name : String) (decode? : V → Option α) : Option α := do
  decode? (← fields name)

/-- A field that is taken to be `default` where it is left out. -/
def withDefault (fields : Fields V) (name : String) (default : α) (decode? : V → Option α) :
    Option α :=
  match fields name with
  | some v => decode? v
  | none => some default

end DataTree

end Dataflow
