import Dataflow.Data.Tree
import Dataflow.Json.Basic

/-!
# JSON as data

How decoders read JSON. A text is a string and nothing else, a number is an integer of 64 bits that
is not negative, and only null is absent. A record is an object, or an array of its fields in order
that may be cut short but not be longer. An alternative without content is its name as a string, or
an object whose only field has that name and is null.
-/

namespace Dataflow

namespace Json

/-- The fields with the given names, where the value has the form of a record. -/
def record? (names : List String) : Json → Option (Fields Json)
  | .obj fields => some fun name ↦ (Json.obj fields).field? name
  | .arr items =>
    if items.length ≤ names.length then some fun name ↦ (names.zip items).lookup name else none
  | _ => none

/-- An alternative and its fields: an object with a field that names the alternative, or an array of
the name and the fields. -/
def choice? (tag : String) (alternatives : List (String × List String)) :
    Json → Option (String × Fields Json)
  | .obj fields =>
    match (Json.obj fields).field? tag with
    | some (.str name) => do
      let names ← alternatives.lookup name
      return (name, ← record? names (.obj fields))
    | _ => none
  | .arr (.str name :: items) => do
    let names ← alternatives.lookup name
    return (name, ← record? names (.arr items))
  | _ => none

instance : DataTree Json where
  text?
    | .str s => some s
    | _ => none
  word?
    | .int i => if 0 ≤ i ∧ i.toNat < UInt64.size then some i.toNat.toUInt64 else none
    | _ => none
  flag?
    | .bool b => some b
    | _ => none
  isAbsent
    | .null => true
    | _ => false
  items?
    | .arr items => some items
    | _ => none
  name?
    | .str s => some s
    | .obj [(name, .null)] => some name
    | _ => none
  record?
  choice?

end Json

end Dataflow
