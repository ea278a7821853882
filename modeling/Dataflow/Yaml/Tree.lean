import Dataflow.Data.Tree
import Dataflow.Yaml.Node
import Dataflow.Yaml.Number

/-!
# YAML as data

How decoders read YAML. A scalar is taken for what is asked for: any scalar is a text, and a plain
one may be a number, a truth value, or no value at all. An empty plain scalar also passes for an
empty list and for a record without fields. Records are mappings; their keys are scalars, a key that
belongs to a field may not be repeated, and all other keys are passed over.

Anchored nodes are numbered, and an alias means the node that has its number. A number is the count
of different names that were anchored before.

A record that names one of several alternatives is read differently, because it is looked at as a
whole before it is known which it is: every value in it has to make sense by itself. The fields of
such a record are marked as `loose`.
-/

namespace Dataflow

namespace Yaml

/-! ### Anchors -/

/-- The numbers of the names anchored so far. -/
abbrev AnchorNumbers :=
  List (String × Nat)

namespace Node

/-- Gives an anchor its number. -/
def numberAnchor (names : AnchorNumbers) : Option String → Option Nat × AnchorNumbers
  | none => (none, names)
  | some name => (some names.length, (name, names.length) :: names.filter (·.1 ≠ name))

mutual

/-- Replaces names of anchors by their numbers. Fails at an alias that was not anchored before. -/
def number? (names : AnchorNumbers) : Node String → Option (Node Nat × AnchorNumbers)
  | .alias name => (names.lookup name).map fun n ↦ (.alias n, names)
  | .scalar anchor text plain =>
    let (anchor, names) := numberAnchor names anchor
    some (.scalar anchor text plain, names)
  | .sequence anchor items => do
    let (anchor, names) := numberAnchor names anchor
    let (items, names) ← numberItems? names items
    return (.sequence anchor items, names)
  | .mapping anchor fields => do
    let (anchor, names) := numberAnchor names anchor
    let (fields, names) ← numberFields? names fields
    return (.mapping anchor fields, names)

/-- The same for the items of a sequence, in order. -/
def numberItems? (names : AnchorNumbers) :
    List (Node String) → Option (List (Node Nat) × AnchorNumbers)
  | [] => some ([], names)
  | item :: rest => do
    let (item, names) ← number? names item
    let (rest, names) ← numberItems? names rest
    return (item :: rest, names)

/-- The same for the fields of a mapping, in order. -/
def numberFields? (names : AnchorNumbers) :
    List (Node String × Node String) → Option (List (Node Nat × Node Nat) × AnchorNumbers)
  | [] => some ([], names)
  | (k, v) :: rest => do
    let (k, names) ← number? names k
    let (v, names) ← number? names v
    let (rest, names) ← numberFields? names rest
    return ((k, v) :: rest, names)

end

/-- The anchor of a node. -/
def anchor? {α : Type} : Node α → Option α
  | .scalar anchor .. | .sequence anchor _ | .mapping anchor _ => anchor
  | .alias _ => none

mutual

/-- All nodes with an anchor, in the order in which they begin. -/
def anchored : Node Nat → List (Nat × Node Nat)
  | .sequence anchor items =>
    (anchor.map fun n ↦ (n, Node.sequence anchor items)).toList ++ anchoredItems items
  | .mapping anchor fields =>
    (anchor.map fun n ↦ (n, Node.mapping anchor fields)).toList ++ anchoredFields fields
  | node => (node.anchor?.map fun n ↦ (n, node)).toList

/-- The same for the items of a sequence. -/
def anchoredItems : List (Node Nat) → List (Nat × Node Nat)
  | [] => []
  | item :: rest => anchored item ++ anchoredItems rest

/-- The same for the fields of a mapping. -/
def anchoredFields : List (Node Nat × Node Nat) → List (Nat × Node Nat)
  | [] => []
  | (k, v) :: rest => anchored k ++ anchored v ++ anchoredFields rest

end

end Node

/-! ### Scalars -/

/-- Whether a plain scalar stands for no value. -/
def isNull (text : String) : Bool :=
  ["", "~", "null", "Null", "NULL"].contains text

/-- The truth value that a plain scalar stands for. -/
def flag? (text : String) : Option Bool :=
  if ["true", "True", "TRUE"].contains text then some true
  else if ["false", "False", "FALSE"].contains text then some false
  else none

/-- Whether a plain scalar is an integer that fits into 128 bits but not into 64. -/
def isWide (text : String) : Bool :=
  (natural? (1 <<< 64) text).isNone && (opposite? (1 <<< 63) text).isNone &&
    ((natural? (1 <<< 128) text).isSome || (opposite? (1 <<< 127) text).isSome)

/-! ### Values -/

/-- A node of a document, seen together with all anchored nodes of the document. -/
structure Value where
  node : Node Nat
  /-- The anchored nodes, the one that begins last first. -/
  anchored : List (Nat × Node Nat)
  /-- Whether the value was looked at before it was known what it should be. -/
  loose : Bool

namespace Value

/-- Another node of the same document. -/
def sibling (v : Value) (node : Node Nat) : Value :=
  { v with node }

/-- The node that is meant: for an alias, the one that has its number. -/
def target (v : Value) : Node Nat :=
  match v.node with
  | .alias n => (v.anchored.lookup n).getD .empty
  | node => node

/-- The text of a scalar. -/
def text? (v : Value) : Option String :=
  match v.target with
  | .scalar _ text _ => some text
  | _ => none

/-- The text of a plain scalar. -/
def plain? (v : Value) : Option String :=
  match v.target with
  | .scalar _ text true => some text
  | _ => none

/-- A natural number of 64 bits. A loose value may have a minus sign before a zero. -/
def word? (v : Value) : Option UInt64 := do
  let text ← v.plain?
  match natural? UInt64.size text with
  | some n => return n.toUInt64
  | none => if v.loose then (opposite? 0 text).map Nat.toUInt64 else none

/-- The fields of a mapping; an empty plain scalar has none. -/
def fields? (v : Value) : Option (List (Value × Value)) :=
  match v.target with
  | .mapping _ fields => some (fields.map fun (k, w) ↦ (v.sibling k, v.sibling w))
  | .scalar _ "" true => some []
  | _ => none

/-- The items of a sequence; an empty plain scalar has none. -/
def items? (v : Value) : Option (List Value) :=
  match v.target with
  | .sequence _ items => some (items.map v.sibling)
  | .scalar _ "" true => some []
  | _ => none

/-- Those of the fields that have one of the given names, none of which may be repeated. -/
def select? (names : List String) (fields : List (String × Value)) : Option (Fields Value) :=
  let known := fields.filter fun f ↦ names.contains f.1
  if (known.map (·.1)).Nodup then some fun name ↦ known.lookup name else none

/-- A record whose keys are texts. -/
def record? (names : List String) (v : Value) : Option (Fields Value) := do
  select? names (← (← v.fields?).mapM fun (k, w) ↦ do return (← k.text?, w))

/-! ### Records that name an alternative -/

/-- How deep values may be nested that are looked at before it is known what they are. -/
def depthLimit : Nat :=
  125

/-- Whether a value makes sense by itself: no integer in it is too wide, and collections are nested
no deeper than `depth`. -/
def isSensible (depth : Nat) (v : Value) : Bool :=
  match v.target, depth with
  | .scalar _ text plain, _ => !(plain && isWide text)
  | .sequence _ items, depth + 1 => items.all fun item ↦ isSensible depth (v.sibling item)
  | .mapping _ fields, depth + 1 =>
    fields.all fun (k, w) ↦ isSensible depth (v.sibling k) && isSensible depth (v.sibling w)
  | _, _ => false

/-- The name of the field that a key stands for: a text that is nothing else, or the place of the
field as a number. All other keys are refused. -/
def looseName? (names : List String) (key : Value) : Option String :=
  match key.target with
  | .scalar _ text false => some text
  | .scalar _ text true =>
    match natural? UInt64.size text with
    | some n => some (names.getD n "")
    | none =>
      if isNull text || (Yaml.flag? text).isSome || (opposite? (1 <<< 63) text).isSome ||
          isOtherNumber text then none
      else some text
  | _ => none

/-- The alternative that a mapping names under `tag`, and its fields. An alternative without fields
does not care what else the mapping has. -/
def choiceOfMapping? (tag : String) (alternatives : List (String × List String))
    (fields : List (Value × Value)) : Option (String × Fields Value) := do
  let (tags, others) := fields.partition fun f ↦ f.1.text? = some tag
  match tags with
  | [(_, v)] =>
    let name ← v.text?
    let names ← alternatives.lookup name
    if names.isEmpty then return (name, fun _ ↦ none)
    let fields ← others.mapM fun (k, w) ↦ do
      return (← looseName? names k, { w with loose := true })
    return (name, ← select? names fields)
  | _ => none

/-- The alternative that a sequence names first, and its fields, which follow in their order. -/
def choiceOfSequence? (alternatives : List (String × List String)) :
    List Value → Option (String × Fields Value)
  | [] => none
  | v :: rest => do
    let name ← v.text?
    let names ← alternatives.lookup name
    if rest.length ≤ names.length then
      let fields := names.zip (rest.map fun w ↦ { w with loose := true })
      return (name, fun field ↦ fields.lookup field)
    else none

/-- A record that names an alternative. -/
def choice? (tag : String) (alternatives : List (String × List String)) (v : Value) :
    Option (String × Fields Value) :=
  if v.isSensible depthLimit then
    match v.target with
    | .mapping _ fields =>
      choiceOfMapping? tag alternatives (fields.map fun (k, w) ↦ (v.sibling k, v.sibling w))
    | .sequence _ items => choiceOfSequence? alternatives (items.map v.sibling)
    | _ => none
  else none

instance : DataTree Value where
  text?
  word?
  flag? v := v.plain?.bind Yaml.flag?
  isAbsent v := v.plain?.any isNull
  items?
  name? := text?
  record?
  choice?

/-- The value of the only document in a text. -/
def parse? (text : String) : Option Value := do
  let named ← Node.ofTokens? (← Token.ofText? text)
  let (node, _) ← named.number? []
  return { node, anchored := node.anchored.reverse, loose := false }

end Value

end Yaml

end Dataflow
