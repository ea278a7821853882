import Dataflow.Yaml.Tree

/-!
# Expansion

An alias is read by reading once more the node that it means, so that a short text may stand for a
value of any size. How often aliases are followed is therefore limited: to 100 times for each event
of the text. Only the parts that a decoder looks at count, and they count as often as it does; what
these parts are is said by a `Shape`.

The parts that are still to be looked at are kept in a list. To follow an alias takes one from what
may still be followed, and to take any other value apart leaves fewer events in the list
(`eventsOf_parts_lt`), so the search ends even where an anchored node contains an alias for itself.
-/

namespace Dataflow

namespace Yaml

namespace Node

mutual

/-- How many events a node consists of: a scalar and an alias are one each, and a collection has one
at its start and one at its end besides those of its contents. -/
def events {α : Type} : Node α → Nat
  | .scalar .. | .alias _ => 1
  | .sequence _ items => itemEvents items + 2
  | .mapping _ fields => fieldEvents fields + 2

/-- The same for the items of a sequence. -/
def itemEvents {α : Type} : List (Node α) → Nat
  | [] => 0
  | item :: rest => events item + itemEvents rest

/-- The same for the fields of a mapping. -/
def fieldEvents {α : Type} : List (Node α × Node α) → Nat
  | [] => 0
  | (k, v) :: rest => events k + events v + fieldEvents rest

end

end Node

/-- Which parts of a value a decoder looks at. -/
inductive Shape
  /-- Nothing but the value itself, which should be a scalar. -/
  | scalar
  /-- The items of a list. -/
  | list (item : Shape)
  /-- The keys of a record, and the values of those fields that have one of the given names. -/
  | record (fields : List (String × Shape))
  /-- All of it, because it is not known beforehand what it is. -/
  | whole

namespace Value

/-- A value that a decoder looks at, with what it looks at in it. -/
abbrev View :=
  Shape × Value

/-- How many events some views have. -/
def eventsOf : List View → Nat
  | [] => 0
  | (_, v) :: rest => v.node.events + eventsOf rest

theorem eventsOf_append (xs ys : List View) :
    eventsOf (xs ++ ys) = eventsOf xs + eventsOf ys := by
  induction xs with
  | nil => simp [eventsOf]
  | cons x xs ih => simp only [List.cons_append, eventsOf, ih]; omega

/-- What is looked at of one field of a mapping. -/
def fieldParts (v : Value) (shape : Shape) (k w : Node Nat) : List View :=
  match shape with
  | .record fields =>
    let known? := (v.sibling k).text?.bind (List.lookup · fields)
    (.scalar, v.sibling k) :: (known?.map fun shape ↦ (shape, v.sibling w)).toList
  | .whole => [(.whole, v.sibling k), (.whole, v.sibling w)]
  | _ => []

/-- What is looked at of one item of a sequence. -/
def itemParts (v : Value) (shape : Shape) (item : Node Nat) : List View :=
  match shape with
  | .list shape => [(shape, v.sibling item)]
  | .whole => [(.whole, v.sibling item)]
  | _ => []

/-- What is looked at of the parts of a value. -/
def parts (v : Value) (shape : Shape) : List View :=
  match v.node with
  | .sequence _ items => items.flatMap (v.itemParts shape)
  | .mapping _ fields => fields.flatMap fun f ↦ v.fieldParts shape f.1 f.2
  | _ => []

/-- What is looked at of an item has no more events than the item. -/
theorem eventsOf_itemParts_le (v : Value) (shape : Shape) (item : Node Nat) :
    eventsOf (v.itemParts shape item) ≤ item.events := by
  cases shape <;> simp [itemParts, eventsOf, sibling]

/-- What is looked at of a field has no more events than its key and its value. -/
theorem eventsOf_fieldParts_le (v : Value) (shape : Shape) (k w : Node Nat) :
    eventsOf (v.fieldParts shape k w) ≤ k.events + w.events := by
  cases shape with
  | record fields =>
    simp only [fieldParts]
    cases (v.sibling k).text?.bind (List.lookup · fields) <;> simp [eventsOf, sibling]
  | _ => simp [fieldParts, eventsOf, sibling]

/-- The same for all items of a sequence. -/
theorem eventsOf_items_le (v : Value) (shape : Shape) (items : List (Node Nat)) :
    eventsOf (items.flatMap (v.itemParts shape)) ≤ Node.itemEvents items := by
  induction items with
  | nil => simp [eventsOf, Node.itemEvents]
  | cons item rest ih =>
    have h := v.eventsOf_itemParts_le shape item
    simp only [List.flatMap_cons, eventsOf_append, Node.itemEvents]
    omega

/-- The same for all fields of a mapping. -/
theorem eventsOf_fields_le (v : Value) (shape : Shape) (fields : List (Node Nat × Node Nat)) :
    eventsOf (fields.flatMap fun f ↦ v.fieldParts shape f.1 f.2) ≤ Node.fieldEvents fields := by
  induction fields with
  | nil => simp [eventsOf, Node.fieldEvents]
  | cons f rest ih =>
    have h := v.eventsOf_fieldParts_le shape f.1 f.2
    simp only [List.flatMap_cons, eventsOf_append, Node.fieldEvents]
    omega

/-- The parts of a value have fewer events than the value. -/
theorem eventsOf_parts_lt (v : Value) (shape : Shape) :
    eventsOf (v.parts shape) < v.node.events := by
  unfold parts
  split
  next h =>
    have := v.eventsOf_items_le shape ‹_›
    simp only [h, Node.events]
    omega
  next h =>
    have := v.eventsOf_fields_le shape ‹_›
    simp only [h, Node.events]
    omega
  next =>
    cases h : v.node <;> simp [eventsOf, Node.events]

/-- Whether all that is looked at can be, with aliases followed at most `budget` times. -/
def expandsWithin (budget : Nat) : List View → Bool
  | [] => true
  | (shape, v) :: rest =>
    match v.node with
    | .alias _ =>
      match budget with
      | 0 => false
      | budget + 1 => expandsWithin budget ((shape, v.sibling v.target) :: rest)
    | _ => expandsWithin budget (v.parts shape ++ rest)
termination_by views => (budget, eventsOf views)
decreasing_by
  · exact Prod.Lex.left _ _ (Nat.lt_succ_self _)
  · have := v.eventsOf_parts_lt shape
    refine Prod.Lex.right _ ?_
    simp only [eventsOf_append, eventsOf]
    omega

/-- How often aliases may be followed, for each event. -/
def expansionLimit : Nat :=
  100

/-- Whether aliases are followed no more often than is allowed. -/
def isCompact (v : Value) (shape : Shape) : Bool :=
  expandsWithin (expansionLimit * v.node.events) [(shape, v)]

end Value

end Yaml

end Dataflow
