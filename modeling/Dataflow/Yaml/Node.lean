import Dataflow.Yaml.Token

/-!
# Nodes

Tokens make up nodes: scalars, sequences, mappings, and aliases, which stand for a node that was
anchored under some name. A node that is left out is an empty plain scalar. A text has to contain
exactly one document, and that is one node.

Readers take the tokens that are left and answer with what they read and the tokens after it. Every
one of them takes a token before it calls itself, so the number of tokens bounds the depth.
-/

namespace Dataflow

namespace Yaml

/-- A piece of a document, with anchors and aliases of type `α`. -/
inductive Node (α : Type)
  /-- A text; the flag says whether it was written as a plain scalar. -/
  | scalar (anchor : Option α) (text : String) (plain : Bool)
  | sequence (anchor : Option α) (items : List (Node α))
  | mapping (anchor : Option α) (fields : List (Node α × Node α))
  | alias (target : α)
  deriving Inhabited, Repr

namespace Node

/-- What stands for a node that is left out. -/
def empty {α : Type} : Node α :=
  .scalar none "" true

/-- Whether the next token is one of those that `p` describes; at the end of the text it is. -/
def isNext (p : Token → Bool) : List Token → Bool
  | [] => true
  | t :: _ => p t

/-- The tokens before which an item of a block sequence is left out. -/
def endsItem : Token → Bool
  | .blockEntry | .blockEnd => true
  | _ => false

/-- The tokens before which a part of a block mapping is left out. -/
def endsBlockPart : Token → Bool
  | .key | .value | .blockEnd => true
  | _ => false

/-- The tokens before which an item of a sequence in a block mapping is left out. -/
def endsIndentlessItem (t : Token) : Bool :=
  endsItem t || endsBlockPart t

/-- The tokens before which a value in a flow collection that ends with `closing` is left out. -/
def endsFlowValue (closing t : Token) : Bool :=
  t = .flowEntry || t = closing

/-- The tokens before which a key in a flow collection that ends with `closing` is left out. -/
def endsFlowKey (closing t : Token) : Bool :=
  t = .value || endsFlowValue closing t

/-- Moves over the comma before every item of a flow collection but the first. -/
def separator? (first : Bool) (ts : List Token) : Option (List Token) :=
  if first then some ts
  else
    match ts with
    | .flowEntry :: rest => some rest
    | _ => none

mutual

/-- A node, or an empty one if the next token is one of those that `p` describes. -/
def unless? (p : Token → Bool) (block indentless : Bool) :
    Nat → List Token → Option (Node String × List Token)
  | 0, _ => none
  | fuel + 1, ts => if isNext p ts then some (empty, ts) else node? block indentless fuel ts

/-- A node. It may be a block collection only if `block` says so, and a sequence without
indentation of its own only if `indentless` says so. -/
def node? (block indentless : Bool) : Nat → List Token → Option (Node String × List Token)
  | 0, _ => none
  | _ + 1, .alias name :: ts => some (.alias name, ts)
  | fuel + 1, .anchor name :: ts => content? block indentless (some name) fuel ts
  | fuel + 1, ts => content? block indentless none fuel ts

/-- What follows the anchor of a node. An anchor may stand alone. -/
def content? (block indentless : Bool) (anchor : Option String) :
    Nat → List Token → Option (Node String × List Token)
  | 0, _ => none
  | fuel + 1, ts =>
    match ts with
    | .scalar text plain :: ts => some (.scalar anchor text plain, ts)
    | .flowSequenceStart :: ts => flowItems? anchor [] fuel ts
    | .flowMappingStart :: ts => flowFields? anchor [] fuel ts
    | .blockSequenceStart :: rest =>
      if block then blockItems? anchor [] fuel rest else absent? anchor ts
    | .blockMappingStart :: rest =>
      if block then blockFields? anchor [] fuel rest else absent? anchor ts
    | .blockEntry :: _ =>
      if indentless then indentlessItems? anchor [] fuel ts else absent? anchor ts
    | _ => absent? anchor ts

/-- Nothing after an anchor. -/
def absent? (anchor : Option String) (ts : List Token) : Option (Node String × List Token) :=
  anchor.map fun name ↦ (.scalar (some name) "" true, ts)

/-- The items of a block sequence. -/
def blockItems? (anchor : Option String) (acc : List (Node String)) :
    Nat → List Token → Option (Node String × List Token)
  | 0, _ => none
  | _ + 1, .blockEnd :: ts => some (.sequence anchor acc.reverse, ts)
  | fuel + 1, .blockEntry :: ts => do
    let (item, ts) ← unless? endsItem true false fuel ts
    blockItems? anchor (item :: acc) fuel ts
  | _ + 1, _ => none

/-- The items of a sequence that is not indented more than the mapping around it. -/
def indentlessItems? (anchor : Option String) (acc : List (Node String)) :
    Nat → List Token → Option (Node String × List Token)
  | 0, _ => none
  | fuel + 1, .blockEntry :: ts => do
    let (item, ts) ← unless? endsIndentlessItem true false fuel ts
    indentlessItems? anchor (item :: acc) fuel ts
  | _ + 1, ts => some (.sequence anchor acc.reverse, ts)

/-- The fields of a block mapping. -/
def blockFields? (anchor : Option String) (acc : List (Node String × Node String)) :
    Nat → List Token → Option (Node String × List Token)
  | 0, _ => none
  | _ + 1, .blockEnd :: ts => some (.mapping anchor acc.reverse, ts)
  | fuel + 1, .key :: ts => do
    let (k, ts) ← unless? endsBlockPart true true fuel ts
    let (v, ts) ← valueOf? endsBlockPart true true fuel ts
    blockFields? anchor ((k, v) :: acc) fuel ts
  | _ + 1, _ => none

/-- The value after a key; left out if there is no colon. -/
def valueOf? (p : Token → Bool) (block indentless : Bool) :
    Nat → List Token → Option (Node String × List Token)
  | 0, _ => none
  | fuel + 1, .value :: ts => unless? p block indentless fuel ts
  | _ + 1, ts => some (empty, ts)

/-- The items of a flow sequence. An item with a colon is a mapping with one field. -/
def flowItems? (anchor : Option String) (acc : List (Node String)) :
    Nat → List Token → Option (Node String × List Token)
  | 0, _ => none
  | _ + 1, .flowSequenceEnd :: ts => some (.sequence anchor acc.reverse, ts)
  | fuel + 1, ts => do
    match ← separator? acc.isEmpty ts with
    | .flowSequenceEnd :: ts => return (.sequence anchor acc.reverse, ts)
    | .key :: ts =>
      let (k, ts) ← singleKey? fuel ts
      let (v, ts) ← valueOf? (endsFlowValue .flowSequenceEnd) false false fuel ts
      flowItems? anchor (.mapping none [(k, v)] :: acc) fuel ts
    | ts =>
      let (item, ts) ← node? false false fuel ts
      flowItems? anchor (item :: acc) fuel ts

/-- The key of a mapping with one field in a flow sequence. Where it is left out, the token in its
place is passed over. -/
def singleKey? : Nat → List Token → Option (Node String × List Token)
  | 0, _ => none
  | fuel + 1, ts =>
    if isNext (endsFlowKey .flowSequenceEnd) ts then some (empty, ts.tail)
    else node? false false fuel ts

/-- The fields of a flow mapping. -/
def flowFields? (anchor : Option String) (acc : List (Node String × Node String)) :
    Nat → List Token → Option (Node String × List Token)
  | 0, _ => none
  | _ + 1, .flowMappingEnd :: ts => some (.mapping anchor acc.reverse, ts)
  | fuel + 1, ts => do
    match ← separator? acc.isEmpty ts with
    | .flowMappingEnd :: ts => return (.mapping anchor acc.reverse, ts)
    | .key :: ts =>
      let (k, ts) ← unless? (endsFlowKey .flowMappingEnd) false false fuel ts
      let (v, ts) ← valueOf? (endsFlowValue .flowMappingEnd) false false fuel ts
      flowFields? anchor ((k, v) :: acc) fuel ts
    | ts =>
      let (k, ts) ← node? false false fuel ts
      flowFields? anchor ((k, empty) :: acc) fuel ts

end

/-! ### Documents -/

/-- Moves over directives, those with the handles in `handles` and perhaps one with a version having
come before. Versions other than 1.1 and 1.2 are refused, and so are repetitions. -/
def directives? (versioned : Bool) (handles : List String) : List Token → Option (List Token)
  | .versionDirective major minor :: ts =>
    if versioned || major ≠ 1 || minor ≠ 1 && minor ≠ 2 then none else directives? true handles ts
  | .tagDirective handle :: ts =>
    if handle ∈ handles then none else directives? versioned (handle :: handles) ts
  | ts => some ts

/-- The tokens before which the contents of a document are left out. -/
def endsDocument : Token → Bool
  | .versionDirective .. | .tagDirective _ | .documentStart | .documentEnd => true
  | _ => false

/-- The node of the only document. Without directives the mark at its start may be missing. -/
def ofTokens? (ts : List Token) : Option (Node String) := do
  let fuel := 4 * ts.length + 4
  let (node, rest) ← match ← directives? false [] ts with
    | .documentStart :: rest => unless? endsDocument true false fuel rest
    | rest => if rest.length = ts.length then node? true false fuel rest else none
  if rest.all (· = .documentEnd) then return node else none

end Node

end Yaml

end Dataflow
