import Dataflow.Text.Hex
import Dataflow.Yaml.Scalar.Block
import Dataflow.Yaml.Scalar.Plain
import Dataflow.Yaml.Scalar.Quoted

/-!
# Tokens

A YAML text is first cut into tokens. Some of them stand for characters; others, the starts and
ends of block collections, stand for changes of indentation. Whether a word or a bracket begins a
key of a mapping shows only at the colon after it. Until then its place among the tokens is
remembered as a `Candidate`, and when the colon comes, the tokens for the key are put in there.

A `Scan` is what is known after some tokens. Candidates are remembered one for each level of flow
collections and one for what surrounds them; one that lies on an earlier line, or more than 1024
bytes back, is out of the question. Where a block mapping expects a key the candidate is required,
and the text is at fault if the colon does not come.
-/

namespace Dataflow

namespace Yaml

/-- A piece of a YAML text. -/
inductive Token
  | versionDirective (major minor : Nat)
  | tagDirective (handle : String)
  | documentStart
  | documentEnd
  | blockSequenceStart
  | blockMappingStart
  /-- The end of a block collection. -/
  | blockEnd
  | flowSequenceStart
  | flowSequenceEnd
  | flowMappingStart
  | flowMappingEnd
  /-- The dash before an item of a block sequence. -/
  | blockEntry
  /-- The comma of a flow collection. -/
  | flowEntry
  | key
  | value
  | anchor (name : String)
  | alias (name : String)
  /-- A scalar; the flag says whether it is plain. -/
  | scalar (text : String) (plain : Bool)
  deriving DecidableEq, Repr

/-- A place at which a key may have begun. -/
structure Candidate where
  /-- Whether there has to be a key. -/
  required : Bool
  /-- How many tokens come before. -/
  position : Nat
  index : Nat
  line : Nat
  column : Nat

/-- What is known after some tokens. -/
structure Scan where
  /-- How many characters the whole text has. -/
  size : Nat
  cursor : Cursor
  /-- The tokens so far, the latest first. -/
  tokens : List Token
  /-- How many tokens that are. -/
  count : Nat
  /-- The indentation of the innermost block collection; -1 outside of all. -/
  indent : Int
  /-- The indentations of the block collections around it, innermost first. -/
  outer : List Int
  /-- What may be a key at the innermost level of flow collections. -/
  candidate : Option Candidate
  /-- The same for the levels around it, innermost first. -/
  outerCandidates : List (Option Candidate)
  /-- Whether a key may begin at the cursor. -/
  keyAllowed : Bool

namespace Scan

/-- The start of a text. -/
def start (cs : List Char) : Scan where
  size := cs.length
  cursor := .start cs
  tokens := []
  count := 0
  indent := -1
  outer := []
  candidate := none
  outerCandidates := []
  keyAllowed := true

variable (s : Scan)

/-- Whether the cursor is inside a flow collection. -/
def inFlow : Bool :=
  !s.outerCandidates.isEmpty

/-- Appends a token. -/
def emit (t : Token) : Scan :=
  { s with tokens := t :: s.tokens, count := s.count + 1 }

/-- Puts a token at a position among those that are there. -/
def emitAt (position : Nat) (t : Token) : Scan :=
  let later := s.count - position
  { s with tokens := s.tokens.take later ++ t :: s.tokens.drop later, count := s.count + 1 }

/-- Appends a token that is as long as `n` characters. -/
def emitOver (n : Nat) (t : Token) : Scan :=
  { s with cursor := s.cursor.skip n }.emit t

/-! ### Indentation -/

/-- Opens a block collection at a column if it is indented more than the one around it. -/
def roll (column : Nat) (position : Nat) (t : Token) : Scan :=
  if !s.inFlow && s.indent < column then
    { s with indent := column, outer := s.indent :: s.outer }.emitAt position t
  else s

/-- Closes the block collections that are indented by more than `column`. -/
def unroll (column : Int) : Scan :=
  if s.inFlow then s else go s.outer s
where
  /-- Closes as many of the collections as `outer` has entries, at most. -/
  go : List Int → Scan → Scan
    | [], s => s
    | i :: outer, s =>
      if column < s.indent then go outer ({ s with indent := i, outer := outer }.emit .blockEnd)
      else s

/-! ### Candidates for keys -/

/-- Whether a candidate lies too far back. -/
def isStale (k : Candidate) : Bool :=
  k.line < s.cursor.line || k.index + 1024 < s.cursor.index

/-- Drops a candidate that lies too far back; a required one may not. -/
def refresh? (k : Option Candidate) : Option (Option Candidate) :=
  match k with
  | some k => if s.isStale k then (if k.required then none else some none) else some (some k)
  | none => some none

/-- Drops the candidates that lie too far back. -/
def dropStale? : Option Scan := do
  return { s with
    candidate := ← s.refresh? s.candidate
    outerCandidates := ← s.outerCandidates.mapM s.refresh? }

/-- Drops the candidate at this level; a required one may not be dropped. -/
def dropCandidate? : Option Scan :=
  if s.candidate.any (·.required) then none else some { s with candidate := none }

/-- Remembers that a key may begin at the cursor. -/
def saveCandidate? : Option Scan :=
  if s.keyAllowed then do
    let s ← s.dropCandidate?
    return { s with
      candidate := some
        { required := !s.inFlow && s.indent = s.cursor.column
          position := s.count
          index := s.cursor.index
          line := s.cursor.line
          column := s.cursor.column } }
  else some s

/-! ### White space and comments -/

/-- Moves to the next character that belongs to a token. In block collections tabs do not count as
white space where a key could begin. A byte order mark at the start of a line is passed over, but it
takes up a column like any other character. -/
def skipSpace : Nat → Scan → Scan
  | 0, s => s
  | fuel + 1, s =>
    let c := if s.cursor.column = 0 && s.cursor.head? = some '\ufeff' then s.cursor.skip 1
      else s.cursor
    let tabs := s.inFlow || !s.keyAllowed
    let c := (c.takeWhile fun ch ↦ ch = ' ' || tabs && ch = '\t').2
    let c := if c.head? = some '#' then (c.takeWhile (!isBreak ·)).2 else c
    if c.head?.any isBreak then
      skipSpace fuel { s with cursor := c.takeBreak.2, keyAllowed := s.keyAllowed || !s.inFlow }
    else { s with cursor := c }

/-! ### One token -/

/-- The start of a flow collection. -/
def openFlow? (t : Token) : Option Scan := do
  let s ← s.saveCandidate?
  return { s with
    candidate := none
    outerCandidates := s.candidate :: s.outerCandidates
    keyAllowed := true }.emitOver 1 t

/-- The end of a flow collection. -/
def closeFlow? (t : Token) : Option Scan := do
  let s ← s.dropCandidate?
  let s := match s.outerCandidates with
    | [] => s
    | k :: outer => { s with candidate := k, outerCandidates := outer }
  return { s with keyAllowed := false }.emitOver 1 t

/-- A comma between the items of a flow collection. -/
def flowEntry? : Option Scan := do
  let s ← s.dropCandidate?
  return { s with keyAllowed := true }.emitOver 1 .flowEntry

/-- A dash before an item. -/
def blockEntry? : Option Scan := do
  if !s.inFlow && !s.keyAllowed then none
  let s := s.roll s.cursor.column s.count .blockSequenceStart
  let s ← s.dropCandidate?
  return { s with keyAllowed := true }.emitOver 1 .blockEntry

/-- A question mark before a key. -/
def explicitKey? : Option Scan := do
  if !s.inFlow && !s.keyAllowed then none
  let s := s.roll s.cursor.column s.count .blockMappingStart
  let s ← s.dropCandidate?
  return { s with keyAllowed := !s.inFlow }.emitOver 1 .key

/-- A colon after a key. -/
def value? : Option Scan :=
  match s.candidate with
  | some k =>
    let s := { s with candidate := none }.emitAt k.position .key
    let s := s.roll k.column k.position .blockMappingStart
    some ({ s with keyAllowed := false }.emitOver 1 .value)
  | none =>
    if !s.inFlow && !s.keyAllowed then none
    else
      let s := s.roll s.cursor.column s.count .blockMappingStart
      some ({ s with keyAllowed := !s.inFlow }.emitOver 1 .value)

/-- Closes all block collections before a directive or a mark between documents. -/
def leaveBlocks? : Option Scan := do
  let s ← (s.unroll (-1)).dropCandidate?
  return { s with keyAllowed := false }

/-- The name of an anchor, behind its indicator. -/
def name? (token : String → Token) : Option Scan := do
  let s ← s.saveCandidate?
  let (name, c) := (s.cursor.skip 1).takeWhile isNameChar
  let ends := endsWord c.head? || c.head?.any fun ch ↦ "?:,]\x7d%@\x60".toList.contains ch
  if name.isEmpty || !ends then none
  return { s with keyAllowed := false, cursor := c }.emit (token (String.ofList name))

/-- A scalar between quotes. -/
def quoted? (single : Bool) : Option Scan := do
  let s ← s.saveCandidate?
  let (text, c) ← Quoted.read? s.size single s.cursor
  return { s with keyAllowed := false, cursor := c }.emit (.scalar text false)

/-- A plain scalar. A key may begin after it if it is followed by a line break. -/
def plain? : Option Scan := do
  let s ← s.saveCandidate?
  let (text, broken, c) ← Plain.read? s.size s.inFlow (s.indent + 1) s.cursor
  return { s with keyAllowed := broken, cursor := c }.emit (.scalar text true)

/-- A block scalar. -/
def block? (folded : Bool) : Option Scan := do
  let s ← s.dropCandidate?
  let (text, c) ← Block.read? s.size folded s.indent s.cursor
  return { s with keyAllowed := true, cursor := c }.emit (.scalar text false)

/-! ### Directives -/

/-- A number of at most nine digits. -/
def versionNumber? (c : Cursor) : Option (Nat × Cursor) :=
  let (digits, c) := c.takeWhile Char.isDigit
  if digits.isEmpty || digits.length > 9 then none
  else some (digits.foldl (fun n d ↦ 10 * n + (d.toNat - 48)) 0, c)

/-- The two numbers of a version. -/
def version? (c : Cursor) : Option (Token × Cursor) := do
  let (major, c) ← versionNumber? (c.takeWhile isBlank).2
  if c.head? ≠ some '.' then none
  let (minor, c) ← versionNumber? (c.skip 1)
  return (.versionDirective major minor, c)

/-- Characters of which the meaning of a tag handle may consist. -/
def isTagChar (c : Char) : Bool :=
  isNameChar c || ";/?:@&=+$.%!~*'(),[]".toList.contains c

/-- How many octets belong to a character in UTF-8 besides the first one. -/
def laterOctets? (first : Nat) : Option Nat :=
  if first < 0x80 then some 0
  else if first / 0x20 = 6 then some 1
  else if first / 0x10 = 14 then some 2
  else if first / 0x08 = 30 then some 3
  else none

/-- Whether every percent sign begins an escaped octet and the octets make up whole characters.
Of the character that was begun, `missing` octets are still to come. -/
def areEscapesWhole (missing : Nat) : List Char → Bool
  | '%' :: high :: low :: rest =>
    match Hex.value? high, Hex.value? low with
    | some high, some low =>
      let octet := 16 * high + low
      match missing with
      | 0 =>
        match laterOctets? octet with
        | some later => areEscapesWhole later rest
        | none => false
      | missing + 1 => octet / 0x40 = 2 && areEscapesWhole missing rest
    | _, _ => false
  | c :: rest => c ≠ '%' && missing = 0 && areEscapesWhole 0 rest
  | [] => missing = 0

/-- A tag handle and what it stands for. -/
def tag? (c : Cursor) : Option (Token × Cursor) := do
  let c := (c.takeWhile isBlank).2
  if c.head? ≠ some '!' then none
  let (name, c) := (c.skip 1).takeWhile isNameChar
  let (handle, c) ← match c.head? with
    | some '!' => some ('!' :: name ++ ['!'], c.skip 1)
    | _ => if name.isEmpty then some (['!'], c) else none
  if !c.head?.any isBlank then none
  let (meaning, c) := (c.takeWhile isBlank).2.takeWhile isTagChar
  if meaning.isEmpty || !areEscapesWhole 0 meaning || !endsWord c.head? then none
  return (.tagDirective (String.ofList handle), c)

/-- A directive, from its percent sign to the end of the line. -/
def directive? : Option Scan := do
  let s ← s.leaveBlocks?
  let (name, c) := (s.cursor.skip 1).takeWhile isNameChar
  if !endsWord c.head? then none
  let (token, c) ← match String.ofList name with
    | "YAML" => version? c
    | "TAG" => tag? c
    | _ => none
  let c ← c.finishLine?
  return { s with cursor := c }.emit token

/-- Reads one token. The cursor has to be at a character. -/
def token? (ch : Char) : Option Scan :=
  let next := s.cursor.second?
  let separated := s.inFlow || endsWord next
  if s.cursor.column = 0 && ch = '%' then s.directive?
  else if s.cursor.atDocumentMark then do
    let s ← s.leaveBlocks?
    return s.emitOver 3 (if ch = '-' then .documentStart else .documentEnd)
  else if ch = '[' then s.openFlow? .flowSequenceStart
  else if ch = '\x7b' then s.openFlow? .flowMappingStart
  else if ch = ']' then s.closeFlow? .flowSequenceEnd
  else if ch = '\x7d' then s.closeFlow? .flowMappingEnd
  else if ch = ',' then s.flowEntry?
  else if ch = '-' && endsWord next then s.blockEntry?
  else if ch = '?' && separated then s.explicitKey?
  else if ch = ':' && separated then s.value?
  else if ch = '*' then s.name? .alias
  else if ch = '&' then s.name? .anchor
  else if ch = '|' && !s.inFlow then s.block? false
  else if ch = '>' && !s.inFlow then s.block? true
  else if ch = '\'' then s.quoted? true
  else if ch = '"' then s.quoted? false
  else if isBlank ch || "!|>%@\x60".toList.contains ch then none
  else s.plain?

/-- Reads tokens to the end of the text. `fuel` bounds their number. -/
def tokens? : Nat → Scan → Option (List Token)
  | 0, _ => none
  | fuel + 1, s => do
    let s ← (s.skipSpace s.size).dropStale?
    let s := s.unroll s.cursor.column
    match s.cursor.head? with
    | none => do
      let s ← (s.unroll (-1)).dropCandidate?
      return s.tokens.reverse
    | some ch => tokens? fuel (← s.token? ch)

end Scan

/-- The tokens of a text. -/
def Token.ofText? (text : String) : Option (List Token) :=
  let cs := text.toList
  if cs.all isAllowed then Scan.tokens? (cs.length + 2) (.start cs) else none

end Yaml

end Dataflow
