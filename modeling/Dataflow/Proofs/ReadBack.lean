import Dataflow.Document.Build
import Dataflow.Document.Text
import Dataflow.Json.Tree
import Dataflow.Proofs.Snapshots

/-!
# Documents are read back

A document that is written as JSON is read as the same document, whatever its strings, positions
and choices are. `Json.Reads` says this of one encoder and its decoder. It passes from scalars to
options, lists and pairs (`Reads.option`, `Reads.list`, `Reads.pair`), and to a record from its
fields, because a field is found under its name (`required_field`, `withDefault_field`). The defaults
play no part: every field is written, and an absent option is written as null.

That is where options need care. Null is read as an absent value wherever an option is expected, so
an option is only read back if nothing that is there is itself written as null.

What has been written is text in the end. The text is read as the value it was written for
(`Dataflow.Proofs.JsonText`), since all its numbers are integers.
-/

namespace Dataflow

open DataTree

/-! ### Encoders and their decoders -/

namespace Json

variable {α β : Type}

/-- Whatever `encode` writes, `decode?` reads back. -/
def Reads (decode? : Json → Option α) (encode : α → Json) : Prop :=
  ∀ a, decode? (encode a) = some a

theorem reads_text : Reads text? str :=
  fun _ ↦ rfl

theorem reads_flag : Reads flag? bool :=
  fun _ ↦ rfl

/-- Every number of 64 bits is small enough to be read. -/
theorem reads_word : Reads word? fun n : UInt64 ↦ nat n.toNat := by
  intro n
  have hsize : n.toNat < UInt64.size := n.toNat_lt
  show (if 0 ≤ (n.toNat : Int) ∧ (n.toNat : Int).toNat < UInt64.size then
    some (n.toNat : Int).toNat.toUInt64 else none) = some n
  rw [Int.toNat_natCast, if_pos ⟨Int.natCast_nonneg _, hsize⟩]
  exact congrArg some UInt64.ofNat_toNat

section Reads

variable {decode? : Json → Option α} {encode : α → Json} {decode'? : Json → Option β}
  {encode' : β → Json}

theorem Reads.option (h : Reads decode? encode) (hpresent : ∀ a, isAbsent (encode a) = false) :
    Reads (optional? decode?) (ofOption encode) := by
  intro o
  cases o with
  | none => rfl
  | some a =>
    show optional? decode? (encode a) = some (some a)
    rw [optional?, hpresent a, h a]
    rfl

theorem Reads.list (h : Reads decode? encode) : Reads (list? decode?) (ofList encode) := by
  intro l
  show (l.map encode).mapM decode? = some l
  induction l with
  | nil => rfl
  | cons a l ih =>
    rw [List.map_cons, List.mapM_cons, h a, ih]
    rfl

theorem Reads.pair (h : Reads decode? encode) (h' : Reads decode'? encode') :
    Reads (pair? decode? decode'?) fun e ↦ arr [encode e.1, encode' e.2] := by
  intro e
  show (do return (← decode? (encode e.1), ← decode'? (encode' e.2))) = some e
  rw [h, h']
  rfl

end Reads

/-! ### Fields -/

section Fields

variable {fields : List (String × Json)} {name : String} {v : Json}

/-- An object is a record, whatever fields are asked for. -/
theorem record?_bind (names : List String) (f : Fields Json → Option α) :
    (DataTree.record? names (obj fields) >>= f) = f fun name ↦ (obj fields).field? name :=
  rfl

theorem required_field (hv : (obj fields).field? name = some v) (decode? : Json → Option α) :
    required (fun name ↦ (obj fields).field? name) name decode? = decode? v := by
  rw [required, hv]
  rfl

/-- The default is for fields that are left out. -/
theorem withDefault_field (hv : (obj fields).field? name = some v) (a : α)
    (decode? : Json → Option α) :
    withDefault (fun name ↦ (obj fields).field? name) name a decode? = decode? v := by
  rw [withDefault, hv]

end Fields

theorem whole_ofOption {f : α → Json} (h : ∀ a, (f a).Whole) (o : Option α) :
    (ofOption f o).Whole := by
  cases o with
  | none => exact .null
  | some a => exact h a

end Json

open Json

/-! ### The parts of a document -/

theorem Kind.reads_name : Reads Kind.decode? fun k ↦ .str k.name :=
  Kind.ofName?_name

theorem WalkOrder.reads_name : Reads WalkOrder.decode? fun o ↦ .str o.name :=
  WalkOrder.ofName?_name

namespace Settings

theorem reads_toJson : Reads decode? toJson := by
  intro s
  rw [toJson, decode?, record?_bind, withDefault_field rfl, withDefault_field rfl,
    reads_word.option fun _ ↦ rfl, reads_flag.option fun _ ↦ rfl]
  rfl

theorem whole_toJson (s : Settings) : s.toJson.Whole :=
  .obj (by simp [whole_ofOption, Json.nat, Whole.int, Whole.bool])

end Settings

namespace OperatorEntry

theorem reads_toJson : Reads decode? toJson := by
  intro o
  have hflag := reads_flag.option fun _ ↦ rfl
  rw [toJson, decode?, record?_bind, required_field rfl, required_field rfl, withDefault_field rfl,
    withDefault_field rfl, reads_text, Kind.reads_name, hflag, hflag]
  rfl

theorem whole_toJson (o : OperatorEntry) : o.toJson.Whole :=
  .obj (by simp [whole_ofOption, Whole.str, Whole.bool])

end OperatorEntry

namespace EdgeEntry

theorem reads_toJson : Reads decode? toJson := by
  intro e
  rw [toJson, decode?, record?_bind, required_field rfl, required_field rfl, reads_text, reads_text]
  rfl

theorem whole_toJson (e : EdgeEntry) : e.toJson.Whole :=
  .obj (by simp [Whole.str])

end EdgeEntry

namespace Action

/-- The name of the action tells which fields to look for. -/
theorem reads_toJson : Reads decode? toJson := by
  have hposition : ∀ (name : String) (n : UInt64),
      required (fun field ↦ (obj [("op", .str name), ("position", .nat n.toNat)]).field? field)
        "position" word? = some n := fun name n ↦
    (required_field rfl word?).trans (reads_word n)
  intro a
  cases a with
  | none => rfl
  | remove n =>
    show (required _ "position" word?).bind (fun n ↦ some (remove n)) = some (remove n)
    rw [hposition, Option.bind_some]
  | trimBelow n =>
    show (required _ "position" word?).bind (fun n ↦ some (trimBelow n)) = some (trimBelow n)
    rw [hposition, Option.bind_some]

theorem whole_toJson (a : Action) : a.toJson.Whole := by
  cases a <;> exact .obj (by simp [Json.nat, Whole.str, Whole.int])

end Action

namespace RuleEntry

theorem reads_edgeToJson : Reads (pair? word? word?) edgeToJson :=
  reads_word.pair reads_word

theorem whole_edgeToJson (e : UInt64 × UInt64) : (edgeToJson e).Whole :=
  .arr (by simp [Json.nat, Whole.int])

theorem reads_toJson : Reads decode? toJson := by
  intro r
  rw [toJson, decode?, record?_bind, required_field rfl, required_field rfl, withDefault_field rfl,
    withDefault_field rfl, withDefault_field rfl, withDefault_field rfl, reads_text,
    reads_text.list, reads_edgeToJson.list, reads_word.list, Action.reads_toJson,
    WalkOrder.reads_name.option fun _ ↦ rfl]
  rfl

theorem whole_toJson (r : RuleEntry) : r.toJson.Whole :=
  .obj (by
    simp [whole_ofOption, whole_ofList, whole_edgeToJson, Action.whole_toJson, Json.nat, Whole.str,
      Whole.int])

end RuleEntry

/-! ### Documents -/

namespace Document

/-- **A written document is read back.** -/
theorem reads_toJson : Reads decode? toJson := by
  intro d
  rw [toJson, decode?, record?_bind, withDefault_field rfl, withDefault_field rfl,
    required_field rfl, withDefault_field rfl, withDefault_field rfl,
    Settings.reads_toJson.option fun _ ↦ rfl, WalkOrder.reads_name.option fun _ ↦ rfl,
    OperatorEntry.reads_toJson.list, EdgeEntry.reads_toJson.list, RuleEntry.reads_toJson.list]
  rfl

theorem whole_toJson (d : Document) : d.toJson.Whole :=
  .obj (by
    simp [whole_ofOption, whole_ofList, Settings.whole_toJson, OperatorEntry.whole_toJson,
      EdgeEntry.whole_toJson, RuleEntry.whole_toJson, Whole.str])

/-- The document that a JSON text describes. -/
def ofJson? (text : String) : Option Document := do
  decode? (← Json.parse? text)

/-- **So is its text.** -/
theorem ofJson?_compact (d : Document) : ofJson? d.toJson.compact = some d := by
  rw [ofJson?, (whole_toJson d).parse?_compact, Option.bind_eq_bind, Option.bind_some,
    reads_toJson]

/-- What is answered when a document is submitted: its written form, and what is built from it. -/
def response (base : Config) (d : Document) : String × Except DocumentError BuiltDocument :=
  (d.toJson.compact, d.build base)

/-- The document that is read from the written form of a document. -/
def resubmit? (d : Document) : Option Document :=
  ofJson? d.toJson.compact

/-- **Nothing is lost in writing a document down.** Whatever document there is, as a value and as a
text, the JSON that it is written as is accepted and is read as the same document. So a document that
has been accepted, be it in YAML or in JSON, may be submitted again in its written form: the answer
is the same, with any settings to start from, and it has the same written form. -/
theorem resubmission_changes_nothing :
    (∀ d : Document, decode? d.toJson = some d ∧ d.resubmit? = some d) ∧
    ∀ (base : Config) (text : String),
      ((ofYaml? text).bind resubmit?).map (response base) = (ofYaml? text).map (response base) ∧
      ((ofJson? text).bind resubmit?).map (response base) = (ofJson? text).map (response base) := by
  have hsame : resubmit? = some := funext ofJson?_compact
  refine ⟨fun d ↦ ⟨reads_toJson d, ofJson?_compact d⟩, fun base text ↦ ?_⟩
  rw [hsame, Option.bind_fun_some, Option.bind_fun_some]
  exact ⟨rfl, rfl⟩

end Document

end Dataflow
