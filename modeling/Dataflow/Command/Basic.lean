import Dataflow.Command.Argument
import Dataflow.Optimizer.Config
import Dataflow.Walk.Choice

/-!
# Commands

There are three things to do with a plan document: say whether it is valid, show the plan, and
rewrite it. `Command.ofArguments` reads which of them a command line asks for.
-/

namespace Dataflow

/-- What is to be done with a document. -/
inductive Job
  /-- Say whether the document describes a plan without a cycle. -/
  | validate
  /-- Show the plan in the order of a walker, that of the document if none is named. -/
  | explain (walker? : Option WalkOrder) (json : Bool)
  /-- Rewrite the plan until it no longer changes. Recording can be switched on, not off. -/
  | optimize (maxPasses? : Option UInt64) (trace : Bool)
  deriving DecidableEq, Repr

/-- What a command line asks for. -/
structure Command where
  /-- The file with the document. -/
  path : String
  job : Job
  deriving DecidableEq, Repr

namespace Command

/-- The option for the file, which every command has. -/
def planOption : OptionSpec :=
  ⟨"plan", some 'p', true⟩

/-- The option for a walker. -/
def walkerOption : OptionSpec :=
  ⟨"walker", none, true⟩

/-- The option for output as JSON. -/
def jsonOption : OptionSpec :=
  ⟨"json", none, false⟩

/-- The option for the number of passes. -/
def maxPassesOption : OptionSpec :=
  ⟨"max-passes", none, true⟩

/-- The option for recording. -/
def traceOption : OptionSpec :=
  ⟨"trace", none, false⟩

/-- The value of an option that has to be given. -/
def required (o : OptionSpec) (given : GivenOptions) : Except UsageError String :=
  match given.lookup o.name with
  | some value => .ok value
  | none => .error (.missingOption o.name)

/-- The value of an option that may be left out. -/
def valueOf? {α : Type} (o : OptionSpec) (read? : String → Option α) (given : GivenOptions) :
    Except UsageError (Option α) :=
  match given.lookup o.name with
  | none => .ok none
  | some value =>
    match read? value with
    | some a => .ok (some a)
    | none => .error (.badValue o.name value)

/-- Whether an option without a value is given. -/
def isGiven (o : OptionSpec) (given : GivenOptions) : Bool :=
  (given.lookup o.name).isSome

/-- The file to read. Its name cannot be empty. -/
def pathOf (given : GivenOptions) : Except UsageError String := do
  let path ← required planOption given
  if path.isEmpty then .error (.badValue planOption.name path) else .ok path

/-- What a list of arguments asks for. -/
def ofArguments : List String → Except UsageError Command
  | [] => .error .noCommand
  | "validate" :: rest => do
    let given ← Argument.readAll [planOption] rest []
    return ⟨← pathOf given, .validate⟩
  | "explain" :: rest => do
    let given ← Argument.readAll [planOption, walkerOption, jsonOption] rest []
    let walker? ← valueOf? walkerOption WalkOrder.parse? given
    return ⟨← pathOf given, .explain walker? (isGiven jsonOption given)⟩
  | "optimize" :: rest => do
    let given ← Argument.readAll [planOption, maxPassesOption, traceOption] rest []
    let maxPasses? ← valueOf? maxPassesOption word64OfText? given
    return ⟨← pathOf given, .optimize maxPasses? (isGiven traceOption given)⟩
  | name :: _ => .error (.unknownCommand name)

end Command

end Dataflow
