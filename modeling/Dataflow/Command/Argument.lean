/-!
# Arguments of a command line

An argument is an option or it is not. Options have a long name after two dashes, and may have a
letter after one dash. An option with a value takes it after an equals sign, right behind the
letter, or from the next argument, as long as that does not look like an option itself; a dash alone
does not. Nothing may stand between the options, and after two dashes alone nothing may follow.

`Argument.readAll` gathers the options of a command together with their values. Its answer does not
depend on which of the spellings was used.
-/

namespace Dataflow

/-- What is wrong with a command line. -/
inductive UsageError
  | noCommand
  | unknownCommand (name : String)
  /-- The argument belongs nowhere. -/
  | unexpected (argument : String)
  | unknownOption (name : String)
  | missingValue (option : String)
  /-- A value is given to an option that has none. -/
  | superfluousValue (option : String)
  | repeated (option : String)
  | missingOption (option : String)
  | badValue (option value : String)
  deriving DecidableEq, Repr

/-- The wording of an error. -/
def UsageError.message : UsageError → String
  | noCommand => "a command is required"
  | unknownCommand name => s!"unknown command '{name}'"
  | unexpected argument => s!"unexpected argument '{argument}'"
  | unknownOption name => s!"unknown option '{name}'"
  | missingValue option => s!"option '--{option}' needs a value"
  | superfluousValue option => s!"option '--{option}' takes no value"
  | repeated option => s!"option '--{option}' is given twice"
  | missingOption option => s!"option '--{option}' is required"
  | badValue option value => s!"option '--{option}' cannot be '{value}'"

/-- An option that a command has. -/
structure OptionSpec where
  name : String
  /-- The letter that stands for the name, if any. -/
  letter? : Option Char
  takesValue : Bool
  deriving DecidableEq, Repr

/-- An argument by its looks. -/
inductive Argument
  /-- Two dashes and a name, with what follows an equals sign. -/
  | long (name : String) (value? : Option String)
  /-- A dash and a letter, with what follows them. -/
  | short (letter : Char) (rest : String)
  /-- Two dashes alone. -/
  | terminator
  | plain (text : String)
  deriving DecidableEq, Repr

/-- The options that were given, by name. Those without a value have an empty one. -/
abbrev GivenOptions :=
  List (String × String)

namespace Argument

/-- The argument that a text is. -/
def ofText (s : String) : Argument :=
  match s.toList with
  | ['-', '-'] => .terminator
  | '-' :: '-' :: cs =>
    let name := String.ofList (cs.takeWhile (· ≠ '='))
    match cs.dropWhile (· ≠ '=') with
    | [] => .long name none
    | _ :: value => .long name (some (String.ofList value))
  | '-' :: c :: cs => .short c (String.ofList cs)
  | _ => .plain s

/-- An option, its value if that is part of the same argument, and whether one may follow. -/
def option (specs : List OptionSpec) :
    Argument → Except UsageError (OptionSpec × Option String)
  | .terminator => .error (.unexpected "--")
  | .plain text => .error (.unexpected text)
  | .long name value? =>
    match specs.find? (·.name == name) with
    | some spec =>
      if value?.isSome && !spec.takesValue then .error (.superfluousValue name)
      else .ok (spec, value?)
    | none => .error (.unknownOption s!"--{name}")
  | .short letter rest =>
    match specs.find? (·.letter? == some letter) with
    | some spec =>
      match rest.toList with
      | [] => .ok (spec, none)
      | '=' :: value => .ok (spec, some (String.ofList value))
      | _ => .ok (spec, some rest)
    | none => .error (.unknownOption s!"-{letter}")

/-- Notes an option that was not given before. -/
def give (spec : OptionSpec) (value : String) (given : GivenOptions) :
    Except UsageError GivenOptions :=
  if (given.lookup spec.name).isSome then .error (.repeated spec.name)
  else .ok (given ++ [(spec.name, value)])

/-- The options that a list of arguments gives, after those given already. -/
def readAll (specs : List OptionSpec) :
    List String → GivenOptions → Except UsageError GivenOptions
  | [], given => .ok given
  | text :: rest, given =>
    if text = "--" && rest.isEmpty then .ok given
    else do
      let (spec, value?) ← (ofText text).option specs
      if spec.takesValue then
        match value? with
        | some value => readAll specs rest (← give spec value given)
        | none =>
          match rest with
          | [] => .error (.missingValue spec.name)
          | next :: rest =>
            match ofText next with
            | .plain value => readAll specs rest (← give spec value given)
            | _ => .error (.missingValue spec.name)
      else readAll specs rest (← give spec "" given)

end Argument

end Dataflow
