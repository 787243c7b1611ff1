/-!
# Arguments of a command line

`Arguments.read` sorts arguments into options, with their values, and positional arguments. A long
option is written `--name value` or `--name=value`, a short one `-n value` or `-nvalue`, and short
options without value may share a hyphen. After `--` everything is positional.
-/

namespace AccessPatch.Command

/-- An option that a command knows. -/
structure OptionForm (α : Type) where
  option : α
  long : String
  short : Option Char := none
  takesValue : Bool := false

/-- Why arguments cannot be read. -/
inductive UsageFault where
  | unknownOption (text : String)
  | missingValue (text : String)
  | unwantedValue (text : String)
  | unexpectedArgument (text : String)
  | unknownCommand (text : String)
  | missingCommand
deriving DecidableEq, Repr

def UsageFault.message : UsageFault → String
  | unknownOption text => "No such option: " ++ text
  | missingValue text => "Option '" ++ text ++ "' requires an argument."
  | unwantedValue text => "Option '" ++ text ++ "' does not take a value."
  | unexpectedArgument text => "Got unexpected extra argument (" ++ text ++ ")"
  | unknownCommand text => "No such command '" ++ text ++ "'."
  | missingCommand => "Missing command."

/-- Options with their values, and positional arguments. An option without value has the empty
text. -/
structure Arguments (α : Type) where
  options : List (α × String) := []
  positional : List String := []
deriving Repr

namespace Arguments

variable {α : Type}

/-- The last value given for an option. -/
def value? [BEq α] (a : Arguments α) (option : α) : Option String :=
  a.options.reverse.lookup option

def has [BEq α] (a : Arguments α) (option : α) : Bool :=
  (a.value? option).isSome

/-- What one argument that begins with a hyphen gives: options, and perhaps one whose value comes
next. -/
structure Reading (α : Type) where
  options : List (α × String) := []
  wantsValue : Option α := none

/-- Reads options that share a hyphen. The first that takes a value takes all that follows it. -/
def readShort (forms : List (OptionForm α)) : List Char → Except UsageFault (Reading α)
  | [] => .ok {}
  | c :: rest =>
    match forms.find? fun form => form.short == some c with
    | none => .error (.unknownOption ("-" ++ c.toString))
    | some form =>
      if form.takesValue then
        if rest = [] then .ok { wantsValue := some form.option }
        else .ok { options := [(form.option, String.ofList rest)] }
      else do
        let reading ← readShort forms rest
        return { reading with options := (form.option, "") :: reading.options }

/-- A long option cut at its first equals sign. -/
def splitLong (cs : List Char) : String × Option String :=
  match cs.span (· ≠ '=') with
  | (name, _ :: value) => (String.ofList name, some (String.ofList value))
  | (name, []) => (String.ofList name, none)

/-- Reads an argument that begins with a hyphen. -/
def readOption (forms : List (OptionForm α)) (arg : String) : Except UsageFault (Reading α) :=
  let (name, value) := splitLong arg.toList
  match forms.find? fun form => form.long == name with
  | some form =>
    match form.takesValue, value with
    | true, some value => .ok { options := [(form.option, value)] }
    | true, none => .ok { wantsValue := some form.option }
    | false, some _ => .error (.unwantedValue name)
    | false, none => .ok { options := [(form.option, "")] }
  | none =>
    match arg.toList with
    | '-' :: '-' :: _ => .error (.unknownOption name)
    | _ :: rest => readShort forms rest
    | [] => .error (.unknownOption arg)

/-- Whether an argument is an option: a hyphen with something after it. -/
def isOption (arg : String) : Bool :=
  match arg.toList with
  | '-' :: _ :: _ => true
  | _ => false

def addOptions (options : List (α × String)) (a : Arguments α) : Arguments α :=
  { a with options := options ++ a.options }

/-- Sorts arguments. Unless `mixed` is set, options end at the first positional argument. -/
def read (forms : List (OptionForm α)) (mixed : Bool) :
    List String → Except UsageFault (Arguments α)
  | [] => .ok {}
  | arg :: rest =>
    if arg = "--" then .ok { positional := rest }
    else if isOption arg then
      match readOption forms arg with
      | .error fault => .error fault
      | .ok { options, wantsValue := none } => (read forms mixed rest).map (addOptions options)
      | .ok { options, wantsValue := some option } =>
        match rest with
        | [] => .error (.missingValue arg)
        | value :: rest => (read forms mixed rest).map (addOptions (options ++ [(option, value)]))
    else if mixed then
      (read forms mixed rest).map fun a => { a with positional := arg :: a.positional }
    else .ok { positional := arg :: rest }

end Arguments

end AccessPatch.Command
