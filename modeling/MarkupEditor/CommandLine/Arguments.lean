import MarkupEditor.Text.Unsigned

set_option autoImplicit false

namespace MarkupEditor

inductive UsageError where
  | missingValue
  | invalidValue
  | repeatedOption
  | unexpectedValue
  | unknownArgument
  | missingArgument
  | conflictingArguments
  | helpRequested
  | versionRequested
  deriving DecidableEq

def UsageError.message : UsageError → String
  | .missingValue => "a value is required"
  | .invalidValue => "invalid value"
  | .repeatedOption => "an option cannot be used more than once"
  | .unexpectedValue => "unexpected value"
  | .unknownArgument => "unexpected argument"
  | .missingArgument => "a required argument is missing"
  | .conflictingArguments => "arguments cannot be used together"
  | .helpRequested => "help"
  | .versionRequested => "version"

/-- What an option is for. A value is checked; without `repeatable` an option is given once. -/
inductive OptionRole where
  | flag
  | value (repeatable : Bool) (check : String → Option UsageError)
  | help
  | version

structure OptionRule where
  name : String
  letter : Option Char
  role : OptionRole

structure Grammar where
  options : List OptionRule
  operands : Nat

structure Arguments where
  options : List (String × String)
  operands : List String

namespace Arguments

def values (arguments : Arguments) (name : String) : List String :=
  (arguments.options.filter (·.1 = name)).map (·.2)

def value? (arguments : Arguments) (name : String) : Option String :=
  (arguments.values name).head?

def isGiven (arguments : Arguments) (name : String) : Bool :=
  arguments.options.any (·.1 = name)

def addOption (arguments : Arguments) (name value : String) : Arguments :=
  { arguments with options := arguments.options ++ [(name, value)] }

def addOperand (arguments : Arguments) (operand : String) : Arguments :=
  { arguments with operands := arguments.operands ++ [operand] }

end Arguments

/-- Arguments being read: what is understood, the option whose value is still to be looked at, with
the value once it is there, and whether only operands follow. -/
structure ArgumentReader where
  given : Arguments
  waiting : Option (OptionRule × Option String)
  onlyOperands : Bool

namespace ArgumentReader

def start : ArgumentReader :=
  ⟨⟨[], []⟩, none, false⟩

def accept (given : Arguments) (rule : OptionRule) (value : String) : Except UsageError Arguments :=
  match rule.role with
  | .help => .error .helpRequested
  | .version => .error .versionRequested
  | .flag => if given.isGiven rule.name then .error .repeatedOption else .ok (given.addOption rule.name "")
  | .value repeatable check =>
    if given.isGiven rule.name && !repeatable then .error .repeatedOption
    else
      match check value with
      | some error => .error error
      | none => .ok (given.addOption rule.name value)

def settle (r : ArgumentReader) : Except UsageError ArgumentReader :=
  match r.waiting with
  | none => .ok r
  | some (_, none) => .error .missingValue
  | some (rule, some value) => (accept r.given rule value).map fun given => { r with given, waiting := none }

def take (r : ArgumentReader) (rule : OptionRule) (value : String) : Except UsageError ArgumentReader := do
  let r ← r.settle
  return { r with given := ← accept r.given rule value }

def await (r : ArgumentReader) (rule : OptionRule) : Except UsageError ArgumentReader := do
  let r ← r.settle
  return { r with waiting := some (rule, none) }

def readName (g : Grammar) (r : ArgumentReader) (name : List Char) (attached : Option (List Char)) :
    Except UsageError ArgumentReader :=
  match g.options.find? (·.name = String.ofList name) with
  | none => .error .unknownArgument
  | some rule =>
    match rule.role, attached with
    | .value _ _, some value => r.take rule (String.ofList value)
    | .value _ _, none => r.await rule
    | _, some _ => .error .unexpectedValue
    | _, none => r.take rule ""

def readLetters (g : Grammar) (r : ArgumentReader) : List Char → Except UsageError ArgumentReader
  | [] => .ok r
  | c :: cs =>
    match g.options.find? (·.letter = some c) with
    | none => .error .unknownArgument
    | some rule =>
      match rule.role, cs with
      | .value _ _, [] => r.await rule
      | .value _ _, '=' :: value => r.take rule (String.ofList value)
      | .value _ _, value => r.take rule (String.ofList value)
      | _, cs => do readLetters g (← r.take rule "") cs

def readOperand (g : Grammar) (r : ArgumentReader) (argument : String) : Except UsageError ArgumentReader :=
  if r.given.operands.length < g.operands then do
    let r ← r.settle
    return { r with given := r.given.addOperand argument }
  else .error .unknownArgument

def read (g : Grammar) (r : ArgumentReader) (argument : String) : Except UsageError ArgumentReader :=
  if r.onlyOperands then r.readOperand g argument
  else
    match argument.toList with
    | ['-', '-'] => .ok { r with onlyOperands := true }
    | '-' :: '-' :: name =>
      r.readName g (name.takeWhile (· != '='))
        (if '=' ∈ name then some ((name.dropWhile (· != '=')).drop 1) else none)
    | '-' :: c :: letters => r.readLetters g (c :: letters)
    | _ =>
      match r.waiting with
      | some (rule, none) => .ok { r with waiting := some (rule, some argument) }
      | _ => r.readOperand g argument

end ArgumentReader

def Grammar.read (g : Grammar) (arguments : List String) : Except UsageError Arguments := do
  let r ← arguments.foldlM (fun r argument => r.read g argument) ArgumentReader.start
  return (← r.settle).given

def helpOption : OptionRule := ⟨"help", some 'h', .help⟩

def versionOption : OptionRule := ⟨"version", some 'V', .version⟩

def anyValue (_ : String) : Option UsageError := none

end MarkupEditor
