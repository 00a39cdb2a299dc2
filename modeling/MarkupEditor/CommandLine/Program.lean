import MarkupEditor.CommandLine.Arguments
import MarkupEditor.CommandLine.Config
import MarkupEditor.CommandLine.Interactive
import MarkupEditor.Markup.Report

set_option autoImplicit false

namespace MarkupEditor

inductive SessionTarget where
  | stored (id : String)
  | fromFile (file : String)
  deriving DecidableEq

inductive Command where
  | tag (file : String) (strip mapping : Bool)
  | inspect (file : String) (identifier : Option Nat)
  | edit (file : String) (identifier : Nat) (edits : Edits) (inPlace : Bool)
  | session (target : SessionTarget) (store : Option String)

namespace Command

/-- An identifier of 32 bits, with a sign if it likes; no number below zero is one. -/
def identifier? (argument : String) : Option Nat :=
  let digits? (cs : List Char) : Option Nat :=
    if cs.isEmpty then none else (Text.readDigits 10 0 cs).filter (· < UInt32.size)
  match argument.toList with
  | '-' :: cs => (digits? cs).filter (· = 0)
  | '+' :: cs => digits? cs
  | cs => digits? cs

def identifierOption : OptionRule :=
  ⟨"id", none, .value false fun value => if (identifier? value).isNone then some .invalidValue else none⟩

def textOption (name : String) (repeatable : Bool) : OptionRule :=
  ⟨name, none, .value repeatable anyValue⟩

def tagGrammar : Grammar :=
  ⟨[⟨"strip", none, .flag⟩, ⟨"mapping", none, .flag⟩, helpOption], 1⟩

def inspectGrammar : Grammar :=
  ⟨[identifierOption, helpOption], 1⟩

def editGrammar : Grammar :=
  ⟨[identifierOption, textOption "text" false, textOption "style" true, textOption "attr" true,
    ⟨"in-place", some 'i', .flag⟩, helpOption], 1⟩

def sessionGrammar : Grammar :=
  ⟨[textOption "from" false, textOption "store" false, helpOption], 1⟩

def outerGrammar : Grammar :=
  ⟨[helpOption, versionOption], 0⟩

def file (arguments : Arguments) : Except UsageError String :=
  match arguments.operands with
  | file :: _ => .ok file
  | [] => .error .missingArgument

def givenIdentifier? (arguments : Arguments) : Option Nat :=
  (arguments.value? "id").bind identifier?

def readTag (arguments : List String) : Except UsageError Command := do
  let given ← tagGrammar.read arguments
  return .tag (← file given) (given.isGiven "strip") (given.isGiven "mapping")

def readInspect (arguments : List String) : Except UsageError Command := do
  let given ← inspectGrammar.read arguments
  return .inspect (← file given) (givenIdentifier? given)

def readEdit (arguments : List String) : Except UsageError Command := do
  let given ← editGrammar.read arguments
  let file ← file given
  match givenIdentifier? given with
  | none => .error .missingArgument
  | some identifier =>
    let edits := ⟨given.value? "text", given.values "style", given.values "attr"⟩
    return .edit file identifier edits (given.isGiven "in-place")

def readSession (arguments : List String) : Except UsageError Command := do
  let given ← sessionGrammar.read arguments
  let store := given.value? "store"
  match given.operands, given.value? "from" with
  | [], none => .error .missingArgument
  | id :: _, none => return .session (.stored id) store
  | [], some file => return .session (.fromFile file) store
  | _ :: _, some _ => .error .conflictingArguments

def readers : List (String × (List String → Except UsageError Command)) :=
  [("tag", readTag), ("inspect", readInspect), ("edit", readEdit), ("session", readSession)]

def hasHelp (arguments : List String) : Bool :=
  match arguments with
  | [] => true
  | [name] => name = "help" || readers.any (·.1 = name)
  | _ => false

def read : List String → Except UsageError Command
  | [] => .error .missingArgument
  | argument :: arguments =>
    if argument = "help" then .error (if hasHelp arguments then .helpRequested else .unknownArgument)
    else
      match readers.find? (·.1 = argument) with
      | some (_, reader) => reader arguments
      | none => do
        let _ ← ArgumentReader.start.read outerGrammar argument
        .error .missingArgument

end Command

structure Outcome where
  exitCode : Nat
  output : String
  errors : String
  directory : Directory

namespace Outcome

def success (directory : Directory) (output : String) : Outcome :=
  ⟨0, output, "", directory⟩

def failure (directory : Directory) (output : String) (error : CommandError) : Outcome :=
  ⟨1, output, "\nError: " ++ error.message ++ "\n\n", directory⟩

def ofPrinted (directory : Directory) : Except CommandError String → Outcome
  | .ok output => success directory output
  | .error error => failure directory "" error

end Outcome

namespace Program

def versionLine : String := "jsxed 0.1.0\n"

def helpText : String := String.join [
  "Edit markup by picking rendered elements\n\n",
  "  tag FILE [--strip] [--mapping]\n",
  "  inspect FILE [--id ID]\n",
  "  edit FILE --id ID [--text TEXT] [--style KEY=VALUE] [--attr NAME=VALUE] [-i]\n",
  "  session ID | --from FILE [--store STORE]\n"]

def usage (directory : Directory) : UsageError → Outcome
  | .helpRequested => .success directory helpText
  | .versionRequested => .success directory versionLine
  | error => ⟨2, "", "error: " ++ error.message ++ "\n", directory⟩

def readMarkup (directory : Directory) (cwd file : String) : Except CommandError (String × String) :=
  let path := Path.join cwd file
  match directory.readText path with
  | .ok text => .ok (path, text)
  | .error error => .error (.unreadableFile path error)

def rejected (path markup : String) (error : ParseError) : CommandError :=
  .rejectedMarkup (error.report markup.toList ((Path.fileName? path).getD "unknown"))

def rejectedEdit (path markup : String) : CommandError → CommandError
  | .edit (.parse error) => rejected path markup error
  | error => error

def elementsJson (elements : List (Nat × String)) : Json :=
  .array (elements.map fun (identifier, name) =>
    .object [("id", .number (.natural identifier)), ("name", .string name)])

def elementsList (elements : List (Nat × String)) : String :=
  "Elements\n" ++ String.join (elements.map fun (identifier, name) =>
    "  " ++ toString identifier ++ " <" ++ name ++ ">\n")

def tag (directory : Directory) (cwd file : String) (strip mapping : Bool) : Outcome :=
  match readMarkup directory cwd file with
  | .error error => .failure directory "" error
  | .ok (path, markup) =>
    if strip then
      .ofPrinted directory (((stripMarkers markup).mapError (rejected path markup)).map (· ++ "\n"))
    else
      match tagMarkup markup with
      | .error error => .failure directory "" (rejected path markup error)
      | .ok tagged =>
        if mapping then .success directory ((elementsJson tagged.elements).printPretty ++ "\n")
        else
          ⟨0, tagged.markup ++ "\n", "✓ Tagged " ++ toString tagged.mapping.size ++ " elements\n",
            directory⟩

def inspect (directory : Directory) (cwd file : String) (identifier : Option Nat) : Outcome :=
  .ofPrinted directory do
    let (path, markup) ← readMarkup directory cwd file
    match identifier with
    | none =>
      let tagged ← (tagMarkup markup).mapError (rejected path markup)
      return elementsList tagged.elements
    | some identifier =>
      match ← (panelOf markup identifier).mapError (rejectedEdit path markup ∘ .edit) with
      | some panel => return panel.toJson.printPretty ++ "\n"
      | none => throw (.noElement identifier)

def edited (directory : Directory) (cwd file : String) (identifier : Nat) (edits : Edits) :
    Except CommandError (String × String) := do
  let (path, markup) ← readMarkup directory cwd file
  let mutations ← edits.mutations
  let markup ← (editMarkup markup identifier mutations).mapError (rejectedEdit path markup)
  return (path, markup)

def edit (directory : Directory) (cwd file : String) (identifier : Nat) (edits : Edits)
    (inPlace : Bool) : Outcome :=
  match edited directory cwd file identifier edits with
  | .error error => .failure directory "" error
  | .ok (path, markup) =>
    if inPlace then
      match directory.writeText path markup with
      | .ok directory => .success directory ("✓ Updated " ++ path ++ "\n")
      | .error error => .failure directory "" (.file error)
    else .success directory (markup ++ "\n")

def loadConfig (directory : Directory) (cwd : String) : Except CommandError Config :=
  let path := Path.join cwd Config.fileName
  if directory.contains path then do
    let text ← (directory.readText path).mapError .file
    match Config.read? text with
    | some config => return config
    | none => throw .unreadableConfig
  else return .standard

def printLines (lines : List String) : String :=
  String.join (lines.map (· ++ "\n"))

/-- A session about to start: the store, the component and the quiet period, and what was printed while
it was prepared. -/
structure Prepared where
  store : FileStore
  id : String
  delay : Nat
  printed : String

/-- Prepares a session: reads the settings, and stores a component that comes from a file. -/
def prepare (directory : Directory) (cwd : String) (target : SessionTarget) (other : Option String)
    (newId : String) : Except Outcome Prepared := do
  let config ← (loadConfig directory cwd).mapError (.failure directory "")
  let store : FileStore := ⟨config.storePath cwd other, directory⟩
  match target with
  | .stored id => return ⟨store, id, config.delay, ""⟩
  | .fromFile file =>
    let (_, markup) ← (readMarkup directory cwd file).mapError (.failure directory "")
    let reply := store.create newId markup
    match reply.answer with
    | .error error => throw (.failure reply.store.directory "" (.store error))
    | .ok _ => return ⟨reply.store, newId, config.delay, "✓ Stored component " ++ newId ++ "\n"⟩

def converse (prepared : Prepared) (input : String) : Outcome :=
  let transcript := runSession prepared.store prepared.id prepared.delay input
  let output := prepared.printed ++ printLines transcript.output
  match transcript.answer with
  | .ok _ => .success transcript.store.directory output
  | .error error => .failure transcript.store.directory output error

def session (directory : Directory) (cwd : String) (target : SessionTarget) (other : Option String)
    (input newId : String) : Outcome :=
  match prepare directory cwd target other newId with
  | .error outcome => outcome
  | .ok prepared => converse prepared input

end Program

/-- Carries out a command in a working directory. A component that is made gets the given identifier. -/
def Command.run (command : Command) (directory : Directory) (cwd input newId : String) : Outcome :=
  match command with
  | .tag file strip mapping => Program.tag directory cwd file strip mapping
  | .inspect file identifier => Program.inspect directory cwd file identifier
  | .edit file identifier edits inPlace => Program.edit directory cwd file identifier edits inPlace
  | .session target store => Program.session directory cwd target store input newId

def runProgram (arguments : List String) (directory : Directory) (cwd input newId : String) : Outcome :=
  match Command.read arguments with
  | .ok command => command.run directory cwd input newId
  | .error error => Program.usage directory error

end MarkupEditor
