import MarkupEditor.CommandLine.Program
import MarkupEditor.Store.Identifier

set_option autoImplicit false

namespace MarkupEditor.Terminal

/-- What stands at a path. Nothing stands at one that cannot lead anywhere. -/
def entryAt (path : String) : IO (Option Entry) := do
  try
    return some (.file (← IO.FS.readFile path))
  catch
    | .inappropriateType _ 21 _ => return some .folder
    | .inappropriateType .. | .noFileOrDirectory .. | .invalidArgument .. => return none
    | error => throw error

def addPath (directory : Directory) (path : String) : IO Directory := do
  let names := Path.names path
  let mut seen := directory
  for size in List.range names.length do
    let way := names.take (size + 1)
    match ← entryAt ("/".intercalate way) with
    | some entry =>
      if let .ok place := seen.locate ("/".intercalate way) then
        if place ≠ [] then seen := seen.insert place entry
    | none => pure ()
  return seen

def pathsOf (cwd : String) : Command → List String
  | .tag file _ _ | .inspect file _ | .edit file _ _ _ => [Path.join cwd file]
  | .session (.stored _) _ => [Path.join cwd Config.fileName]
  | .session (.fromFile file) _ => [Path.join cwd Config.fileName, Path.join cwd file]

def directoryFor (cwd : String) (command : Command) : IO Directory := do
  let directory ← (pathsOf cwd command).foldlM addPath .empty
  match command, Program.loadConfig directory cwd with
  | .session _ other, .ok config =>
    let store : FileStore := ⟨config.storePath cwd other, directory⟩
    [store.path, store.draftPath].foldlM addPath directory
  | _, _ => return directory

/-- Writes what differs between two directories. A file takes its name when all of it is written. -/
def writeBack (before after : Directory) : IO Unit := do
  for (place, _) in before.entries do
    if (after.get? place).isNone then IO.FS.removeFile ("/" ++ "/".intercalate place)
  for (place, entry) in after.entries.reverse do
    if before.get? place ≠ some entry then
      let path := "/" ++ "/".intercalate place
      match entry with
      | .folder => IO.FS.createDirAll path
      | .file text =>
        IO.FS.writeFile (path ++ ".tmp") text
        IO.FS.rename (path ++ ".tmp") path

/-- Shows an outcome and writes what it changed. -/
def finish (before : Directory) (outcome : Outcome) : IO UInt32 := do
  writeBack before outcome.directory
  IO.print outcome.output
  IO.eprint outcome.errors
  return outcome.exitCode.toUInt32

partial def converse (input : IO.FS.Stream) (conversation : Conversation) : IO Conversation := do
  let line ← input.getLine
  let text := (Text.linesOf line.toList).headD []
  if line.isEmpty || endsSession text then return conversation
  let (next, output) := conversation.hear text
  IO.print (Program.printLines output)
  (← IO.getStdout).flush
  converse input next

def interact (prepared : Program.Prepared) : IO UInt32 := do
  let before := prepared.store.directory
  IO.print prepared.printed
  match Conversation.start prepared.store prepared.id prepared.delay with
  | .error error => finish before (.failure before "" error)
  | .ok conversation =>
    IO.println conversation.greeting
    let last ← converse (← IO.getStdin) conversation
    finish before (.success (last.close prepared.store).directory "")

end MarkupEditor.Terminal

open MarkupEditor Terminal in
def main (arguments : List String) : IO UInt32 := do
  let cwd := (← IO.currentDir).toString
  let bits := (← IO.getRandomBytes 16).toList.foldl (fun n byte => 256 * n + byte.toNat) 0
  let newId := identifierOfBits bits
  match Command.read arguments with
  | .error error => finish .empty (Program.usage .empty error)
  | .ok command =>
    let directory ← directoryFor cwd command
    match command with
    | .session target other =>
      match Program.prepare directory cwd target other newId with
      | .error outcome => finish directory outcome
      | .ok prepared =>
        writeBack directory prepared.store.directory
        interact prepared
    | command => finish directory (command.run directory cwd "" newId)
