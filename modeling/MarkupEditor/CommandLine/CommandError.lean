import MarkupEditor.Editing.Session
import MarkupEditor.Store.Basic

set_option autoImplicit false

namespace MarkupEditor

inductive CommandError where
  | malformedPair (pair : String)
  | noElement (identifier : Nat)
  | noComponent (id : String)
  | unreadableFile (path : String) (error : FileError)
  | file (error : FileError)
  | unreadableConfig
  | missingValue
  | unknownCommand (word : String)
  | edit (error : EditError)
  | rejectedMarkup (report : String)
  | store (error : StoreError)

/-- The text of an error. The report of a markup that cannot be parsed starts on a line of its own. -/
def CommandError.message : CommandError → String
  | .malformedPair pair => "Expected KEY=VALUE, got \x60" ++ pair ++ "\x60"
  | .noElement identifier => "No element with identifier " ++ toString identifier
  | .noComponent id => "No stored component with id " ++ id
  | .unreadableFile path error => "Cannot read " ++ path ++ ": " ++ error.message
  | .file error => error.message
  | .unreadableConfig => "Invalid configuration file"
  | .missingValue => "Usage: attr <name> <value>"
  | .unknownCommand word => "Unknown command \x60" ++ word ++ "\x60 (try \x60help\x60)"
  | .edit error => error.message
  | .rejectedMarkup report => "\n" ++ report
  | .store error => error.message

end MarkupEditor
