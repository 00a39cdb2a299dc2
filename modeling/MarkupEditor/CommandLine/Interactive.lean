import MarkupEditor.CommandLine.Edits
import MarkupEditor.Json.Panel
import MarkupEditor.Json.Printer
import MarkupEditor.Store.Saver
/-!
# Interactive sessions

A stored component is edited by lines: a word and what it is about. Every committed markup is scheduled
to be saved, and at the end of the lines the last save is waited for. A line that is refused is answered
and does no harm.
-/

set_option autoImplicit false

namespace MarkupEditor

inductive LineCommand where
  | pick (marker : String)
  | text (value : String)
  | style (key : String) (value : Option String)
  | setAttribute (name value : String)
  | showMarkup
  | showPanel
  | rerender
  | help
  | quit
  | nothing
  deriving DecidableEq

namespace LineCommand

def cutAtBlank? (cs : List Char) : Option (String × String) :=
  (Text.splitFirst? Text.isBlank cs).map fun (word, rest) =>
    (String.ofList word, String.ofList (Text.trim rest))

def ofWord (word rest : String) : Except CommandError LineCommand :=
  match word with
  | "" => .ok .nothing
  | "pick" => if rest.isEmpty then .error (.unknownCommand word) else .ok (.pick rest)
  | "text" => .ok (.text rest)
  | "style" =>
    let (key, value) := (cutAtBlank? rest.toList).getD (rest, "")
    .ok (.style key (if value.isEmpty then none else some value))
  | "attr" =>
    match cutAtBlank? rest.toList with
    | some (name, value) => .ok (.setAttribute name value)
    | none => .error .missingValue
  | "show" => .ok .showMarkup
  | "panel" => .ok .showPanel
  | "rerender" => .ok .rerender
  | "help" | "?" => .ok .help
  | "quit" | "exit" => .ok .quit
  | other => .error (.unknownCommand other)

def read (line : List Char) : Except CommandError LineCommand :=
  let line := Text.trim line
  let (word, rest) := (cutAtBlank? line).getD (String.ofList line, "")
  ofWord word rest

def helpLines : List String := [
  "pick <id>            select the element with this identifier",
  "text <value>         replace the picked element's text",
  "style <key> [value]  set a style property, no value removes it",
  "attr <name> <value>  set an attribute",
  "show                 print the committed markup",
  "panel                print the edit panel of the picked element",
  "rerender             tag the committed markup again",
  "quit                 save and leave"]

end LineCommand

/-- What a line gives: the next session, the lines of output, and the markups it committed. -/
structure LineReply where
  session : Session
  output : List String
  changes : List String

namespace LineReply

def refused (s : Session) (message : String) : LineReply :=
  ⟨s, ["✗ " ++ message], []⟩

def shown (s : Session) (output : List String) : LineReply :=
  ⟨s, output, []⟩

end LineReply

namespace Session

def answerMutation (s : Session) (m : Mutation) : LineReply :=
  let reaction := s.apply m
  match reaction.answer with
  | .ok (some _) => ⟨reaction.session, ["✓ updated"], reaction.changes⟩
  | .ok none => ⟨reaction.session, ["No change (pick an element first)"], reaction.changes⟩
  | .error error => ⟨reaction.session, ["✗ " ++ error.message], reaction.changes⟩

def answerCommand (s : Session) : LineCommand → LineReply
  | .pick marker =>
    let s := s.pick marker
    if s.pickedNode?.isSome then .shown s ["✓ picked " ++ marker] else .refused s ("no element " ++ marker)
  | .text value => s.answerMutation (.setText value)
  | .style key value => s.answerMutation (.setStyle key value)
  | .setAttribute name value => s.answerMutation (.setAttribute name (.ofArgument value))
  | .showMarkup => .shown s [s.markup]
  | .showPanel =>
    match s.panel? with
    | some panel => .shown s [panel.toJson.printPretty]
    | none => .shown s ["Nothing picked"]
  | .rerender =>
    let reaction := s.rerender
    match reaction.answer with
    | .ok tagged => ⟨reaction.session, [tagged], reaction.changes⟩
    | .error error => ⟨reaction.session, ["✗ " ++ error.message], reaction.changes⟩
  | .help => .shown s LineCommand.helpLines
  | .quit | .nothing => .shown s []

def answerLine (s : Session) (line : List Char) : LineReply :=
  match LineCommand.read line with
  | .ok command => s.answerCommand command
  | .error error => .refused s error.message

end Session

def endsSession (line : List Char) : Bool :=
  match LineCommand.read line with
  | .ok .quit => true
  | _ => false

/-- An interactive session under way: the stored component it is about, its session, and its saves. -/
structure Conversation where
  id : String
  session : Session
  saver : Saver

namespace Conversation

def start {σ : Type} [ComponentStore σ] (store : σ) (id : String) (delay : Nat) :
    Except CommandError Conversation := do
  match ← (ComponentStore.read store id).mapError .store with
  | none => throw (.noComponent id)
  | some markup => return ⟨id, (← (Session.load markup).mapError .edit).listen, .ofDelay delay⟩

def greeting (c : Conversation) : String :=
  "Editing " ++ toString c.session.mapping.size ++ " elements, type \x60help\x60 for commands"

/-- Carries out a line and schedules what it committed: the next state and the lines of output. -/
def hear (c : Conversation) (line : List Char) : Conversation × List String :=
  let reply := c.session.answerLine line
  let saver := reply.changes.foldl (fun saver text => saver.schedule 0 c.id text) c.saver
  (⟨c.id, reply.session, saver⟩, reply.output)

def hearAll (c : Conversation) : List (List Char) → Conversation × List String
  | [] => (c, [])
  | line :: lines =>
    if endsSession line then (c, [])
    else
      let (next, output) := c.hear line
      let (last, rest) := next.hearAll lines
      (last, output ++ rest)

def close {σ : Type} [ComponentStore σ] (c : Conversation) (store : σ) : σ :=
  (c.saver.drain store).2

end Conversation

/-- How an interactive session went: the store after it, its lines of output, and why it could not be
opened. -/
structure Transcript (σ : Type) where
  store : σ
  output : List String
  answer : Except CommandError Unit

def runSession {σ : Type} [ComponentStore σ] (store : σ) (id : String) (delay : Nat) (input : String) :
    Transcript σ :=
  match Conversation.start store id delay with
  | .error error => ⟨store, [], .error error⟩
  | .ok conversation =>
    let (last, output) := conversation.hearAll (Text.linesOf input.toList)
    ⟨last.close store, conversation.greeting :: output, .ok ()⟩

end MarkupEditor
