import MarkupEditor.Editing.Marker
import MarkupEditor.Editing.Mutation
/-!
# Edit sessions

A session holds the markup being edited and the generation made from it: the tagged markup, the
identifiers and the tree. A mutation changes the tree and commits the code of the tree as the new
markup; identifiers stay as they are until the markup is tagged again, which starts the next
generation. The pick is an identifier and is resolved each time it is used.
-/

set_option autoImplicit false

namespace MarkupEditor

inductive EditError where
  | parse (error : ParseError)
  | mutation (error : MutationError)

def EditError.message : EditError → String
  | .parse error => "Parse error: " ++ error.message
  | .mutation error => "Mutation error: " ++ error.message

/-- One round of tagging: its number, the committed markup, the markup as it was tagged, the identifiers
and the tree that they point into. -/
structure Generation where
  number : Nat
  markup : String
  tagged : String
  mapping : IdentifierMap
  tree : Tree

def Generation.ofTagged (number : Nat) (markup : String) (tagged : Tagged) : Generation :=
  ⟨number, markup, tagged.markup, tagged.mapping, tagged.tree⟩

/-- An editing session. With `listening`, whoever opened it is told of every commit. -/
structure Session where
  generation : Generation
  picked : Option Nat
  listening : Bool

/-- What a step of a session gives: the next session, the answer, and the texts that the listener is
told. -/
structure Reaction (α : Type) where
  session : Session
  answer : Except EditError α
  changes : List String

structure StyleEntry where
  key : String
  value : String

structure Panel where
  marker : Nat
  tagName : Option String
  canEditText : Bool
  text : String
  backgroundColor : String
  color : String
  padding : String
  margin : String
  otherStyles : List StyleEntry

def defaultColor : String := "#000000"

namespace Session

def load (markup : String) : Except EditError Session :=
  match tagMarkup markup with
  | .ok tagged => .ok ⟨.ofTagged 0 markup tagged, none, false⟩
  | .error error => .error (.parse error)

def listen (s : Session) : Session :=
  { s with listening := true }

def markup (s : Session) : String :=
  s.generation.markup

def tagged (s : Session) : String :=
  s.generation.tagged

def tree (s : Session) : Tree :=
  s.generation.tree

def mapping (s : Session) : IdentifierMap :=
  s.generation.mapping

/-- Starts the next generation from a markup. The pick stays, and if the markup cannot be parsed
everything else does too. -/
def restart (s : Session) (markup : String) : Reaction Session :=
  match tagMarkup markup with
  | .ok tagged =>
    let next := { s with generation := .ofTagged (s.generation.number + 1) markup tagged }
    ⟨next, .ok next, []⟩
  | .error error => ⟨s, .error (.parse error), []⟩

def replaceText (s : Session) (markup : String) : Reaction Unit :=
  let r := s.restart markup
  ⟨r.session, r.answer.map fun _ => (), r.changes⟩

/-- Tags the committed markup again and answers it. -/
def rerender (s : Session) : Reaction String :=
  let r := s.restart s.markup
  ⟨r.session, r.answer.map Session.tagged, r.changes⟩

def pickedNode? (s : Session) : Option NodeId :=
  s.picked.bind s.mapping.get?

/-- Picks by the value of a marker. What is no identifier takes the pick away. -/
def pick (s : Session) (marker : String) : Session :=
  { s with picked := parseMarker? marker }

def clearPick (s : Session) : Session :=
  { s with picked := none }

def panel? (s : Session) : Option Panel := do
  let marker ← s.picked
  let node ← s.pickedNode?
  let t := s.tree
  let editable := t.canEditText node
  return {
    marker
    tagName := t.elementName? node
    canEditText := editable
    text := if editable then t.textOf node else ""
    backgroundColor := (t.getStyle? node "backgroundColor").getD defaultColor
    color := (t.getStyle? node "color").getD defaultColor
    padding := (t.getStyle? node "padding").getD ""
    margin := (t.getStyle? node "margin").getD ""
    otherStyles := (t.readStyle node).map fun (key, value) => ⟨key, value⟩ }

/-- Takes a tree as the edited one and its code as the committed markup. -/
def commit (s : Session) (t : Tree) : Session :=
  { s with generation := { s.generation with tree := t, markup := t.code } }

/-- Applies a mutation to the picked node and commits the new markup, which is the answer. Nothing is
answered without a pick or if the request asks for nothing. -/
def apply (s : Session) (m : Mutation) : Reaction (Option String) :=
  match s.pickedNode? with
  | none => ⟨s, .ok none, []⟩
  | some node =>
    if m.isNoop then ⟨s, .ok none, []⟩
    else
      match m.apply s.tree node with
      | .error error => ⟨s, .error (.mutation error), []⟩
      | .ok t =>
        let next := s.commit t
        ⟨next, .ok (some next.markup), if s.listening then [next.markup] else []⟩

end Session

end MarkupEditor
