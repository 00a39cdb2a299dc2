import MarkupEditor.CommandLine.CommandError
import MarkupEditor.Text.Split
/-!
# Edits given as arguments

Styles and attributes are given as pairs, a key and a value with an equals sign between them, and are
carried out in the order text, styles, attributes. Every pair is checked before the markup is looked at.
-/

set_option autoImplicit false

namespace MarkupEditor

/-- The literal that an argument stands for: the three words and every finite number for themselves,
anything else as a string. -/
def Literal.ofArgument (argument : String) : Literal :=
  if argument = "true" then .boolean true
  else if argument = "false" then .boolean false
  else if argument = "null" then .null
  else
    match Decimal.read argument.toList with
    | some x => if x.isFinite then .number x else .string argument
    | none => .string argument

structure Edits where
  text : Option String
  styles : List String
  attributes : List String

namespace Edits

def pair (argument : String) : Except CommandError (String × String) :=
  match Text.splitFirst? (· == '=') argument.toList with
  | some (key, value) => .ok (String.ofList (Text.trim key), String.ofList value)
  | none => .error (.malformedPair argument)

/-- A style; an empty value removes it. -/
def style (argument : String) : Except CommandError Mutation :=
  (pair argument).map fun (key, value) => .setStyle key (if value.isEmpty then none else some value)

def setAttribute (argument : String) : Except CommandError Mutation :=
  (pair argument).map fun (name, value) => .setAttribute name (.ofArgument value)

def mutations (edits : Edits) : Except CommandError (List Mutation) := do
  let texts := edits.text.toList.map Mutation.setText
  let styles ← edits.styles.mapM style
  let attributes ← edits.attributes.mapM setAttribute
  return texts ++ styles ++ attributes

end Edits

def Session.pickIdentifier (s : Session) (identifier : Nat) : Session :=
  s.pick (toString identifier)

/-- Applies mutations one after the other, up to the first that is refused. -/
def Session.applyAll (s : Session) : List Mutation → Except EditError Session
  | [] => .ok s
  | m :: ms =>
    let reaction := s.apply m
    match reaction.answer with
    | .ok _ => reaction.session.applyAll ms
    | .error error => .error error

def editMarkup (markup : String) (identifier : Nat) (mutations : List Mutation) :
    Except CommandError String := do
  let s ← (Session.load markup).mapError .edit
  let s := s.pickIdentifier identifier
  if s.pickedNode?.isNone then throw (.noElement identifier)
  let s ← (s.applyAll mutations).mapError .edit
  return s.markup

def panelOf (markup : String) (identifier : Nat) : Except EditError (Option Panel) := do
  let s ← Session.load markup
  return (s.pickIdentifier identifier).panel?

def Tagged.elements (t : Tagged) : List (Nat × String) :=
  t.mapping.entries.map fun (identifier, node) => (identifier, (t.tree.elementName? node).getD "")

end MarkupEditor
