import MarkupEditor.Proofs.Printer.Legible
import MarkupEditor.Proofs.Printer.Spellings
/-!
# Nodes with their spelling

What the printer writes for a node gets its spelling as from a source: a text or a literal keeps what is
written for it, a literal that is no string stands in braces as the value of an attribute, and an empty
text is nothing. This is what a legible node is read as, and it is printed as the node is.
-/

set_option autoImplicit false

namespace MarkupEditor

open Text Lexer MarkupEditor.Parser

/-- How a node is read again: by itself, and as the value of an attribute. -/
structure Respelled where
  text : Shape
  value : Shape

/-- A number as it is read where the printer wrote it. What is not finite is read as a name. -/
def Binary64.respelled (value : Binary64) : NodeKind Shape :=
  if value.isFinite then
    .literal (.number ((numberValue? (Shortest.print value)).getD value))
      (some (String.ofList (Shortest.print value)))
  else .identifier (String.ofList (Shortest.print value))

def Literal.respelled (value : Literal) (raw : Option String) : NodeKind Shape :=
  match value, raw with
  | .number x, none => x.respelled
  | value, raw => .literal value (some (String.ofList (value.spelling raw)))

def PropertyKey.respelled : PropertyKey Respelled → PropertyKey Shape
  | .identifier name => .identifier name
  | .literal value raw => .literal value (some (String.ofList (value.spelling raw)))
  | .computed expression => .computed expression.text

/-- Children as they are read again. Of an empty text nothing is left. -/
def Respelled.kept (children : List Respelled) : List Shape :=
  (children.map (·.text)).filter fun child => !child.print.isEmpty

namespace NodeKind

def respelledText : NodeKind Respelled → NodeKind Shape
  | .element name attributes children closed =>
    .element name (attributes.map (·.text)) (Respelled.kept children) (closed && children.isEmpty)
  | .fragment children => .fragment (Respelled.kept children)
  | .text value raw => .text value (some (raw.getD (String.ofList (escapeText value.toList))))
  | .namedAttribute name value => .namedAttribute name (value.map (·.value))
  | .literal value raw => value.respelled raw
  | .property key value shorthand => .property key.respelled value.text shorthand
  | kind => kind.map (·.text)

def respelledValue : NodeKind Respelled → NodeKind Shape
  | .literal (.string content) raw =>
    .literal (.string content) (some (String.ofList ((Literal.string content).attributeSpelling raw)))
  | .literal value raw => .expressionContainer (some (.node none (value.respelled raw)))
  | kind => kind.respelledText

end NodeKind

namespace Shape

def respelled : Shape → Respelled :=
  fold ⟨.missing, .missing⟩ fun span kind => ⟨.node span kind.respelledText, .node span kind.respelledValue⟩

theorem respelled_node (span : Option Span) (kind : NodeKind Shape) :
    (node span kind).respelled =
      ⟨.node span (kind.map respelled).respelledText, .node span (kind.map respelled).respelledValue⟩ :=
  fold_node _ _ span kind

end Shape

theorem Literal.spelling_some (value : Literal) (text : List Char) :
    value.spelling (some (String.ofList text)) = text :=
  String.toList_ofList

theorem print_literal (span : Option Span) (value : Literal) (raw : Option String) :
    (Shape.node span (.literal value raw)).print = value.spelling raw :=
  Shape.print_node _ _

theorem Literal.print_respelled (span : Option Span) (value : Literal) (raw : Option String) :
    (Shape.node span (value.respelled raw)).print = value.spelling raw := by
  cases raw with
  | some raw => cases value <;> exact (print_literal _ _ _).trans String.toList_ofList
  | none =>
    cases value with
    | number x =>
      have display : (Literal.number x).spelling none = Shortest.print x := String.toList_ofList
      rw [Literal.respelled, Binary64.respelled, display]
      split
      · exact (print_literal _ _ _).trans String.toList_ofList
      · exact (Shape.print_identifier _ _).trans String.toList_ofList
    | _ => exact (print_literal _ _ _).trans String.toList_ofList

theorem Literal.respelled_some (value : Literal) (raw : String) :
    value.respelled (some raw) = .literal value (some raw) := by
  have same : String.ofList (value.spelling (some raw)) = raw := String.ofList_toList
  cases value <;> exact congrArg (fun text => NodeKind.literal _ (some text)) same

theorem Literal.attributeSpelling_quoted {quote : Char} (h : quote = '"' ∨ quote = '\'') (content : String)
    (inner : List Char) : (Literal.string content).attributeSpelling (some (String.ofList (quote :: inner ++ [quote]))) =
      quote :: inner ++ [quote] := by
  rcases h with rfl | rfl <;> simp [attributeSpelling]

theorem Literal.attributeSpelling_again (content : String) (raw : Option String) :
    (Literal.string content).attributeSpelling
        (some (String.ofList ((Literal.string content).attributeSpelling raw))) =
      (Literal.string content).attributeSpelling raw := by
  have quoted : ∃ quote inner, (quote = '"' ∨ quote = '\'') ∧
      (Literal.string content).attributeSpelling raw = quote :: inner := by
    cases raw with
    | none => exact ⟨'"', _, .inl rfl, rfl⟩
    | some raw =>
      rw [attributeSpelling]
      split
      · rename_i head
        obtain head | head := head
        · obtain ⟨tail, htail⟩ := List.head?_eq_some_iff.1 head
          exact ⟨'"', tail, .inl rfl, htail⟩
        · obtain ⟨tail, htail⟩ := List.head?_eq_some_iff.1 head
          exact ⟨'\'', tail, .inr rfl, htail⟩
      · exact ⟨'"', _, .inl rfl, rfl⟩
  obtain ⟨quote, inner, hquote, htext⟩ := quoted
  rw [htext]
  have head : (String.ofList (quote :: inner)).toList.head? = some quote := by
    rw [String.toList_ofList, List.head?_cons]
  simp only [attributeSpelling]
  rw [if_pos, String.toList_ofList]
  rw [head]
  exact hquote.imp (congrArg some) (congrArg some)

namespace Respelled

def spelling (r : Respelled) : Spelling :=
  ⟨r.text.print, r.value.spelling.value⟩

theorem flatMap_kept (children : List Respelled) :
    (kept children).flatMap Shape.print = children.flatMap fun child => child.text.print := by
  induction children with
  | nil => rfl
  | cons child children ih =>
    rw [kept, List.map_cons, List.filter_cons, List.flatMap_cons]
    rw [kept] at ih
    split
    · rw [List.flatMap_cons, ih]
    · rename_i silent
      have : child.text.print = [] := by simpa using silent
      rw [this, List.nil_append, ih]

end Respelled

theorem PropertyKey.printed_respelled (key : PropertyKey Respelled) :
    (key.respelled.map Shape.spelling).printed = (key.map Respelled.spelling).printed := by
  cases key with
  | literal value raw => exact Literal.spelling_some value _
  | _ => rfl

namespace NodeKind

theorem printed_respelledText (kind : NodeKind Respelled) :
    (kind.respelledText.map Shape.spelling).printed = (kind.map Respelled.spelling).printed := by
  cases kind with
  | element name attributes children closed =>
    have hclosed : ((Respelled.kept children).isEmpty && (closed && children.isEmpty)) =
        (children.isEmpty && closed) := by
      cases children <;> simp [Respelled.kept]
    have hkept := Respelled.flatMap_kept children
    simp only [respelledText, map, printed, List.isEmpty_map, hclosed, List.flatMap_map]
    change (if _ then _ else _ ++ '>' :: (Respelled.kept children).flatMap Shape.print ++ _ ++ _ ++ _) = _
    rw [hkept]
    rfl
  | fragment children =>
    have hkept := Respelled.flatMap_kept children
    simp only [respelledText, map, printed, List.flatMap_map]
    change _ ++ (Respelled.kept children).flatMap Shape.print ++ _ = _
    rw [hkept]
    rfl
  | text value raw =>
    cases raw with
    | none => exact String.toList_ofList
    | some raw => rfl
  | literal value raw =>
    exact (Shape.print_node none _).symm.trans (Literal.print_respelled none value raw)
  | namedAttribute name value => cases value <;> rfl
  | expressionContainer e => cases e <;> rfl
  | property key value shorthand =>
    have hkey := PropertyKey.printed_respelled key
    simp only [respelledText, map, printed, hkey]
    rfl
  | opaqueText parts =>
    simp only [respelledText, map, printed, List.flatMap_map]
    refine List.flatMap_congr fun part _ => ?_
    cases part <;> rfl
  | program body => simp [respelledText, map, printed, List.flatMap_map, Respelled.spelling, Shape.print]
  | object properties => simp [respelledText, map, printed, Respelled.spelling, Shape.print, Function.comp_def]
  | array elements => simp [respelledText, map, printed, Respelled.spelling, Shape.print, Function.comp_def]
  | _ => rfl

theorem printed_container (value : Literal) (raw : Option String) :
    ((NodeKind.expressionContainer (some (Shape.node none (value.respelled raw)))).map
      Shape.spelling).printedValue = '{' :: value.spelling raw ++ ['}'] := by
  rw [← Literal.print_respelled none]
  change '{' :: ([_].flatMap Spelling.text ++ ['}']) = _
  rw [List.flatMap_singleton]
  rfl

theorem printedValue_respelledValue (kind : NodeKind Respelled) :
    (kind.respelledValue.map Shape.spelling).printedValue = (kind.map Respelled.spelling).printedValue := by
  have htext := printed_respelledText kind
  cases kind with
  | literal value raw =>
    cases value with
    | string content => exact Literal.attributeSpelling_again content raw
    | _ => exact printed_container _ raw
  | _ => exact htext

end NodeKind

namespace Shape

theorem spelling_respelled (s : Shape) : s.respelled.spelling = s.spelling := by
  induction s using Shape.induction with
  | missing => rfl
  | node span kind ih =>
    have below : kind.map (Respelled.spelling ∘ respelled) = kind.map spelling := NodeKind.map_congr ih
    have htext := NodeKind.printed_respelledText (kind.map respelled)
    have hvalue := NodeKind.printedValue_respelledValue (kind.map respelled)
    rw [NodeKind.map_map, below] at htext hvalue
    rw [respelled_node, Respelled.spelling, print_node, spelling_node, spelling_node, htext]
    exact congrArg (Spelling.mk _) hvalue

theorem print_respelled (s : Shape) : s.respelled.text.print = s.print :=
  show s.respelled.spelling.text = _ from congrArg Spelling.text s.spelling_respelled

end Shape

end MarkupEditor
