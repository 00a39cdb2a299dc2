import MarkupEditor.Proofs.Markup.Slots
import MarkupEditor.Proofs.Printer.Programs

set_option autoImplicit false

namespace MarkupEditor

open Text Lexer MarkupEditor.Parser

/-- Literals that the printer writes: strings, booleans and `null` in its own spelling, and numbers in
the spelling of a number token with their value. -/
inductive Literal.Written : Literal → Option String → Prop where
  | null : Written .null none
  | boolean (value : Bool) : Written (.boolean value) none
  | string (value : String) : Written (.string value) none
  | number {value : Binary64} {raw : String} (whole : (Token.number raw).Whole)
    (read : numberValue? raw.toList = some value) : Written (.number value) (some raw)

/-- Structured nodes, by the slot they stand in. -/
inductive Shape.Structured : ChildSlot → Shape → Prop where
  | statement {span : Option Span} {e : Shape} (h : Structured .expression e) :
    Structured .statement (.node span (.expressionStatement e))
  | literal {span : Option Span} {value : Literal} {raw : Option String} (h : value.Written raw) :
    Structured .expression (.node span (.literal value raw))
  | identifier {span : Option Span} {name : String} (whole : (Token.identifier name).Whole) :
    Structured .expression (.node span (.identifier name))
  | object {span : Option Span} {properties : List Shape}
    (h : ∀ x ∈ properties, Structured .property x) :
    Structured .expression (.node span (.object properties))
  | array {span : Option Span} {elements : List Shape} (h : ∀ x ∈ elements, Structured .item x) :
    Structured .expression (.node span (.array elements))
  | parenthesized {span : Option Span} {e : Shape} (h : Structured .expression e) :
    Structured .expression (.node span (.parenthesized e))
  | expressionMarkup {e : Shape} (h : Structured .part e) : Structured .expression e
  | item {e : Shape} (h : Structured .expression e) : Structured .item e
  | itemSpread {span : Option Span} {e : Shape} (h : Structured .expression e) :
    Structured .item (.node span (.spread e))
  | identifierKey {span : Option Span} {name : String} {e : Shape} (named : IsName name)
    (h : Structured .expression e) :
    Structured .property (.node span (.property (.identifier name) e false))
  | stringKey {span : Option Span} {e : Shape} (key : String) (h : Structured .expression e) :
    Structured .property (.node span (.property (.literal (.string key) none) e false))
  | numberKey {span : Option Span} {key : Binary64} {raw : String} {e : Shape}
    (whole : (Token.number raw).Whole) (read : numberValue? raw.toList = some key)
    (h : Structured .expression e) :
    Structured .property (.node span (.property (.literal (.number key) (some raw)) e false))
  | computedKey {span : Option Span} {k e : Shape} (key : Structured .expression k)
    (h : Structured .expression e) :
    Structured .property (.node span (.property (.computed k) e false))
  | shorthand {span span' : Option Span} {name : String} (named : IsName name) :
    Structured .property
      (.node span (.property (.identifier name) (.node span' (.identifier name)) true))
  | propertySpread {span : Option Span} {e : Shape} (h : Structured .expression e) :
    Structured .property (.node span (.spread e))
  | element {span : Option Span} {name : String} {attributes children : List Shape} {selfClosing : Bool}
    (named : IsElementName name) (ha : ∀ a ∈ attributes, Structured .attribute a)
    (h : ∀ x ∈ children, Structured .child x)
    (apart : children.IsChain fun x y => x.isText = true → y.isText = false)
    (closed : selfClosing = true → children = []) :
    Structured .part (.node span (.element name attributes children selfClosing))
  | fragment {span : Option Span} {children : List Shape} (h : ∀ x ∈ children, Structured .child x)
    (apart : children.IsChain fun x y => x.isText = true → y.isText = false) :
    Structured .part (.node span (.fragment children))
  | bareAttribute {span : Option Span} {name : String} (named : IsAttributeName name) :
    Structured .attribute (.node span (.namedAttribute name none))
  | valuedAttribute {span : Option Span} {name : String} {v : Shape} (named : IsAttributeName name)
    (h : Structured .value v) : Structured .attribute (.node span (.namedAttribute name (some v)))
  | spreadAttribute {span : Option Span} {e : Shape} (h : Structured .expression e) :
    Structured .attribute (.node span (.spreadAttribute e))
  | valueString {span : Option Span} (value : String) :
    Structured .value (.node span (.literal (.string value) none))
  | valueContainer {span : Option Span} {e : Shape} (h : Structured .expression e) :
    Structured .value (.node span (.expressionContainer (some e)))
  | valueMarkup {e : Shape} (h : Structured .part e) : Structured .value e
  | text {span : Option Span} {value : String} (filled : value ≠ "") :
    Structured .child (.node span (.text value none))
  | container {span : Option Span} {e : Shape} (h : Structured .item e) :
    Structured .child (.node span (.expressionContainer (some e)))
  | containerEmpty {span : Option Span} : Structured .child (.node span (.expressionContainer none))
  | childMarkup {e : Shape} (h : Structured .part e) : Structured .child e

namespace Printer

def Rereads (spellings : Bool) : ChildSlot → Shape → Prop
  | .statement, e => RereadStatement spellings e
  | .expression, e => RereadStructured spellings e
  | .attribute, e => RereadAttribute spellings e
  | .value, e => RereadValue spellings e
  | .child, e => RereadChild spellings e
  | .property, e => RereadItem spellings .object e
  | .item, e => RereadItem spellings .array e ∧ RereadContent spellings e
  | .part, e => RereadMarkup spellings e ∧ e.spelling.value = e.print

theorem structured_written {value : Literal} {raw : Option String} {span : Option Span}
    (h : value.Written raw) : RereadStructured false (.node span (.literal value raw)) := by
  cases h with
  | null => exact structured_literal (.keyword .null) rfl (.plain rfl) rfl rfl
  | boolean b =>
    cases b with
    | true => exact structured_literal (.keyword .true) rfl (.plain rfl) rfl rfl
    | false => exact structured_literal (.keyword .false) rfl (.plain rfl) rfl rfl
  | string value =>
    have made : LeafOf (.string (String.ofList (quote value.toList)))
        (.literal (.string value) (some (String.ofList (quote value.toList)))) :=
      .plain (by rw [leafKind?, stringValue_quote])
    exact structured_literal _ (whole_quote _) made (String.toList_ofList).symm rfl
  | number whole read => exact structured_literal _ whole (.number read) rfl rfl

theorem rereadKey_string (value : String) :
    RereadKey false (.literal (.string value) none) := by
  have made : KeyOf (.string (String.ofList (quote value.toList)))
      (.literal (.string value) (some (String.ofList (quote value.toList)))) :=
    .plain (by rw [leafKey?, stringValue_quote])
  exact rereadKey_of_token _ (whole_quote _) made (String.toList_ofList).symm rfl

theorem reread_writtenValue (value : String) {span : Option Span} :
    RereadValue false (.node span (.literal (.string value) none)) := by
  refine reread_valueString (.inl rfl) escapeAttribute_clean rfl ?_ rfl
  rw [decode_escapeAttribute, String.ofList_toList]

theorem reread_writtenText {value : String} {span : Option Span} (filled : value ≠ "") :
    RereadChild false (.node span (.text value none)) := by
  have hne : value.toList ≠ [] := fun h => filled (String.toList_eq_nil_iff.1 h)
  refine reread_text (escapeText_ne_nil hne) (fun x => escapeText_clean) (Shape.print_text _ _ _) ?_ rfl
  rw [decode_escapeText, String.ofList_toList]

end Printer

open Printer

theorem Shape.Structured.rereads {slot : ChildSlot} {e : Shape} (h : e.Structured slot) :
    Rereads false slot e := by
  induction h with
  | statement h ih => exact .mk (ih.reread (by decide))
  | literal h => exact structured_written h
  | identifier whole => exact structured_identifier whole
  | object h ih => exact structured_object ih
  | array h ih => exact structured_array fun x hx => (ih x hx).1
  | parenthesized h ih => exact structured_parenthesized (ih.reread (by decide))
  | expressionMarkup h ih => exact ih.1.structured
  | item h ih => exact ⟨ih.element, ih.content⟩
  | itemSpread h ih =>
    exact ⟨reread_spread (ih.reread (by decide)), reread_contentSpread (ih.reread (by decide))⟩
  | identifierKey named h ih => exact reread_property (rereadKey_identifier named) (ih.reread (by decide))
  | stringKey key h ih => exact reread_property (rereadKey_string key) (ih.reread (by decide))
  | numberKey whole read h ih =>
    exact reread_property (rereadKey_of_token _ whole (.number read) rfl rfl) (ih.reread (by decide))
  | computedKey key h ihkey ih =>
    exact reread_property (rereadKey_computed (ihkey.reread (by decide))) (ih.reread (by decide))
  | shorthand named => exact reread_shorthand named
  | propertySpread h ih => exact reread_spread (ih.reread (by decide))
  | element named ha h apart closed iha ih =>
    exact ⟨reread_element named iha ih apart closed, rfl⟩
  | fragment h apart ih => exact ⟨reread_fragment ih apart, rfl⟩
  | bareAttribute named => exact reread_attribute_bare named
  | valuedAttribute named h ih => exact reread_attribute named ih
  | spreadAttribute h ih => exact reread_spreadAttribute (ih.reread (by decide))
  | valueString value => exact reread_writtenValue value
  | valueContainer h ih => exact reread_valueContainer (ih.reread (by decide))
  | valueMarkup h ih => exact ih.1.value ih.2
  | text filled => exact reread_writtenText filled
  | container h ih => exact reread_container ih.2
  | containerEmpty => exact reread_container_empty
  | childMarkup h ih => exact ih.1.child

def Tree.Structured (t : Tree) : Prop :=
  ∃ span body, t.shape t.root = .node span (.program body) ∧ ∀ e ∈ body, e.Structured .statement

/-- The code of a structured program is accepted, and the tree it has is the program again, up to the
places and spans of nodes and the spellings they have from a source. -/
theorem parse_code {t : Tree} (h : t.Structured) :
    ∃ u, parse t.code = .ok u ∧ (u.shape u.root).erase false = (t.shape t.root).erase false := by
  obtain ⟨span, body, hroot, hbody⟩ := h
  exact parse_code_of_reread hroot fun e he => (hbody e he).rereads

/-- Text, an attribute and a property name that all have to be escaped, each in its own way. -/
def escapedTree : Tree where
  nodes := #[
    ⟨.text "a < \x7bb\x7d & c" none, none⟩,
    ⟨.literal (.string "\"a\" & b") none, none⟩,
    ⟨.namedAttribute "title" (some ⟨1⟩), none⟩,
    ⟨.identifier "x", none⟩,
    ⟨.property (.literal (.string "line\nend\\") none) ⟨3⟩ false, none⟩,
    ⟨.object [⟨4⟩], none⟩,
    ⟨.expressionContainer (some ⟨5⟩), none⟩,
    ⟨.element "p" [⟨2⟩] [⟨0⟩, ⟨6⟩] false, none⟩,
    ⟨.expressionStatement ⟨7⟩, none⟩,
    ⟨.program [⟨8⟩], none⟩]
  root := ⟨9⟩

theorem parse_code_escaped : escapedTree.Structured ∧ ∃ u, parse escapedTree.code = .ok u ∧
    (u.shape u.root).erase false = (escapedTree.shape escapedTree.root).erase false := by
  have h : escapedTree.Structured := by
    have named : IsElementName ("p" ++ "") := .dotted ⟨.identifier "p", rfl, rfl⟩ .done
    refine ⟨none, _, rfl, fun e he => ?_⟩
    cases List.mem_singleton.1 he
    refine .statement (.expressionMarkup (.element named ?_ ?_ ?_ nofun))
    · intro a ha
      cases List.mem_singleton.1 ha
      exact .valuedAttribute (.plain ⟨.identifier "title", rfl, rfl⟩) (.valueString _)
    · intro x hx
      obtain rfl | hx := List.mem_cons.1 hx
      · exact .text (by decide)
      · cases List.mem_singleton.1 hx
        refine .container (.item (.object fun x hx => ?_))
        cases List.mem_singleton.1 hx
        exact .stringKey _ (.identifier rfl)
    · exact List.isChain_cons_cons.2 ⟨fun _ => rfl, .singleton _⟩
  exact ⟨h, parse_code h⟩

end MarkupEditor
