import MarkupEditor.Proofs.Markup.Shapes

set_option autoImplicit false

namespace MarkupEditor

/-- A place for a child. An `item` is an array element or what braces among children hold, and a `part`
is markup inside text that is kept. -/
inductive ChildSlot where
  | statement
  | expression
  | attribute
  | value
  | child
  | property
  | item
  | part

namespace NodeKind

variable {ι κ : Type}

def isMarkup : NodeKind ι → Bool
  | .element .. | .fragment .. => true
  | _ => false

def isExpression : NodeKind ι → Bool
  | .literal .. | .identifier _ | .object _ | .array _ | .parenthesized _ | .opaqueText _ => true
  | kind => kind.isMarkup

def slots : NodeKind ι → List (ChildSlot × ι)
  | .program body => body.map (.statement, ·)
  | .expressionStatement expression => [(.expression, expression)]
  | .element _ attributes children _ => attributes.map (.attribute, ·) ++ children.map (.child, ·)
  | .fragment children => children.map (.child, ·)
  | .text .. => []
  | .expressionContainer expression => expression.toList.map (.item, ·)
  | .namedAttribute _ value => value.toList.map (.value, ·)
  | .spreadAttribute argument => [(.expression, argument)]
  | .literal .. => []
  | .identifier _ => []
  | .object properties => properties.map (.property, ·)
  | .property key value _ => key.children.map (.expression, ·) ++ [(.expression, value)]
  | .spread argument => [(.expression, argument)]
  | .array elements => elements.map (.item, ·)
  | .parenthesized expression => [(.expression, expression)]
  | .opaqueText parts => (parts.filterMap (·.child?)).map (.part, ·)

theorem slots_children (kind : NodeKind ι) : kind.slots.map Prod.snd = kind.children := by
  cases kind <;> simp [slots, children, Function.comp_def]

theorem slots_map (f : ι → κ) (kind : NodeKind ι) :
    (kind.map f).slots = kind.slots.map fun p => (p.1, f p.2) := by
  cases kind with
  | expressionContainer e => cases e <;> rfl
  | namedAttribute name value => cases value <;> rfl
  | property key value shorthand => cases key <;> rfl
  | opaqueText parts =>
    have h := children_map f (.opaqueText parts)
    simp only [map, children] at h
    simp only [map, slots, h, List.map_map]
    rfl
  | _ => simp [map, slots, Function.comp_def]

end NodeKind

namespace ChildSlot

variable {ι κ : Type}

def admits : ChildSlot → NodeKind ι → Bool
  | .statement, .expressionStatement _ => true
  | .statement, _ => false
  | .attribute, .namedAttribute .. | .attribute, .spreadAttribute _ => true
  | .attribute, _ => false
  | .property, .property .. | .property, .spread _ => true
  | .property, _ => false
  | .item, .spread _ => true
  | .child, .text .. | .child, .expressionContainer _ => true
  | .value, .literal content _ => content.isString
  | .value, .expressionContainer (some _) => true
  | .expression, kind | .item, kind => kind.isExpression
  | .child, kind | .value, kind | .part, kind => kind.isMarkup

theorem admits_map (f : ι → κ) (slot : ChildSlot) (kind : NodeKind ι) :
    slot.admits (kind.map f) = slot.admits kind := by
  cases slot <;> cases kind <;> try rfl
  all_goals rename_i e; cases e <;> rfl

end ChildSlot

/-- All nodes of a nested form stand in slots that admit them. -/
inductive Shape.Fits : ChildSlot → Shape → Prop where
  | node {slot : ChildSlot} {span : Option Span} {kind : NodeKind Shape} (admits : slot.admits kind = true)
    (below : ∀ slot' child, (slot', child) ∈ kind.slots → Fits slot' child) :
    Fits slot (.node span kind)

namespace Shape.Fits

variable {slot slot' : ChildSlot} {shape : Shape}

theorem lift (h : shape.Fits slot) (hs : ∀ kind : NodeKind Shape, slot.admits kind → slot'.admits kind) :
    shape.Fits slot' := by
  cases h with
  | node admits below => exact .node (hs _ admits) below

theorem expression (h : shape.Fits .part) : shape.Fits .expression :=
  h.lift fun kind hk => by cases kind <;> first | rfl | cases hk

theorem child (h : shape.Fits .part) : shape.Fits .child :=
  h.lift fun kind hk => by cases kind <;> first | rfl | cases hk

theorem value (h : shape.Fits .part) : shape.Fits .value :=
  h.lift fun kind hk => by cases kind <;> first | rfl | cases hk

theorem item (h : shape.Fits .expression) : shape.Fits .item :=
  h.lift fun kind hk => by cases kind <;> first | rfl | exact hk

end Shape.Fits

def AllFit (slots : List (ChildSlot × Shape)) : Prop :=
  ∀ slot child, (slot, child) ∈ slots → child.Fits slot

namespace AllFit

variable {slot : ChildSlot} {shapes : List Shape} {slots slots' : List (ChildSlot × Shape)}

theorem nil : AllFit [] :=
  fun _ _ h => (List.not_mem_nil h).elim

theorem list (h : ∀ e ∈ shapes, e.Fits slot) : AllFit (shapes.map (slot, ·)) := by
  intro slot' child hc
  obtain ⟨e, he, heq⟩ := List.mem_map.1 hc
  cases heq
  exact h child he

theorem append (h : AllFit slots) (h' : AllFit slots') : AllFit (slots ++ slots') :=
  fun slot child hc => (List.mem_append.1 hc).elim (h slot child) (h' slot child)

end AllFit

theorem Shape.Fits.around {slot : ChildSlot} {span : Option Span} {kind : NodeKind Shape}
    (admits : slot.admits kind = true) (below : AllFit kind.slots) : Fits slot (.node span kind) :=
  .node admits below

end MarkupEditor
