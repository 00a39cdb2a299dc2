import MarkupEditor.Proofs.Editing.ElementForms
import MarkupEditor.Proofs.Editing.Liveness
import MarkupEditor.Proofs.Number.Naturals

set_option autoImplicit false

namespace MarkupEditor

open MarkupEditor.Parser

/-- A number that is read as itself where it is printed. -/
def Binary64.Rereads (x : Binary64) : Prop :=
  x.isFinite = true ∧ numberValue? (Shortest.print x) = some x

theorem Binary64.rereads_ofNat {n : Nat} (small : n < 2 ^ 53) : (ofNat n).Rereads :=
  ⟨isFinite_ofNat small, numberValue?_print_ofNat small⟩

theorem Binary64.Rereads.respelled {x : Binary64} (h : x.Rereads) :
    x.respelled = .literal (.number x) (some (String.ofList (Shortest.print x))) := by
  rw [Binary64.respelled, if_pos h.1, h.2, Option.getD_some]

namespace Shape

variable {s : Shape} {name : String}

def attributesOf (s : Shape) : List Shape :=
  match s.kind? with
  | some (.element _ attributes _ _) => attributes
  | _ => []

def attributeValue? (s : Shape) : Option Shape :=
  match s.kind? with
  | some (.namedAttribute _ value) => value
  | _ => none

def contained? (s : Shape) : Option Shape :=
  match s.kind? with
  | some (.expressionContainer expression) => expression
  | _ => none

def literal? (s : Shape) : Option Literal :=
  match s.kind? with
  | some (.literal value _) => some value
  | _ => none

def held? (s : Shape) : Option Literal :=
  s.literal?.or (s.contained?.bind literal?)

def valueOf? (s : Shape) (name : String) : Option (Option Shape) :=
  (s.attributesOf.find? (isNamed name)).map attributeValue?

def attribute? (s : Shape) (name : String) : Option Literal :=
  (s.valueOf? name).bind fun value => value.elim (some (.boolean true)) held?

theorem kind?_erase (s : Shape) : (s.erase true).kind? = s.kind?.map (·.map (erase true)) := by
  cases s with
  | missing => rfl
  | node span kind =>
    rw [erase_node, NodeKind.erase_true]
    rfl

/-- What changes the nodes of a form, and the value of an attribute in its own way, changes what is found. -/
theorem valueOf?_map {f g : Shape → Shape} (attributes : (f s).attributesOf = s.attributesOf.map f)
    (named : ∀ a, (f a).isNamed name = a.isNamed name) (value : ∀ a, (f a).attributeValue? = a.attributeValue?.map g) :
    (f s).valueOf? name = (s.valueOf? name).map (Option.map g) := by
  have same : isNamed name ∘ f = isNamed name := funext named
  rw [valueOf?, valueOf?, attributes, List.find?_map, same, Option.map_map, Option.map_map]
  exact congrArg (Option.map · _) (funext value)

theorem contained?_erase (s : Shape) : (s.erase true).contained? = s.contained?.map (erase true) := by
  rw [contained?, contained?, kind?_erase]
  cases s.kind? with
  | none => rfl
  | some kind => cases kind <;> rfl

theorem literal?_erase (s : Shape) : (s.erase true).literal? = s.literal? := by
  rw [literal?, literal?, kind?_erase]
  cases s.kind? with
  | none => rfl
  | some kind => cases kind <;> rfl

theorem held?_erase (s : Shape) : (s.erase true).held? = s.held? := by
  rw [held?, held?, literal?_erase, contained?_erase]
  cases s.contained? with
  | none => rfl
  | some e => exact congrArg (s.literal?.or ·) e.literal?_erase

theorem valueOf?_erase (s : Shape) (name : String) :
    (s.erase true).valueOf? name = (s.valueOf? name).map (Option.map (erase true)) := by
  refine valueOf?_map ?_ (isNamed_erase true name) fun a => ?_
  · rw [attributesOf, attributesOf, kind?_erase]
    cases s.kind? with
    | none => rfl
    | some kind => cases kind <;> rfl
  · rw [attributeValue?, attributeValue?, kind?_erase]
    cases a.kind? with
    | none => rfl
    | some kind => cases kind <;> rfl

theorem attribute?_erase (s : Shape) (name : String) : (s.erase true).attribute? name = s.attribute? name := by
  rw [attribute?, attribute?, valueOf?_erase]
  cases s.valueOf? name with
  | none => rfl
  | some value =>
    cases value with
    | none => rfl
    | some v => exact v.held?_erase

theorem plain_respelled (value : Literal) (raw : Option String) (span : Option Span) :
    (node span (value.respelled raw)).attributesOf = [] ∧ (node span (value.respelled raw)).attributeValue? = none := by
  obtain ⟨content, spelling, literal⟩ | ⟨name, identifier⟩ := value.respelled_cases raw
  · rw [literal]
    exact ⟨rfl, rfl⟩
  · rw [identifier]
    exact ⟨rfl, rfl⟩

theorem valueOf?_respelled (s : Shape) (name : String) :
    s.respelled.text.valueOf? name = (s.valueOf? name).map (Option.map fun v => v.respelled.value) := by
  refine valueOf?_map (f := fun p => p.respelled.text) ?_ (isNamed_respelled name) fun a => ?_
  · cases s with
    | missing => rfl
    | node span kind =>
      rw [respelled_node]
      cases kind with
      | literal value raw => exact (plain_respelled value raw span).1
      | element name as xs closed => exact List.map_map
      | _ => rfl
  · cases a with
    | missing => rfl
    | node span kind =>
      rw [respelled_node]
      cases kind with
      | namedAttribute name value => cases value <;> rfl
      | literal value raw => exact (plain_respelled value raw span).2
      | _ => rfl

theorem Legible.literal?_respelled {m : Manner} {ends : List Punctuator} (h : s.Legible m (.expression ends)) :
    s.respelled.text.literal? = s.literal? := by
  cases h with
  | @node _ span kind takes =>
    rw [respelled_node]
    cases kind with
    | literal value raw =>
      have spelled : value.Spelled raw := takes.2
      cases spelled with
      | token => cases value <;> rfl
      | _ => rfl
    | _ => rfl

theorem Legible.held?_respelled {m : Manner} (h : s.Legible m (.value name))
    (number : ∀ x span, s = .node span (.literal (.number x) none) → x.Rereads) : s.respelled.value.held? = s.held? := by
  cases h with
  | @node _ span kind takes apart below =>
    rw [respelled_node]
    cases kind with
    | literal value raw =>
      have held : value.Held raw := takes.1
      cases held with
      | @number x positive =>
        have same := (number x span rfl).respelled
        change (Shape.node .none x.respelled).literal? = _
        rw [same]
        rfl
      | _ => rfl
    | expressionContainer e =>
      cases e with
      | none => rfl
      | some e => exact (below (.expression [.closeBrace]) e (List.mem_singleton.2 rfl)).literal?_respelled
    | _ => rfl

end Shape

namespace Tree

variable {t u : Tree} {id : NodeId}

namespace Grounded

theorem attributesOf_shape (h : t.Grounded id) : (t.shape id).attributesOf = (t.attributesOf id).map t.shape := by
  rw [Shape.attributesOf, h.kind?_shape, attributesOf]
  cases t.kind? id with
  | none => rfl
  | some kind => cases kind <;> rfl

theorem attributeValue?_shape (h : t.Grounded id) :
    (t.shape id).attributeValue? = (t.attributeValue? id).map t.shape := by
  rw [Shape.attributeValue?, h.kind?_shape, attributeValue?]
  cases t.kind? id with
  | none => rfl
  | some kind => cases kind <;> rfl

theorem contained?_shape (h : t.Grounded id) : (t.shape id).contained? = (t.contained? id).map t.shape := by
  rw [Shape.contained?, h.kind?_shape, contained?]
  cases t.kind? id with
  | none => rfl
  | some kind => cases kind <;> rfl

theorem literal?_shape (h : t.Grounded id) : (t.shape id).literal? = t.literal? id := by
  rw [Shape.literal?, h.kind?_shape, literal?]
  cases t.kind? id with
  | none => rfl
  | some kind => cases kind <;> rfl

theorem value {attr value : NodeId} (h : t.Grounded attr) (holds : t.attributeValue? attr = some value) :
    t.Grounded value := by
  obtain ⟨_, _, hn⟩ := exists_of_attributeValue? holds
  exact h.of_kind? (kind?_of_get? hn) value (List.mem_singleton.2 rfl)

theorem contained {value e : NodeId} (h : t.Grounded value) (holds : t.contained? value = some e) : t.Grounded e := by
  obtain ⟨_, hn⟩ := exists_of_contained? holds
  exact h.of_kind? (kind?_of_get? hn) e (List.mem_singleton.2 rfl)

theorem held?_shape (h : t.Grounded id) :
    (t.shape id).held? = (t.literal? id).or ((t.contained? id).bind t.literal?) := by
  rw [Shape.held?, h.literal?_shape, h.contained?_shape]
  cases hc : t.contained? id with
  | none => rfl
  | some e => exact congrArg ((t.literal? id).or ·) (h.contained hc).literal?_shape

theorem valueOf?_shape (h : t.Grounded id) (name : String) : (t.shape id).valueOf? name =
    (t.findAttribute? id name).map fun attr => (t.attributeValue? attr).map t.shape := by
  have below : ∀ a ∈ t.attributesOf id, t.Grounded a := fun a ha => h.child (mem_childIds_of_mem_attributesOf ha)
  have found : (t.attributesOf id).find? (Shape.isNamed name ∘ t.shape) = t.findAttribute? id name :=
    List.find?_congr fun a ha => (below a ha).isNamed_shape name
  rw [Shape.valueOf?, h.attributesOf_shape, List.find?_map, found, Option.map_map]
  cases hattr : t.findAttribute? id name with
  | none => rfl
  | some attr => exact congrArg some (below attr (exists_of_findAttribute? hattr).1).attributeValue?_shape

theorem attribute?_shape (h : t.Grounded id) (name : String) : (t.shape id).attribute? name = t.getAttribute? id name := by
  rw [Shape.attribute?, h.valueOf?_shape, getAttribute?]
  cases hattr : t.findAttribute? id name with
  | none => rfl
  | some attr =>
    have hgrounded : t.Grounded attr := h.child (mem_childIds_of_mem_attributesOf (exists_of_findAttribute? hattr).1)
    simp only [Option.map_some, Option.bind_some]
    cases hvalue : t.attributeValue? attr with
    | none => rfl
    | some value => exact (hgrounded.value hvalue).held?_shape

end Grounded

section

variable {m : Manner} {site : Site} {name : String} {attr value : NodeId}

theorem Legible.isAttributeName (h : t.Legible m site id) (found : t.findAttribute? id name = some attr) :
    IsAttributeName name := by
  obtain ⟨-, _, _, hattr⟩ := exists_of_findAttribute? found
  cases h.attribute found with
  | @node _ _ _ stored takes =>
    rw [hattr] at stored
    cases stored
    exact takes

theorem Legible.attributeValue (h : t.Legible m site id) (found : t.findAttribute? id name = some attr)
    (holds : t.attributeValue? attr = some value) : t.Legible m (.value name) value := by
  obtain ⟨-, _, _, hattr⟩ := exists_of_findAttribute? found
  cases h.attribute found with
  | @node _ _ _ stored takes apart below =>
    rw [hattr] at stored
    cases stored
    rw [attributeValue?, kind?_of_get? hattr] at holds
    cases holds
    exact below _ value (List.mem_singleton.2 rfl)

end

theorem Legible.getAttribute?_again {m : Manner} {site : Site} {x : NodeId} (h : t.Legible m site id) (h' : u.Grounded x)
    (same : (u.shape x).erase true = (t.shape id).respelled.text.erase true) (name : String)
    (number : ∀ attr value content span, t.findAttribute? id name = some attr → t.attributeValue? attr = some value →
      t.get? value = some ⟨.literal (.number content) none, span⟩ → content.Rereads) :
    u.getAttribute? x name = t.getAttribute? id name := by
  have kept : (t.shape id).respelled.text.attribute? name = (t.shape id).attribute? name := by
    rw [Shape.attribute?, Shape.attribute?, Shape.valueOf?_respelled, h.grounded.valueOf?_shape]
    cases found : t.findAttribute? id name with
    | none => rfl
    | some attr =>
      simp only [Option.map_some, Option.bind_some]
      cases holds : t.attributeValue? attr with
      | none => rfl
      | some value =>
        have legible := h.attributeValue found holds
        refine legible.shape.held?_respelled fun content span bare => ?_
        obtain ⟨⟨kind, span'⟩, hn⟩ := legible.exists_get?
        rw [legible.grounded.shape_eq hn] at bare
        obtain ⟨-, hkind⟩ := Shape.node.inj bare
        refine number attr value content span' found holds ?_
        cases kind with
        | literal => cases hkind; exact hn
        | _ => cases hkind
  rw [← h'.attribute?_shape, ← Shape.attribute?_erase, same, Shape.attribute?_erase, kept, h.grounded.attribute?_shape]

end Tree

end MarkupEditor
