import MarkupEditor.Proofs.Editing.Styling

set_option autoImplicit false

namespace MarkupEditor

/-- What a node is all along: its type, its name if it is an attribute or a property that has one, and its
value if it is a literal. -/
structure NodeSort where
  type : String
  name : Option String
  literal : Option Literal

namespace NodeKind

variable {ι κ : Type}

def sort (kind : NodeKind ι) : NodeSort where
  type := kind.typeName
  name :=
    match kind with
    | .namedAttribute name _ => some name
    | .property key _ _ => key.name?
    | _ => none
  literal :=
    match kind with
    | .literal value _ => some value
    | _ => none

def held (type : String) (kind : NodeKind ι) : List ι :=
  if kind.typeName = type then kind.children else []

theorem sort_map (f : ι → κ) (kind : NodeKind ι) : (kind.map f).sort = kind.sort := by
  cases kind with
  | property key value shorthand => exact congrArg (NodeSort.mk "Property" · none) (PropertyKey.name?_map f key)
  | _ => rfl

theorem held_map (f : ι → κ) (type : String) (kind : NodeKind ι) :
    (kind.map f).held type = (kind.held type).map f := by
  rw [held, held, typeName_map, children_map]
  split <;> rfl

theorem isElement_eq (kind : NodeKind ι) : kind.isElement = (kind.typeName == "Element") := by
  cases kind <;> rfl

theorem children_of_literal {kind : NodeKind ι} (h : kind.typeName = "Literal") : kind.children = [] := by
  cases kind with
  | literal => rfl
  | _ => simp [typeName] at h

end NodeKind

namespace Tree

variable {t : Tree} {x c : NodeId} {type : String}

def sort? (t : Tree) (x : NodeId) : Option NodeSort :=
  (t.kind? x).map NodeKind.sort

def heldBy (t : Tree) (type : String) (x : NodeId) : List NodeId :=
  ((t.kind? x).map (·.held type)).getD []

theorem isElement_eq_sort (t : Tree) (x : NodeId) : t.isElement x = (t.sort? x).any (·.type == "Element") := by
  unfold isElement sort?
  cases t.kind? x with
  | none => rfl
  | some kind => exact kind.isElement_eq

theorem isText_eq_sort (t : Tree) (x : NodeId) : t.isText x = (t.sort? x).any (·.type == "Text") := by
  unfold isText sort?
  cases t.kind? x with
  | none => rfl
  | some kind => cases kind <;> rfl

theorem isObject_eq_sort (t : Tree) (x : NodeId) : t.isObject x = (t.sort? x).any (·.type == "Object") := by
  unfold isObject sort?
  cases t.kind? x with
  | none => rfl
  | some kind => cases kind <;> rfl

theorem isNamed_eq_sort (t : Tree) (name : String) (x : NodeId) :
    t.isNamed name x = (t.sort? x).any fun sort => sort.type == "Attribute" && sort.name == some name := by
  unfold isNamed sort?
  cases t.kind? x with
  | none => rfl
  | some kind => cases kind <;> rfl

theorem propertyName?_eq_sort (t : Tree) (x : NodeId) :
    t.propertyName? x = (t.sort? x).bind fun sort => if sort.type = "Property" then sort.name else none := by
  unfold propertyName? sort?
  cases t.kind? x with
  | none => rfl
  | some kind => cases kind <;> rfl

theorem literal?_eq_sort (t : Tree) (x : NodeId) : t.literal? x = (t.sort? x).bind NodeSort.literal := by
  unfold literal? sort?
  cases t.kind? x with
  | none => rfl
  | some kind => cases kind <;> rfl

theorem attributeValue?_eq_heldBy (t : Tree) (x : NodeId) : t.attributeValue? x = (t.heldBy "Attribute" x).head? := by
  unfold attributeValue? heldBy
  cases t.kind? x with
  | none => rfl
  | some kind =>
    cases kind with
    | namedAttribute name value => cases value <;> rfl
    | _ => rfl

theorem contained?_eq_heldBy (t : Tree) (x : NodeId) : t.contained? x = (t.heldBy "ExpressionContainer" x).head? := by
  unfold contained? heldBy
  cases t.kind? x with
  | none => rfl
  | some kind =>
    cases kind with
    | expressionContainer expression => cases expression <;> rfl
    | _ => rfl

theorem propertiesOf_eq_heldBy (t : Tree) (x : NodeId) : t.propertiesOf x = t.heldBy "Object" x := by
  unfold propertiesOf heldBy
  cases t.kind? x with
  | none => rfl
  | some kind => cases kind <;> rfl

theorem heldBy_of_isElement (h : t.isElement x = true) (plain : type ≠ "Element") : t.heldBy type x = [] := by
  obtain ⟨_, _, _, _, _, hn⟩ := exists_of_isElement h
  rw [heldBy, kind?_of_get? hn]
  exact if_neg (Ne.symm plain)

theorem mem_childIds_of_mem_heldBy (h : c ∈ t.heldBy type x) : c ∈ t.childIds x := by
  unfold heldBy at h
  cases hk : t.kind? x with
  | none =>
    rw [hk] at h
    cases h
  | some kind =>
    rw [hk, Option.map_some, Option.getD_some, NodeKind.held] at h
    rw [childIds, hk]
    split at h
    · exact h
    · cases h

end Tree

end MarkupEditor
