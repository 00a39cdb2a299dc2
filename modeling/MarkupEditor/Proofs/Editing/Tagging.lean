import MarkupEditor.Proofs.Editing.Marks
import MarkupEditor.Proofs.Text.Digits

set_option autoImplicit false

namespace MarkupEditor

def NodeKind.unmarked : NodeKind Shape → NodeKind Shape
  | .element name attributes children closed =>
    .element name (attributes.filter fun a => !a.isMarker) children closed
  | kind => kind

namespace Shape

def unmarked : Shape → Shape :=
  fold .missing fun span kind => .node span kind.unmarked

theorem unmarked_node (span : Option Span) (kind : NodeKind Shape) :
    (node span kind).unmarked = .node span (kind.map unmarked).unmarked :=
  fold_node _ _ span kind

theorem isMarker_unmarked (s : Shape) : s.unmarked.isMarker = s.isMarker := by
  cases s with
  | missing => rfl
  | node span kind =>
    rw [unmarked_node]
    cases kind <;> rfl

end Shape

namespace Tree

variable {t u : Tree} {id : NodeId} {number : Nat} {elements : List NodeId}

theorem Grounded.isNamed_shape (h : t.Grounded id) (name : String) :
    (t.shape id).isNamed name = t.isNamed name id := by
  rw [Shape.isNamed, h.kind?_shape, isNamed]
  cases t.kind? id with
  | none => rfl
  | some kind => cases kind <;> rfl

theorem Grounded.isMarker_shape (h : t.Grounded id) : (t.shape id).isMarker = t.isMarker id :=
  h.isNamed_shape markerAttribute

/-- Every reference of a stored node is to a stored one. -/
def Stored (t : Tree) : Prop :=
  ∀ ⦃id node⦄, t.get? id = some node → ∀ child ∈ node.kind.children, child.index < t.size

theorem Descending.stored (h : t.Descending) : t.Stored :=
  fun _ _ hn child hc => Nat.lt_trans (h hn child hc) (lt_size_of_get? hn)

theorem HasMarker.grounded {marker value : NodeId} (h : t.HasMarker number marker value) :
    t.Grounded marker := by
  have hvalue : t.Grounded value := .intro fun child hc => by
    rw [childIds_of_get? h.value] at hc
    cases hc
  refine .intro fun child hc => ?_
  rw [childIds_of_get? h.marker] at hc
  cases List.mem_singleton.1 hc
  exact hvalue

theorem HasMarker.isMarker {marker value : NodeId} (h : t.HasMarker number marker value) :
    t.isMarker marker = true := by
  rw [isMarker_of_get? h.marker]
  exact beq_self_eq_true _

namespace Marked

theorem fresh_childIds (marked : t.Marked number elements u) {x child : NodeId} (fresh : t.size ≤ x.index) (hc : child ∈ u.childIds x) :
    t.size ≤ child.index := by
  obtain ⟨node, hn, -⟩ := exists_get?_of_mem_childIds hc
  obtain ⟨k, marker, value, hmarker, hvalue, rfl | rfl⟩ := marked.fresh x fresh (lt_size_of_get? hn)
  · rw [childIds_of_get? hmarker.marker] at hc
    cases List.mem_singleton.1 hc
    exact hvalue
  · rw [childIds_of_get? hmarker.value] at hc
    cases hc

theorem not_isElement (marked : t.Marked number elements u) {x : NodeId} (fresh : t.size ≤ x.index) :
    u.isElement x = false := by
  cases hn : u.get? x with
  | none => rw [Tree.isElement, kind?, hn]; rfl
  | some node =>
    obtain ⟨k, marker, value, hmarker, -, rfl | rfl⟩ := marked.fresh x fresh (lt_size_of_get? hn)
    · rw [Tree.isElement, kind?_of_get? hmarker.marker]
      rfl
    · rw [Tree.isElement, kind?_of_get? hmarker.value]
      rfl

variable (marked : t.Marked number elements u) (all : t.AreElements elements)

include marked all

theorem childIds {x child : NodeId} (stored : x.index < t.size) (hc : child ∈ u.childIds x) :
    child ∈ t.childIds x ∨ t.size ≤ child.index := by
  by_cases hx : x ∈ elements
  · obtain ⟨i, hi⟩ := List.mem_iff_getElem?.1 hx
    obtain ⟨span, name, as, xs, closed, hget, -⟩ := all x hx
    obtain ⟨marker, value, hlow, -, hu⟩ := marked.marked i x span name as xs closed hi hget
    rw [childIds_of_get? hu] at hc
    rw [childIds_of_get? hget]
    obtain hc | hc := List.mem_append.1 hc
    · obtain rfl | ⟨hc, -⟩ := mem_remark hc
      · exact .inr hlow
      · exact .inl (List.mem_append_left _ hc)
    · exact .inl (List.mem_append_right _ hc)
  · left
    rwa [Tree.childIds, kind?, marked.old x stored hx] at hc

theorem isElement {x : NodeId} (stored : x.index < t.size) : u.isElement x = t.isElement x := by
  by_cases hx : x ∈ elements
  · obtain ⟨i, hi⟩ := List.mem_iff_getElem?.1 hx
    obtain ⟨span, name, as, xs, closed, hget, -⟩ := all x hx
    obtain ⟨marker, value, -, -, hu⟩ := marked.marked i x span name as xs closed hi hget
    rw [Tree.isElement, Tree.isElement, kind?_of_get? hu, kind?_of_get? hget]
    rfl
  · rw [Tree.isElement, Tree.isElement, kind?, kind?, marked.old x stored hx]

theorem isMarker {x : NodeId} (stored : x.index < t.size) : u.isMarker x = t.isMarker x := by
  by_cases hx : x ∈ elements
  · obtain ⟨i, hi⟩ := List.mem_iff_getElem?.1 hx
    obtain ⟨span, name, as, xs, closed, hget, -⟩ := all x hx
    obtain ⟨marker, value, -, -, hu⟩ := marked.marked i x span name as xs closed hi hget
    rw [isMarker_of_get? hu, isMarker_of_get? hget]
  · rw [Tree.isMarker, Tree.isMarker, isNamed, isNamed, kind?, kind?, marked.old x stored hx]

variable (ht : t.Stored)

include ht

/-- What is reached after marking was reached before, markers apart. -/
theorem reaches {a x : NodeId} (h : u.Reaches a x) :
    (a.index < t.size → t.Reaches a x ∧ x.index < t.size ∨ t.size ≤ x.index) ∧
      (t.size ≤ a.index → t.size ≤ x.index) := by
  induction h with
  | refl a => exact ⟨fun stored => .inl ⟨.refl a, stored⟩, id⟩
  | @step a child x hc below ih =>
    refine ⟨fun stored => ?_, fun fresh => ih.2 (marked.fresh_childIds fresh hc)⟩
    obtain hchild | hchild := marked.childIds all stored hc
    · obtain ⟨node, hn, hmem⟩ := exists_get?_of_mem_childIds hchild
      obtain ⟨hreach, hx⟩ | hx := ih.1 (ht hn child hmem)
      · exact .inl ⟨.step hchild hreach, hx⟩
      · exact .inr hx
    · exact .inr (ih.2 hchild)

/-- Without markers nested forms are what they were before marking. -/
theorem unmarked_shape (h : t.Grounded id) (stored : id.index < t.size) :
    u.Grounded id ∧ (u.shape id).unmarked = (t.shape id).unmarked := by
  induction h with
  | intro id hchild ih =>
    have hgrounded : t.Grounded id := Acc.intro id hchild
    obtain ⟨node, hn⟩ := get?_isSome_iff.2 stored
    rw [childIds_of_get? hn] at ih
    have below : ∀ child ∈ node.kind.children,
        u.Grounded child ∧ (u.shape child).unmarked = (t.shape child).unmarked :=
      fun child hc => ih child hc (ht hn child hc)
    by_cases hid : id ∈ elements
    · obtain ⟨i, hi⟩ := List.mem_iff_getElem?.1 hid
      obtain ⟨span, name, as, xs, closed, hget, -⟩ := all id hid
      rw [hn] at hget
      cases hget
      obtain ⟨marker, value, -, hmarker, hu⟩ := marked.marked i id span name as xs closed hi hn
      have grounded : u.Grounded id := by
        refine .intro fun child hc => ?_
        rw [childIds_of_get? hu] at hc
        obtain hc | hc := List.mem_append.1 hc
        · obtain rfl | ⟨hc, -⟩ := mem_remark hc
          · exact hmarker.grounded
          · exact (below child (List.mem_append_left _ hc)).1
        · exact (below child (List.mem_append_right _ hc)).1
      refine ⟨grounded, ?_⟩
      have same : ∀ child ∈ as ++ xs, (Shape.unmarked ∘ u.shape) child = (Shape.unmarked ∘ t.shape) child :=
        fun child hc => (below child hc).2
      have kept : ∀ a ∈ as, ((Shape.unmarked ∘ u.shape) a).isMarker = t.isMarker a := by
        intro a ha
        have hgrounded' : t.Grounded a := hgrounded.child (by
          rw [childIds_of_get? hn]
          exact List.mem_append_left _ ha)
        rw [same a (List.mem_append_left _ ha), Function.comp_apply, Shape.isMarker_unmarked,
          hgrounded'.isMarker_shape]
      have isMarker : ((Shape.unmarked ∘ u.shape) marker).isMarker = true := by
        rw [Function.comp_apply, Shape.isMarker_unmarked, hmarker.grounded.isMarker_shape,
          hmarker.isMarker]
      rw [grounded.shape_eq hu, hgrounded.shape_eq hn, Shape.unmarked_node, Shape.unmarked_node,
        NodeKind.map_map, NodeKind.map_map]
      simp only [NodeKind.map, NodeKind.unmarked]
      rw [map_remark _ kept, filter_not_remark isMarker,
        List.map_congr_left fun a ha => same a (List.mem_append_left _ ha),
        List.map_congr_left fun x hx => same x (List.mem_append_right _ hx)]
    · have hu : u.get? id = some node := by rw [marked.old id stored hid, hn]
      have grounded : u.Grounded id := by
        refine .intro fun child hc => ?_
        rw [childIds_of_get? hu] at hc
        exact (below child hc).1
      refine ⟨grounded, ?_⟩
      rw [grounded.shape_eq hu, hgrounded.shape_eq hn, Shape.unmarked_node, Shape.unmarked_node,
        NodeKind.map_map, NodeKind.map_map,
        NodeKind.map_congr (f := Shape.unmarked ∘ u.shape) fun child hc => (below child hc).2]
      rfl

end Marked

theorem areElements_elements (h : t.Grounded t.root) (ht : t.Stored) : t.AreElements t.elements := by
  intro e he
  have hkind := (h.mem_elements.1 he).2
  cases hn : t.get? e with
  | none =>
    rw [isElement, kind?, hn] at hkind
    cases hkind
  | some node =>
    obtain ⟨kind, span⟩ := node
    rw [isElement, kind?_of_get? hn] at hkind
    cases kind with
    | element name as xs closed =>
      exact ⟨span, name, as, xs, closed, rfl, fun a ha => ht hn a (List.mem_append_left _ ha)⟩
    | _ => cases hkind

end Tree

theorem parseMarker?_repr (i : Nat) :
    parseMarker? (toString i) = if i < UInt32.size then some i else none := by
  rw [parseMarker?, Nat.toString_eq_repr, Nat.repr_eq_ofList_toDigits, String.toList_ofList]
  change Text.readUnsigned 10 UInt32.size (Text.trim (Text.decimal i)) = _
  rw [Text.trim_decimal, Text.readUnsigned_decimal]

theorem parseMarker?_lt {marker : String} {i : Nat} (h : parseMarker? marker = some i) : i < UInt32.size :=
  Text.lt_of_readUnsigned h

namespace IdentifierMap

variable {m : IdentifierMap}

theorem get?_eq_none {i : Nat} : m.get? i = none ↔ m.size ≤ i :=
  List.getElem?_eq_none_iff

theorem get?_eq_some_iff (h : m.nodes.Nodup) (i : Nat) (node : NodeId) :
    m.get? i = some node ↔ m.identifierOf? node = some i := by
  rw [get?, identifierOf?, List.findIdx?_eq_some_iff_getElem]
  constructor
  · intro hi
    obtain ⟨hlt, rfl⟩ := List.getElem?_eq_some_iff.1 hi
    refine ⟨hlt, decide_eq_true rfl, fun j hj heq => ?_⟩
    have := (List.Nodup.getElem_inj_iff h).1 (of_decide_eq_true heq)
    omega
  · rintro ⟨hlt, heq, -⟩
    rw [List.getElem?_eq_getElem hlt, of_decide_eq_true heq]

theorem resolve?_toString (m : IdentifierMap) (i : Nat) :
    m.resolve? (toString i) = if i < UInt32.size then m.get? i else none := by
  rw [resolve?, parseMarker?_repr]
  split <;> rfl

end IdentifierMap

/-- What tagging makes of a tree: the elements are numbered in the order of the walk, an identifier is
found from its node and from its decimal text, every element has its number as its only marker, and
without markers the tree is as before. -/
structure Tagged.Numbers (tagged : Tagged) (t : Tree) : Prop where
  walk : tagged.mapping.nodes = (t.preorder t.root).filter t.isElement
  distinct : tagged.mapping.nodes.Nodup
  identifies : ∀ i node, tagged.mapping.get? i = some node ↔ tagged.mapping.identifierOf? node = some i
  resolves : ∀ i < UInt32.size, tagged.mapping.resolve? (toString i) = tagged.mapping.get? i
  ends : ∀ i, tagged.mapping.size ≤ i →
    tagged.mapping.get? i = none ∧ tagged.mapping.resolve? (toString i) = none
  marks : ∀ e ∈ tagged.tree.elements, ∃ i marker value, tagged.mapping.get? i = some e ∧
    (tagged.tree.attributesOf e).filter tagged.tree.isMarker = [marker] ∧
    tagged.tree.attributeValue? marker = some value ∧
    tagged.tree.literal? value = some (.number (Binary64.ofNat i))
  keeps : (tagged.tree.shape tagged.tree.root).unmarked = (t.shape t.root).unmarked

namespace Tree

variable {t : Tree}

theorem tag_numbers (grounded : t.Grounded t.root) (stored : t.root.index < t.size) (ht : t.Stored)
    (distinct : t.elements.Nodup) : t.tag.Numbers t := by
  have all := areElements_elements grounded ht
  have marked : t.Marked 0 t.elements t.tag.tree := marked_markAll distinct all
  refine ⟨grounded.elements_eq, distinct, IdentifierMap.get?_eq_some_iff distinct, ?_, ?_, ?_, ?_⟩
  · intro i hi
    rw [IdentifierMap.resolve?_toString, if_pos hi]
  · intro i hi
    have hnone := IdentifierMap.get?_eq_none.2 hi
    refine ⟨hnone, ?_⟩
    rw [IdentifierMap.resolve?_toString, hnone, ite_self]
  · intro e he
    have hroot : t.tag.tree.root = t.root := marked.root
    have hgrounded : t.tag.tree.Grounded t.tag.tree.root := by
      rw [hroot]
      exact (marked.unmarked_shape all ht grounded stored).1
    obtain ⟨hreach, helement⟩ := hgrounded.mem_elements.1 he
    rw [hroot] at hreach
    obtain ⟨hold, he'⟩ | hfresh := (marked.reaches all ht hreach).1 stored
    · have hmem : e ∈ t.elements := grounded.mem_elements.2 ⟨hold, by rwa [← marked.isElement all he']⟩
      obtain ⟨i, hi⟩ := List.mem_iff_getElem?.1 hmem
      obtain ⟨span, name, as, xs, closed, hget, hstored⟩ := all e hmem
      obtain ⟨marker, value, -, hmarker, hu⟩ := marked.marked i e span name as xs closed hi hget
      rw [Nat.zero_add] at hmarker
      have same : ∀ a ∈ as, t.isMarker a = t.tag.tree.isMarker a :=
        fun a ha => (marked.isMarker all (ht hget a (List.mem_append_left _ ha))).symm
      refine ⟨i, marker, value, hi, ?_, ?_, ?_⟩
      · rw [attributesOf_eq hu, remark_congr same, filter_remark hmarker.isMarker]
      · rw [attributeValue?, kind?_of_get? hmarker.marker]
      · rw [literal?, kind?_of_get? hmarker.value]
    · rw [marked.not_isElement hfresh] at helement
      cases helement
  · have hroot : t.tag.tree.root = t.root := marked.root
    rw [hroot]
    exact (marked.unmarked_shape all ht grounded stored).2

end Tree

theorem tagMarkup_of_ok {markup : String} {t : Tree} (h : parse markup = .ok t) : tagMarkup markup = .ok t.tag := by
  rw [tagMarkup, h]
  rfl

theorem tagMarkup_of_error {markup : String} {error : ParseError} (h : parse markup = .error error) :
    tagMarkup markup = .error error := by
  rw [tagMarkup, h]
  rfl

/-- Tagging numbers every element of an accepted markup exactly once and changes nothing else. -/
theorem tagMarkup_numbers {source : String} {t : Tree} (h : parse source = .ok t) :
    ∃ tagged, tagMarkup source = .ok tagged ∧ tagged.Numbers t := by
  obtain ⟨ht, hroot, -⟩ := parseWith_reads h
  refine ⟨t.tag, tagMarkup_of_ok h, ?_⟩
  exact Tree.tag_numbers (ht.grounded t.root) hroot ht.stored (parseWith_wellFormed h).nodup_elements

/-- Elements in an attribute and in text that is kept, and two markers that are there already. -/
def nestedMarkup : String :=
  "<a id=<b/> data-__interactive-editor-edit-id=\"7\" data-__interactive-editor-edit-id>" ++
    "\x7b[<i/>] + 1\x7d</a>"

theorem tagMarkup_numbers_nested :
    ∃ t tagged, parse nestedMarkup = .ok t ∧ tagMarkup nestedMarkup = .ok tagged ∧ tagged.Numbers t := by
  have accepted : (parse nestedMarkup).isOk = true := by decide +kernel
  cases h : parse nestedMarkup with
  | ok t =>
    obtain ⟨tagged, htagged, numbers⟩ := tagMarkup_numbers h
    exact ⟨t, tagged, rfl, htagged, numbers⟩
  | error e =>
    rw [h] at accepted
    cases accepted

end MarkupEditor
