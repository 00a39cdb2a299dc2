import MarkupEditor.Proofs.Editing.Legibility
import MarkupEditor.Proofs.Editing.Picks
import MarkupEditor.Proofs.Editing.Stripping
import MarkupEditor.Proofs.Printer.Regeneration

set_option autoImplicit false

namespace MarkupEditor

section

variable {α β : Type} {isMarker : α → Bool} {marker : α} {items : List α}

/-- Putting a marker in and taking others out adds nothing to what is found, where nothing is found in the new one. -/
theorem remark_flatMap_sublist {f g : α → List β} (put : isMarker marker = true) (new : g marker = [])
    (less : ∀ item ∈ items, (g item).Sublist (f item)) :
    ((remark isMarker marker items).flatMap g).Sublist (items.flatMap f) := by
  have taken : ∀ item ∈ remark isMarker marker items, (!isMarker item) = false → g item = [] := by
    intro item hitem h
    obtain rfl | ⟨-, plain⟩ := mem_remark hitem
    · exact new
    · simp [plain] at h
  have kept : (remark isMarker marker items).flatMap g = (items.filter fun item => !isMarker item).flatMap g := by
    rw [← Reading.flatMap_filter taken, filter_not_remark put]
  rw [kept]
  exact (List.filter_sublist.flatMap g).trans (List.Sublist.flatMap_right items less)

theorem map_remark_only {f g : α → β} {old : α} (only : items.filter isMarker = [old]) (new : g marker = f old)
    (same : ∀ item ∈ items, g item = f item) : (remark isMarker marker items).map g = items.map f := by
  induction items with
  | nil => cases only
  | cons item items ih =>
    have rest := fun x hx => same x (List.mem_cons_of_mem item hx)
    cases h : isMarker item with
    | true =>
      rw [List.filter_cons_of_pos h] at only
      obtain ⟨rfl, none⟩ := List.cons.inj only
      have kept : (items.filter fun item => !isMarker item) = items :=
        List.filter_eq_self.2 fun x hx => by simpa using List.filter_eq_nil_iff.1 none x hx
      rw [remark_marker h, kept, List.map_cons, List.map_cons, new, List.map_congr_left rest]
    | false =>
      rw [List.filter_cons_of_neg (by simp [h])] at only
      rw [remark_plain h, List.map_cons, List.map_cons, same item List.mem_cons_self, ih only rest]

end

def Shape.marker (number : Nat) : Shape :=
  .node none (.namedAttribute markerAttribute
    (some (.node none (.literal (.number (Binary64.ofNat number)) none))))

/-- The name of an element, and what is printed for its markers. -/
abbrev Label := Option String × List (List Char)

def Tree.label (t : Tree) (id : NodeId) : Label :=
  (t.elementName? id, ((t.attributesOf id).filter t.isMarker).map t.printNode)

namespace Shape

def label : Shape → Label
  | .node _ (.element name attributes _ _) => (some name, (attributes.filter isMarker).map print)
  | _ => (none, [])

theorem label_erase (s : Shape) : (s.erase true).label = s.label := by
  cases s with
  | missing => rfl
  | node span kind =>
    rw [erase_node, NodeKind.erase_true]
    cases kind with
    | element name as xs closed =>
      have same : (isMarker ∘ erase true) = isMarker := funext (isMarker_erase true)
      have printed : ∀ a : Shape, (a.erase true).print = a.print := fun a =>
        congrArg Spelling.text a.spelling_erase
      simp only [NodeKind.map, label, List.filter_map, same, List.map_map, Function.comp_def, printed]
    | _ => rfl

theorem label_respelled (s : Shape) : s.respelled.text.label = s.label := by
  cases s with
  | missing => rfl
  | node span kind =>
    rw [respelled_node]
    cases kind with
    | element name as xs closed =>
      have same : (isMarker ∘ fun a => a.respelled.text) = isMarker := funext isMarker_respelled
      simp only [NodeKind.map, NodeKind.respelledText, label, List.map_map, Function.comp_def, List.filter_map]
      simp only [Function.comp_def] at same
      rw [same, List.map_congr_left fun a _ => print_respelled a]
    | literal value raw =>
      obtain ⟨content, spelling, literal⟩ | ⟨name, identifier⟩ := value.respelled_cases raw
      · simp only [NodeKind.map, NodeKind.respelledText, literal, label]
      · simp only [NodeKind.map, NodeKind.respelledText, identifier, label]
    | _ => rfl

end Shape

theorem Shape.spelling_marker {s : Shape} (h : s.isMarker = true) : s.spelling = ⟨s.print, s.print⟩ := by
  cases s with
  | missing => cases h
  | node span kind =>
    cases kind with
    | namedAttribute name value => rw [print_node, spelling_node]; rfl
    | _ => cases h

namespace Tree

variable {t u : Tree} {id : NodeId} {number : Nat} {elements : List NodeId}

theorem HasMarker.shape {marker value : NodeId} (h : t.HasMarker number marker value) :
    t.shape marker = .marker number := by
  have hvalue : t.Grounded value := h.grounded.child (by
    rw [childIds_of_get? h.marker]
    exact List.mem_singleton.2 rfl)
  have held := hvalue.shape_eq h.value
  rw [h.grounded.shape_eq h.marker, NodeKind.map, Option.map_some, held]
  rfl

namespace Marked

variable (marked : t.Marked number elements u) (all : t.AreElements elements) (ht : t.Stored)

include marked all ht

/-- After marking the walk meets no elements that it did not meet before, and it meets them in the same order. -/
theorem elements_sublist (h : t.Grounded id) (stored : id.index < t.size) :
    ((u.preorder id).filter u.isElement).Sublist ((t.preorder id).filter t.isElement) := by
  induction h with
  | intro id hchild ih =>
    have hgrounded : t.Grounded id := Acc.intro id hchild
    have grounded := (marked.unmarked_shape all ht hgrounded stored).1
    obtain ⟨node, hn⟩ := get?_isSome_iff.2 stored
    have below : ∀ child ∈ t.childIds id,
        ((u.preorder child).filter u.isElement).Sublist ((t.preorder child).filter t.isElement) := by
      intro child hc
      refine ih child hc (ht hn child ?_)
      rwa [childIds_of_get? hn] at hc
    have children : ((u.childIds id).flatMap fun child => (u.preorder child).filter u.isElement).Sublist
        ((t.childIds id).flatMap fun child => (t.preorder child).filter t.isElement) := by
      by_cases hid : id ∈ elements
      · obtain ⟨i, hi⟩ := List.mem_iff_getElem?.1 hid
        obtain ⟨span, name, as, xs, closed, hget, hstored⟩ := all id hid
        obtain ⟨marker, value, fresh, hmarker, hu⟩ := marked.marked i id span name as xs closed hi hget
        have same : ∀ a ∈ as, t.isMarker a = u.isMarker a :=
          fun a ha => (marked.isMarker all (hstored a ha)).symm
        have new : (u.preorder marker).filter u.isElement = [] := by
          rw [List.filter_eq_nil_iff]
          intro y hy
          have hfresh := (marked.reaches all ht (hmarker.grounded.mem_preorder.1 hy)).2 fresh
          simp [marked.not_isElement hfresh]
        rw [childIds_of_get? hget] at below
        rw [childIds_of_get? hu, childIds_of_get? hget, remark_congr same]
        simp only [NodeKind.children, List.flatMap_append]
        exact (remark_flatMap_sublist hmarker.isMarker new fun a ha => below a (List.mem_append_left _ ha)).append
          (List.Sublist.flatMap_right xs fun x hx => below x (List.mem_append_right _ hx))
      · have same : u.childIds id = t.childIds id := by
          rw [Tree.childIds, Tree.childIds, kind?, kind?, marked.old id stored hid]
        rw [same]
        exact List.Sublist.flatMap_right _ below
    rw [grounded.preorder_eq, hgrounded.preorder_eq, List.filter_cons, List.filter_cons,
      marked.isElement all stored, List.filter_flatMap, List.filter_flatMap]
    split
    · exact children.cons_cons id
    · exact children

theorem spelling (numbered : ∀ i e, elements[i]? = some e → (t.label e).2 = [(Shape.marker (number + i)).print])
    (h : t.Grounded id) (stored : id.index < t.size) : (u.shape id).spelling = (t.shape id).spelling := by
  induction h with
  | intro id hchild ih =>
    have hgrounded : t.Grounded id := Acc.intro id hchild
    have grounded := (marked.unmarked_shape all ht hgrounded stored).1
    obtain ⟨node, hn⟩ := get?_isSome_iff.2 stored
    rw [childIds_of_get? hn] at ih
    have below : ∀ child ∈ node.kind.children, (u.shape child).spelling = (t.shape child).spelling :=
      fun child hc => ih child hc (ht hn child hc)
    by_cases hid : id ∈ elements
    · obtain ⟨i, hi⟩ := List.mem_iff_getElem?.1 hid
      obtain ⟨span, name, as, xs, closed, hget, hstored⟩ := all id hid
      obtain ⟨marker, value, fresh, hmarker, hu⟩ := marked.marked i id span name as xs closed hi hget
      rw [hn] at hget
      cases hget
      have markers := numbered i id hi
      rw [label, attributesOf_eq hn] at markers
      obtain ⟨old, only, printed⟩ := List.map_eq_singleton_iff.1 markers
      have attributes : (remark t.isMarker marker as).map (fun a => (u.shape a).spelling) =
          as.map fun a => (t.shape a).spelling := by
        refine map_remark_only only ?_ fun a ha => below a (List.mem_append_left _ ha)
        obtain ⟨hold, isMarker⟩ := List.mem_filter.1 (only ▸ List.mem_singleton.2 rfl : old ∈ as.filter t.isMarker)
        have holdGrounded : t.Grounded old := hgrounded.child (by
          rw [childIds_of_get? hn]
          exact List.mem_append_left _ hold)
        rw [hmarker.shape, Shape.spelling_marker (s := .marker _) rfl,
          Shape.spelling_marker (holdGrounded.isMarker_shape.trans isMarker), ← printed]
        rfl
      have children : xs.map (fun x => (u.shape x).spelling) = xs.map fun x => (t.shape x).spelling :=
        List.map_congr_left fun x hx => below x (List.mem_append_right _ hx)
      rw [grounded.shape_eq hu, hgrounded.shape_eq hn, Shape.spelling_node, Shape.spelling_node]
      simp only [NodeKind.map, List.map_map, Function.comp_def, attributes, children]
    · have hu : u.get? id = some node := by rw [marked.old id stored hid, hn]
      have same : (node.kind.map u.shape).map Shape.spelling = (node.kind.map t.shape).map Shape.spelling := by
        rw [NodeKind.map_map, NodeKind.map_map]
        exact NodeKind.map_congr below
      rw [grounded.shape_eq hu, hgrounded.shape_eq hn, Shape.spelling_node, Shape.spelling_node, same]

end Marked

namespace Tagging

/-- A node that is reached in the tagged tree, and was stored, has the parent there that it had before. -/
theorem parent_before (h : t.Tagging) {x : NodeId} (reached : t.tag.tree.Reaches t.root x) (below : x ≠ t.root)
    (stored : x.index < t.size) :
    ∃ p, t.tag.tree.Reaches t.root p ∧ t.Reaches t.root p ∧ x ∈ t.tag.tree.childIds p ∧ x ∈ t.childIds p := by
  obtain ⟨⟨p, j⟩, hp, hplace⟩ := reached.parent below
  have hx : x ∈ t.tag.tree.childIds p := List.mem_of_getElem? hplace
  have hps : p.index < t.size := Nat.lt_of_not_le fun fresh =>
    Nat.not_le_of_lt stored (h.marked.fresh_childIds fresh hx)
  have live : t.Reaches t.root p :=
    ((h.marked.reaches h.all h.stored hp).1 h.root).elim (·.1) fun fresh => absurd hps (Nat.not_lt_of_le fresh)
  exact ⟨p, hp, live, hx, (h.marked.childIds h.all hps hx).resolve_right (Nat.not_le_of_lt stored)⟩

theorem lost_below (h : t.Tagging) {x y : NodeId} (hx : t.Reaches t.root x)
    (lost : ¬ t.tag.tree.Reaches t.root x) (hy : t.Reaches x y) : ¬ t.tag.tree.Reaches t.root y := by
  induction hy with
  | refl x => exact lost
  | @step x c y hc below ih =>
    refine ih (hx.child hc) fun reached => lost ?_
    have lower := h.wellFormed.child_lt hx hc
    have top := h.wellFormed.reaches_le (.refl _) hx
    have stored : c.index < t.size := (h.wellFormed.stored x hx c hc).1
    obtain ⟨p, hp, live, -, hpc⟩ := h.parent_before reached (ne_of_index_ne (by omega)) stored
    rwa [h.wellFormed.parent_eq hx live hc hpc]

/-- What stands in a marker is lost. -/
theorem lost_inMarker (h : t.Tagging) {y : NodeId} (inside : t.InMarker y) : ¬ t.tag.tree.Reaches t.root y := by
  obtain ⟨a, ha, marker, hmarker, isMarker, below⟩ := inside
  obtain ⟨i, hi⟩ := List.mem_iff_getElem?.1 ha
  obtain ⟨span, name, as, xs, closed, hn, hstored⟩ := h.all a ha
  have live := (h.grounded.mem_elements.1 ha).1
  rw [attributesOf_eq hn] at hmarker
  have hchild : marker ∈ t.childIds a := by
    rw [childIds_of_get? hn]
    exact List.mem_append_left _ hmarker
  refine h.lost_below (live.child hchild) (fun reached => ?_) below
  have lower := h.wellFormed.child_lt live hchild
  have top := h.wellFormed.reaches_le (.refl _) live
  obtain ⟨p, -, hp, hu, ht⟩ := h.parent_before reached (ne_of_index_ne (by omega)) (hstored marker hmarker)
  obtain rfl := h.wellFormed.parent_eq live hp hchild ht
  rw [childIds_of_get? (h.places.element i a span name as xs closed hi hn)] at hu
  rcases List.mem_append.1 hu with hu | hu
  · obtain rfl | ⟨-, plain⟩ := mem_remark hu
    · have old := hstored _ hmarker
      simp only at old
      omega
    · rw [isMarker] at plain
      cases plain
  · obtain ⟨j, hj⟩ := List.mem_iff_getElem?.1 hmarker
    obtain ⟨k, hk⟩ := List.mem_iff_getElem?.1 hu
    have first : (t.childIds a)[j]? = some marker := by
      rw [childIds_of_get? hn]
      exact List.getElem?_append_left (List.getElem?_eq_some_iff.1 hj).1 ▸ hj
    have second : (t.childIds a)[as.length + k]? = some marker := by
      rw [childIds_of_get? hn]
      exact (List.getElem?_append_right (Nat.le_add_right _ _)).trans (by rwa [Nat.add_sub_cancel_left])
    have := (h.wellFormed.slot_eq live live first second).2
    have := (List.getElem?_eq_some_iff.1 hj).1
    omega

theorem unmarked_tag (h : t.Tagging) :
    (t.tag.tree.shape t.tag.tree.root).unmarked = (t.shape t.root).unmarked := by
  rw [show t.tag.tree.root = t.root from h.marked.root]
  exact (h.marked.unmarked_shape h.all h.stored h.grounded h.root).2

theorem elements_less (h : t.Tagging) : t.tag.tree.elements.Sublist t.elements := by
  rw [h.grounded_tag.elements_eq, h.grounded.elements_eq, show t.tag.tree.root = t.root from h.marked.root]
  exact h.marked.elements_sublist h.all h.stored h.grounded h.root

/-- The elements of a tagged tree are among those that were numbered, and they are all of them if none stood in
a marker. -/
theorem elements_eq_iff (h : t.Tagging) :
    t.tag.tree.elements = t.elements ↔ ∀ e ∈ t.elements, ¬ t.InMarker e := by
  have root : t.tag.tree.root = t.root := h.marked.root
  constructor
  · intro same e he inside
    have reached := (h.grounded_tag.mem_elements.1 (same.symm ▸ he)).1
    rw [root] at reached
    exact h.lost_inMarker inside reached
  · intro plain
    refine h.elements_less.eq_of_length_le (h.wellFormed.nodup_elements.subperm fun e he => ?_).length_le
    obtain ⟨reached, element⟩ := h.grounded.mem_elements.1 he
    have live := (h.reaches reached).resolve_right (plain e he)
    refine h.grounded_tag.mem_elements.2 ⟨root.symm ▸ live, ?_⟩
    obtain ⟨_, _, _, _, _, hn, -⟩ := h.all e he
    rwa [h.marked.isElement h.all (lt_size_of_get? hn)]

end Tagging

theorem Grounded.label_shape (h : t.Grounded id) : (t.shape id).label = t.label id := by
  cases hn : t.get? id with
  | none =>
    rw [shape_of_none hn, label, elementName?, attributesOf, kind?, hn]
    rfl
  | some node =>
    obtain ⟨kind, span⟩ := node
    rw [h.shape_eq hn, label, elementName?, attributesOf, kind?_of_get? hn]
    cases kind with
    | element name as xs closed =>
      have held : ∀ a ∈ as, t.Grounded a := fun a ha => h.child (by
        rw [childIds_of_get? hn]
        exact List.mem_append_left _ ha)
      refine congrArg (some name, ·) ?_
      rw [List.filter_map, List.map_map]
      refine congrArg (List.map t.printNode) (List.filter_congr fun a ha => ?_)
      exact (held a ha).isMarker_shape
    | _ => rfl

/-- Where a legible tree is written and read again, the elements have their names and their markers as before. -/
theorem Legible.labels_again {m : Manner} (h : t.Legible m .root t.root) (grounded : u.Grounded u.root)
    (same : (u.shape u.root).erase true = (t.shape t.root).respelled.text.erase true) :
    u.elements.map u.label = t.elements.map t.label := by
  have read (v : Tree) (hv : v.Grounded v.root) : v.elements.map v.label = v.elements.map fun x => (v.shape x).label :=
    List.map_congr_left fun x hx => ((hv.reaches (hv.mem_elements.1 hx).1).label_shape).symm
  have forms := congrArg (List.map Shape.label) (h.elements_again grounded same)
  simp only [List.map_map, Function.comp_def, Shape.label_erase, Shape.label_respelled] at forms
  rw [read u grounded, read t h.grounded, forms]

theorem Tagging.label_tag {i : Nat} {e : NodeId} (h : t.Tagging) (hi : t.elements[i]? = some e) :
    t.tag.tree.label e = (t.elementName? e, [(Shape.marker i).print]) := by
  obtain ⟨span, name, as, xs, closed, hn, -⟩ := h.all e (List.mem_of_getElem? hi)
  obtain ⟨owns, hmarker⟩ := h.marker hi
  have hu := h.places.element i e span name as xs closed hi hn
  rw [label, elementName?, elementName?, kind?_of_get? hu, kind?_of_get? hn, owns, List.map_singleton, printNode,
    hmarker.shape]

theorem Tagging.code_tag (h : t.Tagging)
    (numbered : ∀ i e, t.elements[i]? = some e → (t.label e).2 = [(Shape.marker i).print]) : t.tag.tree.code = t.code := by
  have spelling := h.marked.spelling h.all h.stored (fun i e hi => by rw [Nat.zero_add]; exact numbered i e hi)
    h.grounded h.root
  have root : t.tag.tree.root = t.root := h.marked.root
  have printed : (t.tag.tree.shape t.tag.tree.root).print = (t.shape t.root).print := by
    rw [root]
    exact congrArg Spelling.text spelling
  exact congrArg (fun text => String.ofList (dropLastSemicolon text)) printed

end Tree

def Tagged.elementNames (tagged : Tagged) : List (Option String) :=
  tagged.mapping.nodes.map tagged.tree.elementName?

theorem Tree.Tagging.elementNames {t : Tree} (h : t.Tagging) : t.tag.elementNames = t.elements.map t.elementName? := by
  refine List.map_congr_left fun e he => ?_
  obtain ⟨i, hi⟩ := List.mem_iff_getElem?.1 he
  exact congrArg Prod.fst (h.label_tag hi)

/-- Where all kept texts of a tagged tree go through, its markup can be tagged again, and without markers it is
what the source is without them. It is tagged as it is, with the names of its elements in the same order, if no
element of the source stood in a marker; otherwise some are numbered that are not in the tagged markup. -/
theorem tagMarkup_again {source : String} {t : Tree} (parsed : parse source = .ok t) (whole : t.tag.tree.KeptWhole) :
    ∃ tagged again stripped, tagMarkup source = .ok tagged ∧ tagMarkup tagged.markup = .ok again ∧
      stripMarkers source = .ok stripped ∧ stripMarkers tagged.markup = .ok stripped ∧
      (again.markup = tagged.markup ∧ again.mapping.size = tagged.mapping.size ∧
          again.elementNames = tagged.elementNames ↔
        ∀ e ∈ t.elements, ¬ t.InMarker e) := by
  have tagging := parse_tagging parsed
  obtain ⟨marked, -⟩ := Tree.tag_legible (parse_legible parsed) tagging.stored tagging.wellFormed.nodup_elements
  have legible : t.tag.tree.Legible (.marked Manner.KeptWhole) .root t.tag.tree.root := whole.change marked
  obtain ⟨u, hu, same⟩ := legible.reparses Manner.rereadsKept_whole
  have tagging' := parse_tagging hu
  have labels := legible.labels_again tagging'.grounded same
  refine ⟨t.tag, u.tag, _, tagMarkup_of_ok parsed, tagMarkup_of_ok hu, stripMarkers_eq parsed, ?_,
    fun ⟨_, found, _⟩ => ?_, fun plain => ?_⟩
  · have stripped : (u.shape u.root).unmarked.print = (t.shape t.root).unmarked.print := by
      rw [← tagging.unmarked_tag, ← (Tree.shape t.tag.tree _).unmarked.print_respelled]
      refine Shape.print_congr ?_
      rw [← Shape.unmarked_erase, same, Shape.unmarked_erase, legible.shape.stripsAlike.1]
    exact (stripMarkers_eq hu).trans (by rw [stripped])
  · have size : u.elements.length = t.tag.tree.elements.length := by simpa using congrArg List.length labels
    exact tagging.elements_eq_iff.1 (tagging.elements_less.eq_of_length (size.symm.trans found))
  · rw [tagging.elements_eq_iff.2 plain] at labels
    have numbered : ∀ i e, u.elements[i]? = some e → (u.label e).2 = [(Shape.marker i).print] := by
      intro i e hi
      have label := congrArg (·[i]?) labels
      simp only [List.getElem?_map, hi, Option.map_some] at label
      obtain ⟨e', he', same'⟩ := Option.map_eq_some_iff.1 label.symm
      rw [← same', tagging.label_tag he']
    have names : u.tag.elementNames = t.tag.elementNames := by
      have firsts := congrArg (List.map Prod.fst) labels
      rw [List.map_map, List.map_map] at firsts
      exact tagging'.elementNames.trans firsts
    refine ⟨?_, ?_, names⟩
    · exact (tagging'.code_tag numbered).trans (congrArg (fun text => String.ofList (dropLastSemicolon text))
        ((Shape.print_congr same).trans (Shape.print_respelled _)))
    · simpa [Tagged.elementNames, IdentifierMap.size] using congrArg List.length names

theorem tagMarkup_again_nested :
    ∃ t tagged again stripped, parse nestedMarkup = .ok t ∧ t.tag.tree.KeptWhole ∧ (∀ e ∈ t.elements, ¬ t.InMarker e) ∧
      tagMarkup nestedMarkup = .ok tagged ∧ tagMarkup tagged.markup = .ok again ∧
      stripMarkers nestedMarkup = .ok stripped ∧ stripMarkers tagged.markup = .ok stripped ∧
      again.markup = tagged.markup ∧ again.mapping.size = tagged.mapping.size ∧
      again.elementNames = tagged.elementNames := by
  have told : (parse nestedMarkup).toOption.any (fun t => (t.tag.tree.preorder t.tag.tree.root).all t.tag.tree.keepsWhole &&
      decide (t.tag.tree.elements = t.elements)) = true := by decide +kernel
  obtain ⟨t, parsed, told⟩ := exists_parse told
  obtain ⟨closed, same⟩ := Bool.and_eq_true_iff.1 told
  have tagging := parse_tagging parsed
  have whole : t.tag.tree.KeptWhole := fun id hid =>
    List.all_eq_true.1 closed id (tagging.grounded_tag.mem_preorder.2 hid)
  have plain := tagging.elements_eq_iff.1 (of_decide_eq_true same)
  obtain ⟨tagged, again, stripped, first, second, strips, strips', alike⟩ := tagMarkup_again parsed whole
  exact ⟨t, tagged, again, stripped, parsed, whole, plain, first, second, strips, strips', alike.2 plain⟩

/-- The second element stands in a stale marker of the first one. -/
def staleMarkup : String :=
  "<r><a data-__interactive-editor-edit-id=<b/> /><c/></r>"

/-- The element in the marker takes the number 2, and it is not in the tagged markup. There the next one has it. -/
theorem tagMarkup_again_stale : ∃ tagged again, tagMarkup staleMarkup = .ok tagged ∧
    tagMarkup tagged.markup = .ok again ∧ again.markup ≠ tagged.markup ∧
    tagged.elementNames = [some "r", some "a", some "b", some "c"] ∧
    again.elementNames = [some "r", some "a", some "c"] := by
  have told : (parse staleMarkup).toOption.any (fun t => (parse t.tag.markup).toOption.any fun u =>
      decide (u.tag.markup ≠ t.tag.markup ∧ t.tag.elementNames = [some "r", some "a", some "b", some "c"] ∧
        u.tag.elementNames = [some "r", some "a", some "c"])) = true := by decide +kernel
  obtain ⟨t, parsed, told⟩ := exists_parse told
  obtain ⟨u, parsed', told⟩ := exists_parse told
  exact ⟨t.tag, u.tag, tagMarkup_of_ok parsed, tagMarkup_of_ok parsed', of_decide_eq_true told⟩

end MarkupEditor
