import MarkupEditor.Proofs.Markup.Walks
import MarkupEditor.Proofs.Parser.Sourced

set_option autoImplicit false

open MarkupEditor.Text MarkupEditor.Parser

namespace MarkupEditor

namespace Text

theorem splitAtByte_append (a b : List Char) : splitAtByte (a ++ b) (byteLength a) = some (a, b) := by
  induction a with
  | nil => cases b <;> rfl
  | cons c a ih =>
    obtain ⟨n, hn⟩ := Nat.exists_eq_add_of_lt c.utf8Size_pos
    have hlen : byteLength (c :: a) = n + byteLength a + 1 := by
      rw [byteLength_cons]
      omega
    have hleft : n + byteLength a + 1 - c.utf8Size = byteLength a := by omega
    rw [hlen, List.cons_append, splitAtByte, if_pos (by omega), hleft, ih]
    rfl

end Text

/-- The text of a span; `none` if an end of it is past the end of the source or inside a character. -/
def Span.slice? (source : List Char) (span : Span) : Option (List Char) :=
  if span.start ≤ span.stop then do
    let (_, rest) ← splitAtByte source span.start
    let (text, _) ← splitAtByte rest (span.stop - span.start)
    return text
  else none

theorem Cursor.Over.slice? {source front text : List Char} {c d : Cursor}
    (place : (⟨source, 0⟩ : Cursor).Over front c) (across : c.Over text d) :
    Span.slice? source ⟨c.pos, d.pos⟩ = some text := by
  obtain ⟨hsource, hc⟩ := place
  obtain ⟨hrest, hd⟩ := across
  change c.pos = 0 + byteLength front at hc
  have hstart : c.pos = byteLength front := by omega
  have hlen : d.pos - c.pos = byteLength text := by omega
  rw [Span.slice?, if_pos (show c.pos ≤ d.pos by omega)]
  change (splitAtByte source c.pos >>= _) = _
  change source = front ++ c.rest at hsource
  rw [hsource, hstart, splitAtByte_append]
  change (splitAtByte c.rest (d.pos - byteLength front) >>= _) = _
  rw [← hstart, hlen, hrest, splitAtByte_append]
  rfl

namespace Tree

def span? (t : Tree) (id : NodeId) : Option Span :=
  (t.get? id).bind (·.span)

/-- The text that a part of a kept expression stands for. Markup stands for the slice that it covers. -/
def piece? (t : Tree) (source : List Char) : OpaquePart NodeId → Option (List Char)
  | .source text => some text.toList
  | .node child => (t.span? child).bind (Span.slice? source)

def Keeps (t : Tree) (source text : List Char) : NodeKind NodeId → Prop
  | .text _ raw | .literal _ raw => raw = some (String.ofList text)
  | .identifier name => name = String.ofList text
  | .opaqueText parts =>
    ∃ pieces : List (List Char), parts.map (t.piece? source) = pieces.map some ∧ pieces.flatten = text
  | _ => True

/-- A node covers a slice of the source, around its children in their order. -/
structure Covers (t : Tree) (source : List Char) (id : NodeId) (node : Node) (span : Span)
    (text : List Char) : Prop where
  spanned : node.span = some span
  slice : span.slice? source = some text
  filled : (∀ body, node.kind ≠ .program body) → span.start < span.stop
  ordered : ∃ spans : List Span, (t.childIds id).map t.span? = spans.map some ∧
    (∀ s ∈ spans, span.start ≤ s.start ∧ s.stop ≤ span.stop) ∧
    spans.Pairwise fun a b => a.stop ≤ b.start
  keeps : t.Keeps source text node.kind

/-- The first node starts before the second. -/
def StartsBefore (t : Tree) (x y : NodeId) : Prop :=
  ∃ a b, t.span? x = some a ∧ t.span? y = some b ∧ a.start < b.start

variable {t : Tree} {id : NodeId}

theorem get?_of_shape (ht : t.Descending) {span : Option Span} {kind : NodeKind Shape}
    (h : t.shape id = .node span kind) :
    ∃ node, t.get? id = some node ∧ node.span = span ∧ node.kind.map t.shape = kind := by
  cases hn : t.get? id with
  | none =>
    rw [shape_of_none hn] at h
    cases h
  | some node =>
    rw [shape_of_get? ht hn, Shape.node.injEq] at h
    exact ⟨node, rfl, h⟩

theorem span?_of_shape (ht : t.Descending) {span : Option Span} {kind : NodeKind Shape}
    (h : t.shape id = .node span kind) : t.span? id = span := by
  obtain ⟨node, hn, hspan, -⟩ := get?_of_shape ht h
  rw [span?, hn]
  exact hspan

section

variable {source : List Char} (ht : t.Descending)

include ht

theorem sourced_of_reaches {source : Cursor} {r : NodeId} (h : Sourced source (t.shape r))
    (hid : t.Reaches r id) : Sourced source (t.shape id) := by
  induction hid with
  | refl r => exact h
  | @step r child id hc _ ih =>
    refine ih ?_
    generalize hr : t.shape r = shape at h
    cases h with
    | node place across spelled below =>
      obtain ⟨node, hn, -, rfl⟩ := get?_of_shape ht hr
      refine below (t.shape child) ?_
      rw [NodeKind.children_map]
      rw [childIds_of_get? hn] at hc
      exact List.mem_map.2 ⟨child, hc, rfl⟩

theorem spans_of_laid {ids : List NodeId} {start stop : Nat} (h : Laid start (ids.map t.shape) stop) :
    ∃ spans : List Span, ids.map t.span? = spans.map some ∧
      (∀ s ∈ spans, start ≤ s.start ∧ s.stop ≤ stop) ∧ spans.Pairwise fun a b => a.stop ≤ b.start := by
  induction ids generalizing start with
  | nil => exact ⟨[], rfl, nofun, .nil⟩
  | cons x ids ih =>
    rw [List.map_cons] at h
    generalize hx : t.shape x = shape at h
    cases h with
    | @cons _ _ span kind _ after filled inside more =>
      obtain ⟨spans, hspans, within, apart⟩ := ih more
      refine ⟨span :: spans, ?_, List.forall_mem_cons.2 ⟨⟨after, more.le⟩, fun s hs => ?_⟩,
        .cons (fun s hs => (within s hs).1) apart⟩
      · rw [List.map_cons, List.map_cons, span?_of_shape ht hx, hspans]
      · have := within s hs
        omega

theorem pieces_of_parts {c d : Cursor} {front : List Char} {parts : List (OpaquePart NodeId)}
    (h : PartsOver c (parts.map (·.map t.shape)) d) (place : (⟨source, 0⟩ : Cursor).Over front c) :
    ∃ pieces : List (List Char), parts.map (t.piece? source) = pieces.map some ∧
      c.Over pieces.flatten d := by
  generalize hparts : parts.map (·.map t.shape) = shapes at h
  induction h generalizing parts front with
  | nil c =>
    cases List.map_eq_nil_iff.1 hparts
    exact ⟨[], rfl, .refl c⟩
  | @source c d e text _ across more ih =>
    obtain ⟨part, parts, rfl, hpart, rfl⟩ := List.map_eq_cons_iff.1 hparts
    obtain ⟨pieces, hpieces, whole⟩ := ih (place.trans across) rfl
    cases part with
    | node child => cases hpart
    | source text' =>
      cases hpart
      refine ⟨text :: pieces, ?_, across.trans whole⟩
      rw [List.map_cons, List.map_cons, hpieces, piece?, String.toList_ofList]
  | @node c d e kind _ across more ih =>
    obtain ⟨part, parts, rfl, hpart, rfl⟩ := List.map_eq_cons_iff.1 hparts
    obtain ⟨text, across⟩ : ∃ text, c.Over text d := across
    obtain ⟨pieces, hpieces, whole⟩ := ih (place.trans across) rfl
    cases part with
    | source text' => cases hpart
    | node child =>
      have hchild : t.shape child = shapeAt kind c.pos d.pos := by
        simpa [OpaquePart.map] using hpart
      refine ⟨text :: pieces, ?_, across.trans whole⟩
      rw [List.map_cons, List.map_cons, hpieces, piece?, span?_of_shape ht hchild, Option.bind_some,
        Cursor.Over.slice? place across]

theorem keeps_of_spells {c d : Cursor} {front text : List Char} {kind : NodeKind NodeId}
    (place : (⟨source, 0⟩ : Cursor).Over front c) (across : c.Over text d)
    (spelled : Spells c d text (kind.map t.shape)) : t.Keeps source text kind := by
  cases kind with
  | opaqueText parts =>
    obtain ⟨pieces, hpieces, whole⟩ := pieces_of_parts ht spelled place
    exact ⟨pieces, hpieces, List.append_cancel_right (whole.1.symm.trans across.1)⟩
  | text | literal | identifier => exact spelled
  | _ => trivial

end

end Tree

theorem Parser.Reads.tag_inside {c d : Cursor} {kind : NodeKind Shape} {start stop : Nat}
    (h : Reads .tag c (.node (shapeAt kind start stop)) d) : Laid (start + 1) kind.children stop := by
  cases h with
  | fragment less greater read close =>
    have hs := mark_pos less
    have ht := mark_pos greater
    have hf := close.pos_lt
    have inside := read.laid trivial
    exact (inside.widen_start (by omega)).widen_stop (by omega)
  | selfClosing less named read found =>
    have hs := mark_pos less
    have hd := read.pos_lt
    have inside := (found.laid trivial).append (.nil (Nat.le_refl _))
    exact inside.widen_start (by omega)
  | tag less named read found inside close =>
    have hs := mark_pos less
    have hd := read.pos_lt
    have hk := close.pos_lt
    have all := (found.laid trivial).append (inside.laid trivial)
    exact (all.widen_start (by omega)).widen_stop (by omega)

namespace Tree

variable {t : Tree} {id : NodeId} {source : List Char}

section

variable (ht : t.Descending)

include ht

theorem covers_of_sourced {span : Span} (h : Sourced ⟨source, 0⟩ (t.shape id))
    (hspan : t.span? id = some span)
    (inside : Laid span.start ((t.childIds id).map t.shape) span.stop)
    (filled : (∀ body, t.kind? id ≠ some (.program body)) → span.start < span.stop) :
    ∃ node text, t.get? id = some node ∧ t.Covers source id node span text := by
  generalize hid : t.shape id = shape at h
  cases h with
  | @node c d text kind place across spelled below =>
    obtain ⟨node, hn, hnode, rfl⟩ := get?_of_shape ht hid
    cases hspan.symm.trans (span?_of_shape ht hid)
    obtain ⟨front, place⟩ := place
    rw [kind?_of_get? hn] at filled
    exact ⟨node, text, hn, hnode, Cursor.Over.slice? place across,
      fun h => filled fun body he => h body (Option.some.inj he), spans_of_laid ht inside,
      keeps_of_spells ht place across spelled⟩

theorem spanned_of_reaches {r : NodeId} {start stop : Nat}
    (inside : Laid start ((t.childIds r).map t.shape) stop) (hid : t.Reaches r id) :
    id = r ∨ ∃ span, t.Spanned id span ∧ start ≤ span.start ∧ span.stop ≤ stop := by
  cases hid with
  | refl => exact .inl rfl
  | step hc below =>
    obtain ⟨i, hi⟩ := List.mem_iff_getElem?.1 hc
    obtain ⟨span, hspan, hstart, hstop⟩ := spanned_of_laid ht inside hi
    obtain ⟨span', hspan', hstart', hstop'⟩ := hspan.reaches ht below
    exact .inr ⟨span', hspan', by omega, by omega⟩

theorem startsBefore_of_reaches {source : Cursor} {y : NodeId} (h : Sourced source (t.shape id))
    (element : t.isElement id = true) (hy : t.Reaches id y) (hne : y ≠ id) : t.StartsBefore id y := by
  generalize hid : t.shape id = shape at h
  cases h with
  | @node c d text kind place across spelled below =>
    obtain ⟨node, hn, -, rfl⟩ := get?_of_shape ht hid
    have read : Reads .tag c (.node (shapeAt (node.kind.map t.shape) c.pos d.pos)) d := by
      rw [isElement, kind?_of_get? hn] at element
      generalize node.kind = kind at element spelled
      cases kind with
      | element => exact spelled
      | _ => cases element
    have inside := read.tag_inside
    rw [NodeKind.children_map, ← childIds_of_get? hn] at inside
    obtain rfl | ⟨span, hspan, hstart, -⟩ := spanned_of_reaches ht inside hy
    · exact absurd rfl hne
    · exact ⟨_, span, span?_of_shape ht hid, hspan.at_node, hstart⟩

theorem pairwise_preorder {source : Cursor} {start stop : Nat} (h : Sourced source (t.shape id))
    (inside : Laid start ((t.childIds id).map t.shape) stop) :
    (t.preorder id).Pairwise fun x y => t.isElement x = true → t.StartsBefore x y := by
  induction ht.grounded id generalizing start stop with
  | intro id hchild ih =>
    have grounded : t.Grounded id := Acc.intro id hchild
    have under {child y : NodeId} (hc : child ∈ t.childIds id) (hy : y ∈ t.preorder child) :
        t.Reaches child y := (grounded.child hc).mem_preorder.1 hy
    rw [grounded.preorder_eq, List.pairwise_cons, List.pairwise_flatMap]
    refine ⟨fun y hy element => ?_, fun child hc => ?_, ?_⟩
    · obtain ⟨child, hc, hy⟩ := List.mem_flatMap.1 hy
      have hlt := ht.child_lt hc
      have hle := ht.reaches_le (under hc hy)
      refine startsBefore_of_reaches ht h element (.step hc (under hc hy)) ?_
      rintro rfl
      omega
    · obtain ⟨i, hi⟩ := List.mem_iff_getElem?.1 hc
      obtain ⟨span, hspan, -⟩ := spanned_of_laid ht inside hi
      exact ih child hc (sourced_of_reaches ht h (.step hc (.refl child))) hspan.inside
    · rw [List.pairwise_iff_getElem]
      intro i j hi hj hij x hx y hy _
      have hi' := List.getElem?_eq_getElem hi
      have hj' := List.getElem?_eq_getElem hj
      obtain ⟨a, ha, -⟩ := spanned_of_laid ht inside hi'
      obtain ⟨b, hb, -⟩ := spanned_of_laid ht inside hj'
      have apart := spans_apart ht inside hi' hj' hij ha hb
      obtain ⟨a', ha', -, hstop⟩ := ha.reaches ht (under (List.getElem_mem hi) hx)
      obtain ⟨b', hb', hstart, -⟩ := hb.reaches ht (under (List.getElem_mem hj) hy)
      have filled := ha'.filled
      exact ⟨a', b', ha'.at_node, hb'.at_node, by omega⟩

end

end Tree

theorem sourced_program {source : List Char} {body : List Shape} {d : Cursor}
    (read : Reads .statements ⟨source, 0⟩ (.nodes body) d) : Sourced ⟨source, 0⟩ (programOf source body) :=
  .node (d := ⟨[], byteLength source⟩) (.refl _) ⟨(List.append_nil _).symm, (Nat.zero_add _).symm⟩ trivial
    (read.sourced trivial (.refl _))

/-- Every node that the tree of a source reaches covers a slice of the source and keeps what stands there,
and the elements are listed in the order in which they start. -/
theorem parse_covers {source : String} {t : Tree} (h : parse source = .ok t) :
    (∀ id, t.Reaches t.root id →
      ∃ node span text, t.get? id = some node ∧ t.Covers source.toList id node span text) ∧
    t.elements.Pairwise t.StartsBefore := by
  obtain ⟨ht, -, body, d, read, hshape⟩ := parseWith_reads h
  have whole := hshape ▸ sourced_program read
  obtain ⟨root, hroot, -, hkind⟩ := Tree.get?_of_shape ht hshape
  have long : d.pos ≤ byteLength source.toList := by
    have reached := (read.moves trivial).before.sourceEnd
    simp only [Cursor.sourceEnd] at reached
    omega
  have inside : Laid 0 ((t.childIds t.root).map t.shape) (byteLength source.toList) := by
    rw [Tree.childIds_of_get? hroot, ← NodeKind.children_map, hkind]
    exact (read.laid trivial : Laid 0 body d.pos).widen_stop long
  constructor
  · intro id hid
    have sourced := Tree.sourced_of_reaches ht whole hid
    obtain rfl | ⟨span, hspan, -⟩ := Tree.spanned_of_reaches ht inside hid
    · have program : ∃ body, t.kind? t.root = some (.program body) := by
        rw [Tree.kind?_of_get? hroot]
        generalize root.kind = kind at hkind
        cases kind <;> cases hkind
        exact ⟨_, rfl⟩
      obtain ⟨body', hbody⟩ := program
      obtain ⟨node, text, hn, covers⟩ := Tree.covers_of_sourced ht sourced
        (Tree.span?_of_shape ht hshape) inside fun h => absurd hbody (h body')
      exact ⟨node, _, text, hn, covers⟩
    · obtain ⟨node, text, hn, covers⟩ := Tree.covers_of_sourced ht sourced hspan.at_node hspan.inside
        fun _ => hspan.filled
      exact ⟨node, _, text, hn, covers⟩
  · rw [(ht.grounded t.root).elements_eq, List.pairwise_filter]
    exact (Tree.pairwise_preorder ht whole inside).imp fun h hx _ => h hx

/-- An expression is kept as text around markup that an attempt has read before, and a text child is longer
in bytes than in characters. -/
theorem parse_covers_kept : ∃ t, parse "<a b={[<b/>] + 1}>é{x.y}</a>" = .ok t ∧
    t.elements = [⟨7⟩, ⟨0⟩] ∧
    (∀ id, t.Reaches t.root id → ∃ node span text, t.get? id = some node ∧
      t.Covers "<a b={[<b/>] + 1}>é{x.y}</a>".toList id node span text) ∧
    t.elements.Pairwise t.StartsBefore := by
  have told : (parse "<a b={[<b/>] + 1}>é{x.y}</a>").toOption.any (fun t =>
      t.elements = [⟨7⟩, ⟨0⟩]) = true := by decide +kernel
  obtain ⟨t, parsed, told⟩ := exists_parse told
  obtain ⟨covers, ordered⟩ := parse_covers parsed
  exact ⟨t, parsed, of_decide_eq_true told, covers, ordered⟩

end MarkupEditor
