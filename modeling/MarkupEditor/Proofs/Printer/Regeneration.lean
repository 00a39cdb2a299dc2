import MarkupEditor.Proofs.Printer.Kept

set_option autoImplicit false

namespace MarkupEditor

open Text MarkupEditor.Parser

section

variable {ι κ : Type}

def PropertyKey.Recorded : PropertyKey ι → Prop
  | .literal _ raw => raw ≠ none
  | _ => True

/-- Whether a node has the spelling that a source gives it. Of a source no element with children is
closed at once. -/
def NodeKind.Recorded : NodeKind ι → Prop
  | .text _ raw | .literal _ raw => raw ≠ none
  | .property key .. => key.Recorded
  | .element _ _ children closed => closed = true → children = []
  | _ => True

end

/-- All nodes of a nested form have their spellings. -/
inductive Shape.Recorded : Shape → Prop where
  | node {span : Option Span} {kind : NodeKind Shape} (own : kind.Recorded)
    (below : ∀ child ∈ kind.children, Recorded child) : Recorded (.node span kind)

namespace Parser

variable {c d : Cursor}

theorem LeafOf.recorded {token : Token} {kind : NodeKind Shape} (h : LeafOf token kind) : kind.Recorded := by
  cases h with
  | number h => exact Option.some_ne_none _
  | plain h =>
    cases token with
    | keyword word => cases word <;> cases h <;> exact Option.some_ne_none _
    | string raw =>
      cases h
      exact Option.some_ne_none _
    | identifier name =>
      cases h
      trivial
    | _ => cases h

theorem KeyOf.recorded {token : Token} {key : PropertyKey Shape} (h : KeyOf token key) : key.Recorded := by
  cases h with
  | number h => exact Option.some_ne_none _
  | plain h =>
    cases token with
    | string raw =>
      cases h
      exact Option.some_ne_none _
    | identifier name | keyword word =>
      cases h
      trivial
    | _ => cases h

theorem recorded_leaf {span : Option Span} {kind : NodeKind Shape} (own : kind.Recorded)
    (h : kind.children = []) : (Shape.node span kind).Recorded :=
  .node own (h ▸ List.forall_mem_nil _)

theorem ReadsText.recorded {front : List Shape} (h : ReadsText c front d) : ∀ e ∈ front, e.Recorded := by
  cases h with
  | empty h => exact List.forall_mem_nil _
  | text h clean stop => exact List.forall_mem_singleton.2 (recorded_leaf (Option.some_ne_none _) rfl)

theorem Reads.recorded_key {s : Sight} {token : Token} {key : PropertyKey Shape}
    (h : Reads (.key s token) c (.key key) d) : key.Recorded := by
  cases h with
  | key made => exact made.recorded
  | computed read h => trivial

theorem Reads.recorded {phrase : Phrase} {a : Answer} (h : Reads phrase c a d) :
    ∀ e ∈ a.shapes, e.Recorded := by
  induction h with
  | structuredExpression attempt ended ih => exact ih
  | keptOther attempt kept _ ih => exact ih
  | keptUnended attempt going kept _ ih => exact ih
  | innerSome going read ih => exact ih
  | leaf seen h made => exact List.forall_mem_singleton.2 (recorded_leaf made.recorded made.children)
  | negative seen next h read =>
    exact List.forall_mem_singleton.2 (recorded_leaf (Option.some_ne_none _) rfl)
  | structuredMarkup seen read ih => exact ih
  | structuredParenthesized seen read ih => exact ih
  | @listing c d s mark l found seen opens read ih =>
    cases l <;> exact List.forall_mem_singleton.2 (.node trivial ih)
  | parenthesized read h ih => exact List.forall_mem_singleton.2 (.node trivial ih)
  | itemsEnd h => exact List.forall_mem_nil _
  | itemsCons seen h going read separated more ih ih' =>
    exact List.forall_mem_cons.2 ⟨List.forall_mem_singleton.1 ih, ih'⟩
  | spread read ih => exact List.forall_mem_singleton.2 (.node trivial ih)
  | element h read ih => exact ih
  | itemProperty h read ih => exact ih
  | property key colon read ih ih' =>
    exact List.forall_mem_singleton.2 (.node key.recorded_key (List.forall_mem_append.2 ⟨ih, ih'⟩))
  | shorthand key plain ended ih =>
    refine List.forall_mem_singleton.2 (.node trivial ?_)
    exact List.forall_mem_singleton.2 (recorded_leaf trivial rfl)
  | key made =>
    rw [Answer.shapes, made.children]
    exact List.forall_mem_nil _
  | computed read h ih => exact ih
  | kept seen read h ih => exact List.forall_mem_singleton.2 (.node trivial ih)
  | partsEnd h =>
    rw [Answer.shapes, sourcePart_children]
    exact List.forall_mem_nil _
  | partsStop seen h =>
    rw [Answer.shapes, sourcePart_children]
    exact List.forall_mem_nil _
  | partsTake seen h read ih => exact ih
  | partsMarkup seen h read more ih ih' =>
    rw [Answer.shapes, List.filterMap_append, sourcePart_children, List.nil_append]
    exact List.forall_mem_cons.2 ⟨List.forall_mem_singleton.1 ih, ih'⟩
  | markup read ih => exact ih
  | fragment less greater read close ih => exact List.forall_mem_singleton.2 (.node trivial ih)
  | selfClosing less named read found ih =>
    refine List.forall_mem_singleton.2 (.node (fun _ => rfl) ?_)
    exact List.forall_mem_append.2 ⟨ih, List.forall_mem_nil _⟩
  | tag less named read found inside close ih ih' =>
    refine List.forall_mem_singleton.2 (.node (fun closed => ?_) (List.forall_mem_append.2 ⟨ih, ih'⟩))
    cases closed
  | attributesSlash slash greater => exact List.forall_mem_nil _
  | attributesGreater greater => exact List.forall_mem_nil _
  | attributesSpread seen read more ih ih' =>
    exact List.forall_mem_cons.2 ⟨List.forall_mem_singleton.1 ih, ih'⟩
  | attributesNamed seen named read more ih ih' =>
    exact List.forall_mem_cons.2 ⟨List.forall_mem_singleton.1 ih, ih'⟩
  | spreadAttribute opening ellipsis read closing ih =>
    exact List.forall_mem_singleton.2 (.node trivial ih)
  | namedValue named equals read ih => exact List.forall_mem_singleton.2 (.node trivial ih)
  | namedBare named plain => exact List.forall_mem_singleton.2 (recorded_leaf trivial rfl)
  | valueString h quoted closed stop =>
    exact List.forall_mem_singleton.2 (recorded_leaf (Option.some_ne_none _) rfl)
  | valueContainer h opening filled read closing ih =>
    exact List.forall_mem_singleton.2 (.node trivial ih)
  | valueMarkup h read ih => exact ih
  | childrenEnd text h closing => exact text.recorded
  | childrenContainer text h read more ih ih' | childrenMarkup text h opening read more ih ih' =>
    exact List.forall_mem_append.2
      ⟨text.recorded, List.forall_mem_cons.2 ⟨List.forall_mem_singleton.1 ih, ih'⟩⟩
  | containerEmpty opening closing => exact List.forall_mem_singleton.2 (recorded_leaf trivial rfl)
  | container opening filled read closing ih => exact List.forall_mem_singleton.2 (.node trivial ih)
  | containerSpread ellipsis read ih => exact List.forall_mem_singleton.2 (.node trivial ih)
  | containerExpression plain read ih => exact ih
  | statementsEnd h => exact List.forall_mem_nil _
  | semicolon h more ih => exact ih
  | statement seen h read more ih ih' => exact List.forall_mem_cons.2 ⟨.node trivial ih, ih'⟩
  | _ => exact List.forall_mem_nil _

end Parser

/-- That reading a node in a place again gives the node itself. -/
def Site.Exact : Site → Shape → Prop
  | .value _, s => s.respelled.value = s
  | _, s => s.respelled.text = s

theorem Site.Exact.text {site : Site} {s : Shape} (h : site.Exact s) (plain : ∀ name, site ≠ .value name) :
    s.respelled.text = s := by
  cases site with
  | value name => exact absurd rfl (plain name)
  | _ => exact h

theorem Literal.respelled_held {value : Literal} {raw : Option String} (h : value.Held raw) (recorded : raw ≠ none) :
    (NodeKind.literal value raw).respelledValue = .literal value raw := by
  cases h with
  | quoted hquote =>
    rw [NodeKind.respelledValue, Literal.attributeSpelling_quoted hquote]
  | _ => exact absurd rfl recorded

theorem Respelled.kept_exact {children : List Shape} (exact : ∀ x ∈ children, x.respelled.text = x)
    (filled : ∀ x ∈ children, x.print ≠ []) : kept (children.map Shape.respelled) = children := by
  have same : (children.map Shape.respelled).map (·.text) = children := by
    rw [List.map_map]
    exact (List.map_congr_left exact).trans (List.map_id' children)
  rw [kept, same, List.filter_eq_self]
  intro x hx
  simpa using filled x hx

theorem Respelled.kept_legible {m : Manner} {children : List Shape} (legible : ∀ x ∈ children, x.Legible m .child)
    (recorded : ∀ x ∈ children, x.Recorded) (exact : ∀ x ∈ children, x.respelled.text = x) :
    kept (children.map Shape.respelled) = children := by
  refine kept_exact exact fun x hx silent => ?_
  obtain ⟨span, rfl⟩ := (legible x hx).text_of_silent silent
  cases recorded _ hx with
  | node own => exact own rfl

theorem NodeKind.respelledText_exact {m : Manner} {site : Site} {kind : NodeKind Shape} (own : kind.Recorded)
    (recorded : ∀ child ∈ kind.children, child.Recorded)
    (legible : ∀ inner child, (inner, child) ∈ kind.sites site → child.Legible m inner)
    (exact : ∀ inner child, (inner, child) ∈ kind.sites site → inner.Exact child) :
    (kind.map Shape.respelled).respelledText = kind := by
  have text (plain : ∀ name value, kind ≠ .namedAttribute name value) :
      (kind.map Shape.respelled).map (·.text) = kind := by
    rw [map_map]
    refine (map_congr (g := id) fun child hc => ?_).trans kind.map_id
    obtain ⟨inner, hmem⟩ := exists_site site hc
    refine (exact inner child hmem).text fun name hinner => ?_
    obtain ⟨value, hkind⟩ := sites_value (hinner ▸ hmem)
    exact plain name value hkind
  cases kind with
  | text value raw =>
    obtain ⟨raw, rfl⟩ := Option.ne_none_iff_exists'.1 own
    rfl
  | literal value raw =>
    obtain ⟨raw, rfl⟩ := Option.ne_none_iff_exists'.1 own
    exact value.respelled_some raw
  | namedAttribute name value =>
    cases value with
    | none => rfl
    | some v => exact congrArg (fun v => namedAttribute name (some v)) (exact _ v (List.mem_singleton.2 rfl))
  | property key value shorthand =>
    have same := text (by rintro _ _ ⟨⟩)
    cases key with
    | literal content raw =>
      obtain ⟨raw, rfl⟩ := Option.ne_none_iff_exists'.1 own
      have spelling : String.ofList (content.spelling (some raw)) = raw := String.ofList_toList
      simp only [map, PropertyKey.map, respelledText, PropertyKey.respelled, spelling] at same ⊢
      exact same
    | _ => exact same
  | element name as xs closed =>
    obtain ⟨-, attributes, children, -⟩ := element.inj (text (by rintro _ _ ⟨⟩))
    have kept : Respelled.kept (xs.map Shape.respelled) = xs := by
      refine Respelled.kept_legible (m := m) (fun x hx => ?_) (fun x hx => ?_) fun x hx => ?_
      · exact legible .child x (List.mem_append_right _ (List.mem_map_of_mem hx))
      · exact recorded x (List.mem_append_right _ hx)
      · exact exact .child x (List.mem_append_right _ (List.mem_map_of_mem hx))
    have single : (closed && (xs.map Shape.respelled).isEmpty) = closed := by
      cases closed with
      | false => rfl
      | true => rw [own rfl]; rfl
    rw [map, respelledText, attributes, kept, single]
  | fragment xs =>
    have kept : Respelled.kept (xs.map Shape.respelled) = xs :=
      Respelled.kept_legible (fun x hx => legible .child x (List.mem_map_of_mem hx)) recorded
        fun x hx => exact .child x (List.mem_map_of_mem hx)
    rw [map, respelledText, kept]
  | _ => exact text (by rintro _ _ ⟨⟩)

theorem Shape.Legible.exact {m : Manner} {site : Site} {s : Shape} (h : s.Legible m site)
    (recorded : s.Recorded) : site.Exact s := by
  induction h with
  | @node site span kind takes apart below ih =>
    cases recorded with
    | node own inside =>
      have text : (Shape.node span kind).respelled.text = .node span kind := by
        rw [Shape.respelled_node, NodeKind.respelledText_exact own inside below
          fun inner child hc => ih inner child hc (inside child (NodeKind.child_of_site hc))]
      cases site with
      | value name =>
        cases kind with
        | literal value raw =>
          rw [Site.Exact, Shape.respelled_node]
          exact congrArg (Shape.node span) (Literal.respelled_held takes.1 own)
        | _ => exact text
      | _ => exact text

namespace Shape

def kinds : Shape → List (NodeKind Unit) :=
  fold [] fun _ kind => kind.bare :: kind.children.flatten

theorem kinds_node (span : Option Span) (kind : NodeKind Shape) :
    (node span kind).kinds = kind.bare :: kind.children.flatMap kinds := by
  rw [kinds, fold_node, NodeKind.bare_map, NodeKind.children_map]
  rfl

theorem kinds_erase (s : Shape) : (s.erase true).kinds = s.kinds := by
  induction s using Shape.induction with
  | missing => rfl
  | node span kind ih =>
    rw [erase_node, NodeKind.erase_true, kinds_node, kinds_node, NodeKind.bare_map, NodeKind.children_map,
      List.flatMap_map]
    exact congrArg _ (List.flatMap_congr ih)

end Shape

namespace NodeKind

variable {ι : Type}

def elementName? : NodeKind ι → Option String
  | .element name .. => some name
  | _ => none

def textValue? : NodeKind ι → Option String
  | .text value _ => some value
  | _ => none

end NodeKind

namespace Tree

variable {t u : Tree}

theorem Grounded.kinds_shape {id : NodeId} (h : t.Grounded id) :
    (t.shape id).kinds = (t.preorder id).filterMap fun x => (t.kind? x).map NodeKind.bare := by
  induction h with
  | intro id hchild ih =>
    have hgrounded : t.Grounded id := Acc.intro id hchild
    rw [hgrounded.preorder_eq]
    cases hn : t.get? id with
    | none =>
      have hkind : t.kind? id = none := by rw [kind?, hn]; rfl
      rw [shape_of_none hn, childIds_of_none hn, List.flatMap_nil,
        List.filterMap_cons_none (by rw [hkind]; rfl)]
      rfl
    | some node =>
      have hkind := kind?_of_get? hn
      rw [hgrounded.shape_eq hn, Shape.kinds_node, NodeKind.bare_map, NodeKind.children_map, List.flatMap_map,
        List.filterMap_cons_some (by rw [hkind]; rfl), List.filterMap_flatMap]
      rw [childIds_of_get? hn] at ih ⊢
      exact congrArg _ (List.flatMap_congr ih)

theorem Grounded.elements_name (h : t.Grounded t.root) :
    t.elements.map t.elementName? = (t.shape t.root).kinds.filterMap fun kind => kind.elementName?.map some := by
  rw [h.elements_eq, h.kinds_shape, ← List.filterMap_eq_map, List.filterMap_filter, List.filterMap_filterMap]
  refine List.filterMap_congr fun x _ => ?_
  change (if t.isElement x then some (t.elementName? x) else none) = _
  rw [isElement, elementName?]
  cases t.kind? x with
  | none => rfl
  | some kind => cases kind <;> rfl

theorem Grounded.textValues (h : t.Grounded t.root) :
    (t.descendants t.root).filterMap t.textValue? = (t.shape t.root).kinds.filterMap (·.textValue?) := by
  rw [h.descendants_eq, h.kinds_shape, List.filterMap_filterMap]
  refine List.filterMap_congr fun x _ => ?_
  rw [textValue?]
  cases t.kind? x with
  | none => rfl
  | some kind => cases kind <;> rfl

def keepsWhole (t : Tree) (id : NodeId) : Bool :=
  match t.kind? id with
  | some (.opaqueText parts) => Balance.closes ⟨[], none⟩ parts
  | _ => true

/-- All texts that are kept below the root go through. -/
def KeptWhole (t : Tree) : Prop :=
  ∀ id, t.Reaches t.root id → t.keepsWhole id = true

end Tree

namespace Manner

/-- Texts as a source keeps them that go through. -/
def KeptWhole (site : Site) (parts : List (OpaquePart Unit)) : Prop :=
  KeptInSource site parts ∧ Balance.closes ⟨[], none⟩ parts = true

theorem rereadsKept_whole {holds : String → NodeKind Unit → Prop} :
    Printer.RereadsKept { keeps := KeptWhole, holds } :=
  rereadsKept_of_closes fun _ _ h => h

end Manner

namespace Tree

theorem KeptWhole.change {t : Tree} {holds : String → NodeKind Unit → Prop} (h : t.KeptWhole)
    (legible : t.Legible { keeps := KeptInSource, holds } .root t.root) :
    t.Legible { keeps := Manner.KeptWhole, holds } .root t.root := by
  refine legible.change fun x node hx hn site takes => ?_
  refine takes.mono (fun name _ held => held) fun parts hparts kept => ⟨kept, ?_⟩
  have closes := h x hx
  rw [keepsWhole, kind?_of_get? hn] at closes
  obtain ⟨kind, span⟩ := node
  cases kind with
  | opaqueText found =>
    cases hparts
    rwa [Balance.closes_map]
  | _ => cases hparts

theorem KeptWhole.legible {source : String} {t : Tree} (h : t.KeptWhole) (parsed : parse source = .ok t) :
    t.Legible (.plain Manner.KeptWhole) .root t.root :=
  h.change (parse_legible parsed)

end Tree

/-- Where all texts that a source keeps go through, its code is read as its tree, but for the places and
spans of nodes. So writing that tree gives the same code, and it has the same elements and texts. -/
theorem parse_code_kept {source : String} {t : Tree} (parsed : parse source = .ok t) (whole : t.KeptWhole) :
    ∃ u, parse t.code = .ok u ∧ (u.shape u.root).erase true = (t.shape t.root).erase true ∧
      u.code = t.code ∧ u.elements.map u.elementName? = t.elements.map t.elementName? ∧
      (u.descendants u.root).filterMap u.textValue? = (t.descendants t.root).filterMap t.textValue? := by
  have legible := whole.legible parsed
  obtain ⟨u, hu, same⟩ := legible.reparses Manner.rereadsKept_whole
  obtain ⟨ht, -, body, d, read, hshape⟩ := parseWith_reads parsed
  have recorded : (t.shape t.root).Recorded := hshape ▸ .node trivial read.recorded
  have exact : (t.shape t.root).respelled.text = t.shape t.root := legible.shape.exact recorded
  rw [exact] at same
  have kinds : (u.shape u.root).kinds = (t.shape t.root).kinds := by
    rw [← Shape.kinds_erase, same, Shape.kinds_erase]
  have hu' := (parse_legible hu).grounded
  refine ⟨u, hu, same, ?_, ?_, ?_⟩
  · exact congrArg (fun text => String.ofList (dropLastSemicolon text)) (Shape.print_congr same)
  · rw [hu'.elements_name, legible.grounded.elements_name, kinds]
  · rw [hu'.textValues, legible.grounded.textValues, kinds]

/-- Kept texts with markup, brackets, a comment at the end and an angle that begins no tag. -/
def keptMarkup : String :=
  "<a b=\x7bf(<c/>, x) && x < 1\x7d>\x7bg[0] + [<d>1</d>] /* e */\x7d</a>"

theorem parse_code_keptMarkup :
    ∃ t u, parse keptMarkup = .ok t ∧ t.KeptWhole ∧ parse t.code = .ok u ∧
      (u.shape u.root).erase true = (t.shape t.root).erase true ∧ u.code = t.code ∧
      u.elements.map u.elementName? = t.elements.map t.elementName? ∧
      (u.descendants u.root).filterMap u.textValue? = (t.descendants t.root).filterMap t.textValue? := by
  have whole : (parse keptMarkup).toOption.any (fun t => (t.preorder t.root).all t.keepsWhole) = true := by
    decide +kernel
  cases parsed : parse keptMarkup with
  | ok t =>
    rw [parsed] at whole
    have kept : t.KeptWhole := fun id hid =>
      List.all_eq_true.1 whole id ((parse_legible parsed).grounded.mem_preorder.2 hid)
    obtain ⟨u, hu, same⟩ := parse_code_kept parsed kept
    exact ⟨t, u, rfl, kept, hu, same⟩
  | error e =>
    rw [parsed] at whole
    cases whole

/-- A string that is broken off goes through only before its line break, which is left out as a blank at
the end of what is kept. -/
def brokenMarkup : String :=
  "<a>\x7b\"abc\n\x7d</a>"

theorem parse_code_brokenMarkup :
    ((parse brokenMarkup).toOption.any fun t => !(parse t.code).isOk) = true := by
  decide +kernel

end MarkupEditor
