import MarkupEditor.Proofs.Number.Positional
import MarkupEditor.Proofs.Printer.Programs
import MarkupEditor.Proofs.Printer.Respelled

set_option autoImplicit false

namespace MarkupEditor

open Text Lexer MarkupEditor.Parser

theorem IsPositional.whole_number {text : List Char} (h : IsPositional text) :
    (Token.number (String.ofList text)).Whole := by
  obtain ⟨c, rest, rfl, hc, -⟩ := h.begins
  obtain ⟨blank, slash⟩ := not_blank_of_digit hc
  obtain ⟨-, hlow, hhigh⟩ := range_of_isDigit hc
  have begins : beginsIdentifier c = false := by
    rw [← Bool.not_eq_true]
    intro h
    simp only [beginsIdentifier, Char.isAlpha, Char.isUpper, Char.isLower, Bool.or_eq_true, Bool.and_eq_true,
      decide_eq_true_eq, beq_iff_eq] at h
    obtain ((h | h) | rfl) | rfl := h
    · have := UInt32.le_iff_toNat_le.1 h.1
      change 65 ≤ c.toNat at this
      omega
    · have := UInt32.le_iff_toNat_le.1 h.1
      change 97 ≤ c.toNat at this
      omega
    · exact absurd hc (by decide)
    · exact absurd hc (by decide)
  have hfirst : Lexeme.first [] c rest =
      ⟨[], some (.number (String.ofList (c :: rest))), c :: rest, []⟩ := by
    simp [Lexeme.first, begins, hc, h.number_eq]
  exact Lexeme.whole_of_first blank slash hfirst String.toList_ofList

namespace Printer

/-- What reading a node again comes to in each place. A child of which nothing is printed is a text. -/
def RereadAt : Site → Respelled → Prop
  | .root, r => ∃ span body, r.text = .node span (.program body) ∧ ∀ e ∈ body, RereadStatement true e
  | .statement, r => RereadStatement true r.text
  | .expression ends, r => Reread true ends r.text
  | .structured, r => RereadStructured true r.text
  | .named name, r => IsName name ∧ ∃ span, r.text = .node span (.identifier name)
  | .attr, r => RereadAttribute true r.text
  | .value _, r => RereadValue true r.value
  | .child, r => (r.text.print = [] → r.text.isText = true) ∧ (r.text.print ≠ [] → RereadChild true r.text)
  | .property, r => RereadItem true .object r.text
  | .item, r => RereadItem true .array r.text
  | .content, r => RereadContent true r.text
  | .markup, r => RereadMarkup true r.text
  | .part, r => RereadMarkup true r.text ∧ r.text.OpensTag

def RereadsKept (m : Manner) : Prop :=
  ∀ ⦃site : Site⦄ ⦃r : Respelled⦄ ⦃span : Option Span⦄ ⦃parts : List (OpaquePart Shape)⦄,
    m.keeps site (parts.map (·.map fun _ => ())) → r.text = .node span (.opaqueText parts) →
    (∀ child ∈ parts.filterMap (·.child?), RereadMarkup true child ∧ child.OpensTag) → RereadAt site r

variable {span : Option Span}

theorem structured_spelled {value : Literal} {raw : Option String} (h : value.Spelled raw) :
    RereadStructured true (.node span (value.respelled raw)) := by
  cases h with
  | null => exact structured_leaf (show (Token.keyword .null).Whole from rfl) (.plain rfl)
  | boolean b =>
    cases b with
    | true => exact structured_leaf (show (Token.keyword .true).Whole from rfl) (.plain rfl)
    | false => exact structured_leaf (show (Token.keyword .false).Whole from rfl) (.plain rfl)
  | string value =>
    refine structured_leaf (whole_quote value.toList) (.plain ?_)
    rw [leafKind?, stringValue_quote]
    rfl
  | @token value raw token whole made =>
    rw [Literal.respelled_some]
    exact structured_leaf whole made
  | @negative value gap raw blank whole read =>
    rw [Literal.respelled_some]
    exact structured_negative blank whole read

theorem structured_number {value : Binary64} (positive : value.isNegative = false) :
    RereadStructured true (.node span value.respelled) := by
  rw [Binary64.respelled]
  split
  · rename_i finite
    have digits := Shortest.isPositional_print positive finite
    obtain ⟨read, hread⟩ := digits.exists_value
    rw [hread, Option.getD_some]
    exact structured_leaf digits.whole_number (.number (by rwa [String.toList_ofList]))
  · rename_i infinite
    have name : Shortest.print value = "NaN".toList ∨ Shortest.print value = "Infinity".toList := by
      rw [Binary64.isFinite, decide_eq_true_eq] at infinite
      rw [Shortest.print, positive, Binary64.isNaN, Binary64.isInfinite]
      split
      · exact .inl rfl
      · rename_i number
        rw [decide_eq_true_eq] at number
        have : value.magnitude = Binary64.infinite := by omega
        simp only [this, BEq.rfl, if_true, Bool.false_eq_true, if_false]
        exact .inr trivial
    obtain h | h := name <;> rw [h] <;> exact structured_identifier rfl

theorem reread_held {value : Literal} {raw : Option String} (h : value.Held raw) :
    RereadValue true (.node span (NodeKind.literal value raw).respelledValue) := by
  cases h with
  | null =>
    exact reread_valueContainer ((structured_spelled .null).reread (by decide))
  | boolean b =>
    exact reread_valueContainer ((structured_spelled (.boolean b)).reread (by decide))
  | number positive =>
    exact reread_valueContainer ((structured_number positive).reread (by decide))
  | string value =>
    refine reread_valueString (.inl rfl) escapeAttribute_clean ?_ ?_ rfl
    · exact Literal.attributeSpelling_again value none
    · rw [decode_escapeAttribute, String.ofList_toList]
  | @quoted quote inner hquote clean =>
    have same := Literal.attributeSpelling_quoted hquote (String.ofList (decodeReferences inner)) inner
    have again := Literal.attributeSpelling_again (String.ofList (decodeReferences inner))
      (some (String.ofList (quote :: inner ++ [quote])))
    refine reread_valueString hquote clean (again.trans same) rfl ?_
    rw [same]

theorem reread_keySpelled {key : PropertyKey Respelled} (h : key.Spelled)
    (computed : ∀ e ∈ key.children, Reread true [.closeBracket] e.text) :
    RereadKey true key.respelled := by
  cases h with
  | identifier named => exact rereadKey_identifier named
  | string name =>
    refine rereadKey_leaf (whole_quote name.toList) (.plain ?_)
    rw [leafKey?, stringValue_quote]
    rfl
  | @token value raw token whole made =>
    have same : (PropertyKey.literal value (some raw)).respelled = .literal value (some raw) := by
      have hraw : String.ofList (value.spelling (some raw)) = raw := String.ofList_toList
      exact congrArg (fun text => PropertyKey.literal value (some text)) hraw
    rw [same]
    exact rereadKey_leaf whole made
  | computed e => exact rereadKey_computed (computed e (List.mem_singleton.2 rfl))

theorem reread_textSpelled {value : String} {raw : Option String} (h : SpellsText value raw)
    (filled : raw.getD (String.ofList (escapeText value.toList)) ≠ "") :
    RereadChild true (.node span (.text value
      (some (raw.getD (String.ofList (escapeText value.toList)))))) := by
  cases raw with
  | none =>
    have hne : escapeText value.toList ≠ [] := by
      rintro hnil
      exact filled (by rw [hnil]; rfl)
    refine reread_text hne (fun x => escapeText_clean) ?_ ?_ rfl
    · exact (Shape.print_text _ _ _).trans String.toList_ofList
    · rw [decode_escapeText, String.ofList_toList]
  | some raw =>
    obtain ⟨hne, clean, decoded⟩ := h
    refine reread_text (fun hnil => hne (String.toList_eq_nil_iff.1 hnil)) clean ?_ decoded ?_
    · exact Shape.print_text _ _ _
    · rw [String.ofList_toList]
      rfl

theorem RereadMarkup.atChild {e : Shape} (h : RereadMarkup true e) :
    (e.print = [] → e.isText = true) ∧ (e.print ≠ [] → RereadChild true e) := by
  refine ⟨fun hprint => ?_, fun _ => h.child⟩
  obtain ⟨⟨tail, htail⟩, -⟩ := h
  rw [hprint] at htail
  cases htail

theorem isText_respelled (s : Shape) : s.respelled.text.isText = s.isText := by
  cases s with
  | missing => rfl
  | node span kind =>
    rw [Shape.respelled_node]
    cases kind with
    | literal value raw =>
      cases value <;> cases raw <;> try rfl
      change (Shape.node span (Binary64.respelled _)).isText = _
      rw [Binary64.respelled]
      split <;> rfl
    | _ => rfl

theorem apart_kept {children : List Respelled}
    (silent : ∀ r ∈ children, r.text.print = [] → r.text.isText = true)
    (apart : children.IsChain fun x y => x.text.isText = true → y.text.isText = false) :
    (Respelled.kept children).IsChain fun x y => x.isText = true → y.isText = false := by
  induction children with
  | nil => exact .nil
  | cons r children ih =>
    have rest := ih (fun x hx => silent x (List.mem_cons_of_mem r hx)) apart.tail
    by_cases hprint : r.text.print = []
    · have : Respelled.kept (r :: children) = Respelled.kept children := by
        simp [Respelled.kept, hprint]
      rwa [this]
    · have hkept : Respelled.kept (r :: children) = r.text :: Respelled.kept children := by
        simp [Respelled.kept, hprint]
      rw [hkept]
      cases children with
      | nil => exact .singleton _
      | cons next children =>
        obtain ⟨first, more⟩ := List.isChain_cons_cons.1 apart
        by_cases hnext : next.text.print = []
        · have plain : r.text.isText = false := by
            rw [← Bool.not_eq_true]
            intro htext
            have := silent next (List.mem_cons_of_mem r List.mem_cons_self) hnext
            rw [first htext] at this
            cases this
          refine List.IsChain.cons rest fun x _ htext => ?_
          rw [plain] at htext
          cases htext
        · have : Respelled.kept (next :: children) = next.text :: Respelled.kept children := by
            simp [Respelled.kept, hnext]
          rw [this] at rest ⊢
          exact List.isChain_cons_cons.2 ⟨first, rest⟩

section

variable {kind : NodeKind Shape} {site : Site}

theorem reread_kept {children : List Respelled} (h : ∀ r ∈ children, RereadAt .child r) :
    ∀ x ∈ Respelled.kept children, RereadChild true x := by
  intro x hx
  obtain ⟨hmem, hprint⟩ := List.mem_filter.1 hx
  obtain ⟨r, hr, rfl⟩ := List.mem_map.1 hmem
  refine (h r hr).2 ?_
  simpa using hprint

theorem forall_respelled {P : Respelled → Prop} {shapes : List Shape}
    (h : ∀ s ∈ shapes, P s.respelled) : ∀ r ∈ shapes.map Shape.respelled, P r :=
  List.forall_mem_map.2 h

theorem markup_respelled (h : kind.bare.Markup) (apart : kind.Apart Shape.isText)
    (below : ∀ inner child, (inner, child) ∈ kind.sites site → RereadAt inner child.respelled) :
    RereadMarkup true (.node span (kind.map Shape.respelled).respelledText) := by
  have children {xs : List Shape} (hxs : ∀ x ∈ xs, RereadAt .child x.respelled)
      (chain : xs.IsChain fun x y => x.isText = true → y.isText = false) :
      (∀ x ∈ Respelled.kept (xs.map Shape.respelled), RereadChild true x) ∧
        (Respelled.kept (xs.map Shape.respelled)).IsChain fun x y => x.isText = true → y.isText = false := by
    have each := forall_respelled hxs
    refine ⟨reread_kept each, apart_kept (fun r hr => (each r hr).1) ?_⟩
    rw [List.isChain_map]
    simpa only [isText_respelled] using chain
  cases kind with
  | element name as xs closed =>
    have ha : ∀ a ∈ as, RereadAt .attr a.respelled :=
      fun a ha => below _ a (List.mem_append_left _ (List.mem_map_of_mem ha))
    have hx : ∀ x ∈ xs, RereadAt .child x.respelled :=
      fun x hx => below _ x (List.mem_append_right _ (List.mem_map_of_mem hx))
    obtain ⟨hchildren, hapart⟩ := children hx apart
    refine reread_element h ?_ hchildren hapart ?_
    · intro a hmem
      obtain ⟨r, hr, rfl⟩ := List.mem_map.1 hmem
      exact forall_respelled ha r hr
    · intro hclosed
      cases xs with
      | nil => rfl
      | cons x xs => simp at hclosed
  | fragment xs =>
    have hx : ∀ x ∈ xs, RereadAt .child x.respelled := fun x hx => below _ x (List.mem_map_of_mem hx)
    obtain ⟨hchildren, hapart⟩ := children hx apart
    exact reread_fragment hchildren hapart
  | _ => exact h.elim

theorem structured_respelled (h : kind.bare.IsStructured) (apart : kind.Apart Shape.isText)
    (below : ∀ inner child, (inner, child) ∈ kind.sites site → RereadAt inner child.respelled) :
    RereadStructured true (.node span (kind.map Shape.respelled).respelledText) := by
  cases kind with
  | literal value raw => exact structured_spelled h
  | identifier name => exact structured_identifier h
  | object properties =>
    refine structured_object fun x hx => ?_
    obtain ⟨r, hr, rfl⟩ := List.mem_map.1 hx
    exact forall_respelled (P := RereadAt .property) (fun s hs => below _ s (List.mem_map_of_mem hs)) r hr
  | array elements =>
    refine structured_array fun x hx => ?_
    obtain ⟨r, hr, rfl⟩ := List.mem_map.1 hx
    exact forall_respelled (P := RereadAt .item) (fun s hs => below _ s (List.mem_map_of_mem hs)) r hr
  | parenthesized e => exact structured_parenthesized (below _ e (List.mem_singleton.2 rfl))
  | element name as xs closed =>
    exact (markup_respelled (show (NodeKind.element name as xs closed).bare.Markup from h) apart below).structured
  | fragment xs =>
    exact (markup_respelled (show (NodeKind.fragment xs).bare.Markup from h) apart below).structured
  | _ => exact h.elim

variable {m : Manner}

theorem kept_respelled (hm : RereadsKept m) {parts : List (OpaquePart Shape)}
    (keeps : m.keeps site (parts.map (·.map fun _ => ())))
    (below : ∀ inner child, (inner, child) ∈ (NodeKind.opaqueText parts).sites site →
      RereadAt inner child.respelled) :
    RereadAt site ⟨.node span ((NodeKind.opaqueText parts).map Shape.respelled).respelledText,
      .node span ((NodeKind.opaqueText parts).map Shape.respelled).respelledValue⟩ := by
  have bare : ((parts.map (·.map Shape.respelled)).map (·.map Respelled.text)).map
      (·.map fun _ => ()) = parts.map (·.map fun _ => ()) := by
    simp only [List.map_map]
    refine List.map_congr_left fun part _ => ?_
    cases part <;> rfl
  refine hm (bare.symm ▸ keeps) rfl fun child hc => ?_
  obtain ⟨part, hpart, hchild⟩ := List.mem_filterMap.1 hc
  rw [List.map_map] at hpart
  obtain ⟨old, hold, rfl⟩ := List.mem_map.1 hpart
  cases old with
  | source text => cases hchild
  | node e =>
    cases hchild
    exact below .part e (List.mem_map_of_mem (List.mem_filterMap.2 ⟨_, hold, rfl⟩))

theorem spread_respelled {l : Listing} {e : Shape} (ends : site.spreadEnds = l.ends)
    (below : ∀ inner child, (inner, child) ∈ (NodeKind.spread e).sites site → RereadAt inner child.respelled) :
    RereadItem true l (.node span ((NodeKind.spread e).map Shape.respelled).respelledText) := by
  have inner : Reread true site.spreadEnds e.respelled.text := below _ e (List.mem_singleton.2 rfl)
  rw [ends] at inner
  exact reread_spread inner

theorem attribute_respelled (takes : m.Takes .attr kind.bare)
    (below : ∀ inner child, (inner, child) ∈ kind.sites .attr → RereadAt inner child.respelled) :
    RereadAttribute true (.node span (kind.map Shape.respelled).respelledText) := by
  cases kind with
  | namedAttribute name value =>
    cases value with
    | none => exact reread_attribute_bare takes
    | some v => exact reread_attribute takes (below _ v (List.mem_singleton.2 rfl))
  | spreadAttribute e => exact reread_spreadAttribute (below _ e (List.mem_singleton.2 rfl))
  | _ => exact takes.elim

theorem value_respelled {name : String} (takes : m.Takes (.value name) kind.bare)
    (apart : kind.Apart Shape.isText)
    (below : ∀ inner child, (inner, child) ∈ kind.sites (.value name) → RereadAt inner child.respelled) :
    RereadValue true (.node span (kind.map Shape.respelled).respelledValue) := by
  cases kind with
  | literal value raw => exact reread_held takes.1
  | expressionContainer e =>
    cases e with
    | none => exact takes.1.elim
    | some e => exact reread_valueContainer (below _ e (List.mem_singleton.2 rfl))
  | element name as xs closed =>
    exact (markup_respelled (show (NodeKind.element name as xs closed).bare.Markup from takes.1) apart below).value rfl
  | fragment xs =>
    exact (markup_respelled (show (NodeKind.fragment xs).bare.Markup from takes.1) apart below).value rfl
  | _ => exact takes.1.elim

theorem child_respelled (takes : m.Takes .child kind.bare) (apart : kind.Apart Shape.isText)
    (below : ∀ inner child, (inner, child) ∈ kind.sites .child → RereadAt inner child.respelled) :
    RereadAt .child ⟨.node span (kind.map Shape.respelled).respelledText,
      .node span (kind.map Shape.respelled).respelledValue⟩ := by
  cases kind with
  | text value raw =>
    refine ⟨fun _ => rfl, fun hprint => reread_textSpelled takes fun hraw => hprint ?_⟩
    exact (Shape.print_text _ _ _).trans (by rw [hraw]; rfl)
  | expressionContainer e =>
    cases e with
    | none =>
      exact ⟨fun hprint => (nomatch (Shape.print_container_empty _).symm.trans hprint),
        fun _ => reread_container_empty⟩
    | some e =>
      exact ⟨fun hprint => (nomatch (Shape.print_container _ _).symm.trans hprint),
        fun _ => reread_container (below _ e (List.mem_singleton.2 rfl))⟩
  | element name as xs closed =>
    exact (markup_respelled (show (NodeKind.element name as xs closed).bare.Markup from takes) apart below).atChild
  | fragment xs =>
    exact (markup_respelled (show (NodeKind.fragment xs).bare.Markup from takes) apart below).atChild
  | _ => exact takes.elim

theorem property_respelled {key : PropertyKey Shape} {value : Shape} {shorthand : Bool}
    (takes : m.Takes .property (NodeKind.property key value shorthand).bare)
    (below : ∀ inner child, (inner, child) ∈ (NodeKind.property key value shorthand).sites .property →
      RereadAt inner child.respelled) :
    RereadItem true .object
      (.node span ((NodeKind.property key value shorthand).map Shape.respelled).respelledText) := by
  obtain ⟨spelled, plain⟩ := takes
  have hvalue : RereadAt (.ofValue key shorthand) value.respelled :=
    below _ value (List.mem_append_right _ (List.mem_singleton.2 rfl))
  cases shorthand with
  | true =>
    cases key with
    | identifier name =>
      obtain ⟨named, span', htext⟩ := hvalue
      change RereadItem true .object
        (.node span (.property (.identifier name) value.respelled.text true))
      rw [htext]
      exact reread_shorthand named
    | _ => nomatch plain rfl
  | false =>
    have hkey : RereadKey true (key.map Shape.respelled).respelled := by
      refine reread_keySpelled spelled.of_map ?_
      cases key with
      | computed e => exact List.forall_mem_singleton.2 (below _ e (List.mem_cons_self))
      | _ => exact List.forall_mem_nil _
    exact reread_property hkey (by cases key <;> exact hvalue)

end

end Printer

open Printer

/-- What is printed for a legible node is read as the node with its spelling, by induction on the node. -/
theorem Shape.Legible.rereads {m : Manner} (hm : RereadsKept m) {site : Site} {s : Shape}
    (h : s.Legible m site) : RereadAt site s.respelled := by
  induction h with
  | @node site span kind takes apart below ih =>
    have structured (hk : kind.bare.IsStructured) :
        RereadStructured true (.node span (kind.map Shape.respelled).respelledText) :=
      structured_respelled hk apart ih
    have markup (hk : kind.bare.Markup) :
        RereadMarkup true (.node span (kind.map Shape.respelled).respelledText) :=
      markup_respelled hk apart ih
    rw [Shape.respelled_node]
    cases site with
    | root =>
      cases kind with
      | program body =>
        refine ⟨span, _, rfl, fun e he => ?_⟩
        rw [List.map_map] at he
        obtain ⟨s, hs, rfl⟩ := List.mem_map.1 he
        exact ih .statement s (List.mem_map_of_mem hs)
      | _ => exact takes.elim
    | statement =>
      cases kind with
      | expressionStatement e => exact .mk (ih _ e (List.mem_singleton.2 rfl))
      | _ => exact takes.elim
    | expression ends =>
      cases kind with
      | opaqueText parts => exact kept_respelled hm takes.2 ih
      | _ => exact (structured takes.2).reread takes.1
    | structured =>
      cases kind with
      | opaqueText parts => exact takes.elim
      | _ => exact structured takes
    | named name =>
      cases kind with
      | identifier other => exact ⟨takes.2, span, by rw [takes.1]; rfl⟩
      | _ => exact takes.elim
    | attr => exact attribute_respelled takes ih
    | value name => exact value_respelled takes apart ih
    | child => exact child_respelled takes apart ih
    | property =>
      cases kind with
      | property key value shorthand => exact property_respelled takes ih
      | spread e => exact spread_respelled (l := .object) rfl ih
      | _ => exact takes.elim
    | item =>
      cases kind with
      | opaqueText parts => exact kept_respelled hm takes ih
      | spread e => exact spread_respelled (l := .array) rfl ih
      | _ => exact (structured takes).element
    | content =>
      cases kind with
      | opaqueText parts => exact kept_respelled hm takes ih
      | spread e => exact reread_contentSpread (ih _ e (List.mem_singleton.2 rfl))
      | _ => exact (structured takes).content
    | markup =>
      cases kind with
      | element | fragment => exact markup takes
      | _ => exact takes.elim
    | part =>
      cases kind with
      | element | fragment => exact ⟨markup takes.1, takes.2⟩
      | _ => exact takes.1.elim

theorem Tree.Legible.reparses {m : Manner} (hm : RereadsKept m) {t : Tree} (h : t.Legible m .root t.root) :
    ∃ u, parse t.code = .ok u ∧
      (u.shape u.root).erase true = (t.shape t.root).respelled.text.erase true := by
  obtain ⟨span, body, htext, hbody⟩ := h.shape.rereads hm
  rw [htext]
  refine parse_code_of_print ?_ hbody
  rw [← htext]
  exact (t.shape t.root).print_respelled.symm

end MarkupEditor
