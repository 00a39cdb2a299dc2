import MarkupEditor.Proofs.Printer.Rereading
import MarkupEditor.Proofs.Printer.Steps

set_option autoImplicit false

namespace MarkupEditor

open Text Lexer MarkupEditor.Parser

/-- The texts of an expression that is kept up to one of the marks, with the places of the markup inside it. -/
def KeptFrom (ends : List Punctuator) (parts : List (OpaquePart Unit)) (c d : Cursor) : Prop :=
  ∃ span found, Reads (.expression ends) c (.node (.node span (.opaqueText found))) d ∧
    d.endsAt ends = true ∧ found.map (·.map fun _ => ()) = parts

/-- Texts as a source keeps them. What stands in a list or among children begins with no dots. -/
def KeptInSource : Site → List (OpaquePart Unit) → Prop
  | .expression ends, parts => ends ⊆ closers ∧ ∃ c d, KeptFrom ends parts c d
  | .item, parts => ∃ c d token, c.sight?.bind (·.token) = some token ∧ token ≠ .punctuator .ellipsis ∧
    KeptFrom Listing.array.ends parts c d
  | .content, parts => ∃ c d, c.mark? .ellipsis = none ∧ KeptFrom [.closeBrace] parts c d
  | _, _ => False

/-- The manner of a source, in which every number has a spelling. -/
def Manner.source : Manner :=
  .plain KeptInSource

namespace Printer

variable {c d : Cursor} {ends : List Punctuator} {e : Shape}

def siteOf : Phrase → Site
  | .expression ends | .inner ends | .kept ends => .expression ends
  | .structured | .parenthesized _ => .structured
  | .items .object | .item .object .. | .property .. => .property
  | .items .array | .item .array .. => .item
  | .spreadOrExpression => .content
  | .attributes | .spreadAttribute | .namedAttribute => .attr
  | .children | .container => .child
  | .statements => .statement
  | .parts .. => .part
  | _ => .markup

def AnswersLegibly : Phrase → Answer → Prop
  | .key .., .key key => key.Spelled ∧ ∀ e ∈ key.children, e.Legible .source (.expression [.closeBracket])
  | .kept _, .node e => ∃ span found, e = .node span (.opaqueText found) ∧
    ∀ child ∈ found.filterMap (·.child?), child.Legible .source .part
  | .value, .node e => ∀ name, e.Legible .source (.value name)
  | .container, .node e => e.isText = false ∧ e.Legible .source .child
  | .children, .nodes es =>
    (∀ e ∈ es, e.Legible .source .child) ∧ es.IsChain fun x y => x.isText = true → y.isText = false
  | phrase, a => ∀ e ∈ a.shapes, e.Legible .source (siteOf phrase)

/-- Whether the marks that a phrase ends before are those that end expressions. -/
def Closes : Phrase → Prop
  | .expression ends | .inner ends => ends ⊆ closers
  | _ => True

theorem listing_closes (l : Listing) : l.ends ⊆ closers := by
  cases l <;> decide

theorem singleton_closes {mark : Punctuator} (h : mark ∈ closers) : [mark] ⊆ closers :=
  fun _ hm => List.mem_singleton.1 hm ▸ h

/-- Whether what follows a phrase ends it: no token goes on, or an expression is at an end. -/
def Settled : Phrase → Cursor → Prop
  | .structured, d | .key .., d => Still d.rest
  | .expression ends, d | .inner ends, d => d.endsAt ends = true
  | .item l .., d => d.endsAt l.ends = true
  | .property .., d => d.endsAt Listing.object.ends = true
  | .spreadOrExpression, d => d.endsAt [.closeBrace] = true
  | _, _ => True

theorem still_of_closers (h : d.endsAt ends = true) (hends : ends ⊆ closers) : Still d.rest := by
  have quiet : ∀ mark ∈ closers, Quiet mark.text.toList := by decide
  exact Cursor.still_of_endsAt h fun mark hm => quiet mark (hends hm)

theorem still_of_mark {mark : Punctuator} {s : Sight} (h : d.mark? mark = some s)
    (quiet : Quiet mark.text.toList) : Still d.rest :=
  Cursor.still_of_endsAt (Cursor.endsAt_of_mark h (List.mem_singleton.2 rfl)) fun mark' hm => by
    cases List.mem_singleton.1 hm
    exact quiet

theorem legible_leaf {m : Manner} {site : Site} {span : Option Span} {kind : NodeKind Shape}
    (takes : m.Takes site kind.bare) (h : kind.children = []) : (Shape.node span kind).Legible m site := by
  refine .node takes ?_ fun inner child hc => ?_
  · cases kind with
    | element name as xs closed =>
      rw [(List.append_eq_nil_iff.1 h).2]
      exact .nil
    | fragment xs =>
      cases h
      exact .nil
    | _ => trivial
  · have := NodeKind.child_of_site hc
    rw [h] at this
    cases this

theorem legible_token {s : Sight} {token : Token} {kind : NodeKind Shape} {span : Option Span}
    (seen : c.sight? = some s) (h : s.token = some token) (made : LeafOf token kind)
    (still : Still s.stop.rest) : (Shape.node span kind).Legible .source .structured := by
  obtain ⟨-, whole⟩ := Cursor.whole_of_sight seen h made.ne_punctuator still
  refine legible_leaf ?_ made.children
  cases made with
  | number read => exact Literal.Spelled.token whole (.number read)
  | plain made =>
    cases token with
    | keyword word => cases word <;> cases made <;> exact Literal.Spelled.token whole (.plain rfl)
    | string raw =>
      cases made
      exact Literal.Spelled.token whole (.plain rfl)
    | identifier name =>
      cases made
      exact whole
    | _ => cases made

theorem spelled_key {s : Sight} {token : Token} {key : PropertyKey Shape} (seen : c.sight? = some s)
    (h : s.token = some token) (made : KeyOf token key) (still : Still s.stop.rest) : key.Spelled := by
  obtain ⟨-, whole⟩ := Cursor.whole_of_sight seen h made.ne_punctuator still
  cases made with
  | number read => exact .token whole (.number read)
  | plain made =>
    cases token with
    | string raw =>
      cases made
      exact .token whole (.plain rfl)
    | identifier name =>
      cases made
      exact .identifier ⟨_, whole, rfl⟩
    | keyword word =>
      cases made
      exact .identifier ⟨_, whole, rfl⟩
    | _ => cases made

theorem legible_negative {s n : Sight} {raw : String} {value : Binary64} {span : Option Span}
    (seen : c.mark? .minus = some s) (next : s.stop.sight? = some n) (h : n.number? = some raw)
    (read : numberValue? raw.toList = some value) (still : Still n.stop.rest) :
    (Shape.node span (.literal (.number value.neg) (some (negativeSpelling s n)))).Legible
      .source .structured := by
  have hnumber : n.token = some (.number raw) := by
    unfold Sight.number? at h
    split at h
    · cases h
      assumption
    · cases h
  obtain ⟨htext, whole⟩ := Cursor.whole_of_sight next hnumber nofun still
  have spelling : negativeSpelling s n = String.ofList ('-' :: n.skipped ++ raw.toList) := by
    rw [negativeSpelling, Cursor.text_of_mark seen, ← htext]
    rfl
  rw [spelling]
  exact legible_leaf (Literal.Spelled.negative (blank_of_sight next) whole read) rfl

theorem legible_kept {m : Manner} {site : Site} {span : Option Span} {found : List (OpaquePart Shape)}
    (takes : m.Takes site (NodeKind.opaqueText found).bare)
    (parts : ∀ child ∈ found.filterMap (·.child?), child.Legible m .part) :
    (Shape.node span (.opaqueText found)).Legible m site := by
  refine .node takes trivial fun inner child hc => ?_
  obtain ⟨part, hpart, heq⟩ := List.mem_map.1 hc
  cases heq
  exact parts child hpart

theorem minus_of_dash (h : c.rest.head? = some '-') : ∃ s, c.mark? .minus = some s := by
  obtain ⟨rest, hrest⟩ := List.head?_eq_some_iff.1 h
  have across : c.Over ([] ++ Punctuator.minus.text.toList) (c.advance ['-'] rest) := ⟨hrest, rfl⟩
  obtain ⟨s, seen, -⟩ := Cursor.mark?_of_text .minus .nil trivial across
  exact ⟨s, seen⟩

theorem not_minus_of_attributes {a : Answer} (h : Reads .attributes c a d) : c.mark? .minus = none := by
  cases h with
  | attributesSlash seen | attributesGreater seen | attributesSpread seen =>
    exact Cursor.mark?_eq_none_of_mark seen (by decide)
  | attributesNamed seen named => exact not_mark_of_name ⟨seen, named⟩

theorem identifier_of_name {first : String} (h : ReadsName c first d) (follows : tagFollows c = true)
    (dash : d.mark? .minus = none) : (Token.identifier first).Whole := by
  obtain @⟨s, seen, named⟩ := h
  obtain ⟨token, htoken, hname⟩ := Option.bind_eq_some_iff.1 named
  obtain ⟨x, cs, -, hfirst⟩ := Cursor.sight?_first seen
  rw [htoken] at hfirst
  obtain ⟨begins, htext, -, rfl⟩ := Lexeme.name_spec hfirst (by rw [hname]; rfl)
  have whole := Lexeme.identifierToken_whole begins (identifierTail_cut (x := (identifierTail cs).1)
    (q := (identifierTail cs).2) (by rw [identifierTail_append]))
  have plain : s.stop.rest.head? ≠ some '-' := by
    intro h
    obtain ⟨t, minus⟩ := minus_of_dash h
    rw [dash] at minus
    cases minus
  rw [← htext, Lexeme.identifierToken_eq] at whole
  rw [Lexeme.identifierToken_name?] at hname
  rw [tagFollows, seen, Option.bind_some, htoken, Lexeme.identifierToken_eq] at follows
  simp only [if_neg plain] at follows
  cases hname
  cases hword : Keyword.ofText? (String.ofList s.text) with
  | none =>
    rw [hword] at whole
    exact whole
  | some word =>
    rw [hword] at follows
    cases follows

theorem opensTag_of_name {name : String} (h : ReadsElementName c name d) (follows : tagFollows c = true)
    (dash : d.mark? .minus = none) : ∃ first others, (Token.identifier first).Whole ∧
      EndsName others.toList ∧ name = first ++ others := by
  have ends {x : Char} {cs : List Char} (h : x = ':' ∨ x = '.') : EndsName (x :: cs) := by
    intro y hy
    cases hy
    rcases h with rfl | rfl <;> decide
  cases h with
  | @colon _ _ _ first second front colon back =>
    have whole := identifier_of_name front follows (Cursor.mark?_eq_none_of_mark colon (by decide))
    refine ⟨first, ":" ++ second, whole, ?_, String.append_assoc⟩
    rw [String.toList_append]
    exact ends (.inl rfl)
  | @dotted _ _ first others front plain rest =>
    cases rest with
    | done => exact ⟨first, "", identifier_of_name front follows dash, nofun, rfl⟩
    | @more _ _ _ _ part others dot =>
      have whole := identifier_of_name front follows (Cursor.mark?_eq_none_of_mark dot (by decide))
      refine ⟨first, "." ++ part ++ others, whole, ?_, rfl⟩
      rw [String.toList_append, String.toList_append]
      exact ends (.inr rfl)

theorem opensTag_of_reads {s : Sight} (h : Reads .markup c (.node e) d) (less : c.mark? .less = some s)
    (follows : tagFollows s.stop = true) : e.OpensTag := by
  cases h with
  | markup read =>
    cases read with
    | fragment => trivial
    | selfClosing less' _ read found =>
      cases less.symm.trans less'
      exact opensTag_of_name read follows (not_minus_of_attributes found)
    | tag less' _ read found =>
      cases less.symm.trans less'
      exact opensTag_of_name read follows (not_minus_of_attributes found)

theorem expression_cases {m : Manner} (h : e.Legible m (.expression ends)) :
    e.Legible m .structured ∨ ∃ span found, e = .node span (.opaqueText found) ∧
      m.keeps (.expression ends) (found.map (·.map fun _ => ())) ∧
      ∀ child ∈ found.filterMap (·.child?), child.Legible m .part := by
  cases h with
  | @node _ span kind takes apart below =>
    cases kind with
    | opaqueText found =>
      exact .inr ⟨span, found, rfl, takes.2, fun child hc => below _ child (List.mem_map_of_mem hc)⟩
    | program | expressionStatement | text | expressionContainer | namedAttribute | spreadAttribute | property
      | spread => exact takes.2.elim
    | _ => exact .inl (.node takes.2 apart below)

theorem legible_item {token : Token} (read : Reads (.expression Listing.array.ends) c (.node e) d)
    (ended : d.endsAt Listing.array.ends = true) (seen : c.sight?.bind (·.token) = some token)
    (plain : token ≠ .punctuator .ellipsis) (h : e.Legible .source (.expression Listing.array.ends)) :
    e.Legible .source .item := by
  obtain h | ⟨span, found, rfl, -, parts⟩ := expression_cases h
  · exact h.item
  · exact legible_kept ⟨c, d, token, seen, plain, span, found, read, ended, rfl⟩ parts

theorem legible_content (read : Reads (.expression [.closeBrace]) c (.node e) d)
    (ended : d.endsAt [.closeBrace] = true) (plain : c.mark? .ellipsis = none)
    (h : e.Legible .source (.expression [.closeBrace])) : e.Legible .source .content := by
  obtain h | ⟨span, found, rfl, -, parts⟩ := expression_cases h
  · exact h.content
  · exact legible_kept ⟨c, d, plain, span, found, read, ended, rfl⟩ parts

theorem legible_around {m : Manner} {site inner : Site} {span : Option Span} {kind : NodeKind Shape}
    (takes : m.Takes site kind.bare) (apart : kind.Apart Shape.isText) {shapes : List Shape}
    (sites : kind.sites site = shapes.map (inner, ·)) (h : ∀ e ∈ shapes, e.Legible m inner) :
    (Shape.node span kind).Legible m site := by
  refine .node takes apart fun inner' child hc => ?_
  rw [sites] at hc
  obtain ⟨e, he, heq⟩ := List.mem_map.1 hc
  cases heq
  exact h child he

theorem legible_one {m : Manner} {site inner : Site} {span : Option Span} {kind : NodeKind Shape}
    (takes : m.Takes site kind.bare) (apart : kind.Apart Shape.isText) (sites : kind.sites site = [(inner, e)])
    (h : e.Legible m inner) : (Shape.node span kind).Legible m site :=
  legible_around takes apart (show kind.sites site = [e].map (inner, ·) from sites) (List.forall_mem_singleton.2 h)

theorem legible_closed {mark : Punctuator} {s : Sight} (closing : d.mark? mark = some s) (among : mark ∈ closers)
    (read : True → [mark] ⊆ closers → d.endsAt [mark] = true →
      ∀ x ∈ [e], x.Legible .source (.expression [mark])) :
    e.Legible .source (.expression [mark]) :=
  read trivial (singleton_closes among) (Cursor.endsAt_of_mark closing (List.mem_singleton.2 rfl)) e
    (List.mem_singleton.2 rfl)

theorem legible_keptExpression {span : Option Span} {found : List (OpaquePart Shape)}
    (read : Reads (.expression ends) c (.node (.node span (.opaqueText found))) d) (closes : ends ⊆ closers)
    (ended : d.endsAt ends = true) (parts : ∀ child ∈ found.filterMap (·.child?), child.Legible .source .part) :
    (Shape.node span (.opaqueText found)).Legible .source (.expression ends) :=
  legible_kept ⟨closes, closes, c, d, span, found, read, ended, rfl⟩ parts

theorem legible_property {span : Option Span} {key : PropertyKey Shape} (spelled : key.Spelled)
    (computed : ∀ e ∈ key.children, e.Legible .source (.expression [.closeBracket]))
    (value : e.Legible .source (.expression Listing.object.ends)) :
    (Shape.node span (.property key e false)).Legible .source .property := by
  refine .node ⟨spelled.map _, nofun⟩ trivial fun inner child hc => ?_
  obtain hc | hc := List.mem_append.1 hc
  · obtain ⟨k, hk, heq⟩ := List.mem_map.1 hc
    cases heq
    exact computed child hk
  · cases List.mem_singleton.1 hc
    cases key <;> exact value

theorem legible_shorthand {span span' : Option Span} {name : String}
    (spelled : (PropertyKey.identifier name : PropertyKey Shape).Spelled) :
    (Shape.node span (.property (.identifier name) (.node span' (.identifier name)) true)).Legible
      .source .property := by
  cases spelled with
  | identifier named =>
    exact legible_one ⟨.identifier named, fun _ => ⟨name, rfl⟩⟩ trivial rfl (legible_leaf ⟨rfl, named⟩ rfl)

theorem legible_element {span : Option Span} {name : String} {found inside : List Shape} {closed : Bool}
    (takes : Manner.source.Takes .markup (NodeKind.element name found inside closed).bare)
    (attributes : ∀ e ∈ found, e.Legible .source .attr)
    (children : (∀ e ∈ inside, e.Legible .source .child) ∧
      inside.IsChain fun x y => x.isText = true → y.isText = false) :
    (Shape.node span (.element name found inside closed)).Legible .source .markup := by
  refine .node takes children.2 fun inner child hc => ?_
  obtain hc | hc := List.mem_append.1 hc
  · obtain ⟨a, ha, heq⟩ := List.mem_map.1 hc
    cases heq
    exact attributes child ha
  · obtain ⟨x, hx, heq⟩ := List.mem_map.1 hc
    cases heq
    exact children.1 child hx

theorem legible_quoted {quote close : Char} {body rest : List Char} {name : String} {span : Option Span}
    (quoted : quote = '"' ∨ quote = '\'') (closed : body.dropWhile (· != quote) = close :: rest) :
    (Shape.node span (.literal (.string (String.ofList (decodeReferences (body.takeWhile (· != quote)))))
      (some (String.ofList (quote :: body.takeWhile (· != quote) ++ [close]))))).Legible
      .source (.value name) := by
  have hclose : close = quote := by
    have := List.head?_dropWhile_not (· != quote) body
    rw [closed] at this
    simpa using this
  have clean : quote ∉ body.takeWhile (· != quote) := by
    intro h
    have := List.mem_takeWhile_imp h
    simp at this
  rw [hclose]
  exact legible_leaf ⟨.quoted quoted clean, nofun⟩ rfl

theorem answers_text {front : List Shape} (h : ReadsText c front d) :
    (∀ e ∈ front, e.Legible .source .child) ∧ front.length ≤ 1 := by
  cases h with
  | empty => exact ⟨List.forall_mem_nil _, Nat.zero_le _⟩
  | text filled clean stop =>
    refine ⟨List.forall_mem_singleton.2 (legible_leaf ⟨?_, ?_, ?_⟩ rfl), Nat.le_refl _⟩
    · exact fun hnil => filled (String.ofList_eq_empty_iff.1 hnil)
    · intro x hx
      rw [String.toList_ofList] at hx
      have inside := List.mem_takeWhile_imp hx
      have plain := clean x hx
      rw [textReference?] at plain
      by_cases hgreater : x = '>' <;> by_cases hbrace : x = '}' <;> simp_all
    · rw [String.toList_ofList]

theorem answers_last {front : List Shape} (h : ReadsText c front d) :
    (∀ e ∈ front, e.Legible .source .child) ∧ front.IsChain fun x y => x.isText = true → y.isText = false := by
  obtain ⟨legible, length⟩ := answers_text h
  refine ⟨legible, ?_⟩
  cases front with
  | nil => exact .nil
  | cons t front =>
    cases front with
    | nil => exact .singleton t
    | cons t' front => simp at length

theorem answers_children {front others : List Shape} (h : ReadsText c front d) (plain : e.isText = false)
    (legible : e.Legible .source .child) (more : (∀ e ∈ others, e.Legible .source .child) ∧
      others.IsChain fun x y => x.isText = true → y.isText = false) :
    (∀ x ∈ front ++ e :: others, x.Legible .source .child) ∧
      (front ++ e :: others).IsChain fun x y => x.isText = true → y.isText = false := by
  obtain ⟨hfront, hlength⟩ := answers_text h
  have rest : (e :: others).IsChain fun x y => x.isText = true → y.isText = false := by
    refine List.IsChain.cons more.2 fun y _ htext => ?_
    rw [plain] at htext
    cases htext
  refine ⟨List.forall_mem_append.2 ⟨hfront, List.forall_mem_cons.2 ⟨legible, more.1⟩⟩, ?_⟩
  cases front with
  | nil => exact rest
  | cons t front =>
    cases front with
    | nil => exact List.isChain_cons_cons.2 ⟨fun _ => plain, rest⟩
    | cons t' front => simp at hlength

end Printer

open Printer

theorem Parser.Reads.legible {c d : Cursor} {phrase : Phrase} {a : Answer} (h : Reads phrase c a d)
    (ready : phrase.Ready c) (closes : Closes phrase) (settled : Settled phrase d) :
    AnswersLegibly phrase a := by
  induction h with
  | @structuredExpression ends c d e attempt ended ih =>
    have inside := ih trivial trivial (still_of_closers ended closes)
    exact List.forall_mem_singleton.2 ((inside e (List.mem_singleton.2 rfl)).expression closes)
  | @keptOther ends c d f e attempt kept _ ih =>
    obtain ⟨span, found, rfl, parts⟩ := ih trivial trivial trivial
    exact List.forall_mem_singleton.2 (legible_keptExpression (.keptOther attempt kept) closes settled parts)
  | @keptUnended ends c d f e e' attempt going kept _ ih =>
    obtain ⟨span, found, rfl, parts⟩ := ih trivial trivial trivial
    exact List.forall_mem_singleton.2 (legible_keptExpression (.keptUnended attempt going kept) closes settled parts)
  | innerSome going read ih => exact ih trivial closes settled
  | leaf seen h made => exact List.forall_mem_singleton.2 (legible_token seen h made settled)
  | negative seen next h read =>
    exact List.forall_mem_singleton.2 (legible_negative seen next h read settled)
  | structuredMarkup seen read ih =>
    exact fun e he => (ih trivial trivial trivial e he).structured
  | structuredParenthesized seen read ih =>
    exact ih (Cursor.mark?_eq_some.1 seen).1 trivial trivial
  | @listing c d s mark l found seen opens read ih =>
    have inside := ih trivial trivial trivial
    cases l <;> exact List.forall_mem_singleton.2 (legible_around trivial trivial rfl inside)
  | parenthesized read closing ih =>
    have inside := legible_closed closing (by decide) ih
    exact List.forall_mem_singleton.2 (legible_one trivial trivial rfl inside)
  | itemsEnd h => exact List.forall_mem_nil _
  | @itemsCons l c d f g s token e others seen h going read separated more ih ih' =>
    have ended : d.separator? l.closing ≠ none := by
      rw [separated]
      exact Option.some_ne_none f
    have first := ih ⟨seen, h⟩ trivial (endsAt_of_separator (Option.isSome_iff_ne_none.2 ended))
    have rest := ih' trivial trivial trivial
    cases l <;> exact List.forall_mem_cons.2 ⟨List.forall_mem_singleton.1 first, rest⟩
  | @spread l c d s e read ih =>
    have inside := ih trivial (listing_closes l) settled e (List.mem_singleton.2 rfl)
    cases l <;> exact List.forall_mem_singleton.2 (legible_one trivial trivial rfl inside)
  | @element c d s token a h read ih =>
    have inside := ih trivial (listing_closes .array) settled
    cases read with
    | innerNone => exact List.forall_mem_nil _
    | @innerSome _ _ _ e going read =>
      have begins : c.sight?.bind (·.token) = some token := by rw [ready.1, Option.bind_some, ready.2]
      exact List.forall_mem_singleton.2
        (legible_item read settled begins h (inside e (List.mem_singleton.2 rfl)))
  | itemProperty h read ih => exact ih ready trivial settled
  | @property c d f s t token k e key colon read ih ih' =>
    obtain ⟨spelled, computed⟩ := ih ready trivial (still_of_mark colon (by decide))
    have value := ih' trivial (listing_closes .object) settled e (List.mem_singleton.2 rfl)
    exact List.forall_mem_singleton.2 (legible_property spelled computed value)
  | @shorthand c d s token name key plain ended ih =>
    have still := still_of_closers (endsAt_of_separator (l := .object) ended) (listing_closes .object)
    exact List.forall_mem_singleton.2 (legible_shorthand (ih ready trivial still).1)
  | key made =>
    refine ⟨spelled_key ready.1 ready.2 made settled, ?_⟩
    rw [made.children]
    exact List.forall_mem_nil _
  | @computed c d s t e read closing ih =>
    have inside := legible_closed closing (by decide) ih
    exact ⟨.computed e, List.forall_mem_singleton.2 inside⟩
  | @kept ends c d s found seen read h ih => exact ⟨_, found, rfl, ih trivial trivial trivial⟩
  | partsEnd h =>
    change ∀ e ∈ List.filterMap _ _, _
    rw [sourcePart_children]
    exact List.forall_mem_nil _
  | partsStop seen h =>
    change ∀ e ∈ List.filterMap _ _, _
    rw [sourcePart_children]
    exact List.forall_mem_nil _
  | partsTake seen h read ih => exact ih trivial trivial trivial
  | @partsMarkup ends opened before text c d f s e others seen h read more ih ih' =>
    obtain ⟨token, -, follows⟩ := tag_of_markup h
    have opens := opensTag_of_reads read (Cursor.mark?_eq_some.2 ⟨seen, token⟩) follows
    have first := (ih trivial trivial trivial e (List.mem_singleton.2 rfl)).part opens
    have rest := ih' trivial trivial trivial
    change ∀ e ∈ List.filterMap _ _, _
    rw [List.filterMap_append, sourcePart_children, List.nil_append]
    exact List.forall_mem_cons.2 ⟨first, rest⟩
  | markup read ih => exact ih trivial trivial trivial
  | fragment less greater read close ih =>
    obtain ⟨inside, apart⟩ := ih trivial trivial trivial
    exact List.forall_mem_singleton.2 (legible_around trivial apart rfl inside)
  | selfClosing less named read found ih =>
    exact List.forall_mem_singleton.2 (legible_element (isElementName_of_reads read) (ih trivial trivial trivial)
      ⟨List.forall_mem_nil _, .nil⟩)
  | tag less named read found inside close ih ih' =>
    exact List.forall_mem_singleton.2 (legible_element (isElementName_of_reads read) (ih trivial trivial trivial)
      (ih' trivial trivial trivial))
  | attributesSlash slash greater => exact List.forall_mem_nil _
  | attributesGreater greater => exact List.forall_mem_nil _
  | attributesSpread seen read more ih ih' =>
    have first := ih trivial trivial trivial
    have rest := ih' trivial trivial trivial
    exact List.forall_mem_cons.2 ⟨List.forall_mem_singleton.1 first, rest⟩
  | attributesNamed seen named read more ih ih' =>
    have first := ih trivial trivial trivial
    have rest := ih' trivial trivial trivial
    exact List.forall_mem_cons.2 ⟨List.forall_mem_singleton.1 first, rest⟩
  | spreadAttribute opening ellipsis read closing ih =>
    have inside := legible_closed closing (by decide) ih
    exact List.forall_mem_singleton.2 (legible_one trivial trivial rfl inside)
  | @namedValue c d f s name e named equals read ih =>
    have value : ∀ name, e.Legible .source (.value name) := ih trivial trivial trivial
    exact List.forall_mem_singleton.2
      (legible_one (isAttributeName_of_reads named) trivial rfl (value name))
  | namedBare named plain =>
    exact List.forall_mem_singleton.2 (legible_leaf (isAttributeName_of_reads named) rfl)
  | valueString h quoted closed stop => exact fun name => legible_quoted quoted closed
  | valueContainer h opening filled read closing ih =>
    have inside := legible_closed closing (by decide) ih
    exact fun name => legible_one nofun trivial rfl inside
  | @valueMarkup c d e rest h read ih =>
    have inside := ih trivial trivial trivial e (List.mem_singleton.2 rfl)
    exact fun name => inside.value fun kind markup value => by rintro rfl; exact markup
  | childrenEnd text h closing => exact answers_last text
  | @childrenContainer c d f g front others e rest text h read more ih ih' =>
    obtain ⟨plain, first⟩ := ih trivial trivial trivial
    exact answers_children text plain first (ih' trivial trivial trivial)
  | @childrenMarkup c d f g front others e rest text h opening read more ih ih' =>
    have first := ih trivial trivial trivial e (List.mem_singleton.2 rfl)
    exact answers_children text first.not_isText first.child (ih' trivial trivial trivial)
  | containerEmpty opening closing => exact ⟨rfl, legible_leaf trivial rfl⟩
  | @container c d s t e opening filled read closing ih =>
    have ended := Cursor.endsAt_of_mark closing (List.mem_singleton.2 rfl)
    have inside := ih trivial trivial ended e (List.mem_singleton.2 rfl)
    exact ⟨rfl, legible_one trivial trivial rfl inside⟩
  | @containerSpread c d s e ellipsis read ih =>
    have inside := ih trivial (singleton_closes (by decide)) settled e (List.mem_singleton.2 rfl)
    exact List.forall_mem_singleton.2 (legible_one trivial trivial rfl inside)
  | @containerExpression c d e plain read ih =>
    have inside := ih trivial (singleton_closes (by decide)) settled e (List.mem_singleton.2 rfl)
    exact List.forall_mem_singleton.2 (legible_content read settled plain inside)
  | statementsEnd h => exact List.forall_mem_nil _
  | semicolon h more ih => exact ih trivial trivial trivial
  | @statement c d f s e others seen h read more ih ih' =>
    have ended := endsAt_of_statement read more
    have inside := ih trivial (singleton_closes (by decide)) ended e (List.mem_singleton.2 rfl)
    exact List.forall_mem_cons.2
      ⟨legible_one trivial trivial rfl inside, ih' trivial trivial trivial⟩
  | _ => exact List.forall_mem_nil _

theorem parse_legible {source : String} {t : Tree} (h : parse source = .ok t) :
    t.Legible .source .root t.root := by
  obtain ⟨ht, -, body, d, read, hshape⟩ := parseWith_reads h
  refine (ht.grounded t.root).legible ?_
  rw [hshape]
  exact legible_around trivial trivial rfl (read.legible trivial trivial trivial)

end MarkupEditor
