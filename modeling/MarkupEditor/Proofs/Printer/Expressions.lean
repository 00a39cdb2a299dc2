import MarkupEditor.Proofs.Markup.Erasure
import MarkupEditor.Proofs.Printer.Sights
import MarkupEditor.Proofs.Text.Escapes

set_option autoImplicit false

namespace MarkupEditor

open Text Lexer MarkupEditor.Parser

variable {spellings : Bool}

/-- Two nested forms agree, in their source spellings too if those count. -/
abbrev Same (spellings : Bool) (a b : Shape) : Prop :=
  a.erase spellings = b.erase spellings

/-- The marks that end an expression. -/
def closers : List Punctuator :=
  [.semicolon, .comma, .closeBrace, .closeParen, .closeBracket]

theorem Same.node {kind kind' : NodeKind Shape} {span span' : Option Span}
    (h : (kind.map (Shape.erase spellings)).erase spellings =
      (kind'.map (Shape.erase spellings)).erase spellings) :
    Same spellings (.node span kind) (.node span' kind') := by
  rw [Same, Shape.erase_node, Shape.erase_node, h]

theorem Cursor.closing_of_text {c d : Cursor} (mark : Punctuator) (hm : mark ∈ closers)
    (across : c.Over mark.text.toList d) :
    Quiet c.rest ∧ ∃ s, c.mark? mark = some s ∧ s.stop = d := by
  simp only [closers, List.mem_cons, List.not_mem_nil, or_false] at hm
  rcases hm with rfl | rfl | rfl | rfl | rfl <;>
    exact ⟨across.1 ▸ .cons (by decide), mark?_of_text _ .nil trivial across⟩

namespace Printer

/-- The marks that begin no structured expression and none of its items. -/
def outer : List Punctuator :=
  .ellipsis :: closers

/-- What is printed for an expression is read as a structured expression that agrees with it. -/
def RereadStructured (spellings : Bool) (e : Shape) : Prop :=
  ∀ ⦃gap : List Char⦄ ⦃c d : Cursor⦄, Blank gap → Quiet d.rest → c.Over (gap ++ e.print) d →
    ∃ s token e', c.sight? = some s ∧ s.token = some token ∧ token.isOneOf outer = false ∧
      Reads .structured c (.node e') d ∧ Same spellings e' e

/-- What is printed for an expression is read as one that agrees with it before the given marks. -/
def Reread (spellings : Bool) (ends : List Punctuator) (e : Shape) : Prop :=
  ∀ ⦃gap : List Char⦄ ⦃c d : Cursor⦄, Blank gap → Quiet d.rest → d.endsAt ends = true →
    c.Over (gap ++ e.print) d →
    c.endsAt ends = false ∧ ∃ e', Reads (.expression ends) c (.node e') d ∧ Same spellings e' e

def RereadItem (spellings : Bool) (l : Listing) (e : Shape) : Prop :=
  ∀ ⦃gap : List Char⦄ ⦃c d : Cursor⦄, Blank gap → Quiet d.rest →
    (d.separator? l.closing).isSome = true → c.Over (gap ++ e.print) d →
    ∃ s token e', c.sight? = some s ∧ s.token = some token ∧ token ≠ .punctuator l.closing ∧
      Reads (.item l s token) c (.node e') d ∧ Same spellings e' e

def RereadKey (spellings : Bool) (key : PropertyKey Shape) : Prop :=
  ∀ ⦃gap : List Char⦄ ⦃c d : Cursor⦄, Blank gap → Quiet d.rest →
    c.Over (gap ++ (key.map Shape.spelling).printed) d →
    ∃ s token key', c.sight? = some s ∧ s.token = some token ∧ token.isOneOf outer = false ∧
      Reads (.key s token) c (.key key') d ∧
      (key'.map (Shape.erase spellings)).erase spellings = (key.map (Shape.erase spellings)).erase spellings

section

variable {e : Shape} {ends : List Punctuator}

theorem isOneOf_mono {token : Token} {marks marks' : List Punctuator} (h : marks ⊆ marks')
    (ht : token.isOneOf marks' = false) : token.isOneOf marks = false := by
  cases token with
  | punctuator mark =>
    simp only [Token.isOneOf, List.contains_iff_mem, ← Bool.not_eq_true] at *
    exact fun hm => ht (h hm)
  | _ => rfl

theorem RereadStructured.reread (h : RereadStructured spellings e) (hends : ends ⊆ closers) :
    Reread spellings ends e := by
  intro gap c d blank quiet ended across
  obtain ⟨s, token, e', seen, htoken, opens, read, same⟩ := h blank quiet across
  have houter : ends ⊆ outer := fun m hm => List.mem_cons_of_mem _ (hends hm)
  refine ⟨Cursor.endsAt_eq_false seen htoken (isOneOf_mono houter opens), e', ?_, same⟩
  exact .structuredExpression read ended

theorem Reread.inner (h : Reread spellings ends e) {gap : List Char} {c d : Cursor} (blank : Blank gap)
    (quiet : Quiet d.rest) (ended : d.endsAt ends = true) (across : c.Over (gap ++ e.print) d) :
    ∃ e', Reads (.inner ends) c (.node e') d ∧ Same spellings e' e := by
  obtain ⟨going, e', read, same⟩ := h blank quiet ended across
  exact ⟨e', .innerSome going read, same⟩

theorem structured_of_token {token : Token} {kind : NodeKind Shape} (whole : token.Whole)
    (made : LeafOf token kind) (printed : e.print = token.text.toList)
    (same : ∀ span, Same spellings (.node span kind) e) : RereadStructured spellings e := by
  intro gap c d blank quiet across
  rw [printed] at across
  obtain ⟨s, seen, htoken, -, -, rfl⟩ := Cursor.sight?_of_token whole blank quiet across
  refine ⟨s, token, _, seen, htoken, ?_, .leaf seen htoken made, same _⟩
  cases made with
  | number => rfl
  | plain h => cases token <;> first | rfl | cases h

theorem structured_identifier {name : String} {span : Option Span}
    (whole : (Token.identifier name).Whole) :
    RereadStructured spellings (.node span (.identifier name)) :=
  structured_of_token whole (.plain rfl) (Shape.print_node _ _) fun _ => .node rfl

/-- A literal whose spelling is one token. The spelling read has to be the one it came with, if
spellings count. -/
theorem structured_literal (token : Token) {value : Literal} {raw raw' : Option String}
    {span : Option Span} (whole : token.Whole) (made : LeafOf token (.literal value raw'))
    (printed : value.spelling raw = token.text.toList)
    (same : raw'.filter (fun _ => spellings) = raw.filter fun _ => spellings) :
    RereadStructured spellings (.node span (.literal value raw)) := by
  refine structured_of_token whole made ((Shape.print_node _ _).trans printed) fun span' => .node ?_
  simp only [NodeKind.map, NodeKind.erase, same]

theorem structured_parenthesized {span : Option Span} (h : Reread spellings [.closeParen] e) :
    RereadStructured spellings (.node span (.parenthesized e)) := by
  intro gap c d blank quiet across
  have hprint : (Shape.node span (.parenthesized e)).print = ['('] ++ (e.print ++ [')']) :=
    Shape.print_node _ _
  rw [hprint, ← List.append_assoc] at across
  obtain ⟨c₁, before, across⟩ := across.split
  obtain ⟨c₂, inside, after⟩ := across.split
  obtain ⟨s, opening, rfl⟩ := Cursor.mark?_of_text .openParen blank trivial before
  obtain ⟨hquiet, t, closing, rfl⟩ := Cursor.closing_of_text .closeParen (by decide) after
  have ended := Cursor.endsAt_of_mark closing (List.mem_singleton.2 rfl)
  obtain ⟨e', read, same⟩ := h.inner .nil hquiet ended inside
  obtain ⟨seen, token⟩ := Cursor.mark?_eq_some.1 opening
  refine ⟨s, _, _, seen, token, rfl, .structuredParenthesized opening (.parenthesized read closing),
    .node ?_⟩
  simp only [NodeKind.map, NodeKind.erase, same]

theorem reread_items {l : Listing} {m : Cursor} {t : Sight} (closing : m.mark? l.closing = some t)
    (quiet : Quiet m.rest) (e : Shape) (es : List Shape)
    (h : ∀ x ∈ e :: es, RereadItem spellings l x) {gap : List Char} {c : Cursor} (blank : Blank gap)
    (across : c.Over (gap ++ separate [',', ' '] ((e :: es).map Shape.print)) m) :
    ∃ found, Reads (.items l) c (.nodes found) t.stop ∧
      found.map (Shape.erase spellings) = (e :: es).map (Shape.erase spellings) := by
  have hne : l.closing ≠ .comma := by cases l <;> decide
  induction es generalizing e gap c with
  | nil =>
    have separated := Cursor.separator?_closing closing hne
    obtain ⟨s, token, e', seen, htoken, going, read, same⟩ :=
      h e List.mem_cons_self blank quiet (by rw [separated]; rfl) across
    exact ⟨[e'], .itemsCons seen htoken going read separated (.itemsEnd closing), by simp [same]⟩
  | cons e₂ es ih =>
    simp only [List.map_cons, separate, List.append_assoc] at across
    rw [← List.append_assoc] at across
    obtain ⟨d, first, across⟩ := across.split
    change d.Over ([','] ++ ([' '] ++ _)) m at across
    obtain ⟨f, comma, others⟩ := across.split
    obtain ⟨hquiet, u, hcomma, rfl⟩ := Cursor.closing_of_text .comma (by decide) comma
    have separated := Cursor.separator?_comma l.closing hcomma
    obtain ⟨s, token, e', seen, htoken, going, read, same⟩ :=
      h e List.mem_cons_self blank hquiet (by rw [separated]; rfl) first
    obtain ⟨found, more, agree⟩ :=
      ih e₂ (fun x hx => h x (List.mem_cons_of_mem e hx)) (.one (by decide)) others
    refine ⟨e' :: found, .itemsCons seen htoken going read separated more, ?_⟩
    rw [List.map_cons, List.map_cons, agree, same]

theorem structured_listing (mark : Punctuator) {span : Option Span} {es : List Shape} {l : Listing}
    {gap : List Char} {c d m : Cursor} {t : Sight} (opens : Listing.opened? mark = some l)
    (blank : Blank gap) (before : c.Over (gap ++ mark.text.toList) d) (quiet : Quiet m.rest)
    (closing : m.mark? l.closing = some t)
    (inside : es = [] ∧ d = m ∨ ∃ e rest gap, es = e :: rest ∧ Blank gap ∧
      d.Over (gap ++ separate [',', ' '] (es.map Shape.print)) m)
    (h : ∀ x ∈ es, RereadItem spellings l x) :
    ∃ s token e', c.sight? = some s ∧ s.token = some token ∧ token.isOneOf outer = false ∧
      Reads .structured c (.node e') t.stop ∧ Same spellings e' (.node span (l.kind es)) := by
  have clear : mark.Clear d.rest ∧ (Token.punctuator mark).isOneOf outer = false := by
    cases mark <;> first | exact ⟨trivial, rfl⟩ | cases opens
  obtain ⟨s, opening, rfl⟩ := Cursor.mark?_of_text mark blank clear.1 before
  obtain ⟨seen, token⟩ := Cursor.mark?_eq_some.1 opening
  have read : ∃ found, Reads (.items l) s.stop (.nodes found) t.stop ∧
      found.map (Shape.erase spellings) = es.map (Shape.erase spellings) := by
    obtain ⟨rfl, hm⟩ | ⟨e, rest, gap, rfl, blank, inside⟩ := inside
    · rw [hm]
      exact ⟨[], .itemsEnd closing, rfl⟩
    · exact reread_items closing quiet e rest h blank inside
  obtain ⟨found, read, agree⟩ := read
  refine ⟨s, _, _, seen, token, clear.2, .listing opening opens read, .node ?_⟩
  cases l <;> simp only [Listing.kind, NodeKind.map, NodeKind.erase, agree]

theorem structured_array {span : Option Span} {es : List Shape}
    (h : ∀ x ∈ es, RereadItem spellings .array x) : RereadStructured spellings (.node span (.array es)) := by
  intro gap c d blank quiet across
  rw [Shape.print_array, ← List.append_assoc] at across
  obtain ⟨c₁, before, across⟩ := across.split
  obtain ⟨c₂, inside, after⟩ := across.split
  obtain ⟨hquiet, t, closing, rfl⟩ := Cursor.closing_of_text .closeBracket (by decide) after
  refine structured_listing .openBracket (l := .array) rfl blank before hquiet closing ?_ h
  cases es with
  | nil => exact .inl ⟨rfl, inside.nil.symm⟩
  | cons e rest => exact .inr ⟨e, rest, [], rfl, .nil, inside⟩

theorem structured_object {span : Option Span} {es : List Shape}
    (h : ∀ x ∈ es, RereadItem spellings .object x) : RereadStructured spellings (.node span (.object es)) := by
  intro gap c d blank quiet across
  cases es with
  | nil =>
    rw [Shape.print_object_nil, ← List.append_assoc] at across
    obtain ⟨c₁, before, after⟩ := across.split
    obtain ⟨hquiet, t, closing, rfl⟩ := Cursor.closing_of_text .closeBrace (by decide) after
    exact structured_listing .openBrace (l := .object) rfl blank before hquiet closing (.inl ⟨rfl, rfl⟩) h
  | cons e rest =>
    rw [Shape.print_object_cons, ← List.append_assoc] at across
    obtain ⟨c₁, before, across⟩ := across.split
    obtain ⟨c₂, inside, after⟩ := across.split
    have one : Blank [' '] := .one (by decide)
    obtain ⟨t, closing, rfl⟩ := Cursor.mark?_of_text .closeBrace one trivial after
    have hquiet : Quiet c₂.rest := after.1 ▸ .cons (by decide)
    exact structured_listing .openBrace (l := .object) rfl blank before hquiet closing
      (.inr ⟨e, rest, [' '], rfl, one, inside⟩) h

theorem ne_of_isOneOf {token : Token} {mark : Punctuator} (h : token.isOneOf outer = false)
    (hm : mark ∈ outer) : token ≠ .punctuator mark := by
  rintro rfl
  simp only [Token.isOneOf, ← Bool.not_eq_true, List.contains_iff_mem] at h
  exact h hm

theorem endsAt_of_separator {c : Cursor} {l : Listing} (h : (c.separator? l.closing).isSome = true) :
    c.endsAt l.ends = true := by
  obtain ⟨mark, s, hmark, rfl | rfl⟩ := Cursor.mark_of_separator h
  · exact Cursor.endsAt_of_mark hmark List.mem_cons_self
  · exact Cursor.endsAt_of_mark hmark (by simp [Listing.ends])

theorem closing_mem (l : Listing) : l.closing ∈ outer := by
  cases l <;> decide

theorem RereadStructured.element (h : RereadStructured spellings e) : RereadItem spellings .array e := by
  intro gap c d blank quiet separated across
  have ended := endsAt_of_separator separated
  obtain ⟨s, token, e', seen, htoken, opens, read, same⟩ := h blank quiet across
  have going : c.endsAt Listing.array.ends = false :=
    Cursor.endsAt_eq_false seen htoken (isOneOf_mono (by decide) opens)
  refine ⟨s, token, e', seen, htoken, ne_of_isOneOf opens (by decide), ?_, same⟩
  exact .element (ne_of_isOneOf opens (by decide))
    (.innerSome going (.structuredExpression read ended))

theorem reread_spread {span : Option Span} {l : Listing} (h : Reread spellings l.ends e) :
    RereadItem spellings l (.node span (.spread e)) := by
  intro gap c d blank quiet separated across
  rw [Shape.print_spread, ← List.append_assoc] at across
  obtain ⟨c₁, before, inside⟩ := across.split
  obtain ⟨s, dots, rfl⟩ := Cursor.mark?_of_text .ellipsis blank trivial before
  obtain ⟨e', read, same⟩ := h.inner .nil quiet (endsAt_of_separator separated) inside
  obtain ⟨seen, token⟩ := Cursor.mark?_eq_some.1 dots
  refine ⟨s, _, _, seen, token, by cases l <;> decide, .spread read, .node ?_⟩
  simp only [NodeKind.map, NodeKind.erase, same]

theorem reread_property {span : Option Span} {key : PropertyKey Shape} (hkey : RereadKey spellings key)
    (h : Reread spellings Listing.object.ends e) :
    RereadItem spellings .object (.node span (.property key e false)) := by
  intro gap c d blank quiet separated across
  rw [Shape.print_property, ← List.append_assoc] at across
  obtain ⟨c₁, before, across⟩ := across.split
  obtain ⟨c₂, after, inside⟩ := across.split
  have hquiet : Quiet c₁.rest := after.1 ▸ .cons (by decide)
  obtain ⟨t, colon, rfl⟩ := Cursor.mark?_of_text .colon .nil trivial after
  obtain ⟨s, token, key', seen, htoken, opens, read, same⟩ := hkey blank hquiet before
  obtain ⟨e', value, same'⟩ := h.inner (.one (by decide)) quiet (endsAt_of_separator separated) inside
  have item := Reads.itemProperty (ne_of_isOneOf opens (by decide)) (.property read colon value)
  refine ⟨s, token, _, seen, htoken, ne_of_isOneOf opens (closing_mem _), item, .node ?_⟩
  simp only [NodeKind.map, NodeKind.erase, same, same']

theorem rereadKey_of_token (token : Token) {key key' : PropertyKey Shape} (whole : token.Whole)
    (made : KeyOf token key') (printed : (key.map Shape.spelling).printed = token.text.toList)
    (same : (key'.map (Shape.erase spellings)).erase spellings =
      (key.map (Shape.erase spellings)).erase spellings) : RereadKey spellings key := by
  intro gap c d blank quiet across
  rw [printed] at across
  obtain ⟨s, seen, htoken, -, -, rfl⟩ := Cursor.sight?_of_token whole blank quiet across
  refine ⟨s, token, key', seen, htoken, ?_, .key made, same⟩
  cases made with
  | number => rfl
  | plain h => cases token <;> first | rfl | cases h

theorem leafKey?_of_name {token : Token} {name : String} (named : token.name? = some name) :
    leafKey? (ι := Shape) token = some (.identifier name) := by
  cases token with
  | identifier | keyword => cases named; rfl
  | _ => cases named

theorem rereadKey_identifier {name : String} (named : IsName name) :
    RereadKey spellings (.identifier name) := by
  obtain ⟨token, whole, hname⟩ := named
  refine rereadKey_of_token token whole (.plain (leafKey?_of_name hname)) ?_ rfl
  rw [token.text_of_name hname]
  rfl

theorem rereadKey_computed (h : Reread spellings [.closeBracket] e) :
    RereadKey spellings (.computed e) := by
  intro gap c d blank quiet across
  change c.Over (gap ++ (['['] ++ (e.print ++ [']']))) d at across
  rw [← List.append_assoc] at across
  obtain ⟨c₁, before, across⟩ := across.split
  obtain ⟨c₂, inside, after⟩ := across.split
  obtain ⟨s, opening, rfl⟩ := Cursor.mark?_of_text .openBracket blank trivial before
  obtain ⟨hquiet, t, closing, rfl⟩ := Cursor.closing_of_text .closeBracket (by decide) after
  have ended := Cursor.endsAt_of_mark closing (List.mem_singleton.2 rfl)
  obtain ⟨e', read, same⟩ := h.inner .nil hquiet ended inside
  obtain ⟨seen, token⟩ := Cursor.mark?_eq_some.1 opening
  refine ⟨s, _, _, seen, token, rfl, .computed read closing, ?_⟩
  simp only [PropertyKey.map, PropertyKey.erase, same]

theorem reread_shorthand {span span' : Option Span} {name : String} (named : IsName name) :
    RereadItem spellings .object
      (.node span (.property (.identifier name) (.node span' (.identifier name)) true)) := by
  intro gap c d blank quiet separated across
  rw [Shape.print_shorthand, Shape.print_identifier] at across
  obtain ⟨token, whole, hname⟩ := named
  obtain ⟨s, seen, htoken, rfl⟩ := Cursor.sight?_of_name whole hname blank quiet.still.endsName across
  obtain ⟨mark, t, hmark, hm⟩ := Cursor.mark_of_separator separated
  have colon : s.stop.mark? .colon = none := by
    refine Cursor.mark?_eq_none_of_mark hmark ?_
    rcases hm with rfl | rfl <;> decide
  have key := Reads.key (c := c) (s := s) (.plain (leafKey?_of_name hname))
  have hpunct : ∀ mark, token ≠ .punctuator mark := by
    rintro mark rfl
    cases hname
  have item := Reads.itemProperty (hpunct _) (.shorthand key colon separated)
  refine ⟨s, token, _, seen, htoken, hpunct _, item, .node ?_⟩
  simp only [NodeKind.map, NodeKind.erase, Shape.erase_node]

end

end Printer

end MarkupEditor
