import Mathlib
import MarkupEditor.Proofs.Parser.Progress
import MarkupEditor.Proofs.Printer.Tags

set_option autoImplicit false

namespace MarkupEditor.Printer

open Text Lexer MarkupEditor.Parser

variable {spellings : Bool} {c d : Cursor}

theorem textRun_eq_nil {x : Char} {rest : List Char} (h : c.rest = x :: rest) (hx : x = '<' ∨ x = '{') :
    textRun c.rest = [] := by
  rw [h, textRun]
  rcases hx with rfl | rfl <;> rfl

theorem readsText_nil {front : List Shape} (h : ReadsText c front d) (none : textRun c.rest = []) :
    front = [] ∧ d = c := by
  cases h with
  | empty => exact ⟨rfl, rfl⟩
  | text some => exact absurd none some

theorem children_of_text {b f : Cursor} {t : Shape} {found : List Shape} (text : ReadsText b [t] c)
    (none : textRun c.rest = []) (read : Reads .children c (.nodes found) f) :
    Reads .children b (.nodes (t :: found)) f := by
  cases read with
  | childrenEnd front h closing =>
    obtain ⟨rfl, rfl⟩ := readsText_nil front none
    exact .childrenEnd text h closing
  | childrenContainer front h read more =>
    obtain ⟨rfl, rfl⟩ := readsText_nil front none
    exact .childrenContainer text h read more
  | childrenMarkup front h opening read more =>
    obtain ⟨rfl, rfl⟩ := readsText_nil front none
    exact .childrenMarkup text h opening read more

theorem reread_text {span : Option Span} {value : String} {raw : Option String} {run : List Char}
    (filled : run ≠ []) (plain : ∀ x ∈ run, x ∉ ['<', '>', '{', '}'])
    (printed : (Shape.node span (.text value raw)).print = run)
    (decoded : String.ofList (decodeReferences run) = value)
    (same : (some (String.ofList run)).filter (fun _ => spellings) = raw.filter fun _ => spellings) :
    RereadChild spellings (.node span (.text value raw)) := by
  intro c d f others across last read
  have last := last rfl
  rw [printed] at across
  have hrun : textRun c.rest = run := by
    rw [across.1]
    exact (textRun_plain plain last).1
  have clean : ∀ x ∈ textRun c.rest, textReference? x = none := by
    rw [hrun]
    exact (textRun_plain plain last).2
  have stop : d = c.advance (textRun c.rest) (c.rest.drop (textRun c.rest).length) := by
    rw [hrun]
    refine across.unique ⟨?_, rfl⟩
    rw [across.1]
    simp [Cursor.advance]
  have text := ReadsText.text (by rw [hrun]; exact filled) clean stop
  refine ⟨fun h => absurd h.symm Bool.false_ne_true, _, children_of_text text last read, .node ?_⟩
  simp only [NodeKind.map, NodeKind.erase, hrun, decoded, same]

theorem not_mark_of_name {name : String} {mark : Punctuator} (h : ReadsName c name d) :
    c.mark? mark = none := by
  obtain ⟨seen, named⟩ := h
  refine Cursor.mark?_eq_none_of_sight seen rfl fun he => ?_
  rw [he] at named
  cases named

theorem not_mark_of_elementName {name : String} {mark : Punctuator} (h : ReadsElementName c name d) :
    c.mark? mark = none := by
  cases h with
  | colon front => exact not_mark_of_name front
  | dotted front => exact not_mark_of_name front

theorem less_of_text {rest : List Char} (h : c.rest = '<' :: rest) :
    ∃ s, c.mark? .less = some s ∧ s.stop = c.advance ['<'] rest :=
  Cursor.mark?_of_text .less .nil trivial ⟨h, rfl⟩

theorem not_closing_of_markup {a : Answer} {rest : List Char} (h : Reads .markup c a d)
    (hc : c.rest = '<' :: rest) : closingFollows (c.advance ['<'] rest) = false := by
  obtain ⟨s, less, stop⟩ := less_of_text hc
  have slash : s.stop.mark? .slash = none := by
    cases h with
    | markup read =>
      cases read with
      | fragment less' greater =>
        rw [less] at less'
        cases less'
        exact Cursor.mark?_eq_none_of_mark greater (by decide)
      | selfClosing less' _ named | tag less' _ named =>
        rw [less] at less'
        cases less'
        exact not_mark_of_elementName named
  rw [closingFollows, ← stop, slash]
  rfl

theorem RereadMarkup.child {e : Shape} (h : RereadMarkup spellings e) : RereadChild spellings e := by
  intro c d f others across last read
  obtain ⟨⟨tail, hprint⟩, hread⟩ := h
  have hrest : c.rest = '<' :: (tail ++ d.rest) := by rw [across.1, hprint]; rfl
  obtain ⟨e', read', same⟩ := hread .nil across
  have none := textRun_eq_nil hrest (.inl rfl)
  exact ⟨fun _ => none, e', .childrenMarkup (.empty none) hrest (not_closing_of_markup read' hrest)
    read' read, same⟩

/-- What is printed for the content of braces among children is read as one that agrees with it. -/
def RereadContent (spellings : Bool) (x : Shape) : Prop :=
  ∀ ⦃c d : Cursor⦄, Quiet d.rest → d.endsAt [.closeBrace] = true → c.Over x.print d →
    c.mark? .closeBrace = none ∧
      ∃ x', Reads .spreadOrExpression c (.node x') d ∧ Same spellings x' x

theorem RereadStructured.content {e : Shape} (h : RereadStructured spellings e) : RereadContent spellings e := by
  intro c d quiet ended across
  obtain ⟨s, token, e', seen, htoken, opens, read, same⟩ := h Blank.nil quiet across
  have hne : ∀ mark ∈ outer, c.mark? mark = none := fun mark hm =>
    Cursor.mark?_eq_none_of_sight seen htoken fun he => ne_of_isOneOf opens hm (Option.some.inj he)
  exact ⟨hne _ (by decide), e',
    .containerExpression (hne _ (by decide)) (.structuredExpression read ended), same⟩

theorem reread_contentSpread {span : Option Span} {e : Shape} (h : Reread spellings [.closeBrace] e) :
    RereadContent spellings (.node span (.spread e)) := by
  intro c d quiet ended across
  rw [Shape.print_spread] at across
  obtain ⟨c₁, before, inside⟩ := across.split
  obtain ⟨s, dots, rfl⟩ := Cursor.mark?_of_text .ellipsis .nil trivial before
  obtain ⟨_, e', read, same⟩ := h .nil quiet ended inside
  refine ⟨Cursor.mark?_eq_none_of_mark dots (by decide), _, .containerSpread dots read, .node ?_⟩
  simp only [NodeKind.map, NodeKind.erase, same]

theorem reread_container {span : Option Span} {e : Shape} (h : RereadContent spellings e) :
    RereadChild spellings (.node span (.expressionContainer (some e))) := by
  intro c d f others across last more
  rw [Shape.print_container] at across
  have hrest : c.rest = '{' :: (e.print ++ ['}'] ++ d.rest) := across.1
  obtain ⟨c₁, before, across⟩ := across.split
  obtain ⟨c₂, inside, after⟩ := across.split
  obtain ⟨s, opening, rfl⟩ := Cursor.mark?_of_text .openBrace .nil trivial before
  obtain ⟨hquiet, t, closing, rfl⟩ := Cursor.closing_of_text .closeBrace (by decide) after
  have ended := Cursor.endsAt_of_mark closing (List.mem_singleton.2 rfl)
  obtain ⟨filled, e', read, same⟩ := h hquiet ended inside
  have none := textRun_eq_nil hrest (.inr rfl)
  refine ⟨fun _ => none, _,
    .childrenContainer (.empty none) hrest (.container opening filled read closing) more, .node ?_⟩
  simp only [NodeKind.map, NodeKind.erase, Option.map_some, same]

theorem reread_container_empty {span : Option Span} :
    RereadChild spellings (.node span (.expressionContainer none)) := by
  intro c d f others across last more
  rw [Shape.print_container_empty] at across
  have hrest : c.rest = '{' :: ('}' :: d.rest) := across.1
  obtain ⟨c₁, before, after⟩ := across.split
  obtain ⟨s, opening, rfl⟩ := Cursor.mark?_of_text .openBrace .nil trivial before
  obtain ⟨t, closing, rfl⟩ := Cursor.mark?_of_text .closeBrace .nil trivial after
  have none := textRun_eq_nil hrest (.inr rfl)
  exact ⟨fun _ => none, _,
    .childrenContainer (.empty none) hrest (.containerEmpty opening closing) more, .node rfl⟩

theorem reread_children {rest : List Char} (hd : d.rest = '<' :: rest)
    (closing : closingFollows (d.advance ['<'] rest) = true) (xs : List Shape)
    (h : ∀ x ∈ xs, RereadChild spellings x)
    (apart : xs.IsChain fun x y => x.isText = true → y.isText = false)
    (across : c.Over (xs.flatMap Shape.print) d) :
    (∀ x ∈ xs.head?, x.isText = false → textRun c.rest = []) ∧ (xs = [] → textRun c.rest = []) ∧
      ∃ found, Reads .children c (.nodes found) d ∧
        found.map (Shape.erase spellings) = xs.map (Shape.erase spellings) := by
  induction xs generalizing c with
  | nil =>
    cases across.nil
    have none := textRun_eq_nil hd (.inl rfl)
    exact ⟨nofun, fun _ => none, [], .childrenEnd (.empty none) hd closing, rfl⟩
  | cons x xs ih =>
    rw [List.flatMap_cons] at across
    obtain ⟨c₁, first, others⟩ := across.split
    obtain ⟨hhead, hnil, found, more, agree⟩ :=
      ih (fun y hy => h y (List.mem_cons_of_mem x hy)) apart.tail others
    have last : x.isText = true → textRun c₁.rest = [] := by
      intro hx
      cases xs with
      | nil => exact hnil rfl
      | cons y ys => exact hhead y rfl ((List.isChain_cons_cons.1 apart).1 hx)
    obtain ⟨none, x', read, same⟩ := h x List.mem_cons_self first last more
    refine ⟨fun y hy hplain => ?_, nofun, x' :: found, read, ?_⟩
    · cases hy
      exact none hplain
    · rw [List.map_cons, List.map_cons, agree, same]

theorem closing_fragment (across : c.Over (['<'] ++ (['/'] ++ ['>'])) d) :
    ReadsClosing c none d ∧ ∃ rest, c.rest = '<' :: rest ∧
      closingFollows (c.advance ['<'] rest) = true := by
  have hrest : c.rest = '<' :: ('/' :: '>' :: d.rest) := across.1
  obtain ⟨s, less, stop⟩ := less_of_text hrest
  obtain ⟨c₁, before, across⟩ := across.split
  obtain ⟨c₂, bar, after⟩ := across.split
  have clear : Punctuator.slash.Clear c₂.rest := by
    rw [after.1]
    exact ⟨by simp, by simp⟩
  obtain ⟨t, slash, rfl⟩ := Cursor.mark?_of_text .slash .nil clear bar
  obtain ⟨u, greater, rfl⟩ := Cursor.mark?_of_text .greater .nil trivial after
  have hs : s.stop = c₁ := stop.trans (Cursor.Over.unique ⟨hrest, rfl⟩ before)
  subst hs
  refine ⟨.fragment less slash greater, _, hrest, ?_⟩
  rw [closingFollows, ← stop, slash]
  rfl

theorem IsElementName.head {name : String} (h : IsElementName name) :
    ∃ x tail, name.toList = x :: tail ∧ beginsIdentifier x = true := by
  cases h with
  | colon front | dotted front =>
    obtain ⟨x, tail, hx, begins⟩ := front.head
    exact ⟨x, _, by simp [hx]; rfl, begins⟩

theorem closing_element {name : String} (named : IsElementName name)
    (across : c.Over (['<'] ++ (['/'] ++ (name.toList ++ ['>']))) d) :
    ReadsClosing c (some name) d ∧ ∃ rest, c.rest = '<' :: rest ∧
      closingFollows (c.advance ['<'] rest) = true := by
  have hrest : c.rest = '<' :: ('/' :: (name.toList ++ ['>'] ++ d.rest)) := across.1
  obtain ⟨s, less, stop⟩ := less_of_text hrest
  obtain ⟨c₁, before, across⟩ := across.split
  obtain ⟨c₂, bar, across⟩ := across.split
  obtain ⟨c₃, inside, after⟩ := across.split
  obtain ⟨x, tail, hx, begins⟩ := IsElementName.head named
  have clear : Punctuator.slash.Clear c₂.rest := by
    rw [inside.1, hx]
    constructor <;> rintro he <;> cases he <;> revert begins <;> decide
  obtain ⟨t, slash, rfl⟩ := Cursor.mark?_of_text .slash .nil clear bar
  obtain ⟨u, greater, rfl⟩ := Cursor.mark?_of_text .greater .nil trivial after
  obtain ⟨seen, token⟩ := Cursor.mark?_eq_some.1 greater
  have inTag := inTag_of_sight (endsName_of_over after (by decide)) seen token rfl
  have read := readsElementName_of_text named inTag inside
  have hs : s.stop = c₁ := stop.trans (Cursor.Over.unique ⟨hrest, rfl⟩ before)
  subst hs
  refine ⟨.element less slash (not_mark_of_elementName read) read greater, _, hrest, ?_⟩
  rw [closingFollows, ← stop, slash]
  rfl

theorem reread_fragment {span : Option Span} {xs : List Shape} (h : ∀ x ∈ xs, RereadChild spellings x)
    (apart : xs.IsChain fun x y => x.isText = true → y.isText = false) :
    RereadMarkup spellings (.node span (.fragment xs)) := by
  refine ⟨⟨_, Shape.print_fragment span xs⟩, fun gap c d blank across => ?_⟩
  rw [Shape.print_fragment, ← List.append_assoc] at across
  obtain ⟨c₁, before, across⟩ := across.split
  obtain ⟨c₂, sign, across⟩ := across.split
  obtain ⟨c₃, inside, after⟩ := across.split
  obtain ⟨s, less, rfl⟩ := Cursor.mark?_of_text .less blank trivial before
  obtain ⟨t, greater, rfl⟩ := Cursor.mark?_of_text .greater .nil trivial sign
  obtain ⟨close, rest, hrest, closing⟩ := closing_fragment after
  obtain ⟨-, -, found, read, agree⟩ := reread_children hrest closing xs h apart inside
  refine ⟨_, .markup (.fragment less greater read close), .node ?_⟩
  simp only [NodeKind.map, NodeKind.erase, agree]

theorem attributes_slash (across : c.Over ([' ', '/'] ++ ['>']) d) :
    InTag c ∧ Reads .attributes c (.attributes [] true) d := by
  have front := endsName_of_over across (by decide)
  obtain ⟨c₁, bar, after⟩ := across.split
  have clear : Punctuator.slash.Clear c₁.rest := by
    rw [after.1]
    exact ⟨by simp, by simp⟩
  obtain ⟨t, slash, rfl⟩ := Cursor.mark?_of_text .slash (.one (by decide)) clear bar
  obtain ⟨u, greater, rfl⟩ := Cursor.mark?_of_text .greater .nil trivial after
  obtain ⟨seen, token⟩ := Cursor.mark?_eq_some.1 slash
  exact ⟨inTag_of_sight front seen token rfl, .attributesSlash slash greater⟩

theorem reread_selfClosing {span : Option Span} {name : String} {as : List Shape}
    (named : IsElementName name) (ha : ∀ a ∈ as, RereadAttribute spellings a) :
    RereadMarkup spellings (.node span (.element name as [] true)) := by
  refine ⟨⟨_, Shape.print_selfClosing span name as⟩, fun gap c d blank across => ?_⟩
  rw [Shape.print_selfClosing, ← List.append_assoc] at across
  obtain ⟨c₁, before, across⟩ := across.split
  obtain ⟨c₂, inside, across⟩ := across.split
  obtain ⟨c₃, attributes, ending⟩ := across.split
  obtain ⟨s, less, rfl⟩ := Cursor.mark?_of_text .less blank trivial before
  obtain ⟨inTag, last⟩ := attributes_slash ending
  obtain ⟨inTag', found, read, agree⟩ := reread_attributes inTag last as ha attributes
  have hname := readsElementName_of_text named inTag' inside
  refine ⟨_, .markup (.selfClosing less (not_mark_of_elementName hname) hname read), .node ?_⟩
  simp only [NodeKind.map, NodeKind.erase, agree, List.map_nil]

theorem reread_element {span : Option Span} {name : String} {as xs : List Shape} {closed : Bool}
    (named : IsElementName name) (ha : ∀ a ∈ as, RereadAttribute spellings a)
    (h : ∀ x ∈ xs, RereadChild spellings x)
    (apart : xs.IsChain fun x y => x.isText = true → y.isText = false) (hclosed : closed = true → xs = []) :
    RereadMarkup spellings (.node span (.element name as xs closed)) := by
  cases closed with
  | true =>
    rw [hclosed rfl]
    exact reread_selfClosing named ha
  | false =>
    have hprint := Shape.print_element span name as xs false nofun
    refine ⟨⟨_, hprint⟩, fun gap c d blank across => ?_⟩
    rw [hprint, ← List.append_assoc] at across
    obtain ⟨c₁, before, across⟩ := across.split
    obtain ⟨c₂, front, across⟩ := across.split
    obtain ⟨c₃, attributes, across⟩ := across.split
    obtain ⟨c₄, sign, across⟩ := across.split
    obtain ⟨c₅, inside, after⟩ := across.split
    obtain ⟨s, less, rfl⟩ := Cursor.mark?_of_text .less blank trivial before
    obtain ⟨t, greater, rfl⟩ := Cursor.mark?_of_text .greater .nil trivial sign
    obtain ⟨close, rest, hrest, closing⟩ := closing_element named after
    obtain ⟨-, -, children, read, agree⟩ := reread_children hrest closing xs h apart inside
    obtain ⟨seen, token⟩ := Cursor.mark?_eq_some.1 greater
    have inTag := inTag_of_sight (endsName_of_over sign (by decide)) seen token rfl
    obtain ⟨inTag', found, read', agree'⟩ :=
      reread_attributes inTag (.attributesGreater greater) as ha attributes
    have hname := readsElementName_of_text named inTag' front
    refine ⟨_, .markup (.tag less (not_mark_of_elementName hname) hname read' read close), .node ?_⟩
    simp only [NodeKind.map, NodeKind.erase, agree, agree']

end MarkupEditor.Printer
