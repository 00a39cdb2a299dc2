import MarkupEditor.Proofs.Printer.Expressions

set_option autoImplicit false

namespace MarkupEditor

open Text Lexer MarkupEditor.Parser

inductive IsDotted : String → Prop where
  | done : IsDotted ""
  | more {part others : String} (named : IsName part) (rest : IsDotted others) :
    IsDotted ("." ++ part ++ others)

/-- The name of an element: two names with a colon between, or names with dots between. -/
inductive IsElementName : String → Prop where
  | colon {first second : String} (front : IsName first) (back : IsName second) :
    IsElementName (first ++ ":" ++ second)
  | dotted {first others : String} (front : IsName first) (rest : IsDotted others) :
    IsElementName (first ++ others)

inductive IsAttributeName : String → Prop where
  | colon {first second : String} (front : IsName first) (back : IsName second) :
    IsAttributeName (first ++ ":" ++ second)
  | plain {name : String} (named : IsName name) : IsAttributeName name

namespace Printer

variable {spellings : Bool} {gap : List Char} {c d : Cursor}

/-- A place in a tag where no name, dotted or not, goes on. -/
structure InTag (c : Cursor) : Prop where
  name : EndsName c.rest
  dot : c.mark? .dot = none
  colon : c.mark? .colon = none
  equals : c.mark? .equals = none

theorem readsName_of_text {name : String} (named : IsName name) (blank : Blank gap)
    (ends : EndsName d.rest) (across : c.Over (gap ++ name.toList) d) : ReadsName c name d := by
  obtain ⟨token, whole, hname⟩ := named
  obtain ⟨s, seen, htoken, rfl⟩ := Cursor.sight?_of_name whole hname blank ends across
  exact ⟨seen, by rw [htoken]; exact hname⟩

theorem endsName_of_over {x : Char} {text : List Char} (across : c.Over (x :: text) d)
    (hx : continuesIdentifier x = false ∧ x ≠ '-') : EndsName c.rest := by
  intro y hy
  rw [across.1] at hy
  cases hy
  exact hx

theorem dot_clear_of_name {name : String} (named : IsName name) (rest : List Char) :
    Punctuator.dot.Clear (name.toList ++ rest) := by
  obtain ⟨x, tail, htext, hbegins⟩ := named.head
  intro rest' he
  rw [htext, List.cons_append] at he
  rw [(List.cons.inj he).1] at hbegins
  exact absurd hbegins (by decide)

theorem readsDotted_of_text {others : String} (h : IsDotted others) (inTag : InTag d)
    (across : c.Over others.toList d) : ReadsDotted c others d ∧ EndsName c.rest ∧ c.mark? .colon = none := by
  induction h generalizing c with
  | done =>
    cases across.nil
    exact ⟨.done inTag.dot, inTag.name, inTag.colon⟩
  | @more part others named rest ih =>
    have htext : ("." ++ part ++ others).toList = ['.'] ++ (part.toList ++ others.toList) := by simp
    rw [htext] at across
    obtain ⟨c₁, before, across'⟩ := across.split
    obtain ⟨c₂, front, back⟩ := across'.split
    obtain ⟨read, ends, -⟩ := ih back
    have clear : Punctuator.dot.Clear c₁.rest := by
      rw [across'.1, List.append_assoc]
      exact dot_clear_of_name named _
    obtain ⟨s, dot, rfl⟩ := Cursor.mark?_of_text .dot .nil clear before
    refine ⟨.more dot (readsName_of_text named .nil ends front) read, ?_, ?_⟩
    · exact endsName_of_over across (by decide)
    · exact Cursor.mark?_eq_none_of_mark dot (by decide)

theorem colon_of_text {second : String} (named : IsName second) (ends : EndsName d.rest)
    (across : c.Over (':' :: second.toList) d) :
    EndsName c.rest ∧ ∃ s, c.mark? .colon = some s ∧ ReadsName s.stop second d := by
  refine ⟨endsName_of_over across (by decide), ?_⟩
  obtain ⟨c₁, before, back⟩ := Cursor.Over.split (a := [':']) across
  obtain ⟨s, colon, rfl⟩ := Cursor.mark?_of_text .colon .nil trivial before
  exact ⟨s, colon, readsName_of_text named .nil ends back⟩

theorem readsElementName_of_text {name : String} (h : IsElementName name) (inTag : InTag d)
    (across : c.Over name.toList d) : ReadsElementName c name d := by
  cases h with
  | @colon first second front back =>
    have htext : (first ++ ":" ++ second).toList = first.toList ++ ':' :: second.toList := by simp
    rw [htext] at across
    obtain ⟨c₁, before, across⟩ := across.split
    obtain ⟨ends, s, colon, read⟩ := colon_of_text back inTag.name across
    exact .colon (readsName_of_text front .nil ends before) colon read
  | @dotted first others front rest =>
    rw [String.toList_append] at across
    obtain ⟨c₁, before, across⟩ := across.split
    obtain ⟨read, ends, plain⟩ := readsDotted_of_text rest inTag across
    exact .dotted (readsName_of_text front .nil ends before) plain read

theorem readsAttributeName_of_text {name : String} (h : IsAttributeName name) (blank : Blank gap)
    (ends : EndsName d.rest) (plain : d.mark? .colon = none) (across : c.Over (gap ++ name.toList) d) :
    ReadsAttributeName c name d := by
  cases h with
  | @colon first second front back =>
    have htext : (first ++ ":" ++ second).toList = first.toList ++ ':' :: second.toList := by simp
    rw [htext, ← List.append_assoc] at across
    obtain ⟨c₁, before, across⟩ := across.split
    obtain ⟨ends', s, colon, read⟩ := colon_of_text back ends across
    exact .colon (readsName_of_text front blank ends' before) colon read
  | plain named => exact .plain (readsName_of_text named blank ends across) plain

/-- What is printed for an attribute is read as one that agrees with it, before what is read of the
rest of the tag. -/
def RereadAttribute (spellings : Bool) (a : Shape) : Prop :=
  ∀ ⦃c d f : Cursor⦄ ⦃others : List Shape⦄ ⦃closed : Bool⦄, InTag d → c.Over (' ' :: a.print) d →
    Reads .attributes d (.attributes others closed) f →
    InTag c ∧ ∃ a', Reads .attributes c (.attributes (a' :: others) closed) f ∧ Same spellings a' a

/-- What is printed for the value of an attribute is read as one that agrees with it. -/
def RereadValue (spellings : Bool) (v : Shape) : Prop :=
  (∃ x tail, v.spelling.value = x :: tail ∧ x ∈ ['"', '\'', '{', '<']) ∧
    ∀ ⦃c d : Cursor⦄, c.Over v.spelling.value d →
      ∃ v', Reads .value c (.node v') d ∧ Same spellings v' v

/-- What is printed for markup is read as markup that agrees with it, whatever follows. -/
def RereadMarkup (spellings : Bool) (e : Shape) : Prop :=
  (∃ tail, e.print = '<' :: tail) ∧
    ∀ ⦃gap : List Char⦄ ⦃c d : Cursor⦄, Blank gap → c.Over (gap ++ e.print) d →
      ∃ e', Reads .markup c (.node e') d ∧ Same spellings e' e

/-- What is printed for a child is read as one that agrees with it, before what is read of the children
after it. No text may stand after a text. -/
def RereadChild (spellings : Bool) (x : Shape) : Prop :=
  ∀ ⦃c d f : Cursor⦄ ⦃others : List Shape⦄, c.Over x.print d →
    (x.isText = true → textRun d.rest = []) → Reads .children d (.nodes others) f →
    (x.isText = false → textRun c.rest = []) ∧
      ∃ x', Reads .children c (.nodes (x' :: others)) f ∧ Same spellings x' x

theorem inTag_of_sight {s : Sight} {token : Token} (ends : EndsName c.rest) (seen : c.sight? = some s)
    (h : s.token = some token) (other : token.isOneOf [.dot, .colon, .equals] = false) : InTag c := by
  have hne : ∀ mark ∈ [Punctuator.dot, .colon, .equals], c.mark? mark = none := by
    intro mark hm
    refine Cursor.mark?_eq_none_of_sight seen h fun he => ?_
    cases he
    simp only [Token.isOneOf, ← Bool.not_eq_true, List.contains_iff_mem] at other
    exact other hm
  exact ⟨ends, hne _ (by decide), hne _ (by decide), hne _ (by decide)⟩

theorem reread_attributes {closed : Bool} {f : Cursor} (inTag : InTag d)
    (read : Reads .attributes d (.attributes [] closed) f) (as : List Shape)
    (h : ∀ a ∈ as, RereadAttribute spellings a) (across : c.Over (as.flatMap fun a => ' ' :: a.print) d) :
    InTag c ∧ ∃ found, Reads .attributes c (.attributes found closed) f ∧
      found.map (Shape.erase spellings) = as.map (Shape.erase spellings) := by
  induction as generalizing c with
  | nil =>
    cases across.nil
    exact ⟨inTag, [], read, rfl⟩
  | cons a as ih =>
    rw [List.flatMap_cons] at across
    obtain ⟨c₁, first, others⟩ := across.split
    obtain ⟨inTag', found, more, agree⟩ := ih (fun x hx => h x (List.mem_cons_of_mem a hx)) others
    obtain ⟨inTag'', a', read', same⟩ := h a List.mem_cons_self inTag' first more
    refine ⟨inTag'', a' :: found, read', ?_⟩
    rw [List.map_cons, List.map_cons, agree, same]

theorem reread_spreadAttribute {span : Option Span} {e : Shape}
    (h : Reread spellings [.closeBrace] e) :
    RereadAttribute spellings (.node span (.spreadAttribute e)) := by
  intro c d f others closed inTag across more
  rw [Shape.print_spreadAttribute] at across
  obtain ⟨c₁, before, across'⟩ := across.split
  obtain ⟨c₂, dots, across'⟩ := across'.split
  obtain ⟨c₃, inside, after⟩ := across'.split
  obtain ⟨s, opening, rfl⟩ := Cursor.mark?_of_text .openBrace (.one (by decide)) trivial before
  obtain ⟨t, ellipsis, rfl⟩ := Cursor.mark?_of_text .ellipsis .nil trivial dots
  obtain ⟨hquiet, u, closing, rfl⟩ := Cursor.closing_of_text .closeBrace (by decide) after
  have ended := Cursor.endsAt_of_mark closing (List.mem_singleton.2 rfl)
  obtain ⟨_, e', read, same⟩ := h .nil hquiet ended inside
  obtain ⟨seen, token⟩ := Cursor.mark?_eq_some.1 opening
  refine ⟨inTag_of_sight (endsName_of_over across (by decide)) seen token rfl, _,
    .attributesSpread opening (.spreadAttribute opening ellipsis read closing) more, .node ?_⟩
  simp only [NodeKind.map, NodeKind.erase, same]

theorem attributes_named {f e : Cursor} {name : String} {a : Shape} {others : List Shape}
    {closed : Bool} (front : EndsName c.rest) (named : ReadsAttributeName c name e)
    (read : Reads .namedAttribute c (.node a) d)
    (more : Reads .attributes d (.attributes others closed) f) :
    InTag c ∧ Reads .attributes c (.attributes (a :: others) closed) f := by
  have first : ∃ part e, ReadsName c part e := by
    cases named with
    | colon named => exact ⟨_, _, named⟩
    | plain named => exact ⟨_, _, named⟩
  obtain ⟨part, _, ⟨seen, hname⟩⟩ := first
  obtain ⟨token, htoken, hpart⟩ := Option.bind_eq_some_iff.1 hname
  refine ⟨inTag_of_sight front seen htoken ?_, .attributesNamed seen hname read more⟩
  cases token <;> first | rfl | cases hpart

theorem reread_attribute_bare {span : Option Span} {name : String} (h : IsAttributeName name) :
    RereadAttribute spellings (.node span (.namedAttribute name none)) := by
  intro c d f others closed inTag across more
  have front := endsName_of_over across (by decide)
  rw [Shape.print_attribute_bare] at across
  have named := readsAttributeName_of_text h (.one (by decide)) inTag.name inTag.colon across
  obtain ⟨inTag', read⟩ := attributes_named front named (.namedBare named inTag.equals) more
  exact ⟨inTag', _, read, .node rfl⟩

theorem skipBlanks_eq {x : Char} {rest : List Char} (h : c.rest = x :: rest) (hx : isBlank x = false) :
    c.skipBlanks = c := by
  have hnone : c.rest.takeWhile isBlank = [] := by rw [h, List.takeWhile_cons_of_neg (by simp [hx])]
  have hall : trimStart c.rest = c.rest := by rw [h, trimStart, List.dropWhile_cons_of_neg (by simp [hx])]
  rw [Cursor.skipBlanks, hnone, hall]
  rfl

theorem attributes_value {e f g : Cursor} {name : String} {x : Char} {tail : List Char} {v : Shape}
    {others : List Shape} {closed : Bool} (h : IsAttributeName name) (before : c.Over ([' '] ++ name.toList) e) (sign : e.Over ['='] f)
    (hrest : f.rest = x :: tail) (opens : x ∈ ['"', '\'', '{', '<']) (read : Reads .value f (.node v) d)
    (more : Reads .attributes d (.attributes others closed) g) :
    InTag c ∧ ∃ start, Reads .attributes c
      (.attributes (shapeAt (.namedAttribute name (some v)) start d.pos :: others) closed) g := by
  have front := endsName_of_over before (by decide)
  have plain : ∀ x ∈ ['"', '\'', '{', '<'], x ≠ '>' ∧ isBlank x = false :=
    List.all_iff_forall_prop.1 (by decide)
  have plain := plain x opens
  have clear : Punctuator.equals.Clear f.rest := by
    rw [hrest]
    exact fun rest he => plain.1 (List.cons.inj he).1
  obtain ⟨t, equals, rfl⟩ := Cursor.mark?_of_text .equals .nil clear sign
  have ends := endsName_of_over sign (by decide)
  have named := readsAttributeName_of_text h (.one (by decide)) ends
    (Cursor.mark?_eq_none_of_mark equals (by decide)) before
  rw [← skipBlanks_eq hrest plain.2] at read
  obtain ⟨inTag, read⟩ := attributes_named front named (.namedValue named equals read) more
  exact ⟨inTag, _, read⟩

theorem reread_attribute {span : Option Span} {name : String} {v : Shape} (h : IsAttributeName name)
    (hv : RereadValue spellings v) :
    RereadAttribute spellings (.node span (.namedAttribute name (some v))) := by
  intro c d f others closed inTag across more
  rw [Shape.print_attribute] at across
  obtain ⟨⟨x, tail, hx, opens⟩, hread⟩ := hv
  obtain ⟨c₁, before, across⟩ := across.split
  obtain ⟨c₂, sign, inside⟩ := across.split
  have hrest : c₂.rest = x :: (tail ++ d.rest) := by rw [inside.1, hx]; rfl
  obtain ⟨v', read, same⟩ := hread inside
  obtain ⟨inTag', start, read⟩ := attributes_value h before sign hrest opens read more
  refine ⟨inTag', _, read, .node ?_⟩
  simp only [NodeKind.map, NodeKind.erase, Option.map_some, same]

theorem reread_valueString {span : Option Span} {value : Literal} {raw : Option String} {quote : Char}
    {inner : List Char} (quoted : quote = '"' ∨ quote = '\'') (clean : quote ∉ inner)
    (printed : value.attributeSpelling raw = quote :: (inner ++ [quote]))
    (decoded : value = .string (String.ofList (decodeReferences inner)))
    (same : (some (String.ofList (quote :: inner ++ [quote]))).filter (fun _ => spellings) =
      raw.filter fun _ => spellings) :
    RereadValue spellings (.node span (.literal value raw)) := by
  have hvalue : (Shape.node span (.literal value raw)).spelling.value = quote :: (inner ++ [quote]) := by
    rw [Shape.spelling_node]
    exact printed
  refine ⟨⟨quote, _, hvalue, by rcases quoted with rfl | rfl <;> decide⟩, fun c d across => ?_⟩
  rw [hvalue] at across
  obtain ⟨htake, hdrop⟩ := takeWhile_upTo clean d.rest
  have hrest : c.rest = quote :: (inner ++ quote :: d.rest) := by
    rw [across.1]
    simp
  have hstop : d = c.advance
      (quote :: (inner ++ quote :: d.rest).takeWhile (· != quote) ++ [quote]) d.rest := by
    rw [htake]
    exact across.unique ⟨by rw [hrest]; simp [Cursor.advance], rfl⟩
  have read := Reads.valueString hrest quoted hdrop hstop
  rw [htake] at read
  refine ⟨_, read, .node ?_⟩
  simp only [NodeKind.map, NodeKind.erase, ← decoded, same]

theorem reread_valueContainer {span : Option Span} {e : Shape} (h : Reread spellings [.closeBrace] e) :
    RereadValue spellings (.node span (.expressionContainer (some e))) := by
  have hvalue : (Shape.node span (.expressionContainer (some e))).spelling.value =
      ['{'] ++ (e.print ++ ['}']) := by
    rw [← Shape.print_container span e, Shape.print_node, Shape.spelling_node]
    rfl
  refine ⟨⟨'{', _, hvalue, by decide⟩, fun c d across => ?_⟩
  rw [hvalue] at across
  have hrest : ∃ rest, c.rest = '{' :: rest := ⟨_, across.1⟩
  obtain ⟨rest, hrest⟩ := hrest
  obtain ⟨c₁, before, across⟩ := across.split
  obtain ⟨c₂, inside, after⟩ := across.split
  obtain ⟨s, opening, rfl⟩ := Cursor.mark?_of_text .openBrace .nil trivial before
  obtain ⟨hquiet, t, closing, rfl⟩ := Cursor.closing_of_text .closeBrace (by decide) after
  have ended := Cursor.endsAt_of_mark closing (List.mem_singleton.2 rfl)
  obtain ⟨going, e', read, same⟩ := h .nil hquiet ended inside
  have filled := Cursor.mark?_eq_none_of_endsAt going (List.mem_singleton.2 rfl)
  refine ⟨_, .valueContainer hrest opening filled read closing, .node ?_⟩
  simp only [NodeKind.map, NodeKind.erase, Option.map_some, same]

theorem RereadMarkup.value {e : Shape} (h : RereadMarkup spellings e)
    (hvalue : e.spelling.value = e.print) : RereadValue spellings e := by
  obtain ⟨⟨tail, hprint⟩, hread⟩ := h
  refine ⟨⟨'<', tail, hvalue.trans hprint, by decide⟩, fun c d across => ?_⟩
  rw [hvalue] at across
  obtain ⟨e', read, same⟩ := hread .nil across
  have hrest : c.rest = '<' :: (tail ++ d.rest) := by rw [across.1, hprint]; rfl
  exact ⟨e', .valueMarkup hrest read, same⟩

theorem less_of_markup {a : Answer} (h : Reads .markup c a d) : ∃ s, c.mark? .less = some s := by
  cases h with
  | markup read =>
    cases read with
    | fragment less => exact ⟨_, less⟩
    | selfClosing less => exact ⟨_, less⟩
    | tag less => exact ⟨_, less⟩

theorem RereadMarkup.structured {e : Shape} (h : RereadMarkup spellings e) :
    RereadStructured spellings e := by
  intro gap c d blank quiet across
  obtain ⟨e', read, same⟩ := h.2 blank across
  obtain ⟨s, less⟩ := less_of_markup read
  obtain ⟨seen, token⟩ := Cursor.mark?_eq_some.1 less
  exact ⟨s, _, e', seen, token, rfl, .structuredMarkup less read, same⟩

end Printer

end MarkupEditor
