import MarkupEditor.Proofs.Markup.Erasure
import MarkupEditor.Proofs.Printer.Embedded

set_option autoImplicit false

namespace MarkupEditor

open Text Lexer MarkupEditor.Parser

namespace Parser

variable {c d : Cursor} {back : List Char}

theorem attributes_past {found : List Shape} {closed : Bool}
    (h : Reads .attributes c (.attributes found closed) d) : c.Past d := by
  cases h with
  | attributesSlash slash greater => exact (Cursor.past_mark slash).trans (Cursor.past_mark greater)
  | attributesGreater greater => exact Cursor.past_mark greater
  | attributesSpread _ read more | attributesNamed _ _ read more =>
    exact Cursor.Past.before (read.moves trivial) (more.moves trivial).before

theorem Reads.markup_second {e : Shape} (h : Reads .markup c (.node e) d) :
    ∃ s m, c.mark? .less = some s ∧ s.stop.Takes m ∧ m.Past d := by
  cases h with
  | markup read =>
    cases read with
    | fragment less greater read close =>
      exact ⟨_, _, less, .of_mark greater (.refl _), (read.moves trivial).before.past close.past⟩
    | selfClosing less named read found => exact ⟨_, _, less, read.takes, attributes_past found⟩
    | tag less named read found inside close =>
      exact ⟨_, _, less, read.takes,
        (attributes_past found).trans ((inside.moves trivial).before.past close.past)⟩

/-- Whether a phrase begins with a lexeme wherever it is read. -/
def Phrase.Begun : Phrase → Prop
  | .parts .. | .value | .children | .statements => False
  | _ => True

/-- Whether the text has the form that was asked for. -/
def Answer.Accepts : Answer → Prop
  | .other => False
  | _ => True

theorem parts_takes {ends opened : List Punctuator} {before : Option Token} {text : List Char}
    {found : List (OpaquePart Shape)} (h : Reads (.parts ends opened before text) c (.parts found) d) :
    c = d ∧ found = sourcePart text ∨ c.Takes d := by
  cases h with
  | partsEnd | partsStop => exact .inl ⟨rfl, rfl⟩
  | partsTake seen step more => exact .inr ⟨_, seen, (more.moves trivial).before⟩
  | partsMarkup seen step read more =>
    obtain ⟨s, m, less, second, past⟩ := read.markup_second
    obtain ⟨t, seen', along⟩ := second
    have after := (Cursor.before_stop seen').trans (along.trans past.1)
    exact .inr (.of_mark less (after.trans (more.moves trivial).before))

theorem Reads.takes {phrase : Phrase} {a : Answer} (h : Reads phrase c a d) (ready : phrase.Ready c)
    (begun : phrase.Begun) (accepted : a.Accepts) : c.Takes d := by
  induction h with
  | structuredExpression attempt ended ih => exact ih trivial trivial trivial
  | keptOther attempt kept _ ih => exact ih trivial trivial trivial
  | keptUnended attempt going kept _ ih => exact ih trivial trivial trivial
  | innerSome going read ih => exact ih trivial trivial trivial
  | leaf seen h made => exact ⟨_, seen, .refl _⟩
  | negative minus next h read => exact .of_mark minus (Cursor.before_stop next)
  | structuredMarkup seen read ih => exact ih trivial trivial trivial
  | structuredParenthesized seen read ih => exact ih (Cursor.mark?_eq_some.1 seen).1 trivial accepted
  | listing seen opens read => exact .of_mark seen (read.moves trivial).before
  | parenthesized read h => exact ⟨_, ready, (read.moves trivial).before.trans (Cursor.past_mark h).1⟩
  | itemsEnd h => exact .of_mark h (.refl _)
  | itemsCons seen h going read separated more ih =>
    exact (ih ⟨seen, h⟩ trivial trivial).before
      ((Cursor.before_separator separated).trans (more.moves trivial).before)
  | spread read => exact ⟨_, ready.1, (read.moves trivial).before⟩
  | element h read ih => exact ih trivial trivial accepted
  | itemProperty h read ih => exact ih ready trivial accepted
  | property key colon read =>
    exact ⟨_, ready.1, key.key_after.trans ((Cursor.past_mark colon).1.trans (read.moves trivial).before)⟩
  | shorthand key plain ended => exact ⟨_, ready.1, key.key_after⟩
  | key made => exact ⟨_, ready.1, .refl _⟩
  | computed read h => exact ⟨_, ready.1, (read.moves trivial).before.trans (Cursor.past_mark h).1⟩
  | kept seen read filled =>
    obtain ⟨-, rfl⟩ | ⟨t, seen', along⟩ := parts_takes read
    · exact absurd rfl filled
    · cases (Cursor.sight?_start seen).symm.trans seen'
      exact ⟨_, seen, along⟩
  | markup read ih => exact ih trivial trivial trivial
  | fragment less greater read close =>
    exact .of_mark less
      ((Cursor.past_mark greater).1.trans ((read.moves trivial).before.trans close.past.1))
  | selfClosing less named read found =>
    exact .of_mark less (read.past.1.trans (found.moves trivial).before)
  | tag less named read found inside close =>
    exact .of_mark less (read.past.1.trans
      ((found.moves trivial).before.trans ((inside.moves trivial).before.trans close.past.1)))
  | attributesSlash slash greater => exact .of_mark slash (Cursor.past_mark greater).1
  | attributesGreater greater => exact .of_mark greater (.refl _)
  | attributesSpread seen read more ih | attributesNamed seen named read more ih =>
    exact (ih trivial trivial trivial).before (more.moves trivial).before
  | spreadAttribute opening ellipsis read closing =>
    exact .of_mark opening ((Cursor.past_mark ellipsis).1.trans
      ((read.moves trivial).before.trans (Cursor.past_mark closing).1))
  | namedValue named equals read =>
    exact named.takes.before ((Cursor.past_mark equals).1.trans
      ((Cursor.before_skipBlanks _).trans (read.moves trivial).before))
  | namedBare named plain => exact named.takes
  | containerEmpty opening closing => exact .of_mark opening (Cursor.past_mark closing).1
  | container opening filled read closing =>
    exact .of_mark opening ((read.moves trivial).before.trans (Cursor.past_mark closing).1)
  | containerSpread ellipsis read => exact .of_mark ellipsis (read.moves trivial).before
  | containerExpression plain read ih => exact ih trivial trivial trivial
  | _ => first | exact accepted.elim | exact begun.elim

def Phrase.at (c : Cursor) : Phrase → Phrase
  | .parenthesized s => .parenthesized (c.sight?.getD s)
  | .item l s token => .item l (c.sight?.getD s) token
  | .property s token => .property (c.sight?.getD s) token
  | .key s token => .key (c.sight?.getD s) token
  | phrase => phrase

/-- Whether the text from a place on is left of what was seen for the phrase. An expression has to be at an
end, and a closing tag has to come after children. -/
def Phrase.Held (back : List Char) : Phrase → Cursor → Prop
  | .expression ends, d | .inner ends, d | .kept ends, d | .parts ends .., d =>
    ends ⊆ closers ∧ d.Sees back ∧ d.endsAt ends = true
  | .item l .., d => d.Sees back ∧ d.endsAt l.ends = true
  | .property .., d => d.Sees back ∧ d.endsAt Listing.object.ends = true
  | .spreadOrExpression, d => d.Sees back ∧ d.endsAt [.closeBrace] = true
  | .structured, d | .parenthesized _, d | .items _, d | .key .., d | .namedAttribute, d => d.Sees back
  | .children, d => ∃ name f, ReadsClosing d name f ∧ f.Spares back
  | .statements, _ => False
  | _, d => d.Spares back

inductive Answer.Shifted (offset : Nat) : Answer → Answer → Prop where
  | node (e : Shape) : Shifted offset (.node e) (.node (e.shift offset))
  | nodes (es : List Shape) : Shifted offset (.nodes es) (.nodes (es.map (Shape.shift offset)))
  | key (k : PropertyKey Shape) : Shifted offset (.key k) (.key (k.map (Shape.shift offset)))
  | parts (ps : List (OpaquePart Shape)) :
    Shifted offset (.parts ps) (.parts (ps.map (·.map (Shape.shift offset))))
  | attributes (es : List Shape) (closed : Bool) :
    Shifted offset (.attributes es closed) (.attributes (es.map (Shape.shift offset)) closed)

def Phrase.Twinned (c c' : Cursor) : Phrase → Answer → Prop
  | .kept ends, _ => Printer.Twin ends [] [] none c c'
  | .parts ends opened before text, .parts found => ∀ items, Printer.Met text found items →
    KeptItem.settle opened before items = true → Printer.Twin ends [] opened before c c'
  | _, _ => True

/-- The phrase is read at the place in the part, with the same answer and up to the same place. -/
def Phrase.Again (offset : Nat) (back : List Char) (phrase : Phrase) (c : Cursor) (a : Answer) (d : Cursor) : Prop :=
  ∃ a' d', d = d'.embed offset back ∧ a'.Shifted offset a ∧ Reads (phrase.at c) c a' d' ∧
    phrase.Twinned (c.embed offset back) c a

/-- The phrase is read again if its place is one in the part, the part holds what was seen for it and the
kept texts in the answer are settled. -/
def Phrase.Recurs (offset : Nat) (back : List Char) (phrase : Phrase) (c : Cursor) (a : Answer) (d : Cursor) :
    Prop :=
  ∀ ⦃c' : Cursor⦄, c = c'.embed offset back → phrase.Ready c → a.Accepts → phrase.Held back d →
    (∀ e ∈ a.shapes, e.Settled) → phrase.Again offset back c' a d

section

variable {offset start stop : Nat} {kind : NodeKind Shape}

theorem shifted_node (kind : NodeKind Shape) : Answer.Shifted offset (.node (shapeAt kind start stop))
    (.node (shapeAt (kind.map (Shape.shift offset)) (start + offset) (stop + offset))) := by
  have h := @Answer.Shifted.node offset (shapeAt kind start stop)
  rwa [shapeAt, Shape.shift_node] at h

theorem settled_children (h : ∀ e ∈ (Answer.node (shapeAt kind start stop)).shapes, e.Settled) :
    ∀ e ∈ kind.children, e.Settled :=
  (h _ (List.mem_singleton.2 rfl)).children

theorem LeafOf.map {token : Token} (h : LeafOf token kind) (f : Shape → Shape) : kind.map f = kind := by
  refine (NodeKind.map_congr fun child hc => ?_).trans kind.map_id
  rw [h.children] at hc
  cases hc

theorem KeyOf.map {token : Token} {k : PropertyKey Shape} (h : KeyOf token k) (f : Shape → Shape) :
    k.map f = k := by
  have leaf := h.children
  cases k with
  | computed e => cases leaf
  | _ => rfl

theorem shifted_token {token : Token} (h : LeafOf token kind) : Answer.Shifted offset
    (.node (shapeAt kind start stop)) (.node (shapeAt kind (start + offset) (stop + offset))) := by
  have shifted := @shifted_node offset start stop kind
  rwa [h.map] at shifted

theorem shifted_name {token : Token} {k : PropertyKey Shape} (h : KeyOf token k) :
    Answer.Shifted offset (.key k) (.key k) := by
  have shifted := @Answer.Shifted.key offset k
  rwa [h.map] at shifted

theorem shifted_shorthand {name : String} {a b : Nat} : Answer.Shifted offset
    (.node (shapeAt (.property (.identifier name) (shapeAt (.identifier name) a b) true) start stop))
    (.node (shapeAt (.property (.identifier name) (shapeAt (.identifier name) (a + offset) (b + offset)) true)
      (start + offset) (stop + offset))) := by
  have value : (shapeAt (.identifier name) a b).shift offset =
      shapeAt (.identifier name) (a + offset) (b + offset) :=
    Shape.shift_node offset _ _
  have shifted := @shifted_node offset start stop
    (.property (.identifier name) (shapeAt (.identifier name) a b) true)
  rwa [NodeKind.map, value] at shifted

theorem sourcePart_map (f : Shape → Shape) (text : List Char) :
    (sourcePart text).map (·.map f) = sourcePart text := by
  cases text <;> rfl

theorem shifted_source (text : List Char) :
    Answer.Shifted offset (.parts (sourcePart text)) (.parts (sourcePart text)) := by
  have shifted := @Answer.Shifted.parts offset (sourcePart text)
  rwa [sourcePart_map] at shifted

theorem shifted_parts (text : List Char) (e : Shape) (parts : List (OpaquePart Shape)) :
    Answer.Shifted offset (.parts (sourcePart text ++ .node e :: parts))
      (.parts (sourcePart text ++ .node (e.shift offset) :: parts.map (·.map (Shape.shift offset)))) := by
  have shifted := @Answer.Shifted.parts offset (sourcePart text ++ .node e :: parts)
  rwa [List.map_append, sourcePart_map] at shifted

theorem shifted_children (front : List Shape) (e : Shape) (others : List Shape) :
    Answer.Shifted offset (.nodes (front ++ e :: others))
      (.nodes (front.map (Shape.shift offset) ++ e.shift offset :: others.map (Shape.shift offset))) := by
  have shifted := @Answer.Shifted.nodes offset (front ++ e :: others)
  rwa [List.map_append] at shifted

end

section

variable {m : Cursor}

theorem parts_sees {ends opened : List Punctuator} {before : Option Token} {text : List Char}
    {found : List (OpaquePart Shape)} (h : Reads (.parts ends opened before text) c (.parts found) d)
    (sees : d.Sees back) : c.Sees back := by
  obtain ⟨rfl, -⟩ | takes := parts_takes h
  · exact sees
  · exact takes.sees sees

theorem Phrase.Held.children (h : Phrase.children.Held back d) : d.Spares back := by
  obtain ⟨name, f, close, spared⟩ := h
  exact (close.sees spared).spares

theorem attributes_sees {found : List Shape} {closed : Bool}
    (h : Reads .attributes c (.attributes found closed) d) (spared : d.Spares back) : c.Sees back := by
  cases h with
  | attributesSlash slash greater => exact .of_mark slash (spared.of_before (Cursor.past_mark greater).1)
  | attributesGreater greater => exact .of_mark greater spared
  | attributesSpread _ read more | attributesNamed _ _ read more =>
    exact (read.takes trivial trivial trivial).sees_of_past (attributes_past more) spared

theorem items_sees {l : Listing} {found : List Shape} {closing : Punctuator}
    (separated : c.separator? closing = some m) (h : Reads (.items l) m (.nodes found) d) (sees : d.Sees back) :
    c.Sees back := by
  have next := (h.takes trivial trivial trivial).sees sees
  unfold Cursor.separator? at separated
  split at separated
  · rename_i s comma
    cases separated
    exact .of_mark comma next.spares
  · split at separated
    · cases separated
      exact next
    · cases separated

theorem markup_sees {e : Shape} (h : Reads .markup c (.node e) d) (spared : d.Spares back) :
    ∃ s, c.mark? .less = some s ∧ s.stop.Sees back := by
  obtain ⟨s, m, less, second, past⟩ := h.markup_second
  exact ⟨s, less, second.sees_of_past past spared⟩

end

end Parser

end MarkupEditor
