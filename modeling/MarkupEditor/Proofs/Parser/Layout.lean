import MarkupEditor.Proofs.Markup.Slots
import MarkupEditor.Proofs.Parser.Progress

set_option autoImplicit false

namespace MarkupEditor

/-- The nodes lie one after the other between two offsets, each around its own children. -/
inductive Laid : Nat → List Shape → Nat → Prop where
  | nil {start stop : Nat} (h : start ≤ stop) : Laid start [] stop
  | cons {start stop : Nat} {span : Span} {kind : NodeKind Shape} {others : List Shape}
    (after : start ≤ span.start) (filled : span.start < span.stop)
    (inside : Laid span.start kind.children span.stop) (more : Laid span.stop others stop) :
    Laid start (.node (some span) kind :: others) stop

namespace Laid

variable {start stop mid : Nat} {shapes shapes' : List Shape}

theorem le (h : Laid start shapes stop) : start ≤ stop := by
  induction h with
  | nil h => exact h
  | cons after filled inside more _ ih => omega

theorem lt {shape : Shape} (h : Laid start (shape :: shapes) stop) : start < stop := by
  cases h with
  | cons after filled inside more =>
    have hle := more.le
    omega

theorem widen_start {start' : Nat} (h : Laid start shapes stop) (hs : start' ≤ start) :
    Laid start' shapes stop := by
  cases h with
  | nil h => exact .nil (Nat.le_trans hs h)
  | cons after filled inside more => exact .cons (Nat.le_trans hs after) filled inside more

theorem widen_stop {stop' : Nat} (h : Laid start shapes stop) (hs : stop ≤ stop') :
    Laid start shapes stop' := by
  induction h with
  | nil h => exact .nil (Nat.le_trans h hs)
  | cons after filled inside more _ ih => exact .cons after filled inside (ih hs)

theorem append (h : Laid start shapes mid) (h' : Laid mid shapes' stop) :
    Laid start (shapes ++ shapes') stop := by
  induction h with
  | nil h => exact h'.widen_start h
  | cons after filled inside more _ ih => exact .cons after filled inside (ih h')

theorem node {a b p q : Nat} {kind : NodeKind Shape} (inside : Laid p kind.children q) (after : start ≤ a)
    (front : a ≤ p) (back : q ≤ b) (filled : a < b) :
    Laid start [Parser.shapeAt kind a b] b :=
  .cons after filled ((inside.widen_start front).widen_stop back) (.nil (Nat.le_refl _))

end Laid

namespace Parser

variable {c d : Cursor}

def Answer.shapes : Answer → List Shape
  | .other => []
  | .node e => [e]
  | .nodes es => es
  | .key k => k.children
  | .parts ps => ps.filterMap (·.child?)
  | .attributes es _ => es

def Phrase.slot : Phrase → ChildSlot
  | .items .object | .item .object .. | .property .. => .property
  | .items .array | .item .array .. | .spreadOrExpression => .item
  | .parts .. | .markup | .tag => .part
  | .attributes | .spreadAttribute | .namedAttribute => .attribute
  | .value => .value
  | .children | .container => .child
  | .statements => .statement
  | _ => .expression

/-- Where the first node of an answer starts at the earliest. -/
def Phrase.front : Phrase → Answer → Cursor → Nat
  | .key s _, .key _, _ => s.start.pos
  | .value, _, c => c.pos
  | _, .node _, c => c.nextStart
  | _, _, c => c.pos

theorem pos_le_nextStart (c : Cursor) : c.pos ≤ c.nextStart := by
  rw [Cursor.nextStart]
  cases hs : c.sight? with
  | none => exact Nat.le_add_right _ _
  | some s => exact (Cursor.before_start hs).pos_le

theorem Phrase.front_le {phrase : Phrase} (a : Answer) (ready : phrase.Ready c) :
    c.pos ≤ phrase.front a c := by
  have hc := pos_le_nextStart c
  cases phrase with
  | key s token =>
    have hs := (Cursor.before_start ready.1).pos_le
    cases a <;> first
      | exact hs
      | exact hc
      | exact Nat.le_refl _
  | _ => cases a <;> first
    | exact hc
    | exact Nat.le_refl _

theorem sight_pos {s : Sight} (h : c.sight? = some s) :
    c.nextStart = s.start.pos ∧ c.pos ≤ s.start.pos ∧ s.start.pos < s.stop.pos :=
  ⟨by rw [Cursor.nextStart, h]; rfl, (Cursor.before_start h).pos_le, Cursor.start_lt_stop h⟩

theorem mark_pos {s : Sight} {mark : Punctuator} (h : c.mark? mark = some s) :
    c.nextStart = s.start.pos ∧ c.pos ≤ s.start.pos ∧ s.start.pos < s.stop.pos :=
  sight_pos (Cursor.mark?_eq_some.1 h).1

theorem ReadsClosing.pos_lt {name : Option String} (h : ReadsClosing c name d) : c.pos < d.pos :=
  h.past.1.pos_lt_iff.2 h.past.2

theorem ReadsElementName.pos_lt {name : String} (h : ReadsElementName c name d) : c.pos < d.pos :=
  h.past.1.pos_lt_iff.2 h.past.2

theorem ReadsAttributeName.start_pos {name : String} (h : ReadsAttributeName c name d) :
    c.pos ≤ c.nextStart ∧ c.nextStart < d.pos := by
  have front {e : Cursor} {first : String} (h : ReadsName c first e) :
      c.pos ≤ c.nextStart ∧ c.nextStart < e.pos := by
    obtain ⟨seen, _⟩ := h
    have hs := sight_pos seen
    omega
  cases h with
  | colon read colon back =>
    have hc := (Cursor.past_mark colon).1.pos_le
    have hb := back.past.1.pos_le
    have hf := front read
    omega
  | plain read plain => exact front read

theorem ReadsText.laid {front : List Shape} (h : ReadsText c front d) : Laid c.pos front d.pos := by
  have hpos := h.before.pos_le
  cases h with
  | empty h => exact .nil hpos
  | text h clean stop =>
    refine .node (.nil (Nat.le_refl c.pos)) (Nat.le_refl _) (Nat.le_refl _) hpos ?_
    have hlen := Text.byteLength_pos h
    rw [stop]
    change c.pos < c.pos + _
    omega

theorem sourcePart_children (text : List Char) :
    (sourcePart text : List (OpaquePart Shape)).filterMap (·.child?) = [] := by
  unfold sourcePart
  split <;> rfl

theorem LeafOf.children {token : Token} {kind : NodeKind Shape} (h : LeafOf token kind) :
    kind.children = [] := by
  cases h with
  | number h => rfl
  | plain h =>
    cases token with
    | keyword word => cases word <;> cases h <;> rfl
    | _ => cases h <;> rfl

theorem KeyOf.children {token : Token} {key : PropertyKey Shape} (h : KeyOf token key) :
    key.children = [] := by
  cases h with
  | number h => rfl
  | plain h => cases token <;> cases h <;> rfl

theorem laid_wide {shapes : List Shape} {phrase : Phrase} {a : Answer} {stop : Nat}
    (h : Laid (phrase.front a c) shapes stop) (ready : phrase.Ready c) : Laid c.pos shapes stop :=
  h.widen_start (phrase.front_le a ready)

theorem laid_seen {s : Sight} {kind : NodeKind Shape} {back stop : Nat} (seen : c.sight? = some s)
    (inside : Laid s.stop.pos kind.children back) (hstop : back ≤ stop) :
    Laid c.nextStart [shapeAt kind s.start.pos stop] stop := by
  have hs := sight_pos seen
  have hle := inside.le
  exact inside.node (Nat.le_of_eq hs.1) (Nat.le_of_lt hs.2.2) hstop (by omega)

theorem laid_marked {s : Sight} {mark : Punctuator} {kind : NodeKind Shape} {back stop : Nat}
    (seen : c.mark? mark = some s) (inside : Laid s.stop.pos kind.children back) (hstop : back ≤ stop) :
    Laid c.nextStart [shapeAt kind s.start.pos stop] stop :=
  laid_seen (Cursor.mark?_eq_some.1 seen).1 inside hstop

theorem mark_le {s : Sight} {mark : Punctuator} (h : c.mark? mark = some s) : c.pos ≤ s.stop.pos :=
  (Cursor.past_mark h).1.pos_le

/-- The nodes of an answer lie one after the other from where the phrase has its first one. -/
def LaidFront (phrase : Phrase) (c : Cursor) (a : Answer) (d : Cursor) : Prop :=
  phrase.Ready c → a ≠ .other → Laid (phrase.front a c) a.shapes d.pos

namespace LaidFront

variable {phrase : Phrase} {marks opened opened' : List Punctuator} {before before' : Option Token}
  {text text' : List Char} {f g : Cursor} {s t u : Sight} {token : Token} {mark : Punctuator} {l : Listing}
  {e : Shape} {es front others : List Shape} {closed : Bool}

theorem node (h : LaidFront phrase c (.node e) d) (ready : phrase.Ready c) : Laid c.pos [e] d.pos :=
  laid_wide (h ready nofun) ready

/-! ### Expressions and lists -/

theorem leaf {kind : NodeKind Shape} (seen : c.sight? = some s) (made : LeafOf token kind) :
    LaidFront .structured c (.node (.node (some s.span) kind)) s.stop := by
  intro _ _
  have inside : Laid s.stop.pos kind.children s.stop.pos := by
    rw [made.children]
    exact .nil (Nat.le_refl _)
  exact laid_seen seen inside (Nat.le_refl _)

theorem negative {n : Sight} {value : Literal} {raw : Option String} (seen : c.mark? .minus = some s)
    (next : s.stop.sight? = some n) :
    LaidFront .structured c (.node (shapeAt (.literal value raw) s.start.pos n.stop.pos)) n.stop :=
  fun _ _ => laid_marked seen (.nil (Nat.le_refl _)) (Cursor.past_stop next).1.pos_le

theorem listing (read : LaidFront (.items l) s.stop (.nodes es) d) (seen : c.mark? mark = some s) :
    LaidFront .structured c (.node (shapeAt (l.kind es) s.start.pos d.pos)) d := by
  intro _ _
  have inside : Laid s.stop.pos (l.kind es).children d.pos := by
    cases l <;> exact read trivial nofun
  exact laid_marked seen inside (Nat.le_refl _)

theorem parenthesized (read : LaidFront (.inner marks) s.stop (.node e) d) (close : d.mark? mark = some t) :
    LaidFront (.parenthesized s) c (.node (shapeAt (.parenthesized e) s.start.pos t.stop.pos)) t.stop :=
  fun ready _ => laid_seen ready (read.node trivial) (mark_le close)

theorem itemsCons (read : LaidFront (.item l s token) c (.node e) d) (seen : c.sight? = some s)
    (h : s.token = some token) (separated : d.separator? mark = some f)
    (more : LaidFront (.items l) f (.nodes others) g) : LaidFront (.items l) c (.nodes (e :: others)) g := by
  intro _ _
  have first : Laid c.pos [e] f.pos :=
    (read.node ⟨seen, h⟩).widen_stop (Cursor.before_separator separated).pos_le
  exact first.append (more trivial nofun)

theorem spread (read : LaidFront (.inner marks) s.stop (.node e) d) :
    LaidFront (.item l s token) c (.node (shapeAt (.spread e) s.start.pos d.pos)) d :=
  fun ready _ => laid_seen ready.1 (read.node trivial) (Nat.le_refl _)

/-! ### Properties -/

theorem property {k : PropertyKey Shape} (key : LaidFront (.key s token) c (.key k) d)
    (colon : d.mark? mark = some t) (read : LaidFront (.inner marks) t.stop (.node e) f) :
    LaidFront (.property s token) c (.node (shapeAt (.property k e false) s.start.pos f.pos)) f := by
  intro ready _
  have hs := sight_pos ready.1
  have keyed : Laid s.start.pos k.children d.pos := key ready nofun
  have value : Laid d.pos [e] f.pos := (read.node trivial).widen_start (mark_le colon)
  have inside : Laid s.start.pos (k.children ++ [e]) f.pos := keyed.append value
  have filled : s.start.pos < f.pos := Nat.lt_of_le_of_lt keyed.le value.lt
  exact inside.node (Nat.le_of_eq hs.1) (Nat.le_refl _) (Nat.le_refl _) filled

theorem shorthand {name : String} (key : Reads (.key s token) c (.key (.identifier name)) d) :
    LaidFront (.property s token) c
      (.node (shapeAt (.property (.identifier name) (.node (some s.span) (.identifier name)) true)
        s.start.pos d.pos)) d := by
  intro ready _
  cases key with
  | key made =>
    have hs := sight_pos ready.1
    have empty : Laid s.start.pos [] s.start.pos := .nil (Nat.le_refl _)
    have inside : Laid s.start.pos [shapeAt (.identifier name) s.start.pos s.stop.pos] s.stop.pos :=
      empty.node (Nat.le_refl _) (Nat.le_refl _) (Nat.le_of_lt hs.2.2) hs.2.2
    exact inside.node (Nat.le_of_eq hs.1) (Nat.le_refl _) (Nat.le_refl _) hs.2.2

theorem key {k : PropertyKey Shape} (made : KeyOf token k) : LaidFront (.key s token) c (.key k) s.stop := by
  intro ready _
  rw [Answer.shapes, made.children]
  exact .nil (Nat.le_of_lt (sight_pos ready.1).2.2)

theorem computed (read : LaidFront (.inner marks) s.stop (.node e) d) (close : d.mark? mark = some t) :
    LaidFront (.key s token) c (.key (.computed e)) t.stop := by
  intro ready _
  have inside : Laid s.stop.pos [e] d.pos := read.node trivial
  exact (inside.widen_start (Nat.le_of_lt (sight_pos ready.1).2.2)).widen_stop (mark_le close)

/-! ### Kept texts -/

theorem kept {found : List (OpaquePart Shape)} (seen : c.sight? = some s)
    (read : Reads (.parts marks [] none []) s.start (.parts found) d) (filled : found ≠ [])
    (inside : LaidFront (.parts marks [] none []) s.start (.parts found) d) :
    LaidFront (.kept marks) c (.node (shapeAt (.opaqueText found) s.start.pos d.pos)) d := by
  intro _ _
  have past : s.start.pos < d.pos := by
    rcases read.moves trivial with hd | ⟨rfl, _⟩
    · exact hd.1.pos_lt_iff.2 hd.2
    · exact absurd rfl filled
  exact (inside trivial nofun : Laid _ _ _).node (Nat.le_of_eq (sight_pos seen).1) (Nat.le_refl _)
    (Nat.le_refl _) past

theorem partsNil (skipped : List Char) :
    LaidFront (.parts marks opened before text) c (.parts (sourcePart skipped)) c := by
  intro _ _
  rw [Answer.shapes, sourcePart_children]
  exact .nil (Nat.le_refl _)

theorem partsMarkup {found : List (OpaquePart Shape)} {skipped : List Char}
    (read : LaidFront .markup c (.node e) d)
    (more : LaidFront (.parts marks opened' before' text') d (.parts found) f) :
    LaidFront (.parts marks opened before text) c (.parts (sourcePart skipped ++ .node e :: found)) f := by
  intro _ _
  rw [Answer.shapes, List.filterMap_append, sourcePart_children, List.nil_append]
  exact (read.node trivial).append (more trivial nofun)

/-! ### Tags and attributes -/

theorem fragment (less : c.mark? .less = some s) (greater : s.stop.mark? .greater = some t)
    (inside : LaidFront .children t.stop (.nodes es) d) (close : ReadsClosing d none f) :
    LaidFront .tag c (.node (shapeAt (.fragment es) s.start.pos f.pos)) f := by
  intro _ _
  have children : Laid s.stop.pos es d.pos := (inside trivial nofun : Laid _ _ _).widen_start (mark_le greater)
  exact laid_marked less children (Nat.le_of_lt close.pos_lt)

theorem selfClosing {name : String} (less : c.mark? .less = some s) (read : ReadsElementName s.stop name d)
    (found : LaidFront .attributes d (.attributes es true) f) :
    LaidFront .tag c (.node (shapeAt (.element name es [] true) s.start.pos f.pos)) f := by
  intro _ _
  have attributes : Laid s.stop.pos es f.pos :=
    (found trivial nofun : Laid _ _ _).widen_start (Nat.le_of_lt read.pos_lt)
  have inside : Laid s.stop.pos (es ++ []) f.pos := (List.append_nil es).symm ▸ attributes
  exact laid_marked less inside (Nat.le_refl _)

theorem tag {name : String} {k : Cursor} (less : c.mark? .less = some s)
    (read : ReadsElementName s.stop name d) (found : LaidFront .attributes d (.attributes es false) f)
    (inside : LaidFront .children f (.nodes others) g) (close : ReadsClosing g (some name) k) :
    LaidFront .tag c (.node (shapeAt (.element name es others false) s.start.pos k.pos)) k := by
  intro _ _
  have attributes : Laid s.stop.pos es f.pos :=
    (found trivial nofun : Laid _ _ _).widen_start (Nat.le_of_lt read.pos_lt)
  have all : Laid s.stop.pos (es ++ others) g.pos := attributes.append (inside trivial nofun)
  exact laid_marked less all (Nat.le_of_lt close.pos_lt)

theorem attributesCons (read : Laid c.pos [e] d.pos)
    (more : LaidFront .attributes d (.attributes others closed) f) :
    LaidFront .attributes c (.attributes (e :: others) closed) f :=
  fun _ _ => read.append (more trivial nofun)

theorem spreadAttribute (opening : c.mark? .openBrace = some s) (ellipsis : s.stop.mark? .ellipsis = some t)
    (read : LaidFront (.expression marks) t.stop (.node e) d) (close : d.mark? .closeBrace = some u) :
    LaidFront .spreadAttribute c (.node (shapeAt (.spreadAttribute e) s.start.pos u.stop.pos)) u.stop :=
  fun _ _ => laid_marked opening ((read.node trivial).widen_start (mark_le ellipsis)) (mark_le close)

theorem namedValue {name : String} (named : ReadsAttributeName c name d) (equals : d.mark? .equals = some s)
    (read : LaidFront .value s.stop.skipBlanks (.node e) f) :
    LaidFront .namedAttribute c (.node (shapeAt (.namedAttribute name (some e)) c.nextStart f.pos)) f := by
  intro _ _
  have hd := named.start_pos
  have hs := mark_le equals
  have hb := (Cursor.before_skipBlanks s.stop).pos_le
  have inside : Laid s.stop.skipBlanks.pos [e] f.pos := read trivial nofun
  have hle := inside.le
  exact inside.node (Nat.le_refl _) (by omega) (Nat.le_refl _) (by omega)

theorem namedBare {name : String} (named : ReadsAttributeName c name d) :
    LaidFront .namedAttribute c (.node (shapeAt (.namedAttribute name none) c.nextStart d.pos)) d := by
  intro _ _
  have hd := named.start_pos.2
  have inside : Laid c.nextStart [] c.nextStart := .nil (Nat.le_refl _)
  exact inside.node (Nat.le_refl _) (Nat.le_refl _) (Nat.le_of_lt hd) hd

theorem valueString {value : Literal} {raw : Option String} {x : Char} {body rest : List Char}
    (stop : d = c.advance (x :: body) rest) :
    LaidFront .value c (.node (shapeAt (.literal value raw) c.pos d.pos)) d := by
  intro _ _
  have hd : c.pos < d.pos := by
    rw [stop]
    exact Nat.lt_add_of_pos_right (Text.byteLength_pos (List.cons_ne_nil _ _))
  have inside : Laid c.pos [] c.pos := .nil (Nat.le_refl _)
  exact inside.node (Nat.le_refl _) (Nat.le_refl _) (Nat.le_of_lt hd) hd

/-! ### Children and containers -/

theorem container (opening : c.mark? .openBrace = some s) (read : Laid s.stop.pos [e] d.pos)
    (close : d.mark? .closeBrace = some t) :
    LaidFront .container c (.node (shapeAt (.expressionContainer (some e)) s.start.pos t.stop.pos)) t.stop :=
  fun _ _ => laid_marked opening read (mark_le close)

theorem containerEmpty (opening : c.mark? .openBrace = some s) (close : s.stop.mark? .closeBrace = some t) :
    LaidFront .container c (.node (shapeAt (.expressionContainer none) s.start.pos t.stop.pos)) t.stop :=
  fun _ _ => laid_marked opening (.nil (Nat.le_refl _)) (mark_le close)

theorem containerSpread (ellipsis : c.mark? .ellipsis = some s)
    (read : LaidFront (.expression marks) s.stop (.node e) d) :
    LaidFront .spreadOrExpression c (.node (shapeAt (.spread e) s.start.pos d.pos)) d :=
  fun _ _ => laid_marked ellipsis (read.node trivial) (Nat.le_refl _)

theorem childrenCons (text : ReadsText c front d) (read : Laid d.pos [e] f.pos)
    (more : LaidFront .children f (.nodes others) g) :
    LaidFront .children c (.nodes (front ++ e :: others)) g :=
  fun _ _ => text.laid.append (read.append (more trivial nofun))

theorem statement (seen : c.sight? = some s) (read : LaidFront (.expression marks) c (.node e) d)
    (more : LaidFront .statements d (.nodes others) f) :
    LaidFront .statements c (.nodes (shapeAt (.expressionStatement e) s.start.pos d.pos :: others)) f := by
  intro _ _
  have hs := sight_pos seen
  have inside : Laid s.start.pos [e] d.pos := hs.1 ▸ read trivial nofun
  have first : Laid c.pos [shapeAt (.expressionStatement e) s.start.pos d.pos] d.pos :=
    Laid.node inside hs.2.1 (Nat.le_refl _) (Nat.le_refl _) inside.lt
  exact first.append (more trivial nofun)

end LaidFront

theorem Reads.laid_front {phrase : Phrase} {a : Answer} (h : Reads phrase c a d) : LaidFront phrase c a d := by
  induction h with
  | structuredExpression attempt ended ih => exact ih
  | keptOther attempt kept _ ih => exact ih
  | keptUnended attempt going kept _ ih => exact ih
  | innerSome going read ih => exact ih
  | leaf seen h made => exact .leaf seen made
  | negative seen next h read => exact .negative seen next
  | structuredMarkup seen read ih => exact ih
  | @structuredParenthesized c d s a seen read ih =>
    intro _ answered
    have inside := ih (Cursor.mark?_eq_some.1 seen).1 answered
    cases a <;> exact inside
  | listing seen opens read ih => exact ih.listing seen
  | parenthesized read close ih => exact ih.parenthesized close
  | itemsEnd h => exact fun _ _ => .nil (mark_le h)
  | itemsCons seen h going read separated more ih ih' => exact ih.itemsCons seen h separated ih'
  | spread read ih => exact ih.spread
  | @element c d s token a h read ih =>
    intro _ answered
    have inside := ih trivial answered
    cases a <;> exact inside
  | @itemProperty c d s token a h read ih =>
    intro ready answered
    have inside := ih ready answered
    cases a <;> exact inside
  | property key colon read ih ih' => exact ih.property colon ih'
  | shorthand key plain ended => exact .shorthand key
  | key made => exact .key made
  | computed read close ih => exact ih.computed close
  | kept seen read filled ih => exact .kept seen read filled ih
  | partsEnd h => exact .partsNil _
  | partsStop seen h => exact .partsNil _
  | partsTake seen h read ih =>
    exact fun _ _ => (ih trivial nofun : Laid _ _ _).widen_start (Cursor.past_stop seen).1.pos_le
  | partsMarkup seen h read more ih ih' => exact ih.partsMarkup ih'
  | markup read ih => exact ih
  | fragment less greater read close ih => exact .fragment less greater ih close
  | selfClosing less named read found ih => exact .selfClosing less read ih
  | tag less named read found inside close ih ih' => exact .tag less read ih ih' close
  | attributesSlash slash greater => exact fun _ _ => .nil (Nat.le_trans (mark_le slash) (mark_le greater))
  | attributesGreater greater => exact fun _ _ => .nil (mark_le greater)
  | attributesSpread seen read more ih ih' => exact .attributesCons (ih.node trivial) ih'
  | attributesNamed seen named read more ih ih' => exact .attributesCons (ih.node trivial) ih'
  | spreadAttribute opening ellipsis read close ih => exact .spreadAttribute opening ellipsis ih close
  | namedValue named equals read ih => exact ih.namedValue named equals
  | namedBare named plain => exact .namedBare named
  | valueString h quoted closed stop => exact .valueString stop
  | valueContainer h opening filled read close ih =>
    exact fun _ _ => (LaidFront.container opening (ih.node trivial) close).node trivial
  | valueMarkup h read ih => exact fun _ _ => ih.node trivial
  | childrenEnd text h closing => exact fun _ _ => text.laid
  | childrenContainer text h read more ih ih' => exact .childrenCons text (ih.node trivial) ih'
  | childrenMarkup text h opening read more ih ih' => exact .childrenCons text (ih.node trivial) ih'
  | containerEmpty opening close => exact .containerEmpty opening close
  | container opening filled read close ih => exact .container opening (ih.node trivial) close
  | containerSpread ellipsis read ih => exact ih.containerSpread ellipsis
  | containerExpression plain read ih => exact ih
  | statementsEnd h => exact fun _ _ => .nil (Nat.le_refl _)
  | semicolon h more ih => exact fun _ _ => (ih trivial nofun : Laid _ _ _).widen_start (mark_le h)
  | statement seen h read more ih ih' => exact .statement seen ih ih'
  | _ => exact fun _ answered => absurd rfl answered

theorem Reads.laid {phrase : Phrase} {a : Answer} (h : Reads phrase c a d) (ready : phrase.Ready c) :
    Laid c.pos a.shapes d.pos := by
  cases a with
  | other => exact .nil (h.moves ready).before.pos_le
  | _ => exact laid_wide (h.laid_front ready nofun) ready

theorem LeafOf.fits {token : Token} {kind : NodeKind Shape} (h : LeafOf token kind)
    (span : Option Span) : (Shape.node span kind).Fits .expression := by
  cases h with
  | number h => exact .around rfl .nil
  | plain h =>
    cases token with
    | keyword word => cases word <;> cases h <;> exact .around rfl .nil
    | _ => cases h <;> exact .around rfl .nil

theorem ReadsText.fits {front : List Shape} (h : ReadsText c front d) : ∀ e ∈ front, e.Fits .child := by
  cases h with
  | empty h => exact List.forall_mem_nil _
  | text h clean stop => exact List.forall_mem_singleton.2 (.around rfl .nil)

/-- What is read for a slot fits into it. -/
theorem Reads.fits {phrase : Phrase} {a : Answer} (h : Reads phrase c a d) :
    ∀ e ∈ a.shapes, e.Fits phrase.slot := by
  induction h with
  | structuredExpression attempt ended ih => exact ih
  | keptOther attempt kept _ ih => exact ih
  | keptUnended attempt going kept _ ih => exact ih
  | innerSome going read ih => exact ih
  | leaf seen h made => exact List.forall_mem_singleton.2 (made.fits _)
  | negative seen next h read => exact List.forall_mem_singleton.2 (.around rfl .nil)
  | structuredMarkup seen read ih => exact fun e he => (ih e he).expression
  | structuredParenthesized seen read ih => exact ih
  | @listing c d s mark l found seen opens read ih =>
    cases l <;> exact List.forall_mem_singleton.2 (.around rfl (.list ih))
  | parenthesized read h ih => exact List.forall_mem_singleton.2 (.around rfl (.list ih))
  | itemsEnd h => exact List.forall_mem_nil _
  | @itemsCons l c d f g s token e others seen h going read separated more ih ih' =>
    cases l <;> exact List.forall_mem_cons.2 ⟨List.forall_mem_singleton.1 ih, ih'⟩
  | @spread l c d s e read ih =>
    cases l <;> exact List.forall_mem_singleton.2 (.around rfl (.list ih))
  | element h read ih => exact fun e he => (ih e he).item
  | itemProperty h read ih => exact ih
  | property key colon read ih ih' =>
    exact List.forall_mem_singleton.2 (.around rfl ((AllFit.list ih).append (.list ih')))
  | @shorthand c d s token name key plain ended ih =>
    have value : (Shape.node (some s.span) (.identifier name)).Fits .expression := .around rfl .nil
    exact List.forall_mem_singleton.2 (.around rfl (.list (List.forall_mem_singleton.2 value)))
  | key made =>
    rw [Answer.shapes, made.children]
    exact List.forall_mem_nil _
  | computed read h ih => exact ih
  | kept seen read h ih => exact List.forall_mem_singleton.2 (.around rfl (.list ih))
  | partsEnd h =>
    rw [Answer.shapes, sourcePart_children]
    exact List.forall_mem_nil _
  | partsStop seen h =>
    rw [Answer.shapes, sourcePart_children]
    exact List.forall_mem_nil _
  | partsTake seen h read ih => exact ih
  | partsMarkup seen h read more ih ih' =>
    rw [Answer.shapes, List.filterMap_append, sourcePart_children, List.nil_append]
    exact List.forall_mem_cons.2 ⟨List.forall_mem_singleton.1 ih, ih'⟩
  | markup read ih => exact ih
  | fragment less greater read close ih => exact List.forall_mem_singleton.2 (.around rfl (.list ih))
  | selfClosing less named read found ih =>
    exact List.forall_mem_singleton.2 (.around rfl ((AllFit.list ih).append .nil))
  | tag less named read found inside close ih ih' =>
    exact List.forall_mem_singleton.2 (.around rfl ((AllFit.list ih).append (.list ih')))
  | attributesSlash slash greater => exact List.forall_mem_nil _
  | attributesGreater greater => exact List.forall_mem_nil _
  | attributesSpread seen read more ih ih' =>
    exact List.forall_mem_cons.2 ⟨List.forall_mem_singleton.1 ih, ih'⟩
  | attributesNamed seen named read more ih ih' =>
    exact List.forall_mem_cons.2 ⟨List.forall_mem_singleton.1 ih, ih'⟩
  | spreadAttribute opening ellipsis read closing ih =>
    exact List.forall_mem_singleton.2 (.around rfl (.list ih))
  | namedValue named equals read ih => exact List.forall_mem_singleton.2 (.around rfl (.list ih))
  | namedBare named plain => exact List.forall_mem_singleton.2 (.around rfl .nil)
  | valueString h quoted closed stop => exact List.forall_mem_singleton.2 (.around rfl .nil)
  | valueContainer h opening filled read closing ih =>
    exact List.forall_mem_singleton.2 (.around rfl (.list fun e he => (ih e he).item))
  | valueMarkup h read ih => exact fun e he => (ih e he).value
  | childrenEnd text h closing => exact text.fits
  | childrenContainer text h read more ih ih' =>
    exact List.forall_mem_append.2
      ⟨text.fits, List.forall_mem_cons.2 ⟨List.forall_mem_singleton.1 ih, ih'⟩⟩
  | childrenMarkup text h opening read more ih ih' =>
    exact List.forall_mem_append.2
      ⟨text.fits, List.forall_mem_cons.2 ⟨(List.forall_mem_singleton.1 ih).child, ih'⟩⟩
  | containerEmpty opening closing => exact List.forall_mem_singleton.2 (.around rfl .nil)
  | container opening filled read closing ih =>
    exact List.forall_mem_singleton.2 (.around rfl (.list ih))
  | containerSpread ellipsis read ih => exact List.forall_mem_singleton.2 (.around rfl (.list ih))
  | containerExpression plain read ih => exact fun e he => (ih e he).item
  | statementsEnd h => exact List.forall_mem_nil _
  | semicolon h more ih => exact ih
  | statement seen h read more ih ih' =>
    exact List.forall_mem_cons.2 ⟨.around rfl (.list ih), ih'⟩
  | _ => exact List.forall_mem_nil _

end Parser

end MarkupEditor
