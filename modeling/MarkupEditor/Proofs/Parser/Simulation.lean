import MarkupEditor.Proofs.Parser.Determined
import MarkupEditor.Proofs.Parser.Found
import MarkupEditor.Proofs.Parser.Stored

set_option autoImplicit false

namespace MarkupEditor.Parser

open Text

variable {α β γ δ : Type} {source c d : Cursor} {a b : Arena} {sharing : Bool}

namespace Arena

/-- A stored node stands for a nested one. -/
def Shows (a : Arena) (id : NodeId) (shape : Shape) : Prop :=
  a.Holds [id] ∧ a.view id = shape

def ShowsAll (a : Arena) (ids : List NodeId) (shapes : List Shape) : Prop :=
  a.Holds ids ∧ ids.map a.view = shapes

def ShowsKey (a : Arena) (key : PropertyKey NodeId) (key' : PropertyKey Shape) : Prop :=
  a.Holds key.children ∧ key.map a.view = key'

def ShowsParts (a : Arena) (parts : List (OpaquePart NodeId)) (parts' : List (OpaquePart Shape)) :
    Prop :=
  a.Holds (parts.filterMap (·.child?)) ∧ parts.map (·.map a.view) = parts'

def ShowsKind (a : Arena) (kind : NodeKind NodeId) (kind' : NodeKind Shape) : Prop :=
  a.Holds kind.children ∧ kind.map a.view = kind'

section

variable (ha : a.Valid source sharing) (hab : a.tree.Extends b.tree)

include ha hab

theorem Shows.extends {id : NodeId} {shape : Shape} (h : a.Shows id shape) : b.Shows id shape :=
  ⟨h.1.extends hab, (ha.view_extends hab (h.1 id (List.mem_singleton.2 rfl))).trans h.2⟩

theorem ShowsAll.extends {ids : List NodeId} {shapes : List Shape} (h : a.ShowsAll ids shapes) :
    b.ShowsAll ids shapes :=
  ⟨h.1.extends hab, (List.map_congr_left fun id hid => ha.view_extends hab (h.1 id hid)).trans h.2⟩

theorem ShowsKey.extends {key : PropertyKey NodeId} {key' : PropertyKey Shape}
    (h : a.ShowsKey key key') : b.ShowsKey key key' :=
  ⟨h.1.extends hab, (PropertyKey.map_congr fun id hid => ha.view_extends hab (h.1 id hid)).trans h.2⟩

end

theorem ShowsAll.nil (a : Arena) : a.ShowsAll [] [] :=
  ⟨.nil a, rfl⟩

theorem ShowsAll.append {ids ids' : List NodeId} {shapes shapes' : List Shape}
    (h : a.ShowsAll ids shapes) (h' : a.ShowsAll ids' shapes') :
    a.ShowsAll (ids ++ ids') (shapes ++ shapes') :=
  ⟨fun id hid => (List.mem_append.1 hid).elim (h.1 id) (h'.1 id), by rw [List.map_append, h.2, h'.2]⟩

theorem Shows.all {id : NodeId} {shape : Shape} (h : a.Shows id shape) : a.ShowsAll [id] [shape] :=
  ⟨h.1, congrArg (fun shape => [shape]) h.2⟩

theorem ShowsAll.cons {id : NodeId} {shape : Shape} {ids : List NodeId} {shapes : List Shape}
    (h : a.Shows id shape) (h' : a.ShowsAll ids shapes) : a.ShowsAll (id :: ids) (shape :: shapes) :=
  h.all.append h'

section

variable {id : NodeId} {shape : Shape} {ids : List NodeId} {shapes : List Shape}

theorem ShowsKind.literal (value : Literal) (raw : Option String) :
    a.ShowsKind (.literal value raw) (.literal value raw) :=
  ⟨.nil a, rfl⟩

theorem ShowsKind.text (value : String) (raw : Option String) :
    a.ShowsKind (.text value raw) (.text value raw) :=
  ⟨.nil a, rfl⟩

theorem ShowsKind.identifier (name : String) : a.ShowsKind (.identifier name) (.identifier name) :=
  ⟨.nil a, rfl⟩

theorem ShowsKind.expressionContainer_none :
    a.ShowsKind (.expressionContainer none) (.expressionContainer none) :=
  ⟨.nil a, rfl⟩

theorem ShowsKind.namedAttribute_none (name : String) :
    a.ShowsKind (.namedAttribute name none) (.namedAttribute name none) :=
  ⟨.nil a, rfl⟩

theorem ShowsAll.listing (h : a.ShowsAll ids shapes) (l : Listing) :
    a.ShowsKind (l.kind ids) (l.kind shapes) := by
  cases l with
  | object => exact ⟨h.1, congrArg NodeKind.object h.2⟩
  | array => exact ⟨h.1, congrArg NodeKind.array h.2⟩

theorem ShowsAll.program (h : a.ShowsAll ids shapes) : a.ShowsKind (.program ids) (.program shapes) :=
  ⟨h.1, congrArg NodeKind.program h.2⟩

theorem ShowsAll.fragment (h : a.ShowsAll ids shapes) : a.ShowsKind (.fragment ids) (.fragment shapes) :=
  ⟨h.1, congrArg NodeKind.fragment h.2⟩

theorem ShowsAll.element {ids' : List NodeId} {shapes' : List Shape} (h : a.ShowsAll ids shapes)
    (h' : a.ShowsAll ids' shapes') (name : String) (closed : Bool) :
    a.ShowsKind (.element name ids ids' closed) (.element name shapes shapes' closed) := by
  refine ⟨(h.append h').1, ?_⟩
  rw [NodeKind.map, h.2, h'.2]

theorem Shows.expressionStatement (h : a.Shows id shape) :
    a.ShowsKind (.expressionStatement id) (.expressionStatement shape) :=
  ⟨h.1, congrArg NodeKind.expressionStatement h.2⟩

theorem Shows.expressionContainer (h : a.Shows id shape) :
    a.ShowsKind (.expressionContainer (some id)) (.expressionContainer (some shape)) :=
  ⟨h.1, congrArg (fun shape => NodeKind.expressionContainer (some shape)) h.2⟩

theorem Shows.namedAttribute (h : a.Shows id shape) (name : String) :
    a.ShowsKind (.namedAttribute name (some id)) (.namedAttribute name (some shape)) :=
  ⟨h.1, congrArg (fun shape => NodeKind.namedAttribute name (some shape)) h.2⟩

theorem Shows.spreadAttribute (h : a.Shows id shape) :
    a.ShowsKind (.spreadAttribute id) (.spreadAttribute shape) :=
  ⟨h.1, congrArg NodeKind.spreadAttribute h.2⟩

theorem Shows.spread (h : a.Shows id shape) : a.ShowsKind (.spread id) (.spread shape) :=
  ⟨h.1, congrArg NodeKind.spread h.2⟩

theorem Shows.parenthesized (h : a.Shows id shape) :
    a.ShowsKind (.parenthesized id) (.parenthesized shape) :=
  ⟨h.1, congrArg NodeKind.parenthesized h.2⟩

theorem ShowsKey.property {key : PropertyKey NodeId} {key' : PropertyKey Shape}
    (h : a.ShowsKey key key') (h' : a.Shows id shape) (shorthand : Bool) :
    a.ShowsKind (.property key id shorthand) (.property key' shape shorthand) := by
  refine ⟨fun x hx => (List.mem_append.1 hx).elim (h.1 x) (h'.1 x), ?_⟩
  rw [NodeKind.map, h.2, h'.2]

theorem ShowsParts.opaqueText {parts : List (OpaquePart NodeId)} {parts' : List (OpaquePart Shape)}
    (h : a.ShowsParts parts parts') : a.ShowsKind (.opaqueText parts) (.opaqueText parts') :=
  ⟨h.1, congrArg NodeKind.opaqueText h.2⟩

theorem ShowsKey.plain {key : PropertyKey NodeId} (h : key.children = []) :
    a.ShowsKey key (key.map a.view) :=
  ⟨h ▸ .nil a, rfl⟩

theorem Shows.computed (h : a.Shows id shape) : a.ShowsKey (.computed id) (.computed shape) :=
  ⟨h.1, congrArg PropertyKey.computed h.2⟩

theorem showsParts_source (text : List Char) : a.ShowsParts (sourcePart text) (sourcePart text) := by
  unfold sourcePart
  split
  · exact ⟨.nil a, rfl⟩
  · exact ⟨.nil a, rfl⟩

theorem ShowsParts.append {parts others : List (OpaquePart NodeId)}
    {parts' others' : List (OpaquePart Shape)} (h : a.ShowsParts parts parts')
    (h' : a.ShowsParts others others') : a.ShowsParts (parts ++ others) (parts' ++ others') := by
  refine ⟨fun x hx => ?_, by rw [List.map_append, h.2, h'.2]⟩
  rw [List.filterMap_append] at hx
  exact (List.mem_append.1 hx).elim (h.1 x) (h'.1 x)

theorem Shows.part (h : a.Shows id shape) : a.ShowsParts [.node id] [.node shape] :=
  ⟨h.1, congrArg (fun shape => [OpaquePart.node shape]) h.2⟩

end

end Arena

/-- A parse stands at a place of the source with stored nodes that keep the invariant. -/
structure Stands (source : Cursor) (sharing : Bool) (c : Cursor) (a : Arena) : Prop where
  place : source.Before c
  valid : a.Valid source sharing

theorem finds_anything (q : Parser Unit β) (c : Cursor) : Finds True q c fun _ _ => True := by
  unfold Finds
  split <;> trivial

/-- Both ends are the same but for the nodes, and the stored ones hold what `base` held. -/
def Agrees (source : Cursor) (sharing : Bool) (base : Arena) (R : Arena → α → β → Prop) :
    Except Stop (α × State Arena) → Except Stop (β × State Unit) → Prop
  | _, .error .exhausted => True
  | r, .error (.refused error) => r = .error (.refused error)
  | r, .ok (y, t) => ∃ x b, r = .ok (x, ⟨t.cursor, b⟩) ∧ Stands source sharing t.cursor b ∧
      base.tree.Extends b.tree ∧ R b x y

theorem Agrees.base {base : Arena} {R : Arena → α → β → Prop} {r : Except Stop (α × State Arena)}
    {r' : Except Stop (β × State Unit)} (hab : base.tree.Extends a.tree) (h : Agrees source sharing a R r r') :
    Agrees source sharing base R r r' := by
  rcases r' with (error | _) | ⟨y, t⟩
  · exact h
  · trivial
  · obtain ⟨x, b, hr, stands, hext, hR⟩ := h
    exact ⟨x, b, hr, stands, fun _ _ hn => hext (hab hn), hR⟩

/-- A parse on stored nodes goes the way of one on nested nodes. -/
def Matches (source : Cursor) (sharing : Bool) (p : Parser Arena α) (q : Parser Unit β) (c : Cursor) (a : Arena)
    (R : Arena → α → β → Prop) : Prop :=
  Agrees source sharing a R (p ⟨c, a⟩) (q ⟨c, ()⟩)

namespace Matches

variable {p : Parser Arena α} {q : Parser Unit β} {f : α → Parser Arena γ} {g : β → Parser Unit δ}
  {R : Arena → α → β → Prop} {S : Arena → γ → δ → Prop}

theorem pure {x : α} {y : β} (h : Stands source sharing c a) (hR : R a x y) :
    Matches source sharing (Pure.pure x) (Pure.pure y) c a R :=
  ⟨x, a, rfl, h, .refl _, hR⟩

theorem bind_found {short : Prop} {Q : β → Cursor → Prop} (found : Finds short q c Q)
    (h : Matches source sharing p q c a R)
    (h' : ∀ x y d b, Q y d → Stands source sharing d b → a.tree.Extends b.tree → R b x y →
      Agrees source sharing a S (f x ⟨d, b⟩) (g y ⟨d, ()⟩)) :
    Matches source sharing (p >>= f) (q >>= g) c a S := by
  unfold Matches at h ⊢
  unfold Finds at found
  rw [run_bind, run_bind]
  rcases hq : q ⟨c, ()⟩ with (error | _) | ⟨y, d, _⟩ <;> rw [hq] at h found
  · rw [show p ⟨c, a⟩ = _ from h]
    rfl
  · trivial
  · obtain ⟨x, b, hp, stands, hext, hR⟩ := h
    rw [hp]
    exact h' x y d b found stands hext hR

theorem bind_base (h : Matches source sharing p q c a R)
    (h' : ∀ x y d b, Stands source sharing d b → a.tree.Extends b.tree → R b x y →
      Agrees source sharing a S (f x ⟨d, b⟩) (g y ⟨d, ()⟩)) :
    Matches source sharing (p >>= f) (q >>= g) c a S := by
  refine bind_found (finds_anything q c) h fun x y d b _ => h' x y d b

theorem bind (h : Matches source sharing p q c a R)
    (h' : ∀ x y d b, Stands source sharing d b → a.tree.Extends b.tree → R b x y →
      Matches source sharing (f x) (g y) d b S) :
    Matches source sharing (p >>= f) (q >>= g) c a S :=
  h.bind_base fun x y d b stands hext hR => (h' x y d b stands hext hR).base hext

theorem step {x : α} {y : β} (hp : p ⟨c, a⟩ = .ok (x, ⟨d, a⟩)) (hq : q ⟨c, ()⟩ = .ok (y, ⟨d, ()⟩))
    (h : Matches source sharing (f x) (g y) d a S) : Matches source sharing (p >>= f) (q >>= g) c a S := by
  unfold Matches
  rw [run_bind_ok hp, run_bind_ok hq]
  exact h

theorem refuse (error : ParseError) :
    Matches source sharing (Parser.refuse error) (Parser.refuse error) c a R :=
  rfl

theorem halt (h : Matches source sharing p q c a fun _ _ _ => False) :
    Matches source sharing (p >>= f) (q >>= g) c a S :=
  h.bind fun _ _ _ _ _ _ h => h.elim

theorem here {f : Cursor → Parser Arena γ} {g : Cursor → Parser Unit δ}
    (h : Matches source sharing (f c) (g c) c a S) :
    Matches source sharing (Parser.here >>= f) (Parser.here >>= g) c a S :=
  step rfl rfl h

theorem peek {f : Option Sight → Parser Arena γ} {g : Option Sight → Parser Unit δ}
    (h : ∀ o, c.sight? = o → Matches source sharing (f o) (g o) c a S) :
    Matches source sharing (Parser.peek >>= f) (Parser.peek >>= g) c a S :=
  step rfl rfl (h _ rfl)

theorem moveTo {f : Unit → Parser Arena γ} {g : Unit → Parser Unit δ}
    (h : Matches source sharing (f ()) (g ()) d a S) :
    Matches source sharing (Parser.moveTo d >>= f) (Parser.moveTo d >>= g) c a S :=
  step rfl rfl h

theorem refuseSight (expected : String) (o : Option Sight) :
    Matches source sharing (Parser.refuseSight expected o) (Parser.refuseSight expected o) c a R := by
  cases o with
  | none => rfl
  | some s =>
    cases ht : s.token with
    | none =>
      simp only [Parser.refuseSight, ht]
      rfl
    | some token =>
      simp only [Parser.refuseSight, ht]
      rfl

theorem accept {f : Bool → Parser Arena γ} {g : Bool → Parser Unit δ} {mark : Punctuator}
    (stands : Stands source sharing c a)
    (h : ∀ s, c.mark? mark = some s → Stands source sharing s.stop a →
      Matches source sharing (f true) (g true) s.stop a S)
    (h' : c.mark? mark = none → Matches source sharing (f false) (g false) c a S) :
    Matches source sharing (Parser.accept mark >>= f) (Parser.accept mark >>= g) c a S := by
  cases hm : c.mark? mark with
  | none => exact step (run_accept_none hm) (run_accept_none hm) (h' hm)
  | some s =>
    exact step (run_accept_some hm) (run_accept_some hm)
      (h s hm ⟨stands.place.trans (Cursor.past_mark hm).1, stands.valid⟩)

theorem expect {f : Sight → Parser Arena γ} {g : Sight → Parser Unit δ} {mark : Punctuator}
    (stands : Stands source sharing c a)
    (h : ∀ s, c.mark? mark = some s → Stands source sharing s.stop a →
      Matches source sharing (f s) (g s) s.stop a S) :
    Matches source sharing (Parser.expect mark >>= f) (Parser.expect mark >>= g) c a S := by
  cases hm : c.mark? mark with
  | some s =>
    exact step (run_expect_some hm) (run_expect_some hm)
      (h s hm ⟨stands.place.trans (Cursor.past_mark hm).1, stands.valid⟩)
  | none =>
    refine halt ?_
    refine here ?_
    rw [hm]
    exact peek fun _ _ => refuseSight _ _

theorem expectName {f : String → Parser Arena γ} {g : String → Parser Unit δ} {expected : String}
    (stands : Stands source sharing c a)
    (h : ∀ name d, Stands source sharing d a → Matches source sharing (f name) (g name) d a S) :
    Matches source sharing (Parser.expectName expected >>= f) (Parser.expectName expected >>= g) c a S := by
  cases hs : c.sight? with
  | none =>
    refine halt ?_
    refine step rfl rfl ?_
    rw [hs]
    rfl
  | some s =>
    cases hn : s.token.bind Token.name? with
    | some name =>
      have named : ReadsName c name s.stop := ⟨hs, hn⟩
      exact step (run_expectName named) (run_expectName named)
        (h name _ ⟨stands.place.trans named.past.1, stands.valid⟩)
    | none =>
      refine halt ?_
      refine step rfl rfl ?_
      simp only [hs, hn]
      exact refuseSight _ _

theorem acceptSeparator {f : Bool → Parser Arena γ} {g : Bool → Parser Unit δ}
    {closing : Punctuator} (stands : Stands source sharing c a)
    (h : ∀ d, Stands source sharing d a → Matches source sharing (f true) (g true) d a S)
    (h' : Matches source sharing (f false) (g false) c a S) :
    Matches source sharing (Parser.acceptSeparator closing >>= f) (Parser.acceptSeparator closing >>= g) c a
      S := by
  cases hm : c.separator? closing with
  | none => exact step (run_acceptSeparator_none hm) (run_acceptSeparator_none hm) h'
  | some d =>
    exact step (run_acceptSeparator_some hm) (run_acceptSeparator_some hm)
      (h d ⟨stands.place.trans (Cursor.before_separator hm), stands.valid⟩)

theorem readNumber {f : Binary64 → Parser Arena γ} {g : Binary64 → Parser Unit δ} {raw : String}
    {span : Span} (h : ∀ value, Matches source sharing (f value) (g value) c a S) :
    Matches source sharing (Parser.readNumber raw span >>= f) (Parser.readNumber raw span >>= g) c a S := by
  cases hv : numberValue? raw.toList with
  | some value => exact step (run_readNumber hv) (run_readNumber hv) (h value)
  | none =>
    refine halt ?_
    rw [Parser.readNumber, hv, Parser.readNumber, hv]
    exact refuse _

theorem alloc {kind : NodeKind NodeId} {kind' : NodeKind Shape} {span : Span}
    (stands : Stands source sharing c a) (h : a.ShowsKind kind kind') :
    Matches source sharing (Parser.alloc (stored sharing) kind span) (Parser.alloc nested kind' span) c a
      Arena.Shows := by
  have valid := stands.valid.alloc h.1 span
  refine ⟨_, _, rfl, ⟨stands.place, valid⟩, Arena.extends_alloc sharing kind span a, ?_, ?_⟩
  · intro id hid
    rw [List.mem_singleton.1 hid]
    exact Tree.lt_size_of_get? (Arena.get?_alloc sharing kind span a)
  · rw [stands.valid.view_alloc h.1 span, h.2]
    rfl

theorem allocFrom {kind : NodeKind NodeId} {kind' : NodeKind Shape} {start : Nat}
    (stands : Stands source sharing c a) (h : a.ShowsKind kind kind') :
    Matches source sharing (Parser.allocFrom (stored sharing) kind start) (Parser.allocFrom nested kind' start)
      c a Arena.Shows :=
  here (alloc stands h)

end Matches

end MarkupEditor.Parser
