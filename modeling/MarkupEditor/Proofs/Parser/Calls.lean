import Mathlib.Data.Prod.Lex
import MarkupEditor.Proofs.Parser.Progress
/-!
# The calls of a parse

`Makes` says which readings a reading starts, one rule for each place where the parser calls a part of
itself. A loop of the parser is a part that calls itself for its next round. Each call has less text
before it than the one that makes it, or as much and a lower rank, so that no more calls nest than twelve
for each character and a few more.
-/

set_option autoImplicit false

namespace MarkupEditor

open Text

namespace Cursor

variable {c d : Cursor}

theorem Before.byteLength_le (h : c.Before d) : byteLength d.rest ≤ byteLength c.rest := by
  obtain ⟨text, ht, -⟩ := h
  rw [ht, byteLength_append]
  exact Nat.le_add_left _ _

theorem Past.byteLength_lt (h : c.Past d) : byteLength d.rest < byteLength c.rest := by
  have hpos := h.1.pos_lt_iff.2 h.2
  have hend := h.1.sourceEnd
  unfold Cursor.sourceEnd at hend
  omega

end Cursor

namespace Parser

/-- A reading that is started at a place: of a phrase, or of the rest of a dotted name. -/
inductive Call where
  | phrase (phrase : Phrase) (place : Cursor)
  | dots (place : Cursor)

namespace Call

def place : Call → Cursor
  | .phrase _ c => c
  | .dots c => c

end Call

/-- Calls that are made before any text is passed over go down in rank. -/
@[simp]
def Phrase.rank : Phrase → Nat
  | .items _ => 8
  | .item _ _ _ => 7
  | .inner _ => 6
  | .spreadOrExpression => 6
  | .statements => 6
  | .expression _ => 5
  | .kept _ => 4
  | .structured => 3
  | .parts _ _ _ _ => 3
  | .value => 3
  | .children => 3
  | .property _ _ => 2
  | .markup => 2
  | .attributes => 2
  | .parenthesized _ => 1
  | .key _ _ => 1
  | .tag => 1
  | .spreadAttribute => 1
  | .namedAttribute => 1
  | .container => 1

def Call.rank : Call → Nat
  | .phrase p _ => p.rank
  | .dots _ => 1

/-- The first reading starts the second, once what stands before it has been read. -/
inductive Call.Makes : Call → Call → Prop where
  | attempt {ends : List Punctuator} {c : Cursor} :
    Makes (.phrase (.expression ends) c) (.phrase .structured c)
  | keptOther {ends : List Punctuator} {c d : Cursor} (attempt : Reads .structured c .other d) :
    Makes (.phrase (.expression ends) c) (.phrase (.kept ends) c)
  | keptUnended {ends : List Punctuator} {c d : Cursor} {e : Shape}
    (attempt : Reads .structured c (.node e) d) (going : d.endsAt ends = false) :
    Makes (.phrase (.expression ends) c) (.phrase (.kept ends) c)
  | inner {ends : List Punctuator} {c : Cursor} (going : c.endsAt ends = false) :
    Makes (.phrase (.inner ends) c) (.phrase (.expression ends) c)
  | structuredMarkup {c : Cursor} {s : Sight} (seen : c.mark? .less = some s) :
    Makes (.phrase .structured c) (.phrase .markup c)
  | structuredParenthesized {c : Cursor} {s : Sight} (seen : c.mark? .openParen = some s) :
    Makes (.phrase .structured c) (.phrase (.parenthesized s) c)
  | listing {c : Cursor} {s : Sight} {mark : Punctuator} {l : Listing} (seen : c.mark? mark = some s)
    (opens : Listing.opened? mark = some l) :
    Makes (.phrase .structured c) (.phrase (.items l) s.stop)
  | parenthesized {c : Cursor} {s : Sight} (seen : c.sight? = some s) :
    Makes (.phrase (.parenthesized s) c) (.phrase (.inner [.closeParen]) s.stop)
  | item {l : Listing} {c : Cursor} {s : Sight} {token : Token} (seen : c.sight? = some s)
    (h : s.token = some token) (going : token ≠ .punctuator l.closing) :
    Makes (.phrase (.items l) c) (.phrase (.item l s token) c)
  | items {l : Listing} {c d f : Cursor} {s : Sight} {token : Token} {e : Shape}
    (seen : c.sight? = some s) (h : s.token = some token) (going : token ≠ .punctuator l.closing)
    (read : Reads (.item l s token) c (.node e) d) (separated : d.separator? l.closing = some f) :
    Makes (.phrase (.items l) c) (.phrase (.items l) f)
  | spread {l : Listing} {c : Cursor} {s : Sight} (seen : c.sight? = some s) :
    Makes (.phrase (.item l s (.punctuator .ellipsis)) c) (.phrase (.inner l.ends) s.stop)
  | element {c : Cursor} {s : Sight} {token : Token} (h : token ≠ .punctuator .ellipsis) :
    Makes (.phrase (.item .array s token) c) (.phrase (.inner Listing.array.ends) c)
  | property {c : Cursor} {s : Sight} {token : Token} (h : token ≠ .punctuator .ellipsis) :
    Makes (.phrase (.item .object s token) c) (.phrase (.property s token) c)
  | key {c : Cursor} {s : Sight} {token : Token} :
    Makes (.phrase (.property s token) c) (.phrase (.key s token) c)
  | propertyValue {c d : Cursor} {s t : Sight} {token : Token} {k : PropertyKey Shape}
    (seen : c.sight? = some s) (h : s.token = some token) (key : Reads (.key s token) c (.key k) d)
    (colon : d.mark? .colon = some t) :
    Makes (.phrase (.property s token) c) (.phrase (.inner Listing.object.ends) t.stop)
  | computed {c : Cursor} {s : Sight} (seen : c.sight? = some s) :
    Makes (.phrase (.key s (.punctuator .openBracket)) c) (.phrase (.inner [.closeBracket]) s.stop)
  | parts {ends : List Punctuator} {c : Cursor} {s : Sight} (seen : c.sight? = some s) :
    Makes (.phrase (.kept ends) c) (.phrase (.parts ends [] none []) s.start)
  | partsTake {ends opened opened' : List Punctuator} {before : Option Token} {text : List Char}
    {c : Cursor} {s : Sight} (seen : c.sight? = some s)
    (h : keptStep ends opened before s = .take opened') :
    Makes (.phrase (.parts ends opened before text) c)
      (.phrase (.parts ends opened' s.token (text ++ s.skipped ++ s.text)) s.stop)
  | partsMarkup {ends opened : List Punctuator} {before : Option Token} {text : List Char} {c : Cursor}
    {s : Sight} (seen : c.sight? = some s) (h : keptStep ends opened before s = .markup) :
    Makes (.phrase (.parts ends opened before text) c) (.phrase .markup c)
  | partsMore {ends opened : List Punctuator} {before : Option Token} {text : List Char}
    {c d : Cursor} {s : Sight} {e : Shape} (seen : c.sight? = some s)
    (h : keptStep ends opened before s = .markup) (read : Reads .markup c (.node e) d) :
    Makes (.phrase (.parts ends opened before text) c)
      (.phrase (.parts ends opened (some (.punctuator .greater)) []) d)
  | tag {c : Cursor} : Makes (.phrase .markup c) (.phrase .tag c)
  | fragmentChildren {c : Cursor} {s t : Sight} (less : c.mark? .less = some s)
    (greater : s.stop.mark? .greater = some t) :
    Makes (.phrase .tag c) (.phrase .children t.stop)
  | tagDots {c d : Cursor} {s : Sight} {part : String} (less : c.mark? .less = some s)
    (named : s.stop.mark? .greater = none) (first : ReadsName s.stop part d)
    (plain : d.mark? .colon = none) :
    Makes (.phrase .tag c) (.dots d)
  | attributes {c d : Cursor} {s : Sight} {name : String} (less : c.mark? .less = some s)
    (named : s.stop.mark? .greater = none) (read : ReadsElementName s.stop name d) :
    Makes (.phrase .tag c) (.phrase .attributes d)
  | children {c d f : Cursor} {s : Sight} {name : String} {found : List Shape}
    (less : c.mark? .less = some s) (named : s.stop.mark? .greater = none)
    (read : ReadsElementName s.stop name d) (found' : Reads .attributes d (.attributes found false) f) :
    Makes (.phrase .tag c) (.phrase .children f)
  | closingDots {c d f g k : Cursor} {s a b : Sight} {name part : String} {found inside : List Shape}
    (less : c.mark? .less = some s) (named : s.stop.mark? .greater = none)
    (read : ReadsElementName s.stop name d) (found' : Reads .attributes d (.attributes found false) f)
    (inside' : Reads .children f (.nodes inside) g) (closing : g.mark? .less = some a)
    (slash : a.stop.mark? .slash = some b) (first : ReadsName b.stop part k)
    (plain : k.mark? .colon = none) :
    Makes (.phrase .tag c) (.dots k)
  | dots {c d : Cursor} {s : Sight} {part : String} (dot : c.mark? .dot = some s)
    (first : ReadsName s.stop part d) :
    Makes (.dots c) (.dots d)
  | spreadAttribute {c : Cursor} {s : Sight} (seen : c.mark? .openBrace = some s) :
    Makes (.phrase .attributes c) (.phrase .spreadAttribute c)
  | attributesSpread {c d : Cursor} {s : Sight} {e : Shape} (seen : c.mark? .openBrace = some s)
    (read : Reads .spreadAttribute c (.node e) d) :
    Makes (.phrase .attributes c) (.phrase .attributes d)
  | namedAttribute {c : Cursor} {s : Sight} {name : String} (seen : c.sight? = some s)
    (named : s.token.bind Token.name? = some name) :
    Makes (.phrase .attributes c) (.phrase .namedAttribute c)
  | attributesNamed {c d : Cursor} {s : Sight} {name : String} {e : Shape} (seen : c.sight? = some s)
    (named : s.token.bind Token.name? = some name) (read : Reads .namedAttribute c (.node e) d) :
    Makes (.phrase .attributes c) (.phrase .attributes d)
  | spreadArgument {c : Cursor} {s t : Sight} (opening : c.mark? .openBrace = some s)
    (ellipsis : s.stop.mark? .ellipsis = some t) :
    Makes (.phrase .spreadAttribute c) (.phrase (.expression [.closeBrace]) t.stop)
  | value {c d : Cursor} {s : Sight} {name : String} (named : ReadsAttributeName c name d)
    (equals : d.mark? .equals = some s) :
    Makes (.phrase .namedAttribute c) (.phrase .value s.stop.skipBlanks)
  | valueExpression {c : Cursor} {s : Sight} {rest : List Char} (h : c.rest = '{' :: rest)
    (opening : c.mark? .openBrace = some s) (filled : s.stop.mark? .closeBrace = none) :
    Makes (.phrase .value c) (.phrase (.expression [.closeBrace]) s.stop)
  | valueMarkup {c : Cursor} {rest : List Char} (h : c.rest = '<' :: rest) :
    Makes (.phrase .value c) (.phrase .markup c)
  | childContainer {c d : Cursor} {front : List Shape} {rest : List Char} (text : ReadsText c front d)
    (h : d.rest = '{' :: rest) :
    Makes (.phrase .children c) (.phrase .container d)
  | afterContainer {c d f : Cursor} {front : List Shape} {e : Shape} {rest : List Char}
    (text : ReadsText c front d) (h : d.rest = '{' :: rest) (read : Reads .container d (.node e) f) :
    Makes (.phrase .children c) (.phrase .children f)
  | childMarkup {c d : Cursor} {front : List Shape} {rest : List Char} (text : ReadsText c front d)
    (h : d.rest = '<' :: rest) (opening : closingFollows (d.advance ['<'] rest) = false) :
    Makes (.phrase .children c) (.phrase .markup d)
  | afterMarkup {c d f : Cursor} {front : List Shape} {e : Shape} {rest : List Char}
    (text : ReadsText c front d) (h : d.rest = '<' :: rest)
    (opening : closingFollows (d.advance ['<'] rest) = false) (read : Reads .markup d (.node e) f) :
    Makes (.phrase .children c) (.phrase .children f)
  | containerInside {c : Cursor} {s : Sight} (opening : c.mark? .openBrace = some s)
    (filled : s.stop.mark? .closeBrace = none) :
    Makes (.phrase .container c) (.phrase .spreadOrExpression s.stop)
  | containerSpread {c : Cursor} {s : Sight} (ellipsis : c.mark? .ellipsis = some s) :
    Makes (.phrase .spreadOrExpression c) (.phrase (.expression [.closeBrace]) s.stop)
  | containerExpression {c : Cursor} (plain : c.mark? .ellipsis = none) :
    Makes (.phrase .spreadOrExpression c) (.phrase (.expression [.closeBrace]) c)
  | semicolon {c : Cursor} {s : Sight} (h : c.mark? .semicolon = some s) :
    Makes (.phrase .statements c) (.phrase .statements s.stop)
  | statement {c : Cursor} {s : Sight} (seen : c.sight? = some s)
    (h : s.token ≠ some (.punctuator .semicolon)) :
    Makes (.phrase .statements c) (.phrase (.expression [.semicolon]) c)
  | statements {c d : Cursor} {s : Sight} {e : Shape} (seen : c.sight? = some s)
    (h : s.token ≠ some (.punctuator .semicolon)) (read : Reads (.expression [.semicolon]) c (.node e) d) :
    Makes (.phrase .statements c) (.phrase .statements d)

namespace Call

variable {a b : Call}

/-- The second place comes after the first, or the calls stand at one place and go down in rank. -/
def Falls (a b : Call) : Prop :=
  a.place.Past b.place ∨ a.place.Before b.place ∧ b.rank < a.rank

theorem Falls.here {c : Cursor} {p q : Phrase} (h : q.rank < p.rank) :
    Falls (.phrase p c) (.phrase q c) :=
  .inr ⟨.refl c, h⟩

theorem Makes.falls (h : a.Makes b) : a.Falls b := by
  cases h with
  | attempt => exact .here (by simp)
  | keptOther attempt => exact .here (by simp)
  | keptUnended attempt going => exact .here (by simp)
  | inner going => exact .here (by simp)
  | structuredMarkup seen => exact .here (by simp)
  | structuredParenthesized seen => exact .here (by simp)
  | listing seen opens => exact .inl (Cursor.past_mark seen)
  | parenthesized seen => exact .inl (Cursor.past_stop seen)
  | item seen h going => exact .here (by simp)
  | items seen h going read separated =>
    exact .inl (Cursor.Past.before (read.moves ⟨seen, h⟩) (Cursor.before_separator separated))
  | spread seen => exact .inl (Cursor.past_stop seen)
  | element h => exact .here (by simp)
  | property h => exact .here (by simp)
  | key => exact .here (by simp)
  | propertyValue seen h key colon =>
    exact .inl (Cursor.Past.trans (key.moves ⟨seen, h⟩) (Cursor.past_mark colon))
  | computed seen => exact .inl (Cursor.past_stop seen)
  | parts seen => exact .inr ⟨Cursor.before_start seen, by simp [rank]⟩
  | partsTake seen h => exact .inl (Cursor.past_stop seen)
  | partsMarkup seen h => exact .here (by simp)
  | partsMore seen h read => exact .inl (read.moves trivial)
  | tag => exact .here (by simp)
  | fragmentChildren less greater =>
    exact .inl ((Cursor.past_mark less).trans (Cursor.past_mark greater))
  | tagDots less named first plain => exact .inl ((Cursor.past_mark less).trans first.past)
  | attributes less named read => exact .inl ((Cursor.past_mark less).trans read.past)
  | children less named read found =>
    exact .inl (((Cursor.past_mark less).trans read.past).before (found.moves trivial))
  | closingDots less named read found inside closing slash first plain =>
    have inner := Cursor.Before.trans (found.moves trivial) (inside.moves trivial)
    exact .inl ((((Cursor.past_mark less).trans read.past).before inner).trans
      ((Cursor.past_mark closing).trans ((Cursor.past_mark slash).trans first.past)))
  | dots dot first => exact .inl ((Cursor.past_mark dot).trans first.past)
  | spreadAttribute seen => exact .here (by simp)
  | attributesSpread seen read => exact .inl (read.moves trivial)
  | namedAttribute seen named => exact .here (by simp)
  | attributesNamed seen named read => exact .inl (read.moves trivial)
  | spreadArgument opening ellipsis =>
    exact .inl ((Cursor.past_mark opening).trans (Cursor.past_mark ellipsis))
  | value named equals =>
    exact .inl ((named.past.trans (Cursor.past_mark equals)).before (Cursor.before_skipBlanks _))
  | valueExpression h opening filled => exact .inl (Cursor.past_mark opening)
  | valueMarkup h => exact .here (by simp)
  | childContainer text h => exact .inr ⟨text.before, by simp [rank]⟩
  | afterContainer text h read => exact .inl (text.before.past (read.moves trivial))
  | childMarkup text h opening => exact .inr ⟨text.before, by simp [rank]⟩
  | afterMarkup text h opening read => exact .inl (text.before.past (read.moves trivial))
  | containerInside opening filled => exact .inl (Cursor.past_mark opening)
  | containerSpread ellipsis => exact .inl (Cursor.past_mark ellipsis)
  | containerExpression plain => exact .here (by simp)
  | semicolon h => exact .inl (Cursor.past_mark h)
  | statement seen h => exact .here (by simp)
  | statements seen h read => exact .inl (read.moves trivial)

theorem rank_pos (a : Call) : 0 < a.rank := by
  cases a with
  | phrase p c => cases p <;> simp [rank]
  | dots c => simp [rank]

theorem rank_le (a : Call) : a.rank ≤ 8 := by
  cases a with
  | phrase p c => cases p <;> simp [rank]
  | dots c => simp [rank]

/-- That many calls can be made one inside the other, the last of them inside this one first. -/
inductive Nested : Nat → Call → Prop where
  | none (a : Call) : Nested 0 a
  | next {n : Nat} {a b : Call} (made : a.Makes b) (more : Nested n b) : Nested (n + 1) a

/-- Fewer calls nest than twelve for each character that is left, and the rank. -/
theorem Nested.lt {n : Nat} (h : Nested n a) : n < 12 * a.place.rest.length + a.rank := by
  induction h with
  | none a => exact Nat.add_pos_right _ a.rank_pos
  | @next n a b made more ih =>
    have hb := b.rank_le
    rcases made.falls with past | ⟨before, hrank⟩
    · have := past.2
      omega
    · have := before.length_le
      omega

/-- The pair of the bytes that are left and the rank goes down with each call. -/
theorem Makes.lex (h : a.Makes b) :
    Prod.Lex (· < ·) (· < ·) (byteLength b.place.rest, b.rank) (byteLength a.place.rest, a.rank) := by
  rcases h.falls with past | ⟨before, hrank⟩
  · exact .left _ _ past.byteLength_lt
  · rcases Nat.lt_or_eq_of_le before.byteLength_le with hlt | heq
    · exact .left _ _ hlt
    · rw [heq]
      exact .right _ hrank

/-- The two calls are rounds of one loop. -/
def Rounds : Call → Call → Prop
  | .phrase .statements _, .phrase .statements _ => True
  | .phrase (.items l) _, .phrase (.items l') _ => l = l'
  | .phrase .attributes _, .phrase .attributes _ => True
  | .phrase .children _, .phrase .children _ => True
  | .phrase (.parts _ _ _ _) _, .phrase (.parts _ _ _ _) _ => True
  | .dots _, .dots _ => True
  | _, _ => False

theorem Rounds.rank_eq (h : a.Rounds b) : a.rank = b.rank := by
  unfold Rounds at h
  split at h <;> first | rfl | exact h.elim

theorem Makes.past_of_rounds (h : a.Makes b) (rounds : a.Rounds b) : a.place.Past b.place := by
  rcases h.falls with past | ⟨-, hrank⟩
  · exact past
  · exact absurd rounds.rank_eq (Nat.ne_of_gt hrank)

end Call

end Parser

end MarkupEditor
