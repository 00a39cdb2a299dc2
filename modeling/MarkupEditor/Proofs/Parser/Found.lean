import Mathlib.Data.List.TakeWhile
import MarkupEditor.Proofs.Parser.Calls
import MarkupEditor.Proofs.Parser.Runs

set_option autoImplicit false

namespace MarkupEditor.Parser

open Text

variable {α β : Type} {c d e : Cursor} {short short' : Prop}

/-- A parse that ends with a value ends as told, and one that wants depth was short of it. -/
def Finds (short : Prop) (p : Parser Unit α) (c : Cursor) (Q : α → Cursor → Prop) : Prop :=
  match p ⟨c, ()⟩ with
  | .ok (x, t) => Q x t.cursor
  | .error .exhausted => short
  | .error (.refused _) => True

namespace Finds

variable {p : Parser Unit α} {f : α → Parser Unit β} {Q Q' : α → Cursor → Prop}
  {R : β → Cursor → Prop}

theorem pure {x : α} (h : Q x c) : Finds short (Pure.pure x) c Q :=
  h

theorem bind (h : Finds short p c Q) (h' : ∀ x d, Q x d → Finds short (f x) d R) :
    Finds short (p >>= f) c R := by
  unfold Finds at h ⊢
  rw [run_bind]
  rcases hp : p ⟨c, ()⟩ with (error | _) | ⟨x, t⟩ <;> rw [hp] at h
  · trivial
  · exact h
  · exact h' x t.cursor h

theorem weaken (h : Finds short p c Q) (hs : short → short') (hQ : ∀ x d, Q x d → Q' x d) :
    Finds short' p c Q' := by
  unfold Finds at h ⊢
  rcases hp : p ⟨c, ()⟩ with (error | _) | ⟨x, t⟩ <;> rw [hp] at h
  · trivial
  · exact hs h
  · exact hQ x t.cursor h

theorem step {x : α} (h : p ⟨c, ()⟩ = .ok (x, ⟨d, ()⟩)) (h' : Finds short (f x) d R) :
    Finds short (p >>= f) c R := by
  unfold Finds
  rw [run_bind_ok h]
  exact h'

theorem here {f : Cursor → Parser Unit β} (h : Finds short (f c) c R) :
    Finds short (Parser.here >>= f) c R :=
  step rfl h

theorem peek {f : Option Sight → Parser Unit β} (h : ∀ o, c.sight? = o → Finds short (f o) c R) :
    Finds short (Parser.peek >>= f) c R :=
  step rfl (h _ rfl)

theorem moveTo {f : Unit → Parser Unit β} (h : Finds short (f ()) d R) :
    Finds short (Parser.moveTo d >>= f) c R :=
  step rfl h

theorem allocFrom {kind : NodeKind Shape} {start : Nat} {Q : Shape → Cursor → Prop}
    (h : Q (shapeAt kind start c.pos) c) : Finds short (Parser.allocFrom nested kind start) c Q :=
  h

theorem refuseSight (expected : String) (o : Option Sight) :
    Finds short (Parser.refuseSight expected o) c Q := by
  cases o with
  | none => trivial
  | some s =>
    cases ht : s.token with
    | none =>
      simp only [Parser.refuseSight, ht]
      trivial
    | some token =>
      simp only [Parser.refuseSight, ht]
      trivial

theorem accept {f : Bool → Parser Unit β} {mark : Punctuator}
    (h : ∀ s, c.mark? mark = some s → Finds short (f true) s.stop R)
    (h' : c.mark? mark = none → Finds short (f false) c R) :
    Finds short (Parser.accept mark >>= f) c R := by
  cases hm : c.mark? mark with
  | none => exact step (run_accept_none hm) (h' hm)
  | some s => exact step (run_accept_some hm) (h s hm)

theorem expect {f : Sight → Parser Unit β} {mark : Punctuator}
    (h : ∀ s, c.mark? mark = some s → Finds short (f s) s.stop R) :
    Finds short (Parser.expect mark >>= f) c R := by
  cases hm : c.mark? mark with
  | some s => exact step (run_expect_some hm) (h s hm)
  | none =>
    refine bind (Q := fun _ _ => False) ?_ fun _ _ h => h.elim
    refine here ?_
    rw [hm]
    exact peek fun _ _ => refuseSight _ _

theorem expectName {f : String → Parser Unit β} {expected : String}
    (h : ∀ name d, ReadsName c name d → Finds short (f name) d R) :
    Finds short (Parser.expectName expected >>= f) c R := by
  cases hs : c.sight? with
  | none =>
    refine bind (Q := fun _ _ => False) ?_ fun _ _ h => h.elim
    refine step rfl ?_
    rw [hs]
    trivial
  | some s =>
    cases hn : s.token.bind Token.name? with
    | some name =>
      have named : ReadsName c name s.stop := ⟨hs, hn⟩
      exact step (run_expectName named) (h name _ named)
    | none =>
      refine bind (Q := fun _ _ => False) ?_ fun _ _ h => h.elim
      refine step rfl ?_
      simp only [hs, hn]
      exact refuseSight _ _

theorem acceptSeparator {f : Bool → Parser Unit β} {closing : Punctuator}
    (h : ∀ d, c.separator? closing = some d → Finds short (f true) d R)
    (h' : c.separator? closing = none → Finds short (f false) c R) :
    Finds short (Parser.acceptSeparator closing >>= f) c R := by
  cases hm : c.separator? closing with
  | none => exact step (run_acceptSeparator_none hm) (h' hm)
  | some d => exact step (run_acceptSeparator_some hm) (h d hm)

theorem readNumber {f : Binary64 → Parser Unit β} {raw : String} {span : Span}
    (h : ∀ value, numberValue? raw.toList = some value → Finds short (f value) c R) :
    Finds short (Parser.readNumber raw span >>= f) c R := by
  cases hv : numberValue? raw.toList with
  | some value => exact step (run_readNumber hv) (h value hv)
  | none =>
    refine bind (Q := fun _ _ => False) ?_ fun _ _ h => h.elim
    rw [Parser.readNumber, hv]
    trivial

theorem imp (h : Finds short p c Q) (hQ : ∀ x d, Q x d → Q' x d) : Finds short p c Q' :=
  h.weaken id hQ

theorem made {n : Nat} {a b : Call} (h : Finds (Call.Nested n b) p d Q) (made : a.Makes b) :
    Finds (Call.Nested (n + 1) a) p d Q :=
  h.weaken (.next made) fun _ _ h => h

/-- Deep enough, a parse is refused or ends with a value. -/
theorem outcome {n : Nat} {a : Call} (h : Finds (Call.Nested n a) p c Q)
    (deep : 12 * a.place.rest.length + a.rank ≤ n) :
    (∃ error, p ⟨c, ()⟩ = .error (.refused error)) ∨ ∃ x d, p ⟨c, ()⟩ = .ok (x, ⟨d, ()⟩) ∧ Q x d := by
  unfold Finds at h
  rcases hp : p ⟨c, ()⟩ with (error | _) | ⟨x, d, _⟩ <;> rw [hp] at h
  · exact .inl ⟨error, rfl⟩
  · exact absurd h.lt (Nat.not_lt.2 deep)
  · exact .inr ⟨x, d, rfl, h⟩

end Finds

theorem finds_dottedName (n : Nat) (c : Cursor) :
    Finds (Call.Nested n (.dots c)) (dottedName n) c (ReadsDotted c) := by
  induction n generalizing c with
  | zero => exact .none _
  | succ n ih =>
    refine .accept (fun s dot => ?_) fun dot => .pure (.done dot)
    refine .expectName fun part d first => ?_
    exact ((ih d).made (.dots dot first)).bind fun others e rest => .pure (.more dot first rest)

theorem finds_elementName {n : Nat} (h : ∀ part d, ReadsName c part d → d.mark? .colon = none →
    Call.Nested n (.dots d) → short) : Finds short (elementName n) c (ReadsElementName c) := by
  refine .expectName fun first d front => .accept (fun s colon => ?_) fun plain => ?_
  · exact .expectName fun second e back => .pure (.colon front colon back)
  · exact ((finds_dottedName n d).weaken (h first d front plain) fun _ _ h => h).bind
      fun others e rest => .pure (.dotted front plain rest)

theorem finds_attributeName (c : Cursor) :
    Finds short attributeName c (ReadsAttributeName c) := by
  refine .expectName fun first d front => .accept (fun s colon => ?_) fun plain => ?_
  · exact .expectName fun second e back => .pure (.colon front colon back)
  · exact .pure (.plain front plain)

theorem finds_closeFragment (c : Cursor) :
    Finds short closeFragment c fun _ d => ReadsClosing c none d :=
  .expect fun _ less => .expect fun _ slash => .expect fun _ greater =>
    .pure (.fragment less slash greater)

theorem finds_closeElement {n : Nat} (name : String) (h : ∀ a b part d, c.mark? .less = some a →
    a.stop.mark? .slash = some b → ReadsName b.stop part d → d.mark? .colon = none →
    Call.Nested n (.dots d) → short) :
    Finds short (closeElement n name) c fun _ d => ReadsClosing c (some name) d := by
  refine .expect fun a less => .expect fun b slash => .step (run_sees _ _) ?_
  cases hg : b.stop.mark? .greater with
  | some s => trivial
  | none =>
    refine (finds_elementName fun part d first plain =>
      h a b part d less slash first plain).bind ?_
    intro found d read
    refine .expect fun e greater => ?_
    by_cases hn : found = name
    · subst hn
      rw [if_pos rfl]
      exact .pure (.element less slash hg read greater)
    · rw [if_neg hn]
      trivial

theorem finds_textChild (c : Cursor) : Finds short (textChild? nested) c (ReadsText c) := by
  refine .here ?_
  by_cases h : textRun c.rest = []
  · rw [h]
    exact .pure (.empty h)
  · rw [if_neg (by rwa [List.isEmpty_iff])]
    refine .bind (Q := fun e d => ReadsText c [e] d) (.here ?_) fun e d text => .pure text
    cases hd : ((textRun c.rest).dropWhile fun x => (textReference? x).isNone) with
    | nil =>
      rw [List.dropWhile_eq_nil_iff] at hd
      refine .moveTo (.pure (.text h (fun x hx => ?_) rfl))
      simpa using hd x hx
    | cons x rest =>
      have hx := List.head?_dropWhile_not (fun x => (textReference? x).isNone) (textRun c.rest)
      rw [hd] at hx
      cases ht : textReference? x with
      | none => simp [ht] at hx
      | some reference =>
        simp only [List.head?_cons, Option.bind_some, ht]
        trivial

def Answer.ofNode? : Option Shape → Answer
  | none => .other
  | some e => .node e

def Answer.ofNodes? : Option (List Shape) → Answer
  | none => .other
  | some es => .nodes es

def Answer.ofKey? : Option (PropertyKey Shape) → Answer
  | none => .other
  | some k => .key k

/-- The parse of a phrase finds what is read, or as many calls nest in it as it has levels of depth. -/
def Sound (n : Nat) (phrase : Phrase) (c : Cursor) : Prop :=
  let short := Call.Nested n (.phrase phrase c)
  match phrase with
  | .expression ends =>
    Finds short (expression nested n ends) c fun e => Reads (.expression ends) c (.node e)
  | .inner ends =>
    Finds short (innerExpression nested n ends) c fun o => Reads (.inner ends) c (.ofNode? o)
  | .structured =>
    Finds short (structured nested n) c fun o => Reads .structured c (.ofNode? o)
  | .parenthesized s =>
    Finds short (parenthesized nested n s) c fun o => Reads (.parenthesized s) c (.ofNode? o)
  | .items l => Finds short (items nested n l) c fun o => Reads (.items l) c (.ofNodes? o)
  | .item l s t =>
    Finds short (item nested n l s t) c fun o => Reads (.item l s t) c (.ofNode? o)
  | .property s t =>
    Finds short (property nested n s t) c fun o => Reads (.property s t) c (.ofNode? o)
  | .key s t =>
    Finds short (propertyKey nested n s t) c fun o => Reads (.key s t) c (.ofKey? o)
  | .kept ends =>
    Finds short (keptExpression nested n ends) c fun e => Reads (.kept ends) c (.node e)
  | .parts ends opened before text =>
    Finds short (keptParts nested n ends opened before text) c
      fun ps => Reads (.parts ends opened before text) c (.parts ps)
  | .markup => Finds short (markup nested n) c fun e => Reads .markup c (.node e)
  | .tag => Finds short (tag nested n) c fun e => Reads .tag c (.node e)
  | .attributes =>
    Finds short (attributes nested n) c fun x => Reads .attributes c (.attributes x.1 x.2)
  | .spreadAttribute =>
    Finds short (spreadAttribute nested n) c fun e => Reads .spreadAttribute c (.node e)
  | .namedAttribute =>
    Finds short (namedAttribute nested n) c fun e => Reads .namedAttribute c (.node e)
  | .value => Finds short (attributeValue nested n) c fun e => Reads .value c (.node e)
  | .children => Finds short (children nested n) c fun es => Reads .children c (.nodes es)
  | .container => Finds short (container nested n) c fun e => Reads .container c (.node e)
  | .spreadOrExpression =>
    Finds short (spreadOrExpression nested n) c fun e => Reads .spreadOrExpression c (.node e)
  | .statements =>
    Finds short (statements nested n) c fun es => Reads .statements c (.nodes es)

section

variable {n : Nat}

theorem sound_key {s : Sight} {token : Token} (h : token ≠ .punctuator .openBracket) :
    Finds short (propertyKey nested (n + 1) s token) c fun o => Reads (.key s token) c (.ofKey? o) := by
  cases token with
  | number raw => exact .readNumber fun value h => .moveTo (.pure (.key (.number h)))
  | punctuator mark =>
    cases mark with
    | openBracket => exact absurd rfl h
    | _ => exact .pure (.keyOther rfl)
  | template raw => exact .pure (.keyOther rfl)
  | _ => exact .moveTo (.pure (.key (.plain rfl)))

theorem sound_negative {s : Sight} (seen : c.mark? .minus = some s) :
    Finds short (negativeNumber nested s) c fun o => Reads .structured c (.ofNode? o) := by
  refine .moveTo (.peek fun o next => ?_)
  cases o with
  | none => exact .pure (.negativeOther seen (by rw [next]; rfl))
  | some m =>
    cases hm : m.number? with
    | none =>
      simp only [hm]
      exact .pure (.negativeOther seen (by rw [next]; exact hm))
    | some raw =>
      simp only [hm]
      exact .moveTo (.readNumber fun value h => .step rfl (.pure (.negative seen next hm h)))

theorem sound_string {quote : Char} {body : List Char} (hc : c.rest = quote :: body)
    (quoted : quote = '"' ∨ quote = '\'') :
    Finds short (attributeString nested quote body) c fun e => Reads .value c (.node e) := by
  refine .here ?_
  cases hb : body.dropWhile (· != quote) with
  | nil => trivial
  | cons close rest => exact .moveTo (.pure (.valueString hc quoted hb rfl))

variable {ends opened : List Punctuator} {before : Option Token} {text : List Char} {s : Sight} {token : Token}
  {l : Listing} (ih : ∀ phrase (c : Cursor), phrase.Ready c → Sound n phrase c)

include ih

theorem sound_expression : Sound (n + 1) (.expression ends) c := by
  refine .here (.step rfl (((ih .structured c trivial).made .attempt).bind ?_))
  intro o d attempt
  have kept := ih (.kept ends) c trivial
  refine .here ?_
  cases o with
  | none =>
    exact .step rfl ((kept.made (.keptOther attempt)).imp fun e f kept => .keptOther attempt kept)
  | some e =>
    cases hd : d.endsAt ends with
    | true => exact .pure (.structuredExpression attempt hd)
    | false =>
      exact .step rfl ((kept.made (.keptUnended attempt hd)).imp fun e f kept =>
        .keptUnended attempt hd kept)

theorem sound_inner : Sound (n + 1) (.inner ends) c := by
  refine .here ?_
  cases hc : c.endsAt ends with
  | true => exact .pure (.innerNone hc)
  | false =>
    exact ((ih (.expression ends) c trivial).made (.inner hc)).bind fun e d read =>
      .pure (.innerSome hc read)

theorem sound_structured : Sound (n + 1) .structured c := by
  refine .peek fun o seen => ?_
  cases o with
  | none => exact .pure (.nothing seen)
  | some s =>
    cases ht : s.token with
    | none =>
      simp only [ht]
      exact .pure (.beginsOther seen (by rw [ht]; rfl))
    | some token =>
      simp only [ht]
      cases token with
      | number raw =>
        exact .readNumber fun value h => .step rfl (.pure (.leaf seen ht (.number h)))
      | punctuator mark =>
        have hm : c.mark? mark = some s := Cursor.mark?_eq_some.2 ⟨seen, ht⟩
        cases mark with
        | less =>
          exact ((ih .markup c trivial).made (.structuredMarkup hm)).bind fun e d read =>
            .pure (.structuredMarkup hm read)
        | minus => exact sound_negative hm
        | openParen =>
          exact ((ih (.parenthesized s) c seen).made (.structuredParenthesized hm)).imp fun o d read =>
            .structuredParenthesized hm read
        | openBrace | openBracket =>
          refine .moveTo (((ih (.items _) s.stop trivial).made (.listing hm rfl)).bind fun o d read => ?_)
          cases o with
          | none => exact .pure (.listingOther hm rfl read)
          | some found => exact .step rfl (.pure (.listing hm rfl read))
        | _ => exact .pure (.beginsOther seen (by rw [ht]; rfl))
      | template raw => exact .pure (.beginsOther seen (by rw [ht]; rfl))
      | keyword word =>
        cases word with
        | «return» => exact .pure (.beginsOther seen (by rw [ht]; rfl))
        | _ => exact .step rfl (.pure (.leaf seen ht (.plain rfl)))
      | _ => exact .step rfl (.pure (.leaf seen ht (.plain rfl)))

theorem sound_parenthesized (ready : Phrase.Ready (.parenthesized s) c) : Sound (n + 1) (.parenthesized s) c := by
  refine .moveTo (((ih (.inner [.closeParen]) s.stop trivial).made (.parenthesized ready)).bind ?_)
  intro o d read
  cases o with
  | none => exact .pure (.parenthesizedEmpty read)
  | some e =>
    exact .accept (fun t h => .step rfl (.pure (.parenthesized read h)))
      fun h => .pure (.parenthesizedOpen read h)

theorem sound_items : Sound (n + 1) (.items l) c := by
  refine .peek fun o seen => ?_
  cases o with
  | none => exact .pure (.itemsNothing (by rw [seen]; rfl))
  | some s =>
    cases ht : s.token with
    | none =>
      simp only [ht]
      exact .pure (.itemsNothing (by rw [seen]; exact ht))
    | some token =>
      by_cases hc : token = .punctuator l.closing
      · simp only [ht, if_pos hc]
        exact .moveTo (.pure (.itemsEnd (Cursor.mark?_eq_some.2 ⟨seen, hc ▸ ht⟩)))
      · simp only [ht, if_neg hc]
        refine ((ih (.item l s token) c ⟨seen, ht⟩).made (.item seen ht hc)).bind ?_
        intro o d read
        cases o with
        | none => exact .pure (.itemsOther seen ht hc read)
        | some e =>
          refine .acceptSeparator (fun f separated => ?_)
            fun stuck => .pure (.itemsUnseparated seen ht hc read stuck)
          refine ((ih (.items l) f trivial).made (.items seen ht hc read separated)).bind ?_
          intro o g more
          cases o with
          | none => exact .pure (.itemsRestOther seen ht hc read separated more)
          | some others => exact .pure (.itemsCons seen ht hc read separated more)

theorem sound_item (ready : Phrase.Ready (.item l s token) c) : Sound (n + 1) (.item l s token) c := by
  by_cases he : token = .punctuator .ellipsis
  · subst he
    refine .moveTo (((ih (.inner l.ends) s.stop trivial).made (.spread ready.1)).bind
      fun o d read => ?_)
    cases o with
    | none => exact .pure (.spreadOther read)
    | some e => exact .step rfl (.pure (.spread read))
  · cases l with
    | array =>
      rw [Sound, item, if_neg he]
      exact ((ih (.inner Listing.array.ends) c trivial).made (.element he)).imp fun o d read => .element he read
    | object =>
      rw [Sound, item, if_neg he]
      exact ((ih (.property s token) c ready).made (.property he)).imp fun o d read => .itemProperty he read

theorem sound_property (ready : Phrase.Ready (.property s token) c) : Sound (n + 1) (.property s token) c := by
  refine ((ih (.key s token) c ready).made .key).bind fun o d key => ?_
  cases o with
  | none => exact .pure (.propertyKeyOther key)
  | some k =>
    refine .accept (fun t colon => ?_) fun plain => ?_
    · refine ((ih (.inner Listing.object.ends) t.stop trivial).made
        (.propertyValue ready.1 ready.2 key colon)).bind fun o f read => ?_
      cases o with
      | none => exact .pure (.propertyValueOther key colon read)
      | some e => exact .step rfl (.pure (.property key colon read))
    · cases k with
      | identifier name =>
        refine .here ?_
        cases hs : (d.separator? .closeBrace).isSome with
        | true => exact .step rfl (.step rfl (.pure (.shorthand key plain hs)))
        | false => exact .pure (.shorthandOther key plain (.inr hs))
      | literal value raw => exact .pure (.shorthandOther key plain (.inl (by simp)))
      | computed e => exact .pure (.shorthandOther key plain (.inl (by simp)))

theorem sound_propertyKey (ready : Phrase.Ready (.key s token) c) : Sound (n + 1) (.key s token) c := by
  by_cases hb : token = .punctuator .openBracket
  · subst hb
    refine .moveTo (((ih (.inner [.closeBracket]) s.stop trivial).made (.computed ready.1)).bind
      fun o d read => ?_)
    cases o with
    | none => exact .pure (.computedEmpty read)
    | some e =>
      exact .accept (fun t h => .pure (.computed read h)) fun h => .pure (.computedOpen read h)
  · exact sound_key hb

theorem sound_kept : Sound (n + 1) (.kept ends) c := by
  refine .peek fun o seen => ?_
  cases o with
  | none => trivial
  | some s =>
    refine .moveTo (((ih (.parts ends [] none []) s.start trivial).made (.parts seen)).bind ?_)
    intro found d read
    by_cases hf : found = []
    · subst hf
      exact .peek fun o _ => .refuseSight _ _
    · rw [if_neg (by rwa [List.isEmpty_iff])]
      exact Finds.allocFrom (.kept seen read hf)

theorem sound_parts : Sound (n + 1) (.parts ends opened before text) c := by
  refine .peek fun o seen => ?_
  cases o with
  | none => exact .pure (.partsEnd seen)
  | some s =>
    cases hk : keptStep ends opened before s with
    | stop =>
      simp only [hk]
      exact .pure (.partsStop seen hk)
    | take opened' =>
      simp only [hk]
      refine .moveTo (((ih (.parts ends opened' s.token _) s.stop trivial).made
        (.partsTake seen hk)).imp ?_)
      exact fun found d read => .partsTake seen hk read
    | markup =>
      simp only [hk]
      refine ((ih .markup c trivial).made (.partsMarkup seen hk)).bind fun e d read => ?_
      exact ((ih (.parts ends opened _ []) d trivial).made (.partsMore seen hk read)).bind
        fun others f more => .pure (.partsMarkup seen hk read more)

theorem sound_markup : Sound (n + 1) .markup c :=
  .here (.step rfl (((ih .tag c trivial).made .tag).bind fun _ _ read => .step rfl (.pure (.markup read))))

theorem sound_tag : Sound (n + 1) .tag c := by
  refine .expect fun s less => .accept (fun t greater => ?_) fun named => ?_
  · refine ((ih .children t.stop trivial).made (.fragmentChildren less greater)).bind
      fun inside d read => ?_
    exact (finds_closeFragment d).bind fun _ f close => .allocFrom (.fragment less greater read close)
  · refine (finds_elementName fun part d first plain =>
      .next (.tagDots less named first plain)).bind fun name d read => ?_
    refine ((ih .attributes d trivial).made (.attributes less named read)).bind
      fun found f attributes => ?_
    obtain ⟨found, closed⟩ := found
    cases closed with
    | true => exact .allocFrom (.selfClosing less named read attributes)
    | false =>
      refine ((ih .children f trivial).made (.children less named read attributes)).bind
        fun inside g children => ?_
      refine (finds_closeElement name fun a b part k closing slash first plain =>
        .next (.closingDots less named read attributes children closing slash first plain)).bind ?_
      exact fun _ k close => .allocFrom (.tag less named read attributes children close)

theorem sound_named {s : Sight} {name : String} (seen : c.sight? = some s)
    (named : s.token.bind Token.name? = some name) :
    Finds (Call.Nested (n + 1) (.phrase .attributes c)) (do
      let first ← namedAttribute nested n
      let (others, selfClosing) ← attributes nested n
      return (first :: others, selfClosing)) c
      fun x => Reads .attributes c (.attributes x.1 x.2) := by
  refine ((ih .namedAttribute c trivial).made (.namedAttribute seen named)).bind fun e d read => ?_
  exact ((ih .attributes d trivial).made (.attributesNamed seen named read)).bind fun x f more =>
    .pure (.attributesNamed seen named read more)

theorem sound_attributes : Sound (n + 1) .attributes c := by
  refine .peek fun o seen => ?_
  cases o with
  | none => trivial
  | some s =>
    cases ht : s.token with
    | none =>
      simp only [ht]
      exact .refuseSight _ _
    | some token =>
      simp only [ht]
      cases token with
      | punctuator mark =>
        have hm : c.mark? mark = some s := Cursor.mark?_eq_some.2 ⟨seen, ht⟩
        cases mark with
        | slash => exact .moveTo (.expect fun t greater => .pure (.attributesSlash hm greater))
        | greater => exact .moveTo (.pure (.attributesGreater hm))
        | openBrace =>
          refine ((ih .spreadAttribute c trivial).made (.spreadAttribute hm)).bind fun e d read => ?_
          exact ((ih .attributes d trivial).made (.attributesSpread hm read)).bind fun x f more =>
            .pure (.attributesSpread hm read more)
        | _ => exact .refuseSight _ (some s)
      | identifier name => exact sound_named ih seen (by rw [ht]; rfl)
      | keyword word => exact sound_named ih seen (by rw [ht]; rfl)
      | _ => exact .refuseSight _ (some s)

theorem sound_spreadAttribute : Sound (n + 1) .spreadAttribute c := by
  refine .expect fun s opening => .expect fun t ellipsis => ?_
  refine ((ih (.expression [.closeBrace]) t.stop trivial).made
    (.spreadArgument opening ellipsis)).bind ?_
  exact fun e d read => .expect fun u closing =>
    .allocFrom (.spreadAttribute opening ellipsis read closing)

theorem sound_namedAttribute : Sound (n + 1) .namedAttribute c := by
  refine .here ((finds_attributeName c).bind fun name d named => ?_)
  refine .accept (fun s equals => ?_) fun plain => .allocFrom (.namedBare named plain)
  exact .here (.moveTo (((ih .value _ trivial).made (.value named equals)).bind fun e f read =>
    .allocFrom (.namedValue named equals read)))

theorem sound_value : Sound (n + 1) .value c := by
  refine .here ?_
  cases hc : c.rest with
  | nil => trivial
  | cons x rest =>
    by_cases hq : x = '"' ∨ x = '\''
    · simp only [if_pos hq]
      exact sound_string hc hq
    · simp only [if_neg hq]
      by_cases hb : x = '{'
      · subst hb
        rw [if_pos rfl]
        refine .expect fun s opening => .step (run_sees _ _) ?_
        cases hm : s.stop.mark? .closeBrace with
        | some t => trivial
        | none =>
          refine ((ih (.expression [.closeBrace]) s.stop trivial).made
            (.valueExpression hc opening hm)).bind fun e d read => ?_
          exact .expect fun t closing => .allocFrom (.valueContainer hc opening hm read closing)
      · rw [if_neg hb]
        by_cases hl : x = '<'
        · subst hl
          rw [if_pos rfl]
          exact ((ih .markup c trivial).made (.valueMarkup hc)).imp fun e d read =>
            .valueMarkup hc read
        · rw [if_neg hl]
          refine .here ?_
          cases c.sight? <;> trivial

theorem sound_children : Sound (n + 1) .children c := by
  refine (finds_textChild c).bind fun front d text => .here ?_
  cases hd : d.rest with
  | nil => trivial
  | cons x rest =>
    by_cases hb : x = '{'
    · subst hb
      simp only [if_true]
      refine ((ih .container d trivial).made (.childContainer text hd)).bind fun e f read => ?_
      exact ((ih .children f trivial).made (.afterContainer text hd read)).bind fun others g more =>
        .pure (.childrenContainer text hd read more)
    · have hl : x = '<' := text.head hd hb
      subst hl
      simp only [if_neg hb]
      cases hc : closingFollows (d.advance ['<'] rest) with
      | true => exact .pure (.childrenEnd text hd hc)
      | false =>
        refine ((ih .markup d trivial).made (.childMarkup text hd hc)).bind fun e f read => ?_
        exact ((ih .children f trivial).made (.afterMarkup text hd hc read)).bind fun others g more =>
          .pure (.childrenMarkup text hd hc read more)

theorem sound_container : Sound (n + 1) .container c := by
  refine .expect fun s opening => .accept (fun t closing => ?_) fun filled => ?_
  · exact .allocFrom (.containerEmpty opening closing)
  · refine ((ih .spreadOrExpression s.stop trivial).made (.containerInside opening filled)).bind ?_
    exact fun e d read => .expect fun t closing => .allocFrom (.container opening filled read closing)

theorem sound_spreadOrExpression : Sound (n + 1) .spreadOrExpression c := by
  refine .here ?_
  cases hm : c.mark? .ellipsis with
  | none =>
    exact ((ih (.expression [.closeBrace]) c trivial).made (.containerExpression hm)).imp
      fun e d read => .containerExpression hm read
  | some s =>
    exact .moveTo (((ih (.expression [.closeBrace]) s.stop trivial).made
      (.containerSpread hm)).bind fun e d read => .allocFrom (.containerSpread hm read))

theorem sound_statements : Sound (n + 1) .statements c := by
  refine .peek fun o seen => ?_
  cases o with
  | none => exact .pure (.statementsEnd seen)
  | some s =>
    by_cases ht : s.token = some (.punctuator .semicolon)
    · simp only [if_pos ht]
      have hm : c.mark? .semicolon = some s := Cursor.mark?_eq_some.2 ⟨seen, ht⟩
      exact .moveTo (((ih .statements s.stop trivial).made (.semicolon hm)).imp
        fun found d more => .semicolon hm more)
    · simp only [if_neg ht]
      refine ((ih (.expression [.semicolon]) c trivial).made (.statement seen ht)).bind
        fun e d read => .step rfl ?_
      exact ((ih .statements d trivial).made (.statements seen ht read)).bind
        fun others f more => .pure (.statement seen ht read more)

end

theorem sound (n : Nat) (phrase : Phrase) (c : Cursor) (ready : phrase.Ready c) :
    Sound n phrase c := by
  induction n generalizing phrase c with
  | zero => cases phrase <;> exact .none _
  | succ n ih =>
    cases phrase with
    | expression ends => exact sound_expression ih
    | inner ends => exact sound_inner ih
    | structured => exact sound_structured ih
    | parenthesized s => exact sound_parenthesized ih ready
    | items l => exact sound_items ih
    | item l s token => exact sound_item ih ready
    | property s token => exact sound_property ih ready
    | key s token => exact sound_propertyKey ih ready
    | kept ends => exact sound_kept ih
    | parts ends opened before text => exact sound_parts ih
    | markup => exact sound_markup ih
    | tag => exact sound_tag ih
    | attributes => exact sound_attributes ih
    | spreadAttribute => exact sound_spreadAttribute ih
    | namedAttribute => exact sound_namedAttribute ih
    | value => exact sound_value ih
    | children => exact sound_children ih
    | container => exact sound_container ih
    | spreadOrExpression => exact sound_spreadOrExpression ih
    | statements => exact sound_statements ih

end MarkupEditor.Parser
