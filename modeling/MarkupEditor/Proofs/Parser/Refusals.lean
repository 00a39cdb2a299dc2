import MarkupEditor.Proofs.Parser.Sourced
import MarkupEditor.Proofs.Parser.Runs

set_option autoImplicit false

namespace MarkupEditor.Parser

open Text

variable {α β : Type} {c d e source : Cursor} {s : Sight} {E E' : ParseError → Prop}

/-- A parse that ends with a value ends as told, and one that is refused is refused as told. -/
def Concludes (E : ParseError → Prop) (p : Parser Unit α) (c : Cursor) (Q : α → Cursor → Prop) : Prop :=
  match p ⟨c, ()⟩ with
  | .ok (x, t) => Q x t.cursor
  | .error (.refused error) => E error
  | .error .exhausted => True

namespace Concludes

variable {p : Parser Unit α} {f : α → Parser Unit β} {Q Q' : α → Cursor → Prop} {R : β → Cursor → Prop}

theorem pure {x : α} (h : Q x c) : Concludes E (Pure.pure x) c Q :=
  h

theorem refuse {error : ParseError} (h : E error) : Concludes E (Parser.refuse error) c Q :=
  h

theorem exhausted : Concludes E (throw .exhausted) c Q :=
  trivial

theorem bind (h : Concludes E p c Q) (h' : ∀ x d, Q x d → Concludes E (f x) d R) :
    Concludes E (p >>= f) c R := by
  unfold Concludes at h ⊢
  rw [run_bind]
  rcases hp : p ⟨c, ()⟩ with (error | _) | ⟨x, t⟩ <;> rw [hp] at h
  · exact h
  · trivial
  · exact h' x t.cursor h

theorem weaken (h : Concludes E p c Q) (hE : ∀ error, E error → E' error) (hQ : ∀ x d, Q x d → Q' x d) :
    Concludes E' p c Q' := by
  unfold Concludes at h ⊢
  rcases hp : p ⟨c, ()⟩ with (error | _) | ⟨x, t⟩ <;> rw [hp] at h
  · exact hE error h
  · trivial
  · exact hQ x t.cursor h

theorem imp (h : Concludes E p c Q) (hQ : ∀ x d, Q x d → Q' x d) : Concludes E p c Q' :=
  h.weaken (fun _ h => h) hQ

theorem step {x : α} (h : p ⟨c, ()⟩ = .ok (x, ⟨d, ()⟩)) (h' : Concludes E (f x) d R) :
    Concludes E (p >>= f) c R := by
  unfold Concludes
  rw [run_bind_ok h]
  exact h'

theorem here {f : Cursor → Parser Unit β} (h : Concludes E (f c) c R) :
    Concludes E (Parser.here >>= f) c R :=
  step rfl h

theorem peek {f : Option Sight → Parser Unit β} (h : ∀ o, c.sight? = o → Concludes E (f o) c R) :
    Concludes E (Parser.peek >>= f) c R :=
  step rfl (h _ rfl)

theorem moveTo {f : Unit → Parser Unit β} (h : Concludes E (f ()) d R) :
    Concludes E (Parser.moveTo d >>= f) c R :=
  step rfl h

theorem allocFrom {kind : NodeKind Shape} {start : Nat} {Q : Shape → Cursor → Prop}
    (h : Q (shapeAt kind start c.pos) c) : Concludes E (Parser.allocFrom nested kind start) c Q :=
  h

theorem accept {f : Bool → Parser Unit β} {mark : Punctuator}
    (h : ∀ s, c.mark? mark = some s → Concludes E (f true) s.stop R)
    (h' : c.mark? mark = none → Concludes E (f false) c R) :
    Concludes E (Parser.accept mark >>= f) c R := by
  cases hm : c.mark? mark with
  | none => exact step (run_accept_none hm) (h' hm)
  | some s => exact step (run_accept_some hm) (h s hm)

theorem acceptSeparator {f : Bool → Parser Unit β} {closing : Punctuator}
    (h : ∀ d, c.separator? closing = some d → Concludes E (f true) d R)
    (h' : c.separator? closing = none → Concludes E (f false) c R) :
    Concludes E (Parser.acceptSeparator closing >>= f) c R := by
  cases hm : c.separator? closing with
  | none => exact step (run_acceptSeparator_none hm) (h' hm)
  | some d => exact step (run_acceptSeparator_some hm) (h d hm)

end Concludes

/-- An error points at the text between two places of the source. -/
def Points (source : Cursor) (error : ParseError) : Prop :=
  ∃ d e : Cursor, source.Before d ∧ d.Before e ∧ error.span = ⟨d.pos, e.pos⟩

theorem Points.mono {error : ParseError} (h : Points c error) (place : source.Before c) :
    Points source error := by
  obtain ⟨d, e, hd, he, hspan⟩ := h
  exact ⟨d, e, place.trans hd, he, hspan⟩

theorem before_end (c : Cursor) : c.Before ⟨[], c.sourceEnd⟩ :=
  ⟨c.rest, (List.append_nil _).symm, rfl⟩

theorem exists_nextStart (c : Cursor) : ∃ d, c.Before d ∧ d.pos = c.nextStart := by
  unfold Cursor.nextStart
  cases seen : c.sight? with
  | none => exact ⟨_, before_end c, rfl⟩
  | some s => exact ⟨s.start, Cursor.before_start seen, rfl⟩

theorem before_character {x : Char} {rest : List Char} (h : c.rest = x :: rest) (one : x.utf8Size = 1) :
    c.Before ⟨rest, c.pos + 1⟩ :=
  ⟨[x], h, by simp [one]⟩

theorem skip_front {cs rest : List Char} {x : Char} (h : (Lexer.skip .between cs).1 = x :: rest) :
    isTokenBlank x = true ∨ x = '/' := by
  cases cs with
  | nil => cases h
  | cons y cs =>
    by_cases blank : isTokenBlank y = true
    · rw [Lexer.skip_blank blank] at h
      cases h
      exact .inl blank
    · cases cs with
      | nil => simp [Lexer.skip, blank] at h
      | cons z cs =>
        rw [Lexer.skip, if_neg blank] at h
        split at h
        · rename_i slash
          exact .inr ((List.cons.inj h).1 ▸ slash.1)
        · split at h
          · rename_i slash
            exact .inr ((List.cons.inj h).1 ▸ slash.1)
          · cases h

theorem skipped_of_sight (seen : c.sight? = some s) : s.skipped = (Lexer.skip .between c.rest).1 := by
  obtain ⟨l, hl, rfl⟩ := Option.map_eq_some_iff.1 seen
  unfold Lexeme.next? at hl
  split at hl
  · cases hl
  · rename_i skipped x rest heq
    cases hl
    rw [heq]
    exact Lexeme.first_skipped skipped x rest

theorem utf8Size_of_blank {x : Char} (h : isTokenBlank x = true ∨ x = '/') : x.utf8Size = 1 := by
  simp only [isTokenBlank, Bool.or_eq_true, beq_iff_eq] at h
  rcases h with ((((rfl | rfl) | rfl) | rfl) | rfl) | rfl <;> decide

theorem front_of_mark {mark : Punctuator} (h : c.mark? mark = some s) :
    ∃ x rest, c.rest = x :: rest ∧ x.utf8Size = 1 := by
  obtain ⟨seen, token⟩ := Cursor.mark?_eq_some.1 h
  obtain ⟨-, -, htext, hrest, -⟩ := Cursor.sight?_spec seen
  cases hs : s.skipped with
  | cons x skipped =>
    exact ⟨x, _, by rw [hrest, hs]; rfl, utf8Size_of_blank (skip_front ((skipped_of_sight seen).symm.trans hs))⟩
  | nil =>
    have text := Cursor.text_of_token seen token
    have single : ∀ mark : Punctuator, ∃ x rest, mark.text.toList = x :: rest ∧ x.utf8Size = 1 := by
      intro mark
      cases mark <;> exact ⟨_, _, rfl, by decide⟩
    obtain ⟨x, rest, hx, one⟩ := single mark
    refine ⟨x, rest ++ s.stop.rest, ?_, one⟩
    rw [hrest, hs, htext, ← String.toList_ofList (l := s.text), ← text]
    exact congrArg (· ++ s.stop.rest) hx

/-- A parse that is refused points into the source, and one that ends stops at a place of it. -/
def Locates (source : Cursor) (p : Parser Unit α) (c : Cursor) : Prop :=
  Concludes (Points source) p c fun _ d => source.Before d

namespace Locates

variable {p : Parser Unit α} {f : α → Parser Unit β} {Q : α → Cursor → Prop} {R : β → Cursor → Prop}

theorem bind (h : Locates source p c) (h' : ∀ x d, source.Before d → Locates source (f x) d) :
    Locates source (p >>= f) c :=
  Concludes.bind h h'

theorem mono (h : Locates c p d) (place : source.Before c) : Locates source p d :=
  h.weaken (fun _ points => points.mono place) fun _ _ before => place.trans before

theorem refuseEnd (place : source.Before c) (expected : String) :
    Concludes (Points source) (Parser.refuseEnd expected : Parser Unit α) c Q :=
  .here (.refuse ⟨_, _, place.trans (before_end c), .refl _, rfl⟩)

theorem refuseSight (place : source.Before c) (expected : String) :
    Concludes (Points source) (Parser.refuseSight expected c.sight? : Parser Unit α) c Q := by
  cases seen : c.sight? with
  | none => exact refuseEnd place expected
  | some s =>
    have points {error : ParseError} (h : error.span = s.span) : Points source error :=
      ⟨s.start, s.stop, place.trans (Cursor.before_start seen), (Cursor.sight?_spec seen).2.1, h⟩
    cases ht : s.token with
    | none =>
      simp only [Parser.refuseSight, ht]
      exact .refuse (points rfl)
    | some token =>
      simp only [Parser.refuseSight, ht]
      exact .refuse (points rfl)

theorem expect {f : Sight → Parser Unit β} {mark : Punctuator} (place : source.Before c)
    (h : ∀ s, c.mark? mark = some s → Concludes (Points source) (f s) s.stop R) :
    Concludes (Points source) (Parser.expect mark >>= f) c R := by
  cases hm : c.mark? mark with
  | some s => exact .step (run_expect_some hm) (h s hm)
  | none =>
    refine .bind (Q := fun _ _ => False) (.here ?_) fun _ _ h => h.elim
    rw [hm]
    exact .peek fun o ho => ho ▸ refuseSight place _

theorem expectName {f : String → Parser Unit β} {expected : String} (place : source.Before c)
    (h : ∀ name d, c.Before d → Concludes (Points source) (f name) d R) :
    Concludes (Points source) (Parser.expectName expected >>= f) c R := by
  cases hs : c.sight? with
  | none =>
    refine .bind (Q := fun _ _ => False) (.step rfl ?_) fun _ _ h => h.elim
    rw [hs]
    exact refuseEnd place expected
  | some s =>
    cases hn : s.token.bind Token.name? with
    | some name => exact .step (run_expectName ⟨hs, hn⟩) (h name _ (Cursor.before_stop hs))
    | none =>
      refine .bind (Q := fun _ _ => False) (.step rfl ?_) fun _ _ h => h.elim
      simp only [hs, hn]
      exact hs ▸ refuseSight place expected

theorem readNumber {f : Binary64 → Parser Unit β} {raw : String} {s : Sight} (seen : d.sight? = some s)
    (before : source.Before d) (h : ∀ value, Concludes (Points source) (f value) c R) :
    Concludes (Points source) (Parser.readNumber raw s.span >>= f) c R := by
  cases hv : numberValue? raw.toList with
  | some value => exact .step (run_readNumber hv) (h value)
  | none =>
    refine .bind (Q := fun _ _ => False) ?_ fun _ _ h => h.elim
    rw [Parser.readNumber, hv]
    exact .refuse ⟨s.start, s.stop, before.trans (Cursor.before_start seen), (Cursor.sight?_spec seen).2.1, rfl⟩

end Locates

theorem locates_dottedName (n : Nat) (place : source.Before c) : Locates source (dottedName n) c := by
  induction n generalizing c with
  | zero => exact .exhausted
  | succ n ih =>
    refine .accept (fun s dot => ?_) fun _ => .pure place
    have after := place.trans (Cursor.past_mark dot).1
    refine Locates.expectName after fun part d before => ?_
    exact (ih (after.trans before)).bind fun others e place => .pure place

theorem locates_elementName (n : Nat) (place : source.Before c) : Locates source (elementName n) c := by
  refine Locates.expectName place fun first d before => .accept (fun s colon => ?_) fun _ => ?_
  · have after := (place.trans before).trans (Cursor.past_mark colon).1
    exact Locates.expectName after fun second e before => .pure (after.trans before)
  · exact (locates_dottedName n (place.trans before)).bind fun others e place => .pure place

theorem locates_attributeName (place : source.Before c) : Locates source attributeName c := by
  refine Locates.expectName place fun first d before => .accept (fun s colon => ?_) fun _ => ?_
  · have after := (place.trans before).trans (Cursor.past_mark colon).1
    exact Locates.expectName after fun second e before => .pure (after.trans before)
  · exact .pure (place.trans before)

theorem locates_closeFragment (place : source.Before c) : Locates source closeFragment c := by
  refine Locates.expect place fun a less => ?_
  have place := place.trans (Cursor.past_mark less).1
  refine Locates.expect place fun b slash => ?_
  have place := place.trans (Cursor.past_mark slash).1
  exact Locates.expect place fun d greater => .pure (place.trans (Cursor.past_mark greater).1)

theorem locates_closeElement (n : Nat) (name : String) (place : source.Before c) :
    Locates source (closeElement n name) c := by
  refine Locates.expect place fun a less => ?_
  have opening : source.Before a.start := place.trans (Cursor.before_start (Cursor.mark?_eq_some.1 less).1)
  have after : a.start.Before a.stop := (Cursor.sight?_spec (Cursor.mark?_eq_some.1 less).1).2.1
  refine Locates.mono (c := a.start) ?_ opening
  refine Locates.expect after fun b slash => .step (run_sees _ _) ?_
  have after := after.trans (Cursor.past_mark slash).1
  cases b.stop.mark? .greater with
  | some s =>
    obtain ⟨d, before, hd⟩ := exists_nextStart b.stop
    exact .here (.refuse ⟨a.start, d, .refl _, after.trans before, by rw [hd]; rfl⟩)
  | none =>
    refine (locates_elementName n after).bind fun found d after => ?_
    refine Locates.expect after fun e greater => ?_
    have after := after.trans (Cursor.past_mark greater).1
    split
    · exact .pure after
    · exact .refuse ⟨a.start, e.stop, .refl _, after, rfl⟩

theorem utf8Size_of_reference {x : Char} {reference : String} (h : textReference? x = some reference) :
    x.utf8Size = 1 := by
  unfold textReference? at h
  split at h
  · subst x
    decide
  · split at h
    · subst x
      decide
    · cases h

theorem locates_textChild (place : source.Before c) : Locates source (textChild? nested) c := by
  refine .here ?_
  by_cases h : textRun c.rest = []
  · rw [h]
    exact .pure place
  · rw [if_neg (by rwa [List.isEmpty_iff])]
    refine Locates.bind (.here ?_) fun e d place => .pure place
    cases hd : ((textRun c.rest).dropWhile fun x => (textReference? x).isNone) with
    | nil => exact .moveTo (place.trans (Cursor.before_advance (textRun_append _)))
    | cons x rest =>
      simp only [List.head?_cons, Option.bind_some]
      cases hx : textReference? x with
      | none => exact .moveTo (place.trans (Cursor.before_advance (textRun_append _)))
      | some reference =>
        have run : textRun c.rest = (textRun c.rest).takeWhile (fun x => (textReference? x).isNone) ++
            x :: rest := by rw [← hd, List.takeWhile_append_dropWhile]
        have front : c.rest = (textRun c.rest).takeWhile (fun x => (textReference? x).isNone) ++
            x :: (rest ++ c.rest.drop (textRun c.rest).length) := by
          rw [← List.cons_append, ← List.append_assoc, ← run, ← textRun_append]
        exact .refuse ⟨_, _, place.trans (Cursor.before_advance front),
          before_character rfl (utf8Size_of_reference hx), rfl⟩

/-- The parse of a phrase points into the source if it is refused, and stops at a place of it otherwise. -/
def Located (source : Cursor) (n : Nat) (phrase : Phrase) (c : Cursor) : Prop :=
  match phrase with
  | .expression ends => Locates source (expression nested n ends) c
  | .inner ends => Locates source (innerExpression nested n ends) c
  | .structured => Locates source (structured nested n) c
  | .parenthesized s => Locates source (parenthesized nested n s) c
  | .items l => Locates source (items nested n l) c
  | .item l s t => Locates source (item nested n l s t) c
  | .property s t => Locates source (property nested n s t) c
  | .key s t => Locates source (propertyKey nested n s t) c
  | .kept ends => Locates source (keptExpression nested n ends) c
  | .parts ends opened before text => Locates source (keptParts nested n ends opened before text) c
  | .markup => Locates source (markup nested n) c
  | .tag => Locates source (tag nested n) c
  | .attributes => Locates source (attributes nested n) c
  | .spreadAttribute => Locates source (spreadAttribute nested n) c
  | .namedAttribute => Locates source (namedAttribute nested n) c
  | .value => Locates source (attributeValue nested n) c
  | .children => Locates source (children nested n) c
  | .container => Locates source (container nested n) c
  | .spreadOrExpression => Locates source (spreadOrExpression nested n) c
  | .statements => Locates source (statements nested n) c

section

variable {n : Nat}

theorem locates_leaf {kind : NodeKind Shape} (seen : c.sight? = some s) (place : source.Before c) :
    Locates source (do return some (← leaf nested s kind)) c :=
  .step rfl (.pure (place.trans (Cursor.before_stop seen)))

theorem locates_key {token : Token} (seen : c.sight? = some s) (place : source.Before c)
    (h : token ≠ .punctuator .openBracket) : Locates source (propertyKey nested (n + 1) s token) c := by
  have stop := place.trans (Cursor.before_stop seen)
  cases token with
  | number raw => exact Locates.readNumber seen place fun value => .moveTo (.pure stop)
  | punctuator mark =>
    cases mark with
    | openBracket => exact absurd rfl h
    | _ => exact .pure place
  | template raw => exact .pure place
  | _ => exact .moveTo (.pure stop)

theorem locates_negative (seen : c.mark? .minus = some s) (place : source.Before c) :
    Locates source (negativeNumber nested s) c := by
  have place := place.trans (Cursor.past_mark seen).1
  refine .moveTo (.peek fun o next => ?_)
  cases o with
  | none => exact .pure place
  | some m =>
    cases hm : m.number? with
    | none =>
      simp only [hm]
      exact .pure place
    | some raw =>
      simp only [hm]
      exact .moveTo (Locates.readNumber next place fun value =>
        .step rfl (.pure (place.trans (Cursor.before_stop next))))

theorem locates_string {quote : Char} {body : List Char} (hc : c.rest = quote :: body)
    (place : source.Before c) : Locates source (attributeString nested quote body) c := by
  refine .here ?_
  cases hb : body.dropWhile (· != quote) with
  | nil => exact Locates.refuseEnd place _
  | cons close rest =>
    have front : c.rest = (quote :: body.takeWhile (· != quote) ++ [close]) ++ rest := by
      rw [hc, List.append_assoc, List.cons_append, List.singleton_append, ← hb, List.takeWhile_append_dropWhile]
    exact .moveTo (place.trans (Cursor.before_advance front))

variable {ends opened : List Punctuator} {before : Option Token} {text : List Char} {token : Token} {l : Listing}
  (ih : ∀ phrase (c : Cursor), phrase.Ready c → source.Before c → Located source n phrase c)

include ih

theorem located_expression (place : source.Before c) : Located source (n + 1) (.expression ends) c := by
  refine .here (.step rfl (Locates.bind (ih .structured c trivial place) fun o d after => .here ?_))
  have kept := ih (.kept ends) c trivial place
  cases o with
  | none => exact .step rfl kept
  | some e =>
    cases d.endsAt ends with
    | true => exact .pure after
    | false => exact .step rfl kept

theorem located_inner (place : source.Before c) : Located source (n + 1) (.inner ends) c := by
  refine .here ?_
  split
  · exact .pure place
  · exact Locates.bind (ih (.expression ends) c trivial place) fun e d place => .pure place

theorem located_structured (place : source.Before c) : Located source (n + 1) .structured c := by
  refine .peek fun o seen => ?_
  cases o with
  | none => exact .pure place
  | some s =>
    have stop := place.trans (Cursor.before_stop seen)
    cases ht : s.token with
    | none =>
      simp only [ht]
      exact .pure place
    | some token =>
      simp only [ht]
      cases token with
      | number raw => exact Locates.readNumber seen place fun value => locates_leaf seen place
      | punctuator mark =>
        cases mark with
        | less => exact Locates.bind (ih .markup c trivial place) fun e d place => .pure place
        | minus => exact locates_negative (Cursor.mark?_eq_some.2 ⟨seen, ht⟩) place
        | openParen => exact ih (.parenthesized s) c seen place
        | openBrace | openBracket =>
          refine .moveTo (Locates.bind (ih (.items _) s.stop trivial stop) fun o d place => ?_)
          cases o with
          | none => exact .pure place
          | some found => exact .step rfl (.pure place)
        | _ => exact .pure place
      | keyword word =>
        cases word with
        | «return» => exact .pure place
        | _ => exact locates_leaf seen place
      | template raw => exact .pure place
      | _ => exact locates_leaf seen place

theorem located_parenthesized (ready : Phrase.Ready (.parenthesized s) c) (place : source.Before c) :
    Located source (n + 1) (.parenthesized s) c := by
  have stop := place.trans (Cursor.before_stop ready)
  refine .moveTo (Locates.bind (ih (.inner [.closeParen]) s.stop trivial stop) fun o d place => ?_)
  cases o with
  | none => exact .pure place
  | some e =>
    exact .accept (fun t h => .step rfl (.pure (place.trans (Cursor.past_mark h).1))) fun _ => .pure place

theorem located_items (place : source.Before c) : Located source (n + 1) (.items l) c := by
  refine .peek fun o seen => ?_
  cases o with
  | none => exact .pure place
  | some s =>
    cases ht : s.token with
    | none =>
      simp only [ht]
      exact .pure place
    | some token =>
      simp only [ht]
      split
      · exact .moveTo (.pure (place.trans (Cursor.before_stop seen)))
      · refine Locates.bind (ih (.item l s token) c ⟨seen, ht⟩ place) fun o d place => ?_
        cases o with
        | none => exact .pure place
        | some e =>
          refine .acceptSeparator (fun f separated => ?_) fun _ => .pure place
          have place := place.trans (Cursor.before_separator separated)
          exact Locates.bind (ih (.items l) f trivial place) fun o g place => .pure place

theorem located_item (ready : Phrase.Ready (.item l s token) c) (place : source.Before c) :
    Located source (n + 1) (.item l s token) c := by
  have stop := place.trans (Cursor.before_stop ready.1)
  simp only [Located, item]
  split
  · refine .moveTo (Locates.bind (ih (.inner l.ends) s.stop trivial stop) fun o d place => ?_)
    cases o with
    | none => exact .pure place
    | some e => exact .step rfl (.pure place)
  · cases l with
    | array => exact ih (.inner Listing.array.ends) c trivial place
    | object => exact ih (.property s token) c ready place

theorem located_property (ready : Phrase.Ready (.property s token) c) (place : source.Before c) :
    Located source (n + 1) (.property s token) c := by
  refine Locates.bind (ih (.key s token) c ready place) fun o d place => ?_
  cases o with
  | none => exact .pure place
  | some k =>
    refine .accept (fun t colon => ?_) fun plain => ?_
    · have place := place.trans (Cursor.past_mark colon).1
      refine Locates.bind (ih (.inner Listing.object.ends) t.stop trivial place) fun o f place => ?_
      cases o with
      | none => exact .pure place
      | some e => exact .step rfl (.pure place)
    · cases k with
      | identifier name =>
        refine .here ?_
        split
        · exact .step rfl (.step rfl (.pure place))
        · exact .pure place
      | _ => exact .pure place

theorem located_key (ready : Phrase.Ready (.key s token) c) (place : source.Before c) :
    Located source (n + 1) (.key s token) c := by
  by_cases hb : token = .punctuator .openBracket
  · subst hb
    have stop := place.trans (Cursor.before_stop ready.1)
    refine .moveTo (Locates.bind (ih (.inner [.closeBracket]) s.stop trivial stop) fun o d place => ?_)
    cases o with
    | none => exact .pure place
    | some e => exact .accept (fun t h => .pure (place.trans (Cursor.past_mark h).1)) fun _ => .pure place
  · exact locates_key ready.1 place hb

theorem located_kept (place : source.Before c) : Located source (n + 1) (.kept ends) c := by
  refine .peek fun o seen => ?_
  cases o with
  | none => exact Locates.refuseEnd place _
  | some s =>
    have start := place.trans (Cursor.before_start seen)
    refine .moveTo (Locates.bind (ih (.parts ends [] none []) s.start trivial start) fun found d place => ?_)
    split
    · exact .peek fun o ho => ho ▸ Locates.refuseSight place _
    · exact .allocFrom place

theorem located_parts (place : source.Before c) :
    Located source (n + 1) (.parts ends opened before text) c := by
  refine .peek fun o seen => ?_
  cases o with
  | none => exact .pure place
  | some s =>
    simp only
    cases keptStep ends opened before s with
    | stop => exact .pure place
    | take opened' =>
      exact .moveTo (ih (.parts ends opened' s.token _) s.stop trivial (place.trans (Cursor.before_stop seen)))
    | markup =>
      refine Locates.bind (ih .markup c trivial place) fun e d place => ?_
      exact Locates.bind (ih (.parts ends opened _ []) d trivial place) fun others f place => .pure place

theorem located_markup (place : source.Before c) : Located source (n + 1) .markup c :=
  .here (.step rfl (Locates.bind (ih .tag c trivial place) fun _ _ place => .step rfl (.pure place)))

theorem located_tag (place : source.Before c) : Located source (n + 1) .tag c := by
  refine Locates.expect place fun s less => ?_
  have place := place.trans (Cursor.past_mark less).1
  refine .accept (fun t greater => ?_) fun named => ?_
  · have place := place.trans (Cursor.past_mark greater).1
    refine Locates.bind (ih .children t.stop trivial place) fun inside d place => ?_
    exact (locates_closeFragment place).bind fun _ f place => .allocFrom place
  · refine (locates_elementName n place).bind fun name d place => ?_
    refine Locates.bind (ih .attributes d trivial place) fun found f place => ?_
    obtain ⟨found, closed⟩ := found
    cases closed with
    | true => exact .allocFrom place
    | false =>
      refine Locates.bind (ih .children f trivial place) fun inside g place => ?_
      exact (locates_closeElement n name place).bind fun _ k place => .allocFrom place

theorem located_attributes (place : source.Before c) : Located source (n + 1) .attributes c := by
  refine .peek fun o seen => ?_
  cases o with
  | none => exact Locates.refuseEnd place _
  | some s =>
    have stop := place.trans (Cursor.before_stop seen)
    have more {p : Parser Unit Shape} {k : Shape → List Shape × Bool → Parser Unit (List Shape × Bool)}
        (h : Locates source p c) (last : ∀ e x d, source.Before d → Locates source (k e x) d) :
        Locates source (do k (← p) (← attributes nested n)) c :=
      h.bind fun e d place => Locates.bind (ih .attributes d trivial place) (last e)
    have other := Locates.refuseSight place (α := List Shape × Bool) (Q := fun _ d => source.Before d)
      "attribute, '>' or '/>'"
    rw [seen] at other
    cases ht : s.token with
    | none =>
      simp only [ht]
      exact other
    | some token =>
      simp only [ht]
      cases token with
      | punctuator mark =>
        cases mark with
        | slash =>
          exact .moveTo (Locates.expect stop fun t greater => .pure (stop.trans (Cursor.past_mark greater).1))
        | greater => exact .moveTo (.pure stop)
        | openBrace => exact more (ih .spreadAttribute c trivial place) fun _ _ _ place => .pure place
        | _ => exact other
      | identifier name => exact more (ih .namedAttribute c trivial place) fun _ _ _ place => .pure place
      | keyword word => exact more (ih .namedAttribute c trivial place) fun _ _ _ place => .pure place
      | _ => exact other

theorem located_spreadAttribute (place : source.Before c) : Located source (n + 1) .spreadAttribute c := by
  refine Locates.expect place fun s opening => ?_
  have place := place.trans (Cursor.past_mark opening).1
  refine Locates.expect place fun t ellipsis => ?_
  have place := place.trans (Cursor.past_mark ellipsis).1
  refine Locates.bind (ih (.expression [.closeBrace]) t.stop trivial place) fun e d place => ?_
  exact Locates.expect place fun u closing => .allocFrom (place.trans (Cursor.past_mark closing).1)

theorem located_namedAttribute (place : source.Before c) : Located source (n + 1) .namedAttribute c := by
  refine .here ((locates_attributeName place).bind fun name d place => ?_)
  refine .accept (fun s equals => ?_) fun _ => .allocFrom place
  have place := (place.trans (Cursor.past_mark equals).1).trans (Cursor.before_skipBlanks s.stop)
  exact .here (.moveTo (Locates.bind (ih .value _ trivial place) fun e f place => .allocFrom place))

theorem located_value (place : source.Before c) : Located source (n + 1) .value c := by
  refine .here ?_
  cases hc : c.rest with
  | nil => exact Locates.refuseEnd place _
  | cons x rest =>
    simp only
    split
    · exact locates_string hc place
    · split
      · refine Locates.expect place fun s opening => .step (run_sees _ _) ?_
        have after := place.trans (Cursor.past_mark opening).1
        cases closing : s.stop.mark? .closeBrace with
        | some t =>
          obtain ⟨x, rest, front, one⟩ := front_of_mark closing
          have within := (Cursor.sight?_spec (Cursor.mark?_eq_some.1 opening).1).2.1
          exact .here (.refuse ⟨s.start, ⟨rest, s.stop.pos + 1⟩,
            place.trans (Cursor.before_start (Cursor.mark?_eq_some.1 opening).1),
            within.trans (before_character front one), rfl⟩)
        | none =>
          refine Locates.bind (ih (.expression [.closeBrace]) s.stop trivial after) fun e d place => ?_
          exact Locates.expect place fun t closing => .allocFrom (place.trans (Cursor.past_mark closing).1)
      · split
        · exact ih .markup c trivial place
        · refine .here ?_
          cases seen : c.sight? with
          | none => exact .refuse ⟨c, c, place, .refl _, rfl⟩
          | some s =>
            have start := place.trans (Cursor.before_start seen)
            exact .refuse ⟨s.start, s.stop, start, (Cursor.sight?_spec seen).2.1, rfl⟩

theorem located_children (place : source.Before c) : Located source (n + 1) .children c := by
  have more {front : List Shape} {p : Parser Unit Shape} {d : Cursor} (h : Locates source p d) :
      Locates source (do
        let first ← p
        let others ← children nested n
        return front ++ first :: others) d :=
    h.bind fun e f place => Locates.bind (ih .children f trivial place) fun others g place => .pure place
  refine (locates_textChild place).bind fun front d place => .here ?_
  cases d.rest with
  | nil => exact Locates.refuseEnd place _
  | cons x rest =>
    simp only
    split
    · exact more (ih .container d trivial place)
    · split
      · exact .pure place
      · exact more (ih .markup d trivial place)

theorem located_container (place : source.Before c) : Located source (n + 1) .container c := by
  refine Locates.expect place fun s opening => ?_
  have place := place.trans (Cursor.past_mark opening).1
  refine .accept (fun t closing => ?_) fun _ => ?_
  · exact .allocFrom (place.trans (Cursor.past_mark closing).1)
  · refine Locates.bind (ih .spreadOrExpression s.stop trivial place) fun e d place => ?_
    exact Locates.expect place fun t closing => .allocFrom (place.trans (Cursor.past_mark closing).1)

theorem located_spreadOrExpression (place : source.Before c) :
    Located source (n + 1) .spreadOrExpression c := by
  refine .here ?_
  cases hm : c.mark? .ellipsis with
  | none => exact ih (.expression [.closeBrace]) c trivial place
  | some s =>
    have place := place.trans (Cursor.past_mark hm).1
    exact .moveTo (Locates.bind (ih (.expression [.closeBrace]) s.stop trivial place) fun e d place =>
      .allocFrom place)

theorem located_statements (place : source.Before c) : Located source (n + 1) .statements c := by
  refine .peek fun o seen => ?_
  cases o with
  | none => exact .pure place
  | some s =>
    simp only
    split
    · exact .moveTo (ih .statements s.stop trivial (place.trans (Cursor.before_stop seen)))
    · refine Locates.bind (ih (.expression [.semicolon]) c trivial place) fun e d place => .step rfl ?_
      exact Locates.bind (ih .statements d trivial place) fun others f place => .pure place

end

theorem located (n : Nat) (phrase : Phrase) (c : Cursor) (ready : phrase.Ready c) (place : source.Before c) :
    Located source n phrase c := by
  induction n generalizing phrase c with
  | zero => cases phrase <;> exact trivial
  | succ n ih =>
    cases phrase with
    | expression ends => exact located_expression ih place
    | inner ends => exact located_inner ih place
    | structured => exact located_structured ih place
    | parenthesized s => exact located_parenthesized ih ready place
    | items l => exact located_items ih place
    | item l s token => exact located_item ih ready place
    | property s token => exact located_property ih ready place
    | key s token => exact located_key ih ready place
    | kept ends => exact located_kept ih place
    | parts ends opened before text => exact located_parts ih place
    | markup => exact located_markup ih place
    | tag => exact located_tag ih place
    | attributes => exact located_attributes ih place
    | spreadAttribute => exact located_spreadAttribute ih place
    | namedAttribute => exact located_namedAttribute ih place
    | value => exact located_value ih place
    | children => exact located_children ih place
    | container => exact located_container ih place
    | spreadOrExpression => exact located_spreadOrExpression ih place
    | statements => exact located_statements ih place

end MarkupEditor.Parser
