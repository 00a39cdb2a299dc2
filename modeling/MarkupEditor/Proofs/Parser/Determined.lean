import Mathlib.Data.List.TakeWhile
import MarkupEditor.Proofs.Parser.Runs

set_option autoImplicit false

namespace MarkupEditor.Parser

open Text

variable {α β : Type} {c d e : Cursor}

/-- The parse ends with this value and place, or for want of depth. -/
def Settles (p : Parser Unit α) (c : Cursor) (x : α) (d : Cursor) : Prop :=
  p ⟨c, ()⟩ = .error .exhausted ∨ p ⟨c, ()⟩ = .ok (x, ⟨d, ()⟩)

namespace Settles

theorem pure (x : α) : Settles (Pure.pure x) c x c :=
  .inr rfl

theorem bind {p : Parser Unit α} {f : α → Parser Unit β} {x : α} {y : β}
    (h : Settles p c x d) (h' : Settles (f x) d y e) : Settles (p >>= f) c y e := by
  rcases h with h | h
  · exact .inl (run_bind_error h)
  · rw [Settles, run_bind_ok h]
    exact h'

theorem step {p : Parser Unit α} {f : α → Parser Unit β} {x : α} {y : β}
    (h : p ⟨c, ()⟩ = .ok (x, ⟨d, ()⟩)) (h' : Settles (f x) d y e) : Settles (p >>= f) c y e :=
  bind (.inr h) h'

theorem peek {f : Option Sight → Parser Unit β} {y : β} {o : Option Sight} (h : c.sight? = o)
    (h' : Settles (f o) c y e) : Settles (Parser.peek >>= f) c y e :=
  step (congrArg (fun o => Except.ok (o, _)) h) h'

theorem here {f : Cursor → Parser Unit β} {y : β} (h : Settles (f c) c y e) :
    Settles (Parser.here >>= f) c y e :=
  step rfl h

theorem moveTo {f : Unit → Parser Unit β} {y : β} (h : Settles (f ()) d y e) :
    Settles (Parser.moveTo d >>= f) c y e :=
  step rfl h

theorem accept {f : Bool → Parser Unit β} {y : β} {mark : Punctuator} {s : Sight}
    (h : c.mark? mark = some s) (h' : Settles (f true) s.stop y e) :
    Settles (Parser.accept mark >>= f) c y e :=
  step (run_accept_some h) h'

theorem pass {f : Bool → Parser Unit β} {y : β} {mark : Punctuator}
    (h : c.mark? mark = none) (h' : Settles (f false) c y e) :
    Settles (Parser.accept mark >>= f) c y e :=
  step (run_accept_none h) h'

theorem expect {f : Sight → Parser Unit β} {y : β} {mark : Punctuator} {s : Sight}
    (h : c.mark? mark = some s) (h' : Settles (f s) s.stop y e) :
    Settles (Parser.expect mark >>= f) c y e :=
  step (run_expect_some h) h'

theorem allocFrom (kind : NodeKind Shape) (start : Nat) :
    Settles (Parser.allocFrom nested kind start) c (shapeAt kind start c.pos) c :=
  .inr rfl

end Settles

theorem ReadsDotted.settles {name : String} (h : ReadsDotted c name d) (n : Nat) :
    Settles (dottedName n) c name d := by
  induction h generalizing n with
  | done h =>
    cases n with
    | zero => exact .inl rfl
    | succ n => exact .pass h (.pure _)
  | more dot first _ ih =>
    cases n with
    | zero => exact .inl rfl
    | succ n => exact .accept dot (.step (run_expectName first) ((ih n).bind (.pure _)))

theorem ReadsElementName.settles {name : String} (h : ReadsElementName c name d) (n : Nat) :
    Settles (elementName n) c name d := by
  cases h with
  | colon front colon back =>
    exact .step (run_expectName front) (.accept colon (.step (run_expectName back) (.pure _)))
  | dotted front plain rest =>
    exact .step (run_expectName front) (.pass plain ((rest.settles n).bind (.pure _)))

theorem ReadsAttributeName.settles {name : String} (h : ReadsAttributeName c name d) :
    Settles attributeName c name d := by
  cases h with
  | colon front colon back =>
    exact .step (run_expectName front) (.accept colon (.step (run_expectName back) (.pure _)))
  | plain front plain => exact .step (run_expectName front) (.pass plain (.pure _))

theorem ReadsClosing.fragment_settles (h : ReadsClosing c none d) : Settles closeFragment c () d := by
  cases h with
  | fragment less slash greater => exact .expect less (.expect slash (.expect greater (.pure _)))

theorem ReadsClosing.element_settles {name : String} (h : ReadsClosing c (some name) d) (n : Nat) :
    Settles (closeElement n name) c () d := by
  cases h with
  | element less slash named read greater =>
    refine .expect less (.expect slash (.step (run_sees _ _) ?_))
    rw [named]
    refine (read.settles n).bind (.expect greater ?_)
    rw [if_pos rfl]
    exact .pure _

theorem ReadsText.settles {front : List Shape} (h : ReadsText c front d) :
    Settles (textChild? nested) c front d := by
  cases h with
  | empty h =>
    refine .here ?_
    rw [h]
    exact .pure _
  | text h clean stop =>
    have hd : (textRun c.rest).dropWhile (fun x => (textReference? x).isNone) = [] := by
      rw [List.dropWhile_eq_nil_iff]
      intro x hx
      rw [clean x hx]
      rfl
    subst stop
    refine .here ?_
    rw [if_neg (by rwa [List.isEmpty_iff])]
    refine .bind ?_ (.pure _)
    refine .here ?_
    rw [hd]
    exact .inr rfl

/-- How a phrase read from `c` as `a` up to `d` shows in its parse at a depth. -/
def Gives (n : Nat) : Phrase → Cursor → Answer → Cursor → Prop
  | .expression ends, c, .node e, d => Settles (expression nested n ends) c e d
  | .inner ends, c, .other, d => Settles (innerExpression nested n ends) c none d
  | .inner ends, c, .node e, d => Settles (innerExpression nested n ends) c (some e) d
  | .structured, c, .other, d => Settles (structured nested n) c none d
  | .structured, c, .node e, d => Settles (structured nested n) c (some e) d
  | .parenthesized s, c, .other, d => Settles (parenthesized nested n s) c none d
  | .parenthesized s, c, .node e, d => Settles (parenthesized nested n s) c (some e) d
  | .items l, c, .other, d => Settles (items nested n l) c none d
  | .items l, c, .nodes es, d => Settles (items nested n l) c (some es) d
  | .item l s t, c, .other, d => Settles (item nested n l s t) c none d
  | .item l s t, c, .node e, d => Settles (item nested n l s t) c (some e) d
  | .property s t, c, .other, d => Settles (property nested n s t) c none d
  | .property s t, c, .node e, d => Settles (property nested n s t) c (some e) d
  | .key s t, c, .other, d => Settles (propertyKey nested n s t) c none d
  | .key s t, c, .key k, d => Settles (propertyKey nested n s t) c (some k) d
  | .kept ends, c, .node e, d => Settles (keptExpression nested n ends) c e d
  | .parts ends opened before text, c, .parts ps, d =>
    Settles (keptParts nested n ends opened before text) c ps d
  | .markup, c, .node e, d => Settles (markup nested n) c e d
  | .tag, c, .node e, d => Settles (tag nested n) c e d
  | .attributes, c, .attributes es closed, d => Settles (attributes nested n) c (es, closed) d
  | .spreadAttribute, c, .node e, d => Settles (spreadAttribute nested n) c e d
  | .namedAttribute, c, .node e, d => Settles (namedAttribute nested n) c e d
  | .value, c, .node e, d => Settles (attributeValue nested n) c e d
  | .children, c, .nodes es, d => Settles (children nested n) c es d
  | .container, c, .node e, d => Settles (container nested n) c e d
  | .spreadOrExpression, c, .node e, d => Settles (spreadOrExpression nested n) c e d
  | .statements, c, .nodes es, d => Settles (statements nested n) c es d
  | _, _, _, _ => True

theorem gives_zero (phrase : Phrase) (c : Cursor) (a : Answer) (d : Cursor) : Gives 0 phrase c a d := by
  cases phrase <;> cases a <;> first | trivial | exact .inl rfl

theorem structured_gives_leaf {n : Nat} {s : Sight} {token : Token} {kind : NodeKind Shape}
    (seen : c.sight? = some s) (h : s.token = some token) (made : LeafOf token kind) :
    Settles (structured nested (n + 1)) c (some (.node (some s.span) kind)) s.stop := by
  refine .peek seen ?_
  cases made with
  | number read =>
    simp only [h]
    exact .step (run_readNumber read) (.step rfl (.pure _))
  | plain made =>
    simp only [h]
    cases token with
    | number raw => simp [leafKind?] at made
    | punctuator mark => simp [leafKind?] at made
    | _ =>
      simp only [made]
      exact .step rfl (.pure _)

theorem structured_gives_other {n : Nat} {s : Sight} (seen : c.sight? = some s)
    (h : beginsOther s.token = true) :
    Settles (structured nested (n + 1)) c none c := by
  refine .peek seen ?_
  cases ht : s.token with
  | none =>
    simp only [ht]
    exact .pure _
  | some token =>
    rw [ht] at h
    simp only [ht]
    cases token with
    | number raw => simp [beginsOther] at h
    | punctuator mark => cases mark <;> first | exact absurd h (by decide) | exact .pure _
    | _ =>
      simp only [beginsOther, Option.isNone_iff_eq_none] at h
      simp only [h]
      exact .pure _

theorem structured_gives_negative {n : Nat} {s next : Sight} {raw : String} {value : Binary64}
    (seen : c.mark? .minus = some s) (follows : s.stop.sight? = some next) (h : next.number? = some raw)
    (read : numberValue? raw.toList = some value) :
    Settles (structured nested (n + 1)) c (some (shapeAt
      (.literal (.number value.neg) (some (negativeSpelling s next))) s.start.pos next.stop.pos)) next.stop := by
  obtain ⟨seen, token⟩ := Cursor.mark?_eq_some.1 seen
  refine .peek seen ?_
  simp only [token]
  refine .moveTo (.peek follows ?_)
  simp only [h]
  exact .moveTo (.step (run_readNumber read) (.step rfl (.pure _)))

theorem structured_gives_minus {n : Nat} {s : Sight} (seen : c.mark? .minus = some s)
    (h : s.stop.sight?.bind Sight.number? = none) :
    Settles (structured nested (n + 1)) c none s.stop := by
  obtain ⟨seen, token⟩ := Cursor.mark?_eq_some.1 seen
  refine .peek seen ?_
  simp only [token]
  refine .moveTo (.peek rfl ?_)
  cases hn : Cursor.sight? _ with
  | none => exact .pure _
  | some next =>
    rw [hn, Option.bind_some] at h
    simp only [h]
    exact .pure _

theorem propertyKey_gives {n : Nat} {s : Sight} {token : Token} {k : PropertyKey Shape}
    (made : KeyOf token k) : Settles (propertyKey nested (n + 1) s token) c (some k) s.stop := by
  cases made with
  | number read => exact .step (run_readNumber read) (.moveTo (.pure _))
  | plain made =>
    cases token with
    | number raw => simp [leafKey?] at made
    | punctuator mark => simp [leafKey?] at made
    | _ =>
      simp only [propertyKey, made]
      exact .moveTo (.pure _)

theorem propertyKey_gives_other {n : Nat} {s : Sight} {token : Token} (h : keyOther token = true) :
    Settles (propertyKey nested (n + 1) s token) c none c := by
  cases token with
  | number raw => simp [keyOther] at h
  | punctuator mark => cases mark <;> first | exact absurd h (by decide) | exact .pure _
  | _ =>
    simp only [keyOther, Option.isNone_iff_eq_none] at h
    simp only [propertyKey, h]
    exact .pure _

section

variable {n : Nat} {a : Answer} {ends opened : List Punctuator} {before : Option Token} {text : List Char}
  {s : Sight} {token : Token} {l : Listing}
  (ih : ∀ {phrase : Phrase} {c : Cursor} {a : Answer} {d : Cursor}, Reads phrase c a d → Gives n phrase c a d)

include ih

theorem gives_expression (h : Reads (.expression ends) c a d) : Gives (n + 1) (.expression ends) c a d := by
  cases h with
  | structuredExpression attempt ended =>
    refine .here (.step rfl ((ih attempt).bind (.here ?_)))
    rw [ended]
    exact .pure _
  | keptOther attempt kept =>
    exact .here (.step rfl ((ih attempt).bind (.here (.step rfl (ih kept)))))
  | keptUnended attempt going kept =>
    refine .here (.step rfl ((ih attempt).bind (.here ?_)))
    rw [going]
    exact .step rfl (ih kept)

theorem gives_inner (h : Reads (.inner ends) c a d) : Gives (n + 1) (.inner ends) c a d := by
  cases h with
  | innerNone ended =>
    refine .here ?_
    rw [ended]
    exact .pure _
  | innerSome going read =>
    refine .here ?_
    rw [going]
    exact (ih read).bind (.pure _)

theorem gives_structured (h : Reads .structured c a d) : Gives (n + 1) .structured c a d := by
  cases h with
  | nothing h => exact .peek h (.pure _)
  | beginsOther seen h => exact structured_gives_other seen h
  | leaf seen h made => exact structured_gives_leaf seen h made
  | negative seen next h read => exact structured_gives_negative seen next h read
  | negativeOther seen h => exact structured_gives_minus seen h
  | structuredMarkup seen read =>
    obtain ⟨seen, token⟩ := Cursor.mark?_eq_some.1 seen
    refine .peek seen ?_
    simp only [token]
    exact (ih read).bind (.pure _)
  | structuredParenthesized seen read =>
    obtain ⟨seen, token⟩ := Cursor.mark?_eq_some.1 seen
    cases a <;> first
      | trivial
      | (refine .peek seen ?_
         simp only [token]
         exact ih read)
  | @listing _ _ _ mark _ _ seen opens read =>
    obtain ⟨seen, token⟩ := Cursor.mark?_eq_some.1 seen
    refine .peek seen ?_
    cases mark <;> cases opens
    all_goals
      simp only [token]
      exact .moveTo ((ih read).bind ((Settles.allocFrom _ _).bind (.pure _)))
  | @listingOther _ _ _ mark _ seen opens read =>
    obtain ⟨seen, token⟩ := Cursor.mark?_eq_some.1 seen
    refine .peek seen ?_
    cases mark <;> cases opens
    all_goals
      simp only [token]
      exact .moveTo ((ih read).bind (.pure _))

theorem gives_parenthesized (h : Reads (.parenthesized s) c a d) : Gives (n + 1) (.parenthesized s) c a d := by
  cases h with
  | parenthesizedEmpty read => exact .moveTo ((ih read).bind (.pure _))
  | parenthesizedOpen read h => exact .moveTo ((ih read).bind (.pass h (.pure _)))
  | parenthesized read h =>
    exact .moveTo ((ih read).bind (.accept h ((Settles.allocFrom _ _).bind (.pure _))))

theorem gives_items (h : Reads (.items l) c a d) : Gives (n + 1) (.items l) c a d := by
  cases h with
  | itemsNothing h =>
    refine .peek rfl ?_
    cases hs : Cursor.sight? _ with
    | none => exact .pure _
    | some s =>
      rw [hs, Option.bind_some] at h
      simp only [h]
      exact .pure _
  | itemsEnd h =>
    obtain ⟨seen, token⟩ := Cursor.mark?_eq_some.1 h
    refine .peek seen ?_
    simp only [token, if_true]
    exact .moveTo (.pure _)
  | itemsOther seen h going read =>
    refine .peek seen ?_
    simp only [h, if_neg going]
    exact (ih read).bind (.pure _)
  | itemsUnseparated seen h going read stuck =>
    refine .peek seen ?_
    simp only [h, if_neg going]
    exact (ih read).bind (.step (run_acceptSeparator_none stuck) (.pure _))
  | itemsRestOther seen h going read separated others =>
    refine .peek seen ?_
    simp only [h, if_neg going]
    exact (ih read).bind (.step (run_acceptSeparator_some separated) ((ih others).bind (.pure _)))
  | itemsCons seen h going read separated more =>
    refine .peek seen ?_
    simp only [h, if_neg going]
    exact (ih read).bind (.step (run_acceptSeparator_some separated) ((ih more).bind (.pure _)))

theorem gives_item (h : Reads (.item l s token) c a d) : Gives (n + 1) (.item l s token) c a d := by
  cases h with
  | spread read => exact .moveTo ((ih read).bind ((Settles.allocFrom _ _).bind (.pure _)))
  | spreadOther read => exact .moveTo ((ih read).bind (.pure _))
  | element h read =>
    cases a <;> first
      | trivial
      | (rw [Gives, item, if_neg h]
         exact ih read)
  | itemProperty h read =>
    cases a <;> first
      | trivial
      | (rw [Gives, item, if_neg h]
         exact ih read)

theorem gives_property (h : Reads (.property s token) c a d) : Gives (n + 1) (.property s token) c a d := by
  cases h with
  | propertyKeyOther read => exact (ih read).bind (.pure _)
  | property key colon read =>
    exact (ih key).bind (.accept colon ((ih read).bind ((Settles.allocFrom _ _).bind (.pure _))))
  | propertyValueOther key colon read =>
    exact (ih key).bind (.accept colon ((ih read).bind (.pure _)))
  | shorthand key plain ended =>
    refine (ih key).bind (.pass plain (.here ?_))
    rw [ended]
    exact .step rfl (.step rfl (.pure _))
  | @shorthandOther _ _ _ _ k key plain h =>
    refine (ih key).bind (.pass plain ?_)
    cases k with
    | identifier name =>
      have h : (d.separator? .closeBrace).isSome = false := h.resolve_left fun h => h name rfl
      refine .here ?_
      rw [h]
      exact .pure _
    | literal value raw => exact .pure _
    | computed e => exact .pure _

theorem gives_key (h : Reads (.key s token) c a d) : Gives (n + 1) (.key s token) c a d := by
  cases h with
  | key made => exact propertyKey_gives made
  | keyOther h => exact propertyKey_gives_other h
  | computed read h => exact .moveTo ((ih read).bind (.accept h (.pure _)))
  | computedOpen read h => exact .moveTo ((ih read).bind (.pass h (.pure _)))
  | computedEmpty read => exact .moveTo ((ih read).bind (.pure _))

theorem gives_kept (h : Reads (.kept ends) c a d) : Gives (n + 1) (.kept ends) c a d := by
  cases h with
  | kept seen read h =>
    refine .peek seen (.moveTo ((ih read).bind ?_))
    rw [if_neg (by rwa [List.isEmpty_iff])]
    exact .allocFrom _ _

theorem gives_parts (h : Reads (.parts ends opened before text) c a d) : Gives (n + 1) (.parts ends opened before text) c a d := by
  cases h with
  | partsEnd h => exact .peek h (.pure _)
  | partsStop seen h =>
    refine .peek seen ?_
    simp only [h]
    exact .pure _
  | partsTake seen h read =>
    refine .peek seen ?_
    simp only [h]
    exact .moveTo (ih read)
  | partsMarkup seen h read more =>
    refine .peek seen ?_
    simp only [h]
    exact (ih read).bind ((ih more).bind (.pure _))

theorem gives_markup (h : Reads .markup c a d) : Gives (n + 1) .markup c a d := by
  cases h with
  | markup read => exact .here (.step rfl ((ih read).bind (.step rfl (.pure _))))

theorem gives_tag (h : Reads .tag c a d) : Gives (n + 1) .tag c a d := by
  cases h with
  | fragment less greater read close =>
    exact .expect less (.accept greater ((ih read).bind (close.fragment_settles.bind (.allocFrom _ _))))
  | selfClosing less named read found =>
    exact .expect less (.pass named ((read.settles n).bind ((ih found).bind (.allocFrom _ _))))
  | tag less named read found inside close =>
    exact .expect less (.pass named ((read.settles n).bind ((ih found).bind ((ih inside).bind
      ((close.element_settles n).bind (.allocFrom _ _))))))

theorem gives_attributes (h : Reads .attributes c a d) : Gives (n + 1) .attributes c a d := by
  cases h with
  | attributesSlash slash greater =>
    obtain ⟨seen, token⟩ := Cursor.mark?_eq_some.1 slash
    refine .peek seen ?_
    simp only [token]
    exact .moveTo (.expect greater (.pure _))
  | attributesGreater greater =>
    obtain ⟨seen, token⟩ := Cursor.mark?_eq_some.1 greater
    refine .peek seen ?_
    simp only [token]
    exact .moveTo (.pure _)
  | attributesSpread seen read more =>
    obtain ⟨seen, token⟩ := Cursor.mark?_eq_some.1 seen
    refine .peek seen ?_
    simp only [token]
    exact (ih read).bind ((ih more).bind (.pure _))
  | @attributesNamed _ _ _ s _ _ _ _ seen named read more =>
    refine .peek seen ?_
    cases ht : s.token with
    | none => simp [ht] at named
    | some token =>
      rw [ht, Option.bind_some] at named
      simp only [ht]
      cases token <;> first
        | exact (ih read).bind ((ih more).bind (.pure _))
        | simp [Token.name?] at named

theorem gives_spreadAttribute (h : Reads .spreadAttribute c a d) : Gives (n + 1) .spreadAttribute c a d := by
  cases h with
  | spreadAttribute opening ellipsis read closing =>
    exact .expect opening (.expect ellipsis ((ih read).bind (.expect closing (.allocFrom _ _))))

theorem gives_namedAttribute (h : Reads .namedAttribute c a d) : Gives (n + 1) .namedAttribute c a d := by
  cases h with
  | namedValue named equals read =>
    exact .here (named.settles.bind (.accept equals (.here (.moveTo ((ih read).bind (.allocFrom _ _))))))
  | namedBare named plain => exact .here (named.settles.bind (.pass plain (.allocFrom _ _)))

theorem gives_value (h : Reads .value c a d) : Gives (n + 1) .value c a d := by
  cases h with
  | valueString h quoted closed stop =>
    subst stop
    refine .here ?_
    simp only [h, if_pos quoted]
    refine .here ?_
    simp only [closed]
    exact .inr rfl
  | valueContainer h opening filled read closing =>
    refine .here ?_
    rw [h]
    refine .expect opening (.step (run_sees _ _) ?_)
    rw [filled]
    exact (ih read).bind (.expect closing (.allocFrom _ _))
  | valueMarkup h read =>
    refine .here ?_
    rw [h]
    exact ih read

theorem gives_children (h : Reads .children c a d) : Gives (n + 1) .children c a d := by
  cases h with
  | childrenEnd text h closing =>
    refine text.settles.bind (.here ?_)
    simp only [h, closing]
    exact .pure _
  | childrenContainer text h read more =>
    refine text.settles.bind (.here ?_)
    simp only [h]
    exact (ih read).bind ((ih more).bind (.pure _))
  | childrenMarkup text h opening read more =>
    refine text.settles.bind (.here ?_)
    simp only [h, opening]
    exact (ih read).bind ((ih more).bind (.pure _))

theorem gives_container (h : Reads .container c a d) : Gives (n + 1) .container c a d := by
  cases h with
  | containerEmpty opening closing => exact .expect opening (.accept closing (.allocFrom _ _))
  | container opening filled read closing =>
    exact .expect opening (.pass filled ((ih read).bind (.expect closing (.allocFrom _ _))))

theorem gives_spreadOrExpression (h : Reads .spreadOrExpression c a d) : Gives (n + 1) .spreadOrExpression c a d := by
  cases h with
  | containerSpread ellipsis read =>
    refine .here ?_
    rw [ellipsis]
    exact .moveTo ((ih read).bind (.allocFrom _ _))
  | containerExpression plain read =>
    refine .here ?_
    rw [plain]
    exact ih read

theorem gives_statements (h : Reads .statements c a d) : Gives (n + 1) .statements c a d := by
  cases h with
  | statementsEnd h => exact .peek h (.pure _)
  | semicolon h more =>
    obtain ⟨seen, token⟩ := Cursor.mark?_eq_some.1 h
    refine .peek seen ?_
    simp only [token, if_true]
    exact .moveTo (ih more)
  | statement seen h read more =>
    refine .peek seen ?_
    simp only [if_neg h]
    exact (ih read).bind ((Settles.allocFrom _ _).bind ((ih more).bind (.pure _)))

end

theorem Reads.gives {phrase : Phrase} {a : Answer} (h : Reads phrase c a d) (n : Nat) :
    Gives n phrase c a d := by
  induction n generalizing phrase c a d with
  | zero => exact gives_zero phrase c a d
  | succ n ih =>
    cases phrase with
    | expression ends => exact gives_expression ih h
    | inner ends => exact gives_inner ih h
    | structured => exact gives_structured ih h
    | parenthesized s => exact gives_parenthesized ih h
    | items l => exact gives_items ih h
    | item l s token => exact gives_item ih h
    | property s token => exact gives_property ih h
    | key s token => exact gives_key ih h
    | kept ends => exact gives_kept ih h
    | parts ends opened before text => exact gives_parts ih h
    | markup => exact gives_markup ih h
    | tag => exact gives_tag ih h
    | attributes => exact gives_attributes ih h
    | spreadAttribute => exact gives_spreadAttribute ih h
    | namedAttribute => exact gives_namedAttribute ih h
    | value => exact gives_value ih h
    | children => exact gives_children ih h
    | container => exact gives_container ih h
    | spreadOrExpression => exact gives_spreadOrExpression ih h
    | statements => exact gives_statements ih h

end MarkupEditor.Parser
