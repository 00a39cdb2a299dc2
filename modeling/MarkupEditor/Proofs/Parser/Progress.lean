import MarkupEditor.Proofs.Parser.Readings

set_option autoImplicit false

namespace MarkupEditor

namespace Cursor

/-- The second place comes after the first in the same source. -/
def Past (c d : Cursor) : Prop :=
  c.Before d ∧ d.rest.length < c.rest.length

variable {c d e : Cursor} {s : Sight}

theorem Before.past (h : c.Before d) (h' : d.Past e) : c.Past e :=
  ⟨h.trans h'.1, Nat.lt_of_lt_of_le h'.2 h.length_le⟩

theorem Past.before (h : c.Past d) (h' : d.Before e) : c.Past e :=
  ⟨h.1.trans h', Nat.lt_of_le_of_lt h'.length_le h.2⟩

theorem Past.trans (h : c.Past d) (h' : d.Past e) : c.Past e :=
  h.before h'.1

theorem past_stop (h : c.sight? = some s) : c.Past s.stop :=
  ⟨before_stop h, length_stop_lt h⟩

theorem past_mark {mark : Punctuator} (h : c.mark? mark = some s) : c.Past s.stop :=
  past_stop (mark?_eq_some.1 h).1

theorem past_advance {text rest : List Char} (h : c.rest = text ++ rest) (ht : text ≠ []) :
    c.Past (c.advance text rest) := by
  refine ⟨before_advance h, ?_⟩
  have := List.length_pos_iff.2 ht
  rw [h, List.length_append]
  change rest.length < text.length + rest.length
  omega

theorem before_separator {closing : Punctuator} (h : c.separator? closing = some d) : c.Before d := by
  unfold Cursor.separator? at h
  split at h
  · rename_i s hs
    cases h
    exact (past_mark hs).1
  · split at h
    · cases h
      exact .refl _
    · cases h

end Cursor

namespace Parser

variable {c d : Cursor}

theorem ReadsName.past {name : String} (h : ReadsName c name d) : c.Past d := by
  obtain ⟨seen, _⟩ := h
  exact Cursor.past_stop seen

theorem ReadsDotted.before {name : String} (h : ReadsDotted c name d) : c.Before d := by
  induction h with
  | done h => exact .refl _
  | more dot first _ ih => exact (Cursor.past_mark dot).1.trans (first.past.1.trans ih)

theorem ReadsElementName.past {name : String} (h : ReadsElementName c name d) : c.Past d := by
  cases h with
  | colon front colon back => exact front.past.trans ((Cursor.past_mark colon).trans back.past)
  | dotted front plain rest => exact front.past.before rest.before

theorem ReadsAttributeName.past {name : String} (h : ReadsAttributeName c name d) : c.Past d := by
  cases h with
  | colon front colon back => exact front.past.trans ((Cursor.past_mark colon).trans back.past)
  | plain front plain => exact front.past

theorem ReadsClosing.past {name : Option String} (h : ReadsClosing c name d) : c.Past d := by
  cases h with
  | fragment less slash greater =>
    exact (Cursor.past_mark less).trans ((Cursor.past_mark slash).trans (Cursor.past_mark greater))
  | element less slash _ read greater =>
    exact (Cursor.past_mark less).trans
      ((Cursor.past_mark slash).trans (read.past.trans (Cursor.past_mark greater)))

theorem textRun_append (cs : List Char) : cs = textRun cs ++ cs.drop (textRun cs).length := by
  conv => lhs; rw [← List.take_append_drop (textRun cs).length cs]
  rw [List.append_left_inj]
  exact List.prefix_iff_eq_take.1 (List.takeWhile_prefix _) |>.symm

theorem textRun_plain {run rest : List Char} (plain : ∀ x ∈ run, x ∉ ['<', '>', '{', '}'])
    (last : textRun rest = []) : textRun (run ++ rest) = run ∧ ∀ x ∈ run, textReference? x = none := by
  have all : ∀ x ∈ run, (x != '<' && x != '{') = true := by
    intro x hx
    have := plain x hx
    simp_all
  constructor
  · rw [textRun] at last ⊢
    rw [List.takeWhile_append_of_pos all, last, List.append_nil]
  · intro x hx
    have := plain x hx
    simp_all [textReference?]

theorem ReadsText.before {front : List Shape} (h : ReadsText c front d) : c.Before d := by
  cases h with
  | empty h => exact .refl _
  | text h clean stop =>
    subst stop
    exact Cursor.before_advance (textRun_append _)

theorem ReadsText.head {front : List Shape} {x : Char} {rest : List Char} (h : ReadsText c front d)
    (hd : d.rest = x :: rest) (hx : x ≠ '{') : x = '<' := by
  have head : ∀ cs : List Char, cs.drop (textRun cs).length = x :: rest → x = '<' := by
    intro cs
    induction cs with
    | nil => simp
    | cons y cs ih =>
      simp only [textRun, List.takeWhile_cons]
      split
      · simpa [textRun] using ih
      · rename_i hy
        intro h
        simp only [List.length_nil, List.drop_zero, List.cons.injEq] at h
        simp_all
  cases h with
  | empty h =>
    apply head c.rest
    rw [h, ← hd]
    rfl
  | text h clean stop =>
    subst stop
    exact head c.rest hd

/-- The lexeme that a phrase begins with is the one at its place. -/
def Phrase.Ready : Phrase → Cursor → Prop
  | .parenthesized s, c => c.sight? = some s
  | .item _ s token, c => c.sight? = some s ∧ s.token = some token
  | .property s token, c => c.sight? = some s ∧ s.token = some token
  | .key s token, c => c.sight? = some s ∧ s.token = some token
  | _, _ => True

/-- How far a reading goes. Nothing but the end of a kept text is read without passing over text. -/
def Phrase.Moves : Phrase → Cursor → Answer → Cursor → Prop
  | .parts _ _ _ text, c, .parts found, d => c.Past d ∨ found = sourcePart text ∧ c.Before d
  | _, c, .node _, d => c.Past d
  | _, c, .key _, d => c.Past d
  | _, c, _, d => c.Before d

theorem Phrase.Moves.before {phrase : Phrase} {a : Answer} (h : phrase.Moves c a d) : c.Before d := by
  cases phrase <;> cases a <;> first
    | exact h
    | exact h.1
    | exact h.elim (·.1) (·.2)

theorem Reads.moves {phrase : Phrase} {a : Answer} (h : Reads phrase c a d) (ready : phrase.Ready c) :
    phrase.Moves c a d := by
  induction h with
  | structuredExpression attempt ended ih => exact ih trivial
  | keptOther attempt kept _ ih => exact ih trivial
  | keptUnended attempt going kept _ ih => exact ih trivial
  | innerNone ended => exact .refl _
  | innerSome going read ih => exact ih trivial
  | nothing h => exact .refl _
  | beginsOther seen h => exact .refl _
  | leaf seen h made => exact Cursor.past_stop seen
  | negative seen next h read => exact (Cursor.past_mark seen).trans (Cursor.past_stop next)
  | negativeOther seen h => exact (Cursor.past_mark seen).1
  | structuredMarkup seen read ih => exact ih trivial
  | structuredParenthesized seen read ih =>
    have := ih (Cursor.mark?_eq_some.1 seen).1
    rename_i a
    cases a <;> exact this
  | listing seen opens read ih => exact (Cursor.past_mark seen).before (ih trivial)
  | listingOther seen opens read ih => exact (Cursor.past_mark seen).1.trans (ih trivial)
  | parenthesizedEmpty read ih => exact (Cursor.past_stop ready).1.trans (ih trivial)
  | parenthesizedOpen read h ih => exact (Cursor.past_stop ready).1.trans (ih trivial).1
  | parenthesized read h ih =>
    exact (Cursor.past_stop ready).trans ((ih trivial).trans (Cursor.past_mark h))
  | itemsNothing h => exact .refl _
  | itemsEnd h => exact (Cursor.past_mark h).1
  | itemsOther seen h going read ih => exact ih ⟨seen, h⟩
  | itemsUnseparated seen h going read stuck ih => exact (ih ⟨seen, h⟩).1
  | itemsRestOther seen h going read separated others ih ih' =>
    exact (ih ⟨seen, h⟩).1.trans ((Cursor.before_separator separated).trans (ih' trivial))
  | itemsCons seen h going read separated more ih ih' =>
    exact (ih ⟨seen, h⟩).1.trans ((Cursor.before_separator separated).trans (ih' trivial))
  | spread read ih => exact (Cursor.past_stop ready.1).trans (ih trivial)
  | spreadOther read ih => exact (Cursor.past_stop ready.1).1.trans (ih trivial)
  | element h read ih =>
    have := ih trivial
    rename_i a
    cases a <;> exact this
  | itemProperty h read ih =>
    have := ih ready
    rename_i a
    cases a <;> exact this
  | propertyKeyOther read ih => exact ih ready
  | property key colon read ih ih' =>
    exact (ih ready).trans ((Cursor.past_mark colon).trans (ih' trivial))
  | propertyValueOther key colon read ih ih' =>
    exact (ih ready).1.trans ((Cursor.past_mark colon).1.trans (ih' trivial))
  | shorthand key plain ended ih => exact ih ready
  | shorthandOther key plain h ih => exact (ih ready).1
  | key made => exact Cursor.past_stop ready.1
  | keyOther h => exact .refl _
  | computed read h ih =>
    exact (Cursor.past_stop ready.1).trans ((ih trivial).trans (Cursor.past_mark h))
  | computedOpen read h ih => exact (Cursor.past_stop ready.1).1.trans (ih trivial).1
  | computedEmpty read ih => exact (Cursor.past_stop ready.1).1.trans (ih trivial)
  | kept seen read h ih =>
    rcases ih trivial with ih | ⟨rfl, _⟩
    · exact (Cursor.before_start seen).past ih
    · exact absurd rfl h
  | partsEnd h => exact .inr ⟨rfl, .refl _⟩
  | partsStop seen h => exact .inr ⟨rfl, .refl _⟩
  | partsTake seen h read ih =>
    exact .inl ((Cursor.past_stop seen).before (Phrase.Moves.before (ih trivial)))
  | partsMarkup seen h read more ih ih' =>
    exact .inl (Cursor.Past.before (ih trivial) (Phrase.Moves.before (ih' trivial)))
  | markup read ih => exact ih trivial
  | fragment less greater read close ih =>
    exact (Cursor.past_mark less).trans
      ((Cursor.past_mark greater).trans (Cursor.Before.past (ih trivial) close.past))
  | selfClosing less named read found ih =>
    exact (Cursor.past_mark less).trans (read.past.before (ih trivial))
  | tag less named read found inside close ih ih' =>
    exact (Cursor.past_mark less).trans (read.past.before
      ((ih trivial).trans (Cursor.Before.trans (ih' trivial) close.past.1)))
  | attributesSlash slash greater => exact (Cursor.past_mark slash).1.trans (Cursor.past_mark greater).1
  | attributesGreater greater => exact (Cursor.past_mark greater).1
  | attributesSpread seen read more ih ih' => exact (ih trivial).1.trans (ih' trivial)
  | attributesNamed seen named read more ih ih' => exact (ih trivial).1.trans (ih' trivial)
  | spreadAttribute opening ellipsis read closing ih =>
    exact (Cursor.past_mark opening).trans ((Cursor.past_mark ellipsis).trans
      ((ih trivial).trans (Cursor.past_mark closing)))
  | namedValue named equals read ih =>
    exact named.past.trans ((Cursor.past_mark equals).trans
      ((Cursor.before_skipBlanks _).past (ih trivial)))
  | namedBare named plain => exact named.past
  | @valueString _ _ quote close body rest h quoted closed stop =>
    subst stop
    have hrest : body = body.takeWhile (· != quote) ++ close :: rest := by
      rw [← closed, List.takeWhile_append_dropWhile]
    exact Cursor.past_advance (by simpa [h] using hrest) (List.cons_ne_nil _ _)
  | valueContainer h opening filled read closing ih =>
    exact (Cursor.past_mark opening).trans ((ih trivial).trans (Cursor.past_mark closing))
  | valueMarkup h read ih => exact ih trivial
  | childrenEnd text h closing => exact text.before
  | childrenContainer text h read more ih ih' =>
    exact text.before.trans ((ih trivial).1.trans (ih' trivial))
  | childrenMarkup text h opening read more ih ih' =>
    exact text.before.trans ((ih trivial).1.trans (ih' trivial))
  | containerEmpty opening closing => exact (Cursor.past_mark opening).trans (Cursor.past_mark closing)
  | container opening filled read closing ih =>
    exact (Cursor.past_mark opening).trans ((ih trivial).trans (Cursor.past_mark closing))
  | containerSpread ellipsis read ih => exact (Cursor.past_mark ellipsis).trans (ih trivial)
  | containerExpression plain read ih => exact ih trivial
  | statementsEnd h => exact .refl _
  | semicolon h more ih => exact (Cursor.past_mark h).1.trans (ih trivial)
  | statement seen h read more ih ih' => exact (ih trivial).1.trans (ih' trivial)

end Parser

end MarkupEditor
