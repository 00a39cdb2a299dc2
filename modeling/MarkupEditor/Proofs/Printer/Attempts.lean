import MarkupEditor.Proofs.Printer.Twins

set_option autoImplicit false

namespace MarkupEditor.Printer

open MarkupEditor.Parser

/-- Answers of the same kind, with twins where the readings stop. -/
inductive Agree (ends barred outside : List Punctuator) (d d' : Cursor) : Answer → Answer → Prop where
  | other : Agree ends barred outside d d' .other .other
  | node {before : Option Token} {e e' : Shape} (more : Twin ends barred outside before d d') :
    Agree ends barred outside d d' (.node e) (.node e')
  | nodes {before : Option Token} {es es' : List Shape} (more : Twin ends barred outside before d d') :
    Agree ends barred outside d d' (.nodes es) (.nodes es')
  | key {before : Option Token} {k k' : PropertyKey Shape}
    (same : ∀ name, k' = .identifier name ↔ k = .identifier name) (more : Twin ends barred outside before d d') :
    Agree ends barred outside d d' (.key k) (.key k')
  | parts {before : Option Token} {found found' : List (OpaquePart Shape)}
    (same : found' = [] ↔ found = []) (more : Twin ends barred outside before d d') :
    Agree ends barred outside d d' (.parts found) (.parts found')

/-- A phrase of an attempt, and the same phrase at a twin place. `outside` are the brackets that are open
once it has been read. -/
inductive Attempt (ends barred outside : List Punctuator) : Phrase → Cursor → Phrase → Cursor → Prop where
  | expression {marks : List Punctuator} {before : Option Token} {c c' : Cursor}
    (twin : Twin ends barred outside before c c') (starts : Starts before) (inside : outside ≠ [])
    (hmarks : marks ⊆ closers) : Attempt ends barred outside (.expression marks) c (.expression marks) c'
  | inner {marks : List Punctuator} {before : Option Token} {c c' : Cursor}
    (twin : Twin ends barred outside before c c') (starts : Starts before) (inside : outside ≠ [])
    (hmarks : marks ⊆ closers) : Attempt ends barred outside (.inner marks) c (.inner marks) c'
  | structured {before : Option Token} {c c' : Cursor} (twin : Twin ends barred outside before c c')
    (starts : Starts before) (going : outside = [] → c.endsAt ends = false) :
    Attempt ends barred outside .structured c .structured c'
  | parenthesized {c c' : Cursor} {s s' : Sight}
    (twin : Twin ends barred (.openParen :: outside) (some (.punctuator .openParen)) s.stop s'.stop) :
    Attempt ends barred outside (.parenthesized s) c (.parenthesized s') c'
  | items {l : Listing} {mark : Punctuator} {before : Option Token} {c c' : Cursor}
    (opens : Listing.opened? mark = some l) (twin : Twin ends barred (mark :: outside) before c c')
    (starts : Starts before ∨ ∃ s, c.mark? l.closing = some s) :
    Attempt ends barred outside (.items l) c (.items l) c'
  | item {l : Listing} {before : Option Token} {c c' : Cursor} {s s' : Sight} {token : Token}
    (twin : Twin ends barred outside before c c') (starts : Starts before) (inside : outside ≠ [])
    (seen : c.sight? = some s) (htoken : s.token = some token) (seen' : c'.sight? = some s') :
    Attempt ends barred outside (.item l s token) c (.item l s' token) c'
  | property {before : Option Token} {c c' : Cursor} {s s' : Sight} {token : Token}
    (twin : Twin ends barred outside before c c') (inside : outside ≠ []) (seen : c.sight? = some s)
    (htoken : s.token = some token) (seen' : c'.sight? = some s') :
    Attempt ends barred outside (.property s token) c (.property s' token) c'
  | key {before : Option Token} {c c' : Cursor} {s s' : Sight} {token : Token}
    (twin : Twin ends barred outside before c c') (inside : outside ≠ []) (seen : c.sight? = some s)
    (htoken : s.token = some token) (seen' : c'.sight? = some s') :
    Attempt ends barred outside (.key s token) c (.key s' token) c'
  | kept {marks : List Punctuator} {before : Option Token} {c c' : Cursor}
    (twin : Twin ends barred outside before c c') (starts : Starts before) (inside : outside ≠ [])
    (hmarks : marks ⊆ closers) : Attempt ends barred outside (.kept marks) c (.kept marks) c'
  | parts {marks opened : List Punctuator} {before last : Option Token} {text text' : List Char}
    {c c' : Cursor} (twin : Twin ends barred (opened ++ outside) before c c')
    (hlast : last = before ∨ last = none ∧ Starts before) (inside : outside ≠ [])
    (hmarks : marks ⊆ closers) (same : text' = [] ↔ text = []) :
    Attempt ends barred outside (.parts marks opened last text) c (.parts marks opened last text') c'

section

variable {ends barred outside : List Punctuator} {c d : Cursor}

theorem within {opened : List Punctuator} (inside : opened ≠ []) (c : Cursor) :
    opened = [] → c.endsAt ends = false :=
  fun h => absurd h inside

theorem bracketsAfter_plain {token : Token} (plain : ∀ mark, token ≠ .punctuator mark) :
    bracketsAfter outside (some token) = some outside := by
  cases token with
  | punctuator mark => exact absurd rfl (plain mark)
  | _ => rfl

theorem token_of_number? {s : Sight} {raw : String} (h : s.number? = some raw) :
    s.token = some (.number raw) := by
  unfold Sight.number? at h
  split at h
  · cases h
    assumption
  · cases h

theorem listing_opening {mark : Punctuator} {l : Listing} (opens : Listing.opened? mark = some l) :
    mark ≠ .less ∧ l.closing ≠ .less ∧ (Token.punctuator mark).precedesMarkup = true ∧
      ∀ outside, bracketsAfter outside (some (.punctuator mark)) = some (mark :: outside) ∧
        bracketsAfter (mark :: outside) (some (.punctuator l.closing)) = some outside := by
  cases mark <;> cases opens <;> exact ⟨by decide, by decide, rfl, fun _ => ⟨rfl, rfl⟩⟩

section

variable {marks opened opened' : List Punctuator} {before last : Option Token} {c' : Cursor} {s : Sight}
  (twin : Twin ends barred (opened ++ outside) before c c') (inside : outside ≠ []) (seen : c.sight? = some s)

include twin inside seen

theorem outermost (h : keptStep marks opened last s = .stop) : opened = [] := by
  refine Classical.byContradiction fun hne => ?_
  have closes := (outermost_of_stop h).resolve_left hne
  exact twin.brackets (within (List.append_ne_nil_of_right_ne_nil opened inside) c) seen
    (bracketsAfter_append_none closes hne)

theorem parts_stop (hends : ends ⊆ closers) (h : keptStep marks opened last s = .stop) :
    ∃ s', c'.sight? = some s' ∧ keptStep marks opened last s' = .stop := by
  have going : opened ++ outside = [] → c.endsAt ends = false :=
    within (List.append_ne_nil_of_right_ne_nil opened inside) c
  obtain ⟨s', seen', token⟩ := twin.sight going seen
  exact ⟨s', seen', (keptStep_congr token (twin.follows hends going seen seen')).trans h⟩

theorem parts_take (hends : ends ⊆ closers) (hmarks : marks ⊆ closers)
    (hlast : last = before ∨ last = none ∧ Starts before)
    (h : keptStep marks opened last s = .take opened') :
    ∃ s', c'.sight? = some s' ∧ s'.token = s.token ∧ keptStep marks opened last s' = .take opened' ∧
      Twin ends barred (opened' ++ outside) s.token s.stop s'.stop := by
  have going : opened ++ outside = [] → c.endsAt ends = false :=
    within (List.append_ne_nil_of_right_ne_nil opened inside) c
  generalize hall : opened ++ outside = all at twin
  cases twin with
  | stop ended =>
    rw [going hall] at ended
    cases ended
  | take seen₂ seen' token step unbarred lone more =>
    cases seen.symm.trans seen₂
    rw [← hall, bracketsAfter_append (brackets_of_take h)] at step
    cases step
    exact ⟨_, seen', token, (keptStep_congr token (more.tagFollows_eq hends)).trans h, more⟩
  | markup less less' free follows =>
    obtain ⟨seen₂, htoken⟩ := Cursor.mark?_eq_some.1 less
    cases seen.symm.trans seen₂
    have hfree : last.all Token.precedesMarkup = true := by
      obtain rfl | ⟨rfl, -⟩ := hlast
      · exact free
      · rfl
    rw [keptStep_of_tag hmarks htoken hfree follows] at h
    cases h

theorem parts_markup (hmarks : marks ⊆ closers) (hlast : last = before ∨ last = none ∧ Starts before)
    (h : keptStep marks opened last s = .markup) {e : Shape} (read : Reads .markup c (.node e) d) :
    ∃ s' e' d', c'.sight? = some s' ∧ keptStep marks opened last s' = .markup ∧
      Reads .markup c' (.node e') d' ∧ Twin ends barred (opened ++ outside) (some (.punctuator .greater)) d d' := by
  have going : opened ++ outside = [] → c.endsAt ends = false :=
    within (List.append_ne_nil_of_right_ne_nil opened inside) c
  obtain ⟨htoken, free, follows⟩ := tag_of_markup h
  have starts : Starts before := by
    obtain rfl | ⟨-, starts⟩ := hlast
    · exact .inl free
    · exact starts
  generalize opened ++ outside = all at twin going
  cases twin with
  | stop ended =>
    rw [going rfl] at ended
    cases ended
  | take seen₂ seen' token step unbarred lone more =>
    cases seen.symm.trans seen₂
    exact absurd (lone htoken) (not_noTag starts (beginsTag_of_tagFollows follows))
  | markup less less' free' follows follows' read₂ read' more =>
    obtain ⟨-, rfl⟩ := markup_unique read read₂
    obtain ⟨seen', htoken'⟩ := Cursor.mark?_eq_some.1 less'
    exact ⟨_, _, _, seen', keptStep_of_tag hmarks htoken' free follows', read', more⟩

end

theorem sourcePart_eq_nil {text text' : List Char} (h : text' = [] ↔ text = []) :
    (sourcePart text' : List (OpaquePart Shape)) = [] ↔ (sourcePart text : List (OpaquePart Shape)) = [] := by
  cases text <;> cases text' <;> simp_all [sourcePart]

theorem listing_ends (l : Listing) : l.ends ⊆ closers := by
  cases l <;> decide

theorem not_closing {mark : Punctuator} {s : Sight} {token : Token} (seen : c.sight? = some s)
    (h : s.token = some token) (going : token ≠ .punctuator mark) : ¬ ∃ t, c.mark? mark = some t := by
  rintro ⟨t, ht⟩
  obtain ⟨seen', htoken⟩ := Cursor.mark?_eq_some.1 ht
  cases seen.symm.trans seen'
  exact going (Option.some.inj (h.symm.trans htoken))

namespace Attempt

variable {phrase' : Phrase} {c' : Cursor} {l : Listing} {mark : Punctuator} {s : Sight} {token : Token}

theorem listing (at' : Attempt ends barred outside .structured c phrase' c') (seen : c.mark? mark = some s)
    (opens : Listing.opened? mark = some l) : phrase' = .structured ∧ ∃ s', c'.mark? mark = some s' ∧
      Attempt ends barred outside (.items l) s.stop (.items l) s'.stop := by
  cases at' with
  | structured twin starts going =>
    obtain ⟨plain, -, free, brackets⟩ := listing_opening opens
    obtain ⟨s', opened', seen', step, more⟩ := twin.pass_mark going seen plain
    rw [(brackets outside).1] at step
    cases step
    exact ⟨rfl, s', seen', .items opens more (.inl (.inl free))⟩

theorem first (at' : Attempt ends barred outside (.items l) c phrase' c') (seen : c.sight? = some s)
    (h : s.token = some token) (going : token ≠ .punctuator l.closing) :
    phrase' = .items l ∧ ∃ mark s', Listing.opened? mark = some l ∧ c'.sight? = some s' ∧ s'.token = some token ∧
      Attempt ends barred (mark :: outside) (.item l s token) c (.item l s' token) c' := by
  cases at' with
  | items opens twin starts =>
    have starts := starts.resolve_right (not_closing seen h going)
    obtain ⟨s', seen', same⟩ := twin.sight (within (List.cons_ne_nil _ _) _) seen
    exact ⟨rfl, _, s', opens, seen', same.trans h, .item twin starts (List.cons_ne_nil _ _) seen h seen'⟩

theorem spread (at' : Attempt ends barred outside (.item l s (.punctuator .ellipsis)) c phrase' c') :
    ∃ s', phrase' = .item l s' (.punctuator .ellipsis) ∧
      Attempt ends barred outside (.inner l.ends) s.stop (.inner l.ends) s'.stop := by
  cases at' with
  | item twin starts inside seen htoken seen' =>
    obtain ⟨opened', step, more⟩ := twin.pass_seen (within inside _) seen htoken seen' (by decide)
    cases (show some outside = some opened' from step)
    exact ⟨_, rfl, .inner more (.inr rfl) inside (listing_ends _)⟩

theorem computed (at' : Attempt ends barred outside (.key s (.punctuator .openBracket)) c phrase' c') :
    ∃ s', phrase' = .key s' (.punctuator .openBracket) ∧
      Attempt ends barred (.openBracket :: outside) (.inner [.closeBracket]) s.stop (.inner [.closeBracket]) s'.stop := by
  cases at' with
  | key twin inside seen htoken seen' =>
    obtain ⟨opened', step, more⟩ := twin.pass_seen (within inside _) seen htoken seen' (by decide)
    cases (show some (.openBracket :: outside) = some opened' from step)
    exact ⟨_, rfl, .inner more (.inl rfl) (List.cons_ne_nil _ _) (by decide)⟩

theorem propertyKey (at' : Attempt ends barred outside (.property s token) c phrase' c') :
    ∃ s', phrase' = .property s' token ∧ outside ≠ [] ∧ Attempt ends barred outside (.key s token) c (.key s' token) c' := by
  cases at' with
  | property twin inside seen htoken seen' => exact ⟨_, rfl, inside, .key twin inside seen htoken seen'⟩

theorem between (at' : Attempt ends barred outside (.parenthesized s) c phrase' c') : ∃ s', phrase' = .parenthesized s' ∧
    Attempt ends barred (.openParen :: outside) (.inner [.closeParen]) s.stop (.inner [.closeParen]) s'.stop := by
  cases at' with
  | parenthesized twin => exact ⟨_, rfl, .inner twin (.inl rfl) (List.cons_ne_nil _ _) (by decide)⟩

theorem propertyValue {before : Option Token} {d d' : Cursor} (more : Twin ends barred outside before d d')
    (inside : outside ≠ []) (colon : d.mark? .colon = some s) : ∃ s', d'.mark? .colon = some s' ∧
      Attempt ends barred outside (.inner Listing.object.ends) s.stop (.inner Listing.object.ends) s'.stop := by
  obtain ⟨s', opened', colon', step, more'⟩ := more.pass_mark (within inside _) colon (by decide)
  cases (show some outside = some opened' from step)
  exact ⟨s', colon', .inner more' (.inl rfl) inside (listing_ends .object)⟩

end Attempt

/-- What is read in an attempt at one place is read at the other with the same kind of answer. -/
def Matched (ends barred : List Punctuator) (phrase : Phrase) (c : Cursor) (a : Answer) (d : Cursor) : Prop :=
  ∀ ⦃outside : List Punctuator⦄ ⦃phrase' : Phrase⦄ ⦃c' : Cursor⦄, Attempt ends barred outside phrase c phrase' c' →
    ∃ a' d', Reads phrase' c' a' d' ∧ Agree ends barred outside d d' a a'

namespace Matched

section

variable {phrase phrase' : Phrase} {c' : Cursor}

theorem other (h : Matched ends barred phrase c .other d) (at' : Attempt ends barred outside phrase c phrase' c') :
    ∃ d', Reads phrase' c' .other d' := by
  obtain ⟨_, d', read', agree⟩ := h at'
  cases agree
  exact ⟨d', read'⟩

theorem node {e : Shape} (h : Matched ends barred phrase c (.node e) d)
    (at' : Attempt ends barred outside phrase c phrase' c') :
    ∃ e' d' before, Reads phrase' c' (.node e') d' ∧ Twin ends barred outside before d d' := by
  obtain ⟨_, d', read', agree⟩ := h at'
  cases agree with
  | node more => exact ⟨_, d', _, read', more⟩

theorem nodes {es : List Shape} (h : Matched ends barred phrase c (.nodes es) d)
    (at' : Attempt ends barred outside phrase c phrase' c') :
    ∃ es' d' before, Reads phrase' c' (.nodes es') d' ∧ Twin ends barred outside before d d' := by
  obtain ⟨_, d', read', agree⟩ := h at'
  cases agree with
  | nodes more => exact ⟨_, d', _, read', more⟩

theorem keyed {k : PropertyKey Shape} (h : Matched ends barred phrase c (.key k) d)
    (at' : Attempt ends barred outside phrase c phrase' c') :
    ∃ k' d' before, Reads phrase' c' (.key k') d' ∧ Twin ends barred outside before d d' ∧
      ∀ name, k' = .identifier name ↔ k = .identifier name := by
  obtain ⟨_, d', read', agree⟩ := h at'
  cases agree with
  | key same more => exact ⟨_, d', _, read', more, same⟩

end

variable {f g : Cursor} {s t n : Sight} {e : Shape} {token : Token} {l : Listing} {mark : Punctuator} {a : Answer}

/-! ### Expressions -/

section

variable {marks : List Punctuator}

theorem structuredExpression (attempt : Matched ends barred .structured c (.node e) d)
    (ended : d.endsAt marks = true) : Matched ends barred (.expression marks) c (.node e) d := by
  intro outside _ c' at'
  cases at' with
  | expression twin starts inside hmarks =>
    obtain ⟨_, d', _, attempt', more⟩ := attempt.node (.structured twin starts (within inside _))
    have ended' := (more.endsAt (within inside _) _).trans ended
    exact ⟨_, d', .structuredExpression attempt' ended', .node more⟩

theorem keptOther (attempt : Matched ends barred .structured c .other d)
    (kept : Matched ends barred (.kept marks) c (.node e) f) :
    Matched ends barred (.expression marks) c (.node e) f := by
  intro outside _ c' at'
  cases at' with
  | expression twin starts inside hmarks =>
    obtain ⟨_, attempt'⟩ := attempt.other (.structured twin starts (within inside _))
    obtain ⟨_, f', _, kept', more⟩ := kept.node (.kept twin starts inside hmarks)
    exact ⟨_, f', .keptOther attempt' kept', .node more⟩

theorem keptUnended {e₀ : Shape} (attempt : Matched ends barred .structured c (.node e₀) d)
    (going : d.endsAt marks = false) (kept : Matched ends barred (.kept marks) c (.node e) f) :
    Matched ends barred (.expression marks) c (.node e) f := by
  intro outside _ c' at'
  cases at' with
  | expression twin starts inside hmarks =>
    obtain ⟨_, _, _, attempt', twin'⟩ := attempt.node (.structured twin starts (within inside _))
    have going' := (twin'.endsAt (within inside _) _).trans going
    obtain ⟨_, f', _, kept', more⟩ := kept.node (.kept twin starts inside hmarks)
    exact ⟨_, f', .keptUnended attempt' going' kept', .node more⟩

theorem innerNone (ended : c.endsAt marks = true) : Matched ends barred (.inner marks) c .other c := by
  intro outside _ c' at'
  cases at' with
  | inner twin starts inside hmarks =>
    exact ⟨_, _, .innerNone ((twin.endsAt (within inside _) _).trans ended), .other⟩

theorem innerSome (going : c.endsAt marks = false) (read : Matched ends barred (.expression marks) c (.node e) d) :
    Matched ends barred (.inner marks) c (.node e) d := by
  intro outside _ c' at'
  cases at' with
  | inner twin starts inside hmarks =>
    obtain ⟨_, d', _, read', more⟩ := read.node (.expression twin starts inside hmarks)
    exact ⟨_, d', .innerSome ((twin.endsAt (within inside _) _).trans going) read', .node more⟩

end

/-! ### Structured expressions -/

theorem nothing (h : c.sight? = none) : Matched ends barred .structured c .other c := by
  intro outside _ c' at'
  cases at' with
  | structured twin starts going => exact absurd h (twin.sight_ne_none going)

theorem beginsOther (seen : c.sight? = some s) (h : beginsOther s.token = true) :
    Matched ends barred .structured c .other c := by
  intro outside _ c' at'
  cases at' with
  | structured twin starts going =>
    obtain ⟨s', seen', same⟩ := twin.sight going seen
    exact ⟨_, _, .beginsOther seen' (same ▸ h), .other⟩

theorem leaf {kind : NodeKind Shape} (seen : c.sight? = some s) (h : s.token = some token)
    (made : LeafOf token kind) : Matched ends barred .structured c (.node (.node (some s.span) kind)) s.stop := by
  intro outside _ c' at'
  cases at' with
  | structured twin starts going =>
    have plain : ∀ mark, token ≠ .punctuator mark := made.ne_punctuator
    obtain ⟨s', opened', seen', same, step, more⟩ :=
      twin.pass going seen fun less => plain _ (Option.some.inj (h.symm.trans less))
    rw [h, bracketsAfter_plain plain] at step
    cases step
    exact ⟨_, _, .leaf seen' (same.trans h) made, .node more⟩

theorem negative {raw : String} {value : Binary64} {shape : Shape} (seen : c.mark? .minus = some s)
    (next : s.stop.sight? = some n) (h : n.number? = some raw) (read : numberValue? raw.toList = some value) :
    Matched ends barred .structured c (.node shape) n.stop := by
  intro outside _ c' at'
  cases at' with
  | structured twin starts going =>
    obtain ⟨s', opened', seen', step, twin'⟩ := twin.pass_mark going seen (by decide)
    cases (show some outside = some opened' from step)
    have number := token_of_number? h
    obtain ⟨n', opened', next', same, step, more⟩ := twin'.pass
      (fun _ => Cursor.endsAt_eq_false next number rfl) next (by rw [number]; nofun)
    rw [number] at step same
    cases (show some outside = some opened' from step)
    exact ⟨_, _, .negative seen' next' (by rw [Sight.number?, same]) read, .node more⟩

theorem negativeOther (seen : c.mark? .minus = some s) (h : s.stop.sight?.bind Sight.number? = none) :
    Matched ends barred .structured c .other s.stop := by
  intro outside _ c' at'
  cases at' with
  | structured twin starts going =>
    obtain ⟨s', opened', seen', step, more⟩ := twin.pass_mark going seen (by decide)
    exact ⟨_, _, .negativeOther seen' (more.number_none h), .other⟩

theorem structuredMarkup (read : Reads .markup c (.node e) d) : Matched ends barred .structured c (.node e) d := by
  intro outside _ c' at'
  cases at' with
  | structured twin starts going =>
    obtain ⟨s', e', d', seen', read', more⟩ := twin.markup_of_reads going starts read
    exact ⟨_, d', .structuredMarkup seen' read', .node more⟩

theorem structuredParenthesized (seen : c.mark? .openParen = some s)
    (read : Matched ends barred (.parenthesized s) c a d) : Matched ends barred .structured c a d := by
  intro outside _ c' at'
  cases at' with
  | structured twin starts going =>
    obtain ⟨s', opened', seen', step, more⟩ := twin.pass_mark going seen (by decide)
    cases (show some (.openParen :: outside) = some opened' from step)
    obtain ⟨a', d', read', agree⟩ := read (.parenthesized more)
    exact ⟨a', d', .structuredParenthesized seen' read', agree⟩

theorem parenthesizedEmpty (read : Matched ends barred (.inner [.closeParen]) s.stop .other d) :
    Matched ends barred (.parenthesized s) c .other d := by
  intro outside _ c' at'
  obtain ⟨s', rfl, inner⟩ := at'.between
  obtain ⟨d', read'⟩ := read.other inner
  exact ⟨_, d', .parenthesizedEmpty read', .other⟩

theorem parenthesizedOpen (read : Matched ends barred (.inner [.closeParen]) s.stop (.node e) d)
    (h : d.mark? .closeParen = none) : Matched ends barred (.parenthesized s) c .other d := by
  intro outside _ c' at'
  obtain ⟨s', rfl, inner⟩ := at'.between
  obtain ⟨_, d', _, read', more⟩ := read.node inner
  exact ⟨_, d', .parenthesizedOpen read' (more.mark_none (within (List.cons_ne_nil _ _) _) h), .other⟩

theorem parenthesized {shape : Shape} (read : Matched ends barred (.inner [.closeParen]) s.stop (.node e) d)
    (h : d.mark? .closeParen = some t) : Matched ends barred (.parenthesized s) c (.node shape) t.stop := by
  intro outside _ c' at'
  obtain ⟨s', rfl, inner⟩ := at'.between
  obtain ⟨_, d', _, read', more⟩ := read.node inner
  obtain ⟨t', opened', h', step, last⟩ := more.pass_mark (within (List.cons_ne_nil _ _) _) h (by decide)
  cases (show some outside = some opened' from step)
  exact ⟨_, _, .parenthesized read' h', .node last⟩

/-! ### Listings -/

theorem listing {found : List Shape} {shape : Shape} (seen : c.mark? mark = some s)
    (opens : Listing.opened? mark = some l) (read : Matched ends barred (.items l) s.stop (.nodes found) d) :
    Matched ends barred .structured c (.node shape) d := by
  intro outside _ c' at'
  obtain ⟨rfl, s', seen', items⟩ := at'.listing seen opens
  obtain ⟨_, d', _, read', more⟩ := read.nodes items
  exact ⟨_, d', .listing seen' opens read', .node more⟩

theorem listingOther (seen : c.mark? mark = some s) (opens : Listing.opened? mark = some l)
    (read : Matched ends barred (.items l) s.stop .other d) : Matched ends barred .structured c .other d := by
  intro outside _ c' at'
  obtain ⟨rfl, s', seen', items⟩ := at'.listing seen opens
  obtain ⟨d', read'⟩ := read.other items
  exact ⟨_, d', .listingOther seen' opens read', .other⟩

theorem itemsNothing (h : c.sight?.bind (·.token) = none) : Matched ends barred (.items l) c .other c := by
  intro outside _ c' at'
  cases at' with
  | items opens twin starts =>
    obtain ⟨s, s', seen, seen', same⟩ := twin.look (within (List.cons_ne_nil _ _) _)
    rw [seen, Option.bind_some] at h
    exact ⟨_, _, .itemsNothing (by rw [seen', Option.bind_some, same, h]), .other⟩

theorem itemsEnd (h : c.mark? l.closing = some s) : Matched ends barred (.items l) c (.nodes []) s.stop := by
  intro outside _ c' at'
  cases at' with
  | items opens twin starts =>
    obtain ⟨-, plain, -, brackets⟩ := listing_opening opens
    obtain ⟨s', opened', h', step, more⟩ := twin.pass_mark (within (List.cons_ne_nil _ _) _) h plain
    rw [(brackets outside).2] at step
    cases step
    exact ⟨_, _, .itemsEnd h', .nodes more⟩

section

variable (seen : c.sight? = some s) (h : s.token = some token) (going : token ≠ .punctuator l.closing)

include seen h going

theorem itemsOther (read : Matched ends barred (.item l s token) c .other d) :
    Matched ends barred (.items l) c .other d := by
  intro outside _ c' at'
  obtain ⟨rfl, _, s', opens, seen', h', item⟩ := at'.first seen h going
  obtain ⟨d', read'⟩ := read.other item
  exact ⟨_, d', .itemsOther seen' h' going read', .other⟩

theorem itemsUnseparated (read : Matched ends barred (.item l s token) c (.node e) d)
    (stuck : d.separator? l.closing = none) : Matched ends barred (.items l) c .other d := by
  intro outside _ c' at'
  obtain ⟨rfl, _, s', opens, seen', h', item⟩ := at'.first seen h going
  obtain ⟨_, d', _, read', more⟩ := read.node item
  have stuck' := more.separator_none (within (List.cons_ne_nil _ _) _) stuck
  exact ⟨_, d', .itemsUnseparated seen' h' going read' stuck', .other⟩

theorem itemsRestOther (read : Matched ends barred (.item l s token) c (.node e) d)
    (separated : d.separator? l.closing = some f) (others : Matched ends barred (.items l) f .other g) :
    Matched ends barred (.items l) c .other g := by
  intro outside _ c' at'
  obtain ⟨rfl, _, s', opens, seen', h', item⟩ := at'.first seen h going
  obtain ⟨_, d', _, read', more⟩ := read.node item
  obtain ⟨_, f', separated', twin, starts⟩ := more.separator (within (List.cons_ne_nil _ _) _) separated
  obtain ⟨g', others'⟩ := others.other (.items opens twin starts)
  exact ⟨_, g', .itemsRestOther seen' h' going read' separated' others', .other⟩

theorem itemsCons {es : List Shape} (read : Matched ends barred (.item l s token) c (.node e) d)
    (separated : d.separator? l.closing = some f) (others : Matched ends barred (.items l) f (.nodes es) g) :
    Matched ends barred (.items l) c (.nodes (e :: es)) g := by
  intro outside _ c' at'
  obtain ⟨rfl, _, s', opens, seen', h', item⟩ := at'.first seen h going
  obtain ⟨_, d', _, read', more⟩ := read.node item
  obtain ⟨_, f', separated', twin, starts⟩ := more.separator (within (List.cons_ne_nil _ _) _) separated
  obtain ⟨_, g', _, others', last⟩ := others.nodes (.items opens twin starts)
  exact ⟨_, g', .itemsCons seen' h' going read' separated' others', .nodes last⟩

end

theorem spread {shape : Shape} (read : Matched ends barred (.inner l.ends) s.stop (.node e) d) :
    Matched ends barred (.item l s (.punctuator .ellipsis)) c (.node shape) d := by
  intro outside _ c' at'
  obtain ⟨s', rfl, inner⟩ := at'.spread
  obtain ⟨_, d', _, read', more⟩ := read.node inner
  exact ⟨_, d', .spread read', .node more⟩

theorem spreadOther (read : Matched ends barred (.inner l.ends) s.stop .other d) :
    Matched ends barred (.item l s (.punctuator .ellipsis)) c .other d := by
  intro outside _ c' at'
  obtain ⟨s', rfl, inner⟩ := at'.spread
  obtain ⟨d', read'⟩ := read.other inner
  exact ⟨_, d', .spreadOther read', .other⟩

theorem element (h : token ≠ .punctuator .ellipsis) (read : Matched ends barred (.inner Listing.array.ends) c a d) :
    Matched ends barred (.item .array s token) c a d := by
  intro outside _ c' at'
  cases at' with
  | item twin starts inside seen htoken seen' =>
    obtain ⟨a', d', read', agree⟩ := read (.inner twin starts inside (listing_ends .array))
    exact ⟨a', d', .element h read', agree⟩

theorem itemProperty (h : token ≠ .punctuator .ellipsis) (read : Matched ends barred (.property s token) c a d) :
    Matched ends barred (.item .object s token) c a d := by
  intro outside _ c' at'
  cases at' with
  | item twin starts inside seen htoken seen' =>
    obtain ⟨a', d', read', agree⟩ := read (.property twin inside seen htoken seen')
    exact ⟨a', d', .itemProperty h read', agree⟩

/-! ### Properties -/

section

variable {k : PropertyKey Shape}

theorem propertyKeyOther (key : Matched ends barred (.key s token) c .other d) :
    Matched ends barred (.property s token) c .other d := by
  intro outside _ c' at'
  obtain ⟨s', rfl, -, key'⟩ := at'.propertyKey
  obtain ⟨d', read'⟩ := key.other key'
  exact ⟨_, d', .propertyKeyOther read', .other⟩

theorem property {shape : Shape} (key : Matched ends barred (.key s token) c (.key k) d)
    (colon : d.mark? .colon = some t) (value : Matched ends barred (.inner Listing.object.ends) t.stop (.node e) f) :
    Matched ends barred (.property s token) c (.node shape) f := by
  intro outside _ c' at'
  obtain ⟨s', rfl, inside, at''⟩ := at'.propertyKey
  obtain ⟨_, d', _, key', more, -⟩ := key.keyed at''
  obtain ⟨t', colon', inner⟩ := Attempt.propertyValue more inside colon
  obtain ⟨_, f', _, value', last⟩ := value.node inner
  exact ⟨_, f', .property key' colon' value', .node last⟩

theorem propertyValueOther (key : Matched ends barred (.key s token) c (.key k) d)
    (colon : d.mark? .colon = some t) (value : Matched ends barred (.inner Listing.object.ends) t.stop .other f) :
    Matched ends barred (.property s token) c .other f := by
  intro outside _ c' at'
  obtain ⟨s', rfl, inside, at''⟩ := at'.propertyKey
  obtain ⟨_, d', _, key', more, -⟩ := key.keyed at''
  obtain ⟨t', colon', inner⟩ := Attempt.propertyValue more inside colon
  obtain ⟨f', value'⟩ := value.other inner
  exact ⟨_, f', .propertyValueOther key' colon' value', .other⟩

theorem shorthand {name : String} {shape : Shape}
    (key : Matched ends barred (.key s token) c (.key (.identifier name)) d) (plain : d.mark? .colon = none)
    (ended : (d.separator? .closeBrace).isSome = true) :
    Matched ends barred (.property s token) c (.node shape) d := by
  intro outside _ c' at'
  obtain ⟨s', rfl, inside, at''⟩ := at'.propertyKey
  obtain ⟨_, d', _, key', more, same⟩ := key.keyed at''
  rw [(same _).2 rfl] at key'
  have ended' := (more.separator_isSome (within inside _) _).trans ended
  exact ⟨_, d', .shorthand key' (more.mark_none (within inside _) plain) ended', .node more⟩

theorem shorthandOther (key : Matched ends barred (.key s token) c (.key k) d) (plain : d.mark? .colon = none)
    (h : (∀ name, k ≠ .identifier name) ∨ (d.separator? .closeBrace).isSome = false) :
    Matched ends barred (.property s token) c .other d := by
  intro outside _ c' at'
  obtain ⟨s', rfl, inside, at''⟩ := at'.propertyKey
  obtain ⟨_, d', _, key', more, same⟩ := key.keyed at''
  rw [← more.separator_isSome (within inside _)] at h
  have h' := h.imp_left fun h name named => h name ((same name).1 named)
  exact ⟨_, d', .shorthandOther key' (more.mark_none (within inside _) plain) h', .other⟩

theorem key (made : KeyOf token k) : Matched ends barred (.key s token) c (.key k) s.stop := by
  intro outside _ c' at'
  cases at' with
  | key twin inside seen htoken seen' =>
    obtain ⟨opened', step, more⟩ := twin.pass_seen (within inside _) seen htoken seen' (made.ne_punctuator _)
    rw [bracketsAfter_plain made.ne_punctuator] at step
    cases step
    exact ⟨_, _, .key made, .key (fun _ => Iff.rfl) more⟩

theorem keyOther (h : keyOther token = true) : Matched ends barred (.key s token) c .other c := by
  intro outside _ c' at'
  cases at' with
  | key twin inside seen htoken seen' => exact ⟨_, _, .keyOther h, .other⟩

theorem computed (read : Matched ends barred (.inner [.closeBracket]) s.stop (.node e) d)
    (h : d.mark? .closeBracket = some t) :
    Matched ends barred (.key s (.punctuator .openBracket)) c (.key (.computed e)) t.stop := by
  intro outside _ c' at'
  obtain ⟨s', rfl, inner⟩ := at'.computed
  obtain ⟨_, d', _, read', more⟩ := read.node inner
  obtain ⟨t', opened', h', step, last⟩ := more.pass_mark (within (List.cons_ne_nil _ _) _) h (by decide)
  cases (show some outside = some opened' from step)
  exact ⟨_, _, .computed read' h', .key (fun _ => ⟨nofun, nofun⟩) last⟩

theorem computedOpen (read : Matched ends barred (.inner [.closeBracket]) s.stop (.node e) d)
    (h : d.mark? .closeBracket = none) :
    Matched ends barred (.key s (.punctuator .openBracket)) c .other d := by
  intro outside _ c' at'
  obtain ⟨s', rfl, inner⟩ := at'.computed
  obtain ⟨_, d', _, read', more⟩ := read.node inner
  exact ⟨_, d', .computedOpen read' (more.mark_none (within (List.cons_ne_nil _ _) _) h), .other⟩

theorem computedEmpty (read : Matched ends barred (.inner [.closeBracket]) s.stop .other d) :
    Matched ends barred (.key s (.punctuator .openBracket)) c .other d := by
  intro outside _ c' at'
  obtain ⟨s', rfl, inner⟩ := at'.computed
  obtain ⟨d', read'⟩ := read.other inner
  exact ⟨_, d', .computedEmpty read', .other⟩

end

/-! ### Kept texts -/

section

variable {marks opened opened' : List Punctuator} {before : Option Token} {text : List Char}
  {found : List (OpaquePart Shape)}

theorem kept {shape : Shape} (seen : c.sight? = some s)
    (read : Matched ends barred (.parts marks [] none []) s.start (.parts found) d) (filled : found ≠ []) :
    Matched ends barred (.kept marks) c (.node shape) d := by
  intro outside _ c' at'
  cases at' with
  | kept twin starts inside hmarks =>
    obtain ⟨s', seen', -⟩ := twin.sight (within inside _) seen
    have twin' : Twin ends barred ([] ++ outside) _ _ _ := twin.start seen seen'
    obtain ⟨_, d', read', agree⟩ := read (.parts twin' (.inr ⟨rfl, starts⟩) inside hmarks Iff.rfl)
    cases agree with
    | parts same more => exact ⟨_, d', .kept seen' read' (fun empty => filled (same.1 empty)), .node more⟩

theorem partsEnd (h : c.sight? = none) :
    Matched ends barred (.parts marks opened before text) c (.parts found) c := by
  intro outside _ c' at'
  cases at' with
  | parts twin hlast inside hmarks same =>
    exact absurd h (twin.sight_ne_none (within (List.append_ne_nil_of_right_ne_nil _ inside) _))

theorem partsStop (hends : ends ⊆ closers) (seen : c.sight? = some s) (h : keptStep marks opened before s = .stop) :
    Matched ends barred (.parts marks opened before text) c (.parts (sourcePart text)) c := by
  intro outside _ c' at'
  cases at' with
  | parts twin hlast inside hmarks same =>
    obtain ⟨s', seen', h'⟩ := parts_stop twin inside seen hends h
    cases outermost twin inside seen h
    exact ⟨_, _, .partsStop seen' h', .parts (sourcePart_eq_nil same) twin⟩

theorem partsTake (hends : ends ⊆ closers) (seen : c.sight? = some s)
    (h : keptStep marks opened before s = .take opened')
    (read : Matched ends barred (.parts marks opened' s.token (text ++ s.skipped ++ s.text)) s.stop
      (.parts found) d) : Matched ends barred (.parts marks opened before text) c (.parts found) d := by
  intro outside _ c' at'
  cases at' with
  | @parts _ _ _ _ _ text' _ _ twin hlast inside hmarks same =>
    obtain ⟨s', seen', token, h', more⟩ := parts_take twin inside seen hends hmarks hlast h
    have filled : text ++ s.skipped ++ s.text ≠ [] :=
      List.append_ne_nil_of_right_ne_nil _ (Cursor.sight?_spec seen).2.2.2.2
    have filled' : text' ++ s'.skipped ++ s'.text ≠ [] :=
      List.append_ne_nil_of_right_ne_nil _ (Cursor.sight?_spec seen').2.2.2.2
    obtain ⟨_, d', read', agree⟩ := read (.parts more (.inl rfl) inside hmarks (iff_of_false filled' filled))
    rw [← token] at read'
    cases agree with
    | parts same' last => exact ⟨_, d', .partsTake seen' h' read', .parts same' last⟩

theorem partsMarkup {others : List (OpaquePart Shape)} (seen : c.sight? = some s)
    (h : keptStep marks opened before s = .markup) (read : Reads .markup c (.node e) d)
    (more : Matched ends barred (.parts marks opened (some (.punctuator .greater)) []) d (.parts others) f) :
    Matched ends barred (.parts marks opened before text) c
      (.parts (sourcePart (text ++ s.skipped) ++ .node e :: others)) f := by
  intro outside _ c' at'
  cases at' with
  | parts twin hlast inside hmarks same =>
    obtain ⟨s', e', d', seen', h', read', twin'⟩ := parts_markup twin inside seen hmarks hlast h read
    obtain ⟨_, f', more', agree⟩ := more (.parts twin' (.inl rfl) inside hmarks Iff.rfl)
    cases agree with
    | parts same' last => exact ⟨_, f', .partsMarkup seen' h' read' more', .parts (by simp) last⟩

end

end Matched

theorem matched (hends : ends ⊆ closers) {phrase : Phrase} {a : Answer} (h : Reads phrase c a d) :
    Matched ends barred phrase c a d := by
  induction h with
  | structuredExpression _ ended ih => exact ih.structuredExpression ended
  | keptOther _ _ ih ihkept => exact ih.keptOther ihkept
  | keptUnended _ going _ ih ihkept => exact ih.keptUnended going ihkept
  | innerNone ended => exact .innerNone ended
  | innerSome going _ ih => exact .innerSome going ih
  | nothing h => exact .nothing h
  | beginsOther seen h => exact .beginsOther seen h
  | leaf seen h made => exact .leaf seen h made
  | negative seen next h read => exact .negative seen next h read
  | negativeOther seen h => exact .negativeOther seen h
  | structuredMarkup _ read => exact .structuredMarkup read
  | structuredParenthesized seen _ ih => exact .structuredParenthesized seen ih
  | listing seen opens _ ih => exact .listing seen opens ih
  | listingOther seen opens _ ih => exact .listingOther seen opens ih
  | parenthesizedEmpty _ ih => exact .parenthesizedEmpty ih
  | parenthesizedOpen _ h ih => exact .parenthesizedOpen ih h
  | parenthesized _ h ih => exact .parenthesized ih h
  | itemsNothing h => exact .itemsNothing h
  | itemsEnd h => exact .itemsEnd h
  | itemsOther seen h going _ ih => exact .itemsOther seen h going ih
  | itemsUnseparated seen h going _ stuck ih => exact .itemsUnseparated seen h going ih stuck
  | itemsRestOther seen h going _ separated _ ih ihothers => exact .itemsRestOther seen h going ih separated ihothers
  | itemsCons seen h going _ separated _ ih ihothers => exact .itemsCons seen h going ih separated ihothers
  | spread _ ih => exact .spread ih
  | spreadOther _ ih => exact .spreadOther ih
  | element h _ ih => exact .element h ih
  | itemProperty h _ ih => exact .itemProperty h ih
  | propertyKeyOther _ ih => exact .propertyKeyOther ih
  | property _ colon _ ihkey ih => exact .property ihkey colon ih
  | propertyValueOther _ colon _ ihkey ih => exact .propertyValueOther ihkey colon ih
  | shorthand _ plain ended ih => exact .shorthand ih plain ended
  | shorthandOther _ plain h ih => exact .shorthandOther ih plain h
  | key made => exact .key made
  | keyOther h => exact .keyOther h
  | computed _ h ih => exact .computed ih h
  | computedOpen _ h ih => exact .computedOpen ih h
  | computedEmpty _ ih => exact .computedEmpty ih
  | kept seen _ filled ih => exact .kept seen ih filled
  | partsEnd h => exact .partsEnd h
  | partsStop seen h => exact .partsStop hends seen h
  | partsTake seen h _ ih => exact .partsTake hends seen h ih
  | partsMarkup seen h read _ _ ih => exact .partsMarkup seen h read ih
  | _ =>
    intro outside _ c' at'
    cases at'

end

end MarkupEditor.Printer
