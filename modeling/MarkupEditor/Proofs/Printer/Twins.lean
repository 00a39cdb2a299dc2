import Mathlib
import MarkupEditor.Proofs.Parser.Sharing
import MarkupEditor.Proofs.Printer.Steps
/-!
# Texts with the same tokens

Two places are twins if the same tokens are seen from both up to where an expression ends, with markup
between them taken as a whole. What makes an attempt at a structured expression fail at one of them
makes it fail at the other. Marks that are barred are not met on the way, but for those in brackets.
-/

set_option autoImplicit false

namespace MarkupEditor

open MarkupEditor.Parser

def Token.beginsTag : Token → Bool
  | .punctuator mark => mark = .greater
  | token => token.name?.isSome

/-- An opening angle that begins no tag where an expression may begin: `next` comes after it. -/
def Lone (before next : Option Token) : Prop :=
  before ≠ some (.punctuator .ellipsis) ∧
    (before.all Token.precedesMarkup = true → next.any Token.beginsTag = false)

namespace Printer

/-- After this token an expression may begin. -/
def Starts (before : Option Token) : Prop :=
  before.all Token.precedesMarkup = true ∨ before = some (.punctuator .ellipsis)

/-- An opening angle after which an expression that begins there goes on with no tag. -/
def NoTag (before next : Option Token) : Prop :=
  Starts before → next.any Token.beginsTag = false

theorem noTag_of_lone {before next : Option Token} (h : Lone before next) : NoTag before next := by
  rintro (free | rfl)
  · exact h.2 free
  · exact absurd rfl h.1

/-- Places from which the same tokens are seen up to where an expression ends. `opened` holds the
brackets open there, `before` the token that was passed last, and `barred` the marks that are not met
outside brackets. -/
inductive Twin (ends barred : List Punctuator) :
    List Punctuator → Option Token → Cursor → Cursor → Prop where
  | stop {before : Option Token} {c c' : Cursor} (h : c.endsAt ends = true)
    (h' : c'.endsAt ends = true) : Twin ends barred [] before c c'
  | take {opened opened' : List Punctuator} {before : Option Token} {c c' : Cursor} {s s' : Sight}
    (seen : c.sight? = some s) (seen' : c'.sight? = some s') (token : s'.token = s.token)
    (step : bracketsAfter opened s.token = some opened')
    (unbarred : opened = [] → ∀ mark ∈ barred, s.token ≠ some (.punctuator mark))
    (lone : s.token = some (.punctuator .less) → NoTag before (s.stop.sight?.bind (·.token)))
    (more : Twin ends barred opened' s.token s.stop s'.stop) : Twin ends barred opened before c c'
  | markup {opened : List Punctuator} {before : Option Token} {c c' d d' : Cursor} {s s' : Sight}
    {e e' : Shape} (less : c.mark? .less = some s) (less' : c'.mark? .less = some s')
    (free : before.all Token.precedesMarkup = true) (follows : tagFollows s.stop = true)
    (follows' : tagFollows s'.stop = true) (read : Reads .markup c (.node e) d)
    (read' : Reads .markup c' (.node e') d')
    (more : Twin ends barred opened (some (.punctuator .greater)) d d') : Twin ends barred opened before c c'

variable {ends barred opened : List Punctuator} {before : Option Token} {c c' : Cursor}

theorem beginsTag_of_tagFollows (h : tagFollows c = true) :
    (c.sight?.bind (·.token)).any Token.beginsTag = true := by
  unfold tagFollows at h
  split at h
  · rename_i htoken
    rw [htoken]
    rfl
  · rename_i htoken
    rw [htoken]
    rfl
  · cases h

theorem beginsTag_of_endsAt (hends : ends ⊆ closers) (ended : c.endsAt ends = true) :
    (c.sight?.bind (·.token)).any Token.beginsTag = false := by
  obtain nothing | ⟨s, mark, seen, token, hmark⟩ := Cursor.endsAt_cases ended
  · rw [nothing]
    rfl
  · have plain : ∀ mark ∈ closers, (Token.punctuator mark).beginsTag = false := by decide
    rw [seen, Option.bind_some, token]
    exact plain mark (hends hmark)

theorem tagFollows_of_endsAt (hends : ends ⊆ closers) (ended : c.endsAt ends = true) :
    tagFollows c = false := by
  rw [← Bool.not_eq_true]
  intro follows
  have tag := beginsTag_of_tagFollows follows
  rw [beginsTag_of_endsAt hends ended] at tag
  cases tag

namespace Twin

theorem look (h : Twin ends barred opened before c c') (going : opened = [] → c.endsAt ends = false) :
    ∃ s s', c.sight? = some s ∧ c'.sight? = some s' ∧ s'.token = s.token := by
  cases h with
  | stop ended => rw [going rfl] at ended; cases ended
  | take seen seen' token => exact ⟨_, _, seen, seen', token⟩
  | markup less less' =>
    obtain ⟨seen, token⟩ := Cursor.mark?_eq_some.1 less
    obtain ⟨seen', token'⟩ := Cursor.mark?_eq_some.1 less'
    exact ⟨_, _, seen, seen', token'.trans token.symm⟩

theorem sight (h : Twin ends barred opened before c c') (going : opened = [] → c.endsAt ends = false) {s : Sight}
    (seen : c.sight? = some s) : ∃ s', c'.sight? = some s' ∧ s'.token = s.token := by
  obtain ⟨t, s', seen₂, seen', token⟩ := h.look going
  cases seen.symm.trans seen₂
  exact ⟨s', seen', token⟩

theorem sight_ne_none (h : Twin ends barred opened before c c') (going : opened = [] → c.endsAt ends = false) :
    c.sight? ≠ none := by
  obtain ⟨s, _, seen, _⟩ := h.look going
  rw [seen]
  nofun

theorem mark (h : Twin ends barred opened before c c') (going : opened = [] → c.endsAt ends = false)
    {m : Punctuator} {s : Sight} (seen : c.mark? m = some s) : ∃ s', c'.mark? m = some s' := by
  obtain ⟨seen, token⟩ := Cursor.mark?_eq_some.1 seen
  obtain ⟨s', seen', token'⟩ := h.sight going seen
  exact ⟨s', Cursor.mark?_eq_some.2 ⟨seen', token'.trans token⟩⟩

theorem mark_none (h : Twin ends barred opened before c c') (going : opened = [] → c.endsAt ends = false)
    {m : Punctuator} (absent : c.mark? m = none) : c'.mark? m = none := by
  obtain ⟨s, s', seen, seen', token⟩ := h.look going
  exact Cursor.mark?_eq_none_of_sight seen' token (Cursor.mark?_eq_none.1 absent s seen)

theorem endsAt (h : Twin ends barred opened before c c') (going : opened = [] → c.endsAt ends = false)
    (marks : List Punctuator) : c'.endsAt marks = c.endsAt marks := by
  obtain ⟨s, s', seen, seen', token⟩ := h.look going
  simp only [Cursor.endsAt, seen, seen', token]

theorem separator_isSome (h : Twin ends barred opened before c c')
    (going : opened = [] → c.endsAt ends = false) (closing : Punctuator) :
    (c'.separator? closing).isSome = (c.separator? closing).isSome := by
  cases hc : c.mark? .comma with
  | some s =>
    obtain ⟨s', hc'⟩ := h.mark going hc
    rw [Cursor.separator?_comma closing hc, Cursor.separator?_comma closing hc']
    rfl
  | none =>
    have hc' := h.mark_none going hc
    cases hm : c.mark? closing with
    | some s =>
      obtain ⟨s', hm'⟩ := h.mark going hm
      simp [Cursor.separator?, hc, hm, hc', hm']
    | none => simp [Cursor.separator?, hc, hm, hc', h.mark_none going hm]

theorem separator_none (h : Twin ends barred opened before c c')
    (going : opened = [] → c.endsAt ends = false) {closing : Punctuator}
    (absent : c.separator? closing = none) : c'.separator? closing = none := by
  have := h.separator_isSome going closing
  rw [absent] at this
  exact Option.isNone_iff_eq_none.1 (by simpa using this)

theorem tagFollows_eq (hends : ends ⊆ closers) (h : Twin ends barred opened before c c') :
    tagFollows c' = tagFollows c := by
  cases h with
  | stop ended ended' => rw [tagFollows_of_endsAt hends ended, tagFollows_of_endsAt hends ended']
  | take seen seen' token => simp only [tagFollows, seen, seen', Option.bind_some, token]
  | markup less less' =>
    obtain ⟨seen, token⟩ := Cursor.mark?_eq_some.1 less
    obtain ⟨seen', token'⟩ := Cursor.mark?_eq_some.1 less'
    simp only [tagFollows, seen, seen', Option.bind_some, token, token']

theorem pass (h : Twin ends barred opened before c c') (going : opened = [] → c.endsAt ends = false) {s : Sight}
    (seen : c.sight? = some s) (other : s.token ≠ some (.punctuator .less)) :
    ∃ s' opened', c'.sight? = some s' ∧ s'.token = s.token ∧
      bracketsAfter opened s.token = some opened' ∧ Twin ends barred opened' s.token s.stop s'.stop := by
  cases h with
  | stop ended => rw [going rfl] at ended; cases ended
  | take seen₂ seen' token step unbarred lone more =>
    cases seen.symm.trans seen₂
    exact ⟨_, _, seen', token, step, more⟩
  | markup less =>
    obtain ⟨seen₂, token⟩ := Cursor.mark?_eq_some.1 less
    cases seen.symm.trans seen₂
    exact absurd token other

theorem pass_mark (h : Twin ends barred opened before c c') (going : opened = [] → c.endsAt ends = false)
    {m : Punctuator} {s : Sight} (seen : c.mark? m = some s) (other : m ≠ .less) :
    ∃ s' opened', c'.mark? m = some s' ∧ bracketsAfter opened (some (.punctuator m)) = some opened' ∧
      Twin ends barred opened' (some (.punctuator m)) s.stop s'.stop := by
  obtain ⟨seen, token⟩ := Cursor.mark?_eq_some.1 seen
  obtain ⟨s', opened', seen', token', step, more⟩ := h.pass going seen (by
    rw [token]
    rintro ⟨⟩
    exact other rfl)
  rw [token] at step more
  exact ⟨s', opened', Cursor.mark?_eq_some.2 ⟨seen', token'.trans token⟩, step, more⟩

end Twin

theorem beginsTag_of_name {name : String} {d : Cursor} (h : ReadsName c name d) :
    (c.sight?.bind (·.token)).any Token.beginsTag = true := by
  obtain ⟨seen, named⟩ := h
  obtain ⟨token, htoken, hname⟩ := Option.bind_eq_some_iff.1 named
  simp only [seen, Option.bind_some, htoken, Option.any_some]
  cases token <;> first | rfl | cases hname

theorem beginsTag_of_markup {a : Answer} {d : Cursor} {s : Sight} (h : Reads .markup c a d)
    (less : c.mark? .less = some s) : (s.stop.sight?.bind (·.token)).any Token.beginsTag = true := by
  have named {name : String} {e : Cursor} (h : ReadsElementName s.stop name e) :
      (s.stop.sight?.bind (·.token)).any Token.beginsTag = true := by
    cases h with
    | colon front | dotted front => exact beginsTag_of_name front
  cases h with
  | markup read =>
    cases read with
    | fragment less' greater =>
      cases less.symm.trans less'
      obtain ⟨seen, token⟩ := Cursor.mark?_eq_some.1 greater
      simp [seen, token, Token.beginsTag]
    | selfClosing less' _ read | tag less' _ read =>
      cases less.symm.trans less'
      exact named read

theorem not_noTag (starts : Starts before) {next : Option Token}
    (tag : next.any Token.beginsTag = true) : ¬ NoTag before next := by
  intro none
  rw [none starts] at tag
  cases tag

theorem markup_unique {a a' : Answer} {d d' : Cursor} (h : Reads .markup c a d)
    (h' : Reads .markup c a' d') : a = a' ∧ d = d' := by
  cases h with
  | markup read =>
    cases h' with
    | markup read' =>
      have run := (Reads.markup read).gives (12 * c.rest.length + 2)
      have run' := (Reads.markup read').gives (12 * c.rest.length + 2)
      have found := sound (12 * c.rest.length + 2) .markup c trivial
      obtain ⟨error, refused⟩ | ⟨e, f, ended, -⟩ := Finds.outcome found (Nat.le_refl _)
      · rcases run with run | run <;> cases refused.symm.trans run
      · obtain run | run := run <;> cases ended.symm.trans run
        obtain run' | run' := run' <;> cases ended.symm.trans run'
        exact ⟨rfl, rfl⟩

/-- Places with the same next lexeme, whatever blanks stand before it. -/
def SameFront (c e : Cursor) : Prop :=
  ∃ s t, c.sight? = some s ∧ e.sight? = some t ∧ t.token = s.token ∧ t.start = s.start ∧ t.stop = s.stop

theorem sameFront_start {s : Sight} (seen : c.sight? = some s) : SameFront c s.start :=
  ⟨s, _, seen, Cursor.sight?_start seen, rfl, rfl, rfl⟩

namespace SameFront

variable {e : Cursor}

theorem symm (h : SameFront c e) : SameFront e c := by
  obtain ⟨s, t, seen, there, token, start, stop⟩ := h
  exact ⟨t, s, there, seen, token.symm, start.symm, stop.symm⟩

theorem sight (h : SameFront c e) {s : Sight} (seen : c.sight? = some s) :
    ∃ t, e.sight? = some t ∧ t.token = s.token ∧ t.stop = s.stop := by
  obtain ⟨s', t, seen', there, token, -, stop⟩ := h
  cases seen.symm.trans seen'
  exact ⟨t, there, token, stop⟩

theorem endsAt (h : SameFront c e) (marks : List Punctuator) : e.endsAt marks = c.endsAt marks := by
  obtain ⟨s, t, seen, there, token, -, -⟩ := h
  simp only [Cursor.endsAt, seen, there, token]

theorem markup (h : SameFront c e) {a : Answer} {d : Cursor} (read : Reads .markup c a d) : Reads .markup e a d := by
  obtain ⟨s, t, seen, there, -, start, -⟩ := h
  cases read with
  | markup read => exact .markup (read.tag_moved seen there start.symm)

end SameFront

namespace Twin

theorem markup_of_reads (h : Twin ends barred opened before c c') (going : opened = [] → c.endsAt ends = false)
    (starts : Starts before) {e : Shape} {d : Cursor} (read : Reads .markup c (.node e) d) :
    ∃ s' e' d', c'.mark? .less = some s' ∧ Reads .markup c' (.node e') d' ∧
      Twin ends barred opened (some (.punctuator .greater)) d d' := by
  cases h with
  | stop ended => rw [going rfl] at ended; cases ended
  | take seen seen' token step unbarred lone more =>
    obtain ⟨s, less⟩ := less_of_markup read
    obtain ⟨seen₂, htoken⟩ := Cursor.mark?_eq_some.1 less
    cases seen.symm.trans seen₂
    exact absurd (lone htoken) (not_noTag starts (beginsTag_of_markup read less))
  | markup less less' free follows follows' read₂ read' more =>
    obtain ⟨-, rfl⟩ := markup_unique read read₂
    exact ⟨_, _, _, less', read', more⟩

theorem pass_seen (h : Twin ends barred opened before c c') (going : opened = [] → c.endsAt ends = false)
    {s s' : Sight} {token : Token} (seen : c.sight? = some s) (htoken : s.token = some token)
    (seen' : c'.sight? = some s') (other : token ≠ .punctuator .less) :
    ∃ opened', bracketsAfter opened (some token) = some opened' ∧
      Twin ends barred opened' (some token) s.stop s'.stop := by
  obtain ⟨s'', opened', seen'', -, step, more⟩ := h.pass going seen (by
    rw [htoken]
    exact fun he => other (Option.some.inj he))
  cases seen'.symm.trans seen''
  rw [htoken] at step more
  exact ⟨opened', step, more⟩

theorem brackets (h : Twin ends barred opened before c c') (going : opened = [] → c.endsAt ends = false) {s : Sight}
    (seen : c.sight? = some s) : bracketsAfter opened s.token ≠ none := by
  cases h with
  | stop ended => rw [going rfl] at ended; cases ended
  | take seen₂ _ _ step =>
    cases seen.symm.trans seen₂
    rw [step]
    nofun
  | markup less =>
    obtain ⟨seen₂, token⟩ := Cursor.mark?_eq_some.1 less
    cases seen.symm.trans seen₂
    rw [token]
    nofun

theorem follows (hends : ends ⊆ closers) (h : Twin ends barred opened before c c')
    (going : opened = [] → c.endsAt ends = false) {s s' : Sight} (seen : c.sight? = some s)
    (seen' : c'.sight? = some s') : tagFollows s'.stop = tagFollows s.stop := by
  cases h with
  | stop ended => rw [going rfl] at ended; cases ended
  | take seen₂ seen₂' _ _ _ _ more =>
    cases seen.symm.trans seen₂
    cases seen'.symm.trans seen₂'
    exact more.tagFollows_eq hends
  | markup less less' _ follows follows' =>
    cases seen.symm.trans (Cursor.mark?_eq_some.1 less).1
    cases seen'.symm.trans (Cursor.mark?_eq_some.1 less').1
    rw [follows, follows']

theorem number_none (h : Twin ends barred opened before c c') (absent : c.sight?.bind Sight.number? = none) :
    c'.sight?.bind Sight.number? = none := by
  have other {c' : Cursor} (ended : c'.endsAt ends = true) : c'.sight?.bind Sight.number? = none := by
    obtain nothing | ⟨s, mark, seen, token, -⟩ := Cursor.endsAt_cases ended
    · rw [nothing]
      rfl
    · rw [seen, Option.bind_some, Sight.number?, token]
  cases h with
  | stop _ ended' => exact other ended'
  | take seen seen' token =>
    rw [seen, Option.bind_some, Sight.number?] at absent
    rw [seen', Option.bind_some, Sight.number?, token, absent]
  | markup _ less' =>
    obtain ⟨seen', token'⟩ := Cursor.mark?_eq_some.1 less'
    rw [seen', Option.bind_some, Sight.number?, token']

theorem separator (h : Twin ends barred opened before c c') (going : opened = [] → c.endsAt ends = false)
    {closing : Punctuator} {d : Cursor} (separated : c.separator? closing = some d) :
    ∃ before' d', c'.separator? closing = some d' ∧ Twin ends barred opened before' d d' ∧
      (Starts before' ∨ ∃ s, d.mark? closing = some s) := by
  cases hc : c.mark? .comma with
  | some s =>
    obtain ⟨s', opened', hc', step, more⟩ := h.pass_mark going hc (by decide)
    rw [Cursor.separator?_comma closing hc] at separated
    cases separated
    cases (show some opened = some opened' from step)
    exact ⟨_, _, Cursor.separator?_comma closing hc', more, .inl (.inl rfl)⟩
  | none =>
    cases hm : c.mark? closing with
    | none => simp [Cursor.separator?, hc, hm] at separated
    | some s =>
      obtain ⟨s', hm'⟩ := h.mark going hm
      have hc' := h.mark_none going hc
      have hcd : c = d := by simpa [Cursor.separator?, hc, hm] using separated
      cases hcd
      exact ⟨_, c', by simp [Cursor.separator?, hc', hm'], h, .inr ⟨s, hm⟩⟩

theorem not_barred (h : Twin ends barred [] before c c') (going : c.endsAt ends = false) {mark : Punctuator}
    (hmark : mark ∈ barred) (plain : mark ≠ .less) : c.mark? mark = none := by
  refine Cursor.mark?_eq_none.2 fun s seen token => ?_
  cases h with
  | stop ended =>
    rw [going] at ended
    cases ended
  | take seen₂ seen' same step unbarred =>
    cases seen.symm.trans seen₂
    exact unbarred rfl mark hmark token
  | markup angle =>
    obtain ⟨seen₂, htoken⟩ := Cursor.mark?_eq_some.1 angle
    cases seen.symm.trans seen₂
    cases token.symm.trans htoken
    exact plain rfl

theorem moved {e e' : Cursor} (h : Twin ends barred opened before c c') (front : SameFront c e)
    (front' : SameFront c' e') : Twin ends barred opened before e e' := by
  cases h with
  | stop ended ended' => exact .stop ((front.endsAt ends).trans ended) ((front'.endsAt ends).trans ended')
  | take seen seen' token step unbarred lone more =>
    obtain ⟨t, there, same, stop⟩ := front.sight seen
    obtain ⟨t', there', same', stop'⟩ := front'.sight seen'
    refine .take there there' (same'.trans (token.trans same.symm)) (same ▸ step) (same ▸ unbarred) ?_ ?_
    · rw [same, stop]
      exact lone
    · rw [same, stop, stop']
      exact more
  | markup less less' free follows follows' read read' more =>
    obtain ⟨seen, token⟩ := Cursor.mark?_eq_some.1 less
    obtain ⟨seen', token'⟩ := Cursor.mark?_eq_some.1 less'
    obtain ⟨t, there, same, stop⟩ := front.sight seen
    obtain ⟨t', there', same', stop'⟩ := front'.sight seen'
    exact .markup (Cursor.mark?_eq_some.2 ⟨there, same.trans token⟩) (Cursor.mark?_eq_some.2 ⟨there', same'.trans token'⟩)
      free (stop ▸ follows) (stop' ▸ follows') (front.markup read) (front'.markup read') more

theorem start (h : Twin ends barred opened before c c') {s s' : Sight} (seen : c.sight? = some s)
    (seen' : c'.sight? = some s') : Twin ends barred opened before s.start s'.start :=
  h.moved (sameFront_start seen) (sameFront_start seen')

theorem of_start {s s' : Sight} (h : Twin ends barred opened before s.start s'.start) (seen : c.sight? = some s)
    (seen' : c'.sight? = some s') : Twin ends barred opened before c c' :=
  h.moved (sameFront_start seen).symm (sameFront_start seen').symm

end Twin

end Printer

end MarkupEditor
