import MarkupEditor.Proofs.Editing.ElementForms
import MarkupEditor.Proofs.Parser.Refusals
import MarkupEditor.Proofs.Printer.Attempts

set_option autoImplicit false

namespace MarkupEditor

open Text

/-- Whether an expression may begin right after a token: after an opening bracket, or between items. -/
def Token.precedesExpression : Token → Bool
  | .punctuator mark => mark.isOpening || mark == .comma || mark == .colon || mark == .ellipsis
  | _ => false

namespace Parser

variable {α β : Type} {fin c d : Cursor} {s : Sight} {before : Option Token} {token : Token}
  {ends opened opened' rest : List Punctuator} {o mark : Punctuator}

/-- A number that an attempt may come to has a value. One with a minus sign is not looked at for what stands
before the sign. -/
def Valued (before : Option Token) (s : Sight) : Prop :=
  ∀ raw, s.token = some (.number raw) →
    (∃ t, before = some t ∧ (t.precedesExpression = true ∨ t = .punctuator .minus)) →
      ∃ value, numberValue? raw.toList = some value

/-- An angle compares: no expression begins at it, and none that is kept takes it for a tag. -/
def Compares (before : Option Token) (s : Sight) : Prop :=
  s.token = some (.punctuator .less) →
    (∀ t, before = some t → t.precedesMarkup = false ∧ t.precedesExpression = false) ∧
      (before = none → tagFollows s.stop = false)

/-- From a place on, with these brackets open and that token before it, the text closes its brackets and goes
on to a brace at `fin` that closes the last of them. -/
inductive Calm (fin : Cursor) : List Punctuator → Option Token → Cursor → Prop where
  | stop {before : Option Token} {s : Sight} (closing : fin.mark? .closeBrace = some s) :
    Calm fin [.openBrace] before fin
  | take {opened opened' : List Punctuator} {before : Option Token} {c : Cursor} {s : Sight}
    (seen : c.sight? = some s) (brackets : bracketsAfter opened s.token = some opened') (inside : opened' ≠ [])
    (valued : Valued before s) (compares : Compares before s) (more : Calm fin opened' s.token s.stop) :
    Calm fin opened before c

/-- A calm place inside an expression. -/
def Stays (fin : Cursor) (opened : List Punctuator) (c : Cursor) : Prop :=
  ∃ before, Calm fin opened before c

/-- A calm place where an expression may begin. -/
def Opens (fin : Cursor) (opened : List Punctuator) (c : Cursor) : Prop :=
  ∃ token, token.precedesExpression = true ∧ Calm fin opened (some token) c

/-- A calm place where an expression ends. -/
def Halts (fin : Cursor) (opened ends : List Punctuator) (c : Cursor) : Prop :=
  Stays fin opened c ∧ c.endsAt ends = true

def Closes (ends : List Punctuator) (o : Punctuator) : Prop :=
  ∃ mark ∈ ends, mark.opener? = some o

theorem opener?_inj {a b : Punctuator} (ha : a.opener? = some o) (hb : b.opener? = some o) : a = b := by
  cases a <;> cases ha <;> cases b <;> cases hb <;> rfl

theorem bracketsAfter_closing (closes : mark.opener? = some o) :
    bracketsAfter opened (some (.punctuator mark)) = if opened.head? = some o then some opened.tail else none := by
  cases mark <;> cases closes <;> rfl

namespace Calm

theorem seen (h : Calm fin opened before c) : ∃ s, c.sight? = some s := by
  cases h with
  | stop closing => exact ⟨_, (Cursor.mark?_eq_some.1 closing).1⟩
  | take seen => exact ⟨_, seen⟩

theorem cases_sight (h : Calm fin opened before c) (seen : c.sight? = some s) :
    c = fin ∧ opened = [.openBrace] ∧ s.token = some (.punctuator .closeBrace) ∨
      ∃ opened', bracketsAfter opened s.token = some opened' ∧ opened' ≠ [] ∧ Valued before s ∧
        Compares before s ∧ Calm fin opened' s.token s.stop := by
  cases h with
  | stop closing =>
    obtain ⟨seen', token⟩ := Cursor.mark?_eq_some.1 closing
    cases seen.symm.trans seen'
    exact .inl ⟨rfl, rfl, token⟩
  | take seen' brackets inside valued compares more =>
    cases seen.symm.trans seen'
    exact .inr ⟨_, brackets, inside, valued, compares, more⟩

theorem next (h : Calm fin opened before c) (seen : c.sight? = some s)
    (brackets : bracketsAfter opened s.token = some opened') (inside : opened' ≠ []) :
    Calm fin opened' s.token s.stop := by
  rcases h.cases_sight seen with ⟨-, rfl, token⟩ | ⟨opened'', brackets', -, -, -, more⟩
  · rw [token] at brackets
    cases brackets
    exact absurd rfl inside
  · cases brackets.symm.trans brackets'
    exact more

theorem value {raw : String} (h : Calm fin opened (some token) c) (seen : c.sight? = some s)
    (number : s.token = some (.number raw))
    (reached : token.precedesExpression = true ∨ token = .punctuator .minus) :
    ∃ value, numberValue? raw.toList = some value := by
  rcases h.cases_sight seen with ⟨-, -, brace⟩ | ⟨-, -, -, valued, -, -⟩
  · cases number.symm.trans brace
  · exact valued raw number ⟨token, rfl, reached⟩

theorem compares (h : Calm fin opened before c) (seen : c.sight? = some s) : Compares before s := by
  rcases h.cases_sight seen with ⟨-, -, brace⟩ | ⟨-, -, -, -, compares, -⟩
  · intro less
    cases less.symm.trans brace
  · exact compares

theorem opener (h : Calm fin (o :: opened) before c) (seen : c.sight? = some s)
    (token : s.token = some (.punctuator mark)) {o' : Punctuator} (closes : mark.opener? = some o') : o' = o := by
  rcases h.cases_sight seen with ⟨-, top, brace⟩ | ⟨opened', brackets, -⟩
  · cases token.symm.trans brace
    cases top
    cases closes
    rfl
  · rw [token, bracketsAfter_closing closes] at brackets
    split at brackets
    · rename_i same
      exact (Option.some.inj same).symm
    · cases brackets

theorem not_less (h : Calm fin opened (some token) c) (begins : token.precedesExpression = true) :
    c.mark? .less = none := by
  refine Cursor.mark?_eq_none.2 fun s seen less => ?_
  have apart := (h.compares seen less).1 token rfl
  rw [begins] at apart
  cases apart.2

theorem start (h : Calm fin opened before c) (seen : c.sight? = some s)
    (going : s.token ≠ some (.punctuator .closeBrace)) : Calm fin opened before s.start := by
  rcases h.cases_sight seen with ⟨-, -, brace⟩ | ⟨opened', brackets, inside, valued, compares, more⟩
  · exact absurd brace going
  · exact .take (Cursor.sight?_start seen) brackets inside valued compares more

/-- Where a step through a kept text stops, no bracket of the text is open and the expression is at its end. -/
theorem halts_of_stop {outer : List Punctuator} {last : Option Token}
    (h : Calm fin (opened ++ o :: outer) before c) (closes : Closes ends o) (seen : c.sight? = some s)
    (stop : keptStep ends opened last s = .stop) : opened = [] ∧ c.endsAt ends = true := by
  obtain ⟨closing, hclosing, opener⟩ := closes
  cases htoken : s.token with
  | none =>
    rw [Printer.keptStep_none htoken] at stop
    cases stop
  | some token =>
    rw [Printer.keptStep_eq htoken] at stop
    split at stop
    · rename_i ended
      obtain ⟨empty, one⟩ := Bool.and_eq_true_iff.1 ended
      exact ⟨List.isEmpty_iff.1 empty, by rw [Cursor.endsAt, seen]; simpa [htoken] using one⟩
    · split at stop
      · rename_i none
        have outermost : opened = [] := by
          refine Classical.byContradiction fun within => ?_
          rcases h.cases_sight seen with ⟨-, top, -⟩ | ⟨opened', brackets, -⟩
          · obtain ⟨first, opened, rfl⟩ := List.exists_cons_of_ne_nil within
            cases (List.append_eq_nil_iff.1 (List.cons.inj top).2).2
          · rw [htoken, Printer.bracketsAfter_append_none none within] at brackets
            cases brackets
        subst outermost
        obtain ⟨mark, o', rfl, hopener⟩ := Printer.closing_of_bracketsAfter none
        cases h.opener seen htoken hopener
        cases opener?_inj hopener opener
        exact ⟨rfl, Cursor.endsAt_of_mark (Cursor.mark?_eq_some.2 ⟨seen, htoken⟩) hclosing⟩
      · split at stop <;> cases stop

end Calm

theorem Opens.stays (h : Opens fin opened c) : Stays fin opened c := by
  obtain ⟨token, -, calm⟩ := h
  exact ⟨_, calm⟩

theorem Opens.not_less (h : Opens fin opened c) : c.mark? .less = none := by
  obtain ⟨token, begins, calm⟩ := h
  exact calm.not_less begins

theorem Stays.next (h : Stays fin opened c) (seen : c.sight? = some s)
    (brackets : bracketsAfter opened s.token = some opened') (inside : opened' ≠ []) :
    Stays fin opened' s.stop := by
  obtain ⟨before, calm⟩ := h
  exact ⟨_, calm.next seen brackets inside⟩

theorem Stays.opens (h : Stays fin opened c) (found : c.mark? mark = some s)
    (begins : (Token.punctuator mark).precedesExpression = true)
    (brackets : bracketsAfter opened (some (.punctuator mark)) = some opened') (inside : opened' ≠ []) :
    Opens fin opened' s.stop := by
  obtain ⟨before, calm⟩ := h
  obtain ⟨seen, token⟩ := Cursor.mark?_eq_some.1 found
  have more := calm.next seen (token ▸ brackets) inside
  rw [token] at more
  exact ⟨_, begins, more⟩

theorem Stays.closed (h : Stays fin (o :: opened) c) (found : c.mark? mark = some s)
    (closes : mark.opener? = some o) (inside : opened ≠ []) : Stays fin opened s.stop := by
  obtain ⟨seen, token⟩ := Cursor.mark?_eq_some.1 found
  exact h.next seen (by rw [token, bracketsAfter_closing closes, if_pos (by rfl), List.tail_cons]) inside

def Listing.opening : Listing → Punctuator
  | .object => .openBrace
  | .array => .openBracket

theorem Listing.closing_opener (l : Listing) : l.closing.opener? = some l.opening := by
  cases l <;> rfl

theorem Listing.closes (l : Listing) : Closes l.ends l.opening :=
  ⟨l.closing, by simp [Listing.ends], l.closing_opener⟩

theorem Stays.separated {l : Listing} (h : Stays fin (l.opening :: opened) c)
    (separated : c.separator? l.closing = some d) :
    Stays fin (l.opening :: opened) d ∧ (d.mark? l.closing = none → Opens fin (l.opening :: opened) d) := by
  cases hc : c.mark? .comma with
  | some s =>
    rw [Cursor.separator?_comma _ hc] at separated
    cases separated
    have opens := h.opens hc rfl rfl (by simp)
    exact ⟨opens.stays, fun _ => opens⟩
  | none =>
    cases hm : c.mark? l.closing with
    | none => simp [Cursor.separator?, hc, hm] at separated
    | some s =>
      rw [Cursor.separator?_closing hm (by cases l <;> decide)] at separated
      cases separated
      exact ⟨h, fun none => by cases hm.symm.trans none⟩

/-- A nested form without elements. -/
def Bare (e : Shape) : Prop :=
  e.elementForms = []

theorem bare_node {span : Option Span} {kind : NodeKind Shape} (plain : kind.isElement = false)
    (below : ∀ e ∈ kind.children, Bare e) : Bare (.node span kind) := by
  rw [Bare, Shape.elementForms_node, plain, List.flatMap_eq_nil_iff.2 below]
  rfl

theorem bare_source (text : List Char) (span : Option Span) : Bare (.node span (.opaqueText (sourcePart text))) := by
  refine bare_node rfl fun e he => ?_
  cases text <;> cases he

/-- A parse that is not refused. -/
abbrev Yields (p : Parser Unit α) (c : Cursor) (Q : α → Cursor → Prop) : Prop :=
  Concludes (fun _ => False) p c Q

/-- What the parse of a phrase comes to at a calm place: it is not refused, and if the text has a form that is
asked for, the place where the reading ends is calm again. -/
def Calms (fin : Cursor) (n : Nat) (phrase : Phrase) (c : Cursor) : Prop :=
  match phrase with
  | .expression ends => ∀ o opened, Opens fin (o :: opened) c → Closes ends o → c.endsAt ends = false →
      Yields (expression nested n ends) c fun e d => Halts fin (o :: opened) ends d ∧ Bare e
  | .inner ends => ∀ o opened, Opens fin (o :: opened) c → Closes ends o →
      Yields (innerExpression nested n ends) c fun r d => ∀ e ∈ r, Halts fin (o :: opened) ends d ∧ Bare e
  | .structured => ∀ opened ≠ [], Opens fin opened c →
      Yields (structured nested n) c fun r d => ∀ e ∈ r, Stays fin opened d ∧ Bare e
  | .parenthesized s => ∀ opened ≠ [], Stays fin opened c → s.token = some (.punctuator .openParen) →
      Yields (parenthesized nested n s) c fun r d => ∀ e ∈ r, Stays fin opened d ∧ Bare e
  | .items l => ∀ opened ≠ [], Stays fin (l.opening :: opened) c →
      (c.mark? l.closing = none → Opens fin (l.opening :: opened) c) →
      Yields (items nested n l) c fun r d => ∀ es ∈ r, Stays fin opened d ∧ ∀ e ∈ es, Bare e
  | .item l s token => ∀ opened, Opens fin (l.opening :: opened) c → 
      Yields (item nested n l s token) c fun r d => ∀ e ∈ r, Halts fin (l.opening :: opened) l.ends d ∧ Bare e
  | .property s token => ∀ opened, Opens fin (.openBrace :: opened) c →
      Yields (property nested n s token) c fun r d =>
        ∀ e ∈ r, Halts fin (.openBrace :: opened) Listing.object.ends d ∧ Bare e
  | .key s token => ∀ o opened, Opens fin (o :: opened) c →
      Yields (propertyKey nested n s token) c fun r d =>
        ∀ k ∈ r, Stays fin (o :: opened) d ∧ ∀ e ∈ k.children, Bare e
  | .kept ends => ∀ o opened, Opens fin (o :: opened) c → Closes ends o → c.endsAt ends = false →
      Yields (keptExpression nested n ends) c fun e d => Halts fin (o :: opened) ends d ∧ Bare e
  | .parts ends inner last text => ∀ o opened before, Calm fin (inner ++ o :: opened) before c → Closes ends o →
      (before = last ∨ c.mark? .less = none) →
      Yields (keptParts nested n ends inner last text) c fun found d => Halts fin (o :: opened) ends d ∧
        ∃ more, found = sourcePart (text ++ more) ∧ (inner = [] → c.endsAt ends = false → more ≠ [])
  | _ => True

section

variable {n : Nat}

theorem yields_leaf {kind : NodeKind Shape} (stays : Stays fin opened s.stop) (plain : kind.isElement = false)
    (single : kind.children = []) :
    Yields (do return some (← leaf nested s kind)) c fun r d => ∀ e ∈ r, Stays fin opened d ∧ Bare e := by
  refine .step rfl (.pure fun e he => ?_)
  cases he
  exact ⟨stays, bare_node plain (by simp [single])⟩

theorem yields_negative (inside : opened ≠ []) (h : Stays fin opened c) (found : c.mark? .minus = some s) :
    Yields (negativeNumber nested s) c fun r d => ∀ e ∈ r, Stays fin opened d ∧ Bare e := by
  obtain ⟨before, calm⟩ := h
  obtain ⟨seen, token⟩ := Cursor.mark?_eq_some.1 found
  have more := calm.next seen (token ▸ rfl : bracketsAfter opened s.token = some opened) inside
  refine .moveTo (.peek fun next hnext => ?_)
  cases next with
  | none => exact .pure (by simp)
  | some m =>
    cases hm : m.number? with
    | none =>
      simp only [hm]
      exact .pure (by simp)
    | some raw =>
      have number := Printer.token_of_number? hm
      rw [token] at more
      obtain ⟨value, hvalue⟩ := more.value hnext number (.inr rfl)
      have stays : Stays fin opened m.stop := ⟨_, more.next hnext (by rw [number]; rfl) inside⟩
      simp only [hm]
      refine .moveTo (.step (run_readNumber hvalue) (.step rfl (.pure fun e he => ?_)))
      cases he
      exact ⟨stays, bare_node rfl (by simp [NodeKind.children])⟩

variable (ih : ∀ phrase (c : Cursor), phrase.Ready c → Calms fin n phrase c)

include ih

theorem calms_structured : Calms fin (n + 1) .structured c := by
  intro opened inside begins
  obtain ⟨before, begin, calm⟩ := begins
  obtain ⟨s, seen⟩ := calm.seen
  have stays : Stays fin opened c := ⟨_, calm⟩
  refine .peek fun o ho => ?_
  cases ho.symm.trans seen
  cases ht : s.token with
  | none =>
    simp only [ht]
    exact .pure (by simp)
  | some token =>
    have plain (h : bracketsAfter opened (some token) = some opened) : Stays fin opened s.stop :=
      stays.next seen (ht ▸ h) inside
    simp only [ht]
    cases token with
    | number raw =>
      obtain ⟨value, hvalue⟩ := calm.value seen ht (.inl begin)
      exact .step (run_readNumber hvalue) (yields_leaf (plain rfl) rfl rfl)
    | punctuator mark =>
      have found := Cursor.mark?_eq_some.2 ⟨seen, ht⟩
      cases mark with
      | less => cases (calm.not_less begin).symm.trans found
      | minus => exact yields_negative inside stays found
      | openParen => exact ih (.parenthesized s) c seen opened inside stays ht
      | openBrace | openBracket =>
        have opens := stays.opens found rfl rfl (by simp)
        refine .moveTo (Concludes.bind (ih (.items _) s.stop trivial opened inside opens.stays fun _ => opens)
          fun r d found => ?_)
        cases r with
        | none => exact .pure (by simp)
        | some es =>
          refine .step rfl (.pure fun e he => ?_)
          cases he
          obtain ⟨stays, bare⟩ := found es rfl
          exact ⟨stays, bare_node rfl bare⟩
      | _ => exact .pure (by simp)
    | keyword word =>
      cases word with
      | «return» => exact .pure (by simp)
      | _ => exact yields_leaf (plain rfl) rfl rfl
    | template raw => exact .pure (by simp)
    | _ => exact yields_leaf (plain rfl) rfl rfl

theorem calms_items {l : Listing} : Calms fin (n + 1) (.items l) c := by
  intro opened inside stays starts
  refine .peek fun o seen => ?_
  cases o with
  | none => exact .pure (by simp)
  | some s =>
    cases ht : s.token with
    | none =>
      simp only [ht]
      exact .pure (by simp)
    | some token =>
      simp only [ht]
      split
      · rename_i same
        subst same
        refine .moveTo (.pure fun es hes => ?_)
        cases hes
        exact ⟨stays.closed (Cursor.mark?_eq_some.2 ⟨seen, ht⟩) l.closing_opener inside, by simp⟩
      · rename_i going
        have opens := starts (Cursor.mark?_eq_none_of_sight seen ht fun h => going (Option.some.inj h))
        refine Concludes.bind (ih (.item l s token) c ⟨seen, ht⟩ opened opens) fun r d found => ?_
        cases r with
        | none => exact .pure (by simp)
        | some e =>
          obtain ⟨⟨within, -⟩, bare⟩ := found e rfl
          refine .acceptSeparator (fun f separated => ?_) fun _ => .pure (by simp)
          obtain ⟨stays, starts⟩ := within.separated separated
          refine Concludes.bind (ih (.items l) f trivial opened inside stays starts) fun r g found => ?_
          refine .pure fun es hes => ?_
          obtain ⟨others, rfl, rfl⟩ := Option.map_eq_some_iff.1 hes
          obtain ⟨stays, all⟩ := found others rfl
          exact ⟨stays, List.forall_mem_cons.2 ⟨bare, all⟩⟩

theorem calms_item {l : Listing} (ready : (Phrase.item l s token).Ready c) :
    Calms fin (n + 1) (.item l s token) c := by
  intro opened opens
  obtain ⟨seen, ht⟩ := ready
  simp only [item]
  split
  · rename_i ellipsis
    subst ellipsis
    have argument := opens.stays.opens (Cursor.mark?_eq_some.2 ⟨seen, ht⟩) rfl rfl (by simp)
    refine .moveTo (Concludes.bind (ih (.inner l.ends) s.stop trivial _ _ argument l.closes) fun r d found => ?_)
    cases r with
    | none => exact .pure (by simp)
    | some e =>
      obtain ⟨halts, bare⟩ := found e rfl
      refine .step rfl (.pure fun e' he => ?_)
      cases he
      exact ⟨halts, bare_node rfl (by simpa [NodeKind.children] using bare)⟩
  · cases l with
    | array => exact ih (.inner Listing.array.ends) c trivial _ _ opens (Listing.closes .array)
    | object => exact ih (.property s token) c ⟨seen, ht⟩ opened opens

theorem calms_key (ready : (Phrase.key s token).Ready c) : Calms fin (n + 1) (.key s token) c := by
  intro o opened opens
  obtain ⟨seen, ht⟩ := ready
  have plain (h : bracketsAfter (o :: opened) s.token = some (o :: opened)) : Stays fin (o :: opened) s.stop :=
    opens.stays.next seen h (by simp)
  rw [ht] at plain
  have leaf {key : PropertyKey Shape} (h : leafKey? token = some key) (single : key.children = [])
      (same : bracketsAfter (o :: opened) (some token) = some (o :: opened)) :
      Yields (do moveTo s.stop; return some key) c fun r d =>
        ∀ k ∈ r, Stays fin (o :: opened) d ∧ ∀ e ∈ k.children, Bare e := by
    refine .moveTo (.pure fun k hk => ?_)
    cases hk
    exact ⟨plain same, by simp [single]⟩
  cases token with
  | number raw =>
    obtain ⟨before, begin, calm⟩ := opens
    obtain ⟨value, hvalue⟩ := calm.value seen ht (.inl begin)
    refine .step (run_readNumber hvalue) (.moveTo (.pure fun k hk => ?_))
    cases hk
    exact ⟨plain rfl, by simp [PropertyKey.children]⟩
  | punctuator mark =>
    cases mark with
    | openBracket =>
      have inside := opens.stays.opens (Cursor.mark?_eq_some.2 ⟨seen, ht⟩) rfl rfl (by simp)
      have closes : Closes [.closeBracket] .openBracket := ⟨.closeBracket, by simp, rfl⟩
      refine .moveTo (Concludes.bind (ih (.inner [.closeBracket]) s.stop trivial _ _ inside closes)
        fun r d found => ?_)
      cases r with
      | none => exact .pure (by simp)
      | some e =>
        obtain ⟨⟨within, -⟩, bare⟩ := found e rfl
        refine .accept (fun t closing => .pure fun k hk => ?_) fun _ => .pure (by simp)
        cases hk
        exact ⟨within.closed closing rfl (by simp), by simpa [PropertyKey.children] using bare⟩
    | _ => exact .pure (by simp)
  | template raw => exact .pure (by simp)
  | _ => exact leaf rfl rfl rfl

theorem calms_property (ready : (Phrase.property s token).Ready c) : Calms fin (n + 1) (.property s token) c := by
  intro opened opens
  refine Concludes.bind (ih (.key s token) c ready _ _ opens) fun r d found => ?_
  cases r with
  | none => exact .pure (by simp)
  | some k =>
    obtain ⟨stays, bareKey⟩ := found k rfl
    refine .accept (fun t colon => ?_) fun plain => ?_
    · have value := stays.opens colon rfl rfl (by simp)
      refine Concludes.bind (ih (.inner Listing.object.ends) t.stop trivial _ _ value (Listing.closes .object))
        fun r f found => ?_
      cases r with
      | none => exact .pure (by simp)
      | some e =>
        obtain ⟨halts, bare⟩ := found e rfl
        refine .step rfl (.pure fun e' he => ?_)
        cases he
        refine ⟨halts, bare_node rfl fun e he => ?_⟩
        rcases List.mem_append.1 he with he | he
        · exact bareKey e he
        · cases List.mem_singleton.1 he
          exact bare
    · cases k with
      | identifier name =>
        refine .here ?_
        split
        · rename_i separated
          obtain ⟨mark, m, hm, comma⟩ := Cursor.mark_of_separator separated
          have ended : d.endsAt Listing.object.ends = true :=
            Cursor.endsAt_of_mark hm (by rcases comma with rfl | rfl <;> simp [Listing.ends, Listing.closing])
          refine .step rfl (.step rfl (.pure fun e' he => ?_))
          cases he
          have name : Bare (.node (some s.span) (.identifier name)) := bare_node rfl (by simp [NodeKind.children])
          exact ⟨⟨stays, ended⟩, bare_node rfl fun e he => by cases List.mem_singleton.1 he; exact name⟩
        · exact .pure (by simp)
      | _ => exact .pure (by simp)

theorem calms_kept : Calms fin (n + 1) (.kept ends) c := by
  intro o opened opens closes going
  have less := opens.not_less
  obtain ⟨token, begin, calm⟩ := opens
  obtain ⟨s, seen⟩ := calm.seen
  have start := Cursor.sight?_start seen
  have going' : s.start.endsAt ends = false := by
    rw [← going, Cursor.endsAt, Cursor.endsAt, start, seen]
  have unclosed : s.token ≠ some (.punctuator .closeBrace) := by
    intro brace
    obtain ⟨mark, hmark, opener⟩ := closes
    cases calm.opener seen brace rfl
    cases opener?_inj opener (rfl : Punctuator.opener? .closeBrace = _)
    rw [Cursor.endsAt_of_mark (Cursor.mark?_eq_some.2 ⟨seen, brace⟩) hmark] at going
    cases going
  have less' : s.start.mark? .less = none :=
    Cursor.mark?_eq_none_of_sight start rfl (Cursor.mark?_eq_none.1 less s seen)
  refine .peek fun o ho => ?_
  cases ho.symm.trans seen
  refine .moveTo (Concludes.bind (ih (.parts ends [] none []) s.start trivial _ _ _ (calm.start seen unclosed)
    closes (.inr less')) fun found d h => ?_)
  obtain ⟨halts, more, rfl, filled⟩ := h
  have filled := filled rfl going'
  split
  · rename_i empty
    cases more with
    | nil => exact absurd rfl filled
    | cons x more => cases empty
  · exact .allocFrom ⟨halts, bare_source _ _⟩

theorem calms_parts {inner : List Punctuator} {last : Option Token} {text : List Char} :
    Calms fin (n + 1) (.parts ends inner last text) c := by
  intro o opened before calm closes follows
  obtain ⟨s, seen⟩ := calm.seen
  refine .peek fun o ho => ?_
  cases ho.symm.trans seen
  simp only
  cases step : keptStep ends inner last s with
  | stop =>
    obtain ⟨rfl, ended⟩ := calm.halts_of_stop closes seen step
    refine .pure ⟨⟨⟨_, calm⟩, ended⟩, [], by rw [List.append_nil], fun _ going => ?_⟩
    rw [ended] at going
    cases going
  | take inner' =>
    have brackets := Printer.bracketsAfter_append (Printer.brackets_of_take step) (o :: opened)
    have more := calm.next seen brackets (by simp)
    refine .moveTo ((ih (.parts ends inner' s.token _) s.stop trivial o opened _ more closes (.inl rfl)).imp
      fun found d h => ?_)
    obtain ⟨halts, more, hfound, -⟩ := h
    have filled := (Cursor.sight?_spec seen).2.2.2.2
    exact ⟨halts, s.skipped ++ s.text ++ more, by rw [hfound]; simp only [List.append_assoc],
      fun _ _ h => filled (List.append_eq_nil_iff.1 (List.append_eq_nil_iff.1 h).1).2⟩
  | markup =>
    exfalso
    obtain ⟨less, free, tag⟩ := Printer.tag_of_markup step
    rcases follows with rfl | none
    · obtain ⟨after, alone⟩ := calm.compares seen less
      cases before with
      | none => exact Bool.false_ne_true ((alone rfl).symm.trans tag)
      | some token => exact Bool.false_ne_true ((after token rfl).1.symm.trans free)
    · exact Cursor.mark?_eq_none.1 none s seen less

end

theorem calms (n : Nat) (phrase : Phrase) (c : Cursor) (ready : phrase.Ready c) : Calms fin n phrase c := by
  induction n generalizing phrase c with
  | zero =>
    cases phrase with
    | expression | kept => exact fun _ _ _ _ _ => .exhausted
    | inner => exact fun _ _ _ _ => .exhausted
    | structured => exact fun _ _ _ => .exhausted
    | parenthesized | items => exact fun _ _ _ _ => .exhausted
    | item | property => exact fun _ _ => .exhausted
    | key => exact fun _ _ _ => .exhausted
    | parts => exact fun _ _ _ _ _ _ => .exhausted
    | _ => trivial
  | succ n ih =>
    cases phrase with
    | expression ends =>
      intro o opened begins closes going
      have kept := ih (.kept ends) c trivial o opened begins closes going
      refine .here (.step rfl (Concludes.bind (ih .structured c trivial _ (by simp) begins) fun r d found => ?_))
      refine .here ?_
      cases r with
      | none => exact .step rfl kept
      | some e =>
        obtain ⟨stays, bare⟩ := found e rfl
        cases ended : d.endsAt ends with
        | true => exact .pure ⟨⟨stays, ended⟩, bare⟩
        | false => exact .step rfl kept
    | inner ends =>
      intro o opened begins closes
      refine .here ?_
      cases ended : c.endsAt ends with
      | true => exact .pure (by simp)
      | false =>
        refine Concludes.bind (ih (.expression ends) c trivial o opened begins closes ended) fun e d found => ?_
        refine .pure fun e' he => ?_
        cases he
        exact found
    | structured => exact calms_structured ih
    | parenthesized s =>
      intro opened inside stays token
      have opens := stays.opens (Cursor.mark?_eq_some.2 ⟨ready, token⟩) rfl rfl (by simp)
      have closes : Closes [.closeParen] .openParen := ⟨.closeParen, by simp, rfl⟩
      refine .moveTo (Concludes.bind (ih (.inner [.closeParen]) s.stop trivial _ _ opens closes) fun r d found => ?_)
      cases r with
      | none => exact .pure (by simp)
      | some e =>
        obtain ⟨⟨within, -⟩, bare⟩ := found e rfl
        refine .accept (fun t closing => .step rfl (.pure fun e' he => ?_)) fun _ => .pure (by simp)
        cases he
        exact ⟨within.closed closing rfl inside, bare_node rfl (by simpa [NodeKind.children] using bare)⟩
    | items l => exact calms_items ih
    | item l s token => exact calms_item ih ready
    | property s token => exact calms_property ih ready
    | key s token => exact calms_key ih ready
    | kept ends => exact calms_kept ih
    | parts ends inner last text => exact calms_parts ih
    | _ => trivial

/-- Where an expression may begin and the text is calm up to the brace that closes it, it is read up to that
brace, without elements. -/
theorem reads_of_calm (h : Opens fin [.openBrace] c) (going : c.endsAt [.closeBrace] = false) :
    ∃ e, Reads (.expression [.closeBrace]) c (.node e) fin ∧ Bare e := by
  have closes : Closes [.closeBrace] .openBrace := ⟨.closeBrace, by simp, rfl⟩
  have run := calms (12 * c.rest.length + 5) (.expression [.closeBrace]) c trivial .openBrace [] h closes going
  have found := sound (12 * c.rest.length + 5) (.expression [.closeBrace]) c trivial
  obtain ⟨error, refused⟩ | ⟨e, d, ended, read⟩ := Finds.outcome found (Nat.le_refl _)
  · rw [Yields, Concludes, refused] at run
    exact run.elim
  · rw [Yields, Concludes, ended] at run
    obtain ⟨⟨⟨before, calm⟩, closed⟩, bare⟩ := run
    have stop : d = fin := by
      obtain nothing | ⟨s, mark, seen, token, one⟩ := Cursor.endsAt_cases closed
      · obtain ⟨s, seen⟩ := calm.seen
        cases nothing.symm.trans seen
      · cases List.mem_singleton.1 one
        rcases calm.cases_sight seen with ⟨same, -⟩ | ⟨opened', brackets, inside, -⟩
        · exact same
        · rw [token] at brackets
          cases brackets
          exact absurd rfl inside
    exact ⟨e, stop ▸ read, bare⟩

end Parser

end MarkupEditor
