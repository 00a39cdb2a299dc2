import MarkupEditor.Proofs.Printer.Tags

set_option autoImplicit false

namespace MarkupEditor

open MarkupEditor.Parser

/-- The brackets that are open after a lexeme. `none` if it closes another one than the last. -/
def bracketsAfter (opened : List Punctuator) : Option Token → Option (List Punctuator)
  | some (.punctuator mark) =>
    if mark.isOpening then some (mark :: opened)
    else
      match mark.opener? with
      | some opener => if opened.head? = some opener then some opened.tail else none
      | none => some opened
  | _ => some opened

theorem Cursor.endsAt_cases {ends : List Punctuator} {c : Cursor} (h : c.endsAt ends = true) :
    c.sight? = none ∨ ∃ s mark, c.sight? = some s ∧ s.token = some (.punctuator mark) ∧ mark ∈ ends := by
  unfold Cursor.endsAt at h
  cases seen : c.sight? with
  | none => exact .inl rfl
  | some s =>
    rw [seen] at h
    obtain ⟨token, htoken, hone⟩ := (Option.any_eq_true _ _).1 h
    cases token with
    | punctuator mark => exact .inr ⟨s, mark, rfl, htoken, by simpa [Token.isOneOf] using hone⟩
    | _ => cases hone

namespace Parser

theorem LeafOf.ne_punctuator {token : Token} {kind : NodeKind Shape} (made : LeafOf token kind) (mark : Punctuator) :
    token ≠ .punctuator mark := by
  rintro rfl
  cases made with
  | plain h => cases h

theorem KeyOf.ne_punctuator {token : Token} {key : PropertyKey Shape} (made : KeyOf token key) (mark : Punctuator) :
    token ≠ .punctuator mark := by
  rintro rfl
  cases made with
  | plain h => cases h

end Parser

namespace Printer

section

variable {marks opened opened' outside : List Punctuator} {before : Option Token} {s s' : Sight}

theorem bracketsAfter_append {token : Option Token} (h : bracketsAfter opened token = some opened')
    (outside : List Punctuator) :
    bracketsAfter (opened ++ outside) token = some (opened' ++ outside) := by
  cases opened with
  | nil =>
    unfold bracketsAfter at h ⊢
    repeat' split at h
    all_goals cases h
    all_goals simp_all
  | cons first opened =>
    unfold bracketsAfter at h ⊢
    repeat' split at h
    all_goals cases h
    all_goals simp_all

theorem bracketsAfter_append_none {token : Option Token} (h : bracketsAfter opened token = none)
    (inside : opened ≠ []) : bracketsAfter (opened ++ outside) token = none := by
  obtain ⟨first, opened, rfl⟩ := List.exists_cons_of_ne_nil inside
  unfold bracketsAfter at h ⊢
  repeat' split at h
  all_goals simp_all

theorem closing_of_bracketsAfter {token : Token} (h : bracketsAfter opened (some token) = none) :
    ∃ mark opener, token = .punctuator mark ∧ mark.opener? = some opener := by
  cases token with
  | punctuator mark => cases mark <;> first | cases h | exact ⟨_, _, rfl, rfl⟩
  | _ => cases h

theorem keptStep_eq {token : Token} (h : s.token = some token) :
    keptStep marks opened before s =
      if opened.isEmpty && token.isOneOf marks then .stop
      else
        match bracketsAfter opened (some token) with
        | none => .stop
        | some opened' =>
          if token = .punctuator .less ∧ before.all Token.precedesMarkup = true ∧
            tagFollows s.stop = true then .markup
          else .take opened' := by
  unfold keptStep bracketsAfter
  rw [h]
  cases token with
  | punctuator mark =>
    have plain : mark.isOpening = true ∨ mark.opener? ≠ none → mark ≠ .less := by
      rintro hmark rfl
      revert hmark
      decide
    simp only
    split
    · rfl
    · by_cases hopening : mark.isOpening = true
      · simp [hopening, plain (.inl hopening)]
      · cases hopener : mark.opener? with
        | some opener =>
          have := plain (.inr (by rw [hopener]; exact Option.some_ne_none opener))
          by_cases hhead : opened.head? = some opener <;> simp [hopening, hhead, this]
        | none => simp [hopening, and_assoc]
  | _ => simp

theorem keptStep_none (h : s.token = none) : keptStep marks opened before s = .take opened := by
  rw [keptStep, h]

theorem brackets_of_take (h : keptStep marks opened before s = .take opened') :
    bracketsAfter opened s.token = some opened' := by
  cases htoken : s.token with
  | none =>
    rw [keptStep_none htoken] at h
    cases h
    rfl
  | some token =>
    rw [keptStep_eq htoken] at h
    split at h
    · cases h
    · split at h
      · cases h
      · split at h <;> cases h
        assumption

theorem outermost_of_stop (h : keptStep marks opened before s = .stop) :
    opened = [] ∨ bracketsAfter opened s.token = none := by
  cases htoken : s.token with
  | none =>
    rw [keptStep_none htoken] at h
    cases h
  | some token =>
    rw [keptStep_eq htoken] at h
    split at h
    · rename_i ended
      rw [Bool.and_eq_true] at ended
      exact .inl (List.isEmpty_iff.1 ended.1)
    · split at h
      · exact .inr ‹_›
      · split at h <;> cases h

theorem tag_of_markup (h : keptStep marks opened before s = .markup) :
    s.token = some (.punctuator .less) ∧ before.all Token.precedesMarkup = true ∧
      tagFollows s.stop = true := by
  cases htoken : s.token with
  | none =>
    rw [keptStep_none htoken] at h
    cases h
  | some token =>
    rw [keptStep_eq htoken] at h
    split at h
    · cases h
    · split at h
      · cases h
      · split at h
        · rename_i tag
          exact ⟨congrArg some tag.1, tag.2⟩
        · cases h

theorem keptStep_of_tag (hmarks : marks ⊆ closers) (htoken : s.token = some (.punctuator .less))
    (free : before.all Token.precedesMarkup = true) (follows : tagFollows s.stop = true) :
    keptStep marks opened before s = .markup := by
  have going : (Token.punctuator .less).isOneOf marks = false := by
    simp only [Token.isOneOf, ← Bool.not_eq_true, List.contains_iff_mem]
    exact fun hm => absurd (hmarks hm) (by decide)
  rw [keptStep_eq htoken, going, Bool.and_false, if_neg Bool.false_ne_true]
  exact if_pos ⟨rfl, free, follows⟩

theorem keptStep_stop_congr (token : s'.token = s.token) (h : keptStep marks opened before s = .stop) :
    keptStep marks opened before s' = .stop := by
  cases htoken : s.token with
  | none =>
    rw [keptStep_none htoken] at h
    cases h
  | some found =>
    rw [keptStep_eq htoken] at h
    rw [keptStep_eq (token.trans htoken)]
    by_cases ended : (opened.isEmpty && found.isOneOf marks) = true
    · rw [if_pos ended]
    · rw [if_neg ended] at h ⊢
      cases step : bracketsAfter opened (some found) with
      | none => rfl
      | some opened' =>
        rw [step] at h
        dsimp only at h
        split at h <;> cases h

theorem keptStep_congr (token : s'.token = s.token) (follows : tagFollows s'.stop = tagFollows s.stop) :
    keptStep marks opened before s' = keptStep marks opened before s := by
  unfold keptStep
  rw [token, follows]

end

theorem parts_end {ends opened : List Punctuator} {before : Option Token} {text : List Char} {c d : Cursor}
    {a : Answer} (h : Reads (.parts ends opened before text) c a d) :
    d.sight? = none ∨ ∃ opened before s, d.sight? = some s ∧ keptStep ends opened before s = .stop := by
  generalize hphrase : Phrase.parts ends opened before text = phrase at h
  induction h generalizing opened before text with
  | partsEnd h => exact .inl h
  | partsStop seen h =>
    cases hphrase
    exact .inr ⟨_, _, _, seen, h⟩
  | partsTake _ _ _ ih =>
    cases hphrase
    exact ih rfl
  | partsMarkup _ _ _ _ _ ih =>
    cases hphrase
    exact ih rfl
  | _ => cases hphrase

theorem first_goes {ends : List Punctuator} {c d : Cursor} {a : Answer} {s : Sight} (h : Reads (.kept ends) c a d)
    (seen : c.sight? = some s) : keptStep ends [] none { s with skipped := [] } ≠ .stop := by
  intro stop
  cases h with
  | kept seen' read filled =>
    cases seen.symm.trans seen'
    have moved := Cursor.sight?_start seen
    cases read with
    | partsEnd h =>
      rw [moved] at h
      cases h
    | partsStop => exact filled rfl
    | partsTake seen'' h | partsMarkup seen'' h =>
      cases moved.symm.trans seen''
      rw [stop] at h
      cases h

theorem kept_going {ends : List Punctuator} {c d : Cursor} {a : Answer} (h : Reads (.kept ends) c a d) :
    c.endsAt ends = false := by
  rw [← Bool.not_eq_true]
  intro ended
  obtain nothing | ⟨s, mark, seen, token, hmark⟩ := Cursor.endsAt_cases ended
  · cases h with
    | kept seen =>
      rw [nothing] at seen
      cases seen
  · refine first_goes h seen ?_
    have one : (Token.punctuator mark).isOneOf ends = true := by simpa [Token.isOneOf] using hmark
    rw [keptStep_eq (s := { s with skipped := [] }) token, one]
    rfl

theorem not_reads_closing {ends : List Punctuator} {c d : Cursor} {a : Answer} {s : Sight}
    {mark opener : Punctuator} (seen : c.mark? mark = some s) (closes : mark.opener? = some opener) :
    ¬ Reads (.expression ends) c a d := by
  obtain ⟨seen, token⟩ := Cursor.mark?_eq_some.1 seen
  have structured {c' : Cursor} {x : Shape} : ¬ Reads .structured c (.node x) c' := by
    intro h
    have other {m : Punctuator} {t : Sight} (h : c.mark? m = some t) : m = mark := by
      obtain ⟨seen', token'⟩ := Cursor.mark?_eq_some.1 h
      cases seen.symm.trans seen'
      cases token.symm.trans token'
      rfl
    cases h with
    | leaf seen' htoken made =>
      cases seen.symm.trans seen'
      cases token.symm.trans htoken
      cases made with
      | plain h => cases h
    | negative h | structuredMarkup h | structuredParenthesized h =>
      cases other h
      cases closes
    | listing h opens =>
      cases other h
      cases mark <;> first | (cases closes; done) | cases opens
  have kept {x : Shape} : ¬ Reads (.kept ends) c (.node x) d := by
    intro h
    refine first_goes h seen ?_
    have none : bracketsAfter [] (some (.punctuator mark)) = none := by
      cases mark <;> first | rfl | cases closes
    rw [keptStep_eq (s := { s with skipped := [] }) token, none, ite_self]
  intro h
  cases h with
  | structuredExpression attempt => exact structured attempt
  | keptOther _ h | keptUnended _ _ h => exact kept h

theorem endsAt_of_statement {c d f : Cursor} {e : Shape} {others : List Shape}
    (read : Reads (.expression [.semicolon]) c (.node e) d) (more : Reads .statements d (.nodes others) f) :
    d.endsAt [.semicolon] = true := by
  have kept (h : Reads (.kept [.semicolon]) c (.node e) d) : d.endsAt [.semicolon] = true := by
    cases h with
    | kept _ inside =>
      obtain nothing | ⟨opened, before, s, seen, stop⟩ := parts_end inside
      · rw [Cursor.endsAt, nothing]
      · cases htoken : s.token with
        | none =>
          rw [keptStep_none htoken] at stop
          cases stop
        | some token =>
          rw [keptStep_eq htoken] at stop
          split at stop
          · rename_i ended
            rw [Cursor.endsAt, seen]
            simp only [htoken, Option.any_some]
            exact (Bool.and_eq_true_iff.1 ended).2
          · split at stop
            · rename_i closes
              obtain ⟨mark, opener, rfl, hopener⟩ := closing_of_bracketsAfter closes
              cases more with
              | statementsEnd h =>
                rw [seen] at h
                cases h
              | semicolon h =>
                exact Cursor.endsAt_of_mark h (List.mem_singleton.2 rfl)
              | statement _ _ read =>
                exact (not_reads_closing (Cursor.mark?_eq_some.2 ⟨seen, htoken⟩) hopener read).elim
            · split at stop <;> cases stop
  cases read with
  | structuredExpression _ ended => exact ended
  | keptOther _ h | keptUnended _ _ h => exact kept h

end Printer

end MarkupEditor
