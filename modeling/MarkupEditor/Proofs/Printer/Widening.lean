import MarkupEditor.Proofs.Printer.Settled

set_option autoImplicit false

namespace MarkupEditor

open Text Lexer MarkupEditor.Parser

namespace KeptItem

variable {ι : Type} {marks opened : List Punctuator} {token : Option Token} {items : List KeptItem}

/-- Whether the rest of a kept text meets none of the marks outside brackets. -/
def spares (marks : List Punctuator) : List Punctuator → List KeptItem → Bool
  | _, [] => true
  | opened, .lexeme token :: items =>
    (!opened.isEmpty || !token.any (Token.isOneOf marks)) &&
      (bracketsAfter opened token).all fun opened => spares marks opened items
  | opened, .markup :: items => spares marks opened items

theorem spares_lexeme (h : spares marks opened (.lexeme token :: items) = true) :
    (opened = [] → ∀ mark ∈ marks, token ≠ some (.punctuator mark)) ∧
      ∀ opened', bracketsAfter opened token = some opened' → spares marks opened' items = true := by
  rw [spares, Bool.and_eq_true, Option.all_eq_true] at h
  refine ⟨?_, h.2⟩
  rintro rfl mark hmark rfl
  simp [Token.isOneOf, hmark] at h

/-- What is met first in a part of a text and what comes after it is the first lexeme of the part, if it has one. -/
theorem token?_ofParts {left : List Char} {others : List (OpaquePart Shape)} (no : Printer.NoSource others) :
    token? (ofParts (sourcePart left ++ others)) = (Lexeme.next? left).bind (·.token) := by
  rw [ofParts_sourcePart]
  cases next : Lexeme.next? left with
  | some l =>
    rw [Lexeme.tokens_of_some next]
    rfl
  | none =>
    rw [Lexeme.tokens_of_none next]
    rcases others with _ | ⟨text | e, others⟩
    · rfl
    · exact absurd rfl (no text others)
    · rfl

end KeptItem

namespace Printer

variable {ends wide barred opened opened' : List Punctuator} {before : Option Token} {text left : List Char}
  {c d : Cursor} {s : Sight} {found others : List (OpaquePart Shape)} {items : List KeptItem}

section

variable (hends : ends ⊆ closers) (ended : d.endsAt ends = true)

include hends ended

theorem settle_of_goes (h : Reads (.parts ends opened before text) c (.parts found) d)
    (parts : found = sourcePart (text ++ left) ++ others) (no : NoSource others)
    (goes : Balance.Goes ⟨opened, before⟩ left others) :
    KeptItem.settle opened before (KeptItem.ofParts (sourcePart left ++ others)) = true := by
  generalize hphrase : Phrase.parts ends opened before text = phrase at h
  generalize hanswer : Answer.parts found = answer at h
  induction h generalizing opened before text left found others with
  | partsEnd | partsStop =>
    cases hphrase
    cases hanswer
    obtain ⟨htext, rfl⟩ := sourcePart_inj ((List.append_nil _).trans parts) noSource_nil no
    cases List.self_eq_append_right.1 htext
    exact goes.gap rfl
  | @partsTake _ _ opened' _ _ _ _ s _ seen step read ih =>
    cases hphrase
    cases hanswer
    obtain ⟨left', others', q, hfound, no', rest, after⟩ := parts_front read
    obtain ⟨htext, rfl⟩ := sourcePart_inj (hfound.symm.trans parts) no' no
    simp only [List.append_assoc, List.append_cancel_left_eq] at htext
    subst htext
    have next := next?_of_front seen rest (still_after hends ended after)
    obtain ⟨-, lone, opened₂, brackets, goes'⟩ := goes.lexeme next
    cases (brackets_of_take step).symm.trans brackets
    have settled := ih ended hfound no' goes' rfl rfl
    rw [KeptItem.ofParts_sourcePart, Lexeme.tokens_of_some next, List.map_cons, List.cons_append,
      ← KeptItem.ofParts_sourcePart, KeptItem.settle, brackets, Option.any_some, settled, Bool.and_true,
      KeptItem.token?_ofParts no']
    by_cases less : s.token = some (.punctuator .less)
    · simp [noTag_of_lone (lone less)]
    · simp [less]
  | @partsMarkup _ _ _ _ _ _ _ s e others₀ seen step read more _ ih =>
    cases hphrase
    cases hanswer
    obtain ⟨htext, rfl⟩ := sourcePart_inj parts (noSource_node e others₀) no
    cases List.append_cancel_left htext
    obtain ⟨left', others', q, hfound, no', -, -⟩ := parts_front more
    rw [List.nil_append] at hfound
    have closes := (Bool.and_eq_true_iff.1 (goes.gap (next?_skipped seen))).2
    have settled := ih ended hfound no' (Balance.goes_of_closes (hfound ▸ closes)) rfl rfl
    rw [← hfound] at settled
    rw [KeptItem.ofParts_sourcePart, Lexeme.tokens_of_none (next?_skipped seen)]
    exact settled
  | _ => cases hphrase

theorem twin_of_spares (h : Reads (.parts ends opened before text) c (.parts found) d) (met : Met text found items)
    (settled : KeptItem.settle opened before items = true) (spares : KeptItem.spares barred opened items = true) :
    Twin ends barred opened before c c := by
  generalize hphrase : Phrase.parts ends opened before text = phrase at h
  generalize hanswer : Answer.parts found = answer at h
  induction h generalizing opened before text found items with
  | partsEnd | partsStop =>
    cases hphrase
    cases hanswer
    exact twin_end ended ended met settled
  | partsTake seen step read ih =>
    cases hphrase
    cases hanswer
    have brackets := brackets_of_take step
    refine twin_take hends ended seen seen rfl step read met settled (fun outside => ?_) ?_
    · obtain ⟨items', -, rfl⟩ := met_taken hends ended seen read met
      exact (KeptItem.spares_lexeme spares).1 outside
    · rintro items' met' rfl settled'
      exact ih ended met' settled' ((KeptItem.spares_lexeme spares).2 _ brackets) rfl rfl
  | partsMarkup seen step read more _ ih =>
    cases hphrase
    cases hanswer
    obtain ⟨token, free, follows⟩ := tag_of_markup step
    have less := Cursor.mark?_eq_some.2 ⟨seen, token⟩
    refine twin_markup less less step follows read read more met settled ?_
    rintro items' met' rfl settled'
    exact ih ended met' settled' spares rfl rfl
  | _ => cases hphrase

end

theorem goes_wide (new : ∀ mark ∈ wide, mark ∈ ends ∨ mark ∈ barred) (going : c.endsAt ends = false)
    (free : ∀ mark ∈ wide, mark ∈ barred → c.mark? mark = none) : c.endsAt wide = false := by
  rw [← Bool.not_eq_true]
  intro ended
  obtain nothing | ⟨s, mark, seen, token, hmark⟩ := Cursor.endsAt_cases ended
  · rw [Cursor.endsAt, nothing] at going
    cases going
  · have here := Cursor.mark?_eq_some.2 ⟨seen, token⟩
    obtain old | barred := new mark hmark
    · rw [Cursor.endsAt_of_mark here old] at going
      cases going
    · rw [free mark hmark barred] at here
      cases here

variable (narrow : ends ⊆ wide)

include narrow

theorem endsAt_wide (ended : c.endsAt ends = true) : c.endsAt wide = true := by
  obtain nothing | ⟨s, mark, seen, token, hmark⟩ := Cursor.endsAt_cases ended
  · rw [Cursor.endsAt, nothing]
  · exact Cursor.endsAt_of_mark (Cursor.mark?_eq_some.2 ⟨seen, token⟩) (narrow hmark)

theorem stop_wide (h : keptStep ends opened before s = .stop) : keptStep wide opened before s = .stop := by
  cases htoken : s.token with
  | none =>
    rw [keptStep_none htoken] at h
    cases h
  | some token =>
    rw [keptStep_eq htoken] at h ⊢
    split
    · rfl
    · rename_i going
      rwa [if_neg] at h
      intro ended
      obtain ⟨outside, one⟩ := Bool.and_eq_true_iff.1 ended
      refine going (Bool.and_eq_true_iff.2 ⟨outside, ?_⟩)
      cases token with
      | punctuator mark =>
        simp only [Token.isOneOf, List.contains_iff_mem] at one ⊢
        exact narrow one
      | _ => cases one

variable (new : ∀ mark ∈ wide, mark ∈ ends ∨ mark ∈ barred)

include new

/-- A step takes the next lexeme before more marks, too, if it is none of the new ones outside brackets. -/
theorem take_wide (h : keptStep ends opened before s = .take opened')
    (unbarred : opened = [] → ∀ mark ∈ barred, s.token ≠ some (.punctuator mark)) :
    keptStep wide opened before s = .take opened' := by
  cases htoken : s.token with
  | none => rwa [keptStep_none htoken, ← @keptStep_none ends opened before s htoken]
  | some token =>
    have same : (opened.isEmpty && token.isOneOf wide) = (opened.isEmpty && token.isOneOf ends) := by
      rcases opened with _ | ⟨first, opened⟩
      · cases token with
        | punctuator mark =>
          have : mark ∈ wide ↔ mark ∈ ends := by
            refine ⟨fun hmark => (new mark hmark).resolve_right fun hbarred => ?_, fun hmark => narrow hmark⟩
            exact unbarred rfl mark hbarred htoken
          simp [Token.isOneOf, this]
        | _ => rfl
      · rfl
    rwa [keptStep_eq htoken, same, ← keptStep_eq htoken]

variable (hwide : wide ⊆ closers)

include hwide

theorem parts_wide (ended : d.endsAt ends = true) (h : Reads (.parts ends opened before text) c (.parts found) d)
    (met : Met text found items) (spares : KeptItem.spares barred opened items = true) :
    Reads (.parts wide opened before text) c (.parts found) d := by
  generalize hphrase : Phrase.parts ends opened before text = phrase at h
  generalize hanswer : Answer.parts found = answer at h
  induction h generalizing opened before text found items with
  | partsEnd nothing =>
    cases hphrase
    cases hanswer
    exact .partsEnd nothing
  | partsStop seen step =>
    cases hphrase
    cases hanswer
    exact .partsStop seen (stop_wide narrow step)
  | partsTake seen step read ih =>
    cases hphrase
    cases hanswer
    obtain ⟨items', met', rfl⟩ := met_taken (fun _ h => hwide (narrow h)) ended seen read met
    obtain ⟨unbarred, spares'⟩ := KeptItem.spares_lexeme spares
    refine .partsTake seen (take_wide narrow new step unbarred) ?_
    exact ih ended met' (spares' _ (brackets_of_take step)) rfl rfl
  | partsMarkup seen step read more _ ih =>
    cases hphrase
    cases hanswer
    obtain ⟨token, free, follows⟩ := tag_of_markup step
    obtain ⟨items', met'⟩ := met_of_reads more
    rw [met_markup seen met, ← met_all met'] at spares
    exact .partsMarkup seen (keptStep_of_tag hwide token free follows) read (ih ended met' spares rfl rfl)
  | _ => cases hphrase

/-- What was kept before some marks is kept before more, if it goes through and spares the new ones. -/
theorem kept_wide {parts : List (OpaquePart Unit)} (kept : KeptFrom ends parts c d)
    (closes : Balance.closes ⟨[], none⟩ parts = true)
    (spares : KeptItem.spares barred [] (KeptItem.ofParts parts) = true) : KeptFrom wide parts c d := by
  obtain ⟨span, found, read, ended, rfl⟩ := kept
  have hends : ends ⊆ closers := fun _ h => hwide (narrow h)
  rw [Balance.closes_map] at closes
  rw [KeptItem.ofParts_map] at spares
  have again (h : Reads (.kept ends) c (.node (.node span (.opaqueText found))) d) :
      Twin ends barred [] none c c ∧ Reads (.kept wide) c (.node (.node span (.opaqueText found))) d := by
    cases h with
    | kept seen inside filled =>
      obtain ⟨left, others, q, hfound, no, -, -⟩ := parts_front inside
      rw [List.nil_append] at hfound
      have settled := settle_of_goes hends ended inside hfound no (Balance.goes_of_closes (hfound ▸ closes))
      rw [← hfound] at settled
      have met : Met [] found (KeptItem.ofParts found) := ⟨left, others, hfound, no, by rw [hfound]⟩
      exact ⟨(twin_of_spares hends ended inside met settled spares).of_start seen seen,
        .kept seen (parts_wide narrow new hwide ended inside met spares) filled⟩
  refine ⟨span, found, ?_, endsAt_wide narrow ended, rfl⟩
  cases read with
  | structuredExpression attempt => exact (structured_not_kept attempt).elim
  | keptOther attempt kept => exact .keptOther attempt (again kept).2
  | keptUnended attempt going kept =>
    obtain ⟨twin, kept'⟩ := again kept
    obtain ⟨_, _, _, -, stopped⟩ :=
      (matched hends attempt).node (.structured twin (.inl rfl) fun _ => kept_going kept)
    refine .keptUnended attempt (goes_wide new going fun mark hmark hbarred => ?_) kept'
    refine stopped.not_barred going hbarred ?_
    rintro rfl
    exact absurd (hwide hmark) (by decide)

end Printer

end MarkupEditor
