import MarkupEditor.Proofs.Printer.Attempts
import MarkupEditor.Proofs.Printer.Sources

set_option autoImplicit false

namespace MarkupEditor

open Text Lexer MarkupEditor.Parser

instance (l : Lexeme) : Decidable l.Open :=
  inferInstanceAs (Decidable (_ ∧ _))

instance (before next : Option Token) : Decidable (Lone before next) :=
  inferInstanceAs (Decidable (_ ∧ _))

/-- What there is to know after a part of a text that is kept: the brackets that are open, and the token
that was passed last, if any. -/
structure Balance where
  opened : List Punctuator
  before : Option Token

namespace Balance

/-- The balance after a lexeme. There is none if the lexeme is broken off, closes another bracket than
the last, or is an angle that an attempt would take for the beginning of a tag. -/
def pass? (b : Balance) (l : Lexeme) : Option Balance :=
  if l.Open then none
  else if l.token = some (.punctuator .less) ∧ ¬ Lone b.before ((Lexeme.next? l.rest).bind (·.token)) then none
  else (bracketsAfter b.opened l.token).map fun opened => ⟨opened, l.token⟩

def through? : Nat → Balance → List Char → Option Balance
  | 0, _, _ => none
  | depth + 1, b, text =>
    match Lexeme.next? text with
    | none => some b
    | some l => (b.pass? l).bind fun b => b.through? depth l.rest

/-- Whether the rest of a kept text goes through and closes all brackets. Markup in it has to stand where
markup may begin. -/
def closes {ι : Type} (b : Balance) : List (OpaquePart ι) → Bool
  | [] => b.opened.isEmpty
  | .source text :: parts => (b.through? (text.toList.length + 1) text.toList).any fun b => b.closes parts
  | .node _ :: parts =>
    b.before.all Token.precedesMarkup && closes ⟨b.opened, some (.punctuator .greater)⟩ parts

variable {ι κ : Type} {b : Balance} {l : Lexeme} {text : List Char} {parts : List (OpaquePart ι)}

theorem closes_map (f : ι → κ) (b : Balance) (parts : List (OpaquePart ι)) :
    b.closes (parts.map (·.map f)) = b.closes parts := by
  induction parts generalizing b with
  | nil => rfl
  | cons part parts ih =>
    cases part with
    | source text => exact congrArg (Option.any · _) (funext fun b => ih b)
    | node e => exact congrArg (b.before.all Token.precedesMarkup && ·) (ih _)

/-- The rest of a text and the parts after it go through. -/
def Goes (b : Balance) (text : List Char) (parts : List (OpaquePart ι)) : Prop :=
  ∃ depth, (b.through? depth text).any (fun b => b.closes parts) = true

theorem Goes.lexeme (h : b.Goes text parts) (next : Lexeme.next? text = some l) :
    ¬ l.Open ∧ (l.token = some (.punctuator .less) →
        Lone b.before ((Lexeme.next? l.rest).bind (·.token))) ∧
      ∃ opened, bracketsAfter b.opened l.token = some opened ∧ Goes ⟨opened, l.token⟩ l.rest parts := by
  obtain ⟨_ | depth, h⟩ := h
  · cases h
  · rw [through?, next] at h
    simp only [pass?] at h
    split at h
    · cases h
    · rename_i whole
      split at h
      · cases h
      · rename_i lone
        refine ⟨whole, fun less => by_contra fun hlone => lone ⟨less, hlone⟩, ?_⟩
        cases hstep : bracketsAfter b.opened l.token with
        | none =>
          rw [hstep] at h
          cases h
        | some opened =>
          rw [hstep] at h
          exact ⟨opened, rfl, depth, h⟩

theorem Goes.gap (h : b.Goes text parts) (passed : Lexeme.next? text = none) : b.closes parts = true := by
  obtain ⟨_ | depth, h⟩ := h
  · cases h
  · rw [through?, passed] at h
    exact h

theorem goes_of_closes {left : List Char} (h : b.closes (sourcePart left ++ parts) = true) :
    b.Goes left parts := by
  cases left with
  | nil => exact ⟨1, h⟩
  | cons x left =>
    refine ⟨(x :: left).length + 1, ?_⟩
    change (b.through? _ (String.ofList (x :: left)).toList).any _ = true at h
    rwa [String.toList_ofList] at h

end Balance

namespace Lexer

theorem skip_prefix {p q : List Char} (h : skip .between (p ++ q) = ([], p ++ q)) (filled : p ≠ []) :
    skip .between p = ([], p) := by
  rcases p with _ | ⟨c, _ | ⟨d, cs⟩⟩
  · exact absurd rfl filled
  · have plain : isTokenBlank c = false := by
      rw [← Bool.not_eq_true]
      intro blank
      rw [List.singleton_append, skip_blank blank] at h
      cases h
    simp [skip, plain]
  · simp only [List.cons_append, skip] at h ⊢
    split at h
    · cases h
    · rename_i blank
      split at h
      · cases h
      · rename_i line
        split at h
        · cases h
        · rename_i block
          rw [if_neg blank, if_neg line, if_neg]
          rintro ⟨rfl, rfl, closed⟩
          exact block ⟨rfl, rfl, closesComment_append closed q⟩

end Lexer

namespace Printer

variable {c d : Cursor} {s : Sight} {left q : List Char}

theorem next?_skipped (seen : c.sight? = some s) : Lexeme.next? s.skipped = none := by
  obtain ⟨x, cs, heq, -⟩ := Cursor.sight?_first seen
  have := @skip_gap .between c.rest (by rw [heq]; exact List.cons_ne_nil x cs) []
  rw [heq, List.append_nil] at this
  rw [Lexeme.next?, this]
  rfl

theorem next?_of_sight (seen : c.sight? = some s) (rest : s.stop.rest = left ++ q) (still : Still q)
    (whole : ∀ l, Lexeme.next? (s.skipped ++ (s.text ++ left)) = some l → ¬ l.Open) :
    Lexeme.next? (s.skipped ++ (s.text ++ left)) = some ⟨s.skipped, s.token, s.text, left⟩ := by
  obtain ⟨x, cs, heq, -⟩ := Cursor.sight?_first seen
  obtain ⟨-, -, htext, hall, filled⟩ := Cursor.sight?_spec seen
  have front : skip .between (s.text ++ s.stop.rest) = ([], s.text ++ s.stop.rest) := by
    have := skip_between_idem .between c.rest
    have inner := skip_append .between c.rest
    rw [heq] at this inner
    rw [hall, htext] at inner
    rwa [List.append_cancel_left inner] at this
  have begins : skip .between (s.text ++ left) = ([], s.text ++ left) := by
    refine skip_prefix (q := q) ?_ (List.append_ne_nil_of_left_ne_nil filled left)
    rwa [rest, ← List.append_assoc] at front
  have passed := @skip_gap .between c.rest (by rw [heq]; exact List.cons_ne_nil x cs)
    (s.text ++ left)
  rw [heq, begins, List.append_nil] at passed
  cases next : Lexeme.next? (s.skipped ++ (s.text ++ left)) with
  | none =>
    rw [Lexeme.next?, passed] at next
    obtain ⟨y, ys, hy⟩ := List.exists_cons_of_ne_nil (List.append_ne_nil_of_left_ne_nil filled left)
    rw [hy] at next
    cases next
  | some l =>
    have slash : q.head? = some '/' → l.text ++ l.rest ≠ ['/'] := by
      intro hq hl
      obtain ⟨q', rfl⟩ := List.head?_eq_some_iff.1 hq
      have hall' := (Lexeme.next?_lossless next).1
      have skipped : l.skipped = s.skipped := by
        rw [Lexeme.next?, passed] at next
        obtain ⟨y, ys, hy⟩ := List.exists_cons_of_ne_nil (List.append_ne_nil_of_left_ne_nil filled left)
        rw [hy] at next
        cases next
        exact Lexeme.first_skipped _ _ _
      rw [hl, skipped, List.append_cancel_left_eq] at hall'
      rw [rest, ← List.append_assoc, ← hall'] at front
      cases front
    have lexed := Lexeme.next?_before_still next (whole l next) still slash
    obtain ⟨found, hfound, rfl⟩ := Option.map_eq_some_iff.1 seen
    rw [List.append_assoc, List.append_assoc, ← rest, ← htext, ← hall] at lexed
    cases hfound.symm.trans lexed
    cases List.append_cancel_right rest
    rfl

/-- Parts that begin with no text. -/
def NoSource (parts : List (OpaquePart Shape)) : Prop :=
  ∀ text more, parts ≠ .source text :: more

theorem noSource_node (e : Shape) (parts : List (OpaquePart Shape)) : NoSource (.node e :: parts) := by
  rintro text more ⟨⟩

theorem noSource_nil : NoSource [] := by
  rintro text more ⟨⟩

theorem sourcePart_inj {text text' : List Char} {others others' : List (OpaquePart Shape)}
    (h : sourcePart text ++ others = sourcePart text' ++ others') (no : NoSource others)
    (no' : NoSource others') : text = text' ∧ others = others' := by
  cases text with
  | nil =>
    cases text' with
    | nil => exact ⟨rfl, h⟩
    | cons x text' => exact absurd h (no _ _)
  | cons x text =>
    cases text' with
    | nil => exact absurd h.symm (no' _ _)
    | cons y text' =>
      obtain ⟨first, rest⟩ := List.cons.inj h
      exact ⟨String.ofList_injective (OpaquePart.source.inj first), rest⟩

/-- The rest of the text that is read first, and what stands after it: markup, or what ends the
expression. -/
theorem parts_front {ends opened : List Punctuator} {before : Option Token} {text : List Char}
    {found : List (OpaquePart Shape)} (h : Reads (.parts ends opened before text) c (.parts found) d) :
    ∃ left others q, found = sourcePart (text ++ left) ++ others ∧ NoSource others ∧ c.rest = left ++ q ∧
      (q = d.rest ∨ q.head? = some '<') := by
  generalize hphrase : Phrase.parts ends opened before text = phrase at h
  generalize hanswer : Answer.parts found = answer at h
  induction h generalizing opened before text found with
  | partsEnd | partsStop =>
    cases hphrase
    cases hanswer
    exact ⟨[], [], _, by simp, noSource_nil, rfl, .inl rfl⟩
  | @partsTake _ _ _ _ _ _ _ s _ seen h read ih =>
    cases hphrase
    cases hanswer
    obtain ⟨left, others, q, rfl, no, rest, after⟩ := ih rfl rfl
    obtain ⟨-, -, htext, hall, -⟩ := Cursor.sight?_spec seen
    refine ⟨s.skipped ++ (s.text ++ left), others, q, ?_, no, ?_, after⟩
    · simp only [List.append_assoc]
    · simp only [hall, htext, rest, List.append_assoc]
  | @partsMarkup _ _ _ _ _ _ _ s e others seen h =>
    cases hphrase
    cases hanswer
    obtain ⟨token, -⟩ := tag_of_markup h
    obtain ⟨-, -, htext, hall, -⟩ := Cursor.sight?_spec seen
    refine ⟨s.skipped, .node e :: others, s.start.rest, rfl, noSource_node e others, hall, .inr ?_⟩
    rw [htext, Cursor.text_of_mark (Cursor.mark?_eq_some.2 ⟨seen, token⟩)]
    rfl
  | _ => cases hphrase

theorem print_element_head (span : Option Span) (name : String) (as xs : List Shape) (closed : Bool) :
    ∃ x tail, (Shape.node span (.element name as xs closed)).print = ['<'] ++ (name.toList ++ x :: tail) ∧
      EndsName (x :: tail) := by
  have ends {x : Char} (tail : List Char) (h : x = ' ' ∨ x = '>') : EndsName (x :: tail) := by
    intro y hy
    cases hy
    rcases h with rfl | rfl <;> decide
  rw [Shape.print_node, NodeKind.map, NodeKind.printed]
  cases as with
  | nil =>
    split
    · exact ⟨' ', _, by simp; rfl, ends _ (.inl rfl)⟩
    · exact ⟨'>', _, by simp; rfl, ends _ (.inr rfl)⟩
  | cons a as =>
    split
    · exact ⟨' ', _, by simp; rfl, ends _ (.inl rfl)⟩
    · exact ⟨' ', _, by simp; rfl, ends _ (.inl rfl)⟩

theorem follows_of_opensTag {e : Shape} {gap : List Char} (opens : e.OpensTag) (blank : Blank gap)
    (across : c.Over (gap ++ e.print) d) (less : c.mark? .less = some s) :
    s.skipped = gap ∧ tagFollows s.stop = true := by
  obtain ⟨seen, token⟩ := Cursor.mark?_eq_some.1 less
  have angle {w : List Char} (h : e.print = ['<'] ++ w) : s.skipped = gap ∧ s.stop.Over w d := by
    rw [h, ← List.append_assoc] at across
    obtain ⟨m, first, rest⟩ := across.split
    obtain ⟨t, seen', -, skipped, -, rfl⟩ :=
      Cursor.sight?_of_text blank first (@Lexeme.next?_mark .less _ trivial)
    cases seen.symm.trans seen'
    exact ⟨skipped, rest⟩
  cases e with
  | missing => exact opens.elim
  | node span kind =>
    cases kind with
    | fragment xs =>
      obtain ⟨skipped, rest⟩ := angle (Shape.print_fragment span xs)
      obtain ⟨m, first, -⟩ := rest.split
      obtain ⟨t, greater, -⟩ := Cursor.mark?_of_text .greater .nil trivial first
      obtain ⟨seen', token'⟩ := Cursor.mark?_eq_some.1 greater
      exact ⟨skipped, by rw [tagFollows, seen', Option.bind_some, token']⟩
    | element name as xs closed =>
      obtain ⟨x, tail, print, ends⟩ := print_element_head span name as xs closed
      obtain ⟨skipped, rest⟩ := angle print
      obtain ⟨first, others, whole, others_end, rfl⟩ := opens
      rw [String.toList_append, List.append_assoc] at rest
      obtain ⟨m, name, rest⟩ := rest.split
      have stops : EndsName m.rest := by
        rw [rest.1]
        cases hothers : others.toList with
        | nil => exact ends
        | cons y ys =>
          rw [hothers] at others_end
          exact others_end
      obtain ⟨t, seen', token', -⟩ := Cursor.sight?_of_name whole rfl .nil stops name
      exact ⟨skipped, by rw [tagFollows, seen', Option.bind_some, token']⟩
    | _ => exact opens.elim

def printParts (parts : List (OpaquePart Shape)) : List Char :=
  parts.flatMap fun part => (part.map Shape.spelling).printed

theorem printParts_append (parts others : List (OpaquePart Shape)) :
    printParts (parts ++ others) = printParts parts ++ printParts others :=
  List.flatMap_append

theorem printParts_sourcePart (text : List Char) : printParts (sourcePart text) = text := by
  cases text with
  | nil => rfl
  | cons x text =>
    rw [sourcePart, if_neg (by simp), printParts, List.flatMap_singleton]
    exact String.toList_ofList

def eraseParts (parts : List (OpaquePart Shape)) : List (OpaquePart Shape) :=
  parts.map (·.map (Shape.erase true))

/-- The rest of a kept text, read at another place where it stands: the places are twins, and the same
parts are read. -/
structure Again (ends opened : List Punctuator) (before : Option Token) (text left : List Char)
    (others : List (OpaquePart Shape)) (c c' d' : Cursor) : Prop where
  begins : (c.sight?.bind (·.token)).any Token.beginsTag =
    ((Lexeme.next? left).bind (·.token)).any Token.beginsTag
  twin : Twin ends [] opened before c c'
  front : left = [] ∧ others = [] ∨ ∃ s s', c.sight? = some s ∧ c'.sight? = some s' ∧
    s'.skipped = s.skipped
  reads : ∃ found, Reads (.parts ends opened before text) c' (.parts found) d' ∧
    eraseParts found = eraseParts (sourcePart (text ++ left) ++ others)

section

variable {ends opened : List Punctuator} {before : Option Token} {text : List Char} {c' d' : Cursor}
  {others others' : List (OpaquePart Shape)}

theorem again_end (hends : ends ⊆ closers) (goes : Balance.Goes ⟨opened, before⟩ [] others) (h : others = [])
    (ended : c.endsAt ends = true) (ended' : c'.endsAt ends = true) :
    Again ends opened before text [] [] c c' c' := by
  subst h
  have closed : opened = [] := List.isEmpty_iff.1 (goes.gap rfl)
  subst closed
  refine ⟨beginsTag_of_endsAt hends ended, .stop ended ended', .inl ⟨rfl, rfl⟩, sourcePart text, ?_, by simp⟩
  · obtain nothing | ⟨s, mark, seen, token, hmark⟩ := Cursor.endsAt_cases ended'
    · exact .partsEnd nothing
    · have one : (Token.punctuator mark).isOneOf ends = true := by simpa [Token.isOneOf] using hmark
      refine .partsStop seen ?_
      rw [keptStep_eq token, one]
      rfl

theorem again_take (hends : ends ⊆ closers) {opened' : List Punctuator} (seen : c.sight? = some s)
    (step : keptStep ends opened before s = .take opened') (rest : s.stop.rest = left ++ q) (still : Still q)
    (goes : Balance.Goes ⟨opened, before⟩ (s.skipped ++ (s.text ++ left)) others)
    (across : c'.Over (s.skipped ++ (s.text ++ left) ++ printParts others') d')
    (quiet : Quiet (printParts others' ++ d'.rest))
    (more : ∀ m : Cursor, Balance.Goes ⟨opened', s.token⟩ left others → m.Over (left ++ printParts others') d' →
      Again ends opened' s.token (text ++ s.skipped ++ s.text) left others' s.stop m d') :
    Again ends opened before text (s.skipped ++ (s.text ++ left)) others' c c' d' := by
  have next := next?_of_sight seen rest still fun l hl => (goes.lexeme hl).1
  obtain ⟨whole, lone, opened₂, hstep, goes'⟩ := goes.lexeme next
  cases (brackets_of_take step).symm.trans hstep
  have lexed := Lexeme.next?_before next whole quiet
  rw [← List.append_assoc, ← across.1] at lexed
  obtain ⟨s', seen', token', skipped', text', -⟩ := Cursor.sight?_of_lexeme lexed
  have stands : s'.stop.Over (left ++ printParts others') d' := by
    simp only [← List.append_assoc] at across
    rw [List.append_assoc (s.skipped ++ s.text)] at across
    obtain ⟨m, first, last⟩ := across.split
    obtain ⟨gap, inside⟩ := Cursor.sight?_over seen'
    rw [skipped'] at gap
    rw [text'] at inside
    rwa [(gap.trans inside).unique first]
  have again := more s'.stop goes' stands
  have step' := (keptStep_congr token' (again.twin.tagFollows_eq hends)).trans step
  refine ⟨by rw [seen, next]; rfl,
    .take seen seen' token' hstep (fun _ => List.forall_mem_nil _) (fun less => ?_) again.twin,
    .inr ⟨s, s', seen, seen', skipped'⟩, ?_⟩
  · exact fun starts => again.begins.trans (noTag_of_lone (lone less) starts)
  · obtain ⟨found, read, same⟩ := again.reads
    refine ⟨found, .partsTake seen' step' ?_, ?_⟩
    · rwa [token', skipped', text']
    · simpa only [List.append_assoc] using same

theorem again_markup (hends : ends ⊆ closers) {e e' : Shape} (seen : c.sight? = some s)
    (step : keptStep ends opened before s = .markup) (read : Reads .markup c (.node e) d)
    (goes : Balance.Goes ⟨opened, before⟩ s.skipped (.node e :: others)) (h : RereadMarkup true e')
    (opens : e'.OpensTag)
    (across : c'.Over (s.skipped ++ printParts (.node e' :: (sourcePart left ++ others'))) d')
    (more : ∀ m : Cursor, Balance.closes ⟨opened, some (.punctuator .greater)⟩ others = true →
      m.Over (left ++ printParts others') d' →
      Again ends opened (some (.punctuator .greater)) [] left others' d m d') :
    Again ends opened before text s.skipped (.node e' :: (sourcePart left ++ others')) c c' d' := by
  obtain ⟨token, free, follows⟩ := tag_of_markup step
  have closes := (Bool.and_eq_true_iff.1 (goes.gap (next?_skipped seen))).2
  have hprint : printParts (.node e' :: (sourcePart left ++ others')) =
      e'.print ++ (left ++ printParts others') := by
    rw [← printParts_sourcePart left, ← printParts_append, printParts_sourcePart]
    rfl
  rw [hprint, ← List.append_assoc] at across
  obtain ⟨m, first, rest⟩ := across.split
  have blank := blank_of_sight seen
  obtain ⟨e'', read', same⟩ := h.2 blank first
  obtain ⟨s', less'⟩ := less_of_markup read'
  obtain ⟨skipped', follows'⟩ := follows_of_opensTag opens blank first less'
  obtain ⟨seen', token'⟩ := Cursor.mark?_eq_some.1 less'
  have again := more m closes rest
  have less := Cursor.mark?_eq_some.2 ⟨seen, token⟩
  refine ⟨?_, .markup less less' free follows follows' read read' again.twin,
    .inr ⟨s, s', seen, seen', skipped'⟩, ?_⟩
  · rw [seen, next?_skipped seen, Option.bind_some, token]
    rfl
  · obtain ⟨found, reads, agree⟩ := again.reads
    refine ⟨_, .partsMarkup seen' (keptStep_of_tag hends token' free follows') read' reads, ?_⟩
    rw [skipped']
    simp only [eraseParts, List.map_append, List.map_cons] at agree ⊢
    rw [agree, OpaquePart.map, same]
    rfl

theorem alike_source {parts : List (OpaquePart Shape)}
    (h : parts.map (·.map fun _ => ()) =
      (sourcePart left ++ others : List (OpaquePart Shape)).map (·.map fun _ => ())) :
    ∃ others', parts = sourcePart left ++ others' ∧
      others'.map (·.map fun _ => ()) = others.map (·.map fun _ => ()) := by
  cases left with
  | nil => exact ⟨parts, rfl, h⟩
  | cons x left =>
    obtain ⟨part, others', rfl, hpart, hothers⟩ := List.map_eq_cons_iff.1 h
    cases part with
    | source text => exact ⟨others', congrArg (· :: others') (by cases hpart; rfl), hothers⟩
    | node e => cases hpart

theorem quiet_parts {q : List Char} (no : NoSource others)
    (alike : others'.map (·.map fun _ => ()) = others.map (·.map fun _ => ()))
    (markup : ∀ child ∈ others'.filterMap (·.child?), RereadMarkup true child ∧ child.OpensTag) (quiet : Quiet q) :
    Quiet (printParts others' ++ q) := by
  cases others with
  | nil =>
    cases List.map_eq_nil_iff.1 alike
    exact quiet
  | cons part others =>
    cases part with
    | source text => exact absurd rfl (no text others)
    | node e =>
      obtain ⟨part', parts', rfl, hpart, -⟩ := List.map_eq_cons_iff.1 alike
      cases part' with
      | source text => cases hpart
      | node e' =>
        obtain ⟨⟨tail, htail⟩, -⟩ := (markup e' List.mem_cons_self).1
        change Quiet (e'.print ++ printParts parts' ++ q)
        rw [htail]
        exact .cons (by decide)

/-- Where the rest of a kept text goes through, it is read again before another end. The induction is on
what is read of it in the source. -/
theorem parts_again (hends : ends ⊆ closers) {found : List (OpaquePart Shape)}
    (h : Reads (.parts ends opened before text) c (.parts found) d) (ended : d.endsAt ends = true)
    (parts : found = sourcePart (text ++ left) ++ others) (no : NoSource others)
    (goes : Balance.Goes ⟨opened, before⟩ left others)
    (alike : others'.map (·.map fun _ => ()) = others.map (·.map fun _ => ()))
    (markup : ∀ child ∈ others'.filterMap (·.child?), RereadMarkup true child ∧ child.OpensTag)
    (across : c'.Over (left ++ printParts others') d') (quiet : Quiet d'.rest) (ended' : d'.endsAt ends = true) :
    Again ends opened before text left others' c c' d' := by
  generalize hphrase : Phrase.parts ends opened before text = phrase at h
  generalize hanswer : Answer.parts found = answer at h
  induction h generalizing opened before text left found others others' c' with
  | partsEnd | partsStop =>
    cases hphrase
    cases hanswer
    obtain ⟨htext, rfl⟩ := sourcePart_inj ((List.append_nil _).trans parts) noSource_nil no
    cases List.self_eq_append_right.1 htext
    cases List.map_eq_nil_iff.1 alike
    cases across.nil
    exact again_end hends goes rfl ended ended'
  | @partsTake _ _ opened' _ _ _ _ s _ seen step read ih =>
    cases hphrase
    cases hanswer
    obtain ⟨left', others₂, q, hfound, no', rest, after⟩ := parts_front read
    obtain ⟨htext, rfl⟩ := sourcePart_inj (hfound.symm.trans parts) no' no
    simp only [List.append_assoc, List.append_cancel_left_eq] at htext
    subst htext
    have still : Still q := by
      obtain rfl | hq := after
      · exact still_of_closers ended hends
      · obtain ⟨q', rfl⟩ := List.head?_eq_some_iff.1 hq
        exact (Quiet.cons (by decide)).still
    refine again_take hends seen step rest still goes across (quiet_parts no alike markup quiet) ?_
    exact fun m goes' across' => ih ended hfound no' goes' alike markup across' rfl rfl
  | @partsMarkup _ _ _ _ _ _ _ s e others₀ seen step read more _ ih =>
    cases hphrase
    cases hanswer
    obtain ⟨htext, hothers⟩ := sourcePart_inj parts (noSource_node e others₀) no
    cases List.append_cancel_left htext
    subst hothers
    obtain ⟨left', others₂, q, hfound, no', rest, after⟩ := parts_front more
    rw [List.nil_append] at hfound
    obtain ⟨part, parts', rfl, hpart, hparts⟩ := List.map_eq_cons_iff.1 alike
    cases part with
    | source text => cases hpart
    | node e' =>
      rw [hfound] at hparts
      obtain ⟨others₂', rfl, alike'⟩ := alike_source hparts
      obtain ⟨reread, opens⟩ := markup e' List.mem_cons_self
      refine again_markup hends seen step read goes reread opens across fun m closes across' => ?_
      refine ih ended hfound no' (Balance.goes_of_closes (hfound ▸ closes)) alike' ?_ across' rfl rfl
      intro child hc
      refine markup child (List.mem_cons_of_mem e' ?_)
      rw [List.filterMap_append]
      exact List.mem_append_right _ hc
  | _ => cases hphrase

end

theorem structured_not_kept {span : Option Span} {found : List (OpaquePart Shape)} :
    ¬ Reads .structured c (.node (.node span (.opaqueText found))) d := by
  intro h
  generalize hanswer : Answer.node (.node span (.opaqueText found)) = answer at h
  cases h with
  | leaf seen h made =>
    cases hanswer
    cases made with
    | plain h =>
      rename_i token _
      cases token with
      | keyword word => cases word <;> cases h
      | _ => cases h
  | structuredMarkup seen read =>
    cases read with
    | markup read => cases read <;> cases hanswer
  | structuredParenthesized seen read => cases read <;> cases hanswer
  | @listing _ _ _ _ l => cases l <;> cases hanswer
  | _ => cases hanswer

section

variable {ends : List Punctuator} {parts : List (OpaquePart Shape)} {gap : List Char} {c' d' : Cursor}

theorem sight?_over_blank {m : Cursor} {t : Sight} (blank : Blank gap) (across : c'.Over gap m)
    (seen : m.sight? = some t) (front : t.skipped = []) :
    ∃ s', c'.sight? = some s' ∧ s'.start = m := by
  obtain ⟨l, hl, rfl⟩ := Option.map_eq_some_iff.1 seen
  have lexed := Lexeme.next?_blank blank m.rest
  rw [hl, ← across.1] at lexed
  obtain ⟨s', seen', -, skipped, -⟩ := Cursor.sight?_of_lexeme lexed
  refine ⟨s', seen', ?_⟩
  have nothing : l.skipped = [] := front
  have before := (Cursor.sight?_over seen').1
  simp only [skipped, nothing, List.append_nil] at before
  exact before.unique across

/-- A kept text that goes through is kept again before another end: what is tried first fails in the same
way. -/
theorem kept_again (hends : ends ⊆ closers) (kept : KeptFrom ends (parts.map (·.map fun _ => ())) c d)
    (closes : Balance.closes ⟨[], none⟩ parts = true)
    (markup : ∀ child ∈ parts.filterMap (·.child?), RereadMarkup true child ∧ child.OpensTag)
    (span : Option Span) (blank : Blank gap) (quiet : Quiet d'.rest) (ended' : d'.endsAt ends = true)
    (across : c'.Over (gap ++ printParts parts) d') :
    c.endsAt ends = false ∧ Twin ends [] [] none c c' ∧
      ∃ e', Reads (.expression ends) c' (.node e') d' ∧ Same true e' (.node span (.opaqueText parts)) := by
  obtain ⟨span', found, read, ended, alike⟩ := kept
  have attempted : ∃ a m, Reads .structured c a m ∧ (a = .other ∨ ∃ e, a = .node e ∧ m.endsAt ends = false) ∧
      Reads (.kept ends) c (.node (.node span' (.opaqueText found))) d := by
    cases read with
    | structuredExpression attempt => exact (structured_not_kept attempt).elim
    | keptOther attempt kept => exact ⟨_, _, attempt, .inl rfl, kept⟩
    | keptUnended attempt going kept => exact ⟨_, _, attempt, .inr ⟨_, rfl, going⟩, kept⟩
  obtain ⟨a, m, attempted, failed, kept⟩ := attempted
  have going := kept_going kept
  cases kept with
  | @kept _ _ _ s _ seen inside filled =>
    obtain ⟨left, others, q, hfound, no, rest, after⟩ := parts_front inside
    rw [List.nil_append] at hfound
    rw [← Balance.closes_map fun _ => (), ← alike, Balance.closes_map, hfound] at closes
    obtain ⟨others', rfl, alike'⟩ := alike_source (hfound ▸ alike.symm)
    rw [printParts_append, printParts_sourcePart] at across
    obtain ⟨m', before, stands⟩ := across.split
    have markup' : ∀ child ∈ others'.filterMap (·.child?), RereadMarkup true child ∧ child.OpensTag := by
      intro child hc
      refine markup child ?_
      rw [List.filterMap_append]
      exact List.mem_append_right _ hc
    have again := parts_again hends inside ended hfound no (Balance.goes_of_closes closes) alike' markup'
      stands quiet ended'
    obtain ⟨rfl, rfl⟩ | ⟨t, t', seen₁, seen₁', skipped⟩ := again.front
    · exact absurd (List.map_eq_nil_iff.1 alike) filled
    · cases (Cursor.sight?_start seen).symm.trans seen₁
      obtain ⟨s', seen', rfl⟩ := sight?_over_blank blank before seen₁' skipped
      have twin := again.twin.of_start seen seen'
      have at' : Attempt ends [] [] .structured c .structured c' := .structured twin (.inl rfl) fun _ => going
      obtain ⟨found', read', same⟩ := again.reads
      have filled' : found' ≠ [] := by
        rintro rfl
        have nothing : sourcePart left ++ others' = [] := List.map_eq_nil_iff.1 same.symm
        rw [nothing] at alike
        exact filled (List.map_eq_nil_iff.1 alike)
      have kept' := Reads.kept seen' read' filled'
      have agreed : Same true (shapeAt (.opaqueText found') s'.start.pos d'.pos)
          (.node span (.opaqueText (sourcePart left ++ others'))) :=
        .node (congrArg NodeKind.opaqueText same)
      refine ⟨going, twin, ?_⟩
      obtain rfl | ⟨e, rfl, unended⟩ := failed
      · obtain ⟨_, attempt'⟩ := (matched hends attempted).other at'
        exact ⟨_, .keptOther attempt' kept', agreed⟩
      · obtain ⟨_, _, _, attempt', more⟩ := (matched hends attempted).node at'
        have unended' := (more.endsAt (fun _ => unended) ends).trans unended
        exact ⟨_, .keptUnended attempt' unended' kept', agreed⟩

end

theorem print_opaqueText (span : Option Span) (parts : List (OpaquePart Shape)) :
    (Shape.node span (.opaqueText parts)).print = printParts parts := by
  rw [Shape.print_node, NodeKind.map, NodeKind.printed, List.flatMap_map]
  rfl

end Printer

open Printer

theorem rereadsKept_of_closes {m : Manner} (h : ∀ site parts, m.keeps site parts →
    KeptInSource site parts ∧ Balance.closes ⟨[], none⟩ parts = true) : RereadsKept m := by
  intro site r span parts keeps text markup
  obtain ⟨source, closes⟩ := h site _ keeps
  rw [Balance.closes_map] at closes
  cases site with
  | expression ends =>
    obtain ⟨hends, c, d, kept⟩ := source
    intro gap c' d' blank quiet ended across
    rw [text, print_opaqueText] at across
    obtain ⟨going, twin, again⟩ := kept_again hends kept closes markup span blank quiet ended across
    exact ⟨(twin.endsAt (fun _ => going) ends).trans going, text ▸ again⟩
  | item =>
    obtain ⟨c, d, token, seen, plain, kept⟩ := source
    intro gap c' d' blank quiet separated across
    rw [text, print_opaqueText] at across
    have ended : d'.endsAt Listing.array.ends = true := endsAt_of_separator separated
    obtain ⟨going, twin, e, read, same⟩ :=
      kept_again (listing_closes .array) kept closes markup span blank quiet ended across
    obtain ⟨s, hs, htoken⟩ := Option.bind_eq_some_iff.1 seen
    obtain ⟨s', seen', token'⟩ := twin.sight (fun _ => going) hs
    have going' := (twin.endsAt (fun _ => going) Listing.array.ends).trans going
    refine ⟨s', token, e, seen', token'.trans htoken, ?_, .element plain (.innerSome going' read), text ▸ same⟩
    rintro rfl
    rw [Cursor.endsAt_of_mark (Cursor.mark?_eq_some.2 ⟨seen', token'.trans htoken⟩) (by decide)] at going'
    cases going'
  | content =>
    obtain ⟨c, d, plain, kept⟩ := source
    intro c' d' quiet ended across
    rw [text, print_opaqueText, ← List.nil_append (printParts parts)] at across
    obtain ⟨going, twin, e, read, same⟩ :=
      kept_again (singleton_closes (by decide)) kept closes markup span .nil quiet ended across
    have going' := (twin.endsAt (fun _ => going) [.closeBrace]).trans going
    exact ⟨Cursor.mark?_eq_none_of_endsAt going' (List.mem_singleton.2 rfl), e,
      .containerExpression (twin.mark_none (fun _ => going) plain) read, text ▸ same⟩
  | _ => exact source.elim

end MarkupEditor
