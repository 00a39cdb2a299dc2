import MarkupEditor.Markup.Tokens
import MarkupEditor.Proofs.Parser.Termination

set_option autoImplicit false

namespace MarkupEditor

open Text Lexer

namespace Lexer

/-- Blanks and complete comments. A line comment reaches as far as its line, so it can only come last at the end of
the source. -/
inductive Trivia (atEnd : Bool) : List Char → Prop where
  | nil : Trivia atEnd []
  | blank {c : Char} {cs : List Char} (blank : isTokenBlank c = true) (more : Trivia atEnd cs) :
    Trivia atEnd (c :: cs)
  | line {comment cs : List Char} (inLine : '\n' ∉ comment) (more : Trivia atEnd cs) :
    Trivia atEnd ('/' :: '/' :: (comment ++ '\n' :: cs))
  | lastLine {comment : List Char} (last : atEnd = true) (inLine : '\n' ∉ comment) :
    Trivia atEnd ('/' :: '/' :: comment)
  | block {comment cs : List Char} (unclosed : ¬ ['*', '/'] <:+: comment) (more : Trivia atEnd cs) :
    Trivia atEnd ('/' :: '*' :: (comment ++ '*' :: '/' :: cs))

def Gap.opening : Gap → List Char
  | .between => []
  | .lineComment => ['/', '/']
  | .blockComment => ['/', '*']

section

variable {atEnd : Bool} {c : Char} {cs comment : List Char}

theorem Trivia.line_cons (h : Trivia atEnd ('/' :: '/' :: cs)) (hc : c ≠ '\n') :
    Trivia atEnd ('/' :: '/' :: c :: cs) := by
  cases h with
  | blank blank => exact absurd blank (by decide)
  | @line comment tail inLine more =>
    have inLine' : '\n' ∉ c :: comment := by simp [inLine, hc.symm]
    exact .line inLine' more
  | lastLine last inLine =>
    have inLine' : '\n' ∉ c :: cs := by simp [inLine, hc.symm]
    exact .lastLine last inLine'

theorem unclosed_cons (h : ¬ ['*', '/'] <:+: comment) (apart : c = '*' → comment.head? ≠ some '/') :
    ¬ ['*', '/'] <:+: c :: comment := by
  intro found
  rcases List.infix_cons_iff.1 found with ⟨rest, front⟩ | later
  · cases front
    exact apart rfl rfl
  · exact h later

theorem Trivia.block_cons (h : Trivia atEnd ('/' :: '*' :: cs)) (apart : c = '*' → cs.head? ≠ some '/') :
    Trivia atEnd ('/' :: '*' :: c :: cs) := by
  cases h with
  | blank blank => exact absurd blank (by decide)
  | @block comment tail unclosed more =>
    refine .block (unclosed_cons unclosed ?_) more
    intro star
    cases comment with
    | nil => simp
    | cons x comment => exact apart star

theorem trivia_skip (gap : Gap) (cs : List Char) (closed : gap = .blockComment → closesComment cs = true)
    (last : (skip gap cs).2 = [] → atEnd = true) : Trivia atEnd (gap.opening ++ (skip gap cs).1) := by
  fun_induction skip gap cs with
  | case1 gap =>
    cases gap with
    | between => exact .nil
    | lineComment => exact .lastLine (last rfl) (by simp)
    | blockComment => cases closed rfl
  | case2 c blank => exact .blank blank .nil
  | case3 c blank => exact .nil
  | case4 c d cs blank ih => exact .blank blank (ih (by simp) last)
  | case5 c d cs blank slashes ih =>
    obtain ⟨rfl, rfl⟩ := slashes
    exact ih (by simp) last
  | case6 c d cs blank slashes opened ih =>
    obtain ⟨rfl, rfl, closes⟩ := opened
    exact ih (fun _ => closes) last
  | case7 c d cs => exact .nil
  | case8 cs ih => exact @Trivia.line _ [] _ (by simp) (ih (by simp) last)
  | case9 c cs ends ih => exact (ih (by simp) last).line_cons ends
  | case10 c => cases closed rfl
  | case11 c d cs ends ih =>
    obtain ⟨rfl, rfl⟩ := ends
    exact @Trivia.block _ [] _ (by simp) (ih (by simp) last)
  | case12 c d cs ends ih =>
    have closes := closed rfl
    have ends' : (c == '*' && d == '/') = false := by simpa using ends
    rw [closesComment, ends', Bool.false_or] at closes
    refine (ih (fun _ => closes) last).block_cons ?_
    intro star
    obtain ⟨tail, htail⟩ := skip_comment_head d cs
    simpa [Gap.opening, htail, star] using ends

theorem skip_inLine (inLine : '\n' ∉ comment) :
    (skip .lineComment (comment ++ cs)).2 = (skip .lineComment cs).2 := by
  induction comment with
  | nil => rfl
  | cons x comment ih =>
    simp only [List.mem_cons, not_or] at inLine
    rw [List.cons_append, skip, if_neg (Ne.symm inLine.1)]
    exact ih inLine.2

theorem skip_unclosed (unclosed : ¬ ['*', '/'] <:+: comment) :
    closesComment (comment ++ '*' :: '/' :: cs) = true ∧
      (skip .blockComment (comment ++ '*' :: '/' :: cs)).2 = (skip .between cs).2 := by
  induction comment with
  | nil => simp [closesComment, skip, pass]
  | cons x comment ih =>
    obtain ⟨closes, rest⟩ := ih fun found => unclosed (List.infix_cons found)
    obtain ⟨y, ys, hy⟩ : ∃ y ys, comment ++ '*' :: '/' :: cs = y :: ys := by cases comment <;> simp
    have apart : ¬ (x = '*' ∧ y = '/') := by
      rintro ⟨rfl, rfl⟩
      cases comment with
      | nil => cases hy
      | cons z comment =>
        cases hy
        exact unclosed ⟨[], comment, rfl⟩
    rw [hy] at closes rest
    rw [List.cons_append, hy, closesComment, closes, Bool.or_true, skip, if_neg apart]
    exact ⟨rfl, rest⟩

theorem skip_line (cs : List Char) :
    skip .between ('/' :: '/' :: cs) = pass '/' (pass '/' (skip .lineComment cs)) := by
  have slash : isTokenBlank '/' = false := by decide
  simp [skip, slash]

theorem skip_block (closes : closesComment cs = true) :
    skip .between ('/' :: '*' :: cs) = pass '/' (pass '*' (skip .blockComment cs)) := by
  have slash : isTokenBlank '/' = false := by decide
  simp [skip, slash, closes]

theorem skip_trivia (h : Trivia true cs) : (skip .between cs).2 = [] := by
  induction h with
  | nil => rfl
  | blank blank _ ih =>
    rw [skip_blank blank]
    exact ih
  | line inLine _ ih =>
    rw [skip_line]
    change (skip .lineComment _).2 = []
    rw [skip_inLine inLine, skip, if_pos rfl]
    exact ih
  | lastLine _ inLine =>
    have ends : (skip .lineComment (_ ++ [])).2 = (skip .lineComment []).2 := skip_inLine inLine
    rw [List.append_nil] at ends
    rw [skip_line]
    exact ends
  | block unclosed _ ih =>
    obtain ⟨closes, rest⟩ := skip_unclosed unclosed
    rw [skip_block closes]
    exact rest.trans ih

end

end Lexer

namespace Lexeme

variable {cs : List Char} {l : Lexeme}

theorem next?_eq_none_iff : next? cs = none ↔ Trivia true cs := by
  have all := skip_append .between cs
  constructor
  · intro none
    have trivia : Trivia true _ := trivia_skip .between cs (by simp) fun _ => rfl
    unfold next? at none
    split at none
    · rename_i skipped nothing
      rw [nothing, List.append_nil] at all
      rw [nothing] at trivia
      exact all ▸ trivia
    · cases none
  · intro trivia
    have nothing := skip_trivia trivia
    unfold next?
    split
    · rfl
    · rename_i filled
      rw [filled] at nothing
      cases nothing

theorem trivia_skipped (h : next? cs = some l) : Trivia false l.skipped := by
  unfold next? at h
  split at h
  · cases h
  · rename_i skipped c rest filled
    cases h
    have trivia : Trivia false _ := trivia_skip .between cs (by simp) (by simp [filled])
    rw [filled] at trivia
    rw [first_skipped]
    exact trivia

end Lexeme

/-- A lexeme as it is found from a byte offset of a source: after trivia it is a slice of the source between two
characters each, and a token is spelled there. -/
structure Lexed.From (source : String) (offset : Nat) (lexed : Lexed) : Prop where
  after : offset ≤ lexed.span.start
  filled : lexed.span.start < lexed.span.stop
  inside : lexed.span.stop ≤ byteLength source.toList
  gap : ∃ gap, Span.slice? source.toList ⟨offset, lexed.span.start⟩ = some gap ∧ Trivia false gap
  text : ∃ text, Span.slice? source.toList lexed.span = some text ∧
    ∀ token, lexed.token = some token → token.text.toList = text

/-- What is found when the next token is asked for at a byte offset and again at the end of each span, until none is
left. -/
inductive Repeats (source : String) : Nat → List Lexed → Prop where
  | done {offset : Nat} (cut : splitAtByte source.toList offset ≠ none) (none : nextToken? source offset = none) :
    Repeats source offset []
  | next {offset : Nat} {lexed : Lexed} {found : List Lexed} (next : nextToken? source offset = some lexed)
    (more : Repeats source lexed.span.stop found) : Repeats source offset (lexed :: found)

section

variable {source : String} {offset : Nat} {front rest : List Char} {c : Cursor} {s : Sight}

theorem nextToken?_of_before (place : (⟨source.toList, 0⟩ : Cursor).Before c) :
    nextToken? source c.pos = c.sight?.map Sight.lexed := by
  obtain ⟨front, cut⟩ := Parser.splitAtByte_of_before place
  rw [nextToken?, cut]
  rfl

theorem before_of_splitAtByte (cut : splitAtByte source.toList offset = some (front, rest)) :
    (⟨source.toList, 0⟩ : Cursor).Before ⟨rest, offset⟩ := by
  obtain ⟨all, length⟩ := splitAtByte_sound cut
  exact ⟨front, all, by simp only [length, Nat.zero_add]⟩

theorem lexed_from (place : (⟨source.toList, 0⟩ : Cursor).Before c) (seen : c.sight? = some s) :
    s.lexed.From source c.pos := by
  obtain ⟨passed, spelled⟩ := Cursor.sight?_over seen
  have start := place.trans (Cursor.before_start seen)
  have stop := place.trans (Cursor.before_stop seen)
  obtain ⟨lexeme, next, rfl⟩ := Option.map_eq_some_iff.1 seen
  constructor
  · exact (Cursor.before_start seen).pos_le
  · exact Cursor.start_lt_stop seen
  · have same := stop.sourceEnd
    simp only [Cursor.sourceEnd] at same
    simp only [Sight.lexed, Sight.span]
    omega
  · obtain ⟨front, across⟩ := place
    exact ⟨_, Cursor.Over.slice? across passed, Lexeme.trivia_skipped next⟩
  · obtain ⟨front, across⟩ := start
    refine ⟨_, Cursor.Over.slice? across spelled, ?_⟩
    intro token htoken
    rw [Cursor.text_of_token seen htoken, String.toList_ofList]

theorem repeats_lexemes (place : (⟨source.toList, 0⟩ : Cursor).Before c) :
    Repeats source c.pos (laidOut c.pos (lexemes c.rest)) := by
  induction n : c.rest.length using Nat.strongRecOn generalizing c with
  | ind n ih =>
    subst n
    have found := nextToken?_of_before place
    cases next : Lexeme.next? c.rest with
    | none =>
      rw [Cursor.sight?, next] at found
      obtain ⟨front, cut⟩ := Parser.splitAtByte_of_before place
      rw [lexemes_nil next]
      exact .done (by simp [cut]) found
    | some l =>
      have seen : c.sight? = some _ := congrArg (Option.map _) next
      rw [seen] at found
      rw [lexemes_cons next]
      exact .next found (ih _ (next?_length next) (place.trans (Cursor.before_stop seen)) rfl)

end

/-- Lexing loses nothing and always advances. From an offset between two characters there is no lexeme just if
nothing but trivia is left, and otherwise one that stands after trivia. Asking for the next one again comes to an
end, and what was found are the tokens of the source. -/
theorem tokens_lossless (source : String) :
    (∀ offset front rest, splitAtByte source.toList offset = some (front, rest) →
      (nextToken? source offset = none ↔ Trivia true rest) ∧
      ∀ lexed, nextToken? source offset = some lexed → lexed.From source offset) ∧
    ∃ found, Repeats source 0 found ∧
      found.filterMap (fun lexed => lexed.token.map (·, lexed.span)) = tokenize source := by
  constructor
  · intro offset front rest cut
    have place := before_of_splitAtByte cut
    have next := nextToken?_of_before place
    change nextToken? source offset = _ at next
    constructor
    · rw [next, Option.map_eq_none_iff, Cursor.sight?, Option.map_eq_none_iff]
      exact Lexeme.next?_eq_none_iff
    · intro lexed found
      rw [next] at found
      obtain ⟨s, seen, rfl⟩ := Option.map_eq_some_iff.1 found
      exact lexed_from place seen
  · exact ⟨_, repeats_lexemes (.refl _), rfl⟩

/-- After a character that no token matches the next token stands behind a line comment, and a string that breaks off
is left out. -/
theorem tokens_lossless_mixed :
    let source := "a /*b*/ é // c\nx \"d"
    splitAtByte source.toList 10 = some ("a /*b*/ é".toList, " // c\nx \"d".toList) ∧
      nextToken? source 10 = some ⟨some (.identifier "x"), 16, 17⟩ ∧
      Lexed.From source 10 ⟨some (.identifier "x"), 16, 17⟩ ∧
      ∃ found, Repeats source 0 found ∧ found.filterMap (fun lexed => lexed.token.map (·, lexed.span)) =
        [(.identifier "a", ⟨0, 1⟩), (.identifier "x", ⟨16, 17⟩)] := by
  intro source
  have cut : splitAtByte source.toList 10 = some ("a /*b*/ é".toList, " // c\nx \"d".toList) := by decide +kernel
  have next : nextToken? source 10 = some ⟨some (.identifier "x"), 16, 17⟩ := by decide +kernel
  have tokens : tokenize source = [(.identifier "a", ⟨0, 1⟩), (.identifier "x", ⟨16, 17⟩)] := by decide +kernel
  obtain ⟨lossless, found, repeats, same⟩ := tokens_lossless source
  exact ⟨cut, next, (lossless _ _ _ cut).2 _ next, found, repeats, same.trans tokens⟩

end MarkupEditor
