import MarkupEditor.Proofs.Parser.Refusals
import MarkupEditor.Proofs.Parser.Termination
import MarkupEditor.Text.Split

set_option autoImplicit false

namespace MarkupEditor

open Text

namespace Text

/-- A place of a text stands in a piece of it: in front of the place are the earlier pieces, each with its
cut, and the front of that piece. -/
theorem splitAll_append (cut : Char) (before after : List Char) :
    ∃ earlier front back later,
      splitAll cut (before ++ after) = earlier ++ (front ++ back) :: later ∧
      before = earlier.flatMap (· ++ [cut]) ++ front ∧ cut ∉ front ∧ earlier.length = before.count cut := by
  induction before with
  | nil =>
    obtain ⟨back, later, split⟩ := List.exists_cons_of_ne_nil (splitAll_ne_nil cut after)
    exact ⟨[], [], back, later, split, rfl, List.not_mem_nil, rfl⟩
  | cons c before ih =>
    obtain ⟨earlier, front, back, later, split, rfl, whole, count⟩ := ih
    rw [List.cons_append, splitAll, split]
    by_cases same : c = cut
    · subst same
      exact ⟨[] :: earlier, front, back, later, if_pos rfl, rfl, whole, by simp [count]⟩
    · rw [if_neg same, List.count_cons_of_ne same]
      cases earlier with
      | nil => exact ⟨[], c :: front, back, later, rfl, rfl, by simp [Ne.symm same, whole], count⟩
      | cons piece earlier => exact ⟨(c :: piece) :: earlier, front, back, later, rfl, rfl, whole, count⟩

end Text

def sourceLines (source : List Char) : List (List Char) :=
  splitAll '\n' source

/-- The byte offset of a character of a line, both counted from zero: the earlier lines, each with the line
feed after it, and the earlier characters of the line. -/
def offsetAt (source : List Char) (line column : Nat) : Nat :=
  byteLength (((sourceLines source).take line).flatMap (· ++ ['\n'])) +
    byteLength ((((sourceLines source)[line]?).getD []).take column)

namespace ParseError

theorem before_append (front rest : List Char) : before (front ++ rest) (byteLength front) = front := by
  have inside : byteLength front ≤ byteLength (front ++ rest) := by simp
  rw [before, Nat.min_eq_left inside, splitAtByte_append]

theorem lineColumnAfter_append {earlier : List Char} {front : List Char} (whole : '\n' ∉ front)
    (h : earlier = [] ∨ earlier.getLast? = some '\n') :
    lineColumnAfter (earlier ++ front) = ((earlier ++ front).count '\n' + 1, front.length + 1) := by
  have plain : ∀ x ∈ front.reverse, (x != '\n') = true := fun x hx => by
    rw [bne_iff_ne]
    exact fun same => whole (same ▸ List.mem_reverse.1 hx)
  have stop : earlier.reverse.takeWhile (· != '\n') = [] := by
    rcases h with rfl | last
    · rfl
    · obtain ⟨others, rfl⟩ := List.getLast?_eq_some_iff.1 last
      rw [List.reverse_append]
      rfl
  rw [lineColumnAfter, List.reverse_append, List.takeWhile_append_of_pos plain, stop, List.append_nil,
    List.length_reverse]

theorem last_of_flatMap (earlier : List (List Char)) (cut : Char) :
    earlier.flatMap (· ++ [cut]) = [] ∨ (earlier.flatMap (· ++ [cut])).getLast? = some cut := by
  induction earlier using List.reverseRecOn with
  | nil => exact .inl rfl
  | append_singleton earlier piece _ =>
    right
    rw [List.flatMap_append, List.flatMap_singleton, ← List.append_assoc, List.getLast?_concat]

/-- The line and the column of a place of a source: the source has that line, the characters before the column
stand between the last line feed and the place, and the byte offset of the column is that of the place. -/
theorem lineColumnAfter_spec (front rest : List Char) :
    ∃ line column first back, lineColumnAfter front = (line + 1, column + 1) ∧
      (sourceLines (front ++ rest))[line]? = some (first ++ back) ∧ first.length = column ∧
      first <:+ front ∧ offsetAt (front ++ rest) line column = byteLength front := by
  obtain ⟨earlier, first, back, later, split, hfront, whole, count⟩ := splitAll_append '\n' front rest
  have place : (sourceLines (front ++ rest))[earlier.length]? = some (first ++ back) := by
    rw [sourceLines, split, List.getElem?_append_right (Nat.le_refl _), Nat.sub_self]
    rfl
  refine ⟨earlier.length, first.length, first, back, ?_, place, rfl, ⟨_, hfront.symm⟩, ?_⟩
  · conv_lhs => rw [hfront]
    rw [lineColumnAfter_append whole (last_of_flatMap earlier '\n'), ← hfront, count]
  · rw [offsetAt, place, sourceLines, split, List.take_left, Option.getD_some, List.take_left,
      ← byteLength_append, ← hfront]

end ParseError

namespace Parser

theorem refused_of_parse {source : String} {error : ParseError} (h : parse source = .error error) :
    program nested (depthFor source.toList) ⟨⟨source.toList, 0⟩, ()⟩ = .error (.refused error) := by
  have agrees := parseWith_agrees true source.toList
  rcases program_nested source.toList with ⟨refusal, hr⟩ | ⟨body, d, -, hr⟩ <;> rw [hr] at agrees
  · rw [hr, Except.error.inj (agrees.symm.trans h)]
  · obtain ⟨t, ht, -⟩ := agrees
    cases h.symm.trans ht

theorem points_of_parse {source : String} {error : ParseError} (h : parse source = .error error) :
    Points ⟨source.toList, 0⟩ error := by
  have statements : Located ⟨source.toList, 0⟩ (depthFor source.toList) .statements ⟨source.toList, 0⟩ :=
    located _ _ _ trivial (.refl _)
  have whole : Locates ⟨source.toList, 0⟩ (program nested (depthFor source.toList)) ⟨source.toList, 0⟩ :=
    Locates.bind statements fun body d place => .here (.pure place)
  unfold Locates Concludes at whole
  rw [refused_of_parse h] at whole
  exact whole

theorem Points.within {source : List Char} {error : ParseError} (h : Points ⟨source, 0⟩ error) :
    error.span.start ≤ error.span.stop ∧ error.span.stop ≤ byteLength source := by
  obtain ⟨d, e, ⟨front, across⟩, ⟨inside, across'⟩, hspan⟩ := h
  have start : error.span.start = byteLength front := by
    rw [hspan, across.2, Nat.zero_add]
  have whole : source = front ++ d.rest := across.1
  have rest : d.rest = inside ++ e.rest := across'.1
  have stop : error.span.stop = byteLength front + byteLength inside := by
    rw [hspan, across'.2, across.2, Nat.zero_add]
  refine ⟨by omega, ?_⟩
  rw [stop, whole, rest, byteLength_append, byteLength_append]
  omega

end Parser

open MarkupEditor.Parser

/-- Where a source is refused: the span of the error is a slice of the source, and its line and its column
are those of the character at which that slice starts. The source has that line, and the line has all the
characters before the column. -/
theorem parse_error_place (source : String) (error : ParseError) (h : parse source = .error error) :
    (error.span.start ≤ error.span.stop ∧ error.span.stop ≤ byteLength source.toList ∧
      ∃ text, error.span.slice? source.toList = some text) ∧
    ∃ line column text, error.lineColumn source.toList = (line + 1, column + 1) ∧
      (sourceLines source.toList)[line]? = some text ∧ column ≤ text.length ∧
      offsetAt source.toList line column = error.span.start := by
  obtain ⟨ordered, fits⟩ := (points_of_parse h).within
  obtain ⟨d, e, ⟨front, across⟩, ⟨inside, across'⟩, hspan⟩ := points_of_parse h
  have start : error.span.start = byteLength front := by
    rw [hspan, across.2, Nat.zero_add]
  have whole : source.toList = front ++ d.rest := across.1
  refine ⟨⟨ordered, fits, inside, ?_⟩, ?_⟩
  · rw [hspan]
    exact Cursor.Over.slice? ⟨across.1, across.2⟩ across'
  · rw [ParseError.lineColumn, start, whole, ParseError.before_append]
    obtain ⟨line, column, first, back, told, place, rfl, -, offset⟩ :=
      ParseError.lineColumnAfter_spec front d.rest
    exact ⟨line, first.length, first ++ back, told, place, by simp, offset⟩

def refusal? (source : String) : Option ParseError :=
  match parse source with
  | .ok _ => none
  | .error error => some error

theorem refusal?_eq_some {source : String} {error : ParseError} :
    refusal? source = some error ↔ parse source = .error error := by
  unfold refusal?
  cases parse source with
  | ok t => simp
  | error found => simp

/-- A closing tag on the second line, after two characters of three bytes each. -/
theorem parse_error_place_wide :
    let source := "<p>\n日本<b></q></p>"
    let error := ParseError.mismatchedClosingTag ⟨13, 17⟩ "b" "q"
    parse source = .error error ∧ error.lineColumn source.toList = (1 + 1, 5 + 1) ∧
      (error.span.start ≤ error.span.stop ∧ error.span.stop ≤ byteLength source.toList ∧
        ∃ text, error.span.slice? source.toList = some text) ∧
      ∃ line column text, error.lineColumn source.toList = (line + 1, column + 1) ∧
        (sourceLines source.toList)[line]? = some text ∧ column ≤ text.length ∧
        offsetAt source.toList line column = error.span.start := by
  intro source error
  have refused : parse source = .error error := refusal?_eq_some.1 (by decide +kernel)
  exact ⟨refused, by decide +kernel, parse_error_place source error refused⟩

end MarkupEditor
