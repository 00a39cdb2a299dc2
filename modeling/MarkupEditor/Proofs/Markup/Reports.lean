import MarkupEditor.Markup.Report
import MarkupEditor.Proofs.Parser.ErrorPlaces

set_option autoImplicit false

open MarkupEditor.Text

namespace MarkupEditor

namespace Report

section

variable {source front rest back : List Char} {later : List (List Char)}

theorem onFirst_cons (c : Char) (line : List Char) (lines : List (List Char)) :
    onFirst c (line :: lines) = (c :: line) :: lines :=
  rfl

theorem splitLines_eq_cons {cs : List Char} (h : cs ≠ []) :
    ∃ line lines, splitLines cs = line :: lines ∧ line ≠ [] := by
  cases cs with
  | nil => exact absurd rfl h
  | cons c cs =>
    cases cs with
    | nil => exact ⟨_, _, rfl, by simp⟩
    | cons d cs =>
      rw [splitLines]
      split
      · exact ⟨_, _, rfl, by simp⟩
      · cases splitLines (d :: cs) <;> exact ⟨_, _, rfl, by simp⟩

/-- Only line feeds end the lines of a text up to an offset, and carriage returns before a line feed. -/
def FeedsOnly (source : List Char) (offset : Nat) : Prop :=
  ∀ i < offset, ∀ x ∈ source[i]?, endsLine x = true → x = '\n' ∨ x = '\r' ∧ source[i + 1]? = some '\n'

instance (source : List Char) (offset : Nat) : Decidable (FeedsOnly source offset) :=
  @Nat.decidableBallLT offset _ fun i _ =>
    @Option.decidableForallMem Char (fun x => endsLine x = true → x = '\n' ∨ x = '\r' ∧ source[i + 1]? = some '\n')
      _ source[i]?

theorem FeedsOnly.tail {c : Char} {n : Nat} (h : FeedsOnly (c :: source) (n + 1)) : FeedsOnly source n :=
  fun i hi x hx ends => h (i + 1) (Nat.succ_lt_succ hi) x hx ends

/-- Where the lines of a report stand around a place, if only line feeds end those in front of it: as many
earlier lines as there are line feeds, each of them ended, and a line that goes on as the lines of what
follows do. -/
theorem splitLines_append (feeds : FeedsOnly (front ++ rest) front.length)
    (last : rest = [] → front ≠ [] ∧ front.getLast? ≠ some '\n') :
    ∃ earlier first back later, splitLines (front ++ rest) = earlier ++ (first ++ back) :: later ∧
      front = earlier.flatten ++ first ∧ (∀ line ∈ earlier, line.getLast? = some '\n') ∧
      '\n' ∉ first ∧ earlier.length = front.count '\n' ∧
      (rest = [] ∧ back = [] ∧ later = [] ∨ back ≠ [] ∧ splitLines rest = back :: later) := by
  induction front with
  | nil =>
    have goes : rest ≠ [] := fun none => (last none).1 rfl
    obtain ⟨back, later, split, filled⟩ := splitLines_eq_cons goes
    exact ⟨[], [], back, later, split, rfl, by simp, List.not_mem_nil, rfl, .inr ⟨filled, split⟩⟩
  | cons c front ih =>
    cases whole : front ++ rest with
    | nil =>
      obtain ⟨rfl, rfl⟩ := List.append_eq_nil_iff.1 whole
      have other : c ≠ '\n' := fun same => (last rfl).2 (congrArg some same)
      exact ⟨[], [c], [], [], rfl, rfl, by simp, by simp [Ne.symm other], by simp [other], .inl ⟨rfl, rfl, rfl⟩⟩
    | cons d others =>
      have last' : rest = [] → front ≠ [] ∧ front.getLast? ≠ some '\n' := by
        rintro rfl
        have filled : front ≠ [] := by
          rintro rfl
          cases whole
        exact ⟨filled, fun h => (last rfl).2 (by rw [List.getLast?_cons, h]; rfl)⟩
      obtain ⟨earlier, first, back, later, split, hfront, ended, clean, count, follows⟩ := ih feeds.tail last'
      rw [List.cons_append, whole, splitLines, ← whole, split]
      by_cases same : c = '\n'
      · subst same
        refine ⟨['\n'] :: earlier, first, back, later, rfl, ?_, ?_, clean, by simp [count], follows⟩
        · rw [List.flatten_cons, List.append_assoc, ← hfront, List.singleton_append]
        · exact List.forall_mem_cons.2 ⟨rfl, ended⟩
      · have goesOn : (endsLine c && !(c == '\r' && d == '\n')) = false := by
          cases ends : endsLine c with
          | false => rfl
          | true =>
            obtain ⟨rfl, next⟩ := (feeds 0 (Nat.succ_pos _) c rfl ends).resolve_left same
            rw [List.cons_append, List.getElem?_cons_succ, whole] at next
            cases next
            rfl
        rw [goesOn, if_neg Bool.false_ne_true, List.count_cons_of_ne same]
        cases earlier with
        | nil =>
          have clean : '\n' ∉ c :: first := fun h => (List.mem_cons.1 h).elim (same ·.symm) clean
          exact ⟨[], c :: first, back, later, rfl, by rw [hfront]; rfl, by simp, clean, count, follows⟩
        | cons line earlier =>
          refine ⟨(c :: line) :: earlier, first, back, later, rfl, by rw [hfront]; rfl, ?_, clean, count, follows⟩
          obtain ⟨here, others⟩ := List.forall_mem_cons.1 ended
          exact List.forall_mem_cons.2 ⟨by rw [List.getLast?_cons, here]; rfl, others⟩

theorem le_offset_of_mem {number offset : Nat} {lines : List (List Char)} {line : Line}
    (h : line ∈ numberLines number offset lines) : offset ≤ line.offset := by
  induction lines generalizing number offset with
  | nil => cases h
  | cons text lines ih =>
    rcases List.mem_cons.1 h with rfl | h
    · exact Nat.le_refl _
    · exact (Nat.le_add_right _ _).trans (ih h)

theorem offset_le_of_mem {number offset : Nat} {lines : List (List Char)} {line : Line}
    (h : line ∈ numberLines number offset lines) : line.offset ≤ offset + lines.flatten.length := by
  induction lines generalizing number offset with
  | nil => cases h
  | cons text lines ih =>
    rw [List.flatten_cons, List.length_append]
    rcases List.mem_cons.1 h with rfl | h
    · exact Nat.le_add_right _ _
    · have := ih h
      omega

theorem numberLines_append (number offset : Nat) (a b : List (List Char)) :
    numberLines number offset (a ++ b) = numberLines number offset a ++
      numberLines (number + a.length) (offset + a.flatten.length) b := by
  induction a generalizing number offset with
  | nil => rfl
  | cons text a ih =>
    rw [List.cons_append, numberLines, ih, numberLines, List.length_cons, List.flatten_cons,
      List.length_append, Nat.add_assoc, Nat.add_assoc, Nat.add_comm 1]
    rfl

theorem lineAt?_of_splitLines {earlier : List (List Char)} {first : List Char}
    (split : splitLines source = earlier ++ (first ++ back) :: later) (inside : back ≠ [] ∨ later = []) :
    lineAt? source (earlier.flatten ++ first).length =
      some ⟨earlier.length + 1, earlier.flatten.length, first ++ back⟩ := by
  have before : (numberLines 1 0 earlier).filter (·.offset ≤ (earlier.flatten ++ first).length) =
      numberLines 1 0 earlier := by
    rw [List.filter_eq_self]
    intro line h
    have := offset_le_of_mem h
    rw [decide_eq_true_eq, List.length_append]
    omega
  have after (number : Nat) :
      (numberLines number (0 + earlier.flatten.length + (first ++ back).length) later).filter
        (·.offset ≤ (earlier.flatten ++ first).length) = [] := by
    rcases inside with filled | rfl
    · rw [List.filter_eq_nil_iff]
      intro line h
      have later := le_offset_of_mem h
      have := List.length_pos_iff.2 filled
      rw [List.length_append] at later
      rw [decide_eq_true_eq, List.length_append]
      omega
    · rfl
  rw [lineAt?, split, numberLines_append, numberLines, List.filter_append, before,
    List.filter_cons_of_pos (by simp), after, List.getLast?_concat, Nat.zero_add, Nat.add_comm]

theorem le_length_of_splitLines {n : Nat} {first : List Char} (split : splitLines source = first :: later)
    (held : n ≤ source.length) (whole : ∀ x ∈ source.take n, endsLine x = false) : n ≤ first.length := by
  induction source generalizing n first later with
  | nil => cases split
  | cons c source ih =>
    cases n with
    | zero => exact Nat.zero_le _
    | succ n =>
      cases source with
      | nil =>
        cases split
        exact held
      | cons d source =>
        obtain ⟨here, others⟩ := List.forall_mem_cons.1 whole
        rw [splitLines, here, Bool.false_and, if_neg Bool.false_ne_true] at split
        obtain ⟨line, lines, next, -⟩ := splitLines_eq_cons (List.cons_ne_nil d source)
        rw [next, onFirst_cons] at split
        cases split
        exact Nat.succ_le_succ (ih next (Nat.le_of_succ_le_succ held) others)

end

section

variable {line : Line} {mark : Mark}

/-- What a row shows in front of a column: a blank for each cell of the columns before it. -/
def blanks (line : Line) (n : Nat) : String :=
  String.join ((List.range n).map fun column => copies (line.cells column) ' ')

theorem join_replicate_blank (n : Nat) : String.join (List.replicate n " ") = copies n ' ' := by
  induction n with
  | zero => rfl
  | succ n ih =>
    rw [List.replicate_succ, String.join_cons, ih, copies, copies, List.replicate_succ]
    exact String.ofList_append.symm

theorem cells_blank (line : Line) (column : Nat) :
    cells line column " " " " = copies (line.cells column) ' ' := by
  rw [cells]
  cases line.cells column with
  | zero => rfl
  | succ n =>
    rw [← join_replicate_blank, List.replicate_succ, String.join_cons]

theorem columns_eq (inside : line.offset ≤ mark.start) (ordered : mark.start ≤ mark.stop) :
    ∃ more, columns line mark =
      List.range (mark.start - line.offset) ++ (mark.start - line.offset) :: more := by
  obtain ⟨n, hn⟩ : ∃ n, mark.stop - line.offset + 2 = mark.start - line.offset + (n + 1) :=
    ⟨mark.stop - mark.start + 1, by omega⟩
  rw [columns, hn, List.range_add, List.range_succ_eq_map, List.map_cons, Nat.add_zero]
  exact ⟨_, rfl⟩

def underlineCell (line : Line) (mark : Mark) (column : Nat) : String :=
  let rule := if mark.contains (line.offset + column) then paint .red "─" else " "
  if line.offset + column = mark.middle then
    cells line column (paint .red (if mark.contains (line.offset + column) then "┬" else "│")) rule
  else cells line column rule rule

theorem underlineCell_before {column : Nat} (ordered : mark.start ≤ mark.stop)
    (h : line.offset + column < mark.start) :
    underlineCell line mark column = copies (line.cells column) ' ' := by
  have outside : mark.contains (line.offset + column) = false := by
    simp only [Mark.contains, Bool.and_eq_false_iff, decide_eq_false_iff_not]
    omega
  have aside : line.offset + column ≠ mark.middle := by
    unfold Mark.middle
    omega
  rw [underlineCell, if_neg aside, outside, if_neg Bool.false_ne_true, cells_blank]

theorem underlineCell_start {column : Nat} (ordered : mark.start ≤ mark.stop)
    (here : line.offset + column = mark.start) (wide : line.cells column ≠ 0) :
    ∃ rule ∈ ["─", "┬", "│"], ∃ rest, underlineCell line mark column = paint .red rule ++ rest := by
  obtain ⟨n, hn⟩ := Nat.exists_eq_succ_of_ne_zero wide
  have shown (first other : String) :
      cells line column first other = first ++ String.join (List.replicate n other) := by
    rw [cells, hn]
  by_cases marked : mark.contains (line.offset + column) = true
  · rw [underlineCell, if_pos marked, if_pos marked, shown, shown]
    split
    · exact ⟨"┬", by simp, _, rfl⟩
    · exact ⟨"─", by simp, _, rfl⟩
  · have empty : mark.start = mark.stop := by
      simp only [Mark.contains, Bool.and_eq_true, decide_eq_true_eq, not_and] at marked
      omega
    have middle : line.offset + column = mark.middle := by
      unfold Mark.middle
      omega
    rw [underlineCell, if_pos middle, if_neg marked, shown]
    exact ⟨"│", by simp, _, rfl⟩

theorem underline_eq (inside : line.offset ≤ mark.start) (ordered : mark.start ≤ mark.stop)
    (wide : line.cells (mark.start - line.offset) ≠ 0) :
    ∃ rule ∈ ["─", "┬", "│"], ∃ rest, underline line mark =
      blanks line (mark.start - line.offset) ++ paint .red rule ++ rest := by
  obtain ⟨more, columns⟩ := columns_eq inside ordered
  obtain ⟨rule, hrule, rest, start⟩ := underlineCell_start ordered (Nat.add_sub_cancel' inside) wide
  have before : (List.range (mark.start - line.offset)).map (underlineCell line mark) =
      (List.range (mark.start - line.offset)).map fun column => copies (line.cells column) ' ' := by
    refine List.map_congr_left fun column h => underlineCell_before ordered ?_
    have := List.mem_range.1 h
    omega
  have row : underline line mark = String.join ((Report.columns line mark).map (underlineCell line mark)) := rfl
  refine ⟨rule, hrule, rest ++ String.join (more.map (underlineCell line mark)), ?_⟩
  rw [row, columns, List.map_append, List.map_cons, String.join_append, String.join_cons, before, start, blanks,
    String.append_assoc, String.append_assoc]

end

def heading (error : ParseError) : String :=
  paint .red "Error:" ++ " " ++ error.message ++ "\n"

def corner (number : Nat) : String :=
  copies ((toString number).length + 2) ' ' ++ paint .margin "╭" ++ paint .margin "─" ++ paint .margin "["

def framed (number : Nat) (rows : String) : String :=
  paint .margin "]" ++ "\n" ++ copies ((toString number).length + 2) ' ' ++ paint .margin "│" ++ "\n" ++ rows ++
    paint .margin (copies ((toString number).length + 2) '─' ++ "╯") ++ "\n"

def margin (number : Nat) : String :=
  " " ++ paint .skippedMargin (copies ((toString number).length + 1) ' ' ++ "│") ++ " "

theorem excerpt_eq (filename : String) (line : Line) (mark : Mark) (label : String) :
    excerpt filename line mark label =
      corner line.number ++ location filename line.number (mark.start - line.offset + 1) ++
        framed line.number (body line mark label) := by
  simp only [excerpt, corner, location, framed, String.append_assoc]

theorem report_of_lineAt? {error : ParseError} {source : List Char} {line : Line} (filename : String)
    (start : (markOf source error.span).start ≤ source.length)
    (stop : (markOf source error.span).stop ≤ source.length + 1)
    (found : lineAt? source (markOf source error.span).start = some line) :
    error.report source filename =
      heading error ++ excerpt filename line (markOf source error.span) error.label := by
  rw [ParseError.report, if_neg (by omega), found, heading]

theorem body_eq {line : Line} {mark : Mark} (held : mark.stop ≤ line.offset + line.text.length) (label : String) :
    body line mark label =
      " " ++ paint .margin (toString line.number ++ " │") ++ " " ++ shownLine line mark ++ "\n" ++
        margin line.number ++ underline line mark ++ ("\n" ++ margin line.number ++ leader line mark ++ " " ++
          label ++ "\n") := by
  simp only [body, if_neg (Nat.not_lt.2 held), margin, String.append_assoc]

/-- A place of which a report tells the truth: in front of it characters are one byte each and only line
feeds end lines, as many characters as bytes lead to its end, and it is not the end of a source of which the
last line is empty. -/
structure Plain (source : List Char) (span : Span) : Prop where
  narrow : ∀ x ∈ source.take span.start, x.utf8Size = 1
  feeds : FeedsOnly source span.start
  held : span.stop ≤ source.length
  last : span.start = source.length → source.getLast? ≠ some '\n'

instance (source : List Char) (span : Span) : Decidable (Plain source span) :=
  have : Decidable (∀ x ∈ source.take span.start, x.utf8Size = 1) := List.decidableBAll _ _
  decidable_of_iff ((∀ x ∈ source.take span.start, x.utf8Size = 1) ∧ FeedsOnly source span.start ∧
      span.stop ≤ source.length ∧ (span.start = source.length → source.getLast? ≠ some '\n'))
    ⟨fun h => ⟨h.1, h.2.1, h.2.2.1, h.2.2.2⟩, fun h => ⟨h.narrow, h.feeds, h.held, h.last⟩⟩

/-- A place within a line, with a character that takes a cell. -/
structure Inline (source : List Char) (span : Span) : Prop where
  whole : ∀ x ∈ (source.drop span.start).take (span.stop - span.start), endsLine x = false
  wide : ∀ x ∈ (source.drop span.start).head?, cellWidth x ≠ 0

instance (source : List Char) (span : Span) : Decidable (Inline source span) :=
  have : Decidable (∀ x ∈ (source.drop span.start).take (span.stop - span.start), endsLine x = false) :=
    List.decidableBAll _ _
  have : Decidable (∀ x ∈ (source.drop span.start).head?, cellWidth x ≠ 0) :=
    @Option.decidableForallMem Char (fun x => cellWidth x ≠ 0) _ _
  decidable_of_iff ((∀ x ∈ (source.drop span.start).take (span.stop - span.start), endsLine x = false) ∧
      ∀ x ∈ (source.drop span.start).head?, cellWidth x ≠ 0)
    ⟨fun h => ⟨h.1, h.2⟩, fun h => ⟨h.whole, h.wide⟩⟩

section

variable {source front rest back : List Char} {span : Span}

theorem markOf_start (ordered : span.start ≤ span.stop) (held : span.stop ≤ byteLength source) :
    (markOf source span).start = span.start :=
  Nat.min_eq_left (ordered.trans held)

theorem markOf_stop (ordered : span.start ≤ span.stop) (held : span.stop ≤ byteLength source) :
    (markOf source span).stop =
      if span.stop = span.start then min (span.start + 1) (byteLength source) else span.stop := by
  have stop : max span.start (min span.stop (byteLength source)) = span.stop := by
    rw [Nat.min_eq_left held, Nat.max_eq_right ordered]
  rw [markOf, Nat.min_eq_left (ordered.trans held), stop]

theorem markOf_stop_mem (ordered : span.start ≤ span.stop) (held : span.stop ≤ byteLength source) :
    span.start ≤ (markOf source span).stop ∧ (markOf source span).stop ≤ span.stop + 1 := by
  rw [markOf_stop ordered held]
  split <;> omega

theorem byteLength_of_narrow {cs : List Char} (h : ∀ x ∈ cs, x.utf8Size = 1) : byteLength cs = cs.length := by
  induction cs with
  | nil => rfl
  | cons c cs ih =>
    obtain ⟨one, others⟩ := List.forall_mem_cons.1 h
    rw [byteLength_cons, one, ih others, List.length_cons, Nat.add_comm]

theorem length_le_byteLength (cs : List Char) : cs.length ≤ byteLength cs := by
  induction cs with
  | nil => exact Nat.le_refl _
  | cons c cs ih =>
    have := c.utf8Size_pos
    rw [List.length_cons, byteLength_cons]
    omega

theorem width_pos {x : Char} (wide : cellWidth x ≠ 0) (column : Nat) : width column x ≠ 0 := by
  unfold width
  split
  · have := Nat.mod_lt column (show 0 < 4 by decide)
    omega
  · split
    · exact Nat.one_ne_zero
    · exact wide

theorem flatten_splitLines (cs : List Char) : (splitLines cs).flatten = cs := by
  have onFirst_flatten (c : Char) (lines : List (List Char)) :
      (onFirst c lines).flatten = c :: lines.flatten := by
    cases lines <;> rfl
  induction cs with
  | nil => rfl
  | cons c cs ih =>
    cases cs with
    | nil => rfl
    | cons d cs =>
      rw [splitLines]
      split
      · rw [List.flatten_cons, ih, List.singleton_append]
      · rw [onFirst_flatten, ih]

theorem last_of_flatten {lines : List (List Char)} (ended : ∀ line ∈ lines, line.getLast? = some '\n') :
    lines.flatten = [] ∨ lines.flatten.getLast? = some '\n' := by
  induction lines using List.reverseRecOn with
  | nil => exact .inl rfl
  | append_singleton others line _ =>
    right
    have last := ended line (by simp)
    rw [List.flatten_append, List.flatten_singleton, List.getLast?_append, last]
    rfl

/-- The line that a report shows for a place of a source: the text in front of the place that belongs to it,
and the text behind. -/
structure Shows (front rest : List Char) (line : Line) (first back : List Char) : Prop where
  found : lineAt? (front ++ rest) front.length = some line
  text : line.text = first ++ back
  place : line.offset + first.length = front.length
  lineColumn : ParseError.lineColumnAfter front = (line.number, first.length + 1)
  ends : first <:+ front
  goesOn : rest ≠ [] → back ≠ []
  starts : back <+: rest
  reaches : ∀ n ≤ rest.length, (∀ x ∈ rest.take n, endsLine x = false) → n ≤ back.length

theorem exists_shows {front rest : List Char} (feeds : FeedsOnly (front ++ rest) front.length)
    (last : rest = [] → front ≠ [] ∧ front.getLast? ≠ some '\n') :
    ∃ line first back, Shows front rest line first back := by
  obtain ⟨earlier, first, back, later, split, hfront, ended, clean, count, follows⟩ := splitLines_append feeds last
  have inside : back ≠ [] ∨ later = [] := follows.symm.imp And.left fun h => h.2.2
  have found := lineAt?_of_splitLines split inside
  rw [← hfront] at found
  have hlength : earlier.flatten.length + first.length = front.length := by
    rw [hfront, List.length_append]
  have told : ParseError.lineColumnAfter front = (earlier.length + 1, first.length + 1) := by
    rw [count]
    conv_lhs => rw [hfront]
    rw [ParseError.lineColumnAfter_append clean (last_of_flatten ended), ← hfront]
  refine ⟨_, first, back, found, rfl, hlength, told, ⟨_, hfront.symm⟩, ?_, ?_, ?_⟩
  · intro goesOn
    exact (follows.resolve_left fun h => goesOn h.1).1
  · rcases follows with ⟨-, rfl, -⟩ | ⟨-, split⟩
    · exact List.nil_prefix
    · rw [← flatten_splitLines rest, split]
      exact List.prefix_append _ _
  · rcases follows with ⟨rfl, -, -⟩ | ⟨-, split⟩
    · intro n held _
      exact Nat.le_trans held (Nat.zero_le _)
    · exact fun n => le_length_of_splitLines split

theorem Plain.exists_cut (plain : Plain source span) (ordered : span.start ≤ span.stop) (filled : source ≠ []) :
    ∃ front rest, source = front ++ rest ∧ front.length = span.start ∧ byteLength front = span.start ∧
      FeedsOnly (front ++ rest) front.length ∧ (rest = [] → front ≠ [] ∧ front.getLast? ≠ some '\n') := by
  have length : (source.take span.start).length = span.start := by
    rw [List.length_take, Nat.min_eq_left (ordered.trans plain.held)]
  have whole := List.take_append_drop span.start source
  refine ⟨source.take span.start, source.drop span.start, whole.symm, length, ?_, ?_, fun none => ?_⟩
  · rw [byteLength_of_narrow plain.narrow, length]
  · rw [whole, length]
    exact plain.feeds
  · have all : source.take span.start = source := by
      rw [none, List.append_nil] at whole
      exact whole
    rw [all]
    exact ⟨filled, plain.last (length.symm.trans (congrArg List.length all))⟩

theorem getElem?_of_isPrefix {a b : List Char} (h : a <+: b) {i : Nat} {x : Char} (seen : a[i]? = some x) :
    b[i]? = some x := by
  obtain ⟨more, rfl⟩ := h
  rw [List.getElem?_append_left (List.getElem?_eq_some_iff.1 seen).1, seen]

theorem trimEnd_isPrefix (cs : List Char) : trimEnd cs <+: cs := by
  have suffix : cs.reverse.dropWhile isBlank <:+ cs.reverse := List.dropWhile_suffix _
  have prefixed := List.reverse_prefix.2 suffix
  rwa [List.reverse_reverse] at prefixed

section

variable {line : Line} {first : List Char} (shows : Shows front rest line first back)

include shows

theorem Shows.cells_ne_zero (wide : ∀ x ∈ rest.head?, cellWidth x ≠ 0) :
    line.cells first.length ≠ 0 := by
  rw [Line.cells]
  cases seen : line.visible[first.length]? with
  | none => exact Nat.one_ne_zero
  | some x =>
    have inText : line.text[first.length]? = some x := getElem?_of_isPrefix (trimEnd_isPrefix line.text) seen
    rw [shows.text, List.getElem?_append_right (Nat.le_refl _), Nat.sub_self] at inText
    have inRest := getElem?_of_isPrefix shows.starts inText
    rw [← List.head?_eq_getElem?] at inRest
    exact width_pos (wide x inRest) _

theorem Shows.start_sub (start : front.length = span.start) : span.start - line.offset = first.length := by
  have := shows.place
  omega

variable (start : front.length = span.start) (ordered : span.start ≤ span.stop)
  (held : span.stop ≤ (front ++ rest).length)

include start ordered held

theorem Shows.stop_le (narrow : byteLength front = span.start)
    (whole : ∀ x ∈ rest.take (span.stop - span.start), endsLine x = false) :
    (markOf (front ++ rest) span).stop ≤ line.offset + line.text.length := by
  have reaches := shows.reaches (span.stop - span.start) (by rw [List.length_append] at held; omega) whole
  have text : line.offset + line.text.length = span.start + back.length := by
    rw [shows.text, List.length_append, ← Nat.add_assoc, shows.place, start]
  have bytes : byteLength (front ++ rest) = span.start + byteLength rest := by
    rw [byteLength_append, narrow]
  rw [text, markOf_stop ordered (held.trans (length_le_byteLength _))]
  split
  · cases rest with
    | nil =>
      rw [bytes, byteLength_nil]
      omega
    | cons x rest =>
      have goesOn := List.length_pos_iff.2 (shows.goesOn (List.cons_ne_nil x rest))
      have next := Nat.min_le_left (span.start + 1) (byteLength (front ++ x :: rest))
      omega
  · omega

/-- The report of an error is the excerpt of the line that is shown for its place. -/
theorem Shows.report {error : ParseError} (hspan : error.span = span) (filename : String) :
    error.report (front ++ rest) filename =
      heading error ++ (corner line.number ++ location filename line.number (first.length + 1) ++
        framed line.number (body line (markOf (front ++ rest) span) error.label)) := by
  subst hspan
  have fits := held.trans (length_le_byteLength _)
  have markStart := markOf_start ordered fits
  have markStop := (markOf_stop_mem ordered fits).2
  have found : lineAt? (front ++ rest) (markOf (front ++ rest) error.span).start = some line := by
    rw [markStart, ← start]
    exact shows.found
  rw [report_of_lineAt? filename (by omega) (by omega) found, excerpt_eq, markStart, shows.start_sub start]

theorem Shows.underlined (narrow : byteLength front = span.start) (inline : Inline (front ++ rest) span)
    (label : String) :
    ∃ rule ∈ ["─", "┬", "│"], ∃ more, body line (markOf (front ++ rest) span) label =
      " " ++ paint .margin (toString line.number ++ " │") ++ " " ++
        shownLine line (markOf (front ++ rest) span) ++ "\n" ++
        margin line.number ++ blanks line first.length ++ paint .red rule ++ more := by
  have fits := held.trans (length_le_byteLength _)
  have markStart := markOf_start ordered fits
  have markStop := (markOf_stop_mem ordered fits).1
  obtain ⟨whole, wide⟩ := inline
  rw [← start, List.drop_left, start] at whole
  rw [← start, List.drop_left] at wide
  have stop := shows.stop_le start ordered held narrow whole
  have column : (markOf (front ++ rest) span).start - line.offset = first.length := by
    rw [markStart, shows.start_sub start]
  have inside : line.offset ≤ (markOf (front ++ rest) span).start := by
    have := shows.place
    omega
  obtain ⟨rule, hrule, more, row⟩ :=
    underline_eq inside (by omega) (column ▸ shows.cells_ne_zero wide)
  refine ⟨rule, hrule, more ++ ("\n" ++ margin line.number ++ leader line (markOf (front ++ rest) span) ++ " " ++
    label ++ "\n"), ?_⟩
  rw [body_eq stop, row, column]
  simp only [String.append_assoc]

end

end

end Report

open MarkupEditor.Parser

/-- The report of an error and its line and column agree, where the place of the error is plain: the report
names that line and that column, as the report in one line does, and shows that line of the source. If the
place lies within the line, what is marked below the line begins at that column. -/
theorem report_place (source filename : String) (error : ParseError) (refused : parse source = .error error)
    (plain : Report.Plain source.toList error.span) :
    ∃ (line column : Nat) (text : List Char) (shown : Report.Line),
      error.lineColumn source.toList = (line + 1, column + 1) ∧
      error.plainReport source.toList filename =
        Report.location filename (line + 1) (column + 1) ++ ": " ++ error.label ∧
      error.report source.toList filename =
        Report.heading error ++ (Report.corner (line + 1) ++ Report.location filename (line + 1) (column + 1) ++
          Report.framed (line + 1)
            (Report.body shown (Report.markOf source.toList error.span) error.label)) ∧
      (sourceLines source.toList)[line]? = some text ∧ text.take column = shown.text.take column ∧
      (Report.Inline source.toList error.span → ∃ rule ∈ ["─", "┬", "│"], ∃ rest,
        Report.body shown (Report.markOf source.toList error.span) error.label =
          " " ++ Report.paint .margin (toString (line + 1) ++ " │") ++ " " ++
            Report.shownLine shown (Report.markOf source.toList error.span) ++ "\n" ++
            Report.margin (line + 1) ++ Report.blanks shown column ++ Report.paint .red rule ++ rest) := by
  obtain ⟨ordered, fits⟩ := (Parser.points_of_parse refused).within
  have filled : source.toList ≠ [] := by
    intro blank
    have accepted : refusal? "" = none := rfl
    rw [← String.toList_eq_nil_iff.1 blank, refusal?_eq_some.2 refused] at accepted
    cases accepted
  obtain ⟨front, rest, hsource, start, narrow, feeds, last⟩ := plain.exists_cut ordered filled
  rw [hsource] at plain ⊢
  obtain ⟨shown, first, back, shows⟩ := Report.exists_shows feeds last
  obtain ⟨line, column, first', back', told, text, rfl, ends, -⟩ := ParseError.lineColumnAfter_spec front rest
  obtain ⟨number, length⟩ := Prod.mk.inj (told.symm.trans shows.lineColumn)
  have same : first' = first :=
    (List.suffix_of_suffix_length_le ends shows.ends (Nat.succ.inj length).le).eq_of_length
      (Nat.succ.inj length)
  subst same
  have lineColumn : error.lineColumn (front ++ rest) = (line + 1, first'.length + 1) := by
    rw [ParseError.lineColumn, ← narrow, ParseError.before_append, told]
  refine ⟨line, first'.length, first' ++ back', shown, lineColumn, ?_, ?_, text, ?_, fun inline => ?_⟩
  · rw [ParseError.plainReport, lineColumn]
  · rw [number]
    exact shows.report start ordered plain.held rfl filename
  · rw [shows.text, List.take_left, List.take_left]
  · rw [number]
    exact shows.underlined start ordered plain.held narrow inline error.label

/-- The second line begins with a tab, which takes four cells, and is told apart by a carriage return and a
line feed. -/
theorem report_place_tab :
    let source := "<p>\r\n\t<b></q></p>"
    let error := ParseError.mismatchedClosingTag ⟨9, 13⟩ "b" "q"
    parse source = .error error ∧ Report.Plain source.toList error.span ∧ Report.Inline source.toList error.span ∧
      error.plainReport source.toList "page.jsx" = "page.jsx:2:5: expected </b>" ∧
      ∃ shown, error.report source.toList "page.jsx" =
        Report.heading error ++ (Report.corner 2 ++ "page.jsx:2:5" ++
          Report.framed 2 (Report.body shown ⟨9, 13⟩ error.label)) ∧
        ∃ rule ∈ ["─", "┬", "│"], ∃ rest, Report.body shown ⟨9, 13⟩ error.label =
          " " ++ Report.paint .margin (toString 2 ++ " │") ++ " " ++ Report.shownLine shown ⟨9, 13⟩ ++ "\n" ++
            Report.margin 2 ++ Report.blanks shown 4 ++ Report.paint .red rule ++ rest := by
  intro source error
  have refused : parse source = .error error := refusal?_eq_some.1 (by decide +kernel)
  have plain : Report.Plain source.toList error.span := by decide +kernel
  have inline : Report.Inline source.toList error.span := by decide +kernel
  obtain ⟨line, column, text, shown, told, oneLine, report, -, -, underlined⟩ :=
    report_place source "page.jsx" error refused plain
  have place : error.lineColumn source.toList = (1 + 1, 4 + 1) := by decide +kernel
  obtain ⟨hline, hcolumn⟩ := Prod.mk.inj (told.symm.trans place)
  cases hline
  cases hcolumn
  have size : byteLength source.toList = 17 := by decide +kernel
  rw [Report.markOf, size] at report underlined
  exact ⟨refused, plain, inline, oneLine, shown, report, underlined inline⟩

def Report.named? (source : List Char) (span : Span) : Option (Nat × Nat) :=
  let mark := markOf source span
  if mark.start ≤ source.length ∧ mark.stop ≤ source.length + 1 then
    (lineAt? source mark.start).map fun line => (line.number, mark.start - line.offset + 1)
  else none

theorem exists_report {source : String} {place named : Nat × Nat}
    (told : (refusal? source).any (fun error => error.lineColumn source.toList == place &&
      Report.named? source.toList error.span == some named) = true) :
    ∃ error, parse source = .error error ∧ error.lineColumn source.toList = place ∧
      ∀ filename, ∃ rows, error.report source.toList filename =
        Report.heading error ++ (Report.corner named.1 ++ Report.location filename named.1 named.2 ++
          Report.framed named.1 rows) := by
  obtain ⟨error, refused, told⟩ := (Option.any_eq_true _ _).1 told
  obtain ⟨hplace, hnamed⟩ := Bool.and_eq_true_iff.1 told
  refine ⟨error, refusal?_eq_some.1 refused, eq_of_beq hplace, fun filename => ?_⟩
  have hnamed := eq_of_beq hnamed
  simp only [Report.named?] at hnamed
  split at hnamed
  · rename_i shown
    obtain ⟨line, found, rfl⟩ := Option.map_eq_some_iff.1 hnamed
    rw [Report.report_of_lineAt? filename shown.1 shown.2 found, Report.excerpt_eq]
    exact ⟨_, rfl⟩
  · cases hnamed

/-- Three errors with another place in their report: a character of two bytes stands in front of the first, a
form feed in front of the second, and the third is at the end of a source that ends with a line feed. -/
theorem report_place_apart :
    (∃ error, parse "<p>é</q>" = .error error ∧ error.lineColumn "<p>é</q>".toList = (1, 5) ∧
      ∀ filename, ∃ rows, error.report "<p>é</q>".toList filename = Report.heading error ++
        (Report.corner 1 ++ Report.location filename 1 6 ++ Report.framed 1 rows)) ∧
    (∃ error, parse "<p>\x0c</q>" = .error error ∧ error.lineColumn "<p>\x0c</q>".toList = (1, 5) ∧
      ∀ filename, ∃ rows, error.report "<p>\x0c</q>".toList filename = Report.heading error ++
        (Report.corner 2 ++ Report.location filename 2 1 ++ Report.framed 2 rows)) ∧
    ∃ error, parse "<p>\n" = .error error ∧ error.lineColumn "<p>\n".toList = (2, 1) ∧
      ∀ filename, ∃ rows, error.report "<p>\n".toList filename = Report.heading error ++
        (Report.corner 1 ++ Report.location filename 1 5 ++ Report.framed 1 rows) :=
  ⟨@exists_report _ _ (1, 6) (by decide +kernel), @exists_report _ _ (2, 1) (by decide +kernel),
    @exists_report _ _ (1, 5) (by decide +kernel)⟩

end MarkupEditor
