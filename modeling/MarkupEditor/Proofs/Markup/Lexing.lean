import MarkupEditor.Markup.Lexer

set_option autoImplicit false

namespace MarkupEditor

open Text

namespace Lexer

/-- The characters that end every lexeme but a string, a template or a comment. -/
def quietMarks : List Char :=
  [' ', ',', ';', ')', ']', '}', ':', '<']

/-- A text that goes on with no lexeme before it. -/
def Quiet (cs : List Char) : Prop :=
  ∀ c ∈ cs.head?, c ∈ quietMarks

/-- A text that goes on with no lexeme before it but a slash: a blank or a comment may come first. -/
def Still (cs : List Char) : Prop :=
  ∀ c ∈ cs.head?, c ∈ ['/', '\t', '\n', '\r', '\x0c'] ++ quietMarks

theorem Quiet.still {cs : List Char} (h : Quiet cs) : Still cs :=
  fun c hc => List.mem_append_right _ (h c hc)

theorem Quiet.no_slash {cs : List Char} (h : Quiet cs) : cs.head? ≠ some '/' :=
  fun hc => absurd (h '/' hc) (by decide)

theorem Quiet.nil : Quiet [] := nofun

theorem Quiet.cons {c : Char} {cs : List Char} (h : c ∈ quietMarks) : Quiet (c :: cs) := by
  intro x hx
  cases hx
  exact h

instance (cs : List Char) : Decidable (Quiet cs) :=
  match cs with
  | [] => isTrue .nil
  | c :: _ => decidable_of_iff (c ∈ quietMarks) ⟨.cons, fun h => h c rfl⟩

theorem Still.rejects {q : List Char} (h : Still q) (f : Char → Bool)
    (hf : (['/', '\t', '\n', '\r', '\x0c'] ++ quietMarks).any f = false) :
    ∀ c ∈ q.head?, f c = false :=
  fun c hc => Bool.eq_false_iff.2 (List.any_eq_false.1 hf c (h c hc))

theorem Still.ne {c : Char} {cs : List Char} (h : Still (c :: cs)) (x : Char)
    (hx : x ∉ ['/', '\t', '\n', '\r', '\x0c'] ++ quietMarks) : c ≠ x := by
  rintro rfl
  exact hx (h c rfl)

theorem Still.ne_cons {q : List Char} (h : Still q) (x : Char)
    (hx : x ∉ ['/', '\t', '\n', '\r', '\x0c'] ++ quietMarks) (rest : List Char) : q ≠ x :: rest := by
  rintro rfl
  exact h.ne x hx rfl

theorem skip_between_idem (gap : Gap) (cs : List Char) :
    skip .between (skip gap cs).2 = ([], (skip gap cs).2) := by
  fun_induction skip gap cs with
  | case7 c d cs hblank hline hblock =>
    simp only [skip, hblank, hline, hblock, if_false, Bool.false_eq_true]
  | _ => simp_all [pass, skip]

theorem closesComment_append {p : List Char} (h : closesComment p = true) (q : List Char) :
    closesComment (p ++ q) = true := by
  fun_induction closesComment p with
  | case1 => cases h
  | case2 => cases h
  | case3 c d cs ih =>
    simp only [List.cons_append, closesComment, Bool.or_eq_true] at *
    exact h.imp_right ih

theorem skip_blank {c : Char} (h : isTokenBlank c = true) (cs : List Char) :
    skip .between (c :: cs) = pass c (skip .between cs) := by
  cases cs with
  | nil => simp [skip, h, pass]
  | cons d cs => simp [skip, h]

theorem skip_comment_head (c : Char) (cs : List Char) :
    ∃ tail, (skip .blockComment (c :: cs)).1 = c :: tail := by
  cases cs with
  | nil => exact ⟨[], rfl⟩
  | cons d cs =>
    rw [skip]
    split
    · exact ⟨_, rfl⟩
    · exact ⟨_, rfl⟩

theorem closesComment_skip {gap : Gap} {p : List Char} (comment : gap = .blockComment)
    (left : (skip gap p).2 ≠ []) : closesComment (skip gap p).1 = true := by
  fun_induction skip gap p with
  | case1 => exact absurd rfl left
  | case10 => exact absurd rfl left
  | case11 c d cs h ih => simp [pass, closesComment, h]
  | case12 c d cs h ih =>
    have ih := ih rfl left
    obtain ⟨tail, htail⟩ := skip_comment_head d cs
    rw [htail] at ih
    simp [pass, htail, closesComment, ih]
  | _ => cases comment

theorem skip_gap {gap : Gap} {p : List Char} (left : (skip gap p).2 ≠ []) (cs : List Char) :
    skip gap ((skip gap p).1 ++ cs) =
      ((skip gap p).1 ++ (skip .between cs).1, (skip .between cs).2) := by
  fun_induction skip gap p with
  | case1 => exact absurd rfl left
  | case2 => exact absurd rfl left
  | case3 c h => rfl
  | case4 c d cs' h ih =>
    have ih := ih left
    simp only [pass, List.cons_append, skip_blank h, ih]
  | case5 c d cs' h h' ih =>
    have ih := ih left
    simp_all [pass, skip]
  | case6 c d cs' h h' h'' ih =>
    have ih := ih left
    have := closesComment_append (closesComment_skip rfl left) cs
    simp_all [pass, skip]
  | case7 c d cs' h h' h'' => rfl
  | case8 cs' ih =>
    have ih := ih left
    simp_all [pass, skip]
  | case9 c cs' h ih =>
    have ih := ih left
    simp_all [pass, skip]
  | case10 c => exact absurd rfl left
  | case11 c d cs' h ih =>
    have ih := ih left
    simp_all [pass, skip]
  | case12 c d cs' h ih =>
    have ih := ih left
    obtain ⟨tail, htail⟩ := skip_comment_head d cs'
    rw [htail, List.cons_append, List.cons_append] at ih
    simp only [pass, htail, List.cons_append]
    rw [skip, if_neg h, ih]
    rfl

theorem skip_still {q : List Char} (still : Still q) (gap : Gap) {p : List Char}
    (left : (skip gap p).2 ≠ []) (plain : ¬ ['/', '*'] <+: (skip gap p).2)
    (slash : q.head? = some '/' → (skip gap p).2 ≠ ['/']) :
    skip gap (p ++ q) = ((skip gap p).1, (skip gap p).2 ++ q) := by
  fun_induction skip gap p with
  | case1 => exact absurd rfl left
  | case2 c h => exact absurd rfl left
  | case3 c h =>
    cases q with
    | nil => simp [skip, h]
    | cons x q =>
      have := still.ne '*' (by decide)
      by_cases hx : x = '/' <;> simp_all [skip]
  | case4 c d cs h ih =>
    have := ih left plain slash
    simp only [List.cons_append, skip, h, if_true, pass] at *
    rw [this]
  | case5 c d cs h h' ih =>
    have := ih left plain slash
    simp_all [skip, pass]
  | case6 c d cs h h' h'' ih =>
    have := ih left plain slash
    have := closesComment_append h''.2.2 q
    simp_all [skip, pass]
  | case7 c d cs h h' h'' =>
    have hopen : ¬ (c = '/' ∧ d = '*' ∧ closesComment (cs ++ q) = true) := by
      rintro ⟨rfl, rfl, -⟩
      exact plain ⟨cs, rfl⟩
    simp [skip, h, h', hopen]
  | case8 cs ih =>
    have := ih left plain slash
    simp_all [skip, pass]
  | case9 c cs h ih =>
    have := ih left plain slash
    simp_all [skip, pass]
  | case10 c => exact absurd rfl left
  | case11 c d cs h ih =>
    have := ih left plain slash
    simp_all [skip, pass]
  | case12 c d cs h ih =>
    have := ih left plain slash
    simp_all [skip, pass]

/-- A text that goes on with no name before it. -/
def EndsName (cs : List Char) : Prop :=
  ∀ c ∈ cs.head?, continuesIdentifier c = false ∧ c ≠ '-'

theorem Still.endsName {q : List Char} (h : Still q) : EndsName q := by
  intro c hc
  have name := h.rejects continuesIdentifier (by decide) c hc
  have dash := h.rejects (· == '-') (by decide) c hc
  exact ⟨name, by simpa using dash⟩

theorem identifierTail_before {q : List Char} (h : EndsName q) (p : List Char) :
    identifierTail (p ++ q) = ((identifierTail p).1, (identifierTail p).2 ++ q) := by
  fun_induction identifierTail p with
  | case1 =>
    cases q with
    | nil => rfl
    | cons c q =>
      obtain ⟨hc, hd⟩ := h c rfl
      cases q <;> simp [identifierTail, hc, hd]
  | case2 c hc =>
    cases q with
    | nil => simp [identifierTail, hc]
    | cons d q =>
      obtain ⟨hd, hd'⟩ := h d rfl
      cases q <;> simp [identifierTail, hc, hd, hd', pass]
  | case3 c hc =>
    cases q with
    | nil => simp [identifierTail, hc]
    | cons d q => simp [identifierTail, hc, (h d rfl).1]
  | case4 c d cs hc ih =>
    simp only [List.cons_append, identifierTail, hc, if_true, pass] at *
    rw [ih]
  | case5 c d cs hc => simp [identifierTail, hc]

theorem takeClass_before {f : Char → Bool} {q : List Char} (h : ∀ c ∈ q.head?, f c = false)
    (p : List Char) : takeClass f (p ++ q) = ((takeClass f p).1, (takeClass f p).2 ++ q) := by
  induction p with
  | nil =>
    cases q with
    | nil => rfl
    | cons c q => simp [takeClass, h c rfl]
  | cons c p ih =>
    simp only [takeClass, Prod.mk.injEq] at ih
    cases hc : f c <;> simp [takeClass, hc, ih]

theorem digits_before {q : List Char} (still : Still q) (p : List Char) :
    takeClass Char.isDigit (p ++ q) =
      ((takeClass Char.isDigit p).1, (takeClass Char.isDigit p).2 ++ q) :=
  takeClass_before (still.rejects Char.isDigit (by decide)) p

theorem fraction_before {q : List Char} (still : Still q) (p : List Char) :
    fraction (p ++ q) = ((fraction p).1, (fraction p).2 ++ q) := by
  have digit := still.rejects Char.isDigit (by decide)
  fun_cases fraction p with
  | case1 d cs hd =>
    have := digits_before still (d :: cs)
    rw [List.cons_append] at this
    simp [fraction, hd, pass, this]
  | case2 d cs hd => simp [fraction, hd]
  | case3 _ h =>
    rcases p with _ | ⟨c, _ | ⟨d, cs⟩⟩
    · rcases q with _ | ⟨x, q⟩
      · rfl
      · have := still.ne '.' (by decide)
        simp [fraction, this]
    · rcases q with _ | ⟨x, q⟩
      · simp [fraction]
      · by_cases hc : c = '.' <;> simp [fraction, hc, digit x rfl]
    · have hc : c ≠ '.' := fun hc => h d cs (by rw [hc])
      simp [fraction, hc]

theorem exponentDigits_before {q : List Char} (still : Still q) (p : List Char) :
    exponentDigits (p ++ q) = ((exponentDigits p).1, (exponentDigits p).2 ++ q) := by
  have digit := still.rejects Char.isDigit (by decide)
  have plus := still.rejects (fun c => c == '+' || c == '-') (by decide)
  rcases p with _ | ⟨c, _ | ⟨d, cs⟩⟩
  · rcases q with _ | ⟨x, _ | ⟨y, q⟩⟩
    · rfl
    · simp [exponentDigits, digit x rfl]
    · simp only [List.nil_append, exponentDigits, digit x rfl, plus x rfl]
      simp
  · have := digits_before still [c]
    rcases q with _ | ⟨x, q⟩
    · simp
    · simp only [List.cons_append, List.nil_append] at this
      cases hc : c.isDigit <;> simp [exponentDigits, hc, digit x rfl, this]
  · have := digits_before still (c :: d :: cs)
    have := digits_before still (d :: cs)
    simp only [List.cons_append] at *
    simp only [exponentDigits]
    split
    · assumption
    · split
      · simp_all [pass]
      · rfl

theorem exponent_before {q : List Char} (still : Still q) (p : List Char) :
    exponent (p ++ q) = ((exponent p).1, (exponent p).2 ++ q) := by
  rcases p with _ | ⟨c, cs⟩
  · rcases q with _ | ⟨x, q⟩
    · rfl
    · have := still.rejects (fun c => c == 'e' || c == 'E') (by decide) x rfl
      simp [exponent, this]
  · rw [List.cons_append]
    simp only [exponent, exponentDigits_before still]
    split
    · rcases exponentDigits cs with ⟨_ | ⟨d, ds⟩, rest⟩ <;> rfl
    · rfl

theorem hexNumber?_before {q : List Char} (still : Still q) (p : List Char) :
    hexNumber? (p ++ q) = (hexNumber? p).map fun found => (found.1, found.2 ++ q) := by
  have hex := still.rejects isHexDigit (by decide)
  have sign := still.rejects (fun c => c == 'x' || c == 'X') (by decide)
  rcases p with _ | ⟨a, _ | ⟨b, _ | ⟨d, cs⟩⟩⟩
  · rcases q with _ | ⟨x, q⟩
    · rfl
    · have := still.ne '0' (by decide)
      simp [hexNumber?, this]
  · rcases q with _ | ⟨x, _ | ⟨y, q⟩⟩
    · simp [hexNumber?]
    · simp [hexNumber?]
    · by_cases ha : a = '0' <;> simp [hexNumber?, ha, sign x rfl]
  · rcases q with _ | ⟨x, q⟩
    · simp [hexNumber?]
    · by_cases ha : a = '0' <;> simp [hexNumber?, ha, hex x rfl]
  · have := takeClass_before hex (d :: cs)
    rw [List.cons_append] at this
    by_cases ha : a = '0'
    · simp only [hexNumber?, ha, List.cons_append, this]
      split <;> simp [pass]
    · simp [hexNumber?, ha]

theorem number_before {q : List Char} (still : Still q) (p : List Char) :
    number (p ++ q) = ((number p).1, (number p).2 ++ q) := by
  unfold number
  rw [hexNumber?_before still]
  cases hexNumber? p with
  | some found => rfl
  | none => simp only [Option.map_none, digits_before still, fraction_before still, exponent_before still]

theorem quoted_before {quote : Char} {p : List Char}
    (ended : (quoted quote p).2 = true ∨
      (quoted quote p).1.2 ≠ [] ∧ (quoted quote p).1.2 ≠ ['\\']) (q : List Char) :
    quoted quote (p ++ q) =
      (((quoted quote p).1.1, (quoted quote p).1.2 ++ q), (quoted quote p).2) := by
  fun_induction quoted quote p with
  | case2 => cases q <;> simp [quoted]
  | case3 c hc stop =>
    have hn : c = '\n' ∧ quote ≠ '`' := by simp_all
    obtain ⟨rfl, hquote⟩ := hn
    cases q <;> simp [quoted, hc, hquote]
  | _ => simp_all [quoted, pass]

theorem punctuator?_dot {cs : List Char} (h : ∀ rest, cs ≠ '.' :: '.' :: rest) :
    punctuator? ('.' :: cs) = some (.dot, cs) := by
  unfold punctuator?
  split <;> simp_all

theorem punctuator?_equals {cs : List Char} (h : ∀ rest, cs ≠ '>' :: rest) :
    punctuator? ('=' :: cs) = some (.equals, cs) := by
  unfold punctuator?
  split <;> simp_all

theorem punctuator?_before {q : List Char} (still : Still q) {p : List Char} (h : p ≠ []) :
    punctuator? (p ++ q) = (punctuator? p).map fun found => (found.1, found.2 ++ q) := by
  fun_cases punctuator? p with
  | case17 cs more =>
    have := still.ne_cons '.' (by decide)
    refine punctuator?_dot fun rest he => ?_
    rcases cs with _ | ⟨a, _ | ⟨b, cs⟩⟩ <;> simp_all
  | case18 cs more =>
    have := still.ne_cons '>' (by decide)
    refine punctuator?_equals fun rest he => ?_
    cases cs <;> simp_all
  | case21 =>
    obtain ⟨c, cs, rfl⟩ := List.exists_cons_of_ne_nil h
    rw [List.cons_append]
    unfold punctuator?
    split <;> rename_i heq <;> first | rfl | obtain ⟨rfl, heq⟩ := List.cons.inj heq
    case h_3 =>
      rcases cs with _ | ⟨d, cs⟩
      · exact (still.ne_cons '&' (by decide) _ (List.cons.inj heq).2).elim
      · cases heq
        exfalso
        solve_by_elim
    case h_4 =>
      rcases cs with _ | ⟨d, cs⟩
      · exact (still.ne_cons '|' (by decide) _ (List.cons.inj heq).2).elim
      · cases heq
        exfalso
        solve_by_elim
    all_goals
      exfalso
      solve_by_elim
  | _ => simp [punctuator?]

end Lexer

namespace Lexeme

open Lexer

/-- A lexeme that the end of the text broke off: a comment, or a string or template. A backslash at the
end of the text is not taken into a string, but would be with a character after it. -/
def Open (l : Lexeme) : Prop :=
  l.token = none ∧ (['/', '*'] <+: l.text ∨
    l.text.head? ∈ [some '"', some '\'', some '`'] ∧ (l.rest = [] ∨ l.rest = ['\\']))

theorem first_eq (skipped : List Char) (c : Char) (cs : List Char) :
    first skipped c cs = { first [] c cs with skipped } := by
  unfold first
  repeat' split
  all_goals rfl

theorem identifierToken_eq (text rest : List Char) :
    identifierToken text rest =
      match Keyword.ofText? (String.ofList text) with
      | some word => if rest.head? = some '-' then .identifier (String.ofList text) else .keyword word
      | none => .identifier (String.ofList text) := by
  simp only [identifierToken]
  cases Keyword.ofText? (String.ofList text) with
  | none => split <;> simp_all
  | some word =>
    split
    · simp_all
    · rename_i cs _ _ _ _ dash
      have : cs.head? ≠ some '-' := fun h => by
        obtain ⟨tail, rfl⟩ := List.head?_eq_some_iff.1 h
        exact dash tail rfl
      simp_all
    · simp_all

theorem identifierToken_before {q : List Char} (h : EndsName q) (text rest : List Char) :
    identifierToken text (rest ++ q) = identifierToken text rest := by
  have dash : (rest ++ q).head? = some '-' ↔ rest.head? = some '-' := by
    rcases rest with _ | ⟨c, rest⟩
    · simp only [List.nil_append, List.head?_nil, reduceCtorEq, iff_false]
      exact fun hq => (h '-' hq).2 rfl
    · simp
  simp only [identifierToken_eq, dash]

theorem first_before {q : List Char} (still : Still q) {c : Char} {cs : List Char}
    (h : ¬ (first [] c cs).Open) (skipped : List Char) :
    first skipped c (cs ++ q) =
      { first [] c cs with skipped, rest := (first [] c cs).rest ++ q } := by
  unfold first at *
  split
  · rw [identifierTail_before still.endsName]
    simp only [identifierToken_before still.endsName]
  · split
    · have := number_before still (c :: cs)
      rw [List.cons_append] at this
      rw [this]
    · split
      · rename_i hname hdigit hquote
        have ended : (quoted c cs).2 = true ∨
            (quoted c cs).1.2 ≠ [] ∧ (quoted c cs).1.2 ≠ ['\\'] := by
          rw [if_neg hname, if_neg hdigit, if_pos hquote] at h
          cases hclosed : (quoted c cs).2 with
          | true => exact .inl rfl
          | false =>
            refine .inr (not_or.1 fun hrest => h ⟨?_, .inr ⟨?_, hrest⟩⟩)
            · simp [hclosed]
            · simpa using hquote
        rw [quoted_before ended]
      · rename_i hname hdigit hquote
        rw [if_neg hname, if_neg hdigit, if_neg hquote] at h
        have hcomment : ¬ (c = '/' ∧ cs.head? = some '*') := by
          rintro ⟨rfl, hstar⟩
          obtain ⟨cs, rfl⟩ := List.head?_eq_some_iff.1 hstar
          exact h ⟨rfl, .inl ⟨cs, rfl⟩⟩
        have hcomment' : ¬ (c = '/' ∧ (cs ++ q).head? = some '*') := by
          rintro ⟨rfl, hstar⟩
          rcases cs with _ | ⟨d, cs⟩
          · obtain ⟨rest, rfl⟩ := List.head?_eq_some_iff.1 hstar
            exact still.ne '*' (by decide) rfl
          · exact hcomment ⟨rfl, hstar⟩
        have := punctuator?_before still (List.cons_ne_nil c cs)
        rw [List.cons_append] at this
        rw [if_neg hcomment, if_neg hcomment', this]
        cases punctuator? (c :: cs) <;> rfl

/-- Text after a lexeme that no lexeme goes on with leaves it as it is, but that two slashes begin a
comment. -/
theorem next?_before_still {p q : List Char} {l : Lexeme} (h : next? p = some l) (whole : ¬ l.Open)
    (still : Still q) (slash : q.head? = some '/' → l.text ++ l.rest ≠ ['/']) :
    next? (p ++ q) = some { l with rest := l.rest ++ q } := by
  unfold next? at h
  split at h
  · cases h
  · rename_i skipped c cs heq
    cases h
    have plain : ¬ ['/', '*'] <+: c :: cs := by
      rintro ⟨tail, ht⟩
      cases ht
      exact whole ⟨rfl, .inl ⟨tail, rfl⟩⟩
    rw [first_append] at slash
    have hskip := skip_still still .between (p := p)
    rw [heq] at hskip
    have hskip : skip .between (p ++ q) = (skipped, c :: (cs ++ q)) :=
      (hskip (List.cons_ne_nil c cs) plain slash).trans (by rw [List.cons_append])
    have hfirst : ¬ (first [] c cs).Open := by
      rw [first_eq] at whole
      exact whole
    rw [next?, hskip]
    change some (first skipped c (cs ++ q)) = _
    rw [first_before still hfirst, first_eq skipped c cs]

theorem next?_before {p q : List Char} {l : Lexeme} (h : next? p = some l) (whole : ¬ l.Open)
    (quiet : Quiet q) : next? (p ++ q) = some { l with rest := l.rest ++ q } :=
  next?_before_still h whole quiet.still fun hq => absurd hq quiet.no_slash

end Lexeme

end MarkupEditor
