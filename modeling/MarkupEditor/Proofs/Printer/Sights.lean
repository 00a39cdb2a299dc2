import MarkupEditor.Proofs.Parser.Readings
import MarkupEditor.Proofs.Text.Escapes

set_option autoImplicit false

namespace MarkupEditor

open Text Lexer

namespace Lexer

/-- A text that is passed over before whatever follows it: blanks and complete comments. -/
def Blank (gap : List Char) : Prop :=
  ∀ cs, skip .between (gap ++ cs) = (gap ++ (skip .between cs).1, (skip .between cs).2)

theorem Blank.nil : Blank [] :=
  fun _ => rfl

theorem Blank.one {c : Char} (h : isTokenBlank c = true) : Blank [c] :=
  skip_blank h

theorem skip_plain {c : Char} (blank : isTokenBlank c = false) {cs : List Char}
    (h : c = '/' → cs.head? ≠ some '/' ∧ cs.head? ≠ some '*') :
    skip .between (c :: cs) = ([], c :: cs) := by
  cases cs with
  | nil => simp [skip, blank]
  | cons d cs => 
    by_cases hc : c = '/'
    · have := h hc
      simp_all [skip]
    · simp [skip, blank, hc]

end Lexer

namespace Lexeme

theorem next?_blank {gap : List Char} (blank : Blank gap) (cs : List Char) :
    next? (gap ++ cs) = (next? cs).map fun l => { l with skipped := gap ++ l.skipped } := by
  rw [next?, next?, blank]
  rcases skip .between cs with ⟨skipped, _ | ⟨c, rest⟩⟩
  · rfl
  · change some (first (gap ++ skipped) c rest) = some _
    rw [first_eq (gap ++ skipped), first_eq skipped]

end Lexeme

/-- What has to be true of the text after a mark for it to be that mark and no longer one. -/
def Punctuator.Clear (mark : Punctuator) (cs : List Char) : Prop :=
  match mark with
  | .slash => cs.head? ≠ some '/' ∧ cs.head? ≠ some '*'
  | .dot => ∀ rest, cs ≠ '.' :: '.' :: rest
  | .equals => ∀ rest, cs ≠ '>' :: rest
  | _ => True

theorem Punctuator.text_head (mark : Punctuator) : ∃ c tail, mark.text.toList = c :: tail ∧
    isTokenBlank c = false ∧ beginsIdentifier c = false ∧ c.isDigit = false ∧
    ¬ (c = '"' ∨ c = '\'' ∨ c = '`') ∧ (c = '/' → mark = .slash ∧ tail = []) := by
  cases mark <;> exact ⟨_, _, rfl, by decide, by decide, by decide, by decide, by decide⟩

namespace Lexeme

theorem next?_mark {mark : Punctuator} {cs : List Char} (clear : mark.Clear cs) :
    next? (mark.text.toList ++ cs) = some ⟨[], some (.punctuator mark), mark.text.toList, cs⟩ := by
  have found : punctuator? (mark.text.toList ++ cs) = some (mark, cs) := by
    cases mark with
    | dot => exact punctuator?_dot clear
    | equals => exact punctuator?_equals clear
    | _ => rfl
  obtain ⟨c, tail, htext, hblank, hname, hdigit, hquote, hslash⟩ := mark.text_head
  have comment : c = '/' → (tail ++ cs).head? ≠ some '/' ∧ (tail ++ cs).head? ≠ some '*' := by
    intro hc
    obtain ⟨rfl, rfl⟩ := hslash hc
    exact clear
  have nocomment : ¬ (c = '/' ∧ (tail ++ cs).head? = some '*') := fun h => (comment h.1).2 h.2
  have hcs : mark.text.toList ++ cs = c :: (tail ++ cs) := by rw [htext, List.cons_append]
  rw [hcs] at found
  rw [hcs, next?, skip_plain hblank comment]
  simp only [first, hname, hdigit, hquote, nocomment, found, if_false, Bool.false_eq_true]

end Lexeme

namespace Cursor

/-- The text between two places. -/
def Over (c : Cursor) (text : List Char) (d : Cursor) : Prop :=
  c.rest = text ++ d.rest ∧ d.pos = c.pos + byteLength text

variable {c d e : Cursor} {a b gap text : List Char}

theorem Over.refl (c : Cursor) : c.Over [] c :=
  ⟨rfl, rfl⟩

theorem Over.trans (h : c.Over a d) (h' : d.Over b e) : c.Over (a ++ b) e := by
  refine ⟨?_, ?_⟩
  · rw [h.1, h'.1, List.append_assoc]
  · rw [h'.2, h.2, byteLength_append, Nat.add_assoc]

theorem Over.split (h : c.Over (a ++ b) e) : ∃ d, c.Over a d ∧ d.Over b e := by
  refine ⟨c.advance a (b ++ e.rest), ⟨?_, rfl⟩, rfl, ?_⟩
  · rw [h.1, List.append_assoc]
    rfl
  · rw [h.2, byteLength_append, ← Nat.add_assoc]
    rfl

theorem Over.nil (h : c.Over [] d) : d = c := by
  obtain ⟨hrest, hpos⟩ := h
  cases c
  cases d
  simp_all

theorem Over.unique (h : c.Over a d) (h' : c.Over a e) : d = e := by
  obtain ⟨hrest, hpos⟩ := h
  obtain ⟨hrest', hpos'⟩ := h'
  rw [hrest] at hrest'
  cases d
  cases e
  simp_all

theorem sight?_over {s : Sight} (h : c.sight? = some s) :
    c.Over s.skipped s.start ∧ s.start.Over s.text s.stop := by
  obtain ⟨lexeme, hl, rfl⟩ := Option.map_eq_some_iff.1 h
  obtain ⟨hall, -⟩ := Lexeme.next?_lossless hl
  exact ⟨⟨hall.symm, rfl⟩, rfl, rfl⟩

theorem sight?_of_lexeme {l : Lexeme} (h : Lexeme.next? c.rest = some l) :
    ∃ s, c.sight? = some s ∧ s.token = l.token ∧ s.skipped = l.skipped ∧ s.text = l.text ∧
      s.stop.rest = l.rest := by
  refine ⟨_, congrArg (Option.map _) h, rfl, rfl, rfl, rfl⟩

theorem sight?_of_text {token : Option Token} (blank : Blank gap) (across : c.Over (gap ++ text) d)
    (h : Lexeme.next? (text ++ d.rest) = some ⟨[], token, text, d.rest⟩) :
    ∃ s, c.sight? = some s ∧ s.token = token ∧ s.skipped = gap ∧ s.text = text ∧ s.stop = d := by
  have hall : Lexeme.next? c.rest = some ⟨gap, token, text, d.rest⟩ := by
    rw [across.1, List.append_assoc, Lexeme.next?_blank blank, h]
    simp
  obtain ⟨s, seen, htoken, hskipped, htext, -⟩ := sight?_of_lexeme hall
  refine ⟨s, seen, htoken, hskipped, htext, ?_⟩
  obtain ⟨before, inside⟩ := sight?_over seen
  rw [hskipped] at before
  rw [htext] at inside
  exact (before.trans inside).unique across

theorem mark?_of_text (mark : Punctuator) (blank : Blank gap) (clear : mark.Clear d.rest)
    (across : c.Over (gap ++ mark.text.toList) d) : ∃ s, c.mark? mark = some s ∧ s.stop = d := by
  obtain ⟨s, seen, token, -, -, stop⟩ := sight?_of_text blank across (Lexeme.next?_mark clear)
  exact ⟨s, mark?_eq_some.2 ⟨seen, token⟩, stop⟩

end Cursor

/-- The spelling of the token is one lexeme, which is the token. -/
def Token.Whole (token : Token) : Prop :=
  Lexeme.next? token.text.toList = some ⟨[], some token, token.text.toList, []⟩

theorem Token.text_of_name {token : Token} {name : String} (h : token.name? = some name) :
    token.text = name := by
  cases token <;> simp_all [Token.name?, Token.text]

theorem Lexer.plain_of_class {inside : Char → Bool} {c : Char}
    (outside : [' ', '\t', '\n', '\r', '\x0c', '/'].any inside = false) (h : inside c = true) :
    isTokenBlank c = false ∧ c ≠ '/' := by
  have apart : ∀ b ∈ [' ', '\t', '\n', '\r', '\x0c', '/'], c ≠ b := by
    rintro b hb rfl
    exact List.any_eq_false.1 outside c hb h
  simpa [isTokenBlank, and_assoc] using apart

theorem Lexer.beginsIdentifier_spec {c : Char} (h : beginsIdentifier c = true) :
    isTokenBlank c = false ∧ c ≠ '/' :=
  plain_of_class (by decide) h

namespace Lexeme

theorem name_spec {c : Char} {cs skipped text rest : List Char} {token : Token}
    (h : first skipped c cs = ⟨skipped, some token, text, rest⟩) (named : token.name?.isSome = true) :
    beginsIdentifier c = true ∧ text = c :: (identifierTail cs).1 ∧ rest = (identifierTail cs).2 ∧
      token = identifierToken text rest := by
  unfold first at h
  split at h
  · simp only [mk.injEq, Option.some.injEq, true_and] at h
    obtain ⟨rfl, rfl, rfl⟩ := h
    exact ⟨‹_›, rfl, rfl, rfl⟩
  · exfalso
    split at h
    · cases h
      cases named
    · split at h
      · simp only [mk.injEq, true_and] at h
        revert h
        split
        · split <;> rintro ⟨h, -⟩ <;> cases h <;> cases named
        · rintro ⟨h, -⟩
          cases h
      · split at h
        · cases h
        · split at h <;> cases h
          cases named

theorem name_whole {token : Token} {name : String} (whole : token.Whole)
    (named : token.name? = some name) :
    ∃ c tail, name.toList = c :: tail ∧ beginsIdentifier c = true ∧ identifierTail tail = (tail, []) ∧
      token = identifierToken (c :: tail) [] := by
  have hall := skip_append .between name.toList
  unfold Token.Whole at whole
  rw [token.text_of_name named] at whole
  unfold next? at whole
  split at whole
  · cases whole
  · rename_i skipped c rest heq
    rw [heq] at hall
    have hfirst := Option.some.inj whole
    have hskipped := first_skipped skipped c rest
    rw [hfirst] at hskipped
    subst hskipped
    obtain ⟨hbegins, htext, hrest, htoken⟩ := name_spec hfirst (by rw [named]; rfl)
    have htail := identifierTail_append rest
    rw [← hrest, List.append_nil] at htail
    refine ⟨c, rest, hall.symm, hbegins, Prod.ext htail hrest.symm, ?_⟩
    rwa [← hall] at htoken

theorem next?_name {token : Token} {name : String} (whole : token.Whole)
    (named : token.name? = some name) {cs : List Char} (ends : EndsName cs) :
    next? (name.toList ++ cs) = some ⟨[], some token, name.toList, cs⟩ := by
  obtain ⟨c, tail, htext, hbegins, htail, rfl⟩ := name_whole whole named
  obtain ⟨hblank, hslash⟩ := beginsIdentifier_spec hbegins
  have htoken := identifierToken_before ends (c :: tail) []
  have htail' : identifierTail (tail ++ cs) = (tail, cs) := by
    rw [identifierTail_before ends, htail]
    rfl
  rw [List.nil_append] at htoken
  rw [htext, List.cons_append, next?, skip_plain hblank (absurd · hslash)]
  simp only [first, hbegins, if_true, htail', htoken]

end Lexeme

/-- A name as it stands in a tag: the whole of an identifier or a keyword. -/
def IsName (name : String) : Prop :=
  ∃ token : Token, token.Whole ∧ token.name? = some name

theorem IsName.head {name : String} (h : IsName name) :
    ∃ c tail, name.toList = c :: tail ∧ beginsIdentifier c = true := by
  obtain ⟨token, whole, named⟩ := h
  obtain ⟨c, tail, htext, hbegins, -⟩ := Lexeme.name_whole whole named
  exact ⟨c, tail, htext, hbegins⟩

namespace Cursor

variable {c d : Cursor} {gap : List Char}

theorem sight?_of_token {token : Token} (whole : token.Whole) (blank : Blank gap)
    (quiet : Quiet d.rest) (across : c.Over (gap ++ token.text.toList) d) :
    ∃ s, c.sight? = some s ∧ s.token = some token ∧ s.skipped = gap ∧ s.text = token.text.toList ∧
      s.stop = d := by
  refine sight?_of_text blank across ?_
  have := Lexeme.next?_before whole (fun h => Option.some_ne_none _ h.1) quiet
  simpa using this

theorem sight?_of_name {token : Token} {name : String} (whole : token.Whole)
    (named : token.name? = some name) (blank : Blank gap) (ends : EndsName d.rest)
    (across : c.Over (gap ++ name.toList) d) :
    ∃ s, c.sight? = some s ∧ s.token = some token ∧ s.stop = d := by
  obtain ⟨s, seen, token, -, -, stop⟩ :=
    sight?_of_text blank across (Lexeme.next?_name whole named ends)
  exact ⟨s, seen, token, stop⟩

end Cursor

namespace Cursor

variable {c d : Cursor} {s : Sight} {mark : Punctuator} {ends : List Punctuator}

theorem endsAt_of_mark (h : c.mark? mark = some s) (hm : mark ∈ ends) : c.endsAt ends = true := by
  obtain ⟨seen, token⟩ := mark?_eq_some.1 h
  simpa [endsAt, seen, token, Token.isOneOf] using hm

theorem endsAt_eq_false {token : Token} (seen : c.sight? = some s) (h : s.token = some token)
    (opens : token.isOneOf ends = false) : c.endsAt ends = false := by
  simp [endsAt, seen, h, opens]

theorem mark?_eq_none_of_sight {token : Option Token} (seen : c.sight? = some s) (h : s.token = token)
    (hne : token ≠ some (.punctuator mark)) : c.mark? mark = none := by
  rw [mark?_eq_none]
  intro s' seen'
  rw [seen] at seen'
  cases seen'
  rwa [h]

theorem mark?_eq_none_of_mark {other : Punctuator} (h : c.mark? mark = some s) (hne : mark ≠ other) :
    c.mark? other = none := by
  obtain ⟨seen, token⟩ := mark?_eq_some.1 h
  refine mark?_eq_none_of_sight seen token fun he => hne ?_
  cases he
  rfl

theorem mark?_eq_none_of_endsAt (h : c.endsAt ends = false) (hm : mark ∈ ends) :
    c.mark? mark = none := by
  cases hc : c.mark? mark with
  | none => rfl
  | some s => rw [endsAt_of_mark hc hm] at h; cases h

theorem separator?_comma (closing : Punctuator) (h : c.mark? .comma = some s) :
    c.separator? closing = some s.stop := by
  rw [separator?, h]

theorem separator?_closing {closing : Punctuator} (h : c.mark? closing = some s)
    (hne : closing ≠ .comma) : c.separator? closing = some c := by
  rw [separator?, mark?_eq_none_of_mark h hne, h]
  rfl

theorem mark_of_separator {closing : Punctuator} (h : (c.separator? closing).isSome = true) :
    ∃ mark s, c.mark? mark = some s ∧ (mark = .comma ∨ mark = closing) := by
  cases hc : c.mark? .comma with
  | some s => exact ⟨_, s, hc, .inl rfl⟩
  | none =>
    cases hm : c.mark? closing with
    | some s => exact ⟨_, s, hm, .inr rfl⟩
    | none => simp [separator?, hc, hm] at h

end Cursor

namespace Lexer

theorem quoted_pass {quote c : Char} {cs : List Char} (hquote : c ≠ quote) (hslash : c ≠ '\\')
    (hline : c ≠ '\n') (hne : cs ≠ []) :
    quoted quote (c :: cs) = (pass c (quoted quote cs).1, (quoted quote cs).2) := by
  obtain ⟨d, cs, rfl⟩ := List.exists_cons_of_ne_nil hne
  simp [quoted, hquote, hslash, hline]

theorem quoted_escape {quote c : Char} (hquote : quote ≠ '\\') (hline : c ≠ '\n') (cs : List Char) :
    quoted quote ('\\' :: c :: cs) = (pass '\\' (pass c (quoted quote cs).1), (quoted quote cs).2) := by
  simp [quoted, hquote.symm, hline]

theorem quoted_quoteChar (c : Char) {cs : List Char} (hne : cs ≠ []) :
    quoted '"' (quoteChar c ++ cs) =
      ((quoteChar c ++ (quoted '"' cs).1.1, (quoted '"' cs).1.2), (quoted '"' cs).2) := by
  unfold quoteChar
  split
  case h_6 => exact quoted_pass ‹_› ‹_› ‹_› hne
  all_goals exact quoted_escape (by decide) (by decide) cs

theorem quoted_quote (value rest : List Char) :
    quoted '"' (value.flatMap quoteChar ++ '"' :: rest) =
      ((value.flatMap quoteChar ++ ['"'], rest), true) := by
  induction value with
  | nil => cases rest <;> rfl
  | cons c value ih =>
    rw [List.flatMap_cons, List.append_assoc, quoted_quoteChar c (by simp), ih]
    simp

end Lexer

theorem Lexeme.next?_quote (value rest : List Char) :
    next? (quote value ++ rest) =
      some ⟨[], some (.string (String.ofList (quote value))), quote value, rest⟩ := by
  have quoted := quoted_quote value rest
  have name : beginsIdentifier '"' = false := by decide
  simp only [quote, List.cons_append, List.append_assoc, List.nil_append]
  rw [next?, skip_plain (by decide) (fun h => absurd h (by decide))]
  simp [first, quoted, name]

theorem whole_quote (value : List Char) : (Token.string (String.ofList (quote value))).Whole := by
  have whole := Lexeme.next?_quote value []
  rw [List.append_nil] at whole
  rw [Token.Whole, Token.text, String.toList_ofList, whole]

theorem stringValue_quote (value : String) :
    Parser.stringValue (String.ofList (quote value.toList)) = .string value := by
  rw [Parser.stringValue, String.toList_ofList, unquote_quote, String.ofList_toList]

end MarkupEditor
