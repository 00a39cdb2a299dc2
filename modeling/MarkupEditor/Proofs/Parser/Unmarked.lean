import MarkupEditor.Proofs.Parser.Comparisons
import MarkupEditor.Proofs.Parser.ErrorPlaces
import MarkupEditor.Proofs.Printer.Reparsing

set_option autoImplicit false

namespace MarkupEditor

open Text Lexer MarkupEditor.Parser

namespace Lexer

/-- What is left of a text after its lexemes. -/
def remainder (cs : List Char) : List Char :=
  (lexemes cs).foldl (fun _ l => l.rest) cs

variable {cs : List Char} {l : Lexeme}

theorem remainder_nil (h : Lexeme.next? cs = none) : remainder cs = cs := by
  rw [remainder, lexemes_nil h, List.foldl_nil]

theorem remainder_cons (h : Lexeme.next? cs = some l) : remainder cs = remainder l.rest := by
  rw [remainder, lexemes_cons h, List.foldl_cons, remainder]

theorem Blank.of_all {gap : List Char} (h : gap.all isTokenBlank = true) : Blank gap := by
  induction gap with
  | nil => exact .nil
  | cons c gap ih =>
    intro cs
    obtain ⟨blank, more⟩ := Bool.and_eq_true_iff.1 (List.all_cons ▸ h)
    rw [List.cons_append, skip_blank blank, ih more]
    rfl

end Lexer

def Throughout (P : List Lexeme → Lexeme → Prop) : List Lexeme → List Lexeme → Prop
  | _, [] => True
  | before, l :: ls => P before l ∧ Throughout P (l :: before) ls

instance Throughout.decidable (P : List Lexeme → Lexeme → Prop) [∀ before l, Decidable (P before l)]
    (before ls : List Lexeme) : Decidable (Throughout P before ls) :=
  match ls with
  | [] => isTrue trivial
  | l :: ls =>
    have := Throughout.decidable P (l :: before) ls
    inferInstanceAs (Decidable (P before l ∧ Throughout P (l :: before) ls))

/-- A string, a template or a comment that is never closed. -/
def Lexeme.Broken (l : Lexeme) : Prop :=
  l.token = none ∧ (['/', '*'] <+: l.text ∨ l.text.head? ∈ [some '"', some '\'', some '`'])

instance (l : Lexeme) : Decidable l.Broken :=
  inferInstanceAs (Decidable (_ ∧ _))

/-- A sign of an increment or a decrement. The plus sign is no token. -/
def Lexeme.isSign (l : Lexeme) : Bool :=
  l.token = some (.punctuator .minus) || (l.token.isNone && l.text = ['+'])

/-- Whether a token ends an operand: a name or a literal, or a closing bracket. -/
def Token.endsOperand : Token → Bool
  | .keyword word => word ≠ .return
  | .punctuator mark => mark.opener?.isSome
  | _ => true

/-- Whether an operand ends with the last of these lexemes, the nearest first. An increment or a decrement is
two signs with nothing between them. -/
def endsOperand : List Lexeme → Bool
  | [] => false
  | l :: before => l.token.any Token.endsOperand ||
      (l.isSign && l.skipped.isEmpty && before.head?.any fun first => first.isSign && first.text = l.text)

/-- An expression whose brackets close and in which every angle comes right after an operand. Nothing in it
breaks off, and it ends with no comment. It may go on from other lexemes, with brackets that are open. -/
structure Unmarked (before : List Lexeme) (opened : List Punctuator) (cs : List Char) : Prop where
  whole : ∀ l ∈ lexemes cs, ¬ l.Broken
  uncommented : (remainder cs).all isTokenBlank = true
  nested : (lexemes cs).foldlM (fun opened l => bracketsAfter opened l.token) opened = some []
  compares : Throughout (fun before l => l.token = some (.punctuator .less) → endsOperand before = true)
    before (lexemes cs)

instance (before : List Lexeme) (opened : List Punctuator) (cs : List Char) : Decidable (Unmarked before opened cs) :=
  decidable_of_iff ((∀ l ∈ lexemes cs, ¬ l.Broken) ∧ (remainder cs).all isTokenBlank = true ∧
      (lexemes cs).foldlM (fun opened l => bracketsAfter opened l.token) opened = some [] ∧
      Throughout (fun before l => l.token = some (.punctuator .less) → endsOperand before = true) before
        (lexemes cs))
    ⟨fun h => ⟨h.1, h.2.1, h.2.2.1, h.2.2.2⟩, fun h => ⟨h.whole, h.uncommented, h.nested, h.compares⟩⟩

/-- The token before a place in an attribute, which is the opening brace where no lexeme is before it. -/
def tokenBefore : List Lexeme → Option Token
  | [] => some (.punctuator .openBrace)
  | l :: _ => l.token

/-- Whether a number is looked at right after a token: one that an expression begins with, or a minus sign. -/
def Token.precedesNumber (token : Token) : Bool :=
  token.precedesExpression || token = .punctuator .minus

def Token.hasValue : Token → Bool
  | .number raw => (numberValue? raw.toList).isSome
  | _ => true

/-- Every number that is looked at has a value, and no angle right after a lexeme without a token looks like
the beginning of a tag. -/
structure Unmistaken (before : List Lexeme) (cs : List Char) : Prop where
  valued : Throughout (fun before l => (tokenBefore before).any Token.precedesNumber = true →
    l.token.all Token.hasValue = true) before (lexemes cs)
  known : Throughout (fun before l => l.token = some (.punctuator .less) → tokenBefore before = none →
    tagFollows ⟨l.rest, 0⟩ = false) before (lexemes cs)

variable {before : List Lexeme} {opened : List Punctuator} {cs tail : List Char} {l : Lexeme} {c d : Cursor}
  {s : Sight}

theorem Lexeme.not_open (h : ¬ l.Broken) : ¬ l.Open :=
  fun ⟨absent, broken⟩ => h ⟨absent, broken.imp_right And.left⟩

theorem endsOperand_token (h : endsOperand before = true) {token : Token} (ht : tokenBefore before = some token) :
    token.precedesMarkup = false ∧ token.precedesExpression = false := by
  cases before with
  | nil => cases h
  | cons l before =>
    simp only [tokenBefore] at ht
    rw [endsOperand, ht, Option.any_some, Bool.or_eq_true_iff] at h
    rcases h with operand | sign
    · cases token with
      | keyword word => cases word <;> first | exact ⟨rfl, rfl⟩ | cases operand
      | punctuator mark => cases mark <;> first | exact ⟨rfl, rfl⟩ | cases operand
      | _ => exact ⟨rfl, rfl⟩
    · have sign : l.isSign = true := (Bool.and_eq_true_iff.1 (Bool.and_eq_true_iff.1 sign).1).1
      rw [Lexeme.isSign, ht] at sign
      cases of_decide_eq_true ((Bool.or_false _).symm.trans sign)
      exact ⟨rfl, rfl⟩

namespace Unmarked

theorem next (h : Unmarked before opened cs) (next : Lexeme.next? cs = some l) :
    ∃ opened', bracketsAfter opened l.token = some opened' ∧ Unmarked (l :: before) opened' l.rest ∧
      ¬ l.Broken ∧ (l.token = some (.punctuator .less) → endsOperand before = true) := by
  obtain ⟨whole, uncommented, nested, compares⟩ := h
  rw [lexemes_cons next] at whole nested compares
  rw [remainder_cons next] at uncommented
  obtain ⟨here, more⟩ := List.forall_mem_cons.1 whole
  obtain ⟨opened', brackets, nested⟩ := Option.bind_eq_some_iff.1 (List.foldlM_cons.symm.trans nested)
  exact ⟨opened', brackets, ⟨more, uncommented, nested, compares.2⟩, here, compares.1⟩

theorem done (h : Unmarked before opened cs) (none : Lexeme.next? cs = none) :
    opened = [] ∧ cs.all isTokenBlank = true := by
  have nested := h.nested
  rw [lexemes_nil none] at nested
  exact ⟨Option.some.inj nested, remainder_nil none ▸ h.uncommented⟩

end Unmarked

theorem Unmistaken.next (h : Unmistaken before cs) (next : Lexeme.next? cs = some l) :
    Unmistaken (l :: before) l.rest ∧
      ((tokenBefore before).any Token.precedesNumber = true → l.token.all Token.hasValue = true) ∧
      (l.token = some (.punctuator .less) → tokenBefore before = none → tagFollows ⟨l.rest, 0⟩ = false) := by
  obtain ⟨valued, known⟩ := h
  rw [lexemes_cons next] at valued known
  exact ⟨⟨valued.2, known.2⟩, valued.1, known.1⟩

theorem sight_of_next? (place : c.rest = cs ++ '}' :: tail) (next : Lexeme.next? cs = some l) (whole : ¬ l.Broken) :
    ∃ s, c.sight? = some s ∧ s.token = l.token ∧ s.stop.rest = l.rest ++ '}' :: tail := by
  have quiet : Quiet ('}' :: tail) := .cons (by decide)
  have found := Lexeme.next?_before next (Lexeme.not_open whole) quiet
  rw [← place] at found
  obtain ⟨s, seen, token, -, -, rest⟩ := Cursor.sight?_of_lexeme found
  exact ⟨s, seen, token, rest⟩

theorem brace_of_blank (place : c.rest = cs ++ '}' :: tail) (blank : cs.all isTokenBlank = true) :
    ∃ s, c.mark? .closeBrace = some s ∧ s.stop.rest = tail := by
  have across : c.Over (cs ++ ['}']) (c.advance (cs ++ ['}']) tail) := ⟨by simp [place, Cursor.advance], rfl⟩
  obtain ⟨s, closing, stop⟩ := Cursor.mark?_of_text .closeBrace (.of_all blank) trivial across
  exact ⟨s, closing, by rw [stop]; rfl⟩

theorem tagFollows_before (h : Unmarked before opened cs) (place : c.rest = cs ++ '}' :: tail)
    (plain : tagFollows ⟨cs, 0⟩ = false) : tagFollows c = false := by
  cases next : Lexeme.next? cs with
  | none =>
    obtain ⟨s, closing, -⟩ := brace_of_blank place (h.done next).2
    obtain ⟨seen, token⟩ := Cursor.mark?_eq_some.1 closing
    rw [tagFollows, seen, Option.bind_some, token]
  | some l =>
    obtain ⟨-, -, -, whole, -⟩ := h.next next
    obtain ⟨s, seen, token, -⟩ := sight_of_next? place next whole
    obtain ⟨t, alone, same, -⟩ := Cursor.sight?_of_lexeme (c := ⟨cs, 0⟩) next
    rw [tagFollows, alone, Option.bind_some, same] at plain
    rw [tagFollows, seen, Option.bind_some, token]
    exact plain

theorem calm_of_unmarked (unmarked : Unmarked before opened cs) (unmistaken : Unmistaken before cs)
    (place : c.rest = cs ++ '}' :: tail) :
    ∃ fin s, Calm fin (opened ++ [.openBrace]) (tokenBefore before) c ∧ fin.mark? .closeBrace = some s ∧
      s.stop.rest = tail := by
  induction n : cs.length using Nat.strongRecOn generalizing before opened cs c with
  | ind n ih =>
    subst n
    cases next : Lexeme.next? cs with
    | none =>
      obtain ⟨rfl, blank⟩ := unmarked.done next
      obtain ⟨s, closing, rest⟩ := brace_of_blank place blank
      exact ⟨c, s, .stop closing, closing, rest⟩
    | some l =>
      obtain ⟨opened', brackets, unmarked', whole, operand⟩ := unmarked.next next
      obtain ⟨unmistaken', valued, known⟩ := unmistaken.next next
      obtain ⟨s, seen, token, rest⟩ := sight_of_next? place next whole
      obtain ⟨fin, t, more, closing, last⟩ := ih _ (next?_length next) unmarked' unmistaken' rest rfl
      refine ⟨fin, t, .take seen (token ▸ Printer.bracketsAfter_append brackets _) (by simp) ?_ ?_
        (token ▸ more), closing, last⟩
      · rintro raw number ⟨token', ht, looked⟩
        have value := valued (by
          rw [ht, Option.any_some, Token.precedesNumber]
          rcases looked with begins | rfl
          · rw [begins, Bool.true_or]
          · rfl)
        rw [← token, number] at value
        exact Option.isSome_iff_exists.1 value
      · intro less
        rw [token] at less
        exact ⟨fun token' ht => endsOperand_token (operand less) ht,
          fun none => tagFollows_before unmarked' rest (known less none)⟩

theorem value_of_unmarked (filled : lexemes cs ≠ []) (unmarked : Unmarked [] [] cs) (unmistaken : Unmistaken [] cs)
    (place : c.rest = '{' :: (cs ++ '}' :: tail)) :
    ∃ e d, Reads .value c (.node e) d ∧ d.rest = tail ∧ Bare e := by
  obtain ⟨s, opening, stop⟩ := Cursor.mark?_of_text .openBrace .nil trivial
    (⟨place, rfl⟩ : c.Over ['{'] (c.advance ['{'] (cs ++ '}' :: tail)))
  have inside : s.stop.rest = cs ++ '}' :: tail := by rw [stop]; rfl
  obtain ⟨fin, t, calm, closing, last⟩ := calm_of_unmarked unmarked unmistaken inside
  have going : s.stop.endsAt [.closeBrace] = false := by
    cases next : Lexeme.next? cs with
    | none => exact absurd (lexemes_nil next) filled
    | some l =>
      obtain ⟨opened, brackets, -, whole, -⟩ := unmarked.next next
      obtain ⟨u, seen, token, -⟩ := sight_of_next? inside next whole
      refine Bool.eq_false_iff.2 fun ended => ?_
      obtain nothing | ⟨v, mark, seen', closes, one⟩ := Cursor.endsAt_cases ended
      · cases seen.symm.trans nothing
      · cases seen.symm.trans seen'
        cases List.mem_singleton.1 one
        rw [← token, closes] at brackets
        cases brackets
  obtain ⟨e, read, bare⟩ := reads_of_calm ⟨_, rfl, calm⟩ going
  have filled := Cursor.mark?_eq_none_of_endsAt going (List.mem_singleton.2 rfl)
  refine ⟨_, _, .valueContainer place opening filled read closing, last, bare_node rfl fun e' he => ?_⟩
  cases List.mem_singleton.1 he
  exact bare

theorem tag_of_unmarked {name key : String} (named : IsElementName name) (named' : IsAttributeName key)
    (filled : lexemes cs ≠ []) (unmarked : Unmarked [] [] cs) (unmistaken : Unmistaken [] cs)
    (place : c.rest = ['<'] ++ (name.toList ++ (([' '] ++ key.toList) ++
      (['='] ++ ('{' :: (cs ++ '}' :: [' ', '/', '>'])))))) :
    ∃ a d, Reads .tag c (.node (shapeAt (.element name [a] [] true) c.pos d.pos)) d ∧ d.rest = [] ∧ Bare a := by
  obtain ⟨c₁, before, across⟩ := Cursor.Over.split (e := ⟨[], c.pos + byteLength c.rest⟩)
    (⟨by rw [List.append_nil, place], by rw [place]⟩ : c.Over _ _)
  obtain ⟨c₂, front, across⟩ := across.split
  obtain ⟨c₃, first, across⟩ := across.split
  obtain ⟨c₄, sign, across⟩ := across.split
  have inside : c₄.rest = '{' :: (cs ++ '}' :: [' ', '/', '>']) := by rw [across.1, List.append_nil]
  obtain ⟨e, d, value, rest, bare⟩ := value_of_unmarked filled unmarked unmistaken inside
  obtain ⟨inTag, last⟩ := Printer.attributes_slash (d := d.advance [' ', '/', '>'] []) ⟨rest, rfl⟩
  obtain ⟨inTag', start, attributes⟩ :=
    Printer.attributes_value named' first sign inside (by decide) value last
  have hname := Printer.readsElementName_of_text named inTag' front
  have angle : Punctuator.less.Clear c₁.rest := trivial
  obtain ⟨s, seen, token, skipped, -, rfl⟩ := Cursor.sight?_of_text .nil before (Lexeme.next?_mark angle)
  have starts : s.start = c := Cursor.Over.nil (skipped ▸ (Cursor.sight?_over seen).1)
  have less := Cursor.mark?_eq_some.2 ⟨seen, token⟩
  have tag := Reads.selfClosing less (Printer.not_mark_of_elementName hname) hname attributes
  rw [starts] at tag
  refine ⟨_, _, tag, rfl, bare_node rfl fun e' he => ?_⟩
  cases List.mem_singleton.1 he
  exact bare

def attributeMarkup (expression : String) : String :=
  "<p x=\x7b" ++ expression ++ "\x7d />"

/-- An expression without markup does not make a markup fail: as the value of an attribute it is accepted, and
the markup has one element. -/
theorem parse_unmarked (expression : String) (filled : lexemes expression.toList ≠ [])
    (unmarked : Unmarked [] [] expression.toList) (unmistaken : Unmistaken [] expression.toList) :
    ∃ t, parse (attributeMarkup expression) = .ok t ∧ t.elements.length = 1 := by
  have p : IsName "p" := ⟨.identifier "p", rfl, rfl⟩
  have x : IsName "x" := ⟨.identifier "x", rfl, rfl⟩
  have text : (attributeMarkup expression).toList = ['<'] ++ ("p".toList ++ (([' '] ++ "x".toList) ++
      (['='] ++ ('{' :: (expression.toList ++ '}' :: [' ', '/', '>']))))) := by
    simp [attributeMarkup]
  have named : IsElementName ("p" ++ "") := .dotted p .done
  obtain ⟨a, d, tag, rest, bare⟩ := tag_of_unmarked (c := ⟨(attributeMarkup expression).toList, 0⟩) named (.plain x)
    filled unmarked unmistaken text
  obtain ⟨all, hall, hpos⟩ := (tag.moves trivial).before
  rw [rest, List.append_nil] at hall
  have stop : d = ⟨[], byteLength (attributeMarkup expression).toList⟩ := by
    cases d
    simp_all
  rw [stop] at tag
  obtain ⟨t, parsed, hshape⟩ := parseWith_of_reads true tag.statements_of_tag
  refine ⟨t, parsed, ?_⟩
  have forms := ((parseWith_reads parsed).1.grounded t.root).elements_form
  rw [← List.length_map t.shape, forms, hshape]
  have none : a.elementForms = [] := bare
  simp [programOf, shapeAt, Shape.elementForms_node, NodeKind.isElement, NodeKind.children, none]

/-- A list with an object, a template, comparisons and a decrement, kept because of what comes after it. -/
theorem parse_unmarked_comparisons :
    let expression := " [a-- < b, `${c}`, \x7bd: -0x1F\x7d, f(1e3) >= 'x' < y] + é "
    lexemes expression.toList ≠ [] ∧ Unmarked [] [] expression.toList ∧ Unmistaken [] expression.toList ∧
      ∃ t, parse (attributeMarkup expression) = .ok t ∧ t.elements.length = 1 := by
  intro expression
  have filled : lexemes expression.toList ≠ [] := by decide +kernel
  have unmarked : Unmarked [] [] expression.toList := by decide +kernel
  have unmistaken : Unmistaken [] expression.toList := ⟨by decide +kernel, by decide +kernel⟩
  exact ⟨filled, unmarked, unmistaken, parse_unmarked expression filled unmarked unmistaken⟩

/-- After an increment, whose signs are no tokens, an angle is taken for a tag, and a number that does not fit
into 64 bits is refused where an expression begins with it. -/
theorem parse_unmarked_mistaken :
    (lexemes "a++ < b".toList ≠ [] ∧ Unmarked [] [] "a++ < b".toList ∧
      ∃ error, parse (attributeMarkup "a++ < b") = .error error) ∧
    (lexemes "0x10000000000000000".toList ≠ [] ∧ Unmarked [] [] "0x10000000000000000".toList ∧
      ∃ error, parse (attributeMarkup "0x10000000000000000") = .error error) := by
  have refused {source : String} (h : (refusal? source).isSome = true) : ∃ error, parse source = .error error :=
    (Option.isSome_iff_exists.1 h).imp fun _ => refusal?_eq_some.1
  exact ⟨⟨by decide +kernel, by decide +kernel, refused (by decide +kernel)⟩,
    by decide +kernel, by decide +kernel, refused (by decide +kernel)⟩

end MarkupEditor
