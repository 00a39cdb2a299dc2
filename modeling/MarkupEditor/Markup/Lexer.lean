import MarkupEditor.Markup.Token
import MarkupEditor.Text.Blank
/-!
# Lexing

`Lexeme.next?` reads the first lexeme of a text: it passes over blanks and comments and takes the
longest token. What no token matches is a lexeme without a token: one character, a string or template
up to the place where it breaks off, or a comment that is never closed. Nothing is lost: what was passed
over, the lexeme's text and the rest are the text again (`Lexeme.next?_lossless`), and a lexeme is
never empty. So a text is cut into its lexemes one after the other (`Lexer.lexemes`).
-/

set_option autoImplicit false

namespace MarkupEditor

open Text

namespace Lexer

def closesComment : List Char → Bool
  | [] => false
  | [_] => false
  | c :: d :: cs => (c == '*' && d == '/') || closesComment (d :: cs)

inductive Gap where
  | between
  | lineComment
  | blockComment

def pass (c : Char) (r : List Char × List Char) : List Char × List Char :=
  (c :: r.1, r.2)

def skip : Gap → List Char → List Char × List Char
  | _, [] => ([], [])
  | .between, [c] => if isTokenBlank c then ([c], []) else ([], [c])
  | .between, c :: d :: cs =>
    if isTokenBlank c then pass c (skip .between (d :: cs))
    else if c = '/' ∧ d = '/' then pass c (pass d (skip .lineComment cs))
    else if c = '/' ∧ d = '*' ∧ closesComment cs then pass c (pass d (skip .blockComment cs))
    else ([], c :: d :: cs)
  | .lineComment, c :: cs =>
    if c = '\n' then pass c (skip .between cs) else pass c (skip .lineComment cs)
  | .blockComment, [c] => ([c], [])
  | .blockComment, c :: d :: cs =>
    if c = '*' ∧ d = '/' then pass c (pass d (skip .between cs))
    else pass c (skip .blockComment (d :: cs))

theorem skip_append (gap : Gap) (cs : List Char) : (skip gap cs).1 ++ (skip gap cs).2 = cs := by
  fun_induction skip gap cs <;> simp_all [pass]

def beginsIdentifier (c : Char) : Bool :=
  c.isAlpha || c == '_' || c == '$'

def continuesIdentifier (c : Char) : Bool :=
  c.isAlphanum || c == '_' || c == '$'

/-- The rest of an identifier: its characters, and dashes that have one of them right after. -/
def identifierTail : List Char → List Char × List Char
  | [] => ([], [])
  | [c] => if continuesIdentifier c then ([c], []) else ([], [c])
  | c :: d :: cs =>
    if continuesIdentifier c || (c == '-' && continuesIdentifier d) then
      pass c (identifierTail (d :: cs))
    else ([], c :: d :: cs)

theorem identifierTail_append (cs : List Char) :
    (identifierTail cs).1 ++ (identifierTail cs).2 = cs := by
  fun_induction identifierTail cs <;> simp_all [pass]

def takeClass (p : Char → Bool) (cs : List Char) : List Char × List Char :=
  (cs.takeWhile p, cs.dropWhile p)

theorem takeClass_append (p : Char → Bool) (cs : List Char) :
    (takeClass p cs).1 ++ (takeClass p cs).2 = cs :=
  List.takeWhile_append_dropWhile

/-- A fraction with its point, if at least one digit follows the point. -/
def fraction : List Char → List Char × List Char
  | '.' :: d :: cs => if d.isDigit then pass '.' (takeClass Char.isDigit (d :: cs)) else ([], '.' :: d :: cs)
  | cs => ([], cs)

theorem fraction_append (cs : List Char) : (fraction cs).1 ++ (fraction cs).2 = cs := by
  fun_cases fraction cs <;> simp_all [pass, takeClass]

/-- The digits of an exponent after its letter, with an optional sign; empty without a digit. -/
def exponentDigits : List Char → List Char × List Char
  | c :: cs =>
    if c.isDigit then takeClass Char.isDigit (c :: cs)
    else match cs with
      | d :: rest =>
        if (c == '+' || c == '-') && d.isDigit then pass c (takeClass Char.isDigit (d :: rest))
        else ([], c :: d :: rest)
      | [] => ([], [c])
  | [] => ([], [])

theorem exponentDigits_append (cs : List Char) :
    (exponentDigits cs).1 ++ (exponentDigits cs).2 = cs := by
  fun_cases exponentDigits cs <;> simp_all [pass, takeClass]

/-- An exponent with its letter, if at least one digit follows. -/
def exponent : List Char → List Char × List Char
  | [] => ([], [])
  | c :: cs =>
    if c == 'e' || c == 'E' then
      match exponentDigits cs with
      | ([], _) => ([], c :: cs)
      | (digits, rest) => (c :: digits, rest)
    else ([], c :: cs)

theorem exponent_append (cs : List Char) : (exponent cs).1 ++ (exponent cs).2 = cs := by
  cases cs with
  | nil => rfl
  | cons c cs =>
    have h := exponentDigits_append cs
    simp only [exponent]
    split
    · split <;> simp_all
    · rfl

def isHexDigit (c : Char) : Bool :=
  c.isDigit || ('a' ≤ c && c ≤ 'f') || ('A' ≤ c && c ≤ 'F')

/-- The hexadecimal digits after `0x`, if there is one. -/
def hexNumber? : List Char → Option (List Char × List Char)
  | '0' :: x :: d :: cs =>
    if (x == 'x' || x == 'X') && isHexDigit d then
      some (pass '0' (pass x (takeClass isHexDigit (d :: cs))))
    else none
  | _ => none

theorem hexNumber?_append {cs : List Char} {found : List Char × List Char}
    (h : hexNumber? cs = some found) : found.1 ++ found.2 = cs := by
  unfold hexNumber? at h
  split at h
  · split at h
    · simp only [Option.some.injEq] at h
      subst h
      simp [pass, takeClass]
    · simp at h
  · simp at h

def number (cs : List Char) : List Char × List Char :=
  match hexNumber? cs with
  | some found => found
  | none =>
    let (whole, afterWhole) := takeClass Char.isDigit cs
    let (part, afterPart) := fraction afterWhole
    let (power, rest) := exponent afterPart
    (whole ++ part ++ power, rest)

theorem number_append (cs : List Char) : (number cs).1 ++ (number cs).2 = cs := by
  unfold number
  split
  · exact hexNumber?_append ‹_›
  · simp only [List.append_assoc]
    rw [exponent_append, fraction_append, takeClass_append]

theorem number_ne_nil {c : Char} (h : c.isDigit = true) (cs : List Char) :
    (number (c :: cs)).1 ≠ [] := by
  unfold number
  split
  · rename_i found hfound
    unfold hexNumber? at hfound
    split at hfound
    · split at hfound
      · simp only [Option.some.injEq] at hfound
        subst hfound
        exact List.cons_ne_nil _ _
      · simp at hfound
    · simp at hfound
  · simp [takeClass, h]

/-- The characters after an opening quote up to the closing one. A backslash takes the next character
with it unless that ends the line; a line may only end inside back quotes. The last component tells
whether the closing quote was found. -/
def quoted (quote : Char) : List Char → (List Char × List Char) × Bool
  | [] => (([], []), false)
  | [c] => if c = quote then (([c], []), true)
    else if c = '\\' ∨ (c = '\n' ∧ quote ≠ '`') then (([], [c]), false)
    else (([c], []), false)
  | c :: d :: cs =>
    if c = quote then (([c], d :: cs), true)
    else if c = '\\' then
      if d = '\n' then (([], c :: d :: cs), false)
      else
        let (found, closed) := quoted quote cs
        (pass c (pass d found), closed)
    else if c = '\n' ∧ quote ≠ '`' then (([], c :: d :: cs), false)
    else
      let (found, closed) := quoted quote (d :: cs)
      (pass c found, closed)

theorem quoted_append (quote : Char) (cs : List Char) :
    (quoted quote cs).1.1 ++ (quoted quote cs).1.2 = cs := by
  fun_induction quoted quote cs <;> simp_all [pass]

def punctuator? : List Char → Option (Punctuator × List Char)
  | '.' :: '.' :: '.' :: cs => some (.ellipsis, cs)
  | '=' :: '>' :: cs => some (.arrow, cs)
  | '&' :: '&' :: cs => some (.and, cs)
  | '|' :: '|' :: cs => some (.or, cs)
  | '<' :: cs => some (.less, cs)
  | '>' :: cs => some (.greater, cs)
  | '/' :: cs => some (.slash, cs)
  | '{' :: cs => some (.openBrace, cs)
  | '}' :: cs => some (.closeBrace, cs)
  | '(' :: cs => some (.openParen, cs)
  | ')' :: cs => some (.closeParen, cs)
  | '[' :: cs => some (.openBracket, cs)
  | ']' :: cs => some (.closeBracket, cs)
  | ':' :: cs => some (.colon, cs)
  | ';' :: cs => some (.semicolon, cs)
  | ',' :: cs => some (.comma, cs)
  | '.' :: cs => some (.dot, cs)
  | '=' :: cs => some (.equals, cs)
  | '?' :: cs => some (.question, cs)
  | '-' :: cs => some (.minus, cs)
  | _ => none

theorem punctuator?_append {cs : List Char} {mark : Punctuator} {rest : List Char}
    (h : punctuator? cs = some (mark, rest)) : mark.text.toList ++ rest = cs := by
  unfold punctuator? at h
  split at h <;> simp at h <;> obtain ⟨rfl, rfl⟩ := h <;> rfl

/-- The token that an identifier's spelling makes, before `rest`. A keyword is one only where no dash
follows. -/
def identifierToken (text : List Char) (rest : List Char) : Token :=
  let name := String.ofList text
  match Keyword.ofText? name, rest with
  | some _, '-' :: _ => .identifier name
  | some word, _ => .keyword word
  | none, _ => .identifier name

end Lexer

/-- The first lexeme of a text: what was passed over before it, its token if there is one, its own
text and what follows. -/
structure Lexeme where
  skipped : List Char
  token : Option Token
  text : List Char
  rest : List Char

namespace Lexeme

open Lexer

def first (skipped : List Char) (c : Char) (cs : List Char) : Lexeme :=
  if beginsIdentifier c then
    let (tail, rest) := identifierTail cs
    ⟨skipped, some (identifierToken (c :: tail) rest), c :: tail, rest⟩
  else if c.isDigit then
    let (text, rest) := number (c :: cs)
    ⟨skipped, some (.number (String.ofList text)), text, rest⟩
  else if c = '"' ∨ c = '\'' ∨ c = '`' then
    let ((tail, rest), closed) := quoted c cs
    let raw := String.ofList (c :: tail)
    let token := if closed then some (if c = '`' then Token.template raw else Token.string raw) else none
    ⟨skipped, token, c :: tail, rest⟩
  else if c = '/' ∧ cs.head? = some '*' then ⟨skipped, none, c :: cs, []⟩
  else match punctuator? (c :: cs) with
    | some (mark, rest) => ⟨skipped, some (.punctuator mark), mark.text.toList, rest⟩
    | none => ⟨skipped, none, [c], cs⟩

/-- The first lexeme of a text; `none` if nothing but blanks and comments is left. -/
def next? (cs : List Char) : Option Lexeme :=
  match skip .between cs with
  | (_, []) => none
  | (skipped, c :: rest) => some (first skipped c rest)

theorem first_append (skipped : List Char) (c : Char) (cs : List Char) :
    (first skipped c cs).text ++ (first skipped c cs).rest = c :: cs := by
  unfold first
  split
  · exact congrArg (c :: ·) (identifierTail_append cs)
  · split
    · exact number_append (c :: cs)
    · split
      · exact congrArg (c :: ·) (quoted_append c cs)
      · split
        · simp
        · split
          · exact punctuator?_append ‹_›
          · rfl

theorem first_skipped (skipped : List Char) (c : Char) (cs : List Char) :
    (first skipped c cs).skipped = skipped := by
  unfold first
  repeat' split
  all_goals rfl

theorem punctuatorText_ne_nil (mark : Punctuator) : mark.text.toList ≠ [] := by
  cases mark <;> decide

theorem first_text_ne_nil (skipped : List Char) (c : Char) (cs : List Char) :
    (first skipped c cs).text ≠ [] := by
  unfold first
  split
  · exact List.cons_ne_nil _ _
  · split
    · exact number_ne_nil ‹_› cs
    · split
      · exact List.cons_ne_nil _ _
      · split
        · exact List.cons_ne_nil _ _
        · split
          · exact punctuatorText_ne_nil _
          · exact List.cons_ne_nil _ _

theorem next?_lossless {cs : List Char} {lexeme : Lexeme} (h : next? cs = some lexeme) :
    lexeme.skipped ++ (lexeme.text ++ lexeme.rest) = cs ∧ lexeme.text ≠ [] := by
  have hskip := skip_append .between cs
  unfold next? at h
  split at h
  · simp at h
  · rename_i skipped c rest heq
    simp only [Option.some.injEq] at h
    subst h
    rw [heq] at hskip
    exact ⟨by rw [first_skipped, first_append, hskip], first_text_ne_nil skipped c rest⟩

end Lexeme

namespace Lexer

def lexemesTo : Nat → List Char → List Lexeme
  | 0, _ => []
  | n + 1, cs =>
    match Lexeme.next? cs with
    | none => []
    | some l => l :: lexemesTo n l.rest

/-- The lexemes of a text, one after the other. None is empty, so there are no more than characters. -/
def lexemes (cs : List Char) : List Lexeme :=
  lexemesTo cs.length cs

variable {cs : List Char} {l : Lexeme}

theorem next?_length (h : Lexeme.next? cs = some l) : l.rest.length < cs.length := by
  obtain ⟨hall, filled⟩ := Lexeme.next?_lossless h
  have := List.length_pos_iff.2 filled
  rw [← hall, List.length_append, List.length_append]
  omega

theorem lexemesTo_eq {m n : Nat} (hm : cs.length ≤ m) (hn : cs.length ≤ n) : lexemesTo m cs = lexemesTo n cs := by
  induction m generalizing n cs with
  | zero =>
    cases List.eq_nil_of_length_eq_zero (Nat.le_zero.1 hm)
    cases n <;> rfl
  | succ m ih =>
    cases n with
    | zero =>
      cases List.eq_nil_of_length_eq_zero (Nat.le_zero.1 hn)
      rfl
    | succ n =>
      simp only [lexemesTo]
      cases next : Lexeme.next? cs with
      | none => rfl
      | some l =>
        have := next?_length next
        exact congrArg (l :: ·) (ih (by omega) (by omega))

theorem lexemes_nil (h : Lexeme.next? cs = none) : lexemes cs = [] := by
  rw [lexemes]
  cases cs.length with
  | zero => rfl
  | succ n => rw [lexemesTo, h]

theorem lexemes_cons (h : Lexeme.next? cs = some l) : lexemes cs = l :: lexemes l.rest := by
  have shorter := next?_length h
  rw [lexemes, lexemesTo_eq (Nat.le_refl _) (Nat.le_succ _), lexemesTo, h]
  exact congrArg (l :: ·) (lexemesTo_eq (Nat.le_of_lt shorter) (Nat.le_refl _))

end Lexer

end MarkupEditor
