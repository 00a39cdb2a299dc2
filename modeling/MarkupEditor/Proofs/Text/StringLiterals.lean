import Mathlib.Algebra.Group.Nat.Defs
import MarkupEditor.Proofs.Printer.Sights
import MarkupEditor.Proofs.Text.Utf16
/-!
# The values of string literals

A script string literal is a sequence of pieces: characters, escapes of one character, hexadecimal
escapes and line continuations. Each piece stands for code units, and the value of the literal is the
text with these units. `unquote` reads each piece by itself, as one character or as what stands behind
the backslash. That is the value just if each piece stands for a character.
-/

set_option autoImplicit false

namespace MarkupEditor

open Text Lexer

namespace Text

inductive LineEnd where
  | lineFeed
  | carriageReturn
  | both
  | lineSeparator
  | paragraphSeparator
  deriving DecidableEq

def LineEnd.text : LineEnd → List Char
  | .lineFeed => ['\n']
  | .carriageReturn => ['\r']
  | .both => ['\r', '\n']
  | .lineSeparator => ['\u2028']
  | .paragraphSeparator => ['\u2029']

inductive Piece where
  | plain (c : Char)
  | escape (c : Char)
  | hex (high low : Char)
  | unit (a b c d : Char)
  | codePoint (digits : List Char)
  | continuation (ending : LineEnd)
  deriving DecidableEq

def hexValue (digits : List Char) : Nat :=
  digits.foldl (fun n c => n * 16 + (digitValue? c).getD 0) 0

def escaped : Char → Char
  | 'b' => '\x08'
  | 't' => '\t'
  | 'n' => '\n'
  | 'v' => '\x0b'
  | 'f' => '\x0c'
  | 'r' => '\r'
  | '0' => '\x00'
  | c => c

namespace Piece

def text : Piece → List Char
  | plain c => [c]
  | escape c => ['\\', c]
  | hex high low => ['\\', 'x', high, low]
  | unit a b c d => ['\\', 'u', a, b, c, d]
  | codePoint digits => '\\' :: 'u' :: '{' :: (digits ++ ['}'])
  | continuation ending => '\\' :: ending.text

/-- The code units that a piece stands for. A line continuation stands for none. -/
def units : Piece → List Nat
  | plain c => utf16 c.toNat
  | escape c => utf16 (escaped c).toNat
  | hex high low => [hexValue [high, low]]
  | unit a b c d => [hexValue [a, b, c, d]]
  | codePoint digits => utf16 (hexValue digits)
  | continuation _ => []

def fits (quote : Char) : Piece → Bool
  | plain c => c ∉ [quote, '\\', '\n', '\r']
  | escape c => c ∉ "123456789xu\n\r\u2028\u2029".toList
  | hex high low => [high, low].all isHexDigit
  | unit a b c d => [a, b, c, d].all isHexDigit
  | codePoint digits => digits ≠ [] && digits.all isHexDigit && hexValue digits < 0x110000
  | continuation _ => true

/-- The character that a piece stands for by itself. Half of a surrogate pair and a line continuation stand
for none. -/
def char? : Piece → Option Char
  | plain c => some c
  | escape c => some (escaped c)
  | hex high low => charOfCode (hexValue [high, low])
  | unit a b c d => charOfCode (hexValue [a, b, c, d])
  | codePoint digits => charOfCode (hexValue digits)
  | continuation _ => none

def read : Piece → List Char
  | continuation .lineFeed => []
  | continuation ending => ending.text
  | p => [p.char?.getD '\ufffd']

end Piece

/-- Whether pieces make a literal in the given quotes. A digit may not follow the escape of a zero. -/
def fitTogether (quote : Char) : List Piece → Bool
  | [] => true
  | p :: ps =>
    p.fits quote && (p ≠ .escape '0' || !(ps.flatMap Piece.text).head?.any Char.isDigit) && fitTogether quote ps

def literal (quote : Char) (ps : List Piece) : List Char :=
  quote :: (ps.flatMap Piece.text ++ [quote])

theorem betweenQuotes_wrap {quote : Char} (hquote : quote = '"' ∨ quote = '\'') (body : List Char) :
    betweenQuotes (quote :: (body ++ [quote])) = body := by
  have one : quote.utf8Size = 1 := by
    rcases hquote with rfl | rfl <;> decide
  simp [betweenQuotes, one]

/-! ### Hexadecimal digits -/

theorem hexDigit_spec {c : Char} (h : isHexDigit c = true) :
    (∃ n < 16, digitValue? c = some n ∧ digitBelow? 16 c = some n) ∧
      c ∉ ['"', '\'', '\\', '\n', '{', '}', '+'] := by
  have ascii : c.toNat < 128 := by
    simp only [isHexDigit, Char.isDigit, Bool.or_eq_true, Bool.and_eq_true, decide_eq_true_eq] at h
    rcases h with (⟨-, h⟩ | ⟨-, h⟩) | ⟨-, h⟩ <;> exact Nat.lt_of_le_of_lt (UInt32.le_iff_toNat_le.1 h) (by decide)
  have all : ∀ n < 128, isHexDigit (Char.ofNat n) = true → (digitBelow? 16 (Char.ofNat n)).isSome = true ∧
      Char.ofNat n ∉ ['"', '\'', '\\', '\n', '{', '}', '+'] := by decide
  have spec := all c.toNat ascii
  rw [Char.ofNat_toNat] at spec
  obtain ⟨some, plain⟩ := spec h
  obtain ⟨n, hn⟩ := Option.isSome_iff_exists.1 some
  obtain ⟨value, below⟩ := Option.filter_eq_some_iff.1 hn
  exact ⟨⟨n, of_decide_eq_true below, value, hn⟩, plain⟩

theorem readDigits_hex {digits : List Char} (h : ∀ c ∈ digits, isHexDigit c = true) (value : Nat) :
    readDigits 16 value digits =
      some (digits.foldl (fun n c => n * 16 + (digitValue? c).getD 0) value) := by
  induction digits generalizing value with
  | nil => rfl
  | cons c digits ih =>
    obtain ⟨⟨n, -, hvalue, hbelow⟩, -⟩ := hexDigit_spec (h c List.mem_cons_self)
    rw [readDigits, hbelow, Option.bind_some, ih fun d hd => h d (List.mem_cons_of_mem c hd), List.foldl_cons,
      hvalue, Option.getD_some]

theorem hexValue_lt {digits : List Char} (h : ∀ c ∈ digits, isHexDigit c = true) :
    hexValue digits < 16 ^ digits.length := by
  have go (value : Nat) : digits.foldl (fun n c => n * 16 + (digitValue? c).getD 0) value <
      (value + 1) * 16 ^ digits.length := by
    induction digits generalizing value with
    | nil => simp
    | cons c digits ih =>
      obtain ⟨⟨n, hn, hvalue, -⟩, -⟩ := hexDigit_spec (h c List.mem_cons_self)
      have step := ih (fun d hd => h d (List.mem_cons_of_mem c hd)) (value * 16 + n)
      rw [List.foldl_cons, hvalue, Option.getD_some, List.length_cons, Nat.pow_succ']
      refine Nat.lt_of_lt_of_le step ?_
      rw [← Nat.mul_assoc]
      exact Nat.mul_le_mul_right _ (by omega)
  simpa [hexValue] using go 0

theorem hexValue_short {digits : List Char} (h : ∀ c ∈ digits, isHexDigit c = true)
    (short : digits.length ≤ 4) : hexValue digits < 0x10000 :=
  Nat.lt_of_lt_of_le (hexValue_lt h) (Nat.pow_le_pow_right (by decide) short)

theorem hexCode_eq {digits : List Char} (filled : digits ≠ []) (h : ∀ c ∈ digits, isHexDigit c = true)
    (small : hexValue digits < 0x110000) :
    hexCode digits = (charOfCode (hexValue digits)).getD '\ufffd' := by
  have plain : ∀ rest, digits ≠ '+' :: rest := by
    rintro rest rfl
    exact (hexDigit_spec (h '+' List.mem_cons_self)).2 (by decide)
  have limit : hexValue digits < UInt32.size := Nat.lt_trans small (by decide)
  rw [hexCode, readUnsigned]
  · simp only [List.isEmpty_iff, filled, if_false, readDigits_hex h]
    change ((Option.filter _ (some (hexValue digits))).bind charOfCode).getD _ = _
    rw [Option.filter_some, if_pos (decide_eq_true limit), Option.bind_some]
  · exact plain

/-! ### What a literal is read as -/

variable {quote : Char} {p : Piece} {ps : List Piece}

theorem escapeSequence_escape {c : Char} (h : (Piece.escape c).fits quote = true) (cs : List Char) :
    escapeSequence (c :: cs) = ([escaped c], 1) := by
  have plain : c ∉ "123456789xu\n\r\u2028\u2029".toList := of_decide_eq_true h
  unfold escapeSequence
  split
  all_goals
    rename_i heq
    cases heq
  case h_9 | h_10 | h_11 | h_12 => exact absurd (by decide) plain
  case h_13 => rw [escaped] <;> assumption
  all_goals rfl

theorem unescape_piece (h : p.fits quote = true) (cs : List Char) :
    unescape (p.text ++ cs) = p.read ++ unescape cs := by
  cases p with
  | plain c =>
    have plain : c ∉ [quote, '\\', '\n', '\r'] := of_decide_eq_true h
    exact unescape_cons (by simp_all) cs
  | escape c =>
    change unescape ('\\' :: c :: cs) = _
    rw [unescape_backslash, escapeSequence_escape h]
    rfl
  | hex high low =>
    have digits : ∀ c ∈ [high, low], isHexDigit c = true := List.all_eq_true.1 h
    have small := hexValue_short digits (Nat.le_add_right 2 2)
    change unescape ('\\' :: 'x' :: high :: low :: cs) = _
    rw [unescape_backslash]
    change [hexCode [high, low]] ++ unescape cs = _
    rw [hexCode_eq (List.cons_ne_nil _ _) digits (Nat.lt_trans small (by decide))]
    rfl
  | unit a b c d =>
    have digits : ∀ x ∈ [a, b, c, d], isHexDigit x = true := List.all_eq_true.1 h
    have small := hexValue_short digits (Nat.le_refl 4)
    have brace : a ≠ '{' := by
      rintro rfl
      exact (hexDigit_spec (digits '{' List.mem_cons_self)).2 (by decide)
    have sequence : escapeSequence ('u' :: a :: b :: c :: d :: cs) = ([hexCode [a, b, c, d]], 5) := by
      rw [escapeSequence]
      · rfl
      · intro rest he
        exact brace (List.cons.inj he).1
    change unescape ('\\' :: 'u' :: a :: b :: c :: d :: cs) = _
    rw [unescape_backslash, sequence, hexCode_eq (List.cons_ne_nil _ _) digits (Nat.lt_trans small (by decide))]
    rfl
  | codePoint digits =>
    simp only [Piece.fits, Bool.and_eq_true, decide_eq_true_eq, List.all_eq_true] at h
    obtain ⟨⟨filled, digit⟩, small⟩ := h
    have inside : '}' ∉ digits := fun hc => (hexDigit_spec (digit '}' hc)).2 (by decide)
    have upTo := (takeWhile_upTo inside cs).1
    have after : (digits ++ '}' :: cs).drop (digits.length + 1) = cs := by
      rw [List.append_cons]
      exact List.drop_left' (by simp)
    have text : (Piece.codePoint digits).text ++ cs = '\\' :: 'u' :: '{' :: (digits ++ '}' :: cs) := by
      simp [Piece.text]
    have sequence : escapeSequence ('u' :: '{' :: (digits ++ '}' :: cs)) =
        ([hexCode digits], digits.length + 3) := by
      simp only [escapeSequence, upTo]
    rw [text, unescape_backslash, sequence, hexCode_eq filled digit small]
    simp only [List.drop_succ_cons, after]
    rfl
  | continuation ending =>
    cases ending with
    | lineFeed => exact unescape_backslash _
    | both =>
      change unescape ('\\' :: '\r' :: '\n' :: cs) = _
      rw [unescape_backslash]
      exact congrArg ('\r' :: ·) (unescape_cons (by decide) cs)
    | _ => exact unescape_backslash _

theorem unescape_pieces (h : ∀ p ∈ ps, p.fits quote = true) :
    unescape (ps.flatMap Piece.text) = ps.flatMap Piece.read := by
  induction ps with
  | nil => rfl
  | cons p ps ih =>
    rw [List.flatMap_cons, unescape_piece (h p List.mem_cons_self), List.flatMap_cons,
      ih fun p hp => h p (List.mem_cons_of_mem _ hp)]

theorem fits_of_fitTogether (h : fitTogether quote ps = true) : ∀ p ∈ ps, p.fits quote = true := by
  induction ps with
  | nil => simp
  | cons p ps ih =>
    simp only [fitTogether, Bool.and_eq_true] at h
    rintro q (_ | ⟨_, hq⟩)
    · exact h.1.1
    · exact ih h.2 q hq

theorem unquote_literal (hquote : quote = '"' ∨ quote = '\'') (h : fitTogether quote ps = true) :
    unquote (literal quote ps) = ps.flatMap Piece.read := by
  rw [unquote, literal, betweenQuotes_wrap hquote, unescape_pieces (fits_of_fitTogether h)]

/-! ### What a literal stands for -/

theorem Piece.read_of_char {c : Char} (fits : p.fits quote = true) (h : p.char? = some c) :
    p.units = utf16 c.toNat ∧ p.read = [c] := by
  have one {digits : List Char} (hex : ∀ x ∈ digits, isHexDigit x = true) (short : digits.length ≤ 4)
      (h : charOfCode (hexValue digits) = some c) : [hexValue digits] = utf16 c.toNat := by
    rw [toNat_of_charOfCode h, utf16, if_pos (hexValue_short hex short)]
  have read : [p.char?.getD '\ufffd'] = [c] := by rw [h, Option.getD_some]
  cases p with
  | plain d => cases h; exact ⟨rfl, rfl⟩
  | escape d => cases h; exact ⟨rfl, rfl⟩
  | hex high low => exact ⟨one (List.all_eq_true.1 fits) (Nat.le_add_right 2 2) h, read⟩
  | unit a b c d => exact ⟨one (List.all_eq_true.1 fits) (Nat.le_refl 4) h, read⟩
  | codePoint digits => exact ⟨congrArg utf16 (toNat_of_charOfCode h).symm, read⟩
  | continuation ending => cases h

/-- The lexer ends a literal at a line feed, so it takes no continuation that has one. -/
def Piece.breaks : Piece → Bool
  | .continuation .lineFeed => true
  | .continuation .both => true
  | _ => false

theorem Piece.halves_lt (fits : p.fits quote = true) (whole : p.breaks = false) (h : p.char? = none) :
    halves p.units < 2 * p.read.length := by
  have half {code : Nat} (small : code < 0x110000) (h : charOfCode code = none) : halves [code] = 1 := by
    simp [halves, (charOfCode_eq_none small).1 h]
  have digits {cs : List Char} (hex : ∀ x ∈ cs, isHexDigit x = true) (short : cs.length ≤ 4)
      (h : charOfCode (hexValue cs) = none) : halves [hexValue cs] = 1 :=
    half (Nat.lt_trans (hexValue_short hex short) (by decide)) h
  cases p with
  | plain c => cases h
  | escape c => cases h
  | hex high low =>
    rw [Piece.units, digits (List.all_eq_true.1 fits) (Nat.le_add_right 2 2) h]
    exact Nat.one_lt_two
  | unit a b c d =>
    rw [Piece.units, digits (List.all_eq_true.1 fits) (Nat.le_refl 4) h]
    exact Nat.one_lt_two
  | codePoint digits =>
    simp only [Piece.fits, Bool.and_eq_true, decide_eq_true_eq] at fits
    have surrogate := (charOfCode_eq_none fits.2).1 h
    rw [Piece.units, utf16, if_pos (Nat.lt_of_lt_of_le surrogate.2 (by decide)), half fits.2 h]
    exact Nat.one_lt_two
  | continuation ending => cases ending <;> first | exact Nat.zero_lt_two | cases whole

theorem Piece.halves_le (fits : p.fits quote = true) (whole : p.breaks = false) :
    halves p.units ≤ 2 * p.read.length := by
  cases h : p.char? with
  | none => exact Nat.le_of_lt (halves_lt fits whole h)
  | some c =>
    obtain ⟨units, read⟩ := read_of_char fits h
    rw [units, read, halves_utf16]
    exact Nat.le_refl _

theorem halves_pieces (fits : ∀ p ∈ ps, p.fits quote = true) (whole : ∀ p ∈ ps, p.breaks = false) :
    halves (ps.flatMap Piece.units) ≤ 2 * (ps.flatMap Piece.read).length ∧
      (halves (ps.flatMap Piece.units) = 2 * (ps.flatMap Piece.read).length →
        ∀ p ∈ ps, p.char?.isSome = true) := by
  induction ps with
  | nil => exact ⟨Nat.le_refl _, fun _ => by simp⟩
  | cons p ps ih =>
    obtain ⟨le, all⟩ := ih (fun q hq => fits q (List.mem_cons_of_mem p hq))
      fun q hq => whole q (List.mem_cons_of_mem p hq)
    have fits := fits p List.mem_cons_self
    have whole := whole p List.mem_cons_self
    have first := Piece.halves_le fits whole
    rw [List.flatMap_cons, List.flatMap_cons, halves_append, List.length_append]
    refine ⟨by omega, fun same => ?_⟩
    rintro q (_ | ⟨_, hq⟩)
    · cases h : p.char? with
      | some c => rfl
      | none =>
        have := Piece.halves_lt fits whole h
        omega
    · exact all (by omega) q hq

theorem encode_read (fits : ∀ p ∈ ps, p.fits quote = true) (chars : ∀ p ∈ ps, p.char?.isSome = true) :
    encode (ps.flatMap Piece.read) = ps.flatMap Piece.units := by
  induction ps with
  | nil => rfl
  | cons p ps ih =>
    obtain ⟨c, h⟩ := Option.isSome_iff_exists.1 (chars p List.mem_cons_self)
    obtain ⟨units, read⟩ := Piece.read_of_char (fits p List.mem_cons_self) h
    have rest := ih (fun q hq => fits q (List.mem_cons_of_mem p hq))
      fun q hq => chars q (List.mem_cons_of_mem p hq)
    rw [List.flatMap_cons, List.flatMap_cons, units, read, ← rest]
    rfl

/-! ### Literals that are tokens -/

theorem quoted_plain {text cs : List Char} (plain : ∀ c ∈ text, c ≠ quote ∧ c ≠ '\\' ∧ c ≠ '\n')
    (hne : cs ≠ []) : (quoted quote (text ++ cs)).2 = (quoted quote cs).2 := by
  induction text with
  | nil => rfl
  | cons c text ih =>
    obtain ⟨hquote, hslash, hline⟩ := plain c List.mem_cons_self
    rw [List.cons_append, quoted_pass hquote hslash hline (by simp [hne])]
    exact ih fun d hd => plain d (List.mem_cons_of_mem c hd)

theorem quoted_piece (hquote : quote = '"' ∨ quote = '\'') (fits : p.fits quote = true) {cs : List Char}
    (hne : cs ≠ []) : (quoted quote (p.text ++ cs)).2 = (!p.breaks && (quoted quote cs).2) := by
  have slash : quote ≠ '\\' := by
    rcases hquote with rfl | rfl <;> decide
  have escape {c : Char} (line : c ≠ '\n') (cs : List Char) :
      (quoted quote ('\\' :: c :: cs)).2 = (quoted quote cs).2 :=
    congrArg (·.2) (quoted_escape slash line cs)
  have plain {c : Char} (h : c ∉ ['"', '\'', '\\', '\n']) : c ≠ quote ∧ c ≠ '\\' ∧ c ≠ '\n' := by
    rcases hquote with rfl | rfl <;> simp_all
  have hex {digits : List Char} (h : ∀ c ∈ digits, isHexDigit c = true) :
      ∀ c ∈ digits, c ≠ quote ∧ c ≠ '\\' ∧ c ≠ '\n' := by
    intro c hc
    have := (hexDigit_spec (h c hc)).2
    exact plain (by simp_all)
  cases p with
  | plain c =>
    have other : c ∉ [quote, '\\', '\n', '\r'] := of_decide_eq_true fits
    have inside : ∀ x ∈ [c], x ≠ quote ∧ x ≠ '\\' ∧ x ≠ '\n' := by simp_all
    exact quoted_plain inside hne
  | escape c =>
    have other : c ∉ "123456789xu\n\r\u2028\u2029".toList := of_decide_eq_true fits
    have line : c ≠ '\n' := by
      rintro rfl
      exact other (by decide)
    exact escape line cs
  | hex high low =>
    have digits := hex (List.all_eq_true.1 fits)
    exact (escape (c := 'x') (by decide) _).trans (quoted_plain digits hne)
  | unit a b c d =>
    have digits := hex (List.all_eq_true.1 fits)
    exact (escape (c := 'u') (by decide) _).trans (quoted_plain digits hne)
  | codePoint digits =>
    simp only [Piece.fits, Bool.and_eq_true, List.all_eq_true] at fits
    have inside : ∀ c ∈ '{' :: (digits ++ ['}']), c ≠ quote ∧ c ≠ '\\' ∧ c ≠ '\n' := by
      simp only [List.mem_cons, List.mem_append, List.not_mem_nil, or_false]
      rintro c (rfl | hc | rfl)
      · exact plain (by decide)
      · exact hex fits.1.2 c hc
      · exact plain (by decide)
    exact (escape (c := 'u') (by decide) _).trans (quoted_plain inside hne)
  | continuation ending =>
    have broken (cs : List Char) : (quoted quote ('\\' :: '\n' :: cs)).2 = false := by
      simp [quoted, slash.symm]
    have ended (cs : List Char) : (quoted quote ('\n' :: cs)).2 = false := by
      have line : '\n' ≠ quote ∧ quote ≠ '`' := by
        rcases hquote with rfl | rfl <;> decide
      cases cs <;> simp [quoted, line.1, line.2]
    cases ending with
    | lineFeed => exact broken cs
    | both => exact (escape (c := '\r') (by decide) _).trans (ended cs)
    | carriageReturn => exact escape (by decide) cs
    | lineSeparator => exact escape (by decide) cs
    | paragraphSeparator => exact escape (by decide) cs

theorem quoted_pieces (hquote : quote = '"' ∨ quote = '\'') (fits : ∀ p ∈ ps, p.fits quote = true) :
    (quoted quote (ps.flatMap Piece.text ++ [quote])).2 = ps.all fun p => !p.breaks := by
  induction ps with
  | nil => simp [quoted]
  | cons p ps ih =>
    rw [List.flatMap_cons, List.append_assoc, quoted_piece hquote (fits p List.mem_cons_self) (by simp),
      ih fun q hq => fits q (List.mem_cons_of_mem p hq), List.all_cons]

theorem whole_of_token (hquote : quote = '"' ∨ quote = '\'') (fits : ∀ p ∈ ps, p.fits quote = true)
    (token : (Token.string (String.ofList (literal quote ps))).Whole) : ∀ p ∈ ps, p.breaks = false := by
  have pieces := quoted_pieces hquote fits
  have front : isTokenBlank quote = false ∧ beginsIdentifier quote = false ∧ quote.isDigit = false := by
    rcases hquote with rfl | rfl <;> decide
  have slash : quote = '/' → False := by
    rcases hquote with rfl | rfl <;> decide
  have quotes : quote = '"' ∨ quote = '\'' ∨ quote = '`' := hquote.imp_right .inl
  rw [Token.Whole, Token.text, String.toList_ofList, literal, Lexeme.next?,
    skip_plain front.1 fun h => (slash h).elim] at token
  have closed : (quoted quote (ps.flatMap Piece.text ++ [quote])).2 = true := by
    simp only [Lexeme.first, front.2.1, front.2.2, quotes, if_true, if_false, Bool.false_eq_true,
      Option.some.injEq, Lexeme.mk.injEq, true_and] at token
    cases unclosed : (quoted quote (ps.flatMap Piece.text ++ [quote])).2 with
    | true => rfl
    | false => simp [unclosed] at token
  rw [pieces] at closed
  simpa using closed

end Text

variable {quote : Char} {ps : List Piece} {v : List Char}

/-- A token that is a string literal with a value is given that value just if each piece of it stands for a
character: if it has no half of a surrogate pair among its escapes and no line continuation. -/
theorem unquote_value (hquote : quote = '"' ∨ quote = '\'') (fits : fitTogether quote ps = true)
    (token : (Token.string (String.ofList (literal quote ps))).Whole)
    (value : encode v = ps.flatMap Piece.units) :
    unquote (literal quote ps) = v ↔ ∀ p ∈ ps, p.char?.isSome = true := by
  have single := fits_of_fitTogether fits
  rw [unquote_literal hquote fits]
  constructor
  · rintro rfl
    refine (halves_pieces single (whole_of_token hquote single token)).2 ?_
    rw [← value, halves_encode]
  · intro chars
    exact encode_inj ((encode_read single chars).trans value.symm)

/-- Escapes of every kind, and a character past the first plane that is written by its code point. -/
theorem unquote_value_escapes :
    unquote (literal '\'' [.plain 'a', .escape '\'', .escape 'n', .hex '4' '1', .unit '0' '0' 'e' '9',
      .codePoint ['1', 'F', '6', '0', '0'], .escape '0']) =
      ['a', '\'', '\n', 'A', 'é', '😀', '\x00'] :=
  (unquote_value (.inr rfl) (by decide) (by rfl) (by decide)).2 (by decide)

/-- A character past the first plane that is written as two escapes, and a line that is continued. -/
theorem unquote_value_pair :
    (fitTogether '"' [.unit 'D' '8' '3' 'D', .unit 'D' 'E' '0' '0'] = true ∧
      (Token.string (String.ofList (literal '"' [.unit 'D' '8' '3' 'D', .unit 'D' 'E' '0' '0']))).Whole ∧
      encode ['😀'] = [Piece.unit 'D' '8' '3' 'D', .unit 'D' 'E' '0' '0'].flatMap Piece.units ∧
      unquote (literal '"' [.unit 'D' '8' '3' 'D', .unit 'D' 'E' '0' '0']) = ['\ufffd', '\ufffd']) ∧
    fitTogether '"' [.plain 'a', .continuation .carriageReturn, .plain 'b'] = true ∧
      (Token.string (String.ofList (literal '"'
        [.plain 'a', .continuation .carriageReturn, .plain 'b']))).Whole ∧
      encode ['a', 'b'] = [Piece.plain 'a', .continuation .carriageReturn, .plain 'b'].flatMap Piece.units ∧
      unquote (literal '"' [.plain 'a', .continuation .carriageReturn, .plain 'b']) = ['a', '\r', 'b'] :=
  ⟨⟨by decide, by rfl, by decide, by decide⟩, by decide, by rfl, by decide, by decide⟩

end MarkupEditor
