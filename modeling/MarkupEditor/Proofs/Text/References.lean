import MarkupEditor.Proofs.Text.Digits
import MarkupEditor.Proofs.Text.StringLiterals
/-!
# The references that are decoded

A character reference is a name or a number between an ampersand and a semicolon. Decoding replaces the
references of a text from left to right and copies all else. Its numbers are read as integers are, so
that one plus sign may stand before the digits; a text without such a sign is decoded as documented.
-/

set_option autoImplicit false

namespace MarkupEditor

open Text Lexer

namespace Text

def namedCharacters : List (String × Char) :=
  [("amp", '&'), ("lt", '<'), ("gt", '>'), ("quot", '"'), ("apos", '\''), ("nbsp", '\xa0')]

/-- What stands between the ampersand and the semicolon of a reference to a character: its name, or its
code in decimal or hexadecimal digits. -/
inductive Refers : List Char → Char → Prop where
  | named {name : String} {c : Char} (h : (name, c) ∈ namedCharacters) : Refers name.toList c
  | decimal {digits : List Char} {c : Char} (filled : digits ≠ []) (all : ∀ d ∈ digits, d.isDigit = true)
    (code : Nat.ofDigitChars 10 digits 0 = c.toNat) : Refers ('#' :: digits) c
  | hexadecimal {x : Char} {digits : List Char} {c : Char} (mark : x = 'x' ∨ x = 'X')
    (filled : digits ≠ []) (all : ∀ d ∈ digits, isHexDigit d = true) (code : hexValue digits = c.toNat) :
    Refers ('#' :: x :: digits) c

/-- What is read as a reference: a plus sign may stand before the digits, too. -/
inductive Accepts : List Char → Char → Prop where
  | plain {name : List Char} {c : Char} (refers : Refers name c) : Accepts name c
  | decimal {digits : List Char} {c : Char} (filled : digits ≠ []) (all : ∀ d ∈ digits, d.isDigit = true)
    (code : Nat.ofDigitChars 10 digits 0 = c.toNat) : Accepts ('#' :: '+' :: digits) c
  | hexadecimal {x : Char} {digits : List Char} {c : Char} (mark : x = 'x' ∨ x = 'X')
    (filled : digits ≠ []) (all : ∀ d ∈ digits, isHexDigit d = true) (code : hexValue digits = c.toNat) :
    Accepts ('#' :: x :: '+' :: digits) c

/-- The second text is the first one with every reference replaced by its character, from left to right,
and every other character copied. -/
inductive Replaced (refers : List Char → Char → Prop) : List Char → List Char → Prop where
  | done : Replaced refers [] []
  | reference {name rest out : List Char} {c : Char} (h : refers name c)
    (more : Replaced refers rest out) : Replaced refers ('&' :: (name ++ ';' :: rest)) (c :: out)
  | copied {c : Char} {rest out : List Char}
    (plain : ∀ name d after, c :: rest = '&' :: (name ++ ';' :: after) → ¬ refers name d)
    (more : Replaced refers rest out) : Replaced refers (c :: rest) (c :: out)

/-- A number with a plus sign begins in one of these ways. -/
def signs : List String :=
  ["&#+", "&#x+", "&#X+"]

variable {name cs out out' : List Char} {c d : Char} {refers : List Char → Char → Prop} {radix n : Nat}

/-! ### Digits -/

theorem ascii_of_digitBelow? (h : digitBelow? radix c = some n) : c.toNat < 128 := by
  obtain ⟨value, -⟩ := Option.filter_eq_some_iff.1 h
  unfold digitValue? at value
  repeat' split at value
  case isFalse => cases value
  all_goals
    rename_i range
    exact Nat.lt_of_le_of_lt (UInt32.le_iff_toNat_le.1 range.2) (by decide)

theorem isDigit_of_digitBelow? (h : digitBelow? 10 c = some n) : c.isDigit = true := by
  have all : ∀ n < 128, (digitBelow? 10 (Char.ofNat n)).isSome = true → (Char.ofNat n).isDigit = true := by decide
  have digit := all c.toNat (ascii_of_digitBelow? h)
  rw [Char.ofNat_toNat, h] at digit
  exact digit rfl

theorem isHexDigit_of_digitBelow? (h : digitBelow? 16 c = some n) : isHexDigit c = true := by
  have all : ∀ n < 128, (digitBelow? 16 (Char.ofNat n)).isSome = true → isHexDigit (Char.ofNat n) = true := by
    decide
  have digit := all c.toNat (ascii_of_digitBelow? h)
  rw [Char.ofNat_toNat, h] at digit
  exact digit rfl

theorem exists_digit_of_readDigits {value : Nat} (h : readDigits radix value cs = some n) :
    ∀ d ∈ cs, ∃ m, digitBelow? radix d = some m := by
  induction cs generalizing value with
  | nil => exact fun d hd => absurd hd List.not_mem_nil
  | cons c cs ih =>
    obtain ⟨m, digit, more⟩ := Option.bind_eq_some_iff.1 h
    exact List.forall_mem_cons.2 ⟨⟨m, digit⟩, ih more⟩

theorem readDigits_decimal_iff :
    readDigits 10 0 cs = some n ↔ (∀ d ∈ cs, d.isDigit = true) ∧ Nat.ofDigitChars 10 cs 0 = n := by
  constructor
  · intro h
    have all : ∀ d ∈ cs, d.isDigit = true := fun d hd =>
      (exists_digit_of_readDigits h d hd).elim fun _ digit => isDigit_of_digitBelow? digit
    rw [readDigits_eq all] at h
    exact ⟨all, Option.some.inj h⟩
  · rintro ⟨all, rfl⟩
    exact readDigits_eq all 0

theorem readDigits_hex_iff :
    readDigits 16 0 cs = some n ↔ (∀ d ∈ cs, isHexDigit d = true) ∧ hexValue cs = n := by
  constructor
  · intro h
    have all : ∀ d ∈ cs, isHexDigit d = true := fun d hd =>
      (exists_digit_of_readDigits h d hd).elim fun _ digit => isHexDigit_of_digitBelow? digit
    rw [readDigits_hex all] at h
    exact ⟨all, Option.some.inj h⟩
  · rintro ⟨all, rfl⟩
    exact readDigits_hex all 0

theorem charOfCode_iff : charOfCode n = some c ↔ n = c.toNat := by
  refine ⟨fun h => (toNat_of_charOfCode h).symm, ?_⟩
  rintro rfl
  exact dif_pos c.valid

theorem code_iff : (readUnsigned radix UInt32.size cs).bind charOfCode = some c ↔
    ∃ digits, digits ≠ [] ∧ (cs = digits ∨ cs = '+' :: digits) ∧ readDigits radix 0 digits = some c.toNat := by
  have small : c.toNat < UInt32.size := Nat.lt_trans (charCode_lt c) (by decide)
  have read (digits : List Char) : (if digits.isEmpty then none else (readDigits radix 0 digits).filter
      (· < UInt32.size)).bind charOfCode = some c ↔ digits ≠ [] ∧ readDigits radix 0 digits = some c.toNat := by
    cases digits with
    | nil => simp
    | cons d digits => 
      simp only [List.isEmpty_cons, Bool.false_eq_true, if_false, Option.bind_eq_some_iff,
        Option.filter_eq_some_iff, charOfCode_iff, decide_eq_true_eq, ne_eq, reduceCtorEq, not_false_eq_true,
        true_and]
      constructor
      · rintro ⟨_, ⟨h, -⟩, rfl⟩
        exact h
      · exact fun h => ⟨_, ⟨h, small⟩, rfl⟩
  by_cases signed : ∃ rest, cs = '+' :: rest
  · obtain ⟨rest, rfl⟩ := signed
    refine (read rest).trans ⟨fun h => ⟨rest, h.1, .inr rfl, h.2⟩, ?_⟩
    rintro ⟨digits, filled, rfl | h, value⟩
    · have sign : readDigits radix 0 ('+' :: rest) = none := rfl
      cases sign.symm.trans value
    · cases h
      exact ⟨filled, value⟩
  · have plain : readUnsigned radix UInt32.size cs = if cs.isEmpty then none else
        (readDigits radix 0 cs).filter (· < UInt32.size) := by
      rw [readUnsigned]
      exact fun rest h => signed ⟨rest, h⟩
    rw [plain, read cs]
    refine ⟨fun h => ⟨cs, h.1, .inl rfl, h.2⟩, ?_⟩
    rintro ⟨digits, filled, rfl | h, value⟩
    · exact ⟨filled, value⟩
    · exact absurd ⟨digits, h⟩ signed

theorem referenced_named {name : String} (h : (name, c) ∈ namedCharacters) :
    referenced name.toList = some c := by
  have all : ∀ entry ∈ namedCharacters, referenced entry.1.toList = some entry.2 := by decide
  exact all _ h

theorem referenced_decimal (plain : ∀ x rest, cs = x :: rest → x ≠ 'x' ∧ x ≠ 'X') :
    referenced ('#' :: cs) = (readUnsigned 10 UInt32.size cs).bind charOfCode := by
  unfold referenced
  repeat' split
  case h_1 rest heq => exact absurd rfl (plain 'x' rest (List.cons.inj heq).2).1
  case h_2 rest heq => exact absurd rfl (plain 'X' rest (List.cons.inj heq).2).2
  case h_3 rest _ _ heq => rw [(List.cons.inj heq).2]
  case h_4 _ _ other => exact absurd rfl (other cs)
  all_goals
    rename_i named
    cases named

theorem referenced_hexadecimal {x : Char} (mark : x = 'x' ∨ x = 'X') :
    referenced ('#' :: x :: cs) = (readUnsigned 16 UInt32.size cs).bind charOfCode := by
  rcases mark with rfl | rfl <;> rfl

theorem referenced_iff : referenced name = some c ↔ Accepts name c := by
  constructor
  · intro h
    unfold referenced at h
    repeat' split at h
    case h_4 => cases h
    case h_3 =>
      obtain ⟨digits, filled, rfl | rfl, value⟩ := code_iff.1 h
      all_goals obtain ⟨all, code⟩ := readDigits_decimal_iff.1 value
      · exact .plain (.decimal filled all code)
      · exact .decimal filled all code
    case h_1 | h_2 =>
      obtain ⟨digits, filled, rfl | rfl, value⟩ := code_iff.1 h
      all_goals obtain ⟨all, code⟩ := readDigits_hex_iff.1 value
      · exact .plain (.hexadecimal (by decide) filled all code)
      · exact .hexadecimal (by decide) filled all code
    all_goals
      rename_i named
      cases named
      cases h
      exact .plain (.named (by decide))
  · rintro (⟨named | ⟨filled, all, code⟩ | ⟨mark, filled, all, code⟩⟩ | ⟨filled, all, code⟩ |
      ⟨mark, filled, all, code⟩)
    · exact referenced_named named
    · rw [referenced_decimal]
      · exact code_iff.2 ⟨_, filled, .inl rfl, readDigits_decimal_iff.2 ⟨all, code⟩⟩
      · rintro x rest rfl
        have digit := all x List.mem_cons_self
        constructor <;> rintro rfl <;> cases digit
    · rw [referenced_hexadecimal mark]
      exact code_iff.2 ⟨_, filled, .inl rfl, readDigits_hex_iff.2 ⟨all, code⟩⟩
    · rw [referenced_decimal]
      · exact code_iff.2 ⟨_, filled, .inr rfl, readDigits_decimal_iff.2 ⟨all, code⟩⟩
      · rintro x rest h
        cases h
        decide
    · rw [referenced_hexadecimal mark]
      exact code_iff.2 ⟨_, filled, .inr rfl, readDigits_hex_iff.2 ⟨all, code⟩⟩

/-! ### Replacing -/

theorem upToSemicolon_iff : upToSemicolon cs = some name ↔ ';' ∉ name ∧ ∃ rest, cs = name ++ ';' :: rest := by
  constructor
  · intro h
    fun_induction upToSemicolon cs generalizing name with
    | case1 => cases h
    | case2 rest =>
      cases h
      exact ⟨List.not_mem_nil, rest, rfl⟩
    | case3 c cs other ih =>
      obtain ⟨tail, htail, rfl⟩ := Option.map_eq_some_iff.1 h
      obtain ⟨free, rest, rfl⟩ := ih htail
      refine ⟨?_, rest, rfl⟩
      rw [List.mem_cons, not_or]
      exact ⟨fun same => other same.symm, free⟩
  · rintro ⟨free, rest, rfl⟩
    exact upToSemicolon_append free rest

theorem Accepts.free (h : Accepts name c) : ';' ∉ name := by
  have decimal {digits : List Char} (all : ∀ d ∈ digits, d.isDigit = true) : ';' ∉ digits :=
    fun h => absurd (all ';' h) (by decide)
  have hexadecimal {digits : List Char} (all : ∀ d ∈ digits, isHexDigit d = true) : ';' ∉ digits :=
    fun h => absurd (all ';' h) (by decide)
  have named : ∀ entry ∈ namedCharacters, ';' ∉ entry.1.toList := by decide
  rcases h with ⟨h | ⟨-, all, -⟩ | ⟨mark, -, all, -⟩⟩ | ⟨-, all, -⟩ | ⟨mark, -, all, -⟩
  · exact named _ h
  · simp [decimal all]
  · rcases mark with rfl | rfl <;> simp [hexadecimal all]
  · simp [decimal all]
  · rcases mark with rfl | rfl <;> simp [hexadecimal all]

theorem reference?_iff {size : Nat} : reference? cs = some (c, size) ↔
    ∃ name rest, cs = name ++ ';' :: rest ∧ Accepts name c ∧ size = name.length + 1 := by
  rw [reference?, Option.bind_eq_some_iff]
  constructor
  · rintro ⟨name, before, found⟩
    obtain ⟨-, rest, rfl⟩ := upToSemicolon_iff.1 before
    obtain ⟨c, named, h⟩ := Option.map_eq_some_iff.1 found
    cases h
    exact ⟨name, rest, rfl, referenced_iff.1 named, rfl⟩
  · rintro ⟨name, rest, rfl, accepted, rfl⟩
    exact ⟨name, upToSemicolon_append accepted.free rest, by rw [referenced_iff.2 accepted]; rfl⟩

theorem replaced_decodeReferences (cs : List Char) : Replaced Accepts cs (decodeReferences cs) := by
  induction hn : cs.length using Nat.strong_induction_on generalizing cs with
  | _ n ih =>
    cases cs with
    | nil => exact .done
    | cons c cs =>
      have more (rest : List Char) (shorter : rest.length ≤ cs.length) :
          Replaced Accepts rest (decodeReferences rest) :=
        ih rest.length (by rw [← hn, List.length_cons]; omega) rest rfl
      by_cases amp : c = '&'
      · subst amp
        rw [decodeReferences_ampersand]
        cases found : reference? cs with
        | none =>
          refine .copied ?_ (more cs (Nat.le_refl _))
          rintro name d rest ⟨⟩ accepted
          have := reference?_iff.2 ⟨name, rest, rfl, accepted, rfl⟩
          cases found.symm.trans this
        | some found' =>
          obtain ⟨d, size⟩ := found'
          obtain ⟨name, rest, rfl, accepted, rfl⟩ := reference?_iff.1 found
          have after : (name ++ ';' :: rest).drop (name.length + 1) = rest := by
            rw [List.append_cons]
            exact List.drop_left' (by simp)
          simp only [after]
          exact .reference accepted (more rest (by simp; omega))
      · rw [decodeReferences_cons amp]
        refine .copied ?_ (more cs (Nat.le_refl _))
        rintro name d rest ⟨⟩
        exact absurd rfl amp

theorem append_semicolon_inj {name name' rest rest' : List Char} (free : ';' ∉ name) (free' : ';' ∉ name')
    (h : name ++ ';' :: rest = name' ++ ';' :: rest') : name = name' ∧ rest = rest' := by
  have same := upToSemicolon_append free rest
  rw [h, upToSemicolon_append free' rest'] at same
  cases same
  exact ⟨rfl, (List.cons.inj (List.append_cancel_left h)).2⟩

theorem Replaced.unique (free : ∀ name c, refers name c → ';' ∉ name)
    (one : ∀ name c d, refers name c → refers name d → c = d) (h : Replaced refers cs out)
    (h' : Replaced refers cs out') : out = out' := by
  induction h generalizing out' with
  | done =>
    cases h'
    rfl
  | @reference name rest out c refers more ih =>
    generalize hcs : '&' :: (name ++ ';' :: rest) = cs at h'
    cases h' with
    | done => cases hcs
    | reference refers' more' =>
      obtain ⟨rfl, rfl⟩ := append_semicolon_inj (free _ _ refers) (free _ _ refers') (List.cons.inj hcs).2
      rw [one _ _ _ refers refers', ih more']
    | copied plain more' => exact absurd refers (plain _ _ _ hcs.symm)
  | copied plain more ih =>
    generalize hcs : _ :: _ = cs at h'
    cases h' with
    | done => cases hcs
    | reference refers' more' => exact absurd refers' (plain _ _ _ hcs)
    | copied plain' more' =>
      cases hcs
      rw [ih more']

theorem Replaced.documented (h : Replaced Accepts cs out) (unsigned : ∀ sign ∈ signs, ¬ sign.toList <:+: cs) :
    Replaced Refers cs out := by
  induction h with
  | done => exact .done
  | @reference name rest out c accepted more ih =>
    have below : rest <:+: '&' :: (name ++ ';' :: rest) := ⟨'&' :: (name ++ [';']), [], by simp⟩
    have more' := ih fun sign hsign inside => unsigned sign hsign (inside.trans below)
    have front (sign : List Char) (after : List Char) (h : name = sign ++ after) :
        '&' :: sign <:+: '&' :: (name ++ ';' :: rest) := ⟨[], after ++ ';' :: rest, by simp [h]⟩
    cases accepted with
    | plain refers => exact .reference refers more'
    | @decimal digits _ filled all code =>
      exact absurd (front ['#', '+'] digits rfl) (unsigned "&#+" (by decide))
    | @hexadecimal x digits _ mark filled all code =>
      rcases mark with rfl | rfl
      · exact absurd (front ['#', 'x', '+'] digits rfl) (unsigned "&#x+" (by decide))
      · exact absurd (front ['#', 'X', '+'] digits rfl) (unsigned "&#X+" (by decide))
  | @copied c rest out plain more ih =>
    refine .copied (fun name d after h refers => plain name d after h (.plain refers)) (ih ?_)
    exact fun sign hsign inside => unsigned sign hsign (inside.trans ⟨[c], [], by simp⟩)

theorem not_refers_signed (rest : List Char) : ¬ Refers ('#' :: '+' :: rest) c := by
  generalize hname : '#' :: '+' :: rest = name
  rintro (named | ⟨-, all, -⟩ | ⟨mark, -, -, -⟩)
  · have other : ∀ entry ∈ namedCharacters, entry.1.toList.head? ≠ some '#' := by decide
    exact other _ named (by rw [← hname]; rfl)
  · cases hname
    exact absurd (all '+' List.mem_cons_self) (by decide)
  · cases hname
    exact absurd mark (by decide)

theorem Replaced.ampersand (free : ∀ name c, refers name c → ';' ∉ name) (before : upToSemicolon cs = some name)
    (other : ∀ d, ¬ refers name d) (more : Replaced refers cs out) :
    Replaced refers ('&' :: cs) ('&' :: out) := by
  refine .copied ?_ more
  rintro name' d rest h refers'
  cases h
  cases (upToSemicolon_append (free _ _ refers') rest).symm.trans before
  exact other d refers'

theorem Replaced.same (plain : '&' ∉ cs) : Replaced refers cs cs := by
  induction cs with
  | nil => exact .done
  | cons c cs ih =>
    rw [List.mem_cons, not_or] at plain
    refine .copied ?_ (ih plain.2)
    rintro name d rest ⟨⟩
    exact absurd rfl plain.1

theorem Accepts.one (h : Accepts name c) (h' : Accepts name d) : c = d :=
  Option.some.inj ((referenced_iff.2 h).symm.trans (referenced_iff.2 h'))

end Text

/-- Decoding replaces just what is read as a reference, from left to right, and copies all else. In a text in
which no number of a reference has a sign these are the documented references. -/
theorem decodeReferences_documented (cs out : List Char) :
    (decodeReferences cs = out ↔ Replaced Accepts cs out) ∧
    ((∀ sign ∈ signs, ¬ sign.toList <:+: cs) → (decodeReferences cs = out ↔ Replaced Refers cs out)) := by
  have replaced := replaced_decodeReferences cs
  refine ⟨⟨?_, ?_⟩, fun unsigned => ⟨?_, ?_⟩⟩
  · rintro rfl
    exact replaced
  · exact replaced.unique (fun _ _ => Accepts.free) fun _ _ _ => Accepts.one
  · rintro rfl
    exact replaced.documented unsigned
  · exact (replaced.documented unsigned).unique (fun _ _ h => Accepts.free (.plain h))
      fun _ _ _ h h' => Accepts.one (.plain h) (.plain h')

/-- A reference within what another one leaves, leading zeros, a surrogate, and names that are none. -/
theorem decodeReferences_documented_mixed :
    (∀ sign ∈ signs, ¬ sign.toList <:+: "&a&amp;lt; &#0065;&#xD800;&#X1f600;&#;&-1;&".toList) ∧
    Replaced Refers "&a&amp;lt; &#0065;&#xD800;&#X1f600;&#;&-1;&".toList "&a&lt; A&#xD800;😀&#;&-1;&".toList :=
  ⟨by decide, ((decodeReferences_documented _ _).2 (by decide)).1 (by decide)⟩

/-- A number with a sign is no documented reference, so the text is to be copied. It is read as one. -/
theorem decodeReferences_signed :
    Replaced Refers "&#+65;".toList "&#+65;".toList ∧ decodeReferences "&#+65;".toList = ['A'] := by
  refine ⟨?_, by decide⟩
  have before : upToSemicolon "#+65;".toList = some ('#' :: '+' :: ['6', '5']) := rfl
  exact .ampersand (fun _ _ h => Accepts.free (.plain h)) before (fun _ => not_refers_signed _)
    (.same (by decide))

end MarkupEditor
