import Mathlib.Data.Nat.Digits.Lemmas
import MarkupEditor.Text.Blank
import MarkupEditor.Text.Unsigned

set_option autoImplicit false

namespace MarkupEditor.Text

theorem range_of_isDigit {c : Char} (h : c.isDigit = true) :
    ('0' ≤ c ∧ c ≤ '9') ∧ 48 ≤ c.toNat ∧ c.toNat ≤ 57 := by
  rw [Char.isDigit, Bool.and_eq_true, decide_eq_true_eq, decide_eq_true_eq] at h
  exact ⟨h, UInt32.le_iff_toNat_le.1 h.1, UInt32.le_iff_toNat_le.1 h.2⟩

theorem digitBelow?_of_isDigit {c : Char} (h : c.isDigit = true) :
    digitBelow? 10 c = some (c.toNat - '0'.toNat) := by
  obtain ⟨hrange, -, hhigh⟩ := range_of_isDigit h
  have hlt : c.toNat - '0'.toNat < 10 := by
    change c.toNat - 48 < 10
    omega
  rw [digitBelow?, digitValue?, if_pos hrange, Option.filter_some, if_pos (decide_eq_true hlt)]

theorem readDigits_eq {cs : List Char} (h : ∀ c ∈ cs, c.isDigit = true) (value : Nat) :
    readDigits 10 value cs = some (Nat.ofDigitChars 10 cs value) := by
  induction cs generalizing value with
  | nil => rfl
  | cons c cs ih =>
    rw [readDigits, digitBelow?_of_isDigit (h c List.mem_cons_self), Option.bind_some,
      ih fun d hd => h d (List.mem_cons_of_mem c hd), Nat.ofDigitChars_cons, Nat.mul_comm]

theorem isDigit_of_mem_decimal {n : Nat} {c : Char} (h : c ∈ decimal n) : c.isDigit = true :=
  Nat.isDigit_of_mem_toDigits (by decide) (by decide) h

theorem readDigits_decimal (n : Nat) : readDigits 10 0 (decimal n) = some n := by
  rw [readDigits_eq fun c => isDigit_of_mem_decimal, decimal,
    Nat.ofDigitChars_toDigits (by decide) (by decide)]

theorem isBlank_of_isDigit {c : Char} (h : c.isDigit = true) : isBlank c = false := by
  obtain ⟨-, hlow, hhigh⟩ := range_of_isDigit h
  simp only [isBlank, whiteSpaceRanges, List.any_cons, List.any_nil, Bool.or_false, Bool.or_eq_false_iff,
    Bool.and_eq_false_iff, decide_eq_false_iff_not]
  omega

theorem trim_eq_self {cs : List Char} (h : ∀ c ∈ cs, isBlank c = false) : trim cs = cs := by
  have start : ∀ ds : List Char, (∀ c ∈ ds, isBlank c = false) → ds.dropWhile isBlank = ds := by
    intro ds hds
    cases ds with
    | nil => rfl
    | cons d ds => rw [List.dropWhile_cons_of_neg (by simp [hds d List.mem_cons_self])]
  rw [trim, trimStart, start cs h, trimEnd, start cs.reverse fun c hc => h c (List.mem_reverse.1 hc),
    List.reverse_reverse]

theorem trim_decimal (n : Nat) : trim (decimal n) = decimal n :=
  trim_eq_self fun _ hc => isBlank_of_isDigit (isDigit_of_mem_decimal hc)

theorem readUnsigned_decimal (limit n : Nat) :
    readUnsigned 10 limit (decimal n) = if n < limit then some n else none := by
  have hne : decimal n ≠ [] := Nat.toDigits_ne_nil
  have plain : ∀ rest, decimal n ≠ '+' :: rest := by
    intro rest heq
    have hplus := isDigit_of_mem_decimal (n := n) (c := '+') (by rw [heq]; exact List.mem_cons_self)
    exact absurd hplus (by decide)
  rw [readUnsigned, readDigits_decimal]
  · simp [hne, Option.filter_some]
  · exact plain

theorem lt_of_readUnsigned {radix limit n : Nat} {cs : List Char} (h : readUnsigned radix limit cs = some n) :
    n < limit := by
  unfold readUnsigned at h
  extract_lets digits at h
  split at h
  · cases h
  · exact of_decide_eq_true (Option.filter_eq_some_iff.1 h).2

end MarkupEditor.Text
