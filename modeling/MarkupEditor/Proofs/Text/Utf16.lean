import MarkupEditor.Text.Reference

set_option autoImplicit false

namespace MarkupEditor.Text

/-- The code units of a code point. The code point may be half of a surrogate pair. -/
def utf16 (code : Nat) : List Nat :=
  if code < 0x10000 then [code] else [0xd800 + (code - 0x10000) / 0x400, 0xdc00 + (code - 0x10000) % 0x400]

def encode (cs : List Char) : List Nat :=
  cs.flatMap fun c => utf16 c.toNat

def IsSurrogate (unit : Nat) : Prop :=
  0xd800 ≤ unit ∧ unit < 0xe000

instance (unit : Nat) : Decidable (IsSurrogate unit) :=
  inferInstanceAs (Decidable (_ ∧ _))

theorem toNat_of_charOfCode {code : Nat} {c : Char} (h : charOfCode code = some c) : c.toNat = code := by
  by_cases valid : code.isValidChar
  · rw [charOfCode, dif_pos valid] at h
    cases h
    rfl
  · rw [charOfCode, dif_neg valid] at h
    cases h

theorem charOfCode_eq_none {code : Nat} (hcode : code < 0x110000) :
    charOfCode code = none ↔ IsSurrogate code := by
  unfold IsSurrogate
  by_cases valid : code.isValidChar
  · rw [charOfCode, dif_pos valid]
    refine iff_of_false (Option.some_ne_none _) fun surrogate => ?_
    rcases valid with low | high <;> omega
  · rw [charOfCode, dif_neg valid]
    refine iff_of_true rfl ?_
    simp only [Nat.isValidChar, not_or] at valid
    omega

theorem not_surrogate_of_char (c : Char) : ¬ IsSurrogate c.toNat := by
  have valid := c.valid
  intro h
  rcases valid with low | high
  · exact absurd (show c.toNat < 0xd800 from low) (Nat.not_lt.2 h.1)
  · exact absurd (show 0xdfff < c.toNat from high.1) (by have := h.2; omega)

theorem charCode_lt (c : Char) : c.toNat < 0x110000 := by
  have valid := c.valid
  rcases valid with low | high
  · exact Nat.lt_trans (show c.toNat < 0xd800 from low) (by decide)
  · exact high.2

theorem utf16_append_inj {c d : Char} {us ws : List Nat}
    (h : utf16 c.toNat ++ us = utf16 d.toNat ++ ws) : c = d ∧ us = ws := by
  have hc := not_surrogate_of_char c
  have hd := not_surrogate_of_char d
  have hclt := charCode_lt c
  have hdlt := charCode_lt d
  have same (hcd : c.toNat = d.toNat) : c = d := Char.toNat_inj.1 hcd
  unfold IsSurrogate at hc hd
  unfold utf16 at h
  split at h <;> split at h <;> simp only [List.cons_append, List.nil_append, List.cons.injEq] at h
  · exact ⟨same h.1, h.2⟩
  · omega
  · omega
  · exact ⟨same (by omega), h.2.2⟩

theorem encode_inj {cs ds : List Char} (h : encode cs = encode ds) : cs = ds := by
  induction cs generalizing ds with
  | nil =>
    cases ds with
    | nil => rfl
    | cons d ds =>
      exfalso
      simp only [encode, List.flatMap_nil, List.flatMap_cons, utf16] at h
      split at h <;> cases h
  | cons c cs ih =>
    cases ds with
    | nil =>
      exfalso
      simp only [encode, List.flatMap_nil, List.flatMap_cons, utf16] at h
      split at h <;> cases h
    | cons d ds =>
      obtain ⟨rfl, rest⟩ := utf16_append_inj h
      rw [ih rest]

/-- How many halves of a character some units make. -/
def halves (units : List Nat) : Nat :=
  units.length + units.countP fun unit => !IsSurrogate unit

@[simp] theorem halves_append (us ws : List Nat) : halves (us ++ ws) = halves us + halves ws := by
  simp only [halves, List.length_append, List.countP_append]
  omega

theorem halves_utf16 (c : Char) : halves (utf16 c.toNat) = 2 := by
  have hc := not_surrogate_of_char c
  have hlt := charCode_lt c
  unfold utf16
  split
  · simp [halves, hc]
  · have high : IsSurrogate (0xd800 + (c.toNat - 0x10000) / 0x400) := by
      unfold IsSurrogate
      omega
    have low : IsSurrogate (0xdc00 + (c.toNat - 0x10000) % 0x400) := by
      unfold IsSurrogate
      omega
    simp [halves, high, low]

theorem halves_encode (cs : List Char) : halves (encode cs) = 2 * cs.length := by
  induction cs with
  | nil => rfl
  | cons c cs ih =>
    have step : encode (c :: cs) = utf16 c.toNat ++ encode cs := rfl
    rw [step, halves_append, halves_utf16, ih, List.length_cons]
    omega

end MarkupEditor.Text
