import Mathlib
import MarkupEditor.Markup.Lexer
import MarkupEditor.Markup.Parser
import MarkupEditor.Number.Shortest
import MarkupEditor.Proofs.Text.Digits

set_option autoImplicit false

namespace MarkupEditor

open Text Lexer MarkupEditor.Parser

/-- Digits, or digits with a point among them. -/
inductive IsPositional : List Char → Prop where
  | whole {c : Char} {digits : List Char} (h : ∀ d ∈ c :: digits, d.isDigit = true) :
    IsPositional (c :: digits)
  | point {c d : Char} {digits part : List Char} (h : ∀ x ∈ c :: digits, x.isDigit = true)
    (h' : ∀ x ∈ d :: part, x.isDigit = true) : IsPositional (c :: digits ++ '.' :: d :: part)

theorem IsPositional.of_append {digits part : List Char} (hdigits : ∀ d ∈ digits, d.isDigit = true)
    (hpart : ∀ d ∈ part, d.isDigit = true) (filled : digits ≠ []) (filled' : part ≠ []) :
    IsPositional (digits ++ '.' :: part) := by
  obtain ⟨c, digits, rfl⟩ := List.exists_cons_of_ne_nil filled
  obtain ⟨d, part, rfl⟩ := List.exists_cons_of_ne_nil filled'
  exact .point hdigits hpart

theorem Shortest.isPositional_positional (n : Nat) (e : Int) : IsPositional (positional n e) := by
  have hdigits : ∀ d ∈ Nat.toDigits 10 n, d.isDigit = true := fun _ => isDigit_of_mem_decimal
  have hne : Nat.toDigits 10 n ≠ [] := Nat.toDigits_ne_nil
  have zeros : ∀ k, ∀ d ∈ List.replicate k '0', d.isDigit = true := by
    intro k d hd
    rw [List.eq_of_mem_replicate hd]
    rfl
  unfold positional
  split
  · obtain ⟨c, digits, htext⟩ := List.exists_cons_of_ne_nil hne
    rw [htext, List.cons_append]
    refine .whole fun d hd => ?_
    rw [← List.cons_append, List.mem_append, ← htext] at hd
    exact hd.elim (hdigits d) (zeros _ d)
  · dsimp only
    split
    · refine .of_append (fun d hd => hdigits d (List.mem_of_mem_take hd))
        (fun d hd => hdigits d (List.mem_of_mem_drop hd)) ?_ ?_
      · rw [Ne, List.take_eq_nil_iff, not_or]
        exact ⟨by omega, hne⟩
      · rw [Ne, List.drop_eq_nil_iff]
        omega
    · have zero : ∀ d ∈ ['0'], d.isDigit = true := List.forall_mem_singleton.2 rfl
      refine IsPositional.of_append zero (fun d hd => ?_) (List.cons_ne_nil _ _) ?_
      · exact (List.mem_append.1 hd).elim (zeros _ d) (hdigits d)
      · exact List.append_ne_nil_of_right_ne_nil _ hne

theorem Shortest.isPositional_print {x : Binary64} (positive : x.isNegative = false)
    (finite : x.isFinite = true) : IsPositional (print x) := by
  rw [Binary64.isFinite, decide_eq_true_eq] at finite
  have number : x.isNaN = false := decide_eq_false (by omega)
  have small : x.isInfinite = false := by
    rw [Binary64.isInfinite, beq_eq_false_iff_ne]
    omega
  rw [print, number, small, positive]
  simp only [Bool.false_eq_true, if_false]
  split
  · exact .whole (List.forall_mem_singleton.2 rfl)
  · exact isPositional_positional _ _

namespace IsPositional

variable {text : List Char}

theorem begins (h : IsPositional text) : ∃ c rest, text = c :: rest ∧ c.isDigit = true ∧
    ∀ d ∈ rest.head?, d.isDigit = true ∨ d = '.' := by
  cases h with
  | @whole c digits h =>
    refine ⟨c, digits, rfl, h c List.mem_cons_self, fun d hd => .inl ?_⟩
    exact h d (List.mem_cons_of_mem c (List.mem_of_mem_head? hd))
  | @point c d digits part h h' =>
    refine ⟨c, digits ++ '.' :: d :: part, rfl, h c List.mem_cons_self, fun x hx => ?_⟩
    cases digits with
    | nil =>
      cases hx
      exact .inr rfl
    | cons y digits =>
      cases hx
      exact .inl (h _ (List.mem_cons_of_mem c List.mem_cons_self))

theorem takeClass_digits {digits : List Char} (rest : List Char) (h : ∀ d ∈ digits, d.isDigit = true)
    (stop : ∀ d ∈ rest.head?, d.isDigit = false) :
    takeClass Char.isDigit (digits ++ rest) = (digits, rest) := by
  rw [takeClass, List.takeWhile_append_of_pos h, List.dropWhile_append_of_pos h]
  cases rest with
  | nil => simp
  | cons d rest => simp [stop d rfl]

theorem not_hex (h : IsPositional text) : hexNumber? text = none := by
  obtain ⟨c, rest, rfl, -, hrest⟩ := h.begins
  unfold hexNumber?
  split
  · rename_i x d cs heq
    cases heq
    rw [if_neg]
    intro hhex
    simp only [Bool.and_eq_true, Bool.or_eq_true, beq_iff_eq] at hhex
    obtain ⟨rfl | rfl, -⟩ := hhex <;> obtain hx | hx := hrest _ rfl <;> revert hx <;> decide
  · rfl

theorem number_eq (h : IsPositional text) : number text = (text, []) := by
  unfold number
  rw [h.not_hex]
  cases h with
  | @whole c digits h =>
    have hall := takeClass_digits [] h nofun
    rw [List.append_nil] at hall
    simp only [hall, Lexer.fraction, exponent, List.append_nil]
  | @point c d digits part h h' =>
    have hwhole := takeClass_digits ('.' :: d :: part) h (by rintro x ⟨⟩; rfl)
    have hpart := takeClass_digits [] h' nofun
    rw [List.append_nil] at hpart
    have hd : d.isDigit = true := h' d List.mem_cons_self
    simp only [hwhole, Lexer.fraction, hd, if_true, hpart, Lexer.pass, exponent, List.append_nil]

theorem numberValue?_eq (h : IsPositional text) : numberValue? text = Decimal.read text := by
  obtain ⟨c, rest, rfl, -, hrest⟩ := h.begins
  unfold numberValue?
  split
  · rename_i heq
    cases heq
    exact absurd (hrest 'x' rfl) (by decide)
  · rename_i heq
    cases heq
    exact absurd (hrest 'X' rfl) (by decide)
  · rfl

theorem read_eq (h : IsPositional text) :
    Decimal.read text = (Decimal.readPositional text).map (Binary64.ofMagnitude false) := by
  obtain ⟨c, rest, rfl, hc, -⟩ := h.begins
  obtain ⟨-, hlow, hhigh⟩ := range_of_isDigit hc
  have lower : c.toLower = c := by
    rw [Char.toLower, dif_neg]
    rintro ⟨hupper, -⟩
    have := UInt32.le_iff_toNat_le.1 hupper
    change 65 ≤ c.toNat at this
    omega
  have sign : Decimal.takeSign (c :: rest) = (false, c :: rest) := by
    unfold Decimal.takeSign
    split
    · rename_i heq
      cases heq
      exact absurd hc (by decide)
    · rename_i heq
      cases heq
      exact absurd hc (by decide)
    · rfl
  have name : ∀ x tail, x.isDigit = false → (c :: rest).map Char.toLower ≠ x :: tail := by
    intro x tail hx heq
    rw [List.map_cons, lower] at heq
    rw [(List.cons.inj heq).1, hx] at hc
    cases hc
  simp only [Decimal.read, sign]
  rw [if_neg, if_neg]
  · exact name 'n' _ rfl
  · rintro (heq | heq)
    · exact name 'i' _ rfl heq
    · exact name 'i' _ rfl heq

theorem exists_value (h : IsPositional text) : ∃ value, numberValue? text = some value := by
  have parts : ∃ magnitude, Decimal.readPositional text = some magnitude := by
    cases h with
    | @whole c digits h =>
      obtain ⟨hwhole, hrest⟩ := Prod.mk.inj (takeClass_digits [] h nofun)
      rw [List.append_nil] at hwhole hrest
      simp only [Decimal.readPositional, hwhole, hrest, Decimal.readExponent, Decimal.value,
        List.isEmpty_cons, Bool.false_and, Bool.false_eq_true, if_false, Option.bind_some, List.append_nil]
      rw [readDigits_eq h]
      exact ⟨_, rfl⟩
    | @point c d digits part h h' =>
      obtain ⟨hwhole, hrest⟩ :=
        Prod.mk.inj (takeClass_digits ('.' :: d :: part) h (by rintro x ⟨⟩; rfl))
      obtain ⟨hpart, htail⟩ := Prod.mk.inj (takeClass_digits [] h' nofun)
      rw [List.append_nil] at hpart htail
      simp only [Decimal.readPositional, hwhole, hrest, hpart, htail, Decimal.readExponent, Decimal.value,
        List.isEmpty_cons, Bool.false_and, Bool.false_eq_true, if_false, Option.bind_some]
      rw [readDigits_eq fun x hx => (List.mem_append.1 hx).elim (h x) (h' x)]
      exact ⟨_, rfl⟩
  obtain ⟨magnitude, hmagnitude⟩ := parts
  refine ⟨.ofMagnitude false magnitude, ?_⟩
  rw [h.numberValue?_eq, h.read_eq, hmagnitude]
  rfl

end IsPositional

end MarkupEditor
