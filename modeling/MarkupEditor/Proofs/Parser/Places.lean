import MarkupEditor.Markup.Parser
import MarkupEditor.Proofs.Markup.Lexing

set_option autoImplicit false

namespace MarkupEditor

open Text

namespace Text

theorem eq_nil_of_byteLength_eq_zero {cs : List Char} (h : byteLength cs = 0) : cs = [] := by
  cases cs with
  | nil => rfl
  | cons c cs =>
    have := byteLength_pos (List.cons_ne_nil c cs)
    omega

end Text

namespace Cursor

/-- The second place comes at or after the first in the same source. -/
def Before (c d : Cursor) : Prop :=
  ∃ text, c.rest = text ++ d.rest ∧ d.pos = c.pos + byteLength text

variable {c d e : Cursor}

theorem Before.refl (c : Cursor) : c.Before c :=
  ⟨[], rfl, rfl⟩

theorem Before.trans (h : c.Before d) (h' : d.Before e) : c.Before e := by
  obtain ⟨a, ha, hp⟩ := h
  obtain ⟨b, hb, hq⟩ := h'
  refine ⟨a ++ b, ?_, ?_⟩
  · rw [ha, hb, List.append_assoc]
  · rw [hq, hp, byteLength_append, Nat.add_assoc]

theorem Before.length_le (h : c.Before d) : d.rest.length ≤ c.rest.length := by
  obtain ⟨a, ha, _⟩ := h
  rw [ha, List.length_append]
  exact Nat.le_add_left _ _

theorem Before.pos_le (h : c.Before d) : c.pos ≤ d.pos := by
  obtain ⟨a, _, hp⟩ := h
  omega

theorem Before.pos_lt_iff (h : c.Before d) : c.pos < d.pos ↔ d.rest.length < c.rest.length := by
  obtain ⟨a, ha, hp⟩ := h
  rw [ha, List.length_append]
  cases a with
  | nil => simp only [byteLength_nil, List.length_nil] at *; omega
  | cons x a =>
    have hx := byteLength_pos (List.cons_ne_nil x a)
    simp only [List.length_cons]
    omega

theorem Before.sourceEnd (h : c.Before d) : d.sourceEnd = c.sourceEnd := by
  obtain ⟨a, ha, hp⟩ := h
  rw [Cursor.sourceEnd, Cursor.sourceEnd, ha, hp, byteLength_append]
  omega

theorem before_advance {text rest : List Char} (h : c.rest = text ++ rest) :
    c.Before (c.advance text rest) :=
  ⟨text, h, rfl⟩

theorem before_skipBlanks (c : Cursor) : c.Before c.skipBlanks :=
  before_advance List.takeWhile_append_dropWhile.symm

/-- Two places of one source with the same offset are the same place. -/
theorem eq_of_pos_eq {source : Cursor} (hc : source.Before c) (hd : source.Before d)
    (h : c.pos = d.pos) : c = d := by
  obtain ⟨a, ha, hp⟩ := hc
  obtain ⟨b, hb, hq⟩ := hd
  have hab : byteLength a = byteLength b := by omega
  have hrest : c.rest = d.rest := by
    rw [ha] at hb
    rcases List.append_eq_append_iff.1 hb with ⟨t, rfl, h'⟩ | ⟨t, rfl, h'⟩
    · have ht : t = [] := by
        rw [byteLength_append] at hab
        exact eq_nil_of_byteLength_eq_zero (by omega)
      simpa [ht] using h'
    · have ht : t = [] := by
        rw [byteLength_append] at hab
        exact eq_nil_of_byteLength_eq_zero (by omega)
      simpa [ht] using h'.symm
  cases c
  cases d
  simp_all

variable {s : Sight}

theorem sight?_spec (h : c.sight? = some s) :
    c.Before s.start ∧ s.start.Before s.stop ∧ s.start.rest = s.text ++ s.stop.rest ∧
      c.rest = s.skipped ++ s.start.rest ∧ s.text ≠ [] := by
  obtain ⟨lexeme, hl, rfl⟩ := Option.map_eq_some_iff.1 h
  obtain ⟨hall, hne⟩ := Lexeme.next?_lossless hl
  exact ⟨before_advance hall.symm, before_advance rfl, rfl, hall.symm, hne⟩

theorem before_start (h : c.sight? = some s) : c.Before s.start :=
  (sight?_spec h).1

theorem before_stop (h : c.sight? = some s) : c.Before s.stop :=
  (sight?_spec h).1.trans (sight?_spec h).2.1

theorem start_lt_stop (h : c.sight? = some s) : s.start.pos < s.stop.pos := by
  obtain ⟨_, hb, ht, _, hne⟩ := sight?_spec h
  rw [hb.pos_lt_iff, ht, List.length_append]
  have := List.length_pos_iff.2 hne
  omega

theorem length_stop_lt (h : c.sight? = some s) : s.stop.rest.length < c.rest.length := by
  have hb := before_start h
  have hs := (sight?_spec h).2.1
  exact Nat.lt_of_lt_of_le (hs.pos_lt_iff.1 (start_lt_stop h)) hb.length_le

theorem sight?_start (h : c.sight? = some s) : s.start.sight? = some { s with skipped := [] } := by
  obtain ⟨lexeme, hl, rfl⟩ := Option.map_eq_some_iff.1 h
  have hskip := Lexer.skip_between_idem .between c.rest
  unfold Lexeme.next? at hl
  split at hl
  · simp at hl
  · rename_i skipped x rest heq
    simp only [Option.some.injEq] at hl
    subst hl
    rw [heq] at hskip
    rw [Lexeme.first_eq]
    simp only [Cursor.sight?, Cursor.advance, Lexeme.first_append, Lexeme.first_skipped,
      Lexeme.next?, hskip, Option.map_some, byteLength_nil, Nat.add_zero]

theorem mark?_eq_some {mark : Punctuator} :
    c.mark? mark = some s ↔ c.sight? = some s ∧ s.token = some (.punctuator mark) := by
  rw [Cursor.mark?, Option.filter_eq_some_iff]
  simp

theorem mark?_eq_none {mark : Punctuator} :
    c.mark? mark = none ↔ ∀ s, c.sight? = some s → s.token ≠ some (.punctuator mark) := by
  rw [Cursor.mark?, Option.filter_eq_none_iff]
  simp

end Cursor

end MarkupEditor
