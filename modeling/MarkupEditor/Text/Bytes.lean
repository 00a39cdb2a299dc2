/-!
# Byte offsets

Places in a source are byte offsets into its UTF-8 form, while the text itself is a list of
characters. This module measures a text in bytes and cuts it at a byte offset; a cut that would
split a character is refused.
-/

set_option autoImplicit false

namespace MarkupEditor.Text

def byteLength : List Char → Nat
  | [] => 0
  | c :: cs => c.utf8Size + byteLength cs

@[simp] theorem byteLength_nil : byteLength [] = 0 := rfl

@[simp] theorem byteLength_cons (c : Char) (cs : List Char) :
    byteLength (c :: cs) = c.utf8Size + byteLength cs := rfl

@[simp] theorem byteLength_append (a b : List Char) :
    byteLength (a ++ b) = byteLength a + byteLength b := by
  induction a with
  | nil => simp
  | cons c a ih => simp [ih, Nat.add_assoc]

theorem byteLength_pos {cs : List Char} (h : cs ≠ []) : 0 < byteLength cs := by
  cases cs with
  | nil => exact absurd rfl h
  | cons c cs => have := c.utf8Size_pos; simp; omega

/-- Cuts a text at a byte offset. `none` if the offset is past the end or inside a character. -/
def splitAtByte : List Char → Nat → Option (List Char × List Char)
  | cs, 0 => some ([], cs)
  | [], _ + 1 => none
  | c :: cs, n + 1 =>
    if c.utf8Size ≤ n + 1 then
      (splitAtByte cs (n + 1 - c.utf8Size)).map fun (before, after) => (c :: before, after)
    else none

theorem splitAtByte_sound {cs before after : List Char} {n : Nat}
    (h : splitAtByte cs n = some (before, after)) : cs = before ++ after ∧ byteLength before = n := by
  induction cs generalizing n before with
  | nil => cases n <;> simp_all [splitAtByte]
  | cons c cs ih =>
    cases n with
    | zero => simp_all [splitAtByte]
    | succ n =>
      simp only [splitAtByte] at h
      split at h
      · rename_i fits
        simp only [Option.map_eq_some_iff, Prod.mk.injEq, Prod.exists] at h
        obtain ⟨b, a, hb, rfl, rfl⟩ := h
        obtain ⟨rfl, hn⟩ := ih hb
        refine ⟨rfl, ?_⟩
        simp only [byteLength_cons]
        omega
      · simp at h

def toBytes (cs : List Char) : List UInt8 :=
  cs.flatMap String.utf8EncodeChar

end MarkupEditor.Text
