import Mathlib.Data.Bool.AllAny
import MarkupEditor.Text.Quoted

set_option autoImplicit false

namespace MarkupEditor.Text

theorem takeWhile_upTo {mark : Char} {run : List Char} (h : mark ∉ run) (rest : List Char) :
    (run ++ mark :: rest).takeWhile (· != mark) = run ∧
      (run ++ mark :: rest).dropWhile (· != mark) = mark :: rest := by
  have other : ∀ x ∈ run, (x != mark) = true := by
    intro x hx
    simpa using fun same : x = mark => h (same ▸ hx)
  rw [List.takeWhile_append_of_pos other, List.dropWhile_append_of_pos other]
  simp

theorem upToSemicolon_append {name : List Char} (h : ';' ∉ name) (cs : List Char) :
    upToSemicolon (name ++ ';' :: cs) = some name := by
  induction name with
  | nil => rfl
  | cons c name ih =>
    rw [List.mem_cons, not_or] at h
    rw [List.cons_append, upToSemicolon, ih h.2]
    · rfl
    · exact fun hc => h.1 hc.symm

theorem decodeReferences_reference (name : List Char) (c : Char) (h : ';' ∉ name)
    (named : referenced name = some c) (cs : List Char) :
    decodeReferences ('&' :: (name ++ ';' :: cs)) = c :: decodeReferences cs := by
  have hdrop : (name ++ ';' :: cs).drop (name.length + 1) = cs := by
    rw [List.append_cons]
    exact List.drop_left' (by simp)
  rw [decodeReferences_ampersand, reference?, upToSemicolon_append h, Option.bind_some, named]
  simp only [Option.map_some, hdrop]

theorem decode_escapeTextChar (c : Char) (cs : List Char) :
    decodeReferences (escapeTextChar c ++ cs) = c :: decodeReferences cs := by
  unfold escapeTextChar
  split
  · exact decodeReferences_reference "amp".toList '&' (by decide) (by decide) cs
  · exact decodeReferences_reference "lt".toList '<' (by decide) (by decide) cs
  · exact decodeReferences_reference "gt".toList '>' (by decide) (by decide) cs
  · exact decodeReferences_reference "#123".toList '{' (by decide) (by decide) cs
  · exact decodeReferences_reference "#125".toList '}' (by decide) (by decide) cs
  · exact decodeReferences_cons ‹_› cs

theorem decode_escapeText (cs : List Char) : decodeReferences (escapeText cs) = cs := by
  induction cs with
  | nil => rfl
  | cons c cs ih =>
    rw [escapeText, List.flatMap_cons, decode_escapeTextChar]
    exact congrArg (c :: ·) ih

theorem decode_escapeAttributeChar (c : Char) (cs : List Char) :
    decodeReferences (escapeAttributeChar c ++ cs) = c :: decodeReferences cs := by
  unfold escapeAttributeChar
  split
  · exact decodeReferences_reference "amp".toList '&' (by decide) (by decide) cs
  · exact decodeReferences_reference "quot".toList '"' (by decide) (by decide) cs
  · exact decodeReferences_cons ‹_› cs

theorem decode_escapeAttribute (cs : List Char) : decodeReferences (escapeAttribute cs) = cs := by
  induction cs with
  | nil => rfl
  | cons c cs ih =>
    rw [escapeAttribute, List.flatMap_cons, decode_escapeAttributeChar]
    exact congrArg (c :: ·) ih

theorem escapeText_clean {cs : List Char} {x : Char} (h : x ∈ escapeText cs) :
    x ∉ ['<', '>', '{', '}'] := by
  obtain ⟨c, _, hx⟩ := List.mem_flatMap.1 h
  clear h
  have clean (text : List Char) (h : (text.all fun a => a ∉ ['<', '>', '{', '}']) = true) (hx : x ∈ text) :
      x ∉ ['<', '>', '{', '}'] :=
    List.all_iff_forall_prop.1 h x hx
  unfold escapeTextChar at hx
  split at hx
  case h_6 =>
    rw [List.mem_singleton.1 hx]
    simp_all
  all_goals exact clean _ (by decide) hx

theorem escapeText_ne_nil {cs : List Char} (h : cs ≠ []) : escapeText cs ≠ [] := by
  intro he
  have hd := decode_escapeText cs
  rw [he] at hd
  exact h hd.symm

theorem escapeAttribute_clean {cs : List Char} : '"' ∉ escapeAttribute cs := by
  intro h
  obtain ⟨c, _, hx⟩ := List.mem_flatMap.1 h
  unfold escapeAttributeChar at hx
  split at hx
  · revert hx; decide
  · revert hx; decide
  · rename_i hne
    exact hne (List.mem_singleton.1 hx).symm

theorem unescape_quoteChar (c : Char) (cs : List Char) :
    unescape (quoteChar c ++ cs) = c :: unescape cs := by
  unfold quoteChar
  split
  case h_6 => exact unescape_cons ‹_› cs
  all_goals exact unescape_backslash _

theorem unescape_quoted (cs : List Char) : unescape (cs.flatMap quoteChar) = cs := by
  induction cs with
  | nil => rfl
  | cons c cs ih => rw [List.flatMap_cons, unescape_quoteChar, ih]

theorem betweenQuotes_quote (cs : List Char) : betweenQuotes (quote cs) = cs.flatMap quoteChar := by
  have one : '"'.utf8Size = 1 := by decide
  simp [quote, betweenQuotes, one]

theorem unquote_quote (cs : List Char) : unquote (quote cs) = cs := by
  rw [unquote, betweenQuotes_quote, unescape_quoted]

end MarkupEditor.Text
