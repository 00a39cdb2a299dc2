import Mathlib.Data.List.DropRight
import MarkupEditor.Json.Printer
import MarkupEditor.Json.Reader

set_option autoImplicit false

namespace MarkupEditor.Json

open Text

def ofStrings (entries : List (String × String)) : Json :=
  .object (entries.map fun (name, value) => (name, .string value))

theorem length_hexDigits (width n : Nat) : (hexDigits width n).length = width := by
  induction width generalizing n with
  | zero => rfl
  | succ width ih => simp [hexDigits, ih]

theorem Printer.string_append (s : String) (rest : List Char) :
    Printer.string s ++ rest = '"' :: (s.toList.flatMap Printer.escapeChar ++ '"' :: rest) := by
  simp [Printer.string]

namespace Reader

/-- Whether a text is made of blanks that may stand between the parts of a value. -/
def IsGap (cs : List Char) : Prop :=
  ∀ c ∈ cs, isBlank c = true

theorem skipBlanks_gap {gap : List Char} (h : IsGap gap) (cs : List Char) :
    skipBlanks (gap ++ cs) = skipBlanks cs := by
  induction gap with
  | nil => rfl
  | cons c gap ih =>
    rw [skipBlanks, List.cons_append, List.dropWhile_cons_of_pos (h c List.mem_cons_self)]
    exact ih fun d hd => h d (List.mem_cons_of_mem c hd)

theorem skipBlanks_gap_cons {gap : List Char} (h : IsGap gap) {c : Char} (hc : isBlank c = false)
    (cs : List Char) : skipBlanks (gap ++ c :: cs) = c :: cs := by
  rw [skipBlanks_gap h, skipBlanks, List.dropWhile_cons_of_neg (by simp [hc])]

theorem stringAfter_eq (skipped : Nat) (cs : List Char) :
    stringAfter skipped cs = stringAfter 0 (cs.drop skipped) := by
  induction cs generalizing skipped with
  | nil => cases skipped <;> rfl
  | cons c cs ih =>
    cases skipped with
    | zero => rfl
    | succ skipped => exact ih skipped

theorem stringAfter_escape {c : Char} (text : List Char) {cs : List Char}
    (h : escape? (text ++ cs) = some (some c, text.length)) :
    stringAfter 0 ('\\' :: (text ++ cs)) =
      (stringAfter 0 cs).map fun (units, rest) => (some c :: units, rest) := by
  rw [stringAfter, if_neg (by decide), if_pos rfl, h]
  simp only [stringAfter_eq text.length, List.drop_left]

theorem codeUnit?_control {n : Nat} (h : n < 32) (cs : List Char) :
    codeUnit? (hexDigits 4 n ++ cs) = some n := by
  have read : ∀ m < 32, readDigits 16 0 (hexDigits 4 m) = some m := by decide
  obtain ⟨a, b, c, d, four⟩ := List.length_eq_four.1 (length_hexDigits 4 n)
  rw [← read n h, four]
  rfl

theorem escape?_control {c : Char} (h : c.toNat < 32) (cs : List Char) :
    escape? ('u' :: hexDigits 4 c.toNat ++ cs) = some (some c, 5) := by
  rw [List.cons_append, escape?, codeUnit?_control h]
  simp only [Option.bind_eq_bind, Option.bind_some]
  rw [if_neg (by omega), if_neg (by omega), Char.ofNat_toNat]

theorem stringAfter_escapeChar (c : Char) (cs : List Char) :
    stringAfter 0 (Printer.escapeChar c ++ cs) =
      (stringAfter 0 cs).map fun (units, rest) => (some c :: units, rest) := by
  unfold Printer.escapeChar
  split
  case h_8 quote backslash _ _ _ _ _ =>
    split
    · rename_i control
      have small : c.toNat < 32 := Char.lt_def.1 control
      exact stringAfter_escape ('u' :: hexDigits 4 c.toNat)
        ((escape?_control small cs).trans (by simp [length_hexDigits]))
    · rename_i plain
      rw [List.singleton_append, stringAfter, if_neg quote, if_neg backslash, if_neg plain]
  all_goals exact stringAfter_escape [_] rfl

theorem stringAfter_written (text rest : List Char) :
    stringAfter 0 (text.flatMap Printer.escapeChar ++ '"' :: rest) = some (text.map some, rest) := by
  induction text with
  | nil => rfl
  | cons c text ih =>
    rw [List.flatMap_cons, List.append_assoc, stringAfter_escapeChar, ih]
    rfl

theorem mapM_some {α : Type} (items : List α) : (items.map some).mapM id = some items := by
  induction items with
  | nil => rfl
  | cons item items ih => simp [ih]

theorem string_written (s : String) (rest : List Char) :
    string (s.toList.flatMap Printer.escapeChar ++ '"' :: rest) = some (some s, rest) := by
  rw [string, stringAfter_written]
  simp only [Option.map_some, mapM_some, String.ofList_toList]

theorem value_string {gap : List Char} (h : IsGap gap) (steps level : Nat) (s : String)
    (rest : List Char) :
    value (steps + 1) level (gap ++ (Printer.string s ++ rest)) = some (.string s, rest) := by
  rw [Printer.string_append, value, skipBlanks_gap_cons h (by decide)]
  simp only [string_written]
  rfl

/-- Members that are strings, with commas between them: a gap in front of each, and one after its colon. -/
def membersText (front gap : List Char) : List (String × String) → List Char
  | [] => []
  | [(name, value)] => front ++ (Printer.string name ++ ':' :: (gap ++ Printer.string value))
  | (name, value) :: entries =>
    front ++ (Printer.string name ++ ':' :: (gap ++ (Printer.string value ++
      ',' :: membersText front gap entries)))

theorem length_le_membersText (front gap : List Char) (entries : List (String × String)) :
    entries.length ≤ (membersText front gap entries).length := by
  induction entries with
  | nil => exact Nat.zero_le _
  | cons first entries ih =>
    cases entries <;>
      simp only [membersText, List.length_append, List.length_cons, List.length_nil] at ih ⊢ <;> omega

theorem members_skipBlanks (steps level : Nat) (cs : List Char) :
    members steps level (skipBlanks cs) = members steps level cs := by
  cases steps with
  | zero => rfl
  | succ steps =>
    have again : skipBlanks (skipBlanks cs) = skipBlanks cs := List.dropWhile_idempotent _ cs
    rw [members, again, members]

theorem objectOf_strings (entries : List (String × String)) :
    objectOf (entries.map fun (name, text) => (some name, .string text)) = ofStrings entries := by
  induction entries with
  | nil => rfl
  | cons entry entries ih =>
    simp only [objectOf, ofStrings, List.map_cons, List.mapM_cons] at ih ⊢
    split at ih
    · rename_i members read
      obtain rfl := Json.object.inj ih
      rw [read]
      rfl
    · cases ih

section Members

variable {front gap close : List Char} (hfront : IsGap front) (hgap : IsGap gap) (hclose : IsGap close)
include hfront hgap

theorem members_last (hclose : IsGap close) (steps level : Nat) (name text : String) (rest : List Char) :
    members (steps + 2) level
        (front ++ (Printer.string name ++ ':' :: (gap ++ (Printer.string text ++ (close ++ '}' :: rest))))) =
      some ([(some name, .string text)], rest) := by
  rw [Printer.string_append, members, skipBlanks_gap_cons hfront (by decide)]
  simp only [string_written, Option.bind_eq_bind, Option.bind_some]
  rw [show skipBlanks (':' :: (gap ++ (Printer.string text ++ (close ++ '}' :: rest)))) = ':' :: _ from rfl]
  simp only [value_string hgap, Option.bind_some]
  rw [skipBlanks_gap_cons hclose (by decide)]
  simp

theorem members_comma (steps level : Nat) (name text : String) (more : List Char) :
    members (steps + 2) level
        (front ++ (Printer.string name ++ ':' :: (gap ++ (Printer.string text ++ ',' :: more)))) =
      (members (steps + 1) level more).map fun (others, rest) => ((some name, .string text) :: others, rest) := by
  rw [Printer.string_append, members, skipBlanks_gap_cons hfront (by decide)]
  simp only [string_written, Option.bind_eq_bind, Option.bind_some]
  rw [show skipBlanks (':' :: (gap ++ (Printer.string text ++ ',' :: more))) = ':' :: _ from rfl]
  simp only [value_string hgap, Option.bind_some]
  rw [show skipBlanks (',' :: more) = ',' :: more from rfl]
  simp only [Option.map_eq_bind]
  rfl

/-- Members are read as they were written, the first argument being enough for one step for each and one
for a value. -/
theorem members_written (hclose : IsGap close) (first : String × String) (entries : List (String × String))
    (steps level : Nat) (enough : entries.length + 2 ≤ steps) (rest : List Char) :
    members steps level (membersText front gap (first :: entries) ++ (close ++ '}' :: rest)) =
      some ((first :: entries).map fun (name, text) => (some name, .string text), rest) := by
  induction entries generalizing first steps with
  | nil =>
    obtain ⟨steps, rfl⟩ := Nat.exists_eq_add_of_le' enough
    simpa [membersText] using members_last hfront hgap hclose steps level first.1 first.2 rest
  | cons second entries ih =>
    obtain ⟨steps, rfl⟩ : ∃ n, steps = n + 2 := Nat.exists_eq_add_of_le' (by omega)
    have tail := ih second (steps + 1) (by simp at enough; omega)
    have head := members_comma hfront hgap steps level first.1 first.2
      (membersText front gap (second :: entries) ++ (close ++ '}' :: rest))
    rw [tail] at head
    simpa [membersText] using head

theorem object_written (hclose : IsGap close) (first : String × String) (entries : List (String × String))
    (steps : Nat) (enough : entries.length + 3 ≤ steps) :
    value steps 0 ('{' :: (membersText front gap (first :: entries) ++ (close ++ ['}']))) =
      some (ofStrings (first :: entries), []) := by
  obtain ⟨steps, rfl⟩ : ∃ n, steps = n + 1 := Nat.exists_eq_add_of_le' (by omega)
  have members := members_written hfront hgap hclose first entries steps 1 (by omega) []
  obtain ⟨text, opens⟩ : ∃ text, skipBlanks (membersText front gap (first :: entries) ++ (close ++ ['}'])) =
      '"' :: text := by
    cases entries <;>
      simp only [membersText, List.append_assoc, Printer.string_append, List.cons_append] <;>
      exact ⟨_, skipBlanks_gap_cons hfront (by decide) _⟩
  rw [value, show skipBlanks ('{' :: (membersText front gap (first :: entries) ++ (close ++ ['}']))) =
    '{' :: _ from rfl]
  rw [← members_skipBlanks, opens] at members
  simp only [opens]
  change (Reader.members steps 1 ('"' :: text)).bind _ = _
  rw [members, Option.bind_some, objectOf_strings]
  rfl

theorem read_written (hclose : IsGap close) (first : String × String) (entries : List (String × String)) :
    read ('{' :: (membersText front gap (first :: entries) ++ (close ++ ['}']))) =
      some (ofStrings (first :: entries)) := by
  have long := length_le_membersText front gap (first :: entries)
  rw [read, object_written hfront hgap hclose]
  · rfl
  · simp only [List.length_cons, List.length_append] at long ⊢
    omega

end Members

theorem laidOutMembers_strings (depth : Nat) (entries : List (String × String)) :
    Printer.laidOutMembers depth (entries.map fun (name, text) => (name, .string text)) =
      membersText (Printer.newLine depth) [' '] entries := by
  induction entries with
  | nil => rfl
  | cons first entries ih =>
    cases entries with
    | nil => simp [Printer.laidOutMembers, membersText, Printer.laidOut, Printer.compact]
    | cons second entries =>
      simp only [List.map_cons, Printer.laidOutMembers] at ih ⊢
      rw [ih]
      simp [membersText, Printer.laidOut, Printer.compact]

theorem compactMembers_strings (entries : List (String × String)) :
    Printer.compactMembers (entries.map fun (name, text) => (name, .string text)) =
      membersText [] [] entries := by
  induction entries with
  | nil => rfl
  | cons first entries ih =>
    cases entries with
    | nil => simp [Printer.compactMembers, membersText, Printer.compact]
    | cons second entries =>
      simp only [List.map_cons, Printer.compactMembers] at ih ⊢
      rw [ih]
      simp [membersText, Printer.compact]

theorem isGap_nil : IsGap [] := nofun

theorem isGap_space : IsGap [' '] := by
  intro c hc
  rw [List.mem_singleton.1 hc]
  rfl

theorem isGap_newLine (depth : Nat) : IsGap (Printer.newLine depth) := by
  intro c hc
  rcases List.mem_cons.1 hc with rfl | hc
  · rfl
  · rw [List.eq_of_mem_replicate hc]
    rfl

end Reader

open Reader

theorem printPretty_strings (first : String × String) (entries : List (String × String)) :
    (ofStrings (first :: entries)).printPretty.toList =
      '{' :: (membersText (Printer.newLine 1) [' '] (first :: entries) ++ (Printer.newLine 0 ++ ['}'])) := by
  rw [← laidOutMembers_strings, ← List.append_assoc]
  simp [printPretty, ofStrings, Printer.laidOut]

theorem print_strings (entries : List (String × String)) :
    (ofStrings entries).print.toList = '{' :: (membersText [] [] entries ++ ([] ++ ['}'])) := by
  rw [← compactMembers_strings]
  simp [print, ofStrings, Printer.compact]

theorem isReadable_ofStrings (entries : List (String × String)) : (ofStrings entries).isReadable = true := by
  rw [ofStrings, isReadable]
  induction entries with
  | nil => rfl
  | cons entry entries ih => simpa [allMembersReadable, isReadable] using ih

theorem read_printPretty_strings (entries : List (String × String)) :
    read (ofStrings entries).printPretty.toList = some (ofStrings entries) := by
  cases entries with
  | nil => rfl
  | cons first entries =>
    rw [printPretty_strings]
    exact read_written (isGap_newLine 1) isGap_space (isGap_newLine 0) first entries

theorem readAll_print_strings (entries : List (String × String)) :
    readAll (ofStrings entries).print.toList = some (ofStrings entries) := by
  have whole : read (ofStrings entries).print.toList = some (ofStrings entries) := by
    cases entries with
    | nil => rfl
    | cons first entries =>
      rw [print_strings]
      exact read_written isGap_nil isGap_nil isGap_nil first entries
  rw [readAll, whole, Option.filter_some, if_pos (isReadable_ofStrings entries)]

end MarkupEditor.Json
