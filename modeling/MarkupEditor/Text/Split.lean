set_option autoImplicit false

namespace MarkupEditor.Text

def splitFirst? (cut : Char → Bool) : List Char → Option (List Char × List Char)
  | [] => none
  | c :: cs =>
    if cut c then some ([], cs) else (splitFirst? cut cs).map fun (before, after) => (c :: before, after)

def consFirst (c : Char) : List (List Char) → List (List Char)
  | [] => [[c]]
  | piece :: pieces => (c :: piece) :: pieces

/-- The pieces between the cuts at one character, at least one. -/
def splitAll (cut : Char) : List Char → List (List Char)
  | [] => [[]]
  | c :: cs => if c = cut then [] :: splitAll cut cs else consFirst c (splitAll cut cs)

theorem splitAll_of_not_mem {cut : Char} {cs : List Char} (whole : cut ∉ cs) : splitAll cut cs = [cs] := by
  induction cs with
  | nil => rfl
  | cons c cs ih =>
    obtain ⟨first, rest⟩ := not_or.1 (mt List.mem_cons.2 whole)
    rw [splitAll, if_neg (Ne.symm first), ih rest]
    rfl

theorem splitAll_ne_nil (cut : Char) (cs : List Char) : splitAll cut cs ≠ [] := by
  cases cs with
  | nil => simp [splitAll]
  | cons c cs =>
    rw [splitAll]
    split
    · simp
    · cases splitAll cut cs <;> simp [consFirst]

theorem splitAll_append_cut (cut : Char) (front back : List Char) :
    splitAll cut (front ++ cut :: back) = splitAll cut front ++ splitAll cut back := by
  induction front with
  | nil => exact if_pos rfl
  | cons c front ih =>
    rw [List.cons_append, splitAll, splitAll, ih]
    by_cases same : c = cut
    · rw [if_pos same, if_pos same]
      rfl
    · obtain ⟨piece, pieces, split⟩ := List.exists_cons_of_ne_nil (splitAll_ne_nil cut front)
      rw [if_neg same, if_neg same, split]
      rfl

def occursIn (part : List Char) : List Char → Bool
  | [] => part.isEmpty
  | c :: cs => part.isPrefixOf (c :: cs) || occursIn part cs

def dropReturn (line : List Char) : List Char :=
  if line.getLast? = some '\r' then line.dropLast else line

/-- The lines of a text without their ends, a line feed with or without a carriage return before it. What
follows the last line feed is a line unless it is empty. -/
def linesOf (cs : List Char) : List (List Char) :=
  match (splitAll '\n' cs).reverse with
  | [] => []
  | last :: earlier => (earlier.reverse.map dropReturn) ++ if last.isEmpty then [] else [last]

end MarkupEditor.Text
