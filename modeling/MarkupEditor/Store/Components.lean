set_option autoImplicit false

namespace MarkupEditor

def insertEntry (id value : String) : List (String × String) → List (String × String)
  | [] => [(id, value)]
  | entry :: entries =>
    if id < entry.1 then (id, value) :: entry :: entries
    else if id = entry.1 then (id, value) :: entries
    else entry :: insertEntry id value entries

/-- Whether entries stand in increasing order of their identifiers, each only once. -/
def Ascending (entries : List (String × String)) : Prop :=
  entries.Pairwise fun a b => a.1 < b.1

theorem mem_insertEntry {id value : String} {entries : List (String × String)} {entry : String × String}
    (h : entry ∈ insertEntry id value entries) : entry = (id, value) ∨ entry ∈ entries := by
  induction entries with
  | nil => simpa [insertEntry] using h
  | cons first rest ih =>
    simp only [insertEntry] at h
    split at h
    · simpa using h
    · split at h
      · rcases List.mem_cons.1 h with h | h
        · exact .inl h
        · exact .inr (List.mem_cons_of_mem _ h)
      · rcases List.mem_cons.1 h with h | h
        · exact .inr (h ▸ List.mem_cons_self)
        · exact (ih h).imp_right (List.mem_cons_of_mem _)

theorem Ascending.insertEntry {entries : List (String × String)} (h : Ascending entries)
    (id value : String) : Ascending (insertEntry id value entries) := by
  induction entries with
  | nil => simp [MarkupEditor.insertEntry, Ascending]
  | cons first rest ih =>
    obtain ⟨hfirst, hrest⟩ := List.pairwise_cons.1 h
    simp only [MarkupEditor.insertEntry]
    split
    · rename_i less
      refine List.pairwise_cons.2 ⟨fun e he => ?_, h⟩
      rcases List.mem_cons.1 he with rfl | he
      · exact less
      · exact String.lt_trans less (hfirst e he)
    · split
      · rename_i same
        exact List.pairwise_cons.2 ⟨fun e he => same ▸ hfirst e he, hrest⟩
      · rename_i notLess notSame
        refine List.pairwise_cons.2 ⟨fun e he => ?_, ih hrest⟩
        rcases mem_insertEntry he with rfl | he
        · exact Std.lt_of_le_of_ne notLess (Ne.symm notSame)
        · exact hfirst e he

structure Components where
  entries : List (String × String)
  ascending : Ascending entries

namespace Components

def empty : Components := ⟨[], List.Pairwise.nil⟩

def get? (components : Components) (id : String) : Option String :=
  (components.entries.find? (·.1 = id)).map (·.2)

/-- Puts a value under an identifier, in the place of one that is there. -/
def insert (components : Components) (id value : String) : Components :=
  ⟨insertEntry id value components.entries, components.ascending.insertEntry id value⟩

/-- Entries in any order as components; of several with one identifier the last counts. -/
def ofList (entries : List (String × String)) : Components :=
  entries.foldl (fun components entry => components.insert entry.1 entry.2) empty

@[simp] theorem get?_empty (id : String) : empty.get? id = none := rfl

theorem get?_insert (components : Components) (id value other : String) :
    (components.insert id value).get? other =
      if other = id then some value else components.get? other := by
  have key : ∀ entries : List (String × String),
      ((insertEntry id value entries).find? (·.1 = other)).map (·.2) =
        if other = id then some value else (entries.find? (·.1 = other)).map (·.2) := by
    intro entries
    induction entries with
    | nil => by_cases h : id = other <;> simp [insertEntry, h, eq_comm]
    | cons first rest ih =>
      simp only [insertEntry]
      split
      · by_cases h : id = other
        · simp [h]
        · simp [h, Ne.symm h]
      · split
        · rename_i same
          by_cases h : id = other
          · simp [h]
          · have : ¬ first.1 = other := fun e => h (same.trans e)
            simp [h, this, Ne.symm h]
        · rename_i notSame
          by_cases h : first.1 = other
          · have : ¬ other = id := fun e => notSame (e.symm.trans h.symm)
            simp [h, this]
          · simp [h, ih]
  exact key components.entries

end Components

end MarkupEditor
