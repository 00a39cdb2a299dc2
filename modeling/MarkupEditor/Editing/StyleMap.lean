set_option autoImplicit false

namespace MarkupEditor

/-- Names and values in order. No name stands twice in a map that was built with `insert`. -/
abbrev StyleMap := List (String × String)

namespace StyleMap

def get? (styles : StyleMap) (name : String) : Option String :=
  (styles.find? (·.1 = name)).map (·.2)

/-- Gives a name a value: in its place, or at the end. -/
def insert : StyleMap → String → String → StyleMap
  | [], name, value => [(name, value)]
  | (other, current) :: styles, name, value =>
    if other = name then (other, value) :: styles
    else (other, current) :: insert styles name value

def erase (styles : StyleMap) (name : String) : StyleMap :=
  styles.filter (·.1 ≠ name)

def ofList (entries : List (String × String)) : StyleMap :=
  entries.foldl (fun styles (name, value) => styles.insert name value) []

theorem get?_insert_self (styles : StyleMap) (name value : String) :
    (styles.insert name value).get? name = some value := by
  induction styles with
  | nil => simp [insert, get?]
  | cons entry styles ih =>
    by_cases h : entry.1 = name
    · simp [insert, get?, h]
    · simpa [insert, get?, h] using ih

theorem get?_insert_ne {styles : StyleMap} {name other value : String} (h : other ≠ name) :
    (styles.insert name value).get? other = styles.get? other := by
  induction styles with
  | nil => simp [insert, get?, Ne.symm h]
  | cons entry styles ih =>
    simp only [get?, insert] at ih ⊢
    split
    · rename_i e
      simp [e, Ne.symm h]
    · simp only [List.find?_cons]
      cases decide (entry.fst = other)
      · exact ih
      · rfl

theorem get?_erase_self (styles : StyleMap) (name : String) : (styles.erase name).get? name = none := by
  simp [erase, get?]

end StyleMap

end MarkupEditor
