import MarkupEditor.Number.Binary64
/-!
# JSON values

A value keeps what its text says: the members of an object stand in their order and may repeat a name,
and a whole number is told apart from one with a fraction or an exponent. `unreadable` stands for text
that has the form of a value and yet names none; it does no harm where a value is passed over.
-/

set_option autoImplicit false

namespace MarkupEditor

/-- A JSON number. Whole numbers of at most 64 bits are exact. -/
inductive JsonNumber where
  | natural (n : Nat)
  | negative (n : Nat)
  | float (x : Binary64)
  deriving DecidableEq

def JsonNumber.toBinary64 : JsonNumber → Binary64
  | .natural n => .ofNat n
  | .negative n => (Binary64.ofNat n).neg
  | .float x => x

inductive Json where
  | null
  | bool (value : Bool)
  | number (value : JsonNumber)
  | string (value : String)
  | array (items : List Json)
  | object (members : List (String × Json))
  | unreadable
  deriving Inhabited

namespace Json

mutual

def isReadable : Json → Bool
  | .unreadable => false
  | .array items => allReadable items
  | .object members => allMembersReadable members
  | _ => true

def allReadable : List Json → Bool
  | [] => true
  | item :: items => item.isReadable && allReadable items

def allMembersReadable : List (String × Json) → Bool
  | [] => true
  | (_, value) :: members => value.isReadable && allMembersReadable members

end

def string? : Json → Option String
  | .string s => some s
  | _ => none

def bool? : Json → Option Bool
  | .bool b => some b
  | _ => none

def naturalBelow? (limit : Nat) : Json → Option Nat
  | .number (.natural n) => if n < limit then some n else none
  | _ => none

def items? {α : Type} (read : Json → Option α) : Json → Option (List α)
  | .array items => items.mapM read
  | _ => none

def nullable? {α : Type} (read : Json → Option α) : Json → Option (Option α)
  | .null => some none
  | value => (read value).map some

def valuesOf (name : String) (members : List (String × Json)) : List Json :=
  (members.filter (·.1 = name)).map (·.2)

/-- The value that the members give a name; of several, the last. -/
def lastOf? (name : String) (members : List (String × Json)) : Option Json :=
  (valuesOf name members).getLast?

/-- An object as a finite map; of several members with a name the last counts. -/
def entries? {α : Type} (read : Json → Option α) : Json → Option (List (String × α))
  | .object members => members.mapM fun (name, value) => (read value).map (name, ·)
  | _ => none

end Json

end MarkupEditor
