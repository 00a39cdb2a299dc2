import MarkupEditor.Store.Basic
/-!
# Delayed saves

Every change of a component is scheduled to be saved, but a save waits out a quiet period and writes
only if no later one was scheduled for its identifier meanwhile. Each save goes through its steps on its
own: it wakes and begins to write or gives up, its write lands in the store, it finishes. The slot of an
identifier holds the ticket of its latest save until that save has finished.

A save that fails is over like any other; nobody is told.
-/

set_option autoImplicit false

namespace MarkupEditor

def defaultDelay : Nat := 300

inductive SaveStatus where
  | idle
  | pending
  | saving
  deriving DecidableEq

/-- How far one save is. -/
inductive SaveStage where
  | waiting
  | writing
  | written
  deriving DecidableEq

/-- A save: its ticket, what is written where, when its quiet period ends, and how far it is. -/
structure Save where
  ticket : Nat
  id : String
  value : String
  due : Nat
  stage : SaveStage
  deriving DecidableEq

/-- The latest save of an identifier: its ticket, and whether it has begun to write. -/
structure Slot where
  ticket : Nat
  saving : Bool
  deriving DecidableEq

/-- The saves that have not finished, in the order of their tickets, and the slots of their identifiers.
Tickets are counted over all identifiers, and none is used twice. -/
structure Saver where
  delay : Nat
  issued : Nat
  slots : List (String × Slot)
  saves : List Save

namespace Saver

def ofDelay (delay : Nat) : Saver :=
  ⟨delay, 0, [], []⟩

def slot? (s : Saver) (id : String) : Option Slot :=
  (s.slots.find? (·.1 = id)).map (·.2)

def eraseSlot (s : Saver) (id : String) : Saver :=
  { s with slots := s.slots.filter (·.1 ≠ id) }

def putSlot (s : Saver) (id : String) (slot : Slot) : Saver :=
  { s with slots := (id, slot) :: s.slots.filter (·.1 ≠ id) }

def isLatest (s : Saver) (save : Save) : Bool :=
  match s.slot? save.id with
  | some slot => slot.ticket == save.ticket
  | none => false

def save? (s : Saver) (ticket : Nat) : Option Save :=
  s.saves.find? (·.ticket = ticket)

def setStage (s : Saver) (ticket : Nat) (stage : SaveStage) : Saver :=
  { s with saves := s.saves.map fun save => if save.ticket = ticket then { save with stage } else save }

def dropSave (s : Saver) (ticket : Nat) : Saver :=
  { s with saves := s.saves.filter (·.ticket ≠ ticket) }

/-- Schedules a value to be saved; later than all that was scheduled before. -/
def schedule (s : Saver) (now : Nat) (id value : String) : Saver :=
  let ticket := s.issued + 1
  let s := s.putSlot id ⟨ticket, false⟩
  { s with issued := ticket, saves := s.saves ++ [⟨ticket, id, value, now + s.delay, .waiting⟩] }

/-- The end of a quiet period: a save that is no longer the latest gives up. -/
def wake (s : Saver) (ticket : Nat) : Saver :=
  match s.save? ticket with
  | some save =>
    if save.stage ≠ .waiting then s
    else if s.isLatest save then (s.putSlot save.id ⟨ticket, true⟩).setStage ticket .writing
    else s.dropSave ticket
  | none => s

def land {σ : Type} [ComponentStore σ] (s : Saver) (store : σ) (ticket : Nat) : Saver × σ :=
  match s.save? ticket with
  | some save =>
    if save.stage = .writing then
      (s.setStage ticket .written, (ComponentStore.update store save.id save.value).store)
    else (s, store)
  | none => (s, store)

/-- The end of a save that has written. It leaves the slot to a later save. -/
def finish (s : Saver) (ticket : Nat) : Saver :=
  match s.save? ticket with
  | some save =>
    if save.stage ≠ .written then s
    else if s.isLatest save then (s.eraseSlot save.id).dropSave ticket
    else s.dropSave ticket
  | none => s

/-- How far the latest save of an identifier is; an identifier without one is idle. -/
def status (s : Saver) (id : String) : SaveStatus :=
  match s.slot? id with
  | none => .idle
  | some slot => if slot.saving then .saving else .pending

def tracked (s : Saver) : Nat :=
  s.slots.length

def ticketsOf (s : Saver) (kind : Save → Bool) : List Nat :=
  (s.saves.filter kind).map (·.ticket)

def wakeDue (s : Saver) (now : Nat) : Saver :=
  (s.ticketsOf fun save => save.stage = .waiting && save.due ≤ now).foldl wake s

def wakeAll (s : Saver) : Saver :=
  (s.ticketsOf fun save => save.stage = .waiting).foldl wake s

def complete {σ : Type} [ComponentStore σ] (state : Saver × σ) (ticket : Nat) : Saver × σ :=
  let (s, store) := state.1.land state.2 ticket
  (s.finish ticket, store)

def completeAll {σ : Type} [ComponentStore σ] (s : Saver) (store : σ) : Saver × σ :=
  (s.ticketsOf fun save => save.stage = .writing).foldl complete (s, store)

def drain {σ : Type} [ComponentStore σ] (s : Saver) (store : σ) : Saver × σ :=
  s.wakeAll.completeAll store

end Saver

end MarkupEditor
