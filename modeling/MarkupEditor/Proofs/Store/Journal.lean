import Mathlib.Data.List.Basic
import MarkupEditor.Store.Memory
/-!
# Journals of stores

What a store answers depends on nothing but the writes that were done on it. A journal is the list of those
writes, and a store keeps it if it answers every call from it: the value under an identifier is the one that
was written last.
-/

set_option autoImplicit false

namespace MarkupEditor

/-- The writes that were done on a store, in order: under which identifier, and what. -/
structure Journal where
  writes : List (String × String)

namespace Journal

def empty : Journal := ⟨[]⟩

/-- The value that was written last under an identifier. -/
def get? (j : Journal) (id : String) : Option String :=
  ((j.writes.filter (·.1 = id)).getLast?).map (·.2)

def write (j : Journal) (id value : String) : Journal :=
  ⟨j.writes ++ [(id, value)]⟩

@[simp] theorem get?_empty (id : String) : empty.get? id = none := rfl

theorem get?_write (j : Journal) (id value other : String) :
    (j.write id value).get? other = if other = id then some value else j.get? other := by
  by_cases same : other = id
  · subst same
    simp [get?, write, List.filter_append]
  · simp [get?, write, List.filter_append, same, Ne.symm same]

theorem mem_writes_of_get? {j : Journal} {id value : String} (h : j.get? id = some value) :
    (id, value) ∈ j.writes := by
  obtain ⟨entry, last, rfl⟩ := Option.map_eq_some_iff.1 h
  obtain ⟨there, own⟩ := List.mem_filter.1 (List.mem_of_getLast? last)
  obtain rfl : entry.1 = id := by simpa using own
  exact there

end Journal

def answersOf {α β γ : Type} (make : α → β → α × γ) : α → List β → List γ
  | _, [] => []
  | state, call :: calls => (make state call).2 :: answersOf make (make state call).1 calls

inductive StoreCall where
  | create (id value : String)
  | read (id : String)
  | update (id value : String)

namespace StoreCall

/-- Makes a call: the next store, and the answer, which is the new identifier, the value that was read, or
nothing. -/
def perform {σ : Type} [ComponentStore σ] (store : σ) : StoreCall → σ × Except StoreError (Option String)
  | .create id value =>
    let reply := ComponentStore.create store id value
    (reply.store, reply.answer.map fun _ => some id)
  | .read id => (store, ComponentStore.read store id)
  | .update id value =>
    let reply := ComponentStore.update store id value
    (reply.store, reply.answer.map fun _ => none)

/-- What a call should come to: the next journal and the answer. An update of what was never created is
refused and not entered. -/
def enter (j : Journal) : StoreCall → Journal × Except StoreError (Option String)
  | .create id value => (j.write id value, .ok (some id))
  | .read id => (j, .ok (j.get? id))
  | .update id value =>
    if (j.get? id).isSome then (j.write id value, .ok none) else (j, .error (.notFound id))

theorem enter_ne_file (call : StoreCall) (j : Journal) (error : FileError) :
    (call.enter j).2 ≠ .error (.file error) := by
  cases call with
  | create id value => nofun
  | read id => nofun
  | update id value =>
    simp only [enter]
    split <;> nofun

end StoreCall

/-- Stores answer reads from a journal, and an update of what is known is done and entered. -/
structure KeepsUpdates {σ : Type} [ComponentStore σ] (holds : σ → Journal → Prop) : Prop where
  read {store : σ} {j : Journal} : holds store j → ∀ id, ComponentStore.read store id = .ok (j.get? id)
  update {store : σ} {j : Journal} : holds store j → ∀ id value, (j.get? id).isSome = true →
    (ComponentStore.update store id value).answer = .ok () ∧
      holds (ComponentStore.update store id value).store (j.write id value)

/-- Stores keep a journal: each call is answered from it, and what is done is entered. -/
structure KeepsJournal {σ : Type} [ComponentStore σ] (holds : σ → Journal → Prop) : Prop
    extends KeepsUpdates holds where
  create {store : σ} {j : Journal} : holds store j → ∀ id value,
    (ComponentStore.create store id value).answer = .ok () ∧
      holds (ComponentStore.create store id value).store (j.write id value)
  unknown {store : σ} {j : Journal} : holds store j → ∀ id value, j.get? id = none →
    ComponentStore.update store id value = ⟨store, .error (.notFound id)⟩

namespace KeepsJournal

variable {σ : Type} [ComponentStore σ] {holds : σ → Journal → Prop}

theorem perform (keeps : KeepsJournal holds) {store : σ} {j : Journal} (h : holds store j)
    (call : StoreCall) :
    (call.perform store).2 = (call.enter j).2 ∧ holds (call.perform store).1 (call.enter j).1 := by
  cases call with
  | create id value =>
    obtain ⟨answer, next⟩ := keeps.create h id value
    refine ⟨?_, next⟩
    rw [StoreCall.perform, answer]
    rfl
  | read id => exact ⟨keeps.read h id, h⟩
  | update id value =>
    cases known : j.get? id with
    | none =>
      simp [StoreCall.perform, StoreCall.enter, keeps.unknown h id value known, known, h, Except.map]
    | some old =>
      obtain ⟨answer, next⟩ := keeps.update h id value (by rw [known]; rfl)
      simp [StoreCall.perform, StoreCall.enter, answer, next, known, Except.map]

theorem answers (keeps : KeepsJournal holds) {store : σ} {j : Journal} (h : holds store j)
    (calls : List StoreCall) :
    answersOf StoreCall.perform store calls = answersOf StoreCall.enter j calls := by
  induction calls generalizing store j with
  | nil => rfl
  | cons call calls ih =>
    obtain ⟨answer, next⟩ := keeps.perform h call
    rw [answersOf, answersOf, answer, ih next]

end KeepsJournal

/-- Components hold a journal if every identifier has the value that was written last. -/
def Components.Holds (components : Components) (j : Journal) : Prop :=
  ∀ id, components.get? id = j.get? id

namespace Components

variable {components : Components} {j : Journal}

theorem Holds.empty : Holds .empty .empty := fun _ => rfl

theorem Holds.insert (h : components.Holds j) (id value : String) :
    (components.insert id value).Holds (j.write id value) := by
  intro other
  rw [get?_insert, Journal.get?_write, h other]

theorem Holds.update (h : components.Holds j) {id : String} (known : (j.get? id).isSome = true)
    (value : String) : components.update id value = ⟨components.insert id value, .ok ()⟩ :=
  if_pos (by rwa [h id])

theorem keepsJournal : KeepsJournal Holds where
  read h id := congrArg Except.ok (h id)
  create h id value := ⟨rfl, h.insert id value⟩
  update {store j} h id value known := by
    change (store.update id value).answer = _ ∧ Holds (store.update id value).store _
    rw [h.update known]
    exact ⟨rfl, h.insert id value⟩
  unknown h id value unknown := if_neg (by rw [h id, unknown]; exact Bool.false_ne_true)

end Components

end MarkupEditor
