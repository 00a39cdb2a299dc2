import Mathlib.Data.List.Nodup
import MarkupEditor.Proofs.Store.Files
import MarkupEditor.Store.Saver
/-!
# Saves that overlap

Saves take their steps in any order, and the writes of different saves land in any order too. The save
that was scheduled last for an identifier is never given up: when all saves are over, its write has landed
once. What the identifier holds then is what landed last, which need not be that save.
-/

set_option autoImplicit false

namespace MarkupEditor

/-- A call to save a value, by the ticket that it took. -/
structure SaveCall where
  ticket : Nat
  id : String
  value : String
  deriving DecidableEq

def Save.call (save : Save) : SaveCall :=
  ⟨save.ticket, save.id, save.value⟩

namespace Saver

variable {s : Saver} {id other : String} {slot : Slot} {save : Save} {ticket : Nat}

@[simp] theorem slot?_putSlot_self (s : Saver) (id : String) (slot : Slot) :
    (s.putSlot id slot).slot? id = some slot := by
  simp [slot?, putSlot]

@[simp] theorem slot?_putSlot_ne (h : other ≠ id) : (s.putSlot id slot).slot? other = s.slot? other := by
  rw [slot?, putSlot, List.find?_cons_of_neg (by simpa using Ne.symm h), List.find?_filter, slot?]
  congr 2
  funext entry
  by_cases he : entry.1 = other
  · simp [he, h]
  · simp [he]

@[simp] theorem slot?_eraseSlot_self (s : Saver) (id : String) : (s.eraseSlot id).slot? id = none := by
  simp [slot?, eraseSlot]

@[simp] theorem slot?_eraseSlot_ne (h : other ≠ id) : (s.eraseSlot id).slot? other = s.slot? other := by
  simp only [slot?, eraseSlot, List.find?_filter]
  congr 2
  funext entry
  by_cases he : entry.1 = other
  · simp [he, h]
  · simp [he]

@[simp] theorem slot?_setStage (s : Saver) (ticket : Nat) (stage : SaveStage) (id : String) :
    (s.setStage ticket stage).slot? id = s.slot? id :=
  rfl

theorem mem_of_save? (h : s.save? ticket = some save) : save ∈ s.saves ∧ save.ticket = ticket :=
  ⟨List.mem_of_find?_eq_some h, by simpa using List.find?_some h⟩

theorem mem_dropSave {x : Save} : x ∈ (s.dropSave ticket).saves ↔ x ∈ s.saves ∧ x.ticket ≠ ticket := by
  simp [dropSave]

theorem mem_setStage {stage : SaveStage} {x : Save} : x ∈ (s.setStage ticket stage).saves ↔
    (x ∈ s.saves ∧ x.ticket ≠ ticket) ∨ ∃ y ∈ s.saves, y.ticket = ticket ∧ x = { y with stage } := by
  simp only [setStage, List.mem_map]
  constructor
  · rintro ⟨y, hy, rfl⟩
    by_cases h : y.ticket = ticket
    · exact .inr ⟨y, hy, h, by rw [if_pos h]⟩
    · rw [if_neg h]
      exact .inl ⟨hy, h⟩
  · rintro (⟨hx, h⟩ | ⟨y, hy, h, rfl⟩)
    · exact ⟨x, hx, if_neg h⟩
    · exact ⟨y, hy, if_pos h⟩

theorem tickets_setStage (s : Saver) (ticket : Nat) (stage : SaveStage) :
    (s.setStage ticket stage).saves.map (·.ticket) = s.saves.map (·.ticket) := by
  simp only [setStage, List.map_map]
  refine List.map_congr_left fun x _ => ?_
  by_cases h : x.ticket = ticket <;> simp [h]

theorem isLatest_iff : s.isLatest save = true ↔ ∃ slot, s.slot? save.id = some slot ∧ slot.ticket = save.ticket := by
  unfold isLatest
  cases s.slot? save.id <;> simp

/-- A save that is unknown or not asleep is not woken; the latest save begins to write, and any other gives up. -/
theorem wake_cases (s : Saver) (ticket : Nat) :
    ((∀ save ∈ s.save? ticket, save.stage ≠ .waiting) ∧ s.wake ticket = s) ∨
    ∃ save ∈ s.saves, save.ticket = ticket ∧ save.stage = .waiting ∧
      ((s.isLatest save = true ∧ s.wake ticket = (s.putSlot save.id ⟨ticket, true⟩).setStage ticket .writing) ∨
        (s.isLatest save = false ∧ s.wake ticket = s.dropSave ticket)) := by
  unfold wake
  cases h : s.save? ticket with
  | none => exact .inl ⟨nofun, rfl⟩
  | some save =>
    obtain ⟨hmem, hticket⟩ := mem_of_save? h
    by_cases waiting : save.stage = .waiting
    · refine .inr ⟨save, hmem, hticket, waiting, ?_⟩
      cases latest : s.isLatest save with
      | true => exact .inl ⟨rfl, by simp [waiting, latest]⟩
      | false => exact .inr ⟨rfl, by simp [waiting, latest]⟩
    · exact .inl ⟨by rintro _ ⟨⟩; exact waiting, if_pos waiting⟩

/-- A save that is unknown or not written does not finish; with the latest save its slot is given up. -/
theorem finish_cases (s : Saver) (ticket : Nat) :
    ((∀ save ∈ s.save? ticket, save.stage ≠ .written) ∧ s.finish ticket = s) ∨
    ∃ save ∈ s.saves, save.ticket = ticket ∧ save.stage = .written ∧
      ((s.isLatest save = true ∧ s.finish ticket = (s.eraseSlot save.id).dropSave ticket) ∨
        (s.isLatest save = false ∧ s.finish ticket = s.dropSave ticket)) := by
  unfold finish
  cases h : s.save? ticket with
  | none => exact .inl ⟨nofun, rfl⟩
  | some save =>
    obtain ⟨hmem, hticket⟩ := mem_of_save? h
    by_cases written : save.stage = .written
    · refine .inr ⟨save, hmem, hticket, written, ?_⟩
      cases latest : s.isLatest save with
      | true => exact .inl ⟨rfl, by simp [written, latest]⟩
      | false => exact .inr ⟨rfl, by simp [written, latest]⟩
    · exact .inl ⟨by rintro _ ⟨⟩; exact written, if_pos written⟩

end Saver

/-- An update that is done is read back and leaves every other identifier; one that fails leaves all. -/
class LawfulStore (σ : Type) [ComponentStore σ] : Prop where
  read_update (store : σ) (id value other : String) :
    ComponentStore.read (ComponentStore.update store id value).store other =
      if other = id ∧ (ComponentStore.update store id value).answer.isOk then .ok (some value)
      else ComponentStore.read store other

instance : LawfulStore Components where
  read_update components id value other := by
    show Except.ok ((components.update id value).store.get? other) = _
    unfold ComponentStore.update ComponentStore.read instComponentStoreComponents Components.update
    by_cases known : (components.get? id).isSome
    · by_cases same : other = id <;> simp [known, Components.get?_insert, same, Except.isOk, Except.toBool]
    · simp [known, Except.isOk, Except.toBool]

instance : LawfulStore FileStore where
  read_update store id value other := by
    change (store.update id value).store.read other =
      if other = id ∧ (store.update id value).answer.isOk then .ok (some value) else store.read other
    rcases store.update_cases id value with ⟨error, failed⟩ | ⟨components, next, loaded, done, written⟩
    · rw [failed, if_neg (by simp [Except.isOk, Except.toBool])]
    · rw [done, FileStore.read, FileStore.read, loaded, written]
      by_cases same : other = id <;>
        simp [same, Components.get?_insert, Except.map, Except.isOk, Except.toBool]

/-- What may happen next to a saver: a call, or a step of one of its saves. -/
inductive SaveEvent where
  | schedule (now : Nat) (id value : String)
  | wake (ticket : Nat)
  | land (ticket : Nat)
  | finish (ticket : Nat)

/-- A saver with its store, the calls so far, and the writes that have landed, each with whether it was
done; both in order. -/
structure Saving (σ : Type) where
  saver : Saver
  store : σ
  calls : List SaveCall
  landed : List (SaveCall × Bool)

namespace Saving

variable {σ : Type}

def callsFor (w : Saving σ) (id : String) : List SaveCall :=
  w.calls.filter (·.id = id)

def begin (delay : Nat) (store : σ) : Saving σ :=
  ⟨.ofDelay delay, store, [], []⟩

/-- The steps of a save leave what it was scheduled by, and no two saves have one ticket. -/
structure Sound (w : Saving σ) : Prop where
  rising : w.calls.Pairwise fun a b => a.ticket < b.ticket
  issued : ∀ c ∈ w.calls, c.ticket ≤ w.saver.issued
  called : ∀ save ∈ w.saver.saves, save.call ∈ w.calls
  apart : (w.saver.saves.map (·.ticket)).Nodup
  landedCalls : ∀ l ∈ w.landed, l.1 ∈ w.calls
  once : (w.landed.map (·.1.ticket)).Nodup
  written : ∀ save ∈ w.saver.saves, save.stage = .written ↔ save.ticket ∈ w.landed.map (·.1.ticket)
  latest : ∀ id, ∀ c ∈ (w.callsFor id).getLast?,
    (∃ save ∈ w.saver.saves, save.call = c ∧
      w.saver.slot? id = some ⟨c.ticket, decide (save.stage ≠ .waiting)⟩) ∨
    ((∀ save ∈ w.saver.saves, save.ticket ≠ c.ticket) ∧ w.saver.slot? id = none ∧
      ∃ done, (c, done) ∈ w.landed)

namespace Sound

variable {w : Saving σ} {save other : Save} {ticket : Nat}

theorem same (h : Sound w) (hsave : save ∈ w.saver.saves) (hother : other ∈ w.saver.saves)
    (same : save.ticket = other.ticket) : save = other :=
  List.inj_on_of_nodup_map h.apart hsave hother same

theorem same_call (h : Sound w) {a b : SaveCall} (ha : a ∈ w.calls) (hb : b ∈ w.calls)
    (same : a.ticket = b.ticket) : a = b := by
  have apart : (w.calls.map (·.ticket)).Nodup :=
    List.pairwise_map.2 (h.rising.imp fun less => Nat.ne_of_lt less)
  exact List.inj_on_of_nodup_map apart ha hb same

theorem mem_calls {id : String} {c : SaveCall} (hc : c ∈ (w.callsFor id).getLast?) :
    c ∈ w.calls ∧ c.id = id := by
  simpa [callsFor] using List.mem_of_getLast? hc

theorem isLatest_iff (h : Sound w) (hsave : save ∈ w.saver.saves) :
    w.saver.isLatest save = true ↔ save.call ∈ (w.callsFor save.id).getLast? := by
  rw [Saver.isLatest_iff]
  constructor
  · rintro ⟨slot, hslot, hticket⟩
    have there : save.call ∈ w.callsFor save.id :=
      List.mem_filter.2 ⟨h.called save hsave, by simp [Save.call]⟩
    obtain ⟨c, hc⟩ : ∃ c, (w.callsFor save.id).getLast? = some c :=
      ⟨_, List.getLast?_eq_some_getLast (List.ne_nil_of_mem there)⟩
    rcases h.latest _ c hc with ⟨_, _, _, last⟩ | ⟨_, last, _⟩
    · obtain rfl : slot = _ := Option.some.inj (hslot.symm.trans last)
      rwa [h.same_call (h.called save hsave) (mem_calls hc).1 hticket.symm]
    · simp [last] at hslot
  · intro last
    rcases h.latest _ _ last with ⟨_, _, _, hslot⟩ | ⟨gone, -⟩
    · exact ⟨_, hslot, rfl⟩
    · exact absurd rfl (gone save hsave)

theorem begin (delay : Nat) (store : σ) : Sound (begin delay store) := by
  constructor <;> simp [Saving.begin, callsFor, Saver.ofDelay]

theorem drop {save : Save} (h : Sound w) (hsave : save ∈ w.saver.saves)
    (stale : w.saver.isLatest save = false) :
    Sound { w with saver := w.saver.dropSave save.ticket } := by
  refine ⟨h.rising, h.issued, fun x hx => h.called x (Saver.mem_dropSave.1 hx).1,
    h.apart.sublist (List.filter_sublist.map _), h.landedCalls, h.once,
    fun x hx => h.written x (Saver.mem_dropSave.1 hx).1, fun id c hc => ?_⟩
  obtain ⟨x, hx, hcall, hslot⟩ | ⟨gone, hslot, hlanded⟩ := h.latest id c hc
  · refine .inl ⟨x, Saver.mem_dropSave.2 ⟨hx, fun same => ?_⟩, hcall, hslot⟩
    obtain rfl := h.same hx hsave same
    subst hcall
    obtain rfl : x.id = id := (mem_calls hc).2
    simp [(h.isLatest_iff hx).2 hc] at stale
  · exact .inr ⟨fun x hx => gone x (Saver.mem_dropSave.1 hx).1, hslot, hlanded⟩

/-- A save that has woken may move on to another stage. The slot of its identifier is marked if it is the
latest, and its write may land. -/
theorem move {saver : Saver} {landed : List (SaveCall × Bool)} {stage : SaveStage} (h : Sound w)
    (hsave : save ∈ w.saver.saves) (store : σ) (woken : stage ≠ .waiting)
    (issued : saver.issued = w.saver.issued)
    (saves : saver.saves = (w.saver.setStage save.ticket stage).saves)
    (own : w.saver.isLatest save = true → saver.slot? save.id = some ⟨save.ticket, true⟩)
    (others : ∀ id, (id = save.id → w.saver.isLatest save = false) → saver.slot? id = w.saver.slot? id)
    (landedCalls : ∀ l ∈ landed, l.1 ∈ w.calls) (once : (landed.map (·.1.ticket)).Nodup)
    (grown : w.landed ⊆ landed) (ownWritten : stage = .written ↔ save.ticket ∈ landed.map (·.1.ticket))
    (othersWritten : ∀ l ∈ landed, l.1.ticket ≠ save.ticket → l ∈ w.landed) :
    Sound ⟨saver, store, w.calls, landed⟩ := by
  have mem : ∀ x ∈ saver.saves, (x ∈ w.saver.saves ∧ x.ticket ≠ save.ticket) ∨ x = { save with stage } := by
    intro x hx
    rcases Saver.mem_setStage.1 (saves ▸ hx) with hx | ⟨y, hy, same, rfl⟩
    · exact .inl hx
    · exact .inr (by rw [h.same hy hsave same])
  refine ⟨h.rising, fun c hc => issued ▸ h.issued c hc, fun x hx => ?called, ?apart, landedCalls, once,
    fun x hx => ?written, fun id c hc => ?latest⟩
  case called =>
    rcases mem x hx with ⟨hx, -⟩ | rfl
    · exact h.called x hx
    · exact h.called save hsave
  case apart =>
    show (saver.saves.map (·.ticket)).Nodup
    rw [saves, Saver.tickets_setStage]
    exact h.apart
  case written =>
    rcases mem x hx with ⟨hx, apart⟩ | rfl
    · refine (h.written x hx).trans ⟨fun hl => List.map_subset _ grown hl, fun hl => ?_⟩
      obtain ⟨l, hl, same⟩ := List.mem_map.1 hl
      exact List.mem_map.2 ⟨l, othersWritten l hl (same ▸ apart), same⟩
    · exact ownWritten
  case latest =>
    obtain ⟨x, hx, rfl, hslot⟩ | ⟨gone, hslot, done, hdone⟩ := h.latest id c hc
    · obtain rfl : x.id = id := (mem_calls hc).2
      left
      by_cases same : x.ticket = save.ticket
      · obtain rfl := h.same hx hsave same
        refine ⟨{ x with stage }, ?_, rfl, ?_⟩
        · exact saves ▸ Saver.mem_setStage.2 (.inr ⟨x, hx, rfl, rfl⟩)
        · simpa [woken, Save.call] using own ((h.isLatest_iff hx).2 hc)
      · refine ⟨x, saves ▸ Saver.mem_setStage.2 (.inl ⟨hx, same⟩), rfl, ?_⟩
        refine (others x.id fun hid => ?_).trans hslot
        refine Bool.eq_false_iff.2 fun latest => same ?_
        have last := (h.isLatest_iff hsave).1 latest
        rw [← hid] at last
        exact congrArg SaveCall.ticket (Option.mem_unique hc last)
    · refine .inr ⟨fun x hx => ?_, ?_, done, grown hdone⟩
      · rcases mem x hx with ⟨hx, -⟩ | rfl
        · exact gone x hx
        · exact gone save hsave
      · refine (others id fun hid => Bool.eq_false_iff.2 fun latest => ?_).trans hslot
        have last := (h.isLatest_iff hsave).1 latest
        rw [← hid] at last
        exact gone save hsave (congrArg SaveCall.ticket (Option.mem_unique last hc))

end Sound

variable [ComponentStore σ]

/-- Something happens. An event that is not due leaves everything. -/
def next (w : Saving σ) : SaveEvent → Saving σ
  | .schedule now id value =>
    { w with
      saver := w.saver.schedule now id value
      calls := w.calls ++ [⟨w.saver.issued + 1, id, value⟩] }
  | .wake ticket => { w with saver := w.saver.wake ticket }
  | .land ticket =>
    match w.saver.save? ticket with
    | some save =>
      if save.stage = .writing then
        let done := (ComponentStore.update w.store save.id save.value).answer.isOk
        let (saver, store) := w.saver.land w.store ticket
        ⟨saver, store, w.calls, w.landed ++ [(save.call, done)]⟩
      else w
    | none => w
  | .finish ticket => { w with saver := w.saver.finish ticket }

def run (w : Saving σ) (events : List SaveEvent) : Saving σ :=
  events.foldl next w

theorem land_cases (w : Saving σ) (ticket : Nat) :
    ((∀ save ∈ w.saver.save? ticket, save.stage ≠ .writing) ∧ w.next (.land ticket) = w) ∨
    ∃ save ∈ w.saver.saves, save.ticket = ticket ∧ save.stage = .writing ∧
      w.next (.land ticket) = ⟨w.saver.setStage ticket .written,
        (ComponentStore.update w.store save.id save.value).store, w.calls,
        w.landed ++ [(save.call, (ComponentStore.update w.store save.id save.value).answer.isOk)]⟩ := by
  simp only [next]
  cases h : w.saver.save? ticket with
  | none => exact .inl ⟨nofun, rfl⟩
  | some save =>
    obtain ⟨hmem, hticket⟩ := Saver.mem_of_save? h
    by_cases writing : save.stage = .writing
    · refine .inr ⟨save, hmem, hticket, writing, ?_⟩
      simp [Saver.land, h, writing]
    · exact .inl ⟨by rintro _ ⟨⟩; exact writing, if_neg writing⟩

namespace Sound

variable {w : Saving σ}

theorem schedule (h : Sound w) (now : Nat) (id value : String) :
    Sound (w.next (.schedule now id value)) := by
  have fresh : ∀ c ∈ w.calls, c.ticket ≠ w.saver.issued + 1 := fun c hc => by
    have := h.issued c hc
    omega
  have freshSave : ∀ save ∈ w.saver.saves, save.ticket ≠ w.saver.issued + 1 := fun save hsave =>
    fresh _ (h.called save hsave)
  refine ⟨?rising, ?issued, ?called, ?apart, ?landedCalls, h.once, ?written, ?latest⟩
  case rising =>
    refine List.pairwise_append.2 ⟨h.rising, List.pairwise_singleton _ _, fun a ha b hb => ?_⟩
    obtain rfl := List.mem_singleton.1 hb
    exact Nat.lt_succ_of_le (h.issued a ha)
  case issued =>
    intro c hc
    rcases List.mem_append.1 hc with hc | hc
    · exact Nat.le_succ_of_le (h.issued c hc)
    · obtain rfl := List.mem_singleton.1 hc
      exact Nat.le_refl _
  case called =>
    intro save hsave
    rcases List.mem_append.1 hsave with hsave | hsave
    · exact List.mem_append_left _ (h.called save hsave)
    · obtain rfl := List.mem_singleton.1 hsave
      exact List.mem_append_right _ (List.mem_singleton.2 rfl)
  case apart =>
    refine (List.map_append ▸ List.nodup_append.2 ⟨h.apart, List.nodup_singleton _, ?_⟩)
    rintro _ ht _ hb rfl
    obtain ⟨save, hsave, rfl⟩ := List.mem_map.1 ht
    exact freshSave save hsave (List.mem_singleton.1 hb)
  case landedCalls =>
    exact fun l hl => List.mem_append_left _ (h.landedCalls l hl)
  case written =>
    intro save hsave
    rcases List.mem_append.1 hsave with hsave | hsave
    · exact h.written save hsave
    · obtain rfl := List.mem_singleton.1 hsave
      refine ⟨nofun, fun ht => ?_⟩
      obtain ⟨l, hl, same⟩ := List.mem_map.1 ht
      exact absurd same (fresh _ (h.landedCalls l hl))
  case latest =>
    intro other c hc
    by_cases same : other = id
    · subst same
      obtain rfl : ⟨w.saver.issued + 1, other, value⟩ = c := by
        simpa [callsFor, next, List.filter_append] using hc
      exact .inl ⟨_, List.mem_append_right _ (List.mem_singleton.2 rfl), rfl,
        Saver.slot?_putSlot_self _ _ _⟩
    · have hc : c ∈ (w.callsFor other).getLast? := by
        simpa [callsFor, next, List.filter_append, Ne.symm same] using hc
      have slot : (w.next (.schedule now id value)).saver.slot? other = w.saver.slot? other :=
        Saver.slot?_putSlot_ne same
      rw [slot]
      rcases h.latest other c hc with ⟨save, hsave, hcall, hslot⟩ | ⟨gone, hslot, hlanded⟩
      · exact .inl ⟨save, List.mem_append_left _ hsave, hcall, hslot⟩
      · refine .inr ⟨fun save hsave => ?_, hslot, hlanded⟩
        rcases List.mem_append.1 hsave with hsave | hsave
        · exact gone save hsave
        · obtain rfl := List.mem_singleton.1 hsave
          exact (fresh c (mem_calls hc).1).symm

theorem wake (h : Sound w) (ticket : Nat) : Sound (w.next (.wake ticket)) := by
  simp only [next]
  obtain ⟨-, same⟩ | ⟨save, hsave, rfl, waiting, ⟨latest, hwake⟩ | ⟨stale, hwake⟩⟩ := w.saver.wake_cases ticket
  · rwa [same]
  · rw [hwake]
    refine h.move hsave w.store (by decide : SaveStage.writing ≠ .waiting) rfl rfl
      (fun _ => Saver.slot?_putSlot_self _ _ _) (fun id apart => ?_) h.landedCalls h.once
      (List.Subset.refl _) ?_ fun l hl _ => hl
    · refine Saver.slot?_putSlot_ne fun same => ?_
      simp [apart same] at latest
    · rw [← h.written save hsave, waiting]
      simp
  · rw [hwake]
    exact h.drop hsave stale

theorem land (h : Sound w) (ticket : Nat) : Sound (w.next (.land ticket)) := by
  obtain ⟨-, same⟩ | ⟨save, hsave, rfl, writing, hland⟩ := w.land_cases ticket
  · rwa [same]
  · have before : save.ticket ∉ w.landed.map (·.1.ticket) := by
      rw [← h.written save hsave, writing]
      simp
    rw [hland]
    refine h.move hsave _ (by decide : SaveStage.written ≠ .waiting) rfl rfl (fun latest => ?_)
      (fun _ _ => rfl) ?_ ?_ (List.subset_append_left _ _) ?_ ?_
    · obtain ⟨x, hx, hcall, hslot⟩ | ⟨gone, -⟩ := h.latest _ _ ((h.isLatest_iff hsave).1 latest)
      · obtain rfl := h.same hx hsave (congrArg SaveCall.ticket hcall)
        simpa [writing, Save.call] using hslot
      · exact absurd rfl (gone save hsave)
    · intro l hl
      rcases List.mem_append.1 hl with hl | hl
      · exact h.landedCalls l hl
      · obtain rfl := List.mem_singleton.1 hl
        exact h.called save hsave
    · simpa [List.nodup_append, Save.call] using ⟨h.once, by simpa using before⟩
    · simp [Save.call]
    · intro l hl apart
      rcases List.mem_append.1 hl with hl | hl
      · exact hl
      · obtain rfl := List.mem_singleton.1 hl
        exact absurd rfl apart

theorem finish (h : Sound w) (ticket : Nat) : Sound (w.next (.finish ticket)) := by
  simp only [next]
  obtain ⟨-, same⟩ | ⟨save, hsave, rfl, written, ⟨latest, hfinish⟩ | ⟨stale, hfinish⟩⟩ :=
    w.saver.finish_cases ticket
  · rwa [same]
  · rw [hfinish]
    have last := (h.isLatest_iff hsave).1 latest
    refine ⟨h.rising, h.issued, fun x hx => h.called x (Saver.mem_dropSave.1 hx).1,
      h.apart.sublist (List.filter_sublist.map _), h.landedCalls, h.once,
      fun x hx => h.written x (Saver.mem_dropSave.1 hx).1, fun id c hc => ?_⟩
    by_cases own : id = save.id
    · subst own
      obtain rfl : c = save.call := Option.mem_unique hc last
      obtain ⟨⟨call, done⟩, landed, same⟩ := List.mem_map.1 ((h.written save hsave).1 written)
      obtain rfl : call = save.call := h.same_call (h.landedCalls _ landed) (h.called save hsave) same
      have gone : ∀ x ∈ (w.saver.dropSave save.ticket).saves, x.ticket ≠ save.ticket :=
        fun x hx => (Saver.mem_dropSave.1 hx).2
      exact .inr ⟨gone, Saver.slot?_eraseSlot_self _ _, done, landed⟩
    · obtain ⟨x, hx, rfl, hslot⟩ | ⟨gone, hslot, hlanded⟩ := h.latest id c hc
      · obtain rfl : x.id = id := (mem_calls hc).2
        refine .inl ⟨x, Saver.mem_dropSave.2 ⟨hx, fun same => own ?_⟩, rfl,
          (Saver.slot?_eraseSlot_ne own).trans hslot⟩
        rw [h.same hx hsave same]
      · exact .inr ⟨fun x hx => gone x (Saver.mem_dropSave.1 hx).1,
          (Saver.slot?_eraseSlot_ne own).trans hslot, hlanded⟩
  · rw [hfinish]
    exact h.drop hsave stale

theorem next (h : Sound w) (event : SaveEvent) : Sound (w.next event) := by
  cases event with
  | schedule now id value => exact h.schedule now id value
  | wake ticket => exact h.wake ticket
  | land ticket => exact h.land ticket
  | finish ticket => exact h.finish ticket

theorem run (h : Sound w) (events : List SaveEvent) : Sound (w.run events) := by
  induction events generalizing w with
  | nil => exact h
  | cons event events ih => exact ih (h.next event)

end Sound

/-- The value that landed last for an identifier, of the writes that were done. -/
def landedFor (w : Saving σ) (id : String) : Option String :=
  ((w.landed.filter fun l => l.1.id = id && l.2).getLast?).map (·.1.value)

/-- Whether identifiers hold what landed last, and the others what a store had. -/
def Holds (w : Saving σ) (store : σ) : Prop :=
  ∀ id, ComponentStore.read w.store id =
    match w.landedFor id with
    | some value => .ok (some value)
    | none => ComponentStore.read store id

variable [LawfulStore σ]

theorem Holds.next {w : Saving σ} {store : σ} (h : w.Holds store) (event : SaveEvent) :
    (w.next event).Holds store := by
  intro id
  cases event with
  | schedule now other value => exact h id
  | wake ticket => exact h id
  | finish ticket => exact h id
  | land ticket =>
    obtain ⟨-, same⟩ | ⟨save, -, -, -, hland⟩ := w.land_cases ticket
    · rw [same]
      exact h id
    · rw [hland, LawfulStore.read_update]
      by_cases done : id = save.id ∧ (ComponentStore.update w.store save.id save.value).answer.isOk
      · obtain ⟨rfl, done⟩ := done
        simp [landedFor, List.filter_append, Save.call, done]
      · rw [if_neg done, h id]
        have skipped : ¬ (save.id = id ∧
            (ComponentStore.update w.store save.id save.value).answer.isOk = true) := fun both =>
          done ⟨both.1.symm, both.2⟩
        simp [landedFor, List.filter_append, Save.call, skipped]

theorem Holds.run {w : Saving σ} {store : σ} (h : w.Holds store) (events : List SaveEvent) :
    (w.run events).Holds store := by
  induction events generalizing w with
  | nil => exact h
  | cons event events ih => exact ih (h.next event)

/-- When all saves are over, the save that was scheduled last for an identifier has landed once. If it was
done, and nothing was done for the identifier after it, its value stays. -/
theorem last_save_stays (delay : Nat) (store : σ) (events : List SaveEvent) (id : String) (c : SaveCall)
    (idle : ((begin delay store).run events).saver.saves = [])
    (last : c ∈ (((begin delay store).run events).callsFor id).getLast?) :
    ∃ before done after, ((begin delay store).run events).landed = before ++ (c, done) :: after ∧
      (∀ l ∈ before ++ after, l.1 ≠ c) ∧
      (done = true → (∀ l ∈ after, l.1.id = id → l.2 = false) →
        ComponentStore.read ((begin delay store).run events).store id = .ok (some c.value)) := by
  have sound := (Sound.begin delay store).run events
  have holds : ((begin delay store).run events).Holds store :=
    Holds.run (fun id => rfl) events
  generalize (begin delay store).run events = w at *
  obtain ⟨save, hsave, -⟩ | ⟨-, -, done, hdone⟩ := sound.latest id c last
  · simp [idle] at hsave
  · obtain ⟨before, after, split⟩ := List.append_of_mem hdone
    have once := sound.once
    rw [split] at once
    refine ⟨before, done, after, split, ?_, ?_⟩
    · rintro l hl rfl
      simp only [List.map_append, List.map_cons, List.nodup_append, List.nodup_cons] at once
      rcases List.mem_append.1 hl with hl | hl
      · exact once.2.2 _ (List.mem_map_of_mem hl) _ List.mem_cons_self rfl
      · exact once.2.1.1 (List.mem_map_of_mem (f := fun l => l.1.ticket) hl)
    · rintro rfl quiet
      obtain rfl := (Sound.mem_calls last).2
      have silent : after.filter (fun l => l.1.id = c.id && l.2) = [] := by
        simpa [List.filter_eq_nil_iff] using quiet
      have landed : w.landedFor c.id = some c.value := by
        simp [landedFor, split, List.filter_append, silent]
      rw [holds c.id, landed]

def trialStore : FileStore :=
  ⟨".components.json", ⟨[([".components.json"], .file "\x7b\"a\": \"0\"\x7d")]⟩⟩

def trialSaves : List SaveEvent := [
  .schedule 0 "a" "1", .wake 1, .schedule 0 "a" "2", .wake 2, .land 1, .land 2, .finish 1, .finish 2]

theorem last_save_stays_in_order :
    ∃ w : Saving FileStore, w = (begin 0 trialStore).run trialSaves ∧ w.saver.saves = [] ∧
      (w.callsFor "a").getLast? = some ⟨2, "a", "2"⟩ ∧
      w.landed = [(⟨1, "a", "1"⟩, true), (⟨2, "a", "2"⟩, true)] ∧
      ComponentStore.read w.store "a" = .ok (some "2") := by
  have idle : ((begin 0 trialStore).run trialSaves).saver.saves = [] := by decide +kernel
  have last : (((begin 0 trialStore).run trialSaves).callsFor "a").getLast? = some ⟨2, "a", "2"⟩ := by
    decide +kernel
  have landed : ((begin 0 trialStore).run trialSaves).landed =
      [(⟨1, "a", "1"⟩, true), (⟨2, "a", "2"⟩, true)] := by decide +kernel
  obtain ⟨before, done, after, split, -, stays⟩ := last_save_stays 0 trialStore trialSaves "a" _ idle last
  obtain ⟨-, rfl, rfl⟩ : before = [(⟨1, "a", "1"⟩, true)] ∧ done = true ∧ after = [] := by
    simpa [List.cons_eq_append_iff] using landed.symm.trans split
  exact ⟨_, rfl, idle, last, landed, stays rfl (List.forall_mem_nil _)⟩

/-- The earlier of two saves that overlap may land last, and a write that fails is not tried again: when all
saves are over, the identifier does not hold what was scheduled last. -/
theorem last_save_lost :
    (∃ w : Saving Components, w = (begin 0 (Components.empty.insert "a" "0")).run
        [.schedule 0 "a" "1", .wake 1, .schedule 0 "a" "2", .wake 2, .land 2, .land 1, .finish 1, .finish 2] ∧
      w.saver.saves = [] ∧ (w.callsFor "a").getLast? = some ⟨2, "a", "2"⟩ ∧
      ComponentStore.read w.store "a" = .ok (some "1")) ∧
    ∃ w : Saving FileStore, w = (begin 1 (FileStore.mk ".components.json" ⟨[
        ([".components.json"], .file "\x7b\"abc\": \"1\"\x7d"), ([".components.json.tmp"], .folder)]⟩)).run
        [.schedule 0 "abc" "2", .wake 1, .land 1, .finish 1] ∧
      w.saver.saves = [] ∧ (w.callsFor "abc").getLast? = some ⟨1, "abc", "2"⟩ ∧
      ComponentStore.read w.store "abc" = .ok (some "1") :=
  ⟨⟨_, rfl, by decide +kernel⟩, _, rfl, by decide +kernel⟩

end Saving

end MarkupEditor
