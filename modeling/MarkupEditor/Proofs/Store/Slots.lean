import Mathlib.Data.List.Dedup
import MarkupEditor.Proofs.Store.Saves
/-!
# Slots of the latest saves

An identifier has a slot as long as the save that was scheduled last for it has not finished. The slot
tells how far that save is; no save of an earlier call can touch it, though such a save may still be
asleep or on its way into the store.
-/

set_option autoImplicit false

namespace MarkupEditor

def SaveStage.status : SaveStage → SaveStatus
  | .waiting => .pending
  | .writing => .saving
  | .written => .saving

namespace Save

def slot (save : Save) : Slot :=
  ⟨save.ticket, decide (save.stage ≠ .waiting)⟩

end Save

namespace Saver

variable {s : Saver} {id : String} {save : Save} {ticket : Nat}

def slotIds (s : Saver) : List String :=
  s.slots.map (·.1)

theorem slotIds_eraseSlot (s : Saver) (id : String) :
    (s.eraseSlot id).slotIds = s.slotIds.filter (· ≠ id) := by
  simp [slotIds, eraseSlot, List.filter_map, Function.comp_def]

theorem slotIds_putSlot (s : Saver) (id : String) (slot : Slot) :
    (s.putSlot id slot).slotIds = id :: s.slotIds.filter (· ≠ id) := by
  simp [slotIds, putSlot, List.filter_map, Function.comp_def]

@[simp] theorem slotIds_setStage (s : Saver) (ticket : Nat) (stage : SaveStage) :
    (s.setStage ticket stage).slotIds = s.slotIds :=
  rfl

@[simp] theorem slotIds_dropSave (s : Saver) (ticket : Nat) : (s.dropSave ticket).slotIds = s.slotIds :=
  rfl

theorem nodup_eraseSlot (apart : s.slotIds.Nodup) (id : String) : (s.eraseSlot id).slotIds.Nodup := by
  rw [slotIds_eraseSlot]
  exact apart.filter _

theorem nodup_putSlot (apart : s.slotIds.Nodup) (id : String) (slot : Slot) :
    (s.putSlot id slot).slotIds.Nodup := by
  rw [slotIds_putSlot]
  refine List.nodup_cons.2 ⟨?_, apart.filter _⟩
  simp

theorem save?_eq_none : s.save? ticket = none ↔ ∀ save ∈ s.saves, save.ticket ≠ ticket := by
  simp [save?]

theorem save?_eq_some (apart : (s.saves.map (·.ticket)).Nodup) (hsave : save ∈ s.saves) :
    s.save? save.ticket = some save := by
  cases found : s.save? save.ticket with
  | none => exact absurd rfl (save?_eq_none.1 found save hsave)
  | some other =>
    obtain ⟨hother, same⟩ := mem_of_save? found
    rw [List.inj_on_of_nodup_map apart hother hsave same]

end Saver

namespace Saving

variable {σ : Type} {w : Saving σ} {id : String} {c : SaveCall}

/-- No identifier has two slots, and only one that something was scheduled for has any. -/
structure Slotted (w : Saving σ) : Prop where
  apart : w.saver.slotIds.Nodup
  called : ∀ id ∈ w.saver.slotIds, ∃ c ∈ w.calls, c.id = id

/-- A save that something was scheduled over while it was asleep: there is a later call for its identifier,
and it has not begun to write. -/
structure Superseded (w : Saving σ) (c : SaveCall) : Prop where
  called : c ∈ w.calls
  later : ∃ d ∈ w.calls, d.id = c.id ∧ c.ticket < d.ticket
  asleep : ∀ save ∈ w.saver.saves, save.ticket = c.ticket → save.stage = .waiting
  unwritten : c.ticket ∉ w.landed.map (·.1.ticket)

namespace Sound

/-- A save that something was scheduled over is not the latest of its identifier. -/
theorem not_latest (h : Sound w) {save : Save} (hsave : save ∈ w.saver.saves)
    (stale : Superseded w save.call) : w.saver.isLatest save = false := by
  refine Bool.eq_false_iff.2 fun latest => ?_
  obtain ⟨d, hd, own, less⟩ := stale.later
  obtain ⟨before, hbefore⟩ := List.getLast?_eq_some_iff.1 ((h.isLatest_iff hsave).1 latest)
  have there : d ∈ w.callsFor save.id := List.mem_filter.2 ⟨hd, by simpa [Save.call] using own⟩
  have rising : (w.callsFor save.id).Pairwise fun a b => a.ticket < b.ticket := h.rising.filter _
  rw [hbefore] at there rising
  rcases List.mem_append.1 there with there | there
  · have := (List.pairwise_append.1 rising).2.2 d there save.call (List.mem_singleton.2 rfl)
    omega
  · rw [List.mem_singleton.1 there] at less
    omega

end Sound

theorem Slotted.begin (delay : Nat) (store : σ) : Slotted (begin delay store) := by
  constructor <;> simp [Saving.begin, Saver.ofDelay, Saver.slotIds]

variable [ComponentStore σ]

namespace Slotted

theorem next (h : Slotted w) (sound : Sound w) (event : SaveEvent) : Slotted (w.next event) := by
  cases event with
  | schedule now id value =>
    refine ⟨Saver.nodup_putSlot h.apart id _, fun other hother => ?_⟩
    change other ∈ (w.saver.putSlot id ⟨w.saver.issued + 1, false⟩).slotIds at hother
    rw [Saver.slotIds_putSlot] at hother
    rcases List.mem_cons.1 hother with rfl | hother
    · exact ⟨_, List.mem_append_right _ (List.mem_singleton.2 rfl), rfl⟩
    · obtain ⟨c, hc, own⟩ := h.called other (List.mem_filter.1 hother).1
      exact ⟨c, List.mem_append_left _ hc, own⟩
  | wake ticket =>
    simp only [Saving.next]
    obtain ⟨-, same⟩ | ⟨save, hsave, -, -, ⟨-, hwake⟩ | ⟨-, hwake⟩⟩ := w.saver.wake_cases ticket
    · rwa [same]
    · rw [hwake]
      refine ⟨Saver.nodup_putSlot h.apart save.id _, fun other hother => ?_⟩
      rw [Saver.slotIds_setStage, Saver.slotIds_putSlot] at hother
      rcases List.mem_cons.1 hother with rfl | hother
      · exact ⟨save.call, sound.called save hsave, rfl⟩
      · exact h.called other (List.mem_filter.1 hother).1
    · rw [hwake]
      exact ⟨h.apart, h.called⟩
  | land ticket =>
    obtain ⟨-, same⟩ | ⟨save, -, -, -, hland⟩ := w.land_cases ticket
    · rwa [same]
    · rw [hland]
      exact ⟨h.apart, h.called⟩
  | finish ticket =>
    simp only [Saving.next]
    obtain ⟨-, same⟩ | ⟨save, -, -, -, ⟨-, hfinish⟩ | ⟨-, hfinish⟩⟩ := w.saver.finish_cases ticket
    · rwa [same]
    · rw [hfinish]
      refine ⟨Saver.nodup_eraseSlot h.apart save.id, fun other hother => ?_⟩
      rw [Saver.slotIds_dropSave, Saver.slotIds_eraseSlot] at hother
      exact h.called other (List.mem_filter.1 hother).1
    · rw [hfinish]
      exact ⟨h.apart, h.called⟩

theorem run (h : Slotted w) (sound : Sound w) (events : List SaveEvent) : Slotted (w.run events) := by
  induction events generalizing w with
  | nil => exact h
  | cons event events ih => exact ih (h.next sound event) (sound.next event)

end Slotted

namespace Superseded

theorem schedule (sound : Sound w) {save : Save} (hsave : save ∈ w.saver.saves)
    (asleep : save.stage = .waiting) (now : Nat) (value : String) :
    Superseded (w.next (.schedule now save.id value)) save.call := by
  have known := sound.issued _ (sound.called save hsave)
  refine ⟨List.mem_append_left _ (sound.called save hsave), ⟨⟨w.saver.issued + 1, save.id, value⟩,
    List.mem_append_right _ (List.mem_singleton.2 rfl), rfl, Nat.lt_succ_of_le known⟩, ?_, ?_⟩
  · intro other hother same
    rcases List.mem_append.1 hother with hother | hother
    · rw [sound.same hother hsave same]
      exact asleep
    · rw [List.mem_singleton.1 hother]
  · change save.ticket ∉ w.landed.map (·.1.ticket)
    rw [← sound.written save hsave, asleep]
    simp

theorem next (h : Superseded w c) (sound : Sound w) (event : SaveEvent) :
    Superseded (w.next event) c := by
  cases event with
  | schedule now id value =>
    obtain ⟨d, hd, own, less⟩ := h.later
    refine ⟨List.mem_append_left _ h.called, ⟨d, List.mem_append_left _ hd, own, less⟩, ?_, h.unwritten⟩
    intro save hsave same
    rcases List.mem_append.1 hsave with hsave | hsave
    · exact h.asleep save hsave same
    · rw [List.mem_singleton.1 hsave]
  | wake ticket =>
    simp only [Saving.next]
    obtain ⟨-, same⟩ | ⟨save, hsave, rfl, -, ⟨latest, hwake⟩ | ⟨-, hwake⟩⟩ := w.saver.wake_cases ticket
    · rwa [same]
    · have another : save.ticket ≠ c.ticket := fun same => by
        obtain rfl := sound.same_call (sound.called save hsave) h.called same
        rw [sound.not_latest hsave h] at latest
        cases latest
      rw [hwake]
      refine ⟨h.called, h.later, fun other hother own => ?_, h.unwritten⟩
      rcases Saver.mem_setStage.1 hother with ⟨hother, -⟩ | ⟨moved, -, same, rfl⟩
      · exact h.asleep other hother own
      · exact absurd (same.symm.trans own) another
    · rw [hwake]
      exact ⟨h.called, h.later, fun other hother => h.asleep other (Saver.mem_dropSave.1 hother).1,
        h.unwritten⟩
  | land ticket =>
    obtain ⟨-, same⟩ | ⟨save, hsave, rfl, writing, hland⟩ := w.land_cases ticket
    · rwa [same]
    · have another : save.ticket ≠ c.ticket := fun same => by
        rw [h.asleep save hsave same] at writing
        cases writing
      rw [hland]
      refine ⟨h.called, h.later, fun other hother own => ?_, ?_⟩
      · rcases Saver.mem_setStage.1 hother with ⟨hother, -⟩ | ⟨moved, -, same, rfl⟩
        · exact h.asleep other hother own
        · exact absurd (same.symm.trans own) another
      · simpa [Save.call, h.unwritten] using Ne.symm another
  | finish ticket =>
    simp only [Saving.next]
    obtain ⟨-, same⟩ | ⟨save, -, -, -, ⟨-, hfinish⟩ | ⟨-, hfinish⟩⟩ := w.saver.finish_cases ticket
    · rwa [same]
    all_goals
      rw [hfinish]
      exact ⟨h.called, h.later, fun other hother => h.asleep other (Saver.mem_dropSave.1 hother).1,
        h.unwritten⟩

theorem run (h : Superseded w c) (sound : Sound w) (events : List SaveEvent) :
    Superseded (w.run events) c := by
  induction events generalizing w with
  | nil => exact h
  | cons event events ih => exact ih (h.next sound event) (sound.next event)

end Superseded

theorem run_append (w : Saving σ) (before after : List SaveEvent) :
    w.run (before ++ after) = (w.run before).run after :=
  List.foldl_append

end Saving

end MarkupEditor
