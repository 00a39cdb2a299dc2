import Mathlib.Data.List.Induction
import MarkupEditor.Proofs.Store.Journal
import MarkupEditor.Proofs.Store.Slots

set_option autoImplicit false

namespace MarkupEditor

namespace Journal

def land (j : Journal) (landed : List (SaveCall × Bool)) : Journal :=
  landed.foldl (fun j l => j.write l.1.id l.1.value) j

theorem land_concat (j : Journal) (landed : List (SaveCall × Bool)) (l : SaveCall × Bool) :
    j.land (landed ++ [l]) = (j.land landed).write l.1.id l.1.value := by
  simp [land]

theorem get?_land {j : Journal} {id : String} {landed : List (SaveCall × Bool)}
    (own : ∀ l ∈ landed, l.1.id = id) (other : String) :
    (j.land landed).get? other =
      if other = id then (landed.getLast?.map (·.1.value)).or (j.get? id) else j.get? other := by
  induction landed using List.reverseRecOn with
  | nil =>
    split
    · rename_i same
      rw [same]
      rfl
    · rfl
  | append_singleton landed l ih =>
    have last : l.1.id = id := own l (List.mem_append_right _ (List.mem_singleton.2 rfl))
    rw [land_concat, get?_write, last, ih fun l hl => own l (List.mem_append_left _ hl)]
    split <;> simp

end Journal

namespace Saver

variable {s : Saver} {x : Save} {ticket : Nat}

def begins (s : Saver) (ticket : Nat) : Bool :=
  (s.save? ticket).any fun save => save.stage = .waiting && s.isLatest save

theorem wake_of_begins (h : s.begins ticket = true) :
    ∃ save ∈ s.saves, save.ticket = ticket ∧ save.stage = .waiting ∧ s.isLatest save = true ∧
      s.wake ticket = (s.putSlot save.id ⟨ticket, true⟩).setStage ticket .writing := by
  cases found : s.save? ticket with
  | none => simp [begins, found] at h
  | some save =>
    obtain ⟨hsave, same⟩ := mem_of_save? found
    obtain ⟨waiting, latest⟩ : save.stage = .waiting ∧ s.isLatest save = true := by
      simpa [begins, found] using h
    exact ⟨save, hsave, same, waiting, latest, by simp [wake, found, waiting, latest]⟩

theorem wake_of_not_begins (h : s.begins ticket = false) :
    s.wake ticket = s ∨ s.wake ticket = s.dropSave ticket := by
  cases found : s.save? ticket with
  | none => exact .inl (by simp [wake, found])
  | some save =>
    by_cases waiting : save.stage = .waiting
    · have latest : s.isLatest save = false := by simpa [begins, found, waiting] using h
      exact .inr (by simp [wake, found, waiting, latest])
    · exact .inl (by simp [wake, found, waiting])

theorem mem_wake (apart : (s.saves.map (·.ticket)).Nodup) (hx : x ∈ (s.wake ticket).saves) :
    x.stage = .writing ∨ (x ∈ s.saves ∧ (x.ticket = ticket → x.stage ≠ .waiting)) := by
  obtain ⟨idle, same⟩ | ⟨save, -, rfl, -, ⟨-, hwake⟩ | ⟨-, hwake⟩⟩ := s.wake_cases ticket
  · rw [same] at hx
    refine .inr ⟨hx, ?_⟩
    rintro rfl
    exact idle x (save?_eq_some apart hx)
  · rw [hwake] at hx
    rcases mem_setStage.1 hx with ⟨hx, another⟩ | ⟨y, -, -, rfl⟩
    · exact .inr ⟨hx, fun own => absurd own another⟩
    · exact .inl rfl
  · rw [hwake] at hx
    obtain ⟨hx, another⟩ := mem_dropSave.1 hx
    exact .inr ⟨hx, fun own => absurd own another⟩

theorem apart_wake (apart : (s.saves.map (·.ticket)).Nodup) (ticket : Nat) :
    ((s.wake ticket).saves.map (·.ticket)).Nodup := by
  obtain ⟨-, same⟩ | ⟨save, -, -, -, ⟨-, hwake⟩ | ⟨-, hwake⟩⟩ := s.wake_cases ticket
  · rwa [same]
  · rw [hwake, tickets_setStage]
    exact apart
  · rw [hwake]
    exact apart.sublist (List.filter_sublist.map _)

theorem mem_wakes (apart : (s.saves.map (·.ticket)).Nodup) {tickets : List Nat}
    (hx : x ∈ (tickets.foldl wake s).saves) :
    x.stage = .writing ∨ (x ∈ s.saves ∧ (x.ticket ∈ tickets → x.stage ≠ .waiting)) := by
  induction tickets generalizing s with
  | nil => exact .inr ⟨hx, nofun⟩
  | cons ticket tickets ih =>
    rcases ih (apart_wake apart ticket) hx with writing | ⟨hx, later⟩
    · exact .inl writing
    · refine (mem_wake apart hx).imp_right fun ⟨hx, own⟩ => ⟨hx, fun there => ?_⟩
      exact (List.mem_cons.1 there).elim own later

theorem dropSave_setStage (s : Saver) (ticket : Nat) (stage : SaveStage) :
    ((s.setStage ticket stage).dropSave ticket).saves = (s.dropSave ticket).saves := by
  simp only [dropSave, setStage]
  induction s.saves with
  | nil => rfl
  | cons save saves ih => by_cases own : save.ticket = ticket <;> simpa [own] using ih

theorem save?_setStage (s : Saver) (stage : SaveStage) :
    (s.setStage ticket stage).save? ticket = (s.save? ticket).map ({ · with stage }) := by
  simp only [save?, setStage]
  induction s.saves with
  | nil => rfl
  | cons save saves ih => by_cases own : save.ticket = ticket <;> simp [own, ih]

theorem saves_complete {σ : Type} [ComponentStore σ]
    (writing : ∀ save ∈ s.saves, save.stage = .writing) (store : σ) (ticket : Nat) :
    (complete (s, store) ticket).1.saves = s.saves.filter (·.ticket ≠ ticket) := by
  unfold complete land
  cases found : s.save? ticket with
  | none =>
    simp only [finish, found]
    exact (List.filter_eq_self.2 fun save hsave => by simpa using save?_eq_none.1 found save hsave).symm
  | some save =>
    have begun := writing save (mem_of_save? found).1
    have gone (saver : Saver) (same : saver.saves = (s.setStage ticket .written).saves) :
        (saver.dropSave ticket).saves = s.saves.filter (·.ticket ≠ ticket) := by
      rw [dropSave, same]
      exact s.dropSave_setStage ticket .written
    simp only [begun, if_true, finish, save?_setStage, found, Option.map_some]
    split
    · exact absurd rfl ‹_›
    · split
      · exact gone _ rfl
      · exact gone _ rfl

theorem saves_completes {σ : Type} [ComponentStore σ] (tickets : List Nat)
    (writing : ∀ save ∈ s.saves, save.stage = .writing) (store : σ) :
    (tickets.foldl complete (s, store)).1.saves = s.saves.filter (·.ticket ∉ tickets) := by
  induction tickets generalizing s store with
  | nil => simp
  | cons ticket tickets ih =>
    have saves := saves_complete writing store ticket
    have step := ih (s := (complete (s, store) ticket).1)
      (fun save hsave => writing save (List.mem_filter.1 (saves ▸ hsave)).1) (complete (s, store) ticket).2
    rw [List.foldl_cons, step, saves, List.filter_filter]
    exact List.filter_congr fun save _ => by simp [Bool.and_comm]

theorem saves_drain {σ : Type} [ComponentStore σ] (apart : (s.saves.map (·.ticket)).Nodup)
    (unwritten : ∀ save ∈ s.saves, save.stage ≠ .written) (store : σ) :
    (s.drain store).1.saves = [] := by
  have writing : ∀ save ∈ s.wakeAll.saves, save.stage = .writing := by
    intro save hsave
    rcases mem_wakes apart hsave with writing | ⟨hsave, awake⟩
    · exact writing
    · have notWritten := unwritten save hsave
      cases stage : save.stage with
      | waiting =>
        have there : save.ticket ∈ s.ticketsOf fun save => save.stage = .waiting :=
          List.mem_map_of_mem (List.mem_filter.2 ⟨hsave, by simp [stage]⟩)
        exact absurd stage (awake there)
      | writing => rfl
      | written => exact absurd stage notWritten
  rw [drain, completeAll, saves_completes _ writing]
  refine List.filter_eq_nil_iff.2 fun save hsave => ?_
  have there : save.ticket ∈ s.wakeAll.ticketsOf fun save => save.stage = .writing :=
    List.mem_map_of_mem (List.mem_filter.2 ⟨hsave, by simp [writing save hsave]⟩)
  simpa using there

end Saver

namespace Saving

variable {σ : Type} {id : String} {w : Saving σ} {started : List Nat} {c : SaveCall}

/-- Everything is saved under one identifier. The tickets of the saves that have begun to write are taken
down in the order in which they began: it is the order of the tickets. -/
structure Lane (id : String) (w : Saving σ) (started : List Nat) : Prop where
  sound : Sound w
  own : ∀ c ∈ w.calls, c.id = id
  called : ∀ ticket ∈ started, ∃ c ∈ w.calls, c.ticket = ticket
  awake : ∀ save ∈ w.saver.saves, save.ticket ∈ started ↔ save.stage ≠ .waiting
  landed : ∀ l ∈ w.landed, l.1.ticket ∈ started
  ascending : started.Pairwise (· < ·)

theorem Sound.le_last (h : Sound w) (last : c ∈ w.calls.getLast?) : ∀ d ∈ w.calls, d.ticket ≤ c.ticket := by
  obtain ⟨before, split⟩ := List.getLast?_eq_some_iff.1 last
  intro d hd
  have rising := h.rising
  rw [split] at hd rising
  rcases List.mem_append.1 hd with hd | hd
  · exact Nat.le_of_lt ((List.pairwise_append.1 rising).2.2 d hd c (List.mem_singleton.2 rfl))
  · exact Nat.le_of_eq (congrArg SaveCall.ticket (List.mem_singleton.1 hd))

namespace Lane

theorem begin (id : String) (delay : Nat) (store : σ) : Lane id (begin delay store) [] :=
  ⟨.begin delay store, nofun, nofun, nofun, nofun, .nil⟩

theorem callsFor_eq (h : Lane id w started) : w.callsFor id = w.calls :=
  List.filter_eq_self.2 fun c hc => by simpa using h.own c hc

theorem last_of_isLatest (h : Lane id w started) {save : Save} (hsave : save ∈ w.saver.saves)
    (latest : w.saver.isLatest save = true) : save.call ∈ w.calls.getLast? := by
  have last := (h.sound.isLatest_iff hsave).1 latest
  have own : save.id = id := h.own _ (h.sound.called save hsave)
  rwa [own, h.callsFor_eq] at last

variable [ComponentStore σ]

theorem schedule (h : Lane id w started) (now : Nat) (value : String) :
    Lane id (w.next (.schedule now id value)) started := by
  refine ⟨h.sound.next _, fun c hc => ?_, fun ticket there => ?_, fun save hsave => ?_, h.landed, h.ascending⟩
  · rcases List.mem_append.1 hc with hc | hc
    · exact h.own c hc
    · rw [List.mem_singleton.1 hc]
  · obtain ⟨c, hc, own⟩ := h.called ticket there
    exact ⟨c, List.mem_append_left _ hc, own⟩
  · rcases List.mem_append.1 hsave with hsave | hsave
    · exact h.awake save hsave
    · obtain rfl := List.mem_singleton.1 hsave
      refine ⟨fun there => ?_, fun awake => absurd rfl awake⟩
      obtain ⟨c, hc, own⟩ := h.called _ there
      have issued := h.sound.issued c hc
      simp only at own
      omega

theorem wake (h : Lane id w started) (ticket : Nat) :
    Lane id (w.next (.wake ticket)) (if w.saver.begins ticket then started ++ [ticket] else started) := by
  have sound := h.sound.next (.wake ticket)
  cases begins : w.saver.begins ticket with
  | false =>
    refine ⟨sound, h.own, h.called, fun save hsave => ?_, h.landed, h.ascending⟩
    change save ∈ (w.saver.wake ticket).saves at hsave
    rcases Saver.wake_of_not_begins begins with same | dropped
    · exact h.awake save (same ▸ hsave)
    · exact h.awake save (Saver.mem_dropSave.1 (dropped ▸ hsave)).1
  | true =>
    obtain ⟨save, hsave, rfl, waiting, latest, hwake⟩ := Saver.wake_of_begins begins
    have fresh : save.ticket ∉ started := fun there => (h.awake save hsave).1 there waiting
    refine ⟨sound, h.own, fun ticket there => ?_, fun x hx => ?_, fun l hl => ?_, ?_⟩
    · rcases List.mem_append.1 there with there | there
      · exact h.called ticket there
      · rw [List.mem_singleton.1 there]
        exact ⟨save.call, h.sound.called save hsave, rfl⟩
    · change x ∈ (w.saver.wake save.ticket).saves at hx
      rw [hwake] at hx
      rcases Saver.mem_setStage.1 hx with ⟨hx, another⟩ | ⟨y, -, same, rfl⟩
      · simpa [another] using h.awake x hx
      · simp [same]
    · exact List.mem_append_left _ (h.landed l hl)
    · refine List.pairwise_append.2 ⟨h.ascending, List.pairwise_singleton _ _, fun earlier there t ht => ?_⟩
      obtain rfl := List.mem_singleton.1 ht
      obtain ⟨c, hc, rfl⟩ := h.called earlier there
      have le := h.sound.le_last (h.last_of_isLatest hsave latest) c hc
      exact Nat.lt_of_le_of_ne le fun same => fresh (same ▸ there)

theorem land (h : Lane id w started) (ticket : Nat) : Lane id (w.next (.land ticket)) started := by
  have sound := h.sound.next (.land ticket)
  obtain ⟨-, same⟩ | ⟨save, hsave, rfl, writing, hland⟩ := w.land_cases ticket
  · rwa [same]
  · have begun : save.ticket ∈ started := (h.awake save hsave).2 (by rw [writing]; nofun)
    rw [hland] at sound ⊢
    refine ⟨sound, h.own, h.called, fun x hx => ?_, fun l hl => ?_, h.ascending⟩
    · rcases Saver.mem_setStage.1 hx with ⟨hx, -⟩ | ⟨y, -, same, rfl⟩
      · exact h.awake x hx
      · simp [same, begun]
    · rcases List.mem_append.1 hl with hl | hl
      · exact h.landed l hl
      · rw [List.mem_singleton.1 hl]
        exact begun

theorem finish (h : Lane id w started) (ticket : Nat) : Lane id (w.next (.finish ticket)) started := by
  refine ⟨h.sound.next _, h.own, h.called, fun save hsave => ?_, h.landed, h.ascending⟩
  change save ∈ (w.saver.finish ticket).saves at hsave
  obtain ⟨-, same⟩ | ⟨other, -, -, -, ⟨-, hfinish⟩ | ⟨-, hfinish⟩⟩ := w.saver.finish_cases ticket
  · exact h.awake save (same ▸ hsave)
  · rw [hfinish] at hsave
    exact h.awake save (Saver.mem_dropSave.1 hsave).1
  · rw [hfinish] at hsave
    exact h.awake save (Saver.mem_dropSave.1 hsave).1

omit [ComponentStore σ] in
/-- When the save of the last call is over and writes have landed in the order in which they began, it is
the one that landed last. -/
theorem last_landed (h : Lane id w started) (last : c ∈ w.calls.getLast?)
    (through : ∀ save ∈ w.saver.saves, save.ticket ≠ c.ticket)
    (inOrder : (w.landed.map (·.1.ticket)).Sublist started) : w.landed.getLast?.map (·.1) = some c := by
  rcases h.sound.latest id c (by rwa [h.callsFor_eq]) with ⟨save, hsave, rfl, -⟩ | ⟨-, -, done, there⟩
  · exact absurd rfl (through save hsave)
  · obtain ⟨before, l, split⟩ : ∃ before l, w.landed = before ++ [l] :=
      ⟨_, _, (List.dropLast_concat_getLast (List.ne_nil_of_mem there)).symm⟩
    have ascending : (w.landed.map (·.1.ticket)).Pairwise (· < ·) := h.ascending.sublist inOrder
    have le := h.sound.le_last last l.1 (h.sound.landedCalls l (by simp [split]))
    rw [split, List.map_append, List.pairwise_append] at ascending
    rw [split] at there ⊢
    rcases List.mem_append.1 there with there | there
    · have less := ascending.2.2 _ (List.mem_map_of_mem there) l.1.ticket (by simp)
      simp only at less
      omega
    · simp [← List.mem_singleton.1 there]

end Lane

variable [ComponentStore σ] {holds : σ → Journal → Prop} {j : Journal}

/-- The store of a lane holds a journal with the writes that have landed. -/
theorem Lane.held_next (h : Lane id w started) (keeps : KeepsUpdates holds) (known : (j.get? id).isSome = true)
    (held : holds w.store (j.land w.landed)) (event : SaveEvent) :
    holds (w.next event).store (j.land (w.next event).landed) := by
  cases event with
  | schedule now other value => exact held
  | wake ticket => exact held
  | finish ticket => exact held
  | land ticket =>
    obtain ⟨-, same⟩ | ⟨save, hsave, -, -, hland⟩ := w.land_cases ticket
    · rwa [same]
    · have own : save.id = id := h.own _ (h.sound.called save hsave)
      have there : ((j.land w.landed).get? save.id).isSome = true := by
        rw [Journal.get?_land fun l hl => h.own _ (h.sound.landedCalls l hl), if_pos own, Option.isSome_or,
          known, Bool.or_true]
      rw [hland, Journal.land_concat]
      exact (keeps.update held save.id save.value there).2

end Saving

end MarkupEditor
