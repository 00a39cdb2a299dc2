import MarkupEditor.Proofs.CommandLine.Commits
import MarkupEditor.Proofs.Store.Lanes
/-!
# What an interactive session leaves in the store

Lines are heard while the saves of what was committed before are on their way. When all lines are heard and
the last save is over, the component holds the markup that was committed last, however the saves and the
lines took turns; lines that are refused make no difference.
-/

set_option autoImplicit false

namespace MarkupEditor

/-- An interactive session at work: the lines that are left, the session, the saves beside it, and the tickets
of those that have begun to write, in the order in which they began. -/
structure Sitting (σ : Type) where
  lines : List (List Char)
  session : Session
  saving : Saving σ
  started : List Nat

/-- What may happen next in an interactive session: a line is heard, or a save takes a step. -/
inductive SittingEvent where
  | hear
  | wake (ticket : Nat)
  | land (ticket : Nat)
  | finish (ticket : Nat)

namespace Sitting

variable {σ : Type}

def begin (delay : Nat) (store : σ) (s : Session) (lines : List (List Char)) : Sitting σ :=
  ⟨lines, s, .begin delay store, []⟩

variable [ComponentStore σ]

/-- The next line is heard in a session about a component. What it commits is scheduled at once; a line that
ends the session leaves none. -/
def hear (id : String) (w : Sitting σ) : Sitting σ :=
  match w.lines with
  | [] => w
  | line :: lines =>
    if endsSession line then { w with lines := [] }
    else
      let reply := w.session.answerLine line
      { w with lines, session := reply.session, saving := w.saving.run (reply.changes.map (.schedule 0 id)) }

def next (id : String) (w : Sitting σ) : SittingEvent → Sitting σ
  | .hear => w.hear id
  | .wake ticket =>
    { w with
      saving := w.saving.next (.wake ticket)
      started := if w.saving.saver.begins ticket then w.started ++ [ticket] else w.started }
  | .land ticket => { w with saving := w.saving.next (.land ticket) }
  | .finish ticket => { w with saving := w.saving.next (.finish ticket) }

def run (id : String) (w : Sitting σ) (events : List SittingEvent) : Sitting σ :=
  events.foldl (next id) w

/-- A session is over when all lines are heard and the save of the last commit is through, writes having
landed in the order in which they began. Other saves may still be asleep, or may never have landed. -/
structure Over (w : Sitting σ) : Prop where
  heard : w.lines = []
  awaited : ∀ c ∈ w.saving.calls.getLast?, ∀ save ∈ w.saving.saver.saves, save.ticket ≠ c.ticket
  inOrder : (w.saving.landed.map (·.1.ticket)).Sublist w.started

end Sitting

namespace Saving

variable {σ : Type} [ComponentStore σ] {id : String} {w : Saving σ} {started : List Nat}

theorem run_schedules (w : Saving σ) (id : String) (values : List String) :
    (w.run (values.map (.schedule 0 id))).store = w.store ∧
      (w.run (values.map (.schedule 0 id))).landed = w.landed ∧
      (w.run (values.map (.schedule 0 id))).calls.map (·.value) = w.calls.map (·.value) ++ values ∧
      (w.run (values.map (.schedule 0 id))).saver =
        values.foldl (fun saver text => saver.schedule 0 id text) w.saver := by
  induction values generalizing w with
  | nil => exact ⟨rfl, rfl, (List.append_nil _).symm, rfl⟩
  | cons value values ih =>
    obtain ⟨store, landed, calls, saver⟩ := ih (w.next (.schedule 0 id value))
    refine ⟨store, landed, ?_, saver⟩
    change ((w.next (.schedule 0 id value)).run _).calls.map _ = _
    rw [calls]
    simp [next]

theorem Lane.schedules (h : Lane id w started) (values : List String) :
    Lane id (w.run (values.map (.schedule 0 id))) started := by
  induction values generalizing w with
  | nil => exact h
  | cons value values ih => exact ih (h.schedule 0 value)

end Saving

namespace Sitting

variable {σ : Type} [ComponentStore σ] {id : String} {w : Sitting σ}

theorem hear_nil (none : w.lines = []) : w.hear id = w := by
  rw [hear, none]

theorem hear_quit {line : List Char} {lines : List (List Char)} (some : w.lines = line :: lines)
    (ends : endsSession line = true) : w.hear id = { w with lines := [] } := by
  rw [hear, some]
  exact if_pos ends

theorem hear_line {line : List Char} {lines : List (List Char)} (some : w.lines = line :: lines)
    (goesOn : endsSession line = false) :
    w.hear id = { w with
      lines
      session := (w.session.answerLine line).session
      saving := w.saving.run ((w.session.answerLine line).changes.map (.schedule 0 id)) } := by
  rw [hear, some]
  exact if_neg (by simp [goesOn])

theorem lane_next (h : Saving.Lane id w.saving w.started) (event : SittingEvent) :
    Saving.Lane id (w.next id event).saving (w.next id event).started := by
  cases event with
  | hear =>
    change Saving.Lane id (w.hear id).saving (w.hear id).started
    cases lines : w.lines with
    | nil => rwa [hear_nil lines]
    | cons line lines' =>
      cases ends : endsSession line with
      | true =>
        rw [hear_quit lines ends]
        exact h
      | false =>
        rw [hear_line lines ends]
        exact h.schedules _
  | wake ticket => exact h.wake ticket
  | land ticket => exact h.land ticket
  | finish ticket => exact h.finish ticket

theorem lane_run (h : Saving.Lane id w.saving w.started) (events : List SittingEvent) :
    Saving.Lane id (w.run id events).saving (w.run id events).started := by
  induction events generalizing w with
  | nil => exact h
  | cons event events ih => exact ih (lane_next h event)

/-- A session follows its lines: what was scheduled, and then what the lines that are left commit, is what
all lines commit, and the store holds what has landed. -/
structure Follows (holds : σ → Journal → Prop) (j : Journal) (id : String) (all : List String)
    (w : Sitting σ) : Prop where
  lane : Saving.Lane id w.saving w.started
  held : holds w.saving.store (j.land w.saving.landed)
  committed : ∃ s : Session, w.session = s.listen ∧
    w.saving.calls.map (·.value) ++ s.commits (LineCommand.ofLines w.lines) = all

variable {holds : σ → Journal → Prop} {j : Journal} {all : List String}

theorem Follows.next (h : Follows holds j id all w) (keeps : KeepsUpdates holds)
    (known : (j.get? id).isSome = true) (event : SittingEvent) :
    Follows holds j id all (w.next id event) := by
  have lane := lane_next h.lane event
  cases event with
  | wake ticket => exact ⟨lane, h.lane.held_next keeps known h.held (.wake ticket), h.committed⟩
  | finish ticket => exact ⟨lane, h.lane.held_next keeps known h.held (.finish ticket), h.committed⟩
  | land ticket =>
    refine ⟨lane, h.lane.held_next keeps known h.held (.land ticket), ?_⟩
    obtain ⟨s, session, committed⟩ := h.committed
    refine ⟨s, session, ?_⟩
    obtain ⟨-, same⟩ | ⟨save, -, -, -, hland⟩ := w.saving.land_cases ticket
    · simpa only [Sitting.next, same] using committed
    · simpa only [Sitting.next, hland] using committed
  | hear =>
    obtain ⟨s, session, committed⟩ := h.committed
    change Saving.Lane id (w.hear id).saving (w.hear id).started at lane
    change Follows holds j id all (w.hear id)
    cases lines : w.lines with
    | nil => rwa [hear_nil lines]
    | cons line lines' =>
      rw [lines] at committed
      cases ends : endsSession line with
      | true =>
        rw [hear_quit lines ends] at lane ⊢
        rw [Session.commits_quit ends] at committed
        exact ⟨lane, h.held, s, session, committed⟩
      | false =>
        obtain ⟨after, answered, told⟩ := s.answerLine_listen ends lines'
        rw [← session] at answered told
        obtain ⟨store, landed, calls, -⟩ :=
          w.saving.run_schedules id (w.session.answerLine line).changes
        rw [hear_line lines ends] at lane ⊢
        refine ⟨lane, ?_, after, answered, ?_⟩
        · rw [store, landed]
          exact h.held
        · rw [calls, ← committed, told, List.append_assoc]

theorem Follows.run (h : Follows holds j id all w) (keeps : KeepsUpdates holds)
    (known : (j.get? id).isSome = true) (events : List SittingEvent) :
    Follows holds j id all (w.run id events) := by
  induction events generalizing w with
  | nil => exact h
  | cons event events ih => exact ih (h.next keeps known event)

theorem Follows.read (h : Follows holds j id all w) (keeps : KeepsUpdates holds) (ended : w.Over)
    {markup : String} (stored : j.get? id = some markup) (other : String) :
    ComponentStore.read w.saving.store other =
      if other = id then .ok (some (all.getLast?.getD markup)) else .ok (j.get? other) := by
  obtain ⟨s, -, committed⟩ := h.committed
  rw [ended.heard, show s.commits (LineCommand.ofLines []) = [] from rfl, List.append_nil] at committed
  have values : w.saving.landed.getLast?.map (·.1.value) = all.getLast? := by
    rw [← committed, List.getLast?_map]
    cases last : w.saving.calls.getLast? with
    | none =>
      have noCalls := List.getLast?_eq_none_iff.1 last
      have landed : w.saving.landed = [] := by
        refine List.eq_nil_iff_forall_not_mem.2 fun l hl => ?_
        have there := h.lane.sound.landedCalls l hl
        rw [noCalls] at there
        cases there
      rw [landed]
      rfl
    | some c =>
      have landed := h.lane.last_landed last (ended.awaited c last) ended.inOrder
      calc
        w.saving.landed.getLast?.map (·.1.value) = (w.saving.landed.getLast?.map (·.1)).map (·.value) :=
          (Option.map_map ..).symm
        _ = some c.value := by rw [landed]; rfl
  have own : ∀ l ∈ w.saving.landed, l.1.id = id := fun l hl =>
    h.lane.own _ (h.lane.sound.landedCalls l hl)
  rw [keeps.read h.held, Journal.get?_land own, values]
  split
  · rw [stored]
    cases all.getLast? <;> rfl
  · rfl

theorem exists_heard (id : String) (w : Sitting σ) :
    ∃ events, (w.run id events).lines = [] ∧ (w.run id events).started = w.started ∧
      (w.run id events).saving.store = w.saving.store ∧ (w.run id events).saving.landed = w.saving.landed ∧
      (w.run id events).saving.saver =
        (Conversation.hearAll ⟨id, w.session, w.saving.saver⟩ w.lines).1.saver := by
  generalize left : w.lines = lines
  induction lines generalizing w with
  | nil => exact ⟨[], left, rfl, rfl, rfl, rfl⟩
  | cons line lines ih =>
    cases ends : endsSession line with
    | true =>
      refine ⟨[.hear], ?_⟩
      change (w.hear id).lines = [] ∧ (w.hear id).started = _ ∧ (w.hear id).saving.store = _ ∧
        (w.hear id).saving.landed = _ ∧ (w.hear id).saving.saver = _
      rw [hear_quit left ends, Conversation.hearAll, if_pos ends]
      exact ⟨rfl, rfl, rfl, rfl, rfl⟩
    | false =>
      have heard : w.next id .hear = _ := hear_line left ends
      obtain ⟨events, none, started, store, landed, saver⟩ := ih (w.next id .hear) (by rw [heard])
      obtain ⟨sameStore, sameLanded, -, scheduled⟩ :=
        w.saving.run_schedules id (w.session.answerLine line).changes
      refine ⟨.hear :: events, none, ?_, ?_, ?_, ?_⟩
      · exact started.trans (by rw [heard])
      · exact store.trans (by rw [heard]; exact sameStore)
      · exact landed.trans (by rw [heard]; exact sameLanded)
      · refine saver.trans ?_
        rw [heard, Conversation.hearAll, if_neg (by simp [ends]), Conversation.hear]
        dsimp only
        rw [scheduled]

def wakes (tickets : List Nat) : List SittingEvent :=
  tickets.map .wake

def completes (tickets : List Nat) : List SittingEvent :=
  tickets.flatMap fun ticket => [.land ticket, .finish ticket]

theorem run_wakes (id : String) (w : Sitting σ) (tickets : List Nat) :
    (w.run id (wakes tickets)).saving = { w.saving with saver := tickets.foldl Saver.wake w.saving.saver } ∧
      (w.run id (wakes tickets)).lines = w.lines := by
  induction tickets generalizing w with
  | nil => exact ⟨rfl, rfl⟩
  | cons ticket tickets ih => exact ih (w.next id (.wake ticket))

/-- Only the save of the last call begins when saves are woken. -/
theorem started_wakes (h : Saving.Lane id w.saving w.started) {c : SaveCall}
    (last : c ∈ w.saving.calls.getLast?) (started : ∀ ticket ∈ w.started, ticket = c.ticket)
    (tickets : List Nat) : ∀ ticket ∈ (w.run id (wakes tickets)).started, ticket = c.ticket := by
  induction tickets generalizing w with
  | nil => exact started
  | cons woken tickets ih =>
    refine ih (lane_next h (.wake woken)) last fun ticket there => ?_
    change ticket ∈ (if w.saving.saver.begins woken then w.started ++ [woken] else w.started) at there
    split at there
    · rename_i begins
      rcases List.mem_append.1 there with there | there
      · exact started ticket there
      · obtain ⟨save, hsave, rfl, -, latest, -⟩ := Saver.wake_of_begins begins
        obtain rfl := Option.mem_unique last (h.last_of_isLatest hsave latest)
        exact List.mem_singleton.1 there
    · exact started ticket there

theorem next_complete (id : String) (w : Sitting σ) (ticket : Nat) :
    let after := (w.next id (.land ticket)).next id (.finish ticket)
    (after.saving.saver, after.saving.store) = Saver.complete (w.saving.saver, w.saving.store) ticket ∧
      after.saving.calls = w.saving.calls := by
  simp only [next, Saving.next, Saver.complete, Saver.land]
  cases w.saving.saver.save? ticket with
  | none => exact ⟨rfl, rfl⟩
  | some save =>
    dsimp only
    split <;> exact ⟨rfl, rfl⟩

theorem run_completes (id : String) (w : Sitting σ) (tickets : List Nat) :
    let after := w.run id (completes tickets)
    (after.saving.saver, after.saving.store) = tickets.foldl Saver.complete (w.saving.saver, w.saving.store) ∧
      after.saving.calls = w.saving.calls ∧ after.lines = w.lines ∧ after.started = w.started := by
  induction tickets generalizing w with
  | nil => exact ⟨rfl, rfl, rfl, rfl⟩
  | cons ticket tickets ih =>
    obtain ⟨completed, sameCalls⟩ := next_complete id w ticket
    obtain ⟨run, calls, lines, started⟩ := ih ((w.next id (.land ticket)).next id (.finish ticket))
    refine ⟨run.trans ?_, calls.trans sameCalls, lines, started⟩
    rw [completed]
    rfl

theorem run_append (w : Sitting σ) (before after : List SittingEvent) :
    w.run id (before ++ after) = (w.run id before).run id after :=
  List.foldl_append

omit [ComponentStore σ] in
theorem inOrder_of_one (h : Saving.Lane id w.saving w.started)
    (one : ∀ c ∈ w.saving.calls.getLast?, ∀ ticket ∈ w.started, ticket = c.ticket) :
    (w.saving.landed.map (·.1.ticket)).Sublist w.started := by
  cases landed : w.saving.landed with
  | nil => exact List.nil_sublist _
  | cons l others =>
    have begun : ∀ ticket ∈ (l :: others).map (·.1.ticket), ticket ∈ w.started := by
      intro ticket there
      obtain ⟨l', hl, rfl⟩ := List.mem_map.1 there
      exact h.landed l' (landed ▸ hl)
    have called := h.sound.landedCalls l (landed ▸ List.mem_cons_self)
    obtain ⟨c, last⟩ : ∃ c, w.saving.calls.getLast? = some c :=
      ⟨_, List.getLast?_eq_some_getLast (List.ne_nil_of_mem called)⟩
    have same := one c last
    have once := h.sound.once
    rw [landed] at once
    cases others with
    | nil => exact List.singleton_sublist.2 (begun _ List.mem_cons_self)
    | cons second others =>
      have apart := (List.nodup_cons.1 once).1
      have twice : l.1.ticket = second.1.ticket :=
        (same _ (begun _ List.mem_cons_self)).trans
          (same _ (begun _ (List.mem_cons_of_mem _ List.mem_cons_self))).symm
      exact absurd (List.mem_cons.2 (.inl twice)) apart

theorem exists_drained (heard : w.lines = []) (unstarted : w.started = []) (unlanded : w.saving.landed = [])
    (lane : Saving.Lane id w.saving w.started) :
    ∃ events, (w.run id events).Over ∧
      (w.run id events).saving.store = (w.saving.saver.drain w.saving.store).2 := by
  let sleeping := w.saving.saver.ticketsOf fun save => save.stage = .waiting
  let writing := w.saving.saver.wakeAll.ticketsOf fun save => save.stage = .writing
  let events := wakes sleeping ++ completes writing
  obtain ⟨woken, woke⟩ : (w.run id (wakes sleeping)).saving = _ ∧ _ := run_wakes id w sleeping
  obtain ⟨completed, calls, lines, started⟩ := run_completes id (w.run id (wakes sleeping)) writing
  rw [← run_append, woken] at completed calls
  rw [← run_append] at lines started
  have saver : (w.run id events).saving.saver = (w.saving.saver.drain w.saving.store).1 :=
    congrArg Prod.fst completed
  have store : (w.run id events).saving.store = (w.saving.saver.drain w.saving.store).2 :=
    congrArg Prod.snd completed
  have saves : (w.run id events).saving.saver.saves = [] := by
    rw [saver]
    refine Saver.saves_drain lane.sound.apart (fun save hsave written => ?_) _
    have landed := (lane.sound.written save hsave).1 written
    rw [unlanded] at landed
    cases landed
  refine ⟨events, ⟨lines.trans (woke.trans heard), fun c _ => by simp [saves], ?_⟩, store⟩
  refine inOrder_of_one (lane_run lane events) fun c last ticket there => ?_
  have begun : ticket ∈ (w.run id (wakes sleeping)).started := started ▸ there
  exact started_wakes lane (calls ▸ last) (by simp [unstarted]) _ ticket begun

/-- A session that hears its lines and then waits is over, and what it leaves is what it leaves if the lines
are heard all at once. -/
theorem exists_over (id : String) (delay : Nat) (store : σ) (s : Session) (lines : List (List Char)) :
    ∃ events, ((begin delay store s lines).run id events).Over ∧
      ((begin delay store s lines).run id events).saving.store =
        (Conversation.hearAll ⟨id, s, .ofDelay delay⟩ lines).1.close store := by
  obtain ⟨hears, heard, unstarted, sameStore, unlanded, saver⟩ := exists_heard id (begin delay store s lines)
  have start : Saving.Lane id (begin delay store s lines).saving (begin delay store s lines).started :=
    .begin id delay store
  obtain ⟨events, ended, drained⟩ := exists_drained heard unstarted unlanded (lane_run start hears)
  rw [← run_append] at ended drained
  refine ⟨hears ++ events, ended, ?_⟩
  rw [drained, saver, sameStore]
  rfl

end Sitting

namespace Conversation

variable {σ : Type} [ComponentStore σ] {store : σ} {id markup : String}

theorem start_loaded {s : Session} (stored : ComponentStore.read store id = .ok (some markup))
    (loaded : Session.load markup = .ok s) (delay : Nat) :
    start store id delay = .ok ⟨id, s.listen, .ofDelay delay⟩ := by
  rw [start, stored]
  change (do return ⟨id, (← (Session.load markup).mapError CommandError.edit).listen, .ofDelay delay⟩ :
    Except CommandError Conversation) = _
  rw [loaded]
  rfl

theorem start_refused
    (missing : ¬ ∃ markup s, ComponentStore.read store id = .ok (some markup) ∧ Session.load markup = .ok s)
    (delay : Nat) : ∃ error, start store id delay = .error error := by
  unfold start
  cases stored : ComponentStore.read store id with
  | error error => exact ⟨_, rfl⟩
  | ok found =>
    cases found with
    | none => exact ⟨_, rfl⟩
    | some markup =>
      cases loaded : Session.load markup with
      | error error => exact ⟨.edit error, by simp [Except.mapError, loaded, bind, Except.bind]⟩
      | ok s => exact absurd ⟨markup, s, stored, loaded⟩ missing

end Conversation

/-- An interactive session about a stored component leaves the markup that was committed last by the commands
of its lines, and the original one if none was, however the saves and the lines took turns. Every other
component stays. A session that cannot be opened is an error, and nothing happens to the store. -/
theorem session_saves_last {σ : Type} [ComponentStore σ] {holds : σ → Journal → Prop}
    (keeps : KeepsUpdates holds) {store : σ} {j : Journal} (held : holds store j) (id : String)
    (delay : Nat) :
    (∀ markup s, ComponentStore.read store id = .ok (some markup) → Session.load markup = .ok s →
      (∀ lines events, ((Sitting.begin delay store s.listen lines).run id events).Over → ∀ other,
        ComponentStore.read ((Sitting.begin delay store s.listen lines).run id events).saving.store other =
          if other = id then .ok (some ((s.commits (LineCommand.ofLines lines)).getLast?.getD markup))
          else ComponentStore.read store other) ∧
      ∀ input, (runSession store id delay input).answer = .ok () ∧ ∀ other,
        ComponentStore.read (runSession store id delay input).store other =
          if other = id then
            .ok (some ((s.commits (LineCommand.ofLines (Text.linesOf input.toList))).getLast?.getD markup))
          else ComponentStore.read store other) ∧
    ((¬ ∃ markup s, ComponentStore.read store id = .ok (some markup) ∧ Session.load markup = .ok s) →
      ∀ input, ∃ error, runSession store id delay input = ⟨store, [], .error error⟩) := by
  refine ⟨fun markup s stored loaded => ?_, fun missing input => ?_⟩
  · have known : j.get? id = some markup := Except.ok.inj ((keeps.read held id).symm.trans stored)
    have leaves (lines : List (List Char)) (events : List SittingEvent)
        (ended : ((Sitting.begin delay store s.listen lines).run id events).Over) (other : String) :
        ComponentStore.read ((Sitting.begin delay store s.listen lines).run id events).saving.store other =
          if other = id then .ok (some ((s.commits (LineCommand.ofLines lines)).getLast?.getD markup))
          else ComponentStore.read store other := by
      have start : Sitting.Follows holds j id (s.commits (LineCommand.ofLines lines))
          (Sitting.begin delay store s.listen lines) := ⟨.begin id delay store, held, s, rfl, rfl⟩
      rw [keeps.read held other]
      exact (start.run keeps (by rw [known]; rfl) events).read keeps ended known other
    refine ⟨leaves, fun input => ?_⟩
    obtain ⟨events, ended, closed⟩ :=
      Sitting.exists_over id delay store s.listen (Text.linesOf input.toList)
    rw [runSession, Conversation.start_loaded stored loaded]
    refine ⟨rfl, fun other => ?_⟩
    have left := leaves _ events ended other
    rwa [closed] at left
  · obtain ⟨error, refused⟩ := Conversation.start_refused missing delay
    exact ⟨error, by rw [runSession, refused]⟩

/-- One text is committed; the line after it is unknown, a pick leads nowhere, an attribute has no value, and
the last text comes too late. -/
theorem session_saves_last_refused :
    (runSession (Components.empty.insert "a" "<p>Hi</p>") "a" 300
        "pick 0\ntext Hello\ndance\npick 9\ntext no\npick 0\nattr\nquit\ntext late").answer = .ok () ∧
      ComponentStore.read (runSession (Components.empty.insert "a" "<p>Hi</p>") "a" 300
        "pick 0\ntext Hello\ndance\npick 9\ntext no\npick 0\nattr\nquit\ntext late").store "a" =
          .ok (some "<p data-__interactive-editor-edit-id=\x7b0\x7d>Hello</p>") := by
  have commits : (Session.load "<p>Hi</p>").toOption.any (fun s =>
      (s.commits (LineCommand.ofLines (Text.linesOf
        "pick 0\ntext Hello\ndance\npick 9\ntext no\npick 0\nattr\nquit\ntext late".toList))).getLast? =
          some "<p data-__interactive-editor-edit-id=\x7b0\x7d>Hello</p>") = true := by decide +kernel
  cases loaded : Session.load "<p>Hi</p>" with
  | error error =>
    rw [loaded] at commits
    cases commits
  | ok s =>
    rw [loaded] at commits
    have last := of_decide_eq_true commits
    obtain ⟨answer, left⟩ := ((session_saves_last Components.keepsJournal.toKeepsUpdates
      (Components.Holds.empty.insert "a" "<p>Hi</p>") "a" 300).1 "<p>Hi</p>" s (by decide +kernel) loaded).2
        "pick 0\ntext Hello\ndance\npick 9\ntext no\npick 0\nattr\nquit\ntext late"
    refine ⟨answer, ?_⟩
    rw [left "a", if_pos rfl, last]
    rfl

end MarkupEditor
