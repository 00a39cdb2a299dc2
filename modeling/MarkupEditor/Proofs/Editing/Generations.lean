import MarkupEditor.Editing.Session
import MarkupEditor.Proofs.Editing.Tagging
/-!
# Generations of a session

A session is a state machine. Between two taggings its tree is edited in place and the markup is the code
of the tree; a step that fails leaves everything as it was. A run of a session is taken down in a
chronicle, which tells what a generation started from and what was committed in it.
-/

set_option autoImplicit false

namespace MarkupEditor

variable {t u : Tree} {node : NodeId} {m : Mutation}

theorem Mutation.apply_of_valid (valid : m.validate t node = .ok ()) :
    m.apply t node = .ok (m.perform t node) := by
  rw [apply, valid]
  rfl

theorem Mutation.apply_of_refused {error : MutationError} (refused : m.validate t node = .error error) :
    m.apply t node = .error error := by
  rw [apply, refused]
  rfl

/-- A request that was carried out: the tree it found, the node, and what was asked for. -/
structure Commit where
  tree : Tree
  node : NodeId
  request : Mutation

inductive Operation where
  | listen
  | replaceText (markup : String)
  | rerender
  | pick (marker : String)
  | clearPick
  | apply (request : Mutation)

/-- A session with what its generation was tagged as, and what has been committed since, in order. -/
structure Chronicle where
  session : Session
  start : Tagged
  commits : List Commit

namespace Chronicle

/-- The chronicle after the session was tagged again from a markup. If it cannot be, nothing starts. -/
def restart (c : Chronicle) (markup : String) (next : Session) : Chronicle :=
  match tagMarkup markup with
  | .ok start => ⟨next, start, []⟩
  | .error _ => { c with session := next }

def after (c : Chronicle) : Operation → Chronicle
  | .listen => { c with session := c.session.listen }
  | .replaceText markup => c.restart markup (c.session.replaceText markup).session
  | .rerender => c.restart c.session.markup c.session.rerender.session
  | .pick marker => { c with session := c.session.pick marker }
  | .clearPick => { c with session := c.session.clearPick }
  | .apply m =>
    let reaction := c.session.apply m
    match reaction.answer, c.session.pickedNode? with
    | .ok (some _), some node =>
      { c with session := reaction.session, commits := c.commits ++ [⟨c.session.tree, node, m⟩] }
    | _, _ => { c with session := reaction.session }

end Chronicle

/-- The chronicles of the sessions that operations lead to from a markup. -/
inductive Leads (source : String) : Chronicle → Prop where
  | load {s : Session} {start : Tagged} (loaded : Session.load source = .ok s)
    (tagged : tagMarkup source = .ok start) : Leads source ⟨s, start, []⟩
  | step {c : Chronicle} (h : Leads source c) (operation : Operation) : Leads source (c.after operation)

namespace Session

/-- The ways in which a request to a session ends. What is checked is checked before anything is
written, so a request that is refused leaves the session. -/
inductive Applies (s : Session) (m : Mutation) : Reaction (Option String) → Prop where
  | idle (nothing : s.pickedNode? = none ∨ m.isNoop = true) : Applies s m ⟨s, .ok none, []⟩
  | refused {node : NodeId} {error : MutationError} (picked : s.pickedNode? = some node)
    (asks : m.isNoop = false) (invalid : m.validate s.tree node = .error error) :
    Applies s m ⟨s, .error (.mutation error), []⟩
  | committed {node : NodeId} (picked : s.pickedNode? = some node) (asks : m.isNoop = false)
    (valid : m.validate s.tree node = .ok ()) :
    Applies s m ⟨s.commit (m.perform s.tree node), .ok (some (m.perform s.tree node).code),
      if s.listening then [(m.perform s.tree node).code] else []⟩

theorem applies (s : Session) (m : Mutation) : s.Applies m (s.apply m) := by
  unfold apply
  cases picked : s.pickedNode? with
  | none => exact .idle (.inl picked)
  | some node =>
    cases asks : m.isNoop with
    | true => exact .idle (.inr asks)
    | false =>
      cases valid : m.validate s.tree node with
      | error error =>
        simp only [Mutation.apply_of_refused valid]
        exact .refused picked asks valid
      | ok =>
        simp only [Mutation.apply_of_valid valid]
        exact .committed picked asks valid

/-- What tagging a session again comes to: it fails where the markup does not parse and leaves the
session, or it starts the next generation and keeps the pick. -/
inductive Restarts (s : Session) (markup : String) : Session → Except EditError Session → Prop where
  | failed {error : ParseError} (rejected : parse markup = .error error) :
    Restarts s markup s (.error (.parse error))
  | started {t : Tree} (accepted : parse markup = .ok t) :
    Restarts s markup { s with generation := .ofTagged (s.generation.number + 1) markup t.tag }
      (.ok { s with generation := .ofTagged (s.generation.number + 1) markup t.tag })

theorem restarts (s : Session) (markup : String) :
    s.Restarts markup (s.restart markup).session (s.restart markup).answer ∧
      (s.restart markup).changes = [] := by
  unfold restart
  cases h : parse markup with
  | error error =>
    rw [tagMarkup_of_error h]
    exact ⟨.failed h, rfl⟩
  | ok t =>
    rw [tagMarkup_of_ok h]
    exact ⟨.started h, rfl⟩

theorem restarts_session {s next : Session} {markup : String} {answer : Except EditError Session}
    (h : s.Restarts markup next answer) :
    (∃ error, parse markup = .error error ∧ next = s) ∨
      ∃ t, parse markup = .ok t ∧
        next = { s with generation := .ofTagged (s.generation.number + 1) markup t.tag } := by
  cases h with
  | failed rejected => exact .inl ⟨_, rejected, rfl⟩
  | started accepted => exact .inr ⟨_, accepted, rfl⟩

end Session

open Session

namespace Chronicle

variable {c : Chronicle}

def commit (c : Chronicle) (node : NodeId) (m : Mutation) : Chronicle :=
  ⟨c.session.commit (m.perform c.session.tree node), c.start, c.commits ++ [⟨c.session.tree, node, m⟩]⟩

theorem after_apply (c : Chronicle) (m : Mutation) :
    c.after (.apply m) = c ∨ ∃ node, c.session.pickedNode? = some node ∧
      m.validate c.session.tree node = .ok () ∧ c.after (.apply m) = c.commit node m := by
  have h := c.session.applies m
  rw [after]
  generalize c.session.apply m = reaction at h ⊢
  cases h with
  | idle => exact .inl rfl
  | refused => exact .inl rfl
  | committed picked asks valid =>
    refine .inr ⟨_, picked, valid, ?_⟩
    simp only [picked]
    rfl

theorem restart_cases (c : Chronicle) (markup : String) :
    c.restart markup (c.session.restart markup).session = c ∨
      ∃ t, parse markup = .ok t ∧ c.restart markup (c.session.restart markup).session =
        ⟨{ c.session with generation := .ofTagged (c.session.generation.number + 1) markup t.tag },
          t.tag, []⟩ := by
  obtain ⟨error, rejected, same⟩ | ⟨t, accepted, started⟩ :=
    restarts_session (c.session.restarts markup).1
  · left
    rw [restart, tagMarkup_of_error rejected, same]
  · right
    exact ⟨t, accepted, by rw [restart, tagMarkup_of_ok accepted, started]⟩

end Chronicle

/-- What is true of a generation when it starts, and stays true when a request is carried out, holds in every
session. What is picked and who listens does not matter. -/
theorem Leads.invariant {source : String} {P : Chronicle → Prop}
    (start : ∀ s number markup t, parse markup = .ok t → s.generation = .ofTagged number markup t.tag →
      P ⟨s, t.tag, []⟩)
    (aside : ∀ c s, s.generation = c.session.generation → P c → P { c with session := s })
    (commit : ∀ c node m, Leads source c → c.session.pickedNode? = some node →
      m.validate c.session.tree node = .ok () → P c → P (c.commit node m))
    {c : Chronicle} (h : Leads source c) : P c := by
  induction h with
  | @load s first loaded tagged =>
    cases parsed : parse source with
    | error error =>
      rw [tagMarkup_of_error parsed] at tagged
      cases tagged
    | ok t =>
      rw [Session.load, tagMarkup_of_ok parsed] at loaded
      rw [tagMarkup_of_ok parsed] at tagged
      obtain rfl := Except.ok.inj loaded
      obtain rfl := Except.ok.inj tagged
      exact start _ 0 source t parsed rfl
  | @step c leads operation ih =>
    have restart (markup : String) : P (c.restart markup (c.session.restart markup).session) := by
      obtain same | ⟨t, accepted, started⟩ := c.restart_cases markup
      · rwa [same]
      · rw [started]
        exact start _ (c.session.generation.number + 1) markup t accepted rfl
    cases operation with
    | listen => exact aside c _ rfl ih
    | pick marker => exact aside c _ rfl ih
    | clearPick => exact aside c _ rfl ih
    | replaceText markup => exact restart markup
    | rerender => exact restart c.session.markup
    | apply m =>
      obtain same | ⟨node, picked, valid, committed⟩ := c.after_apply m
      · rwa [same]
      · rw [committed]
        exact commit c node m leads picked valid ih

namespace Chronicle

variable {c : Chronicle}

/-- What holds between a session and its chronicle. The identifiers and the tagged markup are those that
the generation started from. The tree is too until something is committed, and from then on the markup is
the code of the tree. -/
structure Coherent (c : Chronicle) : Prop where
  tagged : c.session.tagged = c.start.markup
  mapping : c.session.mapping = c.start.mapping
  origin : ∃ markup t, parse markup = .ok t ∧ c.start = t.tag ∧ (c.commits = [] → c.session.markup = markup)
  untouched : c.commits = [] → c.session.tree = c.start.tree
  edited : c.commits ≠ [] → c.session.markup = c.session.tree.code

theorem Coherent.commit (h : c.Coherent) (node : NodeId) (m : Mutation) : (c.commit node m).Coherent := by
  obtain ⟨markup, t, parsed, start, -⟩ := h.origin
  have some : (c.commit node m).commits ≠ [] := by simp [Chronicle.commit]
  exact ⟨h.tagged, h.mapping, ⟨markup, t, parsed, start, fun none => absurd none some⟩,
    fun none => absurd none some, fun _ => rfl⟩

end Chronicle

theorem Leads.coherent {source : String} {c : Chronicle} (h : Leads source c) : c.Coherent := by
  refine h.invariant (fun s number markup t parsed started => ?_) (fun c s same coherent => ?_)
    fun c node m _ _ _ coherent => coherent.commit node m
  · obtain ⟨generation, picked, listening⟩ := s
    obtain rfl : generation = _ := started
    exact ⟨rfl, rfl, ⟨markup, t, parsed, rfl, fun _ => rfl⟩, fun _ => rfl, fun none => absurd rfl none⟩
  · obtain ⟨generation, picked, listening⟩ := s
    obtain rfl : generation = _ := same
    exact ⟨coherent.tagged, coherent.mapping, coherent.origin, coherent.untouched, coherent.edited⟩

namespace Reaction

/-- What a caller sees of tagging a session again from a markup: it fails just where the markup does not
parse and then leaves the session, and otherwise it starts the next generation and keeps the pick. The
listener is told nothing. -/
structure TagsAgain {α : Type} (r : Reaction α) (s : Session) (markup : String) : Prop where
  answers : r.answer.isOk = (parse markup).isOk
  failed : ∀ error, r.answer = .error error → r.session = s
  started : ∀ answer, r.answer = .ok answer → r.session.generation.number = s.generation.number + 1 ∧
    r.session.picked = s.picked ∧ r.session.markup = markup
  silent : r.changes = []

/-- What a caller sees of a request: one that fails was refused for the picked node and leaves the
session, and so does one that nothing is answered to. A commit is told to the listener once, and only the
markup and the tree are others after it. -/
structure Edits (r : Reaction (Option String)) (s : Session) (m : Mutation) : Prop where
  failed : ∀ error, r.answer = .error error → r.session = s ∧ r.changes = [] ∧
    ∃ node e, s.pickedNode? = some node ∧ m.validate s.tree node = .error e ∧ error = .mutation e
  idle : r.answer = .ok none → r.session = s ∧ r.changes = []
  committed : ∀ markup, r.answer = .ok (some markup) → r.session.markup = markup ∧
    r.changes = (if s.listening then [markup] else []) ∧
    r.session.generation.number = s.generation.number ∧ r.session.mapping = s.mapping ∧
    r.session.tagged = s.tagged ∧ r.session.picked = s.picked

variable {s : Session} {markup : String}

theorem tagsAgain_map {α : Type} (f : Session → α) (s : Session) (markup : String) :
    TagsAgain ⟨(s.restart markup).session, (s.restart markup).answer.map f, (s.restart markup).changes⟩
      s markup := by
  obtain ⟨h, silent⟩ := s.restarts markup
  generalize s.restart markup = r at h silent
  obtain ⟨next, answer, changes⟩ := r
  cases h with
  | failed rejected =>
    refine ⟨?_, fun error _ => rfl, nofun, silent⟩
    rw [rejected]
    rfl
  | started accepted =>
    refine ⟨?_, nofun, fun answer _ => ⟨rfl, rfl, rfl⟩, silent⟩
    rw [accepted]
    rfl

theorem edits_apply (s : Session) (m : Mutation) : (s.apply m).Edits s m := by
  have h := s.applies m
  generalize s.apply m = reaction at h ⊢
  cases h with
  | idle => exact ⟨nofun, fun _ => ⟨rfl, rfl⟩, nofun⟩
  | @refused node error picked asks invalid =>
    refine ⟨fun other he => ⟨rfl, rfl, node, error, picked, invalid, ?_⟩, nofun, nofun⟩
    exact (Except.error.inj he).symm
  | committed picked asks valid =>
    refine ⟨nofun, nofun, fun markup hm => ?_⟩
    obtain rfl := Option.some.inj (Except.ok.inj hm)
    exact ⟨rfl, rfl, rfl, rfl, rfl, rfl⟩

end Reaction

/-- A session that operations lead to holds the tagged markup of its tree as long as nothing is committed in
its generation, and then the code of its tree. Whatever is asked of it next either fails and leaves it, or
does what was asked for and no more. -/
theorem session_steps {source : String} {c : Chronicle} (h : Leads source c) :
    ((c.commits = [] ∧ c.session.tree.code = c.session.tagged) ∨
        (c.commits ≠ [] ∧ c.session.markup = c.session.tree.code)) ∧
      (∀ markup, (c.session.replaceText markup).TagsAgain c.session markup) ∧
      c.session.rerender.TagsAgain c.session c.session.markup ∧
      ∀ m, (c.session.apply m).Edits c.session m := by
  have coherent := h.coherent
  refine ⟨?_, fun markup => Reaction.tagsAgain_map _ _ _, Reaction.tagsAgain_map _ _ _,
    Reaction.edits_apply c.session⟩
  by_cases none : c.commits = []
  · obtain ⟨markup, t, -, start, -⟩ := coherent.origin
    rw [coherent.untouched none, coherent.tagged, start]
    exact .inl ⟨none, rfl⟩
  · exact .inr ⟨none, coherent.edited none⟩

def Chronicle.opened (markup : String) (t : Tree) : Chronicle :=
  ⟨⟨.ofTagged 0 markup t.tag, none, false⟩, t.tag, []⟩

def Chronicle.run (c : Chronicle) (operations : List Operation) : Chronicle :=
  operations.foldl Chronicle.after c

theorem Leads.run {source : String} {c : Chronicle} (h : Leads source c) (operations : List Operation) :
    Leads source (c.run operations) := by
  induction operations generalizing c with
  | nil => exact h
  | cons operation operations ih => exact ih (h.step operation)

theorem leads_opened {source : String} {t : Tree} (parsed : parse source = .ok t) :
    Leads source (.opened source t) := by
  have tagged := tagMarkup_of_ok parsed
  refine .load ?_ tagged
  rw [Session.load, tagged]

/-- A listener is told of a new text; after that a markup is refused and an empty request is made. -/
theorem session_steps_told :
    ∃ c, Leads "<div><p>Hi</p></div>" c ∧ c.session.listening = true ∧ c.commits ≠ [] ∧
      c.session.markup = c.session.tree.code ∧
      (c.session.replaceText "<").TagsAgain c.session "<" ∧
      (c.session.apply (.setStyle "" none)).Edits c.session (.setStyle "" none) := by
  have told : (parse "<div><p>Hi</p></div>").toOption.any (fun t =>
      let c := (Chronicle.opened "<div><p>Hi</p></div>" t).run
        [.listen, .pick "1", .apply (.setText "Hello"), .pick "7", .apply (.setText "")]
      c.session.listening && !c.commits.isEmpty) = true := by decide +kernel
  obtain ⟨t, parsed, told⟩ := exists_parse told
  obtain ⟨listening, some⟩ := Bool.and_eq_true_iff.1 told
  have leads := (leads_opened parsed).run
    [.listen, .pick "1", .apply (.setText "Hello"), .pick "7", .apply (.setText "")]
  obtain ⟨⟨none, -⟩ | ⟨some, markup⟩, replaced, -, applied⟩ := session_steps leads
  · rw [none] at some
    cases some
  · exact ⟨_, leads, listening, some, markup, replaced "<", applied _⟩

end MarkupEditor
