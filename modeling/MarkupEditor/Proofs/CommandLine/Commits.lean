import MarkupEditor.CommandLine.Interactive

set_option autoImplicit false

namespace MarkupEditor

namespace LineCommand

def request? : LineCommand → Option Mutation
  | .text value => some (.setText value)
  | .style key value => some (.setStyle key value)
  | .setAttribute name value => some (.setAttribute name (.ofArgument value))
  | _ => none

def ofLines (lines : List (List Char)) : List LineCommand :=
  lines.filterMap fun line => (read line).toOption

end LineCommand

namespace Session

variable {s : Session}

def obey (s : Session) (command : LineCommand) : Session × Option String :=
  match command.request?, command with
  | some m, _ => ((s.apply m).session, (s.apply m).answer.toOption.join)
  | none, .pick marker => (s.pick marker, none)
  | none, .rerender => (s.rerender.session, none)
  | none, _ => (s, none)

/-- The markups that commands commit in order, up to the one that ends the session. -/
def commits (s : Session) : List LineCommand → List String
  | [] => []
  | command :: commands =>
    if command = .quit then [] else (s.obey command).2.toList ++ (s.obey command).1.commits commands

theorem apply_listen (s : Session) (m : Mutation) :
    (s.listen.apply m).session = (s.apply m).session.listen ∧
      (s.listen.apply m).answer = (s.apply m).answer ∧
      (s.listen.apply m).changes = (s.apply m).answer.toOption.join.toList := by
  have picked : s.listen.pickedNode? = s.pickedNode? := rfl
  have tree : s.listen.tree = s.tree := rfl
  unfold apply
  rw [picked, tree]
  cases s.pickedNode? with
  | none => exact ⟨rfl, rfl, rfl⟩
  | some node =>
    dsimp only
    cases m.isNoop with
    | true => exact ⟨rfl, rfl, rfl⟩
    | false => cases m.apply s.tree node <;> exact ⟨rfl, rfl, rfl⟩

theorem rerender_listen (s : Session) :
    s.listen.rerender.session = s.rerender.session.listen ∧ s.listen.rerender.changes = [] := by
  have markup : s.listen.markup = s.markup := rfl
  unfold rerender restart
  rw [markup]
  cases tagMarkup s.markup <;> exact ⟨rfl, rfl⟩

theorem answerMutation_listen (s : Session) (m : Mutation) :
    (s.listen.answerMutation m).session = (s.apply m).session.listen ∧
      (s.listen.answerMutation m).changes = (s.apply m).answer.toOption.join.toList := by
  obtain ⟨session, -, changes⟩ := s.apply_listen m
  rw [← session, ← changes]
  unfold answerMutation
  dsimp only
  split <;> exact ⟨rfl, rfl⟩

/-- A command is carried out with a listener as it is without, and the listener is told of its commit. -/
theorem answerCommand_listen (s : Session) (command : LineCommand) :
    (s.listen.answerCommand command).session = (s.obey command).1.listen ∧
      (s.listen.answerCommand command).changes = (s.obey command).2.toList := by
  cases command with
  | pick marker =>
    simp only [answerCommand]
    split <;> exact ⟨rfl, rfl⟩
  | text value => exact s.answerMutation_listen _
  | style key value => exact s.answerMutation_listen _
  | setAttribute name value => exact s.answerMutation_listen _
  | showPanel =>
    simp only [answerCommand]
    split <;> exact ⟨rfl, rfl⟩
  | rerender =>
    obtain ⟨session, changes⟩ := s.rerender_listen
    simp only [answerCommand]
    split <;> exact ⟨session, changes⟩
  | showMarkup | help | quit | nothing => exact ⟨rfl, rfl⟩

/-- A line that does not end the session commits what its command does, and nothing if it cannot be read. -/
theorem answerLine_listen (s : Session) {line : List Char} (open_ : endsSession line = false)
    (lines : List (List Char)) :
    ∃ next : Session, (s.listen.answerLine line).session = next.listen ∧
      s.commits (LineCommand.ofLines (line :: lines)) =
        (s.listen.answerLine line).changes ++ next.commits (LineCommand.ofLines lines) := by
  unfold answerLine
  cases parsed : LineCommand.read line with
  | error error =>
    refine ⟨s, rfl, ?_⟩
    simp [LineCommand.ofLines, parsed, Except.toOption, LineReply.refused]
  | ok command =>
    have goesOn : command ≠ .quit := fun quit => by
      rw [endsSession, parsed, quit] at open_
      cases open_
    obtain ⟨session, changes⟩ := s.answerCommand_listen command
    refine ⟨(s.obey command).1, session, ?_⟩
    simp [LineCommand.ofLines, parsed, Except.toOption, commits, goesOn, changes]

theorem commits_quit {line : List Char} (ends : endsSession line = true) (s : Session)
    (lines : List (List Char)) : s.commits (LineCommand.ofLines (line :: lines)) = [] := by
  unfold endsSession at ends
  split at ends
  · rename_i parsed
    simp [LineCommand.ofLines, parsed, Except.toOption, commits]
  · cases ends

end Session

end MarkupEditor
