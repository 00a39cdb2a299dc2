import Mathlib.Logic.Relation
import MarkupEditor.Proofs.Parser.Depth
import MarkupEditor.Proofs.Parser.Slices

set_option autoImplicit false

open MarkupEditor.Text MarkupEditor.Parser

namespace MarkupEditor

namespace Parser

variable {source : List Char} {sharing : Bool}

namespace Call

variable {a b : Call} {d e : Cursor}

def start (source : List Char) : Call :=
  .phrase .statements ⟨source, 0⟩

/-- A call that is made in the parse of a source, inside any number of others. -/
def Reached (source : List Char) (a : Call) : Prop :=
  Relation.ReflTransGen Makes (start source) a

def Ready : Call → Prop
  | .phrase p c => p.Ready c
  | .dots _ => True

/-- The places from which a call lexes the source or up to which it takes text from it: both ends of a
lexeme, of a run of characters and of one character, and the end of a reading that it has started. -/
inductive Looks (a : Call) : Cursor → Prop where
  | here : Looks a a.place
  | lexemeStart {d : Cursor} {s : Sight} (before : Looks a d) (seen : d.sight? = some s) : Looks a s.start
  | lexemeStop {d : Cursor} {s : Sight} (before : Looks a d) (seen : d.sight? = some s) : Looks a s.stop
  | run {d : Cursor} (p : Char → Bool) (before : Looks a d) :
    Looks a (d.advance (d.rest.takeWhile p) (d.rest.dropWhile p))
  | character {d : Cursor} {c : Char} {rest : List Char} (before : Looks a d) (h : d.rest = c :: rest) :
    Looks a (d.advance [c] rest)
  | answered {p : Phrase} {d e : Cursor} {x : Answer} (made : a.Makes (.phrase p d))
    (read : Reads p d x e) : Looks a e
  | named {d e : Cursor} {others : String} (made : a.Makes (.dots d)) (read : ReadsDotted d others e) :
    Looks a e

theorem Falls.before (h : a.Falls b) : a.place.Before b.place :=
  h.elim (·.1) (·.1)

theorem Makes.ready (h : a.Makes b) (ready : a.Ready) : b.Ready := by
  cases h with
  | structuredParenthesized seen => exact (Cursor.mark?_eq_some.1 seen).1
  | item seen h going => exact ⟨seen, h⟩
  | property h => exact ready
  | key => exact ready
  | _ => trivial

theorem Reached.place (h : Reached source a) : (⟨source, 0⟩ : Cursor).Before a.place ∧ a.Ready := by
  induction h with
  | refl => exact ⟨.refl _, trivial⟩
  | tail _ made ih => exact ⟨ih.1.trans made.falls.before, made.ready ih.2⟩

theorem Looks.before (h : a.Looks d) (ready : a.Ready) : a.place.Before d := by
  induction h with
  | here => exact .refl _
  | lexemeStart _ seen ih => exact ih.trans (Cursor.before_start seen)
  | lexemeStop _ seen ih => exact ih.trans (Cursor.before_stop seen)
  | run p _ ih => exact ih.trans (Cursor.before_advance List.takeWhile_append_dropWhile.symm)
  | character _ h ih => exact ih.trans (Cursor.before_advance h)
  | answered made read => exact made.falls.before.trans (read.moves (made.ready ready)).before
  | named made read => exact made.falls.before.trans read.before

theorem Reached.looks (h : Reached source a) (looks : a.Looks d) : (⟨source, 0⟩ : Cursor).Before d :=
  h.place.1.trans (looks.before h.place.2)

end Call

theorem splitAtByte_of_before {d : Cursor} (h : (⟨source, 0⟩ : Cursor).Before d) :
    ∃ front, splitAtByte source d.pos = some (front, d.rest) := by
  obtain ⟨front, hsource, hpos⟩ := h
  refine ⟨front, ?_⟩
  rw [hpos, Nat.zero_add]
  change source = front ++ d.rest at hsource
  rw [hsource, splitAtByte_append]

theorem slice?_of_before {d e : Cursor} (hd : (⟨source, 0⟩ : Cursor).Before d)
    (he : (⟨source, 0⟩ : Cursor).Before e) (h : d.pos ≤ e.pos) :
    ∃ text, Span.slice? source ⟨d.pos, e.pos⟩ = some text := by
  obtain ⟨text, across⟩ := hd.of_pos_le he h
  obtain ⟨front, place⟩ := hd
  exact ⟨text, Cursor.Over.slice? place across⟩

def runTo (sharing : Bool) (source : List Char) (depth : Nat) : Except Stop (NodeId × State Arena) :=
  (program (stored sharing) depth).run ⟨⟨source, 0⟩, ⟨#[], [], 0⟩⟩

theorem agrees_runTo (sharing : Bool) (source : List Char) (depth : Nat) :
    Agrees ⟨source, 0⟩ sharing ⟨#[], [], 0⟩ Arena.Shows (runTo sharing source depth)
      (program nested depth ⟨⟨source, 0⟩, ()⟩) :=
  matches_program depth ⟨.refl _, .empty _ _⟩

theorem runTo_depthFor (sharing : Bool) (source : List Char) :
    runTo sharing source (depthFor source) ≠ .error .exhausted := by
  have agrees := agrees_runTo sharing source (depthFor source)
  rcases program_nested source with ⟨error, hr⟩ | ⟨body, d, -, hr⟩ <;> rw [hr] at agrees
  · rw [show runTo sharing source (depthFor source) = _ from agrees]
    intro h
    cases h
  · obtain ⟨root, b, run, -⟩ := agrees
    rw [run]
    intro h
    cases h

theorem runTo_of_le {depth : Nat} (h : depthFor source ≤ depth) :
    runTo sharing source depth = runTo sharing source (depthFor source) :=
  (lasts_program (stored sharing) h _).resolve_left (runTo_depthFor sharing source)

theorem nested_of_exhausted {depth : Nat} (h : runTo sharing source depth = .error .exhausted) :
    Call.Nested depth (.start source) := by
  have agrees := agrees_runTo sharing source depth
  have found := sound depth .statements ⟨source, 0⟩ trivial
  simp only [Sound, Finds] at found
  rw [h] at agrees
  rcases hr : statements nested depth ⟨⟨source, 0⟩, ()⟩ with (error | _) | ⟨body, d, _⟩ <;> rw [hr] at found
  · rw [program, run_bind_error hr] at agrees
    cases agrees
  · exact found
  · rw [program, run_bind_ok hr] at agrees
    obtain ⟨root, b, run, -⟩ := agrees
    cases run

end Parser

/-- A parse of a source ends with a tree or an error of its own, and so it does with every depth from the one
it is given on. If a depth is too small, as many calls nest, and no more calls nest than a linear function
of the length allows: each has fewer bytes before it than the one that makes it, or as many and a lower
rank, and each round of a loop goes on past where the one before it stood. The places at which the source
is lexed or cut lie between two of its characters. -/
theorem parse_ends (sharing : Bool) (source : List Char) :
    (∀ depth, depthFor source ≤ depth →
      (∃ root s, runTo sharing source depth = .ok (root, s) ∧
        parseWith sharing source = .ok ⟨s.store.nodes, root⟩) ∨
      ∃ error, runTo sharing source depth = .error (.refused error) ∧
        parseWith sharing source = .error error) ∧
    (∀ depth, runTo sharing source depth = .error .exhausted → Call.Nested depth (.start source)) ∧
    (∀ n, Call.Nested n (.start source) → n < 12 * (source.length + 1)) ∧
    (∀ a b : Call, a.Makes b →
      Prod.Lex (· < ·) (· < ·) (byteLength b.place.rest, b.rank) (byteLength a.place.rest, a.rank) ∧
      (a.Rounds b → a.place.pos < b.place.pos)) ∧
    (∀ (a : Call) (d : Cursor), a.Reached source → a.Looks d →
      ∃ front, splitAtByte source d.pos = some (front, d.rest)) ∧
    ∀ (a b : Call) (d e : Cursor), a.Reached source → b.Reached source → a.Looks d → b.Looks e →
      d.pos ≤ e.pos → ∃ text, Span.slice? source ⟨d.pos, e.pos⟩ = some text := by
  refine ⟨fun depth hdepth => ?_, fun _ => nested_of_exhausted, fun n nested => ?_, fun a b made => ?_,
    fun a d reached looks => splitAtByte_of_before (reached.looks looks),
    fun a b d e reached reached' looks looks' =>
      slice?_of_before (reached.looks looks) (reached'.looks looks')⟩
  · rw [runTo_of_le hdepth]
    have hparse : parseWith sharing source = outcome source (runTo sharing source (depthFor source)) := rfl
    rw [hparse]
    rcases hr : runTo sharing source (depthFor source) with (error | _) | ⟨root, s⟩
    · exact .inr ⟨error, rfl, rfl⟩
    · exact absurd hr (runTo_depthFor sharing source)
    · exact .inl ⟨root, s, rfl, rfl⟩
  · have deep := nested.lt
    simp only [Call.start, Call.place, Call.rank, Phrase.rank] at deep
    omega
  · refine ⟨made.lex, fun rounds => ?_⟩
    obtain ⟨before, hlt⟩ := made.past_of_rounds rounds
    exact before.pos_lt_iff.2 hlt

/-- A character of two bytes, which is kept as text. The parse of it wants depth with two levels and ends
with thirty; the call that keeps the character looks at both ends of it. -/
theorem parse_ends_wide :
    (∃ root s, runTo true ['é'] 30 = .ok (root, s) ∧ parseWith true ['é'] = .ok ⟨s.store.nodes, root⟩) ∧
    runTo true ['é'] 2 = .error .exhausted ∧ Call.Nested 2 (.start ['é']) ∧ 2 < 12 * (['é'].length + 1) ∧
    ∃ a d, Call.Reached ['é'] a ∧ a.Looks d ∧ d.pos = 2 ∧ d.rest = [] ∧
      a.place.pos = 0 ∧ a.rank < (Call.start ['é']).rank ∧
      (∃ front, splitAtByte ['é'] d.pos = some (front, d.rest)) ∧
      ∃ text, Span.slice? ['é'] ⟨a.place.pos, d.pos⟩ = some text := by
  obtain ⟨ends, wants, bounded, falls, cuts, slices⟩ := parse_ends true ['é']
  have parsed : (runTo true ['é'] 30).toOption.isSome = true := by decide +kernel
  have short : runTo true ['é'] 2 = .error .exhausted := rfl
  obtain ⟨s, seen, other⟩ : ∃ s, (⟨['é'], 0⟩ : Cursor).sight? = some s ∧ s.token = none := ⟨_, rfl, rfl⟩
  have made : (Call.start ['é']).Makes (.phrase (.expression [.semicolon]) ⟨['é'], 0⟩) :=
    .statement seen (by simp [other])
  have reached : Call.Reached ['é'] (.phrase (.expression [.semicolon]) ⟨['é'], 0⟩) := .single made
  have looks : Call.Looks (.phrase (.expression [.semicolon]) ⟨['é'], 0⟩) ⟨[], 2⟩ :=
    .character (d := ⟨['é'], 0⟩) .here rfl
  have lower := (Prod.lex_def.1 (falls _ _ made).1).resolve_left (Nat.lt_irrefl _)
  refine ⟨(ends 30 (by decide)).resolve_right ?_, short, wants 2 short, bounded 2 (wants 2 short), _, _,
    reached, looks, rfl, rfl, rfl, lower.2, cuts _ _ reached looks,
    slices _ _ _ _ reached reached .here looks (Nat.zero_le _)⟩
  rintro ⟨error, refused, -⟩
  rw [refused] at parsed
  cases parsed

end MarkupEditor
