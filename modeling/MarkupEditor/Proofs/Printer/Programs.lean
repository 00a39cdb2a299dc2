import MarkupEditor.Proofs.Parser.WellFormed
import MarkupEditor.Proofs.Printer.Children

set_option autoImplicit false

namespace MarkupEditor

open Text Lexer MarkupEditor.Parser

theorem dropLastSemicolon_append (code : List Char) : dropLastSemicolon (code ++ [';', '\n']) = code := by
  have line : isBlank '\n' = true := by decide
  have semicolon : isBlank ';' = false := by decide
  have trimmed : trimEnd (code ++ [';', '\n']) = code ++ [';'] := by
    simp [trimEnd, line, semicolon]
  simp [dropLastSemicolon, trimmed]

theorem flatMap_separate (separator : List Char) (text : List Char) (texts : List (List Char)) :
    ((text :: texts).flatMap fun t => t ++ separator) =
      separate separator (text :: texts) ++ separator := by
  induction texts generalizing text with
  | nil => simp [separate]
  | cons other texts ih =>
    have hcons : separate separator (text :: other :: texts) =
        text ++ separator ++ separate separator (other :: texts) := rfl
    rw [List.flatMap_cons, ih, hcons, List.append_assoc (text ++ separator)]

namespace Printer

variable {spellings : Bool} {c d : Cursor}

inductive RereadStatement (spellings : Bool) : Shape → Prop where
  | mk {span : Option Span} {e : Shape} (h : Reread spellings [.semicolon] e) :
    RereadStatement spellings (.node span (.expressionStatement e))

theorem statement_of_text {e : Shape} {gap : List Char} (h : RereadStatement spellings e)
    (blank : Blank gap) (quiet : Quiet d.rest) (ended : d.endsAt [.semicolon] = true)
    (across : c.Over (gap ++ e.print) d) {others : List Shape} {f : Cursor}
    (more : Reads .statements d (.nodes others) f) :
    ∃ e', Reads .statements c (.nodes (e' :: others)) f ∧ Same spellings e' e := by
  cases h with
  | @mk span x h =>
    rw [Shape.print_statement] at across
    obtain ⟨going, x', read, same⟩ := h blank quiet ended across
    cases seen : c.sight? with
    | none => simp [Cursor.endsAt, seen] at going
    | some s =>
      have hne : s.token ≠ some (.punctuator .semicolon) := by
        intro token
        rw [Cursor.endsAt_of_mark (Cursor.mark?_eq_some.2 ⟨seen, token⟩) List.mem_cons_self] at going
        cases going
      refine ⟨_, .statement seen hne read more, .node ?_⟩
      simp only [NodeKind.map, NodeKind.erase, same]

theorem reread_statements (hend : d.rest = []) (e : Shape) (es : List Shape)
    (h : ∀ x ∈ e :: es, RereadStatement spellings x) {gap : List Char} (blank : Blank gap)
    (across : c.Over (gap ++ separate [';', '\n'] ((e :: es).map Shape.print)) d) :
    ∃ found, Reads .statements c (.nodes found) d ∧
      found.map (Shape.erase spellings) = (e :: es).map (Shape.erase spellings) := by
  induction es generalizing e gap c with
  | nil =>
    have nothing : d.sight? = none := by rw [Cursor.sight?, hend]; rfl
    have ended : d.endsAt [.semicolon] = true := by rw [Cursor.endsAt, nothing]
    obtain ⟨e', read, same⟩ := statement_of_text (h e List.mem_cons_self) blank
      (hend ▸ Quiet.nil) ended across (.statementsEnd nothing)
    exact ⟨[e'], read, by rw [List.map_singleton, List.map_singleton, same]⟩
  | cons e₂ es ih =>
    simp only [List.map_cons, separate, List.append_assoc] at across
    rw [← List.append_assoc] at across
    obtain ⟨c₁, first, across⟩ := across.split
    change c₁.Over ([';'] ++ (['\n'] ++ _)) d at across
    obtain ⟨c₂, mark, others⟩ := across.split
    obtain ⟨hquiet, s, semicolon, rfl⟩ := Cursor.closing_of_text .semicolon (by decide) mark
    obtain ⟨found, more, agree⟩ :=
      ih e₂ (fun x hx => h x (List.mem_cons_of_mem e hx)) (.one (by decide)) others
    have ended := Cursor.endsAt_of_mark semicolon (List.mem_singleton.2 rfl)
    obtain ⟨e', read, same⟩ := statement_of_text (h e List.mem_cons_self) blank hquiet ended first
      (.semicolon semicolon more)
    refine ⟨e' :: found, read, ?_⟩
    rw [List.map_cons, List.map_cons, agree, same]

/-- If the statements of a program are read again from what is printed for a tree, the code of the tree
is accepted, and its tree agrees with the program. -/
theorem parse_code_of_print {t : Tree} {span : Option Span} {body : List Shape}
    (printed : t.printProgram = (Shape.node span (.program body)).print)
    (h : ∀ e ∈ body, RereadStatement spellings e) :
    ∃ u, parse t.code = .ok u ∧
      (u.shape u.root).erase spellings = (Shape.node span (.program body)).erase spellings := by
  have hread : ∃ found d, Reads .statements ⟨t.code.toList, 0⟩ (.nodes found) d ∧
      found.map (Shape.erase spellings) = body.map (Shape.erase spellings) := by
    have hcode : t.code.toList = dropLastSemicolon (body.flatMap fun e => e.print ++ [';', '\n']) := by
      rw [Tree.code, String.toList_ofList, printed, Shape.print_program]
    cases body with
    | nil =>
      rw [hcode]
      exact ⟨[], _, .statementsEnd rfl, rfl⟩
    | cons e es =>
      have hflat := flatMap_separate [';', '\n'] e.print (es.map Shape.print)
      rw [← List.map_cons, List.flatMap_map] at hflat
      rw [hcode, hflat, dropLastSemicolon_append]
      have across : Cursor.Over ⟨separate [';', '\n'] ((e :: es).map Shape.print), 0⟩
          ([] ++ separate [';', '\n'] ((e :: es).map Shape.print))
          ⟨[], 0 + byteLength (separate [';', '\n'] ((e :: es).map Shape.print))⟩ :=
        ⟨(List.append_nil _).symm, rfl⟩
      obtain ⟨found, read, agree⟩ := reread_statements rfl e es h .nil across
      exact ⟨found, _, read, agree⟩
  obtain ⟨found, d, read, agree⟩ := hread
  obtain ⟨u, hu, hshape⟩ := parseWith_of_reads true read
  refine ⟨u, hu, ?_⟩
  rw [hshape, programOf, Shape.erase_node, Shape.erase_node]
  simp only [NodeKind.map, NodeKind.erase, agree]

/-- The code of a program whose statements are read again is accepted, and its tree agrees with the
one it is the code of. -/
theorem parse_code_of_reread {t : Tree} {span : Option Span} {body : List Shape}
    (hroot : t.shape t.root = .node span (.program body))
    (h : ∀ e ∈ body, RereadStatement spellings e) :
    ∃ u, parse t.code = .ok u ∧
      (u.shape u.root).erase spellings = (t.shape t.root).erase spellings := by
  rw [hroot]
  exact parse_code_of_print (congrArg Shape.print hroot) h

end Printer

end MarkupEditor
