import MarkupEditor.Proofs.Parser.Slices
import MarkupEditor.Proofs.Printer.Recurrences

set_option autoImplicit false

namespace MarkupEditor

open Text MarkupEditor.Parser

theorem Parser.Reads.tag_alone {c d : Cursor} {text : List Char} {e : Shape} (read : Reads .tag c (.node e) d)
    (across : c.Over text d) (settled : e.Settled) :
    ∃ e', e = e'.shift c.pos ∧ Reads .tag ⟨text, 0⟩ (.node e') ⟨[], byteLength text⟩ := by
  have part : c = (⟨text, 0⟩ : Cursor).embed c.pos d.rest := by
    cases c
    simp only [Cursor.embed, Nat.zero_add, Cursor.mk.injEq, and_true]
    exact across.1
  obtain ⟨_, d', stop, shifted, read', -⟩ := read.recurs part trivial trivial
    (⟨[], rfl⟩ : d.Spares d.rest) (List.forall_mem_singleton.2 settled)
  have ends : d' = ⟨[], byteLength text⟩ := by
    have hrest : d'.rest ++ d.rest = [] ++ d.rest := (congrArg Cursor.rest stop).symm
    have hpos : d'.pos + c.pos = byteLength text + c.pos := by
      rw [Nat.add_comm (byteLength text), ← across.2]
      exact (congrArg Cursor.pos stop).symm
    cases d'
    exact congrArg₂ Cursor.mk (List.append_cancel_right hrest) (Nat.add_right_cancel hpos)
  cases shifted with
  | node e' => exact ⟨e', rfl, ends ▸ read'⟩

theorem Parser.Reads.statements_of_tag {text : List Char} {kind : NodeKind Shape} {stop : Nat}
    (read : Reads .tag ⟨text, 0⟩ (.node (shapeAt kind 0 stop)) ⟨[], byteLength text⟩) :
    Reads .statements ⟨text, 0⟩
      (.nodes [shapeAt (.expressionStatement (shapeAt kind 0 stop)) 0 (byteLength text)])
      ⟨[], byteLength text⟩ := by
  obtain ⟨s, kind', seen, same, -⟩ := read.tag_span
  obtain ⟨t, less⟩ := Printer.less_of_markup (.markup read)
  obtain ⟨seen', token⟩ := Cursor.mark?_eq_some.1 less
  cases seen.symm.trans seen'
  have start : s.start.pos = 0 := by
    simp only [shapeAt, Shape.node.injEq, Option.some.injEq, Span.mk.injEq] at same
    exact same.1.1.symm
  have expression : Reads (.expression [.semicolon]) ⟨text, 0⟩ (.node (shapeAt kind 0 stop))
      ⟨[], byteLength text⟩ :=
    .structuredExpression (.structuredMarkup less (.markup read)) rfl
  have statement := Reads.statement seen (by rw [token]; decide) expression (.statementsEnd rfl)
  rwa [start] at statement

namespace Tree

variable {t : Tree} {id : NodeId}

theorem settled_of_reaches (ht : t.Descending) {source : Cursor} (h : Sourced source (t.shape id))
    (settled : ∀ x node, t.Reaches id x → t.get? x = some node → node.kind.settled = true) :
    (t.shape id).Settled := by
  generalize hid : t.shape id = shape at h
  induction h generalizing id with
  | node place across spelled below ih =>
    obtain ⟨node, hn, -, rfl⟩ := get?_of_shape ht hid
    have here := settled id node (.refl id) hn
    refine .node ((NodeKind.settled_map _ _).trans here) fun e he => ?_
    obtain ⟨child, hc, rfl⟩ := List.mem_map.1 (NodeKind.children_map t.shape node.kind ▸ he)
    rw [← childIds_of_get? hn] at hc
    exact ih _ he (fun x node hx => settled x node (.step hc hx)) rfl

end Tree

/-- The slice of an element or a fragment is accepted and is one statement, which is the element with its
spans moved to the start of the slice. -/
theorem parse_slice {source : String} {t : Tree} (h : parse source = .ok t) {id : NodeId}
    (reached : t.Reaches t.root id) {node : Node} (hn : t.get? id = some node)
    (markup : node.kind.isMarkup = true)
    (settled : ∀ x inner, t.Reaches id x → t.get? x = some inner → inner.kind.settled = true) :
    ∃ span text u e, node.span = some span ∧ span.slice? source.toList = some text ∧
      parse (String.ofList text) = .ok u ∧
      u.shape u.root = programOf text [shapeAt (.expressionStatement e) 0 (byteLength text)] ∧
      t.shape id = e.shift span.start := by
  obtain ⟨ht, -, body, d, read, hshape⟩ := parseWith_reads h
  have sourced := Tree.sourced_of_reaches ht (hshape ▸ sourced_program read) reached
  have quiet := Tree.settled_of_reaches ht sourced settled
  generalize hid : t.shape id = shape at sourced quiet
  cases sourced with
  | @node c d text kind place across spelled below =>
    obtain ⟨node', hn', hspan, rfl⟩ := Tree.get?_of_shape ht hid
    cases hn.symm.trans hn'
    obtain ⟨front, place⟩ := place
    have tag : Reads .tag c (.node (shapeAt (node.kind.map t.shape) c.pos d.pos)) d := by
      generalize node.kind = kind at markup spelled
      cases kind with
      | element | fragment => exact spelled
      | _ => cases markup
    obtain ⟨e, same, alone⟩ := tag.tag_alone across quiet
    obtain ⟨s, kind', seen, rfl, -⟩ := alone.tag_span
    have start : s.start.pos = 0 := by
      rw [Shape.shift_node, Shape.node.injEq, Option.map_some, Option.some.injEq] at same
      have first : c.pos = s.start.pos + c.pos := congrArg Span.start same.1
      omega
    rw [start] at same alone
    obtain ⟨u, parsed, hu⟩ := parseWith_of_reads true alone.statements_of_tag
    refine ⟨_, text, u, _, hspan, Cursor.Over.slice? place across, ?_, hu, same⟩
    rw [parse, String.toList_ofList]
    exact parsed

/-- An element that a failing attempt has read before, with kept texts around a comparison and markup. -/
theorem parse_slice_kept : ∃ t node, parse "[<p a={(b) < c}>{x + <q/>}</p>] + 1" = .ok t ∧
    t.Reaches t.root ⟨6⟩ ∧ t.get? ⟨6⟩ = some node ∧ node.kind.isMarkup = true ∧
    (∀ x inner, t.Reaches ⟨6⟩ x → t.get? x = some inner → inner.kind.settled = true) ∧
    ∃ span text u e, node.span = some span ∧
      span.slice? "[<p a={(b) < c}>{x + <q/>}</p>] + 1".toList = some text ∧
      parse (String.ofList text) = .ok u ∧
      u.shape u.root = programOf text [shapeAt (.expressionStatement e) 0 (byteLength text)] ∧
      t.shape ⟨6⟩ = e.shift span.start := by
  have told : (parse "[<p a={(b) < c}>{x + <q/>}</p>] + 1").toOption.any (fun t =>
      decide (⟨6⟩ ∈ t.preorder t.root) && (t.get? ⟨6⟩).any (·.kind.isMarkup) &&
        (t.preorder ⟨6⟩).all fun x => (t.get? x).all (·.kind.settled)) = true := by
    decide +kernel
  obtain ⟨t, parsed, told⟩ := exists_parse told
  obtain ⟨told, calm⟩ := Bool.and_eq_true_iff.1 told
  obtain ⟨found, markup⟩ := Bool.and_eq_true_iff.1 told
  obtain ⟨node, hn, markup⟩ := (Option.any_eq_true _ _).1 markup
  have ht := (parseWith_reads parsed).1
  have reached := (ht.grounded t.root).mem_preorder.1 (of_decide_eq_true found)
  have settled : ∀ x inner, t.Reaches ⟨6⟩ x → t.get? x = some inner → inner.kind.settled = true := by
    intro x inner hx hn
    have here := List.all_eq_true.1 calm x ((ht.grounded ⟨6⟩).mem_preorder.2 hx)
    rwa [hn] at here
  exact ⟨t, node, parsed, reached, hn, markup, settled, parse_slice parsed reached hn markup settled⟩

theorem slice_refused {source : String} {id : NodeId} {span : Span}
    (told : (parse source).toOption.any (fun t => decide (id ∈ t.preorder t.root) &&
      (t.get? id).any (fun node => node.kind.isMarkup && decide (node.span = some span)) &&
        (span.slice? source.toList).any fun text => !(parse (String.ofList text)).isOk) = true) :
    ∃ t node text error, parse source = .ok t ∧ t.Reaches t.root id ∧ t.get? id = some node ∧
      node.kind.isMarkup = true ∧ node.span = some span ∧ span.slice? source.toList = some text ∧
      parse (String.ofList text) = .error error := by
  obtain ⟨t, parsed, told⟩ := exists_parse told
  obtain ⟨told, refused⟩ := Bool.and_eq_true_iff.1 told
  obtain ⟨found, markup⟩ := Bool.and_eq_true_iff.1 told
  obtain ⟨node, hn, markup⟩ := (Option.any_eq_true _ _).1 markup
  obtain ⟨markup, here⟩ := Bool.and_eq_true_iff.1 markup
  obtain ⟨text, slice, refused⟩ := (Option.any_eq_true _ _).1 refused
  have reached := ((parseWith_reads parsed).1.grounded t.root).mem_preorder.1 (of_decide_eq_true found)
  cases outcome : parse (String.ofList text) with
  | ok u =>
    rw [outcome] at refused
    cases refused
  | error error =>
    exact ⟨t, node, text, error, parsed, reached, hn, markup, of_decide_eq_true here, slice, outcome⟩

/-- An element with a kept text that leaves a bracket open, before the rest of an array. -/
def openMarkup : String :=
  "<p>\x7b[\x7b a: (b \x7d, ' <q r=\"', <z t='\"/></p> ; '/> ] + 1"

/-- The attempt at the array reads past the end of the element, where the quote of an attribute is closed. In
the slice it is not, so the slice is refused. -/
theorem parse_slice_open : ∃ t node text error, parse openMarkup = .ok t ∧ t.Reaches t.root ⟨13⟩ ∧
    t.get? ⟨13⟩ = some node ∧ node.kind.isMarkup = true ∧ node.span = some ⟨0, 40⟩ ∧
    Span.slice? openMarkup.toList ⟨0, 40⟩ = some text ∧ parse (String.ofList text) = .error error :=
  slice_refused (by decide +kernel)

/-- An element with a kept text that closes its brackets and spreads what an attempt takes for a tag. -/
def spreadTag : String :=
  "<p>\x7b[...<q r=\"\n]\x7d</p> ; \"/>"

/-- After an ellipsis the attempt begins a tag, and the step through the text does not. The quote of its
attribute is closed past the end of the element. -/
theorem parse_slice_spread : ∃ t node text error, parse spreadTag = .ok t ∧ t.Reaches t.root ⟨5⟩ ∧
    t.get? ⟨5⟩ = some node ∧ node.kind.isMarkup = true ∧ node.span = some ⟨0, 21⟩ ∧
    Span.slice? spreadTag.toList ⟨0, 21⟩ = some text ∧ parse (String.ofList text) = .error error :=
  slice_refused (by decide +kernel)

end MarkupEditor
