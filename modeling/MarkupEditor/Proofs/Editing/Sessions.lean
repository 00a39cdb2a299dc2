import MarkupEditor.Editing.Session
import MarkupEditor.Proofs.Editing.Styling

set_option autoImplicit false

namespace MarkupEditor

open MarkupEditor.Parser

theorem rereadsKept_edited : Printer.RereadsKept .edited :=
  fun _ _ _ _ keeps => keeps.elim

namespace Tree

def isOpaque (t : Tree) (id : NodeId) : Bool :=
  match t.kind? id with
  | some (.opaqueText _) => true
  | _ => false

/-- No node below the root keeps a text. -/
def OpaqueFree (t : Tree) : Prop :=
  ∀ id, t.Reaches t.root id → t.isOpaque id = false

variable {t u : Tree}

theorem opaqueFree_iff (h : t.Grounded t.root) :
    t.OpaqueFree ↔ ∀ id ∈ t.preorder t.root, t.isOpaque id = false :=
  forall_congr' fun _ => imp_congr_left h.mem_preorder.symm

theorem setText_root (t : Tree) (id : NodeId) (text : String) : (t.setText id text).root = t.root := by
  unfold setText
  split <;> rfl

/-- Tagging the tree of a source without such nodes gives one that is legible, and its elements with it. -/
theorem OpaqueFree.tag_legible {source : String} (h : t.OpaqueFree) (parsed : parse source = .ok t) :
    t.tag.tree.Legible .edited .root t.tag.tree.root ∧
      ∀ e ∈ t.elements, t.tag.tree.Legible .edited .markup e := by
  obtain ⟨ht, -⟩ := parseWith_reads parsed
  refine Tree.tag_legible ?_ ht.stored (parseWith_wellFormed parsed).nodup_elements
  refine (parse_legible parsed).change fun x node hx hn site takes => ?_
  refine takes.mono (fun name _ held => held) fun parts hparts _ => ?_
  have plain := h x hx
  rw [isOpaque, kind?_of_get? hn] at plain
  obtain ⟨kind, span⟩ := node
  cases kind with
  | opaqueText parts => cases plain
  | _ => cases hparts

theorem Legible.tagMarkup_code (h : t.Legible .edited .root t.root) :
    ∃ tagged, tagMarkup t.code = .ok tagged ∧
      tagged.tree.elements.map tagged.tree.summary = t.elements.map t.summary := by
  obtain ⟨u, parsed, same⟩ := h.reparses rereadsKept_edited
  obtain ⟨ht, hroot, -⟩ := parseWith_reads parsed
  have distinct := (parseWith_wellFormed parsed).nodup_elements
  have numbers : u.tag.Numbers u := Tree.tag_numbers (ht.grounded u.root) hroot ht.stored distinct
  refine ⟨u.tag, tagMarkup_of_ok parsed, ?_⟩
  have legible : u.tag.tree.Legible (.marked KeptInSource) .root u.tag.tree.root :=
    (Tree.tag_legible (parse_legible parsed) ht.stored distinct).1
  have reading : (u.tag.tree.shape u.tag.tree.root).reading = (t.shape t.root).reading := by
    calc (u.tag.tree.shape u.tag.tree.root).reading
      _ = (u.tag.tree.shape u.tag.tree.root).unmarked.reading := (Shape.reading_unmarked _).symm
      _ = (u.shape u.root).unmarked.reading := by rw [numbers.keeps]
      _ = ((u.shape u.root).erase true).reading := by rw [Shape.reading_unmarked, Shape.reading_erase]
      _ = (t.shape t.root).respelled.text.reading := by rw [same, Shape.reading_erase]
      _ = (t.shape t.root).reading := h.shape.readsAlike Manner.marked_marksNumbers
  rw [legible.grounded.elements_summary legible.plainMarkers, reading,
    h.grounded.elements_summary h.plainMarkers]

end Tree

/-- A pick, or a request to change the text or a style of the picked element. -/
inductive Edit where
  | pick (marker : String)
  | setText (text : String)
  | setStyle (property : String) (value : Option String)

namespace Session

def edit (s : Session) : Edit → Session
  | .pick marker => s.pick marker
  | .setText text => (s.apply (.setText text)).session
  | .setStyle property value => (s.apply (.setStyle property value)).session

def editAll (s : Session) (edits : List Edit) : Session :=
  edits.foldl edit s

/-- A session whose tree can be committed: it is legible, and so is all that can be picked. The markup
is the one that the tree was made from, or the code of the tree. -/
structure Editable (s : Session) : Prop where
  legible : s.tree.Legible .edited .root s.tree.root
  elements : ∀ e ∈ s.mapping.nodes, s.tree.Legible .edited .markup e
  markup : s.markup = s.tree.code ∨ ∃ tagged, tagMarkup s.markup = .ok tagged ∧ tagged.tree = s.tree

variable {s : Session}

theorem editable_load {source : String} {t : Tree} (parsed : parse source = .ok t) (free : t.OpaqueFree)
    (loaded : load source = .ok s) : s.Editable := by
  have htagged := tagMarkup_of_ok parsed
  rw [load, htagged] at loaded
  cases loaded
  obtain ⟨legible, elements⟩ := free.tag_legible parsed
  exact ⟨legible, elements, .inr ⟨t.tag, htagged, rfl⟩⟩

theorem Editable.commit {u : Tree} (h : s.Editable) (root : u.root = s.tree.root)
    (legible : ∀ site id, s.tree.Legible .edited site id → u.Legible .edited site id) : (s.commit u).Editable where
  legible := by
    change u.Legible .edited .root u.root
    rw [root]
    exact legible .root _ h.legible
  elements e he := legible .markup e (h.elements e he)
  markup := .inl rfl

theorem apply_cases (s : Session) (m : Mutation) :
    (s.apply m).session = s ∨ ∃ node ∈ s.mapping.nodes, m.isNoop = false ∧
      (s.apply m).session = s.commit (m.perform s.tree node) := by
  unfold apply
  cases hnode : s.pickedNode? with
  | none => exact .inl rfl
  | some node =>
    obtain ⟨identifier, -, hget⟩ := Option.bind_eq_some_iff.1 hnode
    have hmem : node ∈ s.mapping.nodes := List.mem_of_getElem? hget
    cases hnoop : m.isNoop with
    | true => exact .inl rfl
    | false =>
      cases happly : m.apply s.tree node with
      | error e => exact .inl (by simp [happly])
      | ok u =>
        have hu : u = m.perform s.tree node := by
          rw [Mutation.apply] at happly
          cases hvalid : m.validate s.tree node with
          | error e => rw [hvalid] at happly; cases happly
          | ok => rw [hvalid] at happly; exact (Except.ok.inj happly).symm
        exact .inr ⟨node, hmem, rfl, by simp [happly, hu]⟩

theorem Editable.edit (h : s.Editable) (e : Edit) : (s.edit e).Editable := by
  cases e with
  | pick marker => exact ⟨h.legible, h.elements, h.markup⟩
  | setText text =>
    obtain unchanged | ⟨node, -, -, committed⟩ := s.apply_cases (.setText text)
    · rwa [Session.edit, unchanged]
    · rw [Session.edit, committed]
      exact h.commit (s.tree.setText_root node text) fun site id hl => hl.setText
  | setStyle property value =>
    obtain unchanged | ⟨node, hnode, noop, committed⟩ := s.apply_cases (.setStyle property value)
    · rwa [Session.edit, unchanged]
    · rw [Session.edit, committed, Mutation.perform, noop]
      obtain ⟨root, legible⟩ := Tree.setStyle_legible (h.elements node hnode) property value
      exact h.commit root legible

theorem Editable.editAll (h : s.Editable) (edits : List Edit) : (s.editAll edits).Editable := by
  induction edits generalizing s with
  | nil => exact h
  | cons e edits ih => exact ih (h.edit e)

theorem Editable.tagMarkup_markup (h : s.Editable) :
    ∃ tagged, tagMarkup s.markup = .ok tagged ∧
      tagged.tree.elements.map tagged.tree.summary = s.tree.elements.map s.tree.summary := by
  obtain committed | ⟨tagged, htagged, same⟩ := h.markup
  · rw [committed]
    exact h.legible.tagMarkup_code
  · exact ⟨tagged, htagged, by rw [same]⟩

end Session

/-- Whatever texts and styles are written to a session of a markup without texts that are kept, the committed markup is
accepted, and its elements are those of the session's tree, with the same names, texts and styles. -/
theorem editAll_tagMarkup {source : String} {t : Tree} {s : Session} (parsed : parse source = .ok t)
    (free : t.OpaqueFree) (loaded : Session.load source = .ok s) (edits : List Edit) :
    ∃ tagged, tagMarkup (s.editAll edits).markup = .ok tagged ∧
      tagged.tree.elements.map tagged.tree.summary =
        (s.editAll edits).tree.elements.map (s.editAll edits).tree.summary :=
  ((Session.editable_load parsed free loaded).editAll edits).tagMarkup_markup

/-- A style that is spread into an object, and texts and styles that try to leave their places. -/
def spreadMarkup : String :=
  "<a style=\x7bs\x7d>one<b/></a>"

def leavingEdits : List Edit :=
  [.pick "1", .setText "</b>\x7b", .pick "0", .setStyle "a\"b" (some "\"\x7d\x7d</a>"),
    .setStyle "color" none, .setText ""]

theorem editAll_tagMarkup_leaving :
    ∃ t s tagged, parse spreadMarkup = .ok t ∧ t.OpaqueFree ∧ Session.load spreadMarkup = .ok s ∧
      tagMarkup (s.editAll leavingEdits).markup = .ok tagged ∧
      tagged.tree.elements.map tagged.tree.summary =
        (s.editAll leavingEdits).tree.elements.map (s.editAll leavingEdits).tree.summary := by
  have plain : (parse spreadMarkup).toOption.any
      (fun t => (t.preorder t.root).all fun id => !t.isOpaque id) = true := by decide +kernel
  cases parsed : parse spreadMarkup with
  | ok t =>
    have loaded : Session.load spreadMarkup = .ok ⟨.ofTagged 0 spreadMarkup t.tag, none, false⟩ := by
      rw [Session.load, tagMarkup, parsed]
      rfl
    have free : t.OpaqueFree := by
      refine (Tree.opaqueFree_iff (parse_legible parsed).grounded).2 fun id hid => ?_
      rw [parsed] at plain
      simpa using List.all_eq_true.1 plain id hid
    obtain ⟨tagged, htagged, same⟩ := editAll_tagMarkup parsed free loaded leavingEdits
    exact ⟨t, _, tagged, rfl, free, loaded, htagged, same⟩
  | error e =>
    rw [parsed] at plain
    cases plain

end MarkupEditor
