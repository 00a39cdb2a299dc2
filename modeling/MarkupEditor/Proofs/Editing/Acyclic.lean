import MarkupEditor.Proofs.Editing.Areas
import MarkupEditor.Proofs.Editing.Histories
import MarkupEditor.Proofs.Editing.StyleWrites
import MarkupEditor.Proofs.Parser.Keyed

set_option autoImplicit false

namespace MarkupEditor

namespace Tree

/-- The writes from one tree to another: nodes are added over what is there, and nodes of the first tree are given
other kinds. -/
inductive Grows (t : Tree) : Tree → Prop where
  | refl : Grows t t
  | alloc {u : Tree} {kind : NodeKind NodeId} (h : Grows t u) (there : ∀ c ∈ kind.children, c.index < u.size)
    (keyed : kind.Keyed) : Grows t (u.alloc kind).2
  | setKind {u : Tree} {x : NodeId} {kind : NodeKind NodeId} (h : Grows t u) (old : x.index < t.size)
    (keyed : kind.Keyed) : Grows t (u.setKind x kind)

variable {t u : Tree} {x c f p attr value element object : NodeId} {properties : List NodeId} {span : Option Span}
  {spot : NodeId → Prop} {out : NodeId → NodeId → Prop}

namespace Grows

theorem size (h : Grows t u) : t.size ≤ u.size := by
  induction h with
  | refl => exact Nat.le_refl _
  | alloc _ _ _ ih =>
    rw [size_alloc]
    exact Nat.le_succ_of_le ih
  | setKind _ _ _ ih =>
    rw [size_setKind]
    exact ih

theorem keyed (h : Grows t u) (keyed : t.Keyed) : u.Keyed := by
  induction h with
  | refl => exact keyed
  | alloc _ _ new ih =>
    intro id node hn
    rw [get?_alloc] at hn
    split at hn
    · cases hn
      exact new
    · exact ih id node hn
  | @setKind u x kind _ _ new ih =>
    intro id node hn
    by_cases same : x = id
    · subst same
      rw [get?_setKind_self] at hn
      obtain ⟨_, -, rfl⟩ := Option.map_eq_some_iff.1 hn
      exact new
    · rw [get?_setKind_ne same] at hn
      exact ih id node hn

theorem earlier (h : Grows t u) (new : t.size ≤ f.index) (hc : c ∈ u.childIds f) : c.index < f.index := by
  induction h with
  | refl =>
    obtain ⟨node, hn, -⟩ := exists_get?_of_mem_childIds hc
    exact absurd (lt_size_of_get? hn) (Nat.not_lt_of_le new)
  | @alloc u kind _ there _ ih =>
    rw [childIds_alloc] at hc
    split at hc
    · rename_i last
      rw [last]
      exact there c hc
    · exact ih hc
  | @setKind u x kind h old _ ih =>
    have apart : f ≠ x := by
      rintro rfl
      exact Nat.not_lt_of_le new old
    rw [childIds_setKind u x kind (Nat.lt_of_lt_of_le old h.size), if_neg apart] at hc
    exact ih hc

theorem grounded (h : Grows t u) (old : ∀ id : NodeId, id.index < t.size → u.Grounded id) (id : NodeId) :
    u.Grounded id := by
  induction index : id.index using Nat.strong_induction_on generalizing id with
  | _ n ih =>
    by_cases before : id.index < t.size
    · exact old id before
    · refine .intro fun c hc => ih c.index ?_ c rfl
      rw [← index]
      exact h.earlier (Nat.le_of_not_lt before) hc

theorem leaf (h : Grows t u) (kind : NodeKind NodeId) (leaf : kind.children = []) (keyed : kind.Keyed) :
    Grows t (u.alloc kind).2 := by
  refine h.alloc ?_ keyed
  intro c hc
  rw [leaf] at hc
  cases hc

theorem over_last {last : NodeKind NodeId} (h : Grows t (u.alloc last).2) (kind : NodeKind NodeId)
    (one : kind.children = [(u.alloc last).1]) (keyed : kind.Keyed) : Grows t ((u.alloc last).2.alloc kind).2 := by
  refine h.alloc ?_ keyed
  intro c hc
  rw [one] at hc
  obtain rfl := List.mem_singleton.1 hc
  rw [size_alloc]
  exact Nat.lt_succ_self _

theorem setValue (h : Grows t u) (old : attr.index < t.size) (value : NodeId) : Grows t (u.setValue attr value) := by
  unfold Tree.setValue
  split
  · exact h.setKind old trivial
  · exact h

theorem setAttributes (h : Grows t u) (old : element.index < t.size) (attributes : List NodeId) :
    Grows t (u.setAttributes element attributes) := by
  unfold Tree.setAttributes
  split
  · exact h.setKind old trivial
  · exact h

theorem addAttribute (h : Grows t u) (old : element.index < t.size) (name : String) (there : value.index < u.size) :
    Grows t (u.addAttribute element name value) := by
  have grown : Grows t (u.alloc (.namedAttribute name (some value))).2 := by
    refine h.alloc ?_ trivial
    intro c hc
    obtain rfl := List.mem_singleton.1 hc
    exact there
  exact grown.setAttributes old _

theorem setAttribute {tag : String} {as xs : List NodeId} {closed : Bool} (stored : t.Stored)
    (hn : t.get? element = some (elementNode span tag as xs closed)) (name : String) (literal : Literal) :
    Grows t (t.setAttribute element name literal) := by
  have grown : Grows t (t.alloc (.literal literal none)).2 := leaf .refl _ rfl trivial
  rcases setAttribute_cases stored hn name literal with ⟨attr, _, _, -, hattr, set⟩ | ⟨-, set⟩ <;> rw [set]
  · exact grown.setValue (lt_size_of_get? hattr) _
  · refine grown.addAttribute (lt_size_of_get? hn) name ?_
    rw [size_alloc]
    exact Nat.lt_succ_self _

theorem setText (h : Grows t u) (old : x.index < t.size) (text : String) : Grows t (u.setText x text) := by
  unfold Tree.setText
  split
  · exact h.setKind old trivial
  · exact (h.leaf (.text text none) rfl trivial).setKind old trivial
  · exact h

theorem mark (h : Grows t u) (old : element.index < t.size) (number : Nat) : Grows t (u.mark element number) := by
  have removed : Grows t (u.removeMarkers element) := h.setAttributes old _
  have numbered := removed.leaf (.literal (.number (Binary64.ofNat number)) none) rfl trivial
  exact (numbered.over_last (.namedAttribute markerAttribute (some _)) rfl trivial).setAttributes old _

theorem markAll {elements : List NodeId} (h : Grows t u) (old : ∀ e ∈ elements, e.index < t.size) (number : Nat) :
    Grows t (u.markAll number elements) := by
  induction elements generalizing u number with
  | nil => exact h
  | cons e es ih =>
    exact ih (h.mark (old e List.mem_cons_self) number) (fun e' he' => old e' (List.mem_cons_of_mem e he')) (number + 1)

theorem allocDeclaration (h : Grows t u) (name value : String) : Grows t (u.allocDeclaration name value).2 := by
  refine (h.leaf (.literal (.string value) none) rfl trivial).over_last (.property (.ofName name) _ false) ?_ trivial
  rw [NodeKind.children, PropertyKey.children_of_name? (PropertyKey.name?_ofName name)]
  rfl

theorem allocDeclarations (h : Grows t u) (styles : StyleMap) : Grows t (u.allocDeclarations styles).2 := by
  induction styles generalizing u with
  | nil => exact h
  | cons entry styles ih => exact ih (h.allocDeclaration entry.1 entry.2)

theorem setDeclaration (h : Grows t u) (keyed : t.Keyed) (old : p.index < t.size) (value : String) :
    Grows t (u.setDeclaration p value) := by
  have grown := h.leaf (.literal (.string value) none) rfl trivial
  unfold Tree.setDeclaration
  dsimp only
  split
  · rename_i key _ shorthand hkind
    obtain ⟨node, hn, property⟩ := Option.map_eq_some_iff.1 hkind
    have before := grown.keyed keyed p node hn
    rw [property] at before
    refine grown.setKind old ?_
    cases shorthand with
    | false => trivial
    | true => exact before
  · exact grown

theorem writeProperty (h : Grows t u) (keyed : t.Keyed) (old : p.index < t.size) (styles : StyleMap) :
    Grows t (u.writeProperty styles p).2.2 := by
  unfold Tree.writeProperty
  split
  · split
    · exact h
    · dsimp only
      split
      · exact h
      · exact h.setDeclaration keyed old _
  · split
    · exact h
    · split
      · exact h
      · exact h.allocDeclaration _ _

theorem writeProperties (h : Grows t u) (keyed : t.Keyed) (old : ∀ p ∈ properties, p.index < t.size)
    (styles : StyleMap) : Grows t (u.writeProperties styles properties).2.2 := by
  induction properties generalizing u styles with
  | nil => exact h
  | cons p properties ih =>
    exact ih (h.writeProperty keyed (old p List.mem_cons_self) styles)
      (fun q hq => old q (List.mem_cons_of_mem p hq)) _

theorem allocStyle (h : Grows t u) : Grows t (u.allocStyle []).2.2 :=
  (h.leaf (.object []) rfl trivial).over_last (.expressionContainer (some _)) rfl trivial

end Grows

theorem lt_size_allocStyle (t : Tree) : (t.allocStyle []).2.1.index < (t.allocStyle []).2.2.size := by
  rw [allocStyle, size_alloc]
  exact Nat.lt_succ_self _

theorem EnsuresStyle.grows (way : t.EnsuresStyle element object u) (stored : t.Stored)
    (old : element.index < t.size) : Grows t u := by
  cases way with
  | there => exact .refl
  | added => exact Grows.refl.allocStyle.addAttribute old _ t.lt_size_allocStyle
  | replaced _ hattr => exact Grows.refl.allocStyle.setValue (lt_size_of_get? hattr) _
  | @spread _ container expression _ _ _ hcontainer =>
    have spread : Grows t (t.alloc (.spread expression)).2 := .alloc .refl (stored hcontainer) trivial
    exact (spread.over_last (.object [_]) rfl trivial).setKind (lt_size_of_get? hcontainer) trivial

/-- References are to stored nodes, all ways down come to an end, and the names of properties in short form are no
expressions. -/
structure Founded (t : Tree) : Prop where
  stored : t.Stored
  grounded : ∀ id, t.Grounded id
  keyed : t.Keyed

theorem Founded.step (h : t.Founded) (stored : u.Stored) (grows : Grows t u) (rewrites : Rewrites spot out t u) :
    u.Founded :=
  ⟨stored, grows.grounded fun id old => rewrites.grounded h.stored old (h.grounded id), grows.keyed h.keyed⟩

theorem Founded.setStyle {name : String} {style : Option String} (h : t.Founded) (isElement : t.isElement element = true)
    (written : (t.setStyle element name style).Stored) : (t.setStyle element name style).Founded := by
  obtain ⟨_, _, _, _, _, hn⟩ := exists_of_isElement isElement
  have old := lt_size_of_get? hn
  obtain ⟨object, u, ensure, way⟩ := ensuresStyle isElement
  have stored : u.Stored := h.stored.ensureStyle old ensure
  have grows : Grows t u := way.grows h.stored old
  obtain ⟨founded, properties, span, hobject⟩ :
      u.Founded ∧ ∃ properties span, u.get? object = some ⟨.object properties, span⟩ := by
    cases ensured_ensureStyle hn ensure with
    | there found => exact ⟨h, exists_of_styleObject? found⟩
    | new properties span hobject rewrites => exact ⟨h.step stored grows rewrites, properties, span, hobject⟩
  rw [setStyle_eq isElement, writeStyle_eq ensure hobject] at written ⊢
  have rewrites : Rewrites (fun _ => False) (u.OutOfStyle object (t.styled element name style)) u _ :=
    rewrites_writeObject stored hobject _
  refine founded.step written ?_ rewrites
  exact ((Grows.refl.writeProperties founded.keyed (stored hobject) _).allocDeclarations _).setKind
    (lt_size_of_get? hobject) trivial

/-- A request that is carried out keeps a tree founded. -/
theorem Founded.perform {m : Mutation} {node : NodeId} (h : t.Founded) (valid : m.validate t node = .ok ()) :
    (m.perform t node).Founded := by
  have old := Mutation.lt_size_of_valid valid
  have stored := h.stored.perform old m
  unfold Mutation.perform at stored ⊢
  split
  · exact h
  · rename_i noop
    rw [if_neg noop] at stored
    cases m with
    | setText text =>
      exact h.step stored (Grows.refl.setText old text) (rewrites_setText (Mutation.validate_setText.1 valid) text)
    | setStyle property value => exact h.setStyle (Mutation.validate_setStyle.1 valid) stored
    | setAttribute name value =>
      obtain ⟨_, _, _, _, _, hn⟩ := exists_of_isElement (Mutation.validate_setAttribute.1 valid)
      exact h.step stored (.setAttribute h.stored hn name value)
        (rewrites_setAttribute h.stored hn name value).1

theorem Tagging.founded (h : t.Tagging) (keyed : t.Keyed) (down : ∀ id, t.Grounded id) : t.tag.tree.Founded := by
  have old : ∀ e ∈ t.elements, e.index < t.size := fun e he => by
    obtain ⟨_, _, _, _, _, hn, -⟩ := h.all e he
    exact lt_size_of_get? hn
  have grows : Grows t t.tag.tree := Grows.refl.markAll old 0
  refine ⟨h.places.stored h.marked h.all h.stored, grows.grounded fun id before => ?_, grows.keyed keyed⟩
  exact (h.marked.unmarked_shape h.all h.stored (down id) before).1

end Tree

theorem parse_founded {source : String} {t : Tree} (parsed : parse source = .ok t) : t.Founded := by
  obtain ⟨descending, -, -⟩ := parseWith_reads parsed
  exact ⟨descending.stored, descending.grounded, parse_keyed parsed⟩

theorem tagMarkup_founded {source : String} {tagged : Tagged} (h : tagMarkup source = .ok tagged) :
    tagged.tree.Founded := by
  cases parsed : parse source with
  | error e =>
    rw [tagMarkup, parsed] at h
    cases h
  | ok t =>
    rw [tagMarkup, parsed] at h
    obtain rfl := Except.ok.inj h
    have founded := parse_founded parsed
    exact (parse_tagging parsed).founded founded.keyed founded.grounded

end MarkupEditor
