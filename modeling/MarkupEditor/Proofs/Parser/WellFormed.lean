import Mathlib.Logic.ExistsUnique
import MarkupEditor.Proofs.Markup.Grounded
import MarkupEditor.Proofs.Parser.Layout
import MarkupEditor.Proofs.Parser.Sharing

set_option autoImplicit false

open MarkupEditor.Parser

namespace MarkupEditor

namespace Tree

inductive Reaches (t : Tree) : NodeId → NodeId → Prop where
  | refl (id : NodeId) : Reaches t id id
  | step {id child other : NodeId} (h : child ∈ t.childIds id) (below : Reaches t child other) :
    Reaches t id other

/-- The node is the child at a place among those of a reachable node. -/
def Occupies (t : Tree) (id : NodeId) (slot : NodeId × Nat) : Prop :=
  t.Reaches t.root slot.1 ∧ (t.childIds slot.1)[slot.2]? = some id

/-- What the root reaches is a tree of stored nodes, each in a slot that admits it. -/
structure WellFormed (t : Tree) : Prop where
  stored : ∀ id, t.Reaches t.root id → ∀ child ∈ t.childIds id,
    child.index < t.size ∧ child.index < id.index
  linked : ∀ id, t.Reaches t.root id → id ≠ t.root → ∃! slot, t.Occupies id slot
  slots : ∀ id node, t.Reaches t.root id → t.get? id = some node →
    ∀ slot child, (slot, child) ∈ node.kind.slots →
      ∃ below, t.get? child = some below ∧ slot.admits below.kind = true

variable {t : Tree} {id : NodeId}

theorem Reaches.trans {a b c : NodeId} (h : t.Reaches a b) (h' : t.Reaches b c) : t.Reaches a c := by
  induction h with
  | refl id => exact h'
  | step hc _ ih => exact .step hc (ih h')

theorem Reaches.child {a b c : NodeId} (h : t.Reaches a b) (hc : c ∈ t.childIds b) : t.Reaches a c :=
  h.trans (.step hc (.refl c))

theorem Reaches.parent {a b : NodeId} (h : t.Reaches a b) (hne : b ≠ a) :
    ∃ slot : NodeId × Nat, t.Reaches a slot.1 ∧ (t.childIds slot.1)[slot.2]? = some b := by
  induction h with
  | refl id => exact absurd rfl hne
  | @step id child other hc below ih =>
    by_cases hother : other = child
    · subst hother
      obtain ⟨i, hi⟩ := List.mem_iff_getElem?.1 hc
      exact ⟨(id, i), .refl id, hi⟩
    · obtain ⟨slot, reach, hslot⟩ := ih hother
      exact ⟨slot, .step hc reach, hslot⟩

theorem Descending.child_lt {child : NodeId} (ht : t.Descending) (h : child ∈ t.childIds id) :
    child.index < id.index := by
  obtain ⟨node, hn, hc⟩ := exists_get?_of_mem_childIds h
  exact ht hn child hc

theorem Descending.child_stored {child : NodeId} (ht : t.Descending) (h : child ∈ t.childIds id) :
    child.index < t.size := by
  obtain ⟨node, hn, hc⟩ := exists_get?_of_mem_childIds h
  exact Nat.lt_trans (ht hn child hc) (lt_size_of_get? hn)

theorem Descending.reaches_le {a b : NodeId} (ht : t.Descending) (h : t.Reaches a b) :
    b.index ≤ a.index := by
  induction h with
  | refl id => exact Nat.le_refl _
  | step hc _ ih => exact Nat.le_trans ih (Nat.le_of_lt (ht.child_lt hc))

/-- The node has the span, which is not empty, and its children lie in it one after the other. -/
structure Spanned (t : Tree) (id : NodeId) (span : Span) : Prop where
  at_node : (t.get? id).bind (·.span) = some span
  filled : span.start < span.stop
  inside : Laid span.start ((t.childIds id).map t.shape) span.stop

section

variable (ht : t.Descending)

include ht

theorem spanned_of_shape {span : Span} {kind : NodeKind Shape} (h : t.shape id = .node (some span) kind)
    (filled : span.start < span.stop) (inside : Laid span.start kind.children span.stop) :
    t.Spanned id span := by
  cases hn : t.get? id with
  | none =>
    rw [shape, depthBound, shapeTo, hn] at h
    cases h
  | some node =>
    rw [shape_of_get? ht hn, Shape.node.injEq] at h
    obtain ⟨hspan, rfl⟩ := h
    refine ⟨by rwa [hn], filled, ?_⟩
    rw [childIds_of_get? hn, ← NodeKind.children_map]
    exact inside

variable {ids : List NodeId} {start stop : Nat}

theorem spanned_of_laid {i : Nat} {x : NodeId} (h : Laid start (ids.map t.shape) stop)
    (hx : ids[i]? = some x) : ∃ span, t.Spanned x span ∧ start ≤ span.start ∧ span.stop ≤ stop := by
  induction ids generalizing start i with
  | nil => cases hx
  | cons y ids ih =>
    rw [List.map_cons] at h
    generalize hy : t.shape y = sh at h
    cases h with
    | cons after filled inside more =>
      cases i with
      | zero =>
        cases hx
        exact ⟨_, spanned_of_shape ht hy filled inside, after, more.le⟩
      | succ i =>
        obtain ⟨span, hspan, hstart, hstop⟩ := ih more hx
        exact ⟨span, hspan, by omega, hstop⟩

theorem spans_apart {i j : Nat} {x y : NodeId} {span span' : Span}
    (h : Laid start (ids.map t.shape) stop) (hx : ids[i]? = some x) (hy : ids[j]? = some y)
    (hij : i < j) (hspan : t.Spanned x span) (hspan' : t.Spanned y span') : span.stop ≤ span'.start := by
  induction ids generalizing start i j with
  | nil => cases hx
  | cons z ids ih =>
    rw [List.map_cons] at h
    generalize hz : t.shape z = sh at h
    cases h with
    | cons after filled inside more =>
      obtain _ | j := j
      · omega
      cases i with
      | zero =>
        cases hx
        have hspan'' := (spanned_of_shape ht hz filled inside).at_node
        rw [hspan.at_node] at hspan''
        cases hspan''
        obtain ⟨span'', hy', hstart, _⟩ := spanned_of_laid ht more hy
        have := hy'.at_node
        rw [hspan'.at_node] at this
        cases this
        exact hstart
      | succ i => exact ih more hx hy (by omega)

theorem Spanned.reaches {a b : NodeId} {span : Span} (h : t.Spanned a span) (hb : t.Reaches a b) :
    ∃ span', t.Spanned b span' ∧ span.start ≤ span'.start ∧ span'.stop ≤ span.stop := by
  induction hb generalizing span with
  | refl id => exact ⟨span, h, Nat.le_refl _, Nat.le_refl _⟩
  | step hc _ ih =>
    obtain ⟨i, hi⟩ := List.mem_iff_getElem?.1 hc
    obtain ⟨span₁, h₁, hstart, hstop⟩ := spanned_of_laid ht h.inside hi
    obtain ⟨span₂, h₂, hstart', hstop'⟩ := ih h₁
    exact ⟨span₂, h₂, by omega, by omega⟩

theorem apart {i j : Nat} {x y b : NodeId} (h : Laid start (ids.map t.shape) stop)
    (hx : ids[i]? = some x) (hy : ids[j]? = some y) (hxb : t.Reaches x b) (hyb : t.Reaches y b) :
    i = j := by
  obtain ⟨span, hspan, _⟩ := spanned_of_laid ht h hx
  obtain ⟨span', hspan', _⟩ := spanned_of_laid ht h hy
  obtain ⟨s, hs, h₁, h₂⟩ := hspan.reaches ht hxb
  obtain ⟨s', hs', h₃, h₄⟩ := hspan'.reaches ht hyb
  have hss := hs.at_node
  rw [hs'.at_node] at hss
  cases hss
  have hfilled := hs.filled
  rcases Nat.lt_trichotomy i j with hij | hij | hij
  · have := spans_apart ht h hx hy hij hspan hspan'
    omega
  · exact hij
  · have := spans_apart ht h hy hx hij hspan' hspan
    omega

theorem not_reaches_of_child {p q x : NodeId} (hq : t.Reaches p q) (hx : x ∈ t.childIds q) : x ≠ p := by
  rintro rfl
  have := ht.child_lt hx
  have := ht.reaches_le hq
  omega

theorem slot_unique {r p q x : NodeId} {i j : Nat}
    (h : Laid start ((t.childIds r).map t.shape) stop) (hp : t.Reaches r p) (hq : t.Reaches r q)
    (hi : (t.childIds p)[i]? = some x) (hj : (t.childIds q)[j]? = some x) : p = q ∧ i = j := by
  have hxp := List.mem_of_getElem? hi
  have hxq := List.mem_of_getElem? hj
  induction hp generalizing start stop with
  | refl r =>
    cases hq with
    | refl => exact ⟨rfl, apart ht h hi hj (.refl x) (.refl x)⟩
    | step hc below =>
      obtain ⟨k, hk⟩ := List.mem_iff_getElem?.1 hc
      cases apart ht h hi hk (.refl x) (below.child hxq)
      rw [hi] at hk
      cases hk
      exact absurd rfl (not_reaches_of_child ht below hxq)
  | @step r child p hc below ih =>
    obtain ⟨k, hk⟩ := List.mem_iff_getElem?.1 hc
    cases hq with
    | refl =>
      cases apart ht h hj hk (.refl x) (below.child hxp)
      rw [hj] at hk
      cases hk
      exact absurd rfl (not_reaches_of_child ht below hxp)
    | step hc' below' =>
      obtain ⟨k', hk'⟩ := List.mem_iff_getElem?.1 hc'
      cases apart ht h hk hk' (below.child hxp) (below'.child hxq)
      rw [hk] at hk'
      cases hk'
      obtain ⟨span, hspan, _⟩ := spanned_of_laid ht h hk
      exact ih hspan.inside below' hi hxp

theorem linked_of_laid (h : Laid start ((t.childIds t.root).map t.shape) stop)
    (hid : t.Reaches t.root id) (hne : id ≠ t.root) : ∃! slot, t.Occupies id slot := by
  obtain ⟨slot, hslot⟩ := hid.parent hne
  refine ⟨slot, hslot, fun other hother => ?_⟩
  obtain ⟨hparent, hplace⟩ := slot_unique ht h hother.1 hslot.1 hother.2 hslot.2
  exact Prod.ext hparent hplace

theorem fits_of_reaches {r : NodeId}
    (h : ∀ node, t.get? r = some node → AllFit (node.kind.map t.shape).slots)
    (hid : t.Reaches r id) {node : Node} (hn : t.get? id = some node) :
    AllFit (node.kind.map t.shape).slots := by
  induction hid with
  | refl r => exact h node hn
  | @step r child id hc _ ih =>
    refine ih (fun below hbelow => ?_) hn
    obtain ⟨parent, hparent, hchild⟩ := exists_get?_of_mem_childIds hc
    rw [← NodeKind.slots_children, List.mem_map] at hchild
    obtain ⟨⟨slot, child'⟩, hslot, heq⟩ := hchild
    change child' = child at heq
    subst heq
    have fits := h parent hparent slot (t.shape child') (by
      rw [NodeKind.slots_map]
      exact List.mem_map.2 ⟨_, hslot, rfl⟩)
    rw [shape_of_get? ht hbelow] at fits
    cases fits with
    | node admits below => exact below

theorem admits_of_fits {node : Node} {slot : ChildSlot} {child : NodeId}
    (h : AllFit (node.kind.map t.shape).slots) (hslot : (slot, child) ∈ node.kind.slots) :
    ∃ below, t.get? child = some below ∧ slot.admits below.kind = true := by
  have fits := h slot (t.shape child) (by
    rw [NodeKind.slots_map]
    exact List.mem_map.2 ⟨_, hslot, rfl⟩)
  cases hn : t.get? child with
  | none =>
    rw [shape, depthBound, shapeTo, hn] at fits
    cases fits
  | some below =>
    rw [shape_of_get? ht hn] at fits
    cases fits with
    | node admits _ => exact ⟨below, rfl, by rwa [ChildSlot.admits_map] at admits⟩

end

end Tree

theorem parseWith_reads {sharing : Bool} {source : List Char} {t : Tree}
    (h : parseWith sharing source = .ok t) :
    t.Descending ∧ t.root.index < t.size ∧ ∃ body d,
      Reads .statements ⟨source, 0⟩ (.nodes body) d ∧ t.shape t.root = programOf source body := by
  have agrees := parseWith_agrees sharing source
  rcases program_nested source with ⟨error, hr⟩ | ⟨body, d, read, hr⟩ <;> rw [hr] at agrees
  · rw [agrees] at h
    cases h
  · obtain ⟨u, hu, hdesc, hroot, hshape⟩ := agrees
    rw [hu] at h
    cases h
    exact ⟨hdesc, hroot, body, d, read, hshape⟩

theorem parseWith_of_reads (sharing : Bool) {source : List Char} {body : List Shape} {d : Cursor}
    (h : Reads .statements ⟨source, 0⟩ (.nodes body) d) :
    ∃ t, parseWith sharing source = .ok t ∧ t.shape t.root = programOf source body := by
  have agrees := parseWith_agrees sharing source
  have gives : Settles (statements nested (depthFor source)) ⟨source, 0⟩ body d := h.gives _
  rcases gives with run | run <;> rcases program_nested source with ⟨error, hr⟩ | ⟨body', d', read, hr⟩
  · rw [program, run_bind_error run] at hr
    cases hr
  · rw [program, run_bind_error run] at hr
    cases hr
  · rw [program, run_bind_ok run, run_bind_ok (run_here _)] at hr
    cases hr
  · rw [hr] at agrees
    obtain ⟨t, ht, _, _, hshape⟩ := agrees
    have gives' : Settles (statements nested (depthFor source)) ⟨source, 0⟩ body' d' := read.gives _
    rcases gives' with run' | run' <;> rw [run] at run' <;> cases run'
    exact ⟨t, ht, hshape⟩

theorem exists_parse {source : String} {test : Tree → Bool} (h : (parse source).toOption.any test = true) :
    ∃ t, parse source = .ok t ∧ test t = true := by
  cases parsed : parse source with
  | error error =>
    rw [parsed] at h
    cases h
  | ok t =>
    rw [parsed] at h
    exact ⟨t, rfl, h⟩

theorem parseWith_wellFormed {sharing : Bool} {source : List Char} {t : Tree}
    (h : parseWith sharing source = .ok t) : t.WellFormed := by
  obtain ⟨ht, hroot, body, d, read, hshape⟩ := parseWith_reads h
  obtain ⟨node, hnode⟩ := Tree.get?_isSome_iff.2 hroot
  have hkind : node.kind.map t.shape = .program body := by
    rw [Tree.shape_of_get? ht hnode] at hshape
    exact (Shape.node.inj hshape).2
  refine ⟨fun id _ child hc => ⟨ht.child_stored hc, ht.child_lt hc⟩, fun id hid hne => ?_, ?_⟩
  · have laid : Laid 0 ((t.childIds t.root).map t.shape) d.pos := by
      rw [Tree.childIds_of_get? hnode, ← NodeKind.children_map, hkind]
      exact read.laid trivial
    exact Tree.linked_of_laid ht laid hid hne
  · intro id below hid hn slot child hslot
    refine Tree.admits_of_fits ht (Tree.fits_of_reaches ht (fun root hr => ?_) hid hn) hslot
    rw [hnode] at hr
    cases hr
    rw [hkind]
    exact AllFit.list read.fits

/-- The tree of a source is well formed, however many attempts were taken back on the way. -/
theorem parse_wellFormed {source : String} {t : Tree} (h : parse source = .ok t) : t.WellFormed :=
  parseWith_wellFormed h

/-- Two attempts of this source are taken back, one of them over markup that is met again. -/
theorem wellFormed_of_retaken :
    ∃ t, parse "<a b=\x7b[<b/>] + 1\x7d>\x7bx.y\x7d</a>" = .ok t ∧ t.WellFormed := by
  have accepted : (parse "<a b=\x7b[<b/>] + 1\x7d>\x7bx.y\x7d</a>").isOk = true := by decide +kernel
  cases h : parse "<a b=\x7b[<b/>] + 1\x7d>\x7bx.y\x7d</a>" with
  | ok t => exact ⟨t, rfl, parse_wellFormed h⟩
  | error e =>
    rw [h] at accepted
    cases accepted

end MarkupEditor
