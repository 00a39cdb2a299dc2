import MarkupEditor.Proofs.Markup.Shapes
import MarkupEditor.Proofs.Parser.Progress

set_option autoImplicit false

namespace MarkupEditor.Parser

variable {source c d : Cursor} {a b : Arena}

theorem Reads.tag_moved {s s' : Sight} {x : Answer} (seen : c.sight? = some s)
    (seen' : d.sight? = some s') (h : s.start = s'.start) {e : Cursor} (read : Reads .tag c x e) :
    Reads .tag d x e := by
  have hs := Cursor.sight?_start seen
  rw [h, Cursor.sight?_start seen'] at hs
  simp only [Option.some.injEq, Sight.mk.injEq, true_and] at hs
  obtain ⟨htoken, _, hstop⟩ := hs
  have move {t : Sight} (less : c.mark? .less = some t) :
      d.mark? .less = some s' ∧ s'.start = t.start ∧ s'.stop = t.stop := by
    obtain ⟨ht, htok⟩ := Cursor.mark?_eq_some.1 less
    rw [seen, Option.some.injEq] at ht
    subst ht
    exact ⟨Cursor.mark?_eq_some.2 ⟨seen', htoken ▸ htok⟩, h.symm, hstop⟩
  cases read with
  | fragment less greater read close =>
    obtain ⟨less, start, stop⟩ := move less
    rw [← stop] at greater
    exact start ▸ .fragment less greater read close
  | selfClosing less named read found =>
    obtain ⟨less, start, stop⟩ := move less
    rw [← stop] at named read
    exact start ▸ .selfClosing less named read found
  | tag less named read found inside close =>
    obtain ⟨less, start, stop⟩ := move less
    rw [← stop] at named read
    exact start ▸ .tag less named read found inside close

namespace Arena

def tree (a : Arena) : Tree :=
  ⟨a.nodes, ⟨0⟩⟩

def view (a : Arena) : NodeId → Shape :=
  a.tree.shape

def Holds (a : Arena) (ids : List NodeId) : Prop :=
  ∀ id ∈ ids, id.index < a.nodes.size

/-- Remembered markup is kept, and it is what a tag is read as where it starts. -/
structure Recalls (source : Cursor) (a : Arena) (markup : Remembered NodeId) : Prop where
  kept : markup.node.index < a.kept
  read : ∃ c s, source.Before c ∧ c.sight? = some s ∧ s.start.pos = markup.start ∧
    Reads .tag c (.node (a.view markup.node)) markup.stop

/-- The invariant of the stored nodes. Without sharing nothing is asked of what is remembered. -/
structure Valid (source : Cursor) (sharing : Bool) (a : Arena) : Prop where
  descending : a.tree.Descending
  kept_le : sharing = true → a.kept ≤ a.nodes.size
  recalls : sharing = true → ∀ markup ∈ a.remembered, a.Recalls source markup

theorem Holds.nil (a : Arena) : a.Holds [] :=
  fun _ h => (List.not_mem_nil h).elim

theorem Holds.extends {ids : List NodeId} (h : a.Holds ids) (hab : a.tree.Extends b.tree) :
    b.Holds ids :=
  fun id hid => hab.lt_size (h id hid)

theorem Valid.view_extends {id : NodeId} {sharing : Bool} (ha : a.Valid source sharing)
    (hab : a.tree.Extends b.tree) (h : id.index < a.nodes.size) : b.view id = a.view id :=
  Tree.shape_extends ha.descending hab h

theorem Valid.empty (source : Cursor) (sharing : Bool) : Valid source sharing ⟨#[], [], 0⟩ where
  descending _ _ h := by simp [Tree.get?, tree] at h
  kept_le _ := Nat.le_refl _
  recalls _ _ h := by cases h

section

variable {sharing : Bool}

variable (sharing) in
theorem extends_alloc (kind : NodeKind NodeId) (span : Span) (a : Arena) :
    a.tree.Extends ((stored sharing).alloc kind span a).2.tree := by
  intro id node h
  have hid : id.index < a.nodes.size := Tree.lt_size_of_get? h
  change (a.nodes.push _)[id.index]? = some node
  rw [Array.getElem?_push, if_neg (Nat.ne_of_lt hid)]
  exact h

variable (sharing) in
theorem get?_alloc (kind : NodeKind NodeId) (span : Span) (a : Arena) :
    ((stored sharing).alloc kind span a).2.tree.get? ((stored sharing).alloc kind span a).1 =
      some ⟨kind, some span⟩ := by
  simp [stored, tree, Tree.get?]

theorem Valid.alloc {kind : NodeKind NodeId} (ha : a.Valid source sharing)
    (h : a.Holds kind.children) (span : Span) : ((stored sharing).alloc kind span a).2.Valid source sharing := by
  have hext := extends_alloc sharing kind span a
  constructor
  · intro id node hn child hc
    change (a.nodes.push _)[id.index]? = some node at hn
    rw [Array.getElem?_push] at hn
    split at hn
    · rename_i hid
      cases hn
      rw [hid]
      exact h child hc
    · exact ha.descending hn child hc
  · exact fun hs => Nat.le_trans (ha.kept_le hs) (by simp [stored])
  · intro hs markup hm
    obtain ⟨kept, c, s, hc, seen, start, read⟩ := ha.recalls hs markup hm
    rw [← ha.view_extends hext (Nat.lt_of_lt_of_le kept (ha.kept_le hs))] at read
    exact ⟨kept, c, s, hc, seen, start, read⟩

theorem Valid.view_alloc {kind : NodeKind NodeId} (ha : a.Valid source sharing)
    (h : a.Holds kind.children) (span : Span) :
    ((stored sharing).alloc kind span a).2.view ((stored sharing).alloc kind span a).1 =
      .node (some span) (kind.map a.view) := by
  rw [view, Tree.shape_of_get? (ha.alloc h span).descending (get?_alloc sharing kind span a)]
  congr 1
  exact NodeKind.map_congr fun child hc => ha.view_extends (extends_alloc sharing kind span a) (h child hc)

theorem get?_cut {size : Nat} {id : NodeId} :
    ((stored sharing).cut size a).tree.get? id =
      if id.index < (if sharing then max size a.kept else size) then a.tree.get? id else none := by
  change (a.nodes.extract 0 _)[id.index]? = if _ then a.nodes[id.index]? else none
  rw [Array.getElem?_extract, Nat.zero_add, Nat.sub_zero]
  generalize (if sharing then max size a.kept else size) = stop
  split
  · rename_i h
    rw [if_pos (by omega)]
  · rename_i h
    split
    · exact (Array.getElem?_eq_none (by omega)).symm
    · rfl

variable (sharing) in
theorem extends_of_cut (size : Nat) (a : Arena) : ((stored sharing).cut size a).tree.Extends a.tree := by
  intro id node h
  rw [get?_cut] at h
  generalize (if sharing then max size a.kept else size) = stop at h
  split at h
  · exact h
  · cases h

variable (sharing) in
theorem extends_cut (h : a.tree.Extends b.tree) :
    a.tree.Extends ((stored sharing).cut a.nodes.size b).tree := by
  intro id node hn
  have hid : id.index < a.nodes.size := Tree.lt_size_of_get? hn
  rw [get?_cut, if_pos (by split <;> omega)]
  exact h hn

theorem Valid.cut (ha : a.Valid source sharing) (size : Nat) :
    ((stored sharing).cut size a).Valid source sharing := by
  have hext := extends_of_cut sharing size a
  have hdesc := ha.descending.of_extends hext
  have hkept (hs : sharing = true) : a.kept ≤ ((stored sharing).cut size a).nodes.size := by
    change a.kept ≤ (a.nodes.extract 0 _).size
    rw [Array.size_extract, if_pos hs]
    have := ha.kept_le hs
    omega
  refine ⟨hdesc, hkept, fun hs markup hm => ?_⟩
  obtain ⟨kept, c, s, hc, seen, start, read⟩ := ha.recalls hs markup hm
  rw [view, Tree.shape_extends hdesc hext (Nat.lt_of_lt_of_le kept (hkept hs))] at read
  exact ⟨kept, c, s, hc, seen, start, read⟩

theorem recalled?_eq_some {start : Nat} {markup : Remembered NodeId}
    (h : (stored sharing).recalled? start a = some markup) :
    sharing = true ∧ markup ∈ a.remembered ∧ markup.start = start := by
  cases sharing with
  | false => cases h
  | true =>
    have h : a.remembered.find? (·.start = start) = some markup := h
    exact ⟨rfl, List.mem_of_find?_eq_some h, by simpa using List.find?_some h⟩

theorem Valid.remember {markup : Remembered NodeId} (ha : a.Valid source sharing)
    (h : markup.node.index < a.nodes.size)
    (read : ∃ c s, source.Before c ∧ c.sight? = some s ∧ s.start.pos = markup.start ∧
      Reads .tag c (.node (a.view markup.node)) markup.stop) :
    ((stored sharing).remember markup a).Valid source sharing := by
  refine ⟨ha.descending, fun _ => Nat.le_refl _, fun hs other hm => ?_⟩
  rcases List.mem_cons.1 hm with rfl | hm
  · exact ⟨h, read⟩
  · have old := ha.recalls hs other hm
    exact ⟨Nat.lt_of_lt_of_le old.kept (ha.kept_le hs), old.read⟩

end

end Arena

end MarkupEditor.Parser
