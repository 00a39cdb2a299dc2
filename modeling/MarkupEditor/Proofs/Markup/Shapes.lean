import MarkupEditor.Markup.Tree

set_option autoImplicit false

namespace MarkupEditor

namespace PropertyKey

variable {ι κ : Type} {f g : ι → κ}

theorem map_congr {key : PropertyKey ι} (h : ∀ child ∈ key.children, f child = g child) :
    key.map f = key.map g := by
  cases key with
  | computed e => exact congrArg computed (h e (List.mem_singleton.2 rfl))
  | _ => rfl

end PropertyKey

namespace OpaquePart

variable {ι κ : Type} {f g : ι → κ}

theorem map_congr {parts : List (OpaquePart ι)}
    (h : ∀ child ∈ parts.filterMap (·.child?), f child = g child) :
    parts.map (·.map f) = parts.map (·.map g) := by
  refine List.map_congr_left fun part hpart => ?_
  cases part with
  | source text => rfl
  | node child => exact congrArg node (h child (List.mem_filterMap.2 ⟨_, hpart, rfl⟩))

end OpaquePart

namespace NodeKind

variable {ι κ : Type} {f g : ι → κ}

theorem map_congr {kind : NodeKind ι} (h : ∀ child ∈ kind.children, f child = g child) :
    kind.map f = kind.map g := by
  cases kind with
  | opaqueText parts => exact congrArg opaqueText (OpaquePart.map_congr h)
  | property key value shorthand =>
    have hkey := PropertyKey.map_congr fun child hc => h child (List.mem_append_left _ hc)
    have hvalue := h value (List.mem_append_right _ (List.mem_singleton.2 rfl))
    simp only [map, hkey, hvalue]
  | element name attributes children closed =>
    have ha := List.map_congr_left fun child hc => h child (List.mem_append_left _ hc)
    have hc := List.map_congr_left fun child hc => h child (List.mem_append_right _ hc)
    simp only [map, ha, hc]
  | expressionContainer e => cases e <;> simp_all [map, children]
  | namedAttribute name value => cases value <;> simp_all [map, children]
  | program body | fragment body | object body | array body =>
    have hbody : body.map f = body.map g := List.map_congr_left h
    simp only [map, hbody]
  | expressionStatement e | spreadAttribute e | spread e | parenthesized e =>
    simp only [map, h e (List.mem_singleton.2 rfl)]
  | _ => rfl

end NodeKind

namespace Tree

variable {t u : Tree} {id : NodeId} {node : Node}

/-- Every reference of a stored node is to an earlier one. -/
def Descending (t : Tree) : Prop :=
  ∀ ⦃id node⦄, t.get? id = some node → ∀ child ∈ node.kind.children, child.index < id.index

/-- Every node of the first tree is stored in the second at the same place. -/
def Extends (t u : Tree) : Prop :=
  ∀ ⦃id node⦄, t.get? id = some node → u.get? id = some node

theorem Extends.refl (t : Tree) : t.Extends t :=
  fun _ _ h => h

theorem get?_isSome_iff : (∃ node, t.get? id = some node) ↔ id.index < t.size := by
  constructor
  · rintro ⟨node, h⟩
    exact (Array.getElem?_eq_some_iff.1 h).1
  · intro h
    change id.index < t.nodes.size at h
    exact ⟨t.nodes[id.index], Array.getElem?_eq_getElem h⟩

theorem lt_size_of_get? (h : t.get? id = some node) : id.index < t.size :=
  get?_isSome_iff.1 ⟨node, h⟩

theorem Extends.lt_size (h : t.Extends u) (hid : id.index < t.size) : id.index < u.size := by
  obtain ⟨node, hn⟩ := get?_isSome_iff.2 hid
  exact lt_size_of_get? (h hn)

theorem Descending.of_extends (h : u.Extends t) (ht : t.Descending) : u.Descending :=
  fun _ _ hn => ht (h hn)

theorem shapeTo_of_get? {n : Nat} (h : t.get? id = some node) :
    t.shapeTo (n + 1) id = .node node.span (node.kind.map (t.shapeTo n)) := by
  rw [shapeTo, h]

theorem shapeTo_extends (ht : t.Descending) (h : t.Extends u) {n m : Nat} (hid : id.index < t.size)
    (hn : id.index < n) (hm : id.index < m) : u.shapeTo n id = t.shapeTo m id := by
  induction n generalizing m id with
  | zero => omega
  | succ n ih =>
    obtain ⟨node, hnode⟩ := get?_isSome_iff.2 hid
    obtain _ | m := m
    · omega
    rw [shapeTo_of_get? (h hnode), shapeTo_of_get? hnode]
    congr 1
    refine NodeKind.map_congr fun child hc => ?_
    have := ht hnode child hc
    exact ih (by omega) (by omega) (by omega)

theorem shape_extends (ht : t.Descending) (h : t.Extends u) (hid : id.index < t.size) :
    u.shape id = t.shape id :=
  shapeTo_extends ht h hid (Nat.lt_succ_of_lt (h.lt_size hid)) (Nat.lt_succ_of_lt hid)

theorem shape_of_get? (ht : t.Descending) (h : t.get? id = some node) :
    t.shape id = .node node.span (node.kind.map t.shape) := by
  have hid := lt_size_of_get? h
  rw [shape, depthBound, shapeTo_of_get? h]
  congr 1
  refine NodeKind.map_congr fun child hc => ?_
  have hchild := ht h child hc
  exact shapeTo_extends ht (.refl t) (by omega) (by omega) (by rw [depthBound]; omega)

end Tree

end MarkupEditor
