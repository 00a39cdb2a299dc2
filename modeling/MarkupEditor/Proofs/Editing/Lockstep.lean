import MarkupEditor.Editing.Mutation
import MarkupEditor.Proofs.Editing.Sorts

set_option autoImplicit false

namespace MarkupEditor

def Node.map (f : NodeId → NodeId) (node : Node) : Node :=
  ⟨node.kind.map f, node.span⟩

theorem PropertyKey.map_ofName {ι κ : Type} (f : ι → κ) (name : String) :
    (PropertyKey.ofName name).map f = .ofName name := by
  rw [ofName, ofName]
  split <;> rfl

namespace Tree

theorem get?_alloc (t : Tree) (kind : NodeKind NodeId) (x : NodeId) :
    (t.alloc kind).2.get? x = if x.index = t.size then some ⟨kind, none⟩ else t.get? x := by
  change (t.nodes.push _)[x.index]? = _
  rw [Array.getElem?_push]
  rfl

theorem get?_of_size_le {t : Tree} {x : NodeId} (h : t.size ≤ x.index) : t.get? x = none :=
  Array.getElem?_eq_none h

/-- Where a node of the first run is found in the second: nodes that were there before the runs stay, and
new ones come after as many nodes as the second tree had. -/
def moved (t t' : Tree) (x : NodeId) : NodeId :=
  if x.index < t.size then x else ⟨x.index - t.size + t'.size⟩

/-- An element of both trees whose inside is not looked at. -/
structure Border (inner : NodeId → Prop) (t t' : Tree) (x : NodeId) : Prop where
  outside : ¬ inner x
  stored : x.index < t.size
  stored' : x.index < t'.size
  element : t.isElement x = true
  element' : t'.isElement x = true

/-- Two trees have the inner nodes in common, and below these there are only more of them and elements. -/
structure Shares (inner : NodeId → Prop) (t t' : Tree) : Prop where
  stored : ∀ x, inner x → x.index < t.size
  stored' : ∀ x, inner x → x.index < t'.size
  same : ∀ x, inner x → t'.get? x = t.get? x
  below : ∀ x, inner x → ∀ c ∈ t.childIds x, inner c ∨ Border inner t t' c

/-- A node that a run may write: an inner one or a new one. -/
def Writable (inner : NodeId → Prop) (t : Tree) (x : NodeId) : Prop :=
  inner x ∨ t.size ≤ x.index

/-- A node that a run has come to: an inner one, an element at the border or a new one. -/
def Known (inner : NodeId → Prop) (t t' u : Tree) (x : NodeId) : Prop :=
  inner x ∨ Border inner t t' x ∨ t.size ≤ x.index ∧ x.index < u.size

/-- Two runs of one edit, begun on `t` and `t'`, have come to `u` and `u'` in the same way. -/
structure Lockstep (inner : NodeId → Prop) (t t' u u' : Tree) : Prop where
  grown : t.size ≤ u.size
  size : u'.size + t.size = u.size + t'.size
  root : u.root = t.root
  root' : u'.root = t'.root
  frame : ∀ x, x.index < t.size → ¬ inner x → u.get? x = t.get? x
  frame' : ∀ x, x.index < t'.size → ¬ inner x → u'.get? x = t'.get? x
  same : ∀ x, Writable inner t x → u'.get? (moved t t' x) = (u.get? x).map (Node.map (moved t t'))
  below : ∀ x, Writable inner t x → ∀ c ∈ u.childIds x, Known inner t t' u c

variable {inner : NodeId → Prop} {t t' u u' : Tree} {x y : NodeId}

theorem moved_of_lt (h : x.index < t.size) : moved t t' x = x :=
  if_pos h

theorem moved_of_le (h : t.size ≤ x.index) : moved t t' x = ⟨x.index - t.size + t'.size⟩ :=
  if_neg (Nat.not_lt_of_le h)

theorem Known.mono {v : Tree} (h : Known inner t t' u x) (grown : u.size ≤ v.size) : Known inner t t' v x :=
  h.imp_right (Or.imp_right fun ⟨low, high⟩ => ⟨low, Nat.lt_of_lt_of_le high grown⟩)

namespace Shares

theorem moved_inner (s : Shares inner t t') (h : inner x) : moved t t' x = x :=
  moved_of_lt (s.stored x h)

theorem moved_inj (s : Shares inner t t') (hx : Writable inner t x) (hy : Writable inner t y)
    (h : moved t t' x = moved t t' y) : x = y := by
  obtain ⟨i⟩ := x
  obtain ⟨j⟩ := y
  rcases hx with hx | hx <;> rcases hy with hy | hy
  · rwa [s.moved_inner hx, s.moved_inner hy] at h
  · rw [s.moved_inner hx, moved_of_le hy, NodeId.mk.injEq] at h
    have := s.stored' _ hx
    simp only at this
    omega
  · rw [s.moved_inner hy, moved_of_le hx, NodeId.mk.injEq] at h
    have := s.stored' _ hy
    simp only at this
    omega
  · rw [moved_of_le hx, moved_of_le hy, NodeId.mk.injEq] at h
    simp only at h hx hy
    exact congrArg NodeId.mk (by omega)

theorem lockstep (s : Shares inner t t') : Lockstep inner t t' t t' where
  grown := Nat.le_refl _
  size := Nat.add_comm _ _
  root := rfl
  root' := rfl
  frame _ _ _ := rfl
  frame' _ _ _ := rfl
  same x hx := by
    rcases hx with hx | hx
    · rw [s.moved_inner hx, s.same x hx]
      cases hn : t.get? x with
      | none => rfl
      | some node =>
        have below := s.below x hx
        rw [childIds_of_get? hn] at below
        have keep : ∀ c ∈ node.kind.children, id c = moved t t' c := fun c hc =>
          (moved_of_lt ((below c hc).elim (s.stored c) (·.stored))).symm
        rw [Option.map_some, Node.map, ← NodeKind.map_congr keep, NodeKind.map_id]
    · rw [get?_of_size_le hx, moved_of_le hx, get?_of_size_le (Nat.le_add_left _ _)]
      rfl
  below x hx c hc := by
    rcases hx with hx | hx
    · exact (s.below x hx c hc).imp_right .inl
    · rw [childIds_of_none (get?_of_size_le hx)] at hc
      cases hc

end Shares

theorem childIds_alloc (t : Tree) (kind : NodeKind NodeId) (x : NodeId) :
    (t.alloc kind).2.childIds x = if x.index = t.size then kind.children else t.childIds x := by
  rw [childIds, kind?, get?_alloc]
  split <;> rfl

theorem childIds_setKind (t : Tree) (id : NodeId) (kind : NodeKind NodeId) (h : id.index < t.size) (x : NodeId) :
    (t.setKind id kind).childIds x = if x = id then kind.children else t.childIds x := by
  by_cases same : x = id
  · subst same
    obtain ⟨node, hn⟩ := get?_isSome_iff.2 h
    rw [if_pos rfl, childIds_of_get? (get?_setKind_of_get? hn kind)]
  · rw [if_neg same, childIds, childIds, kind?, kind?, get?_setKind_ne (Ne.symm same)]

namespace Lockstep

theorem moved_size (h : Lockstep inner t t' u u') : moved t t' ⟨u.size⟩ = ⟨u'.size⟩ := by
  have low : t.size ≤ (⟨u.size⟩ : NodeId).index := h.grown
  have := h.size
  rw [moved_of_le low]
  exact congrArg NodeId.mk (by simp only at low ⊢; omega)

theorem grown' (h : Lockstep inner t t' u u') : t'.size ≤ u'.size := by
  have := h.grown
  have := h.size
  omega

theorem alloc (s : Shares inner t t') (h : Lockstep inner t t' u u') (kind : NodeKind NodeId)
    (known : ∀ c ∈ kind.children, Known inner t t' u c) :
    Lockstep inner t t' (u.alloc kind).2 (u'.alloc (kind.map (moved t t'))).2 where
  grown := by
    rw [size_alloc]
    exact Nat.le_succ_of_le h.grown
  size := by
    have := h.size
    rw [size_alloc, size_alloc]
    omega
  root := h.root
  root' := h.root'
  frame x hx out := by rw [get?_alloc_old (Nat.lt_of_lt_of_le hx h.grown), h.frame x hx out]
  frame' x hx out := by rw [get?_alloc_old (Nat.lt_of_lt_of_le hx h.grown'), h.frame' x hx out]
  same x hx := by
    rw [get?_alloc, get?_alloc]
    by_cases new : x.index = u.size
    · obtain rfl : x = ⟨u.size⟩ := congrArg NodeId.mk new
      rw [if_pos rfl, h.moved_size, if_pos rfl]
      rfl
    · have new' : (moved t t' x).index ≠ u'.size := fun eq => by
        have eq : moved t t' x = moved t t' ⟨u.size⟩ := (congrArg NodeId.mk eq).trans h.moved_size.symm
        exact new (congrArg NodeId.index (s.moved_inj hx (.inr h.grown) eq))
      rw [if_neg new, if_neg new', h.same x hx]
  below x hx c hc := by
    have grown : u.size ≤ (u.alloc kind).2.size := by
      rw [size_alloc]
      exact Nat.le_succ _
    rw [childIds_alloc] at hc
    split at hc
    · exact (known c hc).mono grown
    · exact (h.below x hx c hc).mono grown

theorem setKind (s : Shares inner t t') (h : Lockstep inner t t' u u') (kind : NodeKind NodeId)
    (hx : Writable inner t x) (stored : x.index < u.size) (known : ∀ c ∈ kind.children, Known inner t t' u c) :
    Lockstep inner t t' (u.setKind x kind) (u'.setKind (moved t t' x) (kind.map (moved t t'))) where
  grown := (size_setKind u x kind).symm ▸ h.grown
  size := by
    rw [size_setKind, size_setKind]
    exact h.size
  root := h.root
  root' := h.root'
  frame y hy out := by
    rw [get?_setKind_ne, h.frame y hy out]
    rintro rfl
    exact hx.elim out (Nat.not_le_of_lt hy)
  frame' y hy out := by
    rw [get?_setKind_ne, h.frame' y hy out]
    rintro rfl
    rcases hx with hx | hx
    · rw [s.moved_inner hx] at out
      exact out hx
    · rw [moved_of_le hx] at hy
      exact Nat.not_lt_of_le (Nat.le_add_left _ _) hy
  same y hy := by
    by_cases same : x = y
    · subst same
      rw [get?_setKind_self, get?_setKind_self, h.same x hx]
      cases u.get? x <;> rfl
    · rw [get?_setKind_ne same, get?_setKind_ne fun eq => same (s.moved_inj hx hy eq), h.same y hy]
  below y hy c hc := by
    have grown : u.size ≤ (u.setKind x kind).size := (size_setKind u x kind).symm ▸ Nat.le_refl _
    rw [childIds_setKind u x kind stored] at hc
    split at hc
    · exact (known c hc).mono grown
    · exact (h.below y hy c hc).mono grown

theorem stored (s : Shares inner t t') (h : Lockstep inner t t' u u') (stored : t.Stored) :
    u.Stored := by
  intro x node hn c hc
  have hchild : c ∈ u.childIds x := (childIds_of_get? hn).symm ▸ hc
  by_cases hx : Writable inner t x
  · rcases h.below x hx c hchild with hc | hc | ⟨-, hc⟩
    · exact Nat.lt_of_lt_of_le (s.stored c hc) h.grown
    · exact Nat.lt_of_lt_of_le hc.stored h.grown
    · exact hc
  · obtain ⟨outside, old⟩ := not_or.1 hx
    rw [h.frame x (Nat.lt_of_not_le old) outside] at hn
    exact Nat.lt_of_lt_of_le (stored hn c hc) h.grown

theorem kind?_written (h : Lockstep inner t t' u u') (hx : Writable inner t x) :
    u'.kind? (moved t t' x) = (u.kind? x).map (NodeKind.map (moved t t')) := by
  rw [Tree.kind?, Tree.kind?, h.same x hx, Option.map_map, Option.map_map]
  rfl

/-- What is stored at a node that a run has come to is the same in both, or it is an element in both. -/
theorem kind? (h : Lockstep inner t t' u u') (hx : Known inner t t' u x) :
    u'.kind? (moved t t' x) = (u.kind? x).map (NodeKind.map (moved t t')) ∨
      u.isElement x = true ∧ u'.isElement (moved t t' x) = true := by
  rcases hx with hx | hx | ⟨hx, -⟩
  · exact .inl (h.kind?_written (.inl hx))
  · right
    rw [moved_of_lt hx.stored, isElement, isElement, Tree.kind?, Tree.kind?,
      h.frame x hx.stored hx.outside, h.frame' x hx.stored' hx.outside]
    exact ⟨hx.element, hx.element'⟩
  · exact .inl (h.kind?_written (.inr hx))

theorem writable (h : Lockstep inner t t' u u') (hx : Known inner t t' u x) (plain : u.isElement x = false) :
    Writable inner t x := by
  rcases hx with hx | hx | ⟨hx, -⟩
  · exact .inl hx
  · rw [isElement, Tree.kind?, h.frame x hx.stored hx.outside] at plain
    cases hx.element.symm.trans plain
  · exact .inr hx

section

variable (h : Lockstep inner t t' u u') (hx : Known inner t t' u x)

include h hx

theorem sort? : u'.sort? (moved t t' x) = u.sort? x := by
  rcases h.kind? hx with eq | ⟨hu, hu'⟩
  · rw [Tree.sort?, Tree.sort?, eq]
    cases u.kind? x with
    | none => rfl
    | some kind => exact congrArg some (kind.sort_map _)
  · obtain ⟨_, _, _, _, _, hn⟩ := exists_of_isElement hu
    obtain ⟨_, _, _, _, _, hn'⟩ := exists_of_isElement hu'
    rw [Tree.sort?, Tree.sort?, kind?_of_get? hn, kind?_of_get? hn']
    rfl

theorem isElement : u'.isElement (moved t t' x) = u.isElement x := by
  rw [isElement_eq_sort, isElement_eq_sort, h.sort? hx]

theorem isText : u'.isText (moved t t' x) = u.isText x := by
  rw [isText_eq_sort, isText_eq_sort, h.sort? hx]

theorem isObject : u'.isObject (moved t t' x) = u.isObject x := by
  rw [isObject_eq_sort, isObject_eq_sort, h.sort? hx]

theorem isNamed (name : String) : u'.isNamed name (moved t t' x) = u.isNamed name x := by
  rw [isNamed_eq_sort, isNamed_eq_sort, h.sort? hx]

theorem propertyName? : u'.propertyName? (moved t t' x) = u.propertyName? x := by
  rw [propertyName?_eq_sort, propertyName?_eq_sort, h.sort? hx]

theorem literal? : u'.literal? (moved t t' x) = u.literal? x := by
  rw [literal?_eq_sort, literal?_eq_sort, h.sort? hx]

theorem heldBy {type : String} (plain : type ≠ "Element") :
    u'.heldBy type (moved t t' x) = (u.heldBy type x).map (moved t t') := by
  rcases h.kind? hx with eq | ⟨hu, hu'⟩
  · rw [Tree.heldBy, Tree.heldBy, eq]
    cases u.kind? x with
    | none => rfl
    | some kind => exact kind.held_map _ _
  · rw [heldBy_of_isElement hu plain, heldBy_of_isElement hu' plain]
    rfl

theorem attributeValue? : u'.attributeValue? (moved t t' x) = (u.attributeValue? x).map (moved t t') := by
  rw [attributeValue?_eq_heldBy, attributeValue?_eq_heldBy, h.heldBy hx (by decide), List.head?_map]

theorem contained? : u'.contained? (moved t t' x) = (u.contained? x).map (moved t t') := by
  rw [contained?_eq_heldBy, contained?_eq_heldBy, h.heldBy hx (by decide), List.head?_map]

theorem propertiesOf : u'.propertiesOf (moved t t' x) = (u.propertiesOf x).map (moved t t') := by
  rw [propertiesOf_eq_heldBy, propertiesOf_eq_heldBy, h.heldBy hx (by decide)]

theorem known_child (plain : u.isElement x = false) {c : NodeId} (hc : c ∈ u.childIds x) :
    Known inner t t' u c :=
  h.below x (h.writable hx plain) c hc

theorem known_heldBy {type : String} (plain : type ≠ "Element") (hy : y ∈ u.heldBy type x) :
    Known inner t t' u y := by
  cases element : u.isElement x with
  | true =>
    rw [heldBy_of_isElement element plain] at hy
    cases hy
  | false => exact h.known_child hx element (mem_childIds_of_mem_heldBy hy)

theorem known_attributeValue (hv : u.attributeValue? x = some y) : Known inner t t' u y := by
  rw [attributeValue?_eq_heldBy] at hv
  exact h.known_heldBy hx (by decide) (List.mem_of_mem_head? hv)

theorem known_contained (hv : u.contained? x = some y) : Known inner t t' u y := by
  rw [contained?_eq_heldBy] at hv
  exact h.known_heldBy hx (by decide) (List.mem_of_mem_head? hv)

theorem known_property (hy : y ∈ u.propertiesOf x) : Known inner t t' u y := by
  rw [propertiesOf_eq_heldBy] at hy
  exact h.known_heldBy hx (by decide) hy

theorem declaration? : u'.declaration? (moved t t' x) = u.declaration? x := by
  unfold Tree.declaration?
  rcases h.kind? hx with eq | ⟨hu, hu'⟩
  · rw [eq]
    cases hk : u.kind? x with
    | none => rfl
    | some kind =>
      cases kind with
      | property key value shorthand =>
        have hvalue : Known inner t t' u value := by
          refine h.known_child hx (by rw [Tree.isElement, hk]; rfl) ?_
          rw [childIds, hk]
          exact List.mem_append_right _ (List.mem_singleton.2 rfl)
        cases shorthand with
        | true => rfl
        | false =>
          simp only [Option.map_some, NodeKind.map, PropertyKey.name?_map]
          rw [h.literal? hvalue]
      | _ => rfl
  · obtain ⟨_, _, _, _, _, hn⟩ := exists_of_isElement hu
    obtain ⟨_, _, _, _, _, hn'⟩ := exists_of_isElement hu'
    rw [kind?_of_get? hn, kind?_of_get? hn']

end

section

variable (h : Lockstep inner t t' u u') (hx : Writable inner t x)

include h hx

theorem attributesOf : u'.attributesOf (moved t t' x) = (u.attributesOf x).map (moved t t') := by
  rw [Tree.attributesOf, Tree.attributesOf, h.kind?_written hx]
  cases u.kind? x with
  | none => rfl
  | some kind => cases kind <;> rfl

theorem known_attribute (hy : y ∈ u.attributesOf x) : Known inner t t' u y := by
  unfold Tree.attributesOf at hy
  split at hy
  · rename_i name as xs closed hk
    refine h.below x hx y ?_
    rw [childIds, hk]
    exact List.mem_append_left _ hy
  · cases hy

theorem findAttribute? (name : String) :
    u'.findAttribute? (moved t t' x) name = (u.findAttribute? x name).map (moved t t') := by
  have known : ∀ a ∈ u.attributesOf x, Known inner t t' u a := fun a ha => h.known_attribute hx ha
  rw [Tree.findAttribute?, Tree.findAttribute?, h.attributesOf hx]
  generalize u.attributesOf x = as at known
  induction as with
  | nil => rfl
  | cons a as ih =>
    rw [List.map_cons, List.find?_cons, List.find?_cons, h.isNamed (known a List.mem_cons_self)]
    cases u.isNamed name a with
    | true => rfl
    | false => exact ih fun b hb => known b (List.mem_cons_of_mem a hb)

end

end Lockstep

/-- Two runs have gone on from `u` and come to the nodes of a list. -/
structure Yields (inner : NodeId → Prop) (t t' u : Tree) (ids ids' : List NodeId) (v v' : Tree) : Prop where
  trees : Lockstep inner t t' v v'
  moves : ids' = ids.map (moved t t')
  known : ∀ x ∈ ids, Known inner t t' v x
  later : u.size ≤ v.size

namespace Yields

variable {v v' w w' : Tree} {ids ids' others others' : List NodeId}

theorem nil (trees : Lockstep inner t t' v v') (later : u.size ≤ v.size) : Yields inner t t' u [] [] v v' :=
  ⟨trees, rfl, nofun, later⟩

theorem append (h : Yields inner t t' u ids ids' v v') (h' : Yields inner t t' v others others' w w') :
    Yields inner t t' u (ids ++ others) (ids' ++ others') w w' where
  trees := h'.trees
  moves := by rw [h.moves, h'.moves, List.map_append]
  known x hx := (List.mem_append.1 hx).elim (fun hx => (h.known x hx).mono h'.later) (h'.known x)
  later := Nat.le_trans h.later h'.later

theorem trans {jds jds' : List NodeId} (h : Yields inner t t' u jds jds' v v')
    (h' : Yields inner t t' v ids ids' w w') : Yields inner t t' u ids ids' w w' :=
  ⟨h'.trees, h'.moves, h'.known, Nat.le_trans h.later h'.later⟩

theorem head {r r' : NodeId × Tree} (h : Yields inner t t' u [r.1] [r'.1] v v') :
    r'.1 = moved t t' r.1 ∧ Known inner t t' v r.1 :=
  ⟨List.head_eq_of_cons_eq h.moves, h.known _ (List.mem_singleton.2 rfl)⟩

end Yields

namespace Lockstep

theorem yields (h : Lockstep inner t t' u u') : Yields inner t t' u [] [] u u' :=
  .nil h (Nat.le_refl _)

theorem yields_alloc (s : Shares inner t t') (h : Lockstep inner t t' u u') (kind : NodeKind NodeId)
    (known : ∀ c ∈ kind.children, Known inner t t' u c) :
    Yields inner t t' u [(u.alloc kind).1] [(u'.alloc (kind.map (moved t t'))).1]
      (u.alloc kind).2 (u'.alloc (kind.map (moved t t'))).2 where
  trees := h.alloc s kind known
  moves := by rw [alloc_fst, alloc_fst, List.map_singleton, h.moved_size]
  known x hx := by
    obtain rfl := List.mem_singleton.1 hx
    rw [alloc_fst]
    refine .inr (.inr ⟨h.grown, ?_⟩)
    rw [size_alloc]
    exact Nat.lt_succ_self _
  later := by
    rw [size_alloc]
    exact Nat.le_succ _

end Lockstep

end Tree

end MarkupEditor
