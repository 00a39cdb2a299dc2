import Mathlib.Data.Finset.Card
import Mathlib.Order.Interval.Finset.Nat
import MarkupEditor.Markup.Walk
import MarkupEditor.Proofs.Markup.Shapes

set_option autoImplicit false

namespace MarkupEditor.Tree

variable {t u : Tree} {id : NodeId} {node : Node}

theorem childIds_of_get? (h : t.get? id = some node) : t.childIds id = node.kind.children := by
  rw [childIds, kind?, h]
  rfl

theorem childIds_of_none (h : t.get? id = none) : t.childIds id = [] := by
  rw [childIds, kind?, h]
  rfl

theorem kind?_of_get? (h : t.get? id = some node) : t.kind? id = some node.kind := by
  rw [kind?, h]
  rfl

theorem exists_get?_of_mem_childIds {child : NodeId} (h : child ∈ t.childIds id) :
    ∃ node, t.get? id = some node ∧ child ∈ node.kind.children := by
  cases hn : t.get? id with
  | none =>
    rw [childIds_of_none hn] at h
    exact (List.not_mem_nil h).elim
  | some node =>
    rw [childIds_of_get? hn] at h
    exact ⟨node, rfl, h⟩

/-- All paths down from a node come to an end. -/
def Grounded (t : Tree) (id : NodeId) : Prop :=
  Acc (fun child parent => child ∈ t.childIds parent) id

theorem Grounded.child {child : NodeId} (h : t.Grounded id) (hc : child ∈ t.childIds id) :
    t.Grounded child :=
  h.inv hc

theorem Grounded.intro (h : ∀ child ∈ t.childIds id, t.Grounded child) : t.Grounded id :=
  Acc.intro id h

theorem Descending.grounded (ht : t.Descending) (id : NodeId) : t.Grounded id := by
  induction hn : id.index using Nat.strong_induction_on generalizing id with
  | _ n ih =>
    refine .intro fun child hc => ?_
    obtain ⟨node, hnode, hchild⟩ := exists_get?_of_mem_childIds hc
    exact ih child.index (hn ▸ ht hnode child hchild) child rfl

/-- All paths down from a node end within a number of nodes. -/
def Within (t : Tree) : Nat → NodeId → Prop
  | 0, _ => False
  | depth + 1, id => ∀ child ∈ t.childIds id, t.Within depth child

theorem Within.succ {depth : Nat} (h : t.Within depth id) : t.Within (depth + 1) id := by
  induction depth generalizing id with
  | zero => exact h.elim
  | succ depth ih => exact fun child hc => ih (h child hc)

theorem Within.mono {depth more : Nat} (h : t.Within depth id) (hle : depth ≤ more) : t.Within more id := by
  induction hle with
  | refl => exact h
  | step _ ih => exact ih.succ

theorem Grounded.exists_within (h : t.Grounded id) : ∃ depth, t.Within depth id := by
  induction h with
  | intro id _ ih =>
    have bounded : ∀ ids : List NodeId, (∀ child ∈ ids, ∃ depth, t.Within depth child) →
        ∃ depth, ∀ child ∈ ids, t.Within depth child := by
      intro ids
      induction ids with
      | nil => exact fun _ => ⟨0, nofun⟩
      | cons first ids ihs =>
        intro hall
        obtain ⟨m, hm⟩ := hall first List.mem_cons_self
        obtain ⟨n, hn⟩ := ihs fun child hc => hall child (List.mem_cons_of_mem first hc)
        refine ⟨max m n, fun child hc => ?_⟩
        obtain rfl | hc := List.mem_cons.1 hc
        · exact hm.mono (Nat.le_max_left m n)
        · exact (hn child hc).mono (Nat.le_max_right m n)
    obtain ⟨depth, hdepth⟩ := bounded (t.childIds id) ih
    exact ⟨depth + 1, hdepth⟩

theorem exists_height {height : Nat} (h : t.Within (height + 1) id) (least : ¬ t.Within height id)
    {lower : Nat} (hle : lower ≤ height) : ∃ x, t.Within (lower + 1) x ∧ ¬ t.Within lower x := by
  induction height generalizing id with
  | zero =>
    cases Nat.le_zero.1 hle
    exact ⟨id, h, least⟩
  | succ height ih =>
    obtain rfl | hlt := Nat.eq_or_lt_of_le hle
    · exact ⟨id, h, least⟩
    · obtain ⟨child, hchild⟩ := not_forall.1 least
      obtain ⟨hc, hleast⟩ := Classical.not_imp.1 hchild
      exact ih (h child hc) hleast (Nat.le_of_lt_succ hlt)

theorem lt_size_of_not_within {depth : Nat} (h : ¬ t.Within (depth + 1) id) : id.index < t.size := by
  obtain ⟨child, hchild⟩ := not_forall.1 h
  obtain ⟨node, hn, -⟩ := exists_get?_of_mem_childIds (Classical.not_imp.1 hchild).1
  exact lt_size_of_get? hn

theorem Grounded.within (h : t.Grounded id) : t.Within t.depthBound id := by
  classical
  let depth := Nat.find h.exists_within
  have hwithin : t.Within depth id := Nat.find_spec h.exists_within
  have hleast : ∀ n < depth, ¬ t.Within n id := fun n => Nat.find_min h.exists_within
  refine hwithin.mono ?_
  obtain hzero | ⟨height, hheight⟩ : depth = 0 ∨ ∃ height, depth = height + 1 :=
    depth.eq_zero_or_eq_succ_pred.imp_right fun he => ⟨_, he⟩
  · rw [hzero]
    exact Nat.zero_le _
  rw [hheight] at hwithin hleast ⊢
  have at_height : ∀ lower ∈ Finset.Icc 1 height, ∃ x : NodeId, x.index < t.size ∧
      t.Within (lower + 1) x ∧ ¬ t.Within lower x := by
    intro lower hlower
    obtain ⟨hone, hle⟩ := Finset.mem_Icc.1 hlower
    obtain ⟨x, hx, hnot⟩ := exists_height hwithin (hleast height (Nat.lt_succ_self height)) hle
    obtain ⟨n, rfl⟩ := Nat.exists_eq_add_of_le' hone
    exact ⟨x, lt_size_of_not_within hnot, hx, hnot⟩
  have : Nonempty NodeId := ⟨id⟩
  choose! node hstored hnode hnot using at_height
  have injective : Set.InjOn (fun lower => (node lower).index) (Finset.Icc 1 height) := by
    intro a ha b hb hab
    have hsame : node a = node b := by
      cases hna : node a
      cases hnb : node b
      simp_all
    rcases Nat.lt_trichotomy a b with hlt | heq | hlt
    · exact absurd ((hsame ▸ hnode a ha : t.Within (a + 1) (node b)).mono hlt) (hnot b hb)
    · exact heq
    · exact absurd ((hsame ▸ hnode b hb : t.Within (b + 1) (node a)).mono hlt) (hnot a ha)
  have hcard := Finset.card_le_card_of_injOn (fun lower => (node lower).index)
    (fun lower hlower => Finset.mem_range.2 (hstored lower hlower)) injective
  rw [Nat.card_Icc, Finset.card_range] at hcard
  rw [depthBound]
  omega

/-- A reading that depends on a node and on what is read of its children is the same at any two depths
that are enough. -/
theorem Within.reading {α : Type} {reading : Nat → NodeId → α}
    (step : ∀ n m id, (∀ child ∈ t.childIds id, reading n child = reading m child) →
      reading (n + 1) id = reading (m + 1) id) {n m : Nat} (h : t.Within n id) (h' : t.Within m id) :
    reading n id = reading m id := by
  induction n generalizing m id with
  | zero => exact h.elim
  | succ n ih =>
    cases m with
    | zero => exact h'.elim
    | succ m => exact step n m id fun child hc => ih (h child hc) (h' child hc)

theorem Grounded.reading {α : Type} {reading : Nat → NodeId → α}
    (step : ∀ n m id, (∀ child ∈ t.childIds id, reading n child = reading m child) →
      reading (n + 1) id = reading (m + 1) id) (h : t.Grounded id) :
    ∃ n, t.depthBound = n + 1 ∧ ∀ child ∈ t.childIds id, reading n child = reading t.depthBound child :=
  ⟨t.size, rfl, fun child hc => Within.reading step (h.within child hc) (h.child hc).within⟩

theorem shapeTo_congr (t : Tree) (n m : Nat) (id : NodeId)
    (h : ∀ child ∈ t.childIds id, t.shapeTo n child = t.shapeTo m child) :
    t.shapeTo (n + 1) id = t.shapeTo (m + 1) id := by
  cases hn : t.get? id with
  | none => rw [shapeTo, shapeTo, hn]
  | some node =>
    rw [childIds_of_get? hn] at h
    rw [shapeTo_of_get? hn, shapeTo_of_get? hn, NodeKind.map_congr h]

theorem Grounded.shape_eq (h : t.Grounded id) (hn : t.get? id = some node) :
    t.shape id = .node node.span (node.kind.map t.shape) := by
  obtain ⟨n, hdepth, hchild⟩ := h.reading t.shapeTo_congr
  rw [childIds_of_get? hn] at hchild
  rw [shape, hdepth, shapeTo_of_get? hn, NodeKind.map_congr hchild]
  rfl

theorem shape_of_none (h : t.get? id = none) : t.shape id = .missing := by
  rw [shape, depthBound, shapeTo, h]

theorem preorderTo_congr (t : Tree) (n m : Nat) (id : NodeId)
    (h : ∀ child ∈ t.childIds id, t.preorderTo n child = t.preorderTo m child) :
    t.preorderTo (n + 1) id = t.preorderTo (m + 1) id := by
  rw [preorderTo, preorderTo, List.flatMap_congr h]

theorem Grounded.preorder_eq (h : t.Grounded id) :
    t.preorder id = id :: (t.childIds id).flatMap t.preorder := by
  obtain ⟨n, hdepth, hchild⟩ := h.reading t.preorderTo_congr
  rw [preorder, hdepth, preorderTo, List.flatMap_congr hchild]
  rfl

theorem run_append {depth : Nat} (h : t.Within depth id) (steps : Nat) (stack : List NodeId) :
    Walk.run t (t.visitsTo depth id + steps) (id :: stack) =
      t.preorderTo depth id ++ Walk.run t steps stack := by
  induction depth generalizing id steps stack with
  | zero => exact h.elim
  | succ depth ih =>
    have children : ∀ ids : List NodeId, (∀ child ∈ ids, t.Within depth child) →
        Walk.run t ((ids.map (t.visitsTo depth)).foldr (· + ·) 0 + steps) (ids ++ stack) =
          ids.flatMap (t.preorderTo depth) ++ Walk.run t steps stack := by
      intro ids
      induction ids with
      | nil => intro; simp
      | cons first ids ihs =>
        intro hall
        have hrest := ihs fun child hc => hall child (List.mem_cons_of_mem first hc)
        rw [List.map_cons, List.foldr_cons, Nat.add_assoc, List.cons_append,
          ih (hall first List.mem_cons_self), hrest, List.flatMap_cons, List.append_assoc]
    have hsteps : t.visitsTo (depth + 1) id + steps =
        ((t.childIds id).map (t.visitsTo depth)).foldr (· + ·) 0 + steps + 1 := by
      rw [visitsTo]
      omega
    rw [hsteps, Walk.run]
    simp only [Walk.next, preorderTo, List.cons_append]
    rw [children (t.childIds id) h]

/-- The walk with a stack visits the nodes in the order of the recursive reading. -/
theorem Grounded.descendants_eq (h : t.Grounded id) : t.descendants id = t.preorder id := by
  have run := run_append h.within 0 []
  rwa [Nat.add_zero, Walk.run, List.append_nil] at run

end MarkupEditor.Tree
