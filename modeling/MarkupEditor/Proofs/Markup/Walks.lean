import Mathlib.Data.List.Nodup
import MarkupEditor.Proofs.Parser.WellFormed

set_option autoImplicit false

namespace MarkupEditor.Tree

variable {t : Tree} {id x : NodeId}

theorem Grounded.reaches (h : t.Grounded id) (hx : t.Reaches id x) : t.Grounded x := by
  induction hx with
  | refl => exact h
  | step hc _ ih => exact ih (h.child hc)

theorem Grounded.mem_preorder (h : t.Grounded id) : x ∈ t.preorder id ↔ t.Reaches id x := by
  induction h with
  | intro id hchild ih =>
    rw [Grounded.preorder_eq (Acc.intro id hchild), List.mem_cons, List.mem_flatMap]
    constructor
    · rintro (rfl | ⟨child, hc, hx⟩)
      · exact .refl x
      · exact .step hc ((ih child hc).1 hx)
    · intro hx
      cases hx with
      | refl => exact .inl rfl
      | step hc below => exact .inr ⟨_, hc, (ih _ hc).2 below⟩

theorem Grounded.elements_eq (h : t.Grounded t.root) :
    t.elements = (t.preorder t.root).filter t.isElement := by
  rw [elements, h.descendants_eq]

theorem Grounded.mem_elements (h : t.Grounded t.root) :
    x ∈ t.elements ↔ t.Reaches t.root x ∧ t.isElement x = true := by
  rw [h.elements_eq, List.mem_filter, h.mem_preorder]

namespace WellFormed

variable {a b p q : NodeId}

theorem child_lt (h : t.WellFormed) (hp : t.Reaches t.root p) (hx : x ∈ t.childIds p) :
    x.index < p.index :=
  (h.stored p hp x hx).2

theorem reaches_le (h : t.WellFormed) (ha : t.Reaches t.root a) (hb : t.Reaches a b) :
    b.index ≤ a.index := by
  induction hb with
  | refl => exact Nat.le_refl _
  | step hc _ ih => exact Nat.le_trans (ih (ha.child hc)) (Nat.le_of_lt (h.child_lt ha hc))

theorem grounded (h : t.WellFormed) (ha : t.Reaches t.root a) : t.Grounded a := by
  induction hn : a.index using Nat.strong_induction_on generalizing a with
  | _ n ih => exact .intro fun child hc => ih _ (hn ▸ h.child_lt ha hc) (ha.child hc) rfl

theorem slot_eq (h : t.WellFormed) (hp : t.Reaches t.root p) (hq : t.Reaches t.root q) {i j : Nat}
    (hi : (t.childIds p)[i]? = some x) (hj : (t.childIds q)[j]? = some x) : p = q ∧ i = j := by
  have hx := List.mem_of_getElem? hi
  have hroot : x ≠ t.root := by
    rintro rfl
    have hlt := h.child_lt hp hx
    have hle := h.reaches_le (.refl _) hp
    omega
  have first : t.Occupies x (p, i) := ⟨hp, hi⟩
  have second : t.Occupies x (q, j) := ⟨hq, hj⟩
  exact Prod.mk.inj ((h.linked x (hp.child hx) hroot).unique first second)

theorem parent_eq (h : t.WellFormed) (hp : t.Reaches t.root p) (hq : t.Reaches t.root q)
    (hxp : x ∈ t.childIds p) (hxq : x ∈ t.childIds q) : p = q := by
  obtain ⟨i, hi⟩ := List.mem_iff_getElem?.1 hxp
  obtain ⟨j, hj⟩ := List.mem_iff_getElem?.1 hxq
  exact (h.slot_eq hp hq hi hj).1

theorem comparable (h : t.WellFormed) (ha : t.Reaches t.root a) (hb : t.Reaches t.root b)
    (hax : t.Reaches a x) (hbx : t.Reaches b x) : t.Reaches a b ∨ t.Reaches b a := by
  induction hax generalizing b with
  | refl a => exact .inr hbx
  | @step a child x hc below ih =>
    obtain hcb | hbc := ih (ha.child hc) hb hbx
    · exact .inl (.step hc hcb)
    · by_cases hbchild : child = b
      · subst hbchild
        exact .inl (.step hc (.refl child))
      · obtain ⟨slot, hslot, hplace⟩ := hbc.parent hbchild
        have hsame := h.parent_eq ha (hb.trans hslot) hc (List.mem_of_getElem? hplace)
        exact .inr (hsame ▸ hslot)

theorem apart (h : t.WellFormed) (hp : t.Reaches t.root p) {i j : Nat} (hi : (t.childIds p)[i]? = some a)
    (hj : (t.childIds p)[j]? = some b) (hax : t.Reaches a x) (hbx : t.Reaches b x) : i = j := by
  have above : ∀ {a b : NodeId} {i j : Nat}, (t.childIds p)[i]? = some a → (t.childIds p)[j]? = some b →
      t.Reaches a b → i = j := by
    intro a b i j hi hj hab
    by_cases hba : b = a
    · subst hba
      exact (h.slot_eq hp hp hi hj).2
    · obtain ⟨slot, hslot, hplace⟩ := hab.parent hba
      have ha := List.mem_of_getElem? hi
      have hsame := h.parent_eq hp ((hp.child ha).trans hslot) (List.mem_of_getElem? hj)
        (List.mem_of_getElem? hplace)
      have hlt := h.child_lt hp ha
      have hle := h.reaches_le (hp.child ha) (hsame ▸ hslot)
      omega
  have ha := hp.child (List.mem_of_getElem? hi)
  have hb := hp.child (List.mem_of_getElem? hj)
  obtain hab | hba := h.comparable ha hb hax hbx
  · exact above hi hj hab
  · exact (above hj hi hba).symm

theorem nodup_preorder (h : t.WellFormed) (ha : t.Reaches t.root a) : (t.preorder a).Nodup := by
  induction h.grounded ha with
  | intro id hchild ih =>
    have hgrounded : t.Grounded id := Acc.intro id hchild
    rw [hgrounded.preorder_eq, List.nodup_cons, List.nodup_flatMap]
    refine ⟨?_, fun child hc => ih child hc (ha.child hc), ?_⟩
    · intro hmem
      obtain ⟨child, hc, hx⟩ := List.mem_flatMap.1 hmem
      have hle := h.reaches_le (ha.child hc) ((hgrounded.child hc).mem_preorder.1 hx)
      have hlt := h.child_lt ha hc
      omega
    · rw [List.pairwise_iff_getElem]
      intro i j hi hj hij x hxi hxj
      have hi' := List.getElem?_eq_getElem hi
      have hj' := List.getElem?_eq_getElem hj
      have hxi := (hgrounded.child (List.getElem_mem hi)).mem_preorder.1 hxi
      have hxj := (hgrounded.child (List.getElem_mem hj)).mem_preorder.1 hxj
      exact absurd (h.apart ha hi' hj' hxi hxj) (Nat.ne_of_lt hij)

theorem nodup_elements (h : t.WellFormed) : t.elements.Nodup := by
  rw [(h.grounded (.refl _)).elements_eq]
  exact (h.nodup_preorder (.refl _)).filter _

end WellFormed

end MarkupEditor.Tree
