import MarkupEditor.Proofs.Editing.Tagging
/-!
# Areas of elements

The area of an element is the element itself with its attributes, its texts and the expressions below it, as
far as no other element comes between. In a tagged tree no node has two parents, new markers included, so
the areas of two elements have nothing in common.
-/

set_option autoImplicit false

namespace MarkupEditor

namespace Tree

variable {t u : Tree} {a b e p q x : NodeId} {number : Nat} {elements : List NodeId}

/-- The area of an element. -/
inductive Around (t : Tree) (a : NodeId) : NodeId → Prop where
  | self : Around t a a
  | step {p x : NodeId} (h : Around t a p) (hx : x ∈ t.childIds p) (plain : t.isElement x = false) :
    Around t a x

/-- Live nodes are found with their children, and none has two live parents. -/
structure OneParent (t : Tree) (live : NodeId → Prop) : Prop where
  child : ∀ p, live p → ∀ x ∈ t.childIds p, live x
  parent : ∀ p q x, live p → live q → x ∈ t.childIds p → x ∈ t.childIds q → p = q

namespace OneParent

variable {live : NodeId → Prop}

theorem around (h : t.OneParent live) (ha : live a) (hx : t.Around a x) : live x := by
  induction hx with
  | self => exact ha
  | step _ hx _ ih => exact h.child _ ih _ hx

theorem around_unique (h : t.OneParent live) (ha : live a) (hb : live b) (elementA : t.isElement a = true)
    (elementB : t.isElement b = true) (hax : t.Around a x) (hbx : t.Around b x) : a = b := by
  induction hax with
  | self =>
    cases hbx with
    | self => rfl
    | step _ _ plain => exact absurd (elementA.symm.trans plain) nofun
  | @step p x hap hx plain ih =>
    cases hbx with
    | self => exact absurd (elementB.symm.trans plain) nofun
    | @step q _ hbq hx' _ =>
      obtain rfl := h.parent p q x (h.around ha hap) (h.around hb hbq) hx hx'
      exact ih hbq

end OneParent

/-- Where marking puts the markers: those of the elements come one after the other, each after its number. -/
structure Places (t : Tree) (number : Nat) (elements : List NodeId) (u : Tree) : Prop where
  size : u.size = t.size + 2 * elements.length
  marker : ∀ i < elements.length, u.HasMarker (number + i) ⟨t.size + 2 * i + 1⟩ ⟨t.size + 2 * i⟩
  element : ∀ i e span name as xs closed, elements[i]? = some e →
    t.get? e = some (elementNode span name as xs closed) →
    u.get? e = some (elementNode span name (remark t.isMarker ⟨t.size + 2 * i + 1⟩ as) xs closed)

theorem places_markAll (distinct : elements.Nodup) (all : t.AreElements elements) :
    t.Places number elements (t.markAll number elements) := by
  induction elements generalizing t number with
  | nil => exact ⟨rfl, nofun, nofun⟩
  | cons e es ih =>
    obtain ⟨new, distinct⟩ := List.nodup_cons.1 distinct
    obtain ⟨span, name, as, xs, closed, h, -⟩ := all e List.mem_cons_self
    have rest : t.AreElements es := fun e' he' => all e' (List.mem_cons_of_mem e he')
    have rest' : (t.mark e number).AreElements es := rest.mark h new
    obtain ⟨hsize, -, hmarker, hself, hold⟩ := mark_spec number h
    have more : (t.mark e number).Marked (number + 1) es ((t.mark e number).markAll (number + 1) es) :=
      marked_markAll distinct rest'
    have places : (t.mark e number).Places (number + 1) es ((t.mark e number).markAll (number + 1) es) :=
      ih distinct rest'
    have hes : ∀ id ∈ es, id.index < t.size := fun id hid => by
      obtain ⟨_, _, _, _, _, hget, -⟩ := rest id hid
      exact lt_size_of_get? hget
    have keep : ∀ id : NodeId, t.size ≤ id.index → id.index < t.size + 2 →
        (t.markAll number (e :: es)).get? id = (t.mark e number).get? id := fun id low high =>
      more.old id (by omega) fun hid => Nat.not_lt_of_le low (hes id hid)
    refine ⟨?_, fun i hi => ?_, fun i e' span' name' as' xs' closed' hi he' => ?_⟩
    · rw [markAll, places.size, hsize, List.length_cons]
      omega
    · cases i with
      | zero =>
        refine ⟨?_, ?_⟩
        · rw [keep _ (Nat.le_succ _) (Nat.lt_succ_self _)]
          exact hmarker.marker
        · rw [keep ⟨t.size + 2 * 0⟩ (Nat.le_refl _) (Nat.lt_add_of_pos_right (by decide))]
          exact hmarker.value
      | succ i =>
        have := places.marker i (Nat.lt_of_succ_lt_succ hi)
        rw [hsize] at this
        rwa [show number + (i + 1) = number + 1 + i by omega,
          show t.size + 2 * (i + 1) = t.size + 2 + 2 * i by omega]
    · cases i with
      | zero =>
        cases hi
        rw [h] at he'
        cases he'
        have stored : e.index < (t.mark e number).size := lt_size_of_get? hself
        rw [markAll, more.old e stored new, hself]
      | succ i =>
        have hmem : e' ∈ es := List.mem_of_getElem? hi
        obtain ⟨_, _, _, _, _, hget', hstored⟩ := rest e' hmem
        rw [he'] at hget'
        cases hget'
        have hget : (t.mark e number).get? e' = some (elementNode span' name' as' xs' closed') := by
          rw [hold e' (hes e' hmem) fun eq => new (eq ▸ hmem), he']
        have same : ∀ c ∈ as', (t.mark e number).isMarker c = t.isMarker c := fun c hc => by
          by_cases hce : c = e
          · rw [hce, isMarker_of_get? hself, isMarker_of_get? h]
          · rw [isMarker, isNamed, kind?, hold c (hstored c hc) hce]
            rfl
        have := places.element i e' span' name' as' xs' closed' hi hget
        rw [hsize, remark_congr same] at this
        rwa [show t.size + 2 * (i + 1) = t.size + 2 + 2 * i by omega]

theorem Places.parent (places : t.Places 0 elements u) (marked : t.Marked 0 elements u)
    (all : t.AreElements elements) (stored : t.Stored) (fresh : t.size ≤ x.index) (hx : x ∈ u.childIds p) :
    ∃ i, (elements[i]? = some p ∧ x.index = t.size + 2 * i + 1) ∨
      (p.index = t.size + 2 * i + 1 ∧ x.index = t.size + 2 * i) := by
  by_cases hp : p.index < t.size
  · by_cases helement : p ∈ elements
    · obtain ⟨i, hi⟩ := List.mem_iff_getElem?.1 helement
      obtain ⟨span, name, as, xs, closed, hget, -⟩ := all p helement
      have old : ∀ c ∈ as ++ xs, c.index < t.size := stored hget
      rw [childIds_of_get? (places.element i p span name as xs closed hi hget)] at hx
      refine ⟨i, .inl ⟨hi, ?_⟩⟩
      rcases List.mem_append.1 hx with hx | hx
      · obtain rfl | ⟨hx, -⟩ := mem_remark hx
        · rfl
        · exact absurd (old x (List.mem_append_left _ hx)) (Nat.not_lt_of_le fresh)
      · exact absurd (old x (List.mem_append_right _ hx)) (Nat.not_lt_of_le fresh)
    · rw [childIds, kind?, marked.old p hp helement] at hx
      obtain ⟨node, hn, hc⟩ := exists_get?_of_mem_childIds hx
      exact absurd (stored hn x hc) (Nat.not_lt_of_le fresh)
  · obtain ⟨node, hn, -⟩ := exists_get?_of_mem_childIds hx
    have high := lt_size_of_get? hn
    rw [places.size] at high
    obtain ⟨i, hi, heven | hodd⟩ : ∃ i < elements.length,
        p.index = t.size + 2 * i ∨ p.index = t.size + 2 * i + 1 :=
      ⟨(p.index - t.size) / 2, by omega, by omega⟩
    · obtain rfl : p = ⟨t.size + 2 * i⟩ := congrArg NodeId.mk heven
      rw [childIds_of_get? (places.marker i hi).value] at hx
      cases hx
    · obtain rfl : p = ⟨t.size + 2 * i + 1⟩ := congrArg NodeId.mk hodd
      rw [childIds_of_get? (places.marker i hi).marker] at hx
      exact ⟨i, .inr ⟨rfl, congrArg NodeId.index (List.mem_singleton.1 hx)⟩⟩

theorem Places.stored (places : t.Places 0 elements u) (marked : t.Marked 0 elements u)
    (all : t.AreElements elements) (stored : t.Stored) : u.Stored := by
  intro p node hn x hx
  have hx : x ∈ u.childIds p := (childIds_of_get? hn).symm ▸ hx
  have high := lt_size_of_get? hn
  have := places.size
  by_cases old : x.index < t.size
  · omega
  · obtain ⟨i, ⟨hi, hx⟩ | ⟨hp, hx⟩⟩ := places.parent marked all stored (Nat.le_of_not_lt old) hx
    · have := (List.getElem?_eq_some_iff.1 hi).1
      omega
    · omega

/-- What is known of a tree that was parsed when its elements are marked. -/
structure Tagging (t : Tree) : Prop where
  wellFormed : t.WellFormed
  stored : t.Stored
  root : t.root.index < t.size
  grounded : t.Grounded t.root
  all : t.AreElements t.elements
  marked : t.Marked 0 t.elements t.tag.tree
  places : t.Places 0 t.elements t.tag.tree

theorem Tagging.marker {i : Nat} (h : t.Tagging) (hi : t.elements[i]? = some e) :
    (t.tag.tree.attributesOf e).filter t.tag.tree.isMarker = [⟨t.size + 2 * i + 1⟩] ∧
      t.tag.tree.HasMarker i ⟨t.size + 2 * i + 1⟩ ⟨t.size + 2 * i⟩ := by
  obtain ⟨span, name, as, xs, closed, hn, -⟩ := h.all e (List.mem_of_getElem? hi)
  have hmarker := h.places.marker i (List.getElem?_eq_some_iff.1 hi).1
  rw [Nat.zero_add] at hmarker
  have same : ∀ a ∈ as, t.isMarker a = t.tag.tree.isMarker a := fun a ha =>
    (h.marked.isMarker h.all (h.stored hn a (List.mem_append_left _ ha))).symm
  refine ⟨?_, hmarker⟩
  rw [attributesOf_eq (h.places.element i e span name as xs closed hi hn), remark_congr same,
    filter_remark hmarker.isMarker]

theorem Tagging.grounded_tag (h : t.Tagging) : t.tag.tree.Grounded t.tag.tree.root := by
  rw [show t.tag.tree.root = t.root from h.marked.root]
  exact (h.marked.unmarked_shape h.all h.stored h.grounded h.root).1

theorem Tagging.oneParent (h : t.Tagging) : t.tag.tree.OneParent fun x => x.index < t.size → t.Reaches t.root x := by
  have old {p x : NodeId} (hx : x ∈ t.tag.tree.childIds p) (hold : x.index < t.size) :
      p.index < t.size ∧ x ∈ t.childIds p := by
    have hp : p.index < t.size := by
      refine Nat.lt_of_not_le fun fresh => Nat.not_le_of_lt hold ?_
      exact h.marked.fresh_childIds fresh hx
    exact ⟨hp, (h.marked.childIds h.all hp hx).resolve_right (Nat.not_le_of_lt hold)⟩
  refine ⟨fun p hp x hx hold => ?_, fun p q x hp hq hxp hxq => ?_⟩
  · obtain ⟨hstored, hchild⟩ := old hx hold
    exact (hp hstored).child hchild
  · by_cases hold : x.index < t.size
    · obtain ⟨hps, hpx⟩ := old hxp hold
      obtain ⟨hqs, hqx⟩ := old hxq hold
      exact h.wellFormed.parent_eq (hp hps) (hq hqs) hpx hqx
    · have fresh := Nat.le_of_not_lt hold
      obtain ⟨i, ⟨hpi, hxi⟩ | ⟨hpi, hxi⟩⟩ := h.places.parent h.marked h.all h.stored fresh hxp <;>
        obtain ⟨j, ⟨hqj, hxj⟩ | ⟨hqj, hxj⟩⟩ := h.places.parent h.marked h.all h.stored fresh hxq
      · obtain rfl : i = j := by omega
        exact Option.some.inj (hpi.symm.trans hqj)
      · omega
      · omega
      · obtain ⟨p⟩ := p
        obtain ⟨q⟩ := q
        simp only at hpi hqj
        exact congrArg NodeId.mk (by omega)

end Tree

theorem parse_tagging {source : String} {t : Tree} (parsed : parse source = .ok t) : t.Tagging := by
  obtain ⟨descending, root, -⟩ := parseWith_reads parsed
  have wellFormed := parseWith_wellFormed parsed
  have grounded := descending.grounded t.root
  have all := Tree.areElements_elements grounded descending.stored
  exact ⟨wellFormed, descending.stored, root, grounded, all, Tree.marked_markAll wellFormed.nodup_elements all,
    Tree.places_markAll wellFormed.nodup_elements all⟩

/-- The nodes of a tagged markup that can be picked are elements, and their areas have nothing in common. -/
structure Tagged.Separate (tagged : Tagged) : Prop where
  stored : tagged.tree.Stored
  root : tagged.tree.root.index < tagged.tree.size
  isElement : ∀ a ∈ tagged.mapping.nodes, tagged.tree.isElement a = true
  unique : ∀ a ∈ tagged.mapping.nodes, ∀ b ∈ tagged.mapping.nodes, ∀ x,
    tagged.tree.Around a x → tagged.tree.Around b x → a = b

theorem Tree.Tagging.separate {t : Tree} (h : t.Tagging) : t.tag.Separate := by
  have old : ∀ a ∈ t.elements, a.index < t.size := fun a ha => by
    obtain ⟨_, _, _, _, _, hget, -⟩ := h.all a ha
    exact Tree.lt_size_of_get? hget
  have element : ∀ a ∈ t.elements, t.tag.tree.isElement a = true := fun a ha =>
    (h.marked.isElement h.all (old a ha)).trans (h.grounded.mem_elements.1 ha).2
  refine ⟨h.places.stored h.marked h.all h.stored, ?_, element, fun a ha b hb x hax hbx => ?_⟩
  · rw [h.marked.root]
    exact Nat.lt_of_lt_of_le h.root h.marked.size
  · have live : ∀ a ∈ t.elements, a.index < t.size → t.Reaches t.root a := fun a ha _ =>
      (h.grounded.mem_elements.1 ha).1
    exact h.oneParent.around_unique (live a ha) (live b hb) (element a ha) (element b hb) hax hbx

end MarkupEditor
