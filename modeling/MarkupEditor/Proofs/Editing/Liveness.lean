import MarkupEditor.Proofs.Editing.Removals
import MarkupEditor.Proofs.Editing.Tagging

set_option autoImplicit false

namespace MarkupEditor

namespace Tree

variable {t u : Tree} {x y c element marker : NodeId} {spot : NodeId → Prop} {out : NodeId → NodeId → Prop}

theorem Grounded.not_reaches_parent (h : t.Grounded x) (hc : c ∈ t.childIds x) : ¬ t.Reaches c x := by
  induction h generalizing c with
  | intro x _ ih =>
    intro back
    cases back with
    | refl => exact ih x hc hc (.refl x)
    | step hd below => exact ih c hc hd (below.child hc)

/-- New nodes are put over nodes from before, and nodes from before over new ones, but never in a circle. -/
theorem Rewrites.grounded (h : Rewrites spot out t u) (stored : t.Stored) (hx : x.index < t.size) (down : t.Grounded x) :
    u.Grounded x := by
  induction down with
  | intro x _ ih =>
    have below : ∀ c ∈ t.childIds x, u.Grounded c := fun c hc => by
      obtain ⟨node, hn, hmem⟩ := exists_get?_of_mem_childIds hc
      exact ih c hc (stored hn c hmem)
    refine .intro fun c made => ?_
    rcases h.made x hx c made with hc | sprouts
    · exact below c hc
    · clear made
      induction sprouts with
      | new _ _ _ ih =>
        refine .intro fun d hd => ?_
        by_cases kept : d ∈ t.childIds x
        · exact below d kept
        · exact ih d hd kept

/-- A way from before is there, or it led through what is gone. -/
theorem Rewrites.reaches {gone : NodeId → Prop}
    (h : Rewrites spot (fun x c => u.Reaches x c ∨ t.Barren c ∨ gone c) t u) (hxy : t.Reaches x y)
    (isElement : t.isElement y = true) : u.Reaches x y ∨ ∃ c, gone c ∧ t.Reaches c y := by
  induction hxy with
  | refl x => exact .inl (.refl x)
  | @step x c y hc below ih =>
    rcases ih isElement with rest | lost
    · rcases h.kept x c hc with hc | hc | barren | removed
      · exact .inl (.step hc rest)
      · exact .inl (hc.trans rest)
      · exact absurd (barren y below) (by simp [isElement])
      · exact .inr ⟨c, removed, below⟩
    · exact .inr lost

theorem Rewrites.reached_before (h : Rewrites spot out t u) (stored : t.Stored) (hx : x.index < t.size)
    (hy : y.index < t.size) (hxy : u.Reaches x y) : t.Reaches x y := by
  suffices (x.index < t.size → t.Reaches x y) ∧
      ∀ z, (∀ c ∈ t.childIds z, c.index < t.size) → Sprouts t u (t.childIds z) x → t.Reaches z y from this.1 hx
  clear hx
  induction hxy with
  | refl y =>
    refine ⟨fun _ => .refl y, fun z _ sprouts => ?_⟩
    cases sprouts with
    | new low => exact absurd hy (Nat.not_lt_of_le low)
  | @step x c y hc _ ih =>
    obtain ⟨old, new⟩ := ih hy
    refine ⟨fun hx => ?_, fun z below sprouts => ?_⟩
    · have below : ∀ c ∈ t.childIds x, c.index < t.size := fun c hc => by
        obtain ⟨node, hn, hmem⟩ := exists_get?_of_mem_childIds hc
        exact stored hn c hmem
      rcases h.made x hx c hc with kept | sprouts
      · exact .step kept (old (below c kept))
      · exact new x below sprouts
    · cases sprouts with
      | new _ _ more =>
        by_cases kept : c ∈ t.childIds z
        · exact .step kept (old (below c kept))
        · exact new z below (more c hc kept)

def Numbered (t : Tree) (marker : NodeId) (number : Nat) : Prop :=
  ∃ value, t.attributeValue? marker = some value ∧ t.literal? value = some (.number (Binary64.ofNat number))

theorem exists_of_attributeValue? {attr : NodeId} (h : t.attributeValue? attr = some c) :
    ∃ name span, t.get? attr = some ⟨.namedAttribute name (some c), span⟩ := by
  unfold attributeValue? at h
  split at h
  · rename_i name value hk
    obtain ⟨⟨kind, span⟩, hn, rfl⟩ := Option.map_eq_some_iff.1 hk
    exact ⟨name, span, h ▸ hn⟩
  · cases h

theorem exists_of_literal? {value : Literal} (h : t.literal? x = some value) :
    ∃ raw span, t.get? x = some ⟨.literal value raw, span⟩ := by
  unfold literal? at h
  split at h
  · rename_i other raw hk
    obtain ⟨⟨kind, span⟩, hn, rfl⟩ := Option.map_eq_some_iff.1 hk
    obtain rfl := Option.some.inj h
    exact ⟨raw, span, hn⟩
  · cases h

theorem mem_childIds_of_styleObject? {object : NodeId} (h : t.styleObject? element = some object) :
    ∃ attr ∈ t.attributesOf element, ∃ container ∈ t.childIds attr, object ∈ t.childIds container := by
  obtain ⟨attr, found, hvalue⟩ := Option.bind_eq_some_iff.1 h
  obtain ⟨container, hcontainer, hobject⟩ := Option.bind_eq_some_iff.1 hvalue
  obtain ⟨_, _, hattr⟩ := exists_of_attributeValue? hcontainer
  obtain ⟨_, hn⟩ := exists_of_contained? (Option.filter_eq_some_iff.1 hobject).1
  refine ⟨attr, (exists_of_findAttribute? found).1, container, ?_, ?_⟩
  · rw [childIds_of_get? hattr]
    exact List.mem_singleton.2 rfl
  · rw [childIds_of_get? hn]
    exact List.mem_singleton.2 rfl

theorem mem_childIds_of_mem_attributesOf (h : x ∈ t.attributesOf element) : x ∈ t.childIds element := by
  unfold attributesOf at h
  split at h
  · rename_i hk
    rw [childIds, hk]
    exact List.mem_append_left _ h
  · cases h

theorem isNamed_unique {name other : String} (h : t.isNamed name x = true) (h' : t.isNamed other x = true) :
    name = other := by
  unfold isNamed at h h'
  split at h
  · rename_i hk
    simp only [hk] at h'
    exact (beq_iff_eq.1 h).symm.trans (beq_iff_eq.1 h')
  · cases h

end Tree

namespace Mutation

variable {t u : Tree} {m : Mutation} {element e c marker : NodeId} {number : Nat}

theorem Removes.below (h : Removes t element m c) : ∃ attr ∈ t.childIds element, t.Reaches attr c := by
  have value {attr c : NodeId} {name : String} (found : t.findAttribute? element name = some attr)
      (holds : t.attributeValue? attr = some c) : ∃ attr ∈ t.childIds element, t.Reaches attr c := by
    obtain ⟨_, _, hattr⟩ := Tree.exists_of_attributeValue? holds
    refine ⟨attr, Tree.mem_childIds_of_mem_attributesOf (Tree.exists_of_findAttribute? found).1, ?_⟩
    refine .step ?_ (.refl c)
    rw [Tree.childIds_of_get? hattr]
    exact List.mem_singleton.2 rfl
  cases h with
  | value found holds => exact value found holds
  | style found holds plain => exact value found holds
  | property found among named =>
    obtain ⟨attr, hattr, container, hcontainer, hobject⟩ := Tree.mem_childIds_of_styleObject? found
    obtain ⟨properties, _, hn⟩ := Tree.exists_of_styleObject? found
    refine ⟨attr, Tree.mem_childIds_of_mem_attributesOf hattr, .step hcontainer (.step hobject (.step ?_ (.refl c)))⟩
    rw [Tree.childIds_of_get? hn]
    rwa [Tree.propertiesOf, Tree.kind?_of_get? hn] at among

namespace Effect

/-- An element that is reached is still reached after a request for it. -/
theorem reaches_self (h : m.Effect t element u) (grounded : t.Grounded t.root) (isElement : t.isElement element = true)
    (reached : t.Reaches t.root element) : u.Reaches u.root element := by
  rw [h.rewrites.root]
  refine (h.rewrites.reaches reached isElement).resolve_right ?_
  rintro ⟨c, removed, back⟩
  obtain ⟨attr, hattr, below⟩ := removed.below
  have cycle : t.Reaches attr element := below.trans back
  exact (grounded.reaches reached).not_reaches_parent hattr cycle

theorem filter_isMarker (h : m.Effect t element u) (stored : t.Stored) (isElement : t.isElement e = true)
    (owns : (t.attributesOf e).filter t.isMarker = [marker]) : (u.attributesOf e).filter u.isMarker = [marker] := by
  obtain ⟨span, name, as, xs, closed, hn⟩ := Tree.exists_of_isElement isElement
  have old : (t.attributesOf e).filter u.isMarker = [marker] := by
    rw [← owns]
    refine List.filter_congr fun a ha => h.rewrites.isNamed markerAttribute (stored hn a ?_)
    rw [Tree.attributesOf_eq hn] at ha
    exact List.mem_append_left _ ha
  by_cases same : e = element
  · subst same
    obtain ⟨added, attributes, new⟩ := h.adds
    have plain : ∀ a ∈ added, ¬ u.isMarker a = true := by
      intro a ha isMarker
      obtain ⟨other, -, missing, named⟩ := new a ha
      obtain rfl := Tree.isNamed_unique isMarker named
      have hmarker : marker ∈ (t.attributesOf e).filter t.isMarker := owns ▸ List.mem_singleton.2 rfl
      obtain ⟨hmem, isMarker⟩ := List.mem_filter.1 hmarker
      exact absurd isMarker (List.find?_eq_none.1 missing marker hmem)
    rw [attributes, List.filter_append, old, List.filter_eq_nil_iff.2 plain, List.append_nil]
  · have unchanged : u.get? e = t.get? e := by
      rcases h.rewrites.frame e _ hn with same' | (same' | ⟨name, -, found⟩) | styling
      · rw [same', hn]
      · exact absurd same' same
      · obtain ⟨-, _, _, hattr⟩ := Tree.exists_of_findAttribute? found
        rw [hn] at hattr
        cases hattr
      · cases styling
    rwa [Tree.attributesOf, Tree.kind?, unchanged]

theorem numbered (h : m.Effect t element u) (isElement : t.isElement element = true)
    (numbered : t.Numbered marker number) (other : ∀ name, m.attribute? = some name →
      t.findAttribute? element name ≠ some marker) : u.Numbered marker number := by
  obtain ⟨value, holds, hliteral⟩ := numbered
  obtain ⟨_, _, _, _, _, hn⟩ := Tree.exists_of_isElement isElement
  obtain ⟨name, span, hmarker⟩ := Tree.exists_of_attributeValue? holds
  obtain ⟨raw, span', hvalue⟩ := Tree.exists_of_literal? hliteral
  have marker' : u.get? marker = t.get? marker := by
    rcases h.rewrites.frame marker _ hmarker with same | (rfl | ⟨name, writes, found⟩) | styling
    · rw [same, hmarker]
    · rw [hn] at hmarker
      cases hmarker
    · exact absurd found (other name writes)
    · cases styling
  have value' : u.get? value = t.get? value := by
    rcases h.rewrites.frame value _ hvalue with same | (rfl | ⟨name, -, found⟩) | styling
    · rw [same, hvalue]
    · rw [hn] at hvalue
      cases hvalue
    · obtain ⟨-, _, _, hattr⟩ := Tree.exists_of_findAttribute? found
      rw [hvalue] at hattr
      cases hattr
    · cases styling
  refine ⟨value, ?_, ?_⟩
  · rw [Tree.attributeValue?, Tree.kind?, marker', hmarker]
    rfl
  · rw [Tree.literal?, Tree.kind?, value', hvalue]
    rfl

end Effect

end Mutation

end MarkupEditor
