import MarkupEditor.Proofs.Editing.Liveness
import MarkupEditor.Proofs.Editing.StyleReads

set_option autoImplicit false

namespace MarkupEditor

namespace Tree

variable {t u v : Tree} {element object p q x : NodeId} {properties earlier before after : List NodeId}
  {fates : List (Option NodeId)} {fate : Option NodeId} {styles : StyleMap} {name value : String}

/-- No node has two parents. -/
def SoleParents (t : Tree) : Prop :=
  ∀ ⦃x y c⦄, c ∈ t.childIds x → c ∈ t.childIds y → x = y

/-- What a map that is written to the properties of an object keeps. -/
structure KeepsStyle (t u : Tree) (object : NodeId) (properties : List NodeId) (styles : StyleMap) : Prop where
  order : ∃ fates added, u.propertiesOf object = fates.reduceOption ++ added ∧
    t.Fates u styles [] properties fates ∧ ∀ q ∈ added, t.size ≤ q.index
  unknown : ∀ p ∈ properties, t.declaration? p = none →
    (∀ name, t.propertyName? p = some name → styles.get? name = none) →
      p ∈ u.propertiesOf object ∧ u.get? p = t.get? p ∧
        (¬ t.Reaches p object → ∀ x, t.Reaches p x → u.get? x = t.get? x)
  equal : ∀ before p after, properties = before ++ p :: after → ∀ name value,
    t.declaration? p = some (name, value) → styles.get? name = some value →
      (∀ q ∈ before, t.propertyName? q ≠ some name) →
        p ∈ u.propertiesOf object ∧ u.get? p = t.get? p ∧ ∀ c ∈ t.childIds p, u.get? c = t.get? c
  others : ∀ x, x.index < t.size → x ≠ object → u.get? x = t.get? x ∨ x ∈ properties ∧ t.Updated u styles x

theorem ensureStyle_of_styleObject? (found : t.styleObject? element = some object) :
    t.ensureStyle element = some (object, t) := by
  have helement := isElement_of_styleObject? found
  obtain ⟨attr, container, hattr, holds, contained, isObject⟩ := styleObject?_eq_some.1 found
  simp only [ensureStyle, helement, hattr, ensureObject, holds, Option.bind_some, contained, isObject, if_true]

theorem SoleParents.ne_object (sole : t.SoleParents) (found : t.styleObject? element = some object)
    (hp : p ∈ t.childIds object) : p ≠ object := by
  rintro rfl
  obtain ⟨attr, container, -, -, contained, isObject⟩ := styleObject?_eq_some.1 found
  obtain ⟨span, hcontainer⟩ := exists_of_contained? contained
  obtain ⟨_, _, hobject⟩ := exists_of_isObject isObject
  have hc : p ∈ t.childIds container := by
    rw [childIds_of_get? hcontainer]
    exact List.mem_singleton.2 rfl
  rw [← sole hc hp, hcontainer] at hobject
  cases hobject

theorem Fates.exists_fate (h : t.Fates v styles earlier (before ++ p :: after) fates) :
    ∃ fate ∈ fates, t.Fate v styles (earlier ++ before) p fate := by
  induction before generalizing earlier fates with
  | nil =>
    cases h with
    | cons first => exact ⟨_, List.mem_cons_self, (List.append_nil earlier).symm ▸ first⟩
  | cons q before ih =>
    cases h with
    | cons _ rest =>
      obtain ⟨fate, hmem, hfate⟩ := ih rest
      rw [List.append_assoc] at hfate
      exact ⟨fate, List.mem_cons_of_mem _ hmem, hfate⟩

theorem Fate.of_unknown (h : t.Fate v styles earlier p fate) (unknown : t.declaration? p = none)
    (unnamed : ∀ name, t.propertyName? p = some name → styles.get? name = none) : fate = some p := by
  cases h with
  | same | updated => rfl
  | replaced _ named found =>
    rw [unnamed _ named] at found
    cases found
  | dropped declared =>
    rw [unknown] at declared
    cases declared

theorem Fate.of_first (h : t.Fate v styles earlier p fate) (declared : t.declaration? p = some (name, value))
    (named : styles.get? name ≠ none) (first : ∀ q ∈ earlier, t.propertyName? q ≠ some name) : fate = some p := by
  cases h with
  | same | updated => rfl
  | replaced unknown =>
    rw [unknown] at declared
    cases declared
  | dropped declared' cause =>
    obtain ⟨rfl, rfl⟩ := Prod.mk.inj (Option.some.inj (declared.symm.trans declared'))
    obtain missing | ⟨q, hq, hname⟩ := cause
    · exact absurd missing named
    · exact absurd hname (first q hq)

theorem Updated.mono (h : t.Updated v styles p)
    (later : ∀ id kind span, v.get? id = some ⟨kind, span⟩ → (∀ properties, kind ≠ .object properties) →
      u.get? id = some ⟨kind, span⟩) : t.Updated u styles p := by
  obtain ⟨before, declared, found, changed, after, literal⟩ := h
  exact .intro before declared found changed (later _ _ _ after fun _ => nofun) (later _ _ _ literal fun _ => nofun)

theorem Fate.mono (h : t.Fate v styles earlier p fate) (hp : v.get? p = t.get? p → u.get? p = t.get? p)
    (later : ∀ id kind span, v.get? id = some ⟨kind, span⟩ → (∀ properties, kind ≠ .object properties) →
      u.get? id = some ⟨kind, span⟩) : t.Fate u styles earlier p fate := by
  cases h with
  | same same cause => exact .same (hp same) cause
  | updated updated => exact .updated (updated.mono later)
  | replaced unknown named found fresh declares =>
    obtain ⟨literal, hq, hl⟩ := declares
    exact .replaced unknown named found fresh ⟨literal, later _ _ _ hq fun _ => nofun, later _ _ _ hl fun _ => nofun⟩
  | dropped declared cause => exact .dropped declared cause

theorem Fates.mono (h : t.Fates v styles earlier properties fates)
    (hp : ∀ p ∈ properties, v.get? p = t.get? p → u.get? p = t.get? p)
    (later : ∀ id kind span, v.get? id = some ⟨kind, span⟩ → (∀ properties, kind ≠ .object properties) →
      u.get? id = some ⟨kind, span⟩) : t.Fates u styles earlier properties fates := by
  induction h with
  | nil => exact .nil
  | cons first _ ih =>
    exact .cons (first.mono (hp _ List.mem_cons_self) later) (ih fun p hmem => hp p (List.mem_cons_of_mem _ hmem))

theorem Fates.mem_reduceOption (h : t.Fates u styles [] properties fates) (split : properties = before ++ p :: after)
    (kept : ∀ fate, t.Fate u styles before p fate → fate = some p) : p ∈ fates.reduceOption := by
  rw [split] at h
  obtain ⟨fate, hmem, hfate⟩ := h.exists_fate
  exact List.reduceOption_mem_iff.2 (kept fate hfate ▸ hmem)

section

variable (others : ∀ x : NodeId, x.index < t.size → x ≠ object →
  u.get? x = t.get? x ∨ x ∈ properties ∧ t.Updated u styles x)

include others

theorem get?_of_undeclared (hx : x.index < t.size) (apart : x ≠ object) (undeclared : t.declaration? x = none) :
    u.get? x = t.get? x := by
  refine (others x hx apart).resolve_right fun ⟨_, updated⟩ => ?_
  obtain ⟨_, _, declared⟩ := updated.exists_declaration?
  rw [undeclared] at declared
  cases declared

/-- Where no node has two parents, what is below a property that stays has no declaration of the object. -/
theorem SoleParents.reached_same (sole : t.SoleParents) (stored : t.Stored) (below : t.childIds object = properties)
    (hp : p ∈ properties) (unknown : t.declaration? p = none) (clear : ¬ t.Reaches p object) (hx : t.Reaches p x) :
    u.get? x = t.get? x := by
  have inside {x y : NodeId} (h : x ∈ t.childIds y) : x.index < t.size := by
    obtain ⟨node, hn, hc⟩ := exists_get?_of_mem_childIds h
    exact stored hn x hc
  have apart : x ≠ object := by
    rintro rfl
    exact clear hx
  by_cases same : x = p
  · exact get?_of_undeclared others (inside (below ▸ same ▸ hp)) apart (same ▸ unknown)
  · obtain ⟨⟨parent, i⟩, hparent, hi⟩ := hx.parent same
    have hmem : x ∈ t.childIds parent := List.mem_of_getElem? hi
    refine (others x (inside hmem) apart).resolve_right fun ⟨among, _⟩ => clear ?_
    exact sole hmem (below ▸ among) ▸ hparent

theorem get?_of_equal (isObject : t.isObject object = true) (hp : p.index < t.size) (apart : p ≠ object)
    (declared : t.declaration? p = some (name, value)) (named : styles.get? name = some value) :
    u.get? p = t.get? p ∧ ∀ c ∈ t.childIds p, u.get? c = t.get? c := by
  refine ⟨(others p hp apart).resolve_right fun ⟨_, updated⟩ => ?_, fun c hc => ?_⟩
  · obtain ⟨other, found, changed, -⟩ := updated.declaration? declared
    exact changed (Option.some.inj (found.symm.trans named))
  · obtain ⟨key, content, span, literal, hn, hname, hl⟩ := exists_literal_of_declaration? declared
    rw [childIds_of_get? hn, NodeKind.children, PropertyKey.children_of_name? hname] at hc
    obtain rfl := List.mem_singleton.1 hc
    obtain ⟨raw, span', hc⟩ := exists_of_literal? hl
    obtain ⟨_, _, hobject⟩ := exists_of_isObject isObject
    refine get?_of_undeclared others (lt_size_of_get? hc) ?_ (by rw [declaration?, kind?_of_get? hc])
    rintro rfl
    cases hobject.symm.trans hc

end

/-- The properties that are written take the fates that the map has for them, and no node but the object is
written to besides. -/
theorem fates_writeStyle {span : Option Span} (stored : t.Stored)
    (hobject : t.get? object = some ⟨.object properties, span⟩)
    (found : t.styleObject? element = some object) (apart : ∀ p ∈ properties, p ≠ object) (styles : StyleMap) :
    (∃ fates added, (t.writeStyle element styles).propertiesOf object = fates.reduceOption ++ added ∧
      t.Fates (t.writeStyle element styles) styles [] properties fates ∧ ∀ q ∈ added, t.size ≤ q.index) ∧
    ∀ x, x.index < t.size → x ≠ object → (t.writeStyle element styles).get? x = t.get? x ∨
      x ∈ properties ∧ t.Updated (t.writeStyle element styles) styles x := by
  have inside : ∀ p ∈ properties, p.index < t.size := stored hobject
  obtain ⟨fates, kept, hfates⟩ := fates_writeProperties t styles properties stored inside
  have written := overwrites_writeProperties t styles properties stored
  let v := (t.writeProperties styles properties).2.2
  let left := (t.writeProperties styles properties).2.1
  let w := (v.allocDeclarations left).2
  let added := (v.allocDeclarations left).1
  let u := w.setKind object (.object (fates.reduceOption ++ added))
  obtain ⟨allocated, fresh, -⟩ := declares_allocDeclarations v left
  have hobject' : w.get? object = some ⟨.object properties, span⟩ :=
    get?_allocDeclarations_object (get?_writeProperties_object hobject styles properties) left
  have heq : t.writeStyle element styles = u := by
    rw [writeStyle_eq (ensureStyle_of_styleObject? found) hobject, kept]
  have hu : u.propertiesOf object = fates.reduceOption ++ added := propertiesOf_setObject hobject' _
  have later {x : NodeId} (hx : x.index < v.size) (hne : x ≠ object) : u.get? x = v.get? x := by
    have same : w.get? x = v.get? x :=
      (allocated.node x hx).resolve_right fun ⟨hmem, _⟩ => absurd hmem List.not_mem_nil
    rw [get?_setKind_ne (Ne.symm hne), same]
  have after {x : NodeId} (hx : x.index < t.size) (hne : x ≠ object) : u.get? x = v.get? x :=
    later (Nat.lt_of_lt_of_le hx written.size) hne
  have plain : ∀ id kind span, v.get? id = some ⟨kind, span⟩ → (∀ properties, kind ≠ .object properties) →
      u.get? id = some ⟨kind, span⟩ := by
    intro id kind span' hid no
    refine (later (lt_size_of_get? hid) ?_).trans hid
    rintro rfl
    cases (get?_writeProperties_object hobject styles properties).symm.trans hid
    exact no properties rfl
  rw [heq]
  refine ⟨⟨fates, added, hu, hfates.mono (fun p hp => (after (inside p hp) (apart p hp)).trans) plain,
    fun q hq => Nat.le_trans written.size (fresh q hq)⟩, fun x hx hne => ?_⟩
  obtain same | ⟨hmem, updated⟩ := written.node x hx
  · exact .inl ((after hx hne).trans same)
  · exact .inr ⟨hmem, updated.mono plain⟩

/-- Writing a map to a style object keeps what it does not understand and what has its value. -/
theorem styles_keep (stored : t.Stored) (sole : t.SoleParents) (found : t.styleObject? element = some object)
    (styles : StyleMap) : t.KeepsStyle (t.writeStyle element styles) object (t.propertiesOf object) styles := by
  obtain ⟨properties, span, hobject⟩ := exists_of_styleObject? found
  have hproperties : t.propertiesOf object = properties := by rw [propertiesOf, kind?_of_get? hobject]
  have isObject : t.isObject object = true := by rw [isObject, kind?_of_get? hobject]
  have below : t.childIds object = properties := childIds_of_get? hobject
  have inside : ∀ p ∈ properties, p.index < t.size := stored hobject
  have apart : ∀ p ∈ properties, p ≠ object := fun p hp => sole.ne_object found (below ▸ hp)
  obtain ⟨⟨fates, added, listed, hfates, fresh⟩, others⟩ := fates_writeStyle stored hobject found apart styles
  rw [hproperties]
  refine ⟨⟨fates, added, listed, hfates, fresh⟩, fun p hp unknown unnamed => ?_,
    fun before p after split name value declared named first => ?_, others⟩
  · obtain ⟨before, after, split⟩ := List.append_of_mem hp
    have stays := hfates.mem_reduceOption split fun _ h => h.of_unknown unknown unnamed
    exact ⟨listed ▸ List.mem_append_left _ stays, get?_of_undeclared others (inside p hp) (apart p hp) unknown,
      fun clear x hx => sole.reached_same others stored below hp unknown clear hx⟩
  · have hp : p ∈ properties := split ▸ List.mem_append_right _ List.mem_cons_self
    have stays := hfates.mem_reduceOption split fun _ h =>
      h.of_first declared (by rw [named]; exact Option.some_ne_none _) first
    exact ⟨listed ▸ List.mem_append_left _ stays,
      get?_of_equal others isObject (inside p hp) (apart p hp) declared named⟩

theorem soleParents_of_all (h : ∀ i < t.size, ∀ j < t.size, ∀ c ∈ t.childIds ⟨i⟩, c ∈ t.childIds ⟨j⟩ → i = j) :
    t.SoleParents := by
  intro x y c hx hy
  have inside {z : NodeId} (hz : c ∈ t.childIds z) : z.index < t.size := by
    obtain ⟨node, hn, -⟩ := exists_get?_of_mem_childIds hz
    exact lt_size_of_get? hn
  exact congrArg NodeId.mk (h x.index (inside hx) y.index (inside hy) c hx hy)

/-- The style has a name twice, a spread, a computed name and a value that is no literal. -/
theorem styles_keep_mixed : ∃ (t : Tree) (element object : NodeId),
    parse "<p style=\x7b\x7b color: 'red', ...base, 'color': 'blue', [k]: 1, margin: m \x7d\x7d />" = .ok t ∧
      t.Stored ∧ t.SoleParents ∧ t.styleObject? element = some object ∧
      t.KeepsStyle (t.writeStyle element [("margin", "0"), ("color", "red")]) object (t.propertiesOf object)
        [("margin", "0"), ("color", "red")] := by
  have told : (parse "<p style=\x7b\x7b color: 'red', ...base, 'color': 'blue', [k]: 1, margin: m \x7d\x7d />").toOption.any
      (fun t => t.elements.any (fun e => (t.styleObject? e).isSome) &&
        decide (∀ i < t.size, ∀ j < t.size, ∀ c ∈ t.childIds ⟨i⟩, c ∈ t.childIds ⟨j⟩ → i = j)) = true := by
    decide +kernel
  obtain ⟨t, parsed, told⟩ := exists_parse told
  obtain ⟨styled, sole⟩ := Bool.and_eq_true_iff.1 told
  obtain ⟨element, -, styled⟩ := List.any_eq_true.1 styled
  obtain ⟨object, found⟩ := Option.isSome_iff_exists.1 styled
  have sole := soleParents_of_all (of_decide_eq_true sole)
  have stored := (parseWith_reads parsed).1.stored
  exact ⟨t, element, object, parsed, stored, sole, found, styles_keep stored sole found _⟩

/-- Of two declarations of a name the second is dropped, also if it is the one that has the value: the first
takes what the map has for the name. -/
theorem styles_keep_repeated : ∃ (t : Tree) (element object first second : NodeId),
    parse "<div style=\x7b\x7b color: 'red', color: 'blue' \x7d\x7d />" = .ok t ∧ t.Stored ∧ t.SoleParents ∧
      t.styleObject? element = some object ∧ t.propertiesOf object = [first, second] ∧
      t.declaration? second = some ("color", "blue") ∧
      (t.writeStyle element [("color", "blue")]).propertiesOf object = [first] ∧ first ≠ second := by
  have told : (parse "<div style=\x7b\x7b color: 'red', color: 'blue' \x7d\x7d />").toOption.any
      (fun t => t.elements.any (fun e => (t.styleObject? e).any fun o =>
        (t.propertiesOf o)[0]?.any fun p => (t.propertiesOf o)[1]?.any fun q =>
          decide (t.propertiesOf o = [p, q] ∧ t.declaration? q = some ("color", "blue") ∧
            (t.writeStyle e [("color", "blue")]).propertiesOf o = [p] ∧ p ≠ q)) &&
        decide (∀ i < t.size, ∀ j < t.size, ∀ c ∈ t.childIds ⟨i⟩, c ∈ t.childIds ⟨j⟩ → i = j)) = true := by
    decide +kernel
  obtain ⟨t, parsed, told⟩ := exists_parse told
  obtain ⟨styled, sole⟩ := Bool.and_eq_true_iff.1 told
  obtain ⟨element, -, styled⟩ := List.any_eq_true.1 styled
  obtain ⟨object, found, told⟩ := (Option.any_eq_true _ _).1 styled
  obtain ⟨first, -, told⟩ := (Option.any_eq_true _ _).1 told
  obtain ⟨second, -, told⟩ := (Option.any_eq_true _ _).1 told
  obtain ⟨both, declared, one, apart⟩ := of_decide_eq_true told
  exact ⟨t, element, object, first, second, parsed, (parseWith_reads parsed).1.stored,
    soleParents_of_all (of_decide_eq_true sole), found, both, declared, one, apart⟩

end Tree

end MarkupEditor
