import Mathlib.Data.List.InsertIdx
import MarkupEditor.Proofs.Editing.Forms

set_option autoImplicit false

namespace MarkupEditor

section

variable {α : Type}

/-- A list with one marker, at the place of the first one that there was or at the end. -/
def remark (isMarker : α → Bool) (marker : α) (items : List α) : List α :=
  let kept := items.filter fun item => !isMarker item
  kept.insertIdx ((items.findIdx? isMarker).getD kept.length) marker

theorem remark_nil (isMarker : α → Bool) (marker : α) : remark isMarker marker [] = [marker] :=
  rfl

theorem remark_marker {isMarker : α → Bool} {item : α} (h : isMarker item = true) (marker : α)
    (items : List α) :
    remark isMarker marker (item :: items) = marker :: items.filter fun item => !isMarker item := by
  simp [remark, List.findIdx?_cons, h]

theorem remark_plain {isMarker : α → Bool} {item : α} (h : isMarker item = false) (marker : α)
    (items : List α) : remark isMarker marker (item :: items) = item :: remark isMarker marker items := by
  simp only [remark, List.findIdx?_cons, h, List.filter_cons, Bool.not_false, if_true]
  cases items.findIdx? isMarker <;> rfl

theorem filter_remark {isMarker : α → Bool} {marker : α} (h : isMarker marker = true) (items : List α) :
    (remark isMarker marker items).filter isMarker = [marker] := by
  induction items with
  | nil => simp [remark_nil, h]
  | cons item items ih =>
    cases hitem : isMarker item with
    | true => simp [remark_marker hitem, h]
    | false => rw [remark_plain hitem, List.filter_cons_of_neg (by simp [hitem]), ih]

theorem filter_not_remark {isMarker : α → Bool} {marker : α} (h : isMarker marker = true)
    (items : List α) :
    ((remark isMarker marker items).filter fun item => !isMarker item) =
      items.filter fun item => !isMarker item := by
  induction items with
  | nil => simp [remark_nil, h]
  | cons item items ih =>
    cases hitem : isMarker item with
    | true => simp [remark_marker hitem, h, hitem]
    | false => simp [remark_plain hitem, hitem, ih]

theorem mem_remark {isMarker : α → Bool} {marker x : α} {items : List α}
    (h : x ∈ remark isMarker marker items) : x = marker ∨ x ∈ items ∧ isMarker x = false := by
  obtain rfl | hx := List.eq_or_mem_of_mem_insertIdx h
  · exact .inl rfl
  · obtain ⟨hx, hplain⟩ := List.mem_filter.1 hx
    exact .inr ⟨hx, by simpa using hplain⟩

theorem remark_congr {isMarker isMarker' : α → Bool} {marker : α} {items : List α}
    (h : ∀ item ∈ items, isMarker item = isMarker' item) :
    remark isMarker marker items = remark isMarker' marker items := by
  induction items with
  | nil => rfl
  | cons item items ih =>
    have hitem := h item List.mem_cons_self
    have hitems := fun other ho => h other (List.mem_cons_of_mem item ho)
    cases hmarker : isMarker item with
    | true =>
      rw [remark_marker hmarker, remark_marker (hitem ▸ hmarker), List.filter_congr]
      intro other ho
      rw [hitems other ho]
    | false => rw [remark_plain hmarker, remark_plain (hitem ▸ hmarker), ih hitems]

theorem map_remark {β : Type} {isMarker : α → Bool} {isMarker' : β → Bool} (f : α → β) {marker : α}
    {items : List α} (h : ∀ item ∈ items, isMarker' (f item) = isMarker item) :
    (remark isMarker marker items).map f = remark isMarker' (f marker) (items.map f) := by
  induction items with
  | nil => rfl
  | cons item items ih =>
    have hitem := h item List.mem_cons_self
    have hitems := fun other ho => h other (List.mem_cons_of_mem item ho)
    cases hmarker : isMarker item with
    | true =>
      rw [remark_marker hmarker, List.map_cons, List.map_cons, remark_marker (hitem.trans hmarker),
        List.filter_map]
      congr 2
      refine List.filter_congr fun other ho => ?_
      exact congrArg (! ·) (hitems other ho).symm
    | false =>
      rw [remark_plain hmarker, List.map_cons, List.map_cons, remark_plain (hitem.trans hmarker),
        ih hitems]

end

namespace Tree

variable {t u : Tree} {e id : NodeId} {number : Nat}

@[simp] theorem size_alloc (t : Tree) (kind : NodeKind NodeId) : (t.alloc kind).2.size = t.size + 1 := by
  simp [size, alloc, push]

@[simp] theorem alloc_fst (t : Tree) (kind : NodeKind NodeId) : (t.alloc kind).1 = ⟨t.size⟩ :=
  rfl

/-- A node of an element, as tagging sees it. -/
abbrev elementNode (span : Option Span) (name : String) (attributes children : List NodeId)
    (closed : Bool) : Node :=
  ⟨.element name attributes children closed, span⟩

variable {span : Option Span} {name : String} {as xs : List NodeId} {closed : Bool}

theorem attributesOf_eq (h : t.get? e = some (elementNode span name as xs closed)) :
    t.attributesOf e = as := by
  rw [attributesOf, kind?_of_get? h]

theorem setAttributes_eq (h : t.get? e = some (elementNode span name as xs closed)) (bs : List NodeId) :
    t.setAttributes e bs = t.setKind e (.element name bs xs closed) := by
  rw [setAttributes, kind?_of_get? h]

theorem get?_setKind_of_get? {node : Node} (h : t.get? e = some node) (kind : NodeKind NodeId) :
    (t.setKind e kind).get? e = some { node with kind } := by
  rw [get?_setKind_self, h]
  rfl

/-- The marker that an element is given: a number, and the attribute that holds it. -/
structure HasMarker (t : Tree) (number : Nat) (marker value : NodeId) : Prop where
  marker : t.get? marker = some ⟨.namedAttribute markerAttribute (some value), none⟩
  value : t.get? value = some ⟨.literal (.number (Binary64.ofNat number)) none, none⟩

theorem ne_of_index_ne {a b : NodeId} (h : a.index ≠ b.index) : a ≠ b :=
  fun he => h (congrArg NodeId.index he)

theorem mark_spec (number : Nat) (h : t.get? e = some (elementNode span name as xs closed)) :
    (t.mark e number).size = t.size + 2 ∧ (t.mark e number).root = t.root ∧
      (t.mark e number).HasMarker number ⟨t.size + 1⟩ ⟨t.size⟩ ∧
      (t.mark e number).get? e =
        some (elementNode span name (remark t.isMarker ⟨t.size + 1⟩ as) xs closed) ∧
      ∀ id, id.index < t.size → id ≠ e → (t.mark e number).get? id = t.get? id := by
  have he := lt_size_of_get? h
  let kept := as.filter fun a => !t.isMarker a
  let t₁ := t.setKind e (.element name kept xs closed)
  let t₂ := (t₁.alloc (.literal (.number (Binary64.ofNat number)) none)).2
  let t₃ := (t₂.alloc (.namedAttribute markerAttribute (some ⟨t.size⟩))).2
  have size₁ : t₁.size = t.size := size_setKind t e _
  have size₂ : t₂.size = t.size + 1 := (size_alloc t₁ _).trans (by rw [size₁])
  have size₃ : t₃.size = t.size + 2 := (size_alloc t₂ _).trans (by rw [size₂])
  have h₁ : t₁.get? e = some (elementNode span name kept xs closed) := get?_setKind_of_get? h _
  have h₃ : t₃.get? e = some (elementNode span name kept xs closed) := by
    rw [get?_alloc_old (by rw [size₂]; omega), get?_alloc_old (by rw [size₁]; exact he), h₁]
  have hmark : t.mark e number =
      t₃.setKind e (.element name (remark t.isMarker ⟨t.size + 1⟩ as) xs closed) := by
    rw [mark, removeMarkers, attributesOf_eq h, setAttributes_eq h]
    simp only [alloc_fst, size_alloc, size_setKind]
    change t₃.setAttributes e ((t₃.attributesOf e).insertIdx
      ((as.findIdx? t.isMarker).getD (t₃.attributesOf e).length) _) = _
    rw [attributesOf_eq h₃, setAttributes_eq h₃]
    rfl
  have old : ∀ id, id.index < t.size → id ≠ e → t₃.get? id = t.get? id := by
    intro id hid hne
    rw [get?_alloc_old (by rw [size₂]; omega), get?_alloc_old (by rw [size₁]; exact hid),
      get?_setKind_ne (Ne.symm hne)]
  have value : t₃.get? ⟨t.size⟩ = some ⟨.literal (.number (Binary64.ofNat number)) none, none⟩ := by
    rw [get?_alloc_old (by rw [size₂]; exact Nat.lt_succ_self _)]
    have := get?_alloc_new t₁ (.literal (.number (Binary64.ofNat number)) none)
    rwa [alloc_fst, size₁] at this
  have marker : t₃.get? ⟨t.size + 1⟩ =
      some ⟨.namedAttribute markerAttribute (some ⟨t.size⟩), none⟩ := by
    have := get?_alloc_new t₂ (.namedAttribute markerAttribute (some ⟨t.size⟩))
    rwa [alloc_fst, size₂] at this
  rw [hmark]
  refine ⟨(size_setKind _ _ _).trans size₃, rfl, ⟨?_, ?_⟩, get?_setKind_of_get? h₃ _, ?_⟩
  · have hne : e ≠ ⟨t.size + 1⟩ := ne_of_index_ne (Nat.ne_of_lt (Nat.lt_succ_of_lt he))
    rwa [get?_setKind_ne hne]
  · have hne : e ≠ ⟨t.size⟩ := ne_of_index_ne (Nat.ne_of_lt he)
    rwa [get?_setKind_ne hne]
  · intro id hid hne
    rw [get?_setKind_ne (Ne.symm hne), old id hid hne]

/-- What a tree is after some elements were marked with numbers from `number` on: these have their
markers, which are new nodes, and all other nodes are as before. -/
structure Marked (t : Tree) (number : Nat) (elements : List NodeId) (u : Tree) : Prop where
  size : t.size ≤ u.size
  root : u.root = t.root
  old : ∀ id, id.index < t.size → id ∉ elements → u.get? id = t.get? id
  marked : ∀ i e span name as xs closed, elements[i]? = some e →
    t.get? e = some (elementNode span name as xs closed) →
    ∃ marker value, t.size ≤ marker.index ∧ u.HasMarker (number + i) marker value ∧
      u.get? e = some (elementNode span name (remark t.isMarker marker as) xs closed)
  fresh : ∀ id, t.size ≤ id.index → id.index < u.size →
    ∃ k marker value, u.HasMarker k marker value ∧ t.size ≤ value.index ∧ (id = marker ∨ id = value)

def AreElements (t : Tree) (elements : List NodeId) : Prop :=
  ∀ e ∈ elements, ∃ span name as xs closed, t.get? e = some (elementNode span name as xs closed) ∧
    ∀ a ∈ as, a.index < t.size

theorem isMarker_of_get? {node : Node} (h : t.get? id = some node) :
    t.isMarker id = match node.kind with
      | .namedAttribute other _ => other == markerAttribute
      | _ => false := by
  rw [isMarker, isNamed, kind?_of_get? h]
  cases node.kind <;> rfl

theorem marked_nil (t : Tree) (number : Nat) : t.Marked number [] t where
  size := Nat.le_refl _
  root := rfl
  old _ _ _ := rfl
  marked := by
    intro i e span name as xs closed hi
    cases hi
  fresh id hlow hhigh := absurd hlow (Nat.not_le_of_lt hhigh)

theorem Marked.cons {es : List NodeId} (h : t.get? e = some (elementNode span name as xs closed))
    (new : e ∉ es) (all : t.AreElements es) (more : (t.mark e number).Marked (number + 1) es u) :
    t.Marked number (e :: es) u := by
  obtain ⟨hsize, hroot, hmarker, hself, hold⟩ := mark_spec number h
  have he := lt_size_of_get? h
  have hes : ∀ id ∈ es, id.index < t.size := by
    intro id hid
    obtain ⟨_, _, _, _, _, hget, -⟩ := all id hid
    exact lt_size_of_get? hget
  have keep : ∀ id, id.index < t.size + 2 → id ∉ es → u.get? id = (t.mark e number).get? id := by
    intro id hid hnot
    exact more.old id (by omega) hnot
  have keepFresh : ∀ id : NodeId, t.size ≤ id.index → id.index < t.size + 2 →
      u.get? id = (t.mark e number).get? id := by
    intro id hlow hhigh
    refine keep id hhigh fun hid => ?_
    have := hes id hid
    omega
  have hasMarker : u.HasMarker number ⟨t.size + 1⟩ ⟨t.size⟩ := by
    refine ⟨?_, ?_⟩
    · rw [keepFresh ⟨t.size + 1⟩ (Nat.le_succ _) (Nat.lt_succ_self _)]
      exact hmarker.marker
    · rw [keepFresh ⟨t.size⟩ (Nat.le_refl _) (by exact Nat.lt_add_of_pos_right (by decide))]
      exact hmarker.value
  refine ⟨?_, more.root.trans hroot, ?_, ?_, ?_⟩
  · have := more.size
    omega
  · intro id hid hnot
    obtain ⟨hne, hrest⟩ := not_or.1 fun hmem => hnot (List.mem_cons.2 hmem)
    rw [keep id (by omega) hrest, hold id hid hne]
  · intro i e' span' name' as' xs' closed' hi he'
    cases i with
    | zero =>
      cases hi
      rw [h] at he'
      cases he'
      refine ⟨⟨t.size + 1⟩, ⟨t.size⟩, Nat.le_succ _, hasMarker, ?_⟩
      rw [keep e (by omega) new, hself]
    | succ i =>
      have hi : es[i]? = some e' := hi
      have hmem := List.mem_of_getElem? hi
      have hne : e' ≠ e := fun heq => new (heq ▸ hmem)
      have hget : (t.mark e number).get? e' = some (elementNode span' name' as' xs' closed') := by
        rw [hold e' (hes e' hmem) hne, he']
      obtain ⟨marker, value, hlow, hhas, hgot⟩ :=
        more.marked i e' span' name' as' xs' closed' hi hget
      obtain ⟨_, _, _, _, _, hget', hstored⟩ := all e' hmem
      rw [he'] at hget'
      cases hget'
      have same : ∀ a ∈ as', (t.mark e number).isMarker a = t.isMarker a := by
        intro a ha
        by_cases hae : a = e
        · rw [hae, isMarker_of_get? hself, isMarker_of_get? h]
        · rw [isMarker, isNamed, kind?, hold a (hstored a ha) hae]
          rfl
      refine ⟨marker, value, by omega, ?_, ?_⟩
      · rwa [show number + (i + 1) = number + 1 + i by omega]
      · rw [hgot, remark_congr same]
  · intro id hlow hhigh
    by_cases hid : id.index < t.size + 2
    · refine ⟨number, ⟨t.size + 1⟩, ⟨t.size⟩, hasMarker, Nat.le_refl _, ?_⟩
      obtain ⟨index⟩ := id
      obtain rfl | rfl : index = t.size + 1 ∨ index = t.size := by
        change t.size ≤ index at hlow
        change index < t.size + 2 at hid
        omega
      · exact .inl rfl
      · exact .inr rfl
    · obtain ⟨k, marker, value, hhas, hvalue, hid⟩ := more.fresh id (by omega) hhigh
      exact ⟨k, marker, value, hhas, by omega, hid⟩

theorem AreElements.mark {es : List NodeId} (h : t.get? e = some (elementNode span name as xs closed))
    (new : e ∉ es) (all : t.AreElements es) : (t.mark e number).AreElements es := by
  obtain ⟨hsize, -, -, -, hold⟩ := mark_spec number h
  intro e' he'
  obtain ⟨span', name', as', xs', closed', hget, hstored⟩ := all e' he'
  refine ⟨span', name', as', xs', closed', ?_, fun a ha => ?_⟩
  · rw [hold e' (lt_size_of_get? hget) fun heq => new (heq ▸ he'), hget]
  · have := hstored a ha
    omega

theorem marked_markAll {elements : List NodeId} (distinct : elements.Nodup)
    (all : t.AreElements elements) : t.Marked number elements (t.markAll number elements) := by
  induction elements generalizing t number with
  | nil => exact marked_nil t number
  | cons e es ih =>
    obtain ⟨new, distinct⟩ := List.nodup_cons.1 distinct
    obtain ⟨span, name, as, xs, closed, h, -⟩ := all e List.mem_cons_self
    have all' : t.AreElements es := fun e' he' => all e' (List.mem_cons_of_mem e he')
    exact .cons h new all' (ih distinct (all'.mark h new))

end Tree

end MarkupEditor
