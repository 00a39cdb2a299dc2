import MarkupEditor.Proofs.Editing.Summaries
import MarkupEditor.Proofs.Printer.Sources
import MarkupEditor.Proofs.Number.Naturals

set_option autoImplicit false

namespace MarkupEditor

namespace Manner

/-- A manner in which markers hold the numbers of elements, and other numbers have a spelling. -/
def marked (keeps : Site → List (OpaquePart Unit) → Prop) : Manner where
  keeps
  holds name kind :=
    (name = markerAttribute → ∃ n, kind = .literal (.number (Binary64.ofNat n)) none) ∧
      (name ≠ markerAttribute → ∀ value, kind ≠ .literal (.number value) none)

variable {keeps : Site → List (OpaquePart Unit) → Prop} {site : Site} {kind : NodeKind Unit}

theorem holds_marker (n : Nat) :
    (marked keeps).holds markerAttribute (.literal (.number (Binary64.ofNat n)) none) :=
  ⟨fun _ => ⟨n, rfl⟩, fun h => absurd rfl h⟩

theorem marked_marksNumbers : (marked keeps).MarksNumbers := by
  intro name value h
  by_contra hname
  exact h.2 hname value rfl

theorem Takes.holds {m : Manner} {name : String} (h : m.Takes (.value name) kind) : m.holds name kind := by
  cases kind with
  | expressionContainer e =>
    cases e with
    | none => exact h.2
    | some e => exact h
  | _ => exact h.2

theorem Takes.marked (h : (plain keeps).Takes site kind) (hsite : site ≠ .value markerAttribute) :
    (marked keeps).Takes site kind := by
  refine h.mono ?_ fun parts _ kept => kept
  rintro name rfl held
  have hname : name ≠ markerAttribute := fun he => hsite (congrArg Site.value he)
  exact ⟨fun he => absurd he hname, fun _ => held⟩

/-- Whether an element may be the value of an attribute depends on its name alone. -/
def Uniform (m : Manner) : Prop :=
  ∀ name tag as as' xs xs' closed closed', m.holds name (.element tag as xs closed) →
    m.holds name (.element tag as' xs' closed')

section

variable {name : String} {as as' xs xs' : List Unit} {closed closed' : Bool}

theorem Uniform.element {m : Manner} (hm : m.Uniform) (h : m.Takes site (.element name as xs closed)) :
    m.Takes site (.element name as' xs' closed') := by
  cases site with
  | value other => exact ⟨h.1, hm _ _ _ _ _ _ _ _ h.2⟩
  | _ => exact h

theorem marked_uniform : (marked keeps).Uniform := by
  refine fun name tag as as' xs xs' closed closed' h => ⟨fun he => ?_, nofun⟩
  obtain ⟨n, hn⟩ := h.1 he
  cases hn

theorem Takes.element (h : (Manner.marked keeps).Takes site (.element name as xs closed)) :
    (Manner.marked keeps).Takes site (.element name as' xs' closed') :=
  marked_uniform.element h

end

end Manner

theorem NodeKind.sites_attr {ι : Type} {site : Site} {kind : NodeKind ι} {child : ι}
    (h : (.attr, child) ∈ kind.sites site) : kind.isElement = true := by
  cases kind with
  | element => rfl
  | expressionContainer e => cases site <;> simp [sites, Site.inside] at h
  | property key value shorthand =>
    cases key <;> cases shorthand <;> simp [sites, Site.ofValue, PropertyKey.children] at h
  | _ => simp [sites] at h

namespace Tree

variable {t u : Tree} {m : Manner} {site : Site} {id target : NodeId}

theorem Legible.isMarker (h : t.Legible m site id) (hsite : site ≠ .attr) : t.isMarker id = false := by
  cases h with
  | @node _ _ node stored takes =>
    rw [isMarker_of_get? stored]
    cases hk : node.kind with
    | namedAttribute name value =>
      rw [hk] at takes
      cases site with
      | attr => exact absurd rfl hsite
      | expression | value | part => first | exact takes.1.elim | exact takes.2.elim
      | _ => exact takes.elim
    | _ => rfl

theorem isText_of_get? {node : Node} (h : t.get? id = some node) : t.isText id = node.kind.isText := by
  rw [isText, kind?_of_get? h]
  rfl

theorem isText_congr (h : t.get? id = u.get? id) : t.isText id = u.isText id := by
  rw [isText, isText, kind?, kind?, h]

theorem Legible.markup (h : t.Legible m site id) (element : t.isElement id = true) : t.Legible m .markup id := by
  cases h with
  | @node _ _ node stored takes apart below =>
    rw [isElement, kind?_of_get? stored] at element
    cases hk : node.kind with
    | element name as xs closed =>
      have named : IsElementName name := by
        rw [hk] at takes
        cases site with
        | structured | item | content | child | markup => exact takes
        | value | part => exact takes.1
        | expression => exact takes.2
        | _ => exact takes.elim
      refine .node stored ?_ apart fun inner child hc => below inner child ?_
      · rw [hk]
        exact named
      · rw [hk] at hc ⊢
        exact hc
    | _ =>
      rw [hk] at element
      cases element

theorem isAttributeName_marker : IsAttributeName markerAttribute :=
  .plain ⟨.identifier markerAttribute, rfl, rfl⟩

section

variable {keeps : Site → List (OpaquePart Unit) → Prop} {number : Nat} {elements : List NodeId}

theorem HasMarker.legible {marker value : NodeId} (h : t.HasMarker number marker value) :
    t.Legible (.marked keeps) .attr marker := by
  refine .node h.marker isAttributeName_marker trivial fun inner child hc => ?_
  cases List.mem_singleton.1 hc
  exact .node h.value ⟨.number (Binary64.ofNat_positive number), Manner.holds_marker number⟩ trivial nofun

theorem Marked.isText (marked : t.Marked number elements u) (all : t.AreElements elements)
    (stored : id.index < t.size) : u.isText id = t.isText id := by
  by_cases hid : id ∈ elements
  · obtain ⟨i, hi⟩ := List.mem_iff_getElem?.1 hid
    obtain ⟨span, name, as, xs, closed, hget, -⟩ := all id hid
    obtain ⟨marker, value, -, -, hu⟩ := marked.marked i id span name as xs closed hi hget
    rw [isText_of_get? hu, isText_of_get? hget]
    rfl
  · exact isText_congr (marked.old id stored hid)

/-- Where all elements below a place are marked, what was legible there is legible with numbers in its
markers. -/
theorem Marked.legible (marked : t.Marked number elements u) (all : t.AreElements elements)
    (every : ∀ x, t.Reaches t.root x → t.isElement x = true → x ∈ elements)
    (h : t.Legible (.plain keeps) site id) (reached : t.Reaches t.root id)
    (hsite : site ≠ .value markerAttribute) (plain : t.isMarker id = false) :
    u.Legible (.marked keeps) site id := by
  induction h with
  | @node site id node stored takes apart below ih =>
    have texts : ∀ child ∈ node.kind.children, u.isText child = t.isText child := by
      intro child hc
      obtain ⟨inner, hmem⟩ := NodeKind.exists_site site hc
      exact marked.isText all (below inner child hmem).lt_size
    have reach : ∀ child ∈ node.kind.children, t.Reaches t.root child := by
      intro child hc
      refine reached.child ?_
      rwa [childIds_of_get? stored]
    by_cases hid : id ∈ elements
    · obtain ⟨i, hi⟩ := List.mem_iff_getElem?.1 hid
      obtain ⟨span, name, as, xs, closed, hget, -⟩ := all id hid
      rw [stored] at hget
      cases hget
      obtain ⟨marker, value, -, hmarker, hu⟩ := marked.marked i id span name as xs closed hi stored
      have hapart := apart.congr texts
      refine .node hu (takes.marked hsite).element hapart fun inner child hc => ?_
      obtain hc | hc := List.mem_append.1 hc
      · obtain ⟨a, ha, heq⟩ := List.mem_map.1 hc
        cases heq
        obtain rfl | ⟨ha, hplain⟩ := mem_remark ha
        · exact hmarker.legible
        · exact ih .attr child (List.mem_append_left _ (List.mem_map_of_mem ha))
            (reach child (List.mem_append_left _ ha)) nofun hplain
      · obtain ⟨x, hx, heq⟩ := List.mem_map.1 hc
        cases heq
        have hmem : (Site.child, child) ∈ (NodeKind.element name as xs closed).sites site :=
          List.mem_append_right _ hc
        exact ih .child child hmem (reach child (List.mem_append_right _ hx)) nofun
          ((below _ child hmem).isMarker nofun)
    · have hu : u.get? id = some node := by rw [marked.old id (lt_size_of_get? stored) hid, stored]
      refine .node hu (takes.marked hsite) (apart.congr texts) fun inner child hc => ?_
      refine ih inner child hc (reach child (NodeKind.child_of_site hc)) ?_ ?_
      · rintro rfl
        obtain ⟨value, hk⟩ := NodeKind.sites_value hc
        rw [isMarker_of_get? stored, hk] at plain
        exact Bool.false_ne_true (plain.symm.trans (beq_self_eq_true markerAttribute))
      · refine (below inner child hc).isMarker ?_
        rintro rfl
        refine hid (every id reached ?_)
        rw [Tree.isElement, kind?_of_get? stored]
        exact NodeKind.sites_attr hc

end

/-- Tagging keeps a tree legible, and its elements with it. -/
theorem tag_legible {keeps : Site → List (OpaquePart Unit) → Prop}
    (h : t.Legible (.plain keeps) .root t.root) (ht : t.Stored) (distinct : t.elements.Nodup) :
    t.tag.tree.Legible (.marked keeps) .root t.tag.tree.root ∧
      ∀ e ∈ t.elements, t.tag.tree.Legible (.marked keeps) .markup e := by
  have grounded := h.grounded
  have all := areElements_elements grounded ht
  have marked : t.Marked 0 t.elements t.tag.tree := marked_markAll distinct all
  have every : ∀ x, t.Reaches t.root x → t.isElement x = true → x ∈ t.elements :=
    fun x hx element => grounded.mem_elements.2 ⟨hx, element⟩
  refine ⟨?_, fun e he => ?_⟩
  · have hroot : t.tag.tree.root = t.root := marked.root
    rw [hroot]
    exact marked.legible all every h (.refl _) nofun (h.isMarker nofun)
  · obtain ⟨reached, element⟩ := grounded.mem_elements.1 he
    obtain ⟨site, hsite⟩ := h.reaches reached
    have markup := hsite.markup element
    exact marked.legible all every markup reached nofun (markup.isMarker nofun)

theorem Legible.marker_value {keeps : Site → List (OpaquePart Unit) → Prop}
    (h : t.Legible (.marked keeps) (.value markerAttribute) id) :
    ∃ n span, t.get? id = some ⟨.literal (.number (Binary64.ofNat n)) none, span⟩ := by
  cases h with
  | @node _ _ node stored takes =>
    obtain ⟨n, hn⟩ := takes.holds.1 rfl
    obtain ⟨kind, span⟩ := node
    cases kind with
    | literal value raw =>
      cases hn
      exact ⟨n, span, stored⟩
    | _ => cases hn

theorem Legible.plainMarkers {keeps : Site → List (OpaquePart Unit) → Prop}
    (h : t.Legible (.marked keeps) site id) : t.PlainMarkers id := by
  intro x hx marker y hy
  obtain ⟨inner, hlegible⟩ := h.reaches hx
  have hattr : inner = .attr := by
    by_contra hne
    rw [hlegible.isMarker hne] at marker
    cases marker
  subst hattr
  cases hlegible with
  | @node _ _ node stored takes apart below =>
    rw [isMarker_of_get? stored] at marker
    cases hk : node.kind with
    | namedAttribute name value =>
      rw [hk] at marker below
      have hname : name = markerAttribute := beq_iff_eq.1 marker
      subst hname
      have element : t.isElement x = false := by
        rw [isElement, kind?_of_get? stored, hk]
        rfl
      cases hy with
      | refl => exact element
      | step hc hbelow =>
        rw [childIds_of_get? stored, hk] at hc
        cases value with
        | none => cases hc
        | some v =>
          rw [List.mem_singleton.1 hc] at hbelow
          obtain ⟨n, span, hv⟩ := (below (.value markerAttribute) v (List.mem_singleton.2 rfl)).marker_value
          cases hbelow with
          | refl =>
            rw [isElement, kind?_of_get? hv]
            rfl
          | step hc =>
            rw [childIds_of_get? hv] at hc
            cases hc
    | _ =>
      rw [hk] at marker
      cases marker

theorem Legible.alloc (h : t.Legible m site id) (kind : NodeKind NodeId) :
    (t.alloc kind).2.Legible m site id := by
  induction h with
  | @node site id node stored takes apart below ih =>
    refine .node ?_ takes (apart.congr fun child hc => ?_) ih
    · rw [get?_alloc_old (lt_size_of_get? stored), stored]
    · obtain ⟨inner, hmem⟩ := NodeKind.exists_site site hc
      exact isText_congr (get?_alloc_old (below inner child hmem).lt_size)

theorem isText_setKind {old : Node} {kind : NodeKind NodeId} (stored : t.get? target = some old)
    (text : kind.isText = old.kind.isText) (x : NodeId) : (t.setKind target kind).isText x = t.isText x := by
  by_cases hx : x = target
  · rw [hx, isText_of_get? (get?_setKind_of_get? stored kind), isText_of_get? stored, text]
  · exact isText_congr (get?_setKind_ne (Ne.symm hx))

theorem Legible.setKind {old : Node} {kind : NodeKind NodeId} (stored : t.get? target = some old)
    (text : kind.isText = old.kind.isText)
    (new : ∀ site, t.Legible m site target →
      (∀ child ∈ old.kind.children, ∀ inner, t.Legible m inner child →
        (t.setKind target kind).Legible m inner child) →
      (t.setKind target kind).Legible m site target)
    (h : t.Legible m site id) : (t.setKind target kind).Legible m site id := by
  induction h.grounded generalizing site with
  | intro id hchild ih =>
    by_cases hid : id = target
    · subst hid
      rw [childIds_of_get? stored] at ih
      exact new site h fun child hc inner hinner => ih child hc hinner
    · cases h with
      | @node _ _ node hn takes apart below =>
        rw [childIds_of_get? hn] at ih
        refine .node ?_ takes (apart.congr fun child _ => isText_setKind stored text child)
          fun inner child hc => ?_
        · rw [get?_setKind_ne (Ne.symm hid), hn]
        · exact ih child (NodeKind.child_of_site hc) (below inner child hc)

theorem takes_text {value value' : String} {raw : Option String} (h : m.Takes site (.text value raw)) :
    site = .child ∧ m.Takes site (.text value' none) := by
  cases site with
  | child => exact ⟨rfl, trivial⟩
  | value | part => exact h.1.elim
  | expression => exact h.2.elim
  | _ => exact h.elim

section

variable {keeps : Site → List (OpaquePart Unit) → Prop} {text : String}

theorem Legible.setText (h : t.Legible (.marked keeps) site id) :
    (t.setText target text).Legible (.marked keeps) site id := by
  unfold Tree.setText
  cases hk : t.kind? target with
  | none => exact h
  | some kind =>
    obtain ⟨node, hn, hkind⟩ := Option.map_eq_some_iff.1 hk
    cases kind with
    | text value raw =>
      refine h.setKind hn (by rw [hkind]; rfl) fun site hsite _ => ?_
      cases hsite with
      | @node _ _ node' stored takes =>
        rw [hn] at stored
        cases stored
        rw [hkind] at takes
        exact .node (get?_setKind_of_get? hn _) (takes_text takes).2 trivial nofun
    | element name as xs closed =>
      let t₁ := (t.alloc (.text text none)).2
      let child : NodeId := ⟨t.size⟩
      change (t₁.setKind target (.element name as [child] closed)).Legible _ _ _
      have hstored := lt_size_of_get? hn
      have hn₁ : t₁.get? target = some node := by rw [get?_alloc_old hstored, hn]
      have hne : target ≠ child := ne_of_index_ne (Nat.ne_of_lt hstored)
      have hchild : (t₁.setKind target (.element name as [child] closed)).get? child =
          some ⟨.text text none, none⟩ := by
        rw [get?_setKind_ne hne]
        exact get?_alloc_new t _
      refine Legible.setKind hn₁ (by rw [hkind]; rfl) (fun site hsite ih => ?_) (h.alloc _)
      cases hsite with
      | @node _ _ node' stored takes apart below =>
        rw [hn₁] at stored
        cases stored
        rw [hkind] at takes below ih
        refine .node (get?_setKind_of_get? hn₁ _) takes.element (.singleton _) fun inner x hc => ?_
        obtain hc | hc := List.mem_append.1 hc
        · obtain ⟨a, ha, heq⟩ := List.mem_map.1 hc
          cases heq
          exact ih x (List.mem_append_left _ ha) .attr
            (below .attr x (List.mem_append_left _ (List.mem_map_of_mem ha)))
        · cases List.mem_singleton.1 hc
          exact .node hchild (show SpellsText text none from trivial) trivial nofun
    | _ => exact h

end

end Tree

end MarkupEditor
