import MarkupEditor.Proofs.Editing.Areas
import MarkupEditor.Proofs.Editing.Generations
import MarkupEditor.Proofs.Editing.Liveness
import MarkupEditor.Proofs.Editing.LockstepEdits

set_option autoImplicit false

namespace MarkupEditor

theorem mem_remark_of_plain {α : Type} {isMarker : α → Bool} {marker x : α} {items : List α} (h : x ∈ items)
    (plain : isMarker x = false) : x ∈ remark isMarker marker items := by
  induction items with
  | nil => cases h
  | cons item items ih =>
    cases hitem : isMarker item with
    | true =>
      rw [remark_marker hitem]
      rcases List.mem_cons.1 h with rfl | h
      · rw [plain] at hitem
        cases hitem
      · exact List.mem_cons_of_mem _ (List.mem_filter.2 ⟨h, by simp [plain]⟩)
    | false =>
      rw [remark_plain hitem]
      exact (List.mem_cons.1 h).elim (fun same => List.mem_cons.2 (.inl same)) fun h =>
        List.mem_cons_of_mem _ (ih h)

namespace Tree

variable {t u : Tree} {p x : NodeId}

/-- The node stands in a marker that an element of the markup has. -/
def InMarker (t : Tree) (x : NodeId) : Prop :=
  ∃ a ∈ t.elements, ∃ marker ∈ t.attributesOf a, t.isMarker marker = true ∧ t.Reaches marker x

theorem Tagging.reaches (h : t.Tagging) (hx : t.Reaches p x) : t.tag.tree.Reaches p x ∨ t.InMarker x := by
  induction hx with
  | refl x => exact .inl (.refl x)
  | @step p c x hc below ih =>
    refine ih.elim (fun rest => ?_) .inr
    by_cases element : p ∈ t.elements
    · obtain ⟨i, hi⟩ := List.mem_iff_getElem?.1 element
      obtain ⟨span, name, as, xs, closed, hn, -⟩ := h.all p element
      have hu : t.tag.tree.childIds p = remark t.isMarker ⟨t.size + 2 * i + 1⟩ as ++ xs :=
        childIds_of_get? (h.places.element i p span name as xs closed hi hn)
      rw [childIds_of_get? hn] at hc
      rcases List.mem_append.1 hc with hc | hc
      · cases isMarker : t.isMarker c with
        | true => exact .inr ⟨p, element, c, (attributesOf_eq hn).symm ▸ hc, isMarker, below⟩
        | false => exact .inl (.step (hu ▸ List.mem_append_left _ (mem_remark_of_plain hc isMarker)) rest)
      · exact .inl (.step (hu ▸ List.mem_append_right _ hc) rest)
    · obtain ⟨node, hn, -⟩ := exists_get?_of_mem_childIds hc
      refine .inl (.step ?_ rest)
      rwa [childIds, kind?, h.marked.old p (lt_size_of_get? hn) element]

end Tree

namespace Chronicle

variable {c : Chronicle} {node e : NodeId} {m : Mutation}

theorem Coherent.known (h : c.Coherent) (picked : c.session.pickedNode? = some node) :
    node ∈ c.start.mapping.nodes := by
  obtain ⟨i, -, hi⟩ := Option.bind_eq_some_iff.1 picked
  rw [h.mapping] at hi
  exact List.mem_of_getElem? hi

/-- A request of the generation has taken the node out. -/
def TakenOut (c : Chronicle) (x : NodeId) : Prop :=
  ∃ commit ∈ c.commits, ∃ removed, Mutation.Removes commit.tree commit.node commit.request removed ∧
    commit.tree.Reaches removed x

/-- A request of the generation has set the marker of the element. -/
def Remarked (c : Chronicle) (e : NodeId) : Prop :=
  ∃ commit ∈ c.commits, commit.node = e ∧ ∃ value, commit.request = .setAttribute markerAttribute value

/-- What stays true of the elements that a generation started with. -/
structure Keeps (c : Chronicle) : Prop where
  stored : c.session.tree.Stored
  grounded : c.session.tree.Grounded c.session.tree.root
  root : c.session.tree.root.index < c.session.tree.size
  isElement : ∀ e ∈ c.start.mapping.nodes, c.session.tree.isElement e = true
  reaches : ∀ e ∈ c.start.mapping.nodes, c.start.tree.Reaches c.start.tree.root e →
    c.session.tree.Reaches c.session.tree.root e ∨ c.TakenOut e
  markers : ∃ place : Nat → NodeId, place.Injective ∧ ∀ i e, c.start.mapping.get? i = some e →
    (c.session.tree.attributesOf e).filter c.session.tree.isMarker = [place i] ∧
      (c.session.tree.Numbered (place i) i ∨ c.Remarked e)

theorem TakenOut.commit (h : c.TakenOut e) : (c.commit node m).TakenOut e := by
  obtain ⟨earlier, hmem, removed⟩ := h
  exact ⟨earlier, List.mem_append_left _ hmem, removed⟩

theorem Remarked.commit (h : c.Remarked e) : (c.commit node m).Remarked e := by
  obtain ⟨earlier, hmem, set⟩ := h
  exact ⟨earlier, List.mem_append_left _ hmem, set⟩

theorem Keeps.commit (h : c.Keeps) (known : node ∈ c.start.mapping.nodes)
    (valid : m.validate c.session.tree node = .ok ()) : (c.commit node m).Keeps := by
  have effect := Mutation.effect_perform h.stored valid
  have isElement := h.isElement node known
  have old : ∀ e ∈ c.start.mapping.nodes, e.index < c.session.tree.size := fun e he => by
    obtain ⟨_, _, _, _, _, hn⟩ := Tree.exists_of_isElement (h.isElement e he)
    exact Tree.lt_size_of_get? hn
  have root : (m.perform c.session.tree node).root = c.session.tree.root := effect.rewrites.root
  refine ⟨h.stored.perform (old node known) m, ?_, ?_, fun e he => ?_, fun e he start => ?_, ?_⟩
  · change Tree.Grounded _ (m.perform c.session.tree node).root
    rw [root]
    exact effect.rewrites.grounded h.stored h.root h.grounded
  · change (m.perform c.session.tree node).root.index < _
    rw [root]
    exact Nat.lt_of_lt_of_le h.root effect.rewrites.size
  · exact (effect.rewrites.isElement (old e he)).trans (h.isElement e he)
  · rcases h.reaches e he start with reached | taken
    · rcases effect.rewrites.reaches reached (h.isElement e he) with reached | ⟨removed, gone, below⟩
      · left
        change Tree.Reaches _ (m.perform c.session.tree node).root e
        rwa [root]
      · exact .inr ⟨_, List.mem_append_right _ (List.mem_singleton.2 rfl), removed, gone, below⟩
    · exact .inr taken.commit
  · obtain ⟨place, injective, markers⟩ := h.markers
    refine ⟨place, injective, fun i e hi => ?_⟩
    obtain ⟨owns, numbered⟩ := markers i e hi
    refine ⟨effect.filter_isMarker h.stored (h.isElement e (List.mem_of_getElem? hi)) owns, ?_⟩
    by_cases set : e = node ∧ ∃ value, m = .setAttribute markerAttribute value
    · obtain ⟨rfl, value, rfl⟩ := set
      exact .inr ⟨_, List.mem_append_right _ (List.mem_singleton.2 rfl), rfl, value, rfl⟩
    · refine numbered.imp (fun numbered => effect.numbered isElement numbered fun name writes found => set ?_) (·.commit)
      obtain ⟨hmem, _, _, hattr⟩ := Tree.exists_of_findAttribute? found
      have hmarker : place i ∈ (c.session.tree.attributesOf e).filter c.session.tree.isMarker :=
        owns ▸ List.mem_singleton.2 rfl
      obtain ⟨-, isMarker⟩ := List.mem_filter.1 hmarker
      obtain rfl := Tree.isNamed_unique (List.find?_some found) isMarker
      obtain ⟨j, hj⟩ := List.mem_iff_getElem?.1 known
      obtain ⟨owns', -⟩ := markers j node hj
      have same : place i ∈ (c.session.tree.attributesOf node).filter c.session.tree.isMarker :=
        List.mem_filter.2 ⟨hmem, isMarker⟩
      rw [owns'] at same
      obtain rfl := injective (List.mem_singleton.1 same)
      refine ⟨Option.some.inj (hi.symm.trans hj), ?_⟩
      cases m with
      | setText text => cases writes
      | setStyle property value => exact absurd (Option.some.inj writes) (by decide)
      | setAttribute name value =>
        obtain rfl := Option.some.inj writes
        exact ⟨value, rfl⟩

theorem keeps_start {t : Tree} (h : t.Tagging) {s : Session} (tagged : s.tree = t.tag.tree) :
    Keeps ⟨s, t.tag, []⟩ := by
  have separate := h.separate
  refine ⟨tagged ▸ separate.stored, tagged ▸ h.grounded_tag, tagged ▸ separate.root, tagged ▸ separate.isElement,
    fun e _ reached => .inl (tagged ▸ reached), fun i => ⟨t.size + 2 * i + 1⟩, fun i j same => ?_, fun i e hi => ?_⟩
  · have := congrArg NodeId.index same
    simp only at this
    omega
  · obtain ⟨owns, hmarker⟩ := h.marker hi
    rw [tagged]
    refine ⟨owns, .inl ⟨⟨t.size + 2 * i⟩, ?_, ?_⟩⟩
    · rw [Tree.attributeValue?, Tree.kind?_of_get? hmarker.marker]
    · rw [Tree.literal?, Tree.kind?_of_get? hmarker.value]

end Chronicle

theorem Leads.keeps {source : String} {c : Chronicle} (h : Leads source c) : c.Keeps := by
  refine h.invariant (fun s number markup t parsed started => ?_) (fun c s same keeps => ?_)
    fun c node m leads picked valid keeps => keeps.commit (leads.coherent.known picked) valid
  · exact Chronicle.keeps_start (parse_tagging parsed) (congrArg Generation.tree started)
  · obtain ⟨generation, picked, listening⟩ := s
    obtain rfl : generation = _ := same
    exact ⟨keeps.stored, keeps.grounded, keeps.root, keeps.isElement, keeps.reaches, keeps.markers⟩

/-- What identifiers stand for in a generation that was started with a tree. An element is live unless it stood in
a marker or a request took it out, and its one marker has the identifier unless a request set it. A request
that is carried out for a live element leaves it live, in the tree whose code is answered. -/
structure Chronicle.Picks (c : Chronicle) (t : Tree) : Prop where
  isElement : ∀ i e, c.session.mapping.get? i = some e → c.session.tree.isElement e = true
  live : ∀ i e, c.session.mapping.get? i = some e →
    c.session.tree.Reaches c.session.tree.root e ∨ t.InMarker e ∨ c.TakenOut e
  marked : ∀ i e, c.session.mapping.get? i = some e → ∃ marker,
    (c.session.tree.attributesOf e).filter c.session.tree.isMarker = [marker] ∧
      (c.session.tree.Numbered marker i ∨ c.Remarked e)
  committed : ∀ m code, (c.session.apply m).answer = .ok (some code) → ∃ e, c.session.pickedNode? = some e ∧
    (c.session.apply m).session.tree.isElement e = true ∧ (c.session.apply m).session.tree.code = code ∧
    (c.session.tree.Reaches c.session.tree.root e →
      (c.session.apply m).session.tree.Reaches (c.session.apply m).session.tree.root e)

/-- In every session an identifier stands for an element, which is live as long as nothing takes it out. -/
theorem picks_live {source : String} {c : Chronicle} (h : Leads source c) :
    ∃ markup t, parse markup = .ok t ∧ c.start = t.tag ∧ c.Picks t := by
  have keeps := h.keeps
  have coherent := h.coherent
  obtain ⟨markup, t, parsed, start, -⟩ := coherent.origin
  have known {i : Nat} {e : NodeId} (hi : c.session.mapping.get? i = some e) : e ∈ c.start.mapping.nodes := by
    rw [coherent.mapping] at hi
    exact List.mem_of_getElem? hi
  refine ⟨markup, t, parsed, start, fun i e hi => keeps.isElement e (known hi), fun i e hi => ?_, fun i e hi => ?_,
    fun m code answered => ?_⟩
  · have tagging := parse_tagging parsed
    have he : e ∈ t.elements := by
      have he := known hi
      rwa [start] at he
    rcases tagging.reaches (tagging.grounded.mem_elements.1 he).1 with live | inside
    · rw [← tagging.marked.root, ← start] at live
      exact (keeps.reaches e (known hi) live).imp_right .inr
    · exact .inr (.inl inside)
  · obtain ⟨place, -, markers⟩ := keeps.markers
    rw [coherent.mapping] at hi
    exact ⟨place i, markers i e hi⟩
  · have applies := c.session.applies m
    generalize c.session.apply m = reaction at applies answered ⊢
    cases applies with
    | idle => cases answered
    | refused => cases answered
    | @committed node picked asks valid =>
      have effect := Mutation.effect_perform keeps.stored valid
      have isElement := keeps.isElement node (coherent.known picked)
      obtain ⟨_, _, _, _, _, hn⟩ := Tree.exists_of_isElement isElement
      refine ⟨node, picked, ?_, ?_, effect.reaches_self keeps.grounded isElement⟩
      · exact (effect.rewrites.isElement (Tree.lt_size_of_get? hn)).trans isElement
      · exact Option.some.inj (Except.ok.inj answered)

/-- An element is taken out with the value of an attribute, and after that it is picked. -/
def pickTakenOut : List Operation :=
  [.pick "0", .apply (.setAttribute "b" (.string "x")), .pick "1"]

theorem picks_live_nested : ∃ c markup t, Leads "<a b=<i/> />" c ∧ c.commits ≠ [] ∧ parse markup = .ok t ∧
    c.start = t.tag ∧ c.Picks t := by
  have told : (parse "<a b=<i/> />").toOption.any (fun t =>
      !((Chronicle.opened "<a b=<i/> />" t).run pickTakenOut).commits.isEmpty) = true := by decide +kernel
  obtain ⟨t, parsed, told⟩ := exists_parse told
  have leads := (leads_opened parsed).run pickTakenOut
  obtain ⟨markup, t', picks⟩ := picks_live leads
  refine ⟨_, markup, t', leads, fun none => ?_, picks⟩
  rw [none] at told
  cases told

/-- The identifier of an element that was taken out still stands for it, and a text that is set on it is
answered with a markup without it. -/
theorem picks_taken_out : ∃ c e, Leads "<a b=<i/> />" c ∧ c.session.mapping.get? 1 = some e ∧
    ¬ c.session.tree.Reaches c.session.tree.root e ∧ c.session.pickedNode? = some e ∧
    (c.session.apply (.setText "hi")).answer.toOption = some (some c.session.markup) := by
  have told : (parse "<a b=<i/> />").toOption.any (fun t =>
      let s := ((Chronicle.opened "<a b=<i/> />" t).run pickTakenOut).session
      (s.mapping.get? 1).any fun e => decide (e ∉ s.tree.preorder s.tree.root ∧ s.pickedNode? = some e ∧
        (s.apply (.setText "hi")).answer.toOption = some (some s.markup))) = true := by decide +kernel
  obtain ⟨t, parsed, told⟩ := exists_parse told
  have leads := (leads_opened parsed).run pickTakenOut
  obtain ⟨e, he, told⟩ := (Option.any_eq_true _ _).1 told
  obtain ⟨gone, picked, answered⟩ := of_decide_eq_true told
  exact ⟨_, e, leads, he, fun reached => gone (leads.keeps.grounded.mem_preorder.2 reached), picked, answered⟩

end MarkupEditor
