import MarkupEditor.Proofs.Editing.Aspects
import MarkupEditor.Proofs.Editing.Generations
import MarkupEditor.Proofs.Editing.StyleNames

set_option autoImplicit false

namespace MarkupEditor

namespace StyleMap

variable {styles : StyleMap} {name value : String}

theorem insert_of_get? (h : styles.get? name = some value) : styles.insert name value = styles := by
  induction styles with
  | nil => cases h
  | cons entry styles ih =>
    obtain ⟨other, current⟩ := entry
    rw [get?_cons] at h
    rw [insert]
    split at h
    · rename_i same
      obtain rfl : current = value := Option.some.inj h
      rw [if_pos same]
    · rename_i apart
      rw [if_neg apart, ih h]

theorem erase_of_missing (h : styles.get? name = none) : styles.erase name = styles := by
  rw [erase, List.filter_eq_self]
  intro entry he
  refine decide_eq_true fun same => get?_eq_none.1 h ?_
  exact same ▸ List.mem_map_of_mem he

end StyleMap

namespace Tree

variable {t u v : Tree} {x y element object leaf p : NodeId} {properties others : List NodeId} {styles : StyleMap}
  {name : String}

theorem setKind_self {kind : NodeKind NodeId} {span : Option Span} (h : t.get? x = some ⟨kind, span⟩) :
    t.setKind x kind = t := by
  obtain ⟨nodes, root⟩ := t
  refine congrArg (Tree.mk · root) (Array.ext_getElem? fun i => ?_)
  rw [Array.getElem?_modify]
  split
  · rename_i same
    change nodes[x.index]? = _ at h
    rw [← same, h]
    rfl
  · rfl

/-- Of the properties of a name only the first may be understood. -/
def Settled (t : Tree) (properties : List NodeId) : Prop :=
  ∀ name, ∀ p ∈ (t.named name properties).tail, t.declaration? p = none

theorem named_cons (t : Tree) (name : String) (p : NodeId) (properties : List NodeId) :
    t.named name (p :: properties) = if t.propertyName? p = some name then p :: t.named name properties
      else t.named name properties := by
  rw [named, List.filter_cons]
  simp only [decide_eq_true_eq]
  rfl

theorem Settled.tail (h : t.Settled (p :: properties)) : t.Settled properties := by
  intro name q hq
  refine h name q ?_
  rw [named_cons]
  split
  · exact List.mem_of_mem_tail hq
  · exact hq

theorem Settled.get?_eq_none (h : t.Settled (p :: properties)) (hname : t.propertyName? p = some name) :
    StyleMap.get? (properties.filterMap t.declaration?) name = none := by
  refine StyleMap.get?_eq_none.2 fun hmem => ?_
  obtain ⟨⟨other, value⟩, hentry, rfl⟩ := List.mem_map.1 hmem
  obtain ⟨q, hq, declared⟩ := List.mem_filterMap.1 hentry
  have unknown : t.declaration? q = none := by
    refine h other q ?_
    rw [named_cons, if_pos hname, List.tail_cons]
    exact List.mem_filter.2 ⟨hq, decide_eq_true (propertyName?_of_declaration? declared)⟩
  rw [unknown] at declared
  cases declared

theorem Settled.distinct (h : t.Settled properties) : StyleMap.Distinct (properties.filterMap t.declaration?) := by
  induction properties with
  | nil => exact List.nodup_nil
  | cons p properties ih =>
    cases declared : t.declaration? p with
    | none =>
      rw [List.filterMap_cons_none declared]
      exact ih h.tail
    | some entry =>
      rw [List.filterMap_cons_some declared]
      have missing := h.get?_eq_none (propertyName?_of_declaration? declared)
      exact List.nodup_cons.2 ⟨StyleMap.get?_eq_none.1 missing, ih h.tail⟩

theorem Settled.writeProperties (h : t.Settled properties) :
    t.writeProperties (properties.filterMap t.declaration?) properties = (properties, [], t) := by
  induction properties with
  | nil => rfl
  | cons p properties ih =>
    have step : t.writeProperty ((p :: properties).filterMap t.declaration?) p =
        (some p, properties.filterMap t.declaration?, t) := by
      unfold writeProperty
      cases declared : t.declaration? p with
      | some entry =>
        obtain ⟨name, value⟩ := entry
        have missing := h.get?_eq_none (propertyName?_of_declaration? declared)
        have found : StyleMap.get? ((name, value) :: properties.filterMap t.declaration?) name = some value := by
          rw [StyleMap.get?_cons, if_pos rfl]
        have rest : StyleMap.erase ((name, value) :: properties.filterMap t.declaration?) name =
            properties.filterMap t.declaration? := by
          rw [StyleMap.erase, List.filter_cons_of_neg (by simp)]
          exact StyleMap.erase_of_missing missing
        rw [List.filterMap_cons_some declared]
        simp only [found, rest, if_true]
      | none =>
        rw [List.filterMap_cons_none declared]
        cases hname : t.propertyName? p with
        | none => rfl
        | some name => simp only [h.get?_eq_none hname]
    rw [Tree.writeProperties, step]
    simp only [ih h.tail]
    rfl

theorem Settled.writeStyle (found : t.styleObject? element = some object) (h : t.Settled (t.propertiesOf object)) :
    t.writeStyle element (t.readStyle element) = t := by
  obtain ⟨properties, span, hobject⟩ := exists_of_styleObject? found
  have hproperties : t.propertiesOf object = properties := by rw [propertiesOf, kind?_of_get? hobject]
  rw [hproperties] at h
  have read : t.readStyle element = properties.filterMap t.declaration? := by
    rw [readStyle, found]
    dsimp only
    rw [hproperties, StyleMap.ofList_of_distinct h.distinct]
  rw [read, writeStyle_eq (ensureStyle_of_styleObject? found) hobject, h.writeProperties]
  change t.setKind object (.object (properties ++ [])) = t
  rw [List.append_nil]
  exact setKind_self hobject

theorem Names.settled (h : t.Names u properties others styles) : u.Settled others := by
  have unread (name : String) (p : NodeId) (hp : p ∈ t.unread (t.named name properties)) : u.declaration? p = none := by
    obtain ⟨hmem, unknown⟩ := List.mem_filter.1 hp
    exact (h.understood p (List.mem_of_mem_filter hmem)).2 (of_decide_eq_true unknown)
  intro name p hp
  cases found : styles.get? name with
  | none =>
    rw [h.missing name found] at hp
    exact unread name p (List.mem_of_mem_tail hp)
  | some value =>
    obtain ⟨d, names, -⟩ := h.found name value found
    rw [names, List.tail_cons] at hp
    obtain ⟨hmem, unknown⟩ := List.mem_filter.1 hp
    exact unread name p (List.mem_filter.2 ⟨List.mem_of_mem_tail hmem, unknown⟩)

theorem setStyle_setStyle (stored : t.Stored) (helement : t.isElement element = true) (name : String)
    (value : Option String) :
    (t.setStyle element name value).setStyle element name value = t.setStyle element name value := by
  obtain ⟨object, u, ensure, found⟩ := styleObject?_ensureStyle stored helement
  have stored' : u.Stored := by
    obtain ⟨_, _, _, _, _, h⟩ := exists_of_isElement helement
    exact stored.ensureStyle (lt_size_of_get? h) ensure
  obtain ⟨properties, span, hobject⟩ := exists_of_styleObject? found
  have distinct := distinct_styled t element name value
  have eq := setStyle_eq helement name value
  have found' := styleObject?_writeStyle stored' ensure found (t.styled element name value)
  have settled := (names_writeStyle stored' ensure hobject distinct).settled
  have perm := readStyle_writeStyle stored helement distinct
  rw [← eq] at found' settled perm
  have same : (t.setStyle element name value).styled element name value =
      (t.setStyle element name value).readStyle element := by
    have get := (StyleMap.get?_of_perm distinct perm name).trans (get?_styled t element name value).1
    unfold styled
    cases hvalue : value.filter (· ≠ "") with
    | some value =>
      rw [hvalue] at get
      exact StyleMap.insert_of_get? get
    | none =>
      rw [hvalue] at get
      exact StyleMap.erase_of_missing get
  rw [setStyle_eq (isElement_of_styleObject? found') name value, same]
  exact settled.writeStyle found'

/-- What is shown of a tree and of its nodes is the same in another tree. -/
def ShownAlike (t u : Tree) : Prop :=
  u.code = t.code ∧ ∀ x, x.index < t.size → SameAspects t u x x

theorem ShownAlike.refl (t : Tree) : ShownAlike t t :=
  ⟨rfl, fun x _ => .refl t x⟩

/-- Where a node is found after a leaf was put in the place of one like it. -/
def Renewed (t : Tree) (leaf x y : NodeId) : Prop :=
  x.index < t.size ∧ (y = x ∨ x = leaf ∧ y = ⟨t.size⟩)

def renew (t : Tree) (leaf c : NodeId) : NodeId :=
  if c = leaf then ⟨t.size⟩ else c

section

variable {kind bare : NodeKind NodeId} {span : Option Span} (hp : t.get? p = some ⟨kind, span⟩)
  (hleaf : t.get? leaf = some ⟨bare, none⟩) (childless : bare.children = [])

include hp hleaf childless

theorem alike_renew (stored : t.Stored) : Alike (t.Renewed leaf) (t.Renewed leaf) t
    ((t.alloc bare).2.setKind p (kind.map (t.renew leaf))) where
  near _ _ h := .inl h
  node := by
    rintro x y ⟨hx, rfl | ⟨rfl, rfl⟩⟩
    · have alone {f : NodeId → NodeId} (hf : ∀ c, f c = c ∨ c = leaf ∧ f c = ⟨t.size⟩) :
          ∀ n ∈ t.get? y, ∀ c ∈ n.kind.children, t.Renewed leaf c (f c) := fun n hn c hc => ⟨stored hn c hc, hf c⟩
      by_cases same : p = y
      · subst same
        refine ⟨t.get? p, id, t.renew leaf, (map_node_id _).symm, ?_, alone fun c => ?_⟩
        · rw [get?_setKind_self, get?_alloc_old hx, hp]
          rfl
        · unfold renew
          split
          · rename_i eq
            exact .inr ⟨eq, rfl⟩
          · exact .inl rfl
      · refine ⟨t.get? y, id, id, (map_node_id _).symm, ?_, alone fun c => .inl rfl⟩
        rw [get?_setKind_ne same, get?_alloc_old hx, map_node_id]
    · have apart : p ≠ ⟨t.size⟩ := ne_of_index_ne (Nat.ne_of_lt (lt_size_of_get? hp))
      have leaf (f : NodeId → NodeId) : some (Node.map f ⟨bare, none⟩) = some ⟨bare, none⟩ := by
        rw [Node.map, ← NodeKind.map_congr (f := id), NodeKind.map_id]
        intro c hc
        rw [childless] at hc
        cases hc
      refine ⟨some ⟨bare, none⟩, id, id, hleaf.trans (leaf id).symm, ?_, fun n hn c hc => ?_⟩
      · rw [get?_setKind_ne apart, Option.map_some, leaf]
        exact get?_alloc_new t bare
      · obtain rfl := Option.some.inj hn
        rw [childless] at hc
        cases hc

theorem shownAlike_renew (sound : t.Sound) :
    ShownAlike t ((t.alloc bare).2.setKind p (kind.map (t.renew leaf))) := by
  have alike := alike_renew hp hleaf childless sound.stored
  refine ⟨alike.code (fun _ _ => id) ⟨sound.root, .inl rfl⟩ sound.grounded ?_, fun x hx => alike.aspects ⟨hx, .inl rfl⟩⟩
  rw [size_setKind, size_alloc]
  exact Nat.le_succ _

end

theorem setText_setText (stored : t.Stored) (editable : t.canEditText element = true) (text : String)
    (sound : (t.setText element text).Sound) :
    (t.setText element text).canEditText element = true ∧
      ShownAlike (t.setText element text) ((t.setText element text).setText element text) := by
  unfold canEditText at editable
  cases hk : t.kind? element with
  | none =>
    rw [hk] at editable
    cases editable
  | some kind =>
    obtain ⟨⟨kind, span⟩, hn, rfl⟩ := Option.map_eq_some_iff.1 hk
    rw [hk] at editable
    cases kind with
    | text old raw =>
      have hu : (t.setText element text).get? element = some ⟨.text text none, span⟩ := by
        rw [setText, hk]
        exact get?_setKind_of_get? hn _
      refine ⟨by rw [canEditText, kind?_of_get? hu], ?_⟩
      have again : (t.setText element text).setText element text = t.setText element text := by
        rw [setText, kind?_of_get? hu]
        exact setKind_self hu
      rw [again]
      exact .refl _
    | element tag as xs closed =>
      obtain ⟨-, hu, hchild⟩ := get?_setText hn text
      have isText : (t.setText element text).isText ⟨t.size⟩ = true := by
        rw [Tree.isText, kind?_of_get? hchild]
        rfl
      refine ⟨by rw [canEditText, kind?_of_get? hu]; exact (List.all_cons ..).trans (by rw [isText]; rfl), ?_⟩
      have keep : as.map ((t.setText element text).renew ⟨t.size⟩) = as := by
        refine (List.map_congr_left fun a ha => if_neg ?_).trans (List.map_id as)
        exact ne_of_index_ne (Nat.ne_of_lt (stored hn a (List.mem_append_left _ ha)))
      have shown := shownAlike_renew hu hchild rfl sound
      have kind : (NodeKind.element tag as [⟨t.size⟩] closed).map ((t.setText element text).renew ⟨t.size⟩) =
          .element tag as [⟨(t.setText element text).size⟩] closed := by
        rw [NodeKind.map, keep, List.map_singleton, renew, if_pos rfl]
      rw [(get?_setText hu text).1]
      exact kind ▸ shown
    | _ => cases editable

theorem setAttribute_setAttribute (stored : t.Stored) (helement : t.isElement element = true) (name : String)
    (value : Literal) (sound : (t.setAttribute element name value).Sound) :
    (t.setAttribute element name value).isElement element = true ∧
      ShownAlike (t.setAttribute element name value)
        ((t.setAttribute element name value).setAttribute element name value) := by
  obtain ⟨attr, found, ⟨span, hattr⟩, hliteral⟩ := holdsLiteral_setAttribute stored helement name value
  have shown := shownAlike_renew hattr hliteral rfl sound
  generalize t.setAttribute element name value = u at *
  have again := isElement_of_findAttribute? found
  refine ⟨again, ?_⟩
  obtain ⟨_, tag, as, xs, closed, h⟩ := exists_of_isElement again
  have hattr' : (u.alloc (.literal value none)).2.get? attr = some ⟨.namedAttribute name (some ⟨t.size⟩), span⟩ := by
    rw [get?_alloc_old (lt_size_of_get? hattr), hattr]
  have kind : (NodeKind.namedAttribute name (some ⟨t.size⟩)).map (u.renew ⟨t.size⟩) =
      .namedAttribute name (some ⟨u.size⟩) := by
    rw [NodeKind.map, Option.map_some, renew, if_pos rfl]
  have eq : u.setAttribute element name value =
      (u.alloc (.literal value none)).2.setKind attr (.namedAttribute name (some ⟨u.size⟩)) := by
    rw [setAttribute, if_pos again]
    dsimp only
    rw [findAttribute?_alloc sound.stored h, found]
    exact setValue_eq hattr' _
  rw [eq]
  exact kind ▸ shown

end Tree

namespace Mutation

variable {m : Mutation} {t u : Tree} {node : NodeId}

theorem perform_perform (stored : t.Stored) (valid : m.validate t node = .ok ()) (sound : (m.perform t node).Sound) :
    m.validate (m.perform t node) node = .ok () ∧
      (m.perform t node).ShownAlike (m.perform (m.perform t node) node) := by
  cases noop : m.isNoop with
  | true =>
    have nothing (v : Tree) : m.perform v node = v := if_pos noop
    rw [nothing, nothing]
    exact ⟨valid, .refl t⟩
  | false =>
    cases m with
    | setText text =>
      obtain ⟨editable, shown⟩ := Tree.setText_setText stored (validate_setText.1 valid) text sound
      exact ⟨validate_setText.2 editable, shown⟩
    | setAttribute name value =>
      obtain ⟨element, shown⟩ := Tree.setAttribute_setAttribute stored (validate_setAttribute.1 valid) name value sound
      exact ⟨validate_setAttribute.2 element, shown⟩
    | setStyle property value =>
      have helement := validate_setStyle.1 valid
      have set (v : Tree) : (Mutation.setStyle property value).perform v node = v.setStyle node property value := by
        unfold perform
        rw [noop]
        rfl
      rw [set, set, validate_setStyle, Tree.setStyle_setStyle stored helement]
      refine ⟨?_, .refl _⟩
      rw [← set, (effect_perform stored valid).rewrites.isElement (lt_size_of_valid valid), helement]

/-- A request that is accepted is accepted again. The code is then the same, and so is what is read of every node:
its text and whether it can be edited, its styles and its attributes. -/
theorem apply_apply {source : String} (obtained : Tree.Obtained source t) (applied : m.apply t node = .ok u) :
    ∃ w, m.apply u node = .ok w ∧ w.code = u.code ∧ ∀ x, x.index < u.size → Tree.SameAspects u w x x := by
  obtain ⟨valid, rfl⟩ := valid_of_apply applied
  obtain ⟨again, shown⟩ := perform_perform obtained.sound.stored valid (obtained.sound.perform valid)
  exact ⟨_, apply_of_valid again, shown.1, shown.2⟩

/-- A style is written over a spread, a name that stands twice and one without a value, after an attribute was set. -/
theorem apply_apply_mixed : ∃ (t u v w : Tree) (node : NodeId),
    parse "<p a style=\x7b\x7b ...base, color: 'red', 'color': 'blue', color \x7d\x7d />" = .ok t ∧
      (Mutation.setAttribute "a" .null).apply t node = .ok u ∧
      (Mutation.setStyle "color" (some "green")).apply u node = .ok v ∧
      (Mutation.setStyle "color" (some "green")).apply v node = .ok w ∧ w.code = v.code ∧
      ∀ x, x.index < v.size → Tree.SameAspects v w x x := by
  have told : (parse "<p a style=\x7b\x7b ...base, color: 'red', 'color': 'blue', color \x7d\x7d />").toOption.any
      (fun t => t.elements.any fun e => ((Mutation.setAttribute "a" .null).apply t e).toOption.any fun u =>
        ((Mutation.setStyle "color" (some "green")).apply u e).toOption.isSome) = true := by decide +kernel
  obtain ⟨t, parsed, told⟩ := exists_parse told
  obtain ⟨node, -, told⟩ := List.any_eq_true.1 told
  obtain ⟨u, first, told⟩ := (Option.any_eq_true _ _).1 told
  obtain ⟨v, second⟩ := Option.isSome_iff_exists.1 told
  have first := ok_of_toOption first
  have second := ok_of_toOption second
  obtain ⟨w, third, code, aspects⟩ := apply_apply (.edited (.parsed parsed) first) second
  exact ⟨t, u, v, w, node, parsed, first, second, third, code, aspects⟩

end Mutation

end MarkupEditor
