import MarkupEditor.Proofs.Editing.StyleReads

set_option autoImplicit false

namespace MarkupEditor

section

variable {α β γ δ : Type} {R : α → β → Prop} {S : γ → δ → Prop} {xs : List α} {ys : List β} {x : Option α}
  {y : Option β}

theorem rel_bind {f : α → Option γ} {g : β → Option δ} (h : Option.Rel R x y)
    (step : ∀ a b, R a b → Option.Rel S (f a) (g b)) : Option.Rel S (x.bind f) (y.bind g) := by
  cases h with
  | none => exact .none
  | some hab => exact step _ _ hab

theorem bind_eq_of_rel {f : α → Option γ} {g : β → Option γ} (h : Option.Rel R x y)
    (eq : ∀ a b, R a b → g b = f a) : y.bind g = x.bind f := by
  cases h with
  | none => rfl
  | some hab => exact eq _ _ hab

theorem rel_head? (h : List.Forall₂ R xs ys) : Option.Rel R xs.head? ys.head? := by
  cases h with
  | nil => exact .none
  | cons first => exact .some first

theorem rel_find? {p : α → Bool} {q : β → Bool} (h : List.Forall₂ R xs ys) (eq : ∀ a b, R a b → q b = p a) :
    Option.Rel R (xs.find? p) (ys.find? q) := by
  induction h with
  | nil => exact .none
  | cons first _ ih =>
    rw [List.find?_cons, List.find?_cons, eq _ _ first]
    split
    · exact .some first
    · exact ih

theorem filterMap_eq_of_rel {f : α → Option γ} {g : β → Option γ} (h : List.Forall₂ R xs ys)
    (eq : ∀ a b, R a b → g b = f a) : ys.filterMap g = xs.filterMap f := by
  induction h with
  | nil => rfl
  | cons first _ ih => rw [List.filterMap_cons, List.filterMap_cons, eq _ _ first, ih]

theorem all_eq_of_rel {p : α → Bool} {q : β → Bool} (h : List.Forall₂ R xs ys) (eq : ∀ a b, R a b → q b = p a) :
    ys.all q = xs.all p := by
  induction h with
  | nil => rfl
  | cons first _ ih => rw [List.all_cons, List.all_cons, eq _ _ first, ih]

end

namespace Tree

variable {t u : Tree} {same near : NodeId → NodeId → Prop} {x y element : NodeId} {name : String} {value : Literal}

/-- Nodes of two trees hold the same, up to the places of their children; what is near them holds the same too,
or is an element in both trees. -/
structure Alike (same near : NodeId → NodeId → Prop) (t u : Tree) : Prop where
  node : ∀ ⦃x y⦄, same x y → ∃ (node : Option Node) (f g : NodeId → NodeId),
    t.get? x = node.map (Node.map f) ∧ u.get? y = node.map (Node.map g) ∧
      ∀ n ∈ node, ∀ c ∈ n.kind.children, near (f c) (g c)
  near : ∀ ⦃x y⦄, near x y → same x y ∨ t.isElement x = true ∧ u.isElement y = true

/-- What the panel shows of a node of one tree, it shows of a node of the other. -/
structure SameAspects (t u : Tree) (x y : NodeId) : Prop where
  name : u.elementName? y = t.elementName? x
  text : u.textOf y = t.textOf x
  editable : u.canEditText y = t.canEditText x
  attributes : ∀ name, u.getAttribute? y name = t.getAttribute? x name
  style : u.readStyle y = t.readStyle x

theorem map_node_id (node : Option Node) : node.map (Node.map id) = node := by
  have same : Node.map id = id := funext fun n => by rw [Node.map, NodeKind.map_id, id]
  rw [same, Option.map_id, id]

theorem textValue?_eq_none (h : t.isText x = false) : t.textValue? x = none := by
  unfold isText at h
  unfold textValue?
  split
  · rename_i hk
    rw [hk] at h
    cases h
  · rfl

theorem isText_of_isElement (h : t.isElement x = true) : t.isText x = false := by
  obtain ⟨_, _, _, _, _, hn⟩ := exists_of_isElement h
  rw [isText, kind?_of_get? hn]
  rfl

namespace Alike

variable (h : Alike same near t u)

include h

theorem shapeTo (all : ∀ ⦃x y⦄, near x y → same x y) (depth : Nat) (hxy : same x y) :
    u.shapeTo depth y = t.shapeTo depth x := by
  induction depth generalizing x y with
  | zero => rfl
  | succ depth ih =>
    obtain ⟨node, f, g, hx, hy, below⟩ := h.node hxy
    rw [Tree.shapeTo, Tree.shapeTo, hx, hy]
    cases node with
    | none => rfl
    | some node =>
      simp only [Option.map_some, Node.map, NodeKind.map_map]
      congr 1
      exact NodeKind.map_congr fun c hc => ih (all (below node rfl c hc))

theorem code (all : ∀ ⦃x y⦄, near x y → same x y) (root : same t.root u.root) (grounded : t.Grounded t.root)
    (size : t.size ≤ u.size) : u.code = t.code := by
  have deep : t.Within u.depthBound t.root := grounded.within.mono (Nat.succ_le_succ size)
  have shape : u.shape u.root = t.shape t.root := by
    rw [shape, h.shapeTo all _ root, shape]
    exact Within.reading t.shapeTo_congr deep grounded.within
  rw [Tree.code, Tree.code, printProgram, printProgram, printNode, printNode, shape]

theorem kind? (hxy : same x y) : ∃ (kind : Option (NodeKind NodeId)) (f g : NodeId → NodeId),
    t.kind? x = kind.map (NodeKind.map f) ∧ u.kind? y = kind.map (NodeKind.map g) ∧
      ∀ k ∈ kind, ∀ c ∈ k.children, near (f c) (g c) := by
  obtain ⟨node, f, g, hx, hy, below⟩ := h.node hxy
  refine ⟨node.map Node.kind, f, g, ?_, ?_, fun k hk c hc => ?_⟩
  · rw [Tree.kind?, hx, Option.map_map, Option.map_map]
    rfl
  · rw [Tree.kind?, hy, Option.map_map, Option.map_map]
    rfl
  · obtain ⟨n, hn, rfl⟩ := Option.map_eq_some_iff.1 hk
    exact below n hn c hc

theorem sort? (hxy : near x y) : u.sort? y = t.sort? x := by
  rcases h.near hxy with hxy | ⟨hx, hy⟩
  · obtain ⟨kind, f, g, hx, hy, -⟩ := h.kind? hxy
    rw [Tree.sort?, Tree.sort?, hx, hy]
    cases kind with
    | none => rfl
    | some kind => exact congrArg some ((kind.sort_map g).trans (kind.sort_map f).symm)
  · obtain ⟨_, _, _, _, _, hn⟩ := exists_of_isElement hx
    obtain ⟨_, _, _, _, _, hn'⟩ := exists_of_isElement hy
    rw [Tree.sort?, Tree.sort?, kind?_of_get? hn, kind?_of_get? hn']
    rfl

theorem isText (hxy : near x y) : u.isText y = t.isText x := by
  rw [isText_eq_sort, isText_eq_sort, h.sort? hxy]

theorem isObject (hxy : near x y) : u.isObject y = t.isObject x := by
  rw [isObject_eq_sort, isObject_eq_sort, h.sort? hxy]

theorem isNamed (name : String) (hxy : near x y) : u.isNamed name y = t.isNamed name x := by
  rw [isNamed_eq_sort, isNamed_eq_sort, h.sort? hxy]

theorem literal? (hxy : near x y) : u.literal? y = t.literal? x := by
  rw [literal?_eq_sort, literal?_eq_sort, h.sort? hxy]

theorem textValue? (hxy : near x y) : u.textValue? y = t.textValue? x := by
  rcases h.near hxy with hxy | ⟨hx, hy⟩
  · obtain ⟨kind, f, g, hx, hy, -⟩ := h.kind? hxy
    rw [Tree.textValue?, Tree.textValue?, hx, hy]
    cases kind with
    | none => rfl
    | some kind => cases kind <;> rfl
  · rw [textValue?_eq_none (isText_of_isElement hx), textValue?_eq_none (isText_of_isElement hy)]

theorem heldBy {type : String} (plain : type ≠ "Element") (hxy : near x y) :
    List.Forall₂ near (t.heldBy type x) (u.heldBy type y) := by
  rcases h.near hxy with hxy | ⟨hx, hy⟩
  · obtain ⟨kind, f, g, hx, hy, below⟩ := h.kind? hxy
    rw [Tree.heldBy, Tree.heldBy, hx, hy]
    cases kind with
    | none => exact .nil
    | some kind =>
      simp only [Option.map_some, Option.getD_some, NodeKind.held_map, List.forall₂_map_left_iff,
        List.forall₂_map_right_iff]
      refine List.forall₂_same.2 fun c hc => below kind rfl c ?_
      unfold NodeKind.held at hc
      split at hc
      · exact hc
      · cases hc
  · rw [heldBy_of_isElement hx plain, heldBy_of_isElement hy plain]
    exact .nil

theorem attributeValue? (hxy : near x y) : Option.Rel near (t.attributeValue? x) (u.attributeValue? y) := by
  rw [attributeValue?_eq_heldBy, attributeValue?_eq_heldBy]
  exact rel_head? (h.heldBy (by decide) hxy)

theorem contained? (hxy : near x y) : Option.Rel near (t.contained? x) (u.contained? y) := by
  rw [contained?_eq_heldBy, contained?_eq_heldBy]
  exact rel_head? (h.heldBy (by decide) hxy)

theorem propertiesOf (hxy : near x y) : List.Forall₂ near (t.propertiesOf x) (u.propertiesOf y) := by
  rw [propertiesOf_eq_heldBy, propertiesOf_eq_heldBy]
  exact h.heldBy (by decide) hxy

theorem declaration? (hxy : near x y) : u.declaration? y = t.declaration? x := by
  rcases h.near hxy with hxy | ⟨hx, hy⟩
  · obtain ⟨kind, f, g, hx, hy, below⟩ := h.kind? hxy
    rw [Tree.declaration?, Tree.declaration?, hx, hy]
    cases kind with
    | none => rfl
    | some kind =>
      cases kind with
      | property key value shorthand =>
        have literal := h.literal? (below _ rfl value (List.mem_append_right _ (List.mem_singleton.2 rfl)))
        cases shorthand with
        | true => rfl
        | false => simp only [Option.map_some, NodeKind.map, PropertyKey.name?_map, literal]
      | _ => rfl
  · obtain ⟨_, _, _, _, _, hn⟩ := exists_of_isElement hx
    obtain ⟨_, _, _, _, _, hn'⟩ := exists_of_isElement hy
    rw [Tree.declaration?, Tree.declaration?, kind?_of_get? hn, kind?_of_get? hn']

theorem attributesOf (hxy : same x y) : List.Forall₂ near (t.attributesOf x) (u.attributesOf y) := by
  obtain ⟨kind, f, g, hx, hy, below⟩ := h.kind? hxy
  rw [Tree.attributesOf, Tree.attributesOf, hx, hy]
  cases kind with
  | none => exact .nil
  | some kind =>
    cases kind with
    | element name as xs closed =>
      simp only [Option.map_some, NodeKind.map, List.forall₂_map_left_iff, List.forall₂_map_right_iff]
      exact List.forall₂_same.2 fun a ha => below _ rfl a (List.mem_append_left _ ha)
    | _ => exact .nil

theorem findAttribute? (name : String) (hxy : same x y) :
    Option.Rel near (t.findAttribute? x name) (u.findAttribute? y name) :=
  rel_find? (h.attributesOf hxy) fun _ _ => h.isNamed name

theorem getAttribute?_of_found (found : Option.Rel near (t.findAttribute? x name) (u.findAttribute? y name)) :
    u.getAttribute? y name = t.getAttribute? x name := by
  refine bind_eq_of_rel found fun a b hab => ?_
  have value := h.attributeValue? hab
  generalize t.attributeValue? a = c at value
  generalize u.attributeValue? b = d at value
  cases value with
  | none => rfl
  | some hcd =>
    dsimp only
    rw [h.literal? hcd, bind_eq_of_rel (h.contained? hcd) fun _ _ => h.literal?]

theorem styleObject?_of_found
    (found : Option.Rel near (t.findAttribute? x styleAttribute) (u.findAttribute? y styleAttribute)) :
    Option.Rel near (t.styleObject? x) (u.styleObject? y) := by
  refine rel_bind found fun a b hab => ?_
  refine rel_bind (h.attributeValue? hab) fun c d hcd => ?_
  have contained := h.contained? hcd
  generalize t.contained? c = e at contained
  generalize u.contained? d = f at contained
  cases contained with
  | none => exact .none
  | some hef =>
    rw [Option.filter_some, Option.filter_some, h.isObject hef]
    split
    · exact .some hef
    · exact .none

theorem readStyle_of_found
    (found : Option.Rel near (t.findAttribute? x styleAttribute) (u.findAttribute? y styleAttribute)) :
    u.readStyle y = t.readStyle x := by
  have object := h.styleObject?_of_found found
  rw [Tree.readStyle, Tree.readStyle]
  generalize t.styleObject? x = a at object
  generalize u.styleObject? y = b at object
  cases object with
  | none => rfl
  | some hab => exact congrArg StyleMap.ofList (filterMap_eq_of_rel (h.propertiesOf hab) fun _ _ => h.declaration?)

theorem aspects (hxy : same x y) : SameAspects t u x y := by
  obtain ⟨kind, f, g, hx, hy, below⟩ := h.kind? hxy
  suffices u.elementName? y = t.elementName? x ∧ u.textOf y = t.textOf x ∧ u.canEditText y = t.canEditText x from
    ⟨this.1, this.2.1, this.2.2, fun name => h.getAttribute?_of_found (h.findAttribute? name hxy),
      h.readStyle_of_found (h.findAttribute? styleAttribute hxy)⟩
  rw [elementName?, elementName?, textOf, textOf, canEditText, canEditText, hx, hy]
  cases kind with
  | none => exact ⟨rfl, rfl, rfl⟩
  | some kind =>
    cases kind with
    | element name as xs closed =>
      have children : List.Forall₂ near (xs.map f) (xs.map g) := by
        rw [List.forall₂_map_left_iff, List.forall₂_map_right_iff]
        exact List.forall₂_same.2 fun c hc => below _ rfl c (List.mem_append_right _ hc)
      refine ⟨rfl, ?_, ?_⟩
      · exact congrArg String.join (filterMap_eq_of_rel children fun _ _ => h.textValue?)
      · exact all_eq_of_rel children fun _ _ => h.isText
    | _ => exact ⟨rfl, rfl, rfl⟩

end Alike

theorem SameAspects.refl (t : Tree) (x : NodeId) : SameAspects t t x x :=
  ⟨rfl, rfl, rfl, fun _ => rfl, rfl⟩

structure HoldsLiteral (t : Tree) (attr literal : NodeId) (name : String) (value : Literal) : Prop where
  outer : ∃ span, t.get? attr = some ⟨.namedAttribute name (some literal), span⟩
  inner : t.get? literal = some ⟨.literal value none, none⟩

theorem HoldsLiteral.getAttribute? {attr literal : NodeId} (h : t.HoldsLiteral attr literal name value)
    (found : t.findAttribute? element name = some attr) : t.getAttribute? element name = some value := by
  obtain ⟨⟨_, hattr⟩, hliteral⟩ := h
  have holds : t.attributeValue? attr = some literal := by rw [attributeValue?, kind?_of_get? hattr]
  simp only [Tree.getAttribute?, found, Option.bind_some, holds, literal?_of_get? hliteral, Option.some_or]

theorem holdsLiteral_setAttribute (stored : t.Stored) (helement : t.isElement element = true) (name : String)
    (value : Literal) : ∃ attr, (t.setAttribute element name value).findAttribute? element name = some attr ∧
      (t.setAttribute element name value).HoldsLiteral attr ⟨t.size⟩ name value := by
  obtain ⟨span, tag, as, xs, closed, h⟩ := exists_of_isElement helement
  let literal : NodeId := ⟨t.size⟩
  let t₁ := (t.alloc (.literal value none)).2
  have stored₁ : t₁.Stored := stored.alloc fun c hc => absurd hc List.not_mem_nil
  have h₁ : t₁.get? element = some (elementNode span tag as xs closed) := by
    rw [get?_alloc_old (lt_size_of_get? h), h]
  have hliteral : t₁.get? literal = some ⟨.literal value none, none⟩ := get?_alloc_new t _
  have low := lt_size_of_get? hliteral
  have same := findAttribute?_alloc stored h (.literal value none) name
  rcases setAttribute_cases stored h name value with ⟨attr, old, outer, found, hattr, set⟩ | ⟨missing, set⟩ <;> rw [set]
  · have hattr₁ : t₁.get? attr = some ⟨.namedAttribute name old, outer⟩ := by
      rw [get?_alloc_old (lt_size_of_get? hattr), hattr]
    have apart : attr ≠ literal := by
      rintro rfl
      cases hattr₁.symm.trans hliteral
    rw [setValue_eq hattr₁]
    refine ⟨attr, ?_, ⟨outer, get?_setKind_of_get? hattr₁ _⟩, ?_⟩
    · rw [← found, ← same]
      refine findAttribute?_of_kept stored₁ h₁ (fun id _ ne => get?_setKind_ne ne) (ne_element hattr₁ h₁ rfl) ?_
      rw [isNamed, isNamed, kind?_of_get? hattr₁, kind?_of_get? (get?_setKind_of_get? hattr₁ _)]
    · rw [get?_setKind_ne apart, hliteral]
  · obtain ⟨found', hattr⟩ := findAttribute?_addAttribute stored₁ h₁ (same.trans missing) literal
    refine ⟨_, found', ⟨none, hattr⟩, ?_⟩
    have apart : element ≠ literal := (ne_element hliteral h₁ rfl).symm
    rw [addAttribute_eq h₁, get?_setKind_ne apart, get?_alloc_old low, hliteral]

theorem get?_setText {span : Option Span} {tag : String} {as xs : List NodeId} {closed : Bool}
    (h : t.get? element = some (elementNode span tag as xs closed)) (text : String) :
    t.setText element text =
        (t.alloc (.text text none)).2.setKind element (.element tag as [⟨t.size⟩] closed) ∧
      (t.setText element text).get? element = some (elementNode span tag as [⟨t.size⟩] closed) ∧
      (t.setText element text).get? ⟨t.size⟩ = some ⟨.text text none, none⟩ := by
  have h' : (t.alloc (.text text none)).2.get? element = some (elementNode span tag as xs closed) := by
    rw [get?_alloc_old (lt_size_of_get? h), h]
  have eq : t.setText element text =
      (t.alloc (.text text none)).2.setKind element (.element tag as [⟨t.size⟩] closed) := by
    rw [setText, kind?_of_get? h]
    rfl
  rw [eq]
  refine ⟨rfl, get?_setKind_of_get? h' _, ?_⟩
  have apart : element ≠ ⟨t.size⟩ := ne_of_index_ne (Nat.ne_of_lt (lt_size_of_get? h))
  rw [get?_setKind_ne apart]
  exact get?_alloc_new t _

end Tree

end MarkupEditor
