import MarkupEditor.Proofs.Editing.Areas
import MarkupEditor.Proofs.Editing.Aspects
import MarkupEditor.Proofs.Editing.Commuting
import MarkupEditor.Proofs.Editing.Histories
import MarkupEditor.Proofs.Editing.StyleKeeping

set_option autoImplicit false

namespace MarkupEditor.Tree

variable {t t' u u' v : Tree} {x y p a attr element object container : NodeId} {properties : List NodeId}
  {name other : String} {inner : NodeId → Prop}

theorem Lockstep.alike (h : Lockstep inner t t' u u') :
    Alike (fun x y => Writable inner t x ∧ Known inner t t' u x ∧ y = moved t t' x)
      (fun x y => Known inner t t' u x ∧ y = moved t t' x) u u' where
  node := by
    rintro x _ ⟨hx, -, rfl⟩
    refine ⟨u.get? x, id, moved t t', ?_, h.same x hx, fun n hn c hc => ⟨h.below x hx c ?_, rfl⟩⟩
    · exact (map_node_id _).symm
    · rw [childIds_of_get? hn]
      exact hc
  near := by
    rintro x _ ⟨hx, rfl⟩
    rcases hx with hx | hx | hx
    · exact .inl ⟨.inl hx, .inl hx, rfl⟩
    · right
      rw [Tree.isElement, Tree.isElement, Tree.kind?, Tree.kind?, moved_of_lt hx.stored,
        h.frame x hx.stored hx.outside, h.frame' x hx.stored' hx.outside]
      exact ⟨hx.element, hx.element'⟩
    · exact .inl ⟨.inr hx.1, .inr (.inr hx), rfl⟩

theorem Shares.aspects (s : Shares (t.Around element) t u) : SameAspects t u element element := by
  have around : t.Around element element := .self
  refine s.lockstep.alike.aspects ⟨.inl around, .inl around, ?_⟩
  exact (moved_of_lt (s.stored _ around)).symm

theorem SoleParents.apart (sole : t.SoleParents) (hx : t.isElement x = true) (hy : t.isElement y = true)
    (apart : x ≠ y) (ha : t.Around x a) : ¬ t.Around y a := by
  intro hb
  have one : t.OneParent fun _ => True := ⟨fun _ _ _ _ => trivial, fun _ _ _ _ _ => @sole _ _ _⟩
  exact apart (one.around_unique trivial trivial hx hy ha hb)

/-- What setting an attribute leaves: of the element all but its attributes, and every other node that is not
around the attribute. -/
structure Sets (t u : Tree) (element : NodeId) (name : String) : Prop where
  itself : ∀ span tag as xs closed, t.get? element = some (elementNode span tag as xs closed) →
    ∃ others, u.get? element = some (elementNode span tag others xs closed)
  frame : ∀ x, x.index < t.size → x ≠ element →
    (∀ attr, t.findAttribute? element name = some attr → ¬ t.Around attr x) → u.get? x = t.get? x

theorem Sets.refl (t : Tree) (element : NodeId) (name : String) : t.Sets t element name :=
  ⟨fun _ _ as _ _ h => ⟨as, h⟩, fun _ _ _ _ => rfl⟩

section

variable {span : Option Span} {tag : String} {as xs : List NodeId} {closed : Bool}
  (h : t.get? element = some (elementNode span tag as xs closed))
  (old : ∀ x : NodeId, x.index < t.size → u.get? x = t.get? x)

include h old

theorem sets_addAttribute (name : String) (value : NodeId) : t.Sets (u.addAttribute element name value) element name := by
  have h' : u.get? element = some (elementNode span tag as xs closed) := (old element (lt_size_of_get? h)).trans h
  have size : ∀ x : NodeId, x.index < t.size → x.index < u.size := fun x hx => by
    obtain ⟨node, hn⟩ := get?_isSome_iff.2 hx
    exact lt_size_of_get? ((old x hx).trans hn)
  rw [addAttribute_eq h']
  refine ⟨fun span' tag' as' xs' closed' hn => ?_, fun x hx ne _ => ?_⟩
  · have h'' : (u.alloc (.namedAttribute name (some value))).2.get? element = some (elementNode span tag as xs closed) := by
      rw [get?_alloc_old (lt_size_of_get? h'), h']
    rw [h] at hn
    cases hn
    exact ⟨_, get?_setKind_of_get? h'' _⟩
  · rw [get?_setKind_ne (Ne.symm ne), get?_alloc_old (size x hx), old x hx]

theorem sets_setKind (found : t.findAttribute? element name = some attr) (around : t.Around attr p) (apart : p ≠ element)
    (kind : NodeKind NodeId) : t.Sets (u.setKind p kind) element name := by
  refine ⟨fun span' tag' as' xs' closed' hn => ⟨as', ?_⟩, fun x hx _ outside => ?_⟩
  · rw [get?_setKind_ne apart, old element (lt_size_of_get? h), hn]
  · have ne : p ≠ x := by
      rintro rfl
      exact outside attr found around
    rw [get?_setKind_ne ne, old x hx]

end

theorem sets_setAttribute (stored : t.Stored) (helement : t.isElement element = true) (name : String)
    (value : Literal) : t.Sets (t.setAttribute element name value) element name := by
  obtain ⟨span, tag, as, xs, closed, h⟩ := exists_of_isElement helement
  have old (x : NodeId) (hx : x.index < t.size) : (t.alloc (.literal value none)).2.get? x = t.get? x := get?_alloc_old hx
  rcases setAttribute_cases stored h name value with ⟨attr, _, outer, found, hattr, set⟩ | ⟨-, set⟩ <;> rw [set]
  · rw [setValue_eq ((old attr (lt_size_of_get? hattr)).trans hattr)]
    exact sets_setKind h old found .self (ne_element hattr h rfl) _
  · exact sets_addAttribute h old name _

theorem sets_ensureStyle (helement : t.isElement element = true) (ensure : t.ensureStyle element = some (object, u)) :
    t.Sets u element styleAttribute ∧ (u = t ∧ t.styleObject? element = some object ∨ t.size ≤ object.index) := by
  obtain ⟨span, tag, as, xs, closed, h⟩ := exists_of_isElement helement
  obtain ⟨object', u', ensure', way⟩ := ensuresStyle helement
  obtain ⟨rfl, rfl⟩ := Prod.mk.inj (Option.some.inj (ensure.symm.trans ensure'))
  have styled (x : NodeId) (hx : x.index < t.size) : (t.allocStyle []).2.2.get? x = t.get? x := get?_allocStyle hx
  cases way with
  | there found => exact ⟨.refl t element _, .inl ⟨rfl, found⟩⟩
  | added missing => exact ⟨sets_addAttribute h styled _ _, .inr (Nat.le_refl _)⟩
  | replaced found hattr plain =>
    rw [setValue_eq ((styled _ (lt_size_of_get? hattr)).trans hattr)]
    exact ⟨sets_setKind h styled found .self (ne_element hattr h rfl) _, .inr (Nat.le_refl _)⟩
  | @spread attr container expression _ found holds hcontainer plain =>
    have size : (t.alloc (.spread expression)).2.size = t.size + 1 := size_alloc t _
    have grown (x : NodeId) (hx : x.index < t.size) :
        ((t.alloc (.spread expression)).2.alloc (.object [⟨t.size⟩])).2.get? x = t.get? x := by
      rw [get?_alloc_old (size ▸ Nat.lt_succ_of_lt hx), get?_alloc_old hx]
    have around : t.Around attr container := by
      obtain ⟨_, _, hattr⟩ := exists_of_attributeValue? holds
      refine .step .self ?_ (by rw [isElement, kind?_of_get? hcontainer]; rfl)
      rw [childIds_of_get? hattr]
      exact List.mem_singleton.2 rfl
    have new : t.size ≤ (t.alloc (.spread expression)).2.size := size ▸ Nat.le_succ _
    exact ⟨sets_setKind h grown found around (ne_element hcontainer h rfl) _, .inr new⟩

theorem frame_writeStyle {span : Option Span} (stored : u.Stored) (ensure : t.ensureStyle element = some (object, u))
    (hobject : u.get? object = some ⟨.object properties, span⟩) (styles : StyleMap) (hx : x.index < u.size)
    (apart : x ≠ object) : (t.writeStyle element styles).get? x = u.get? x ∨ x ∈ properties ∧
      u.Updated (u.writeProperties styles properties).2.2 styles x := by
  let v := (u.writeProperties styles properties).2.2
  have written : Overwrites properties styles u v := overwrites_writeProperties u styles properties stored
  obtain ⟨allocated, -, -⟩ := declares_allocDeclarations v (u.writeProperties styles properties).2.1
  have low : x.index < v.size := Nat.lt_of_lt_of_le hx written.size
  rw [writeStyle_eq ensure hobject, get?_setKind_ne (Ne.symm apart), (allocated.node x low).resolve_right
    fun ⟨hmem, _⟩ => absurd hmem List.not_mem_nil]
  exact written.node x hx

theorem around_styleObject? (found : t.styleObject? element = some object) : ∃ attr,
    t.findAttribute? element styleAttribute = some attr ∧ t.Around attr object ∧
      ∀ p ∈ t.propertiesOf object, t.isElement p = false → t.Around attr p := by
  obtain ⟨attr, container, hattr, holds, contained, isObject⟩ := styleObject?_eq_some.1 found
  obtain ⟨_, _, hn⟩ := exists_of_attributeValue? holds
  obtain ⟨_, hcontainer⟩ := exists_of_contained? contained
  obtain ⟨properties, _, hobject⟩ := exists_of_isObject isObject
  have first : t.Around attr container := by
    refine .step .self ?_ (by rw [isElement, kind?_of_get? hcontainer]; rfl)
    rw [childIds_of_get? hn]
    exact List.mem_singleton.2 rfl
  have second : t.Around attr object := by
    refine first.step ?_ (by rw [isElement, kind?_of_get? hobject]; rfl)
    rw [childIds_of_get? hcontainer]
    exact List.mem_singleton.2 rfl
  refine ⟨attr, hattr, second, fun p hp plain => second.step ?_ plain⟩
  rw [propertiesOf, kind?_of_get? hobject] at hp
  rw [childIds_of_get? hobject]
  exact hp

theorem outside_style (helement : t.isElement element = true) (ensure : t.ensureStyle element = some (object, u))
    (hobject : u.propertiesOf object = properties) (styles : StyleMap) (hx : x.index < t.size)
    (outside : ∀ attr, t.findAttribute? element styleAttribute = some attr → ¬ t.Around attr x) :
    x ≠ object ∧ ¬ (x ∈ properties ∧ u.Updated (u.writeProperties styles properties).2.2 styles x) := by
  obtain ⟨_, _, _, _, _, h⟩ := exists_of_isElement helement
  have there (found : t.styleObject? element = some object) (same : u = t) :
      x ≠ object ∧ ¬ (x ∈ properties ∧ u.Updated (u.writeProperties styles properties).2.2 styles x) := by
    subst same
    obtain ⟨attr, hattr, around, below⟩ := around_styleObject? found
    refine ⟨fun same => outside attr hattr (same ▸ around), fun ⟨hmem, updated⟩ => ?_⟩
    obtain ⟨before, -, -, -, -, -⟩ := updated
    refine outside attr hattr (below x (hobject ▸ hmem) ?_)
    rw [isElement, kind?_of_get? before]
    rfl
  obtain ⟨-, ⟨same, found⟩ | new⟩ := sets_ensureStyle helement ensure
  · exact there found same
  · refine ⟨fun same => Nat.not_le_of_lt hx (same ▸ new), fun ⟨_, updated⟩ => ?_⟩
    cases ensured_ensureStyle h ensure with
    | there found => exact Nat.not_le_of_lt (lt_size_of_get? (exists_of_styleObject? found).choose_spec.choose_spec) new
    | new others span stored _ writes _ =>
      rw [propertiesOf, kind?_of_get? stored] at hobject
      obtain rfl : others = properties := hobject
      obtain ⟨name, current, declared⟩ := updated.exists_declaration?
      obtain ⟨value, -, changed, declared'⟩ := updated.declaration? declared
      rw [writes, declared] at declared'
      exact changed (Prod.mk.inj (Option.some.inj declared')).2.symm

theorem sets_writeStyle (stored : t.Stored) (helement : t.isElement element = true) (styles : StyleMap) :
    t.Sets (t.writeStyle element styles) element styleAttribute := by
  obtain ⟨object, u, ensure, found⟩ := styleObject?_ensureStyle stored helement
  obtain ⟨_, _, _, _, _, h⟩ := exists_of_isElement helement
  have stored' : u.Stored := stored.ensureStyle (lt_size_of_get? h) ensure
  obtain ⟨properties, span, hobject⟩ := exists_of_styleObject? found
  have hproperties : u.propertiesOf object = properties := by rw [propertiesOf, kind?_of_get? hobject]
  obtain ⟨sets, -⟩ := sets_ensureStyle helement ensure
  refine ⟨fun span' tag as xs closed hn => ?_, fun x hx ne outside => ?_⟩
  · obtain ⟨others, hu⟩ := sets.itself span' tag as xs closed hn
    refine ⟨others, ((frame_writeStyle stored' ensure hobject styles (lt_size_of_get? hu) ?_).resolve_right ?_).trans hu⟩
    · exact (ne_element hobject hu rfl).symm
    · rintro ⟨-, before, -⟩
      cases hu.symm.trans before
  · obtain ⟨apart, still⟩ := outside_style helement ensure hproperties styles hx outside
    have low : x.index < u.size := by
      obtain ⟨node, hn⟩ := get?_isSome_iff.2 hx
      exact lt_size_of_get? ((sets.frame x hx ne outside).trans hn)
    exact ((frame_writeStyle stored' ensure hobject styles low apart).resolve_right still).trans (sets.frame x hx ne outside)

/-- Nodes of a part of a tree that is closed but for one element are alike, if only the element and the rest are
written. -/
theorem alike_of_frame {part : NodeId → Prop} (stored : t.Stored) (helement : t.isElement element = true)
    (down : ∀ x, part x → x ≠ element → ∀ c ∈ t.childIds x, part c)
    (sort : ∀ x, x.index < t.size → u.sort? x = t.sort? x)
    (frame : ∀ x, x.index < t.size → x ≠ element → part x → u.get? x = t.get? x) :
    Alike (fun x y => (y = x ∧ x.index < t.size ∧ part x) ∧ x ≠ element)
      (fun x y => y = x ∧ x.index < t.size ∧ part x) t u where
  node := by
    rintro _ x ⟨⟨rfl, hx, inside⟩, apart⟩
    refine ⟨t.get? x, id, id, (map_node_id _).symm, by rw [map_node_id, frame x hx apart inside], fun n hn c hc => ?_⟩
    exact ⟨rfl, stored hn c hc, down x inside apart c ((childIds_of_get? hn).symm ▸ hc)⟩
  near := by
    rintro _ x ⟨rfl, hx, inside⟩
    by_cases same : x = element
    · right
      rw [isElement_eq_sort u, sort x hx, ← isElement_eq_sort, same]
      exact ⟨helement, helement⟩
    · exact .inl ⟨⟨rfl, hx, inside⟩, same⟩

/-- The nodes that are not around an attribute of an element. -/
def Clear (t : Tree) (element : NodeId) (name : String) (x : NodeId) : Prop :=
  ∀ attr, t.findAttribute? element name = some attr → ¬ t.Around attr x

namespace Sets

section

variable (sole : t.SoleParents) (found : t.findAttribute? element name = some attr)

include sole found

theorem clear_child {c : NodeId} (clear : ¬ t.Around attr x) (hc : c ∈ t.childIds x) (apart : x ≠ element) :
    ¬ t.Around attr c := by
  intro around
  cases around with
  | self => exact apart (sole hc (mem_childIds_of_mem_attributesOf (exists_of_findAttribute? found).1))
  | step above hp _ => exact clear (sole hc hp ▸ above)

theorem clear_of_ne {c : NodeId} (hc : c ∈ t.childIds element) (apart : c ≠ attr) : ¬ t.Around attr c := by
  intro around
  cases around with
  | self => exact apart rfl
  | step above hp _ =>
    obtain rfl := sole hp hc
    have helement := isElement_of_findAttribute? found
    cases above with
    | self =>
      obtain ⟨-, _, _, hattr⟩ := exists_of_findAttribute? found
      rw [isElement, kind?_of_get? hattr] at helement
      cases helement
    | step _ _ plain =>
      rw [plain] at helement
      cases helement

end

section

variable (sets : t.Sets u element name) (stored : t.Stored) (sole : t.SoleParents)
  (helement : t.isElement element = true) (sort : ∀ x, x.index < t.size → u.sort? x = t.sort? x)

include sets stored sole helement sort

theorem alike : Alike (fun x y => (y = x ∧ x.index < t.size ∧ t.Clear element name x) ∧ x ≠ element)
    (fun x y => y = x ∧ x.index < t.size ∧ t.Clear element name x) t u :=
  alike_of_frame stored helement (fun _ clear apart _ hc attr found => clear_child sole found (clear attr found) hc apart)
    sort sets.frame

theorem text : u.elementName? element = t.elementName? element ∧ u.textOf element = t.textOf element ∧
    u.canEditText element = t.canEditText element := by
  obtain ⟨span, tag, as, xs, closed, h⟩ := exists_of_isElement helement
  obtain ⟨others, hu⟩ := sets.itself span tag as xs closed h
  have old : ∀ c ∈ xs, c.index < t.size := fun c hc => stored h c (List.mem_append_right _ hc)
  have isText : ∀ c ∈ xs, u.isText c = t.isText c := fun c hc => by
    rw [isText_eq_sort, isText_eq_sort, sort c (old c hc)]
  have value : ∀ c ∈ xs, u.textValue? c = t.textValue? c := fun c hc => by
    cases texts : t.isText c with
    | false => rw [textValue?_eq_none texts, textValue?_eq_none ((isText c hc).trans texts)]
    | true =>
      have plain {node : Node} (hn : t.get? c = some node) : node.kind.isText = true := by
        rwa [Tree.isText, kind?_of_get? hn] at texts
      have ne : c ≠ element := by
        rintro rfl
        cases plain h
      have same : u.get? c = t.get? c := by
        refine sets.frame c (old c hc) ne fun attr found => clear_of_ne sole found ?_ ?_
        · rw [childIds_of_get? h]
          exact List.mem_append_right _ hc
        · rintro rfl
          obtain ⟨-, _, _, hattr⟩ := exists_of_findAttribute? found
          cases plain hattr
      rw [textValue?, textValue?, kind?, kind?, same]
  refine ⟨?_, ?_, ?_⟩
  · rw [elementName?, elementName?, kind?_of_get? h, kind?_of_get? hu]
  · rw [textOf, textOf, kind?_of_get? h, kind?_of_get? hu]
    exact congrArg String.join (List.filterMap_congr value)
  · rw [canEditText, canEditText, kind?_of_get? h, kind?_of_get? hu]
    rw [Bool.eq_iff_iff, List.all_eq_true, List.all_eq_true]
    exact forall₂_congr fun c hc => by rw [isText c hc]

end

end Sets

theorem lt_size_of_mem_attributesOf (stored : t.Stored) (ha : a ∈ t.attributesOf element) : a.index < t.size := by
  obtain ⟨node, hn, hc⟩ := exists_get?_of_mem_childIds (mem_childIds_of_mem_attributesOf ha)
  exact stored hn a hc

theorem findAttribute?_of_adds (stored : t.Stored) (sort : ∀ x, x.index < t.size → u.sort? x = t.sort? x)
    (adds : ∃ added, u.attributesOf element = t.attributesOf element ++ added ∧ ∀ a ∈ added, u.isNamed name a = true)
    (differs : other ≠ name) : u.findAttribute? element other = t.findAttribute? element other := by
  obtain ⟨added, attributes, new⟩ := adds
  have none : added.find? (u.isNamed other) = none :=
    List.find?_eq_none.2 fun a ha named => differs (isNamed_unique named (new a ha))
  rw [Tree.findAttribute?, attributes, List.find?_append, none, Option.or_none]
  refine List.find?_congr fun a ha => ?_
  rw [isNamed_eq_sort, isNamed_eq_sort, sort a (lt_size_of_mem_attributesOf stored ha)]

theorem findAttribute?_clear (stored : t.Stored) (sole : t.SoleParents)
    (sort : ∀ x, x.index < t.size → u.sort? x = t.sort? x) (adds : ∃ added, u.attributesOf element = t.attributesOf element ++ added ∧
    ∀ a ∈ added, u.isNamed name a = true) (differs : other ≠ name) :
    Option.Rel (fun x y => y = x ∧ x.index < t.size ∧ t.Clear element name x) (t.findAttribute? element other) (u.findAttribute? element other) := by
  rw [findAttribute?_of_adds stored sort adds differs]
  cases found : t.findAttribute? element other with
  | none => exact .none
  | some a =>
    obtain ⟨hmem, _, _, ha⟩ := exists_of_findAttribute? found
    refine .some ⟨rfl, lt_size_of_mem_attributesOf stored hmem, fun attr found' => ?_⟩
    refine Sets.clear_of_ne sole found' (mem_childIds_of_mem_attributesOf hmem) ?_
    rintro rfl
    obtain ⟨-, _, _, ha'⟩ := exists_of_findAttribute? found'
    rw [ha] at ha'
    cases ha'
    exact differs rfl

theorem around_of_attribute (found : t.findAttribute? element name = some attr) (h : t.Around attr x) :
    t.Around element x := by
  induction h with
  | self =>
    obtain ⟨hmem, _, _, hattr⟩ := exists_of_findAttribute? found
    refine .step .self (mem_childIds_of_mem_attributesOf hmem) ?_
    rw [isElement, kind?_of_get? hattr]
    rfl
  | step _ hx plain ih => exact ih.step hx plain

/-- What an edit of an element keeps: all nodes are there and are what they were, nothing but the area of the
element is written, and all other elements are shown as before. -/
structure KeepsOthers (t u : Tree) (element : NodeId) : Prop where
  size : t.size ≤ u.size
  root : u.root = t.root
  sort : ∀ x, x.index < t.size → u.sort? x = t.sort? x
  frame : ∀ x, x.index < t.size → ¬ t.Around element x → u.get? x = t.get? x
  others : ∀ x, t.isElement x = true → x ≠ element → SameAspects t u x x

theorem keepsOthers {spot : NodeId → Prop} {out : NodeId → NodeId → Prop} (rewrites : Rewrites spot out t u)
    (stored : t.Stored) (sole : t.SoleParents) (helement : t.isElement element = true)
    (frame : ∀ x, x.index < t.size → ¬ t.Around element x → u.get? x = t.get? x) : t.KeepsOthers u element where
  size := rewrites.size
  root := rewrites.root
  sort := rewrites.sort
  frame := frame
  others x hx apart := by
    obtain ⟨_, _, _, _, _, hn⟩ := exists_of_isElement hx
    have low := lt_size_of_get? hn
    refine (shares_around stored low rewrites.size (fun y hy => rewrites.isElement hy) fun y hy => ?_).aspects
    exact frame y (hy.stored stored low) (sole.apart hx helement apart hy)

theorem Sets.outside (sets : t.Sets u element name) (hx : x.index < t.size) (outside : ¬ t.Around element x) :
    u.get? x = t.get? x := by
  refine sets.frame x hx ?_ fun attr found around => outside (around_of_attribute found around)
  rintro rfl
  exact outside .self

theorem Sets.aspects {spot : NodeId → Prop} {out : NodeId → NodeId → Prop} (sets : t.Sets u element name)
    (rewrites : Rewrites spot out t u) (adds : t.AddsAttribute u element name) (stored : t.Stored)
    (sole : t.SoleParents) (helement : t.isElement element = true) :
    (u.elementName? element = t.elementName? element ∧ u.textOf element = t.textOf element ∧
        u.canEditText element = t.canEditText element) ∧
      (∀ other, other ≠ name → u.getAttribute? element other = t.getAttribute? element other) ∧
      (name ≠ styleAttribute → u.readStyle element = t.readStyle element) ∧ t.KeepsOthers u element := by
  have alike := sets.alike stored sole helement rewrites.sort
  have found {other : String} (differs : other ≠ name) := findAttribute?_clear stored sole rewrites.sort
    (adds.imp fun _ h => ⟨h.1, fun a ha => (h.2 a ha).2⟩) differs
  exact ⟨sets.text stored sole helement rewrites.sort,
    fun other differs => alike.getAttribute?_of_found (found differs),
    fun differs => alike.readStyle_of_found (found (Ne.symm differs)),
    keepsOthers rewrites stored sole helement fun _ => sets.outside⟩

theorem aspects_setText (stored : t.Stored) (sole : t.SoleParents) (helement : t.isElement element = true)
    (editable : t.canEditText element = true) (text : String) :
    ((t.setText element text).textOf element = text ∧ (t.setText element text).canEditText element = true ∧
        ∀ c ∈ t.childIds element, c ∉ (t.setText element text).childIds element → t.isText c = true) ∧
      (t.setText element text).elementName? element = t.elementName? element ∧
      (∀ name, (t.setText element text).getAttribute? element name = t.getAttribute? element name) ∧
      (t.setText element text).readStyle element = t.readStyle element ∧
      t.KeepsOthers (t.setText element text) element := by
  obtain ⟨span, tag, as, xs, closed, h⟩ := exists_of_isElement helement
  obtain ⟨eq, hu, hchild⟩ := get?_setText h text
  have rewrites := rewrites_setText editable text
  have frame (x : NodeId) (hx : x.index < t.size) (apart : x ≠ element) : (t.setText element text).get? x = t.get? x := by
    rw [eq, get?_setKind_ne (Ne.symm apart), get?_alloc_old hx]
  have alike : Alike (fun x y => (y = x ∧ x.index < t.size ∧ True) ∧ x ≠ element)
      (fun x y => y = x ∧ x.index < t.size ∧ True) t (t.setText element text) :=
    alike_of_frame stored helement (fun _ _ _ _ _ => trivial) rewrites.sort fun x hx apart _ => frame x hx apart
  have found (name : String) : Option.Rel (fun x y => y = x ∧ x.index < t.size ∧ True) (t.findAttribute? element name)
      ((t.setText element text).findAttribute? element name) := by
    have old : ∀ a ∈ as, a.index < t.size := fun a ha => stored h a (List.mem_append_left _ ha)
    rw [findAttribute?, findAttribute?, attributesOf_setText, attributesOf_eq h]
    exact rel_find? (List.forall₂_same.2 fun a ha => ⟨rfl, old a ha, trivial⟩) fun a b hab => by
      obtain ⟨rfl, hb, -⟩ := hab
      exact rewrites.isNamed name hb
  have value : (t.setText element text).textValue? ⟨t.size⟩ = some text := by rw [textValue?, kind?_of_get? hchild]
  have isText : (t.setText element text).isText ⟨t.size⟩ = true := by
    rw [Tree.isText, kind?_of_get? hchild]
    rfl
  refine ⟨⟨?_, ?_, fun c hc gone => ?_⟩, ?_, fun name => alike.getAttribute?_of_found (found name),
    alike.readStyle_of_found (found styleAttribute), keepsOthers rewrites stored sole helement fun x hx outside => ?_⟩
  · rw [textOf, kind?_of_get? hu]
    dsimp only [elementNode]
    rw [List.filterMap_cons_some value]
    exact String.empty_append
  · rw [canEditText, kind?_of_get? hu]
    exact List.all_eq_true.2 fun c hc => List.mem_singleton.1 hc ▸ isText
  · rw [canEditText, kind?_of_get? h] at editable
    rw [childIds_of_get? hu] at gone
    rw [childIds_of_get? h] at hc
    obtain hc | hc := List.mem_append.1 hc
    · exact absurd (List.mem_append_left _ hc) gone
    · exact List.all_eq_true.1 editable c hc
  · rw [elementName?, elementName?, kind?_of_get? h, kind?_of_get? hu]
  · refine frame x hx ?_
    rintro rfl
    exact outside .self

/-- An edit is made for one aspect of one element. A text that is given is the text, which can still be edited, and
only texts make way for it. An attribute that is set has its value. The name of the element and its other aspects
are read as before, and so is every other element; all nodes stay what and where they are. -/
theorem edits_keep_aspects (stored : t.Stored) (sole : t.SoleParents) (helement : t.isElement element = true) :
    (∀ text u, (Mutation.setText text).apply t element = .ok u →
      (u.textOf element = text ∧ u.canEditText element = true ∧
          ∀ c ∈ t.childIds element, c ∉ u.childIds element → t.isText c = true) ∧
        u.elementName? element = t.elementName? element ∧
        (∀ name, u.getAttribute? element name = t.getAttribute? element name) ∧
        u.readStyle element = t.readStyle element ∧ t.KeepsOthers u element) ∧
    (∀ name value,
      (t.setAttribute element name value).getAttribute? element name = some value ∧
        ((t.setAttribute element name value).elementName? element = t.elementName? element ∧
          (t.setAttribute element name value).textOf element = t.textOf element ∧
          (t.setAttribute element name value).canEditText element = t.canEditText element) ∧
        (∀ other, other ≠ name →
          (t.setAttribute element name value).getAttribute? element other = t.getAttribute? element other) ∧
        (name ≠ styleAttribute → (t.setAttribute element name value).readStyle element = t.readStyle element) ∧
        t.KeepsOthers (t.setAttribute element name value) element) ∧
    ∀ property value,
      ((t.setStyle element property value).elementName? element = t.elementName? element ∧
          (t.setStyle element property value).textOf element = t.textOf element ∧
          (t.setStyle element property value).canEditText element = t.canEditText element) ∧
        (∀ other, other ≠ styleAttribute →
          (t.setStyle element property value).getAttribute? element other = t.getAttribute? element other) ∧
        t.KeepsOthers (t.setStyle element property value) element := by
  obtain ⟨span, tag, as, xs, closed, h⟩ := exists_of_isElement helement
  refine ⟨fun text u applied => ?_, fun name value => ?_, fun property value => ?_⟩
  · obtain ⟨valid, rfl⟩ := Mutation.valid_of_apply applied
    exact aspects_setText stored sole helement (Mutation.validate_setText.1 valid) text
  · obtain ⟨attr, found, holds⟩ := holdsLiteral_setAttribute stored helement name value
    obtain ⟨rewrites, adds⟩ := rewrites_setAttribute stored h name value
    exact ⟨holds.getAttribute? found,
      (sets_setAttribute stored helement name value).aspects rewrites adds stored sole helement⟩
  · obtain ⟨rewrites, adds⟩ := rewrites_setStyle stored h property value
    have sets : t.Sets (t.setStyle element property value) element styleAttribute := by
      rw [setStyle_eq helement]
      exact sets_writeStyle stored helement _
    obtain ⟨text, attributes, -, others⟩ := sets.aspects rewrites adds stored sole helement
    exact ⟨text, attributes, others⟩

/-- An element with a name that stands twice, a spread, and an element in the value of an attribute. -/
theorem edits_keep_aspects_nested : ∃ (t u : Tree) (element : NodeId),
    parse "<p a='1' b=\x7b<i a='2'>in</i>\x7d a='3' \x7b...s\x7d style=\x7bbase\x7d>Hi</p>" = .ok t ∧ t.Stored ∧ t.SoleParents ∧
      t.isElement element = true ∧ (Mutation.setText "Bye").apply t element = .ok u ∧
      u.textOf element = "Bye" ∧ t.KeepsOthers u element ∧
      (t.setAttribute element "a" .null).getAttribute? element "a" = some .null ∧
      (t.setAttribute element "a" .null).readStyle element = t.readStyle element ∧
      (t.setStyle element "color" (some "red")).getAttribute? element "a" = t.getAttribute? element "a" := by
  have told : (parse "<p a='1' b=\x7b<i a='2'>in</i>\x7d a='3' \x7b...s\x7d style=\x7bbase\x7d>Hi</p>").toOption.any (fun t =>
      t.elements.any (fun e => t.isElement e && ((Mutation.setText "Bye").apply t e).toOption.isSome) &&
        decide (∀ i < t.size, ∀ j < t.size, ∀ c ∈ t.childIds ⟨i⟩, c ∈ t.childIds ⟨j⟩ → i = j)) = true := by
    decide +kernel
  obtain ⟨t, parsed, told⟩ := exists_parse told
  obtain ⟨told, sole⟩ := Bool.and_eq_true_iff.1 told
  obtain ⟨element, -, told⟩ := List.any_eq_true.1 told
  obtain ⟨helement, accepted⟩ := Bool.and_eq_true_iff.1 told
  obtain ⟨u, applied⟩ := Option.isSome_iff_exists.1 accepted
  have sole := soleParents_of_all (of_decide_eq_true sole)
  have stored := (parseWith_reads parsed).1.stored
  have applied := Mutation.ok_of_toOption applied
  obtain ⟨text, set, style⟩ := edits_keep_aspects stored sole helement
  obtain ⟨⟨written, -⟩, -, -, -, others⟩ := text "Bye" u applied
  obtain ⟨value, -, -, styles, -⟩ := set "a" .null
  exact ⟨t, u, element, parsed, stored, sole, helement, applied, written, others, value, styles (by decide),
    (style "color" (some "red")).2.1 "a" (by decide)⟩

end MarkupEditor.Tree
