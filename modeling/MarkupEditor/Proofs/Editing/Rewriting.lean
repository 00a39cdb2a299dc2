import MarkupEditor.Proofs.Editing.Lockstep
import MarkupEditor.Proofs.Markup.Walks
/-!
# What a request changes

Carrying out a request adds nodes and gives some nodes other children. A node keeps its sort, and what a
node from before is given is new, or was below it already. What a node loses is no part of the markup that
can be picked, or it is what the request says.
-/

set_option autoImplicit false

namespace MarkupEditor

namespace NodeKind

variable {ι : Type}

def isStyling (kind : NodeKind ι) : Bool :=
  ["ExpressionContainer", "Object", "Property"].contains kind.typeName

end NodeKind

theorem StyleMap.get?_of_erase {styles : StyleMap} {name other : String}
    (h : ((styles.erase name).get? other).isSome = true) : (styles.get? other).isSome = true := by
  simp only [get?, erase, Option.isSome_map, List.find?_isSome, List.mem_filter] at h ⊢
  obtain ⟨entry, ⟨hmem, -⟩, hname⟩ := h
  exact ⟨entry, hmem, hname⟩

namespace Tree

variable {t u v : Tree} {x y c f : NodeId} {kept : List NodeId} {spot : NodeId → Prop}
  {out : NodeId → NodeId → Prop}

/-- A new node from which new nodes lead to no others than those of a list. -/
inductive Sprouts (t u : Tree) (kept : List NodeId) : NodeId → Prop where
  | new {f : NodeId} (low : t.size ≤ f.index) (high : f.index < u.size)
    (below : ∀ c ∈ u.childIds f, c ∉ kept → Sprouts t u kept c) : Sprouts t u kept f

/-- No element is found from the node on. -/
def Barren (t : Tree) (c : NodeId) : Prop :=
  ∀ y, t.Reaches c y → t.isElement y = false

/-- What a tree has become: `spot` are the nodes that were written besides those that hold a style, and `out`
is who may have lost whom. -/
structure Rewrites (spot : NodeId → Prop) (out : NodeId → NodeId → Prop) (t u : Tree) : Prop where
  size : t.size ≤ u.size
  root : u.root = t.root
  sort : ∀ x, x.index < t.size → u.sort? x = t.sort? x
  kept : ∀ x, ∀ c ∈ t.childIds x, c ∈ u.childIds x ∨ out x c
  made : ∀ x, x.index < t.size → ∀ c ∈ u.childIds x, c ∈ t.childIds x ∨ Sprouts t u (t.childIds x) c
  frame : ∀ x node, t.get? x = some node → u.get? x = some node ∨ spot x ∨ node.kind.isStyling = true

theorem Sprouts.mono {t' u' : Tree} {others : List NodeId} (h : Sprouts t u kept x) (low : t'.size ≤ t.size)
    (high : u.size ≤ u'.size) (sub : ∀ c ∈ kept, c ∈ others ∨ Sprouts t' u' others c)
    (same : ∀ f, t.size ≤ f.index → f.index < u.size → ∀ c ∈ u'.childIds f,
      c ∈ u.childIds f ∨ Sprouts t' u' others c) : Sprouts t' u' others x := by
  induction h with
  | @new f hlow hhigh _ ih =>
    refine .new (Nat.le_trans low hlow) (Nat.lt_of_lt_of_le hhigh high) fun c hc hnot => ?_
    rcases same f hlow hhigh c hc with hc | hc
    · by_cases hk : c ∈ kept
      · exact (sub c hk).resolve_left hnot
      · exact ih c hc hk
    · exact hc

theorem Sprouts.alloc (h : Sprouts t u kept x) (kind : NodeKind NodeId) :
    Sprouts t (u.alloc kind).2 kept x := by
  refine h.mono (Nat.le_refl _) ?_ (fun _ => .inl) fun f _ hf c hc => ?_
  · rw [size_alloc]
    exact Nat.le_succ _
  · rw [childIds_alloc, if_neg (Nat.ne_of_lt hf)] at hc
    exact .inl hc

theorem Sprouts.setKind (h : Sprouts t u kept x) (hy : y.index < t.size) (stored : y.index < u.size)
    (kind : NodeKind NodeId) : Sprouts t (u.setKind y kind) kept x := by
  refine h.mono (Nat.le_refl _) ?_ (fun _ => .inl) fun f hf _ c hc => ?_
  · rw [size_setKind]
  · rw [childIds_setKind u y kind stored, if_neg] at hc
    · exact .inl hc
    · rintro rfl
      exact Nat.not_lt_of_le hf hy

theorem sprouts_alloc {kind : NodeKind NodeId} (low : t.size ≤ u.size)
    (below : ∀ c ∈ kind.children, c ∉ kept → Sprouts t u kept c) :
    Sprouts t (u.alloc kind).2 kept (u.alloc kind).1 := by
  rw [alloc_fst]
  refine .new low ?_ fun c hc hnot => ?_
  · rw [size_alloc]
    exact Nat.lt_succ_self _
  · rw [childIds_alloc, if_pos rfl] at hc
    exact (below c hc hnot).alloc kind

theorem sprouts_leaf {kind : NodeKind NodeId} (low : t.size ≤ u.size) (leaf : kind.children = []) :
    Sprouts t (u.alloc kind).2 kept (u.alloc kind).1 := by
  refine sprouts_alloc low fun c hc => ?_
  rw [leaf] at hc
  cases hc

namespace Rewrites

theorem refl (t : Tree) : Rewrites spot out t t where
  size := Nat.le_refl _
  root := rfl
  sort _ _ := rfl
  kept _ _ hc := .inl hc
  made _ _ _ hc := .inl hc
  frame _ _ hn := .inl hn

theorem isElement (h : Rewrites spot out t u) (hx : x.index < t.size) : u.isElement x = t.isElement x := by
  rw [isElement_eq_sort, isElement_eq_sort, h.sort x hx]

theorem isNamed (h : Rewrites spot out t u) (name : String) (hx : x.index < t.size) :
    u.isNamed name x = t.isNamed name x := by
  rw [isNamed_eq_sort, isNamed_eq_sort, h.sort x hx]

theorem propertyName? (h : Rewrites spot out t u) (hx : x.index < t.size) :
    u.propertyName? x = t.propertyName? x := by
  rw [propertyName?_eq_sort, propertyName?_eq_sort, h.sort x hx]

theorem mono {spot' : NodeId → Prop} {out' : NodeId → NodeId → Prop} (h : Rewrites spot out t u)
    (spots : ∀ x, spot x → spot' x) (outs : ∀ x c, c ∈ t.childIds x → out x c → out' x c) :
    Rewrites spot' out' t u where
  size := h.size
  root := h.root
  sort := h.sort
  kept x c hc := (h.kept x c hc).imp_right (outs x c hc)
  made := h.made
  frame x node hn := (h.frame x node hn).imp_right (Or.imp_left (spots x))

theorem alloc (h : Rewrites spot out t u) (kind : NodeKind NodeId) : Rewrites spot out t (u.alloc kind).2 where
  size := by
    rw [size_alloc]
    exact Nat.le_succ_of_le h.size
  root := h.root
  sort x hx := by
    rw [sort?, kind?, get?_alloc_old (Nat.lt_of_lt_of_le hx h.size)]
    exact h.sort x hx
  kept x c hc := by
    have hx : x.index < t.size := by
      obtain ⟨node, hn, -⟩ := exists_get?_of_mem_childIds hc
      exact lt_size_of_get? hn
    rw [childIds_alloc, if_neg (Nat.ne_of_lt (Nat.lt_of_lt_of_le hx h.size))]
    exact h.kept x c hc
  made x hx c hc := by
    rw [childIds_alloc, if_neg (Nat.ne_of_lt (Nat.lt_of_lt_of_le hx h.size))] at hc
    exact (h.made x hx c hc).imp_right fun sprouts => sprouts.alloc kind
  frame x node hn := by
    rw [get?_alloc_old (Nat.lt_of_lt_of_le (lt_size_of_get? hn) h.size)]
    exact h.frame x node hn

theorem write {node : Node} (h : Rewrites spot out t u) (hx : x.index < t.size) (hn : u.get? x = some node)
    (kind : NodeKind NodeId) (sort : kind.sort = node.kind.sort)
    (keeps : ∀ c ∈ t.childIds x, c ∈ u.childIds x → c ∈ kind.children ∨ out x c)
    (makes : ∀ c ∈ kind.children, c ∈ u.childIds x ∨ Sprouts t u (t.childIds x) c)
    (place : spot x ∨ node.kind.isStyling = true) : Rewrites spot out t (u.setKind x kind) := by
  have stored := lt_size_of_get? hn
  have hget : (u.setKind x kind).get? x = some ⟨kind, node.span⟩ := get?_setKind_of_get? hn kind
  have hchild : ∀ y, (u.setKind x kind).childIds y = if y = x then kind.children else u.childIds y :=
    childIds_setKind u x kind stored
  have hsort := h.sort x hx
  rw [sort?, kind?_of_get? hn] at hsort
  refine ⟨(size_setKind u x kind).symm ▸ h.size, h.root, fun y hy => ?_, fun y c hc => ?_,
    fun y hy c hc => ?_, fun y old hold => ?_⟩
  · by_cases same : y = x
    · rw [same, ← hsort, sort?, kind?_of_get? hget, Option.map_some, Option.map_some, sort]
    · rw [sort?, kind?, get?_setKind_ne (Ne.symm same)]
      exact h.sort y hy
  · rw [hchild]
    split
    · rename_i same
      subst same
      rcases h.kept y c hc with hu | hout
      · exact keeps c hc hu
      · exact .inr hout
    · exact h.kept y c hc
  · rw [hchild] at hc
    split at hc
    · rename_i same
      subst same
      rcases makes c hc with hc | hc
      · exact (h.made y hy c hc).imp_right (·.setKind hx stored kind)
      · exact .inr (hc.setKind hx stored kind)
    · exact (h.made y hy c hc).imp_right (·.setKind hx stored kind)
  · by_cases same : y = x
    · subst same
      refine .inr (place.imp_right fun styling => ?_)
      rw [sort?, kind?_of_get? hold, Option.map_some, Option.map_some, Option.some.injEq] at hsort
      have htype : node.kind.typeName = old.kind.typeName := congrArg NodeSort.type hsort
      rwa [NodeKind.isStyling, ← htype]
    · rw [get?_setKind_ne (Ne.symm same)]
      exact h.frame y old hold

end Rewrites

theorem Sprouts.trans {spot' : NodeId → Prop} {out' : NodeId → NodeId → Prop} (h : Sprouts t u kept x)
    (more : Rewrites spot' out' u v) (size : t.size ≤ u.size) : Sprouts t v kept x := by
  induction h with
  | @new f low high _ ih =>
    refine .new low (Nat.lt_of_lt_of_le high more.size) fun c hc hnot => ?_
    rcases more.made f high c hc with hc | hc
    · exact ih c hc hnot
    · refine hc.mono size (Nat.le_refl _) (fun k hk => ?_) fun _ _ _ _ => .inl
      by_cases hkept : k ∈ kept
      · exact .inl hkept
      · exact .inr (ih k hk hkept)

theorem Rewrites.trans (h : Rewrites spot out t u) (more : Rewrites spot (fun _ _ => False) u v) :
    Rewrites spot out t v where
  size := Nat.le_trans h.size more.size
  root := more.root.trans h.root
  sort x hx := (more.sort x (Nat.lt_of_lt_of_le hx h.size)).trans (h.sort x hx)
  kept x c hc := (h.kept x c hc).imp_left fun hc => (more.kept x c hc).resolve_right id
  made x hx c hc := by
    have sprouts : ∀ k ∈ u.childIds x, k ∈ t.childIds x ∨ Sprouts t v (t.childIds x) k := fun k hk =>
      (h.made x hx k hk).imp_right (·.trans more h.size)
    rcases more.made x (Nat.lt_of_lt_of_le hx h.size) c hc with hc | hc
    · exact sprouts c hc
    · exact .inr (hc.mono h.size (Nat.le_refl _) sprouts fun _ _ _ _ => .inl)
  frame x node hn := by
    rcases h.frame x node hn with hn | placed
    · exact more.frame x node hn
    · exact .inr placed

/-- The tree has gone on from `u`: what had sprouted is there. -/
structure Advances (spot : NodeId → Prop) (out : NodeId → NodeId → Prop) (t u v : Tree) : Prop where
  rewrites : Rewrites spot out t v
  sprouts : ∀ kept c, Sprouts t u kept c → Sprouts t v kept c

namespace Advances

theorem refl (h : Rewrites spot out t u) : Advances spot out t u u :=
  ⟨h, fun _ _ => id⟩

theorem alloc (h : Rewrites spot out t u) (kind : NodeKind NodeId) :
    Advances spot out t u (u.alloc kind).2 :=
  ⟨h.alloc kind, fun _ _ hc => hc.alloc kind⟩

theorem trans {w : Tree} (h : Advances spot out t u v) (h' : Advances spot out t v w) :
    Advances spot out t u w :=
  ⟨h'.rewrites, fun kept c hc => h'.sprouts kept c (h.sprouts kept c hc)⟩

end Advances

theorem barren_of_isElement (h : t.isElement c = false) (below : ∀ d ∈ t.childIds c, t.Barren d) :
    t.Barren c := by
  intro y hy
  cases hy with
  | refl => exact h
  | step hd hy => exact below _ hd y hy

namespace Rewrites

theorem kind?_typeName {kind : NodeKind NodeId} (h : Rewrites spot out t u) (hx : x.index < t.size)
    (hk : u.kind? x = some kind) : ∃ old, t.kind? x = some old ∧ old.typeName = kind.typeName := by
  have := h.sort x hx
  rw [sort?, hk, Option.map_some, eq_comm] at this
  obtain ⟨old, hold, hsort⟩ := Option.map_eq_some_iff.1 this
  exact ⟨old, hold, congrArg NodeSort.type hsort⟩

theorem barren_literal {value : Literal} (h : Rewrites spot out t u) (hc : c.index < t.size)
    (hl : u.literal? c = some value) : t.Barren c := by
  unfold literal? at hl
  split at hl
  · rename_i hk
    obtain ⟨old, hold, hname⟩ := h.kind?_typeName hc hk
    refine barren_of_isElement ?_ fun d hd => ?_
    · rw [Tree.isElement, hold, Option.any_some, NodeKind.isElement_eq, hname]
      rfl
    · rw [childIds, hold, Option.map_some, NodeKind.children_of_literal hname] at hd
      cases hd
  · cases hl

theorem allocDeclaration (h : Rewrites spot out t u) (name value : String) :
    Advances spot out t u (u.allocDeclaration name value).2 ∧
      ∀ kept, Sprouts t (u.allocDeclaration name value).2 kept (u.allocDeclaration name value).1 := by
  have literal := Advances.alloc h (.literal (.string value) none)
  refine ⟨literal.trans (.alloc literal.rewrites _), fun kept => sprouts_alloc literal.rewrites.size ?_⟩
  intro c hc _
  rw [NodeKind.children, PropertyKey.children_of_name? (PropertyKey.name?_ofName name)] at hc
  obtain rfl := List.mem_singleton.1 hc
  exact sprouts_leaf h.size rfl

theorem allocDeclarations (h : Rewrites spot out t u) (styles : StyleMap) :
    Advances spot out t u (u.allocDeclarations styles).2 ∧
      ∀ c ∈ (u.allocDeclarations styles).1, ∀ kept, Sprouts t (u.allocDeclarations styles).2 kept c := by
  induction styles generalizing u with
  | nil => exact ⟨.refl h, nofun⟩
  | cons entry styles ih =>
    obtain ⟨first, sprouts⟩ := h.allocDeclaration entry.1 entry.2
    obtain ⟨rest, others⟩ := ih first.rewrites
    refine ⟨first.trans rest, fun c hc kept => ?_⟩
    rcases List.mem_cons.1 hc with rfl | hc
    · exact rest.sprouts kept _ (sprouts kept)
    · exact others c hc kept

end Rewrites

def NamedIn (t : Tree) (styles : StyleMap) (p : NodeId) : Prop :=
  ∃ name, t.propertyName? p = some name ∧ (styles.get? name).isSome = true

/-- What writing a map to an object may take out. -/
def OutOfStyle (t : Tree) (object : NodeId) (styles : StyleMap) (x c : NodeId) : Prop :=
  t.Barren c ∨ x = object ∧ t.NamedIn styles c

/-- What was written of the properties of an object: `others` stand in their place, and `left` is left to write. -/
structure WritesOver (spot : NodeId → Prop) (object : NodeId) (styles : StyleMap) (t u : Tree)
    (properties others : List NodeId) (left : StyleMap) (v : Tree) : Prop where
  advances : Advances spot (t.OutOfStyle object styles) t u v
  stays : ∀ c ∈ others, c ∈ properties ∨ ∀ kept, Sprouts t v kept c
  gone : ∀ p ∈ properties, p ∈ others ∨ t.OutOfStyle object styles object p
  fewer : ∀ name, (left.get? name).isSome = true → (styles.get? name).isSome = true

section

variable {object : NodeId} {styles left : StyleMap} {p : NodeId} {properties : List NodeId}
  (h : Rewrites spot (t.OutOfStyle object styles) t u) (stored : t.Stored)
  (hobject : t.isObject object = true)

include h stored

theorem Rewrites.setDeclaration {name current : String} (hp : p.index < t.size)
    (declared : u.declaration? p = some (name, current)) (value : String) :
    Advances spot (t.OutOfStyle object styles) t u (u.setDeclaration p value) := by
  obtain ⟨key, old, span, content, hn, hname, hold⟩ := exists_literal_of_declaration? declared
  let w := (u.alloc (.literal (.string value) none)).2
  have first : Advances spot (t.OutOfStyle object styles) t u w := .alloc h _
  have hn' : w.get? p = some ⟨.property key old false, span⟩ := by
    rw [get?_alloc_old (lt_size_of_get? hn), hn]
  have plain : key.children = [] := PropertyKey.children_of_name? hname
  rw [setDeclaration_eq hn]
  refine ⟨first.rewrites.write hp hn' _ rfl (fun c hc hcw => ?_) (fun c hc => ?_) (.inr (by rfl)),
    fun kept c hc => (first.sprouts kept c hc).setKind hp (lt_size_of_get? hn') _⟩
  · rw [childIds_of_get? hn', NodeKind.children, plain] at hcw
    obtain rfl := List.mem_singleton.1 hcw
    obtain ⟨node, hnode, hmem⟩ := exists_get?_of_mem_childIds hc
    exact .inr (.inl (h.barren_literal (stored hnode c hmem) hold))
  · rw [NodeKind.children, plain] at hc
    obtain rfl := List.mem_singleton.1 hc
    exact .inr (sprouts_leaf h.size rfl)

include hobject

theorem Rewrites.barren_declaration {entry : String × String} (hp : p.index < t.size)
    (declared : u.declaration? p = some entry) : t.Barren p := by
  obtain ⟨key, old, span, content, hn, hname, hold⟩ := exists_literal_of_declaration? declared
  obtain ⟨before, hbefore, hsort⟩ := h.kind?_typeName hp (kind?_of_get? hn)
  refine barren_of_isElement ?_ fun c hc => ?_
  · rw [Tree.isElement, hbefore, Option.any_some, NodeKind.isElement_eq, hsort]
    rfl
  · rcases h.kept p c hc with hcu | barren | ⟨rfl, -⟩
    · rw [childIds_of_get? hn, NodeKind.children, PropertyKey.children_of_name? hname] at hcu
      obtain rfl := List.mem_singleton.1 hcu
      obtain ⟨node, hnode, hmem⟩ := exists_get?_of_mem_childIds hc
      exact h.barren_literal (stored hnode c hmem) hold
    · exact barren
    · obtain ⟨_, _, hn'⟩ := exists_of_isObject hobject
      rw [kind?_of_get? hn'] at hbefore
      cases hbefore
      exact absurd hsort (by simp [NodeKind.typeName])

theorem Rewrites.writeProperty (hp : p.index < t.size)
    (fewer : ∀ name, (left.get? name).isSome = true → (styles.get? name).isSome = true) :
    WritesOver spot object styles t u [p] (u.writeProperty left p).1.toList (u.writeProperty left p).2.1
      (u.writeProperty left p).2.2 := by
  have stays {rest : StyleMap} (fewer : ∀ name, (rest.get? name).isSome = true → (styles.get? name).isSome = true)
      {v : Tree} (advances : Advances spot (t.OutOfStyle object styles) t u v) :
      WritesOver spot object styles t u [p] [p] rest v :=
    ⟨advances, fun _ => .inl, fun _ => .inl, fewer⟩
  have erased (name : String) : ∀ other, ((left.erase name).get? other).isSome = true →
      (styles.get? other).isSome = true := fun other hother => fewer other (StyleMap.get?_of_erase hother)
  unfold Tree.writeProperty
  cases declared : u.declaration? p with
  | some entry =>
    obtain ⟨name, current⟩ := entry
    dsimp only
    cases found : left.get? name with
    | none =>
      refine ⟨.refl h, nofun, fun q hq => .inr (.inl ?_), fewer⟩
      obtain rfl := List.mem_singleton.1 hq
      exact h.barren_declaration stored hobject hp declared
    | some value =>
      dsimp only
      split
      · exact stays (erased name) (.refl h)
      · exact stays (erased name) (h.setDeclaration stored hp declared value)
  | none =>
    dsimp only
    cases named : u.propertyName? p with
    | none => exact stays fewer (.refl h)
    | some name =>
      dsimp only
      cases found : left.get? name with
      | none => exact stays fewer (.refl h)
      | some value =>
        obtain ⟨advances, sprouts⟩ := h.allocDeclaration name value
        refine ⟨advances, fun c hc => .inr fun kept => ?_, fun q hq => .inr (.inr ⟨rfl, name, ?_, ?_⟩), erased name⟩
        · obtain rfl := List.mem_singleton.1 hc
          exact sprouts kept
        · obtain rfl := List.mem_singleton.1 hq
          rw [← h.propertyName? hp, named]
        · exact fewer name (by rw [found]; rfl)

theorem Rewrites.writeProperties (hp : ∀ p ∈ properties, p.index < t.size)
    (fewer : ∀ name, (left.get? name).isSome = true → (styles.get? name).isSome = true) :
    WritesOver spot object styles t u properties (u.writeProperties left properties).1
      (u.writeProperties left properties).2.1 (u.writeProperties left properties).2.2 := by
  induction properties generalizing u left with
  | nil => exact ⟨.refl h, nofun, nofun, fewer⟩
  | cons p properties ih =>
    have first := h.writeProperty stored hobject (hp p List.mem_cons_self) fewer
    have rest := ih first.advances.rewrites (fun q hq => hp q (List.mem_cons_of_mem p hq)) first.fewer
    refine ⟨first.advances.trans rest.advances, fun c hc => ?_, fun q hq => ?_, rest.fewer⟩
    · rcases List.mem_append.1 hc with hc | hc
      · exact (first.stays c hc).imp (fun hc => List.mem_cons.2 (.inl (List.mem_singleton.1 hc)))
          fun sprouts kept => rest.advances.sprouts kept c (sprouts kept)
      · exact (rest.stays c hc).imp_left (List.mem_cons_of_mem p)
    · rcases List.mem_cons.1 hq with rfl | hq
      · exact (first.gone q (List.mem_singleton.2 rfl)).imp_left (List.mem_append_left _)
      · exact (rest.gone q hq).imp_left (List.mem_append_right _)

end

theorem get?_allocDeclarations_object {object : NodeId} {properties : List NodeId} {span : Option Span}
    (h : t.get? object = some ⟨.object properties, span⟩) (styles : StyleMap) :
    (t.allocDeclarations styles).2.get? object = some ⟨.object properties, span⟩ :=
  (Writes.allocDeclarations t styles).1.other object _ h nofun

theorem get?_writeProperties_object {object : NodeId} {properties : List NodeId} {span : Option Span}
    (h : t.get? object = some ⟨.object properties, span⟩) (styles : StyleMap) (others : List NodeId) :
    (t.writeProperties styles others).2.2.get? object = some ⟨.object properties, span⟩ :=
  (Writes.writeProperties t styles others).1.other object _ h nofun

theorem rewrites_writeObject {object : NodeId} {properties : List NodeId} {span : Option Span} (stored : t.Stored)
    (hobject : t.get? object = some ⟨.object properties, span⟩) (styles : StyleMap) :
    Rewrites spot (t.OutOfStyle object styles) t
      (((t.writeProperties styles properties).2.2.allocDeclarations (t.writeProperties styles properties).2.1).2.setKind
        object (.object ((t.writeProperties styles properties).1 ++
          ((t.writeProperties styles properties).2.2.allocDeclarations (t.writeProperties styles properties).2.1).1))) := by
  have isObject : t.isObject object = true := by
    rw [isObject, kind?_of_get? hobject]
  have below : t.childIds object = properties := childIds_of_get? hobject
  have inside : ∀ p ∈ properties, p.index < t.size := stored hobject
  have unchanged : Rewrites spot (t.OutOfStyle object styles) t t := .refl t
  have written := unchanged.writeProperties stored isObject inside fun name => id
  obtain ⟨added, sprouts⟩ := written.advances.rewrites.allocDeclarations (t.writeProperties styles properties).2.1
  have hobject' := get?_allocDeclarations_object (get?_writeProperties_object hobject styles properties)
    (t.writeProperties styles properties).2.1
  refine added.rewrites.write (lt_size_of_get? hobject) hobject' _ rfl (fun c hc _ => ?_) (fun c hc => ?_)
    (.inr (by rfl))
  · rw [below] at hc
    exact (written.gone c hc).imp_left (List.mem_append_left _)
  · rw [childIds_of_get? hobject', below]
    rcases List.mem_append.1 hc with hc | hc
    · exact (written.stays c hc).imp_right fun hsprouts => added.sprouts _ c (hsprouts _)
    · exact .inr (sprouts c hc _)

end Tree

end MarkupEditor
