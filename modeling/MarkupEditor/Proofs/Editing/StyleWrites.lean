import Mathlib.Data.List.Nodup
import MarkupEditor.Proofs.Editing.Removals

set_option autoImplicit false

namespace MarkupEditor

namespace StyleMap

variable {styles others : StyleMap} {name other value : String}

def Distinct (styles : StyleMap) : Prop :=
  (styles.map Prod.fst).Nodup

theorem get?_eq_none : styles.get? name = none ↔ name ∉ styles.map Prod.fst := by
  simp only [get?, Option.map_eq_none_iff, List.find?_eq_none, decide_eq_true_eq, List.mem_map, not_exists, not_and]

theorem mem_of_get? (h : styles.get? name = some value) : (name, value) ∈ styles := by
  obtain ⟨⟨found, current⟩, hfind, rfl⟩ := Option.map_eq_some_iff.1 h
  obtain rfl : found = name := by simpa using List.find?_some hfind
  exact List.mem_of_find?_eq_some hfind

theorem get?_of_mem (distinct : styles.Distinct) (h : (name, value) ∈ styles) : styles.get? name = some value := by
  cases found : styles.get? name with
  | none => exact absurd (List.mem_map_of_mem h) (get?_eq_none.1 found)
  | some current =>
    have same := List.inj_on_of_nodup_map distinct (mem_of_get? found) h rfl
    exact congrArg some (Prod.mk.inj same).2

theorem get?_of_perm (distinct : others.Distinct) (same : styles.Perm others) (name : String) :
    styles.get? name = others.get? name := by
  cases found : styles.get? name with
  | none =>
    rw [eq_comm, get?_eq_none]
    exact fun hmem => get?_eq_none.1 found ((same.map Prod.fst).mem_iff.2 hmem)
  | some value => exact (get?_of_mem distinct (same.mem_iff.1 (mem_of_get? found))).symm

theorem get?_erase_ne (h : other ≠ name) : (styles.erase name).get? other = styles.get? other := by
  rw [get?, get?, erase, List.find?_filter]
  refine congrArg (Option.map _) (List.find?_congr fun entry _ => ?_)
  by_cases same : entry.1 = other
  · simp [same, h]
  · simp [same]

theorem Distinct.erase (h : styles.Distinct) (name : String) : (styles.erase name).Distinct :=
  h.sublist (List.filter_sublist.map Prod.fst)

theorem perm_erase (distinct : styles.Distinct) (found : styles.get? name = some value) :
    styles.Perm ((name, value) :: styles.erase name) := by
  have hmem := mem_of_get? found
  obtain ⟨front, back, rfl⟩ := List.append_of_mem hmem
  have apart : ∀ entry ∈ front ++ back, entry.1 ≠ name := by
    have nodup : ((front ++ (name, value) :: back).map Prod.fst).Nodup := distinct
    rw [List.map_append, List.map_cons, List.nodup_middle, List.nodup_cons, ← List.map_append] at nodup
    rintro entry he rfl
    exact nodup.1 (List.mem_map.2 ⟨entry, he, rfl⟩)
  have rest : StyleMap.erase (front ++ (name, value) :: back) name = front ++ back := by
    rw [StyleMap.erase, List.filter_append, List.filter_cons_of_neg (by simp), ← List.filter_append]
    exact List.filter_eq_self.2 fun entry he => decide_eq_true (apart entry he)
  rw [rest]
  exact List.perm_middle

theorem insert_of_missing (h : styles.get? name = none) (value : String) :
    styles.insert name value = styles ++ [(name, value)] := by
  induction styles with
  | nil => rfl
  | cons entry styles ih =>
    rw [get?_eq_none, List.map_cons, List.mem_cons, not_or] at h
    rw [insert, if_neg (Ne.symm h.1), ih (get?_eq_none.2 h.2)]
    rfl

theorem mem_keys_insert (styles : StyleMap) (name value : String) :
    other ∈ (styles.insert name value).map Prod.fst ↔ other = name ∨ other ∈ styles.map Prod.fst := by
  induction styles with
  | nil => exact List.mem_cons
  | cons entry styles ih =>
    rw [insert]
    split
    · rename_i same
      simp [same]
    · rw [List.map_cons, List.mem_cons, ih, List.map_cons, List.mem_cons, or_left_comm]

theorem Distinct.insert (h : styles.Distinct) (name value : String) : (styles.insert name value).Distinct := by
  induction styles with
  | nil => exact List.nodup_singleton name
  | cons entry styles ih =>
    obtain ⟨first, rest⟩ := List.nodup_cons.1 h
    rw [StyleMap.insert]
    split
    · exact h
    · rename_i differs
      refine List.nodup_cons.2 ⟨fun hmem => ?_, ih rest⟩
      exact ((mem_keys_insert styles name value).1 hmem).elim differs first

theorem distinct_ofList (entries : List (String × String)) : (ofList entries).Distinct := by
  suffices ∀ styles : StyleMap, styles.Distinct →
      (entries.foldl (fun styles entry => styles.insert entry.1 entry.2) styles).Distinct from this [] List.nodup_nil
  induction entries with
  | nil => exact fun _ h => h
  | cons entry entries ih => exact fun styles h => ih _ (h.insert entry.1 entry.2)

theorem ofList_of_distinct {entries : List (String × String)} (h : Distinct entries) : ofList entries = entries := by
  suffices ∀ styles : StyleMap, Distinct (styles ++ entries) →
      entries.foldl (fun styles entry => styles.insert entry.1 entry.2) styles = styles ++ entries from this [] h
  clear h
  induction entries with
  | nil => exact fun styles _ => (List.append_nil styles).symm
  | cons entry entries ih =>
    intro styles h
    have missing : styles.get? entry.1 = none := by
      have nodup : ((styles ++ entry :: entries).map Prod.fst).Nodup := h
      rw [List.map_append, List.map_cons, List.nodup_middle, List.nodup_cons] at nodup
      exact get?_eq_none.2 fun hmem => nodup.1 (List.mem_append_left _ hmem)
    change entries.foldl _ (styles.insert entry.1 entry.2) = _
    rw [insert_of_missing missing, ih, List.append_assoc]
    · rfl
    · rwa [List.append_assoc]

/-- A map that gives no name another value. -/
def Within (left styles : StyleMap) : Prop :=
  ∀ name value, left.get? name = some value → styles.get? name = some value

theorem Within.refl (styles : StyleMap) : styles.Within styles :=
  fun _ _ h => h

theorem within_erase (styles : StyleMap) (name : String) : (styles.erase name).Within styles := by
  intro other value found
  by_cases same : other = name
  · rw [same, get?_erase_self] at found
    cases found
  · rwa [get?_erase_ne same] at found

end StyleMap

namespace Tree

variable {t u v : Tree} {p q object : NodeId} {properties : List NodeId} {styles left : StyleMap}
  {name value current : String}

theorem Stored.alloc {kind : NodeKind NodeId} (h : t.Stored) (below : ∀ c ∈ kind.children, c.index < t.size) :
    (t.alloc kind).2.Stored := by
  intro id node hn child hc
  rw [size_alloc]
  refine Nat.lt_succ_of_lt ?_
  obtain old | new := Nat.lt_succ_iff_lt_or_eq.1 (size_alloc t kind ▸ lt_size_of_get? hn)
  · rw [get?_alloc_old old] at hn
    exact h hn child hc
  · obtain rfl : id = (t.alloc kind).1 := congrArg NodeId.mk new
    rw [get?_alloc_new] at hn
    cases hn
    exact below child hc

theorem Stored.setKind {kind : NodeKind NodeId} (h : t.Stored) (below : ∀ c ∈ kind.children, c.index < t.size) :
    (t.setKind p kind).Stored := by
  intro id node hn child hc
  rw [size_setKind]
  by_cases same : p = id
  · rw [← same, get?_setKind_self] at hn
    obtain ⟨old, -, rfl⟩ := Option.map_eq_some_iff.1 hn
    exact below child hc
  · rw [get?_setKind_ne same] at hn
    exact h hn child hc

/-- A declaration of a name and a value as an edit makes it. -/
def DeclaresAs (t : Tree) (p : NodeId) (name value : String) : Prop :=
  ∃ literal, t.get? p = some ⟨.property (.ofName name) literal false, none⟩ ∧
    t.get? literal = some ⟨.literal (.string value) none, none⟩

/-- A declaration that has been given another value, which a map has for its name, and is otherwise the same. -/
inductive Updated (t u : Tree) (styles : StyleMap) (p : NodeId) : Prop where
  | intro {key : PropertyKey NodeId} {old new : NodeId} {span : Option Span} {name current value : String}
    (before : t.get? p = some ⟨.property key old false, span⟩) (declared : t.declaration? p = some (name, current))
    (found : styles.get? name = some value) (changed : value ≠ current)
    (after : u.get? p = some ⟨.property key new false, span⟩)
    (literal : u.get? new = some ⟨.literal (.string value) none, none⟩)

/-- What writing a map does to the nodes from before: they are the same, apart from declarations among the
properties that are given their values. -/
structure Overwrites (properties : List NodeId) (styles : StyleMap) (t u : Tree) : Prop where
  size : t.size ≤ u.size
  stored : t.Stored → u.Stored
  node : ∀ id, id.index < t.size → u.get? id = t.get? id ∨ id ∈ properties ∧ t.Updated u styles id

theorem declaration?_of_get? {key : PropertyKey NodeId} {content : NodeId} {span : Option Span} {literal : Literal}
    (h : t.get? p = some ⟨.property key content false, span⟩) (hname : key.name? = some name)
    (hl : t.literal? content = some literal) : t.declaration? p = some (name, literal.styleText) := by
  rw [declaration?, kind?_of_get? h]
  simp only [hname, hl, Option.bind_some, Option.map_some]

theorem literal?_of_get? {id : NodeId} {literal : Literal} {raw : Option String} {span : Option Span}
    (h : t.get? id = some ⟨.literal literal raw, span⟩) : t.literal? id = some literal := by
  rw [literal?, kind?_of_get? h]

theorem DeclaresAs.declaration? (h : t.DeclaresAs p name value) : t.declaration? p = some (name, value) := by
  obtain ⟨literal, hp, hl⟩ := h
  exact declaration?_of_get? hp (PropertyKey.name?_ofName name) (literal?_of_get? hl)

theorem Updated.declaration? (h : t.Updated u styles p) (declared : t.declaration? p = some (name, current)) :
    ∃ value, styles.get? name = some value ∧ value ≠ current ∧ u.declaration? p = some (name, value) := by
  obtain ⟨before, declared', found, changed, after, literal⟩ := h
  obtain ⟨rfl, rfl⟩ := Prod.mk.inj (Option.some.inj (declared.symm.trans declared'))
  obtain ⟨key, old, span, hp, hname⟩ := exists_of_declaration? declared
  rw [before] at hp
  cases hp
  exact ⟨_, found, changed, declaration?_of_get? after hname (literal?_of_get? literal)⟩

theorem Updated.exists_declaration? (h : t.Updated u styles p) :
    ∃ name current, t.declaration? p = some (name, current) := by
  obtain ⟨-, declared, -, -, -, -⟩ := h
  exact ⟨_, _, declared⟩

theorem DeclaresAs.mono (h : t.DeclaresAs p name value) (same : ∀ id node, t.get? id = some node →
    u.get? id = some node ∨ id ∈ properties ∧ t.Updated u styles id) (missing : styles.get? name = none) :
    u.DeclaresAs p name value := by
  have declared := h.declaration?
  obtain ⟨literal, hp, hl⟩ := h
  refine ⟨literal, (same p _ hp).resolve_right fun ⟨_, updated⟩ => ?_,
    (same literal _ hl).resolve_right fun ⟨_, updated⟩ => ?_⟩
  · obtain ⟨value, found, -⟩ := updated.declaration? declared
    rw [missing] at found
    cases found
  · obtain ⟨name, current, declared⟩ := updated.exists_declaration?
    obtain ⟨_, _, _, hp, _⟩ := exists_of_declaration? declared
    rw [hl] at hp
    cases hp

namespace Overwrites

theorem refl (properties : List NodeId) (styles : StyleMap) (t : Tree) : Overwrites properties styles t t :=
  ⟨Nat.le_refl _, fun h => h, fun _ _ => .inl rfl⟩

variable (h : Overwrites properties styles t u)

include h

theorem get? {id : NodeId} {node : Node} (hn : t.get? id = some node) :
    u.get? id = some node ∨ id ∈ properties ∧ t.Updated u styles id :=
  hn ▸ h.node id (lt_size_of_get? hn)

theorem get?_of_undeclared {id : NodeId} (hid : id.index < t.size) (undeclared : t.declaration? id = none) :
    u.get? id = t.get? id := by
  refine (h.node id hid).resolve_right fun ⟨_, updated⟩ => ?_
  obtain ⟨_, _, declared⟩ := updated.exists_declaration?
  rw [undeclared] at declared
  cases declared

theorem literal? {id : NodeId} (hid : id.index < t.size) : u.literal? id = t.literal? id := by
  obtain same | ⟨-, before, -, -, -, after, -⟩ := h.node id hid
  · rw [Tree.literal?, Tree.literal?, kind?, kind?, same]
  · rw [Tree.literal?, Tree.literal?, kind?_of_get? before, kind?_of_get? after]

theorem propertyName? {id : NodeId} (hid : id.index < t.size) : u.propertyName? id = t.propertyName? id := by
  obtain same | ⟨-, before, -, -, -, after, -⟩ := h.node id hid
  · rw [Tree.propertyName?, Tree.propertyName?, kind?, kind?, same]
  · rw [Tree.propertyName?, Tree.propertyName?, kind?_of_get? before, kind?_of_get? after]

theorem declaration?_of_same (stored : t.Stored) {id : NodeId} (same : u.get? id = t.get? id) : u.declaration? id = t.declaration? id := by
  rw [Tree.declaration?, Tree.declaration?, kind?, kind?, same]
  cases hn : t.get? id with
  | none => rfl
  | some node =>
    obtain ⟨kind, span⟩ := node
    cases kind with
    | property key content shorthand =>
      have hc : content.index < t.size := stored hn content (List.mem_append_right _ (List.mem_singleton.2 rfl))
      cases shorthand
      · simp only [Option.map_some, h.literal? hc]
      · rfl
    | _ => rfl

theorem declaration?_of_undeclared (stored : t.Stored) {id : NodeId} (hid : id.index < t.size)
    (undeclared : t.declaration? id = none) : u.declaration? id = none :=
  (h.declaration?_of_same stored (h.get?_of_undeclared hid undeclared)).trans undeclared

theorem get?_of_missing {id : NodeId} (declared : t.declaration? id = some (name, current))
    (missing : styles.get? name = none) : u.get? id = t.get? id := by
  obtain ⟨_, _, _, hn, _⟩ := exists_of_declaration? declared
  refine (h.node id (lt_size_of_get? hn)).resolve_right fun ⟨_, updated⟩ => ?_
  obtain ⟨_, found, -⟩ := updated.declaration? declared
  rw [missing] at found
  cases found

theorem declaration?_of_missing (stored : t.Stored) {id : NodeId} (declared : t.declaration? id = some (name, current))
    (missing : styles.get? name = none) : u.declaration? id = some (name, current) := by
  exact (h.declaration?_of_same stored (h.get?_of_missing declared missing)).trans declared

theorem declaresAs (declares : t.DeclaresAs p name value) (missing : styles.get? name = none) :
    u.DeclaresAs p name value :=
  declares.mono (fun _ _ => h.get?) missing

theorem mono {others : List NodeId} {more : StyleMap} (sub : ∀ p ∈ properties, p ∈ others)
    (within : styles.Within more) : Overwrites others more t u where
  size := h.size
  stored := h.stored
  node id hid := by
    refine (h.node id hid).imp_right fun ⟨hmem, before, declared, found, changed, after, literal⟩ => ?_
    exact ⟨sub id hmem, .intro before declared (within _ _ found) changed after literal⟩

theorem updated {w : Tree} {more : StyleMap} (within : styles.Within more) (updated : w.Updated t more p) :
    w.Updated u more p := by
  obtain ⟨before, declared, found, changed, after, literal⟩ := updated
  obtain ⟨value, found', -, declared'⟩ := Updated.declaration? ⟨before, declared, found, changed, after, literal⟩ declared
  obtain rfl := Option.some.inj (found.symm.trans found')
  refine .intro before declared found changed ((h.get? after).resolve_right fun ⟨_, again⟩ => ?_)
    ((h.get? literal).resolve_right fun ⟨_, again⟩ => ?_)
  · obtain ⟨_, found'', changed', -⟩ := again.declaration? declared'
    exact changed' (Option.some.inj ((within _ _ found'').symm.trans found))
  · obtain ⟨_, _, declared⟩ := again.exists_declaration?
    obtain ⟨_, _, _, hn, _⟩ := exists_of_declaration? declared
    rw [literal] at hn
    cases hn

theorem trans (stored : t.Stored) (h' : Overwrites properties left u v) (within : left.Within styles) :
    Overwrites properties styles t v := by
  refine ⟨Nat.le_trans h.size h'.size, fun ht => h'.stored (h.stored ht), fun id hid => ?_⟩
  obtain same | ⟨hmem, updated⟩ := h.node id hid
  · obtain same' | ⟨hmem, before, declared, found, changed, after, literal⟩ :=
      h'.node id (Nat.lt_of_lt_of_le hid h.size)
    · exact .inl (same'.trans same)
    · rw [h.declaration?_of_same stored same] at declared
      rw [same] at before
      exact .inr ⟨hmem, .intro before declared (within _ _ found) changed after literal⟩
  · exact .inr ⟨hmem, h'.updated within updated⟩

omit h in
theorem alloc (properties : List NodeId) (styles : StyleMap) {kind : NodeKind NodeId}
    (below : t.Stored → ∀ c ∈ kind.children, c.index < t.size) : Overwrites properties styles t (t.alloc kind).2 where
  size := by
    rw [size_alloc]
    exact Nat.le_succ _
  stored ht := ht.alloc (below ht)
  node _ hid := .inl (get?_alloc_old hid)

end Overwrites

theorem overwrites_allocDeclaration (properties : List NodeId) (styles : StyleMap) (t : Tree) (name value : String) :
    Overwrites properties styles t (t.allocDeclaration name value).2 ∧
      t.size ≤ (t.allocDeclaration name value).1.index ∧
      (t.allocDeclaration name value).2.DeclaresAs (t.allocDeclaration name value).1 name value := by
  let t₁ := (t.alloc (.literal (.string value) none)).2
  let kind : NodeKind NodeId := .property (.ofName name) ⟨t.size⟩ false
  have size : t₁.size = t.size + 1 := size_alloc t _
  have literal : t₁.get? ⟨t.size⟩ = some ⟨.literal (.string value) none, none⟩ := get?_alloc_new t _
  have first : Overwrites properties styles t t₁ := .alloc properties styles fun _ c hc => absurd hc List.not_mem_nil
  have second : Overwrites properties styles t₁ (t₁.alloc kind).2 := .alloc properties styles fun _ c hc => by
    rw [NodeKind.children, PropertyKey.children_of_name? (PropertyKey.name?_ofName name)] at hc
    obtain rfl := List.mem_singleton.1 hc
    exact size ▸ Nat.lt_succ_self _
  change Overwrites properties styles t (t₁.alloc kind).2 ∧ t.size ≤ t₁.size ∧ (t₁.alloc kind).2.DeclaresAs ⟨t₁.size⟩ name value
  refine ⟨⟨Nat.le_trans first.size second.size, fun ht => second.stored (first.stored ht), fun id hid => .inl ?_⟩,
    first.size, ⟨t.size⟩, get?_alloc_new t₁ kind, ?_⟩
  · rw [get?_alloc_old (size ▸ Nat.lt_succ_of_lt hid), get?_alloc_old hid]
  · rw [get?_alloc_old (lt_size_of_get? literal), literal]

theorem overwrites_setDeclaration (hmem : p ∈ properties) (declared : t.declaration? p = some (name, current))
    (found : styles.get? name = some value) (changed : value ≠ current) :
    Overwrites properties styles t (t.setDeclaration p value) ∧ t.Updated (t.setDeclaration p value) styles p := by
  obtain ⟨key, old, span, hp, hname⟩ := exists_of_declaration? declared
  let t₁ := (t.alloc (.literal (.string value) none)).2
  let literal : NodeId := ⟨t.size⟩
  have size : t₁.size = t.size + 1 := size_alloc t _
  have hp₁ : t₁.get? p = some ⟨.property key old false, span⟩ := by
    rw [get?_alloc_old (lt_size_of_get? hp), hp]
  have updated : t.Updated (t₁.setKind p (.property key literal false)) styles p := by
    refine .intro hp declared found changed (get?_setKind_of_get? hp₁ _) ?_
    have apart : p ≠ literal := ne_of_index_ne (Nat.ne_of_lt (lt_size_of_get? hp))
    rw [get?_setKind_ne apart]
    exact get?_alloc_new t _
  rw [setDeclaration_eq hp]
  refine ⟨⟨?_, fun ht => ?_, fun id hid => ?_⟩, updated⟩
  · rw [size_setKind, size]
    exact Nat.le_succ _
  · refine (ht.alloc fun c hc => absurd hc List.not_mem_nil).setKind fun c hc => ?_
    rw [NodeKind.children, PropertyKey.children_of_name? hname] at hc
    obtain rfl := List.mem_singleton.1 hc
    exact size ▸ Nat.lt_succ_self _
  · by_cases same : p = id
    · exact .inr (same ▸ ⟨hmem, updated⟩)
    · rw [get?_setKind_ne same, get?_alloc_old hid]
      exact .inl rfl

theorem propertyName?_of_declaration? (h : t.declaration? p = some (name, current)) :
    t.propertyName? p = some name := by
  obtain ⟨key, old, span, hp, hname⟩ := exists_of_declaration? h
  rw [propertyName?, kind?_of_get? hp]
  exact hname

/-- The ways in which a property is written: what stands in its place, what is left to write, and the tree. -/
inductive Outcome (t : Tree) (styles : StyleMap) (p : NodeId) : Option NodeId → StyleMap → Tree → Prop where
  | stays (unknown : t.declaration? p = none)
    (unnamed : ∀ name, t.propertyName? p = some name → styles.get? name = none) : Outcome t styles p (some p) styles t
  | equal {name value : String} (declared : t.declaration? p = some (name, value))
    (found : styles.get? name = some value) : Outcome t styles p (some p) (styles.erase name) t
  | dropped {name current : String} (declared : t.declaration? p = some (name, current))
    (missing : styles.get? name = none) : Outcome t styles p none styles t
  | updated {name current : String} {u : Tree} (declared : t.declaration? p = some (name, current))
    (updated : t.Updated u styles p) (overwrites : Overwrites [p] styles t u) :
    Outcome t styles p (some p) (styles.erase name) u
  | replaced {name value : String} {q : NodeId} {u : Tree} (unknown : t.declaration? p = none)
    (named : t.propertyName? p = some name) (found : styles.get? name = some value) (fresh : t.size ≤ q.index)
    (declares : u.DeclaresAs q name value) (overwrites : Overwrites [] styles t u) :
    Outcome t styles p (some q) (styles.erase name) u

theorem outcome_writeProperty (t : Tree) (styles : StyleMap) (p : NodeId) :
    t.Outcome styles p (t.writeProperty styles p).1 (t.writeProperty styles p).2.1 (t.writeProperty styles p).2.2 := by
  unfold writeProperty
  cases declared : t.declaration? p with
  | some entry =>
    obtain ⟨name, current⟩ := entry
    dsimp only
    cases found : styles.get? name with
    | none => exact .dropped declared found
    | some value =>
      dsimp only
      split
      · rename_i same
        exact .equal declared (same ▸ found)
      · rename_i changed
        obtain ⟨overwrites, updated⟩ := overwrites_setDeclaration (List.mem_singleton.2 rfl) declared found changed
        exact .updated declared updated overwrites
  | none =>
    dsimp only
    cases named : t.propertyName? p with
    | none =>
      refine .stays declared fun name hname => ?_
      rw [named] at hname
      cases hname
    | some name =>
      dsimp only
      cases found : styles.get? name with
      | none =>
        refine .stays declared fun other hother => ?_
        rw [named] at hother
        exact Option.some.inj hother ▸ found
      | some value =>
        obtain ⟨overwrites, fresh, declares⟩ := overwrites_allocDeclaration [] styles t name value
        exact .replaced declared named found fresh declares overwrites

namespace Outcome

variable {kept : Option NodeId} (h : t.Outcome styles p kept left u)

include h

theorem overwrites : Overwrites [p] styles t u := by
  cases h with
  | stays | equal | dropped => exact .refl _ _ _
  | updated _ _ overwrites => exact overwrites
  | replaced _ _ _ _ _ overwrites => exact overwrites.mono (fun _ hq => absurd hq List.not_mem_nil) (.refl _)

theorem within : left.Within styles := by
  cases h with
  | stays | dropped => exact .refl _
  | equal | updated | replaced => exact StyleMap.within_erase _ _

theorem distinct (distinct : styles.Distinct) : left.Distinct := by
  cases h with
  | stays | dropped => exact distinct
  | equal | updated | replaced => exact distinct.erase _

theorem written (missing : left.get? name = none) : styles.get? name = none ∨ t.propertyName? p = some name := by
  have erased {other : String} (named : t.propertyName? p = some other)
      (missing : (styles.erase other).get? name = none) : styles.get? name = none ∨ t.propertyName? p = some name := by
    by_cases same : name = other
    · exact .inr (same ▸ named)
    · exact .inl (StyleMap.get?_erase_ne same ▸ missing)
  cases h with
  | stays | dropped => exact .inl missing
  | equal declared => exact erased (propertyName?_of_declaration? declared) missing
  | updated declared => exact erased (propertyName?_of_declaration? declared) missing
  | replaced _ named => exact erased named missing

theorem node (hq : q.index < t.size) : u.get? q = t.get? q ∨ q = p ∧ t.Updated u styles q ∧
    ∃ name value, t.propertyName? q = some name ∧ u.declaration? q = some (name, value) ∧ left.get? name = none := by
  cases h with
  | stays | equal | dropped => exact .inl rfl
  | updated declared updated overwrites =>
    refine (overwrites.node q hq).imp_right fun ⟨hmem, again⟩ => ?_
    obtain rfl := List.mem_singleton.1 hmem
    obtain ⟨value, -, -, declared'⟩ := updated.declaration? declared
    exact ⟨rfl, again, _, value, propertyName?_of_declaration? declared, declared', StyleMap.get?_erase_self _ _⟩
  | replaced _ _ _ _ _ overwrites =>
    exact .inl ((overwrites.node q hq).resolve_right fun ⟨hmem, _⟩ => absurd hmem List.not_mem_nil)

end Outcome

/-- What has become of a property when a map was written, `earlier` being the properties before it. -/
inductive Fate (t v : Tree) (styles : StyleMap) (earlier : List NodeId) (p : NodeId) : Option NodeId → Prop where
  | same (same : v.get? p = t.get? p) (cause : t.declaration? p = none ∨
      ∃ name value, t.declaration? p = some (name, value) ∧ styles.get? name = some value) :
    Fate t v styles earlier p (some p)
  | updated (updated : t.Updated v styles p) : Fate t v styles earlier p (some p)
  | replaced {q : NodeId} {name value : String} (unknown : t.declaration? p = none)
    (named : t.propertyName? p = some name) (found : styles.get? name = some value) (fresh : t.size ≤ q.index)
    (declares : v.DeclaresAs q name value) : Fate t v styles earlier p (some q)
  | dropped {name current : String} (declared : t.declaration? p = some (name, current))
    (cause : styles.get? name = none ∨ ∃ q ∈ earlier, t.propertyName? q = some name) : Fate t v styles earlier p none

/-- What has become of properties one after the other. -/
inductive Fates (t v : Tree) (styles : StyleMap) : List NodeId → List NodeId → List (Option NodeId) → Prop where
  | nil {earlier : List NodeId} : Fates t v styles earlier [] []
  | cons {earlier properties : List NodeId} {p : NodeId} {kept : Option NodeId} {others : List (Option NodeId)}
    (first : t.Fate v styles earlier p kept) (rest : Fates t v styles (earlier ++ [p]) properties others) :
    Fates t v styles earlier (p :: properties) (kept :: others)

theorem Outcome.fate {kept fate : Option NodeId} {earlier : List NodeId} (h : t.Outcome styles p kept left u)
    (stored : t.Stored) (hq : q.index < t.size) (before : ∀ x ∈ earlier, x.index < t.size)
    (after : u.Fate v left earlier q fate) :
    t.Fate v styles (p :: earlier) q fate := by
  obtain same | ⟨rfl, updated, name, value, named, declared, missing⟩ := h.node hq
  · have understood := h.overwrites.declaration?_of_same stored same
    cases after with
    | same again cause =>
      refine .same (again.trans same) (cause.imp understood.symm.trans ?_)
      exact fun ⟨name, value, declared, found⟩ => ⟨name, value, understood.symm.trans declared, h.within _ _ found⟩
    | updated again =>
      obtain ⟨before, declared, found, changed, after, literal⟩ := again
      exact .updated (.intro (same ▸ before) (understood.symm.trans declared) (h.within _ _ found) changed after literal)
    | replaced unknown named found fresh declares =>
      exact .replaced (understood.symm.trans unknown) (h.overwrites.propertyName? hq ▸ named) (h.within _ _ found)
        (Nat.le_trans h.overwrites.size fresh) declares
    | dropped declared cause =>
      refine .dropped (understood.symm.trans declared) ?_
      obtain missing | ⟨x, hx, named⟩ := cause
      · exact (h.written missing).imp_right fun named => ⟨p, List.mem_cons_self, named⟩
      · exact .inr ⟨x, List.mem_cons_of_mem p hx, h.overwrites.propertyName? (before x hx) ▸ named⟩
  · cases after with
    | same _ cause =>
      obtain unknown | ⟨other, _, declared', found⟩ := cause
      · rw [unknown] at declared
        cases declared
      · obtain ⟨rfl, rfl⟩ := Prod.mk.inj (Option.some.inj (declared.symm.trans declared'))
        rw [missing] at found
        cases found
    | updated again =>
      obtain ⟨_, found, -⟩ := again.declaration? declared
      rw [missing] at found
      cases found
    | replaced unknown =>
      rw [unknown] at declared
      cases declared
    | dropped =>
      obtain ⟨_, current, declared'⟩ := updated.exists_declaration?
      obtain rfl := Option.some.inj ((propertyName?_of_declaration? declared').symm.trans named)
      exact .dropped declared' (.inr ⟨q, List.mem_cons_self, named⟩)

theorem Outcome.fates {kept : Option NodeId} {earlier : List NodeId} {others : List (Option NodeId)}
    (h : t.Outcome styles p kept left u) (stored : t.Stored) (before : ∀ x ∈ earlier, x.index < t.size)
    (inside : ∀ x ∈ properties, x.index < t.size) (fates : u.Fates v left earlier properties others) : t.Fates v styles (p :: earlier) properties others := by
  induction fates with
  | nil => exact .nil
  | @cons earlier properties q kept others first rest ih =>
    have hq := inside q List.mem_cons_self
    refine .cons (h.fate stored hq before first) (ih (fun x hx => ?_) fun x hx => inside x (List.mem_cons_of_mem q hx))
    obtain hx | hx := List.mem_append.1 hx
    · exact before x hx
    · exact List.mem_singleton.1 hx ▸ hq

theorem Outcome.first {kept : Option NodeId} (h : t.Outcome styles p kept left u) (hp : p.index < t.size)
    (overwrites : Overwrites properties left u v) : t.Fate v styles [] p kept := by
  cases h with
  | stays unknown => exact .same (overwrites.get?_of_undeclared hp unknown) (.inl unknown)
  | equal declared found =>
    exact .same (overwrites.get?_of_missing declared (StyleMap.get?_erase_self _ _)) (.inr ⟨_, _, declared, found⟩)
  | dropped declared missing => exact .dropped declared (.inl missing)
  | updated _ updated => exact .updated (overwrites.updated (StyleMap.within_erase _ _) updated)
  | replaced unknown named found fresh declares _ =>
    exact .replaced unknown named found fresh (overwrites.declaresAs declares (StyleMap.get?_erase_self _ _))

theorem overwrites_writeProperties (t : Tree) (styles : StyleMap) (properties : List NodeId) (stored : t.Stored) :
    Overwrites properties styles t (t.writeProperties styles properties).2.2 := by
  induction properties generalizing t styles with
  | nil => exact .refl _ _ _
  | cons p properties ih =>
    have first := t.outcome_writeProperty styles p
    have rest := ih (t.writeProperty styles p).2.2 (t.writeProperty styles p).2.1 (first.overwrites.stored stored)
    exact (first.overwrites.mono (by simp) (.refl _)).trans stored (rest.mono (fun _ => List.mem_cons_of_mem p) (.refl _)) first.within

theorem fates_writeProperties (t : Tree) (styles : StyleMap) (properties : List NodeId) (stored : t.Stored)
    (inside : ∀ p ∈ properties, p.index < t.size) : ∃ fates,
      (t.writeProperties styles properties).1 = fates.reduceOption ∧
      t.Fates (t.writeProperties styles properties).2.2 styles [] properties fates := by
  induction properties generalizing t styles with
  | nil => exact ⟨[], rfl, .nil⟩
  | cons p properties ih =>
    have first := t.outcome_writeProperty styles p
    let u := (t.writeProperty styles p).2.2
    let left := (t.writeProperty styles p).2.1
    have stored' : u.Stored := first.overwrites.stored stored
    have inside' : ∀ q ∈ properties, q.index < t.size := fun q hq => inside q (List.mem_cons_of_mem p hq)
    obtain ⟨fates, kept, others⟩ := ih u left stored' fun q hq => Nat.lt_of_lt_of_le (inside' q hq) first.overwrites.size
    have rest : Overwrites properties left u _ := overwrites_writeProperties u left properties stored'
    refine ⟨(t.writeProperty styles p).1 :: fates, ?_, .cons (first.first (inside p List.mem_cons_self) rest)
      (first.fates stored (fun _ hx => absurd hx List.not_mem_nil) inside' others)⟩
    rw [writeProperties]
    change (t.writeProperty styles p).1.toList ++ (u.writeProperties left properties).1 = _
    rw [kept]
    cases (t.writeProperty styles p).1 <;> rfl

theorem Outcome.perm {kept : Option NodeId} (h : t.Outcome styles p kept left u) (hp : p.index < t.size)
    (stored : t.Stored) (distinct : styles.Distinct) (overwrites : Overwrites properties left u v) :
    (kept.toList.filterMap v.declaration? ++ left).Perm styles := by
  have written {q : NodeId} {name value : String} (found : styles.get? name = some value)
      (declared : v.declaration? q = some (name, value)) :
      ((some q).toList.filterMap v.declaration? ++ styles.erase name).Perm styles := by
    rw [Option.toList_some, List.filterMap_cons_some declared]
    exact (StyleMap.perm_erase distinct found).symm
  have stored' := h.overwrites.stored stored
  cases h with
  | stays unknown =>
    rw [Option.toList_some, List.filterMap_cons_none (overwrites.declaration?_of_undeclared stored hp unknown)]
    exact .refl _
  | equal declared found =>
    exact written found (overwrites.declaration?_of_missing stored declared (StyleMap.get?_erase_self _ _))
  | dropped => exact .refl _
  | updated declared updated =>
    obtain ⟨value, found, -, declared'⟩ := updated.declaration? declared
    exact written found (overwrites.declaration?_of_missing stored' declared' (StyleMap.get?_erase_self _ _))
  | replaced _ _ found _ declares =>
    exact written found (overwrites.declaresAs declares (StyleMap.get?_erase_self _ _)).declaration?

theorem perm_writeProperties (t : Tree) (styles : StyleMap) (properties : List NodeId) (stored : t.Stored)
    (inside : ∀ p ∈ properties, p.index < t.size) (distinct : styles.Distinct) :
    ((t.writeProperties styles properties).1.filterMap (t.writeProperties styles properties).2.2.declaration? ++
      (t.writeProperties styles properties).2.1).Perm styles := by
  induction properties generalizing t styles with
  | nil => exact .refl _
  | cons p properties ih =>
    have first := t.outcome_writeProperty styles p
    rw [writeProperties]
    generalize t.writeProperty styles p = written at first
    obtain ⟨kept, left, u⟩ := written
    have stored' : u.Stored := first.overwrites.stored stored
    have inside' : ∀ q ∈ properties, q.index < u.size := fun q hq =>
      Nat.lt_of_lt_of_le (inside q (List.mem_cons_of_mem p hq)) first.overwrites.size
    have rest : Overwrites properties left u _ := overwrites_writeProperties u left properties stored'
    have perm := ih u left stored' inside' (first.distinct distinct)
    calc (kept.toList ++ _).filterMap _ ++ _
      _ = kept.toList.filterMap _ ++ (List.filterMap _ _ ++ _) := by rw [List.filterMap_append, List.append_assoc]
      List.Perm _ (kept.toList.filterMap _ ++ left) := perm.append_left _
      List.Perm _ styles := first.perm (inside p List.mem_cons_self) stored distinct rest

theorem declares_allocDeclarations (t : Tree) (styles : StyleMap) :
    Overwrites [] [] t (t.allocDeclarations styles).2 ∧ (∀ q ∈ (t.allocDeclarations styles).1, t.size ≤ q.index) ∧
      List.Forall₂ (fun q entry => (t.allocDeclarations styles).2.DeclaresAs q entry.1 entry.2)
        (t.allocDeclarations styles).1 styles := by
  induction styles generalizing t with
  | nil => exact ⟨.refl _ _ _, fun _ hq => absurd hq List.not_mem_nil, .nil⟩
  | cons entry styles ih =>
    obtain ⟨first, fresh, declares⟩ := overwrites_allocDeclaration [] [] t entry.1 entry.2
    obtain ⟨rest, fresh', others⟩ := ih (t.allocDeclaration entry.1 entry.2).2
    refine ⟨⟨Nat.le_trans first.size rest.size, fun ht => rest.stored (first.stored ht), fun id hid => .inl ?_⟩,
      fun q hq => ?_, .cons (rest.declaresAs declares rfl) others⟩
    · have kept {u v : Tree} (h : Overwrites [] [] u v) (hid : id.index < u.size) : v.get? id = u.get? id :=
        (h.node id hid).resolve_right fun ⟨hmem, _⟩ => absurd hmem List.not_mem_nil
      exact (kept rest (Nat.lt_of_lt_of_le hid first.size)).trans (kept first hid)
    · obtain rfl | hq := List.mem_cons.1 hq
      · exact fresh
      · exact Nat.le_trans first.size (fresh' q hq)

theorem filterMap_declaration? {added : List NodeId}
    (h : List.Forall₂ (fun q entry => t.DeclaresAs q entry.1 entry.2) added styles) :
    added.filterMap t.declaration? = styles := by
  induction h with
  | nil => rfl
  | cons declares _ ih => rw [List.filterMap_cons_some declares.declaration?, ih]

section

variable {span : Option Span} {element : NodeId}

theorem writeStyle_eq (ensure : t.ensureStyle element = some (object, u))
    (hobject : u.get? object = some ⟨.object properties, span⟩) (styles : StyleMap) :
    t.writeStyle element styles =
      ((u.writeProperties styles properties).2.2.allocDeclarations (u.writeProperties styles properties).2.1).2.setKind
        object (.object ((u.writeProperties styles properties).1 ++
          ((u.writeProperties styles properties).2.2.allocDeclarations (u.writeProperties styles properties).2.1).1)) := by
  have hproperties : u.propertiesOf object = properties := by rw [propertiesOf, kind?_of_get? hobject]
  have hobject' := get?_allocDeclarations_object (get?_writeProperties_object hobject styles properties)
    (u.writeProperties styles properties).2.1
  simp only [writeStyle, ensure, hproperties, isObject, kind?_of_get? hobject', if_true]

theorem propertiesOf_setObject (hobject : t.get? object = some ⟨.object properties, span⟩) (others : List NodeId) :
    (t.setKind object (.object others)).propertiesOf object = others := by
  rw [propertiesOf, kind?_of_get? (get?_setKind_of_get? hobject _)]

theorem literal?_setObject (hobject : t.get? object = some ⟨.object properties, span⟩) (others : List NodeId)
    (id : NodeId) : (t.setKind object (.object others)).literal? id = t.literal? id := by
  by_cases same : object = id
  · rw [← same, literal?, literal?, kind?_of_get? hobject, kind?_of_get? (get?_setKind_of_get? hobject _)]
  · rw [literal?, literal?, kind?, kind?, get?_setKind_ne same]

theorem declaration?_setObject (hobject : t.get? object = some ⟨.object properties, span⟩) (others : List NodeId) :
    (t.setKind object (.object others)).declaration? = t.declaration? := by
  funext id
  by_cases same : object = id
  · rw [← same, declaration?, declaration?, kind?_of_get? hobject, kind?_of_get? (get?_setKind_of_get? hobject _)]
  · rw [declaration?, declaration?, kind?, kind?, get?_setKind_ne same, funext (literal?_setObject hobject others)]

end

end Tree

end MarkupEditor
