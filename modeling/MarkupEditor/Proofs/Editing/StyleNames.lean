import MarkupEditor.Proofs.Editing.Histories
import MarkupEditor.Proofs.Editing.StyleKeeping

set_option autoImplicit false

namespace MarkupEditor

namespace StyleMap

variable {styles others : StyleMap}

theorem get?_cons (entry : String × String) (styles : StyleMap) (name : String) :
    StyleMap.get? (entry :: styles) name = if entry.1 = name then some entry.2 else styles.get? name := by
  rw [get?, List.find?_cons]
  by_cases same : entry.1 = name <;> simp [same, get?]

theorem Distinct.of_perm (h : others.Distinct) (same : styles.Perm others) : styles.Distinct :=
  (same.map Prod.fst).nodup_iff.2 h

end StyleMap

namespace Tree

variable {t u v : Tree} {element object p q : NodeId} {properties others : List NodeId} {styles left : StyleMap}
  {name value : String}

def named (t : Tree) (name : String) (properties : List NodeId) : List NodeId :=
  properties.filter fun p => t.propertyName? p = some name

def unread (t : Tree) (properties : List NodeId) : List NodeId :=
  properties.filter fun p => t.declaration? p = none

theorem named_append (t : Tree) (name : String) (properties others : List NodeId) :
    t.named name (properties ++ others) = t.named name properties ++ t.named name others :=
  List.filter_append ..

theorem named_congr (h : ∀ p ∈ properties, u.propertyName? p = t.propertyName? p) :
    u.named name properties = t.named name properties :=
  List.filter_congr fun p hp => by rw [h p hp]

theorem named_singleton (h : t.propertyName? p = some name) : t.named name [p] = [p] :=
  List.filter_cons_of_pos (by simpa using h)

theorem named_other {other : String} (h : t.propertyName? p = some other) (apart : other ≠ name) :
    t.named name [p] = [] :=
  List.filter_cons_of_neg (by simpa [h] using apart)

theorem unread_congr (h : ∀ p ∈ properties, u.declaration? p = none ↔ t.declaration? p = none) :
    u.unread properties = t.unread properties :=
  List.filter_congr fun p hp => by simp only [h p hp]

theorem Overwrites.declaration?_eq_none (h : Overwrites properties styles t u) (stored : t.Stored)
    (hp : p.index < t.size) : u.declaration? p = none ↔ t.declaration? p = none := by
  obtain same | ⟨-, updated⟩ := h.node p hp
  · rw [h.declaration?_of_same stored same]
  · obtain ⟨name, current, declared⟩ := updated.exists_declaration?
    obtain ⟨value, -, -, declared'⟩ := updated.declaration? declared
    rw [declared, declared']
    exact ⟨nofun, nofun⟩

theorem unread_append (t : Tree) (properties others : List NodeId) :
    t.unread (properties ++ others) = t.unread properties ++ t.unread others :=
  List.filter_append ..

section

variable (h : Overwrites others styles t u) (inside : ∀ p ∈ properties, p.index < t.size)

include h inside

theorem Overwrites.named : u.named name properties = t.named name properties :=
  named_congr fun p hp => h.propertyName? (inside p hp)

theorem Overwrites.unread (stored : t.Stored) : u.unread properties = t.unread properties :=
  unread_congr fun p hp => h.declaration?_eq_none stored (inside p hp)

end

theorem DeclaresAs.propertyName? (h : t.DeclaresAs p name value) : t.propertyName? p = some name :=
  propertyName?_of_declaration? h.declaration?

section

variable {kept : Option NodeId} (h : t.Outcome styles p kept left u) (hp : p.index < t.size)
  (overwrites : Overwrites properties left u v)

include h hp overwrites

theorem Outcome.named_of_missing (missing : styles.get? name = none) :
    left.get? name = none ∧ v.named name kept.toList = t.unread (t.named name [p]) := by
  have same : v.propertyName? p = t.propertyName? p :=
    (overwrites.propertyName? (Nat.lt_of_lt_of_le hp h.overwrites.size)).trans (h.overwrites.propertyName? hp)
  have apart {other value : String} {q : NodeId} (found : styles.get? other = some value)
      (before : t.propertyName? p = some other) (after : v.propertyName? q = some other) :
      (styles.erase other).get? name = none ∧ v.named name [q] = t.unread (t.named name [p]) := by
    have ne : other ≠ name := by
      rintro rfl
      rw [missing] at found
      cases found
    rw [StyleMap.get?_erase_ne (Ne.symm ne), named_other before ne, named_other after ne]
    exact ⟨missing, rfl⟩
  cases h with
  | stays unknown =>
    refine ⟨missing, ?_⟩
    rw [Option.toList_some, named_congr (t := t) fun q hq => List.mem_singleton.1 hq ▸ same]
    refine (List.filter_eq_self.2 fun q hq => ?_).symm
    obtain rfl := List.mem_singleton.1 (List.mem_of_mem_filter hq)
    simpa using unknown
  | equal declared found =>
    have named := propertyName?_of_declaration? declared
    exact apart found named (same.trans named)
  | dropped declared =>
    refine ⟨missing, (List.filter_eq_nil_iff.2 fun q hq => ?_).symm⟩
    obtain rfl := List.mem_singleton.1 (List.mem_of_mem_filter hq)
    simp [declared]
  | updated declared updated =>
    obtain ⟨value, found, -⟩ := updated.declaration? declared
    have named := propertyName?_of_declaration? declared
    exact apart found named (same.trans named)
  | replaced _ named found _ declares =>
    exact apart found named (overwrites.declaresAs declares (StyleMap.get?_erase_self _ _)).propertyName?

theorem Outcome.named_of_found (stored : t.Stored) (found : styles.get? name = some value) :
    (t.named name [p] = [] ∧ v.named name kept.toList = [] ∧ left.get? name = some value) ∨
      ∃ d, t.named name [p] = [p] ∧ v.named name kept.toList = [d] ∧ v.declaration? d = some (name, value) ∧
        left.get? name = none := by
  have stored' := h.overwrites.stored stored
  have same : v.propertyName? p = t.propertyName? p :=
    (overwrites.propertyName? (Nat.lt_of_lt_of_le hp h.overwrites.size)).trans (h.overwrites.propertyName? hp)
  have written {other current : String} {q : NodeId} (found' : styles.get? other = some current)
      (before : t.propertyName? p = some other) (after : v.declaration? q = some (other, current)) :
      (t.named name [p] = [] ∧ v.named name [q] = [] ∧ (styles.erase other).get? name = some value) ∨
        ∃ d, t.named name [p] = [p] ∧ v.named name [q] = [d] ∧ v.declaration? d = some (name, value) ∧
          (styles.erase other).get? name = none := by
    by_cases eq : other = name
    · subst eq
      obtain rfl := Option.some.inj (found.symm.trans found')
      exact .inr ⟨q, named_singleton before, named_singleton (propertyName?_of_declaration? after), after,
        StyleMap.get?_erase_self _ _⟩
    · exact .inl ⟨named_other before eq, named_other (propertyName?_of_declaration? after) eq,
        (StyleMap.get?_erase_ne (Ne.symm eq)).trans found⟩
  cases h with
  | stays _ unnamed =>
    have apart : t.propertyName? p ≠ some name := fun named => by
      rw [unnamed name named] at found
      cases found
    exact .inl ⟨List.filter_cons_of_neg (by simpa using apart), List.filter_cons_of_neg (by simpa [same] using apart),
      found⟩
  | equal declared found' =>
    exact written found' (propertyName?_of_declaration? declared)
      (overwrites.declaration?_of_missing stored declared (StyleMap.get?_erase_self _ _))
  | dropped declared missing =>
    refine .inl ⟨named_other (propertyName?_of_declaration? declared) ?_, rfl, found⟩
    rintro rfl
    rw [missing] at found
    cases found
  | updated declared updated =>
    obtain ⟨current, found', -, declared'⟩ := updated.declaration? declared
    exact written found' (propertyName?_of_declaration? declared)
      (overwrites.declaration?_of_missing stored' declared' (StyleMap.get?_erase_self _ _))
  | replaced _ named found' _ declares =>
    exact written found' named (overwrites.declaresAs declares (StyleMap.get?_erase_self _ _)).declaration?

end

theorem named_writeProperties_of_missing (t : Tree) (properties : List NodeId) (stored : t.Stored)
    (inside : ∀ p ∈ properties, p.index < t.size) (missing : styles.get? name = none) :
    (t.writeProperties styles properties).2.1.get? name = none ∧
      (t.writeProperties styles properties).2.2.named name (t.writeProperties styles properties).1 =
        t.unread (t.named name properties) := by
  induction properties generalizing t styles with
  | nil => exact ⟨missing, rfl⟩
  | cons p properties ih =>
    have first := t.outcome_writeProperty styles p
    rw [writeProperties]
    generalize t.writeProperty styles p = written at first
    obtain ⟨kept, left, u⟩ := written
    change t.Outcome styles p kept left u at first
    have before : ∀ q ∈ properties, q.index < t.size := fun q hq => inside q (List.mem_cons_of_mem p hq)
    have stored' : u.Stored := first.overwrites.stored stored
    have inside' : ∀ q ∈ properties, q.index < u.size := fun q hq => Nat.lt_of_lt_of_le (before q hq) first.overwrites.size
    have same : u.unread (t.named name properties) = t.unread (t.named name properties) :=
      first.overwrites.unread (fun q hq => before q (List.mem_of_mem_filter hq)) stored
    obtain ⟨missing', here⟩ := first.named_of_missing (inside p List.mem_cons_self)
      (overwrites_writeProperties u left properties stored') missing
    obtain ⟨missing'', others⟩ := ih u stored' inside' missing'
    refine ⟨missing'', ?_⟩
    calc Tree.named _ name (kept.toList ++ (u.writeProperties left properties).1)
      _ = Tree.named _ name kept.toList ++ Tree.named _ name (u.writeProperties left properties).1 := named_append ..
      _ = t.unread (t.named name [p]) ++ u.unread (u.named name properties) := by rw [here, others]
      _ = t.unread (t.named name [p]) ++ t.unread (t.named name properties) := by
        rw [first.overwrites.named before, same]
      _ = t.unread (t.named name [p] ++ t.named name properties) := (unread_append ..).symm
      _ = t.unread (t.named name (p :: properties)) := by rw [← named_append, List.singleton_append]

/-- The first of the properties of a name that the map has makes way for its declaration, and of those after it
there remains what is not understood. Without such a property the name is left to write. -/
theorem named_writeProperties_of_found (t : Tree) (properties : List NodeId) (stored : t.Stored)
    (inside : ∀ p ∈ properties, p.index < t.size) (found : styles.get? name = some value) :
    (t.named name properties = [] ∧
      (t.writeProperties styles properties).2.2.named name (t.writeProperties styles properties).1 = [] ∧
        (t.writeProperties styles properties).2.1.get? name = some value) ∨
      ∃ d, (t.writeProperties styles properties).2.2.named name (t.writeProperties styles properties).1 =
          d :: t.unread (t.named name properties).tail ∧
        (t.writeProperties styles properties).2.2.declaration? d = some (name, value) ∧
          (t.writeProperties styles properties).2.1.get? name = none := by
  induction properties generalizing t styles with
  | nil => exact .inl ⟨rfl, rfl, found⟩
  | cons p properties ih =>
    have first := t.outcome_writeProperty styles p
    rw [writeProperties]
    generalize t.writeProperty styles p = written at first
    obtain ⟨kept, left, u⟩ := written
    change t.Outcome styles p kept left u at first
    have before : ∀ q ∈ properties, q.index < t.size := fun q hq => inside q (List.mem_cons_of_mem p hq)
    have stored' : u.Stored := first.overwrites.stored stored
    have inside' : ∀ q ∈ properties, q.index < u.size := fun q hq => Nat.lt_of_lt_of_le (before q hq) first.overwrites.size
    have split : t.named name (p :: properties) = t.named name [p] ++ t.named name properties :=
      named_append t name [p] properties
    change (_ ∧ Tree.named _ name (kept.toList ++ (u.writeProperties left properties).1) = _ ∧ _) ∨
      ∃ d, Tree.named _ name (kept.toList ++ (u.writeProperties left properties).1) = _ ∧ _
    rw [split, named_append]
    obtain ⟨none, nothing, found'⟩ | ⟨d, one, here, declared, missing⟩ :=
      first.named_of_found (inside p List.mem_cons_self) (overwrites_writeProperties u left properties stored') stored found
    · have tail : u.unread (t.named name properties).tail = t.unread (t.named name properties).tail :=
        first.overwrites.unread (fun q hq => before q (List.mem_of_mem_filter (List.mem_of_mem_tail hq))) stored
      rw [none, nothing, List.nil_append, List.nil_append, ← tail, ← first.overwrites.named before]
      exact ih u stored' inside' found'
    · obtain ⟨missing', others⟩ := named_writeProperties_of_missing u properties stored' inside' missing
      refine .inr ⟨d, ?_, declared, missing'⟩
      have same : u.unread (t.named name properties) = t.unread (t.named name properties) :=
        first.overwrites.unread (fun q hq => before q (List.mem_of_mem_filter hq)) stored
      rw [here, one, others, first.overwrites.named before, same]
      rfl

section

variable {added : List NodeId} (declares : List.Forall₂ (fun q entry => t.DeclaresAs q entry.1 entry.2) added styles)

include declares

theorem named_added_of_missing (missing : styles.get? name = none) : t.named name added = [] := by
  refine List.filter_eq_nil_iff.2 fun q hq => ?_
  obtain ⟨i, hi, rfl⟩ := List.getElem_of_mem hq
  have hi' : i < styles.length := declares.length_eq ▸ hi
  have other : t.propertyName? added[i] = some styles[i].1 := (declares.get hi hi').propertyName?
  have apart : styles[i].1 ≠ name := by
    rintro rfl
    exact StyleMap.get?_eq_none.1 missing (List.mem_map_of_mem (List.getElem_mem hi'))
  simpa [other] using apart

theorem named_added_of_found (distinct : styles.Distinct) (found : styles.get? name = some value) :
    ∃ d, t.named name added = [d] ∧ t.declaration? d = some (name, value) := by
  induction declares with
  | nil => cases found
  | @cons q entry added styles first rest ih =>
    obtain ⟨apart, distinct'⟩ := List.nodup_cons.1 distinct
    have split : t.named name (q :: added) = t.named name [q] ++ t.named name added := named_append t name [q] added
    rw [split]
    rw [StyleMap.get?_cons] at found
    by_cases eq : entry.1 = name
    · have hvalue : entry.2 = value := by
        rw [if_pos eq] at found
        exact Option.some.inj found
      have none := named_added_of_missing rest (StyleMap.get?_eq_none.2 (eq ▸ apart))
      refine ⟨q, ?_, eq ▸ hvalue ▸ first.declaration?⟩
      rw [none, List.append_nil]
      exact named_singleton (eq ▸ first.propertyName?)
    · rw [named_other first.propertyName? eq, List.nil_append]
      rw [if_neg eq] at found
      exact ih distinct' found

end

theorem propertyName?_setObject {span : Option Span} (hobject : t.get? object = some ⟨.object properties, span⟩)
    (others : List NodeId) : (t.setKind object (.object others)).propertyName? = t.propertyName? := by
  funext id
  by_cases same : object = id
  · rw [← same, propertyName?, propertyName?, kind?_of_get? hobject, kind?_of_get? (get?_setKind_of_get? hobject _)]
  · rw [propertyName?, propertyName?, kind?, kind?, get?_setKind_ne same]

/-- What names name when a map was written over properties. -/
structure Names (t u : Tree) (properties others : List NodeId) (styles : StyleMap) : Prop where
  missing : ∀ name, styles.get? name = none → u.named name others = t.unread (t.named name properties)
  found : ∀ name value, styles.get? name = some value →
    ∃ d, u.named name others = d :: t.unread (t.named name properties).tail ∧ u.declaration? d = some (name, value)
  understood : ∀ p ∈ properties, u.declaration? p = none ↔ t.declaration? p = none

theorem names_writeStyle {span : Option Span} (stored : u.Stored) (ensure : t.ensureStyle element = some (object, u))
    (hobject : u.get? object = some ⟨.object properties, span⟩) (distinct : styles.Distinct) :
    u.Names (t.writeStyle element styles) properties ((t.writeStyle element styles).propertiesOf object) styles := by
  have inside : ∀ p ∈ properties, p.index < u.size := stored hobject
  let v := (u.writeProperties styles properties).2.2
  let left := (u.writeProperties styles properties).2.1
  let kept := (u.writeProperties styles properties).1
  let w := (v.allocDeclarations left).2
  let added := (v.allocDeclarations left).1
  have written : Overwrites properties styles u v := overwrites_writeProperties u styles properties stored
  obtain ⟨allocated, -, declares⟩ := declares_allocDeclarations v left
  have stored' : v.Stored := written.stored stored
  have hobject' : w.get? object = some ⟨.object properties, span⟩ :=
    get?_allocDeclarations_object (get?_writeProperties_object hobject styles properties) left
  have old : ∀ q ∈ kept, q.index < v.size := fun _ => lt_size_of_mem_writeProperties stored inside
  have distinct' : StyleMap.Distinct left := by
    have both : ((_ ++ left).map Prod.fst).Nodup :=
      distinct.of_perm (perm_writeProperties u styles properties stored inside distinct)
    rw [List.map_append] at both
    exact both.of_append_right
  rw [writeStyle_eq ensure hobject, propertiesOf_setObject hobject']
  refine ⟨fun name missing => ?_, fun name value found => ?_, fun p hp => ?_⟩
  · obtain ⟨missing', here⟩ := named_writeProperties_of_missing u properties stored inside missing
    rw [named, propertyName?_setObject hobject']
    change w.named name (kept ++ added) = _
    rw [named_append, named_added_of_missing declares missing', List.append_nil, allocated.named old]
    exact here
  · rw [named, propertyName?_setObject hobject', declaration?_setObject hobject']
    change ∃ d, w.named name (kept ++ added) = _ ∧ w.declaration? d = _
    rw [named_append, allocated.named old]
    obtain ⟨none, nothing, found'⟩ | ⟨d, here, declared, missing⟩ :=
      named_writeProperties_of_found u properties stored inside found
    · obtain ⟨d, one, declared⟩ := named_added_of_found declares distinct' found'
      refine ⟨d, ?_, declared⟩
      rw [one, none]
      exact congrArg (· ++ [d]) nothing
    · rw [named_added_of_missing declares missing, List.append_nil]
      refine ⟨d, here, ?_⟩
      have hd : d ∈ kept := List.mem_of_mem_filter (here ▸ List.mem_cons_self)
      rw [allocated.declaration?_of_same stored' ((allocated.node d (old d hd)).resolve_right
        fun ⟨hmem, _⟩ => absurd hmem List.not_mem_nil)]
      exact declared
  · rw [declaration?_setObject hobject']
    have low : p.index < v.size := Nat.lt_of_lt_of_le (inside p hp) written.size
    exact (allocated.declaration?_eq_none stored' low).trans (written.declaration?_eq_none stored (inside p hp))

/-- Each name of a map that is written names a declaration with its value, in the place of the first property of
the name, and behind it those properties of the name that were not understood and came after the first. It names
the declaration alone just if there was none of these. -/
theorem styles_named {source : String} (obtained : Obtained source t) (found : t.styleObject? element = some object)
    (distinct : styles.Distinct) (named : styles.get? name = some value) :
    (t.writeStyle element styles).styleObject? element = some object ∧
      ∃ d, (t.writeStyle element styles).declaration? d = some (name, value) ∧
        (t.writeStyle element styles).named name ((t.writeStyle element styles).propertiesOf object) =
          d :: t.unread (t.named name (t.propertiesOf object)).tail ∧
        ((t.writeStyle element styles).named name ((t.writeStyle element styles).propertiesOf object) = [d] ↔
          ∀ p ∈ (t.named name (t.propertiesOf object)).tail, t.declaration? p ≠ none) := by
  have stored := obtained.sound.stored
  have ensure := ensureStyle_of_styleObject? found
  obtain ⟨properties, span, hobject⟩ := exists_of_styleObject? found
  have hproperties : t.propertiesOf object = properties := by rw [propertiesOf, kind?_of_get? hobject]
  obtain ⟨d, names, declared⟩ := (names_writeStyle stored ensure hobject distinct).found name value named
  refine ⟨styleObject?_writeStyle stored ensure found styles, d, declared, hproperties ▸ names, ?_⟩
  rw [names, hproperties, List.cons_eq_cons, and_iff_right rfl, unread, List.filter_eq_nil_iff]
  exact forall₂_congr fun p _ => not_congr decide_eq_true_iff

/-- The name stands three times, once without a value. -/
theorem styles_named_shorthand : ∃ (t : Tree) (element object d : NodeId),
    parse "<p style=\x7b\x7b margin: m, 'color': 'red', ...base, color: 'blue', color \x7d\x7d />" = .ok t ∧
      t.styleObject? element = some object ∧ StyleMap.Distinct [("margin", "0"), ("color", "green")] ∧
      (t.writeStyle element [("margin", "0"), ("color", "green")]).declaration? d = some ("color", "green") ∧
      (t.writeStyle element [("margin", "0"), ("color", "green")]).named "color"
          ((t.writeStyle element [("margin", "0"), ("color", "green")]).propertiesOf object) =
        d :: t.unread (t.named "color" (t.propertiesOf object)).tail := by
  have told : (parse "<p style=\x7b\x7b margin: m, 'color': 'red', ...base, color: 'blue', color \x7d\x7d />").toOption.any
      (fun t => t.elements.any fun e => (t.styleObject? e).isSome) = true := by decide +kernel
  obtain ⟨t, parsed, told⟩ := exists_parse told
  obtain ⟨element, -, styled⟩ := List.any_eq_true.1 told
  obtain ⟨object, found⟩ := Option.isSome_iff_exists.1 styled
  have distinct : StyleMap.Distinct [("margin", "0"), ("color", "green")] := by
    unfold StyleMap.Distinct
    decide
  have named : StyleMap.get? [("margin", "0"), ("color", "green")] "color" = some "green" := by decide
  obtain ⟨-, d, declared, names, -⟩ := styles_named (.parsed parsed) found distinct named
  exact ⟨t, element, object, d, parsed, found, distinct, declared, names⟩

/-- A property that is not understood stays behind the declaration of its name. -/
theorem styles_named_twice : ∃ (t : Tree) (element object first second : NodeId),
    parse "<div style=\x7b\x7b color: 'red', color: theme \x7d\x7d />" = .ok t ∧
      t.styleObject? element = some object ∧ t.propertiesOf object = [first, second] ∧
      t.declaration? second = none ∧
      (t.writeStyle element [("color", "blue")]).named "color"
        ((t.writeStyle element [("color", "blue")]).propertiesOf object) = [first, second] := by
  have told : (parse "<div style=\x7b\x7b color: 'red', color: theme \x7d\x7d />").toOption.any
      (fun t => t.elements.any fun e => (t.styleObject? e).any fun o =>
        (t.propertiesOf o)[0]?.any fun p => (t.propertiesOf o)[1]?.any fun q =>
          decide (t.propertiesOf o = [p, q] ∧ t.declaration? q = none ∧
            (t.writeStyle e [("color", "blue")]).named "color"
              ((t.writeStyle e [("color", "blue")]).propertiesOf o) = [p, q])) = true := by
    decide +kernel
  obtain ⟨t, parsed, told⟩ := exists_parse told
  obtain ⟨element, -, styled⟩ := List.any_eq_true.1 told
  obtain ⟨object, found, told⟩ := (Option.any_eq_true _ _).1 styled
  obtain ⟨first, -, told⟩ := (Option.any_eq_true _ _).1 told
  obtain ⟨second, -, told⟩ := (Option.any_eq_true _ _).1 told
  obtain ⟨both, unknown, names⟩ := of_decide_eq_true told
  exact ⟨t, element, object, first, second, parsed, found, both, unknown, names⟩

end Tree

end MarkupEditor
