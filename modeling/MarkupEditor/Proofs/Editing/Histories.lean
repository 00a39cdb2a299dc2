import MarkupEditor.Proofs.Editing.LockstepEdits
import MarkupEditor.Proofs.Editing.Liveness

set_option autoImplicit false

namespace MarkupEditor

variable {t u : Tree} {node : NodeId} {m : Mutation} {source : String}

theorem Mutation.valid_of_apply (applied : m.apply t node = .ok u) :
    m.validate t node = .ok () ∧ u = m.perform t node := by
  rw [Mutation.apply] at applied
  cases valid : m.validate t node with
  | error e =>
    rw [valid] at applied
    cases applied
  | ok =>
    rw [valid] at applied
    exact ⟨rfl, (Except.ok.inj applied).symm⟩

theorem Mutation.ok_of_toOption {v : Tree} (h : (m.apply t node).toOption = some v) : m.apply t node = .ok v := by
  cases applied : m.apply t node with
  | error e =>
    rw [applied] at h
    cases h
  | ok w =>
    rw [applied] at h
    exact congrArg Except.ok (Option.some.inj h)

theorem Mutation.lt_size_of_valid (valid : m.validate t node = .ok ()) : node.index < t.size := by
  refine Tree.get?_isSome_iff.1 ?_
  unfold validate at valid
  split at valid
  · cases valid
  · rename_i there
    exact Option.ne_none_iff_exists'.1 (by simpa using there)

theorem Mutation.validate_setText {text : String} :
    (Mutation.setText text).validate t node = .ok () ↔ t.canEditText node = true := by
  unfold validate
  cases hn : t.get? node with
  | none => simp [Tree.canEditText, Tree.kind?, hn]
  | some found => cases editable : t.canEditText node <;> simp

theorem Mutation.validate_setStyle {property : String} {value : Option String} :
    (Mutation.setStyle property value).validate t node = .ok () ↔ t.isElement node = true := by
  unfold validate
  cases hn : t.get? node with
  | none => simp [Tree.isElement, Tree.kind?, hn]
  | some found => cases element : t.isElement node <;> simp

theorem Mutation.validate_setAttribute {name : String} {value : Literal} :
    (Mutation.setAttribute name value).validate t node = .ok () ↔ t.isElement node = true :=
  @Mutation.validate_setStyle t node "" none

namespace Tree

/-- The trees that mutations lead to from the tree of a markup. -/
inductive Obtained (source : String) : Tree → Prop where
  | parsed {t : Tree} (parsed : parse source = .ok t) : Obtained source t
  | edited {t u : Tree} {m : Mutation} {node : NodeId} (h : Obtained source t) (applied : m.apply t node = .ok u) :
    Obtained source u

/-- What is true of the tree of a markup and is kept by every mutation. -/
structure Sound (t : Tree) : Prop where
  stored : t.Stored
  root : t.root.index < t.size
  grounded : t.Grounded t.root

theorem Sound.perform (h : t.Sound) (valid : m.validate t node = .ok ()) : (m.perform t node).Sound := by
  have effect := Mutation.effect_perform h.stored valid
  refine ⟨h.stored.perform (Mutation.lt_size_of_valid valid) m, ?_, ?_⟩
  · rw [effect.rewrites.root]
    exact Nat.lt_of_lt_of_le h.root effect.rewrites.size
  · rw [effect.rewrites.root]
    exact effect.rewrites.grounded h.stored h.root h.grounded

theorem Obtained.sound (h : Obtained source t) : t.Sound := by
  induction h with
  | parsed parsed =>
    obtain ⟨descending, root, -⟩ := parseWith_reads parsed
    exact ⟨descending.stored, root, descending.grounded _⟩
  | edited _ applied ih =>
    obtain ⟨valid, rfl⟩ := Mutation.valid_of_apply applied
    exact ih.perform valid

end Tree

end MarkupEditor
