import MarkupEditor.Proofs.Editing.Areas
import MarkupEditor.Proofs.Editing.Aspects
import MarkupEditor.Proofs.Editing.Generations
import MarkupEditor.Proofs.Editing.LockstepEdits
import MarkupEditor.Proofs.Editing.Removals

set_option autoImplicit false

namespace MarkupEditor

namespace Tree

variable {t t₁ t₂ u₁ u₂ u : Tree} {a b x y : NodeId} {inner inner₁ inner₂ : NodeId → Prop}

theorem Around.stored (stored : t.Stored) (ha : a.index < t.size) (h : t.Around a x) : x.index < t.size := by
  cases h with
  | self => exact ha
  | step _ hx _ =>
    obtain ⟨node, hn, hc⟩ := exists_get?_of_mem_childIds hx
    exact stored hn x hc

theorem shares_around (stored : t.Stored) (ha : a.index < t.size) (size : t.size ≤ u.size)
    (isElement : ∀ x, x.index < t.size → u.isElement x = t.isElement x)
    (same : ∀ x, t.Around a x → u.get? x = t.get? x) : Shares (t.Around a) t u where
  stored _ hx := hx.stored stored ha
  stored' _ hx := Nat.lt_of_lt_of_le (hx.stored stored ha) size
  same := same
  below x hx c hc := by
    obtain ⟨node, hn, hmem⟩ := exists_get?_of_mem_childIds hc
    have hc' := stored hn c hmem
    by_cases inside : t.Around a c
    · exact .inl inside
    · have element : t.isElement c = true := by
        cases element : t.isElement c with
        | true => rfl
        | false => exact absurd (hx.step hc element) inside
      exact .inr ⟨inside, hc', Nat.lt_of_lt_of_le hc' size, element, (isElement c hc').trans element⟩

/-- Where a node is found after the changes in one order and in the other. -/
def Twins (t t₁ t₂ : Tree) (x y : NodeId) : Prop :=
  x.index < t₁.size ∧ y = moved t t₂ x ∨ y.index < t₂.size ∧ x = moved t t₁ y

section

variable (s₁ : Shares inner₁ t t₂) (s₂ : Shares inner₂ t t₁) (h₁ : Lockstep inner₁ t t₂ t₁ u₁)
  (h₂ : Lockstep inner₂ t t₁ t₂ u₂) (stored : t.Stored) (apart : ∀ x, inner₁ x → ¬ inner₂ x)

include s₁ s₂ h₁ h₂ stored apart

theorem Twins.node (h : Twins t t₁ t₂ x y) : ∃ (node : Option Node) (f g : NodeId → NodeId),
    u₂.get? x = node.map (Node.map f) ∧ u₁.get? y = node.map (Node.map g) ∧
      ∀ n ∈ node, ∀ c ∈ n.kind.children, Twins t t₁ t₂ (f c) (g c) := by
  have stored₁ := h₁.stored s₁ stored
  have stored₂ := h₂.stored s₂ stored
  have first (x : NodeId) (hx : x.index < t₁.size) : ∃ (node : Option Node) (f g : NodeId → NodeId),
      u₂.get? x = node.map (Node.map f) ∧ u₁.get? (moved t t₂ x) = node.map (Node.map g) ∧
        ∀ n ∈ node, ∀ c ∈ n.kind.children, Twins t t₁ t₂ (f c) (g c) := by
    by_cases hb : inner₂ x
    · have old := s₂.stored x hb
      refine ⟨t₂.get? x, moved t t₁, id, ?_, ?_, fun n hn c hc => .inr ⟨stored₂ hn c hc, rfl⟩⟩
      · have same := h₂.same x (.inl hb)
        rwa [moved_of_lt old] at same
      · rw [map_node_id, moved_of_lt old]
        exact h₁.frame' x (Nat.lt_of_lt_of_le old h₂.grown) fun ha => apart x ha hb
    · by_cases ha : Writable inner₁ t x
      · refine ⟨t₁.get? x, id, moved t t₂, ?_, h₁.same x ha, fun n hn c hc => .inl ⟨stored₁ hn c hc, rfl⟩⟩
        rw [map_node_id]
        exact h₂.frame' x hx hb
      · obtain ⟨ha, old⟩ := not_or.1 ha
        have old := Nat.lt_of_not_le old
        refine ⟨t.get? x, id, id, ?_, ?_, fun n hn c hc => .inl ⟨?_, ?_⟩⟩
        · rw [map_node_id, h₂.frame' x hx hb, h₁.frame x old ha]
        · rw [map_node_id, moved_of_lt old, h₁.frame' x (Nat.lt_of_lt_of_le old h₂.grown) ha, h₂.frame x old hb]
        · exact Nat.lt_of_lt_of_le (stored hn c hc) h₁.grown
        · exact (moved_of_lt (stored hn c hc)).symm
  rcases h with ⟨hx, rfl⟩ | ⟨hy, rfl⟩
  · exact first x hx
  · by_cases old : y.index < t.size
    · have found := first y (Nat.lt_of_lt_of_le old h₁.grown)
      rw [moved_of_lt old] at found
      rwa [moved_of_lt old]
    · have fresh := Nat.le_of_not_lt old
      refine ⟨t₂.get? y, moved t t₁, id, h₂.same y (.inr fresh), ?_, fun n hn c hc => .inr ⟨stored₂ hn c hc, rfl⟩⟩
      rw [map_node_id]
      exact h₁.frame' y hy fun ha => old (s₁.stored y ha)

theorem alike_twins : Alike (Twins t t₁ t₂) (Twins t t₁ t₂) u₂ u₁ where
  node _ _ h := h.node s₁ s₂ h₁ h₂ stored apart
  near _ _ := .inl

theorem code_eq_of_twins (root : t.root.index < t.size) : u₂.code = u₁.code := by
  have size : u₂.size = u₁.size := by
    have := h₁.size
    have := h₂.size
    omega
  have twins : Twins t t₁ t₂ u₂.root u₁.root := by
    rw [h₂.root', h₁.root', h₁.root, h₂.root]
    exact .inl ⟨Nat.lt_of_lt_of_le root h₁.grown, (moved_of_lt root).symm⟩
  have shape := (alike_twins s₁ s₂ h₁ h₂ stored apart).shapeTo (fun _ _ => id) u₂.depthBound twins
  rw [code, code, printProgram, printProgram, printNode, printNode, Tree.shape, Tree.shape, ← shape, depthBound,
    depthBound, size]

end

end Tree

structure Attempt where
  answer : Except MutationError Unit
  tree : Tree

namespace Mutation

def attempt (m : Mutation) (t : Tree) (node : NodeId) : Attempt :=
  match m.apply t node with
  | .ok u => ⟨.ok (), u⟩
  | .error error => ⟨.error error, t⟩

variable {m : Mutation} {t : Tree} {node : NodeId}

theorem attempt_of_valid (valid : m.validate t node = .ok ()) : m.attempt t node = ⟨.ok (), m.perform t node⟩ := by
  rw [attempt, apply_of_valid valid]

theorem attempt_of_refused {error : MutationError} (refused : m.validate t node = .error error) :
    m.attempt t node = ⟨.error error, t⟩ := by
  rw [attempt, apply_of_refused refused]

theorem attempt_answer (m : Mutation) (t : Tree) (node : NodeId) :
    (m.attempt t node).answer = m.validate t node := by
  cases valid : m.validate t node with
  | ok => rw [attempt_of_valid valid]
  | error => rw [attempt_of_refused valid]

end Mutation

namespace Tagged.Separate

variable {tagged : Tagged} {a b : NodeId} {m n : Mutation}

theorem index_lt (h : tagged.Separate) (ha : a ∈ tagged.mapping.nodes) : a.index < tagged.tree.size := by
  obtain ⟨_, _, _, _, _, hget⟩ := Tree.exists_of_isElement (h.isElement a ha)
  exact Tree.lt_size_of_get? hget

theorem shares (h : tagged.Separate) (ha : a ∈ tagged.mapping.nodes) (hb : b ∈ tagged.mapping.nodes) (apart : a ≠ b)
    (valid : n.validate tagged.tree b = .ok ()) :
    Tree.Shares (tagged.tree.Around a) tagged.tree (n.perform tagged.tree b) := by
  have alone : Tree.Shares (tagged.tree.Around b) tagged.tree tagged.tree :=
    Tree.shares_around h.stored (h.index_lt hb) (Nat.le_refl _) (fun _ _ => rfl) fun _ _ => rfl
  have run := (alone.perform .self n).2
  have rewrites := (Mutation.effect_perform h.stored valid).rewrites
  refine Tree.shares_around h.stored (h.index_lt ha) run.grown (fun x hx => rewrites.isElement hx) fun x hx => ?_
  exact run.frame x (hx.stored h.stored (h.index_lt ha)) fun hbx => apart (h.unique a ha b hb x hx hbx)

theorem answer_attempt (h : tagged.Separate) (ha : a ∈ tagged.mapping.nodes) (hb : b ∈ tagged.mapping.nodes)
    (apart : a ≠ b) (m n : Mutation) :
    (m.attempt (n.attempt tagged.tree b).tree a).answer = (m.attempt tagged.tree a).answer := by
  rw [Mutation.attempt_answer, Mutation.attempt_answer]
  cases valid : n.validate tagged.tree b with
  | error => rw [Mutation.attempt_of_refused valid]
  | ok =>
    rw [Mutation.attempt_of_valid valid]
    exact ((h.shares ha hb apart valid).perform .self m).1

end Tagged.Separate

/-- Requests for two elements of a tagged markup are answered the same in both orders, and the code comes out
the same. -/
theorem edits_commute {source : String} {t : Tree} (parsed : parse source = .ok t) {a b : NodeId}
    (ha : a ∈ t.tag.mapping.nodes) (hb : b ∈ t.tag.mapping.nodes) (apart : a ≠ b) (m n : Mutation) :
    (m.attempt (n.attempt t.tag.tree b).tree a).answer = (m.attempt t.tag.tree a).answer ∧
      (n.attempt (m.attempt t.tag.tree a).tree b).answer = (n.attempt t.tag.tree b).answer ∧
      (n.attempt (m.attempt t.tag.tree a).tree b).tree.code = (m.attempt (n.attempt t.tag.tree b).tree a).tree.code := by
  have separate := (parse_tagging parsed).separate
  have first := separate.answer_attempt ha hb apart m n
  have second := separate.answer_attempt hb ha apart.symm n m
  refine ⟨first, second, ?_⟩
  rw [Mutation.attempt_answer, Mutation.attempt_answer] at first second
  cases hm : m.validate t.tag.tree a with
  | error =>
    rw [hm] at first
    rw [Mutation.attempt_of_refused hm, Mutation.attempt_of_refused first]
  | ok =>
    cases hn : n.validate t.tag.tree b with
    | error =>
      rw [hn] at second
      rw [Mutation.attempt_of_refused hn, Mutation.attempt_of_refused second]
    | ok =>
      rw [hm] at first
      rw [hn] at second
      rw [Mutation.attempt_of_valid first, Mutation.attempt_of_valid second, Mutation.attempt_of_valid hm,
        Mutation.attempt_of_valid hn]
      have sharesA := separate.shares ha hb apart hn
      have sharesB := separate.shares hb ha apart.symm hm
      exact Tree.code_eq_of_twins sharesA sharesB (sharesA.perform .self m).2 (sharesB.perform .self n).2
        separate.stored (fun x hax hbx => apart (separate.unique a ha b hb x hax hbx)) separate.root

/-- An attribute is set on an element that another one stands in, and a style on the other. -/
theorem edits_commute_nested : ∃ (t : Tree) (a b : NodeId), parse "<a b=<i/> />" = .ok t ∧
    t.tag.mapping.nodes = [a, b] ∧ a ≠ b ∧
    ((Mutation.setStyle "color" (some "red")).attempt
        ((Mutation.setAttribute "b" (.string "x")).attempt t.tag.tree a).tree b).tree.code =
      ((Mutation.setAttribute "b" (.string "x")).attempt
        ((Mutation.setStyle "color" (some "red")).attempt t.tag.tree b).tree a).tree.code := by
  have told : (parse "<a b=<i/> />").toOption.any (fun t =>
      t.tag.mapping.nodes.length == 2 && decide t.tag.mapping.nodes.Nodup) = true := by decide +kernel
  obtain ⟨t, parsed, told⟩ := exists_parse told
  obtain ⟨two, distinct⟩ := Bool.and_eq_true_iff.1 told
  obtain ⟨a, b, nodes⟩ := List.length_eq_two.1 (beq_iff_eq.1 two)
  have distinct := of_decide_eq_true distinct
  have apart : a ≠ b := by
    rw [nodes] at distinct
    simpa using distinct
  refine ⟨t, a, b, parsed, nodes, apart, (edits_commute parsed ?_ ?_ apart _ _).2.2⟩
  · rw [nodes]
    exact List.mem_cons_self
  · rw [nodes]
    exact List.mem_cons_of_mem _ List.mem_cons_self

end MarkupEditor
