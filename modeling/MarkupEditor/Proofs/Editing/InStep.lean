import MarkupEditor.Proofs.Editing.Acyclic
import MarkupEditor.Proofs.Printer.Openings

set_option autoImplicit false

namespace MarkupEditor

/-- What a walk hands out until it comes to an end. -/
inductive PreOrder.Yields : PreOrder → List NodeId → Prop where
  | done {w : PreOrder} (ends : w.next? = none) : Yields w []
  | next {w w' : PreOrder} {id : NodeId} {ids : List NodeId} (next : w.next? = some (id, w')) (more : Yields w' ids) :
    Yields w (id :: ids)

theorem PreOrder.next?_push (t : Tree) (stack : Array NodeId) (id : NodeId) :
    PreOrder.next? ⟨t, stack.push id⟩ = some (id, ⟨t, stack ++ (t.childIds id).reverse⟩) := by
  simp [PreOrder.next?]

namespace Tree

variable {t u : Tree} {id : NodeId} {ids : List NodeId} {stack : Array NodeId}

/-- Nodes that are put on a stack from the last to the first are walked through from the first to the last. -/
theorem yields_reverse {children : List NodeId} (rest : PreOrder.Yields ⟨t, stack⟩ ids)
    (h : ∀ c ∈ children, ∀ stack ids, PreOrder.Yields ⟨t, stack⟩ ids →
      PreOrder.Yields ⟨t, stack.push c⟩ (t.preorder c ++ ids)) :
    PreOrder.Yields ⟨t, stack ++ children.reverse⟩ (children.flatMap t.preorder ++ ids) := by
  induction children with
  | nil => simpa using rest
  | cons c children ih =>
    have others := ih fun d hd => h d (List.mem_cons_of_mem c hd)
    have first := h c List.mem_cons_self _ _ others
    have top : stack ++ (c :: children).reverse = (stack ++ children.reverse).push c := by
      rw [← Array.toList_inj]
      simp
    rw [top, List.flatMap_cons, List.append_assoc]
    exact first

theorem Grounded.yields (h : t.Grounded id) (rest : PreOrder.Yields ⟨t, stack⟩ ids) :
    PreOrder.Yields ⟨t, stack.push id⟩ (t.preorder id ++ ids) := by
  induction h generalizing stack ids with
  | intro id below ih =>
    have grounded : t.Grounded id := ⟨id, below⟩
    rw [grounded.preorder_eq, List.cons_append]
    exact .next (PreOrder.next?_push t stack id) (yields_reverse rest fun c hc _ _ => ih c hc)

theorem Grounded.yields_walk (h : t.Grounded id) : (t.walk id).Yields (t.preorder id) := by
  have walked : PreOrder.Yields ⟨t, #[].push id⟩ (t.preorder id ++ []) := h.yields (.done rfl)
  rw [List.append_nil] at walked
  exact walked

/-- The walk from a node, the recursive reading and the printer go through what is below it in the same order. -/
structure InStep (t : Tree) (id : NodeId) : Prop where
  yields : (t.walk id).Yields (t.descendants id)
  preorder : t.descendants id = t.preorder id
  recursion : t.preorder id = id :: (t.childIds id).flatMap t.preorder
  written : (t.strokes id).flatMap Stroke.written = t.printNode id
  begins : Stroke.Begins t.printNode (t.strokes id)
  named : ∀ element name, .opening element name ∈ t.strokes id → t.elementName? element = some name
  opened : (t.strokes id).filterMap Stroke.opened? = (t.descendants id).filter t.isElement

theorem Founded.inStep (h : t.Founded) (id : NodeId) : t.InStep id := by
  have grounded := h.grounded id
  have preorder := grounded.descendants_eq
  constructor
  · rw [preorder]
    exact grounded.yields_walk
  · exact preorder
  · exact grounded.preorder_eq
  · exact grounded.written_strokes h.keyed .node
  · exact grounded.begins_strokes h.keyed .node
  · intro element name begun
    exact elementName_of_opening h.keyed begun
  · rw [preorder]
    exact grounded.opened_strokes h.keyed .node

inductive Edited (t : Tree) : Tree → Prop where
  | refl : Edited t t
  | edit {u v : Tree} {m : Mutation} {node : NodeId} (h : Edited t u) (applied : m.apply u node = .ok v) : Edited t v

theorem Edited.founded (h : t.Edited u) (founded : t.Founded) : u.Founded := by
  induction h with
  | refl => exact founded
  | edit _ applied ih =>
    obtain ⟨valid, rfl⟩ := Mutation.valid_of_apply applied
    exact ih.perform valid

end Tree

/-- In the tree of a tagged markup and after any mutations the walk from a node comes to an end. It hands out the
nodes of the recursive reading, and the printer begins the tags of the elements among them in its order. -/
theorem walk_in_step {source : String} {tagged : Tagged} {t : Tree} (h : tagMarkup source = .ok tagged)
    (edited : tagged.tree.Edited t) (id : NodeId) : t.InStep id :=
  (edited.founded (tagMarkup_founded h)).inStep id

/-- Elements in the value of an attribute and in the name of a property. A style is spread into a new object, so that
an older node stands below a newer one, and an element that was empty is given a text. -/
theorem walk_in_step_spread : ∃ (tagged : Tagged) (t u : Tree) (e e' : NodeId),
    tagMarkup "<a id=<b/> style=\x7bcss\x7d>\x7b[<i/>, \x7b [<u/>]: 1 \x7d]\x7d</a>" = .ok tagged ∧
      (Mutation.setStyle "color" (some "red")).apply tagged.tree e = .ok t ∧
      (Mutation.setText "new").apply t e' = .ok u ∧
      ((u.descendants e).any fun id => (u.childIds id).any fun c => id.index < c.index) = true ∧
      (u.descendants e).filter u.isElement ≠ [e] ∧ u.InStep e := by
  have told : (parse "<a id=<b/> style=\x7bcss\x7d>\x7b[<i/>, \x7b [<u/>]: 1 \x7d]\x7d</a>").toOption.any
      (fun t => t.elements.any fun e =>
        ((Mutation.setStyle "color" (some "red")).apply t.tag.tree e).toOption.any fun u =>
          t.elements.any fun e' => ((Mutation.setText "new").apply u e').toOption.any fun v =>
            ((v.descendants e).any fun id => (v.childIds id).any fun c => id.index < c.index) &&
              decide ((v.descendants e).filter v.isElement ≠ [e])) = true := by
    decide +kernel
  obtain ⟨t, parsed, told⟩ := exists_parse told
  obtain ⟨e, -, told⟩ := List.any_eq_true.1 told
  obtain ⟨u, first, told⟩ := (Option.any_eq_true _ _).1 told
  obtain ⟨e', -, told⟩ := List.any_eq_true.1 told
  obtain ⟨v, second, told⟩ := (Option.any_eq_true _ _).1 told
  obtain ⟨upward, others⟩ := (Bool.and_eq_true _ _).mp told
  have first := Mutation.ok_of_toOption first
  have second := Mutation.ok_of_toOption second
  have tagged : tagMarkup _ = .ok t.tag := congrArg (Except.map Tree.tag) parsed
  exact ⟨t.tag, u, v, e, e', tagged, first, second, upward, of_decide_eq_true others,
    walk_in_step tagged (.edit (.edit .refl first) second) e⟩

end MarkupEditor
