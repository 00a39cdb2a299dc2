import MarkupEditor.Proofs.Markup.Erasure
import MarkupEditor.Proofs.Markup.Grounded

set_option autoImplicit false

namespace MarkupEditor

/-- The two ways to write a node: by itself, and as the value of an attribute. -/
inductive Way where
  | node
  | value

def Spelling.inWay (s : Spelling) : Way → List Char
  | .node => s.text
  | .value => s.value

/-- A piece of what a node is written as: text of its own, the beginning of its tag, or a child. -/
inductive Segment (ι : Type) where
  | own (text : List Char)
  | tag (name : String)
  | child (way : Way) (node : ι)

def Segment.written {ι : Type} (f : ι → Spelling) : Segment ι → List Char
  | .own text => text
  | .tag name => '<' :: name.toList
  | .child way node => (f node).inWay way

def Segment.collect {ι β : Type} (tag : String → List β) (below : ι → List β) : Segment ι → List β
  | .own _ => []
  | .tag name => tag name
  | .child _ node => below node

def separatedSegments {ι : Type} (separator : List Char) : List ι → List (Segment ι)
  | [] => []
  | [node] => [.child .node node]
  | node :: others => .child .node node :: .own separator :: separatedSegments separator others

def PropertyKey.segments {ι : Type} : PropertyKey ι → List (Segment ι)
  | .identifier name => [.own name.toList]
  | .literal value raw => [.own (value.spelling raw)]
  | .computed expression => [.own ['['], .child .node expression, .own [']']]

def OpaquePart.segment {ι : Type} : OpaquePart ι → Segment ι
  | .source text => .own text.toList
  | .node child => .child .node child

namespace NodeKind

variable {ι β : Type}

def nodeSegments : NodeKind ι → List (Segment ι)
  | .program body => body.flatMap fun statement => [.child .node statement, .own [';', '\n']]
  | .expressionStatement expression => [.child .node expression]
  | .element name attributes children selfClosing =>
    .tag name :: attributes.flatMap (fun item => [.own [' '], .child .node item]) ++
      if children.isEmpty && selfClosing then [.own " />".toList]
      else .own ['>'] :: children.map (.child .node) ++ [.own ("</".toList ++ name.toList ++ ['>'])]
  | .fragment children => .own "<>".toList :: children.map (.child .node) ++ [.own "</>".toList]
  | .text value raw => [.own (NodeKind.text value raw).printed]
  | .expressionContainer expression => .own ['{'] :: expression.toList.map (.child .node) ++ [.own ['}']]
  | .namedAttribute name value =>
    match value with
    | some value => [.own (name.toList ++ ['=']), .child .value value]
    | none => [.own name.toList]
  | .spreadAttribute argument => [.own ['{', '.', '.', '.'], .child .node argument, .own ['}']]
  | .literal value raw => [.own (value.spelling raw)]
  | .identifier name => [.own name.toList]
  | .object properties =>
    if properties.isEmpty then [.own ['{', '}']]
    else .own ['{', ' '] :: separatedSegments [',', ' '] properties ++ [.own [' ', '}']]
  | .property key value shorthand =>
    if shorthand then [.child .node value] else key.segments ++ [.own [':', ' '], .child .node value]
  | .spread argument => [.own ['.', '.', '.'], .child .node argument]
  | .array elements => .own ['['] :: separatedSegments [',', ' '] elements ++ [.own [']']]
  | .parenthesized expression => [.own ['('], .child .node expression, .own [')']]
  | .opaqueText parts => parts.map (·.segment)

def segments (kind : NodeKind ι) : Way → List (Segment ι)
  | .node => kind.nodeSegments
  | .value =>
    match kind with
    | .literal value raw => [.own (value.attributeSpelling raw)]
    | kind => kind.nodeSegments

def tagName? : NodeKind ι → Option String
  | .element name .. => some name
  | _ => none

/-- A property in short form has no expression for its name. -/
def Keyed : NodeKind ι → Prop
  | .property key _ true => key.children = []
  | _ => True

theorem separate_map (separator : List Char) (nodes : List ι) (f : ι → Spelling) :
    separate separator (nodes.map fun node => (f node).text) =
      (separatedSegments separator nodes).flatMap (Segment.written f) := by
  induction nodes with
  | nil => rfl
  | cons node nodes ih =>
    cases nodes with
    | nil => simp [separate, separatedSegments, Segment.written, Spelling.inWay]
    | cons other others =>
      simp only [List.map_cons, separate, separatedSegments, List.flatMap_cons] at ih ⊢
      rw [ih, List.append_assoc]
      rfl

theorem printed_map (kind : NodeKind ι) (f : ι → Spelling) :
    (kind.map f).printed = kind.nodeSegments.flatMap (Segment.written f) := by
  cases kind with
  | element name attributes children selfClosing =>
    simp only [map, printed, nodeSegments, List.isEmpty_map]
    split <;> simp [Segment.written, Spelling.inWay, List.flatMap_map, List.flatMap_assoc]
  | object properties =>
    simp only [map, printed, nodeSegments, List.isEmpty_map]
    have separated := separate_map [',', ' '] properties f
    split <;> simp [Segment.written, Function.comp_def, separated]
  | array elements =>
    have separated := separate_map [',', ' '] elements f
    simp [map, printed, nodeSegments, Segment.written, Function.comp_def, separated]
  | namedAttribute name value => cases value <;> simp [map, printed, nodeSegments, Segment.written, Spelling.inWay]
  | expressionContainer expression =>
    cases expression <;> simp [map, printed, nodeSegments, Segment.written, Spelling.inWay]
  | property key value shorthand =>
    cases shorthand <;> cases key <;>
      simp [map, printed, nodeSegments, PropertyKey.map, PropertyKey.printed, PropertyKey.segments, Segment.written,
        Spelling.inWay]
  | opaqueText parts =>
    simp only [map, printed, nodeSegments, List.flatMap_map]
    refine List.flatMap_congr fun part _ => ?_
    cases part <;> rfl
  | _ => simp [map, printed, nodeSegments, Segment.written, Spelling.inWay, List.flatMap_map, List.flatMap_assoc]

theorem spelling_map (kind : NodeKind ι) (f : ι → Spelling) (way : Way) :
    (kind.map f).spelling.inWay way = (kind.segments way).flatMap (Segment.written f) := by
  have alone := printed_map kind f
  cases way with
  | node => exact alone
  | value =>
    cases kind with
    | literal value raw => simp [map, spelling, Spelling.inWay, printedValue, segments, Segment.written]
    | _ => exact alone

theorem flatMap_separated (separator : List Char) (nodes : List ι) (tag : String → List β) (below : ι → List β) :
    (separatedSegments separator nodes).flatMap (Segment.collect tag below) = nodes.flatMap below := by
  induction nodes with
  | nil => rfl
  | cons node nodes ih =>
    cases nodes with
    | nil => rfl
    | cons other others =>
      simp only [separatedSegments, List.flatMap_cons] at ih ⊢
      rw [ih]
      rfl

theorem flatMap_parts (parts : List (OpaquePart ι)) (tag : String → List β) (below : ι → List β) :
    (parts.map (·.segment)).flatMap (Segment.collect tag below) = (parts.filterMap (·.child?)).flatMap below := by
  induction parts with
  | nil => rfl
  | cons part parts ih =>
    rw [List.map_cons, List.flatMap_cons, ih]
    cases part <;> rfl

/-- What is collected from the pieces of a node is what its tag adds, and then what its children add, in their
order. -/
theorem flatMap_segments {kind : NodeKind ι} (keyed : kind.Keyed) (way : Way) (tag : String → List β)
    (below : ι → List β) : (kind.segments way).flatMap (Segment.collect tag below) =
      kind.tagName?.toList.flatMap tag ++ kind.children.flatMap below := by
  have same : (kind.segments way).flatMap (Segment.collect tag below) =
      kind.nodeSegments.flatMap (Segment.collect tag below) := by
    cases way with
    | node => rfl
    | value => cases kind <;> rfl
  rw [same]
  cases kind with
  | element name attributes children selfClosing =>
    simp only [nodeSegments, NodeKind.children]
    split <;> simp_all [tagName?, Segment.collect, List.flatMap_map, List.flatMap_assoc]
  | object properties =>
    have separated := flatMap_separated [',', ' '] properties tag below
    simp only [nodeSegments, children]
    split <;> simp_all [tagName?, Segment.collect]
  | array elements =>
    have separated := flatMap_separated [',', ' '] elements tag below
    simp [nodeSegments, children, tagName?, Segment.collect, separated]
  | namedAttribute name value => cases value <;> simp [nodeSegments, children, tagName?, Segment.collect]
  | expressionContainer expression =>
    cases expression <;> simp [nodeSegments, children, tagName?, Segment.collect]
  | property key value shorthand =>
    cases shorthand <;> cases key <;>
      simp_all [Keyed, nodeSegments, children, tagName?, PropertyKey.segments, PropertyKey.children, Segment.collect]
  | opaqueText parts => exact flatMap_parts parts tag below
  | _ => simp [nodeSegments, children, tagName?, Segment.collect, List.flatMap_map, List.flatMap_assoc]

theorem mem_children_of_segment {kind : NodeKind ι} {way way' : Way} {c : ι} (keyed : kind.Keyed)
    (h : .child way' c ∈ kind.segments way) : c ∈ kind.children := by
  have collected := flatMap_segments keyed way (fun _ => []) (fun c => [c])
  have among : c ∈ (kind.segments way).flatMap (Segment.collect (fun _ => []) (fun c => [c])) :=
    List.mem_flatMap.2 ⟨_, h, List.mem_singleton.2 rfl⟩
  rw [collected] at among
  simpa using among

/-- An element is written as the beginning of its tag and no other tags of its own, and in both ways alike. -/
theorem segments_of_tagName? {kind : NodeKind ι} {name : String} (h : kind.tagName? = some name) (way : Way) :
    ∃ rest, kind.segments way = .tag name :: rest ∧ kind.nodeSegments = .tag name :: rest ∧
      ∀ other, .tag other ∉ rest := by
  cases kind with
  | element tag attributes children selfClosing =>
    obtain rfl := Option.some.inj h
    refine ⟨_, by cases way <;> rfl, rfl, fun other => ?_⟩
    split <;> simp
  | _ => cases h

theorem tagName?_of_segment {kind : NodeKind ι} {way : Way} {name : String} (keyed : kind.Keyed)
    (h : .tag name ∈ kind.segments way) : kind.tagName? = some name := by
  have collected := flatMap_segments keyed way (fun name => [name]) (fun _ => [])
  have among : name ∈ (kind.segments way).flatMap (Segment.collect (fun name => [name]) (fun _ => [])) :=
    List.mem_flatMap.2 ⟨_, h, List.mem_singleton.2 rfl⟩
  rw [collected] at among
  simpa using among

end NodeKind

/-- What is printed at one go: the beginning of the tag of an element, or other text. -/
inductive Stroke where
  | plain (text : List Char)
  | opening (element : NodeId) (name : String)

namespace Stroke

def written : Stroke → List Char
  | .plain text => text
  | .opening _ name => '<' :: name.toList

def opened? : Stroke → Option NodeId
  | .plain _ => none
  | .opening element _ => some element

end Stroke

namespace Stroke

def Begins (printed : NodeId → List Char) (strokes : List Stroke) : Prop :=
  ∀ element name after, .opening element name :: after <:+ strokes →
    printed element <+: (opening element name :: after).flatMap written

variable {printed : NodeId → List Char} {strokes others : List Stroke}

theorem begins_nil : Begins printed [] := by
  intro element name after h
  cases List.suffix_nil.1 h

theorem Begins.cons {stroke : Stroke} (h : Begins printed strokes)
    (first : ∀ element name, stroke = opening element name → printed element <+: (stroke :: strokes).flatMap written) :
    Begins printed (stroke :: strokes) := by
  intro element name after suffix
  obtain same | suffix := List.suffix_cons_iff.1 suffix
  · obtain ⟨rfl, rfl⟩ := List.cons.inj same
    exact first element name rfl
  · exact h element name after suffix

theorem Begins.append (h : Begins printed strokes) (h' : Begins printed others) :
    Begins printed (strokes ++ others) := by
  induction strokes with
  | nil => exact h'
  | cons stroke strokes ih =>
    have rest : Begins printed strokes := fun element name after suffix =>
      h element name after (List.suffix_cons_iff.2 (.inr suffix))
    refine (ih rest).cons fun element name same => ?_
    have begun := h element name strokes (same ▸ List.suffix_rfl)
    rw [← same] at begun
    refine begun.trans ?_
    rw [← List.cons_append, List.flatMap_append]
    exact List.prefix_append _ _

theorem begins_flatMap {α : Type} {items : List α} {row : α → List Stroke}
    (h : ∀ item ∈ items, Begins printed (row item)) : Begins printed (items.flatMap row) := by
  induction items with
  | nil => exact begins_nil
  | cons item items ih =>
    rw [List.flatMap_cons]
    exact (h item List.mem_cons_self).append (ih fun other among => h other (List.mem_cons_of_mem item among))

end Stroke

def Segment.strokes (id : NodeId) (below : Way → NodeId → List Stroke) : Segment NodeId → List Stroke
  | .own text => [.plain text]
  | .tag name => [.opening id name]
  | .child way node => below way node

namespace Tree

def strokesTo (t : Tree) : Nat → Way → NodeId → List Stroke
  | 0, _, _ => []
  | depth + 1, way, id =>
    match t.get? id with
    | none => []
    | some node => (node.kind.segments way).flatMap (Segment.strokes id (t.strokesTo depth))

def strokesInWay (t : Tree) (way : Way) (id : NodeId) : List Stroke :=
  t.strokesTo t.depthBound way id

def strokes (t : Tree) (id : NodeId) : List Stroke :=
  t.strokesInWay .node id

/-- No property in short form has an expression for its name. -/
def Keyed (t : Tree) : Prop :=
  ∀ id node, t.get? id = some node → node.kind.Keyed

variable {t : Tree} {id : NodeId} {node : Node}

theorem isElement_of_get? (hn : t.get? id = some node) : t.isElement id = node.kind.tagName?.isSome := by
  rw [isElement, kind?_of_get? hn]
  cases node.kind <;> rfl

theorem elementName?_of_get? (hn : t.get? id = some node) : t.elementName? id = node.kind.tagName? := by
  rw [elementName?, kind?_of_get? hn]
  cases node.kind <;> rfl

theorem strokesTo_congr (keyed : t.Keyed) (n m : Nat) (id : NodeId)
    (h : ∀ child ∈ t.childIds id, (fun way => t.strokesTo n way child) = fun way => t.strokesTo m way child) :
    (fun way => t.strokesTo (n + 1) way id) = fun way => t.strokesTo (m + 1) way id := by
  funext way
  cases hn : t.get? id with
  | none => rw [strokesTo, strokesTo, hn]
  | some node =>
    rw [childIds_of_get? hn] at h
    simp only [strokesTo, hn]
    refine List.flatMap_congr fun segment among => ?_
    cases segment with
    | own text => rfl
    | tag name => rfl
    | child way' c => exact congrFun (h c (NodeKind.mem_children_of_segment (keyed id node hn) among)) way'

theorem Grounded.strokes_eq (h : t.Grounded id) (keyed : t.Keyed) (hn : t.get? id = some node) (way : Way) :
    t.strokesInWay way id = (node.kind.segments way).flatMap (Segment.strokes id t.strokesInWay) := by
  obtain ⟨n, hdepth, hchild⟩ := h.reading (strokesTo_congr keyed)
  rw [childIds_of_get? hn] at hchild
  rw [strokesInWay, hdepth, strokesTo, hn]
  refine List.flatMap_congr fun segment among => ?_
  cases segment with
  | own text => rfl
  | tag name => rfl
  | child way' c => exact congrFun (hchild c (NodeKind.mem_children_of_segment (keyed id node hn) among)) way'

theorem strokesInWay_of_none (hn : t.get? id = none) (way : Way) : t.strokesInWay way id = [] := by
  rw [strokesInWay, depthBound, strokesTo, hn]

theorem Grounded.written_strokes (h : t.Grounded id) (keyed : t.Keyed) (way : Way) :
    (t.strokesInWay way id).flatMap Stroke.written = (t.shape id).spelling.inWay way := by
  induction h generalizing way with
  | intro id below ih =>
    have grounded : t.Grounded id := ⟨id, below⟩
    cases hn : t.get? id with
    | none =>
      rw [strokesInWay_of_none hn, shape_of_none hn]
      cases way <;> rfl
    | some node =>
      rw [grounded.strokes_eq keyed hn, grounded.shape_eq hn, Shape.spelling_node, NodeKind.map_map,
        NodeKind.spelling_map, List.flatMap_assoc]
      refine List.flatMap_congr fun segment among => ?_
      cases segment with
      | own text => simp [Segment.strokes, Segment.written, Stroke.written]
      | tag name => simp [Segment.strokes, Segment.written, Stroke.written]
      | child way' c =>
        have child := NodeKind.mem_children_of_segment (keyed id node hn) among
        exact ih c (childIds_of_get? hn ▸ child) way'

/-- The tags that are begun are those of the elements of the walk, in its order. -/
theorem Grounded.opened_strokes (h : t.Grounded id) (keyed : t.Keyed) (way : Way) :
    (t.strokesInWay way id).filterMap Stroke.opened? = (t.preorder id).filter t.isElement := by
  induction h generalizing way with
  | intro id below ih =>
    have grounded : t.Grounded id := ⟨id, below⟩
    rw [grounded.preorder_eq, List.filter_cons]
    cases hn : t.get? id with
    | none =>
      have nothing : t.isElement id = false := by rw [isElement, kind?, hn]; rfl
      rw [strokesInWay_of_none hn, childIds_of_none hn, nothing]
      rfl
    | some node =>
      have collected := NodeKind.flatMap_segments (keyed id node hn) way (fun _ => [id])
        fun c => (t.preorder c).filter t.isElement
      have same : (node.kind.segments way).flatMap (fun segment =>
          (Segment.strokes id t.strokesInWay segment).filterMap Stroke.opened?) =
            (node.kind.segments way).flatMap (Segment.collect (fun _ => [id])
              fun c => (t.preorder c).filter t.isElement) := by
        refine List.flatMap_congr fun segment among => ?_
        cases segment with
        | own text => rfl
        | tag name => rfl
        | child way' c =>
          have child := NodeKind.mem_children_of_segment (keyed id node hn) among
          exact ih c (childIds_of_get? hn ▸ child) way'
      rw [grounded.strokes_eq keyed hn, List.filterMap_flatMap, same, collected, isElement_of_get? hn,
        childIds_of_get? hn, List.filter_flatMap]
      cases node.kind.tagName? <;> rfl

theorem Grounded.begins_strokes (h : t.Grounded id) (keyed : t.Keyed) (way : Way) :
    Stroke.Begins t.printNode (t.strokesInWay way id) := by
  induction h generalizing way with
  | intro id below ih =>
    have grounded : t.Grounded id := ⟨id, below⟩
    cases hn : t.get? id with
    | none =>
      rw [strokesInWay_of_none hn]
      exact Stroke.begins_nil
    | some node =>
      have rest : ∀ segments : List (Segment NodeId), segments ⊆ node.kind.segments way →
          (∀ name, .tag name ∉ segments) →
            Stroke.Begins t.printNode (segments.flatMap (Segment.strokes id t.strokesInWay)) := by
        intro segments among untagged
        refine Stroke.begins_flatMap fun segment hs => ?_
        cases segment with
        | own text => exact Stroke.begins_nil.cons nofun
        | tag name => exact absurd hs (untagged name)
        | child way' c =>
          have child := NodeKind.mem_children_of_segment (keyed id node hn) (among hs)
          exact ih c (childIds_of_get? hn ▸ child) way'
      rw [grounded.strokes_eq keyed hn]
      cases tagged : node.kind.tagName? with
      | none =>
        refine rest _ (List.Subset.refl _) fun name hs => ?_
        rw [NodeKind.tagName?_of_segment (keyed id node hn) hs] at tagged
        cases tagged
      | some name =>
        obtain ⟨others, pieces, alone, untagged⟩ := NodeKind.segments_of_tagName? tagged way
        have written := grounded.written_strokes keyed .node
        rw [grounded.strokes_eq keyed hn] at written
        change (node.kind.nodeSegments.flatMap _).flatMap _ = t.printNode id at written
        rw [alone, List.flatMap_cons] at written
        rw [pieces, List.flatMap_cons]
        refine (rest others (pieces ▸ List.subset_cons_self _ _) untagged).cons fun element name' same => ?_
        obtain ⟨rfl, -⟩ := Stroke.opening.inj same
        refine ⟨[], ?_⟩
        rw [List.append_nil]
        exact written.symm

theorem elementName_of_opening (keyed : t.Keyed) {way : Way} {element : NodeId} {name : String}
    (h : .opening element name ∈ t.strokesInWay way id) : t.elementName? element = some name := by
  rw [strokesInWay] at h
  generalize t.depthBound = depth at h
  induction depth generalizing way id with
  | zero => cases h
  | succ depth ih =>
    rw [strokesTo] at h
    split at h
    · cases h
    · rename_i node hn
      obtain ⟨segment, among, begun⟩ := List.mem_flatMap.1 h
      cases segment with
      | own text => simp [Segment.strokes] at begun
      | tag name' =>
        simp only [Segment.strokes, List.mem_singleton, Stroke.opening.injEq] at begun
        obtain ⟨rfl, rfl⟩ := begun
        rw [elementName?_of_get? hn]
        exact NodeKind.tagName?_of_segment (keyed element node hn) among
      | child way' c => exact ih begun

end Tree

end MarkupEditor
