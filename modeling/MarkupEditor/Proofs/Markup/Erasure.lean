import MarkupEditor.Markup.Printer
import MarkupEditor.Proofs.Markup.Shapes

set_option autoImplicit false

namespace MarkupEditor

open Text

variable {ι κ : Type}

def PropertyKey.erase (spellings : Bool) : PropertyKey ι → PropertyKey ι
  | .literal value raw => .literal value (raw.filter fun _ => spellings)
  | key => key

def NodeKind.erase (spellings : Bool) : NodeKind ι → NodeKind ι
  | .text value raw => .text value (raw.filter fun _ => spellings)
  | .literal value raw => .literal value (raw.filter fun _ => spellings)
  | .property key value shorthand => .property (key.erase spellings) value shorthand
  | kind => kind

theorem PropertyKey.erase_true (key : PropertyKey ι) : key.erase true = key := by
  cases key with
  | literal value raw => cases raw <;> rfl
  | _ => rfl

theorem NodeKind.erase_true (kind : NodeKind ι) : kind.erase true = kind := by
  cases kind with
  | text value raw | literal value raw => cases raw <;> rfl
  | property key value shorthand => rw [erase, PropertyKey.erase_true]
  | _ => rfl

theorem NodeKind.map_map {μ : Type} (f : ι → κ) (g : κ → μ) (kind : NodeKind ι) :
    (kind.map f).map g = kind.map (g ∘ f) := by
  cases kind with
  | property key value shorthand => cases key <;> rfl
  | opaqueText parts =>
    simp only [map, List.map_map]
    congr 2
    funext part
    cases part <;> rfl
  | _ => simp [map]

theorem NodeKind.map_id (kind : NodeKind ι) : kind.map id = kind := by
  cases kind with
  | property key value shorthand => cases key <;> rfl
  | opaqueText parts =>
    have same : ∀ part ∈ parts, part.map id = part := fun part _ => by cases part <;> rfl
    exact congrArg opaqueText ((List.map_congr_left same).trans (List.map_id' parts))
  | _ => simp [map]

namespace Shape

theorem sizeOf_child {kind : NodeKind Shape} {child : Shape} (h : child ∈ kind.children) :
    sizeOf child < sizeOf kind := by
  cases kind with
  | program body | fragment body | object body | array body =>
    have := List.sizeOf_lt_of_mem (show child ∈ body from h)
    simp only [NodeKind.program.sizeOf_spec, NodeKind.fragment.sizeOf_spec,
      NodeKind.object.sizeOf_spec, NodeKind.array.sizeOf_spec]
    omega
  | element name attributes children selfClosing =>
    simp only [NodeKind.element.sizeOf_spec]
    rcases List.mem_append.1 h with h | h
    · have := List.sizeOf_lt_of_mem h
      omega
    · have := List.sizeOf_lt_of_mem h
      omega
  | property key value shorthand =>
    simp only [NodeKind.property.sizeOf_spec]
    rcases List.mem_append.1 h with h | h
    · cases key with
      | computed e =>
        cases List.mem_singleton.1 h
        simp only [PropertyKey.computed.sizeOf_spec]
        omega
      | _ => cases h
    · cases List.mem_singleton.1 h
      omega
  | opaqueText parts =>
    obtain ⟨part, hpart, hchild⟩ := List.mem_filterMap.1 h
    have := List.sizeOf_lt_of_mem hpart
    cases part with
    | source text => cases hchild
    | node e =>
      cases hchild
      simp only [OpaquePart.node.sizeOf_spec, NodeKind.opaqueText.sizeOf_spec] at *
      omega
  | expressionContainer e | namedAttribute name e =>
    cases Option.mem_toList.1 h
    simp only [NodeKind.expressionContainer.sizeOf_spec, NodeKind.namedAttribute.sizeOf_spec,
      Option.some.sizeOf_spec]
    omega
  | expressionStatement e | spreadAttribute e | spread e | parenthesized e =>
    cases List.mem_singleton.1 h
    simp only [NodeKind.expressionStatement.sizeOf_spec, NodeKind.spreadAttribute.sizeOf_spec,
      NodeKind.spread.sizeOf_spec, NodeKind.parenthesized.sizeOf_spec]
    omega
  | text | literal | identifier => cases h

/-- What holds of a node if it holds of its children holds everywhere. -/
theorem induction {P : Shape → Prop} (missing : P .missing)
    (node : ∀ span kind, (∀ child ∈ kind.children, P child) → P (.node span kind)) :
    (shape : Shape) → P shape
  | .missing => missing
  | .node span kind => node span kind fun child h =>
    have := sizeOf_child h
    induction missing node child
decreasing_by
  rw [Shape.node.sizeOf_spec]
  omega

def isText : Shape → Bool
  | .node _ (.text ..) => true
  | _ => false

/-- A nested form without spans, and without source spellings unless they are kept. -/
def erase (spellings : Bool) : Shape → Shape :=
  fold .missing fun _ kind => .node none (kind.erase spellings)

theorem erase_node (spellings : Bool) (span : Option Span) (kind : NodeKind Shape) :
    (node span kind).erase spellings = .node none ((kind.map (erase spellings)).erase spellings) :=
  fold_node _ _ span kind

theorem spelling_node (span : Option Span) (kind : NodeKind Shape) :
    (node span kind).spelling = (kind.map spelling).spelling :=
  fold_node _ _ span kind

theorem print_node (span : Option Span) (kind : NodeKind Shape) :
    (node span kind).print = (kind.map spelling).printed :=
  congrArg Spelling.text (spelling_node span kind)

attribute [grind =] NodeKind.printed

theorem map_text (shapes : List Shape) : (shapes.map spelling).map (·.text) = shapes.map print :=
  List.map_map

theorem flatMap_text (shapes : List Shape) :
    (shapes.map spelling).flatMap (·.text) = shapes.flatMap print :=
  List.flatMap_map _ _ shapes

theorem print_array (span : Option Span) (elements : List Shape) :
    (node span (.array elements)).print =
      ['['] ++ (separate [',', ' '] (elements.map print) ++ [']']) := by
  rw [print_node, NodeKind.map, NodeKind.printed, map_text]
  rfl

theorem print_object_nil (span : Option Span) :
    (node span (.object [])).print = ['{'] ++ ['}'] :=
  print_node _ _

theorem print_object_cons (span : Option Span) (property : Shape) (properties : List Shape) :
    (node span (.object (property :: properties))).print =
      ['{'] ++ (([' '] ++ separate [',', ' '] ((property :: properties).map print)) ++ ([' '] ++ ['}'])) := by
  rw [print_node, NodeKind.map, NodeKind.printed, map_text]
  rfl

theorem print_spread (span : Option Span) (argument : Shape) :
    (node span (.spread argument)).print = ['.', '.', '.'] ++ argument.print :=
  print_node _ _

theorem print_property (span : Option Span) (key : PropertyKey Shape) (value : Shape) :
    (node span (.property key value false)).print =
      (key.map spelling).printed ++ ([':'] ++ ([' '] ++ value.print)) := by
  rw [print_node, NodeKind.map, NodeKind.printed, if_neg Bool.false_ne_true, List.append_assoc]
  rfl

theorem print_shorthand (span : Option Span) (key : PropertyKey Shape) (value : Shape) :
    (node span (.property key value true)).print = value.print :=
  print_node _ _

theorem print_identifier (span : Option Span) (name : String) :
    (node span (.identifier name)).print = name.toList :=
  print_node _ _

theorem print_fragment (span : Option Span) (children : List Shape) :
    (node span (.fragment children)).print =
      ['<'] ++ (['>'] ++ (children.flatMap print ++ (['<'] ++ (['/'] ++ ['>'])))) := by
  rw [print_node, NodeKind.map, NodeKind.printed, flatMap_text]
  rfl

theorem print_selfClosing (span : Option Span) (name : String) (attributes : List Shape) :
    (node span (.element name attributes [] true)).print =
      ['<'] ++ (name.toList ++ (attributes.flatMap (fun item => ' ' :: item.print) ++
        ([' '] ++ ['/'] ++ ['>']))) := by
  rw [print_node]
  simp [NodeKind.map, NodeKind.printed, List.flatMap_map, print]

theorem print_element (span : Option Span) (name : String) (attributes children : List Shape)
    (selfClosing : Bool) (h : selfClosing = true → children ≠ []) :
    (node span (.element name attributes children selfClosing)).print =
      ['<'] ++ (name.toList ++ (attributes.flatMap (fun item => ' ' :: item.print) ++
        (['>'] ++ (children.flatMap print ++
          (['<'] ++ (['/'] ++ (name.toList ++ ['>']))))))) := by
  have plain : ((children.map spelling).isEmpty && selfClosing) = false := by
    cases selfClosing <;> simp_all
  rw [print_node, NodeKind.map, NodeKind.printed, plain, flatMap_text]
  simp [List.flatMap_map, print]

theorem print_spreadAttribute (span : Option Span) (argument : Shape) :
    ' ' :: (node span (.spreadAttribute argument)).print =
      ([' '] ++ ['{']) ++ (['.', '.', '.'] ++ (argument.print ++ ['}'])) := by
  rw [print_node, NodeKind.map, NodeKind.printed, List.append_assoc]
  rfl

theorem print_attribute (span : Option Span) (name : String) (value : Shape) :
    ' ' :: (node span (.namedAttribute name (some value))).print =
      ([' '] ++ name.toList) ++ (['='] ++ value.spelling.value) := by
  rw [print_node]
  rfl

theorem print_attribute_bare (span : Option Span) (name : String) :
    ' ' :: (node span (.namedAttribute name none)).print = [' '] ++ name.toList := by
  rw [print_node]
  rfl

theorem print_container (span : Option Span) (expression : Shape) :
    (node span (.expressionContainer (some expression))).print = ['{'] ++ (expression.print ++ ['}']) := by
  rw [print_node]
  simp [NodeKind.map, NodeKind.printed, print]

theorem print_container_empty (span : Option Span) :
    (node span (.expressionContainer none)).print = ['{'] ++ ['}'] :=
  print_node _ _

theorem print_text (span : Option Span) (value : String) (raw : Option String) :
    (node span (.text value raw)).print =
      (raw.map String.toList).getD (escapeText value.toList) := by
  rw [print_node]
  cases raw <;> rfl

theorem print_program (span : Option Span) (body : List Shape) :
    (node span (.program body)).print = body.flatMap fun e => e.print ++ [';', '\n'] := by
  rw [print_node]
  simp [NodeKind.map, NodeKind.printed, List.flatMap_map, print]

theorem print_statement (span : Option Span) (expression : Shape) :
    (node span (.expressionStatement expression)).print = expression.print :=
  print_node _ _

theorem spelling_erase (shape : Shape) : (shape.erase true).spelling = shape.spelling := by
  induction shape using Shape.induction with
  | missing => rfl
  | node span kind ih =>
    rw [erase_node, NodeKind.erase_true, spelling_node, spelling_node, NodeKind.map_map]
    exact congrArg NodeKind.spelling (NodeKind.map_congr ih)

theorem print_congr {a b : Shape} (h : a.erase true = b.erase true) : a.print = b.print := by
  rw [print, print, ← spelling_erase a, h, spelling_erase]

end Shape

end MarkupEditor
