import MarkupEditor.Editing.Content
import MarkupEditor.Proofs.Markup.Walks
import MarkupEditor.Proofs.Printer.Children
/-!
# Legible nodes

A node is legible in its place if it is spelled as in a source, or as the printer writes what has no
spelling. What an edit leaves is a mixture of both. Nothing is said of texts here that are kept as they
stand; that is left to a manner of writing.
-/

set_option autoImplicit false

namespace MarkupEditor

open Text Lexer MarkupEditor.Parser

/-- A place for a node, with what its reading depends on. An `item` is an element of an array, `content`
is what braces among children hold, `named` is the value of a property that its name stands for, and a
`part` is markup in a text that is kept. -/
inductive Site where
  | root
  | statement
  | expression (ends : List Punctuator)
  | structured
  | markup
  | named (name : String)
  | attr
  | value (name : String)
  | child
  | property
  | item
  | content
  | part

namespace Site

def inside : Site → Site
  | .child => .content
  | _ => .expression [.closeBrace]

def spreadEnds : Site → List Punctuator
  | .property => Listing.object.ends
  | .item => Listing.array.ends
  | _ => [.closeBrace]

def ofValue {ι : Type} (key : PropertyKey ι) (shorthand : Bool) : Site :=
  match shorthand, key with
  | true, .identifier name => .named name
  | _, _ => .expression Listing.object.ends

end Site

/-- Literals in an expression: in the printer's own spelling, spelled by a token, or by a sign and a
number token with blanks between. -/
inductive Literal.Spelled : Literal → Option String → Prop where
  | null : Spelled .null none
  | boolean (value : Bool) : Spelled (.boolean value) none
  | string (value : String) : Spelled (.string value) none
  | token {value : Literal} {raw : String} {token : Token} (whole : token.Whole)
    (made : LeafOf token (.literal value (some raw))) : Spelled value (some raw)
  | negative {value : Binary64} {gap : List Char} {raw : String} (blank : Blank gap)
    (whole : (Token.number raw).Whole) (read : numberValue? raw.toList = some value) :
    Spelled (.number value.neg) (some (String.ofList ('-' :: gap ++ raw.toList)))

/-- Literals that are the value of an attribute: a string between quotes of the source, or any literal
that the printer writes there. Of numbers these are the ones without a sign. -/
inductive Literal.Held : Literal → Option String → Prop where
  | null : Held .null none
  | boolean (value : Bool) : Held (.boolean value) none
  | number {value : Binary64} (positive : value.isNegative = false) : Held (.number value) none
  | string (value : String) : Held (.string value) none
  | quoted {quote : Char} {inner : List Char} (h : quote = '"' ∨ quote = '\'') (clean : quote ∉ inner) :
    Held (.string (String.ofList (decodeReferences inner)))
      (some (String.ofList (quote :: inner ++ [quote])))

inductive PropertyKey.Spelled {ι : Type} : PropertyKey ι → Prop where
  | identifier {name : String} (named : IsName name) : Spelled (.identifier name)
  | string (name : String) : Spelled (.literal (.string name) none)
  | token {value : Literal} {raw : String} {token : Token} (whole : token.Whole)
    (made : KeyOf token (.literal value (some raw))) : Spelled (.literal value (some raw))
  | computed (expression : ι) : Spelled (.computed expression)

theorem PropertyKey.Spelled.map {ι κ : Type} {key : PropertyKey ι} (h : key.Spelled) (f : ι → κ) :
    (key.map f).Spelled := by
  cases h with
  | identifier named => exact .identifier named
  | string name => exact .string name
  | token whole made => exact .token whole made
  | computed e => exact .computed _

theorem PropertyKey.Spelled.of_map {ι κ μ : Type} {f : ι → κ} {g : ι → μ} {key : PropertyKey ι}
    (h : (key.map f).Spelled) : (key.map g).Spelled := by
  cases key with
  | identifier name =>
    cases h with
    | identifier named => exact .identifier named
  | literal value raw =>
    cases h with
    | string name => exact .string name
    | token whole made => exact .token whole made
  | computed e => exact .computed _

def SpellsText (value : String) : Option String → Prop
  | none => True
  | some raw => raw ≠ "" ∧ (∀ x ∈ raw.toList, x ∉ ['<', '>', '{', '}']) ∧
    String.ofList (decodeReferences raw.toList) = value

namespace NodeKind

variable {ι κ : Type}

def bare (kind : NodeKind ι) : NodeKind Unit :=
  kind.map fun _ => ()

@[simp] theorem bare_map (f : ι → κ) (kind : NodeKind ι) : (kind.map f).bare = kind.bare :=
  map_map f _ kind

def Markup : NodeKind ι → Prop
  | .element name .. => IsElementName name
  | .fragment _ => True
  | _ => False

/-- Whether markup is recognized in a text that is kept. A keyword begins no tag there. -/
def OpensTag : NodeKind ι → Prop
  | .element name .. => ∃ first others, (Token.identifier first).Whole ∧ EndsName others.toList ∧
    name = first ++ others
  | .fragment _ => True
  | _ => False

def IsStructured : NodeKind ι → Prop
  | .literal value raw => value.Spelled raw
  | .identifier name => (Token.identifier name).Whole
  | .object _ | .array _ | .parenthesized _ => True
  | kind => kind.Markup

def sites (site : Site) : NodeKind ι → List (Site × ι)
  | .program body => body.map (.statement, ·)
  | .expressionStatement expression => [(.expression [.semicolon], expression)]
  | .element _ attributes children _ => attributes.map (.attr, ·) ++ children.map (.child, ·)
  | .fragment children => children.map (.child, ·)
  | .text .. | .literal .. | .identifier _ => []
  | .expressionContainer expression => expression.toList.map (site.inside, ·)
  | .namedAttribute name value => value.toList.map (.value name, ·)
  | .spreadAttribute argument => [(.expression [.closeBrace], argument)]
  | .object properties => properties.map (.property, ·)
  | .property key value shorthand =>
    key.children.map (.expression [.closeBracket], ·) ++ [(.ofValue key shorthand, value)]
  | .spread argument => [(.expression site.spreadEnds, argument)]
  | .array elements => elements.map (.item, ·)
  | .parenthesized expression => [(.expression [.closeParen], expression)]
  | .opaqueText parts => (parts.filterMap (·.child?)).map (.part, ·)

theorem sites_children (site : Site) (kind : NodeKind ι) : (kind.sites site).map Prod.snd = kind.children := by
  cases kind <;> simp [sites, children, Function.comp_def]

theorem sites_map (f : ι → κ) (site : Site) (kind : NodeKind ι) :
    (kind.map f).sites site = (kind.sites site).map fun p => (p.1, f p.2) := by
  cases kind with
  | expressionContainer e => cases e <;> rfl
  | namedAttribute name value => cases value <;> rfl
  | property key value shorthand => cases key <;> cases shorthand <;> rfl
  | opaqueText parts =>
    have h := children_map f (.opaqueText parts)
    simp only [map, children] at h
    simp only [map, sites, h, List.map_map]
    rfl
  | _ => simp [map, sites, Function.comp_def]

theorem exists_site (site : Site) {kind : NodeKind ι} {child : ι} (h : child ∈ kind.children) :
    ∃ inner, (inner, child) ∈ kind.sites site := by
  rw [← sites_children site] at h
  obtain ⟨⟨inner, _⟩, hmem, rfl⟩ := List.mem_map.1 h
  exact ⟨inner, hmem⟩

theorem child_of_site {site inner : Site} {kind : NodeKind ι} {child : ι}
    (h : (inner, child) ∈ kind.sites site) : child ∈ kind.children := by
  rw [← sites_children site]
  exact List.mem_map_of_mem h

theorem sites_value {site : Site} {kind : NodeKind ι} {name : String} {child : ι}
    (h : (.value name, child) ∈ kind.sites site) : ∃ value, kind = .namedAttribute name value := by
  cases kind with
  | namedAttribute other value =>
    obtain ⟨v, -, heq⟩ := List.mem_map.1 h
    cases heq
    exact ⟨value, rfl⟩
  | expressionContainer e => cases site <;> simp [sites, Site.inside] at h
  | property key value shorthand =>
    cases key <;> cases shorthand <;> simp [sites, Site.ofValue, PropertyKey.children] at h
  | _ => simp [sites] at h

/-- No two texts stand side by side among the children. -/
def Apart (isText : ι → Bool) : NodeKind ι → Prop
  | .element _ _ children _ | .fragment children =>
    children.IsChain fun x y => isText x = true → isText y = false
  | _ => True

theorem apart_map (f : ι → κ) (isText : κ → Bool) (kind : NodeKind ι) :
    (kind.map f).Apart isText ↔ kind.Apart fun x => isText (f x) := by
  cases kind <;> simp [map, Apart, List.isChain_map]

theorem Apart.congr {isText isText' : ι → Bool} {kind : NodeKind ι} (h : kind.Apart isText)
    (same : ∀ child ∈ kind.children, isText' child = isText child) : kind.Apart isText' := by
  have chain : ∀ xs : List ι, (∀ x ∈ xs, isText' x = isText x) →
      xs.IsChain (fun x y => isText x = true → isText y = false) →
      xs.IsChain fun x y => isText' x = true → isText' y = false := by
    intro xs hsame hchain
    refine List.IsChain.imp_of_mem_imp (fun x y hx hy hxy => ?_) hchain
    rwa [hsame x hx, hsame y hy]
  cases kind with
  | element name as xs closed => exact chain xs (fun x hx => same x (List.mem_append_right _ hx)) h
  | fragment xs => exact chain xs same h
  | _ => trivial

end NodeKind

def Shape.OpensTag : Shape → Prop
  | .missing => False
  | .node _ kind => kind.OpensTag

/-- A manner of writing: the texts that may be kept in a place, and what the value of an attribute may be
beyond what is legible there. -/
structure Manner where
  keeps : Site → List (OpaquePart Unit) → Prop
  holds : String → NodeKind Unit → Prop

namespace Manner

def plain (keeps : Site → List (OpaquePart Unit) → Prop) : Manner where
  keeps
  holds _ kind := ∀ value, kind ≠ .literal (.number value) none

/-- Whether a kind is legible in a place. -/
def Takes (m : Manner) : Site → NodeKind Unit → Prop
  | .root, .program _ => True
  | .statement, .expressionStatement _ => True
  | .named name, .identifier other => other = name ∧ IsName name
  | .attr, .namedAttribute name _ => IsAttributeName name
  | .attr, .spreadAttribute _ => True
  | .value name, .literal content raw => content.Held raw ∧ m.holds name (.literal content raw)
  | .value name, .expressionContainer (some e) => m.holds name (.expressionContainer (some e))
  | .value name, kind => kind.Markup ∧ m.holds name kind
  | .child, .text content raw => SpellsText content raw
  | .child, .expressionContainer _ => True
  | .property, .property key _ shorthand =>
    key.Spelled ∧ (shorthand = true → ∃ name, key = .identifier name)
  | .property, .spread _ => True
  | .item, .spread _ => True
  | .content, .spread _ => True
  | .expression ends, .opaqueText parts => ends ⊆ closers ∧ m.keeps (.expression ends) parts
  | .item, .opaqueText parts => m.keeps .item parts
  | .content, .opaqueText parts => m.keeps .content parts
  | .expression ends, kind => ends ⊆ closers ∧ kind.IsStructured
  | .item, kind | .content, kind | .structured, kind => kind.IsStructured
  | .child, kind | .markup, kind => kind.Markup
  | .part, kind => kind.Markup ∧ kind.OpensTag
  | _, _ => False

end Manner

/-- All nodes of a nested form are legible in their places. -/
inductive Shape.Legible (m : Manner) : Site → Shape → Prop where
  | node {site : Site} {span : Option Span} {kind : NodeKind Shape} (takes : m.Takes site kind.bare)
    (apart : kind.Apart isText)
    (below : ∀ inner child, (inner, child) ∈ kind.sites site → Legible m inner child) :
    Legible m site (.node span kind)

inductive Tree.Legible (m : Manner) (t : Tree) : Site → NodeId → Prop where
  | node {site : Site} {id : NodeId} {node : Node} (stored : t.get? id = some node)
    (takes : m.Takes site node.kind.bare) (apart : node.kind.Apart t.isText)
    (below : ∀ inner child, (inner, child) ∈ node.kind.sites site → Legible m t inner child) :
    Legible m t site id

namespace NodeKind

variable {ι : Type} {kind : NodeKind ι}

theorem sites_of_isStructured (h : kind.bare.IsStructured) (site site' : Site) :
    kind.sites site = kind.sites site' := by
  cases kind <;> first | rfl | exact h.elim

end NodeKind

namespace Manner

variable {m : Manner} {kind : NodeKind Unit} {ends : List Punctuator}

/-- What a place takes depends on the manner only in the value of an attribute and in texts that are kept. -/
theorem Takes.mono {m' : Manner} {site : Site} (h : m.Takes site kind)
    (holds : ∀ name, site = .value name → m.holds name kind → m'.holds name kind)
    (keeps : ∀ parts, kind = .opaqueText parts → m.keeps site parts → m'.keeps site parts) :
    m'.Takes site kind := by
  cases kind with
  | expressionContainer e =>
    cases site with
    | value name =>
      cases e with
      | none => exact ⟨h.1, holds name rfl h.2⟩
      | some e => exact holds name rfl h
    | _ => exact h
  | opaqueText parts =>
    cases site with
    | expression ends => exact ⟨h.1, keeps parts rfl h.2⟩
    | item | content => exact keeps parts rfl h
    | value name => exact h.1.elim
    | _ => exact h
  | _ =>
    cases site with
    | value name => exact ⟨h.1, holds name rfl h.2⟩
    | _ => exact h

theorem Takes.structured (h : m.Takes .markup kind) : m.Takes .structured kind := by
  cases kind <;> first | exact h | exact h.elim

theorem Takes.expression (h : m.Takes .structured kind) (hends : ends ⊆ closers) :
    m.Takes (.expression ends) kind := by
  cases kind <;> first | exact ⟨hends, h⟩ | exact h.elim

theorem Takes.item (h : m.Takes .structured kind) : m.Takes .item kind := by
  cases kind <;> first | exact h | exact h.elim

theorem Takes.content (h : m.Takes .structured kind) : m.Takes .content kind := by
  cases kind <;> first | exact h | exact h.elim

theorem Takes.child (h : m.Takes .markup kind) : m.Takes .child kind := by
  cases kind <;> first | exact h | exact h.elim

theorem Takes.value {name : String} (h : m.Takes .markup kind) (held : m.holds name kind) :
    m.Takes (.value name) kind := by
  cases kind <;> first | exact ⟨h, held⟩ | exact h.elim

end Manner

namespace Shape.Legible

variable {m : Manner} {site site' : Site} {s : Shape} {ends : List Punctuator}

theorem lift (h : s.Legible m site)
    (takes : ∀ kind : NodeKind Shape, m.Takes site kind.bare →
      m.Takes site' kind.bare ∧ kind.sites site' = kind.sites site) : s.Legible m site' := by
  cases h with
  | @node _ span kind htakes apart below =>
    obtain ⟨htakes', hsites⟩ := takes kind htakes
    exact .node htakes' apart (hsites ▸ below)

theorem structured (h : s.Legible m .markup) : s.Legible m .structured :=
  h.lift fun _ ht => ⟨ht.structured, NodeKind.sites_of_isStructured ht.structured _ _⟩

theorem expression (h : s.Legible m .structured) (hends : ends ⊆ closers) :
    s.Legible m (.expression ends) :=
  h.lift fun _ ht => ⟨ht.expression hends, NodeKind.sites_of_isStructured ht _ _⟩

theorem item (h : s.Legible m .structured) : s.Legible m .item :=
  h.lift fun _ ht => ⟨ht.item, NodeKind.sites_of_isStructured ht _ _⟩

theorem content (h : s.Legible m .structured) : s.Legible m .content :=
  h.lift fun _ ht => ⟨ht.content, NodeKind.sites_of_isStructured ht _ _⟩

theorem child (h : s.Legible m .markup) : s.Legible m .child :=
  h.lift fun _ ht => ⟨ht.child, NodeKind.sites_of_isStructured ht.structured _ _⟩

theorem value {name : String} (h : s.Legible m .markup)
    (held : ∀ kind : NodeKind Unit, kind.Markup → m.holds name kind) : s.Legible m (.value name) :=
  h.lift fun kind ht =>
    have markup : kind.bare.Markup := by cases kind <;> exact ht
    ⟨ht.value (held _ markup), NodeKind.sites_of_isStructured ht.structured _ _⟩

theorem part (h : s.Legible m .markup) (opens : s.OpensTag) : s.Legible m .part := by
  cases h with
  | @node _ span kind takes apart below =>
    refine .node ⟨takes, ?_⟩ apart fun inner child hc => below inner child ?_
    · cases kind <;> exact opens
    · rwa [NodeKind.sites_of_isStructured takes.structured .markup .part]

theorem not_isText (h : s.Legible m .markup) : s.isText = false := by
  cases h with
  | @node _ span kind takes => cases kind <;> first | rfl | exact takes.elim

theorem text_of_silent (h : s.Legible m .child) (silent : s.print = []) :
    ∃ span, s = .node span (.text "" none) := by
  cases h with
  | @node _ span kind takes =>
    cases kind with
    | text value raw =>
      rw [print_text] at silent
      cases raw with
      | none =>
        have nothing : value.toList = [] := by
          by_contra filled
          exact escapeText_ne_nil filled silent
        exact ⟨span, by rw [String.toList_eq_nil_iff.1 nothing]⟩
      | some raw => exact absurd (String.toList_eq_nil_iff.1 silent) takes.1
    | expressionContainer e => cases e <;> cases (print_node _ _).symm.trans silent
    | element name as xs closed =>
      rw [print_node, NodeKind.map, NodeKind.printed] at silent
      split at silent <;> cases silent
    | fragment => cases (print_node _ _).symm.trans silent
    | _ => exact takes.elim

end Shape.Legible

namespace Tree

variable {m m' : Manner} {t : Tree} {site : Site} {id : NodeId}

theorem Legible.exists_get? (h : t.Legible m site id) : ∃ node, t.get? id = some node := by
  cases h with
  | node stored => exact ⟨_, stored⟩

theorem Legible.lt_size (h : t.Legible m site id) : id.index < t.size :=
  get?_isSome_iff.1 h.exists_get?

theorem Legible.grounded (h : t.Legible m site id) : t.Grounded id := by
  induction h with
  | @node site id node stored takes apart below ih =>
    refine .intro fun child hc => ?_
    rw [childIds_of_get? stored] at hc
    obtain ⟨inner, hmem⟩ := NodeKind.exists_site site hc
    exact ih inner child hmem

theorem isText_eq (h : t.Grounded id) : (t.shape id).isText = t.isText id := by
  cases hn : t.get? id with
  | none =>
    rw [shape_of_none hn, isText, kind?, hn]
    rfl
  | some node =>
    rw [h.shape_eq hn, isText, kind?_of_get? hn]
    cases node with
    | mk kind span => cases kind <;> rfl

theorem apart_shape {kind : NodeKind NodeId} (h : ∀ child ∈ kind.children, t.Grounded child) :
    (kind.map t.shape).Apart Shape.isText ↔ kind.Apart t.isText := by
  rw [NodeKind.apart_map]
  constructor
  · intro apart
    exact apart.congr fun child hc => (isText_eq (h child hc)).symm
  · intro apart
    exact apart.congr fun child hc => isText_eq (h child hc)

theorem Legible.shape (h : t.Legible m site id) : (t.shape id).Legible m site := by
  induction h with
  | @node site id node stored takes apart below ih =>
    have hgrounded : t.Grounded id := Legible.grounded (.node stored takes apart below)
    rw [hgrounded.shape_eq stored]
    refine .node (by rwa [NodeKind.bare_map]) ?_ ?_
    · refine (apart_shape fun child hc => hgrounded.child ?_).2 apart
      rwa [childIds_of_get? stored]
    · intro inner child hc
      rw [NodeKind.sites_map] at hc
      obtain ⟨⟨inner', id'⟩, hmem, heq⟩ := List.mem_map.1 hc
      cases heq
      exact ih inner' id' hmem

theorem Grounded.legible (h : t.Grounded id) (legible : (t.shape id).Legible m site) :
    t.Legible m site id := by
  induction h generalizing site with
  | intro id hchild ih =>
    have hgrounded : t.Grounded id := Acc.intro id hchild
    cases hn : t.get? id with
    | none =>
      rw [shape_of_none hn] at legible
      cases legible
    | some node =>
      rw [hgrounded.shape_eq hn] at legible
      rw [childIds_of_get? hn] at hchild ih
      cases legible with
      | node takes apart below =>
        refine .node hn (by rwa [NodeKind.bare_map] at takes) ((apart_shape hchild).1 apart) ?_
        intro inner child hc
        refine ih child (NodeKind.child_of_site hc) (below inner _ ?_)
        rw [NodeKind.sites_map]
        exact List.mem_map_of_mem hc

theorem Legible.reaches {x : NodeId} (h : t.Legible m site id) (hx : t.Reaches id x) :
    ∃ inner, t.Legible m inner x := by
  induction hx generalizing site with
  | refl => exact ⟨site, h⟩
  | step hc _ ih =>
    cases h with
    | node stored takes apart below =>
      rw [childIds_of_get? stored] at hc
      obtain ⟨inner, hmem⟩ := NodeKind.exists_site site hc
      exact ih (below inner _ hmem)

theorem Legible.change (h : t.Legible m site id)
    (takes : ∀ x node, t.Reaches id x → t.get? x = some node → ∀ site, m.Takes site node.kind.bare →
      m'.Takes site node.kind.bare) : t.Legible m' site id := by
  induction h with
  | @node site id node stored htakes apart below ih =>
    refine .node stored (takes id node (.refl id) stored site htakes) apart fun inner child hc => ?_
    refine ih inner child hc fun x node' hx => takes x node' (.step ?_ hx)
    rw [childIds_of_get? stored]
    exact NodeKind.child_of_site hc

end Tree

end MarkupEditor
