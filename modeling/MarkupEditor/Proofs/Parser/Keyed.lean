import MarkupEditor.Proofs.Parser.Runs
import MarkupEditor.Proofs.Parser.Stored
import MarkupEditor.Proofs.Printer.Openings

set_option autoImplicit false

namespace MarkupEditor

namespace Parser

variable {ι σ α β : Type}

/-- A run that ends with a value leaves a store with a property if it was given one. -/
def Preserves (P : σ → Prop) (p : Parser σ α) : Prop :=
  ∀ s x t, p s = .ok (x, t) → P s.store → P t.store

structure Builder.Upholds (b : Builder ι σ) (P : σ → Prop) : Prop where
  alloc : ∀ kind span s, kind.Keyed → P s → P (b.alloc kind span s).2
  cut : ∀ size s, P s → P (b.cut size s)
  remember : ∀ markup s, P s → P (b.remember markup s)

variable {P : σ → Prop}

namespace Preserves

theorem pure (x : α) : Preserves P (Pure.pure x) := by
  intro s y t h hs
  cases h
  exact hs

theorem throw (stop : Stop) : Preserves P (MonadExcept.throw stop : Parser σ α) := by
  intro s y t h
  cases h

theorem bind {p : Parser σ α} {f : α → Parser σ β} (h : Preserves P p) (h' : ∀ x, Preserves P (f x)) :
    Preserves P (p >>= f) := by
  intro s y t run hs
  rw [run_bind] at run
  cases first : p s with
  | error stop =>
    rw [first] at run
    cases run
  | ok r =>
    rw [first] at run
    exact h' r.1 r.2 y t run (h s r.1 r.2 first hs)

theorem ifFound {p : Parser σ (Option α)} {f : α → Parser σ (Option β)} (h : Preserves P p)
    (h' : ∀ x, Preserves P (f x)) : Preserves P (do
      match ← p with
      | none => return none
      | some x => f x) := by
  refine bind h fun found => ?_
  cases found with
  | none => exact pure none
  | some x => exact h' x

theorem look {p : Parser σ α} (h : ∀ s, ∃ x c, p s = .ok (x, ⟨c, s.store⟩)) : Preserves P p := by
  intro s y t run hs
  obtain ⟨x, c, same⟩ := h s
  rw [same] at run
  cases run
  exact hs

theorem here : Preserves P (Parser.here : Parser σ Cursor) :=
  look fun _ => ⟨_, _, rfl⟩

theorem peek : Preserves P (Parser.peek : Parser σ (Option Sight)) :=
  look fun _ => ⟨_, _, rfl⟩

theorem moveTo (c : Cursor) : Preserves P (Parser.moveTo c) :=
  look fun _ => ⟨_, _, rfl⟩

theorem refuse (error : ParseError) : Preserves P (Parser.refuse error : Parser σ α) :=
  throw _

theorem refuseEnd (expected : String) : Preserves P (Parser.refuseEnd expected : Parser σ α) :=
  bind here fun _ => refuse _

theorem refuseSight (expected : String) (o : Option Sight) :
    Preserves P (Parser.refuseSight expected o : Parser σ α) := by
  unfold Parser.refuseSight
  split
  · exact refuseEnd expected
  · split
    · exact refuse _
    · exact refuse _

theorem sees (mark : Punctuator) : Preserves P (Parser.sees mark : Parser σ Bool) :=
  look fun _ => ⟨_, _, rfl⟩

theorem accept (mark : Punctuator) : Preserves P (Parser.accept mark : Parser σ Bool) := by
  refine bind here fun c => ?_
  split
  · exact bind (moveTo _) fun _ => pure _
  · exact pure _

theorem expect (mark : Punctuator) : Preserves P (Parser.expect mark : Parser σ Sight) := by
  refine bind here fun c => ?_
  split
  · exact bind (moveTo _) fun _ => pure _
  · exact bind peek fun o => refuseSight _ o

theorem expectName (expected : String) : Preserves P (Parser.expectName expected : Parser σ String) := by
  refine bind peek fun o => ?_
  split
  · split
    · exact bind (moveTo _) fun _ => pure _
    · exact refuseSight _ _
  · exact refuseEnd _

theorem acceptSeparator (closing : Punctuator) : Preserves P (Parser.acceptSeparator closing : Parser σ Bool) := by
  refine bind here fun c => ?_
  split
  · exact bind (moveTo _) fun _ => pure _
  · exact pure _

theorem readNumber (raw : String) (span : Span) : Preserves P (Parser.readNumber raw span : Parser σ Binary64) := by
  unfold Parser.readNumber
  split
  · exact pure _
  · exact refuse _

end Preserves

theorem preserves_dottedName (n : Nat) : Preserves P (dottedName n : Parser σ String) := by
  induction n with
  | zero => exact .throw _
  | succ n ih =>
    refine .bind (.accept .dot) fun dot => ?_
    cases dot with
    | false => exact .pure _
    | true => exact .bind (.expectName _) fun _ => .bind ih fun _ => .pure _

theorem preserves_elementName (n : Nat) : Preserves P (elementName n : Parser σ String) := by
  refine .bind (.expectName _) fun _ => .bind (.accept .colon) fun colon => ?_
  cases colon with
  | false => exact .bind (preserves_dottedName n) fun _ => .pure _
  | true => exact .bind (.expectName _) fun _ => .pure _

theorem preserves_attributeName : Preserves P (attributeName : Parser σ String) := by
  refine .bind (.expectName _) fun _ => .bind (.accept .colon) fun colon => ?_
  cases colon with
  | false => exact .pure _
  | true => exact .bind (.expectName _) fun _ => .pure _

theorem preserves_closeFragment : Preserves P (closeFragment : Parser σ Unit) :=
  .bind (.expect _) fun _ => .bind (.expect _) fun _ => .bind (.expect _) fun _ => .pure _

theorem preserves_closeElement (n : Nat) (name : String) : Preserves P (closeElement n name : Parser σ Unit) := by
  refine .bind (.expect _) fun _ => .bind (.expect _) fun _ => .bind (.sees _) fun unnamed => ?_
  cases unnamed with
  | true => exact .bind .here fun _ => .refuse _
  | false =>
    refine .bind (preserves_elementName n) fun _ => .bind (.expect _) fun _ => ?_
    split
    · exact .pure _
    · exact .refuse _

def PreservesFor (b : Builder ι σ) (P : σ → Prop) (n : Nat) : Phrase → Prop
  | .expression ends => Preserves P (expression b n ends)
  | .inner ends => Preserves P (innerExpression b n ends)
  | .structured => Preserves P (structured b n)
  | .parenthesized s => Preserves P (parenthesized b n s)
  | .items l => Preserves P (items b n l)
  | .item l s t => Preserves P (item b n l s t)
  | .property s t => Preserves P (property b n s t)
  | .key s t => Preserves P (propertyKey b n s t)
  | .kept ends => Preserves P (keptExpression b n ends)
  | .parts ends opened before text => Preserves P (keptParts b n ends opened before text)
  | .markup => Preserves P (markup b n)
  | .tag => Preserves P (tag b n)
  | .attributes => Preserves P (attributes b n)
  | .spreadAttribute => Preserves P (spreadAttribute b n)
  | .namedAttribute => Preserves P (namedAttribute b n)
  | .value => Preserves P (attributeValue b n)
  | .children => Preserves P (children b n)
  | .container => Preserves P (container b n)
  | .spreadOrExpression => Preserves P (spreadOrExpression b n)
  | .statements => Preserves P (statements b n)

section

variable {b : Builder ι σ} {n : Nat} (ih : ∀ phrase : Phrase, PreservesFor b P n phrase)

include ih

theorem preserves_items (l : Listing) : PreservesFor b P (n + 1) (.items l) := by
  refine .bind .peek fun o => ?_
  split
  · exact .pure _
  · split
    · exact .pure _
    · split
      · exact .bind (.moveTo _) fun _ => .pure _
      · refine .ifFound (ih (.item l _ _)) fun first => .bind (.acceptSeparator _) fun separated => ?_
        cases separated with
        | false => exact .pure _
        | true => exact .bind (ih (.items l)) fun _ => .pure _

theorem preserves_key (s : Sight) (token : Token) : PreservesFor b P (n + 1) (.key s token) := by
  simp only [PreservesFor, propertyKey]
  split
  · exact .bind (.readNumber _ _) fun _ => .bind (.moveTo _) fun _ => .pure _
  · refine .bind (.moveTo _) fun _ => .ifFound (ih (.inner _)) fun inside => .bind (.accept _) fun closed => ?_
    cases closed with
    | false => exact .pure _
    | true => exact .pure _
  · split
    · exact .pure _
    · exact .bind (.moveTo _) fun _ => .pure _

theorem preserves_parts (ends opened : List Punctuator) (before : Option Token) (text : List Char) :
    PreservesFor b P (n + 1) (.parts ends opened before text) := by
  refine .bind .peek fun o => ?_
  split
  · exact .pure _
  · split
    · exact .pure _
    · exact .bind (.moveTo _) fun _ => ih (.parts ends _ _ _)
    · exact .bind (ih .markup) fun _ => .bind (ih (.parts ends opened _ [])) fun _ => .pure _

theorem preserves_attributes : PreservesFor b P (n + 1) .attributes := by
  refine .bind .peek fun o => ?_
  split
  · exact .refuseEnd _
  · split
    · exact .bind (.moveTo _) fun _ => .bind (.expect _) fun _ => .pure _
    · exact .bind (.moveTo _) fun _ => .pure _
    · exact .bind (ih .spreadAttribute) fun _ => .bind (ih .attributes) fun _ => .pure _
    · exact .bind (ih .namedAttribute) fun _ => .bind (ih .attributes) fun _ => .pure _
    · exact .bind (ih .namedAttribute) fun _ => .bind (ih .attributes) fun _ => .pure _
    · exact .refuseSight _ _

end

section

variable {b : Builder ι σ} (keeps : b.Upholds P)

include keeps

theorem preserves_alloc {kind : NodeKind ι} (keyed : kind.Keyed) (span : Span) : Preserves P (alloc b kind span) := by
  intro s x t run hs
  cases run
  exact keeps.alloc kind span s.store keyed hs

theorem preserves_allocFrom {kind : NodeKind ι} (keyed : kind.Keyed) (start : Nat) :
    Preserves P (allocFrom b kind start) :=
  .bind .here fun _ => preserves_alloc keeps keyed _

theorem preserves_rewind (c : Cursor) (size : Nat) : Preserves P (rewind b c size) := by
  intro s x t run hs
  cases run
  exact keeps.cut size s.store hs

theorem preserves_remember (start : Nat) (node : ι) : Preserves P (remember b start node) := by
  intro s x t run hs
  cases run
  exact keeps.remember _ s.store hs

theorem preserves_leaf (sight : Sight) {kind : NodeKind ι} (keyed : kind.Keyed) : Preserves P (leaf b sight kind) :=
  .bind (.moveTo _) fun _ => preserves_alloc keeps keyed _

theorem preserves_negativeNumber (sign : Sight) : Preserves P (negativeNumber b sign) := by
  refine .bind (.moveTo _) fun _ => .bind .peek fun o => ?_
  split
  · exact .pure _
  · split
    · exact .bind (.moveTo _) fun _ => .bind (.readNumber _ _) fun _ =>
        .bind (preserves_alloc keeps (by trivial) _) fun _ => .pure _
    · exact .pure _

theorem preserves_attributeString (quote : Char) (body : List Char) : Preserves P (attributeString b quote body) := by
  refine .bind .here fun c => ?_
  split
  · exact .refuseEnd _
  · exact .bind (.moveTo _) fun _ => preserves_alloc keeps (by trivial) _

theorem preserves_textChild (run : List Char) : Preserves P (textChild b run) := by
  refine .bind .here fun c => ?_
  split
  · exact .refuse _
  · exact .bind (.moveTo _) fun _ => preserves_alloc keeps (by trivial) _

theorem preserves_text : Preserves P (textChild? b) := by
  refine .bind .here fun c => ?_
  dsimp only
  split
  · exact .pure _
  · exact .bind (preserves_textChild keeps _) fun _ => .pure _

variable {n : Nat} (ih : ∀ phrase : Phrase, PreservesFor b P n phrase)

include ih

theorem preserves_structured : PreservesFor b P (n + 1) .structured := by
  have some_ {p : Parser σ ι} (h : Preserves P p) :
      Preserves P (do
        let node ← p
        return some node) := .bind h fun _ => .pure _
  refine .bind .peek fun o => ?_
  split
  · exact .pure _
  · rename_i s
    split
    · exact .pure _
    · exact .bind (.readNumber _ _) fun _ => some_ (preserves_leaf keeps s (by trivial))
    · exact some_ (ih .markup)
    · exact preserves_negativeNumber keeps s
    · exact ih (.parenthesized s)
    · split
      · exact .pure _
      · rename_i l _
        refine .bind (.moveTo _) fun _ => .bind (ih (.items l)) fun found => ?_
        cases found with
        | none => exact .pure _
        | some found =>
          have keyed : (l.kind found).Keyed := by cases l <;> trivial
          exact some_ (preserves_allocFrom keeps keyed _)
    · split
      · exact .pure _
      · rename_i token _ _ _ _ _ _ kind leafed
        have keyed : kind.Keyed := by
          unfold leafKind? at leafed
          split at leafed <;> cases leafed <;> trivial
        exact some_ (preserves_leaf keeps s keyed)

theorem preserves_property (s : Sight) (token : Token) : PreservesFor b P (n + 1) (.property s token) := by
  refine .bind (ih (.key s token)) fun key => ?_
  cases key with
  | none => exact .pure _
  | some key =>
    refine .bind (.accept .colon) fun colon => ?_
    cases colon with
    | true =>
      exact .ifFound (ih (.inner Listing.object.ends)) fun _ =>
        .bind (preserves_allocFrom keeps (by trivial) _) fun _ => .pure _
    | false =>
      cases key with
      | identifier name =>
        refine .bind .here fun c => ?_
        split
        · refine .bind (preserves_alloc keeps (by trivial) _) fun value => ?_
          have keyed : (NodeKind.property (PropertyKey.identifier name) value true).Keyed := rfl
          exact .bind (preserves_allocFrom keeps keyed _) fun _ => .pure _
        · exact .pure _
      | literal value raw => exact .pure _
      | computed e => exact .pure _

theorem preserves_value : PreservesFor b P (n + 1) .value := by
  refine .bind .here fun c => ?_
  split
  · exact .refuseEnd _
  · split
    · exact preserves_attributeString keeps _ _
    · split
      · refine .bind (.expect _) fun _ => .bind (.sees _) fun empty => ?_
        cases empty with
        | true => exact .bind .here fun _ => .refuse _
        | false =>
          exact .bind (ih (.expression _)) fun _ => .bind (.expect _) fun _ =>
            preserves_allocFrom keeps (by trivial) _
      · split
        · exact ih .markup
        · refine .bind .here fun c => ?_
          split
          · exact .refuse _
          · exact .refuse _

theorem preserves_children : PreservesFor b P (n + 1) .children := by
  have more {p : Parser σ ι} (front : List ι) (h : Preserves P p) : Preserves P (do
      let first ← p
      let others ← children b n
      return front ++ first :: others) :=
    .bind h fun _ => .bind (ih .children) fun _ => .pure _
  refine .bind (preserves_text keeps) fun front => .bind .here fun c => ?_
  split
  · exact .refuseEnd _
  · split
    · exact more front (ih .container)
    · split
      · exact .pure _
      · exact more front (ih .markup)

theorem preserves_statements : PreservesFor b P (n + 1) .statements := by
  refine .bind .peek fun o => ?_
  split
  · exact .pure _
  · split
    · exact .bind (.moveTo _) fun _ => ih .statements
    · exact .bind (ih (.expression _)) fun _ => .bind (preserves_allocFrom keeps (by trivial) _) fun _ =>
        .bind (ih .statements) fun _ => .pure _

end

theorem preserves {b : Builder ι σ} (keeps : b.Upholds P) (n : Nat) (phrase : Phrase) :
    PreservesFor b P n phrase := by
  induction n generalizing phrase with
  | zero => cases phrase <;> exact .throw _
  | succ n ih =>
    cases phrase with
    | expression ends =>
      refine .bind .here fun start => .bind (.look fun _ => ⟨_, _, rfl⟩) fun size =>
        .bind (ih .structured) fun found => .bind .here fun stop => ?_
      split
      · exact .pure _
      · exact .bind (preserves_rewind keeps _ _) fun _ => ih (.kept ends)
    | inner ends =>
      refine .bind .here fun c => ?_
      split
      · exact .pure _
      · exact .bind (ih (.expression ends)) fun _ => .pure _
    | structured => exact preserves_structured keeps ih
    | parenthesized s =>
      refine .bind (.moveTo _) fun _ => .ifFound (ih (.inner _)) fun inside => .bind (.accept _) fun closed => ?_
      cases closed with
      | false => exact .pure _
      | true => exact .bind (preserves_allocFrom keeps (by trivial) _) fun _ => .pure _
    | items l => exact preserves_items ih l
    | item l s token =>
      simp only [PreservesFor, item]
      split
      · exact .bind (.moveTo _) fun _ => .ifFound (ih (.inner _)) fun _ =>
          .bind (preserves_allocFrom keeps (by trivial) _) fun _ => .pure _
      · cases l with
        | array => exact ih (.inner _)
        | object => exact ih (.property s token)
    | property s token => exact preserves_property keeps ih s token
    | key s token => exact preserves_key ih s token
    | kept ends =>
      refine .bind .peek fun o => ?_
      split
      · exact .refuseEnd _
      · refine .bind (.moveTo _) fun _ => .bind (ih (.parts ends [] none [])) fun parts => ?_
        split
        · exact .bind .peek fun o => .refuseSight _ o
        · exact preserves_allocFrom keeps (by trivial) _
    | parts ends opened before text => exact preserves_parts ih ends opened before text
    | markup =>
      refine .bind .here fun c => .bind (.look fun _ => ⟨_, _, rfl⟩) fun found => ?_
      cases found with
      | some found => exact .bind (.moveTo _) fun _ => .pure _
      | none => exact .bind (ih .tag) fun _ => .bind (preserves_remember keeps _ _) fun _ => .pure _
    | tag =>
      refine .bind (.expect _) fun opening => .bind (.accept _) fun greater => ?_
      cases greater with
      | true =>
        exact .bind (ih .children) fun _ => .bind preserves_closeFragment fun _ =>
          preserves_allocFrom keeps (by trivial) _
      | false =>
        refine .bind (preserves_elementName n) fun name => .bind (ih .attributes) fun found => ?_
        obtain ⟨found, closed⟩ := found
        cases closed with
        | true => exact preserves_allocFrom keeps (by trivial) _
        | false =>
          exact .bind (ih .children) fun _ => .bind (preserves_closeElement n name) fun _ =>
            preserves_allocFrom keeps (by trivial) _
    | attributes => exact preserves_attributes ih
    | spreadAttribute =>
      exact .bind (.expect _) fun _ => .bind (.expect _) fun _ => .bind (ih (.expression _)) fun _ =>
        .bind (.expect _) fun _ => preserves_allocFrom keeps (by trivial) _
    | namedAttribute =>
      refine .bind .here fun c => .bind preserves_attributeName fun name => .bind (.accept _) fun equals => ?_
      cases equals with
      | false => exact preserves_allocFrom keeps (by trivial) _
      | true =>
        exact .bind .here fun _ => .bind (.moveTo _) fun _ => .bind (ih .value) fun _ =>
          preserves_allocFrom keeps (by trivial) _
    | value => exact preserves_value keeps ih
    | children => exact preserves_children keeps ih
    | container =>
      refine .bind (.expect _) fun opening => .bind (.accept _) fun empty => ?_
      cases empty with
      | true => exact preserves_allocFrom keeps (by trivial) _
      | false =>
        exact .bind (ih .spreadOrExpression) fun _ => .bind (.expect _) fun _ =>
          preserves_allocFrom keeps (by trivial) _
    | spreadOrExpression =>
      refine .bind .here fun c => ?_
      split
      · exact .bind (.moveTo _) fun _ => .bind (ih (.expression _)) fun _ =>
          preserves_allocFrom keeps (by trivial) _
      · exact ih (.expression _)
    | statements => exact preserves_statements keeps ih

theorem preserves_program {b : Builder ι σ} (keeps : b.Upholds P) (n : Nat) : Preserves P (program b n) :=
  .bind (preserves keeps n .statements) fun _ => .bind .here fun _ => preserves_alloc keeps (by trivial) _

theorem Arena.upholds_keyed (sharing : Bool) : (stored sharing).Upholds fun a => a.tree.Keyed where
  alloc kind span a keyed ha := by
    intro id node hn
    change (a.nodes.push _)[id.index]? = some node at hn
    rw [Array.getElem?_push] at hn
    split at hn
    · cases hn
      exact keyed
    · exact ha id node hn
  cut size a ha := by
    intro id node hn
    exact ha id node (Arena.extends_of_cut sharing size a hn)
  remember markup a ha := ha

end Parser

theorem parse_keyed {source : String} {t : Tree} (parsed : parse source = .ok t) : t.Keyed := by
  unfold parse parseWith Parser.outcome at parsed
  split at parsed
  · rename_i root s run
    cases parsed
    refine Parser.preserves_program (Parser.Arena.upholds_keyed true) _ _ _ _ run ?_
    intro id node hn
    simp [Tree.get?, Parser.Arena.tree] at hn
  · cases parsed
  · cases parsed

end MarkupEditor
