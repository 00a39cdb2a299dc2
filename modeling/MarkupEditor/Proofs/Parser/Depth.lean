import MarkupEditor.Proofs.Parser.Runs

set_option autoImplicit false

namespace MarkupEditor.Parser

variable {ι σ α β : Type}

/-- From every state the first part wants depth, or the second one ends as it does. -/
def Lasts (p q : Parser σ α) : Prop :=
  ∀ s, p s = .error .exhausted ∨ q s = p s

namespace Lasts

variable {p q : Parser σ α} {f g : α → Parser σ β}

theorem refl (p : Parser σ α) : Lasts p p :=
  fun _ => .inr rfl

theorem exhausted : Lasts (throw .exhausted) q :=
  fun _ => .inl rfl

theorem bind (h : Lasts p q) (h' : ∀ x, Lasts (f x) (g x)) : Lasts (p >>= f) (q >>= g) := by
  intro s
  rcases h s with hp | hq
  · exact .inl (run_bind_error hp)
  · rw [run_bind, run_bind, hq]
    cases p s with
    | error stop => exact .inr rfl
    | ok r => exact h' r.1 r.2

theorem after (h : ∀ x, Lasts (f x) (g x)) : Lasts (p >>= f) (p >>= g) :=
  (refl p).bind h

theorem before (f : α → Parser σ β) (h : Lasts p q) : Lasts (p >>= f) (q >>= f) :=
  h.bind fun x => refl (f x)

end Lasts

theorem lasts_dottedName {n m : Nat} (h : n ≤ m) :
    Lasts (dottedName n : Parser σ String) (dottedName m) := by
  induction n generalizing m with
  | zero => exact .exhausted
  | succ n ih =>
    obtain ⟨m, rfl⟩ := Nat.exists_eq_add_of_lt h
    refine .after fun dot => ?_
    cases dot with
    | false => exact .refl _
    | true => exact .after fun part => (ih (by omega)).before _

theorem lasts_elementName {n m : Nat} (h : n ≤ m) :
    Lasts (elementName n : Parser σ String) (elementName m) := by
  refine .after fun first => .after fun colon => ?_
  cases colon with
  | true => exact .refl _
  | false => exact (lasts_dottedName h).before _

theorem lasts_closeElement {n m : Nat} (h : n ≤ m) (name : String) :
    Lasts (closeElement n name : Parser σ Unit) (closeElement m name) := by
  refine .after fun opening => .after fun _ => .after fun greater => ?_
  cases greater with
  | true => exact .refl _
  | false => exact (lasts_elementName h).before _

def LastsFor (b : Builder ι σ) (n m : Nat) : Phrase → Prop
  | .expression ends => Lasts (expression b n ends) (expression b m ends)
  | .inner ends => Lasts (innerExpression b n ends) (innerExpression b m ends)
  | .structured => Lasts (structured b n) (structured b m)
  | .parenthesized s => Lasts (parenthesized b n s) (parenthesized b m s)
  | .items l => Lasts (items b n l) (items b m l)
  | .item l s t => Lasts (item b n l s t) (item b m l s t)
  | .property s t => Lasts (property b n s t) (property b m s t)
  | .key s t => Lasts (propertyKey b n s t) (propertyKey b m s t)
  | .kept ends => Lasts (keptExpression b n ends) (keptExpression b m ends)
  | .parts ends opened before text =>
    Lasts (keptParts b n ends opened before text) (keptParts b m ends opened before text)
  | .markup => Lasts (markup b n) (markup b m)
  | .tag => Lasts (tag b n) (tag b m)
  | .attributes => Lasts (attributes b n) (attributes b m)
  | .spreadAttribute => Lasts (spreadAttribute b n) (spreadAttribute b m)
  | .namedAttribute => Lasts (namedAttribute b n) (namedAttribute b m)
  | .value => Lasts (attributeValue b n) (attributeValue b m)
  | .children => Lasts (children b n) (children b m)
  | .container => Lasts (container b n) (container b m)
  | .spreadOrExpression => Lasts (spreadOrExpression b n) (spreadOrExpression b m)
  | .statements => Lasts (statements b n) (statements b m)

section

variable {b : Builder ι σ} {n m : Nat} (ih : ∀ phrase : Phrase, LastsFor b n m phrase)

include ih

theorem lasts_structured : LastsFor b (n + 1) (m + 1) .structured := by
  refine .after fun o => ?_
  cases o with
  | none => exact .refl _
  | some s =>
    cases ht : s.token with
    | none =>
      simp only [ht]
      exact .refl _
    | some token =>
      simp only [ht]
      cases token with
      | punctuator mark =>
        cases mark with
        | less => exact Lasts.before _ (ih .markup)
        | openParen => exact ih (.parenthesized s)
        | openBrace | openBracket => exact .after fun _ => Lasts.before _ (ih (.items _))
        | _ => exact .refl _
      | _ => exact .refl _

theorem lasts_attributes : LastsFor b (n + 1) (m + 1) .attributes := by
  have more {p q : Parser σ ι} (h : Lasts p q) (join : ι → List ι × Bool → Parser σ (List ι × Bool)) :
      Lasts (p >>= fun first => attributes b n >>= join first)
        (q >>= fun first => attributes b m >>= join first) :=
    h.bind fun first => Lasts.before _ (ih .attributes)
  refine .after fun o => ?_
  cases o with
  | none => exact .refl _
  | some s =>
    cases ht : s.token with
    | none =>
      simp only [ht]
      exact .refl _
    | some token =>
      simp only [ht]
      cases token with
      | punctuator mark =>
        cases mark with
        | openBrace => exact more (ih .spreadAttribute) _
        | _ => exact .refl _
      | identifier name => exact more (ih .namedAttribute) _
      | keyword word => exact more (ih .namedAttribute) _
      | _ => exact .refl _

theorem lasts_value : LastsFor b (n + 1) (m + 1) .value := by
  refine .after fun c => ?_
  cases c.rest with
  | nil => exact .refl _
  | cons x rest =>
    simp only
    split
    · exact .refl _
    · split
      · refine .after fun opening => .after fun empty => ?_
        cases empty with
        | true => exact .refl _
        | false => exact Lasts.before _ (ih (.expression [.closeBrace]))
      · split
        · exact ih .markup
        · exact .refl _

theorem lasts_children : LastsFor b (n + 1) (m + 1) .children := by
  have more {p q : Parser σ ι} (front : List ι) (h : Lasts p q) :
      Lasts (do
        let first ← p
        let others ← children b n
        return front ++ first :: others) (do
        let first ← q
        let others ← children b m
        return front ++ first :: others) :=
    h.bind fun first => Lasts.before _ (ih .children)
  refine .after fun front => .after fun c => ?_
  cases c.rest with
  | nil => exact .refl _
  | cons x rest =>
    simp only
    split
    · exact more front (ih .container)
    · split
      · exact .refl _
      · exact more front (ih .markup)

theorem lasts_items (l : Listing) : LastsFor b (n + 1) (m + 1) (.items l) := by
  refine .after fun o => ?_
  cases o with
  | none => exact .refl _
  | some s =>
    cases ht : s.token with
    | none =>
      simp only [ht]
      exact .refl _
    | some token =>
      simp only [ht]
      split
      · exact .refl _
      · refine Lasts.bind (ih (.item l s token)) fun first => ?_
        cases first with
        | none => exact .refl _
        | some first =>
          refine .after fun separated => ?_
          cases separated with
          | false => exact .refl _
          | true => exact Lasts.before _ (ih (.items l))

theorem lasts_property (s : Sight) (token : Token) : LastsFor b (n + 1) (m + 1) (.property s token) := by
  refine Lasts.bind (ih (.key s token)) fun key => ?_
  cases key with
  | none => exact .refl _
  | some key =>
    refine .after fun colon => ?_
    cases colon with
    | false => exact .refl _
    | true => exact Lasts.before _ (ih (.inner Listing.object.ends))

theorem lasts_key (s : Sight) (token : Token) : LastsFor b (n + 1) (m + 1) (.key s token) := by
  cases token with
  | punctuator mark =>
    cases mark with
    | openBracket => exact .after fun _ => Lasts.before _ (ih (.inner [.closeBracket]))
    | _ => exact .refl _
  | _ => exact .refl _

theorem lasts_parts (ends opened : List Punctuator) (before : Option Token) (text : List Char) :
    LastsFor b (n + 1) (m + 1) (.parts ends opened before text) := by
  refine .after fun o => ?_
  cases o with
  | none => exact .refl _
  | some s =>
    simp only
    cases keptStep ends opened before s with
    | stop => exact .refl _
    | take opened' => exact .after fun _ => ih (.parts ends opened' s.token _)
    | markup => exact Lasts.bind (ih .markup) fun node => Lasts.before _ (ih (.parts ends opened _ []))

end

theorem lasts (b : Builder ι σ) {n m : Nat} (h : n ≤ m) (phrase : Phrase) :
    LastsFor b n m phrase := by
  induction n generalizing m phrase with
  | zero => cases phrase <;> exact Lasts.exhausted
  | succ n ih =>
    obtain ⟨k, rfl⟩ := Nat.exists_eq_add_of_lt h
    have hk : n ≤ n + k := Nat.le_add_right n k
    replace ih : ∀ phrase : Phrase, LastsFor b n (n + k) phrase := fun phrase => ih hk phrase
    cases phrase with
    | expression ends =>
      refine .after fun start => .after fun size => .bind (ih .structured) fun found =>
        .after fun stop => ?_
      cases found with
      | none => exact .after fun _ => ih (.kept ends)
      | some node =>
        cases stop.endsAt ends with
        | true => exact .refl _
        | false => exact .after fun _ => ih (.kept ends)
    | inner ends =>
      refine .after fun c => ?_
      split
      · exact .refl _
      · exact .before _ (ih (.expression ends))
    | structured => exact lasts_structured ih
    | parenthesized s => exact .after fun _ => .before _ (ih (.inner [.closeParen]))
    | items l => exact lasts_items ih l
    | item l s token =>
      simp only [LastsFor, item]
      split
      · exact .after fun _ => .before _ (ih (.inner l.ends))
      · cases l with
        | array => exact ih (.inner Listing.array.ends)
        | object => exact ih (.property s token)
    | property s token => exact lasts_property ih s token
    | key s token => exact lasts_key ih s token
    | kept ends =>
      refine .after fun o => ?_
      cases o with
      | none => exact .refl _
      | some s => exact .after fun _ => .before _ (ih (.parts ends [] none []))
    | parts ends opened before text => exact lasts_parts ih ends opened before text
    | markup =>
      refine .after fun c => .after fun found => ?_
      cases found with
      | some found => exact .refl _
      | none => exact .before _ (ih .tag)
    | tag =>
      refine .after fun opening => .after fun greater => ?_
      cases greater with
      | true => exact .before _ (ih .children)
      | false =>
        refine .bind (lasts_elementName hk) fun name => .bind (ih .attributes) fun found => ?_
        obtain ⟨found, closed⟩ := found
        cases closed with
        | true => exact .refl _
        | false =>
          exact .bind (ih .children) fun inside => .before _ (lasts_closeElement hk name)
    | attributes => exact lasts_attributes ih
    | spreadAttribute =>
      exact .after fun opening => .after fun _ => .before _ (ih (.expression [.closeBrace]))
    | namedAttribute =>
      refine .after fun c => .after fun name => .after fun equals => ?_
      cases equals with
      | false => exact .refl _
      | true => exact .after fun d => .after fun _ => .before _ (ih .value)
    | value => exact lasts_value ih
    | children => exact lasts_children ih
    | container =>
      refine .after fun opening => .after fun empty => ?_
      cases empty with
      | true => exact .refl _
      | false => exact .before _ (ih .spreadOrExpression)
    | spreadOrExpression =>
      refine .after fun c => ?_
      cases c.mark? .ellipsis with
      | none => exact ih (.expression [.closeBrace])
      | some s => exact .after fun _ => .before _ (ih (.expression [.closeBrace]))
    | statements =>
      refine .after fun o => ?_
      cases o with
      | none => exact .refl _
      | some s =>
        simp only
        split
        · exact .after fun _ => ih .statements
        · exact .bind (ih (.expression [.semicolon])) fun inside => .after fun first =>
            .before _ (ih .statements)

theorem lasts_program (b : Builder ι σ) {n m : Nat} (h : n ≤ m) : Lasts (program b n) (program b m) :=
  Lasts.before _ (lasts b h .statements)

end MarkupEditor.Parser
