import MarkupEditor.Proofs.Parser.Simulation

set_option autoImplicit false

namespace MarkupEditor

namespace Parser

open Text

variable {source c : Cursor} {a : Arena} {sharing : Bool}

/-- The parse of a phrase on stored nodes goes the way of the one on nested nodes. -/
def Alike (source : Cursor) (sharing : Bool) (n : Nat) (phrase : Phrase) (c : Cursor) (a : Arena) :
    Prop :=
  let b := stored sharing
  match phrase with
  | .expression ends =>
    Matches source sharing (expression b n ends) (expression nested n ends) c a Arena.Shows
  | .inner ends =>
    Matches source sharing (innerExpression b n ends) (innerExpression nested n ends) c a
      fun b => Option.Rel b.Shows
  | .structured =>
    Matches source sharing (structured b n) (structured nested n) c a fun b => Option.Rel b.Shows
  | .parenthesized s =>
    Matches source sharing (parenthesized b n s) (parenthesized nested n s) c a fun b => Option.Rel b.Shows
  | .items l => Matches source sharing (items b n l) (items nested n l) c a fun b => Option.Rel b.ShowsAll
  | .item l s t =>
    Matches source sharing (item b n l s t) (item nested n l s t) c a fun b => Option.Rel b.Shows
  | .property s t =>
    Matches source sharing (property b n s t) (property nested n s t) c a fun b => Option.Rel b.Shows
  | .key s t =>
    Matches source sharing (propertyKey b n s t) (propertyKey nested n s t) c a fun b => Option.Rel b.ShowsKey
  | .kept ends =>
    Matches source sharing (keptExpression b n ends) (keptExpression nested n ends) c a Arena.Shows
  | .parts ends opened before text =>
    Matches source sharing (keptParts b n ends opened before text) (keptParts nested n ends opened before text)
      c a Arena.ShowsParts
  | .markup => Matches source sharing (markup b n) (markup nested n) c a Arena.Shows
  | .tag => Matches source sharing (tag b n) (tag nested n) c a Arena.Shows
  | .attributes =>
    Matches source sharing (attributes b n) (attributes nested n) c a
      fun b x y => b.ShowsAll x.1 y.1 ∧ x.2 = y.2
  | .spreadAttribute =>
    Matches source sharing (spreadAttribute b n) (spreadAttribute nested n) c a Arena.Shows
  | .namedAttribute => Matches source sharing (namedAttribute b n) (namedAttribute nested n) c a Arena.Shows
  | .value => Matches source sharing (attributeValue b n) (attributeValue nested n) c a Arena.Shows
  | .children => Matches source sharing (children b n) (children nested n) c a Arena.ShowsAll
  | .container => Matches source sharing (container b n) (container nested n) c a Arena.Shows
  | .spreadOrExpression =>
    Matches source sharing (spreadOrExpression b n) (spreadOrExpression nested n) c a Arena.Shows
  | .statements => Matches source sharing (statements b n) (statements nested n) c a Arena.ShowsAll

theorem matches_dottedName (n : Nat) (stands : Stands source sharing c a) :
    Matches source sharing (dottedName n) (dottedName n) c a fun _ x y => x = y := by
  induction n generalizing c a with
  | zero => trivial
  | succ n ih =>
    refine .accept stands (fun s _ stands => ?_) fun _ => .pure stands rfl
    refine .expectName stands fun part d stands => (ih stands).bind ?_
    rintro others _ e b stands _ rfl
    exact .pure stands rfl

theorem matches_elementName (n : Nat) (stands : Stands source sharing c a) :
    Matches source sharing (elementName n) (elementName n) c a fun _ x y => x = y := by
  refine .expectName stands fun first d stands => .accept stands (fun s _ stands => ?_) fun _ => ?_
  · exact .expectName stands fun second e stands => .pure stands rfl
  · refine (matches_dottedName n stands).bind ?_
    rintro others _ e b stands _ rfl
    exact .pure stands rfl

theorem matches_attributeName (stands : Stands source sharing c a) :
    Matches source sharing attributeName attributeName c a fun _ x y => x = y := by
  refine .expectName stands fun first d stands => .accept stands (fun s _ stands => ?_) fun _ => ?_
  · exact .expectName stands fun second e stands => .pure stands rfl
  · exact .pure stands rfl

theorem matches_closeFragment (stands : Stands source sharing c a) :
    Matches source sharing closeFragment closeFragment c a fun _ _ _ => True :=
  .expect stands fun _ _ stands => .expect stands fun _ _ stands => .expect stands fun _ _ stands =>
    .pure stands trivial

theorem matches_closeElement (n : Nat) (name : String) (stands : Stands source sharing c a) :
    Matches source sharing (closeElement n name) (closeElement n name) c a fun _ _ _ => True := by
  refine .expect stands fun s _ stands => .expect stands fun t _ stands =>
    .step (run_sees _ _) (run_sees _ _) ?_
  cases (t.stop.mark? .greater).isSome with
  | true => exact .here (.refuse _)
  | false =>
    refine (matches_elementName n stands).bind ?_
    rintro found _ d b stands _ rfl
    refine .expect stands fun u _ stands => ?_
    split
    · exact .pure stands trivial
    · exact .refuse _

theorem matches_text (stands : Stands source sharing c a) :
    Matches source sharing (textChild (stored sharing) (textRun c.rest)) (textChild nested (textRun c.rest)) c a
      Arena.Shows := by
  refine .here ?_
  cases ((textRun c.rest).dropWhile fun x => (textReference? x).isNone).head?.bind textReference? with
  | some reference => exact .refuse _
  | none =>
    have place := stands.place.trans (Cursor.before_advance (textRun_append c.rest))
    exact .moveTo (.alloc ⟨place, stands.valid⟩ (.text _ _))

theorem matches_textChild (stands : Stands source sharing c a) :
    Matches source sharing (textChild? (stored sharing)) (textChild? nested) c a Arena.ShowsAll := by
  refine .here ?_
  cases hr : (textRun c.rest).isEmpty with
  | true =>
    simp only [hr]
    exact Matches.pure stands (.nil a)
  | false =>
    simp only [hr]
    exact (matches_text stands).bind fun x y d b stands _ h => .pure stands h.all

theorem matches_attributeString {quote : Char} {body : List Char} (hc : c.rest = quote :: body)
    (stands : Stands source sharing c a) :
    Matches source sharing (attributeString (stored sharing) quote body) (attributeString nested quote body) c a
      Arena.Shows := by
  refine .here ?_
  cases hb : body.dropWhile (· != quote) with
  | nil => rfl
  | cons close rest =>
    have hrest : c.rest = (quote :: body.takeWhile (· != quote) ++ [close]) ++ rest := by
      rw [hc, List.append_assoc, List.cons_append, List.singleton_append, ← hb,
        List.takeWhile_append_dropWhile]
    have place := stands.place.trans (Cursor.before_advance hrest)
    exact .moveTo (.alloc ⟨place, stands.valid⟩ (.literal _ _))

theorem matches_leaf {s : Sight} {kind : NodeKind NodeId} {kind' : NodeKind Shape}
    (stands : Stands source sharing s.stop a) (h : a.ShowsKind kind kind') :
    Matches source sharing (leaf (stored sharing) s kind) (leaf nested s kind') c a Arena.Shows :=
  .moveTo (.alloc stands h)

theorem matches_negativeNumber {s : Sight} (stands : Stands source sharing s.stop a) :
    Matches source sharing (negativeNumber (stored sharing) s) (negativeNumber nested s) c a
      fun b => Option.Rel b.Shows := by
  refine .moveTo (.peek fun o next => ?_)
  cases o with
  | none => exact .pure stands .none
  | some m =>
    cases hm : m.number? with
    | none =>
      simp only [hm]
      exact .pure stands .none
    | some raw =>
      simp only [hm]
      have stands : Stands source sharing m.stop a :=
        ⟨stands.place.trans (Cursor.past_stop next).1, stands.valid⟩
      refine .moveTo (.readNumber fun value => ?_)
      exact (Matches.alloc stands (.literal _ _)).bind fun x y d b stands _ h => .pure stands (.some h)

theorem Reads.tag_seen {x : Answer} {d : Cursor} (h : Reads .tag c x d) :
    ∃ s, c.sight? = some s ∧ s.start.pos = c.nextStart := by
  have seen {s : Sight} (less : c.mark? .less = some s) :
      c.sight? = some s ∧ s.start.pos = c.nextStart := by
    have seen := (Cursor.mark?_eq_some.1 less).1
    exact ⟨seen, by rw [Cursor.nextStart, seen]; rfl⟩
  cases h with
  | fragment less => exact ⟨_, seen less⟩
  | selfClosing less => exact ⟨_, seen less⟩
  | tag less => exact ⟨_, seen less⟩

/-- Remembered markup is what the nested parse reads again. -/
theorem matches_recalled {m : Remembered NodeId} (stands : Stands source sharing c a)
    (hs : sharing = true) (hm : m ∈ a.remembered) (start : m.start = c.nextStart) {q : Parser Unit Shape}
    (hq : ∀ {e d}, Reads .tag c (.node e) d → Settles q c e d) :
    Matches source sharing (do moveTo m.stop; return m.node : Parser Arena NodeId) q c a Arena.Shows := by
  obtain ⟨kept, c', s', place, seen', start', read⟩ := stands.valid.recalls hs m hm
  have hread : Reads .tag c (.node (a.view m.node)) m.stop := by
    cases hs : c.sight? with
    | some s =>
      have hpos : s'.start.pos = s.start.pos := by
        rw [start', start, Cursor.nextStart, hs]
        rfl
      exact read.tag_moved seen' hs (Cursor.eq_of_pos_eq (place.trans (Cursor.before_start seen'))
        (stands.place.trans (Cursor.before_start hs)) hpos)
    | none =>
      exfalso
      have hend : s'.start.pos = c'.sourceEnd := by
        rw [start', start, Cursor.nextStart, hs, place.sourceEnd, ← stands.place.sourceEnd]
        rfl
      have hlt := Cursor.start_lt_stop seen'
      have hstop := (Cursor.before_stop seen').sourceEnd
      unfold Cursor.sourceEnd at hend hstop
      omega
  have place := stands.place.trans (hread.moves trivial : c.Past m.stop).1
  rcases hq hread with h | h
  · unfold Matches
    rw [h]
    trivial
  · unfold Matches
    rw [h]
    refine ⟨m.node, a, rfl, ⟨place, stands.valid⟩, .refl _, fun id hid => ?_, rfl⟩
    rw [List.mem_singleton.1 hid]
    exact Nat.lt_of_lt_of_le kept (stands.valid.kept_le hs)

section

variable {n : Nat} {ends opened : List Punctuator} {before : Option Token} {text : List Char} {s : Sight}
  {token : Token} {l : Listing}
  (ih : ∀ phrase c a, phrase.Ready c → Stands source sharing c a → Alike source sharing n phrase c a)

include ih

theorem alike_expression (stands : Stands source sharing c a) :
    Alike source sharing (n + 1) (.expression ends) c a := by
  refine .here (.step rfl rfl ((ih .structured c a trivial stands).bind_base ?_))
  intro x y d b stands' hext hR
  have valid := stands'.valid.cut a.nodes.size
  have kept := ih (.kept ends) c _ trivial ⟨stands.place, valid⟩
  have base := Arena.extends_cut sharing hext
  rw [run_bind_ok (run_here _), run_bind_ok (run_here _)]
  cases hR with
  | none => exact kept.base base
  | some hR =>
    cases hd : d.endsAt ends with
    | true =>
      simp only
      exact ⟨_, b, rfl, stands', hext, hR⟩
    | false =>
      simp only
      exact kept.base base

theorem alike_inner (stands : Stands source sharing c a) :
    Alike source sharing (n + 1) (.inner ends) c a := by
  refine .here ?_
  split
  · exact .pure stands .none
  · exact (ih (.expression ends) c a trivial stands).bind fun x y d b stands _ h =>
      .pure stands (.some h)

theorem alike_structured (stands : Stands source sharing c a) :
    Alike source sharing (n + 1) .structured c a := by
  refine .peek fun o seen => ?_
  cases o with
  | none => exact .pure stands .none
  | some s =>
    have hs : Stands source sharing s.stop a := ⟨stands.place.trans (Cursor.past_stop seen).1, stands.valid⟩
    have leaf {kind : NodeKind NodeId} {kind' : NodeKind Shape} (h : a.ShowsKind kind kind') :
        Matches source sharing (do return some (← leaf (stored sharing) s kind))
          (do return some (← leaf nested s kind')) c a fun b => Option.Rel b.Shows :=
      (matches_leaf hs h).bind fun x y d b stands _ h => .pure stands (.some h)
    cases ht : s.token with
    | none =>
      simp only [ht]
      exact .pure stands .none
    | some token =>
      simp only [ht]
      cases token with
      | number raw => exact .readNumber fun value => leaf ⟨.nil a, rfl⟩
      | punctuator mark =>
        cases mark with
        | less =>
          exact (ih .markup c a trivial stands).bind fun x y d b stands _ h => .pure stands (.some h)
        | minus => exact matches_negativeNumber hs
        | openParen => exact ih (.parenthesized s) c a seen stands
        | openBrace | openBracket =>
          refine .moveTo ((ih (.items _) s.stop a trivial hs).bind fun x y d b stands _ h => ?_)
          cases h with
          | none => exact .pure stands .none
          | some h =>
            exact (Matches.allocFrom stands (h.listing _)).bind fun x y d b stands _ h =>
              .pure stands (.some h)
        | _ => exact .pure stands .none
      | template raw => exact .pure stands .none
      | keyword word =>
        cases word with
        | «return» => exact .pure stands .none
        | _ => exact leaf ⟨.nil a, rfl⟩
      | _ => exact leaf ⟨.nil a, rfl⟩

theorem alike_parenthesized (ready : Phrase.Ready (.parenthesized s) c) (stands : Stands source sharing c a) :
    Alike source sharing (n + 1) (.parenthesized s) c a := by
  have hs : Stands source sharing s.stop a :=
    ⟨stands.place.trans (Cursor.past_stop ready).1, stands.valid⟩
  refine .moveTo ((ih (.inner [.closeParen]) s.stop a trivial hs).bind
    fun x y d b stands _ h => ?_)
  cases h with
  | none => exact .pure stands .none
  | some inside =>
    refine .accept stands (fun t _ stands => ?_) fun _ => .pure stands .none
    exact (Matches.allocFrom stands inside.parenthesized).bind fun x y f b stands _ h =>
      .pure stands (.some h)

theorem alike_items (stands : Stands source sharing c a) : Alike source sharing (n + 1) (.items l) c a := by
  refine .peek fun o seen => ?_
  cases o with
  | none => exact .pure stands .none
  | some s =>
    have hs : Stands source sharing s.stop a := ⟨stands.place.trans (Cursor.past_stop seen).1, stands.valid⟩
    cases ht : s.token with
    | none =>
      simp only [ht]
      exact .pure stands .none
    | some token =>
      simp only [ht]
      split
      · exact .moveTo (.pure hs (.some (.nil a)))
      · refine (ih (.item l s token) c a ⟨seen, ht⟩ stands).bind fun x y d b stands _ h => ?_
        cases h with
        | none => exact .pure stands .none
        | some first =>
          refine .acceptSeparator stands (fun f stands => ?_) (.pure stands .none)
          refine (ih (.items l) f b trivial stands).bind fun x y g b' stands' hext h => ?_
          cases h with
          | none => exact .pure stands' .none
          | some others => exact .pure stands' (.some (.cons (first.extends stands.valid hext) others))

theorem alike_item (ready : Phrase.Ready (.item l s token) c) (stands : Stands source sharing c a) :
    Alike source sharing (n + 1) (.item l s token) c a := by
  have hs : Stands source sharing s.stop a :=
    ⟨stands.place.trans (Cursor.past_stop ready.1).1, stands.valid⟩
  unfold Alike
  simp only [item]
  split
  · refine .moveTo ((ih (.inner l.ends) s.stop a trivial hs).bind fun x y d b stands _ h => ?_)
    cases h with
    | none => exact .pure stands .none
    | some argument =>
      exact (Matches.allocFrom stands argument.spread).bind fun x y f b stands _ h =>
        .pure stands (.some h)
  · cases l with
    | array => exact ih (.inner Listing.array.ends) c a trivial stands
    | object => exact ih (.property s token) c a ready stands

theorem alike_property (ready : (Phrase.property s token).Ready c)
    (stands : Stands source sharing c a) : Alike source sharing (n + 1) (.property s token) c a := by
  refine (ih (.key s token) c a ready stands).bind fun x y d b stands _ h => ?_
  cases h with
  | none => exact .pure stands .none
  | @some k k' key =>
    refine .accept stands (fun t _ stands' => ?_) fun _ => ?_
    · refine (ih (.inner Listing.object.ends) t.stop b trivial stands').bind
        fun x y f b' stands' hext h => ?_
      cases h with
      | none => exact .pure stands' .none
      | some value =>
        refine (Matches.allocFrom stands' ((key.extends stands.valid hext).property value false)).bind
          fun x y g b'' stands _ h => .pure stands (.some h)
    · obtain ⟨_, rfl⟩ := key
      cases k with
      | identifier name =>
        refine .here ?_
        split
        · refine (Matches.alloc stands (.identifier name)).bind fun x y f b' stands' _ h => ?_
          have key : b'.ShowsKey (.identifier name) (.identifier name) := .plain rfl
          exact (Matches.allocFrom stands' (key.property h true)).bind fun x y g b'' stands _ h =>
            .pure stands (.some h)
        · exact .pure stands .none
      | literal value raw => exact .pure stands .none
      | computed e => exact .pure stands .none

theorem alike_key (ready : (Phrase.key s token).Ready c)
    (stands : Stands source sharing c a) : Alike source sharing (n + 1) (.key s token) c a := by
  have hs : Stands source sharing s.stop a :=
    ⟨stands.place.trans (Cursor.past_stop ready.1).1, stands.valid⟩
  cases token with
  | number raw =>
    exact .readNumber fun value => .moveTo (.pure hs (.some (.plain rfl)))
  | punctuator mark =>
    cases mark with
    | openBracket =>
      refine .moveTo ((ih (.inner [.closeBracket]) s.stop a trivial hs).bind
        fun x y d b stands _ h => ?_)
      cases h with
      | none => exact .pure stands .none
      | some inside =>
        exact .accept stands (fun t _ stands => .pure stands (.some inside.computed))
          fun _ => .pure stands .none
    | _ => exact .pure stands .none
  | template raw => exact .pure stands .none
  | _ => exact .moveTo (.pure hs (.some (.plain rfl)))

theorem alike_kept (stands : Stands source sharing c a) : Alike source sharing (n + 1) (.kept ends) c a := by
  refine .peek fun o seen => ?_
  cases o with
  | none => rfl
  | some s =>
    have hs : Stands source sharing s.start a :=
      ⟨stands.place.trans (Cursor.before_start seen), stands.valid⟩
    refine .moveTo ((ih (.parts ends [] none []) s.start a trivial hs).bind
      fun x y d b stands _ parts => ?_)
    have hempty : x.isEmpty = y.isEmpty := by
      rw [← parts.2, List.isEmpty_map]
    rw [hempty]
    split
    · exact .peek fun o _ => .refuseSight _ _
    · exact .allocFrom stands parts.opaqueText

theorem alike_parts (stands : Stands source sharing c a) :
    Alike source sharing (n + 1) (.parts ends opened before text) c a := by
  refine .peek fun o seen => ?_
  cases o with
  | none => exact .pure stands (Arena.showsParts_source text)
  | some s =>
    have hs : Stands source sharing s.stop a := ⟨stands.place.trans (Cursor.past_stop seen).1, stands.valid⟩
    simp only
    cases keptStep ends opened before s with
    | stop => exact .pure stands (Arena.showsParts_source text)
    | take opened' => exact .moveTo (ih (.parts ends opened' s.token _) s.stop a trivial hs)
    | markup =>
      refine (ih .markup c a trivial stands).bind fun x y d b stands _ node => ?_
      refine (ih (.parts ends opened _ []) d b trivial stands).bind
        fun others others' f b' stands' hext more => ?_
      exact .pure stands' ((Arena.showsParts_source _).append
        ((node.extends stands.valid hext).part.append more))

theorem alike_markup (stands : Stands source sharing c a) :
    Alike source sharing (n + 1) .markup c a := by
  have run : rememberedAt? (stored sharing) c.nextStart ⟨c, a⟩ =
      .ok ((stored sharing).recalled? c.nextStart a, ⟨c, a⟩) := rfl
  refine .here ?_
  cases hr : (stored sharing).recalled? c.nextStart a with
  | some m =>
    rw [hr] at run
    obtain ⟨hs, hm, start⟩ := Arena.recalled?_eq_some hr
    refine .step run rfl (matches_recalled stands hs hm start fun read => ?_)
    exact (read.gives n : Settles _ _ _ _).bind (.step rfl (.pure _))
  | none =>
    rw [hr] at run
    refine .step run rfl (.bind_found (sound n .tag c trivial) (ih .tag c a trivial stands) ?_)
    intro x y d b read stands' hext hR
    have valid : ((stored sharing).remember ⟨c.nextStart, x, d⟩ b).Valid source sharing := by
      obtain ⟨s, seen, start⟩ := read.tag_seen
      refine stands'.valid.remember (hR.1 x (List.mem_singleton.2 rfl)) ⟨c, s, stands.place, seen, start, ?_⟩
      rw [hR.2]
      exact read
    exact ⟨x, _, rfl, ⟨stands'.place, valid⟩, hext, hR⟩

theorem alike_tag (stands : Stands source sharing c a) : Alike source sharing (n + 1) .tag c a := by
  refine .expect stands fun s _ stands => .accept stands (fun t _ stands => ?_) fun _ => ?_
  · refine (ih .children t.stop a trivial stands).bind fun inside inside' d b stands _ children => ?_
    refine (matches_closeFragment stands).bind fun _ _ f b' stands' hext _ => ?_
    exact .allocFrom stands' (children.extends stands.valid hext).fragment
  · refine (matches_elementName n stands).bind ?_
    rintro name _ d b stands _ rfl
    refine (ih .attributes d b trivial stands).bind ?_
    rintro ⟨found, closed⟩ ⟨found', closed'⟩ f b stands _ ⟨attributes, hclosed⟩
    cases hclosed
    cases closed with
    | true => exact .allocFrom stands (attributes.element (.nil b) name true)
    | false =>
      refine (ih .children f b trivial stands).bind fun inside inside' g b' stands' hext children => ?_
      have attributes := attributes.extends stands.valid hext
      refine (matches_closeElement n name stands').bind fun _ _ k b'' stands'' hext' _ => ?_
      exact .allocFrom stands'' ((attributes.extends stands'.valid hext').element
        (children.extends stands'.valid hext') name false)

theorem alike_named (stands : Stands source sharing c a) :
    Matches source sharing
      (do
        let first ← namedAttribute (stored sharing) n
        let (others, selfClosing) ← attributes (stored sharing) n
        return (first :: others, selfClosing))
      (do
        let first ← namedAttribute nested n
        let (others, selfClosing) ← attributes nested n
        return (first :: others, selfClosing)) c a
      fun b x y => b.ShowsAll x.1 y.1 ∧ x.2 = y.2 := by
  refine (ih .namedAttribute c a trivial stands).bind fun x y d b stands _ first => ?_
  refine (ih .attributes d b trivial stands).bind fun others others' f b' stands' hext more => ?_
  exact .pure stands' ⟨.cons (first.extends stands.valid hext) more.1, more.2⟩

theorem alike_attributes (stands : Stands source sharing c a) :
    Alike source sharing (n + 1) .attributes c a := by
  refine .peek fun o seen => ?_
  cases o with
  | none => rfl
  | some s =>
    have hs : Stands source sharing s.stop a := ⟨stands.place.trans (Cursor.past_stop seen).1, stands.valid⟩
    cases ht : s.token with
    | none =>
      simp only [ht]
      exact .refuseSight _ _
    | some token =>
      simp only [ht]
      cases token with
      | punctuator mark =>
        cases mark with
        | slash => exact .moveTo (.expect hs fun t _ stands => .pure stands ⟨.nil a, rfl⟩)
        | greater => exact .moveTo (.pure hs ⟨.nil a, rfl⟩)
        | openBrace =>
          refine (ih .spreadAttribute c a trivial stands).bind fun x y d b stands _ first => ?_
          refine (ih .attributes d b trivial stands).bind fun others others' f b' stands' hext more => ?_
          exact .pure stands' ⟨.cons (first.extends stands.valid hext) more.1, more.2⟩
        | _ => exact .refuseSight _ (some s)
      | identifier name => exact alike_named ih stands
      | keyword word => exact alike_named ih stands
      | _ => exact .refuseSight _ (some s)

theorem alike_spreadAttribute (stands : Stands source sharing c a) :
    Alike source sharing (n + 1) .spreadAttribute c a := by
  refine .expect stands fun s _ stands => .expect stands fun t _ stands => ?_
  refine (ih (.expression [.closeBrace]) t.stop a trivial stands).bind
    fun x y d b stands _ argument => ?_
  exact .expect stands fun u _ stands => .allocFrom stands argument.spreadAttribute

theorem alike_namedAttribute (stands : Stands source sharing c a) :
    Alike source sharing (n + 1) .namedAttribute c a := by
  refine .here ((matches_attributeName stands).bind ?_)
  rintro name _ d b stands _ rfl
  refine .accept stands (fun s _ stands => ?_) fun _ => .allocFrom stands (.namedAttribute_none name)
  have hs : Stands source sharing s.stop.skipBlanks b :=
    ⟨stands.place.trans (Cursor.before_skipBlanks _), stands.valid⟩
  exact .here (.moveTo ((ih .value _ b trivial hs).bind fun x y f b stands _ value =>
    .allocFrom stands (value.namedAttribute name)))

theorem alike_value (stands : Stands source sharing c a) : Alike source sharing (n + 1) .value c a := by
  refine .here ?_
  cases hc : c.rest with
  | nil => rfl
  | cons x rest =>
    simp only
    split
    · exact matches_attributeString hc stands
    · split
      · refine .expect stands fun s _ stands => .step (run_sees _ _) (run_sees _ _) ?_
        cases (s.stop.mark? .closeBrace).isSome with
        | true => exact .here (.refuse _)
        | false =>
          refine (ih (.expression [.closeBrace]) s.stop a trivial stands).bind
            fun x y d b stands _ inside => ?_
          exact .expect stands fun t _ stands => .allocFrom stands inside.expressionContainer
      · split
        · exact ih .markup c a trivial stands
        · refine .here ?_
          cases c.sight? <;> rfl

theorem alike_children (stands : Stands source sharing c a) : Alike source sharing (n + 1) .children c a := by
  refine (matches_textChild stands).bind fun front front' d b stands _ text => .here ?_
  have child {p : Parser Arena NodeId} {q : Parser Unit Shape} (h : Matches source sharing p q d b Arena.Shows) :
      Matches source sharing
        (do
          let first ← p
          let others ← children (stored sharing) n
          return front ++ first :: others)
        (do
          let first ← q
          let others ← children nested n
          return front' ++ first :: others) d b Arena.ShowsAll := by
    refine h.bind fun x y f b' stands' hext first => ?_
    refine (ih .children f b' trivial stands').bind fun others others' g b'' stands'' hext' more => ?_
    have text := (text.extends stands.valid hext).extends stands'.valid hext'
    exact .pure stands'' (text.append (.cons (first.extends stands'.valid hext') more))
  cases hd : d.rest with
  | nil => rfl
  | cons x rest =>
    simp only
    split
    · exact child (ih .container d b trivial stands)
    · split
      · exact .pure stands text
      · exact child (ih .markup d b trivial stands)

theorem alike_container (stands : Stands source sharing c a) :
    Alike source sharing (n + 1) .container c a := by
  refine .expect stands fun s _ stands => .accept stands (fun t _ stands => ?_) fun _ => ?_
  · exact .allocFrom stands .expressionContainer_none
  · refine (ih .spreadOrExpression s.stop a trivial stands).bind fun x y d b stands _ inside => ?_
    exact .expect stands fun t _ stands => .allocFrom stands inside.expressionContainer

theorem alike_spreadOrExpression (stands : Stands source sharing c a) :
    Alike source sharing (n + 1) .spreadOrExpression c a := by
  refine .here ?_
  cases hm : c.mark? .ellipsis with
  | none => exact ih (.expression [.closeBrace]) c a trivial stands
  | some s =>
    have hs : Stands source sharing s.stop a :=
      ⟨stands.place.trans (Cursor.past_mark hm).1, stands.valid⟩
    exact .moveTo ((ih (.expression [.closeBrace]) s.stop a trivial hs).bind
      fun x y d b stands _ argument => .allocFrom stands argument.spread)

theorem alike_statements (stands : Stands source sharing c a) :
    Alike source sharing (n + 1) .statements c a := by
  refine .peek fun o seen => ?_
  cases o with
  | none => exact .pure stands (.nil a)
  | some s =>
    have hs : Stands source sharing s.stop a :=
      ⟨stands.place.trans (Cursor.past_stop seen).1, stands.valid⟩
    simp only
    split
    · exact .moveTo (ih .statements s.stop a trivial hs)
    · refine (ih (.expression [.semicolon]) c a trivial stands).bind fun x y d b stands _ h => ?_
      refine (Matches.allocFrom stands h.expressionStatement).bind fun x y f b' stands' _ first => ?_
      refine (ih .statements f b' trivial stands').bind
        fun others others' g b'' stands'' hext more => ?_
      exact .pure stands'' (.cons (first.extends stands'.valid hext) more)

end

theorem alike (n : Nat) (phrase : Phrase) (ready : phrase.Ready c) (stands : Stands source sharing c a) :
    Alike source sharing n phrase c a := by
  induction n generalizing phrase c a with
  | zero => cases phrase <;> trivial
  | succ n ih =>
    replace ih : ∀ phrase c a, phrase.Ready c → Stands source sharing c a →
      Alike source sharing n phrase c a := fun phrase c a ready stands => ih phrase ready stands
    cases phrase with
    | expression ends => exact alike_expression ih stands
    | inner ends => exact alike_inner ih stands
    | structured => exact alike_structured ih stands
    | parenthesized s => exact alike_parenthesized ih ready stands
    | items l => exact alike_items ih stands
    | item l s token => exact alike_item ih ready stands
    | property s token => exact alike_property ih ready stands
    | key s token => exact alike_key ih ready stands
    | kept ends => exact alike_kept ih stands
    | parts ends opened before text => exact alike_parts ih stands
    | markup => exact alike_markup ih stands
    | tag => exact alike_tag ih stands
    | attributes => exact alike_attributes ih stands
    | spreadAttribute => exact alike_spreadAttribute ih stands
    | namedAttribute => exact alike_namedAttribute ih stands
    | value => exact alike_value ih stands
    | children => exact alike_children ih stands
    | container => exact alike_container ih stands
    | spreadOrExpression => exact alike_spreadOrExpression ih stands
    | statements => exact alike_statements ih stands

theorem matches_program (n : Nat) (stands : Stands source sharing c a) :
    Matches source sharing (program (stored sharing) n) (program nested n) c a Arena.Shows :=
  (alike n .statements trivial stands : Matches source sharing (statements (stored sharing) n) _ c a _).bind
    fun _ _ _ _ stands _ body => .here (.alloc stands body.program)

def programOf (source : List Char) (body : List Shape) : Shape :=
  shapeAt (.program body) 0 (byteLength source)

theorem program_nested (source : List Char) :
    (∃ error, program nested (depthFor source) ⟨⟨source, 0⟩, ()⟩ = .error (.refused error)) ∨
      ∃ body d, Reads .statements ⟨source, 0⟩ (.nodes body) d ∧
        program nested (depthFor source) ⟨⟨source, 0⟩, ()⟩ = .ok (programOf source body, ⟨d, ()⟩) := by
  have found := sound (depthFor source) .statements ⟨source, 0⟩ trivial
  obtain ⟨error, hr⟩ | ⟨body, d, hr, read⟩ := Finds.outcome found (by
    simp only [depthFor, Call.place, Call.rank, Phrase.rank]
    omega)
  · exact .inl ⟨error, run_bind_error hr⟩
  · refine .inr ⟨body, d, read, ?_⟩
    have hend : d.sourceEnd = byteLength source := by
      rw [Cursor.Before.sourceEnd (read.moves trivial), Cursor.sourceEnd, Nat.zero_add]
    rw [program, run_bind_ok hr, run_bind_ok (run_here _), programOf, ← hend]
    rfl

theorem parseWith_agrees (sharing : Bool) (source : List Char) :
    match program nested (depthFor source) ⟨⟨source, 0⟩, ()⟩ with
    | .error .exhausted => True
    | .error (.refused error) => parseWith sharing source = .error error
    | .ok (shape, _) => ∃ t, parseWith sharing source = .ok t ∧ t.Descending ∧
        t.root.index < t.size ∧ t.shape t.root = shape := by
  have stands : Stands ⟨source, 0⟩ sharing ⟨source, 0⟩ ⟨#[], [], 0⟩ := ⟨.refl _, .empty _ _⟩
  have agrees := matches_program (depthFor source) stands
  unfold Matches at agrees
  rcases hr : program nested (depthFor source) ⟨⟨source, 0⟩, ()⟩ with (error | _) | ⟨shape, d, _⟩ <;>
    rw [hr] at agrees
  · exact congrArg (outcome source) agrees
  · trivial
  · obtain ⟨root, b, run, stands, _, held, view⟩ := agrees
    have hroot : root.index < b.tree.size := held root (List.mem_singleton.2 rfl)
    refine ⟨⟨b.nodes, root⟩, congrArg (outcome source) run, stands.valid.descending, hroot, ?_⟩
    rw [← view]
    exact Tree.shape_extends stands.valid.descending (.refl _) hroot

end Parser

open MarkupEditor.Parser

/-- What is remembered does not show: with sharing and without it, a source is refused with the same
error, or the two trees have the same nested form, spans included. -/
theorem parseWith_sharing (source : List Char) :
    (parseWith true source).map (fun t => t.shape t.root) =
      (parseWith false source).map fun t => t.shape t.root := by
  have shared := parseWith_agrees true source
  have plain := parseWith_agrees false source
  rcases program_nested source with ⟨error, hr⟩ | ⟨body, d, _, hr⟩ <;> rw [hr] at shared plain
  · rw [shared, plain]
  · obtain ⟨t, ht, _, _, hshape⟩ := shared
    obtain ⟨u, hu, _, _, hshape'⟩ := plain
    rw [ht, hu]
    exact congrArg Except.ok (hshape.trans hshape'.symm)

end MarkupEditor
