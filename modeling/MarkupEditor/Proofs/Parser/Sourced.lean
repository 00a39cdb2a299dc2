import MarkupEditor.Proofs.Parser.Layout
import MarkupEditor.Proofs.Parser.Stored
import MarkupEditor.Proofs.Printer.Spellings

set_option autoImplicit false

namespace MarkupEditor

open Text Lexer

theorem Lexeme.first_token {c : Char} {cs skipped text rest : List Char} {token : Token}
    (h : first skipped c cs = ⟨skipped, some token, text, rest⟩) : token.text.toList = text := by
  have mark {m : Punctuator} (hm : token = .punctuator m) : token.text.toList = text := by
    subst hm
    exact (first_mark h).symm
  unfold first at h
  split at h
  · obtain ⟨-, htoken, rfl, -⟩ := Lexeme.mk.inj h
    rw [← Option.some.inj htoken, identifierToken_text, String.toList_ofList]
  · split at h
    · cases h
      exact String.toList_ofList
    · split at h
      · obtain ⟨-, htoken, rfl, -⟩ := Lexeme.mk.inj h
        split at htoken
        · cases htoken
          split <;> exact String.toList_ofList
        · cases htoken
      · split at h
        · cases h
        · split at h
          · cases h
            exact mark rfl
          · cases h

namespace Cursor

variable {c d e : Cursor} {s : Sight}

theorem text_of_token {token : Token} (h : c.sight? = some s) (htoken : s.token = some token) :
    token.text = String.ofList s.text := by
  obtain ⟨x, cs, -, hfirst⟩ := sight?_first h
  rw [htoken] at hfirst
  rw [← Lexeme.first_token hfirst, String.ofList_toList]

theorem Over.before {text : List Char} (h : c.Over text d) : c.Before d :=
  ⟨text, h⟩

theorem Before.of_pos_le (hd : c.Before d) (he : c.Before e) (h : d.pos ≤ e.pos) : d.Before e := by
  obtain ⟨a, ha, hp⟩ := hd
  obtain ⟨b, hb, hq⟩ := he
  rw [ha] at hb
  rcases List.append_eq_append_iff.1 hb with ⟨t, rfl, hrest⟩ | ⟨t, rfl, hrest⟩
  · rw [byteLength_append] at hq
    exact ⟨t, hrest, by omega⟩
  · rw [byteLength_append] at hp
    have ht := @eq_nil_of_byteLength_eq_zero t (by omega)
    subst ht
    exact ⟨[], hrest.symm, by simp only [byteLength_nil] at *; omega⟩

end Cursor

namespace Parser

variable {source c d e : Cursor} {s : Sight}

/-- The parts are the text between two places, cut at the markup in it. -/
inductive PartsOver : Cursor → List (OpaquePart Shape) → Cursor → Prop where
  | nil (c : Cursor) : PartsOver c [] c
  | source {c d e : Cursor} {text : List Char} {parts : List (OpaquePart Shape)} (across : c.Over text d)
    (more : PartsOver d parts e) : PartsOver c (.source (String.ofList text) :: parts) e
  | node {c d e : Cursor} {kind : NodeKind Shape} {parts : List (OpaquePart Shape)} (across : c.Before d)
    (more : PartsOver d parts e) : PartsOver c (.node (shapeAt kind c.pos d.pos) :: parts) e

/-- What a node keeps of the text between two places, or what it is read from there. -/
def Spells (c d : Cursor) (text : List Char) (kind : NodeKind Shape) : Prop :=
  match kind with
  | .text _ raw | .literal _ raw => raw = some (String.ofList text)
  | .identifier name => name = String.ofList text
  | .opaqueText parts => PartsOver c parts d
  | .element .. | .fragment _ => Reads .tag c (.node (shapeAt kind c.pos d.pos)) d
  | _ => True

/-- The node and all below it stand between two places of the source and keep what stands there. -/
inductive Sourced (source : Cursor) : Shape → Prop where
  | node {c d : Cursor} {text : List Char} {kind : NodeKind Shape} (place : source.Before c)
    (across : c.Over text d) (spelled : Spells c d text kind)
    (below : ∀ e ∈ kind.children, Sourced source e) : Sourced source (shapeAt kind c.pos d.pos)

theorem Sourced.begun {kind : NodeKind Shape} (place : source.Before c) (seen : c.sight? = some s)
    (after : s.stop.Before d) (plain : ∀ text, Spells s.start d text kind)
    (below : ∀ e ∈ kind.children, Sourced source e) :
    Sourced source (shapeAt kind s.start.pos d.pos) := by
  obtain ⟨text, across⟩ := (Cursor.sight?_over seen).2.before.trans after
  exact .node (place.trans (Cursor.before_start seen)) across (plain text) below

theorem Sourced.lexeme {kind : NodeKind Shape} (place : source.Before c) (seen : c.sight? = some s)
    (spelled : Spells s.start s.stop s.text kind) (leaf : kind.children = []) :
    Sourced source (.node (some s.span) kind) := by
  refine .node (place.trans (Cursor.before_start seen)) (Cursor.sight?_over seen).2 spelled ?_
  rw [leaf]
  exact List.forall_mem_nil _

theorem PartsOver.sourcePart {text : List Char} {parts : List (OpaquePart Shape)} (across : c.Over text d)
    (more : PartsOver d parts e) : PartsOver c (sourcePart text ++ parts) e := by
  unfold Parser.sourcePart
  split
  · rename_i empty
    cases List.isEmpty_iff.1 empty
    cases across.nil
    exact more
  · exact .source across more

theorem LeafOf.spells {token : Token} {kind : NodeKind Shape} (h : LeafOf token kind)
    (seen : c.sight? = some s) (htoken : s.token = some token) : Spells s.start s.stop s.text kind := by
  have text := Cursor.text_of_token seen htoken
  cases h with
  | number h => exact congrArg some text
  | plain h =>
    cases token with
    | keyword word => cases word <;> cases h <;> exact congrArg some text
    | identifier name => cases h; exact text
    | string raw => cases h; exact congrArg some text
    | _ => cases h

theorem KeyOf.text {token : Token} {name : String} (h : KeyOf token (.identifier name)) :
    token.text = name := by
  cases h with
  | plain h => cases token <;> cases h <;> rfl

theorem Reads.tag_span {shape : Shape} (h : Reads .tag c (.node shape) d) :
    ∃ s kind, c.sight? = some s ∧ shape = shapeAt kind s.start.pos d.pos ∧ s.start.Before d ∧
      ∀ text, Spells s.start d text kind := by
  obtain ⟨s, less⟩ : ∃ s, c.mark? .less = some s := by cases h <;> exact ⟨_, ‹_›⟩
  have seen := (Cursor.mark?_eq_some.1 less).1
  have moved := h.tag_moved seen (Cursor.sight?_start seen) rfl
  have along : s.start.Before d := (moved.moves trivial).before
  have starts {s' : Sight} (h : c.mark? .less = some s') : s'.start.pos = s.start.pos := by
    rw [less] at h
    cases h
    rfl
  refine ⟨s, ?_⟩
  cases h with
  | fragment less' greater read close =>
    rw [starts less'] at moved ⊢
    exact ⟨_, seen, rfl, along, fun _ => moved⟩
  | selfClosing less' named read found =>
    rw [starts less'] at moved ⊢
    exact ⟨_, seen, rfl, along, fun _ => moved⟩
  | tag less' named read found inside close =>
    rw [starts less'] at moved ⊢
    exact ⟨_, seen, rfl, along, fun _ => moved⟩

theorem Sourced.tag {start stop : Nat} {kind : NodeKind Shape}
    (h : Reads .tag c (.node (shapeAt kind start stop)) d) (place : source.Before c)
    (below : ∀ e ∈ kind.children, Sourced source e) : Sourced source (shapeAt kind start stop) := by
  obtain ⟨s, kind', seen, same, along, spelled⟩ := h.tag_span
  cases same
  obtain ⟨text, across⟩ := along
  exact .node (place.trans (Cursor.before_start seen)) across (spelled text) below

theorem Reads.parts_over {ends opened : List Punctuator} {before : Option Token} {text : List Char}
    {found : List (OpaquePart Shape)} (h : Reads (.parts ends opened before text) c (.parts found) d)
    {start : Cursor} (across : start.Over text c) : PartsOver start found d := by
  generalize hphrase : Phrase.parts ends opened before text = phrase at h
  generalize hanswer : Answer.parts found = answer at h
  induction h generalizing opened before text found start with
  | partsEnd | partsStop =>
    cases hphrase
    cases hanswer
    have := PartsOver.sourcePart across (.nil _)
    rwa [List.append_nil] at this
  | @partsTake _ _ _ _ _ _ _ s _ seen step read ih =>
    cases hphrase
    cases hanswer
    obtain ⟨skipped, inside⟩ := Cursor.sight?_over seen
    exact ih ((across.trans skipped).trans inside) rfl rfl
  | @partsMarkup _ _ _ _ _ d _ s e others seen step read more _ ih =>
    cases hphrase
    cases hanswer
    cases read with
    | markup read =>
      obtain ⟨s', kind, seen', rfl, inside, -⟩ := read.tag_span
      rw [seen] at seen'
      cases seen'
      obtain ⟨skipped, -⟩ := Cursor.sight?_over seen
      exact .sourcePart (across.trans skipped) (.node inside (ih (.refl d) rfl rfl))
  | _ => cases hphrase

theorem ReadsText.sourced {front : List Shape} (h : ReadsText c front d) (place : source.Before c) :
    ∀ e ∈ front, Sourced source e := by
  cases h with
  | empty h => exact List.forall_mem_nil _
  | text h clean stop =>
    subst stop
    refine List.forall_mem_singleton.2 (.node place ⟨?_, rfl⟩ rfl (List.forall_mem_nil _))
    exact textRun_append _

theorem Reads.key_after {token : Token} {k : PropertyKey Shape} (h : Reads (.key s token) c (.key k) d) :
    s.stop.Before d := by
  cases h with
  | key made => exact .refl _
  | computed read closing => exact (read.moves trivial).before.trans (Cursor.past_mark closing).1

theorem ReadsAttributeName.sight {name : String} (h : ReadsAttributeName c name d) :
    ∃ s, c.sight? = some s ∧ c.nextStart = s.start.pos ∧ s.stop.Before d := by
  have next {s : Sight} (seen : c.sight? = some s) : c.nextStart = s.start.pos := (sight_pos seen).1
  cases h with
  | colon front colon back =>
    obtain ⟨seen, -⟩ := front
    exact ⟨_, seen, next seen, (Cursor.past_mark colon).1.trans back.past.1⟩
  | plain front plain =>
    obtain ⟨seen, -⟩ := front
    exact ⟨_, seen, next seen, .refl _⟩

section

variable {f : Cursor} {kind : NodeKind Shape} {mark : Punctuator}

theorem sourced_seen (seen : c.sight? = some s) (place : source.Before c) (front : s.stop.Before f)
    (after : f.Before d) (plain : ∀ text, Spells s.start d text kind)
    (below : source.Before f → ∀ e ∈ kind.children, Sourced source e) :
    ∀ e ∈ [shapeAt kind s.start.pos d.pos], Sourced source e :=
  List.forall_mem_singleton.2 (.begun place seen (front.trans after) plain
    (below ((place.trans (Cursor.before_stop seen)).trans front)))

theorem sourced_marked (opening : c.mark? mark = some s) (place : source.Before c) (after : s.stop.Before d)
    (plain : ∀ text, Spells s.start d text kind)
    (below : source.Before s.stop → ∀ e ∈ kind.children, Sourced source e) :
    ∀ e ∈ [shapeAt kind s.start.pos d.pos], Sourced source e :=
  sourced_seen (Cursor.mark?_eq_some.1 opening).1 place (.refl _) after plain below

theorem sourced_negative {n : Sight} {value : Binary64} (minus : c.mark? .minus = some s)
    (next : s.stop.sight? = some n) (place : source.Before c) :
    ∀ e ∈ [shapeAt (.literal (.number value) (some (negativeSpelling s n))) s.start.pos n.stop.pos],
      Sourced source e := by
  have seen := (Cursor.mark?_eq_some.1 minus).1
  obtain ⟨skipped, number⟩ := Cursor.sight?_over next
  exact List.forall_mem_singleton.2 (.node (place.trans (Cursor.before_start seen))
    (((Cursor.sight?_over seen).2.trans skipped).trans number) rfl (List.forall_mem_nil _))

theorem sourced_shorthand {token : Token} {name : String}
    (key : Reads (.key s token) c (.key (.identifier name)) d) (ready : (Phrase.property s token).Ready c)
    (place : source.Before c) :
    ∀ e ∈ [shapeAt (.property (.identifier name) (.node (some s.span) (.identifier name)) true)
      s.start.pos d.pos], Sourced source e := by
  cases key with
  | key made =>
    have value : Sourced source (.node (some s.span) (.identifier name)) :=
      .lexeme place ready.1 (made.text ▸ Cursor.text_of_token ready.1 ready.2) rfl
    exact sourced_seen ready.1 place (.refl _) (.refl _) (fun _ => trivial) fun _ =>
      List.forall_mem_singleton.2 value

theorem sourced_kept {marks : List Punctuator} {found : List (OpaquePart Shape)} (seen : c.sight? = some s)
    (read : Reads (.parts marks [] none []) s.start (.parts found) d) (place : source.Before c)
    (below : source.Before s.start → ∀ e ∈ found.filterMap (·.child?), Sourced source e) :
    ∀ e ∈ [shapeAt (.opaqueText found) s.start.pos d.pos], Sourced source e := by
  have start := place.trans (Cursor.before_start seen)
  obtain ⟨text, across⟩ := (read.moves trivial).before
  exact List.forall_mem_singleton.2 (.node start across (read.parts_over (.refl _)) (below start))

theorem sourced_string {quote close : Char} {body rest : List Char} {value : Literal}
    (h : c.rest = quote :: body) (closed : body.dropWhile (· != quote) = close :: rest)
    (stop : d = c.advance (quote :: body.takeWhile (· != quote) ++ [close]) rest) (place : source.Before c) :
    ∀ e ∈ [shapeAt (.literal value
      (some (String.ofList (quote :: body.takeWhile (· != quote) ++ [close])))) c.pos d.pos],
      Sourced source e := by
  subst stop
  refine List.forall_mem_singleton.2 (.node place ⟨?_, rfl⟩ rfl (List.forall_mem_nil _))
  have hbody := body.takeWhile_append_dropWhile (p := (· != quote))
  rw [closed] at hbody
  simp [h, Cursor.advance, hbody]

theorem sourced_cons {e : Shape} {others : List Shape} (first : ∀ x ∈ [e], Sourced source x)
    (more : ∀ x ∈ others, Sourced source x) : ∀ x ∈ e :: others, Sourced source x :=
  List.forall_mem_cons.2 ⟨List.forall_mem_singleton.1 first, more⟩

theorem sourced_statement {marks : List Punctuator} {e : Shape} (seen : c.sight? = some s)
    (read : Reads (.expression marks) c (.node e) d) (place : source.Before c)
    (below : ∀ x ∈ [e], Sourced source x) : Sourced source (shapeAt (.expressionStatement e) s.start.pos d.pos) := by
  have front : Laid c.nextStart [e] d.pos := read.laid_front trivial nofun
  have long : s.start.pos ≤ d.pos := (sight_pos seen).1 ▸ Nat.le_of_lt front.lt
  obtain ⟨text, across⟩ := (Cursor.before_start seen).of_pos_le (read.moves trivial).before long
  exact .node (place.trans (Cursor.before_start seen)) across trivial below

end

/-- Every node of a reading stands in the source, and so do the nodes below it. -/
theorem Reads.sourced {phrase : Phrase} {a : Answer} (h : Reads phrase c a d) (ready : phrase.Ready c)
    (place : source.Before c) : ∀ e ∈ a.shapes, Sourced source e := by
  induction h with
  | structuredExpression attempt ended ih => exact ih trivial place
  | keptOther attempt kept _ ih => exact ih trivial place
  | keptUnended attempt going kept _ ih => exact ih trivial place
  | innerSome going read ih => exact ih trivial place
  | leaf seen h made =>
    exact List.forall_mem_singleton.2 (.lexeme place seen (made.spells seen h) made.children)
  | negative minus next h read => exact sourced_negative minus next place
  | structuredMarkup seen read ih => exact ih trivial place
  | structuredParenthesized seen read ih => exact ih (Cursor.mark?_eq_some.1 seen).1 place
  | @listing c d s mark l found opening opens read ih =>
    refine sourced_marked opening place (read.moves trivial).before ?_ ?_
    · cases l <;> exact fun _ => trivial
    · cases l <;> exact ih trivial
  | parenthesized read closing ih =>
    have after := (read.moves trivial).before.trans (Cursor.past_mark closing).1
    exact sourced_seen ready place (.refl _) after (fun _ => trivial) (ih trivial)
  | itemsEnd h => exact List.forall_mem_nil _
  | @itemsCons l c d f g s token e others seen h going read separated more ih ih' =>
    have ready : (Phrase.item l s token).Ready c := ⟨seen, h⟩
    have after := (read.moves ready).before.trans (Cursor.before_separator separated)
    exact sourced_cons (ih ready place) (ih' trivial (place.trans after))
  | spread read ih =>
    exact sourced_seen ready.1 place (.refl _) (read.moves trivial).before (fun _ => trivial) (ih trivial)
  | element h read ih => exact ih trivial place
  | itemProperty h read ih => exact ih ready place
  | property key colon read ih ih' =>
    have keyed := key.key_after.trans (Cursor.past_mark colon).1
    have valued := place.trans ((key.moves ready).before.trans (Cursor.past_mark colon).1)
    exact sourced_seen ready.1 place keyed (read.moves trivial).before (fun _ => trivial) fun _ =>
      List.forall_mem_append.2 ⟨ih ready place, ih' trivial valued⟩
  | shorthand key plain ended => exact sourced_shorthand key ready place
  | @key c s token k made =>
    rw [Answer.shapes, made.children]
    exact List.forall_mem_nil _
  | computed read h ih => exact ih trivial (place.trans (Cursor.before_stop ready.1))
  | kept seen read h ih => exact sourced_kept seen read place (ih trivial)
  | partsEnd h =>
    rw [Answer.shapes, sourcePart_children]
    exact List.forall_mem_nil _
  | partsStop seen h =>
    rw [Answer.shapes, sourcePart_children]
    exact List.forall_mem_nil _
  | partsTake seen h read ih => exact ih trivial (place.trans (Cursor.before_stop seen))
  | partsMarkup seen h read more ih ih' =>
    rw [Answer.shapes, List.filterMap_append, sourcePart_children, List.nil_append]
    exact sourced_cons (ih trivial place) (ih' trivial (place.trans (read.moves trivial).before))
  | markup read ih => exact ih trivial place
  | fragment less greater read close ih =>
    have begun := (Cursor.past_mark greater).1
    have below := ih trivial (place.trans ((Cursor.past_mark less).1.trans begun))
    exact List.forall_mem_singleton.2 (.tag (.fragment less greater read close) place below)
  | selfClosing less named read found ih =>
    have after := (Cursor.past_mark less).1.trans read.past.1
    have below := ih trivial (place.trans after)
    refine List.forall_mem_singleton.2 (.tag (.selfClosing less named read found) place ?_)
    exact List.forall_mem_append.2 ⟨below, List.forall_mem_nil _⟩
  | tag less named read found inside close ih ih' =>
    have after := place.trans ((Cursor.past_mark less).1.trans read.past.1)
    refine List.forall_mem_singleton.2 (.tag (.tag less named read found inside close) place ?_)
    exact List.forall_mem_append.2
      ⟨ih trivial after, ih' trivial (after.trans (found.moves trivial).before)⟩
  | attributesSlash slash greater => exact List.forall_mem_nil _
  | attributesGreater greater => exact List.forall_mem_nil _
  | attributesSpread seen read more ih ih' =>
    exact sourced_cons (ih trivial place) (ih' trivial (place.trans (read.moves trivial).before))
  | attributesNamed seen named read more ih ih' =>
    exact sourced_cons (ih trivial place) (ih' trivial (place.trans (read.moves trivial).before))
  | spreadAttribute opening ellipsis read closing ih =>
    have dots := (Cursor.past_mark ellipsis).1
    have after := (read.moves trivial).before.trans (Cursor.past_mark closing).1
    exact sourced_seen (Cursor.mark?_eq_some.1 opening).1 place dots after (fun _ => trivial) (ih trivial)
  | namedValue named equals read ih =>
    obtain ⟨s, seen, next, after⟩ := named.sight
    have value := (Cursor.past_mark equals).1.trans (Cursor.before_skipBlanks _)
    rw [next]
    exact sourced_seen seen place (after.trans value) (read.moves trivial).before (fun _ => trivial) (ih trivial)
  | namedBare named plain =>
    obtain ⟨s, seen, next, after⟩ := named.sight
    rw [next]
    exact sourced_seen seen place (.refl _) after (fun _ => trivial) fun _ => List.forall_mem_nil _
  | valueString h quoted closed stop => exact sourced_string h closed stop place
  | valueContainer h opening filled read closing ih =>
    have after := (read.moves trivial).before.trans (Cursor.past_mark closing).1
    exact sourced_marked opening place after (fun _ => trivial) (ih trivial)
  | valueMarkup h read ih => exact ih trivial place
  | childrenEnd text h closing => exact text.sourced place
  | childrenContainer text h read more ih ih' =>
    have after := place.trans text.before
    have others := ih' trivial (after.trans (read.moves trivial).before)
    exact List.forall_mem_append.2 ⟨text.sourced place, sourced_cons (ih trivial after) others⟩
  | childrenMarkup text h opening read more ih ih' =>
    have after := place.trans text.before
    have others := ih' trivial (after.trans (read.moves trivial).before)
    exact List.forall_mem_append.2 ⟨text.sourced place, sourced_cons (ih trivial after) others⟩
  | containerEmpty opening closing =>
    exact sourced_marked opening place (Cursor.past_mark closing).1 (fun _ => trivial) fun _ =>
      List.forall_mem_nil _
  | container opening filled read closing ih =>
    have after := (read.moves trivial).before.trans (Cursor.past_mark closing).1
    exact sourced_marked opening place after (fun _ => trivial) (ih trivial)
  | containerSpread ellipsis read ih =>
    exact sourced_marked ellipsis place (read.moves trivial).before (fun _ => trivial) (ih trivial)
  | containerExpression plain read ih => exact ih trivial place
  | statementsEnd h => exact List.forall_mem_nil _
  | semicolon h more ih => exact ih trivial (place.trans (Cursor.past_mark h).1)
  | statement seen h read more ih ih' =>
    exact List.forall_mem_cons.2 ⟨sourced_statement seen read place (ih trivial place),
      ih' trivial (place.trans (read.moves trivial).before)⟩
  | _ => exact List.forall_mem_nil _

end Parser

end MarkupEditor
