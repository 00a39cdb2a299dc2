import MarkupEditor.Proofs.Printer.Excerpts
/-!
# Reading in a part of a text

A phrase that is read in a text is read in a part of it, too, if the part holds all that was seen for it. In a
kept text it has to be settled what an attempt at a structured expression comes to, as it may look past the
end of the part. There is one lemma for each way in which a phrase is read from others, and the induction
puts them together.
-/

set_option autoImplicit false

namespace MarkupEditor

open Text Lexer MarkupEditor.Parser

namespace Parser

variable {offset : Nat} {back : List Char} {c d f : Cursor} {s t : Sight} {e : Shape}

namespace Phrase.Recurs

section

variable {phrase : Phrase} {c' : Cursor} {es : List Shape}

theorem node (h : phrase.Recurs offset back (c'.embed offset back) (.node e) d)
    (ready : phrase.Ready (c'.embed offset back)) (held : phrase.Held back d)
    (settled : ∀ x ∈ (Answer.node e).shapes, x.Settled) : ∃ e' d',
      d = d'.embed offset back ∧ e = e'.shift offset ∧ Reads (phrase.at c') c' (.node e') d' := by
  obtain ⟨_, d', stop, shifted, read, -⟩ := h rfl ready trivial held settled
  cases shifted with
  | node e' => exact ⟨e', d', stop, rfl, read⟩

theorem nodes (h : phrase.Recurs offset back (c'.embed offset back) (.nodes es) d)
    (ready : phrase.Ready (c'.embed offset back)) (held : phrase.Held back d) (settled : ∀ x ∈ es, x.Settled) :
    ∃ es' d', d = d'.embed offset back ∧ es = es'.map (Shape.shift offset) ∧
      Reads (phrase.at c') c' (.nodes es') d' := by
  obtain ⟨_, d', stop, shifted, read, -⟩ := h rfl ready trivial held settled
  cases shifted with
  | nodes es' => exact ⟨es', d', stop, rfl, read⟩

theorem attributes {closed : Bool} (h : phrase.Recurs offset back (c'.embed offset back) (.attributes es closed) d)
    (ready : phrase.Ready (c'.embed offset back)) (held : phrase.Held back d) (settled : ∀ x ∈ es, x.Settled) :
    ∃ es' d', d = d'.embed offset back ∧ es = es'.map (Shape.shift offset) ∧
      Reads (phrase.at c') c' (.attributes es' closed) d' := by
  obtain ⟨_, d', stop, shifted, read, -⟩ := h rfl ready trivial held settled
  cases shifted with
  | attributes es' => exact ⟨es', d', stop, rfl, read⟩

theorem key {k : PropertyKey Shape} (h : phrase.Recurs offset back (c'.embed offset back) (.key k) d)
    (ready : phrase.Ready (c'.embed offset back)) (held : phrase.Held back d)
    (settled : ∀ x ∈ k.children, x.Settled) : ∃ k' d', d = d'.embed offset back ∧
      k = k'.map (Shape.shift offset) ∧ Reads (phrase.at c') c' (.key k') d' := by
  obtain ⟨_, d', stop, shifted, read, -⟩ := h rfl ready trivial held settled
  cases shifted with
  | key k' => exact ⟨k', d', stop, rfl, read⟩

end

theorem before_mark {phrase : Phrase} {c' : Cursor} {mark : Punctuator}
    (h : phrase.Recurs offset back (c'.embed offset back) (.node e) d) (ready : phrase.Ready (c'.embed offset back))
    (closing : d.mark? mark = some t) (spared : t.stop.Spares back)
    (held : d.Sees back → d.endsAt [mark] = true → phrase.Held back d)
    (settled : ∀ x ∈ (Answer.node e).shapes, x.Settled) :
    ∃ e' d' t', e = e'.shift offset ∧ t = t'.embed offset back ∧ Reads (phrase.at c') c' (.node e') d' ∧
      d'.mark? mark = some t' := by
  have held := held (.of_mark closing spared) (Cursor.endsAt_of_mark closing (List.mem_singleton.2 rfl))
  obtain ⟨e', d', rfl, rfl, read⟩ := h.node ready held settled
  obtain ⟨t', closing', rfl⟩ := Cursor.mark?_embed closing spared
  exact ⟨e', d', t', rfl, rfl, read, closing'⟩

/-! ### Expressions -/

section

variable {ends : List Punctuator}

theorem twinned {c' : Cursor} (h : (Phrase.kept ends).Recurs offset back (c'.embed offset back) (.node e) d)
    (held : (Phrase.kept ends).Held back d) (settled : ∀ x ∈ (Answer.node e).shapes, x.Settled) :
    ∃ e' d', d = d'.embed offset back ∧ e = e'.shift offset ∧ Reads (.kept ends) c' (.node e') d' ∧
      Printer.Twin ends [] [] none (c'.embed offset back) c' := by
  obtain ⟨_, d', stop, shifted, read, twin⟩ := h rfl trivial trivial held settled
  cases shifted with
  | node e' => exact ⟨e', d', stop, rfl, read, twin⟩

theorem keptOther (attempt : Reads .structured c .other d) (kept : Reads (.kept ends) c (.node e) f)
    (ih : (Phrase.kept ends).Recurs offset back c (.node e) f) :
    (Phrase.expression ends).Recurs offset back c (.node e) f := by
  rintro c' rfl - - held settled
  obtain ⟨e', f', rfl, rfl, kept', twin⟩ := ih.twinned held settled
  obtain ⟨_, attempt'⟩ :=
    (Printer.matched held.1 attempt).other (.structured twin (.inl rfl) fun _ => Printer.kept_going kept)
  exact ⟨_, f', rfl, .node e', .keptOther attempt' kept', trivial⟩

theorem keptUnended {e₀ : Shape} (attempt : Reads .structured c (.node e₀) d) (going : d.endsAt ends = false)
    (kept : Reads (.kept ends) c (.node e) f) (ih : (Phrase.kept ends).Recurs offset back c (.node e) f) :
    (Phrase.expression ends).Recurs offset back c (.node e) f := by
  rintro c' rfl - - held settled
  obtain ⟨e', f', rfl, rfl, kept', twin⟩ := ih.twinned held settled
  obtain ⟨_, _, _, attempt', more⟩ :=
    (Printer.matched held.1 attempt).node (.structured twin (.inl rfl) fun _ => Printer.kept_going kept)
  exact ⟨_, f', rfl, .node e', .keptUnended attempt' ((more.endsAt (fun _ => going) _).trans going) kept', trivial⟩

theorem structuredParenthesized {a : Answer} (seen : c.mark? .openParen = some s)
    (read : Reads (.parenthesized s) c a d) (ih : (Phrase.parenthesized s).Recurs offset back c a d) :
    Phrase.structured.Recurs offset back c a d := by
  rintro c' rfl - accepted held settled
  have ready := (Cursor.mark?_eq_some.1 seen).1
  obtain ⟨a', d', rfl, shifted, read', -⟩ := ih rfl ready accepted held settled
  obtain ⟨_, seen₂, along⟩ := read.takes ready trivial accepted
  cases ready.symm.trans seen₂
  obtain ⟨s', seen', rfl⟩ := Cursor.mark?_embed seen (held.spares.of_before along)
  rw [Phrase.at, (Cursor.mark?_eq_some.1 seen').1, Option.getD_some] at read'
  exact ⟨a', d', rfl, shifted, .structuredParenthesized seen' read', trivial⟩

theorem parenthesized (read : Reads (.inner [.closeParen]) s.stop (.node e) d) (h : d.mark? .closeParen = some t)
    (ih : (Phrase.inner [.closeParen]).Recurs offset back s.stop (.node e) d) :
    (Phrase.parenthesized s).Recurs offset back c (.node (shapeAt (.parenthesized e) s.start.pos t.stop.pos))
      t.stop := by
  rintro c' rfl ready - held settled
  have sees := Cursor.Sees.of_mark h held.spares
  obtain ⟨s', seen', rfl⟩ := Cursor.sight?_embed ready (Sight.within_of_sees (read.moves trivial).before sees)
  obtain ⟨e', d', t', rfl, rfl, read', h'⟩ :=
    ih.before_mark trivial h held.spares (fun sees ended => ⟨by decide, sees, ended⟩) (settled_children settled)
  refine ⟨_, t'.stop, rfl, shifted_node (.parenthesized e'), ?_, trivial⟩
  rw [Phrase.at, seen', Option.getD_some]
  exact .parenthesized read' h'

end

/-! ### Listings -/

section

variable {l : Listing} {token : Token}

theorem listing {mark : Punctuator} {found : List Shape} (seen : c.mark? mark = some s)
    (opens : Listing.opened? mark = some l) (read : Reads (.items l) s.stop (.nodes found) d)
    (ih : (Phrase.items l).Recurs offset back s.stop (.nodes found) d) :
    Phrase.structured.Recurs offset back c (.node (shapeAt (l.kind found) s.start.pos d.pos)) d := by
  rintro c' rfl - - held settled
  obtain ⟨s', seen', rfl⟩ := Cursor.mark?_embed seen (held.spares.of_before (read.moves trivial).before)
  have inside : ∀ e ∈ found, e.Settled := by
    cases l <;> exact settled_children settled
  obtain ⟨es', d', rfl, rfl, read'⟩ := ih.nodes trivial held inside
  refine ⟨_, d', rfl, ?_, .listing seen' opens read', trivial⟩
  have shifted := @shifted_node offset s'.start.pos d'.pos (l.kind es')
  cases l <;> exact shifted

theorem itemsCons {m : Cursor} {others : List Shape} (seen : c.sight? = some s) (h : s.token = some token)
    (going : token ≠ .punctuator l.closing) (read : Reads (.item l s token) c (.node e) d)
    (separated : d.separator? l.closing = some m) (more : Reads (.items l) m (.nodes others) f)
    (ih : (Phrase.item l s token).Recurs offset back c (.node e) d)
    (ih' : (Phrase.items l).Recurs offset back m (.nodes others) f) :
    (Phrase.items l).Recurs offset back c (.nodes (e :: others)) f := by
  rintro c' rfl - - held settled
  have sees := items_sees separated more held
  have ready : (Phrase.item l s token).Ready (c'.embed offset back) := ⟨seen, h⟩
  have first := (read.takes ready trivial trivial).sees sees
  have isSome : (d.separator? l.closing).isSome = true := by rw [separated]; rfl
  obtain ⟨hfirst, hothers⟩ := List.forall_mem_cons.1 settled
  obtain ⟨e', d', rfl, rfl, read'⟩ :=
    ih.node ready ⟨sees, Printer.endsAt_of_separator isSome⟩ (List.forall_mem_singleton.2 hfirst)
  obtain ⟨s', seen', seen₂⟩ := first.sight
  cases seen.symm.trans seen₂
  rw [sees.separator_eq] at separated
  obtain ⟨m', separated', rfl⟩ := Option.map_eq_some_iff.1 separated
  obtain ⟨es', f', rfl, rfl, more'⟩ := ih'.nodes trivial held hothers
  rw [Phrase.at, seen', Option.getD_some] at read'
  exact ⟨_, f', rfl, .nodes (e' :: es'), .itemsCons seen' h going read' separated' more', trivial⟩

theorem spread (read : Reads (.inner l.ends) s.stop (.node e) d)
    (ih : (Phrase.inner l.ends).Recurs offset back s.stop (.node e) d) :
    (Phrase.item l s (.punctuator .ellipsis)).Recurs offset back c
      (.node (shapeAt (.spread e) s.start.pos d.pos)) d := by
  rintro c' rfl ready - ⟨sees, ended⟩ settled
  obtain ⟨s', seen', rfl⟩ := Cursor.sight?_embed ready.1 (Sight.within_of_sees (read.moves trivial).before sees)
  obtain ⟨e', d', rfl, rfl, read'⟩ :=
    ih.node trivial ⟨Printer.listing_ends l, sees, ended⟩ (settled_children settled)
  refine ⟨_, d', rfl, shifted_node (.spread e'), ?_, trivial⟩
  rw [Phrase.at, seen', Option.getD_some]
  exact .spread read'

theorem property {k : PropertyKey Shape} (key : Reads (.key s token) c (.key k) d)
    (colon : d.mark? .colon = some t) (read : Reads (.inner Listing.object.ends) t.stop (.node e) f)
    (ih : (Phrase.key s token).Recurs offset back c (.key k) d)
    (ih' : (Phrase.inner Listing.object.ends).Recurs offset back t.stop (.node e) f) :
    (Phrase.property s token).Recurs offset back c
      (.node (shapeAt (.property k e false) s.start.pos f.pos)) f := by
  rintro c' rfl ready - ⟨sees, ended⟩ settled
  have spared := sees.spares.of_before (read.moves trivial).before
  have colonSeen := Cursor.Sees.of_mark colon spared
  obtain ⟨s', seen', rfl⟩ := Cursor.sight?_embed ready.1 (Sight.within_of_sees key.key_after colonSeen)
  obtain ⟨hkey, hvalue⟩ := List.forall_mem_append.1 (settled_children settled)
  obtain ⟨k', d', rfl, rfl, key'⟩ := ih.key ready colonSeen hkey
  obtain ⟨t', colon', rfl⟩ := Cursor.mark?_embed colon spared
  obtain ⟨e', f', rfl, rfl, read'⟩ :=
    ih'.node trivial ⟨Printer.listing_ends .object, sees, ended⟩ hvalue
  rw [Phrase.at, seen', Option.getD_some] at key'
  refine ⟨_, f', rfl, shifted_node (.property k' e' false), ?_, trivial⟩
  rw [Phrase.at, seen', Option.getD_some]
  exact .property key' colon' read'

theorem shorthand {name : String} (key : Reads (.key s token) c (.key (.identifier name)) d)
    (plain : d.mark? .colon = none) (ended : (d.separator? .closeBrace).isSome = true)
    (ih : (Phrase.key s token).Recurs offset back c (.key (.identifier name)) d) :
    (Phrase.property s token).Recurs offset back c
      (.node (shapeAt (.property (.identifier name) (.node (some s.span) (.identifier name)) true)
        s.start.pos d.pos)) d := by
  rintro c' rfl ready - ⟨sees, -⟩ -
  obtain ⟨s', seen', rfl⟩ := Cursor.sight?_embed ready.1 (Sight.within_of_sees key.key_after sees)
  obtain ⟨k', d', rfl, hk, key'⟩ := ih.key ready sees (List.forall_mem_nil _)
  rw [sees.separator_eq, Option.isSome_map] at ended
  rw [Phrase.at, seen', Option.getD_some] at key'
  cases k' with
  | identifier name =>
    cases hk
    refine ⟨_, d', rfl, @shifted_shorthand offset s'.start.pos d'.pos name s'.start.pos s'.stop.pos, ?_, trivial⟩
    rw [Phrase.at, seen', Option.getD_some]
    exact .shorthand key' (sees.mark_none plain) ended
  | literal | computed => cases hk

theorem named {k : PropertyKey Shape} (made : KeyOf token k) :
    (Phrase.key s token).Recurs offset back c (.key k) s.stop := by
  rintro c' rfl ready - held -
  obtain ⟨s', seen', rfl⟩ := Cursor.sight?_embed ready.1 (Sight.within_of_sees (.refl _) held)
  refine ⟨_, s'.stop, rfl, shifted_name made, ?_, trivial⟩
  rw [Phrase.at, seen', Option.getD_some]
  exact .key made

theorem computed (read : Reads (.inner [.closeBracket]) s.stop (.node e) d) (h : d.mark? .closeBracket = some t)
    (ih : (Phrase.inner [.closeBracket]).Recurs offset back s.stop (.node e) d) :
    (Phrase.key s (.punctuator .openBracket)).Recurs offset back c (.key (.computed e)) t.stop := by
  rintro c' rfl ready - held settled
  have sees := Cursor.Sees.of_mark h held.spares
  obtain ⟨s', seen', rfl⟩ := Cursor.sight?_embed ready.1 (Sight.within_of_sees (read.moves trivial).before sees)
  obtain ⟨e', d', t', rfl, rfl, read', h'⟩ :=
    ih.before_mark trivial h held.spares (fun sees ended => ⟨by decide, sees, ended⟩) settled
  refine ⟨_, t'.stop, rfl, .key (.computed e'), ?_, trivial⟩
  rw [Phrase.at, seen', Option.getD_some]
  exact .computed read' h'

end

/-! ### Kept texts -/

section

variable {ends opened : List Punctuator} {before : Option Token} {text : List Char}

theorem kept {found : List (OpaquePart Shape)} (seen : c.sight? = some s)
    (read : Reads (.parts ends [] none []) s.start (.parts found) d) (filled : found ≠ [])
    (ih : (Phrase.parts ends [] none []).Recurs offset back s.start (.parts found) d) :
    (Phrase.kept ends).Recurs offset back c (.node (shapeAt (.opaqueText found) s.start.pos d.pos)) d := by
  rintro c' rfl - - held settled
  obtain ⟨_, seen₂, along⟩ := (Reads.kept seen read filled).takes trivial trivial trivial
  cases seen.symm.trans seen₂
  obtain ⟨s', seen', rfl⟩ := Cursor.sight?_embed seen (Sight.within_of_sees along held.2.1)
  obtain ⟨_, d', rfl, shifted, read', twinned⟩ := ih rfl trivial trivial held (settled_children settled)
  cases shifted with
  | parts found' =>
    obtain ⟨items, met⟩ := Printer.met_of_reads read
    have here : KeptItem.settle [] none items = true := by
      rw [Printer.met_all met]
      cases settled _ (List.mem_singleton.2 rfl) with
      | node here => exact here
    have twin := (twinned items met here).of_start seen seen'
    have filled' : found' ≠ [] := fun empty => filled (congrArg _ empty)
    exact ⟨_, d', rfl, shifted_node (.opaqueText found'), .kept seen' read' filled', twin⟩

theorem partsStop (seen : c.sight? = some s) (h : keptStep ends opened before s = .stop) :
    (Phrase.parts ends opened before text).Recurs offset back c (.parts (sourcePart text)) c := by
  rintro c' rfl - - ⟨-, sees, ended⟩ -
  obtain ⟨s', seen', seen₂⟩ := sees.sight
  cases seen.symm.trans seen₂
  have h' : keptStep ends opened before s' = .stop :=
    Printer.keptStep_stop_congr (s := s'.embed offset back) rfl h
  exact ⟨_, c', rfl, shifted_source text, .partsStop seen' h', fun items met settled =>
    Printer.twin_end ended ((sees.endsAt ends).trans ended) met settled⟩

theorem partsTake {opened' : List Punctuator} {found : List (OpaquePart Shape)} (seen : c.sight? = some s)
    (h : keptStep ends opened before s = .take opened')
    (read : Reads (.parts ends opened' s.token (text ++ s.skipped ++ s.text)) s.stop (.parts found) d)
    (ih : (Phrase.parts ends opened' s.token (text ++ s.skipped ++ s.text)).Recurs offset back s.stop
      (.parts found) d) :
    (Phrase.parts ends opened before text).Recurs offset back c (.parts found) d := by
  rintro c' rfl - - held settled
  have sees := parts_sees read held.2.1
  obtain ⟨s', seen', rfl⟩ := Cursor.sight?_embed seen (Sight.within_of_sees (.refl _) sees)
  obtain ⟨_, d', rfl, shifted, read', twinned⟩ := ih rfl trivial trivial held settled
  have h' := (keptStep_embed sees).trans h
  cases shifted with
  | parts found' =>
    exact ⟨_, d', rfl, .parts found', .partsTake seen' h' read', fun items met settled =>
      Printer.twin_take held.1 held.2.2 seen seen' rfl h read met settled (fun _ => List.forall_mem_nil _)
        fun items met _ => twinned items met⟩

theorem partsMarkup {others : List (OpaquePart Shape)} (seen : c.sight? = some s)
    (h : keptStep ends opened before s = .markup) (read : Reads .markup c (.node e) d)
    (more : Reads (.parts ends opened (some (.punctuator .greater)) []) d (.parts others) f)
    (ih : Phrase.markup.Recurs offset back c (.node e) d)
    (ih' : (Phrase.parts ends opened (some (.punctuator .greater)) []).Recurs offset back d (.parts others) f) :
    (Phrase.parts ends opened before text).Recurs offset back c
      (.parts (sourcePart (text ++ s.skipped) ++ .node e :: others)) f := by
  rintro c' rfl - - held settled
  have spared := (parts_sees more held.2.1).spares
  obtain ⟨token, free, follows⟩ := Printer.tag_of_markup h
  obtain ⟨_, less, sees⟩ := markup_sees read spared
  cases less.symm.trans (Cursor.mark?_eq_some.2 ⟨seen, token⟩)
  obtain ⟨s', less', rfl⟩ := Cursor.mark?_embed less sees.spares
  obtain ⟨seen', token'⟩ := Cursor.mark?_eq_some.1 less'
  have follows' := sees.tagFollows_eq.symm.trans follows
  rw [Answer.shapes, List.filterMap_append, sourcePart_children, List.nil_append] at settled
  obtain ⟨hmarkup, hothers⟩ := List.forall_mem_cons.1 settled
  obtain ⟨e', d', rfl, rfl, read'⟩ := ih.node trivial spared (List.forall_mem_singleton.2 hmarkup)
  obtain ⟨_, f', rfl, shifted, more', twinned⟩ := ih' rfl trivial trivial held hothers
  cases shifted with
  | parts others' =>
    exact ⟨_, f', rfl, shifted_parts (text ++ s'.skipped) e' others',
      .partsMarkup seen' (Printer.keptStep_of_tag held.1 token' free follows') read' more',
      fun items met settled =>
        Printer.twin_markup less less' h follows' read read' more met settled fun items met _ => twinned items met⟩

end

/-! ### Tags -/

section

variable {name : String} {found others : List Shape} {closed : Bool}

theorem fragment (less : c.mark? .less = some s) (greater : s.stop.mark? .greater = some t)
    (read : Reads .children t.stop (.nodes found) d) (close : ReadsClosing d none f)
    (ih : Phrase.children.Recurs offset back t.stop (.nodes found) d) :
    Phrase.tag.Recurs offset back c (.node (shapeAt (.fragment found) s.start.pos f.pos)) f := by
  rintro c' rfl - - held settled
  have spared := (close.sees held).spares.of_before (read.moves trivial).before
  obtain ⟨s', less', rfl⟩ := Cursor.mark?_embed less (spared.of_before (Cursor.past_mark greater).1)
  obtain ⟨t', greater', rfl⟩ := Cursor.mark?_embed greater spared
  obtain ⟨es', d', rfl, rfl, read'⟩ := ih.nodes trivial ⟨_, f, close, held⟩ (settled_children settled)
  obtain ⟨f', rfl, close'⟩ := close.embed held
  exact ⟨_, f', rfl, shifted_node (.fragment es'), .fragment less' greater' read' close', trivial⟩

theorem selfClosing (less : c.mark? .less = some s) (named : s.stop.mark? .greater = none)
    (read : ReadsElementName s.stop name d) (listed : Reads .attributes d (.attributes found true) f)
    (ih : Phrase.attributes.Recurs offset back d (.attributes found true) f) :
    Phrase.tag.Recurs offset back c (.node (shapeAt (.element name found [] true) s.start.pos f.pos)) f := by
  rintro c' rfl - - held settled
  have sees := attributes_sees listed held
  have nameSeen := read.takes.sees sees
  obtain ⟨s', less', rfl⟩ := Cursor.mark?_embed less nameSeen.spares
  obtain ⟨d', rfl, read'⟩ := ReadsElementName.embed read sees
  have inside := (List.forall_mem_append.1 (settled_children settled)).1
  obtain ⟨es', f', rfl, rfl, listed'⟩ := ih.attributes trivial held inside
  exact ⟨_, f', rfl, shifted_node (.element name es' [] true),
    .selfClosing less' (nameSeen.mark_none named) read' listed', trivial⟩

theorem tag {g k : Cursor} {inside : List Shape} (less : c.mark? .less = some s)
    (named : s.stop.mark? .greater = none) (read : ReadsElementName s.stop name d)
    (listed : Reads .attributes d (.attributes found false) f) (filled : Reads .children f (.nodes inside) g)
    (close : ReadsClosing g (some name) k)
    (ih : Phrase.attributes.Recurs offset back d (.attributes found false) f)
    (ih' : Phrase.children.Recurs offset back f (.nodes inside) g) :
    Phrase.tag.Recurs offset back c (.node (shapeAt (.element name found inside false) s.start.pos k.pos)) k := by
  rintro c' rfl - - held settled
  have spared := (close.sees held).spares.of_before (filled.moves trivial).before
  have sees := attributes_sees listed spared
  have nameSeen := read.takes.sees sees
  obtain ⟨s', less', rfl⟩ := Cursor.mark?_embed less nameSeen.spares
  obtain ⟨d', rfl, read'⟩ := ReadsElementName.embed read sees
  obtain ⟨hfound, hinside⟩ := List.forall_mem_append.1 (settled_children settled)
  obtain ⟨as', f', rfl, rfl, listed'⟩ := ih.attributes trivial spared hfound
  obtain ⟨es', g', rfl, rfl, filled'⟩ := ih'.nodes trivial ⟨_, k, close, held⟩ hinside
  obtain ⟨k', rfl, close'⟩ := close.embed held
  exact ⟨_, k', rfl, shifted_node (.element name as' es' false),
    .tag less' (nameSeen.mark_none named) read' listed' filled' close', trivial⟩

theorem attributesSpread (seen : c.mark? .openBrace = some s) (read : Reads .spreadAttribute c (.node e) d)
    (more : Reads .attributes d (.attributes others closed) f)
    (ih : Phrase.spreadAttribute.Recurs offset back c (.node e) d)
    (ih' : Phrase.attributes.Recurs offset back d (.attributes others closed) f) :
    Phrase.attributes.Recurs offset back c (.attributes (e :: others) closed) f := by
  rintro c' rfl - - held settled
  obtain ⟨hfirst, hothers⟩ := List.forall_mem_cons.1 settled
  have spared := (attributes_sees more held).spares
  obtain ⟨e', d', rfl, rfl, read'⟩ := ih.node trivial spared (List.forall_mem_singleton.2 hfirst)
  obtain ⟨es', f', rfl, rfl, more'⟩ := ih'.attributes trivial held hothers
  obtain ⟨_, seen₂, along⟩ := read.takes trivial trivial trivial
  cases (Cursor.mark?_eq_some.1 seen).1.symm.trans seen₂
  obtain ⟨s', seen', rfl⟩ := Cursor.mark?_embed seen (spared.of_before along)
  exact ⟨_, f', rfl, .attributes (e' :: es') closed, .attributesSpread seen' read' more', trivial⟩

theorem attributesNamed (seen : c.sight? = some s) (named : s.token.bind Token.name? = some name)
    (read : Reads .namedAttribute c (.node e) d) (more : Reads .attributes d (.attributes others closed) f)
    (ih : Phrase.namedAttribute.Recurs offset back c (.node e) d)
    (ih' : Phrase.attributes.Recurs offset back d (.attributes others closed) f) :
    Phrase.attributes.Recurs offset back c (.attributes (e :: others) closed) f := by
  rintro c' rfl - - held settled
  obtain ⟨hfirst, hothers⟩ := List.forall_mem_cons.1 settled
  have sees := attributes_sees more held
  obtain ⟨e', d', rfl, rfl, read'⟩ := ih.node trivial sees (List.forall_mem_singleton.2 hfirst)
  obtain ⟨es', f', rfl, rfl, more'⟩ := ih'.attributes trivial held hothers
  obtain ⟨s', seen', seen₂⟩ := ((read.takes trivial trivial trivial).sees sees).sight
  cases seen.symm.trans seen₂
  exact ⟨_, f', rfl, .attributes (e' :: es') closed, .attributesNamed seen' named read' more', trivial⟩

theorem spreadAttribute {u : Sight} (opening : c.mark? .openBrace = some s)
    (ellipsis : s.stop.mark? .ellipsis = some t) (read : Reads (.expression [.closeBrace]) t.stop (.node e) d)
    (closing : d.mark? .closeBrace = some u)
    (ih : (Phrase.expression [.closeBrace]).Recurs offset back t.stop (.node e) d) :
    Phrase.spreadAttribute.Recurs offset back c
      (.node (shapeAt (.spreadAttribute e) s.start.pos u.stop.pos)) u.stop := by
  rintro c' rfl - - held settled
  have spared := (Cursor.Sees.of_mark closing held).spares.of_before (read.moves trivial).before
  obtain ⟨s', opening', rfl⟩ := Cursor.mark?_embed opening (spared.of_before (Cursor.past_mark ellipsis).1)
  obtain ⟨t', ellipsis', rfl⟩ := Cursor.mark?_embed ellipsis spared
  obtain ⟨e', d', u', rfl, rfl, read', closing'⟩ :=
    ih.before_mark trivial closing held (fun sees ended => ⟨by decide, sees, ended⟩) (settled_children settled)
  exact ⟨_, u'.stop, rfl, shifted_node (.spreadAttribute e'),
    .spreadAttribute opening' ellipsis' read' closing', trivial⟩

theorem namedValue (named : ReadsAttributeName c name d) (equals : d.mark? .equals = some s)
    (read : Reads .value s.stop.skipBlanks (.node e) f)
    (ih : Phrase.value.Recurs offset back s.stop.skipBlanks (.node e) f) :
    Phrase.namedAttribute.Recurs offset back c
      (.node (shapeAt (.namedAttribute name (some e)) c.nextStart f.pos)) f := by
  rintro c' rfl - - held settled
  have valueSpared := held.spares.of_before (read.moves trivial).before
  have spared := valueSpared.of_before (Cursor.before_skipBlanks _)
  have sees := Cursor.Sees.of_mark equals spared
  have first := (named.takes.sees sees).nextStart_eq
  obtain ⟨d', rfl, named'⟩ := ReadsAttributeName.embed named sees
  obtain ⟨s', equals', rfl⟩ := Cursor.mark?_embed equals spared
  have blanks : (s'.embed offset back).stop.skipBlanks = s'.stop.skipBlanks.embed offset back :=
    Cursor.skipBlanks_embed valueSpared
  rw [blanks] at ih
  obtain ⟨e', f', rfl, rfl, read'⟩ := ih.node trivial held.spares (settled_children settled)
  refine ⟨_, f', rfl, ?_, .namedValue named' equals' read', trivial⟩
  rw [first]
  exact shifted_node (.namedAttribute name (some e'))

theorem namedBare (named : ReadsAttributeName c name d) (plain : d.mark? .equals = none) :
    Phrase.namedAttribute.Recurs offset back c
      (.node (shapeAt (.namedAttribute name none) c.nextStart d.pos)) d := by
  rintro c' rfl - - held -
  have sees : d.Sees back := held
  have first := (named.takes.sees sees).nextStart_eq
  obtain ⟨d', rfl, named'⟩ := ReadsAttributeName.embed named sees
  refine ⟨_, d', rfl, ?_, .namedBare named' (sees.mark_none plain), trivial⟩
  rw [first]
  exact shifted_node (.namedAttribute name none)

end

/-! ### Values and children -/

section

theorem valueString {quote close : Char} {body rest : List Char} (h : c.rest = quote :: body)
    (quoted : quote = '"' ∨ quote = '\'') (closed : body.dropWhile (· != quote) = close :: rest)
    (stop : d = c.advance (quote :: body.takeWhile (· != quote) ++ [close]) rest) :
    Phrase.value.Recurs offset back c
      (.node (shapeAt (.literal
        (.string (String.ofList (decodeReferences (body.takeWhile (· != quote)))))
        (some (String.ofList (quote :: body.takeWhile (· != quote) ++ [close])))) c.pos d.pos)) d := by
  rintro c' rfl - - spared -
  subst stop
  obtain ⟨text, rfl⟩ : ∃ text, rest = text ++ back := spared
  generalize hrun : body.takeWhile (· != quote) = run
  have hbody : body = run ++ (close :: text ++ back) := by
    have := List.takeWhile_append_dropWhile (p := (· != quote)) (l := body)
    rw [hrun, closed] at this
    exact this.symm
  have hrest : c'.rest = quote :: (run ++ close :: text) := by
    change c'.rest ++ back = quote :: body at h
    rw [hbody, ← List.append_assoc, ← List.cons_append] at h
    exact List.append_cancel_right h
  have take : (run ++ close :: text).takeWhile (· != quote) = run := by
    refine Cursor.takeWhile_cut (z := back) ?_
    rw [← hbody, hrun]
  have drop : (run ++ close :: text).dropWhile (· != quote) = close :: text := by
    have := List.takeWhile_append_dropWhile (p := (· != quote)) (l := run ++ close :: text)
    rw [take] at this
    exact List.append_cancel_left this
  have read := Reads.valueString hrest quoted drop rfl
  rw [take] at read
  rw [← Cursor.embed_advance]
  exact ⟨_, _, rfl, shifted_node (.literal ..), read, trivial⟩

theorem valueContainer {rest : List Char} (h : c.rest = '{' :: rest) (opening : c.mark? .openBrace = some s)
    (filled : s.stop.mark? .closeBrace = none) (read : Reads (.expression [.closeBrace]) s.stop (.node e) d)
    (closing : d.mark? .closeBrace = some t)
    (ih : (Phrase.expression [.closeBrace]).Recurs offset back s.stop (.node e) d) :
    Phrase.value.Recurs offset back c
      (.node (shapeAt (.expressionContainer (some e)) s.start.pos t.stop.pos)) t.stop := by
  rintro c' rfl - - held settled
  have sees := (read.takes trivial trivial trivial).sees (.of_mark closing held)
  obtain ⟨s', opening', rfl⟩ := Cursor.mark?_embed opening sees.spares
  obtain ⟨e', d', t', rfl, rfl, read', closing'⟩ :=
    ih.before_mark trivial closing held (fun sees ended => ⟨by decide, sees, ended⟩) (settled_children settled)
  obtain ⟨rest', h', -⟩ := Cursor.rest_embed h (Cursor.past_mark opening').2
  exact ⟨_, t'.stop, rfl, shifted_node (.expressionContainer (some e')),
    .valueContainer h' opening' (sees.mark_none filled) read' closing', trivial⟩

theorem valueMarkup {rest : List Char} (h : c.rest = '<' :: rest)
    (ih : Phrase.markup.Recurs offset back c (.node e) d) : Phrase.value.Recurs offset back c (.node e) d := by
  rintro c' rfl - - held settled
  obtain ⟨e', d', rfl, rfl, read'⟩ := ih.node trivial held settled
  have past : c'.Past d' := read'.moves trivial
  obtain ⟨rest', h', -⟩ := Cursor.rest_embed h past.2
  exact ⟨_, d', rfl, .node e', .valueMarkup h' read', trivial⟩

theorem container (opening : c.mark? .openBrace = some s) (filled : s.stop.mark? .closeBrace = none)
    (read : Reads .spreadOrExpression s.stop (.node e) d) (closing : d.mark? .closeBrace = some t)
    (ih : Phrase.spreadOrExpression.Recurs offset back s.stop (.node e) d) :
    Phrase.container.Recurs offset back c
      (.node (shapeAt (.expressionContainer (some e)) s.start.pos t.stop.pos)) t.stop := by
  rintro c' rfl - - held settled
  have sees := (read.takes trivial trivial trivial).sees (.of_mark closing held)
  obtain ⟨s', opening', rfl⟩ := Cursor.mark?_embed opening sees.spares
  obtain ⟨e', d', t', rfl, rfl, read', closing'⟩ :=
    ih.before_mark trivial closing held (fun sees ended => ⟨sees, ended⟩) (settled_children settled)
  exact ⟨_, t'.stop, rfl, shifted_node (.expressionContainer (some e')),
    .container opening' (sees.mark_none filled) read' closing', trivial⟩

theorem containerSpread (ellipsis : c.mark? .ellipsis = some s)
    (read : Reads (.expression [.closeBrace]) s.stop (.node e) d)
    (ih : (Phrase.expression [.closeBrace]).Recurs offset back s.stop (.node e) d) :
    Phrase.spreadOrExpression.Recurs offset back c (.node (shapeAt (.spread e) s.start.pos d.pos)) d := by
  rintro c' rfl - - ⟨sees, ended⟩ settled
  obtain ⟨s', ellipsis', rfl⟩ := Cursor.mark?_embed ellipsis (sees.spares.of_before (read.moves trivial).before)
  obtain ⟨e', d', rfl, rfl, read'⟩ := ih.node trivial ⟨by decide, sees, ended⟩ (settled_children settled)
  exact ⟨_, d', rfl, shifted_node (.spread e'), .containerSpread ellipsis' read', trivial⟩

theorem containerExpression (plain : c.mark? .ellipsis = none)
    (read : Reads (.expression [.closeBrace]) c (.node e) d)
    (ih : (Phrase.expression [.closeBrace]).Recurs offset back c (.node e) d) :
    Phrase.spreadOrExpression.Recurs offset back c (.node e) d := by
  rintro c' rfl - - ⟨sees, ended⟩ settled
  obtain ⟨e', d', rfl, rfl, read'⟩ := ih.node trivial ⟨by decide, sees, ended⟩ settled
  have plain' := ((read.takes trivial trivial trivial).sees sees).mark_none plain
  exact ⟨_, d', rfl, .node e', .containerExpression plain' read', trivial⟩

end

section

variable {front others : List Shape} {rest : List Char} {g : Cursor}

theorem childrenEnd (text : ReadsText c front d) (h : d.rest = '<' :: rest) :
    Phrase.children.Recurs offset back c (.nodes front) d := by
  rintro c' rfl - - ⟨name, f, close, spared⟩ -
  obtain ⟨d', front', rfl, rfl, text'⟩ := text.embed (close.sees spared).spares
  obtain ⟨f', -, close'⟩ := close.embed spared
  obtain ⟨rest', h', -⟩ := Cursor.rest_embed h close'.past.2
  exact ⟨_, d', rfl, .nodes front', .childrenEnd text' h' (close'.follows h'), trivial⟩

theorem childrenContainer (text : ReadsText c front d) (h : d.rest = '{' :: rest)
    (read : Reads .container d (.node e) f) (more : Reads .children f (.nodes others) g)
    (ih : Phrase.container.Recurs offset back d (.node e) f)
    (ih' : Phrase.children.Recurs offset back f (.nodes others) g) :
    Phrase.children.Recurs offset back c (.nodes (front ++ e :: others)) g := by
  rintro c' rfl - - held settled
  have spared := held.children.of_before (more.moves trivial).before
  obtain ⟨d', front', rfl, rfl, text'⟩ := text.embed (spared.of_before (read.moves trivial).before)
  obtain ⟨hfirst, hothers⟩ := List.forall_mem_cons.1 (List.forall_mem_append.1 settled).2
  obtain ⟨e', f', rfl, rfl, read'⟩ := ih.node trivial spared (List.forall_mem_singleton.2 hfirst)
  obtain ⟨es', g', rfl, rfl, more'⟩ := ih'.nodes trivial held hothers
  have past : d'.Past f' := read'.moves trivial
  obtain ⟨rest', h', -⟩ := Cursor.rest_embed h past.2
  exact ⟨_, g', rfl, shifted_children front' e' es', .childrenContainer text' h' read' more', trivial⟩

theorem childrenMarkup (text : ReadsText c front d) (h : d.rest = '<' :: rest)
    (opening : closingFollows (d.advance ['<'] rest) = false) (read : Reads .markup d (.node e) f)
    (more : Reads .children f (.nodes others) g) (ih : Phrase.markup.Recurs offset back d (.node e) f)
    (ih' : Phrase.children.Recurs offset back f (.nodes others) g) :
    Phrase.children.Recurs offset back c (.nodes (front ++ e :: others)) g := by
  rintro c' rfl - - held settled
  have spared := held.children.of_before (more.moves trivial).before
  obtain ⟨d', front', rfl, rfl, text'⟩ := text.embed (spared.of_before (read.moves trivial).before)
  obtain ⟨hfirst, hothers⟩ := List.forall_mem_cons.1 (List.forall_mem_append.1 settled).2
  obtain ⟨e', f', rfl, rfl, read'⟩ := ih.node trivial spared (List.forall_mem_singleton.2 hfirst)
  obtain ⟨es', g', rfl, rfl, more'⟩ := ih'.nodes trivial held hothers
  obtain ⟨_, less, sees⟩ := markup_sees read spared
  obtain ⟨s', less', rfl⟩ := Cursor.mark?_embed less sees.spares
  have past : d'.Past f' := read'.moves trivial
  obtain ⟨rest', h', -⟩ := Cursor.rest_embed h past.2
  rw [← stop_of_less less h] at opening
  have opening' := sees.closingFollows_eq.symm.trans opening
  rw [stop_of_less less' h'] at opening'
  exact ⟨_, g', rfl, shifted_children front' e' es', .childrenMarkup text' h' opening' read' more', trivial⟩

end

end Phrase.Recurs

/-- A phrase that is read in the whole is read in the part. The induction is on what is read in the whole;
what was tried before a kept text fails at twins of its places. -/
theorem Reads.recurs {phrase : Phrase} {a : Answer} (h : Reads phrase c a d) : phrase.Recurs offset back c a d := by
  induction h with
  | structuredExpression attempt ended ih =>
    rintro c' rfl - - ⟨-, sees, -⟩ settled
    obtain ⟨e', d', rfl, rfl, attempt'⟩ := ih.node trivial sees settled
    exact ⟨_, d', rfl, .node e', .structuredExpression attempt' ((sees.endsAt _).trans ended), trivial⟩
  | keptOther attempt kept _ ih => exact .keptOther attempt kept ih
  | keptUnended attempt going kept _ ih => exact .keptUnended attempt going kept ih
  | innerSome going read ih =>
    rintro c' rfl - - held settled
    obtain ⟨e', d', rfl, rfl, read'⟩ := ih.node trivial held settled
    have sees := (read.takes trivial trivial trivial).sees held.2.1
    exact ⟨_, d', rfl, .node e', .innerSome ((sees.endsAt _).trans going) read', trivial⟩
  | leaf seen h made =>
    rintro c' rfl - - held -
    obtain ⟨s', seen', rfl⟩ := Cursor.sight?_embed seen (Sight.within_of_sees (.refl _) held)
    exact ⟨_, s'.stop, rfl, shifted_token made, .leaf seen' h made, trivial⟩
  | negative minus next h read =>
    rintro c' rfl - - held -
    obtain ⟨s', minus', rfl⟩ := Cursor.mark?_embed minus (held.spares.of_before (Cursor.before_stop next))
    obtain ⟨n', next', rfl⟩ := Cursor.sight?_embed next (Sight.within_of_sees (.refl _) held)
    exact ⟨_, n'.stop, rfl, shifted_node (.literal ..), .negative minus' next' h read, trivial⟩
  | structuredMarkup seen read ih =>
    rintro c' rfl - - held settled
    obtain ⟨e', d', rfl, rfl, read'⟩ := ih.node trivial held.spares settled
    obtain ⟨s', seen'⟩ := Printer.less_of_markup read'
    exact ⟨_, d', rfl, .node e', .structuredMarkup seen' read', trivial⟩
  | structuredParenthesized seen read ih => exact .structuredParenthesized seen read ih
  | listing seen opens read ih => exact .listing seen opens read ih
  | parenthesized read h ih => exact .parenthesized read h ih
  | itemsEnd h =>
    rintro c' rfl - - held -
    obtain ⟨s', h', rfl⟩ := Cursor.mark?_embed h held.spares
    exact ⟨_, s'.stop, rfl, .nodes [], .itemsEnd h', trivial⟩
  | itemsCons seen h going read separated more ih ih' =>
    exact .itemsCons seen h going read separated more ih ih'
  | spread read ih => exact .spread read ih
  | element h read ih =>
    rintro c' rfl - accepted held settled
    obtain ⟨a', d', rfl, shifted, read', -⟩ :=
      ih rfl trivial accepted ⟨Printer.listing_ends .array, held⟩ settled
    exact ⟨a', d', rfl, shifted, .element h read', trivial⟩
  | itemProperty h read ih =>
    rintro c' rfl ready accepted held settled
    obtain ⟨a', d', rfl, shifted, read', -⟩ := ih rfl ready accepted held settled
    exact ⟨a', d', rfl, shifted, .itemProperty h read', trivial⟩
  | property key colon read ih ih' => exact .property key colon read ih ih'
  | shorthand key plain ended ih => exact .shorthand key plain ended ih
  | key made => exact .named made
  | computed read h ih => exact .computed read h ih
  | kept seen read filled ih => exact .kept seen read filled ih
  | partsEnd h =>
    rintro c' rfl - - ⟨-, ⟨s, seen, -⟩, -⟩ -
    rw [h] at seen
    cases seen
  | partsStop seen h => exact .partsStop seen h
  | partsTake seen h read ih => exact .partsTake seen h read ih
  | partsMarkup seen h read more ih ih' => exact .partsMarkup seen h read more ih ih'
  | markup read ih =>
    rintro c' rfl - - held settled
    obtain ⟨e', d', rfl, rfl, read'⟩ := ih.node trivial held settled
    exact ⟨_, d', rfl, .node e', .markup read', trivial⟩
  | fragment less greater read close ih => exact .fragment less greater read close ih
  | selfClosing less named read found ih => exact .selfClosing less named read found ih
  | tag less named read found inside close ih ih' => exact .tag less named read found inside close ih ih'
  | attributesSlash slash greater =>
    rintro c' rfl - - held -
    obtain ⟨s', slash', rfl⟩ := Cursor.mark?_embed slash (held.of_before (Cursor.past_mark greater).1)
    obtain ⟨t', greater', rfl⟩ := Cursor.mark?_embed greater held
    exact ⟨_, t'.stop, rfl, .attributes [] true, .attributesSlash slash' greater', trivial⟩
  | attributesGreater greater =>
    rintro c' rfl - - held -
    obtain ⟨s', greater', rfl⟩ := Cursor.mark?_embed greater held
    exact ⟨_, s'.stop, rfl, .attributes [] false, .attributesGreater greater', trivial⟩
  | attributesSpread seen read more ih ih' => exact .attributesSpread seen read more ih ih'
  | attributesNamed seen named read more ih ih' => exact .attributesNamed seen named read more ih ih'
  | spreadAttribute opening ellipsis read closing ih => exact .spreadAttribute opening ellipsis read closing ih
  | namedValue named equals read ih => exact .namedValue named equals read ih
  | namedBare named plain => exact .namedBare named plain
  | valueString h quoted closed stop => exact .valueString h quoted closed stop
  | valueContainer h opening filled read closing ih => exact .valueContainer h opening filled read closing ih
  | valueMarkup h read ih => exact .valueMarkup h ih
  | childrenEnd text h closing => exact .childrenEnd text h
  | childrenContainer text h read more ih ih' => exact .childrenContainer text h read more ih ih'
  | childrenMarkup text h opening read more ih ih' => exact .childrenMarkup text h opening read more ih ih'
  | containerEmpty opening closing =>
    rintro c' rfl - - held -
    obtain ⟨s', opening', rfl⟩ := Cursor.mark?_embed opening (held.of_before (Cursor.past_mark closing).1)
    obtain ⟨t', closing', rfl⟩ := Cursor.mark?_embed closing held
    exact ⟨_, t'.stop, rfl, shifted_node (.expressionContainer none), .containerEmpty opening' closing', trivial⟩
  | container opening filled read closing ih => exact .container opening filled read closing ih
  | containerSpread ellipsis read ih => exact .containerSpread ellipsis read ih
  | containerExpression plain read ih => exact .containerExpression plain read ih
  | statementsEnd | semicolon | statement =>
    rintro _ - - - held -
    exact held.elim
  | _ =>
    rintro _ - - accepted - -
    exact accepted.elim

end Parser

end MarkupEditor
