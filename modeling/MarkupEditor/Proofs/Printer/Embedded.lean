import MarkupEditor.Proofs.Parser.Sourced
import MarkupEditor.Proofs.Printer.Settled

set_option autoImplicit false

namespace MarkupEditor

open Text Lexer MarkupEditor.Parser

def Span.shift (offset : Nat) (span : Span) : Span :=
  ⟨span.start + offset, span.stop + offset⟩

def Shape.shift (offset : Nat) : Shape → Shape :=
  Shape.fold .missing fun span kind => .node (span.map (·.shift offset)) kind

theorem Shape.shift_node (offset : Nat) (span : Option Span) (kind : NodeKind Shape) :
    (Shape.node span kind).shift offset =
      .node (span.map (·.shift offset)) (kind.map (Shape.shift offset)) :=
  Shape.fold_node _ _ span kind

/-- The same place where `offset` bytes come before the text and `back` comes after it. -/
def Cursor.embed (offset : Nat) (back : List Char) (c : Cursor) : Cursor :=
  ⟨c.rest ++ back, c.pos + offset⟩

def Sight.embed (offset : Nat) (back : List Char) (s : Sight) : Sight :=
  { s with start := s.start.embed offset back, stop := s.stop.embed offset back }

/-- The text at the end is still to come. -/
def Cursor.Spares (back : List Char) (c : Cursor) : Prop :=
  ∃ text, c.rest = text ++ back

/-- The lexeme ends before the text at the end, and right before it only if it is a mark. -/
def Sight.Within (back : List Char) (s : Sight) : Prop :=
  ∃ text, s.stop.rest = text ++ back ∧ (text = [] → ∃ mark, s.token = some (.punctuator mark))

/-- The next lexeme ends before the text at the end. -/
def Cursor.Sees (back : List Char) (c : Cursor) : Prop :=
  ∃ s, c.sight? = some s ∧ s.Within back

/-- The lexeme at the first place ends before the second one. -/
def Cursor.Takes (c d : Cursor) : Prop :=
  ∃ s, c.sight? = some s ∧ s.stop.Before d

section

variable {offset : Nat} {back : List Char} {c d e : Cursor} {s : Sight}

theorem Cursor.Spares.of_before (h : c.Before d) (spared : d.Spares back) : c.Spares back := by
  obtain ⟨text, hrest, -⟩ := h
  obtain ⟨rest, hback⟩ := spared
  exact ⟨text ++ rest, by rw [hrest, hback, List.append_assoc]⟩

theorem Sight.Within.spares (h : s.Within back) : s.stop.Spares back := by
  obtain ⟨text, hrest, -⟩ := h
  exact ⟨text, hrest⟩

theorem Sight.within_of_past (h : s.stop.Past d) (spared : d.Spares back) : s.Within back := by
  obtain ⟨text, hrest, -⟩ := h.1
  obtain ⟨rest, hback⟩ := spared
  have longer := h.2
  refine ⟨text ++ rest, by rw [hrest, hback, List.append_assoc], fun none => ?_⟩
  obtain ⟨rfl, rfl⟩ := List.append_eq_nil_iff.1 none
  rw [hrest] at longer
  exact absurd longer (Nat.lt_irrefl _)

theorem Sight.within_of_mark {mark : Punctuator} (h : c.mark? mark = some s) (along : s.stop.Before d)
    (spared : d.Spares back) : s.Within back := by
  obtain ⟨text, hrest⟩ := spared.of_before along
  exact ⟨text, hrest, fun _ => ⟨mark, (Cursor.mark?_eq_some.1 h).2⟩⟩

theorem Cursor.Sees.past (h : c.Sees back) : ∃ d, c.Past d ∧ d.Spares back := by
  obtain ⟨s, seen, within⟩ := h
  exact ⟨s.stop, Cursor.past_stop seen, within.spares⟩

theorem Cursor.Sees.spares (h : c.Sees back) : c.Spares back := by
  obtain ⟨d, past, spared⟩ := h.past
  exact spared.of_before past.1

theorem Sight.within_of_sees (h : s.stop.Before d) (sees : d.Sees back) : s.Within back := by
  obtain ⟨e, past, spared⟩ := sees.past
  exact Sight.within_of_past (h.past past) spared

theorem Cursor.Takes.of_mark {mark : Punctuator} (h : c.mark? mark = some s) (along : s.stop.Before d) :
    c.Takes d :=
  ⟨s, (Cursor.mark?_eq_some.1 h).1, along⟩

theorem Cursor.Takes.before (h : c.Takes d) (along : d.Before e) : c.Takes e := by
  obtain ⟨s, seen, inside⟩ := h
  exact ⟨s, seen, inside.trans along⟩

theorem Cursor.Takes.sees (h : c.Takes d) (sees : d.Sees back) : c.Sees back := by
  obtain ⟨s, seen, along⟩ := h
  exact ⟨s, seen, Sight.within_of_sees along sees⟩

theorem Cursor.Takes.sees_of_past (h : c.Takes d) (past : d.Past e) (spared : e.Spares back) : c.Sees back := by
  obtain ⟨s, seen, along⟩ := h
  exact ⟨s, seen, Sight.within_of_past (along.past past) spared⟩

theorem Cursor.Sees.of_mark {mark : Punctuator} (h : c.mark? mark = some s) (spared : s.stop.Spares back) :
    c.Sees back :=
  ⟨s, (Cursor.mark?_eq_some.1 h).1, Sight.within_of_mark h (.refl _) spared⟩

theorem Cursor.embed_advance (text rest : List Char) :
    (c.advance text rest).embed offset back = (c.embed offset back).advance text (rest ++ back) := by
  simp only [Cursor.advance, Cursor.embed, Cursor.mk.injEq, true_and]
  omega

theorem Cursor.sight?_embed (seen : (c.embed offset back).sight? = some s) (within : s.Within back) :
    ∃ s', c.sight? = some s' ∧ s = s'.embed offset back := by
  obtain ⟨y, hstop, mark⟩ := within
  obtain ⟨l, hl, rfl⟩ := Option.map_eq_some_iff.1 seen
  obtain ⟨hall, -⟩ := Lexeme.next?_lossless hl
  change l.rest = y ++ back at hstop
  have hrest : c.rest = l.skipped ++ (l.text ++ y) := by
    change l.skipped ++ (l.text ++ l.rest) = c.rest ++ back at hall
    rw [hstop, ← List.append_assoc, ← List.append_assoc] at hall
    rw [← List.append_assoc]
    exact (List.append_cancel_right hall).symm
  have cut : Lexeme.next? c.rest = some ⟨l.skipped, l.token, l.text, y⟩ := by
    rw [hrest]
    refine Lexeme.next?_cut (z := back) ?_ fun hy _ => mark hy
    change Lexeme.next? (c.rest ++ back) = some l at hl
    rw [hrest] at hl
    simp only [List.append_assoc] at hl
    rw [hl, ← hstop]
  refine ⟨_, congrArg (Option.map _) cut, ?_⟩
  simp only [Sight.embed, Cursor.embed_advance, hstop, List.append_assoc]

theorem Cursor.mark?_embed {mark : Punctuator} (h : (c.embed offset back).mark? mark = some s)
    (spared : s.stop.Spares back) : ∃ s', c.mark? mark = some s' ∧ s = s'.embed offset back := by
  obtain ⟨seen, token⟩ := Cursor.mark?_eq_some.1 h
  obtain ⟨s', seen', rfl⟩ := Cursor.sight?_embed seen (Sight.within_of_mark h (.refl _) spared)
  exact ⟨s', Cursor.mark?_eq_some.2 ⟨seen', token⟩, rfl⟩

theorem Cursor.Sees.sight (h : (c.embed offset back).Sees back) :
    ∃ s', c.sight? = some s' ∧ (c.embed offset back).sight? = some (s'.embed offset back) := by
  obtain ⟨s, seen, within⟩ := h
  obtain ⟨s', seen', rfl⟩ := Cursor.sight?_embed seen within
  exact ⟨s', seen', seen⟩

namespace Cursor.Sees

variable (h : (c.embed offset back).Sees back)

include h

theorem mark_none {mark : Punctuator} (absent : (c.embed offset back).mark? mark = none) :
    c.mark? mark = none := by
  obtain ⟨s', seen', seen⟩ := h.sight
  exact Cursor.mark?_eq_none_of_sight seen' rfl fun token => Cursor.mark?_eq_none.1 absent _ seen token

theorem endsAt (ends : List Punctuator) : c.endsAt ends = (c.embed offset back).endsAt ends := by
  obtain ⟨s', seen', seen⟩ := h.sight
  simp only [Cursor.endsAt, seen', seen]
  rfl

theorem mark_eq {mark : Punctuator} :
    (c.embed offset back).mark? mark = (c.mark? mark).map (·.embed offset back) := by
  obtain ⟨s', seen', seen⟩ := h.sight
  rw [Cursor.mark?, Cursor.mark?, seen', seen]
  by_cases token : s'.token = some (.punctuator mark) <;> simp [Option.filter, Sight.embed, token]

theorem separator_eq (closing : Punctuator) :
    (c.embed offset back).separator? closing = (c.separator? closing).map (·.embed offset back) := by
  rw [Cursor.separator?, Cursor.separator?, h.mark_eq, h.mark_eq]
  cases c.mark? .comma with
  | some s => rfl
  | none => cases c.mark? closing <;> rfl

theorem tagFollows_eq : tagFollows (c.embed offset back) = tagFollows c := by
  obtain ⟨s', seen', seen⟩ := h.sight
  simp only [tagFollows, seen', seen, Option.bind_some, Sight.embed]

theorem closingFollows_eq : closingFollows (c.embed offset back) = closingFollows c := by
  rw [closingFollows, closingFollows, h.mark_eq, Option.isSome_map]

theorem nextStart_eq : (c.embed offset back).nextStart = c.nextStart + offset := by
  obtain ⟨s', seen', seen⟩ := h.sight
  rw [Cursor.nextStart, Cursor.nextStart, seen', seen]
  rfl

end Cursor.Sees

theorem keptStep_embed {ends opened : List Punctuator} {before : Option Token}
    (sees : (s.stop.embed offset back).Sees back) :
    keptStep ends opened before s = keptStep ends opened before (s.embed offset back) :=
  Printer.keptStep_congr rfl sees.tagFollows_eq.symm

end

namespace Parser

variable {offset : Nat} {back : List Char} {c d e : Cursor} {name : String}

theorem ReadsName.embed (h : ReadsName (c.embed offset back) name d) (past : d.Past e)
    (spared : e.Spares back) : ∃ d', d = d'.embed offset back ∧ ReadsName c name d' := by
  obtain ⟨seen, named⟩ := h
  obtain ⟨s', seen', rfl⟩ := Cursor.sight?_embed seen (Sight.within_of_past past spared)
  exact ⟨s'.stop, rfl, .mk seen' named⟩

theorem ReadsDotted.sees (h : ReadsDotted c name d) (sees : d.Sees back) : c.Sees back := by
  cases h with
  | done => exact sees
  | more dot first rest =>
    exact .of_mark dot (sees.spares.of_before (first.past.1.trans rest.before))

theorem ReadsDotted.embed (h : ReadsDotted (c.embed offset back) name d) (sees : d.Sees back) :
    ∃ d', d = d'.embed offset back ∧ ReadsDotted c name d' := by
  generalize hc : c.embed offset back = c₀ at h
  induction h generalizing c with
  | done absent =>
    subst hc
    exact ⟨c, rfl, .done (sees.mark_none absent)⟩
  | more dot first rest ih =>
    subst hc
    obtain ⟨e, past, spared⟩ := sees.past
    obtain ⟨s', dot', rfl⟩ := Cursor.mark?_embed dot
      (sees.spares.of_before (first.past.1.trans rest.before))
    obtain ⟨d', rfl, first'⟩ := ReadsName.embed first (rest.before.past past) spared
    obtain ⟨e', rfl, rest'⟩ := ih sees rfl
    exact ⟨e', rfl, .more dot' first' rest'⟩

theorem ReadsElementName.takes (h : ReadsElementName c name d) : c.Takes d := by
  cases h with
  | colon front colon second =>
    obtain ⟨seen, -⟩ := front
    exact ⟨_, seen, (Cursor.past_mark colon).1.trans second.past.1⟩
  | dotted front plain rest =>
    obtain ⟨seen, -⟩ := front
    exact ⟨_, seen, rest.before⟩

theorem ReadsElementName.embed (h : ReadsElementName (c.embed offset back) name d) (sees : d.Sees back) :
    ∃ d', d = d'.embed offset back ∧ ReadsElementName c name d' := by
  obtain ⟨e, past, spared⟩ := sees.past
  cases h with
  | colon front colon second =>
    obtain ⟨m, rfl, front'⟩ := front.embed (Cursor.past_mark colon)
      (spared.of_before (second.past.1.trans past.1))
    obtain ⟨s', colon', rfl⟩ := Cursor.mark?_embed colon (sees.spares.of_before second.past.1)
    obtain ⟨d', rfl, second'⟩ := ReadsName.embed second past spared
    exact ⟨d', rfl, .colon front' colon' second'⟩
  | dotted front plain rest =>
    obtain ⟨m, rfl, front'⟩ := front.embed (rest.before.past past) spared
    obtain ⟨d', rfl, rest'⟩ := ReadsDotted.embed rest sees
    exact ⟨d', rfl, .dotted front' ((rest.sees sees).mark_none plain) rest'⟩

theorem ReadsAttributeName.takes (h : ReadsAttributeName c name d) : c.Takes d := by
  obtain ⟨s, seen, -, along⟩ := h.sight
  exact ⟨s, seen, along⟩

theorem ReadsAttributeName.embed (h : ReadsAttributeName (c.embed offset back) name d)
    (sees : d.Sees back) : ∃ d', d = d'.embed offset back ∧ ReadsAttributeName c name d' := by
  obtain ⟨e, past, spared⟩ := sees.past
  cases h with
  | colon front colon second =>
    obtain ⟨m, rfl, front'⟩ := front.embed (Cursor.past_mark colon)
      (spared.of_before (second.past.1.trans past.1))
    obtain ⟨s', colon', rfl⟩ := Cursor.mark?_embed colon (sees.spares.of_before second.past.1)
    obtain ⟨d', rfl, second'⟩ := ReadsName.embed second past spared
    exact ⟨d', rfl, .colon front' colon' second'⟩
  | plain front plain =>
    obtain ⟨d', rfl, front'⟩ := front.embed past spared
    exact ⟨d', rfl, .plain front' (sees.mark_none plain)⟩

variable {closed : Option String}

theorem ReadsClosing.sees (h : ReadsClosing c closed d) (spared : d.Spares back) : c.Sees back := by
  cases h with
  | fragment less slash greater =>
    exact .of_mark less (spared.of_before ((Cursor.past_mark slash).1.trans (Cursor.past_mark greater).1))
  | element less slash named read greater =>
    exact .of_mark less (spared.of_before
      ((Cursor.past_mark slash).1.trans (read.past.1.trans (Cursor.past_mark greater).1)))

theorem ReadsClosing.embed (h : ReadsClosing (c.embed offset back) closed d) (spared : d.Spares back) :
    ∃ d', d = d'.embed offset back ∧ ReadsClosing c closed d' := by
  cases h with
  | fragment less slash greater =>
    have spared₂ := spared.of_before (Cursor.past_mark greater).1
    have spared₁ := spared₂.of_before (Cursor.past_mark slash).1
    obtain ⟨a', less', rfl⟩ := Cursor.mark?_embed less spared₁
    obtain ⟨b', slash', rfl⟩ := Cursor.mark?_embed slash spared₂
    obtain ⟨d', greater', rfl⟩ := Cursor.mark?_embed greater spared
    exact ⟨d'.stop, rfl, .fragment less' slash' greater'⟩
  | element less slash named read greater =>
    have sees := read.takes.sees_of_past (Cursor.past_mark greater) spared
    obtain ⟨a', less', rfl⟩ := Cursor.mark?_embed less (sees.spares.of_before (Cursor.past_mark slash).1)
    obtain ⟨b', slash', rfl⟩ := Cursor.mark?_embed slash sees.spares
    obtain ⟨e', rfl, read'⟩ := ReadsElementName.embed read (.of_mark greater spared)
    obtain ⟨d', greater', rfl⟩ := Cursor.mark?_embed greater spared
    exact ⟨d'.stop, rfl, .element less' slash' (sees.mark_none named) read' greater'⟩

theorem stop_of_less {s : Sight} {rest : List Char} (less : c.mark? .less = some s) (h : c.rest = '<' :: rest) :
    s.stop = c.advance ['<'] rest := by
  have across : c.Over ([] ++ Punctuator.less.text.toList) (c.advance ['<'] rest) := ⟨h, rfl⟩
  obtain ⟨s', less', stop⟩ := Cursor.mark?_of_text .less .nil trivial across
  cases less.symm.trans less'
  exact stop

theorem ReadsClosing.follows {rest : List Char} (h : ReadsClosing c closed d) (hc : c.rest = '<' :: rest) :
    closingFollows (c.advance ['<'] rest) = true := by
  cases h with
  | fragment less slash | element less slash =>
    rw [← stop_of_less less hc, closingFollows, slash]
    rfl

end Parser

namespace Cursor

variable {offset : Nat} {back : List Char} {c d e : Cursor}

theorem rest_embed {x : Char} {rest : List Char} (h : (c.embed offset back).rest = x :: rest)
    (more : d.rest.length < c.rest.length) : ∃ rest', c.rest = x :: rest' ∧ rest = rest' ++ back := by
  obtain ⟨y, rest', hrest⟩ := List.exists_cons_of_length_pos (Nat.zero_lt_of_lt more)
  change c.rest ++ back = x :: rest at h
  rw [hrest, List.cons_append, List.cons.injEq] at h
  exact ⟨rest', h.1 ▸ hrest, h.2.symm⟩

theorem takeWhile_cut {α : Type} {f : α → Bool} {x y z : List α}
    (h : (x ++ (y ++ z)).takeWhile f = x) : (x ++ y).takeWhile f = x := by
  have all : ∀ a ∈ x, f a = true := by
    rw [← h]
    exact fun a ha => List.mem_takeWhile_imp ha
  rw [List.takeWhile_append_of_pos all] at h ⊢
  cases y with
  | nil => simp
  | cons a y =>
    cases ha : f a with
    | false => simp [ha]
    | true => simp [ha] at h

theorem exists_embed_takeWhile {f : Char → Bool}
    (h : d = (c.embed offset back).advance ((c.embed offset back).rest.takeWhile f)
      ((c.embed offset back).rest.dropWhile f)) (spared : d.Spares back) :
    ∃ d', d = d'.embed offset back ∧ d' = c.advance (c.rest.takeWhile f) (c.rest.dropWhile f) ∧
      c.rest.takeWhile f = (c.embed offset back).rest.takeWhile f := by
  obtain ⟨y, hy⟩ := spared
  have hdrop : (c.embed offset back).rest.dropWhile f = y ++ back := by rw [← hy, h]; rfl
  have hall : (c.embed offset back).rest.takeWhile f ++ (y ++ back) = c.rest ++ back := by
    rw [← hdrop, List.takeWhile_append_dropWhile]
    rfl
  generalize hx : (c.embed offset back).rest.takeWhile f = x at h hall
  have hrest : c.rest = x ++ y := by
    rw [← List.append_assoc] at hall
    exact (List.append_cancel_right hall).symm
  have take : c.rest.takeWhile f = x := by
    rw [hrest]
    refine takeWhile_cut (z := back) ?_
    rw [hall]
    exact hx
  have drop : c.rest.dropWhile f = y := by
    have := List.takeWhile_append_dropWhile (p := f) (l := c.rest)
    rw [take] at this
    exact List.append_cancel_left (this.trans hrest)
  refine ⟨_, ?_, rfl, take⟩
  rw [take, drop, embed_advance, h, hdrop]

theorem skipBlanks_embed (spared : (c.embed offset back).skipBlanks.Spares back) :
    (c.embed offset back).skipBlanks = c.skipBlanks.embed offset back := by
  obtain ⟨d', hd, rfl, -⟩ := exists_embed_takeWhile (f := isBlank) rfl spared
  exact hd

end Cursor

namespace Parser

variable {offset : Nat} {back : List Char} {c d : Cursor}

theorem drop_textRun (cs : List Char) :
    cs.drop (textRun cs).length = cs.dropWhile fun c => c != '<' && c != '{' :=
  List.append_cancel_left ((textRun_append cs).symm.trans List.takeWhile_append_dropWhile.symm)

theorem ReadsText.embed {front : List Shape} (h : ReadsText (c.embed offset back) front d)
    (spared : d.Spares back) : ∃ d' front', d = d'.embed offset back ∧
      front = front'.map (Shape.shift offset) ∧ ReadsText c front' d' := by
  have run {d : Cursor} (h : d = (c.embed offset back).advance (textRun (c.embed offset back).rest)
      ((c.embed offset back).rest.drop (textRun (c.embed offset back).rest).length))
      (spared : d.Spares back) : ∃ d', d = d'.embed offset back ∧
        d' = c.advance (textRun c.rest) (c.rest.drop (textRun c.rest).length) ∧
        textRun c.rest = textRun (c.embed offset back).rest := by
    rw [drop_textRun] at h ⊢
    exact Cursor.exists_embed_takeWhile h spared
  cases h with
  | empty h =>
    obtain ⟨d', -, -, same⟩ := run (d := c.embed offset back) (by rw [h]; rfl) spared
    exact ⟨c, [], rfl, rfl, .empty (same.trans h)⟩
  | text filled clean stop =>
    obtain ⟨d', rfl, stop', same⟩ := run stop spared
    rw [← same] at filled clean ⊢
    exact ⟨d', _, rfl, rfl, .text filled clean stop'⟩

end Parser

end MarkupEditor
