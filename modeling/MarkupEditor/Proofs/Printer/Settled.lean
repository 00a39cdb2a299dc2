import MarkupEditor.Proofs.Printer.Cuts

set_option autoImplicit false

namespace MarkupEditor

open Text Lexer MarkupEditor.Parser

namespace Lexeme

/-- The tokens of a text of at most so many lexemes. A lexeme without a token counts, too. -/
def tokensTo : Nat → List Char → List (Option Token)
  | 0, _ => []
  | depth + 1, cs =>
    match next? cs with
    | none => []
    | some l => l.token :: tokensTo depth l.rest

/-- The tokens of a text. No lexeme is empty, so there are at most as many as characters. -/
def tokens (cs : List Char) : List (Option Token) :=
  tokensTo cs.length cs

theorem length_rest_lt {cs : List Char} {l : Lexeme} (h : next? cs = some l) : l.rest.length < cs.length := by
  obtain ⟨hall, filled⟩ := next?_lossless h
  have := List.length_pos_iff.2 filled
  rw [← hall, List.length_append, List.length_append]
  omega

theorem tokensTo_of_none {cs : List Char} (h : next? cs = none) (depth : Nat) : tokensTo depth cs = [] := by
  cases depth with
  | zero => rfl
  | succ depth => rw [tokensTo, h]

theorem tokensTo_eq {cs : List Char} {n m : Nat} (hn : cs.length ≤ n) (hm : cs.length ≤ m) :
    tokensTo n cs = tokensTo m cs := by
  induction n generalizing cs m with
  | zero =>
    cases List.eq_nil_of_length_eq_zero (Nat.le_zero.1 hn)
    exact (tokensTo_of_none rfl m).symm
  | succ n ih =>
    cases next : next? cs with
    | none => rw [tokensTo_of_none next, tokensTo_of_none next]
    | some l =>
      have hlt := length_rest_lt next
      obtain ⟨m, rfl⟩ : ∃ k, m = k + 1 := Nat.exists_eq_add_of_le' (by omega)
      rw [tokensTo, tokensTo, next]
      exact congrArg (l.token :: ·) (ih (by omega) (by omega))

theorem tokens_of_none {cs : List Char} (h : next? cs = none) : tokens cs = [] :=
  tokensTo_of_none h _

theorem tokens_of_some {cs : List Char} {l : Lexeme} (h : next? cs = some l) :
    tokens cs = l.token :: tokens l.rest := by
  have hlt := length_rest_lt h
  obtain ⟨n, hn⟩ : ∃ n, cs.length = n + 1 := Nat.exists_eq_add_of_le' (by omega)
  rw [tokens, hn, tokensTo, h]
  exact congrArg (l.token :: ·) (tokensTo_eq (by omega) (Nat.le_refl _))

end Lexeme

/-- What is met in a kept text: a lexeme with its token, if it has one, or markup. -/
inductive KeptItem where
  | lexeme (token : Option Token)
  | markup

instance (before next : Option Token) : Decidable (Printer.NoTag before next) :=
  inferInstanceAs (Decidable (_ ∨ _ → _))

namespace KeptItem

variable {ι κ : Type}

def ofPart : OpaquePart ι → List KeptItem
  | .source text => (Lexeme.tokens text.toList).map .lexeme
  | .node _ => [.markup]

def ofParts (parts : List (OpaquePart ι)) : List KeptItem :=
  parts.flatMap ofPart

def token? : List KeptItem → Option Token
  | .lexeme token :: _ => token
  | _ => none

/-- Whether the rest of a kept text closes the brackets that are open, with no angle in it that begins a
tag to an attempt but none to the step through the text. `before` is the token that was met last. -/
def settle (opened : List Punctuator) (before : Option Token) : List KeptItem → Bool
  | [] => opened.isEmpty
  | .lexeme token :: items =>
    (token ≠ some (.punctuator .less) || decide (Printer.NoTag before (token? items))) &&
      (bracketsAfter opened token).any fun opened => settle opened token items
  | .markup :: items => settle opened (some (.punctuator .greater)) items

theorem ofParts_map (f : ι → κ) (parts : List (OpaquePart ι)) :
    ofParts (parts.map (·.map f)) = ofParts parts := by
  rw [ofParts, ofParts, List.flatMap_map]
  congr
  funext part
  cases part <;> rfl

theorem ofParts_sourcePart (text : List Char) (others : List (OpaquePart ι)) :
    ofParts (sourcePart text ++ others) = (Lexeme.tokens text).map .lexeme ++ ofParts others := by
  cases text with
  | nil => rfl
  | cons c text =>
    change (Lexeme.tokens (String.ofList (c :: text)).toList).map KeptItem.lexeme ++ ofParts others = _
    rw [String.toList_ofList]

theorem settle_lexeme {opened : List Punctuator} {before token : Option Token} {items : List KeptItem}
    (h : settle opened before (.lexeme token :: items) = true) :
    (token = some (.punctuator .less) → Printer.NoTag before (token? items)) ∧
      ∃ opened', bracketsAfter opened token = some opened' ∧ settle opened' token items = true := by
  rw [settle, Bool.and_eq_true, Option.any_eq_true] at h
  refine ⟨fun less => ?_, h.2⟩
  simpa [less] using h.1

end KeptItem

def NodeKind.settled {ι : Type} : NodeKind ι → Bool
  | .opaqueText parts => KeptItem.settle [] none (KeptItem.ofParts parts)
  | _ => true

@[simp] theorem NodeKind.settled_map {ι κ : Type} (f : ι → κ) (kind : NodeKind ι) :
    (kind.map f).settled = kind.settled := by
  cases kind <;> simp [NodeKind.map, NodeKind.settled, KeptItem.ofParts_map]

inductive Shape.Settled : Shape → Prop where
  | node {span : Option Span} {kind : NodeKind Shape} (here : kind.settled = true)
    (below : ∀ e ∈ kind.children, Settled e) : Settled (.node span kind)

theorem Shape.Settled.children {span : Option Span} {kind : NodeKind Shape}
    (h : (Shape.node span kind).Settled) : ∀ e ∈ kind.children, e.Settled := by
  cases h with
  | node here below => exact below

namespace Printer

variable {ends barred opened opened' : List Punctuator} {before : Option Token} {text left : List Char}
  {c c' d d' : Cursor} {s s' : Sight} {found others : List (OpaquePart Shape)} {items : List KeptItem}

theorem next?_of_front {q : List Char} (seen : c.sight? = some s) (rest : s.stop.rest = left ++ q)
    (still : Still q) :
    Lexeme.next? (s.skipped ++ (s.text ++ left)) = some ⟨s.skipped, s.token, s.text, left⟩ := by
  obtain ⟨l, hl, rfl⟩ := Option.map_eq_some_iff.1 seen
  obtain ⟨hall, -⟩ := Lexeme.next?_lossless hl
  change l.rest = left ++ q at rest
  refine Lexeme.next?_cut (z := q) ?_ fun _ dash => ?_
  · change Lexeme.next? (l.skipped ++ (l.text ++ (left ++ q))) = some ⟨l.skipped, l.token, l.text, left ++ q⟩
    rw [← rest, hall, hl]
  · exact absurd (still '-' dash) (by decide)

theorem still_after {q : List Char} (hends : ends ⊆ closers) (ended : d.endsAt ends = true)
    (after : q = d.rest ∨ q.head? = some '<') : Still q := by
  obtain rfl | hq := after
  · exact still_of_closers ended hends
  · obtain ⟨q, rfl⟩ := List.head?_eq_some_iff.1 hq
    exact (Quiet.cons (by decide)).still

/-- What is met in parts that were read, once a text has been passed at their front. -/
def Met (text : List Char) (found : List (OpaquePart Shape)) (items : List KeptItem) : Prop :=
  ∃ left others, found = sourcePart (text ++ left) ++ others ∧ NoSource others ∧
    items = KeptItem.ofParts (sourcePart left ++ others)

theorem met_of_reads (h : Reads (.parts ends opened before text) c (.parts found) d) :
    ∃ items, Met text found items := by
  obtain ⟨left, others, q, hfound, no, -⟩ := parts_front h
  exact ⟨_, left, others, hfound, no, rfl⟩

theorem met_all (h : Met [] found items) : items = KeptItem.ofParts found := by
  obtain ⟨left, others, rfl, -, rfl⟩ := h
  rfl

theorem met_nothing (h : Met text (sourcePart text) items) : items = [] := by
  obtain ⟨left, others, parts, no, rfl⟩ := h
  obtain ⟨htext, rfl⟩ := sourcePart_inj ((List.append_nil _).trans parts) noSource_nil no
  cases List.self_eq_append_right.1 htext
  rfl

theorem met_markup {e : Shape} (seen : c.sight? = some s)
    (h : Met text (sourcePart (text ++ s.skipped) ++ .node e :: others) items) :
    items = .markup :: KeptItem.ofParts others := by
  obtain ⟨left, others', parts, no, rfl⟩ := h
  obtain ⟨htext, rfl⟩ := sourcePart_inj parts (noSource_node e others) no
  cases List.append_cancel_left htext
  rw [KeptItem.ofParts_sourcePart, Lexeme.tokens_of_none (next?_skipped seen)]
  rfl

theorem twin_end (ended : d.endsAt ends = true) (ended' : d'.endsAt ends = true)
    (met : Met text (sourcePart text) items) (settled : KeptItem.settle opened before items = true) :
    Twin ends barred opened before d d' := by
  rw [met_nothing met, KeptItem.settle, List.isEmpty_iff] at settled
  subst settled
  exact .stop ended ended'

theorem twin_markup {e e' : Shape} {f f' : Cursor} (less : c.mark? .less = some s)
    (less' : c'.mark? .less = some s') (step : keptStep ends opened before s = .markup)
    (follows' : tagFollows s'.stop = true) (read : Reads .markup c (.node e) f)
    (read' : Reads .markup c' (.node e') f')
    (rest : Reads (.parts ends opened (some (.punctuator .greater)) []) f (.parts others) d)
    (met : Met text (sourcePart (text ++ s.skipped) ++ .node e :: others) items)
    (settled : KeptItem.settle opened before items = true)
    (more : ∀ items', Met [] others items' → items = .markup :: items' →
      KeptItem.settle opened (some (.punctuator .greater)) items' = true →
        Twin ends barred opened (some (.punctuator .greater)) f f') : Twin ends barred opened before c c' := by
  obtain ⟨-, free, follows⟩ := tag_of_markup step
  have hitems := met_markup (Cursor.mark?_eq_some.1 less).1 met
  obtain ⟨items', met'⟩ := met_of_reads rest
  rw [← met_all met'] at hitems
  rw [hitems, KeptItem.settle] at settled
  exact .markup less less' free follows follows' read read' (more items' met' hitems settled)

section

variable (hends : ends ⊆ closers) (ended : d.endsAt ends = true)

include hends ended

theorem met_taken (seen : c.sight? = some s)
    (read : Reads (.parts ends opened before (text ++ s.skipped ++ s.text)) s.stop (.parts found) d)
    (met : Met text found items) :
    ∃ items', Met (text ++ s.skipped ++ s.text) found items' ∧ items = .lexeme s.token :: items' := by
  obtain ⟨left, others, hfound, no, rfl⟩ := met
  obtain ⟨left', others', q, hfound', no', rest, after⟩ := parts_front read
  obtain ⟨htext, rfl⟩ := sourcePart_inj (hfound'.symm.trans hfound) no' no
  simp only [List.append_assoc, List.append_cancel_left_eq] at htext
  subst htext
  have next := next?_of_front seen rest (still_after hends ended after)
  refine ⟨_, ⟨left', others', hfound', no', rfl⟩, ?_⟩
  rw [KeptItem.ofParts_sourcePart, KeptItem.ofParts_sourcePart, Lexeme.tokens_of_some next]
  rfl

theorem beginsTag_of_met (read : Reads (.parts ends opened before text) c (.parts found) d)
    (met : Met text found items) :
    (c.sight?.bind (·.token)).any Token.beginsTag = (KeptItem.token? items).any Token.beginsTag := by
  cases read with
  | partsEnd | partsStop =>
    rw [met_nothing met]
    exact beginsTag_of_endsAt hends ended
  | partsTake seen step more =>
    obtain ⟨items', -, rfl⟩ := met_taken hends ended seen more met
    rw [seen]
    rfl
  | partsMarkup seen step read more =>
    rw [met_markup seen met, seen, Option.bind_some, (tag_of_markup step).1]
    rfl

theorem twin_take (seen : c.sight? = some s) (seen' : c'.sight? = some s') (token : s'.token = s.token)
    (step : keptStep ends opened before s = .take opened')
    (read : Reads (.parts ends opened' s.token (text ++ s.skipped ++ s.text)) s.stop (.parts found) d)
    (met : Met text found items) (settled : KeptItem.settle opened before items = true)
    (unbarred : opened = [] → ∀ mark ∈ barred, s.token ≠ some (.punctuator mark))
    (more : ∀ items', Met (text ++ s.skipped ++ s.text) found items' → items = .lexeme s.token :: items' →
      KeptItem.settle opened' s.token items' = true → Twin ends barred opened' s.token s.stop s'.stop) :
    Twin ends barred opened before c c' := by
  obtain ⟨items', met', rfl⟩ := met_taken hends ended seen read met
  obtain ⟨plain, opened₂, brackets, settled⟩ := KeptItem.settle_lexeme settled
  cases (brackets_of_take step).symm.trans brackets
  refine .take seen seen' token brackets unbarred (fun less => ?_) (more items' met' rfl settled)
  rw [NoTag, beginsTag_of_met hends ended read met']
  exact plain less

end

end Printer

end MarkupEditor
