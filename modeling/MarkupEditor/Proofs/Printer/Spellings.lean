import Mathlib.Data.List.TakeWhile
import MarkupEditor.Proofs.Printer.Children

set_option autoImplicit false

namespace MarkupEditor

open Text Lexer MarkupEditor.Parser

namespace Lexer

theorem quoted_ne_nil {quote : Char} {cs : List Char} (h : (quoted quote cs).2 = true) :
    (quoted quote cs).1.1 ≠ [] := by
  fun_cases quoted quote cs <;> simp_all [quoted, pass]

theorem quoted_ne_one {quote c : Char} (hc : c ≠ quote) (q : List Char) :
    quoted quote (c :: q) ≠ (([c], q), true) := by
  intro h
  cases q with
  | nil =>
    simp only [quoted, if_neg hc] at h
    split at h <;> cases h
  | cons d q =>
    have filled : ∀ cs, (quoted quote cs).1.1 = [] → (quoted quote cs).2 ≠ true :=
      fun cs hcs closed => quoted_ne_nil closed hcs
    simp only [quoted, if_neg hc, pass] at h
    split at h
    · split at h
      · cases h
      · simp at h
    · split at h
      · cases h
      · simp only [Prod.mk.injEq, List.cons.injEq, true_and] at h
        exact filled _ h.1.1 h.2

theorem quoted_cut {quote : Char} {x q : List Char} (h : quoted quote (x ++ q) = ((x, q), true)) :
    quoted quote x = ((x, []), true) := by
  fun_induction quoted quote x with
  | case1 => exact absurd (congrArg (·.1.1) h) (quoted_ne_nil (congrArg Prod.snd h))
  | case2 => rfl
  | case3 c hc stop => exact absurd h (quoted_ne_one hc q)
  | case4 c hc stop => exact absurd h (quoted_ne_one hc q)
  | case7 d cs hline found closed hrest hc ih =>
    simp only [List.cons_append, quoted, if_neg hc, if_neg hline, if_true, pass, Prod.mk.injEq,
      List.cons.injEq, true_and] at h
    have := ih (Prod.ext (Prod.ext h.1.1 h.1.2) h.2)
    cases hrest.symm.trans this
    rfl
  | case9 c d cs hc hslash hline found closed hrest ih =>
    simp only [List.cons_append, quoted, if_neg hc, if_neg hslash, if_neg hline, pass, Prod.mk.injEq,
      List.cons.injEq, true_and] at h
    have := ih (Prod.ext (Prod.ext h.1.1 h.1.2) h.2)
    cases hrest.symm.trans this
    rfl
  | _ => simp_all [quoted]

theorem identifierTail_stops {c : Char} {cs : List Char} (h : (identifierTail (c :: cs)).1 = []) :
    continuesIdentifier c = false := by
  cases hc : continuesIdentifier c with
  | false => rfl
  | true => cases cs <;> simp [identifierTail, hc, pass] at h

theorem identifierTail_cut {x q : List Char} (h : identifierTail (x ++ q) = (x, q)) :
    identifierTail x = (x, []) := by
  induction x with
  | nil => rfl
  | cons c x ih =>
    rcases x with _ | ⟨d, x⟩
    · cases q with
      | nil => exact h
      | cons d q =>
        simp only [List.cons_append, List.nil_append, identifierTail] at h
        split at h
        · rename_i hc
          simp only [pass, Prod.mk.injEq, List.cons.injEq, true_and] at h
          have hd := identifierTail_stops h.1
          simp_all [identifierTail]
        · simp at h
    · simp only [List.cons_append, identifierTail] at h ih ⊢
      split at h
      · rename_i hc
        simp only [pass, Prod.mk.injEq, List.cons.injEq, true_and] at h
        rw [if_pos hc, ih (Prod.ext h.1 h.2)]
        rfl
      · simp at h

theorem number_cut {x q : List Char} (still : Still q) (h : number (x ++ q) = (x, q)) :
    number x = (x, []) := by
  rw [number_before still] at h
  obtain ⟨htext, hrest⟩ := Prod.mk.inj h
  exact Prod.ext htext (List.append_left_eq_self.1 hrest)

theorem not_blank_of_digit {c : Char} (h : c.isDigit = true) : isTokenBlank c = false ∧ c ≠ '/' :=
  plain_of_class (by decide) h

end Lexer

theorem Keyword.text_of_ofText? {text : String} {word : Keyword} (h : Keyword.ofText? text = some word) :
    word.text = text := by
  unfold Keyword.ofText? at h
  repeat' split at h
  all_goals cases h
  all_goals symm; assumption

namespace Lexeme

theorem identifierToken_text (text rest : List Char) :
    (identifierToken text rest).text = String.ofList text := by
  rw [identifierToken_eq]
  cases hword : Keyword.ofText? (String.ofList text) with
  | none => rfl
  | some word =>
    change (if _ then Token.identifier _ else Token.keyword word).text = _
    split
    · rfl
    · exact Keyword.text_of_ofText? hword

theorem identifierToken_name? (text rest : List Char) :
    (identifierToken text rest).name? = some (String.ofList text) := by
  have h := identifierToken_text text rest
  rw [identifierToken_eq] at h ⊢
  revert h
  cases Keyword.ofText? (String.ofList text) with
  | none => exact fun _ => rfl
  | some word =>
    change (if _ then Token.identifier _ else Token.keyword word).text = _ → _
    intro h
    split at h
    · rename_i dash
      simp only [if_pos dash]
      rfl
    · rename_i dash
      simp only [if_neg dash]
      exact congrArg some h

theorem whole_of_first {c : Char} {tail : List Char} {token : Token} (blank : isTokenBlank c = false)
    (slash : c ≠ '/') (h : first [] c tail = ⟨[], some token, c :: tail, []⟩)
    (text : token.text.toList = c :: tail) : token.Whole := by
  rw [Token.Whole, text, next?, skip_plain blank (absurd · slash)]
  exact congrArg some h

theorem identifierToken_whole {c : Char} {tail : List Char} (begins : beginsIdentifier c = true)
    (h : identifierTail tail = (tail, [])) : (identifierToken (c :: tail) []).Whole := by
  obtain ⟨blank, slash⟩ := beginsIdentifier_spec begins
  have hfirst : first [] c tail = ⟨[], some (identifierToken (c :: tail) []), c :: tail, []⟩ := by
    simp [first, begins, h]
  exact whole_of_first blank slash hfirst (by rw [identifierToken_text, String.toList_ofList])

theorem first_whole {c : Char} {cs skipped text rest : List Char} {token : Token}
    (h : first skipped c cs = ⟨skipped, some token, text, rest⟩)
    (plain : ∀ mark, token ≠ .punctuator mark) (still : Still rest) :
    token.text.toList = text ∧ token.Whole := by
  have hall : text ++ rest = c :: cs := by
    have := first_append skipped c cs
    rwa [h] at this
  unfold first at h
  split at h
  · rename_i begins
    obtain ⟨-, htoken, rfl, rfl⟩ := Lexeme.mk.inj h
    cases htoken
    have cut := identifierTail_cut (x := (identifierTail cs).1) (q := (identifierTail cs).2)
      (by rw [identifierTail_append])
    have same := identifierToken_before still.endsName (c :: (identifierTail cs).1) []
    rw [List.nil_append] at same
    rw [same]
    exact ⟨by rw [identifierToken_text, String.toList_ofList], identifierToken_whole begins cut⟩
  · rename_i begins
    split at h
    · rename_i digit
      obtain ⟨blank, slash⟩ := not_blank_of_digit digit
      have hne := number_ne_nil digit cs
      rcases hnumber : number (c :: cs) with ⟨found, left⟩
      rw [hnumber] at h hne
      obtain ⟨-, htoken, rfl, rfl⟩ := Lexeme.mk.inj h
      cases htoken
      rw [← hall] at hnumber
      obtain ⟨x, tail, rfl⟩ := List.exists_cons_of_ne_nil hne
      obtain ⟨rfl, -⟩ := List.cons.inj hall
      have cut := number_cut still hnumber
      have hfirst : first [] x tail =
          ⟨[], some (.number (String.ofList (x :: tail))), x :: tail, []⟩ := by
        simp [first, begins, digit, cut]
      exact ⟨String.toList_ofList, whole_of_first blank slash hfirst String.toList_ofList⟩
    · rename_i digit
      split at h
      · rename_i quote
        have hquoted := quoted_append c cs
        rcases hq : quoted c cs with ⟨⟨tail, left⟩, closed⟩
        rw [hq] at h hquoted
        obtain ⟨-, htoken, rfl, rfl⟩ := Lexeme.mk.inj h
        cases closed with
        | false => cases htoken
        | true =>
          rw [← hquoted] at hq
          have cut := quoted_cut hq
          have blank : isTokenBlank c = false ∧ c ≠ '/' := by
            rcases quote with rfl | rfl | rfl <;> decide
          have hfirst : first [] c tail = ⟨[], some token, c :: tail, []⟩ := by
            rw [← htoken]
            simp [first, begins, digit, quote, cut]
          have htext : token.text.toList = c :: tail := by
            rw [← Option.some.inj htoken]
            by_cases hc : c = '\u0060' <;> simp [hc, Token.text]
          exact ⟨htext, whole_of_first blank.1 blank.2 hfirst htext⟩
      · split at h
        · cases h
        · split at h <;> cases h
          exact absurd rfl (plain _)

theorem first_mark {c : Char} {cs skipped text rest : List Char} {mark : Punctuator}
    (h : first skipped c cs = ⟨skipped, some (.punctuator mark), text, rest⟩) :
    text = mark.text.toList := by
  unfold first at h
  split at h
  · have hname := congrArg Lexeme.token h
    simp only [identifierToken_eq, Option.some.injEq] at hname
    revert hname
    repeat' split
    all_goals nofun
  · split at h
    · cases h
    · split at h
      · have htoken := congrArg Lexeme.token h
        revert htoken
        change (if _ then some (if _ then _ else _) else none) = _ → _
        repeat' split
        all_goals nofun
      · split at h
        · cases h
        · split at h <;> cases h
          rfl

end Lexeme

namespace Lexer

theorem skip_head (c : Char) (cs : List Char) :
    (skip .between (c :: cs)).1 = [] ∨ isTokenBlank c = true ∨ c = '/' := by
  cases hb : isTokenBlank c with
  | true => exact .inr (.inl rfl)
  | false =>
    by_cases hc : c = '/'
    · exact .inr (.inr hc)
    · exact .inl (by rw [skip_plain hb (absurd · hc)])

end Lexer

namespace Cursor

variable {c d : Cursor} {s : Sight}

theorem sight?_first (h : c.sight? = some s) :
    ∃ x cs, skip .between c.rest = (s.skipped, x :: cs) ∧
      Lexeme.first s.skipped x cs = ⟨s.skipped, s.token, s.text, s.stop.rest⟩ := by
  obtain ⟨lexeme, hl, rfl⟩ := Option.map_eq_some_iff.1 h
  unfold Lexeme.next? at hl
  split at hl
  · cases hl
  · rename_i skipped x cs heq
    cases hl
    have hskipped := Lexeme.first_skipped skipped x cs
    refine ⟨x, cs, ?_, ?_⟩
    · rw [hskipped, heq]
    · rcases hfirst : Lexeme.first skipped x cs with ⟨_, _, _, _⟩
      rw [hfirst] at hskipped
      cases hskipped
      exact hfirst

theorem sight?_skip (h : c.sight? = none) : skip .between c.rest = (c.rest, []) := by
  have hall := skip_append .between c.rest
  have hl := Option.map_eq_none_iff.1 h
  unfold Lexeme.next? at hl
  split at hl
  · rename_i skipped heq
    rw [heq, List.append_nil] at hall
    rw [heq, ← hall]
  · cases hl

theorem text_of_mark {mark : Punctuator} (h : c.mark? mark = some s) : s.text = mark.text.toList := by
  obtain ⟨seen, token⟩ := mark?_eq_some.1 h
  obtain ⟨x, cs, -, hfirst⟩ := sight?_first seen
  rw [token] at hfirst
  exact Lexeme.first_mark hfirst

theorem whole_of_sight {token : Token} (seen : c.sight? = some s) (h : s.token = some token)
    (plain : ∀ mark, token ≠ .punctuator mark) (still : Still s.stop.rest) :
    token.text.toList = s.text ∧ token.Whole := by
  obtain ⟨x, cs, -, hfirst⟩ := sight?_first seen
  rw [h] at hfirst
  exact Lexeme.first_whole hfirst plain still

/-- Where an expression ends nothing goes on with a lexeme: the source ends, or blanks, a comment or
one of the marks come next. -/
theorem still_of_endsAt {ends : List Punctuator} (h : c.endsAt ends = true)
    (hends : ∀ mark ∈ ends, Quiet mark.text.toList) : Still c.rest := by
  intro x hx
  obtain ⟨cs, hrest⟩ := List.head?_eq_some_iff.1 hx
  have hhead := skip_head x cs
  rw [← hrest] at hhead
  obtain hskip | hb | rfl := hhead
  · cases seen : c.sight? with
    | none =>
      rw [sight?_skip seen, hrest] at hskip
      cases hskip
    | some s =>
      obtain ⟨y, ys, heq, -⟩ := sight?_first seen
      obtain ⟨-, -, htext, hall, hne⟩ := sight?_spec seen
      replace hskip : s.skipped = [] := by rwa [heq] at hskip
      simp only [endsAt, seen, Option.any_eq_true] at h
      obtain ⟨token, htoken, hone⟩ := h
      cases token with
      | punctuator mark =>
        have hmark := text_of_mark (mark?_eq_some.2 ⟨seen, htoken⟩)
        refine List.mem_append_right _ (hends mark (by simpa [Token.isOneOf] using hone) x ?_)
        obtain ⟨z, tail, hz, -⟩ := mark.text_head
        rw [hskip, List.nil_append, htext, hmark, hz, hrest] at hall
        rw [hz, (List.cons.inj hall).1]
        rfl
      | _ => cases hone
  · simp only [isTokenBlank, Bool.or_eq_true, beq_iff_eq] at hb
    rcases hb with (((rfl | rfl) | rfl) | rfl) | rfl <;> decide
  · decide

end Cursor

namespace Printer

variable {c d : Cursor}

theorem isName_of_reads {name : String} (h : ReadsName c name d) : IsName name := by
  obtain ⟨seen, named⟩ := h
  obtain ⟨token, htoken, hname⟩ := Option.bind_eq_some_iff.1 named
  obtain ⟨x, cs, -, hfirst⟩ := Cursor.sight?_first seen
  rw [htoken] at hfirst
  obtain ⟨begins, htext, -, rfl⟩ := Lexeme.name_spec hfirst (by rw [hname]; rfl)
  have cut := identifierTail_cut (x := (identifierTail cs).1) (q := (identifierTail cs).2)
    (by rw [identifierTail_append])
  refine ⟨_, Lexeme.identifierToken_whole begins cut, ?_⟩
  rw [Lexeme.identifierToken_name?] at hname ⊢
  rwa [← htext]

theorem isDotted_of_reads {name : String} (h : ReadsDotted c name d) : IsDotted name := by
  induction h with
  | done => exact .done
  | more dot first rest ih => exact .more (isName_of_reads first) ih

theorem isElementName_of_reads {name : String} (h : ReadsElementName c name d) :
    IsElementName name := by
  cases h with
  | colon front colon back => exact .colon (isName_of_reads front) (isName_of_reads back)
  | dotted front plain rest => exact .dotted (isName_of_reads front) (isDotted_of_reads rest)

theorem isAttributeName_of_reads {name : String} (h : ReadsAttributeName c name d) :
    IsAttributeName name := by
  cases h with
  | colon front colon back => exact .colon (isName_of_reads front) (isName_of_reads back)
  | plain front plain => exact .plain (isName_of_reads front)

theorem structured_leaf {token : Token} {kind : NodeKind Shape} {span : Option Span}
    (whole : token.Whole) (made : LeafOf token kind) : RereadStructured true (.node span kind) := by
  refine structured_of_token whole made ?_ fun _ => .node rfl
  rw [Shape.print_node]
  cases made with
  | number => rfl
  | plain h =>
    cases token with
    | keyword word => cases word <;> cases h <;> rfl
    | _ => cases h <;> rfl

theorem rereadKey_leaf {token : Token} {key : PropertyKey Shape} (whole : token.Whole)
    (made : KeyOf token key) : RereadKey true key := by
  refine rereadKey_of_token token whole made ?_ rfl
  cases made with
  | number => rfl
  | plain h => cases token <;> cases h <;> rfl

theorem blank_of_sight {s : Sight} (seen : c.sight? = some s) : Blank s.skipped := by
  obtain ⟨x, cs, heq, -⟩ := Cursor.sight?_first seen
  intro text
  have := @skip_gap .between c.rest (by rw [heq]; exact List.cons_ne_nil x cs) text
  rwa [heq] at this

theorem structured_negative {gap : List Char} {raw : String} {value : Binary64} {span : Option Span}
    (blank : Blank gap) (whole : (Token.number raw).Whole) (read : numberValue? raw.toList = some value) :
    RereadStructured true
      (.node span (.literal (.number value.neg) (some (String.ofList ('-' :: gap ++ raw.toList))))) := by
  intro gap' c d blank' quiet across
  have hprint : (Shape.node span (.literal (.number value.neg)
      (some (String.ofList ('-' :: gap ++ raw.toList))))).print =
      ['-'] ++ (gap ++ (Token.number raw).text.toList) := by
    rw [Shape.print_node]
    exact String.toList_ofList
  rw [hprint, ← List.append_assoc] at across
  obtain ⟨c₁, before, after⟩ := across.split
  obtain ⟨s, sign, rfl⟩ := Cursor.mark?_of_text .minus blank' trivial before
  obtain ⟨n, next, token, skipped, text, rfl⟩ := Cursor.sight?_of_token whole blank quiet after
  have hnumber : n.number? = some raw := by rw [Sight.number?, token]
  have hspelling : negativeSpelling s n = String.ofList ('-' :: gap ++ raw.toList) := by
    rw [negativeSpelling, Cursor.text_of_mark sign, skipped, text]
    rfl
  obtain ⟨seen, hsign⟩ := Cursor.mark?_eq_some.1 sign
  refine ⟨s, _, _, seen, hsign, rfl, .negative sign next hnumber read, .node ?_⟩
  rw [hspelling]

end Printer

end MarkupEditor
