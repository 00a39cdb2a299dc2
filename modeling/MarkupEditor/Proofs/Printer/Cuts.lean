import MarkupEditor.Proofs.Printer.Kept

set_option autoImplicit false

namespace MarkupEditor

open Text

namespace Lexer

variable {x y z : List Char}

theorem takeClass_cut {f : Char → Bool} (h : takeClass f (x ++ (y ++ z)) = (x, y ++ z)) :
    takeClass f (x ++ y) = (x, y) := by
  induction x with
  | nil =>
    cases y with
    | nil => rfl
    | cons c y =>
      cases hc : f c <;> simp_all [takeClass]
  | cons c x ih =>
    cases hc : f c <;> simp_all [takeClass]

theorem identifierTail_cutoff (h : identifierTail (x ++ (y ++ z)) = (x, y ++ z)) :
    identifierTail (x ++ y) = (x, y) := by
  induction x with
  | nil =>
    rcases y with _ | ⟨c, _ | ⟨d, y⟩⟩
    · rfl
    · have hc := @identifierTail_stops c z (congrArg Prod.fst h)
      simp [identifierTail, hc]
    · simp only [List.nil_append, List.cons_append, identifierTail] at h ⊢
      split at h
      · cases h
      · rename_i hc
        rw [if_neg hc]
  | cons c x ih =>
    cases hxy : x ++ y with
    | nil =>
      obtain ⟨rfl, rfl⟩ := List.append_eq_nil_iff.1 hxy
      exact identifierTail_cut h
    | cons d t =>
      rw [List.cons_append, ← List.append_assoc, hxy, List.cons_append, identifierTail] at h
      split at h
      · rename_i hc
        obtain ⟨hx, hy⟩ := Prod.mk.inj h
        have cut := ih (by
          rw [← List.append_assoc, hxy]
          exact Prod.ext (List.cons.inj hx).2 hy)
        rw [List.cons_append, hxy, identifierTail, if_pos hc, ← hxy, cut]
        rfl
      · cases h

theorem takeClass_head {f : Char → Bool} {cs q : List Char} {d : Char}
    (h : takeClass f cs = (d :: x, q)) : ∃ rest, cs = d :: rest ∧ f d = true := by
  cases cs with
  | nil => cases h
  | cons c cs => cases hc : f c <;> simp_all [takeClass]

theorem fraction_cons {c : Char} {cs q : List Char} :
    fraction (c :: cs) = (c :: x, q) ↔ c = '.' ∧ x ≠ [] ∧ takeClass Char.isDigit cs = (x, q) := by
  constructor
  · intro h
    rcases cs with _ | ⟨d, cs⟩
    · by_cases hc : c = '.' <;> simp [fraction, hc] at h
    · by_cases hc : c = '.' <;> cases hd : d.isDigit <;> simp_all [fraction, pass, takeClass]
      rw [← h.1]
      exact List.cons_ne_nil _ _
  · rintro ⟨rfl, hx, h⟩
    obtain ⟨d, x, rfl⟩ := List.exists_cons_of_ne_nil hx
    obtain ⟨rest, rfl, hd⟩ := takeClass_head h
    simp [fraction, hd, h, pass]

theorem fraction_cut (h : fraction (x ++ (y ++ z)) = (x, y ++ z)) : fraction (x ++ y) = (x, y) := by
  rcases x with _ | ⟨c, x⟩
  · rcases y with _ | ⟨c, _ | ⟨d, y⟩⟩
    · rfl
    · by_cases hc : c = '.' <;> simp [fraction, hc]
    · by_cases hc : c = '.' <;> cases hd : d.isDigit <;> simp_all [fraction, pass]
  · obtain ⟨hc, hx, digits⟩ := fraction_cons.1 h
    exact fraction_cons.2 ⟨hc, hx, takeClass_cut digits⟩

theorem exponentDigits_cons {c : Char} {cs q : List Char} :
    exponentDigits (c :: cs) = (c :: x, q) ↔
      c.isDigit = true ∧ takeClass Char.isDigit (c :: cs) = (c :: x, q) ∨
      c.isDigit = false ∧ (c = '+' ∨ c = '-') ∧ x ≠ [] ∧ takeClass Char.isDigit cs = (x, q) := by
  cases hc : c.isDigit with
  | true => simp [exponentDigits, hc]
  | false =>
    constructor
    · intro h
      refine .inr ⟨rfl, ?_⟩
      rcases cs with _ | ⟨d, cs⟩
      · simp [exponentDigits, hc] at h
      · simp only [exponentDigits, hc, Bool.false_eq_true, if_false] at h
        split at h
        · rename_i sign
          simp only [Bool.and_eq_true, Bool.or_eq_true, beq_iff_eq] at sign
          simp only [pass, Prod.mk.injEq, List.cons.injEq, true_and] at h
          refine ⟨sign.1, ?_, Prod.ext h.1 h.2⟩
          rw [← h.1, takeClass, List.takeWhile_cons, if_pos sign.2]
          exact List.cons_ne_nil _ _
        · cases h
    · rintro (⟨h, -⟩ | ⟨-, sign, hx, h⟩)
      · cases h
      · obtain ⟨d, x, rfl⟩ := List.exists_cons_of_ne_nil hx
        obtain ⟨rest, rfl, hd⟩ := takeClass_head h
        rcases sign with rfl | rfl <;> simp [exponentDigits, hd, h, pass]

theorem exponentDigits_none {p : List Char} (h : (exponentDigits (p ++ z)).1 = []) :
    exponentDigits p = ([], p) := by
  have none : (exponentDigits p).1 = [] := by
    rcases p with _ | ⟨c, _ | ⟨d, p⟩⟩
    · rfl
    · cases hc : c.isDigit <;> simp_all [exponentDigits, takeClass]
    · cases hc : c.isDigit <;> cases hd : d.isDigit <;> simp_all [exponentDigits, takeClass, pass]
      split <;> simp_all
  have all := exponentDigits_append p
  rw [none, List.nil_append] at all
  exact Prod.ext none all

theorem exponentDigits_cut (h : exponentDigits (x ++ (y ++ z)) = (x, y ++ z)) :
    exponentDigits (x ++ y) = (x, y) := by
  cases x with
  | nil => exact exponentDigits_none (congrArg Prod.fst h)
  | cons c x =>
    rcases exponentDigits_cons.1 h with ⟨hc, digits⟩ | ⟨hc, sign, hx, digits⟩
    · exact exponentDigits_cons.2 (.inl ⟨hc, takeClass_cut (x := c :: x) digits⟩)
    · exact exponentDigits_cons.2 (.inr ⟨hc, sign, hx, takeClass_cut digits⟩)

theorem exponent_cons {c : Char} {cs q : List Char} :
    exponent (c :: cs) = (c :: x, q) ↔ (c = 'e' ∨ c = 'E') ∧ x ≠ [] ∧ exponentDigits cs = (x, q) := by
  constructor
  · intro h
    rw [exponent] at h
    split at h
    · rename_i letter
      rcases hd : exponentDigits cs with ⟨_ | ⟨d, digits⟩, rest⟩
      · rw [hd] at h
        cases h
      · rw [hd] at h
        cases h
        exact ⟨by simpa using letter, List.cons_ne_nil _ _, rfl⟩
    · cases h
  · rintro ⟨letter, hx, h⟩
    obtain ⟨d, x, rfl⟩ := List.exists_cons_of_ne_nil hx
    rcases letter with rfl | rfl <;> simp [exponent, h]

theorem exponent_cut (h : exponent (x ++ (y ++ z)) = (x, y ++ z)) : exponent (x ++ y) = (x, y) := by
  rcases x with _ | ⟨c, x⟩
  · rcases y with _ | ⟨c, y⟩
    · rfl
    · simp only [List.nil_append, List.cons_append, exponent] at h ⊢
      split at h
      · rename_i letter
        have none : (exponentDigits (y ++ z)).1 = [] := by
          rcases hd : exponentDigits (y ++ z) with ⟨_ | ⟨d, digits⟩, rest⟩
          · rfl
          · rw [hd] at h
            cases h
        rw [if_pos letter, exponentDigits_none none]
      · rename_i letter
        rw [if_neg letter]
  · obtain ⟨letter, hx, digits⟩ := exponent_cons.1 h
    exact exponent_cons.2 ⟨letter, hx, exponentDigits_cut digits⟩

theorem hexNumber?_eq_some {cs : List Char} {found : List Char × List Char} :
    hexNumber? cs = some found ↔ ∃ m rest t q, cs = '0' :: m :: rest ∧ (m = 'x' ∨ m = 'X') ∧ t ≠ [] ∧
      takeClass isHexDigit rest = (t, q) ∧ found = ('0' :: m :: t, q) := by
  constructor
  · intro h
    unfold hexNumber? at h
    split at h
    · rename_i m d rest
      split at h
      · rename_i hex
        simp only [Bool.and_eq_true, Bool.or_eq_true, beq_iff_eq] at hex
        refine ⟨m, d :: rest, (takeClass isHexDigit (d :: rest)).1, _, rfl, hex.1, ?_, rfl,
          (Option.some.inj h).symm⟩
        rw [takeClass, List.takeWhile_cons, if_pos hex.2]
        exact List.cons_ne_nil _ _
      · cases h
    · cases h
  · rintro ⟨m, rest, t, q, rfl, hm, ht, digits, rfl⟩
    obtain ⟨d, t, rfl⟩ := List.exists_cons_of_ne_nil ht
    obtain ⟨rest, rfl, hd⟩ := takeClass_head digits
    rcases hm with rfl | rfl <;> simp [hexNumber?, hd, digits, pass]

theorem hexNumber?_cut (h : hexNumber? (x ++ (y ++ z)) = some (x, y ++ z)) :
    hexNumber? (x ++ y) = some (x, y) := by
  obtain ⟨m, rest, t, q, hcs, hm, ht, digits, found⟩ := hexNumber?_eq_some.1 h
  obtain ⟨rfl, rfl⟩ := Prod.mk.inj found
  obtain rfl : rest = t ++ (y ++ z) := by simpa using hcs.symm
  exact hexNumber?_eq_some.2 ⟨m, t ++ y, t, y, rfl, hm, ht, takeClass_cut digits, rfl⟩

theorem hexNumber?_none {p : List Char} (h : hexNumber? (p ++ z) = none) : hexNumber? p = none := by
  rcases p with _ | ⟨a, _ | ⟨b, _ | ⟨d, p⟩⟩⟩
  · rfl
  · by_cases ha : a = '0' <;> simp [hexNumber?, ha]
  · by_cases ha : a = '0' <;> simp [hexNumber?, ha]
  · by_cases ha : a = '0' <;> simp_all [hexNumber?]

theorem number_cutoff (h : number (x ++ (y ++ z)) = (x, y ++ z)) : number (x ++ y) = (x, y) := by
  unfold number at h ⊢
  split at h
  · rename_i found hex
    subst h
    rw [hexNumber?_cut hex]
  · rename_i hex
    rw [← List.append_assoc] at hex
    rw [hexNumber?_none hex]
    have hw := takeClass_append Char.isDigit (x ++ (y ++ z))
    rcases whole : takeClass Char.isDigit (x ++ (y ++ z)) with ⟨w, r⟩
    rw [whole] at h hw
    have hf := fraction_append r
    rcases part : fraction r with ⟨f, r'⟩
    have he := exponent_append r'
    rcases power : exponent r' with ⟨e, r''⟩
    simp only [part, power, Prod.mk.injEq] at h hf he
    obtain ⟨rfl, rfl⟩ := h
    subst he
    subst hf
    have whole' : takeClass Char.isDigit (w ++ ((f ++ e ++ y) ++ z)) = (w, (f ++ e ++ y) ++ z) := by
      simpa only [List.append_assoc] using whole
    have part' : fraction (f ++ ((e ++ y) ++ z)) = (f, (e ++ y) ++ z) := by
      simpa only [List.append_assoc] using part
    have cut := takeClass_cut whole'
    have cut' := fraction_cut part'
    simp only [List.append_assoc] at cut cut' ⊢
    simp only [cut, cut', exponent_cut power]

theorem quoted_open {quote : Char} {cs : List Char} (h : (quoted quote cs).1.1 = []) :
    (quoted quote cs).2 = false :=
  Bool.eq_false_iff.2 fun closed => quoted_ne_nil closed h

theorem quoted_short {quote : Char} {p : List Char}
    (h : (quoted quote (p ++ z)).1.1.length ≤ p.length) :
    (quoted quote p).1.1 = (quoted quote (p ++ z)).1.1 ∧
      (quoted quote p).2 = (quoted quote (p ++ z)).2 := by
  fun_induction quoted quote p with
  | case1 =>
    have none := List.eq_nil_of_length_eq_zero (Nat.le_zero.1 h)
    exact ⟨none.symm, (quoted_open none).symm⟩
  | case2 => cases z <;> simp [quoted]
  | case3 c hc stop =>
    rcases z with _ | ⟨d, z⟩
    · simp [quoted, hc, stop]
    · by_cases hslash : c = '\\' <;> by_cases hd : d = '\n' <;> simp_all [quoted, pass]
  | case4 c hc stop =>
    obtain ⟨hslash, hline⟩ := not_or.1 stop
    rcases z with _ | ⟨d, z⟩
    · simp [quoted, hc, hslash, hline]
    · have step : quoted quote ([c] ++ d :: z) =
          (pass c (quoted quote (d :: z)).1, (quoted quote (d :: z)).2) := by
        simp only [List.singleton_append, quoted, if_neg hc, if_neg hslash, if_neg hline]
      rw [step] at h ⊢
      simp only [pass, List.length_cons, List.length_nil] at h ⊢
      have none := List.eq_nil_of_length_eq_zero (by omega : (quoted quote (d :: z)).1.1.length = 0)
      rw [none, quoted_open none]
      exact ⟨rfl, rfl⟩
  | case5 => simp [quoted]
  | case6 cs hc => simp [quoted, hc]
  | case7 d cs hline found closed hrest hc ih =>
    have step : quoted quote ('\\' :: d :: cs ++ z) =
        (pass '\\' (pass d (quoted quote (cs ++ z)).1), (quoted quote (cs ++ z)).2) := by
      simp only [List.cons_append, quoted, if_neg hc, if_true, if_neg hline]
    rw [step] at h ⊢
    simp only [pass, List.length_cons] at h ⊢
    obtain ⟨htext, hclosed⟩ := ih (by omega)
    rw [← htext, ← hclosed, hrest]
    exact ⟨rfl, rfl⟩
  | case8 c d cs hc hslash hline =>
    have step : quoted quote (c :: d :: cs ++ z) = (([], c :: d :: (cs ++ z)), false) := by
      simp only [List.cons_append, quoted, if_neg hc, if_neg hslash, if_pos hline]
    rw [step]
    exact ⟨rfl, rfl⟩
  | case9 c d cs hc hslash hline found closed hrest ih =>
    have step : quoted quote (c :: d :: cs ++ z) =
        (pass c (quoted quote (d :: cs ++ z)).1, (quoted quote (d :: cs ++ z)).2) := by
      simp only [List.cons_append, quoted, if_neg hc, if_neg hslash, if_neg hline]
    rw [step] at h ⊢
    simp only [pass, List.length_cons] at h ⊢
    obtain ⟨htext, hclosed⟩ := ih (by simp only [List.length_cons]; omega)
    rw [← htext, ← hclosed, hrest]
    exact ⟨rfl, rfl⟩

theorem quoted_cutoff {quote : Char} {closed : Bool}
    (h : quoted quote (x ++ (y ++ z)) = ((x, y ++ z), closed)) : quoted quote (x ++ y) = ((x, y), closed) := by
  rw [← List.append_assoc] at h
  have text : (quoted quote (x ++ y ++ z)).1.1 = x := congrArg (·.1.1) h
  have flag : (quoted quote (x ++ y ++ z)).2 = closed := congrArg (·.2) h
  have short : (quoted quote (x ++ y ++ z)).1.1.length ≤ (x ++ y).length := by
    rw [text, List.length_append]
    exact Nat.le_add_right _ _
  obtain ⟨htext, hclosed⟩ := quoted_short short
  rw [text] at htext
  have all := quoted_append quote (x ++ y)
  rw [htext, List.append_cancel_left_eq] at all
  exact Prod.ext (Prod.ext htext all) (hclosed.trans flag)

theorem punctuator?_cutoff {mark : Punctuator}
    (h : punctuator? (mark.text.toList ++ (y ++ z)) = some (mark, y ++ z)) :
    punctuator? (mark.text.toList ++ y) = some (mark, y) := by
  cases mark with
  | dot =>
    refine punctuator?_dot fun rest hy => ?_
    subst hy
    cases h
  | equals =>
    refine punctuator?_equals fun rest hy => ?_
    subst hy
    cases h
  | _ => rfl

theorem punctuator?_none {p : List Char} (h : punctuator? (p ++ z) = none) : punctuator? p = none := by
  cases hp : punctuator? p with
  | none => rfl
  | some found =>
    obtain ⟨mark, rest⟩ := found
    obtain rfl := punctuator?_append hp
    exfalso
    revert h
    rw [List.append_assoc]
    cases mark with
    | dot =>
      intro h
      change punctuator? ('.' :: (rest ++ z)) = none at h
      by_cases more : ∃ r, rest ++ z = '.' :: '.' :: r
      · obtain ⟨r, hr⟩ := more
        rw [hr] at h
        cases h
      · rw [punctuator?_dot fun r hr => more ⟨r, hr⟩] at h
        cases h
    | equals =>
      intro h
      change punctuator? ('=' :: (rest ++ z)) = none at h
      by_cases more : ∃ r, rest ++ z = '>' :: r
      · obtain ⟨r, hr⟩ := more
        rw [hr] at h
        cases h
      · rw [punctuator?_equals fun r hr => more ⟨r, hr⟩] at h
        cases h
    | _ => nofun

end Lexer

namespace Lexeme

open Lexer

theorem identifierToken_cut {text y z : List Char}
    (plain : y = [] → z.head? = some '-' → ∃ mark, identifierToken text (y ++ z) = .punctuator mark) :
    identifierToken text y = identifierToken text (y ++ z) := by
  have named := identifierToken_name? text (y ++ z)
  have dash : (y ++ z).head? = some '-' ↔ y.head? = some '-' := by
    cases y with
    | cons d y => rfl
    | nil =>
      refine iff_of_false (fun hz => ?_) nofun
      obtain ⟨mark, htoken⟩ := plain rfl hz
      rw [htoken] at named
      cases named
  simp only [identifierToken_eq, dash]

/-- A lexeme is the same if the text is cut off behind it. A word is one only if no dash follows, so the
dash has to stay. -/
theorem first_cut {skipped : List Char} {c : Char} {cs text y z : List Char} {token : Option Token}
    (hcs : c :: cs = text ++ y) (h : first skipped c (cs ++ z) = ⟨skipped, token, text, y ++ z⟩)
    (plain : y = [] → z.head? = some '-' → ∃ mark, token = some (.punctuator mark)) :
    first skipped c cs = ⟨skipped, token, text, y⟩ := by
  unfold first at h ⊢
  split at h
  · rename_i begins
    rcases tail : identifierTail (cs ++ z) with ⟨found, rest⟩
    rw [tail] at h
    obtain ⟨-, rfl, rfl, rfl⟩ := Lexeme.mk.inj h
    obtain rfl : cs = found ++ y := (List.cons.inj hcs).2
    rw [List.append_assoc] at tail
    rw [if_pos begins, identifierTail_cutoff tail,
      ← identifierToken_cut fun hy hz => (plain hy hz).imp fun mark h => Option.some.inj h]
  · rename_i begins
    rw [if_neg begins]
    split at h
    · rename_i digit
      rcases all : number (c :: (cs ++ z)) with ⟨found, rest⟩
      rw [all] at h
      obtain ⟨-, rfl, rfl, rfl⟩ := Lexeme.mk.inj h
      rw [← List.cons_append, hcs, List.append_assoc] at all
      rw [if_pos digit, hcs, number_cutoff all]
    · rename_i digit
      rw [if_neg digit]
      split at h
      · rename_i quote
        rcases all : quoted c (cs ++ z) with ⟨⟨found, rest⟩, closed⟩
        rw [all] at h
        obtain ⟨-, rfl, rfl, rfl⟩ := Lexeme.mk.inj h
        obtain rfl : cs = found ++ y := (List.cons.inj hcs).2
        rw [List.append_assoc] at all
        rw [if_pos quote, quoted_cutoff all]
      · rename_i quote
        rw [if_neg quote]
        split at h
        · rename_i comment
          obtain ⟨-, rfl, rfl, hrest⟩ := Lexeme.mk.inj h
          obtain ⟨rfl, rfl⟩ := List.append_eq_nil_iff.1 hrest.symm
          rw [List.append_nil] at comment ⊢
          rw [if_pos comment]
        · rename_i comment
          have comment' : ¬ (c = '/' ∧ cs.head? = some '*') := by
            rintro ⟨hc, hstar⟩
            obtain ⟨rest, rfl⟩ := List.head?_eq_some_iff.1 hstar
            exact comment ⟨hc, rfl⟩
          rw [if_neg comment']
          split at h
          · rename_i mark rest found
            obtain ⟨-, rfl, rfl, rfl⟩ := Lexeme.mk.inj h
            rw [← List.cons_append, hcs, List.append_assoc] at found
            rw [hcs, punctuator?_cutoff found]
          · rename_i found
            obtain ⟨-, rfl, rfl, hrest⟩ := Lexeme.mk.inj h
            obtain ⟨-, rfl⟩ := List.cons.inj hcs
            rw [← List.cons_append] at found
            rw [punctuator?_none found]

theorem next?_cut {skipped text y z : List Char} {token : Option Token}
    (h : next? (skipped ++ (text ++ (y ++ z))) = some ⟨skipped, token, text, y ++ z⟩)
    (plain : y = [] → z.head? = some '-' → ∃ mark, token = some (.punctuator mark)) :
    next? (skipped ++ (text ++ y)) = some ⟨skipped, token, text, y⟩ := by
  have filled := (next?_lossless h).2
  have inner := skip_between_idem .between (skipped ++ (text ++ (y ++ z)))
  have passed := @skip_gap .between (skipped ++ (text ++ (y ++ z)))
  have all := skip_append .between (skipped ++ (text ++ (y ++ z)))
  unfold next? at h
  split at h
  · cases h
  · rename_i found c cs heq
    have hfirst := Option.some.inj h
    have hfound := first_skipped found c cs
    rw [hfirst] at hfound
    subst hfound
    rw [heq] at inner passed all
    have hrest : c :: cs = text ++ (y ++ z) := List.append_cancel_left all
    rw [hrest, ← List.append_assoc] at inner
    have begins := skip_prefix inner (List.append_ne_nil_of_left_ne_nil filled y)
    have front := passed (List.cons_ne_nil c cs) (text ++ y)
    rw [begins, List.append_nil] at front
    obtain ⟨x, tail, hx⟩ := List.exists_cons_of_ne_nil (List.append_ne_nil_of_left_ne_nil filled y)
    obtain ⟨rfl, rfl⟩ : c = x ∧ cs = tail ++ z := by
      rw [← List.append_assoc, hx] at hrest
      exact List.cons.inj hrest
    rw [next?, front, hx]
    exact congrArg some (first_cut hx.symm hfirst plain)

end Lexeme

end MarkupEditor
