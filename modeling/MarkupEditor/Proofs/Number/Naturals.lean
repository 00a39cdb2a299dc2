import MarkupEditor.Proofs.Number.Positional

set_option autoImplicit false

namespace MarkupEditor

open Text MarkupEditor.Parser

namespace Binary64

variable {n : Nat}

theorem log2_le_of_lt (small : n < 2 ^ 53) : n.log2 ≤ 52 := by
  rcases Nat.eq_zero_or_pos n with rfl | pos
  · decide
  · exact Nat.le_of_lt_succ ((Nat.log2_lt (Nat.ne_of_gt pos)).2 small)

theorem significand_range (pos : 0 < n) (small : n < 2 ^ 53) :
    hidden ≤ n * 2 ^ (52 - n.log2) ∧ n * 2 ^ (52 - n.log2) < 2 * hidden := by
  have fits := log2_le_of_lt small
  have low := Nat.mul_le_mul_right (2 ^ (52 - n.log2)) (Nat.log2_self_le (Nat.ne_of_gt pos))
  have high := Nat.mul_lt_mul_of_pos_right (Nat.lt_log2_self (n := n)) (Nat.two_pow_pos (52 - n.log2))
  rw [← Nat.pow_add] at low high
  rw [show n.log2 + (52 - n.log2) = 52 by omega] at low
  rw [show n.log2 + 1 + (52 - n.log2) = 53 by omega] at high
  exact ⟨low, high⟩

theorem significand_lt_infinite (pos : 0 < n) (small : n < 2 ^ 53) :
    (n.log2 + 1022) * hidden + n * 2 ^ (52 - n.log2) < infinite := by
  have fits := log2_le_of_lt small
  calc (n.log2 + 1022) * hidden + n * 2 ^ (52 - n.log2)
    _ < (n.log2 + 1022) * hidden + 2 * hidden := Nat.add_lt_add_left (significand_range pos small).2 _
    _ = (n.log2 + 1024) * hidden := by ring
    _ ≤ infinite := Nat.mul_le_mul_right _ (by omega)

theorem scaleDown_one (small : n < 2 ^ 53) :
    scaleDown n 1 ((n.log2 : Int) - 52) = (n * 2 ^ (52 - n.log2), 1) := by
  have fits := log2_le_of_lt small
  rw [scaleDown]
  split
  · have full : n.log2 = 52 := by omega
    rw [full]
    simp
  · rw [Nat.shiftLeft_eq, show (-((n.log2 : Int) - 52)).toNat = 52 - n.log2 by omega]

theorem roundRatio_one (pos : 0 < n) (small : n < 2 ^ 53) :
    roundRatio n 1 = (n.log2 + 1022) * hidden + n * 2 ^ (52 - n.log2) := by
  obtain ⟨low, high⟩ := significand_range pos small
  have fits := log2_le_of_lt small
  have whole : divNearestEven (n * 2 ^ (52 - n.log2)) 1 = n * 2 ^ (52 - n.log2) := by
    simp [divNearestEven, Nat.mod_one]
  have guess : (n.log2 : Int) - ((1 : Nat).log2 : Nat) - 52 = (n.log2 : Int) - 52 := by
    rw [show (1 : Nat).log2 = 0 from rfl]
    omega
  simp only [roundRatio, if_neg (Nat.ne_of_gt pos), guess, scaleDown_one small, Nat.div_one, if_neg (Nat.not_lt.2 low)]
  rw [show max ((n.log2 : Int) - 52) (-1074) = (n.log2 : Int) - 52 by omega, scaleDown_one small, whole,
    show ((n.log2 : Int) - 52 + 1074).toNat = n.log2 + 1022 by omega]
  exact Nat.min_eq_left (Nat.le_of_lt (significand_lt_infinite pos small))

theorem decode_roundRatio (pos : 0 < n) (small : n < 2 ^ 53) :
    decode (roundRatio n 1) = (n * 2 ^ (52 - n.log2), (n.log2 : Int) - 52) := by
  obtain ⟨low, high⟩ := significand_range pos small
  obtain ⟨rest, hrest⟩ := Nat.exists_eq_add_of_le low
  have below : rest < hidden := by omega
  have split : roundRatio n 1 = rest + (n.log2 + 1023) * hidden := by
    rw [roundRatio_one pos small, hrest]
    ring
  have exponent : roundRatio n 1 / hidden = n.log2 + 1023 := by
    rw [split, Nat.add_mul_div_right _ _ (by decide), Nat.div_eq_of_lt below, Nat.zero_add]
  have fraction : roundRatio n 1 % hidden = rest := by
    rw [split, Nat.add_mul_mod_self_right, Nat.mod_eq_of_lt below]
  rw [decode, exponent, fraction, if_neg (by omega), hrest]
  exact Prod.ext rfl (by simp only; omega)

theorem ofNat_positive (n : Nat) : (ofNat n).isNegative = false := by
  have small : (ofNat n).bits.toNat < signBit := by
    rw [ofNat, ofMagnitude, if_neg Bool.false_ne_true, UInt64.toNat_ofNat', Nat.zero_add]
    refine Nat.lt_of_le_of_lt (Nat.mod_le _ _) (Nat.mod_lt _ ?_)
    decide
  rw [isNegative, decide_eq_false_iff_not]
  omega

theorem magnitude_ofNat (finite : roundRatio n 1 < infinite) : (ofNat n).magnitude = roundRatio n 1 := by
  have room : infinite < signBit := by decide
  have word : signBit < 2 ^ 64 := by decide
  have low : roundRatio n 1 % signBit = roundRatio n 1 := Nat.mod_eq_of_lt (by omega)
  rw [magnitude, ofNat, ofMagnitude, if_neg Bool.false_ne_true, UInt64.toNat_ofNat', Nat.zero_add, low,
    Nat.mod_eq_of_lt (by omega : roundRatio n 1 < 2 ^ 64), low]

theorem roundRatio_one_range (pos : 0 < n) (small : n < 2 ^ 53) :
    roundRatio n 1 < infinite ∧ 0 < roundRatio n 1 := by
  have low := (significand_range pos small).1
  have filled : 0 < hidden := by decide
  rw [roundRatio_one pos small]
  exact ⟨significand_lt_infinite pos small, by omega⟩

theorem isFinite_ofNat (small : n < 2 ^ 53) : (ofNat n).isFinite = true := by
  rcases Nat.eq_zero_or_pos n with rfl | pos
  · decide
  · have finite := (roundRatio_one_range pos small).1
    rw [isFinite, magnitude_ofNat finite]
    exact decide_eq_true finite

end Binary64

namespace Shortest

theorem Interval.contains_of_nearest? {i : Interval} {g : Grid} {p : Nat} (h : i.nearest? g = some p) :
    i.contains g p = true := by
  unfold Interval.nearest? at h
  dsimp only at h
  split at h
  · rename_i down up
    cases h
    split
    · exact up
    · exact down
  · rename_i down _
    cases h
    exact down
  · rename_i _ up
    cases h
    exact up
  · cases h

theorem Interval.nearest?_isSome {i : Interval} {g : Grid} (h : i.contains g (i.value * g.scale / g.step) = true) :
    (i.nearest? g).isSome = true := by
  unfold Interval.nearest?
  dsimp only
  rw [h]
  split <;> first | rfl | contradiction

section

variable {n : Nat}

/-- The interval of a natural number in units of which two make a half and the number `n` holds `n * unit`. -/
theorem interval_roundRatio (pos : 0 < n) (small : n < 2 ^ 53) :
    let i := interval (Binary64.roundRatio n 1)
    let unit := 2 ^ (54 - n.log2)
    4 ≤ unit ∧ i.value = n * unit ∧ n * unit ≤ i.low + 2 ∧ i.low < n * unit ∧ i.high = n * unit + 2 ∧
      ∀ e : Nat, grid i.exponent e = ⟨1, 10 ^ e * unit⟩ := by
  have fits := Binary64.log2_le_of_lt small
  have quarter : 4 * (n * 2 ^ (52 - n.log2)) = n * 2 ^ (54 - n.log2) := by
    rw [show 54 - n.log2 = 52 - n.log2 + 2 by omega, Nat.pow_add]
    ring
  have unit : 4 ≤ 2 ^ (54 - n.log2) := Nat.pow_le_pow_right (n := 2) (by decide) (show 2 ≤ 54 - n.log2 by omega)
  have filled : 0 < n * 2 ^ (54 - n.log2) := Nat.mul_pos pos (Nat.two_pow_pos _)
  simp only [interval, Binary64.decode_roundRatio pos small, quarter]
  refine ⟨unit, trivial, ?_, ?_, trivial, fun e => ?_⟩
  · split <;> omega
  · split <;> omega
  · rw [grid, powerRatio, powerRatio, if_pos (Int.natCast_nonneg e), if_neg (by omega), Int.toNat_natCast,
      show (-((n.log2 : Int) - 52 - 2)).toNat = 54 - n.log2 by omega]
    rfl

theorem eq_of_contains (pos : 0 < n) (small : n < 2 ^ 53) {e p : Nat}
    (h : (interval (Binary64.roundRatio n 1)).contains (grid (interval (Binary64.roundRatio n 1)).exponent e) p = true) :
    p * 10 ^ e = n := by
  obtain ⟨wide, -, low, -, high, grids⟩ := interval_roundRatio pos small
  generalize interval (Binary64.roundRatio n 1) = i at *
  generalize 2 ^ (54 - n.log2) = unit at *
  have range : i.low ≤ p * 10 ^ e * unit ∧ p * 10 ^ e * unit ≤ i.high := by
    rw [grids, Interval.contains] at h
    simp only [Nat.mul_one, ← Nat.mul_assoc] at h
    split at h <;> simp only [Bool.and_eq_true, decide_eq_true_eq] at h <;> omega
  generalize p * 10 ^ e = q at *
  rcases Nat.lt_trichotomy q n with less | same | more
  · have apart := Nat.mul_le_mul_right unit (Nat.succ_le_of_lt less)
    rw [Nat.succ_mul] at apart
    omega
  · exact same
  · have apart := Nat.mul_le_mul_right unit (Nat.succ_le_of_lt more)
    rw [Nat.succ_mul] at apart
    omega

/-- From a grid of natural numbers downwards the search ends at one of them, at the latest at all of them. -/
theorem search_whole (pos : 0 < n) (small : n < 2 ^ 53) {fuel e : Nat} (deep : e < fuel) :
    ∃ p k : Nat, search (interval (Binary64.roundRatio n 1)) fuel e = (p, (k : Int)) ∧ p * 10 ^ k = n := by
  induction fuel generalizing e with
  | zero => cases deep
  | succ fuel ih =>
    rw [search]
    split
    · rename_i p offered
      exact ⟨p, e, rfl, eq_of_contains pos small (Interval.contains_of_nearest? offered)⟩
    · rename_i missing
      cases e with
      | zero =>
        obtain ⟨wide, value, low, below, high, grids⟩ := interval_roundRatio pos small
        have offered := Interval.nearest?_isSome (i := interval (Binary64.roundRatio n 1))
          (g := grid (interval (Binary64.roundRatio n 1)).exponent (0 : Nat)) (by
            rw [grids, value, Interval.contains]
            simp only [Nat.pow_zero, Nat.one_mul, Nat.mul_one, Nat.mul_div_cancel n (Nat.two_pow_pos (54 - n.log2))]
            split <;> simp only [Bool.and_eq_true, decide_eq_true_eq] <;> omega)
        rw [missing] at offered
        cases offered
      | succ e =>
        have : ((e + 1 : Nat) : Int) - 1 = (e : Int) := by omega
        rw [this]
        exact ih (by omega)

/-- A natural number is printed in its digits: some of them, and zeros. -/
theorem print_ofNat (pos : 0 < n) (small : n < 2 ^ 53) :
    ∃ p k : Nat, print (Binary64.ofNat n) = positional p (k : Int) ∧ p * 10 ^ k = n := by
  obtain ⟨finite, filled⟩ := Binary64.roundRatio_one_range pos small
  have magnitude := Binary64.magnitude_ofNat finite
  obtain ⟨p, k, found, same⟩ := search_whole (e := 309) pos small (show 309 < 660 by decide)
  refine ⟨p, k, ?_, same⟩
  have digits : digits (Binary64.roundRatio n 1) = (p, (k : Int)) := found
  have number : (Binary64.ofNat n).isNaN = false := by
    rw [Binary64.isNaN, magnitude, decide_eq_false_iff_not]
    omega
  have bounded : (Binary64.ofNat n).isInfinite = false := by
    rw [Binary64.isInfinite, magnitude, beq_eq_false_iff_ne]
    exact Nat.ne_of_lt finite
  rw [print, number, bounded, Binary64.ofNat_positive n, magnitude, digits]
  simp only [Bool.false_eq_true, if_false, Nat.ne_of_gt filled]

end

end Shortest

namespace Decimal

open Text

variable {n p k : Nat}

theorem magnitude_natural (pos : 0 < n) (small : n < 2 ^ 53) :
    magnitude n 0 = Binary64.roundRatio n 1 := by
  have short : (Nat.toDigits 10 n).length ≤ 16 :=
    Nat.toDigits_length 10 n 16 (by decide) (Nat.lt_trans small (by decide))
  rw [magnitude, if_neg (by omega), if_neg (by omega), if_neg (by omega), if_pos (by decide)]
  simp

theorem readPositional_zeros :
    readPositional (Shortest.positional p (k : Int)) = some (magnitude (p * 10 ^ k) 0) := by
  have zero : ∀ d ∈ List.replicate k '0', d.isDigit = true := fun d hd => by
    rw [List.eq_of_mem_replicate hd]
    rfl
  have digits : ∀ d ∈ Nat.toDigits 10 p ++ List.replicate k '0', d.isDigit = true := fun d hd =>
    (List.mem_append.1 hd).elim isDigit_of_mem_decimal (zero d)
  have filled : Nat.toDigits 10 p ++ List.replicate k '0' ≠ [] :=
    List.append_ne_nil_of_left_ne_nil Nat.toDigits_ne_nil _
  have number : Nat.ofDigitChars 10 (Nat.toDigits 10 p ++ List.replicate k '0') 0 = p * 10 ^ k := by
    rw [Nat.ofDigitChars_append, Nat.ofDigitChars_toDigits (by decide) (by decide),
      Nat.ofDigitChars_replicate_zero, Nat.mul_comm]
  obtain ⟨whole, rest⟩ := Prod.mk.inj (IsPositional.takeClass_digits [] digits nofun)
  rw [List.append_nil] at whole rest
  rw [Shortest.positional, if_pos (Int.natCast_nonneg k), Int.toNat_natCast]
  simp only [readPositional, whole, rest, List.isEmpty_eq_false_iff.2 filled, Bool.false_and, Bool.false_eq_true,
    if_false, readExponent, Option.bind_some, value, List.append_nil, readDigits_eq digits, number]
  rfl

end Decimal

theorem numberValue?_print_ofNat {n : Nat} (small : n < 2 ^ 53) :
    numberValue? (Shortest.print (Binary64.ofNat n)) = some (Binary64.ofNat n) := by
  have positional := Shortest.isPositional_print (Binary64.ofNat_positive n) (Binary64.isFinite_ofNat small)
  rw [positional.numberValue?_eq, positional.read_eq]
  rcases Nat.eq_zero_or_pos n with rfl | pos
  · decide +kernel
  · obtain ⟨p, k, printed, same⟩ := Shortest.print_ofNat pos small
    rw [printed, Decimal.readPositional_zeros, same, Decimal.magnitude_natural pos small]
    rfl

end MarkupEditor
