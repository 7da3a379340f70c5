import Mathlib.Data.Nat.Digits.Defs
import AmbLisp.Integer

/-!
# Numerals in range

The digits of a numeral bound its value from below (`pow_le_ofDigitChars`), so that a numeral of an
integer in range has no more significant digits than the longest integers: `length_significant_le`. Its
text has no more digits at all (`length_text_le`).
-/

namespace AmbLisp.Integer

theorem inRange_iff {n : Int} : inRange n = true ↔ least ≤ n ∧ n ≤ greatest := by
  rw [inRange, Bool.and_eq_true, decide_eq_true_iff, decide_eq_true_iff]

theorem ofDigitChars_dropWhile_zero (ds : List Char) :
    Nat.ofDigitChars 10 (ds.dropWhile (· = '0')) 0 = Nat.ofDigitChars 10 ds 0 := by
  induction ds with
  | nil => rfl
  | cons d ds ih =>
    rw [List.dropWhile_cons]
    split
    · next hd =>
      obtain rfl : d = '0' := of_decide_eq_true hd
      rw [ih, Nat.ofDigitChars_cons]
      rfl
    · rfl

/-- The first digit of a number, if it is not zero, weighs as much as there are digits behind it. -/
theorem pow_le_ofDigitChars {d : Char} {ds : List Char} (hd : d.isDigit = true) (hz : d ≠ '0') :
    10 ^ ds.length ≤ Nat.ofDigitChars 10 (d :: ds) 0 := by
  have hpos : 1 ≤ d.toNat - '0'.toNat := by
    simp only [Char.isDigit, Bool.and_eq_true, decide_eq_true_eq] at hd
    have hge : '0'.toNat ≤ d.toNat := hd.1
    have hne : d.toNat ≠ '0'.toNat := fun h => hz (Char.toNat_inj.1 h)
    omega
  rw [Nat.ofDigitChars_cons, Nat.mul_zero, Nat.zero_add, Nat.ofDigitChars_eq_ofDigitChars_zero]
  calc
    10 ^ ds.length ≤ 10 ^ ds.length * (d.toNat - '0'.toNat) := Nat.le_mul_of_pos_right _ hpos
    _ ≤ _ := Nat.le_add_right _ _

theorem natAbs_value (cs : List Char) :
    (value cs).natAbs = Nat.ofDigitChars 10 (unsigned cs) 0 := by
  unfold value unsigned
  split <;> simp

theorem length_significant_le {cs : List Char} (hn : isNumeral cs = true)
    (hr : inRange (value cs) = true) : (significant cs).length ≤ maxDigits := by
  have hdigits : ∀ d ∈ significant cs, d.isDigit = true := by
    simp only [isNumeral, Bool.and_eq_true, List.all_eq_true] at hn
    exact fun d hd => hn.2 d ((List.dropWhile_suffix _).subset hd)
  have habs : Nat.ofDigitChars 10 (significant cs) 0 < 10 ^ maxDigits := by
    rw [significant, ofDigitChars_dropWhile_zero, ← natAbs_value]
    rw [inRange_iff, least, greatest] at hr
    unfold maxDigits
    omega
  cases hs : significant cs with
  | nil => exact Nat.zero_le _
  | cons d ds =>
    rw [hs] at hdigits habs
    have hz : d ≠ '0' := by
      rintro rfl
      have hhead := List.head?_dropWhile_not (· = '0') (unsigned cs)
      rw [show (unsigned cs).dropWhile (· = '0') = '0' :: ds from hs] at hhead
      cases hhead
    have hle : 10 ^ ds.length ≤ Nat.ofDigitChars 10 (d :: ds) 0 :=
      pow_le_ofDigitChars (hdigits d List.mem_cons_self) hz
    exact (Nat.pow_lt_pow_iff_right (by decide)).1 (Nat.lt_of_le_of_lt hle habs)

theorem unsigned_text (n : Int) : unsigned (text n).toList = Nat.toDigits 10 n.natAbs := by
  rw [text, String.toList_ofList]
  split
  · rfl
  · exact unsigned_toDigits n.natAbs

/-- The text of an integer in range has no digits but significant ones. -/
theorem length_text_le {n : Int} (hr : inRange n = true) :
    (unsigned (text n).toList).length ≤ maxDigits := by
  rw [inRange_iff, least, greatest] at hr
  rw [unsigned_text]
  refine Nat.toDigits_length 10 n.natAbs maxDigits (by decide) ?_
  unfold maxDigits
  omega

end AmbLisp.Integer
