/-!
# Integers

The integers of the language are those of a signed 64-bit word. Numerals are decimal: an optional
minus sign and at least one ASCII digit. `value_text`: the text of an integer is a numeral of it.
-/

namespace AmbLisp.Integer

/-- The smallest integer, `-2 ^ 63`. -/
def least : Int := -9223372036854775808

/-- The largest integer, `2 ^ 63 - 1`. -/
def greatest : Int := 9223372036854775807

/-- Fits in a signed 64-bit word. -/
def inRange (n : Int) : Bool :=
  least ≤ n && n ≤ greatest

/-- The text of an integer: its shortest numeral. -/
def text (n : Int) : String :=
  String.ofList ((if n < 0 then ['-'] else []) ++ Nat.toDigits 10 n.natAbs)

def unsigned : List Char → List Char
  | '-' :: ds => ds
  | ds => ds

/-- An optional minus sign, then digits and nothing else. -/
def isNumeral (cs : List Char) : Bool :=
  !(unsigned cs).isEmpty && (unsigned cs).all Char.isDigit

/-- The integer that a numeral stands for, in range or not. -/
def value : List Char → Int
  | '-' :: ds => -(Nat.ofDigitChars 10 ds 0 : Int)
  | ds => (Nat.ofDigitChars 10 ds 0 : Int)

/-- The digits of a numeral from the first one that is not zero. -/
def significant (cs : List Char) : List Char :=
  (unsigned cs).dropWhile (· = '0')

/-- The number of digits of the longest integers in range. -/
def maxDigits : Nat := 19

/-- The number of digits of the longest numerals that are converted, zeros in front included. -/
def maxConverted : Nat := 4300

theorem unsigned_toDigits (n : Nat) : unsigned (Nat.toDigits 10 n) = Nat.toDigits 10 n := by
  unfold unsigned
  split
  · next h =>
    have : ('-' : Char) ∈ Nat.toDigits 10 n := by rw [h]; simp
    have := Nat.isDigit_of_mem_toDigits (by decide) (by decide) this
    simp [Char.isDigit] at this
  · rfl

theorem value_text (n : Int) : value (text n).toList = n := by
  unfold text
  rw [String.toList_ofList]
  by_cases h : n < 0
  · simp only [h, if_true, List.singleton_append, value, Nat.ofDigitChars_ten_toDigits]
    omega
  · simp only [h, if_false, List.nil_append]
    unfold value
    split
    · next ds hd =>
      have := unsigned_toDigits n.natAbs
      rw [hd, unsigned] at this
      exact absurd (congrArg List.length this) (by simp)
    · rw [Nat.ofDigitChars_ten_toDigits]; omega

end AmbLisp.Integer
