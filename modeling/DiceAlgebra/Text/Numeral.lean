/-! Decimal numerals. Reading and writing are the two sides of one law, `value_digits`. -/
namespace DiceAlgebra.Text

/-- Decimal digits are the ASCII ones only. -/
def isDigit (c : Char) : Bool :=
  c.isDigit

/-- The number that a run of digits stands for, leading zeros allowed. -/
def value (digits : List Char) : Nat :=
  Nat.ofDigitChars 10 digits 0

def digits (n : Nat) : List Char :=
  Nat.toDigits 10 n

@[simp] theorem value_digits (n : Nat) : value (digits n) = n :=
  Nat.ofDigitChars_ten_toDigits

theorem isDigit_of_mem_digits {n : Nat} {c : Char} (h : c ∈ digits n) : isDigit c = true :=
  Nat.isDigit_of_mem_toDigits (by decide) (by decide) h

theorem digits_ne_nil (n : Nat) : digits n ≠ [] :=
  Nat.toDigits_ne_nil

def numeral (n : Nat) : String :=
  String.ofList (digits n)

/-- A sign in front of negative numbers only. -/
def integer (n : Int) : String :=
  if n < 0 then "-" ++ numeral n.natAbs else numeral n.natAbs

/-- A sign in front of every number, zero included. -/
def signed (n : Int) : String :=
  (if n < 0 then "-" else "+") ++ numeral n.natAbs

/-- Reads a number below the bound, written as digits after an optional plus sign. -/
def natBelow? (bound : Nat) (text : List Char) : Option Nat :=
  let body := if text.head? = some '+' then text.tail else text
  if body ≠ [] ∧ body.all isDigit ∧ value body < bound then some (value body) else none

end DiceAlgebra.Text
