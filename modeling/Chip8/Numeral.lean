/-!
# Numerals

Messages, reports and the status line spell numbers in hexadecimal. A numeral is filled up with
zeros on the left to a least width, and a number that needs more digits than that keeps them all.

Arguments and terminals spell numbers in decimal, with or without a plus sign.
-/

namespace Chip8.Numeral

/-- The hexadecimal digits of `n`, at least `width` of them. -/
def digits (width n : Nat) : List Char := (Nat.toDigits 16 n).leftpad width '0'

/-- `n` in lower-case hexadecimal digits. -/
def lower (width n : Nat) : String := String.ofList (digits width n)

/-- `n` in upper-case hexadecimal digits. -/
def upper (width n : Nat) : String := String.ofList ((digits width n).map Char.toUpper)

/-- `n` as messages spell it: `0x` and lower-case digits. -/
def hex (width n : Nat) : String := "0x" ++ lower width n

theorem length_digits (width n : Nat) :
    (digits width n).length = max width (Nat.toDigits 16 n).length := by
  simp [digits, Nat.sub_add_eq_max]

/-- The number that decimal digits spell, if it lies below `bound`. A plus sign may precede them. -/
def decimal? (bound : Nat) (text : List Char) : Option Nat :=
  let ds := if text.head? = some '+' then text.drop 1 else text
  let n := ds.foldl (fun n c => 10 * n + (c.toNat - '0'.toNat)) 0
  if !ds.isEmpty && ds.all Char.isDigit && n < bound then some n else none

end Chip8.Numeral
