/-! # Numbers in JSON texts

A number is an optional minus sign, an integer without leading zeros, and optionally a fraction and
an exponent. Where a number is not only skipped it has to fit the range of a double: its first
digits, as many as fit a word of 64 bits, times the power of ten that remains, rounded to 53
significant bits each, must not reach the first value that rounds to infinity. -/

namespace DeadCode

namespace Json

/-- The digits of a number: of its integer, of its fraction and of its exponent, and whether the
exponent is negative. -/
structure Digits where
  integer : List Char
  fraction : List Char := []
  exponent : List Char := []
  exponentNegative : Bool := false
deriving DecidableEq, Inhabited, Repr

/-- The value of a digit. -/
def digitValue (c : Char) : Nat :=
  c.toNat - '0'.toNat

/-- The value of a list of digits. -/
def digitsValue (digits : List Char) : Nat :=
  digits.foldl (fun value c => 10 * value + digitValue c) 0

/-- The largest value of a word of 64 bits. -/
def maxWord : Nat := 18446744073709551615

/-- The value of as many leading digits as fit a word, continuing from `value`, and the number of
digits that do not fit. -/
def leadingValue (value : Nat) : List Char → Nat × Nat
  | [] => (value, 0)
  | c :: rest =>
    if maxWord < 10 * value + digitValue c then (value, rest.length + 1)
    else leadingValue (10 * value + digitValue c) rest

/-- A number to 53 significant bits, to nearest, a half to the even neighbour. -/
def roundSignificant (n : Nat) : Nat :=
  if n.log2 < 53 then n
  else
    let unit := Nat.pow 2 (n.log2 - 52)
    let quotient := n / unit
    let remainder := 2 * (n % unit)
    let up := unit < remainder || (remainder = unit && quotient % 2 = 1)
    (if up then quotient + 1 else quotient) * unit

/-- The least product that is rounded to infinity. -/
def overflowBound : Nat := Nat.pow 2 1024 - Nat.pow 2 970

/-- The largest exponent that is read. -/
def maxExponent : Nat := 2147483647

/-- The largest power of ten among the doubles. -/
def maxPower : Nat := 308

/-- Whether a number is too large for a double. -/
def Digits.isTooLarge (digits : Digits) : Bool :=
  let (leading, dropped) := leadingValue 0 digits.integer
  let (significand, cut) := leadingValue leading digits.fraction
  let exponent := digitsValue digits.exponent
  if significand = 0 then false
  else if maxExponent < exponent then !digits.exponentNegative
  else
    let scale : Int := dropped - (digits.fraction.length - cut : Nat)
      + (if digits.exponentNegative then -(exponent : Int) else exponent)
    if scale < 0 then false
    else if maxPower < scale then true
    else overflowBound ≤ roundSignificant significand * roundSignificant (Nat.pow 10 scale.toNat)

end Json

end DeadCode
