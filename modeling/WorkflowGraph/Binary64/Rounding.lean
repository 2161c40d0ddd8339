/-
# Rounding to the nearest floating-point number

A quotient of natural numbers is rounded to the nearest double-precision number,
and a quotient half-way between two neighbours goes to the one whose significand
is even. Integers and decimal numerals are special cases.
-/

import WorkflowGraph.Binary64

namespace WorkflowGraph.Binary64

/-- `num / den` rounded to the nearest natural number, halves to the even one. -/
def roundQuotient (num den : Nat) : Nat :=
  let q := num / den
  let r := num % den
  if 2 * r < den then q
  else if 2 * r = den then q + q % 2
  else q + 1

/-- The largest `e` with `2 ^ e ≤ num / den`. -/
def quotientLog2 (num den : Nat) : Int :=
  let d : Int := (Nat.log2 num : Int) - Nat.log2 den
  let reaches := match d with
    | .ofNat k => decide (den * Nat.pow 2 k ≤ num)
    | .negSucc k => decide (den ≤ num * Nat.pow 2 (k + 1))
  if reaches then d else d - 1

/-- The number nearest to `± num / den`, for positive `num` and `den`. The
significand and the exponent are added as one number, so that a significand
rounded up to `2 ^ 53` carries into the exponent. -/
def ofQuotient (negative : Bool) (num den : Nat) : Binary64 :=
  let q := max (quotientLog2 num den - 52) (-1074)
  let m := match q with
    | .ofNat k => roundQuotient num (den * Nat.pow 2 k)
    | .negSucc k => roundQuotient (num * Nat.pow 2 (k + 1)) den
  ofMagnitude negative (min infiniteMagnitude ((q + 1074).toNat * Nat.pow 2 52 + m))

/-- The number nearest to an integer. -/
def ofInt (i : Int) : Binary64 :=
  if i = 0 then zero false else ofQuotient (i < 0) i.natAbs 1

/-- The number nearest to `± digits · 10 ^ exponent`. Exponents that lie far
outside the range of the format are answered without computing the power. -/
def ofDecimal (negative : Bool) (digits : Nat) (exponent : Int) : Binary64 :=
  if digits = 0 then zero negative
  else
    let size : Int := (Nat.log2 digits : Int) / 3 + 1
    if 400 < exponent then infinity negative
    else if exponent + size < -400 then zero negative
    else match exponent with
      | .ofNat k => ofQuotient negative (digits * Nat.pow 10 k) 1
      | .negSucc k => ofQuotient negative digits (Nat.pow 10 (k + 1))

end WorkflowGraph.Binary64
