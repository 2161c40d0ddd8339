/-
# Shortest decimal digits

The decimal digits that stand for a floating-point number: as few as possible so
that reading them back gives the number again, and of the equally short ones
those nearest to it. A finite positive number `m · 2 ^ q` is read back from every
decimal between the half-way points to its two neighbours, the half-way points
included exactly when `m` is even.
-/

import WorkflowGraph.Binary64
import WorkflowGraph.Text.Ascii

namespace WorkflowGraph.Binary64

/-- A positive quotient with the half-way points to its neighbours, all three
over one denominator. -/
structure Interval where
  low : Nat
  value : Nat
  high : Nat
  den : Nat
  closed : Bool

/-- The interval of decimals that read back as a finite non-zero number. Below a
power of two the neighbour is only half as far away, except at the bottom of the
range. -/
def interval (x : Binary64) : Interval :=
  let m := x.significand
  let step := if x.fractionBits = 0 && 1 < x.exponentBits then 1 else 2
  let closed := m % 2 == 0
  match x.exponent - 2 with
  | .ofNat k =>
    let scale := Nat.pow 2 k
    ⟨(4 * m - step) * scale, 4 * m * scale, (4 * m + 2) * scale, 1, closed⟩
  | .negSucc k => ⟨4 * m - step, 4 * m, 4 * m + 2, Nat.pow 2 (k + 1), closed⟩

namespace Interval

/-- The number of digits before the decimal point; zero or negative for numbers
that start behind it. -/
def point (i : Interval) : Int :=
  ((Text.digitsOfNat (i.value * Nat.pow 10 400 / i.den)).length : Int) - 400

/-- The endpoints and the value in units of `10 ^ unit`. -/
def inUnits (i : Interval) (unit : Int) : Interval :=
  match unit with
  | .ofNat k => { i with den := i.den * Nat.pow 10 k }
  | .negSucc k =>
    let scale := Nat.pow 10 (k + 1)
    { i with low := i.low * scale, value := i.value * scale, high := i.high * scale }

/-- Whether a natural number lies in the interval. -/
def contains (i : Interval) (n : Nat) : Bool :=
  let v := n * i.den
  if i.closed then i.low ≤ v && v ≤ i.high else i.low < v && v < i.high

/-- The natural number in the interval that is nearest to the value; `halfUp`
says whether the greater of two equally near ones is taken, or the even one. -/
def nearest? (halfUp : Bool) (i : Interval) : Option Nat :=
  let d := i.value / i.den
  let r := i.value % i.den
  match i.contains d, i.contains (d + 1) with
  | true, true =>
    if 2 * r < i.den then some d
    else if i.den < 2 * r then some (d + 1)
    else if halfUp || d % 2 == 1 then some (d + 1) else some d
  | true, false => some d
  | false, true => some (d + 1)
  | false, false => none

end Interval

/-- Digits with the position of the decimal point: `0.d₁d₂… · 10 ^ point`. -/
structure Decimal where
  digits : List Char
  point : Int
  deriving Repr

/-- The decimal `n · 10 ^ unit`, without zeros at its end. -/
def Decimal.ofNat (n : Nat) (unit : Int) : Decimal :=
  let digits := Text.digitsOfNat n
  ⟨(digits.reverse.dropWhile (· == '0')).reverse, unit + digits.length⟩

/-- The first grid, from `count` digits on, that has a point in the interval. -/
def shortestFrom (halfUp : Bool) (i : Interval) (point : Int) : Nat → Nat → Decimal
  | count, remaining + 1 =>
    match (i.inUnits (point - count)).nearest? halfUp with
    | some n => .ofNat n (point - count)
    | none => shortestFrom halfUp i point (count + 1) remaining
  | _, 0 => ⟨[], point⟩

/-- The shortest digits of the magnitude of a finite non-zero number. Seventeen
digits are always enough. -/
def shortest (halfUp : Bool) (x : Binary64) : Decimal :=
  let i := x.interval
  shortestFrom halfUp i i.point 1 17

end WorkflowGraph.Binary64
