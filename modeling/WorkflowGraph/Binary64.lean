/-
# Floating-point numbers

A double-precision number is its 64 bits: a sign, eleven bits of exponent and
fifty-two bits of fraction. A finite number is `± m · 2 ^ q` for a natural
significand `m` and an integer exponent `q`. Every operation of the library is
exact arithmetic on `m` and `q`, so all of them can be reasoned about in `Nat`
and `Int`.
-/

namespace WorkflowGraph

/-- A double-precision number, as its bit pattern. Two numbers are equal here
when their bits are, so that the two zeros differ and a NaN equals itself. -/
structure Binary64 where
  bits : UInt64
  deriving DecidableEq, Inhabited, Repr

namespace Binary64

/-- Whether the sign bit is set. -/
def isNegative (x : Binary64) : Bool :=
  Nat.pow 2 63 ≤ x.bits.toNat

/-- The eleven bits of the exponent. -/
def exponentBits (x : Binary64) : Nat :=
  x.bits.toNat / Nat.pow 2 52 % Nat.pow 2 11

/-- The fifty-two bits of the fraction. -/
def fractionBits (x : Binary64) : Nat :=
  x.bits.toNat % Nat.pow 2 52

/-- Whether the number is neither infinite nor a NaN. -/
def isFinite (x : Binary64) : Bool :=
  x.exponentBits != 2047

/-- Whether the pattern is a NaN. -/
def isNaN (x : Binary64) : Bool :=
  x.exponentBits == 2047 && x.fractionBits != 0

/-- The significand of a finite number. -/
def significand (x : Binary64) : Nat :=
  if x.exponentBits = 0 then x.fractionBits else Nat.pow 2 52 + x.fractionBits

/-- The power of two that scales the significand. -/
def exponent (x : Binary64) : Int :=
  if x.exponentBits = 0 then -1074 else x.exponentBits - 1075

/-- The number with a given sign and the given sixty-three bits of magnitude. -/
def ofMagnitude (negative : Bool) (magnitude : Nat) : Binary64 :=
  ⟨UInt64.ofNat ((if negative then Nat.pow 2 63 else 0) + magnitude)⟩

/-- The magnitude bits of infinity. -/
def infiniteMagnitude : Nat :=
  2047 * Nat.pow 2 52

/-- The zero of a given sign. -/
def zero (negative : Bool) : Binary64 :=
  ofMagnitude negative 0

/-- The infinity of a given sign. -/
def infinity (negative : Bool) : Binary64 :=
  ofMagnitude negative infiniteMagnitude

/-- The quiet NaN of a given sign. -/
def nan (negative : Bool) : Binary64 :=
  ofMagnitude negative (infiniteMagnitude + Nat.pow 2 51)

/-- Whether a finite number has no fractional part. -/
def isIntegral (x : Binary64) : Bool :=
  x.isFinite &&
    match x.exponent with
    | .ofNat _ => true
    | .negSucc k => x.significand % Nat.pow 2 (k + 1) == 0

/-- The magnitude of a finite number, rounded down to a natural number. -/
def floorMagnitude (x : Binary64) : Nat :=
  match x.exponent with
  | .ofNat k => x.significand * Nat.pow 2 k
  | .negSucc k => x.significand / Nat.pow 2 (k + 1)

/-- A finite number, rounded towards zero. -/
def truncate (x : Binary64) : Int :=
  if x.isNegative then -(x.floorMagnitude : Int) else x.floorMagnitude

/-- Whether a number equals an integer. -/
def isInt (x : Binary64) (i : Int) : Bool :=
  x.isIntegral && x.truncate == i

/-- A number rounded towards zero and brought into the interval from `least` to
`greatest`, where a NaN becomes zero. -/
def clampedInt (least greatest : Int) (x : Binary64) : Int :=
  if x.isNaN then 0
  else if !x.isFinite then if x.isNegative then least else greatest
  else max least (min greatest x.truncate)

end Binary64

end WorkflowGraph
