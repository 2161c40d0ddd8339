/-
# Written numbers

Two ways of writing a floating-point number, and the reading of one. Both writers
use the shortest digits that read back. The first, for data formats, keeps a
fraction on whole numbers and switches to an exponent for the very large and the
very small; the second, for people, never does either.
-/

import WorkflowGraph.Binary64.Rounding
import WorkflowGraph.Binary64.Shortest

namespace WorkflowGraph.Binary64

/-- A minus sign when the flag is set. -/
def signText (negative : Bool) : List Char :=
  if negative then ['-'] else []

/-- A decimal without an exponent; `fraction` asks for `.0` on whole numbers. -/
def positional (fraction : Bool) (d : Decimal) : List Char :=
  match d.point with
  | .ofNat 0 => '0' :: '.' :: d.digits
  | .negSucc k => '0' :: '.' :: List.replicate (k + 1) '0' ++ d.digits
  | .ofNat p =>
    if d.digits.length ≤ p then
      d.digits ++ List.replicate (p - d.digits.length) '0' ++ (if fraction then ['.', '0'] else [])
    else d.digits.take p ++ '.' :: d.digits.drop p

/-- A decimal with one digit before the point and a signed exponent. -/
def scientific (d : Decimal) : List Char :=
  let e := d.point - 1
  let sign := if e < 0 then ['-'] else ['+']
  d.digits.take 1 ++ (if 1 < d.digits.length then '.' :: d.digits.drop 1 else [])
    ++ 'e' :: sign ++ Text.digitsOfNat e.natAbs

/-- The form for data formats: positional from `1e-5` up to but not including
`1e16`, and always recognisable as a floating-point number. Of two equally near
digit strings the even one is taken. Only finite numbers have such a form. -/
def dataText (x : Binary64) : String :=
  String.ofList <| signText x.isNegative ++
    if x.significand = 0 then ['0', '.', '0']
    else
      let d := x.shortest false
      if -5 < d.point && d.point ≤ 16 then positional true d else scientific d

/-- The form for people: never an exponent, no fraction on whole numbers, and of
two equally near digit strings the greater one. -/
def plainText (x : Binary64) : String :=
  if x.isNaN then "NaN"
  else String.ofList <| signText x.isNegative ++
    if !x.isFinite then ['i', 'n', 'f']
    else if x.significand = 0 then ['0']
    else positional false (x.shortest true)

/-- Splits a leading sign off; the flag says whether it is a minus. -/
def splitSign : List Char → Bool × List Char
  | '-' :: cs => (true, cs)
  | '+' :: cs => (false, cs)
  | cs => (false, cs)

/-- The exponent part of a numeral: nothing, or `e` with a signed number. -/
def readExponent? : List Char → Option Int
  | [] => some 0
  | c :: cs =>
    if c == 'e' || c == 'E' then
      let (negative, digits) := splitSign cs
      if digits.isEmpty || !digits.all Text.isDigit then none
      else
        let n : Int := Text.natOfDigits digits
        some (if negative then -n else n)
    else none

/-- The number spelled by the digits before and after the point and an exponent. -/
def ofNumeral (negative : Bool) (whole fraction : List Char) (exponent : Int) : Binary64 :=
  ofDecimal negative (Text.natOfDigits (whole ++ fraction)) (exponent - fraction.length)

/-- An unsigned numeral: digits with at most one point, at least one of them
being a digit, and an optional exponent. -/
def readNumeral? (negative : Bool) (cs : List Char) : Option Binary64 :=
  let whole := cs.takeWhile Text.isDigit
  let (fraction, rest) := match cs.dropWhile Text.isDigit with
    | '.' :: more => (more.takeWhile Text.isDigit, more.dropWhile Text.isDigit)
    | more => ([], more)
  if whole.isEmpty && fraction.isEmpty then none
  else (readExponent? rest).map (ofNumeral negative whole fraction)

/-- The number that a text spells: a numeral, `inf`, `infinity` or `nan`, the
words in any letter case, and all of them with an optional sign. -/
def ofText? (s : String) : Option Binary64 :=
  let (negative, cs) := splitSign s.toList
  let word := Text.lower (String.ofList cs)
  if word == "inf" || word == "infinity" then some (infinity negative)
  else if word == "nan" then some (nan negative)
  else readNumeral? negative cs

end WorkflowGraph.Binary64
