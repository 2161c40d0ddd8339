/-
# Letter case of ASCII text

Keywords are compared without regard to the case of the letters `A` to `Z`; all
other characters, accented letters included, are compared as they stand.
-/

namespace WorkflowGraph.Text

/-- A text with the letters `A` to `Z` made small and all else kept. -/
def lower (s : String) : String :=
  String.ofList (s.toList.map Char.toLower)

/-- Whether two texts differ at most in the case of ASCII letters. -/
def sameIgnoringCase (a b : String) : Bool :=
  lower a == lower b

/-- The digits `0` to `9`. -/
def isDigit (c : Char) : Bool :=
  '0' ≤ c && c ≤ '9'

/-- The value of a digit. -/
def digitValue (c : Char) : Nat :=
  c.toNat - '0'.toNat

/-- The number that a list of digits spells in base ten. -/
def natOfDigits (cs : List Char) : Nat :=
  cs.foldl (fun n c => 10 * n + digitValue c) 0

/-- The decimal digits of a number, most significant first. -/
def digitsOfNat (n : Nat) : List Char :=
  Nat.toDigits 10 n

/-- The small hexadecimal digits of a number, most significant first. -/
def hexOfNat (n : Nat) : List Char :=
  Nat.toDigits 16 n

/-- A number in decimal, with a minus sign when it is negative. -/
def ofInt (i : Int) : String :=
  match i with
  | .ofNat n => String.ofList (digitsOfNat n)
  | .negSucc n => String.ofList ('-' :: digitsOfNat (n + 1))

end WorkflowGraph.Text
