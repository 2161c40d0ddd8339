/-
# Reading JSON text

A text is cut into tokens, and the tokens are assembled with a stack of the
containers that are still open. Both passes run once over their list. A text is
refused, without a reason, when it is not JSON, when containers are nested deeper
than a given limit, when a number is too large for a floating-point number, and
when an escape names half of a surrogate pair.
-/

import WorkflowGraph.Json

namespace WorkflowGraph.Json

/-- The smallest pieces of a JSON text. -/
inductive Token
  | openArray
  | closeArray
  | openObject
  | closeObject
  | comma
  | colon
  | atom (value : Json)

/-- What the characters read last belong to. Collected characters are listed
with the last one first; a text remembers the first half of a surrogate pair. -/
inductive Scan
  | between
  | text (rev : List Char) (high : Option Nat)
  | numeral (rev : List Char)
  | word (rev : List Char)

/-- The characters that separate tokens. -/
def isSpace (c : Char) : Bool :=
  c == ' ' || c == '\n' || c == '\t' || c == '\r'

/-- The characters that numerals are made of. -/
def isNumeralChar (c : Char) : Bool :=
  Text.isDigit c || c == '-' || c == '+' || c == '.' || c == 'e' || c == 'E'

/-- The whole number that a sign and digits stand for, when it fits in 64 bits;
a floating-point number otherwise, and for minus zero. -/
def integral (negative : Bool) (digits : List Char) : Number :=
  let n := Text.natOfDigits digits
  if negative && 0 < n && n ≤ Nat.pow 2 63 then .int (-(n : Int))
  else if !negative && n < Nat.pow 2 64 then .int n
  else .float (.ofNumeral negative digits [] 0)

/-- The number that a numeral stands for. -/
def number? (cs : List Char) : Option Number :=
  let (negative, unsigned) := match cs with
    | '-' :: rest => (true, rest)
    | rest => (false, rest)
  let whole := unsigned.takeWhile Text.isDigit
  let tail := unsigned.dropWhile Text.isDigit
  if whole.isEmpty || (whole.head? == some '0' && 1 < whole.length) then none
  else
    let n? : Option Number := match tail with
      | [] => some (integral negative whole)
      | '.' :: rest =>
        let fraction := rest.takeWhile Text.isDigit
        if fraction.isEmpty then none
        else (Binary64.readExponent? (rest.dropWhile Text.isDigit)).map fun e =>
          .float (.ofNumeral negative whole fraction e)
      | rest => (Binary64.readExponent? rest).map fun e =>
          .float (.ofNumeral negative whole [] e)
    n?.filter fun n => n.toFloat.isFinite

/-- The value that a word stands for. -/
def word? (cs : List Char) : Option Json :=
  match String.ofList cs with
  | "null" => some .null
  | "true" => some (.bool true)
  | "false" => some (.bool false)
  | _ => none

/-- The value of a hexadecimal digit. -/
def hexValue? (c : Char) : Option Nat :=
  if Text.isDigit c then some (Text.digitValue c)
  else if 'a' ≤ c && c ≤ 'f' then some (c.toNat - 'a'.toNat + 10)
  else if 'A' ≤ c && c ≤ 'F' then some (c.toNat - 'A'.toNat + 10)
  else none

/-- The number that four hexadecimal digits spell. -/
def codeUnit? (a b c d : Char) : Option Nat := do
  let a ← hexValue? a
  let b ← hexValue? b
  let c ← hexValue? c
  let d ← hexValue? d
  return ((a * 16 + b) * 16 + c) * 16 + d

/-- The scan of a text after a numbered escape: the second half of a surrogate
pair completes the first one, and neither may stand alone. -/
def pushUnit? (rev : List Char) (high : Option Nat) (unit : Nat) : Option Scan :=
  let isHigh := 0xD800 ≤ unit && unit ≤ 0xDBFF
  let isLow := 0xDC00 ≤ unit && unit ≤ 0xDFFF
  match high with
  | some h =>
    if isLow then
      some (.text (Char.ofNat (0x10000 + (h - 0xD800) * 0x400 + (unit - 0xDC00)) :: rev) none)
    else none
  | none =>
    if isHigh then some (.text rev (some unit))
    else if isLow then none
    else some (.text (Char.ofNat unit :: rev) none)

/-- The character that a one-letter escape stands for. -/
def escape? (c : Char) : Option Char :=
  match c with
  | '"' => some '"'
  | '\\' => some '\\'
  | '/' => some '/'
  | 'b' => some '\x08'
  | 'f' => some '\x0c'
  | 'n' => some '\n'
  | 'r' => some '\r'
  | 't' => some '\t'
  | _ => none

/-- The scan after a character that begins something new. Tokens are collected
with the last one first. -/
def start? (c : Char) (tokens : List Token) : Option (Scan × List Token) :=
  if isSpace c then some (.between, tokens)
  else if isNumeralChar c && c != '+' && c != '.' && c != 'e' && c != 'E' then
    some (.numeral [c], tokens)
  else if 'a' ≤ c && c ≤ 'z' then some (.word [c], tokens)
  else match c with
    | '"' => some (.text [] none, tokens)
    | '[' => some (.between, .openArray :: tokens)
    | ']' => some (.between, .closeArray :: tokens)
    | '\x7b' => some (.between, .openObject :: tokens)
    | '\x7d' => some (.between, .closeObject :: tokens)
    | ',' => some (.between, .comma :: tokens)
    | ':' => some (.between, .colon :: tokens)
    | _ => none

/-- The tokens after the numeral or word that is being read has ended. -/
def finish? : Scan → List Token → Option (List Token)
  | .between, tokens => some tokens
  | .numeral rev, tokens => (number? rev.reverse).map fun n => .atom (.num n) :: tokens
  | .word rev, tokens => (word? rev.reverse).map fun j => .atom j :: tokens
  | .text .., _ => none

/-- Reads all characters and gives the tokens with the last one first. -/
def scan : Scan → List Token → List Char → Option (List Token)
  | state, tokens, [] => finish? state tokens
  | .text rev high, tokens, '\\' :: 'u' :: a :: b :: c :: d :: cs =>
    match (codeUnit? a b c d).bind (pushUnit? rev high) with
    | some state => scan state tokens cs
    | none => none
  | .text rev none, tokens, '\\' :: c :: cs =>
    match escape? c with
    | some e => scan (.text (e :: rev) none) tokens cs
    | none => none
  | .text rev none, tokens, c :: cs =>
    if c == '"' then scan .between (.atom (.str (String.ofList rev.reverse)) :: tokens) cs
    else if c.toNat < 0x20 || c == '\\' then none
    else scan (.text (c :: rev) none) tokens cs
  | .text _ (some _), _, _ => none
  | .numeral rev, tokens, c :: cs =>
    if isNumeralChar c then scan (.numeral (c :: rev)) tokens cs
    else match (finish? (.numeral rev) tokens).bind (start? c) with
      | some (state, tokens) => scan state tokens cs
      | none => none
  | .word rev, tokens, c :: cs =>
    if 'a' ≤ c && c ≤ 'z' then scan (.word (c :: rev)) tokens cs
    else match (finish? (.word rev) tokens).bind (start? c) with
      | some (state, tokens) => scan state tokens cs
      | none => none
  | .between, tokens, c :: cs =>
    match start? c tokens with
    | some (state, tokens) => scan state tokens cs
    | none => none

/-- The tokens of a text. -/
def tokens? (s : String) : Option (List Token) :=
  (scan .between [] s.toList).map List.reverse

/-- A container that is still open, with what it holds so far, the last entry
first. An object also has the name of the field that is being read. -/
inductive OpenContainer
  | array (done : List Json)
  | object (done : List (String × Json)) (key : String)

/-- What may come next. -/
inductive Goal
  | value
  | firstItem
  | key
  | firstKey
  | colon
  | separator
  | nothing (result : Json)

/-- Puts a finished value into the innermost open container. -/
def deliver (value : Json) : List OpenContainer → Goal × List OpenContainer
  | [] => (.nothing value, [])
  | .array done :: stack => (.separator, .array (value :: done) :: stack)
  | .object done key :: stack => (.separator, .object ((key, value) :: done) key :: stack)

/-- The goal and the stack after one token. -/
def assembleStep (limit : Nat) (goal : Goal) (stack : List OpenContainer) (token : Token) :
    Option (Goal × List OpenContainer) :=
  let openable := match goal with
    | .value | .firstItem => true
    | _ => false
  match goal, stack, token with
  | .key, .object done _ :: stack, .atom (.str key)
  | .firstKey, .object done _ :: stack, .atom (.str key) =>
    some (.colon, .object done key :: stack)
  | .firstKey, .object _ _ :: stack, .closeObject => some (deliver (.obj []) stack)
  | .firstItem, .array _ :: stack, .closeArray => some (deliver (.arr []) stack)
  | .colon, stack, .colon => some (.value, stack)
  | .separator, .array done :: stack, .comma => some (.value, .array done :: stack)
  | .separator, .array done :: stack, .closeArray => some (deliver (.arr done.reverse) stack)
  | .separator, .object done key :: stack, .comma => some (.key, .object done key :: stack)
  | .separator, .object done _ :: stack, .closeObject =>
    some (deliver (.object done.reverse) stack)
  | _, stack, .atom value => if openable then some (deliver value stack) else none
  | _, stack, .openArray =>
    if openable && stack.length < limit then some (.firstItem, .array [] :: stack) else none
  | _, stack, .openObject =>
    if openable && stack.length < limit then some (.firstKey, .object [] "" :: stack) else none
  | _, _, _ => none

/-- Assembles all tokens to one value. -/
def assemble (limit : Nat) : Goal → List OpenContainer → List Token → Option Json
  | .nothing result, _, [] => some result
  | _, _, [] => none
  | goal, stack, token :: tokens =>
    match assembleStep limit goal stack token with
    | some (goal, stack) => assemble limit goal stack tokens
    | none => none

/-- The value that a text holds, with at most `limit` containers around any part
of it. -/
def parse? (limit : Nat) (s : String) : Option Json :=
  (tokens? s).bind (assemble limit .value [])

end WorkflowGraph.Json
