/-
# Reading records from JSON values

A reader turns a JSON value into a value of another type, or says what is wrong
with it. Records may be written as objects or as arrays of their fields in
declaration order. Of an object, the fields are read in the order in which it
lists them, so the first bad value is the one reported, and a missing field is
reported only when all present ones were read. Unknown names are ignored.
-/

import WorkflowGraph.Json
import WorkflowGraph.Text.Quoted

namespace WorkflowGraph.Json

/-- Why a value could not be read. -/
inductive ReadError
  | invalidType (found : Json) (expected : String)
  | invalidValue (found : Json) (expected : String)
  | invalidLength (length : Nat) (expected : String)
  | missingField (name : String)
  | duplicateField (name : String)
  | unknownVariant (name : String) (expected : List String)
  | bareVariant
  | tooDeep

/-- The kind of a value, with the value itself when it is a simple one. -/
def described : Json → String
  | .null => "null"
  | .bool true => "boolean `true`"
  | .bool false => "boolean `false`"
  | .num (.int i) => "integer `" ++ Text.ofInt i ++ "`"
  | .num (.float x) => "floating point `" ++ x.dataText ++ "`"
  | .str s => "string " ++ Text.quoted s
  | .arr _ => "sequence"
  | .obj _ => "map"

/-- What a message says about the names of the alternatives. -/
def anyOf (names : List String) : String :=
  let quoted := names.map fun name => "`" ++ name ++ "`"
  match quoted with
  | [] => "there are no variants"
  | [only] => "expected " ++ only
  | [first, second] => "expected " ++ first ++ " or " ++ second
  | _ => "expected one of " ++ ", ".intercalate quoted

/-- The reason in words. -/
def ReadError.message : ReadError → String
  | .invalidType found expected =>
    "invalid type: " ++ found.described ++ ", expected " ++ expected
  | .invalidValue found expected =>
    "invalid value: " ++ found.described ++ ", expected " ++ expected
  | .invalidLength length expected =>
    "invalid length " ++ Text.ofInt length ++ ", expected " ++ expected
  | .missingField name => "missing field `" ++ name ++ "`"
  | .duplicateField name => "duplicate field `" ++ name ++ "`"
  | .unknownVariant name expected => "unknown variant `" ++ name ++ "`, " ++ anyOf expected
  | .bareVariant => "invalid type: unit variant, expected newtype variant"
  | .tooDeep => "recursion limit exceeded"

/-- Reads a value of type `α`. -/
abbrev Reader (α : Type) := Json → Except ReadError α

namespace Reader

variable {α β σ : Type}

/-- Any value as it is. -/
def any : Reader Json := .ok

/-- A string. -/
def text : Reader String
  | .str s => .ok s
  | j => .error (.invalidType j "a string")

/-- A truth value. -/
def bool : Reader Bool
  | .bool b => .ok b
  | j => .error (.invalidType j "a boolean")

/-- A floating-point number; whole numbers are converted. -/
def float : Reader Binary64
  | .num n => .ok n.toFloat
  | j => .error (.invalidType j "f64")

/-- A whole number from zero up to but not including `2 ^ width`. -/
def unsigned (width : Nat) (expected : String) : Reader Nat
  | .num (.int (.ofNat n)) =>
    if n < Nat.pow 2 width then .ok n else .error (.invalidValue (.nat n) expected)
  | .num (.int i) => .error (.invalidValue (.num (.int i)) expected)
  | j => .error (.invalidType j expected)

/-- A whole number that fits in 32 bits. -/
def word32 : Reader Nat := unsigned 32 "u32"

/-- A whole number that fits in 64 bits. -/
def word64 : Reader Nat := unsigned 64 "usize"

/-- An optional value: nothing when it is null. -/
def option (read : Reader α) : Reader (Option α)
  | .null => .ok none
  | j => (read j).map some

/-- Reads every value of a list, and stops at the first bad one. -/
def all (read : Reader α) : List Json → Except ReadError (List α)
  | [] => .ok []
  | j :: js => do
    let a ← read j
    let as ← all read js
    return a :: as

/-- A list of values. -/
def list (read : Reader α) : Reader (List α)
  | .arr items => all read items
  | j => .error (.invalidType j "a sequence")

/-- Reads the value of every field, and stops at the first bad one. -/
def allFields (read : Reader α) : List (String × Json) → Except ReadError (Fields α)
  | [] => .ok []
  | (k, j) :: fs => do
    let a ← read j
    let as ← allFields read fs
    return (k, a) :: as

/-- An object with free names, with its fields as they are listed. -/
def fields (read : Reader α) : Reader (Fields α)
  | .obj fields => allFields read fields
  | j => .error (.invalidType j "a map")

/-- A map with free names. -/
def table (read : Reader α) : Reader (Table α) :=
  fun j => (fields read j).map Table.ofList

/-- A pair, written as an array of two items. -/
def pair (first : Reader α) (second : Reader β) : Reader (α × β)
  | .arr [a, b] => do
    let a ← first a
    let b ← second b
    return (a, b)
  | .arr items => .error (.invalidLength items.length "a tuple of size 2")
  | j => .error (.invalidType j "a tuple of size 2")

/-- What a missing field means: an error, or the value that the record starts
out with. An `optional` field may be left out of an object but keeps its place
in an array. -/
inductive Absence
  | forbidden
  | optional
  | defaulted
  deriving DecidableEq

/-- One field of a record of type `σ`: its name, the other spellings of the name,
and how its value is read into the record. -/
structure Field (σ : Type) where
  name : String
  aliases : List String
  absence : Absence
  store : Json → σ → Except ReadError σ

namespace Field

/-- Whether the field is meant by a name. -/
def isNamed (f : Field σ) (key : String) : Bool :=
  f.name == key || f.aliases.contains key

/-- A field from the reader of its value and the way to put it in place. -/
def ofReader (absence : Absence) (name : String) (read : Reader α) (put : α → σ → σ) : Field σ :=
  ⟨name, [], absence, fun j s => (read j).map fun a => put a s⟩

/-- A field that must be present. -/
def required (name : String) (read : Reader α) (put : α → σ → σ) : Field σ :=
  ofReader .forbidden name read put

/-- A field that may be left out of an object. -/
def optional (name : String) (read : Reader α) (put : Option α → σ → σ) : Field σ :=
  ofReader .optional name (Reader.option read) put

/-- A field with a default. -/
def defaulted (name : String) (read : Reader α) (put : α → σ → σ) : Field σ :=
  ofReader .defaulted name read put

/-- The same field with another spelling of its name. -/
def orNamed (f : Field σ) (key : String) : Field σ :=
  { f with aliases := key :: f.aliases }

end Field

/-- Reads the fields of an object one after the other; `seen` lists the names of
the fields read so far. -/
def entries (fields : List (Field σ)) :
    List String → List (String × Json) → σ → Except ReadError σ
  | seen, [], s =>
    match fields.find? fun f => f.absence == .forbidden && !seen.contains f.name with
    | some f => .error (.missingField f.name)
    | none => .ok s
  | seen, (key, value) :: rest, s =>
    match fields.find? fun f => f.isNamed key with
    | none => entries fields seen rest s
    | some f =>
      if seen.contains f.name then .error (.duplicateField f.name)
      else match f.store value s with
        | .ok s => entries fields (f.name :: seen) rest s
        | .error e => .error e

/-- The phrase for a record with its number of fields. -/
def recordWithSize (name : String) (size : Nat) : String :=
  "struct " ++ name ++ " with " ++ Text.ofInt size ++ (if size = 1 then " element" else " elements")

/-- Reads the items of an array into the fields of a record in turn; `index`
counts the fields read so far, and `size` and `length` are those of the whole
record and the whole array. -/
def items (name : String) (size length : Nat) :
    Nat → List (Field σ) → List Json → σ → Except ReadError σ
  | _, [], [], s => .ok s
  | _, [], _ :: _, _ => .error (.invalidLength length "fewer elements in array")
  | index, f :: fs, [], s =>
    if f.absence = .defaulted then items name size length (index + 1) fs [] s
    else .error (.invalidLength index (recordWithSize name size))
  | index, f :: fs, j :: js, s =>
    match f.store j s with
    | .ok s => items name size length (index + 1) fs js s
    | .error e => .error e

/-- A record with the given fields; `initial` holds the defaults. -/
def record (name : String) (initial : σ) (fields : List (Field σ)) : Reader σ
  | .obj es => entries fields [] es initial
  | .arr js => items name fields.length js.length 0 fields js initial
  | j => .error (.invalidType j ("struct " ++ name))

/-- One of the alternatives of a tagged value: a bare name, or a name with a
value. -/
inductive Variant (α : Type)
  | bare (name : String) (value : α)
  | carrying (name : String) (read : Reader α)

namespace Variant

/-- The name that selects the alternative. -/
def name : Variant α → String
  | .bare name _ => name
  | .carrying name _ => name

/-- An alternative from the reader of its value. -/
def of (name : String) (read : Reader β) (wrap : β → α) : Variant α :=
  .carrying name fun j => (read j).map wrap

end Variant

/-- A tagged value: the name of an alternative as a string, or an object with that
name as its only field. -/
def variants (alternatives : List (Variant α)) : Reader α
  | .str tag =>
    match alternatives.find? fun v => v.name == tag with
    | some (.bare _ a) => .ok a
    | some (.carrying _ _) => .error .bareVariant
    | none => .error (.unknownVariant tag (alternatives.map Variant.name))
  | .obj [(tag, value)] =>
    match alternatives.find? fun v => v.name == tag with
    | some (.bare _ a) =>
      match value with
      | .null => .ok a
      | j => .error (.invalidType j "unit")
    | some (.carrying _ read) => read value
    | none => .error (.unknownVariant tag (alternatives.map Variant.name))
  | .obj fields => .error (.invalidValue (.obj fields) "map with a single key")
  | j => .error (.invalidType j "string or map")

/-- A reader of nested values, from a family of readers that may descend a given
number of levels. No descent is longer than the value is deep. -/
def nested (readWithin : Nat → Reader α) : Reader α :=
  fun j => readWithin j.depth j

end Reader

end WorkflowGraph.Json
