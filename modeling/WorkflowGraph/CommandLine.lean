/-
# The command line

The tool converts one exported workflow. It prints the graph as JSON, or writes it to
a file as JSON or as an artifact, and prints the report when asked to. It can also say
how it is used, and which version it is.
-/

import WorkflowGraph.Artifact.Saved
import WorkflowGraph.Conversion
import WorkflowGraph.Graph.Json
import WorkflowGraph.Json.Printer

namespace WorkflowGraph.CommandLine

/-- How a document is to be converted. -/
structure Options where
  document : String
  source : Platform
  output : Option String
  binary : Bool
  report : Bool
  deriving Repr

/-- What the tool can tell about itself. -/
inductive Notice
  | help
  | version
  deriving DecidableEq, Repr

/-- What the arguments ask for. -/
inductive Request
  | notice (n : Notice)
  | conversion (options : Options)
  deriving Repr

/-- The arguments read so far. -/
structure Draft where
  document : Option String
  source : Option Platform
  output : Option String
  binary : Bool
  report : Bool

/-- The options that take a value. -/
inductive Key
  | source
  | output

/-- What the next argument is read as: anything, the value of an option, or the path of
the document whatever it looks like. -/
inductive Expecting
  | anything
  | value (key : Key)
  | document

namespace Draft

/-- No arguments. -/
def empty : Draft :=
  ⟨none, none, none, false, false⟩

/-- Sets the path of the document, once. -/
def setDocument (d : Draft) (path : String) : Option Draft :=
  if d.document.isNone then some { d with document := some path } else none

/-- Sets the value of an option, once. -/
def setValue (d : Draft) (key : Key) (value : String) : Option Draft :=
  match key with
  | .source =>
    if d.source.isSome then none
    else (Platform.all.find? fun p => p.name == value).map fun p => { d with source := some p }
  | .output => if d.output.isSome then none else some { d with output := some value }

/-- Sets the flag for the binary form, once. -/
def setBinary (d : Draft) : Option Draft :=
  if d.binary then none else some { d with binary := true }

/-- Sets the flag for the report, once. -/
def setReport (d : Draft) : Option Draft :=
  if d.report then none else some { d with report := true }

/-- The options, if they are complete. The binary form needs a file. -/
def finish (d : Draft) : Option Options := do
  let document ← d.document
  let source ← d.source
  if d.binary && d.output.isNone then none
  else some ⟨document, source, d.output, d.binary, d.report⟩

end Draft

/-- How far the arguments have been read. A notice is given as soon as it is asked for, and
what follows is not looked at. -/
inductive Progress
  | reading (expecting : Expecting) (d : Draft)
  | asked (n : Notice)

/-- Goes on with any argument, if the last one made sense. -/
def proceed (d : Option Draft) : Option Progress :=
  d.map (.reading .anything)

/-- Reads a group of one-letter options. An option with a value takes the rest of the
group, after an equals sign if there is one, or the next argument if nothing is left. -/
def readLetters (d : Draft) : List Char → Option Progress
  | [] => some (.reading .anything d)
  | 'b' :: cs => d.setBinary.bind fun d => readLetters d cs
  | 'r' :: cs => d.setReport.bind fun d => readLetters d cs
  | 'f' :: cs => readAttached .source cs
  | 'o' :: cs => readAttached .output cs
  | 'h' :: _ => some (.asked .help)
  | 'V' :: _ => some (.asked .version)
  | _ => none
where
  /-- Reads the value of an option that stands in the same argument. -/
  readAttached (key : Key) : List Char → Option Progress
    | [] => some (.reading (.value key) d)
    | '=' :: cs => proceed (d.setValue key (String.ofList cs))
    | cs => proceed (d.setValue key (String.ofList cs))

/-- Reads an option by its long name, with a value after an equals sign or in the next
argument. -/
def readLong (d : Draft) (word : List Char) : Option Progress :=
  let name := String.ofList (word.takeWhile (· != '='))
  match name, word.dropWhile (· != '=') with
  | "binary", [] => proceed d.setBinary
  | "report", [] => proceed d.setReport
  | "from", [] => some (.reading (.value .source) d)
  | "output", [] => some (.reading (.value .output) d)
  | "from", _ :: value => proceed (d.setValue .source (String.ofList value))
  | "output", _ :: value => proceed (d.setValue .output (String.ofList value))
  | "help", [] => some (.asked .help)
  | "version", [] => some (.asked .version)
  | "", [] => some (.reading .document d)
  | _, _ => none

/-- Reads one argument. -/
def readArgument (expecting : Expecting) (d : Draft) (argument : String) : Option Progress :=
  match expecting, argument.toList with
  | .document, _ => (d.setDocument argument).map (.reading .document)
  | .value _, '-' :: _ :: _ => none
  | .value key, _ => proceed (d.setValue key argument)
  | .anything, '-' :: '-' :: word => readLong d word
  | .anything, '-' :: c :: cs => readLetters d (c :: cs)
  | .anything, _ => proceed (d.setDocument argument)

/-- Reads all arguments in order. -/
def readArguments : Expecting → Draft → List String → Option Request
  | .value _, _, [] => none
  | _, d, [] => d.finish.map .conversion
  | expecting, d, argument :: rest =>
    match readArgument expecting d argument with
    | some (.reading expecting d) => readArguments expecting d rest
    | some (.asked n) => some (.notice n)
    | none => none

/-- What the arguments ask for, when they make sense. -/
def parse? (arguments : List String) : Option Request :=
  readArguments .anything .empty arguments

/-- What a run of the tool leaves behind: an exit code and two texts, and whether the
time that it took is to be told as well. -/
structure Outcome where
  code : Nat
  stdout : String
  stderr : String
  timed : Bool
  deriving DecidableEq, Repr

/-- How the tool is called. -/
def usageLine : String :=
  "Usage: flowbridge-cli [OPTIONS] --from <FROM> <DOCUMENT_PATH>"

/-- What the tool does and what its arguments mean. -/
def helpText : String :=
  "A graph-reconciliation engine that converts agent workflows between low-code "
    ++ "orchestration platforms\n\n" ++ usageLine ++ "\n\n"
    ++ "Arguments:\n"
    ++ "  <DOCUMENT_PATH>  Path to the exported workflow JSON file\n\n"
    ++ "Options:\n"
    ++ "  -f, --from <FROM>      The platform the workflow was exported from "
    ++ "[possible values: " ++ String.intercalate ", " (Platform.all.map Platform.name) ++ "]\n"
    ++ "  -o, --output <OUTPUT>  Write the converted graph here instead of printing it\n"
    ++ "  -b, --binary           Write a binary graph artifact instead of JSON "
    ++ "(requires --output)\n"
    ++ "  -r, --report           Print the conversion report\n"
    ++ "  -h, --help             Print help\n"
    ++ "  -V, --version          Print version\n"

namespace Outcome

/-- The tool gives up with a message. -/
def failure (message : String) : Outcome :=
  ⟨1, "", "\nError: " ++ message ++ "\n", false⟩

/-- The arguments make no sense. -/
def usage : Outcome :=
  ⟨2, "", usageLine ++ "\n\nFor more information, try '--help'.\n", false⟩

/-- The tool tells about itself. -/
def notice : Notice → Outcome
  | .help => ⟨0, helpText, "", false⟩
  | .version => ⟨0, "flowbridge 0.1.0\n", "", false⟩

/-- The tool succeeds with the given texts, and prints the report if it is asked to. -/
def success (options : Options) (c : Conversion) (stdout stderr : String) : Outcome :=
  if options.report then
    ⟨0, stdout, stderr ++ "\n--- Conversion Report (" ++ options.source.name
      ++ " -> unified) ---\n" ++ c.report.text, true⟩
  else ⟨0, stdout, stderr, false⟩

end Outcome

/-- The graph as the tool prints it. -/
def graphText (c : Conversion) : String :=
  c.graph.toJson.pretty

/-- The text that bytes hold. -/
def textOfBytes? (bytes : Codec.Bytes) : Option String :=
  String.fromUTF8? ⟨bytes.toArray⟩

/-- The conversion of the bytes of a document, or the message of a failure. -/
def convert (options : Options) (bytes : Codec.Bytes) : Except String Conversion :=
  match textOfBytes? bytes with
  | none =>
    .error ("Failed to read workflow file '" ++ options.document
      ++ "': stream did not contain valid UTF-8")
  | some s =>
    (Conversion.ofText (Registry.withDefaults options.source) s).mapError fun e =>
      "Conversion failed: " ++ e.message

variable {m : Type → Type} [Monad m]

/-- Prints a conversion, or writes it to the file that the options name. -/
def deliver (store : FileStore m) (options : Options) (c : Conversion) : m Outcome := do
  match options.output with
  | none => return .success options c (graphText c ++ "\n") ""
  | some path =>
    if options.binary then
      match ← Artifact.save store path ⟨c.source, c.graph⟩ with
      | .ok _ => return .success options c "" ("Graph artifact written to '" ++ path ++ "'\n")
      | .error e => return .failure ("Failed to save artifact: " ++ e.message)
    else
      match ← store.write path (graphText c).toUTF8.toList with
      | .ok _ => return .success options c "" ("Graph written to '" ++ path ++ "'\n")
      | .error e => return .failure ("Failed to write '" ++ path ++ "': " ++ e.reason)

/-- Runs the tool with the given arguments. -/
def run (store : FileStore m) (arguments : List String) : m Outcome := do
  match parse? arguments with
  | none => return .usage
  | some (.notice n) => return .notice n
  | some (.conversion options) =>
    match ← store.read options.document with
    | .error e =>
      return .failure ("Failed to read workflow file '" ++ options.document ++ "': " ++ e.reason)
    | .ok bytes =>
      match convert options bytes with
      | .error message => return .failure message
      | .ok c => deliver store options c

end WorkflowGraph.CommandLine
