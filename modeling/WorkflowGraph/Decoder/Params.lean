/-
# Parameters of records

What the settings of a record have to look like for each kind of node. Every
parameter may be missing; one that is present must have the right type.
-/

import WorkflowGraph.Decoder
import WorkflowGraph.Record.Json

namespace WorkflowGraph.Params

open Json (Reader)
open Json.Reader.Field (defaulted)

/-- Reads a text that may be absent. -/
def text? : Reader (Option String) :=
  Reader.option Reader.text

/-- Reads a pointer that may be absent. -/
def pointer? : Reader (Option Pointer) :=
  Reader.option Pointer.read

/-- Reads the parameters of a model. -/
def model : Reader Model :=
  Reader.record "ModelParams" default
    [defaulted "provider" text? fun v m => { m with provider := v },
     defaulted "name" text? fun v m => { m with name := v.getD "" },
     defaulted "temperature" (Reader.option Reader.float) fun v m => { m with temperature := v },
     defaulted "max_tokens" (Reader.option Reader.word32) fun v m =>
       { m with maxTokens := v.map UInt32.ofNat }]

/-- Reads the answer of an end node. -/
def finish : Reader (Option String) :=
  Reader.record "EndParams" none [defaulted "answer" text? fun v _ => v]

/-- Reads the parameters of a node that calls a language model; an empty system
prompt counts as absent. -/
def llm : Reader LlmConfig :=
  Reader.record "LlmParams" default
    [defaulted "model" model fun v c => { c with model := v },
     defaulted "system_prompt" text? fun v c =>
       { c with systemPrompt := v.filter fun s => !s.isEmpty },
     defaulted "prompt" text? fun v c => { c with prompt := v.getD "" }]

/-- Reads the parameters of a node that runs code. -/
def code : Reader CodeConfig :=
  Reader.record "CodeParams" ⟨.python3, ""⟩
    [defaulted "language" text? fun v c =>
       { c with language := (v.map CodeLanguage.parse).getD .python3 },
     defaulted "code" text? fun v c => { c with code := v.getD "" }]

/-- The parameters of one comparison. -/
structure Operand where
  left : Option Pointer
  operator : String
  right : Json
  deriving Inhabited

/-- Reads the parameters of one comparison. -/
def operand : Reader Operand :=
  Reader.record "OperandParams" ⟨none, "", .null⟩
    [defaulted "left" pointer? fun v o => { o with left := v },
     defaulted "operator" text? fun v o => { o with operator := v.getD "" },
     defaulted "right" Reader.any fun v o => { o with right := v }]

/-- The parameters of one branch. -/
structure Case where
  id : Option String
  logicalOperator : Option String
  conditions : List Operand
  deriving Inhabited

/-- Reads the parameters of one branch. -/
def branch : Reader Case :=
  Reader.record "CaseParams" ⟨none, none, []⟩
    [defaulted "id" text? fun v c => { c with id := v },
     defaulted "logical_operator" text? fun v c => { c with logicalOperator := v },
     defaulted "conditions" (Reader.list operand) fun v c => { c with conditions := v }]

/-- Reads the branches of a condition node. -/
def condition : Reader (List Case) :=
  Reader.record "ConditionParams" [] [defaulted "cases" (Reader.list branch) fun v _ => v]

/-- The parameters of one class. -/
structure ClassEntry where
  id : Option String
  name : String
  deriving Inhabited

/-- Reads the parameters of one class. -/
def classEntry : Reader ClassEntry :=
  Reader.record "ClassParams" ⟨none, ""⟩
    [defaulted "id" text? fun v c => { c with id := v },
     defaulted "name" text? fun v c => { c with name := v.getD "" }]

/-- The parameters of a classifier. -/
structure Classifier where
  model : Model
  query : Option Pointer
  instruction : Option String
  classes : List ClassEntry
  deriving Inhabited

/-- Reads the parameters of a classifier; an empty instruction counts as absent. -/
def classifier : Reader Classifier :=
  Reader.record "ClassifierParams" ⟨default, none, none, []⟩
    [defaulted "model" model fun v c => { c with model := v },
     defaulted "query" pointer? fun v c => { c with query := v },
     defaulted "instruction" text? fun v c =>
       { c with instruction := v.filter fun s => !s.isEmpty },
     defaulted "classes" (Reader.list classEntry) fun v c => { c with classes := v }]

/-- The parameters of an iteration. The id of a loop-start node is only checked
here; the resolver takes it from the record. -/
structure Iteration where
  iterator : Option Pointer
  output : Option Pointer
  outputType : Option String
  parallel : Bool
  startNodeId : Option String
  deriving Inhabited

/-- Reads the parameters of an iteration. -/
def iteration : Reader Iteration :=
  Reader.record "IterationParams" ⟨none, none, none, false, none⟩
    [defaulted "iterator" pointer? fun v c => { c with iterator := v },
     defaulted "output" pointer? fun v c => { c with output := v },
     defaulted "output_type" text? fun v c => { c with outputType := v },
     defaulted "parallel" Reader.bool fun v c => { c with parallel := v },
     defaulted "start_node_id" text? fun v c => { c with startNodeId := v }]

/-- The parameters of a record, or why they could not be read. -/
def read {α : Type} (reader : Reader α) (r : Record) : Except DecodeError α :=
  (reader (.obj r.params)).mapError fun e => .invalidParams r.id e.message

end WorkflowGraph.Params
