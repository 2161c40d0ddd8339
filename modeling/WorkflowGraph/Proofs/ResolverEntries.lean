/-
# A resolver answers with the last entry

A resolver keeps the new names of outputs in a table of tables, by node and then by declared
name, and the nodes that ids stand for in a table beside it. To its users it is one flat table
over the entries that were added: a question is answered by the last entry about exactly that
output or id, and where there is none, by the name that was asked about. So the entries can be
added in any order in which those about one output, or about one id, keep their turns.
-/

import Mathlib.Data.List.Induction
import WorkflowGraph.Resolver

namespace WorkflowGraph.Resolver

/-- What an entry is about: an output of a node, or an id that stands for a node. -/
inductive Subject
  | output (node declared : String)
  | standIn (id : String)
  deriving DecidableEq, Repr

namespace Subject

/-- The name that is in use where no entry gives another one. -/
def ownName : Subject → String
  | output _ declared => declared
  | standIn id => id

end Subject

namespace Entry

/-- The output or the id that an entry is about. -/
def subject : Entry → Subject
  | renamed node declared _ => .output node declared
  | aliased standIn _ => .standIn standIn

/-- The name or the node that an entry gives. -/
def given : Entry → String
  | renamed _ _ effective => effective
  | aliased _ node => node

end Entry

/-- The entries about a subject, in order. -/
def about (s : Subject) (entries : List Entry) : List Entry :=
  entries.filter fun e => e.subject = s

/-- What the last entry about a subject gives, if there is one. -/
def lastGiven? (entries : List Entry) (s : Subject) : Option String :=
  (about s entries).getLast?.map Entry.given

/-- What a resolver says of a subject. -/
def answer (r : Resolver) : Subject → String
  | .output node name => r.outputName node name
  | .standIn id => r.nodeId id

/-- A new entry answers for its own subject and for no other one. -/
theorem answer_add (r : Resolver) (e : Entry) (s : Subject) :
    (r.add e).answer s = if e.subject = s then e.given else r.answer s := by
  cases e with
  | renamed node declared effective =>
      cases s with
      | output other name =>
          rw [add, answer, outputName_renameOutput]
          simp [Entry.subject, Entry.given, answer]
      | standIn id =>
          have hsame : (r.renameOutput node declared effective).nodeId id = r.nodeId id := rfl
          simp [add, answer, hsame, Entry.subject]
  | aliased standIn node =>
      cases s with
      | output other name =>
          have hsame : (r.aliasNode standIn node).outputName other name =
              r.outputName other name := rfl
          simp [add, answer, hsame, Entry.subject]
      | standIn id =>
          rw [add, answer, nodeId_aliasNode]
          simp [Entry.subject, Entry.given, answer]

theorem ofEntries_concat (entries : List Entry) (e : Entry) :
    ofEntries (entries ++ [e]) = (ofEntries entries).add e := by
  simp [ofEntries]

theorem lastGiven?_concat (entries : List Entry) (e : Entry) (s : Subject) :
    lastGiven? (entries ++ [e]) s =
      if e.subject = s then some e.given else lastGiven? entries s := by
  unfold lastGiven? about
  rw [List.filter_append]
  by_cases hs : e.subject = s <;> simp [hs]

/-- The nested tables come to one flat table over the entries. -/
theorem answer_ofEntries (entries : List Entry) (s : Subject) :
    (ofEntries entries).answer s = (lastGiven? entries s).getD s.ownName := by
  induction entries using List.reverseRecOn with
  | nil => cases s <;> rfl
  | append_singleton entries e ih =>
      rw [ofEntries_concat, answer_add, lastGiven?_concat, ih]
      split <;> rfl

/-- A resolver that answers with the last of the given entries about each output and id. The
node of a pointer is looked up once, and its output under the node that was found. -/
structure AnswersLast (r : Resolver) (entries : List Entry) : Prop where
  outputName : ∀ node name,
    r.outputName node name = (lastGiven? entries (.output node name)).getD name
  nodeId : ∀ id, r.nodeId id = (lastGiven? entries (.standIn id)).getD id
  resolve : ∀ node output type, r.resolve node output type =
    ⟨r.nodeId node, r.outputName (r.nodeId node) output, type⟩

/-- The same entries in another order, in which those about one subject keep their turns. -/
structure Rearranges (entries other : List Entry) : Prop where
  perm : entries.Perm other
  turns : ∀ s, about s entries = about s other

/-- Two neighbours about different subjects can change places. -/
theorem rearranges_swap {e e' : Entry} (hother : e.subject ≠ e'.subject)
    (before after : List Entry) :
    Rearranges (before ++ e :: e' :: after) (before ++ e' :: e :: after) where
  perm := (List.Perm.swap e' e after).append_left before
  turns := by
    intro s
    unfold about
    rw [List.filter_append, List.filter_append]
    congr 1
    by_cases hs : e.subject = s
    · have hs' : ¬ e'.subject = s := fun h => hother (hs.trans h.symm)
      simp [hs, hs']
    · simp [hs, List.filter_cons]

theorem Rearranges.lastGiven?_eq {entries other : List Entry} (h : Rearranges entries other) :
    lastGiven? other = lastGiven? entries := by
  funext s
  rw [lastGiven?, lastGiven?, h.turns s]

/-- The answers of a resolver are those of the last entries, whatever entries it was given and
in whatever turn. Rearranging them changes no answer, as long as two entries about one subject
do not change places. -/
theorem ofEntries_answersLast (entries : List Entry) :
    (ofEntries entries).AnswersLast entries ∧
      ∀ other, Rearranges entries other →
        (ofEntries other).outputName = (ofEntries entries).outputName ∧
        (ofEntries other).nodeId = (ofEntries entries).nodeId ∧
        (ofEntries other).resolve = (ofEntries entries).resolve := by
  constructor
  · exact ⟨fun node name => answer_ofEntries entries (.output node name),
      fun id => answer_ofEntries entries (.standIn id), fun _ _ _ => rfl⟩
  · intro other hother
    have hanswer : ∀ s, (ofEntries other).answer s = (ofEntries entries).answer s := by
      intro s
      rw [answer_ofEntries, answer_ofEntries, hother.lastGiven?_eq]
    have hname : (ofEntries other).outputName = (ofEntries entries).outputName :=
      funext fun node => funext fun name => hanswer (.output node name)
    have hnode : (ofEntries other).nodeId = (ofEntries entries).nodeId :=
      funext fun id => hanswer (.standIn id)
    refine ⟨hname, hnode, ?_⟩
    funext node output type
    rw [resolve, resolve, hname, hnode]

/-- Entries about an output that is renamed twice, between them an id that stands for a
node which stands for another one. -/
def handovers : List Entry :=
  [.renamed "loop" "list" "items", .aliased "start" "loop", .renamed "loop" "list" "output",
    .aliased "loop" "outer"]

theorem ofEntries_answersLast_handovers :
    Rearranges handovers [.renamed "loop" "list" "items", .renamed "loop" "list" "output",
        .aliased "start" "loop", .aliased "loop" "outer"] ∧
      (ofEntries handovers).AnswersLast handovers ∧
        (ofEntries [.renamed "loop" "list" "items", .renamed "loop" "list" "output",
          .aliased "start" "loop", .aliased "loop" "outer"]).resolve =
            (ofEntries handovers).resolve := by
  have hother : (Entry.aliased "start" "loop").subject ≠
      (Entry.renamed "loop" "list" "output").subject := by decide
  have hswap := rearranges_swap hother [.renamed "loop" "list" "items"] [.aliased "loop" "outer"]
  obtain ⟨hanswers, hrearranged⟩ := ofEntries_answersLast handovers
  exact ⟨hswap, hanswers, (hrearranged _ hswap).2.2⟩

/-- Aliases are followed for one step, and the output is looked up under the node found. -/
example : (ofEntries handovers).resolve "start" "list" .any = ⟨"loop", "output", .any⟩ := by
  decide +kernel

end WorkflowGraph.Resolver
