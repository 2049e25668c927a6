import Armature.KeyedRows
import Armature.WorkflowModel
/-!
# WorkflowGraph — saving a workflow's graph (`workflow/graph.go`, `workflow/admin.go`)

The tables of workflows, steps, transitions and rules, and the statements a save runs on them in order.  A deleted step
takes the transitions that touch it, and a deleted transition its rules.
-/
namespace Armature
namespace Graph

open Go (Text)
open Wf (Uuid)

/-! ## The input -/

structure StepInput where
  statusId : Uuid
  isInitial : Bool
  layout : Option (Int × Int)
  deriving DecidableEq

structure RuleInput where
  kind : Text
  type : Text
  config : Text
  deriving DecidableEq

structure TransitionInput where
  id : Uuid
  name : Text
  description : Text
  fromStatusId : Option Uuid
  toStatusId : Uuid
  /-- The whole set of rules, absent when the editor said nothing about them. -/
  rules : Option (List RuleInput)
  deriving DecidableEq

structure GraphInput where
  name : Text
  description : Text
  steps : List StepInput
  transitions : List TransitionInput
  deriving DecidableEq

inductive Err where
  | invalid (message : Text)
  | notFound
  deriving DecidableEq

def invalid {α : Type} (parts : List Text) : Except Err α := .error (.invalid parts.flatten)

/-! ## Checking it -/

section
variable (names : Uuid → Option Text)

def checkStep (acc : Text × List Uuid) (step : StepInput) : Except Err (Text × List Uuid) :=
  match names step.statusId with
  | none => invalid ["there is no such status".toList]
  | some name =>
    if step.statusId ∈ acc.2 then invalid [name, " is listed twice".toList]
    else if step.isInitial then
      if acc.1 ≠ [] then
        invalid ["new issues can only start in one status, and both ".toList, acc.1, " and ".toList, name, " are marked".toList]
      else .ok (name, step.statusId :: acc.2)
    else .ok (acc.1, step.statusId :: acc.2)

def nameOf (id : Uuid) : Text := (names id).getD []

def checkEdge (inWorkflow : List Uuid) (byName : List (Uuid × Text)) (t : TransitionInput) : Except Err (List (Uuid × Text)) := do
  if t.name = [] then invalid ["every transition needs a name".toList]
  else if t.toStatusId ∉ inWorkflow then invalid [t.name, " leads to a status this workflow does not contain".toList]
  else
    let from_ ← match t.fromStatusId with
      | none => pure Uuid.none
      | some status =>
        if status ∉ inWorkflow then invalid [t.name, " leaves a status this workflow does not contain".toList]
        else if status = t.toStatusId then
          invalid [t.name, " goes from ".toList, nameOf names t.toStatusId, " back to itself".toList]
        else pure status
    if (from_, t.name) ∈ byName then
      if from_ = Uuid.none then invalid ["there are two transitions called ".toList, t.name, " available everywhere".toList]
      else invalid ["there are two transitions called ".toList, t.name, " leaving ".toList, nameOf names from_]
    else return (from_, t.name) :: byName

def validateEdges (transitions : List TransitionInput) (inWorkflow : List Uuid) : Except Err Unit := do
  let _ ← transitions.foldlM (checkEdge names inWorkflow) []
  return ()

def validateGraph (in_ : GraphInput) : Except Err Unit := do
  if in_.name = [] then invalid ["a workflow needs a name".toList]
  else if in_.steps = [] then invalid ["a workflow needs at least one status".toList]
  else
    let (initial, seen) ← in_.steps.foldlM (checkStep names) ([], [])
    if initial = [] then invalid ["one status has to be where new issues start".toList]
    else validateEdges names in_.transitions seen

end

/-- What the registry knows of rules: whether there is one of a kind and type, and what it says against a configuration. -/
structure Registry where
  known : Text → Text → Bool
  check : Text → Text → Text → Option Text

def noun (kind : Text) : Text := if kind = "postfunction".toList then "post-function".toList else kind

def checkRule (registry : Registry) (t : TransitionInput) (rule : RuleInput) : Except Err Unit :=
  if rule.kind ∉ ["condition".toList, "validator".toList, "postfunction".toList] then
    invalid [t.name, " has a rule of a kind this tracker does not know: ".toList, rule.kind]
  else if !registry.known rule.kind rule.type then
    invalid [t.name, " uses a ".toList, noun rule.kind, " this tracker does not have: ".toList, rule.type]
  else
    match registry.check rule.kind rule.type rule.config with
    | some message => invalid [t.name, ": ".toList, message]
    | none => .ok ()

def validateRules (transitions : List TransitionInput) (registry : Registry) : Except Err Unit :=
  transitions.forM (fun t => (t.rules.getD []).forM (checkRule registry t))

def tidy (in_ : GraphInput) : GraphInput where
  name := Go.trimSpace in_.name
  description := Go.trimSpace in_.description
  steps := in_.steps
  transitions := in_.transitions.map (fun t => { t with name := Go.trimSpace t.name, description := Go.trimSpace t.description })

/-! ## The tables -/

structure WorkflowRow where
  id : Uuid
  name : Text
  description : Text
  deriving DecidableEq

structure StepRow where
  id : Uuid
  workflowId : Uuid
  statusId : Uuid
  isInitial : Bool
  position : Nat
  layout : Option (Int × Int)
  deriving DecidableEq

structure TransitionRow where
  id : Uuid
  workflowId : Uuid
  name : Text
  fromStepId : Option Uuid
  toStepId : Uuid
  description : Text
  position : Nat
  deriving DecidableEq

structure RuleRow where
  transitionId : Uuid
  kind : Text
  type : Text
  config : Text
  position : Nat
  deriving DecidableEq

structure Tables where
  workflows : List WorkflowRow
  steps : List StepRow
  transitions : List TransitionRow
  rules : List RuleRow
  /-- The id the next new row gets. -/
  next : Uuid

namespace Tables

def stepsOf (db : Tables) (workflow : Uuid) : List StepRow := db.steps.filter (fun s => s.workflowId = workflow)

def transitionsOf (db : Tables) (workflow : Uuid) : List TransitionRow := db.transitions.filter (fun t => t.workflowId = workflow)

def rulesOf (db : Tables) (transition : Uuid) : List RuleRow := db.rules.filter (fun r => r.transitionId = transition)

def deleteTransitions (db : Tables) (gone : TransitionRow → Bool) : Tables :=
  let ids := (db.transitions.filter gone).map TransitionRow.id
  { db with transitions := db.transitions.filter (fun t => !gone t), rules := db.rules.filter (fun r => r.transitionId ∉ ids) }

def deleteSteps (db : Tables) (gone : StepRow → Bool) : Tables :=
  let ids := (db.steps.filter gone).map StepRow.id
  deleteTransitions { db with steps := db.steps.filter (fun s => !gone s) }
    (fun t => decide (t.toStepId ∈ ids) || t.fromStepId.any (fun id => decide (id ∈ ids)))

def stepsByStatus (db : Tables) (workflow status : Uuid) : Option Uuid :=
  ((db.stepsOf workflow).find? (fun s => s.statusId = status)).map StepRow.id

end Tables

/-! ## Writing it -/

def setStep (step : StepInput) (position : Nat) (s : StepRow) : StepRow :=
  { s with isInitial := step.isInitial, position := position, layout := step.layout }

def writeStep (workflow : Uuid) (acc : Tables × (Uuid → Option Uuid)) (input : StepInput × Nat) : Tables × (Uuid → Option Uuid) :=
  let (db, steps) := acc
  let (step, position) := input
  match steps step.statusId with
  | some existing => ({ db with steps := Rows.update StepRow.id existing (setStep step position) db.steps }, steps)
  | none =>
    ({ db with
        steps := db.steps ++ [⟨db.next, workflow, step.statusId, step.isInitial, position, step.layout⟩]
        next := db.next + 1 },
      Function.update steps step.statusId (some db.next))

def ruleRow (transition : Uuid) (input : RuleInput × Nat) : RuleRow :=
  let (rule, position) := input
  ⟨transition, rule.kind, rule.type, if rule.config = [] then "{}".toList else rule.config, position⟩

def writeRules (db : Tables) (transition : Uuid) (rules : List RuleInput) : Tables :=
  { db with rules := db.rules ++ rules.zipIdx.map (ruleRow transition) }

def setTransition (t : TransitionInput) (position : Nat) (steps : Uuid → Option Uuid) (r : TransitionRow) : TransitionRow :=
  { r with
    name := t.name
    fromStepId := t.fromStatusId.map (fun status => (steps status).getD Uuid.none)
    toStepId := (steps t.toStatusId).getD Uuid.none
    description := t.description
    position := position }

def writeTransition (workflow : Uuid) (steps : Uuid → Option Uuid) (surviving : List Uuid) (db : Tables)
    (input : TransitionInput × Nat) : Tables :=
  let (t, position) := input
  if t.id ∈ surviving then
    let db := { db with transitions := Rows.update TransitionRow.id t.id (setTransition t position steps) db.transitions }
    match t.rules with
    | none => db
    | some rules => writeRules { db with rules := db.rules.filter (fun r => r.transitionId ≠ t.id) } t.id rules
  else
    let row := setTransition t position steps ⟨db.next, workflow, [], none, Uuid.none, [], 0⟩
    writeRules { db with transitions := db.transitions ++ [row], next := db.next + 1 } db.next (t.rules.getD [])

def writeTransitions (db : Tables) (workflow : Uuid) (wanted : List TransitionInput) (steps : Uuid → Option Uuid) : Tables :=
  let surviving := (db.transitionsOf workflow).map TransitionRow.id
  let keep := (wanted.map TransitionInput.id).filter (fun id => id ∈ surviving)
  wanted.zipIdx.foldl (writeTransition workflow steps surviving)
    (db.deleteTransitions (fun t => decide (t.workflowId = workflow) && decide (t.id ∉ keep)))

def writeGraph (db : Tables) (workflow : Uuid) (in_ : GraphInput) : Tables :=
  let steps := db.stepsByStatus workflow
  let keep := in_.steps.map StepInput.statusId
  let db := db.deleteSteps (fun s => decide (s.workflowId = workflow) && decide (s.statusId ∉ keep))
  let db := { db with
    steps := db.steps.map (fun s => if s.workflowId = workflow ∧ s.isInitial then { s with isInitial := false } else s) }
  let (db, steps) := in_.steps.zipIdx.foldl (writeStep workflow) (db, steps)
  writeTransitions db workflow in_.transitions steps

def saveWorkflow (names : Uuid → Option Text) (registry : Registry) (lower : Text → Text) (db : Tables) (id : Uuid)
    (in_ : GraphInput) : Except Err Tables := do
  let in_ := tidy in_
  validateGraph names in_
  validateRules in_.transitions registry
  if ∃ w ∈ db.workflows, w.id ≠ id ∧ lower w.name = lower in_.name ∧ ∃ v ∈ db.workflows, v.id = id then
    invalid ["there is already a workflow called ".toList, in_.name]
  else if ∀ w ∈ db.workflows, w.id ≠ id then .error .notFound
  else
    let workflows := Rows.update WorkflowRow.id id (fun w => { w with name := in_.name, description := in_.description }) db.workflows
    return writeGraph { db with workflows := workflows } id in_

end Graph
end Armature
