import Armature.WorkflowModel
import Mathlib.Data.List.Sort
/-!
# WorkflowEngine — what is offered and what is carried out (`workflow/engine.go`)

`available` and `evaluate` walk the same rules separately.  `reachable` and `conditionsPass` are what both ask before a
transition is offered, and the validators' own answers are what both ask after.
-/
namespace Armature
namespace Wf

structure Engine where
  registry : Registry

def rulesOfKind (rules : List Rule) (kind : RuleKind) : List Rule :=
  (rules.filter (fun r => r.kind == kind)).insertionSort (fun a b => a.position ≤ b.position)

structure Decision where
  transition : Transition
  toStatus : Status
  effect : Effect

def inputEffect (input : Input) : Effect :=
  match input.assignee with
  | none => {}
  | some id => if id = Uuid.none then Effect.clearAssignee {} else Effect.setAssignee {} id

namespace Engine

def reachable (t : Transition) (current : Option Step) : Bool :=
  match t.fromStepId with
  | none => current.all (fun s => t.toStepId != s.id)
  | some start => current.any (fun s => start == s.id)

def condition (e : Engine) (t : Transition) (rule : Rule) : Except Err Condition :=
  (e.registry.buildCondition rule).mapError (Err.inTransition t.name)

def validator (e : Engine) (t : Transition) (rule : Rule) : Except Err Validator :=
  (e.registry.buildValidator rule).mapError (Err.inTransition t.name)

def postFunction (e : Engine) (t : Transition) (rule : Rule) : Except Err PostFunction :=
  (e.registry.buildPostFunction rule).mapError (Err.inTransition t.name)

def firstFailing (e : Engine) (t : Transition) (subject : Subject) (actor : Actor) :
    List Rule → Except Err (Option String)
  | [] => .ok none
  | rule :: rules => do
    let condition ← e.condition t rule
    if (condition subject actor).1 then firstFailing e t subject actor rules
    else .ok (some (condition subject actor).2)

def conditionsPass (e : Engine) (t : Transition) (subject : Subject) (actor : Actor) : Except Err (Option String) :=
  e.firstFailing t subject actor (rulesOfKind t.rules .condition)

def fieldOf : Option Err → Option String
  | some (.refused r) => if r.field = "" then none else some r.field
  | _ => none

def needsFrom (e : Engine) (t : Transition) (subject : Subject) (actor : Actor) (out : List String) :
    List Rule → Except Err (List String)
  | [] => .ok out
  | rule :: rules => do
    let validator ← e.validator t rule
    match fieldOf (validator subject actor {}) with
    | some field => needsFrom e t subject actor (if field ∈ out then out else out ++ [field]) rules
    | none => needsFrom e t subject actor out rules

def needs (e : Engine) (t : Transition) (subject : Subject) (actor : Actor) : Except Err (List String) :=
  e.needsFrom t subject actor [] (rulesOfKind t.rules .validator)

def offered (e : Engine) (subject : Subject) (actor : Actor) (current : Option Step) :
    List Transition → Except Err (List Transition)
  | [] => .ok []
  | t :: ts =>
    if reachable t current then do
      match ← e.conditionsPass t subject actor with
      | some _ => offered e subject actor current ts
      | none =>
        let asked ← e.needs t subject actor
        let rest ← offered e subject actor current ts
        return { t with needs := asked } :: rest
    else offered e subject actor current ts

def available (e : Engine) (w : Workflow) (subject : Subject) (actor : Actor) : Except Err (List Transition) := do
  let out ← e.offered subject actor (w.stepByStatus subject.statusId) w.transitions
  return out.insertionSort (fun a b => a.position ≤ b.position)

def validateAll (e : Engine) (t : Transition) (subject : Subject) (actor : Actor) (input : Input) :
    List Rule → Except Err Unit
  | [] => .ok ()
  | rule :: rules => do
    let validator ← e.validator t rule
    match validator subject actor input with
    | some err => .error err
    | none => validateAll e t subject actor input rules

def applyAll (e : Engine) (t : Transition) (subject : Subject) (actor : Actor) (input : Input) :
    List Rule → Effect → Except Err Effect
  | [], effect => .ok effect
  | rule :: rules, effect => do
    let fn ← e.postFunction t rule
    let effect ← (fn subject actor input effect).mapError (Err.inTransition t.name)
    applyAll e t subject actor input rules effect

def carryOut (e : Engine) (w : Workflow) (t : Transition) (subject : Subject) (actor : Actor) (input : Input) :
    Except Err Decision := do
  e.validateAll t subject actor input (rulesOfKind t.rules .validator)
  match w.stepById t.toStepId with
  | none => .error (.failed [.words "transition ", .quoted t.name, .words " points at a step that is not in the workflow"])
  | some target =>
    let effect ← e.applyAll t subject actor input (rulesOfKind t.rules .postFunction) (inputEffect input)
    return ⟨t, target.status, effect⟩

def evaluate (e : Engine) (w : Workflow) (transitionId : Uuid) (subject : Subject) (actor : Actor) (input : Input) :
    Except Err Decision :=
  match w.transition transitionId with
  | none => .error .transitionNotFound
  | some t =>
    if reachable t (w.stepByStatus subject.statusId) then do
      match ← e.conditionsPass t subject actor with
      | some reason => .error (.transitionNotAvailable [.words reason])
      | none => e.carryOut w t subject actor input
    else .error (.transitionNotAvailable [.quoted t.name, .words " does not leave the issue's current status"])

end Engine

def engine : Engine := ⟨defaultRegistry⟩

end Wf
end Armature
