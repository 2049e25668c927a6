import Armature.GoText
/-!
# WorkflowModel — workflows and the rules on their transitions (`workflow/model.go`, `workflow/rules.go`)

A rule is an interface of one function, as in the source; a registry maps a rule type's name to its builder.  A rule's
configuration is JSON that `decode` reads into one of two shapes, so a `Config` is what each reading gives.
-/
namespace Armature
namespace Wf

open Go (Text)

abbrev Uuid := Nat

def Uuid.none : Uuid := 0

inductive StatusCategory where
  | todo | inProgress | done
  deriving DecidableEq

structure Status where
  id : Uuid
  name : String
  category : StatusCategory
  deriving DecidableEq

structure Step where
  id : Uuid
  status : Status
  isInitial : Bool
  deriving DecidableEq

inductive RuleKind where
  | condition | validator | postFunction
  deriving DecidableEq

structure Config where
  roles : Except String (List String)
  text : Except String Text

structure Rule where
  kind : RuleKind
  type : String
  config : Config
  position : Int

structure Transition where
  id : Uuid
  name : String
  /-- `none` is a global transition, offered from every status. -/
  fromStepId : Option Uuid
  toStepId : Uuid
  position : Int
  needs : List String
  rules : List Rule

def Transition.isGlobal (t : Transition) : Bool := t.fromStepId.isNone

structure Workflow where
  name : String
  steps : List Step
  transitions : List Transition

namespace Workflow

def stepByStatus (w : Workflow) (statusId : Uuid) : Option Step := w.steps.find? (fun s => s.status.id == statusId)
def stepById (w : Workflow) (stepId : Uuid) : Option Step := w.steps.find? (fun s => s.id == stepId)
def transition (w : Workflow) (id : Uuid) : Option Transition := w.transitions.find? (fun t => t.id == id)

end Workflow

structure Subject where
  statusId : Uuid
  assigneeId : Option Uuid
  reporterId : Option Uuid

structure Actor where
  userId : Uuid
  orgRole : String

/-- What the user supplied.  An assignee of `Uuid.none` asks to unassign. -/
structure Input where
  comment : Text := []
  assignee : Option Uuid := none
  resolution : Text := []

structure Effect where
  assignee : Option Uuid := none
  clearAssign : Bool := false
  resolved : Option Bool := none
  comments : List Text := []

def Effect.setAssignee (e : Effect) (id : Uuid) : Effect := { e with assignee := some id, clearAssign := false }
def Effect.clearAssignee (e : Effect) : Effect := { e with assignee := none, clearAssign := true }

structure RuleError where
  field : String
  message : String
  deriving DecidableEq

/-- A piece of what an error says: words, or a name as `%q` writes it. -/
inductive Piece where
  | words (s : String)
  | quoted (name : String)
  deriving DecidableEq

inductive Err where
  | transitionNotFound
  | transitionNotAvailable (why : List Piece)
  | refused (e : RuleError)
  | failed (message : List Piece)
  deriving DecidableEq

def Err.inTransition (name : String) : Err → Err
  | .failed message => .failed ([.words "transition ", .quoted name, .words ": "] ++ message)
  | err => err

abbrev Condition := Subject → Actor → Bool × String
abbrev Validator := Subject → Actor → Input → Option Err
abbrev PostFunction := Subject → Actor → Input → Effect → Except Err Effect

structure Registry where
  conditions : String → Option (Config → Except Err Condition)
  validators : String → Option (Config → Except Err Validator)
  postFunctions : String → Option (Config → Except Err PostFunction)

namespace Registry

def build {α : Type} (noun : String) (known : String → Option (Config → Except Err α)) (rule : Rule) : Except Err α :=
  match known rule.type with
  | none => .error (.failed [.words ("unknown " ++ noun ++ " "), .quoted rule.type])
  | some build => build rule.config

def buildCondition (r : Registry) : Rule → Except Err Condition := build "condition" r.conditions
def buildValidator (r : Registry) : Rule → Except Err Validator := build "validator" r.validators
def buildPostFunction (r : Registry) : Rule → Except Err PostFunction := build "post-function" r.postFunctions

end Registry

/-! ## The built-in rules -/

def orgRoleCondition (roles : List String) : Condition := fun _ actor =>
  if roles.contains actor.orgRole then (true, "")
  else (false, "requires one of these roles: " ++ ", ".intercalate roles)

def isAssigneeCondition : Condition := fun subject actor =>
  if subject.assigneeId = some actor.userId then (true, "") else (false, "only the assignee can take this transition")

def isReporterCondition : Condition := fun subject actor =>
  if subject.reporterId = some actor.userId then (true, "") else (false, "only the reporter can take this transition")

def assigneeRequired : Validator := fun subject _ input =>
  if input.assignee.any (· != Uuid.none) then none
  else if input.assignee.isNone && subject.assigneeId.isSome then none
  else some (.refused ⟨"assignee", "This transition needs an assignee."⟩)

def commentRequired : Validator := fun _ _ input =>
  if Go.trimSpace input.comment = [] then some (.refused ⟨"comment", "This transition needs a comment."⟩) else none

def resolutionRequired : Validator := fun _ _ input =>
  if Go.trimSpace input.resolution = [] then some (.refused ⟨"resolution", "Choose a resolution before closing this."⟩)
  else none

def assignToActor : PostFunction := fun _ actor _ effect => .ok (effect.setAssignee actor.userId)
def clearAssignee : PostFunction := fun _ _ _ effect => .ok effect.clearAssignee
def setResolved (resolved : Bool) : PostFunction := fun _ _ _ effect => .ok { effect with resolved := some resolved }
def addComment (text : Text) : PostFunction := fun _ _ _ effect =>
  .ok { effect with comments := effect.comments ++ [text] }

def decode {α : Type} (read : Except String α) : Except Err α :=
  match read with
  | .ok a => .ok a
  | .error e => .error (.failed [.words ("invalid rule configuration: " ++ e)])

def buildOrgRole (config : Config) : Except Err Condition := do
  let roles ← decode config.roles
  if roles = [] then .error (.failed [.words "condition.org_role needs at least one role"]) else .ok (orgRoleCondition roles)

def buildAddComment (config : Config) : Except Err PostFunction := do
  let text ← decode config.text
  if Go.trimSpace text = [] then .error (.failed [.words "postfunction.add_comment needs some text"]) else .ok (addComment text)

def defaultRegistry : Registry where
  conditions
    | "condition.org_role"    => some buildOrgRole
    | "condition.is_assignee" => some (fun _ => .ok isAssigneeCondition)
    | "condition.is_reporter" => some (fun _ => .ok isReporterCondition)
    | _ => none
  validators
    | "validator.assignee_required"   => some (fun _ => .ok assigneeRequired)
    | "validator.comment_required"    => some (fun _ => .ok commentRequired)
    | "validator.resolution_required" => some (fun _ => .ok resolutionRequired)
    | _ => none
  postFunctions
    | "postfunction.assign_to_actor" => some (fun _ => .ok assignToActor)
    | "postfunction.clear_assignee"  => some (fun _ => .ok clearAssignee)
    | "postfunction.set_resolved"    => some (fun _ => .ok (setResolved true))
    | "postfunction.clear_resolved"  => some (fun _ => .ok (setResolved false))
    | "postfunction.add_comment"     => some buildAddComment
    | _ => none

end Wf
end Armature
