import Armature.WorkflowEngine
/-!
# IssueStore — issues, their sprints and their changelog (`issue/transition.go`, `issue/type_change.go`, `issue/sprint.go`, `issue/movesubtree.go`, `issue/movecopy.go`, `sprint/lifecycle.go`)

What each operation that writes an issue's status, sprint or team does to the rows, and what it records of it.  A row holds
what its joins read, names and all, since none of these names changes.  Keys are as `ParseKey` reads them; comments,
watchers and events are left out, and so is what the tables' triggers refuse besides, which only takes calls away.
-/
namespace Armature
namespace Issues

open List
open Wf (Uuid Status StatusCategory Workflow Step)

/-! ## Rows -/

/-- A row of another table, by its id and the name it is shown under. -/
structure Ref where
  id : Uuid
  name : String
  deriving DecidableEq

structure IssueType where
  ref : Ref
  level : Int
  isSubtask : Bool
  deriving DecidableEq

structure Project where
  id : Uuid
  key : String
  deriving DecidableEq

structure Issue where
  id : Uuid
  type : IssueType
  project : Project
  num : Nat
  createdAt : Int
  status : Status
  resolvedAt : Option Int
  assignee : Option Ref
  reporter : Uuid
  parentID : Option Uuid
  sprint : Option Ref
  team : Option Ref
  milestone : Option Ref
  company : Option Ref
  fixVersions : List Ref
  affectsVersions : List Ref
  components : List Ref
  /-- The answers to the project's own fields: each field's name, and the answer as it is shown. -/
  answers : List (String × String)
  deriving DecidableEq

structure Change where
  field : String
  from_ : String
  to_ : String
  deriving DecidableEq

/-- A row of `issue_history`. -/
structure Entry where
  issueID : Uuid
  createdAt : Int
  changes : List Change
  deriving DecidableEq

inductive SprintState where
  | planned | active | closed
  deriving DecidableEq

structure Sprint where
  ref : Ref
  projectID : Uuid
  teamID : Option Uuid
  state : SprintState
  /-- Both its days are set. -/
  dated : Bool
  deriving DecidableEq

structure Db where
  issues : List Issue
  history : List Entry
  sprints : List Sprint
  /-- `issue_seq` of each project. -/
  issueSeq : Uuid → Nat

/-! ## What the calls read besides -/

structure Component where
  ref : Ref
  projectID : Uuid
  defaultAssignee : Option Ref

/-- The statuses, no two of which have one id or one name, whatever its case. -/
structure Statuses where
  rows : List Status
  lower : String → String
  ids : ∀ s ∈ rows, ∀ t ∈ rows, s.id = t.id → s = t
  names : ∀ s ∈ rows, ∀ t ∈ rows, lower s.name = lower t.name → s = t

/-- What is set up besides the issues, as it stands when a call runs. -/
structure Setup (S : Statuses) where
  projects : List Project
  archived : Uuid → Bool
  types : List IssueType
  /-- `project_issue_type`, in order. -/
  used : Uuid → List Uuid
  retired : Uuid → Bool
  /-- `ForIssueType`. -/
  workflow : Uuid → Uuid → Option Workflow
  steps : ∀ p t w, workflow p t = some w → ∀ s ∈ w.steps, s.status ∈ S.rows
  users : List Ref
  /-- Who has a standing here. -/
  member : Uuid → Bool
  teams : List (Uuid × Ref)
  components : List Component

inductive Refusal where
  | idTaken
  | notFound
  | projectNotFound
  | projectArchived
  | noStandardType
  | noSuchType
  | typeNotAllowed (projectKey typeName : String) (issueKey : Option String)
  | typeRetired (typeName : String)
  | noWorkflow
  | noInitialStep (workflow : String)
  | needsParent (typeName : String)
  | parentOtherProject (parentKey : String)
  | parentLevel (parentKey parentType typeName : String)
  | childrenInTheWay (count : Nat) (typeName : String)
  | workflow (e : Wf.Err)
  | notAMember
  | sprintNotFound
  | sprintClosed (name : String)
  | sprintOtherTeam (name : String)
  | sprintIntoItself
  | sprintNotRunning (name : String)
  | sprintNotStartable (name : String)
  | sprintHasRun (name : String)
  | teamNotFound
  | subtaskMovesWithParent
  | staysWithParent
  | alreadyThere
  | moveNeedsStatus
  | noStatusThere (projectKey statusName typeName : String)
  | cannotMoveWith (key rootKey projectKey : String) (statusName : Option String) (typeName : String)
  deriving DecidableEq

def formatKey (projectKey : String) (num : Nat) : String := projectKey ++ "-" ++ toString num

def Issue.key (i : Issue) : String := formatKey i.project.key i.num

/-- A key as `ParseKey` reads it. -/
structure Key where
  projectKey : String
  num : Nat
  deriving DecidableEq

section
variable {S : Statuses} (setup : Setup S) (db : Db)

def atKey (key : Key) : Except Refusal Issue :=
  (db.issues.find? fun i => decide (i.project.key = key.projectKey ∧ i.num = key.num)).elim (.error .notFound) .ok

def byID (id : Uuid) : Option Issue := db.issues.find? fun i => i.id = id

def projectAt (key : String) : Except Refusal Project :=
  match setup.projects.find? fun p => p.key = key with
  | none => .error .projectNotFound
  | some p => if setup.archived p.id then .error .projectArchived else .ok p

def projectType (p : Project) (typeID : Uuid) : Except Refusal IssueType :=
  if typeID = Uuid.none then
    (((setup.used p.id).filterMap fun id => setup.types.find? fun t => t.ref.id = id).find? fun t =>
      decide (t.level = 0) && !setup.retired t.ref.id).elim (.error .noStandardType) .ok
  else
    match setup.types.find? fun t => t.ref.id = typeID with
    | none => .error .noSuchType
    | some t =>
      if ¬ (typeID ∈ setup.used p.id) then .error (.typeNotAllowed p.key t.ref.name none)
      else if setup.retired typeID then .error (.typeRetired t.ref.name)
      else .ok t

def forIssueType (p t : Uuid) : Except Refusal Workflow := (setup.workflow p t).elim (.error .noWorkflow) .ok

def initialStep (w : Workflow) : Except Refusal Step :=
  (w.steps.find? fun s => s.isInitial).elim (.error (.noInitialStep w.name)) .ok

def canParent (parentLevel childLevel : Int) : Bool := decide (parentLevel = childLevel + 1)
def needsParent (level : Int) : Bool := decide (level < 0)

/-! ## Sprints and teams -/

def sprintOf (projectID sprintID : Uuid) : Except Refusal Sprint :=
  (db.sprints.find? fun s => decide (s.ref.id = sprintID ∧ s.projectID = projectID)).elim (.error .sprintNotFound) .ok

def commitTo (projectID sprintID : Uuid) (teamID : Option Uuid) : Except Refusal Ref := do
  let row ← sprintOf db projectID sprintID
  if row.state = .closed then .error (.sprintClosed row.ref.name)
  else if row.teamID ≠ teamID then .error (.sprintOtherTeam row.ref.name)
  else .ok row.ref

/-! ## Edits -/

structure Edit where
  before : Issue
  after : Issue
  changes : List Change

def nameOf (r : Option Ref) : String := (r.map Ref.name).getD ""

def teamAt (projectID : Uuid) : Option Uuid → Except Refusal (Option Ref)
  | none => .ok none
  | some id =>
    match setup.teams.find? fun t => decide (t.1 = projectID ∧ t.2.id = id) with
    | none => .error .teamNotFound
    | some t => .ok (some t.2)

def sprintFor (projectID : Uuid) (teamID : Option Uuid) : Option Uuid → Except Refusal (Option Ref)
  | none => .ok none
  | some id => (commitTo db projectID id teamID).map some

def setTeamIn (key : Key) (teamID : Option Uuid) : Except Refusal Edit := do
  let before ← atKey db key
  if before.team.map Ref.id = teamID then .ok ⟨before, before, []⟩
  else
    let to_ ← teamAt setup before.project.id teamID
    let change : Change := ⟨"team", nameOf before.team, nameOf to_⟩
    match before.sprint with
    | none => .ok ⟨before, { before with team := to_ }, [change]⟩
    | some s =>
      let row ← sprintOf db before.project.id s.id
      if row.state ≠ .closed ∧ row.teamID ≠ teamID then
        .ok ⟨before, { before with team := to_, sprint := none }, [change, ⟨"sprint", row.ref.name, ""⟩]⟩
      else .ok ⟨before, { before with team := to_ }, [change]⟩

def setSprintIn (key : Key) (sprintID : Option Uuid) : Except Refusal Edit := do
  let before ← atKey db key
  if before.sprint.map Ref.id = sprintID then .ok ⟨before, before, []⟩
  else
    let to_ ← sprintFor db before.project.id (before.team.map Ref.id) sprintID
    .ok ⟨before, { before with sprint := to_ }, [⟨"sprint", nameOf before.sprint, nameOf to_⟩]⟩

/-! ## Transitions -/

def subjectOf (i : Issue) : Wf.Subject := ⟨i.status.id, i.assignee.map Ref.id, some i.reporter⟩

def memberAt : Option Uuid → Except Refusal (Option Ref)
  | none => .ok none
  | some id =>
    match setup.users.find? fun u => decide (u.id = id) && setup.member u.id with
    | none => .error .notAMember
    | some u => .ok (some u)

def applyAssignee (before : Issue) (assignee : Option Uuid) : Except Refusal (Option Ref × List Change) :=
  if before.assignee.map Ref.id = assignee then .ok (before.assignee, [])
  else do
    let to_ ← memberAt setup assignee
    .ok (to_, [⟨"assignee", ((before.assignee.map Ref.name).getD "Unassigned"), ((to_.map Ref.name).getD "Unassigned")⟩])

def resolutionOr (value : Go.Text) (fallback : String) : String :=
  if Go.trimSpace value = [] then fallback else String.ofList value

def applyResolved (resolved : Option Bool) (now : Int) (resolution : Go.Text) (was : Option Int) : Option Int × List Change :=
  match resolved with
  | none => (was, [])
  | some true => (some now, [⟨"resolution", "", resolutionOr resolution "Done"⟩])
  | some false => (none, [⟨"resolution", "Done", "Unresolved"⟩])

def applyAssign (before : Issue) (effect : Wf.Effect) : Except Refusal (Option Ref × List Change) :=
  if effect.clearAssign then applyAssignee setup before none
  else
    match effect.assignee with
    | some id => applyAssignee setup before (some id)
    | none => .ok (before.assignee, [])

def Issue.transitioned (i : Issue) (status : Status) (assignee : Option Ref) (resolvedAt : Option Int) : Issue :=
  { i with status := status, assignee := assignee, resolvedAt := resolvedAt }

def transitionIn (now : Int) (key : Key) (transitionID : Uuid) (input : Wf.Input) (actor : Wf.Actor) : Except Refusal Edit := do
  let before ← atKey db key
  let w ← forIssueType setup before.project.id before.type.ref.id
  let decision ← (Wf.engine.evaluate w transitionID (subjectOf before) actor input).mapError .workflow
  let assigned ← applyAssign setup before decision.effect
  let resolved := applyResolved decision.effect.resolved now input.resolution before.resolvedAt
  .ok ⟨before, before.transitioned decision.toStatus assigned.1 resolved.1,
    [⟨"status", before.status.name, decision.toStatus.name⟩] ++ assigned.2 ++ resolved.2⟩

/-! ## Type changes -/

def isDone (s : Status) : Bool := decide (s.category = .done)

def checkTypeFitsTheTree (before : Issue) (t : IssueType) : Except Refusal Unit :=
  let stranded := db.issues.countP fun c => decide (c.parentID = some before.id ∧ c.type.level ≠ t.level - 1)
  let children := if 0 < stranded then Except.error (.childrenInTheWay stranded t.ref.name) else .ok ()
  match before.parentID.bind (byID db) with
  | none => if needsParent t.level then .error (.needsParent t.ref.name) else children
  | some parent =>
    if canParent parent.type.level t.level then children else .error (.parentLevel parent.key parent.type.ref.name t.ref.name)

def applyType (now : Int) (before : Issue) (typeID : Uuid) : Except Refusal Edit := do
  if typeID = Uuid.none then .error .noSuchType
  else
    let t ← projectType setup before.project typeID
    checkTypeFitsTheTree db before t
    let change : Change := ⟨"type", before.type.ref.name, t.ref.name⟩
    let w ← forIssueType setup before.project.id typeID
    if (w.stepByStatus before.status.id).isSome then .ok ⟨before, { before with type := t }, [change]⟩
    else
      let initial ← initialStep w
      let toDone := isDone initial.status
      let resolvedAt := if toDone then before.resolvedAt <|> some now else none
      let resolution : List Change :=
        if toDone && before.resolvedAt.isNone then [⟨"resolution", "", "Done"⟩]
        else if !toDone && before.resolvedAt.isSome then [⟨"resolution", "Done", "Unresolved"⟩]
        else []
      .ok ⟨before, { before with type := t, status := initial.status, resolvedAt := resolvedAt },
        [change, ⟨"status", before.status.name, initial.status.name⟩] ++ resolution⟩

def updateType (now : Int) (key : Key) (typeID : Uuid) : Except Refusal Edit := do
  let before ← atKey db key
  if typeID = before.type.ref.id then .ok ⟨before, before, []⟩ else applyType setup db now before typeID

/-! ## Moves to another project -/

def childrenOf (ids : List Uuid) : List Issue :=
  (db.issues.filter fun i => i.parentID.any fun p => decide (p ∈ ids)).insertionSort fun a b => a.num ≤ b.num

def subtreeFrom : Nat → List Uuid → List Issue
  | 0, _ => []
  | n + 1, ids => childrenOf db ids ++ subtreeFrom n ((childrenOf db ids).map Issue.id)

def subtreeOf (rootID : Uuid) : List Issue := subtreeFrom db db.issues.length [rootID]

structure MoveInput where
  projectKey : String
  statusID : Option Uuid
  /-- The status an issue in each of these takes; `none` where the request maps none. -/
  statuses : Option (List (Uuid × Uuid))

def mappedStatus (statuses : Option (List (Uuid × Uuid))) (id : Uuid) : Uuid :=
  ((statuses.getD []).lookup id).getD id

def landingIn (w : Workflow) (statusID : Uuid) : Option Status :=
  (w.steps.filter fun s => decide (s.status.id = statusID)).getLast?.map Step.status

def checkTypesUsedIn (target : Project) (root : Issue) (moving : List Issue) : Except Refusal Unit :=
  match moving.find? fun i => decide (i.type.ref.id ∉ setup.used target.id) with
  | none => .ok ()
  | some i => .error (.typeNotAllowed target.key i.type.ref.name (if i.id = root.id then none else some i.key))

def checkDescendants (target : Project) (root : Issue) (statuses : Option (List (Uuid × Uuid))) (d : Issue) :
    Except Refusal (Issue × Status) :=
  match setup.workflow target.id d.type.ref.id with
  | none => .error (.cannotMoveWith d.key root.key target.key none d.type.ref.name)
  | some w =>
    match landingIn w (mappedStatus statuses d.status.id) with
    | none => .error (.cannotMoveWith d.key root.key target.key (some d.status.name) d.type.ref.name)
    | some s => .ok (d, s)

def joinNames (refs : List Ref) : String := ", ".intercalate (refs.map Ref.name)

def cleared (before : Issue) : List Change :=
  let ref : String → Option Ref → List Change := fun field r => (r.map fun r => ⟨field, r.name, ""⟩).toList
  let refs : String → List Ref → List Change := fun field rs => if rs = [] then [] else [⟨field, joinNames rs, ""⟩]
  ref "sprint" before.sprint ++ ref "team" before.team ++ ref "milestone" before.milestone ++ ref "company" before.company ++
    refs "fixVersion" before.fixVersions ++ refs "affectsVersion" before.affectsVersions ++ refs "component" before.components

def droppedValues (before : Issue) : List Change := before.answers.map fun a => ⟨a.1, a.2, ""⟩

def moveRow (target : Project) (num : Nat) (moving : Issue × Status) : Edit :=
  let before := moving.1
  ⟨before, { before with
      project := target, num := num, status := moving.2, sprint := none, team := none, milestone := none, company := none,
      fixVersions := [], affectsVersions := [], components := [], answers := [] },
    [⟨"project", before.project.key, target.key⟩, ⟨"key", before.key, formatKey target.key num⟩] ++
      (if moving.2.id ≠ before.status.id then [⟨"status", before.status.name, moving.2.name⟩] else []) ++
      cleared before ++ droppedValues before⟩

def moveRows (target : Project) : Nat → List (Issue × Status) → List Edit
  | _, [] => []
  | seq, row :: rows => moveRow target (seq + 1) row :: moveRows target (seq + 1) rows

def rootLanding (target : Project) (before : Issue) (input : MoveInput) (w : Workflow) : Except Refusal Status :=
  match landingIn w (input.statusID.getD (mappedStatus input.statuses before.status.id)) with
  | some s => .ok s
  | none =>
    if input.statuses.isSome then .error (.noStatusThere target.key before.status.name before.type.ref.name)
    else .error .moveNeedsStatus

def moveIn (key : Key) (input : MoveInput) : Except Refusal (Project × List Edit) := do
  let before ← atKey db key
  if before.type.isSubtask then .error .subtaskMovesWithParent
  else if before.parentID ≠ none then .error .staysWithParent
  else
    let target ← projectAt setup input.projectKey
    if target.id = before.project.id then .error .alreadyThere
    else
      let subtree := subtreeOf db before.id
      checkTypesUsedIn setup target before (before :: subtree)
      let w ← forIssueType setup target.id before.type.ref.id
      let status ← rootLanding target before input w
      let landing ← subtree.mapM (checkDescendants setup target before input.statuses)
      .ok (target, moveRows target (db.issueSeq target.id) ((before, status) :: landing))

/-! ## Creations -/

structure CreateInput where
  projectKey : String
  typeID : Uuid
  assignee : Option Ref
  parentKey : Option Key
  teamID : Option Ref
  sprintID : Option Uuid
  company : Option Ref
  componentIDs : List Uuid

def resolveParent (parentKey : Option Key) (projectID : Uuid) (t : IssueType) : Except Refusal (Option Uuid) :=
  match parentKey with
  | none => if needsParent t.level then .error (.needsParent t.ref.name) else .ok none
  | some key => do
    let parent ← atKey db key
    if parent.project.id ≠ projectID then .error (.parentOtherProject parent.key)
    else if canParent parent.type.level t.level then .ok (some parent.id)
    else .error (.parentLevel parent.key parent.type.ref.name t.ref.name)

def componentAssignee (given : Option Ref) (components : List Uuid) (projectID : Uuid) : Option Ref :=
  given <|> components.findSome? fun id =>
    (setup.components.find? fun c => decide (c.ref.id = id ∧ c.projectID = projectID)).bind Component.defaultAssignee

def create (now : Int) (id : Uuid) (input : CreateInput) (actor : Uuid) : Except Refusal (Issue × List Change) := do
  let p ← projectAt setup input.projectKey
  let t ← projectType setup p input.typeID
  let parentID ← resolveParent db input.parentKey p.id t
  let w ← forIssueType setup p.id t.ref.id
  let initial ← initialStep w
  let sprint ← sprintFor db p.id (input.teamID.map Ref.id) input.sprintID
  let assignee := componentAssignee setup input.assignee input.componentIDs p.id
  let num := db.issueSeq p.id + 1
  .ok (⟨id, t, p, num, now, initial.status, none, assignee, actor, parentID, sprint, input.teamID, none, input.company, [], [],
      input.componentIDs.filterMap fun id => (setup.components.find? fun c => decide (c.ref.id = id)).map Component.ref, []⟩,
    [⟨"created", "", formatKey p.key num⟩] ++
      (if input.assignee.isNone then (assignee.map fun a => ⟨"assignee", "Unassigned", a.name⟩).toList else []))

/-! ## The life of a sprint -/

def sprintAt (id : Uuid) : Except Refusal Sprint := (db.sprints.find? fun s => s.ref.id = id).elim (.error .sprintNotFound) .ok

def setState (id : Uuid) (state : SprintState) : List Sprint :=
  db.sprints.map fun s => if s.ref.id = id then { s with state := state } else s

def plan (sprint : Sprint) : Except Refusal (List Sprint) :=
  if sprint.ref.id ∈ db.sprints.map fun s => s.ref.id then .error .idTaken
  else .ok (db.sprints ++ [{ sprint with state := .planned }])

def start (id : Uuid) : Except Refusal (List Sprint) := do
  let before ← sprintAt db id
  if before.state ≠ .planned ∨ before.dated = false then .error (.sprintNotStartable before.ref.name)
  else
    match db.sprints.find? fun s => decide (s.projectID = before.projectID ∧ s.teamID = before.teamID ∧ s.state = .active) with
    | some s => .error (.sprintNotStartable s.ref.name)
    | none => .ok (setState db id .active)

def resolveDestination (from_ : Sprint) (moveTo : Option Uuid) : Except Refusal (Option Sprint) :=
  match moveTo with
  | none => .ok none
  | some id => do
    if id = from_.ref.id then .error .sprintIntoItself
    else
      let destination ← sprintAt db id
      if destination.projectID ≠ from_.projectID then .error .sprintNotFound
      else if destination.state = .closed then .error (.sprintClosed destination.ref.name)
      else if destination.teamID ≠ from_.teamID then .error (.sprintOtherTeam destination.ref.name)
      else .ok (some destination)

def carryOver (from_ : Sprint) (to_ : Option Sprint) : List Edit :=
  (db.issues.filter fun i => decide (i.sprint.map Ref.id = some from_.ref.id) && !isDone i.status).map fun i =>
    ⟨i, { i with sprint := to_.map Sprint.ref }, [⟨"sprint", from_.ref.name, nameOf (to_.map Sprint.ref)⟩]⟩

def complete (id : Uuid) (moveTo : Option Uuid) : Except Refusal (List Edit × List Sprint) := do
  let before ← sprintAt db id
  if before.state ≠ .active then .error (.sprintNotRunning before.ref.name)
  else
    let destination ← resolveDestination db before moveTo
    .ok (carryOver db before destination, setState db id .closed)

def delete (id : Uuid) : Except Refusal (List Edit × List Sprint) := do
  let found ← sprintAt db id
  if found.state ≠ .planned then .error (.sprintHasRun found.ref.name)
  else
    .ok ((db.issues.filter fun i => decide (i.sprint.map Ref.id = some id)).map (fun i => ⟨i, { i with sprint := none }, []⟩),
      db.sprints.filter fun s => decide (s.ref.id ≠ id))

/-! ## Calls -/

inductive Call where
  | create (id : Uuid) (input : CreateInput) (actor : Uuid)
  | transition (key : Key) (transitionID : Uuid) (input : Wf.Input) (actor : Wf.Actor)
  | updateType (key : Key) (typeID : Uuid)
  | setSprint (key : Key) (sprintID : Option Uuid)
  | setTeam (key : Key) (teamID : Option Uuid)
  | move (key : Key) (input : MoveInput)
  | plan (sprint : Sprint)
  | start (id : Uuid)
  | complete (id : Uuid) (moveTo : Option Uuid)
  | delete (id : Uuid)

structure Outcome where
  made : Option (Issue × List Change)
  edits : List Edit
  sprints : List Sprint
  issueSeq : Uuid → Nat

def rewrites (edits : List Edit) : Outcome := ⟨none, edits, db.sprints, db.issueSeq⟩

def outcome (now : Int) : Call → Except Refusal Outcome
  | .create id input actor => do
    let made ← create setup db now id input actor
    if id ∈ db.issues.map Issue.id then .error .idTaken
    else .ok { rewrites db [] with made := some made, issueSeq := Function.update db.issueSeq made.1.project.id made.1.num }
  | .transition key transitionID input actor => (transitionIn setup db now key transitionID input actor).map fun e => rewrites db [e]
  | .updateType key typeID => (updateType setup db now key typeID).map fun e => rewrites db [e]
  | .setSprint key sprintID => (setSprintIn db key sprintID).map fun e => rewrites db [e]
  | .setTeam key teamID => (setTeamIn setup db key teamID).map fun e => rewrites db [e]
  | .move key input => do
    let moved ← moveIn setup db key input
    .ok { rewrites db moved.2 with
      issueSeq := Function.update db.issueSeq moved.1.id (db.issueSeq moved.1.id + moved.2.length) }
  | .plan sprint => (plan db sprint).map fun sprints => { rewrites db [] with sprints := sprints }
  | .start id => (start db id).map fun sprints => { rewrites db [] with sprints := sprints }
  | .complete id moveTo => (complete db id moveTo).map fun c => { rewrites db c.1 with sprints := c.2 }
  | .delete id => (delete db id).map fun d => { rewrites db d.1 with sprints := d.2 }

end

def record (now : Int) (id : Uuid) (changes : List Change) : List Entry := if changes = [] then [] else [⟨id, now, changes⟩]

def rewritten (edits : List Edit) (i : Issue) : Issue := ((edits.find? fun e => e.before.id = i.id).map Edit.after).getD i

def Db.after (db : Db) (now : Int) (o : Outcome) : Db where
  issues := db.issues.map (rewritten o.edits) ++ (o.made.map Prod.fst).toList
  history := db.history ++ (o.edits.flatMap fun e => record now e.before.id e.changes) ++
    (o.made.map fun m => record now m.1.id m.2).getD []
  sprints := o.sprints
  issueSeq := o.issueSeq

/-! ## Runs -/

structure Event (S : Statuses) where
  now : Int
  setup : Setup S
  call : Call

def step {S : Statuses} (e : Event S) (db : Db) : Except Refusal Db := (outcome e.setup db e.now e.call).map (db.after e.now)

/-- The store after calls each of which goes through, one after another, where the condition holds. -/
inductive Runs {S : Statuses} (cond : Db → Event S → Prop) (start : Db) : List (Event S) → Db → Prop where
  | nil : Runs cond start [] start
  | snoc {h db e db'} : Runs cond start h db → cond db e → step e db = .ok db' → Runs cond start (h ++ [e]) db'

def empty : Db := ⟨[], [], [], fun _ => 0⟩

variable {S : Statuses} {db : Db}

theorem Runs.holds {cond : Db → Event S → Prop} {start : Db} {h : List (Event S)} {I : Db → Prop}
    (hrun : Runs cond start h db) (hstart : I start)
    (hstep : ∀ {db e db'}, I db → cond db e → step e db = .ok db' → I db') : I db := by
  induction hrun with
  | nil => exact hstart
  | snoc _ hcond hok ih => exact hstep ih hcond hok

theorem Runs.nil_inv {cond : Db → Event S → Prop} {start : Db} (h : Runs cond start [] db) : db = start := by
  generalize hh : ([] : List (Event S)) = es at h
  cases h with
  | nil => rfl
  | snoc => exact absurd hh.symm (by simp)

theorem Runs.snoc_inv {cond : Db → Event S → Prop} {start : Db} {h : List (Event S)} {e : Event S}
    (hrun : Runs cond start (h ++ [e]) db) : ∃ db₀, Runs cond start h db₀ ∧ cond db₀ e ∧ step e db₀ = .ok db := by
  generalize hh : h ++ [e] = es at hrun
  cases hrun with
  | nil => exact absurd hh (by simp)
  | snoc hrun hcond hok =>
    obtain ⟨rfl, he⟩ := append_inj' hh rfl
    cases he
    exact ⟨_, hrun, hcond, hok⟩

theorem Runs.split {cond : Db → Event S → Prop} {start : Db} {h₁ h₂ : List (Event S)}
    (hrun : Runs cond start (h₁ ++ h₂) db) : ∃ mid, Runs cond start h₁ mid ∧ Runs cond mid h₂ db := by
  generalize hh : h₁ ++ h₂ = h at hrun
  induction hrun generalizing h₂ with
  | nil =>
    obtain ⟨rfl, rfl⟩ := append_eq_nil_iff.1 hh
    exact ⟨start, .nil, .nil⟩
  | @snoc h db e db' hrun hcond hstep ih =>
    rcases eq_nil_or_concat h₂ with rfl | ⟨init, e', rfl⟩
    · rw [append_nil] at hh
      subst hh
      exact ⟨db', hrun.snoc hcond hstep, .nil⟩
    · rw [concat_eq_append, ← append_assoc] at hh
      obtain ⟨hinit, he⟩ := append_inj' hh rfl
      cases he
      obtain ⟨mid, hmid, hrest⟩ := ih hinit
      rw [concat_eq_append]
      exact ⟨mid, hmid, hrest.snoc hcond hstep⟩

/-! ## What a call may do to the rows -/

theorem elim_ok {ε α : Type} {o : Option α} {e : ε} {a : α} : o.elim (Except.error e) Except.ok = .ok a ↔ o = some a := by
  cases o <;> simp

theorem map_ok {ε α β : Type} {x : Except ε α} {f : α → β} {b : β} : x.map f = .ok b ↔ ∃ a, x = .ok a ∧ f a = b := by
  cases x <;> simp [Except.map]

section
variable {S : Statuses} {setup : Setup S} {db : Db} {now : Int}

theorem atKey_mem {key : Key} {i : Issue} (h : atKey db key = .ok i) : i ∈ db.issues :=
  mem_of_find?_eq_some (elim_ok.1 h)

variable {p id : Uuid} {w : Workflow} {e : Edit}

theorem sprintOf_mem {s : Sprint} (h : sprintOf db p id = .ok s) : s ∈ db.sprints ∧ s.ref.id = id := by
  have hfind := elim_ok.1 h
  have hat := List.find?_some hfind
  exact ⟨mem_of_find?_eq_some hfind, (of_decide_eq_true hat).1⟩

theorem sprintAt_mem {s : Sprint} (h : sprintAt db id = .ok s) : s ∈ db.sprints ∧ s.ref.id = id := by
  have hfind := elim_ok.1 h
  have hat := List.find?_some hfind
  exact ⟨mem_of_find?_eq_some hfind, of_decide_eq_true hat⟩

theorem commitTo_mem {team : Option Uuid} {r : Ref} (h : commitTo db p id team = .ok r) :
    ∃ s ∈ db.sprints, s.ref = r := by
  obtain ⟨row, hrow, h⟩ := Go.bind_ok.1 h
  refine ⟨row, (sprintOf_mem hrow).1, ?_⟩
  split at h
  · cases h
  · split at h
    · cases h
    · exact Except.ok.inj h

theorem sprintFor_mem {team id : Option Uuid} {to_ : Option Ref} (h : sprintFor db p team id = .ok to_) :
    ∀ r ∈ to_, ∃ s ∈ db.sprints, s.ref = r := by
  cases id with
  | none =>
    cases h
    exact fun r hr => by cases hr
  | some =>
    obtain ⟨r, hr, rfl⟩ := map_ok.1 h
    intro r' hr'
    cases hr'
    exact commitTo_mem hr

theorem forIssueType_steps {t : Uuid} (h : forIssueType setup p t = .ok w) : ∀ s ∈ w.steps, s.status ∈ S.rows :=
  setup.steps p t w (elim_ok.1 h)

theorem initialStep_mem {s : Step} (h : initialStep w = .ok s) : s ∈ w.steps :=
  mem_of_find?_eq_some (elim_ok.1 h)

theorem landingIn_mem {s : Status} (h : landingIn w id = some s) :
    s.id = id ∧ ∃ st ∈ w.steps, st.status = s := by
  obtain ⟨st, hst, rfl⟩ := Option.map_eq_some_iff.1 h
  have hmem := mem_filter.1 (mem_of_getLast? hst)
  exact ⟨of_decide_eq_true hmem.2, st, hmem.1, rfl⟩

theorem evaluate_step {subject : Wf.Subject} {actor : Wf.Actor} {input : Wf.Input} {d : Wf.Decision}
    (h : Wf.engine.evaluate w id subject actor input = .ok d) : ∃ st ∈ w.steps, st.status = d.toStatus := by
  unfold Wf.Engine.evaluate at h
  split at h
  · cases h
  · split at h
    · obtain ⟨reason, _, h⟩ := Go.bind_ok.1 h
      split at h
      · cases h
      · unfold Wf.Engine.carryOut at h
        obtain ⟨_, _, h⟩ := Go.bind_ok.1 h
        split at h
        · cases h
        · rename_i target htarget
          obtain ⟨effect, _, h⟩ := Go.bind_ok.1 h
          cases h
          exact ⟨target, mem_of_find?_eq_some htarget, rfl⟩
    · cases h

theorem setTeamIn_cases {key : Key} {teamID : Option Uuid} (h : setTeamIn setup db key teamID = .ok e) :
    e.before ∈ db.issues ∧ (e.after = e.before ∧ e.changes = [] ∨ ∃ to_,
      e.after = { e.before with team := to_ } ∧ e.changes = [⟨"team", nameOf e.before.team, nameOf to_⟩] ∨
      ∃ r, ∃ s ∈ db.sprints, e.before.sprint = some r ∧ s.ref.id = r.id ∧ e.after = { e.before with team := to_, sprint := none } ∧
        e.changes = [⟨"team", nameOf e.before.team, nameOf to_⟩, ⟨"sprint", s.ref.name, ""⟩]) := by
  obtain ⟨before, hbefore, h⟩ := Go.bind_ok.1 h
  have hmem := atKey_mem hbefore
  split at h
  · cases h
    exact ⟨hmem, .inl ⟨rfl, rfl⟩⟩
  · obtain ⟨to_, _, h⟩ := Go.bind_ok.1 h
    dsimp only at h
    split at h
    · cases h
      exact ⟨hmem, .inr ⟨to_, .inl ⟨rfl, rfl⟩⟩⟩
    · rename_i r hr
      obtain ⟨row, hrow, h⟩ := Go.bind_ok.1 h
      have hs := sprintOf_mem hrow
      split at h
      · cases h
        exact ⟨hmem, .inr ⟨to_, .inr ⟨r, row, hs.1, hr, hs.2, rfl, rfl⟩⟩⟩
      · cases h
        exact ⟨hmem, .inr ⟨to_, .inl ⟨rfl, rfl⟩⟩⟩

theorem setSprintIn_cases {key : Key} {sprintID : Option Uuid} (h : setSprintIn db key sprintID = .ok e) :
    e.before ∈ db.issues ∧ (e.after = e.before ∧ e.changes = [] ∨ ∃ to_, (∀ r ∈ to_, ∃ s ∈ db.sprints, s.ref = r) ∧
      e.after = { e.before with sprint := to_ } ∧ e.changes = [⟨"sprint", nameOf e.before.sprint, nameOf to_⟩]) := by
  obtain ⟨before, hbefore, h⟩ := Go.bind_ok.1 h
  have hmem := atKey_mem hbefore
  split at h
  · cases h
    exact ⟨hmem, .inl ⟨rfl, rfl⟩⟩
  · obtain ⟨to_, hto, h⟩ := Go.bind_ok.1 h
    cases h
    exact ⟨hmem, .inr ⟨to_, sprintFor_mem hto, rfl, rfl⟩⟩

theorem applyAssignee_field {before : Issue} {assignee : Option Uuid} {a : Option Ref × List Change}
    (h : applyAssignee setup before assignee = .ok a) : ∀ c ∈ a.2, c.field = "assignee" := by
  unfold applyAssignee at h
  split at h
  · cases h
    exact nofun
  · obtain ⟨to_, _, h⟩ := Go.bind_ok.1 h
    cases h
    intro c hc
    rw [mem_singleton.1 hc]

theorem applyAssign_field {before : Issue} {effect : Wf.Effect} {a : Option Ref × List Change}
    (h : applyAssign setup before effect = .ok a) : ∀ c ∈ a.2, c.field = "assignee" := by
  unfold applyAssign at h
  split at h
  · exact applyAssignee_field h
  · split at h
    · exact applyAssignee_field h
    · cases h
      exact nofun

theorem applyResolved_field (resolved : Option Bool) (now : Int) (resolution : Go.Text) (was : Option Int) :
    ∀ c ∈ (applyResolved resolved now resolution was).2, c.field = "resolution" := by
  intro c hc
  rcases resolved with _ | _ | _
  · cases hc
  · rw [mem_singleton.1 hc]
  · rw [mem_singleton.1 hc]

theorem transitionIn_cases {key : Key} {input : Wf.Input} {actor : Wf.Actor}
    (h : transitionIn setup db now key id input actor = .ok e) : e.before ∈ db.issues ∧ ∃ w d assignee others,
      forIssueType setup e.before.project.id e.before.type.ref.id = .ok w ∧
      Wf.engine.evaluate w id (subjectOf e.before) actor input = .ok d ∧
      e.after = e.before.transitioned d.toStatus assignee
        (applyResolved d.effect.resolved now input.resolution e.before.resolvedAt).1 ∧
      e.changes = ⟨"status", e.before.status.name, d.toStatus.name⟩ :: others ∧
      ∀ c ∈ others, c.field = "assignee" ∨ c.field = "resolution" := by
  obtain ⟨before, hbefore, h⟩ := Go.bind_ok.1 h
  obtain ⟨w, hw, h⟩ := Go.bind_ok.1 h
  obtain ⟨d, hd, h⟩ := Go.bind_ok.1 h
  obtain ⟨assigned, hassigned, h⟩ := Go.bind_ok.1 h
  have hevaluate : Wf.engine.evaluate w id (subjectOf before) actor input = .ok d := by
    cases hev : Wf.engine.evaluate w id (subjectOf before) actor input with
    | error =>
      rw [hev] at hd
      cases hd
    | ok d' =>
      rw [hev] at hd
      have hd : (Except.ok d' : Except Refusal Wf.Decision) = .ok d := hd
      cases hd
      rfl
  cases h
  refine ⟨atKey_mem hbefore, w, d, _, _, hw, hevaluate, rfl, rfl, fun c hc => ?_⟩
  rcases mem_append.1 hc with hc | hc
  · exact .inl (applyAssign_field hassigned c hc)
  · exact .inr (applyResolved_field _ _ _ _ c hc)

theorem updateType_cases {key : Key} {typeID : Uuid} (h : updateType setup db now key typeID = .ok e) :
    e.before ∈ db.issues ∧ (e.after = e.before ∧ e.changes = [] ∨ ∃ t,
      e.after = { e.before with type := t } ∧ e.changes = [⟨"type", e.before.type.ref.name, t.ref.name⟩] ∨
      ∃ s ∈ S.rows, ∃ others, e.after =
          { e.before with type := t, status := s, resolvedAt := if isDone s then e.before.resolvedAt <|> some now else none } ∧
        e.changes = ⟨"type", e.before.type.ref.name, t.ref.name⟩ :: ⟨"status", e.before.status.name, s.name⟩ :: others ∧
        ∀ c ∈ others, c.field = "resolution") := by
  obtain ⟨before, hbefore, h⟩ := Go.bind_ok.1 h
  have hmem := atKey_mem hbefore
  split at h
  · cases h
    exact ⟨hmem, .inl ⟨rfl, rfl⟩⟩
  · unfold applyType at h
    split at h
    · cases h
    · obtain ⟨t, _, h⟩ := Go.bind_ok.1 h
      obtain ⟨_, _, h⟩ := Go.bind_ok.1 h
      obtain ⟨w, hw, h⟩ := Go.bind_ok.1 h
      split at h
      · cases h
        exact ⟨hmem, .inr ⟨t, .inl ⟨rfl, rfl⟩⟩⟩
      · obtain ⟨initial, hinitial, h⟩ := Go.bind_ok.1 h
        cases h
        refine ⟨hmem, .inr ⟨t, .inr ⟨initial.status, forIssueType_steps hw _ (initialStep_mem hinitial), _, rfl, rfl, ?_⟩⟩⟩
        intro c hc
        split at hc
        · rw [mem_singleton.1 hc]
        · split at hc
          · rw [mem_singleton.1 hc]
          · cases hc

theorem mem_moveRows {target : Project} {e : Edit} : ∀ {seq : Nat} {rows : List (Issue × Status)}, e ∈ moveRows target seq rows →
    ∃ num, ∃ r ∈ rows, e = moveRow target num r
  | seq, row :: rows, h => by
    rcases mem_cons.1 h with rfl | h
    · exact ⟨_, row, mem_cons_self, rfl⟩
    · obtain ⟨num, r, hr, he⟩ := mem_moveRows h
      exact ⟨num, r, mem_cons_of_mem _ hr, he⟩

theorem moveRows_ids (target : Project) : ∀ (seq : Nat) (rows : List (Issue × Status)),
    (moveRows target seq rows).map (fun e => e.before.id) = rows.map fun r => r.1.id
  | _, [] => rfl
  | seq, row :: rows => by
    rw [moveRows, map_cons, map_cons, moveRows_ids target (seq + 1) rows]
    rfl

theorem checkDescendants_ok {target : Project} {root : Issue} {statuses : Option (List (Uuid × Uuid))} {d : Issue}
    {r : Issue × Status} (h : checkDescendants setup target root statuses d = .ok r) :
    r.1 = d ∧ r.2 ∈ S.rows ∧ r.2.id = mappedStatus statuses d.status.id := by
  unfold checkDescendants at h
  split at h
  · cases h
  · rename_i w hw
    split at h
    · cases h
    · rename_i s hs
      cases h
      obtain ⟨hid, st, hst, rfl⟩ := landingIn_mem hs
      exact ⟨rfl, setup.steps _ _ _ hw _ hst, hid⟩

def wanted (input : MoveInput) (root : Issue) (i : Issue) : Uuid :=
  if i.id = root.id then input.statusID.getD (mappedStatus input.statuses i.status.id) else mappedStatus input.statuses i.status.id

theorem moveIn_cases {key : Key} {input : MoveInput} {moved : Project × List Edit} (h : moveIn setup db key input = .ok moved) :
    ∃ root ∈ db.issues, atKey db key = .ok root ∧ root.parentID = none ∧ ∃ status ∈ S.rows,
      status.id = input.statusID.getD (mappedStatus input.statuses root.status.id) ∧ ∃ rows : List (Issue × Status),
        List.Forall₂ (fun d r => r.1 = d ∧ r.2 ∈ S.rows ∧ r.2.id = mappedStatus input.statuses d.status.id)
          (subtreeOf db root.id) rows ∧ ∃ seq, moved.2 = moveRows moved.1 seq ((root, status) :: rows) := by
  obtain ⟨root, hroot, h⟩ := Go.bind_ok.1 h
  split at h
  · cases h
  · split at h
    · cases h
    · rename_i hparent
      obtain ⟨target, _, h⟩ := Go.bind_ok.1 h
      split at h
      · cases h
      · dsimp only at h
        obtain ⟨_, _, h⟩ := Go.bind_ok.1 h
        obtain ⟨w, hw, h⟩ := Go.bind_ok.1 h
        obtain ⟨status, hstatus, h⟩ := Go.bind_ok.1 h
        obtain ⟨rows, hrows, h⟩ := Go.bind_ok.1 h
        cases h
        have hland : landingIn w (input.statusID.getD (mappedStatus input.statuses root.status.id)) = some status := by
          unfold rootLanding at hstatus
          split at hstatus
          · cases hstatus
            assumption
          · split at hstatus <;> cases hstatus
        obtain ⟨hid, st, hst, rfl⟩ := landingIn_mem hland
        refine ⟨root, atKey_mem hroot, hroot, not_not.1 hparent, _, forIssueType_steps hw _ hst, hid, rows, ?_, _, rfl⟩
        exact (Go.mapM_cases hrows).imp fun d r hr => checkDescendants_ok hr

end

end Issues
end Armature
