import Armature.AutoPlan
import Armature.DeskClock
import Armature.DocValidate
import Armature.IssueResolved
import Armature.IssueSets
/-!
# IssueEdit — an issue's fields edited, alone or in bulk (`issue/update.go`, `issue/milestone.go`, `field/validate.go`, `bulk/bulk.go`)

Each part of an edit hands back the changes it makes, and one entry and one event tell them all.  A state is the store with
one issue's further columns, sets and answers; the people a description newly names, the clocks that follow a priority and
the move that a bulk edit may end with have events of their own, and are left out.
-/
namespace Armature
namespace Editing

open Go (Text Json)
open Wf (Uuid)
open Issues (Change Ref Issue Key Setup Statuses nameOf)

/-! ## Rows -/

structure Sheet where
  summary : Text
  description : Option Json
  priority : Desk.Priority
  startDate : Option Int
  dueDate : Option Int
  timeEstimate : Option Int
  timeRemaining : Option Int
  updatedAt : Int

structure Milestone where
  id : Uuid
  projectID : Uuid
  name : String
  closed : Bool

inductive Kind where
  | text | number | date | select | checkbox | url
  deriving DecidableEq

structure Field where
  id : Uuid
  projectID : Option Uuid
  name : String
  kind : Kind
  options : List Text

structure Readers where
  tables : Go.Tables
  isUuid : Text → Bool
  /-- `ParseFloat`; none but a finite number is kept. -/
  parseFloat : Text → Option (Option Rat)
  formatFloat : Rat → Text
  /-- `url.Parse` finds the scheme `http` or `https`, and a host. -/
  webAddress : Text → Bool
  /-- A stored value's text. -/
  jsonText : Json → Text
  /-- `jsonb` equality. -/
  same : Json → Json → Bool

structure Around (S : Statuses) where
  setup : Setup S
  milestones : List Milestone
  fields : List Field
  readers : Readers

structure State (b : IssueSets.Builtins) where
  db : Issues.Db
  sheet : Sheet
  sets : IssueSets.State b
  /-- `issue_field_value`, by field. -/
  answers : Uuid → Option Json

inductive BadValue where
  | takesText | tooLong | takesNumber | takesNumberSuchAs | takesDate | takesOption
  | notAnOption (options : List Text)
  | trueOrFalse | takesAddress
  deriving DecidableEq

inductive Refusal where
  | stale
  | noSummary
  | summaryTooLong
  | document (e : Doc.Err)
  | badPriority (p : Text)
  | issue (r : Issues.Refusal)
  | date (e : Plan.DateError)
  | badDuration
  | milestoneNotFound
  | milestoneClosed (name : String)
  | sets (r : IssueSets.Refusal)
  | fieldNotFound
  | otherProject
  | badValue (field : String) (e : BadValue)
  deriving DecidableEq

/-! ## One field each -/

def change (field : String) (from_ to_ : Text) : Change := ⟨field, String.ofList from_, String.ofList to_⟩

def maxSummary : Nat := 255

def applySummary (before : Text) : Option Text → Except Refusal (Text × List Change)
  | none => .ok (before, [])
  | some raw =>
    let summary := Go.trimSpace raw
    if summary = [] then .error .noSummary
    else if maxSummary < summary.length then .error .summaryTooLong
    else if summary = before then .ok (before, [])
    else .ok (summary, [change "summary" before summary])

structure Body where
  size : Nat
  value : Option Json

def isEmptyDocument (body : Body) : Bool :=
  decide (body.size = 0) ||
    match body.value.bind Doc.decodeNode with
    | none => false
    | some root =>
      root.content.all fun raw =>
        match Doc.decodeNode raw with
        | none => false
        | some child => decide (child.type = "paragraph".toList) && child.content.isEmpty

def applyDescription (r : Readers) (before : Option Json) : Option Body → Except Refusal (Option Json × List Change)
  | none => .ok (before, [])
  | some body =>
    if isEmptyDocument body then .ok (none, if before.isSome then [⟨"description", "", "cleared"⟩] else [])
    else do
      (Doc.validateDocument r.tables r.isUuid body.size body.value).mapError .document
      match before, body.value with
      | some was, some now => .ok (if r.same was now then (some was, []) else (some now, [⟨"description", "", "updated"⟩]))
      | none, none => .ok (none, [])
      | _, value => .ok (value, [⟨"description", "", "updated"⟩])

def priorityText : Desk.Priority → Text
  | .lowest => "lowest".toList
  | .low => "low".toList
  | .medium => "medium".toList
  | .high => "high".toList
  | .highest => "highest".toList

def readPriority (p : Text) : Option Desk.Priority :=
  [Desk.Priority.lowest, .low, .medium, .high, .highest].find? fun q => decide (priorityText q = p)

def applyPriority (before : Desk.Priority) : Option Text → Except Refusal (Desk.Priority × List Change)
  | none => .ok (before, [])
  | some p =>
    match readPriority p with
    | none => .error (.badPriority p)
    | some q => .ok (q, if q = before then [] else [change "priority" (priorityText before) (priorityText q)])

def formatDate (d : Option Int) : Text := (d.map fun d => Nql.dateText (d / Go.day)).getD []

def applyDueDate (start before : Option Int) : Option (Option Int) → Except Refusal (Option Int × List Change)
  | none => .ok (before, [])
  | some due =>
    if formatDate before = formatDate due then .ok (before, [])
    else
      match Plan.checkDates start due with
      | some e => .error (.date e)
      | none => .ok (due, [change "dueDate" (formatDate before) (formatDate due)])

def formatMinutes (minutes : Int) : Text :=
  if minutes ≤ 0 then "0m".toList
  else
    let part : Int → Char → List Text := fun n unit => if 0 < n then [Go.itoa n.toNat ++ [unit]] else []
    [' '].intercalate
      (part (minutes / (8 * 60)) 'd' ++ part (minutes % (8 * 60) / 60) 'h' ++ part (minutes % (8 * 60) % 60) 'm')

def applyMinutes (field : String) (before : Option Int) : Option (Option Int) → Except Refusal (Option Int × List Change)
  | none => .ok (before, [])
  | some after =>
    if after.any fun n => decide (n < 0 ∨ 365 * 8 * 60 < n) then .error .badDuration
    else if before = after then .ok (before, [])
    else .ok (after, [change field ((before.map formatMinutes).getD []) ((after.map formatMinutes).getD [])])

section
variable {S : Statuses} (w : Around S)

def reporterOf (before : Issue) : Option Ref := w.setup.users.find? fun u => decide (u.id = before.reporter)

def applyReporter (before : Issue) : Option Uuid → Except Refusal (Uuid × List Change)
  | none => .ok (before.reporter, [])
  | some reporter =>
    if (reporterOf w before).map Ref.id = some reporter then .ok (before.reporter, [])
    else
      match w.setup.users.find? fun u => decide (u.id = reporter) && w.setup.member u.id with
      | none => .error (.issue .notAMember)
      | some u => .ok (reporter, [⟨"reporter", ((reporterOf w before).map Ref.name).getD "Unknown", u.name⟩])

def applyAssignee (before : Issue) : Option (Option Uuid) → Except Refusal (Option Ref × List Change)
  | none => .ok (before.assignee, [])
  | some assignee => (Issues.applyAssignee w.setup before assignee).mapError .issue

def applyType (now : Int) (db : Issues.Db) (before : Issue) : Option Uuid → Except Refusal (Issue × List Change)
  | none => .ok (before, [])
  | some typeID =>
    if typeID = before.type.ref.id then .ok (before, [])
    else do
      let e ← (Issues.applyType w.setup db now before typeID).mapError .issue
      .ok (e.after, e.changes)

end

/-! ## An edit of one issue -/

structure UpdateInput where
  summary : Option Text
  description : Option Body
  priority : Option Text
  assignee : Option (Option Uuid)
  dueDate : Option (Option Int)
  typeID : Option Uuid
  reporterID : Option Uuid
  timeEstimate : Option (Option Int)
  timeRemaining : Option (Option Int)
  expectedUpdatedAt : Option Int

def UpdateInput.blank : UpdateInput := ⟨none, none, none, none, none, none, none, none, none, none⟩

def checkFresh (current : Int) (startedFrom : Option Int) : Except Refusal Unit :=
  if startedFrom.all fun t => decide (t = current) then .ok () else .error .stale

def put (db : Issues.Db) (e : Issues.Edit) : Issues.Db := { db with issues := db.issues.map (Issues.rewritten [e]) }

section
variable {S : Statuses} {b : IssueSets.Builtins} (w : Around S) (now : Int) (key : Key)

def updateIn (input : UpdateInput) (st : State b) : Except Refusal (State b × List Change) := do
  let before ← (Issues.atKey st.db key).mapError .issue
  checkFresh st.sheet.updatedAt input.expectedUpdatedAt
  let summary ← applySummary st.sheet.summary input.summary
  let description ← applyDescription w.readers st.sheet.description input.description
  let priority ← applyPriority st.sheet.priority input.priority
  let assignee ← applyAssignee w before input.assignee
  let dueDate ← applyDueDate st.sheet.startDate st.sheet.dueDate input.dueDate
  let reporter ← applyReporter w before input.reporterID
  let estimate ← applyMinutes "timeEstimate" st.sheet.timeEstimate input.timeEstimate
  let remaining ← applyMinutes "timeRemaining" st.sheet.timeRemaining input.timeRemaining
  let typed ← applyType w now st.db before input.typeID
  let changes := summary.2 ++ description.2 ++ priority.2 ++ assignee.2 ++ dueDate.2 ++ reporter.2 ++ estimate.2 ++ remaining.2 ++
    typed.2
  .ok ({ st with
    db := put st.db ⟨before, { typed.1 with assignee := assignee.1, reporter := reporter.1 }, changes⟩
    sheet := { st.sheet with
      summary := summary.1, description := description.1, priority := priority.1, dueDate := dueDate.1,
      timeEstimate := estimate.1, timeRemaining := remaining.1,
      updatedAt := if changes = [] then st.sheet.updatedAt else now } }, changes)

/-! ## The other parts of a bulk edit -/

def rewriting (call : Issues.Db → Except Issues.Refusal Issues.Edit) (st : State b) : Except Refusal (State b × List Change) := do
  let e ← (call st.db).mapError .issue
  .ok ({ st with db := put st.db e }, e.changes)

def setting (call : IssueSets.State b → Except IssueSets.Refusal (IssueSets.State b × List Change)) (st : State b) :
    Except Refusal (State b × List Change) := do
  let r ← (call st.sets).mapError .sets
  .ok ({ st with sets := r.1 }, r.2)

def milestoneFor (projectID : Uuid) : Option Uuid → Except Refusal (Option Ref)
  | none => .ok none
  | some id =>
    match w.milestones.find? fun m => decide (m.id = id ∧ m.projectID = projectID) with
    | none => .error .milestoneNotFound
    | some m => if m.closed then .error (.milestoneClosed m.name) else .ok (some ⟨m.id, m.name⟩)

def setMilestoneIn (milestoneID : Option Uuid) (st : State b) : Except Refusal (State b × List Change) := do
  let before ← (Issues.atKey st.db key).mapError .issue
  if before.milestone.map Ref.id = milestoneID then .ok (st, [])
  else
    let to_ ← milestoneFor w before.project.id milestoneID
    let e : Issues.Edit := ⟨before, { before with milestone := to_ }, [⟨"milestone", nameOf before.milestone, nameOf to_⟩]⟩
    .ok ({ st with db := put st.db e }, e.changes)

/-! ### Custom fields -/

def maxTextLength : Nat := 500

def normalizeText (check : Text → Except BadValue Unit) (s : Text) : Except BadValue (Option Json × Text) :=
  let s := Go.trimSpace s
  if s = [] then .ok (none, [])
  else do
    check s
    .ok (some (.str s), s)

def normalizeNumber (r : Readers) (n : Option Rat) : Except BadValue (Option Json × Text) :=
  match n with
  | none => .error .takesNumber
  | some n => .ok (some (.num (some n)), r.formatFloat n)

def normalize (r : Readers) (f : Field) (raw : Json) : Except BadValue (Option Json × Text) :=
  match f.kind, raw with
  | _, .null => .ok (none, [])
  | .text, .str s => normalizeText (fun s => if maxTextLength < s.length then .error .tooLong else .ok ()) s
  | .text, _ => .error .takesText
  | .number, .num (some n) => normalizeNumber r (some n)
  | .number, .str s =>
    let s := Go.trimSpace s
    if s = [] then .ok (none, [])
    else
      match r.parseFloat s with
      | none => .error .takesNumberSuchAs
      | some n => normalizeNumber r n
  | .number, _ => .error .takesNumber
  -- A day is written again as it was read.
  | .date, .str s =>
    normalizeText (fun s => if (Nql.parseInLocation "dddd-dd-dd" s Go.Zone.utc).isSome then .ok () else .error .takesDate) s
  | .date, _ => .error .takesDate
  | .select, .str s => normalizeText (fun s => if s ∈ f.options then .ok () else .error (.notAnOption f.options)) s
  | .select, _ => .error .takesOption
  | .checkbox, .bool ticked => .ok (if ticked then (some (.bool true), "Yes".toList) else (none, []))
  | .checkbox, _ => .error .trueOrFalse
  | .url, .str s => normalizeText (fun s => if r.webAddress s then .ok () else .error .takesAddress) s
  | .url, _ => .error .takesAddress

def display (r : Readers) (f : Field) (raw : Json) : Text :=
  match normalize r f raw with
  | .ok (_, shown) => shown
  | .error _ =>
    match raw with
    | .str s => s
    | _ => r.jsonText raw

def setIn (fieldID : Uuid) (raw : Json) (st : State b) : Except Refusal (State b × List Change) := do
  let before ← (Issues.atKey st.db key).mapError .issue
  match w.fields.find? fun f => decide (f.id = fieldID) with
  | none => .error .fieldNotFound
  | some f =>
    if f.projectID.any fun p => decide (p ≠ before.project.id) then .error .otherProject
    else do
      let value ← (normalize w.readers f raw).mapError (.badValue f.name)
      let from_ := ((st.answers fieldID).map (display w.readers f)).getD []
      .ok ({ st with answers := Function.update st.answers fieldID value.1 },
        if from_ = value.2 then [] else [⟨f.name, String.ofList from_, String.ofList value.2⟩])

/-! ## A bulk edit of one issue -/

structure BulkInput where
  priority : Option Text
  assignee : Option (Option Uuid)
  teamID : Option (Option Uuid)
  sprintID : Option (Option Uuid)
  milestoneID : Option (Option Uuid)
  addFixVersions : List Uuid
  removeFixVersions : List Uuid
  addComponents : List Uuid
  removeComponents : List Uuid
  fields : List (Uuid × Json)
  fields_once : (fields.map Prod.fst).Nodup
  addLabels : List Text
  removeLabels : List Text

def BulkInput.inOrder (input : BulkInput) : List (Uuid × Json) := input.fields.mergeSort fun x y => decide (x.1 ≤ y.1)

abbrev Part (b : IssueSets.Builtins) := State b → Except Refusal (State b × List Change)

def noting : List (Part b) → Part b
  | [], st => .ok (st, [])
  | part :: parts, st => do
    let (st, changes) ← part st
    let (st, more) ← noting parts st
    .ok (st, changes ++ more)

def firstParts (input : BulkInput) : List (Part b) :=
  if input.priority.isSome ∨ input.assignee.isSome then
    [updateIn w now key { UpdateInput.blank with priority := input.priority, assignee := input.assignee }]
  else []

def middleParts (input : BulkInput) : List (Part b) :=
  (input.teamID.map fun id => rewriting fun db => Issues.setTeamIn w.setup db key id).toList ++
    (input.sprintID.map fun id => rewriting fun db => Issues.setSprintIn db key id).toList ++
    (input.milestoneID.map (setMilestoneIn w key)).toList ++
    (if input.addFixVersions = [] ∧ input.removeFixVersions = [] then []
      else [setting fun sets => IssueSets.changeFixVersionsIn sets input.addFixVersions input.removeFixVersions]) ++
    if input.addComponents = [] ∧ input.removeComponents = [] then []
    else [setting fun sets => IssueSets.changeComponentsIn sets input.addComponents input.removeComponents]

def fieldParts (fields : List (Uuid × Json)) : List (Part b) := fields.map fun e => setIn w key e.1 e.2

def labelParts (input : BulkInput) : List (Part b) :=
  if input.addLabels = [] ∧ input.removeLabels = [] then []
  else [setting fun sets => IssueSets.changeIssueLabelsIn sets input.addLabels input.removeLabels]

def bulkIn (input : BulkInput) : Part b :=
  noting (firstParts w now key input ++ middleParts w key input ++ fieldParts w key input.inOrder ++ labelParts input)

/-! ## Either of them, announced -/

inductive Edit where
  | update (input : UpdateInput)
  | bulk (input : BulkInput)

/-- `issue.updated` -/
structure Event where
  key : Key
  changes : List Change
  actorID : Uuid
  deriving DecidableEq

def editIn : Edit → Part b
  | .update input => updateIn w now key input
  | .bulk input => bulkIn w now key input

def announce (issueID actorID : Uuid) (changes : List Change) (db : Issues.Db) : Issues.Db × Option Event :=
  ({ db with history := db.history ++ Issues.record now issueID changes },
    if changes = [] then none else some ⟨key, changes, actorID⟩)

def edit (input : Edit) (actorID : Uuid) (st : State b) : Except Refusal (State b × Option Event) := do
  let before ← (Issues.atKey st.db key).mapError .issue
  let (st, changes) ← editIn w now key input st
  let (db, event) := announce now key before.id actorID changes st.db
  .ok ({ st with db := db }, event)

end

end Editing
end Armature
