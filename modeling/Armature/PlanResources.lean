import Armature.GoUnicode
import Armature.PlanAlign
import Armature.PlanLoad
/-!
# PlanResources — work set against hours (`plan/resources.go`, `plan/resources_service.go`)

A row is a person or a team of the input, and the last one is for the work nobody carries.  An issue is known by its key in
what is read out, and hours are exact.
-/
namespace Armature
namespace Plan

open Go (Text Tables day toLower atoiValue)
open Wf (Uuid)

/-! ## What is read -/

inductive ResourceGrouping where
  | team | person
  deriving DecidableEq

structure ResourceInput where
  grouping : ResourceGrouping
  start : Int
  until_ : Int
  /-- The project's open issues. -/
  issues : List Issue
  teams : List Team
  /-- Who the person rows are for, by name. -/
  people : List (Uuid × Text)
  work : ReadDays
  /-- The percent of a person's week the project has. -/
  shares : List (Uuid × Int)

mutual
def openNode : Tree Issue → List Issue
  | .node i cs => (if i.isDone then [] else [i]) ++ openIssues cs
def openIssues : List (Tree Issue) → List Issue
  | [] => []
  | n :: ns => openNode n ++ openIssues ns
end

structure WeekIssue where
  key : Text
  hours : Rat

structure ResourceIssue where
  key : Text
  hours : Option Rat

structure ResourceWeek where
  start : Int
  capacityHours : Option Rat
  nominalHours : Option Rat
  loadHours : Rat
  daysAway : Rat
  holidays : Nat
  issues : List WeekIssue

inductive RowKind where
  | person | team | unassigned
  deriving DecidableEq

structure ResourceRow where
  kind : RowKind
  id : Option Uuid
  name : Text
  sharePercent : Option Int
  weeks : List ResourceWeek
  /-- The days its work is spread onto. -/
  works : Int → Bool

structure ResourcePlan where
  weeks : List Int
  rows : List ResourceRow
  /-- Open work with hours but not both dates. -/
  unscheduled : List ResourceIssue
  /-- Open work nobody has put hours on. -/
  unestimated : List ResourceIssue

/-! ## Hours -/

def fullShare : Int := 100

def ReadDays.sharedTime (w : ReadDays) (people : List Uuid) (shares : List (Uuid × Int)) (start until_ : Int) : TeamTime :=
  let out := w.peopleTime people start until_
  if shares = [] then out
  else
    let part := fun (minutes : TeamTime → Int) (m : Uuid) =>
      (minutes (w.peopleTime [m] start until_) * (shares.lookup m).getD fullShare).tdiv fullShare
    { out with available := (people.map (part TeamTime.available)).sum, nominal := (people.map (part TeamTime.nominal)).sum }

def ReadDays.personWorks (w : ReadDays) (m : Uuid) (t : Int) : Bool :=
  let d := t / day
  match w.days m d with
  | some pd => decide (0 < pd.minutes)
  | none =>
    if w.holidays d = some false then false
    else decide (0 < minutesOn ((w.weeks m).getD standardWeek) d fun _ => none)

def hoursOfWeek (week : ResourceWeek) (t : TeamTime) : ResourceWeek :=
  { week with
    capacityHours := some (roundHundredths exact (t.available / minutesPerHour))
    nominalHours := some (roundHundredths exact (t.nominal / minutesPerHour))
    daysAway := t.away
    holidays := t.holidays }

def spreadHours (weeks : List Int) (start due : Int) (hours : Rat) (works : Int → Bool) : List (Nat × Rat) :=
  let working := spreadDays works start due
  let inWeek := working.filterMap (weekIndex weeks)
  inWeek.dedup.map fun w => (w, hours / working.length * inWeek.count w)

def touches (start due from_ until_ : Int) : Bool := decide (from_ ≤ midnight due ∧ midnight start ≤ until_)

/-! ## Rows -/

section
variable (u : Tables) (input : ResourceInput)

def peopleInOrder : List (Uuid × Text) :=
  let before := fun a b : Uuid × Text =>
    let x := toLower u a.2
    let y := toLower u b.2
    decide (x < y ∨ x = y ∧ a.1 < b.1)
  input.people.mergeSort fun a b => !before b a

def rowIDs : List Uuid :=
  match input.grouping with
  | .person => (peopleInOrder u input).map (·.1)
  | .team => input.teams.map Team.id

def rowOf (i : Issue) : Nat :=
  let id :=
    match input.grouping with
    | .person => i.assignee
    | .team => i.teamID
  let unassigned := (rowIDs u input).length
  match id with
  | none => unassigned
  | some id => (((rowIDs u input).zipIdx.filter (·.1 = id)).getLast?.map (·.2)).getD unassigned

def resourceRow (weeks : List Int) (id : Option Uuid) (kind : RowKind) (name : Text) (people : List Uuid) (works : Int → Bool) :
    ResourceRow :=
  let week := fun start =>
    let empty : ResourceWeek := ⟨start, none, none, 0, 0, 0, []⟩
    match id with
    | none => empty
    | some _ => hoursOfWeek empty (input.work.sharedTime people input.shares start (start + (daysPerWeek - 1) * day))
  ⟨kind, id, name, none, weeks.map week, works⟩

def resourceRows (weeks : List Int) : List ResourceRow :=
  let carried :=
    match input.grouping with
    | .person => (peopleInOrder u input).map fun p =>
      { resourceRow input weeks (some p.1) .person p.2 [p.1] (input.work.personWorks p.1) with
        sharePercent := (input.shares.lookup p.1).filter (· < fullShare) }
    | .team => input.teams.map fun t =>
      resourceRow input weeks (some t.id) .team t.name (input.work.members t.id) (input.work.works (some t.id))
  carried ++ [resourceRow input weeks none .unassigned "Unassigned".toList [] (input.work.works none)]

/-! ## Work counted once -/

def climb (byID : Uuid → Option Issue) (speaks : Issue → Bool) : Nat → List Uuid → Option Uuid → Bool
  | 0, _, _ => false
  | _, _, none => false
  | n + 1, seen, some id =>
    if id ∈ seen then false
    else
      match byID id with
      | none => false
      | some parent => if speaks parent then true else climb byID speaks n (id :: seen) parent.parentID

def coveredByAncestor (issues : List Issue) (rowOf : Issue → Nat) (i : Issue) : Bool :=
  let byID := fun id => issues.reverse.find? (·.id = id)
  climb byID (fun parent => (hoursOf parent).isSome && rowOf parent == rowOf i) (issues.length + 1) [i.id] i.parentID

def splitKey (key : Text) : Text × Int :=
  match key.reverse.span (· ≠ '-') with
  | (_, []) => (key, 0)
  | (number, _ :: prefix_) => (prefix_.reverse, atoiValue number.reverse)

def keyBefore (a b : Text) : Bool :=
  if (splitKey a).1 ≠ (splitKey b).1 then decide ((splitKey a).1 < (splitKey b).1) else decide ((splitKey a).2 < (splitKey b).2)

def ResourceRow.fill (weeks : List Int) (key : Text) (start due : Int) (hours : Rat) (row : ResourceRow) : ResourceRow :=
  { row with
    weeks := (spreadHours weeks start due hours row.works).foldl (fun row p =>
      row.modify p.1 fun week =>
        { week with loadHours := week.loadHours + p.2, issues := week.issues ++ [⟨key, roundHundredths exact p.2⟩] }) row.weeks }

def ResourcePlan.read (parents : List Uuid) (out : ResourcePlan) (i : Issue) : ResourcePlan :=
  match hoursOf i, i.startDate, i.dueDate with
  | none, some start, some due =>
    if parents.contains i.id ∨ touches start due input.start input.until_ = false then out
    else { out with unestimated := out.unestimated ++ [⟨i.key, none⟩] }
  | none, _, _ => if parents.contains i.id then out else { out with unestimated := out.unestimated ++ [⟨i.key, none⟩] }
  | some hours, some start, some due =>
    if 0 < hours then { out with rows := out.rows.modify (rowOf u input i) (ResourceRow.fill out.weeks i.key start due hours) }
    else out
  | some hours, _, _ => { out with unscheduled := out.unscheduled ++ [⟨i.key, some (roundHundredths exact hours)⟩] }

def issuesInOrder : List Issue := input.issues.mergeSort fun a b => !keyBefore b.key a.key

def uncovered : List Issue :=
  let issues := issuesInOrder input
  issues.filter fun i => !(issues.any fun j => j.id = i.id && coveredByAncestor issues (rowOf u input) j)

def readResources : ResourcePlan :=
  let weeks := weeksOf input.start input.until_
  let parents := (issuesInOrder input).filterMap Issue.parentID
  let out := (uncovered u input).foldl (ResourcePlan.read u input parents) ⟨weeks, resourceRows u input weeks, [], []⟩
  { out with
    rows := out.rows.map fun row =>
      { row with weeks := row.weeks.map fun week => { week with loadHours := roundHundredths exact week.loadHours } } }

end

end Plan
end Armature
