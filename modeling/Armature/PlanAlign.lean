import Armature.Kahn
import Armature.PlanModel
import Mathlib.Data.List.AList
import Mathlib.Data.List.Sort
/-!
# PlanAlign — the auto plan (`plan/constraints.go`, `plan/align.go`)

Each Blocks link is spread over what is beneath its two ends; Kahn's order over these constraints then pushes every issue
that may move to start after what blocks it.
-/
namespace Armature
namespace Plan

open Go (Text day)
open Wf (Uuid)

/-! ## Constraints -/

/-- One issue that has to start after another finishes, with the link it comes from. -/
structure Constraint where
  blockerKey : Text
  blockedKey : Text
  via : Blocker
  deriving DecidableEq

def keyOf (item : Item) : Text := item.label.issue.key

def itemAt (items : List Item) (key : Text) : Option Item :=
  (Tree.postsAll items).reverse.find? (fun item => keyOf item = key)

def beneath (items : List Item) (key : Text) : List Text :=
  match itemAt items key with
  | some item => (Tree.flattenAll item.children).map (fun r => r.issue.key)
  | none => []

def isDerived (items : List Item) (key : Text) : Bool :=
  match itemAt items key with
  | some item => item.label.derived
  | none => false

def within (items : List Item) (key ancestor : Text) : Bool := (beneath items ancestor).contains key

def side (items : List Item) (key : Text) : List Text :=
  (key :: beneath items key).filter (fun k => !isDerived items k)

def spread (items : List Item) (b : Blocker) : List Constraint :=
  if within items b.blockedKey b.blockerKey || within items b.blockerKey b.blockedKey then
    [⟨b.blockerKey, b.blockedKey, b⟩]
  else
    (side items b.blockerKey).flatMap (fun from_ => (side items b.blockedKey).map (fun to_ => ⟨from_, to_, b⟩))

def add (out : List Constraint) (c : Constraint) : List Constraint :=
  if c.blockerKey = c.blockedKey ∨ ∃ d ∈ out, d.blockerKey = c.blockerKey ∧ d.blockedKey = c.blockedKey then out
  else out ++ [c]

def constraints (items : List Item) (blockers : List Blocker) : List Constraint :=
  (blockers.flatMap (spread items)).foldl add []

/-! ## Placing -/

def workdaySearchDays : Nat := 366

namespace Workdays

def workingDays (w : Workdays) (team : Option Uuid) (s : Span) : Nat :=
  ((daysBetween s.start s.due).filter (w.works team)).length

def nextWorkday (w : Workdays) (team : Option Uuid) (d : Int) : Int :=
  (((List.range workdaySearchDays).map (fun i : Nat => d + i * day)).find? (w.works team)).getD d

def advance (w : Workdays) (team : Option Uuid) : Nat → Int → Int
  | 0, due => due
  | n + 1, due => w.advance team n (w.nextWorkday team (due + day))

def place (w : Workdays) (team : Option Uuid) (from_ : Int) (length : Nat) (was : Span) : Span :=
  let start := w.nextWorkday team from_
  if length = 0 then ⟨start, start + durationSub was.due was.start⟩
  else ⟨start, w.advance team (length - 1) start⟩

end Workdays

/-! ## The auto plan -/

structure Move where
  issueKey : Text
  /-- Where the issue is now, absent for one that is placed. -/
  from_ : Option Span
  to_ : Span
  placed : Bool
  workingDays : Nat
  /-- The blocker whose due date the new start follows, empty for a placed issue nothing holds back. -/
  after : Text
  deriving DecidableEq

structure Unplaced where
  issueKey : Text
  reason : Text
  deriving DecidableEq

structure Proposal where
  moves : List Move
  unplaced : List Unplaced
  deriving DecidableEq

structure AlignInput where
  blockers : List Blocker
  work : Workdays
  today : Int
  /-- Limits the moves to these keys; `none` moves any issue the rules allow. -/
  matched : Option (List Text)
  /-- The dates of blockers that are not rows of this plan. -/
  outside : AList (fun _ : Text => Span)
  place : Bool
  downstream : Text

def notPlacedReason : Text := "Not placed: it has no estimate.".toList

def minutesPerHour : Rat := 60

def hoursOf (i : Issue) : Option Rat := (i.timeRemainingMinutes <|> i.timeEstimateMinutes).map (fun m => m / minutesPerHour)

def daysOf (hours : Rat) : Int := (hours * minutesPerHour / standardDayMinutes).ceil

def isMatched (matched : Option (List Text)) (key : Text) : Bool :=
  match matched with
  | none => true
  | some keys => keys.contains key

def placeable (item : Item) (matched : Option (List Text)) : Bool :=
  if item.label.start.isSome || item.label.due.isSome || !item.children.isEmpty || item.label.issue.isDone then false
  else isMatched matched item.label.issue.key

def movable (r : Row) (today : Int) (matched : Option (List Text)) : Bool :=
  if r.derived || r.issue.isDone then false
  else if !isMatched matched r.issue.key then false
  else
    let underWay := r.issue.category ≠ .todo ∧ midnight (r.start.getD 0) < today
    !decide underWay

structure AlignNode where
  span : Span
  team : Option Uuid
  movable : Bool
  /-- The length of an issue to place, which has no span until it is placed. -/
  days : Nat

inductive Reading where
  | node (n : AlignNode)
  | unplaced
  | skipped

def read (in_ : AlignInput) (item : Item) : Reading :=
  let r := item.label
  if in_.place && placeable item in_.matched then
    match hoursOf r.issue with
    | some hours => if 0 < hours then .node ⟨⟨0, 0⟩, r.issue.teamID, true, (daysOf hours).toNat⟩ else .unplaced
    | none => .unplaced
  else
    match r.start, r.due with
    | some start, some due =>
      .node ⟨⟨midnight start, midnight due⟩, r.issue.teamID, movable r (midnight in_.today) in_.matched, 0⟩
    | _, _ => .skipped

abbrev Nodes := AList (fun _ : Text => AlignNode)

def nodeOf (in_ : AlignInput) (item : Item) : Option AlignNode :=
  match read in_ item with
  | .node n => some n
  | _ => none

def addItem (in_ : AlignInput) (nodes : Nodes) (item : Item) : Nodes :=
  match nodeOf in_ item with
  | some n => nodes.insert (keyOf item) n
  | none => nodes

def addOutside (nodes : Nodes) (f : Sigma (fun _ : Text => Span)) : Nodes :=
  if f.1 ∈ nodes then nodes
  else nodes.insert f.1 ⟨⟨midnight f.2.start, midnight f.2.due⟩, none, false, 0⟩

def nodesOf (items : List Item) (in_ : AlignInput) : Nodes :=
  in_.outside.entries.foldl addOutside ((Tree.subtreesAll items).foldl (addItem in_) ∅)

def unplacedOf (items : List Item) (in_ : AlignInput) : List Unplaced :=
  (Tree.subtreesAll items).filterMap (fun item =>
    match read in_ item with
    | .unplaced => some ⟨keyOf item, notPlacedReason⟩
    | _ => none)

def edgesOf (items : List Item) (in_ : AlignInput) : List (Text × Text) :=
  let nodes := nodesOf items in_
  ((constraints items in_.blockers).filter (fun c => decide (c.blockerKey ∈ nodes) && decide (c.blockedKey ∈ nodes))).map
    (fun c => (c.blockerKey, c.blockedKey))

def downstreamOf (key : Text) (edges : List (Text × Text)) : List Text :=
  Kahn.search (Kahn.after edges) (edges.length + 1) [key] []

def sortStrings (keys : List Text) : List Text := keys.insertionSort (· ≤ ·)

def latestOf (spans : Text → Span) (blockers : List Text) : Int × Text :=
  blockers.foldl (fun acc blocker =>
    let due := (spans blocker).due
    if acc.1 < due ∨ due = acc.1 ∧ blocker < acc.2 then (due, blocker) else acc) (0, [])

def alignKey (nodes : Nodes) (edges : List (Text × Text)) (reach : Text → Bool) (in_ : AlignInput) (key : Text) (own : Span)
    (spans : Text → Span) : Span × List Move :=
  match nodes.lookup key with
  | none => (own, [])
  | some n =>
    let (latest, after) := latestOf spans (Kahn.before edges key)
    let today := midnight in_.today
    if 0 < n.days then
      let from_ := if after ≠ [] ∧ today < latest + day then latest + day else today
      let span := in_.work.place n.team from_ n.days ⟨0, 0⟩
      (span, [⟨key, none, span, true, n.days, after⟩])
    else if (n.movable && reach key) ∧ after ≠ [] ∧ own.start ≤ latest then
      let length := in_.work.workingDays n.team own
      let span := in_.work.place n.team (latest + day) length own
      (span, [⟨key, some own, span, false, length, after⟩])
    else (own, [])

def spansOf (nodes : Nodes) (key : Text) : Span :=
  match nodes.lookup key with
  | some n => n.span
  | none => ⟨0, 0⟩

def align (items : List Item) (in_ : AlignInput) : Proposal :=
  let nodes := nodesOf items in_
  let edges := edgesOf items in_
  let reach := fun key => in_.downstream = [] || (downstreamOf in_.downstream edges).contains key
  let indegree := fun key => (edges.countP (fun e => e.2 = key) : Int)
  let ready := sortStrings (nodes.keys.filter (fun key => indegree key = 0))
  let visit := fun key (s : (Text → Span) × List Move) =>
    let (span, moves) := alignKey nodes edges reach in_ key (s.1 key) s.1
    (Function.update s.1 key span, s.2 ++ moves)
  let (_, moves) := Kahn.walk (Kahn.after edges) sortStrings visit nodes.keys.length ready indegree (spansOf nodes, [])
  ⟨moves, unplacedOf items in_⟩

/-! ## The plan after the moves -/

def moveTo (moves : List Move) (key : Text) : Option Span := (moves.reverse.find? (fun m => m.issueKey = key)).map Move.to_

def moveRow (moves : List Move) (r : Row) : Row :=
  let r := match moveTo moves r.issue.key with
    | some span => { r with start := some span.start, due := some span.due }
    | none => r
  if r.derived then { r with start := r.issue.startDate, due := r.issue.dueDate, derived := false } else r

def moved (items : List Item) (moves : List Move) : List Item := rollup (Tree.mapAll (moveRow moves) items)

end Plan
end Armature
