import Armature.IssueStore
import Armature.Locking
import Armature.PlanLoad
/-!
# SprintReport — what a sprint turned out to be (`sprint/lifecycle.go`, `plan/service.go`, `issue/hierarchy.go`)

`Complete` counts the points from a tree that it reads before its transaction; the statements of the transaction count what
is finished, write the last snapshot and carry the rest over, each of them on what is committed by then.  The record is of
one moment where nobody's commit between these changes what is counted (`report_of_one_moment`).
-/
namespace Armature
namespace SprintReport

open List
open Wf (Uuid)
open Plan (Issue SprintPlan sprintPlans fromTree topmostBySprint)
open Issues (SprintState)
open Interleaving (Unlocked)

/-! ## The tree -/

/-- A row of `issue` with the level of its type. -/
structure Record where
  project : Uuid
  level : Int
  keyNum : Int
  issue : Issue
  deriving DecidableEq

def Record.before (a b : Record) : Prop := b.level < a.level ∨ a.level = b.level ∧ a.keyNum ≤ b.keyNum

instance : DecidableRel Record.before := fun a b =>
  inferInstanceAs (Decidable (b.level < a.level ∨ a.level = b.level ∧ a.keyNum ≤ b.keyNum))

def ordered (issues : List Record) (project : Uuid) : List Record :=
  (issues.filter fun r => decide (r.project = project)).insertionSort Record.before

def treeLimit : Nat := 2000

def readIssues (issues : List Record) (project : Uuid) : List Record := (ordered issues project).take treeLimit

def sortNodes (nodes : List (Tree Record)) : List (Tree Record) := nodes.insertionSort fun a b => a.label.before b.label

def childOf (issues : List Record) (id : Uuid) : List Record := issues.filter fun r => decide (r.issue.parentID = some id)

def assemble (issues : List Record) : Nat → Record → Tree Record
  | 0, r => .node r []
  | depth + 1, r => .node r (sortNodes ((childOf issues r.issue.id).map (assemble issues depth)))

def roots (issues : List Record) : List Record :=
  issues.filter fun r => !r.issue.parentID.any fun parent => issues.any fun p => decide (p.issue.id = parent)

def buildForest (issues : List Record) : List (Tree Record) := sortNodes ((roots issues).map (assemble issues issues.length))

/-! ## What a sprint holds -/

structure Totals where
  committed : Rat
  completed : Rat
  issues : Nat
  issuesDone : Nat
  unestimated : Nat
  deriving DecidableEq

def totalsOf (counted : SprintPlan) : Totals where
  committed := counted.committed
  completed := counted.completed
  issues := counted.issues
  issuesDone := counted.issuesDone
  unestimated := counted.unestimated

def sprints (issues : List Record) (id : Uuid) : Totals :=
  totalsOf ((sprintPlans (fromTree (Tree.mapAll Record.issue (buildForest issues))) [⟨id, none⟩]).head (cons_ne_nil _ _))

def sprintTotals (issues : List Record) (project id : Uuid) : Totals := sprints (readIssues issues project) id

def finishedWork (issues : List Record) (id : Uuid) : List Uuid :=
  (issues.filter fun r => decide (r.issue.sprintID = some id) && r.issue.isDone).map fun r => r.issue.id

def unfinishedWork (issues : List Record) (id : Uuid) : List Uuid :=
  (issues.filter fun r => decide (r.issue.sprintID = some id) && !r.issue.isDone).map fun r => r.issue.id

def work (issues : List Record) (id : Uuid) : List (Bool × Option Rat) :=
  (Tree.under id (topmostBySprint (fromTree (Tree.mapAll Record.issue (buildForest issues))))).map fun r =>
    (r.issue.isDone, r.estimate)

def countWork (plan : SprintPlan) (w : Bool × Option Rat) : SprintPlan :=
  let plan := { plan with issues := plan.issues + 1, issuesDone := plan.issuesDone + if w.1 then 1 else 0 }
  match w.2 with
  | none => { plan with unestimated := plan.unestimated + 1 }
  | some e => { plan with committed := plan.committed + e, completed := plan.completed + if w.1 then e else 0 }

theorem sprints_eq (issues : List Record) (id : Uuid) :
    sprints issues id = totalsOf ((work issues id).foldl countWork ⟨⟨id, none⟩, 0, 0, 0, 0, 0⟩) := by
  unfold work
  rw [foldl_map]
  rfl

theorem sprints_congr {was now : List Record} {id : Uuid} (h : work was id = work now id) : sprints was id = sprints now id := by
  rw [sprints_eq, sprints_eq, h]

theorem readIssues_all {issues : List Record} {project : Uuid}
    (h : (issues.filter fun r => decide (r.project = project)).length ≤ treeLimit) : readIssues issues project = ordered issues project := by
  refine take_of_length_le ?_
  unfold ordered
  rwa [length_insertionSort]

/-! ## The database -/

structure Recorded where
  committed : Rat
  completed : Rat
  finished : Nat
  carried : Nat

structure Sprint where
  project : Uuid
  team : Option Uuid
  state : SprintState
  recorded : Option Recorded

structure Db where
  issues : List Record
  sprints : Uuid → Option Sprint
  /-- A sprint's snapshot of a day. -/
  snapshots : Uuid → Int → Option Totals

def There (issues : List Record) (id : Uuid) : Prop := ∃ r ∈ issues, r.issue.id = id

def resolveDestination (db : Db) (id : Uuid) (before : Sprint) (moveTo : Option Uuid) : Bool :=
  moveTo.all fun to_ => decide (to_ ≠ id) && (db.sprints to_).any fun s =>
    decide (s.project = before.project ∧ s.state ≠ .closed ∧ s.team = before.team)

def carryOver (issues : List Record) (moveTo : Option Uuid) (moved : List Uuid) : List Record :=
  issues.map fun r => if r.issue.id ∈ moved then { r with issue := { r.issue with sprintID := moveTo } } else r

def Db.completed (db : Db) (id : Uuid) (moveTo : Option Uuid) (day : Int) (totals : Totals) (finished : Nat) (moved : List Uuid) : Db where
  issues := carryOver db.issues moveTo moved
  sprints := Function.update db.sprints id ((db.sprints id).map fun s =>
    { s with state := .closed, recorded := some ⟨totals.committed, totals.completed, finished, moved.length⟩ })
  snapshots := Function.update db.snapshots id (Function.update (db.snapshots id) day (some totals))

/-! ## Transactions -/

/-- How far a `Complete` has come, with what it has read. -/
inductive Stage where
  | asked (id : Uuid) (moveTo : Option Uuid)
  /-- `ByID` found the sprint running. -/
  | found (id project : Uuid) (moveTo : Option Uuid)
  | counted (id project : Uuid) (moveTo : Option Uuid) (totals : Totals)
  /-- The sprint's row is locked. -/
  | holding (id : Uuid) (before : Sprint) (moveTo : Option Uuid) (totals : Totals)
  | finished (id : Uuid) (before : Sprint) (moveTo : Option Uuid) (totals : Totals) (finished : Nat)
  /-- `carryOver` has read the issues, and locks one row after another. -/
  | carrying (id : Uuid) (before : Sprint) (moveTo : Option Uuid) (totals : Totals) (finished : Nat) (day : Int)
      (seen : List Record) (rest moved : List Uuid)

def Stage.seen : Stage → Option (List Record)
  | .carrying _ _ _ _ _ _ seen _ _ => some seen
  | _ => none

inductive Row where
  | issue (id : Uuid)
  | sprint (id : Uuid)

def Stage.locks : Stage → Row → Prop
  | .holding id _ _ _, .sprint x => x = id
  | .finished id _ _ _ _, .sprint x => x = id
  | .carrying id _ _ _ _ _ _ _ _, .sprint x => x = id
  | .carrying _ _ _ _ _ _ _ _ moved, .issue x => x ∈ moved
  | _, _ => False

/-- Which steps the runs under discussion have: when the tree may be read, and what may be committed beside which others. -/
structure Terms where
  counts : Db → (project id : Uuid) → Prop
  commits : Db → List Stage → Db → Prop

/-- What anybody else may commit: to issues in any way, to sprints short of completing one. -/
structure Write (db : Db) (running : List Stage) (db' : Db) : Prop where
  issues : ∀ r : Record, ¬ Unlocked Stage.locks running (.issue r.issue.id) → (r ∈ db.issues ↔ r ∈ db'.issues)
  /-- An issue waits to join a sprint that somebody holds. -/
  joins : ∀ r' ∈ db'.issues, ∀ s, r'.issue.sprintID = some s → ¬ Unlocked Stage.locks running (.sprint s) →
    ∃ r ∈ db.issues, r.issue.id = r'.issue.id ∧ r.issue.sprintID = some s
  sprints : ∀ id, ¬ Unlocked Stage.locks running (.sprint id) → db'.sprints id = db.sprints id
  /-- A sprint that has begun keeps its project, its state and its record. -/
  begun : ∀ id s, db.sprints id = some s → s.state ≠ .planned →
    ∃ s', db'.sprints id = some s' ∧ s'.project = s.project ∧ s'.state = s.state ∧ s'.recorded = s.recorded
  closed : ∀ id s', db'.sprints id = some s' → s'.state = .closed → ∃ s, db.sprints id = some s ∧ s.state = .closed
  /-- Starting a sprint and the daily `Snapshot` lock it, and find it running. -/
  snapshots : ∀ id day, db'.snapshots id day ≠ db.snapshots id day →
    Unlocked Stage.locks running (.sprint id) ∧ ∃ s', db'.sprints id = some s' ∧ s'.state = .active

inductive Act (terms : Terms) (db : Db) (others : List Stage) : Stage → Db → Option Stage → Prop where
  | find {id : Uuid} {moveTo : Option Uuid} {s : Sprint} : db.sprints id = some s → s.state = .active →
      Act terms db others (.asked id moveTo) db (some (.found id s.project moveTo))
  | count {id project : Uuid} {moveTo : Option Uuid} : terms.counts db project id →
      Act terms db others (.found id project moveTo) db (some (.counted id project moveTo (sprintTotals db.issues project id)))
  | hold {id project : Uuid} {moveTo : Option Uuid} {totals : Totals} {before : Sprint} : db.sprints id = some before →
      Unlocked Stage.locks others (.sprint id) → before.state = .active →
      Act terms db others (.counted id project moveTo totals) db (some (.holding id before moveTo totals))
  | finish {id : Uuid} {before : Sprint} {moveTo : Option Uuid} {totals : Totals} : resolveDestination db id before moveTo →
      Act terms db others (.holding id before moveTo totals) db
        (some (.finished id before moveTo totals (finishedWork db.issues id).length))
  /-- The snapshot is written, and `carryOver` begins. -/
  | look {id : Uuid} {before : Sprint} {moveTo : Option Uuid} {totals : Totals} {finished : Nat} (day : Int) :
      Act terms db others (.finished id before moveTo totals finished) db
        (some (.carrying id before moveTo totals finished day db.issues (unfinishedWork db.issues id) []))
  | carry {id i : Uuid} {before : Sprint} {moveTo : Option Uuid} {totals : Totals} {finished : Nat} {day : Int}
      {seen : List Record} {rest moved : List Uuid} : There db.issues i → Unlocked Stage.locks others (.issue i) →
      Act terms db others (.carrying id before moveTo totals finished day seen (i :: rest) moved) db
        (some (.carrying id before moveTo totals finished day seen rest (moved ++ [i])))
  /-- An issue deleted meanwhile is not among the rows returned. -/
  | skip {id i : Uuid} {before : Sprint} {moveTo : Option Uuid} {totals : Totals} {finished : Nat} {day : Int}
      {seen : List Record} {rest moved : List Uuid} : ¬ There db.issues i →
      Act terms db others (.carrying id before moveTo totals finished day seen (i :: rest) moved) db
        (some (.carrying id before moveTo totals finished day seen rest moved))
  /-- The foreign key waits for whoever holds the sprint that the work goes to. -/
  | close {id : Uuid} {before : Sprint} {moveTo : Option Uuid} {totals : Totals} {finished : Nat} {day : Int}
      {seen : List Record} {moved : List Uuid} :
      (∀ s ∈ moveTo, moved ≠ [] → (db.sprints s).isSome ∧ Unlocked Stage.locks others (.sprint s)) →
      terms.commits db others (db.completed id moveTo day totals finished moved) →
      Act terms db others (.carrying id before moveTo totals finished day seen [] moved)
        (db.completed id moveTo day totals finished moved) none

def Starts (terms : Terms) (db : Db) (running : List Stage) (db' : Db) (p : Option Stage) : Prop :=
  (db' = db ∧ ∃ id moveTo, p = some (.asked id moveTo)) ∨ (p = none ∧ Write db running db' ∧ terms.commits db running db')

abbrev Run (terms : Terms) : Db → Interleaving.System Db Stage → Prop := Interleaving.Run (Starts terms) (Act terms)

def Moment (terms : Terms) (db₀ : Db) (sys : Interleaving.System Db Stage) (issues : List Record) : Prop :=
  ∃ m, Run terms db₀ m ∧ Relation.ReflTransGen (Interleaving.Step (Starts terms) (Act terms)) m sys ∧ m.shared.issues = issues

def Stage.undisturbed (was now : List Record) : Stage → Prop
  | .asked _ _ | .found _ _ _ => True
  | .counted id project _ _ => work (ordered now project) id = work (ordered was project) id
  | .holding id before _ _ => work (ordered now before.project) id = work (ordered was before.project) id
  | .finished id before _ _ _ => work (ordered now before.project) id = work (ordered was before.project) id ∧
      (finishedWork now id).length = (finishedWork was id).length
  | .carrying _ _ _ _ _ _ _ rest _ => ∀ i ∈ rest, There was i → There now i

def undisturbed : Terms where
  counts db project id := work (readIssues db.issues project) id = work (ordered db.issues project) id
  commits db others db' := ∀ q ∈ others, q.undisturbed db.issues db'.issues

def anyhow : Terms := ⟨fun _ _ _ => True, fun _ _ _ => True⟩

/-! ## What a transaction knows -/

def Begun (db : Db) (id project : Uuid) : Prop := ∃ s, db.sprints id = some s ∧ s.project = project ∧ s.state ≠ .planned

def Holds (db : Db) (id : Uuid) (before : Sprint) : Prop := db.sprints id = some before ∧ before.state = .active

def Counts (issues : List Record) (id project : Uuid) (totals : Totals) : Prop := totals = sprints (ordered issues project) id

def Knows (db : Db) : Stage → Prop
  | .asked _ _ => True
  | .found id project _ => Begun db id project
  | .counted id project _ totals => Begun db id project ∧ Counts db.issues id project totals
  | .holding id before _ totals => Holds db id before ∧ Counts db.issues id before.project totals
  | .finished id before _ totals finished =>
      Holds db id before ∧ Counts db.issues id before.project totals ∧ finished = (finishedWork db.issues id).length
  | .carrying id before _ totals finished _ seen rest moved =>
      Holds db id before ∧ (Counts seen id before.project totals ∧ finished = (finishedWork seen id).length) ∧
        moved.length + rest.length = (unfinishedWork seen id).length ∧ ∀ i ∈ rest, There db.issues i

structure Frame (db db' : Db) (q : Stage) : Prop where
  held : ∀ id, q.locks (.sprint id) → db'.sprints id = db.sprints id
  begun : ∀ id project, Begun db id project → Begun db' id project
  undisturbed : q.undisturbed db.issues db'.issues

theorem Counts.then {was now : List Record} {id project : Uuid} {totals : Totals} (h : Counts was id project totals)
    (hwork : work (ordered now project) id = work (ordered was project) id) : Counts now id project totals := by
  unfold Counts at h ⊢
  rw [h, sprints_congr hwork]

variable {db db₀ : Db} {q : Stage} {others : List Stage}

variable {db' : Db} {p : Stage}

theorem Knows.stable (h : Knows db q) (f : Frame db db' q) : Knows db' q := by
  obtain ⟨hheld, hbegun, hundisturbed⟩ := f
  have hholds : ∀ {id : Uuid} {before : Sprint}, Holds db id before → db'.sprints id = db.sprints id → Holds db' id before :=
    fun hholds hsame => ⟨hsame.trans hholds.1, hholds.2⟩
  cases q with
  | asked => trivial
  | found => exact hbegun _ _ h
  | counted => exact ⟨hbegun _ _ h.1, h.2.then hundisturbed⟩
  | holding id before moveTo totals => exact ⟨hholds h.1 (hheld id rfl), h.2.then hundisturbed⟩
  | finished id before moveTo totals finished =>
    obtain ⟨hsprint, hcounts, hfinished⟩ := h
    exact ⟨hholds hsprint (hheld id rfl), hcounts.then hundisturbed.1, hfinished.trans hundisturbed.2.symm⟩
  | carrying id before moveTo totals finished day seen rest moved =>
    obtain ⟨hsprint, hreport, hlength, hthere⟩ := h
    exact ⟨hholds hsprint (hheld id rfl), hreport, hlength, fun i hi => hundisturbed i hi (hthere i hi)⟩

theorem Write.frame {running : List Stage} (w : Write db running db') (hq : q ∈ running)
    (hu : q.undisturbed db.issues db'.issues) : Frame db db' q := by
  refine ⟨fun id hlocks => w.sprints id fun hfree => hfree q hq hlocks, ?_, hu⟩
  rintro id project ⟨s, hs, hproject, hstate⟩
  obtain ⟨s', hs', hproject', hstate', -⟩ := w.begun id s hs hstate
  exact ⟨s', hs', hproject'.trans hproject, fun hplanned => hstate (hstate' ▸ hplanned)⟩

theorem completed_sprints {id : Uuid} {before : Sprint} (h : db.sprints id = some before) (moveTo : Option Uuid)
    (day : Int)
    (totals : Totals) (finished : Nat) (moved : List Uuid) : (db.completed id moveTo day totals finished moved).sprints id =
      some { before with state := .closed, recorded := some ⟨totals.committed, totals.completed, finished, moved.length⟩ } := by
  simp [Db.completed, h]

theorem completed_sprints_ne {id x : Uuid} (h : x ≠ id) (moveTo : Option Uuid) (day : Int) (totals : Totals)
    (finished : Nat) (moved : List Uuid) : (db.completed id moveTo day totals finished moved).sprints x = db.sprints x :=
  Function.update_of_ne h _ _

theorem close_frame {id : Uuid} {before : Sprint} (hsprint : Holds db id before) {moveTo : Option Uuid} {day : Int}
    {totals : Totals} {finished : Nat} {moved : List Uuid} (hq : ¬ q.locks (.sprint id))
    (hu : q.undisturbed db.issues (db.completed id moveTo day totals finished moved).issues) :
    Frame db (db.completed id moveTo day totals finished moved) q := by
  refine ⟨fun x hx => completed_sprints_ne (fun he : x = id => hq (he ▸ hx)) _ _ _ _ _, ?_, hu⟩
  rintro x project ⟨s, hs, hproject, hstate⟩
  by_cases hx : x = id
  · subst hx
    rw [hsprint.1] at hs
    cases hs
    exact ⟨_, completed_sprints hsprint.1 _ _ _ _ _, hproject, SprintState.noConfusion⟩
  · exact ⟨s, (completed_sprints_ne hx _ _ _ _ _).trans hs, hproject, hstate⟩

def Beside (p q : Stage) : Prop := ∀ row, p.locks row → ¬ q.locks row

theorem beside_after {p' : Stage} (h : ∀ q ∈ others, Beside p q)
    (hlocks : ∀ row, p'.locks row → p.locks row ∨ Unlocked Stage.locks others row) : ∀ q ∈ others, Beside p' q :=
  fun q hq row hrow => (hlocks row hrow).elim (h q hq row) fun hfree => hfree q hq

theorem act_keeps {p' : Option Stage} (hl : Knows db p)
    (hothers : ∀ q ∈ others, Knows db q ∧ Beside p q) (ha : Act undisturbed db others p db' p') :
    (∀ q ∈ others, Knows db' q) ∧ ∀ q ∈ p', Knows db' q ∧ ∀ t ∈ others, Beside q t := by
  have hstays : ∀ {next : Stage}, Knows db next → (∀ row, next.locks row → p.locks row ∨ Unlocked Stage.locks others row) →
      (∀ q ∈ others, Knows db q) ∧ ∀ q ∈ some next, Knows db q ∧ ∀ t ∈ others, Beside q t := by
    refine fun hknows hlocks => ⟨fun q hq => (hothers q hq).1, fun q hq => ?_⟩
    cases hq
    exact ⟨hknows, beside_after (fun q hq => (hothers q hq).2) hlocks⟩
  cases ha with
  | @find id moveTo s hs hactive =>
    refine hstays ⟨s, hs, rfl, fun hplanned => ?_⟩ fun row hrow => ?_
    · rw [hactive] at hplanned
      cases hplanned
    · cases row <;> exact hrow.elim
  | @count id project moveTo hcounts =>
    refine hstays ⟨hl, ?_⟩ fun row hrow => ?_
    · exact sprints_congr hcounts
    · cases row <;> exact hrow.elim
  | @hold id project moveTo totals before hs hfree hactive =>
    obtain ⟨⟨s, hs', hproject, -⟩, hcounts⟩ := hl
    rw [hs] at hs'
    cases hs'
    refine hstays ⟨⟨hs, hactive⟩, ?_⟩ fun row hrow => ?_
    · rwa [hproject]
    · cases row with
      | issue => exact hrow.elim
      | sprint =>
        cases hrow
        exact .inr hfree
  | @finish id before moveTo totals hdestination =>
    refine hstays ⟨hl.1, hl.2, rfl⟩ fun row hrow => ?_
    cases row <;> exact .inl hrow
  | @look id before moveTo totals finished day =>
    obtain ⟨hsprint, hcounts, hfinished⟩ := hl
    refine hstays ⟨hsprint, ⟨hcounts, hfinished⟩, by simp, fun i hi => ?_⟩ fun row hrow => ?_
    · obtain ⟨r, hr, hid⟩ := mem_map.1 hi
      exact ⟨r, (mem_filter.1 hr).1, hid⟩
    · cases row with
      | issue => exact absurd hrow not_mem_nil
      | sprint => exact .inl hrow
  | @carry id i before moveTo totals finished day seen rest moved hthere hfree =>
    obtain ⟨hsprint, hreport, hlength, hrest⟩ := hl
    refine hstays ⟨hsprint, hreport, ?_, fun j hj => hrest j (mem_cons_of_mem _ hj)⟩ fun row hrow => ?_
    · rw [← hlength, length_append, length_singleton, length_cons]
      omega
    · cases row with
      | issue =>
        rcases mem_append.1 hrow with hrow | hrow
        · exact .inl hrow
        · rw [mem_singleton.1 hrow]
          exact .inr hfree
      | sprint => exact .inl hrow
  | skip hgone => exact absurd (hl.2.2.2 _ mem_cons_self) hgone
  | @close id before moveTo totals finished day seen moved hshare hcommits =>
    refine ⟨fun q hq => ?_, fun q hq => by cases hq⟩
    exact (hothers q hq).1.stable (close_frame hl.1 ((hothers q hq).2 (.sprint id) rfl) (hcommits q hq))

theorem run_knows {sys : Interleaving.System Db Stage} (h : Run undisturbed db₀ sys) :
    ∀ p ∈ sys.running, Knows sys.shared p := by
  refine (Interleaving.Run.beside (I := fun _ => True) (L := Knows) (B := Beside) (fun p q h row hq hp => h row hp hq)
    (fun db running db' p _ hl hs => ⟨trivial, ?_⟩) (fun db others p db' p' _ hl hothers ha => ⟨trivial, act_keeps hl hothers ha⟩)
    trivial h).2.1
  rcases hs with ⟨rfl, id, moveTo, rfl⟩ | ⟨rfl, hwrite, hcommits⟩
  · refine ⟨hl, fun q hq => ?_⟩
    cases hq
    refine ⟨trivial, fun t _ row hrow => ?_⟩
    cases row <;> exact hrow.elim
  · exact ⟨fun q hq => (hl q hq).stable (hwrite.frame hq (hcommits q hq)), fun q hq => by cases hq⟩

theorem act_seen {terms : Terms} (ha : Act terms db others p db' (some q))
    {seen : List Record} (h : seen ∈ q.seen) : seen ∈ p.seen ∨ seen = db.issues := by
  cases ha with
  | look => exact .inr (Option.some.inj h).symm
  | carry => exact .inl h
  | skip => exact .inl h
  | _ => cases h

theorem run_seen {terms : Terms} {sys : Interleaving.System Db Stage} (h : Run terms db₀ sys) :
    ∀ p ∈ sys.running, ∀ seen ∈ p.seen, Moment terms db₀ sys seen := by
  refine Interleaving.Run.holds_reached (I := fun db ps => ∀ p ∈ ps, ∀ seen ∈ p.seen, Moment terms db₀ ⟨db, ps⟩ seen) ?_ ?_ ?_
    nofun h
  · intro db running db' p hrun hseen hs q hq seen hsome
    rcases mem_append.1 hq with hq | hq
    · rcases hs with ⟨-, id, moveTo, rfl⟩ | ⟨rfl, -⟩
      · rw [mem_singleton.1 hq] at hsome
        cases hsome
      · cases hq
    · obtain ⟨m, hm, hleads, hissues⟩ := hseen q hq seen hsome
      exact ⟨m, hm, hleads.tail (.start hs), hissues⟩
  · intro db l r p db' p' hrun hseen ha q hq seen hsome
    have hstep := @Interleaving.Step.act _ _ (Starts terms) _ _ _ _ _ _ _ ha
    have hbefore : ∀ {q : Stage}, q ∈ l ++ p :: r → seen ∈ q.seen → Moment terms db₀ ⟨db', l ++ p'.toList ++ r⟩ seen := by
      intro q hq hsome
      obtain ⟨m, hm, hleads, hissues⟩ := hseen q hq seen hsome
      exact ⟨m, hm, hleads.tail hstep, hissues⟩
    have hp : p ∈ l ++ p :: r := mem_append_right _ mem_cons_self
    rcases mem_append.1 hq with hq | hq
    · rcases mem_append.1 hq with hq | hq
      · exact hbefore (mem_append_left _ hq) hsome
      · rw [Option.mem_toList.1 hq] at ha
        rcases act_seen ha hsome with hsome | hnow
        · exact hbefore hp hsome
        · exact ⟨_, hrun, .single hstep, hnow.symm⟩
    · exact hbefore (mem_append_right _ (mem_cons_of_mem _ hq)) hsome
  · intro db l r p hseen q hq seen hsome
    obtain ⟨m, hm, hleads, hissues⟩ := hseen q (Interleaving.mem_between hq) seen hsome
    exact ⟨m, hm, hleads.tail .die, hissues⟩

/-- **The record of a sprint describes one moment of the run, as its unfinished work was carried over**: the totals stored and
the last snapshot are what the sprint held then, as are the counts of what was finished and what was carried. -/
theorem report_of_one_moment {l r : List Stage} {p : Stage} (h : Run undisturbed db₀ ⟨db, l ++ p :: r⟩) {db' : Db}
    {p' : Option Stage} (ha : Act undisturbed db (l ++ r) p db' p') {id : Uuid} {s s' : Sprint} (hs : db.sprints id = some s)
    (hs' : db'.sprints id = some s') (hopen : s.state ≠ .closed) (hclosed : s'.state = .closed) :
    ∃ seen, p.seen = some seen ∧ Moment undisturbed db₀ ⟨db, l ++ p :: r⟩ seen ∧
      s'.recorded = some ⟨(sprints (ordered seen s.project) id).committed, (sprints (ordered seen s.project) id).completed,
        (finishedWork seen id).length, (unfinishedWork seen id).length⟩ ∧
      ∃ day, db'.snapshots id day = some (sprints (ordered seen s.project) id) := by
  have hp : p ∈ l ++ p :: r := mem_append_right _ mem_cons_self
  have hknows := run_knows h p hp
  have hseen := run_seen h p hp
  have hsame : db' = db → False := by
    rintro rfl
    rw [hs] at hs'
    cases hs'
    exact hopen hclosed
  cases ha with
  | @close x before moveTo totals finished day seen moved hshare hcommits =>
    obtain ⟨hsprint, ⟨hcounts, hfinished⟩, hlength, -⟩ := hknows
    by_cases hx : id = x
    · subst hx
      rw [hsprint.1] at hs
      cases hs
      rw [completed_sprints hsprint.1] at hs'
      cases hs'
      have hlength : moved.length = (unfinishedWork seen id).length := hlength
      rw [Counts] at hcounts
      refine ⟨seen, rfl, hseen seen rfl, ?_, day, ?_⟩
      · rw [hcounts, hfinished, hlength]
      · rw [← hcounts]
        simp [Db.completed]
    · rw [completed_sprints_ne hx, hs] at hs'
      cases hs'
      exact absurd hclosed hopen
  | _ => exact (hsame rfl).elim

/-! ## An issue finished after the points are counted -/

namespace Small

def story (category : Wf.StatusCategory) : Record where
  project := 1
  level := 0
  keyNum := 1
  issue := ⟨7, [], category, none, none, some 1, none, none, none, some 3, none, none⟩

def running : Sprint := ⟨1, none, .active, none⟩

def started (category : Wf.StatusCategory) : Db :=
  ⟨[story category], Function.update (fun _ => none) 1 (some running), fun _ _ => none⟩

theorem runs_closing {terms : Terms} {db₀ db : Db} {totals : Totals} (hsprint : db.sprints 1 = some running)
    (hfinished : (finishedWork db.issues 1).length = 1) (hrest : unfinishedWork db.issues 1 = [])
    (h : Run terms db₀ ⟨db, [.counted 1 1 none totals]⟩) :
    Run terms db₀ ⟨db, [.carrying 1 running none totals 1 0 db.issues [] []]⟩ := by
  have hfree : Unlocked Stage.locks [] (.sprint 1) := nofun
  have h₁ := h.act [] (some (.holding 1 running none totals)) (.hold hsprint hfree rfl)
  have h₂ := h₁.act [] (some (.finished 1 running none totals _)) (.finish rfl)
  have h₃ := h₂.act [] (some (.carrying 1 running none totals _ 0 db.issues _ [])) (.look 0)
  rwa [hfinished, hrest] at h₃

theorem write_counted (db : Db) (totals : Totals) (issues : List Record) :
    Write db [.counted 1 1 none totals] { db with issues := issues } := by
  have hunlocked : ∀ row, Unlocked Stage.locks [.counted 1 1 none totals] row := by
    intro row q hq
    rw [mem_singleton.1 hq]
    cases row <;> exact id
  exact ⟨fun r hlocked => absurd (hunlocked _) hlocked, fun r' _ s _ hlocked => absurd (hunlocked _) hlocked, fun _ _ => rfl,
    fun id s hs _ => ⟨s, hs, rfl, rfl, rfl⟩, fun id s' hs' hclosed => ⟨s', hs', hclosed⟩, fun id day hne => absurd rfl hne⟩

/-- The story is finished between the count of the points and that of the issues. -/
theorem finished_uncounted : ¬ ∀ (db₀ db : Db) (l r : List Stage) (p : Stage), Run anyhow db₀ ⟨db, l ++ p :: r⟩ → ∀ (db' : Db)
    (p' : Option Stage), Act anyhow db (l ++ r) p db' p' → ∀ (id : Uuid) (s s' : Sprint), db.sprints id = some s →
    db'.sprints id = some s' → s.state ≠ .closed → s'.state = .closed →
    ∃ seen, p.seen = some seen ∧ Moment anyhow db₀ ⟨db, l ++ p :: r⟩ seen ∧
      s'.recorded = some ⟨(sprints (ordered seen s.project) id).committed, (sprints (ordered seen s.project) id).completed,
        (finishedWork seen id).length, (unfinishedWork seen id).length⟩ ∧
      ∃ day, db'.snapshots id day = some (sprints (ordered seen s.project) id) := by
  intro hall
  have h₀ : Run anyhow (started .inProgress) ⟨started .inProgress, []⟩ := .begin _
  have h₁ := h₀.start (some (.asked 1 none)) (.inl ⟨rfl, 1, none, rfl⟩)
  have h₂ := h₁.act [] (some (.found 1 1 none)) (.find (s := running) rfl rfl)
  have h₃ := h₂.act [] (some (.counted 1 1 none (sprintTotals (started .inProgress).issues 1 1))) (.count trivial)
  have h₄ := h₃.start none (.inr ⟨rfl, write_counted _ _ [story .done], trivial⟩)
  have h₅ : Run anyhow _ ⟨started .done, _⟩ := runs_closing rfl rfl rfl h₄
  obtain ⟨seen, hseen, -, hrecorded, -⟩ := hall _ _ [] [] _ h₅ _ none (.close (fun s hs => by cases hs) trivial) 1 running _ rfl rfl
    SprintState.noConfusion rfl
  cases hseen
  have hcompleted := congrArg Recorded.completed (Option.some.inj hrecorded)
  have hcounted : (sprintTotals (started .inProgress).issues 1 1).completed = 0 := by decide +kernel
  have hheld : (sprints (ordered (started .done).issues 1) 1).completed = 3 := by decide +kernel
  exact absurd (hcounted.symm.trans (hcompleted.trans hheld)) (by decide)

def aside : Record where
  project := 1
  level := 0
  keyNum := 2
  issue := ⟨8, [], .todo, none, none, none, none, none, none, some 5, none, none⟩

def withAside : Db := { started .done with issues := [story .done, aside] }

def counted : Totals := sprintTotals (started .done).issues 1 1

/-- The sprint is completed, and an issue outside it is made after the points are counted. -/
theorem finished_counted : ∃ seen, (Stage.carrying 1 running none counted 1 0 withAside.issues [] []).seen = some seen ∧
    Moment undisturbed (started .done) ⟨withAside, [.carrying 1 running none counted 1 0 withAside.issues [] []]⟩ seen ∧
    some (Recorded.mk counted.committed counted.completed 1 0) =
      some ⟨(sprints (ordered seen 1) 1).committed, (sprints (ordered seen 1) 1).completed,
        (finishedWork seen 1).length, (unfinishedWork seen 1).length⟩ ∧
    ∃ day, (withAside.completed 1 none 0 counted 1 []).snapshots 1 day = some (sprints (ordered seen 1) 1) := by
  have h₀ : Run undisturbed (started .done) ⟨started .done, []⟩ := .begin _
  have h₁ := h₀.start (some (.asked 1 none)) (.inl ⟨rfl, 1, none, rfl⟩)
  have h₂ := h₁.act [] (some (.found 1 1 none)) (.find (s := running) rfl rfl)
  have hcounts : undisturbed.counts (started .done) 1 1 :=
    congrArg (work · 1) (readIssues_all (Nat.le_of_ble_eq_true rfl))
  have h₃ := h₂.act [] (some (.counted 1 1 none counted)) (.count hcounts)
  have hwork : work (ordered withAside.issues 1) 1 = work (ordered (started .done).issues 1) 1 := by decide +kernel
  have h₄ := h₃.start none (.inr ⟨rfl, write_counted _ _ [story .done, aside], fun q hq => mem_singleton.1 hq ▸ hwork⟩)
  have h₅ : Run undisturbed _ ⟨withAside, _⟩ := runs_closing rfl rfl rfl h₄
  have hcommits : ∀ db', undisturbed.commits withAside [] db' := fun db' q hq => absurd hq not_mem_nil
  exact @report_of_one_moment _ _ [] [] _ h₅ _ none (.close (fun s hs => by cases hs) (hcommits _)) 1 running _ rfl rfl
    SprintState.noConfusion rfl

end Small

end SprintReport
end Armature
