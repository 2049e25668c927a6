import Armature.IssueStore
import Armature.Locking
/-!
# SprintWork — issues and sprints under writers that overlap (`issue/sprint.go`, `sprint/lifecycle.go`, `issue_sprint_guard`)

Each operation is a transaction of statements that reads what is committed and locks the rows it means to change; the guard
reads the sprint once more, without a lock, as an issue's row is written, and the foreign key shares the sprint's row after.
An open sprint holds its own team's work whatever overlaps, and completing one leaves no unfinished work in it.  A closed one
takes none where it closes while nobody waits between the guard and that share (`sprints_kept`).
-/
namespace Armature
namespace SprintWork

open List
open Wf (Uuid)
open Issues (SprintState)
open Interleaving (Unlocked Free Compatible)

/-- A row of `issue`, with whether its status is a done one. -/
structure Issue where
  project : Uuid
  team : Option Uuid
  sprint : Option Uuid
  done : Bool
  deriving DecidableEq

structure Sprint where
  project : Uuid
  team : Option Uuid
  state : SprintState
  deriving DecidableEq

structure Db where
  issues : Uuid → Option Issue
  sprints : Uuid → Option Sprint

/-! ## The checks -/

def commitTo (db : Db) (project : Uuid) (team : Option Uuid) (sprint : Uuid) : Bool :=
  (db.sprints sprint).any fun s => decide (s.project = project ∧ s.state ≠ .closed ∧ s.team = team)

def guard (db : Db) (was : Option Uuid) (row : Issue) : Bool :=
  match row.sprint with
  | none => true
  | some id => (db.sprints id).any fun s =>
      decide (s.project = row.project ∧ ¬ (s.state = .closed ∧ was ≠ some id) ∧ (s.state ≠ .closed → s.team = row.team))

def handed (db : Db) (before : Issue) (team : Option Uuid) : Issue :=
  let givenUp := before.sprint.any fun id => (db.sprints id).any fun s => decide (s.state ≠ .closed ∧ s.team ≠ team)
  { before with team := team, sprint := if givenUp then none else before.sprint }

def resolveDestination (db : Db) (id : Uuid) (before : Sprint) (moveTo : Option Uuid) : Bool :=
  moveTo.all fun to_ => decide (to_ ≠ id) && (db.sprints to_).any fun s =>
    decide (s.project = before.project ∧ s.state ≠ .closed ∧ s.team = before.team)

/-! ## Transactions -/

inductive Request where
  | create (id : Uuid) (row : Issue)
  | setSprint (id : Uuid) (sprint : Option Uuid)
  | setTeam (id : Uuid) (team : Option Uuid)
  | move (id target : Uuid)
  | start (id : Uuid)
  | complete (id : Uuid) (moveTo : Option Uuid)
  | delete (id : Uuid)

/-- How far a transaction has come, with what it has read of the rows it holds. -/
inductive Stage where
  | asked (r : Request)
  /-- `SetSprintIn` or `SetTeamIn` holds the issue. -/
  | holding (id : Uuid) (before : Issue) (r : Request)
  /-- A row may be written: one that is held, or a new one. -/
  | placing (id : Uuid) (held : Option Issue) (row : Issue)
  /-- The row is written, and the guard has read its sprint. -/
  | placed (id : Uuid) (held : Option Issue) (row : Issue)
  /-- The foreign key shares the row of a sprint that it joins. -/
  | tied (id : Uuid) (held : Option Issue) (row : Issue)
  /-- `MoveIn` holds the issue and, one after another, what is under it. -/
  | moving (held : List (Uuid × Issue)) (target : Uuid)
  | starting (id : Uuid) (before : Sprint)
  /-- `Complete` holds the sprint. -/
  | completing (id : Uuid) (before : Sprint) (moveTo : Option Uuid)
  | resolved (id : Uuid) (before : Sprint) (moveTo : Option Uuid)
  /-- `carryOver` has read the unfinished work, and writes one row after another. -/
  | carrying (id : Uuid) (before : Sprint) (moveTo : Option Uuid) (rest : List Uuid) (done : List (Uuid × Issue))
  /-- The foreign key shares the row of the sprint the work goes to. -/
  | closing (id : Uuid) (before : Sprint) (moveTo : Option Uuid) (done : List (Uuid × Issue))
  /-- `Delete` holds the sprint, and releases its work one row after another. -/
  | deleting (id : Uuid) (before : Sprint)
  | releasing (id : Uuid) (before : Sprint) (rest : List Uuid) (done : List (Uuid × Issue))

def joins (held : Option Issue) (row : Issue) : Option Uuid := if held.bind Issue.sprint = row.sprint then none else row.sprint

inductive Row where
  | issue (id : Uuid)
  | sprint (id : Uuid)

def Stage.locks : Stage → Row → Prop
  | .asked _, _ => False
  | .holding id _ _, .issue x => x = id
  | .placing id held _, .issue x => held.isSome ∧ x = id
  | .placed id held _, .issue x => held.isSome ∧ x = id
  | .tied id held _, .issue x => held.isSome ∧ x = id
  | .moving held _, .issue x => x ∈ held.map Prod.fst
  | .carrying _ _ _ _ done, .issue x => x ∈ done.map Prod.fst
  | .closing _ _ _ done, .issue x => x ∈ done.map Prod.fst
  | .releasing _ _ _ done, .issue x => x ∈ done.map Prod.fst
  | .starting id _, .sprint x => x = id
  | .completing id _ _, .sprint x => x = id
  | .resolved id _ _, .sprint x => x = id
  | .carrying id _ _ _ _, .sprint x => x = id
  | .closing id _ _ _, .sprint x => x = id
  | .deleting id _, .sprint x => x = id
  | .releasing id _ _ _, .sprint x => x = id
  | _, _ => False

def Stage.shares : Stage → Row → Prop
  | .tied _ held row, .sprint x => joins held row = some x
  | .closing _ _ moveTo done, .sprint x => done ≠ [] ∧ moveTo = some x
  | _, _ => False

def Db.moved (db : Db) (target : Uuid) (held : List (Uuid × Issue)) (finished : Uuid → Bool) : Db :=
  { db with issues := fun id =>
      if id ∈ held.map Prod.fst then (db.issues id).map fun _ => ⟨target, none, none, finished id⟩ else db.issues id }

def Db.carried (db : Db) (moveTo : Option Uuid) (done : List (Uuid × Issue)) : Db :=
  { db with issues := fun id =>
      if id ∈ done.map Prod.fst then (db.issues id).map fun row => { row with sprint := moveTo } else db.issues id }

def Db.withIssue (db : Db) (id : Uuid) (row : Issue) : Db := { db with issues := Function.update db.issues id (some row) }

def Db.withSprint (db : Db) (id : Uuid) (s : Option Sprint) : Db := { db with sprints := Function.update db.sprints id s }

/-- One statement of a transaction; `ok` is which commits the runs under discussion have, beside the others running. -/
inductive Act (ok : Db → List Stage → Stage → Prop) (db : Db) (others : List Stage) : Stage → Db → Option Stage → Prop where
  /-- `Create`. -/
  | create {id : Uuid} {row : Issue} : (∀ s ∈ row.sprint, commitTo db row.project row.team s) →
      Act ok db others (.asked (.create id row)) db (some (.placing id none row))
  | holdSprint {id : Uuid} {sprint : Option Uuid} {before : Issue} : db.issues id = some before →
      Free Stage.locks Stage.shares others (.issue id) →
      Act ok db others (.asked (.setSprint id sprint)) db (some (.holding id before (.setSprint id sprint)))
  | holdTeam {id : Uuid} {team : Option Uuid} {before : Issue} : db.issues id = some before →
      Free Stage.locks Stage.shares others (.issue id) →
      Act ok db others (.asked (.setTeam id team)) db (some (.holding id before (.setTeam id team)))
  /-- `SetSprintIn` past its check. -/
  | setSprint {id : Uuid} {sprint : Option Uuid} {before : Issue} : before.sprint ≠ sprint →
      (∀ s ∈ sprint, commitTo db before.project before.team s) →
      Act ok db others (.holding id before (.setSprint id sprint)) db (some (.placing id (some before) { before with sprint := sprint }))
  /-- `SetTeamIn` past its check. -/
  | setTeam {id : Uuid} {team : Option Uuid} {before : Issue} : before.team ≠ team →
      Act ok db others (.holding id before (.setTeam id team)) db (some (.placing id (some before) (handed db before team)))
  | keep {id : Uuid} {before : Issue} {r : Request} : Act ok db others (.holding id before r) db none
  /-- The row is written, where the guard lets it. -/
  | place {id : Uuid} {held : Option Issue} {row : Issue} : guard db (held.bind Issue.sprint) row →
      Act ok db others (.placing id held row) db (some (.placed id held row))
  | tie {id : Uuid} {held : Option Issue} {row : Issue} :
      (∀ s ∈ joins held row, (db.sprints s).isSome ∧ Unlocked Stage.locks others (.sprint s)) →
      Act ok db others (.placed id held row) db (some (.tied id held row))
  | settle {id : Uuid} {held : Option Issue} {row : Issue} : (held = none → db.issues id = none) → ok db others (.tied id held row) →
      Act ok db others (.tied id held row) (db.withIssue id row) none
  | leave {id target : Uuid} {before : Issue} : db.issues id = some before → Free Stage.locks Stage.shares others (.issue id) →
      Act ok db others (.asked (.move id target)) db (some (.moving [(id, before)] target))
  | gather {held : List (Uuid × Issue)} {id target : Uuid} {before : Issue} : db.issues id = some before →
      Free Stage.locks Stage.shares others (.issue id) →
      Act ok db others (.moving held target) db (some (.moving (held ++ [(id, before)]) target))
  | arrive {held : List (Uuid × Issue)} {target : Uuid} (finished : Uuid → Bool) : ok db others (.moving held target) →
      Act ok db others (.moving held target) (db.moved target held finished) none
  | start {id : Uuid} {before : Sprint} : db.sprints id = some before → Free Stage.locks Stage.shares others (.sprint id) →
      before.state = .planned → Act ok db others (.asked (.start id)) db (some (.starting id before))
  | started {id : Uuid} {before : Sprint} : ok db others (.starting id before) →
      Act ok db others (.starting id before) (db.withSprint id (some { before with state := .active })) none
  | complete {id : Uuid} {moveTo : Option Uuid} {before : Sprint} : db.sprints id = some before →
      Free Stage.locks Stage.shares others (.sprint id) → before.state = .active →
      Act ok db others (.asked (.complete id moveTo)) db (some (.completing id before moveTo))
  | resolve {id : Uuid} {before : Sprint} {moveTo : Option Uuid} : resolveDestination db id before moveTo →
      Act ok db others (.completing id before moveTo) db (some (.resolved id before moveTo))
  /-- What `carryOver` finds to carry. -/
  | find {id : Uuid} {before : Sprint} {moveTo : Option Uuid} {rest : List Uuid} :
      (∀ i, i ∈ rest ↔ ∃ row, db.issues i = some row ∧ row.sprint = some id ∧ row.done = false) →
      Act ok db others (.resolved id before moveTo) db (some (.carrying id before moveTo rest []))
  /-- A row is locked and written as it is by then, where the guard lets it. -/
  | carry {id i : Uuid} {before : Sprint} {moveTo : Option Uuid} {rest : List Uuid} {done : List (Uuid × Issue)} {row : Issue} :
      db.issues i = some row → Free Stage.locks Stage.shares others (.issue i) → guard db row.sprint { row with sprint := moveTo } →
      Act ok db others (.carrying id before moveTo (i :: rest) done) db (some (.carrying id before moveTo rest (done ++ [(i, row)])))
  | share {id : Uuid} {before : Sprint} {moveTo : Option Uuid} {done : List (Uuid × Issue)} :
      (∀ s ∈ moveTo, done ≠ [] → (db.sprints s).isSome ∧ Unlocked Stage.locks others (.sprint s)) →
      Act ok db others (.carrying id before moveTo [] done) db (some (.closing id before moveTo done))
  | close {id : Uuid} {before : Sprint} {moveTo : Option Uuid} {done : List (Uuid × Issue)} :
      ok db others (.closing id before moveTo done) →
      Act ok db others (.closing id before moveTo done)
        ((db.carried moveTo done).withSprint id (some { before with state := .closed })) none
  | delete {id : Uuid} {before : Sprint} : db.sprints id = some before → Free Stage.locks Stage.shares others (.sprint id) →
      before.state = .planned → Act ok db others (.asked (.delete id)) db (some (.deleting id before))
  | findWork {id : Uuid} {before : Sprint} {rest : List Uuid} :
      (∀ i, i ∈ rest ↔ ∃ row, db.issues i = some row ∧ row.sprint = some id) →
      Act ok db others (.deleting id before) db (some (.releasing id before rest []))
  | release {id i : Uuid} {before : Sprint} {rest : List Uuid} {done : List (Uuid × Issue)} {row : Issue} : db.issues i = some row →
      Free Stage.locks Stage.shares others (.issue i) →
      Act ok db others (.releasing id before (i :: rest) done) db
        (some (.releasing id before rest (if row.sprint = some id then done ++ [(i, row)] else done)))
  | deleted {id : Uuid} {before : Sprint} {done : List (Uuid × Issue)} : ok db others (.releasing id before [] done) →
      Act ok db others (.releasing id before [] done) ((db.carried none done).withSprint id none) none

def Starts (db : Db) (_ : List Stage) (db' : Db) (p : Option Stage) : Prop := db' = db ∧ ∃ r, p = some (.asked r)

abbrev Run (ok : Db → List Stage → Stage → Prop) : Db → Interleaving.System Db Stage → Prop := Interleaving.Run Starts (Act ok)

/-! ## What holds of the sprints -/

def Planned (db : Db) : Prop := ∀ i row s, db.issues i = some row → row.sprint = some s →
  ∃ sp, db.sprints s = some sp ∧ sp.project = row.project ∧ (sp.state ≠ .closed → sp.team = row.team)

def JoinsOpen (db db' : Db) : Prop := ∀ i row' s, db'.issues i = some row' → row'.sprint = some s →
  (∀ row, db.issues i = some row → row.sprint ≠ some s) → ∃ sp, db.sprints s = some sp ∧ sp.state ≠ .closed

def Emptied (db : Db) (id : Uuid) : Prop := ∀ i row, db.issues i = some row → row.sprint = some id → row.done = true

def Stage.awaits (s : Uuid) : Stage → Prop
  | .placed _ held row => joins held row = some s
  | .carrying _ _ moveTo _ done => done ≠ [] ∧ moveTo = some s
  | _ => False

def InTime (_ : Db) (others : List Stage) : Stage → Prop
  | .closing id _ _ _ => ∀ q ∈ others, ¬ q.awaits id
  | _ => True

/-! ## What a transaction knows -/

def Suits (db : Db) (row : Issue) : Prop := ∀ s sp, row.sprint = some s → db.sprints s = some sp →
  sp.project = row.project ∧ (sp.state ≠ .closed → sp.team = row.team)

def Open (db : Db) (s : Uuid) : Prop := ∀ sp, db.sprints s = some sp → sp.state ≠ .closed

def Holds (db : Db) (id : Uuid) (held : Option Issue) (row : Issue) : Prop :=
  ∀ before ∈ held, db.issues id = some before ∧ before.done = row.done

def There (db : Db) (held : List (Uuid × Issue)) : Prop := ∀ x ∈ held, db.issues x.1 = some x.2

def Carries (db : Db) (moveTo : Option Uuid) (done : List (Uuid × Issue)) : Prop :=
  There db done ∧ ∀ x ∈ done, Suits db { x.2 with sprint := moveTo } ∧ (x.2.sprint ≠ moveTo → ∀ s ∈ moveTo, Open db s)

def Unfinished (db : Db) (id : Uuid) (ids : List Uuid) : Prop :=
  ∀ i row, db.issues i = some row → row.sprint = some id → row.done = false → i ∈ ids

def Work (db : Db) (id : Uuid) (ids : List Uuid) : Prop := ∀ i row, db.issues i = some row → row.sprint = some id → i ∈ ids

def Knows (db : Db) : Stage → Prop
  | .asked _ => True
  | .holding id before _ => db.issues id = some before
  | .placing id held row => Holds db id held row
  | .placed id held row => Holds db id held row ∧ Suits db row ∧ ∀ s, joins held row = some s → Open db s
  | .tied id held row => Holds db id held row ∧ Suits db row ∧
      ∀ s, joins held row = some s → Open db s ∧ db.sprints s ≠ none
  | .moving held _ => There db held
  | .starting id before => db.sprints id = some before ∧ before.state = .planned
  | .completing id before _ => db.sprints id = some before
  | .resolved id before moveTo => db.sprints id = some before ∧ moveTo ≠ some id
  | .carrying id before moveTo rest done => db.sprints id = some before ∧ moveTo ≠ some id ∧ Carries db moveTo done ∧
      Unfinished db id (done.map Prod.fst ++ rest)
  | .closing id before moveTo done => db.sprints id = some before ∧ moveTo ≠ some id ∧ Carries db moveTo done ∧
      Unfinished db id (done.map Prod.fst) ∧ (done ≠ [] → ∀ s ∈ moveTo, db.sprints s ≠ none)
  | .deleting id before => db.sprints id = some before
  | .releasing id before rest done => db.sprints id = some before ∧ There db done ∧ Work db id (done.map Prod.fst ++ rest)

variable {db : Db}

theorem Knows.held {q : Stage} (h : Knows db q) {x : Uuid} (hx : q.locks (.issue x)) : db.issues x ≠ none := by
  have hsome : ∀ {row : Issue}, db.issues x = some row → db.issues x ≠ none := fun hrow => by rw [hrow]; exact Option.some_ne_none _
  have hholds : ∀ {id : Uuid} {held : Option Issue} {row : Issue}, Holds db id held row → held.isSome → x = id → db.issues x ≠ none := by
    intro id held row hheld his hid
    obtain ⟨before, rfl⟩ := Option.isSome_iff_exists.1 his
    exact hid ▸ hsome (hid ▸ (hheld before rfl).1)
  have hthere : ∀ {held : List (Uuid × Issue)}, There db held → x ∈ held.map Prod.fst → db.issues x ≠ none := by
    intro held hall hin
    obtain ⟨y, hy, rfl⟩ := mem_map.1 hin
    exact hsome (hall y hy)
  cases q with
  | asked => exact hx.elim
  | holding => exact hsome (hx ▸ h)
  | placing => exact hholds h hx.1 hx.2
  | placed => exact hholds h.1 hx.1 hx.2
  | tied => exact hholds h.1 hx.1 hx.2
  | moving => exact hthere h hx
  | starting => exact hx.elim
  | completing => exact hx.elim
  | resolved => exact hx.elim
  | carrying => exact hthere h.2.2.1.1 hx
  | closing => exact hthere h.2.2.1.1 hx
  | deleting => exact hx.elim
  | releasing => exact hthere h.2.1 hx

/-- What others leave to one that runs: the rows it holds, the sprint it shares, and the work of a sprint it holds. -/
structure Frame (db db' : Db) (q : Stage) : Prop where
  issue : ∀ i, q.locks (.issue i) → db'.issues i = db.issues i
  sprint : ∀ s, q.locks (.sprint s) → db'.sprints s = db.sprints s
  shared : ∀ s, q.shares (.sprint s) → db.sprints s ≠ none → db'.sprints s ≠ none
  sprints : ∀ s sp', db'.sprints s = some sp' → ∃ sp, db.sprints s = some sp ∧ sp.project = sp'.project ∧ sp.team = sp'.team ∧
    (sp.state = .closed → sp'.state = .closed) ∧ (q.awaits s ∨ q.shares (.sprint s) → sp'.state = .closed → sp.state = .closed)
  work : ∀ s, q.locks (.sprint s) → ∀ i row', db'.issues i = some row' → row'.sprint = some s →
    ∃ row, db.issues i = some row ∧ row.sprint = some s ∧ row.done = row'.done

section
variable {db db' : Db} {q : Stage}

variable {id : Uuid}

theorem Frame.holds (f : Frame db db' q) {held : Option Issue} {row : Issue} (hlocks : held.isSome → q.locks (.issue id))
    (h : Holds db id held row) : Holds db' id held row := by
  intro before hbefore
  obtain ⟨hrow, hdone⟩ := h before hbefore
  exact ⟨(f.issue id (hlocks (by rw [hbefore]; rfl))).trans hrow, hdone⟩

theorem Frame.there (f : Frame db db' q) {held : List (Uuid × Issue)} (hlocks : ∀ x ∈ held.map Prod.fst, q.locks (.issue x))
    (h : There db held) : There db' held := fun x hx => (f.issue x.1 (hlocks x.1 (mem_map_of_mem hx))).trans (h x hx)

theorem Frame.suits (f : Frame db db' q) {row : Issue} (h : Suits db row) : Suits db' row := by
  intro s sp' hrow hs
  obtain ⟨sp, hsp, hproject, hteam, hclosed, _⟩ := f.sprints s sp' hs
  obtain ⟨hproject', hteam'⟩ := h s sp hrow hsp
  exact ⟨hproject.symm.trans hproject', fun hopen => hteam.symm.trans (hteam' fun hc => hopen (hclosed hc))⟩

theorem Frame.opened (f : Frame db db' q) {s : Uuid} (hs : q.awaits s ∨ q.shares (.sprint s)) (h : Open db s) : Open db' s := by
  intro sp' hsp' hclosed
  obtain ⟨sp, hsp, _, _, _, hwas⟩ := f.sprints s sp' hsp'
  exact h sp hsp (hwas hs hclosed)

theorem Frame.carries (f : Frame db db' q) {moveTo : Option Uuid} {done : List (Uuid × Issue)}
    (hlocks : ∀ x ∈ done.map Prod.fst, q.locks (.issue x))
    (hs : done ≠ [] → ∀ s, moveTo = some s → q.awaits s ∨ q.shares (.sprint s)) (h : Carries db moveTo done) : Carries db' moveTo done := by
  refine ⟨f.there hlocks h.1, fun x hx => ?_⟩
  obtain ⟨hsuits, hopen⟩ := h.2 x hx
  exact ⟨f.suits hsuits, fun hne s hs' => f.opened (hs (ne_nil_of_mem hx) s hs') (hopen hne s hs')⟩

theorem Frame.unfinished (f : Frame db db' q) {ids : List Uuid} (hlocks : q.locks (.sprint id))
    (h : Unfinished db id ids) :
    Unfinished db' id ids := by
  intro i row' hi hsprint hdone
  obtain ⟨row, hrow, hrowsprint, hrowdone⟩ := f.work id hlocks i row' hi hsprint
  exact h i row hrow hrowsprint (hrowdone.trans hdone)

theorem Frame.workOf (f : Frame db db' q) {ids : List Uuid} (hlocks : q.locks (.sprint id)) (h : Work db id ids) :
    Work db' id ids := by
  intro i row' hi hsprint
  obtain ⟨row, hrow, hrowsprint, _⟩ := f.work id hlocks i row' hi hsprint
  exact h i row hrow hrowsprint

theorem Knows.stable (f : Frame db db' q) (h : Knows db q) : Knows db' q := by
  cases q with
  | asked => trivial
  | holding id before r => exact (f.issue id rfl).trans h
  | placing => exact f.holds (fun hheld => ⟨hheld, rfl⟩) h
  | placed =>
    obtain ⟨hholds, hsuits, hopen⟩ := h
    exact ⟨f.holds (fun hheld => ⟨hheld, rfl⟩) hholds, f.suits hsuits, fun s hs => f.opened (.inl hs) (hopen s hs)⟩
  | tied =>
    obtain ⟨hholds, hsuits, hopen⟩ := h
    exact ⟨f.holds (fun hheld => ⟨hheld, rfl⟩) hholds, f.suits hsuits,
      fun s hs => ⟨f.opened (.inr hs) (hopen s hs).1, f.shared s hs (hopen s hs).2⟩⟩
  | moving => exact f.there (fun x hx => hx) h
  | starting id before => exact ⟨(f.sprint id rfl).trans h.1, h.2⟩
  | completing id before moveTo => exact (f.sprint id rfl).trans h
  | resolved id before moveTo => exact ⟨(f.sprint id rfl).trans h.1, h.2⟩
  | carrying id before moveTo rest done =>
    obtain ⟨hsprint, hne, hcarries, hwork⟩ := h
    exact ⟨(f.sprint id rfl).trans hsprint, hne, f.carries (fun x hx => hx) (fun hsome s hs => .inl ⟨hsome, hs⟩) hcarries,
      f.unfinished rfl hwork⟩
  | closing id before moveTo done =>
    obtain ⟨hsprint, hne, hcarries, hwork, hthere⟩ := h
    exact ⟨(f.sprint id rfl).trans hsprint, hne, f.carries (fun x hx => hx) (fun hsome s hs => .inr ⟨hsome, hs⟩) hcarries,
      f.unfinished rfl hwork, fun hsome s hs => f.shared s ⟨hsome, hs⟩ (hthere hsome s hs)⟩
  | deleting id before => exact (f.sprint id rfl).trans h
  | releasing id before rest done =>
    obtain ⟨hsprint, hthere, hwork⟩ := h
    exact ⟨(f.sprint id rfl).trans hsprint, f.there (fun x hx => hx) hthere, f.workOf rfl hwork⟩

end

/-! ## Commits -/

section
variable {db : Db}

theorem withIssue_self (id : Uuid) (row : Issue) : (db.withIssue id row).issues id = some row := Function.update_self ..

variable {id i target : Uuid} {row : Issue} {moveTo : Option Uuid} {done : List (Uuid × Issue)} {before : Sprint}

theorem withIssue_of_ne (h : i ≠ id) : (db.withIssue id row).issues i = db.issues i :=
  Function.update_of_ne h ..

theorem withSprint_self (id : Uuid) (sp : Option Sprint) : (db.withSprint id sp).sprints id = sp := Function.update_self ..

theorem withSprint_of_ne {s : Uuid} {sp : Option Sprint} (h : s ≠ id) : (db.withSprint id sp).sprints s = db.sprints s :=
  Function.update_of_ne h ..

theorem carried_cases (hthere : There db done) {row' : Issue}
    (h : (db.carried moveTo done).issues i = some row') :
    (∃ x ∈ done, x.1 = i ∧ row' = { x.2 with sprint := moveTo }) ∨ i ∉ done.map Prod.fst ∧ db.issues i = some row' := by
  unfold Db.carried at h
  dsimp only at h
  split at h
  · rename_i hin
    obtain ⟨x, hx, rfl⟩ := mem_map.1 hin
    rw [hthere x hx] at h
    exact .inl ⟨x, hx, rfl, (Option.some.inj h).symm⟩
  · rename_i hin
    exact .inr ⟨hin, h⟩

theorem moved_cases {held : List (Uuid × Issue)} {finished : Uuid → Bool} {row' : Issue}
    (h : (db.moved target held finished).issues i = some row') :
    row'.sprint = none ∨ i ∉ held.map Prod.fst ∧ db.issues i = some row' := by
  unfold Db.moved at h
  dsimp only at h
  split at h
  · obtain ⟨_, _, rfl⟩ := Option.map_eq_some_iff.1 h
    exact .inl rfl
  · rename_i hin
    exact .inr ⟨hin, h⟩

theorem joined_or_was {held : Option Issue} {s : Uuid} (hrow : row.sprint = some s)
    (hholds : Holds db id held row) : joins held row = some s ∨
      ∃ before, held = some before ∧ db.issues id = some before ∧ before.sprint = some s ∧ before.done = row.done := by
  unfold joins
  split
  · rename_i hsame
    rw [hrow] at hsame
    obtain ⟨before, hheld, hsprint⟩ := Option.bind_eq_some_iff.1 hsame
    obtain ⟨hbefore, hdone⟩ := hholds before hheld
    exact .inr ⟨before, hheld, hbefore, hsprint, hdone⟩
  · exact .inl hrow

theorem settle_planned {held : Option Issue} (hi : Planned db) (hl : Knows db (.tied id held row)) :
    Planned (db.withIssue id row) ∧ JoinsOpen db (db.withIssue id row) := by
  obtain ⟨hholds, hsuits, hopen⟩ := hl
  constructor
  · intro i row' s hrow' hs
    by_cases hid : i = id
    · subst hid
      rw [withIssue_self] at hrow'
      cases hrow'
      have hsome : ∃ sp, db.sprints s = some sp := by
        rcases joined_or_was hs hholds with hjoins | ⟨before, _, hbefore, hsprint, _⟩
        · exact Option.ne_none_iff_exists'.1 (hopen s hjoins).2
        · obtain ⟨sp, hsp, _⟩ := hi i before s hbefore hsprint
          exact ⟨sp, hsp⟩
      obtain ⟨sp, hsp⟩ := hsome
      exact ⟨sp, hsp, hsuits s sp hs hsp⟩
    · rw [withIssue_of_ne hid] at hrow'
      exact hi i row' s hrow' hs
  · intro i row' s hrow' hs hnot
    by_cases hid : i = id
    · subst hid
      rw [withIssue_self] at hrow'
      cases hrow'
      rcases joined_or_was hs hholds with hjoins | ⟨before, _, hbefore, hsprint, _⟩
      · obtain ⟨sp, hsp⟩ := Option.ne_none_iff_exists'.1 (hopen s hjoins).2
        exact ⟨sp, hsp, (hopen s hjoins).1 sp hsp⟩
      · exact absurd hsprint (hnot before hbefore)
    · rw [withIssue_of_ne hid] at hrow'
      exact absurd hs (hnot row' hrow')

theorem arrive_planned {held : List (Uuid × Issue)} (finished : Uuid → Bool) (hi : Planned db) :
    Planned (db.moved target held finished) ∧ JoinsOpen db (db.moved target held finished) := by
  constructor
  · intro i row' s hrow' hs
    rcases moved_cases hrow' with hnone | ⟨_, hsame⟩
    · rw [hnone] at hs
      cases hs
    · exact hi i row' s hsame hs
  · intro i row' s hrow' hs hnot
    rcases moved_cases hrow' with hnone | ⟨_, hsame⟩
    · rw [hnone] at hs
      cases hs
    · exact absurd hs (hnot row' hsame)

theorem started_planned (hi : Planned db) (hl : Knows db (.starting id before)) :
    Planned (db.withSprint id (some { before with state := .active })) ∧
      JoinsOpen db (db.withSprint id (some { before with state := .active })) := by
  refine ⟨fun i row s hrow hs => ?_, fun i row s hrow hs hnot => absurd hs (hnot row hrow)⟩
  obtain ⟨sp, hsp, hproject, hteam⟩ := hi i row s hrow hs
  by_cases hid : s = id
  · subst hid
    obtain ⟨hbefore, hplanned⟩ := hl
    rw [hbefore] at hsp
    cases hsp
    exact ⟨_, withSprint_self .., hproject, fun _ => hteam (by rw [hplanned]; exact SprintState.noConfusion)⟩
  · exact ⟨sp, by rw [withSprint_of_ne hid]; exact hsp, hproject, hteam⟩

theorem close_planned (hi : Planned db)
    (hl : Knows db (.closing id before moveTo done)) :
    Planned ((db.carried moveTo done).withSprint id (some { before with state := .closed })) ∧
      JoinsOpen db ((db.carried moveTo done).withSprint id (some { before with state := .closed })) ∧
      Emptied ((db.carried moveTo done).withSprint id (some { before with state := .closed })) id := by
  obtain ⟨hbefore, hne, ⟨hthere, hcarries⟩, hwork, hsome⟩ := hl
  refine ⟨fun i row' s hrow' hs => ?_, fun i row' s hrow' hs hnot => ?_, fun i row' hrow' hs => ?_⟩
  · rcases carried_cases hthere hrow' with ⟨x, hx, _, rfl⟩ | ⟨_, hsame⟩
    · have hs : moveTo = some s := hs
      have hsid : s ≠ id := fun he => hne (he ▸ hs)
      obtain ⟨sp, hsp⟩ := Option.ne_none_iff_exists'.1 (hsome (ne_nil_of_mem hx) s hs)
      exact ⟨sp, by rw [withSprint_of_ne hsid]; exact hsp, (hcarries x hx).1 s sp hs hsp⟩
    · obtain ⟨sp, hsp, hproject, hteam⟩ := hi i row' s hsame hs
      by_cases hid : s = id
      · subst hid
        rw [hbefore] at hsp
        cases hsp
        exact ⟨_, withSprint_self .., hproject, fun hopen => absurd rfl hopen⟩
      · exact ⟨sp, by rw [withSprint_of_ne hid]; exact hsp, hproject, hteam⟩
  · rcases carried_cases hthere hrow' with ⟨x, hx, rfl, rfl⟩ | ⟨_, hsame⟩
    · have hs : moveTo = some s := hs
      have hnew : x.2.sprint ≠ moveTo := fun he => hnot x.2 (hthere x hx) (he.trans hs)
      obtain ⟨sp, hsp⟩ := Option.ne_none_iff_exists'.1 (hsome (ne_nil_of_mem hx) s hs)
      exact ⟨sp, hsp, (hcarries x hx).2 hnew s hs sp hsp⟩
    · exact absurd hs (hnot row' hsame)
  · rcases carried_cases hthere hrow' with ⟨x, hx, _, rfl⟩ | ⟨hnotin, hsame⟩
    · exact absurd hs hne
    · cases hdone : row'.done with
      | true => rfl
      | false => exact absurd (hwork i row' hsame hs hdone) hnotin

theorem deleted_planned (hi : Planned db)
    (hl : Knows db (.releasing id before [] done)) :
    Planned ((db.carried none done).withSprint id none) ∧ JoinsOpen db ((db.carried none done).withSprint id none) := by
  obtain ⟨_, hthere, hwork⟩ := hl
  rw [append_nil] at hwork
  constructor
  · intro i row' s hrow' hs
    rcases carried_cases hthere hrow' with ⟨x, hx, _, rfl⟩ | ⟨hnotin, hsame⟩
    · cases hs
    · have hsid : s ≠ id := fun he => hnotin (hwork i row' hsame (he ▸ hs))
      obtain ⟨sp, hsp, hrest⟩ := hi i row' s hsame hs
      exact ⟨sp, by rw [withSprint_of_ne hsid]; exact hsp, hrest⟩
  · intro i row' s hrow' hs hnot
    rcases carried_cases hthere hrow' with ⟨x, hx, _, rfl⟩ | ⟨_, hsame⟩
    · cases hs
    · exact absurd hs (hnot row' hsame)

/-! ## What a commit leaves to the others -/

variable {q : Stage}

theorem settle_frame {held : Option Issue} (hl : Knows db (.tied id held row)) (hq : Knows db q)
    (hnew : held = none → db.issues id = none) (hc : Compatible Stage.locks Stage.shares (.tied id held row) q) :
    Frame db (db.withIssue id row) q where
  issue i hi := by
    refine withIssue_of_ne fun he => ?_
    subst he
    cases hheld : held with
    | none => exact hq.held hi (hnew hheld)
    | some => exact (hc.1 (.issue i) ⟨by rw [hheld]; rfl, rfl⟩).1 hi
  sprint _ _ := rfl
  shared _ _ h := h
  sprints s sp' h := ⟨sp', h, rfl, rfl, fun hclosed => hclosed, fun _ hclosed => hclosed⟩
  work s hs i row' hrow' hsprint := by
    by_cases hid : i = id
    · subst hid
      rw [withIssue_self] at hrow'
      cases hrow'
      rcases joined_or_was hsprint hl.1 with hjoins | ⟨before, _, hbefore, hwas, hdone⟩
      · exact absurd hjoins (hc.2 (.sprint s) hs)
      · exact ⟨before, hbefore, hwas, hdone⟩
    · rw [withIssue_of_ne hid] at hrow'
      exact ⟨row', hrow', hsprint, rfl⟩

theorem arrive_frame {held : List (Uuid × Issue)} (finished : Uuid → Bool)
    (hc : Compatible Stage.locks Stage.shares (.moving held target) q) : Frame db (db.moved target held finished) q where
  issue i hi := if_neg fun hin => (hc.1 (.issue i) hin).1 hi
  sprint _ _ := rfl
  shared _ _ h := h
  sprints s sp' h := ⟨sp', h, rfl, rfl, fun hclosed => hclosed, fun _ hclosed => hclosed⟩
  work s _ i row' hrow' hsprint := by
    rcases moved_cases hrow' with hnone | ⟨_, hsame⟩
    · rw [hnone] at hsprint
      cases hsprint
    · exact ⟨row', hsame, hsprint, rfl⟩

theorem started_frame (hl : Knows db (.starting id before))
    (hc : Compatible Stage.locks Stage.shares (.starting id before) q) :
    Frame db (db.withSprint id (some { before with state := .active })) q where
  issue _ _ := rfl
  sprint s hs := withSprint_of_ne fun he : s = id => (hc.1 (.sprint id) rfl).1 (he ▸ hs)
  shared s hs h := by
    rw [withSprint_of_ne fun he : s = id => (hc.1 (.sprint id) rfl).2 (he ▸ hs)]
    exact h
  sprints s sp' h := by
    by_cases hid : s = id
    · subst hid
      rw [withSprint_self] at h
      cases h
      refine ⟨before, hl.1, rfl, rfl, fun hclosed => ?_, fun _ hclosed => by cases hclosed⟩
      rw [hl.2] at hclosed
      cases hclosed
    · rw [withSprint_of_ne hid] at h
      exact ⟨sp', h, rfl, rfl, fun hclosed => hclosed, fun _ hclosed => hclosed⟩
  work _ _ i row' hrow' hsprint := ⟨row', hrow', hsprint, rfl⟩

theorem close_frame
    (hl : Knows db (.closing id before moveTo done)) (hc : Compatible Stage.locks Stage.shares (.closing id before moveTo done) q)
    (hawaits : ¬ q.awaits id) : Frame db ((db.carried moveTo done).withSprint id (some { before with state := .closed })) q where
  issue i hi := if_neg fun hin => (hc.1 (.issue i) hin).1 hi
  sprint s hs := withSprint_of_ne fun he : s = id => (hc.1 (.sprint id) rfl).1 (he ▸ hs)
  shared s hs h := by
    rw [withSprint_of_ne fun he : s = id => (hc.1 (.sprint id) rfl).2 (he ▸ hs)]
    exact h
  sprints s sp' h := by
    by_cases hid : s = id
    · subst hid
      rw [withSprint_self] at h
      cases h
      refine ⟨before, hl.1, rfl, rfl, fun _ => rfl, fun hjoins _ => ?_⟩
      exact (hjoins.elim hawaits (hc.1 (.sprint s) rfl).2).elim
    · rw [withSprint_of_ne hid] at h
      exact ⟨sp', h, rfl, rfl, fun hclosed => hclosed, fun _ hclosed => hclosed⟩
  work s hs i row' hrow' hsprint := by
    rcases carried_cases hl.2.2.1.1 hrow' with ⟨x, hx, _, rfl⟩ | ⟨_, hsame⟩
    · exact absurd ⟨ne_nil_of_mem hx, hsprint⟩ (hc.2 (.sprint s) hs)
    · exact ⟨row', hsame, hsprint, rfl⟩

theorem deleted_frame (hl : Knows db (.releasing id before [] done))
    (hc : Compatible Stage.locks Stage.shares (.releasing id before [] done) q) :
    Frame db ((db.carried none done).withSprint id none) q where
  issue i hi := if_neg fun hin => (hc.1 (.issue i) hin).1 hi
  sprint s hs := withSprint_of_ne fun he : s = id => (hc.1 (.sprint id) rfl).1 (he ▸ hs)
  shared s hs h := by
    rw [withSprint_of_ne fun he : s = id => (hc.1 (.sprint id) rfl).2 (he ▸ hs)]
    exact h
  sprints s sp' h := by
    by_cases hid : s = id
    · subst hid
      rw [withSprint_self] at h
      cases h
    · rw [withSprint_of_ne hid] at h
      exact ⟨sp', h, rfl, rfl, fun hclosed => hclosed, fun _ hclosed => hclosed⟩
  work s _ i row' hrow' hsprint := by
    rcases carried_cases hl.2.1 hrow' with ⟨x, hx, _, rfl⟩ | ⟨_, hsame⟩
    · cases hsprint
    · exact ⟨row', hsame, hsprint, rfl⟩

end

/-! ## Runs -/

def Beside (db : Db) (others : List Stage) (p : Stage) : Prop := ∀ q ∈ others, Knows db q ∧ Compatible Stage.locks Stage.shares p q

structure Kept (db : Db) (others : List Stage) (p : Stage) (db' : Db) (p' : Option Stage) : Prop where
  planned : Planned db'
  joinsOpen : JoinsOpen db db'
  emptied : ∀ id before moveTo done, p = .closing id before moveTo done → Emptied db' id
  know : ∀ q ∈ others, Knows db' q
  next : ∀ q ∈ p', Knows db' q ∧ ∀ t ∈ others, Compatible Stage.locks Stage.shares q t

def Keeps (p : Stage) : Prop := ∀ {db db' : Db} {others : List Stage} {p' : Option Stage}, Planned db → Knows db p →
  Beside db others p → Act InTime db others p db' p' → Kept db others p db' p'

theorem guard_suits {held : Option Issue} {row : Issue} (h : guard db (held.bind Issue.sprint) row = true) :
    Suits db row ∧ ∀ s, joins held row = some s → Open db s := by
  unfold guard at h
  split at h
  · rename_i hnone
    refine ⟨fun s sp hs => ?_, fun s hs => ?_⟩
    · rw [hnone] at hs
      cases hs
    · unfold joins at hs
      split at hs
      · cases hs
      · rw [hnone] at hs
        cases hs
  · rename_i id hid
    obtain ⟨sp, hsp, hguard⟩ := (Option.any_eq_true _ _).1 h
    obtain ⟨hproject, hclosed, hteam⟩ := of_decide_eq_true hguard
    refine ⟨fun s sp' hs hsp' => ?_, fun s hs sp' hsp' hstate => ?_⟩
    · rw [hid] at hs
      cases hs
      rw [hsp] at hsp'
      cases hsp'
      exact ⟨hproject, hteam⟩
    · unfold joins at hs
      split at hs
      · cases hs
      · rename_i hchanged
        obtain rfl : id = s := Option.some.inj (hid.symm.trans hs)
        rw [hsp] at hsp'
        cases hsp'
        exact hclosed ⟨hstate, fun hwas => hchanged (hwas.trans hid.symm)⟩

theorem There.more {held : List (Uuid × Issue)} {id : Uuid} {row : Issue} (h : There db held)
    (hrow : db.issues id = some row) : There db (held ++ [(id, row)]) := by
  intro x hx
  rcases mem_append.1 hx with hx | hx
  · exact h x hx
  · rw [mem_singleton.1 hx]
    exact hrow

theorem mem_more {held : List (Uuid × Issue)} {id x : Uuid} {row : Issue} (hx : x ∈ (held ++ [(id, row)]).map Prod.fst) :
    x ∈ held.map Prod.fst ∨ x = id := by
  rw [map_append] at hx
  exact (mem_append.1 hx).imp_right mem_singleton.1

section
variable {db db' : Db} {others : List Stage} {p : Stage} {p' : Option Stage}

theorem kept_stays {q : Stage} (hi : Planned db) (hothers : Beside db others p)
    (hnot : ∀ id before moveTo done, p ≠ .closing id before moveTo done) (hq : Knows db q)
    (hlocks : ∀ r, q.locks r → p.locks r ∨ Free Stage.locks Stage.shares others r)
    (hshares : ∀ r, q.shares r → (p.locks r ∨ p.shares r) ∨ Unlocked Stage.locks others r) : Kept db others p db (some q) := by
  refine ⟨hi, fun i row s hrow hs hne => absurd hs (hne row hrow), fun id before moveTo done he => absurd he (hnot id before moveTo done),
    fun t ht => (hothers t ht).1, fun q' hq' => ?_⟩
  cases hq'
  exact ⟨hq, Interleaving.compatible_after (fun t ht => (hothers t ht).2) hlocks hshares⟩

theorem kept_ends (hothers : Beside db others p)
    (hnot : ∀ id before moveTo done, p ≠ .closing id before moveTo done) (hdb' : Planned db' ∧ JoinsOpen db db')
    (hframe : ∀ q ∈ others, Frame db db' q) : Kept db others p db' none :=
  ⟨hdb'.1, hdb'.2, fun id before moveTo done he => absurd he (hnot id before moveTo done),
    fun q hq => (hothers q hq).1.stable (hframe q hq), fun q hq => by cases hq⟩

variable {r : Request} {id : Uuid} {before : Sprint} {moveTo : Option Uuid} {done : List (Uuid × Issue)}

theorem asked_holds {q : Stage} {row : Row} (hi : Planned db)
    (hothers : Beside db others (.asked r)) (hq : Knows db q)
    (hfree : Free Stage.locks Stage.shares others row) (hlocks : ∀ x, q.locks x → x = row) (hshares : ∀ x, ¬ q.shares x) :
    Kept db others (.asked r) db (some q) :=
  kept_stays hi hothers nofun hq (fun x hx => .inr (hlocks x hx ▸ hfree)) fun x hx => absurd hx (hshares x)

theorem asked_keeps : Keeps (.asked r) := by
  intro db db' others p' hi _ hothers ha
  cases ha with
  | create =>
    refine kept_stays hi hothers nofun (fun before hbefore => by cases hbefore) (fun r hr => ?_) nofun
    · cases r with
      | issue => exact absurd hr.1 Bool.false_ne_true
      | sprint => exact hr.elim
  | holdSprint hrow hfree =>
    refine asked_holds hi hothers hrow hfree (fun x hx => ?_) nofun
    · cases x <;> cases hx
      rfl
  | holdTeam hrow hfree =>
    refine asked_holds hi hothers hrow hfree (fun x hx => ?_) nofun
    · cases x <;> cases hx
      rfl
  | leave hrow hfree =>
    refine asked_holds hi hothers (fun x hx => ?_) hfree (fun x hx => ?_) nofun
    · rw [mem_singleton.1 hx]
      exact hrow
    · cases x with
      | issue => exact congrArg Row.issue (mem_singleton.1 hx)
      | sprint => exact hx.elim
  | start hrow hfree hstate =>
    refine asked_holds hi hothers ⟨hrow, hstate⟩ hfree (fun x hx => ?_) nofun
    · cases x <;> cases hx
      rfl
  | complete hrow hfree hstate =>
    refine asked_holds hi hothers hrow hfree (fun x hx => ?_) nofun
    · cases x <;> cases hx
      rfl
  | delete hrow hfree hstate =>
    refine asked_holds hi hothers hrow hfree (fun x hx => ?_) nofun
    · cases x <;> cases hx
      rfl

/-! ### One row -/

theorem holding_keeps {before : Issue} : Keeps (.holding id before r) := by
  intro db db' others p' hi hl hothers ha
  cases ha with
  | setSprint =>
    refine kept_stays hi hothers nofun (fun b hb => ?_) (fun r hr => ?_) nofun
    · cases hb
      exact ⟨hl, rfl⟩
    · cases r with
      | issue => exact .inl hr.2
      | sprint => exact hr.elim
  | setTeam =>
    refine kept_stays hi hothers nofun (fun b hb => ?_) (fun r hr => ?_) nofun
    · cases hb
      exact ⟨hl, rfl⟩
    · cases r with
      | issue => exact .inl hr.2
      | sprint => exact hr.elim
  | keep =>
    exact ⟨hi, fun i row s hrow hs hne => absurd hs (hne row hrow), (fun _ _ _ _ h => by cases h), fun q hq => (hothers q hq).1,
      fun q hq => by cases hq⟩

theorem placing_keeps {held : Option Issue} {row : Issue} : Keeps (.placing id held row) := by
  intro db db' others p' hi hl hothers ha
  cases ha with
  | place hguard =>
    refine kept_stays hi hothers nofun ⟨hl, guard_suits hguard⟩ (fun r hr => ?_) nofun
    · cases r <;> exact .inl hr

theorem placed_keeps {held : Option Issue} {row : Issue} : Keeps (.placed id held row) := by
  intro db db' others p' hi hl hothers ha
  obtain ⟨hholds, hsuits, hopen⟩ := hl
  cases ha with
  | tie hshare =>
    have hthere : ∀ s, joins held row = some s → db.sprints s ≠ none := fun s hs => Option.isSome_iff_ne_none.1 (hshare s hs).1
    refine kept_stays hi hothers nofun ⟨hholds, hsuits, fun s hs => ⟨hopen s hs, hthere s hs⟩⟩
      (fun r hr => ?_) fun r hr => ?_
    · cases r <;> exact .inl hr
    · cases r with
      | issue => exact hr.elim
      | sprint x => exact .inr (hshare x hr).2

theorem moving_keeps {held : List (Uuid × Issue)} {target : Uuid} : Keeps (.moving held target) := by
  intro db db' others p' hi hl hothers ha
  cases ha with
  | gather hrow hfree =>
    refine kept_stays hi hothers nofun (There.more hl hrow) (fun r hr => ?_) nofun
    · cases r with
      | issue =>
        rcases mem_more hr with hx | rfl
        · exact .inl hx
        · exact .inr hfree
      | sprint => exact hr.elim
  | arrive finished hok =>
    exact kept_ends hothers nofun (arrive_planned finished hi) fun q hq =>
      arrive_frame finished (hothers q hq).2

/-! ### A sprint's work -/

theorem completing_keeps : Keeps (.completing id before moveTo) := by
  intro db db' others p' hi hl hothers ha
  cases ha with
  | resolve hdestination =>
    have hne : moveTo ≠ some id := by
      rintro rfl
      have hdestination := (Bool.and_eq_true_iff.1 hdestination).1
      exact of_decide_eq_true hdestination rfl
    refine kept_stays hi hothers nofun ⟨hl, hne⟩ (fun r hr => ?_) nofun
    · cases r <;> exact .inl hr

theorem resolved_keeps : Keeps (.resolved id before moveTo) := by
  intro db db' others p' hi hl hothers ha
  cases ha with
  | find hrest =>
    refine kept_stays hi hothers nofun ⟨hl.1, hl.2, ⟨nofun,
      nofun⟩, fun i row hrow hs hdone => (hrest i).2 ⟨row, hrow, hs, hdone⟩⟩ (fun r hr => ?_) nofun
    · cases r with
      | issue => exact absurd hr not_mem_nil
      | sprint => exact .inl hr

theorem carrying_keeps {rest : List Uuid} : Keeps (.carrying id before moveTo rest done) := by
  intro db db' others p' hi hl hothers ha
  obtain ⟨hsprint, hne, hcarries, hwork⟩ := hl
  cases ha with
  | @carry _ i _ _ rest _ row hrow hfree hguard =>
    have hsuits := @guard_suits db (some row) _ hguard
    refine kept_stays hi hothers nofun ⟨hsprint, hne, ⟨There.more hcarries.1 hrow, fun x hx => ?_⟩, ?_⟩
      (fun r hr => ?_) nofun
    · rcases mem_append.1 hx with hx | hx
      · exact hcarries.2 x hx
      · rw [mem_singleton.1 hx]
        exact ⟨hsuits.1, fun hchanged s hs => hsuits.2 s ((if_neg hchanged).trans hs)⟩
    · rw [map_append, append_assoc]
      exact hwork
    · cases r with
      | issue =>
        rcases mem_more hr with hx | rfl
        · exact .inl hx
        · exact .inr hfree
      | sprint => exact .inl hr
  | share hshare =>
    rw [append_nil] at hwork
    refine kept_stays hi hothers nofun
      ⟨hsprint, hne, hcarries, hwork, fun hsome s hs => Option.isSome_iff_ne_none.1 (hshare s hs hsome).1⟩ (fun r hr => ?_) fun r hr => ?_
    · cases r <;> exact .inl hr
    · cases r with
      | issue => exact hr.elim
      | sprint x => exact .inr (hshare x hr.2 hr.1).2

theorem closing_keeps : Keeps (.closing id before moveTo done) := by
  intro db db' others p' hi hl hothers ha
  cases ha with
  | close hok =>
    obtain ⟨hplanned, hjoins, hemptied⟩ := close_planned hi hl
    refine ⟨hplanned, hjoins, fun id' before' moveTo' done' he => ?_, fun q hq => ?_, fun q hq => by cases hq⟩
    · cases he
      exact hemptied
    · exact (hothers q hq).1.stable (close_frame hl (hothers q hq).2 (hok q hq))

theorem deleting_keeps : Keeps (.deleting id before) := by
  intro db db' others p' hi hl hothers ha
  cases ha with
  | findWork hrest =>
    refine kept_stays hi hothers nofun ⟨hl, nofun,
      fun i row hrow hs => (hrest i).2 ⟨row, hrow, hs⟩⟩ (fun r hr => ?_) nofun
    · cases r with
      | issue => exact absurd hr not_mem_nil
      | sprint => exact .inl hr

theorem releasing_keeps {rest : List Uuid} : Keeps (.releasing id before rest done) := by
  intro db db' others p' hi hl hothers ha
  have ⟨hsprint, hthere, hwork⟩ := hl
  cases ha with
  | @release _ i _ rest _ row hrow hfree =>
    by_cases hin : row.sprint = some id
    · rw [if_pos hin]
      refine kept_stays hi hothers nofun ⟨hsprint, There.more hthere hrow, ?_⟩ (fun r hr => ?_) nofun
      · rw [map_append, append_assoc]
        exact hwork
      · cases r with
        | issue =>
          rcases mem_more hr with hx | rfl
          · exact .inl hx
          · exact .inr hfree
        | sprint => exact .inl hr
    · rw [if_neg hin]
      refine kept_stays hi hothers nofun ⟨hsprint, hthere, fun j row' hrow' hs => ?_⟩
        (fun r hr => ?_) nofun
      · rcases mem_append.1 (hwork j row' hrow' hs) with hj | hj
        · exact mem_append_left _ hj
        · rcases mem_cons.1 hj with rfl | hj
          · rw [hrow] at hrow'
            cases hrow'
            exact absurd hs hin
          · exact mem_append_right _ hj
      · cases r <;> exact .inl hr
  | deleted =>
    exact kept_ends hothers nofun (deleted_planned hi hl) fun q hq => deleted_frame hl (hothers q hq).2

theorem act_keeps (hi : Planned db) (hl : Knows db p) (hothers : Beside db others p)
    (ha : Act InTime db others p db' p') : Kept db others p db' p' := by
  cases p with
  | asked => exact asked_keeps hi hl hothers ha
  | holding => exact holding_keeps hi hl hothers ha
  | placing => exact placing_keeps hi hl hothers ha
  | placed => exact placed_keeps hi hl hothers ha
  | tied =>
    cases ha with
    | settle hnew hok =>
      exact kept_ends hothers nofun (settle_planned hi hl) fun q hq =>
        settle_frame hl (hothers q hq).1 hnew (hothers q hq).2
  | moving => exact moving_keeps hi hl hothers ha
  | starting =>
    cases ha with
    | started =>
      exact kept_ends hothers nofun (started_planned hi hl) fun q hq => started_frame hl (hothers q hq).2
  | completing => exact completing_keeps hi hl hothers ha
  | resolved => exact resolved_keeps hi hl hothers ha
  | carrying => exact carrying_keeps hi hl hothers ha
  | closing => exact closing_keeps hi hl hothers ha
  | deleting => exact deleting_keeps hi hl hothers ha
  | releasing => exact releasing_keeps hi hl hothers ha

end

theorem run_knows {db₀ : Db} (h₀ : Planned db₀) {sys : Interleaving.System Db Stage} (h : Run InTime db₀ sys) :
    Planned sys.shared ∧ (∀ p ∈ sys.running, Knows sys.shared p) ∧ sys.running.Pairwise (Compatible Stage.locks Stage.shares) := by
  refine Interleaving.Run.beside (I := Planned) (L := Knows) (B := Compatible Stage.locks Stage.shares) (fun p q h => h.symm)
    (fun db running db' p hi hl hs => ?_) (fun db others p db' p' hi hl hothers ha => ?_) h₀ h
  · obtain ⟨rfl, r, rfl⟩ := hs
    refine ⟨hi, hl, fun q hq => ?_⟩
    cases hq
    refine ⟨trivial, fun t _ => ⟨fun x hx => ?_, fun x _ hx => ?_⟩⟩
    · cases x <;> exact hx.elim
    · cases x <;> exact hx.elim
  · have hkept := act_keeps hi hl hothers ha
    exact ⟨hkept.planned, hkept.know, hkept.next⟩

/-- **An open sprint holds its own team's work, a closed one takes none, and completing one leaves no unfinished work in it**,
where no sprint closes while somebody waits to join it. -/
theorem sprints_kept {db₀ : Db} (h₀ : Planned db₀) {running : List Stage} (h : Run InTime db₀ ⟨db, running⟩) :
    (∀ i row s, db.issues i = some row → row.sprint = some s →
      ∃ sp, db.sprints s = some sp ∧ sp.project = row.project ∧ (sp.state ≠ .closed → sp.team = row.team)) ∧
    ∀ l p r db' p', running = l ++ p :: r → Act InTime db (l ++ r) p db' p' →
      (∀ i row' s, db'.issues i = some row' → row'.sprint = some s → (∀ row, db.issues i = some row → row.sprint ≠ some s) →
        ∃ sp, db.sprints s = some sp ∧ sp.state ≠ .closed) ∧
      ∀ id before moveTo done, p = .closing id before moveTo done →
        ∀ i row', db'.issues i = some row' → row'.sprint = some id → row'.done = true := by
  obtain ⟨hi, hknows, hpairwise⟩ := run_knows h₀ h
  refine ⟨hi, fun l p r db' p' hrunning ha => ?_⟩
  subst hrunning
  have hcompatible := pairwise_cons.1 ((pairwise_middle fun {a b} h => Compatible.symm h).1 hpairwise)
  have hkept := act_keeps hi (hknows p (mem_append_right _ mem_cons_self))
    (fun q hq => ⟨hknows q (Interleaving.mem_between hq), hcompatible.1 q hq⟩) ha
  exact ⟨hkept.joinsOpen, hkept.emptied⟩

/-! ## A sprint that closes while an issue joins it -/

def running : Sprint := ⟨1, none, .active⟩

def began : Db := ⟨fun _ => none, Function.update (fun _ => none) 1 (some running)⟩

def joiner : Issue := ⟨1, none, some 1, false⟩

theorem began_planned : Planned began := fun _ _ _ h => by cases h

theorem began_empty (ids : List Uuid) (p : Issue → Prop) (h : ids = []) : ∀ i, i ∈ ids ↔ ∃ row, began.issues i = some row ∧ p row := by
  subst h
  intro i
  constructor
  · intro hi
    cases hi
  · rintro ⟨row, hrow, _⟩
    cases hrow

theorem joiner_placed (ok : Db → List Stage → Stage → Prop) : Run ok began ⟨began, [.placed 7 none joiner]⟩ := by
  have h₀ : Run ok began ⟨began, []⟩ := .begin _
  have h₁ := h₀.start (some (.asked (.create 7 joiner))) ⟨rfl, _, rfl⟩
  have h₂ := h₁.act [] (some (.placing 7 none joiner)) (.create fun s hs => by cases hs; rfl)
  exact h₂.act [] (some (.placed 7 none joiner)) (.place rfl)

/-- The sprint closes without waiting; the issue waits for it, and joins it closed. -/
theorem joined_closed : ¬ ∀ (db₀ db : Db) (running : List Stage), Planned db₀ → Run (fun _ _ _ => True) db₀ ⟨db, running⟩ →
    (∀ i row s, db.issues i = some row → row.sprint = some s →
      ∃ sp, db.sprints s = some sp ∧ sp.project = row.project ∧ (sp.state ≠ .closed → sp.team = row.team)) ∧
    ∀ l p r db' p', running = l ++ p :: r → Act (fun _ _ _ => True) db (l ++ r) p db' p' →
      (∀ i row' s, db'.issues i = some row' → row'.sprint = some s → (∀ row, db.issues i = some row → row.sprint ≠ some s) →
        ∃ sp, db.sprints s = some sp ∧ sp.state ≠ .closed) ∧
      ∀ id before moveTo done, p = .closing id before moveTo done →
        ∀ i row', db'.issues i = some row' → row'.sprint = some id → row'.done = true := by
  intro hall
  have h₁ := (joiner_placed fun _ _ _ => True).start (some (.asked (.complete 1 none))) ⟨rfl, _, rfl⟩
  have hfree : Free Stage.locks Stage.shares [Stage.placed 7 none joiner] (.sprint 1) := by
    intro q hq
    rw [mem_singleton.1 hq]
    exact ⟨fun h => h, fun h => h⟩
  have h₂ := h₁.act [] (some (.completing 1 SprintWork.running none)) (.complete rfl hfree rfl)
  have h₃ := (h₂.act [] (some (.resolved 1 SprintWork.running none)) (.resolve rfl)).act []
    (some (.carrying 1 SprintWork.running none [] []))
    (.find (began_empty [] (fun row => row.sprint = some 1 ∧ row.done = false) rfl))
  have h₄ := h₃.act [] (some (.closing 1 SprintWork.running none [])) (.share fun s hs => by cases hs)
  have h₅ := h₄.act [] none (.close trivial)
  have h₆ := h₅.act [] (some (.tied 7 none joiner)) (.tie fun s hs => by
    cases hs
    exact ⟨rfl, nofun⟩)
  obtain ⟨sp, hsp, hopen⟩ := ((hall _ _ _ began_planned h₆).2 [] _ [] _ none rfl (.settle (fun _ => rfl) trivial)).1 7 joiner 1 rfl rfl
    fun row hrow => by cases hrow
  cases hsp
  exact hopen rfl

def halfway : Db where
  issues := Function.update (fun _ => none) 7 (some joiner)
  sprints := Function.update (Function.update (fun _ => none) 1 (some running)) 2 (some { running with state := .planned })

theorem halfway_issue {i : Uuid} {row : Issue} (h : halfway.issues i = some row) : i = 7 ∧ row = joiner := by
  by_cases hi : i = 7
  · subst hi
    cases h
    exact ⟨rfl, rfl⟩
  · change Function.update (fun _ => none) 7 (some joiner) i = some row at h
    rw [Function.update_of_ne hi] at h
    cases h

/-- The sprint closes, its work gone to the next one, while somebody else is about to join it. -/
theorem carried_open : ∃ db', Act InTime halfway [.placing 8 none joiner] (.closing 1 running (some 2) [(7, joiner)]) db' none ∧
    db'.issues 7 = some { joiner with sprint := some 2 } ∧ (∃ sp, halfway.sprints 2 = some sp ∧ sp.state ≠ .closed) ∧
      ∀ i row', db'.issues i = some row' → row'.sprint = some 1 → row'.done = true := by
  have hplanned : Planned halfway := by
    intro i row s hrow hs
    obtain ⟨rfl, rfl⟩ := halfway_issue hrow
    cases hs
    exact ⟨running, rfl, rfl, fun _ => rfl⟩
  have hwork : ∀ i, i ∈ [7] ↔ ∃ row, halfway.issues i = some row ∧ row.sprint = some 1 ∧ row.done = false := by
    intro i
    rw [mem_singleton]
    exact ⟨fun hi => ⟨joiner, hi ▸ rfl, rfl, rfl⟩, fun ⟨row, hrow, _⟩ => (halfway_issue hrow).1⟩
  have hfree : ∀ r, Free Stage.locks Stage.shares [Stage.placing 8 none joiner] r := by
    intro r q hq
    rw [mem_singleton.1 hq]
    cases r with
    | issue => exact ⟨fun h => absurd h.1 Bool.false_ne_true, fun h => h⟩
    | sprint => exact ⟨fun h => h, fun h => h⟩
  have h₀ : Run InTime halfway ⟨halfway, []⟩ := .begin _
  have h₁ := (h₀.start (some (.asked (.create 8 joiner))) ⟨rfl, _, rfl⟩).act [] (some (.placing 8 none joiner))
    (.create fun s hs => by cases hs; rfl)
  have h₂ := (h₁.start (some (.asked (.complete 1 (some 2)))) ⟨rfl, _, rfl⟩).act [] (some (.completing 1 running (some 2)))
    (.complete rfl (hfree _) rfl)
  have h₃ := (h₂.act [] (some (.resolved 1 running (some 2))) (.resolve rfl)).act [] (some (.carrying 1 running (some 2) [7] []))
    (.find hwork)
  have h₄ := (h₃.act [] (some (.carrying 1 running (some 2) [] [(7, joiner)])) (.carry rfl (hfree _) rfl)).act []
    (some (.closing 1 running (some 2) [(7, joiner)])) (.share fun s hs _ => by
      cases hs
      exact ⟨rfl, fun q hq => (hfree _ q hq).1⟩)
  have hact : Act InTime halfway [.placing 8 none joiner] (.closing 1 running (some 2) [(7, joiner)]) _ none := .close fun q hq => by
    rw [mem_singleton.1 hq]
    exact fun h => h
  obtain ⟨hopen, hempty⟩ := (sprints_kept hplanned h₄).2 [] _ _ _ _ rfl hact
  refine ⟨_, hact, rfl, hopen 7 { joiner with sprint := some 2 } 2 rfl rfl fun row hrow hs => ?_, hempty _ _ _ _ rfl⟩
  obtain ⟨_, rfl⟩ := halfway_issue hrow
  cases hs

end SprintWork
end Armature
