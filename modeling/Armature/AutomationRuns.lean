import Armature.GoUnicode
import Armature.Locking
import Mathlib.Data.List.Nodup
import Mathlib.Data.List.Perm.Subperm
/-!
# AutomationRuns — the runs of the rules (`automation/runner.go`)

A delivery of an event goes through the rules that it could start: each claims the run, guards, tests, acts and records, and
the row of the run is written in transactions of their own.  What the reads of the tracker say is left open, and so is the
database's clock, in seconds.
-/
namespace Armature
namespace Automation

open List
open Go (Text equalFold)

def hour : Int := 3600

inductive Outcome where
  | running | done | skipped | failed | capped
  deriving DecidableEq

/-- A rule as its row has it; which project it watches is left out. -/
structure Rule where
  id : Nat
  enabled : Bool
  kind : Text
  /-- The field that has to change, empty for any. -/
  field : Text
  allowOwnEvents : Bool
  hourlyCap : Nat

structure Event where
  id : Nat
  topic : Text
  ruleID : Option Nat
  key : Text
  actorID : Nat
  imported : Bool
  changes : List Text

def topicScheduled : Text := "automation.scheduled".toList
def topicIncoming : Text := "automation.incoming".toList
def topicManual : Text := "automation.manual".toList
def triggerIssueUpdated : Text := "issue.updated".toList

def triggerKinds : List Text :=
  ["issue.created".toList, "issue.transitioned".toList, triggerIssueUpdated, "comment.added".toList, "sla.breached".toList,
    "scheduled".toList, "incoming".toList]

def considers (e : Event) (r : Rule) : Bool :=
  if e.topic = topicScheduled ∨ e.topic = topicIncoming ∨ e.topic = topicManual then decide (e.ruleID = some r.id)
  else decide (e.key ≠ [] ∧ e.imported = false ∧ e.topic ∈ triggerKinds ∧ r.enabled = true ∧ r.kind = e.topic)

/-- A row of `automation_run`. -/
structure Row where
  id : Nat
  rule : Nat
  event : Nat
  startedAt : Int
  outcome : Outcome
  deriving DecidableEq

structure Acted where
  run : Nat
  rule : Nat
  event : Nat
  startedAt : Int

structure Data where
  rows : List Row
  next : Nat
  acted : List Acted

inductive Stage where
  | claiming | guarding | counting | capped | deleting | testing | acting
  | finishing (outcome : Outcome)
  deriving DecidableEq

/-- A worker at a delivery: the rule that it is at, that rule's run and its start once it is claimed, and the rules to come. -/
structure Worker where
  event : Event
  rule : Rule
  stage : Stage
  run : Nat
  startedAt : Int
  later : List Rule

def Worker.goOn (w : Worker) : Option Worker :=
  w.later.head?.map fun r => ⟨w.event, r, .claiming, 0, 0, w.later.tail⟩

def recent (d : Data) (rule run : Nat) (now : Int) : Nat :=
  (d.rows.filter fun row => row.rule = rule ∧ row.id ≠ run ∧ now - hour < row.startedAt ∧
    (row.outcome = .done ∨ row.outcome = .failed)).length

def said (d : Data) (rule run : Nat) (now : Int) : Bool :=
  d.rows.any fun row => row.rule = rule ∧ row.id ≠ run ∧ row.outcome = .capped ∧ now - hour < row.startedAt

def finish (run : Nat) (outcome : Outcome) (d : Data) : Data :=
  { d with rows := d.rows.map fun row => if row.id = run then { row with outcome := outcome } else row }

def unchanged (e : Event) (r : Rule) : Bool :=
  decide (r.kind = triggerIssueUpdated ∧ r.field ≠ []) && !e.changes.any fun f => equalFold f r.field

/-- The steps of a worker; `counts` says when it may count the runs.  `account` is the automation's own. -/
inductive Act (account : Nat) (counts : Data → List Worker → Worker → Int → Prop) (d : Data) (others : List Worker) :
    Worker → Data → Option Worker → Prop where
  | claim (e : Event) (r : Rule) (run : Nat) (s now : Int) (rs : List Rule) :
      (∀ row ∈ d.rows, ¬ (row.rule = r.id ∧ row.event = e.id)) →
      Act account counts d others ⟨e, r, .claiming, run, s, rs⟩
        { d with rows := ⟨d.next, r.id, e.id, now, .running⟩ :: d.rows, next := d.next + 1 }
        (some ⟨e, r, .guarding, d.next, now, rs⟩)
  | claimUnheard (e : Event) (r : Rule) (run : Nat) (s now : Int) (rs : List Rule) :
      (∀ row ∈ d.rows, ¬ (row.rule = r.id ∧ row.event = e.id)) →
      Act account counts d others ⟨e, r, .claiming, run, s, rs⟩
        { d with rows := ⟨d.next, r.id, e.id, now, .running⟩ :: d.rows, next := d.next + 1 }
        (Worker.goOn ⟨e, r, .claiming, run, s, rs⟩)
  /-- The run is there already, or a step fails before it wrote anything. -/
  | giveUp (w : Worker) : Act account counts d others w d w.goOn
  | ownEvent (e : Event) (r : Rule) (run : Nat) (s : Int) (rs : List Rule) :
      e.actorID = account → r.allowOwnEvents = false →
      Act account counts d others ⟨e, r, .guarding, run, s, rs⟩ d (some ⟨e, r, .finishing .skipped, run, s, rs⟩)
  | notOwn (e : Event) (r : Rule) (run : Nat) (s : Int) (rs : List Rule) :
      ¬ (e.actorID = account ∧ r.allowOwnEvents = false) →
      Act account counts d others ⟨e, r, .guarding, run, s, rs⟩ d (some ⟨e, r, .counting, run, s, rs⟩)
  | count (e : Event) (r : Rule) (run : Nat) (s now : Int) (rs : List Rule) :
      counts d others ⟨e, r, .counting, run, s, rs⟩ now →
      Act account counts d others ⟨e, r, .counting, run, s, rs⟩ d
        (some ⟨e, r, if r.hourlyCap ≤ recent d r.id run now then .capped else .testing, run, s, rs⟩)
  | storm (e : Event) (r : Rule) (run : Nat) (s now : Int) (rs : List Rule) : said d r.id run now = true →
      Act account counts d others ⟨e, r, .capped, run, s, rs⟩ d (some ⟨e, r, .deleting, run, s, rs⟩)
  /-- No capped run is there, or the read of them failed. -/
  | sayCapped (e : Event) (r : Rule) (run : Nat) (s : Int) (rs : List Rule) :
      Act account counts d others ⟨e, r, .capped, run, s, rs⟩ d (some ⟨e, r, .finishing .capped, run, s, rs⟩)
  | delete (e : Event) (r : Rule) (run : Nat) (s : Int) (rs : List Rule) :
      Act account counts d others ⟨e, r, .deleting, run, s, rs⟩ { d with rows := d.rows.filter (·.id ≠ run) }
        (Worker.goOn ⟨e, r, .deleting, run, s, rs⟩)
  | fieldUnchanged (e : Event) (r : Rule) (run : Nat) (s : Int) (rs : List Rule) : unchanged e r = true →
      Act account counts d others ⟨e, r, .testing, run, s, rs⟩ d (some ⟨e, r, .finishing .skipped, run, s, rs⟩)
  /-- A condition does not hold, or the query or a condition did not run. -/
  | notMet (e : Event) (r : Rule) (run : Nat) (s : Int) (rs : List Rule) (outcome : Outcome) : unchanged e r = false →
      outcome = .skipped ∨ outcome = .failed →
      Act account counts d others ⟨e, r, .testing, run, s, rs⟩ d (some ⟨e, r, .finishing outcome, run, s, rs⟩)
  | met (e : Event) (r : Rule) (run : Nat) (s : Int) (rs : List Rule) : unchanged e r = false →
      Act account counts d others ⟨e, r, .testing, run, s, rs⟩ d (some ⟨e, r, .acting, run, s, rs⟩)
  /-- From the first action on. -/
  | act (e : Event) (r : Rule) (run : Nat) (s : Int) (rs : List Rule) (outcome : Outcome) :
      outcome = .done ∨ outcome = .failed →
      Act account counts d others ⟨e, r, .acting, run, s, rs⟩ { d with acted := ⟨run, r.id, e.id, s⟩ :: d.acted }
        (some ⟨e, r, .finishing outcome, run, s, rs⟩)
  | finish (e : Event) (r : Rule) (run : Nat) (s : Int) (rs : List Rule) (outcome : Outcome) :
      Act account counts d others ⟨e, r, .finishing outcome, run, s, rs⟩ (finish run outcome d)
        (Worker.goOn ⟨e, r, .finishing outcome, run, s, rs⟩)

inductive Start (d : Data) : Data → Option Worker → Prop where
  | handle (e : Event) (r : Rule) (rs : List Rule) : (∀ r' ∈ r :: rs, considers e r' = true) →
      Start d d (some ⟨e, r, .claiming, 0, 0, rs⟩)

def fresh : Data := ⟨[], 0, []⟩

def RunWhere (account : Nat) (rules : Nat → Rule) (counts : Data → List Worker → Worker → Int → Prop) :
    Interleaving.System Data Worker → Prop :=
  Interleaving.Run (fun d _ d' w => Start d d' w ∧ ∀ v ∈ w, ∀ r ∈ v.rule :: v.later, r = rules r.id) (Act account counts) fresh

abbrev Run (account : Nat) (rules : Nat → Rule) : Interleaving.System Data Worker → Prop :=
  RunWhere account rules fun _ _ _ _ => True

def Worker.counted (w : Worker) : Bool := decide (w.stage = .testing ∨ w.stage = .acting)

structure Careful (d : Data) (others : List Worker) (w : Worker) (now : Int) : Prop where
  recorded : ∀ a ∈ d.acted, a.rule = w.rule.id → ∃ row ∈ d.rows, row.id = a.run ∧ row.rule = a.rule ∧ row.event = a.event ∧
    row.startedAt = a.startedAt ∧ (row.outcome = .done ∨ row.outcome = .failed)
  onTime : ∀ a ∈ d.acted, a.rule = w.rule.id → w.startedAt - hour < a.startedAt → now - hour < a.startedAt
  alone : ∀ v ∈ others, v.rule.id = w.rule.id → v.counted = false

abbrev CarefulRun (account : Nat) (rules : Nat → Rule) : Interleaving.System Data Worker → Prop :=
  RunWhere account rules Careful

/-! ## Once per event -/

def Worker.claimed (w : Worker) : Bool :=
  match w.stage with
  | .claiming | .finishing _ => false
  | _ => true

def Worker.holds (w : Worker) (k : Nat × Nat) : Prop := w.claimed = true ∧ (w.rule.id, w.event.id) = k

structure Kept (d : Data) : Prop where
  once : (d.acted.map fun a => (a.rule, a.event)).Nodup
  row : ∀ a ∈ d.acted, ∃ row ∈ d.rows, row.rule = a.rule ∧ row.event = a.event
  below : ∀ row ∈ d.rows, row.id < d.next

structure Claimed (d : Data) (w : Worker) : Prop where
  below : w.run < d.next
  row : ∃ row ∈ d.rows, row.rule = w.rule.id ∧ row.event = w.event.id
  own : ∀ row ∈ d.rows, row.id = w.run → row.rule = w.rule.id ∧ row.event = w.event.id
  unacted : ∀ a ∈ d.acted, (a.rule, a.event) ≠ (w.rule.id, w.event.id)

structure Only (mine : Nat × Nat → Prop) (d d' : Data) : Prop where
  next : d.next ≤ d'.next
  old : ∀ row' ∈ d'.rows, row'.id < d.next → ∃ row ∈ d.rows, row.id = row'.id ∧ row.rule = row'.rule ∧ row.event = row'.event
  kept : ∀ row ∈ d.rows, ¬ mine (row.rule, row.event) → ∃ row' ∈ d'.rows, row'.rule = row.rule ∧ row'.event = row.event
  acted : ∀ a ∈ d'.acted, a ∈ d.acted ∨ mine (a.rule, a.event)

section
variable {account : Nat} {rules : Nat → Rule} {counts : Data → List Worker → Worker → Int → Prop} {d d' : Data}
  {mine : Nat × Nat → Prop} {others : List Worker}

theorem Only.refl (mine : Nat × Nat → Prop) (d : Data) : Only mine d d :=
  ⟨le_rfl, fun row h _ => ⟨row, h, rfl, rfl, rfl⟩, fun row h _ => ⟨row, h, rfl, rfl⟩, fun _ => Or.inl⟩

variable {w : Worker} {run : Nat}

theorem Claimed.stable (hc : Only mine d d') (hmine : ¬ mine (w.rule.id, w.event.id)) (h : Claimed d w) :
    Claimed d' w := by
  refine ⟨lt_of_lt_of_le h.below hc.next, ?_, fun row' hrow' hid => ?_, fun a ha he => ?_⟩
  · obtain ⟨row, hrow, hrule, hevent⟩ := h.row
    obtain ⟨row', hrow', hrule', hevent'⟩ := hc.kept row hrow (by rwa [hrule, hevent])
    exact ⟨row', hrow', hrule'.trans hrule, hevent'.trans hevent⟩
  · obtain ⟨row, hrow, hid', hrule, hevent⟩ := hc.old row' hrow' (hid ▸ h.below)
    obtain ⟨hrule₀, hevent₀⟩ := h.own row hrow (hid'.trans hid)
    exact ⟨hrule.symm.trans hrule₀, hevent.symm.trans hevent₀⟩
  · rcases hc.acted a ha with ha | ha
    · exact h.unacted a ha he
    · exact hmine (he ▸ ha)

theorem goOn_claimed {v : Worker} (hv : v ∈ w.goOn) : v.claimed = false := by
  obtain ⟨r, -, rfl⟩ := Option.map_eq_some_iff.1 hv
  rfl

theorem Kept.insert (hk : Kept d) (r e : Nat) (now : Int) :
    Kept { d with rows := ⟨d.next, r, e, now, .running⟩ :: d.rows, next := d.next + 1 } := by
  refine ⟨hk.once, fun a ha => ?_, fun row hrow => ?_⟩
  · obtain ⟨row, hrow, h⟩ := hk.row a ha
    exact ⟨row, mem_cons_of_mem _ hrow, h⟩
  · rcases mem_cons.1 hrow with rfl | hrow
    · exact Nat.lt_succ_self _
    · exact Nat.lt_succ_of_lt (hk.below row hrow)

theorem only_insert (mine : Nat × Nat → Prop) (r e : Nat) (now : Int) :
    Only mine d { d with rows := ⟨d.next, r, e, now, .running⟩ :: d.rows, next := d.next + 1 } := by
  refine ⟨Nat.le_succ _, fun row hrow hlt => ?_, fun row hrow _ => ⟨row, mem_cons_of_mem _ hrow, rfl, rfl⟩, fun _ => Or.inl⟩
  rcases mem_cons.1 hrow with rfl | hrow
  · exact absurd hlt (lt_irrefl _)
  · exact ⟨row, hrow, rfl, rfl, rfl⟩

theorem mem_finish {outcome : Outcome} {row : Row} (h : row ∈ (finish run outcome d).rows) :
    ∃ row₀ ∈ d.rows, row₀.id = row.id ∧ row₀.rule = row.rule ∧ row₀.event = row.event := by
  obtain ⟨row₀, hrow₀, rfl⟩ := mem_map.1 h
  refine ⟨row₀, hrow₀, ?_⟩
  split
  · exact ⟨rfl, rfl, rfl⟩
  · exact ⟨rfl, rfl, rfl⟩

theorem finish_mem {outcome : Outcome} {row : Row} (h : row ∈ d.rows) :
    ∃ row' ∈ (finish run outcome d).rows, row'.rule = row.rule ∧ row'.event = row.event := by
  refine ⟨_, mem_map_of_mem h, ?_⟩
  split
  · exact ⟨rfl, rfl⟩
  · exact ⟨rfl, rfl⟩

theorem act_keeps {w' : Option Worker} (hk : Kept d) (hl : w.claimed = true → Claimed d w)
    (hothers : ∀ v ∈ others, v.claimed = true → Claimed d v) (ha : Act account counts d others w d' w') :
    Kept d' ∧ Only w.holds d d' ∧ ∀ v ∈ w', (v.claimed = true → Claimed d' v) ∧
      ∀ k, v.holds k → w.holds k ∨ Interleaving.Unlocked Worker.holds others k := by
  have hgoOn : ∀ {d'' : Data} {w : Worker}, ∀ v ∈ w.goOn, (v.claimed = true → Claimed d'' v) ∧
      ∀ k, v.holds k → w.holds k ∨ Interleaving.Unlocked Worker.holds others k := by
    intro d'' w v hv
    have hnot := goOn_claimed hv
    exact ⟨fun h => Bool.noConfusion (hnot.symm.trans h), fun k hh => Bool.noConfusion (hnot.symm.trans hh.1)⟩
  have hstays : ∀ {v : Worker}, (v.claimed = true → w.claimed = true ∧ v.run = w.run ∧ v.rule = w.rule ∧ v.event = w.event) →
      Kept d ∧ Only w.holds d d ∧ ∀ v' ∈ some v, (v'.claimed = true → Claimed d v') ∧
        ∀ k, v'.holds k → w.holds k ∨ Interleaving.Unlocked Worker.holds others k := by
    intro v hv
    refine ⟨hk, Only.refl _ d, fun v' hv' => ?_⟩
    obtain rfl := Option.mem_some_iff.1 hv'
    refine ⟨fun h => ?_, fun k hh => Or.inl ?_⟩
    · obtain ⟨hw, hrun, hrule, hevent⟩ := hv h
      obtain ⟨hbelow, hrow, hown, hunacted⟩ := hl hw
      exact ⟨hrun ▸ hbelow, by rwa [hrule, hevent], by rwa [hrun, hrule, hevent], by rwa [hrule, hevent]⟩
    · obtain ⟨hw, -, hrule, hevent⟩ := hv hh.1
      exact ⟨hw, by rw [← hh.2, hrule, hevent]⟩
  cases ha with
  | claim e r run s now rs hnone =>
    refine ⟨hk.insert r.id e.id now, only_insert _ r.id e.id now, fun v hv => ?_⟩
    obtain rfl := Option.mem_some_iff.1 hv
    refine ⟨fun _ => ⟨Nat.lt_succ_self _, ⟨_, mem_cons_self, rfl, rfl⟩, fun row hrow hid => ?_, fun a ha he => ?_⟩,
      fun k hh => Or.inr fun v hv hheld => ?_⟩
    · rcases mem_cons.1 hrow with rfl | hrow
      · exact ⟨rfl, rfl⟩
      · exact absurd hid (hk.below row hrow).ne
    · obtain ⟨row, hrow, hrule, hevent⟩ := hk.row a ha
      exact hnone row hrow ⟨hrule.trans (Prod.ext_iff.1 he).1, hevent.trans (Prod.ext_iff.1 he).2⟩
    · obtain ⟨row, hrow, hrule, hevent⟩ := (hothers v hv hheld.1).row
      have hkey := Prod.ext_iff.1 (hheld.2.trans hh.2.symm)
      exact hnone row hrow ⟨hrule.trans hkey.1, hevent.trans hkey.2⟩
  | claimUnheard e r run s now rs hnone => exact ⟨hk.insert r.id e.id now, only_insert _ r.id e.id now, hgoOn⟩
  | giveUp => exact ⟨hk, Only.refl _ d, hgoOn⟩
  | ownEvent => exact hstays fun h => Bool.noConfusion h
  | notOwn => exact hstays fun _ => ⟨rfl, rfl, rfl, rfl⟩
  | count => exact hstays fun _ => ⟨rfl, rfl, rfl, rfl⟩
  | storm => exact hstays fun _ => ⟨rfl, rfl, rfl, rfl⟩
  | sayCapped => exact hstays fun h => Bool.noConfusion h
  | delete =>
    obtain ⟨hbelow, hrow, hown, hunacted⟩ := hl rfl
    refine ⟨⟨hk.once, fun a ha => ?_, fun row hrow => hk.below row (mem_filter.1 hrow).1⟩, ⟨le_rfl, fun row hrow _ => ?_,
      fun row hrow hnot => ?_, fun _ => Or.inl⟩, hgoOn⟩
    · obtain ⟨row, hrow, hrule, hevent⟩ := hk.row a ha
      refine ⟨row, mem_filter.2 ⟨hrow, decide_eq_true fun hid => hunacted a ha ?_⟩, hrule, hevent⟩
      obtain ⟨hrule', hevent'⟩ := hown row hrow hid
      rw [← hrule, ← hevent, hrule', hevent']
    · exact ⟨row, (mem_filter.1 hrow).1, rfl, rfl, rfl⟩
    · refine ⟨row, mem_filter.2 ⟨hrow, decide_eq_true fun hid => hnot ⟨rfl, ?_⟩⟩, rfl, rfl⟩
      obtain ⟨hrule', hevent'⟩ := hown row hrow hid
      rw [hrule', hevent']
  | fieldUnchanged => exact hstays fun h => Bool.noConfusion h
  | notMet => exact hstays fun h => Bool.noConfusion h
  | met => exact hstays fun _ => ⟨rfl, rfl, rfl, rfl⟩
  | act =>
    obtain ⟨hbelow, hrow, hown, hunacted⟩ := hl rfl
    refine ⟨⟨nodup_cons.2 ⟨fun hmem => ?_, hk.once⟩, fun a ha => ?_, hk.below⟩, ⟨le_rfl, fun row hrow _ => ⟨row, hrow, rfl, rfl, rfl⟩,
      fun row hrow _ => ⟨row, hrow, rfl, rfl⟩, fun a ha => ?_⟩, fun v hv => ?_⟩
    · obtain ⟨a, ha, he⟩ := mem_map.1 hmem
      exact hunacted a ha he
    · rcases mem_cons.1 ha with rfl | ha
      · exact hrow
      · exact hk.row a ha
    · rcases mem_cons.1 ha with rfl | ha
      · exact Or.inr ⟨rfl, rfl⟩
      · exact Or.inl ha
    · obtain rfl := Option.mem_some_iff.1 hv
      exact ⟨fun h => Bool.noConfusion h, fun k hh => Bool.noConfusion hh.1⟩
  | finish =>
    refine ⟨⟨hk.once, fun a ha => ?_, fun row hrow => ?_⟩, ⟨le_rfl, fun row hrow _ => mem_finish hrow, fun row hrow _ => finish_mem hrow,
      fun _ => Or.inl⟩, hgoOn⟩
    · obtain ⟨row, hrow, hrule, hevent⟩ := hk.row a ha
      obtain ⟨row', hrow', hrule', hevent'⟩ := finish_mem hrow
      exact ⟨row', hrow', hrule'.trans hrule, hevent'.trans hevent⟩
    · obtain ⟨row₀, hrow₀, hid, -⟩ := mem_finish hrow
      exact hid ▸ hk.below row₀ hrow₀

theorem run_keeps {sys : Interleaving.System Data Worker} (h : RunWhere account rules counts sys) :
    Kept sys.shared ∧ ∀ w ∈ sys.running, w.claimed = true → Claimed sys.shared w := by
  have hstable : ∀ (mine : Nat × Nat → Prop) (d d' : Data) (w : Worker), Only mine d d' → (∀ k, w.holds k → ¬ mine k) →
      (w.claimed = true → Claimed d w) → w.claimed = true → Claimed d' w :=
    fun _ _ _ w hc hmine hl hw => (hl hw).stable hc (hmine _ ⟨hw, rfl⟩)
  have hfresh : Kept fresh :=
    ⟨nodup_nil, nofun, nofun⟩
  have hall := Interleaving.Run.locked hstable
    (fun d running d' w hk hs => by
      cases hs.1 with
      | handle =>
        refine ⟨hk, Only.refl _ d, fun v hv => ?_⟩
        obtain rfl := Option.mem_some_iff.1 hv
        exact ⟨fun h => Bool.noConfusion h, fun k hh => Bool.noConfusion hh.1⟩)
    (fun d l r w d' w' _ hk hl ha => act_keeps hk (hl w (mem_append_right _ mem_cons_self))
      (fun v hv => hl v (Interleaving.mem_between hv)) ha) hfresh h
  exact ⟨hall.1, hall.2.2⟩

theorem acts_once {sys : Interleaving.System Data Worker} (h : RunWhere account rules counts sys) (rule event : Nat) :
    (sys.shared.acted.filter fun a => a.rule = rule ∧ a.event = event).length ≤ 1 := by
  have hcount := nodup_iff_count_le_one.1 (run_keeps h).1.once (rule, event)
  rw [count_eq_countP, countP_map, countP_eq_length_filter] at hcount
  refine le_trans (le_of_eq (congrArg List.length (filter_congr fun a _ => ?_))) hcount
  rw [Bool.eq_iff_iff, decide_eq_true_eq]
  exact Prod.mk_inj.symm.trans beq_iff_eq.symm

/-! ## The cap -/

def inHour (d : Data) (rule : Nat) (t : Int) : List Acted :=
  d.acted.filter fun a => a.rule = rule ∧ t ≤ a.startedAt ∧ a.startedAt < t + hour

def since (d : Data) (rule : Nat) (t : Int) : List Acted := d.acted.filter fun a => a.rule = rule ∧ t - hour < a.startedAt

def Capped (rules : Nat → Rule) (d : Data) : Prop := ∀ rule t, (inHour d rule t).length ≤ (rules rule).hourlyCap

/-- The rules at hand are those of `rules`, and a run that was counted has room under the cap. -/
structure Room (rules : Nat → Rule) (d : Data) (w : Worker) : Prop where
  known : ∀ r ∈ w.rule :: w.later, r = rules r.id
  room : w.counted = true → (since d w.rule.id w.startedAt).length < (rules w.rule.id).hourlyCap

def Worker.admitted (w : Worker) (rule : Nat) : Prop := w.counted = true ∧ w.rule.id = rule

def OnlyRules (mine : Nat → Prop) (d d' : Data) : Prop := ∀ rule, ¬ mine rule → ∀ t, since d' rule t = since d rule t

theorem since_cons (a : Acted) (d : Data) (rule : Nat) (t : Int) (rows : List Row) (next : Nat) (h : a.rule ≠ rule) :
    since ⟨rows, next, a :: d.acted⟩ rule t = since d rule t :=
  filter_cons_of_neg (by simp [h])

theorem Careful.counted {now : Int} (hc : Careful d others w now) (hk : Kept d) (hw : Claimed d w) :
    (since d w.rule.id w.startedAt).length ≤ recent d w.rule.id w.run now := by
  have hnodup : ((since d w.rule.id w.startedAt).map fun a => (a.rule, a.event)).Nodup :=
    hk.once.sublist (filter_sublist.map _)
  have hsub : (since d w.rule.id w.startedAt).map (fun a => (a.rule, a.event)) ⊆
      (d.rows.filter fun row => row.rule = w.rule.id ∧ row.id ≠ w.run ∧ now - hour < row.startedAt ∧
        (row.outcome = .done ∨ row.outcome = .failed)).map fun row => (row.rule, row.event) := by
    intro k hmem
    obtain ⟨a, ha, rfl⟩ := mem_map.1 hmem
    obtain ⟨hacted, hp⟩ := mem_filter.1 ha
    obtain ⟨hrule, hstart⟩ := of_decide_eq_true hp
    obtain ⟨row, hrow, -, hrrule, hrevent, hrstart, houtcome⟩ := hc.recorded a hacted hrule
    refine mem_map.2 ⟨row, mem_filter.2 ⟨hrow, decide_eq_true ⟨hrrule.trans hrule, fun hid => ?_, ?_, houtcome⟩⟩, ?_⟩
    · obtain ⟨hown, hownEvent⟩ := hw.own row hrow hid
      exact hw.unacted a hacted (by rw [← hrrule, ← hrevent, hown, hownEvent])
    · rw [hrstart]
      exact hc.onTime a hacted hrule hstart
    · rw [hrrule, hrevent]
  have hlen := (subperm_of_subset hnodup hsub).length_le
  rwa [length_map, length_map] at hlen

theorem goOn_known {v : Worker} (h : ∀ r ∈ w.rule :: w.later, r = rules r.id) (hv : v ∈ w.goOn) :
    Room rules d v := by
  obtain ⟨r, hr, rfl⟩ := Option.map_eq_some_iff.1 hv
  refine ⟨fun r' hr' => h r' (mem_cons_of_mem _ ?_), fun hc => Bool.noConfusion hc⟩
  rcases mem_cons.1 hr' with rfl | hr'
  · exact mem_of_mem_head? hr
  · exact mem_of_mem_tail hr'

theorem Capped.act (hcap : Capped rules d) {event rule : Nat} {s : Int}
    (hroom : (since d rule s).length < (rules rule).hourlyCap) (rows : List Row) (next : Nat) :
    Capped rules ⟨rows, next, ⟨run, rule, event, s⟩ :: d.acted⟩ := by
  intro rule' t
  unfold inHour
  rw [filter_cons]
  split
  · rename_i hp
    obtain ⟨rfl, hle, hlt⟩ := of_decide_eq_true hp
    have hsub : (inHour d rule t).Sublist (since d rule s) := by
      refine monotone_filter_right _ fun a ha => ?_
      rw [decide_eq_true_eq] at ha ⊢
      have hpos : (0 : Int) < hour := by decide
      exact ⟨ha.1, by dsimp only at hle hlt; omega⟩
    exact lt_of_le_of_lt hsub.length_le hroom
  · exact hcap rule' t

theorem careful_act {w' : Option Worker} (hcap : Capped rules d) (hroom : Room rules d w) (hk : Kept d)
    (hw : w.claimed = true → Claimed d w) (ha : Act account Careful d others w d' w') :
    Capped rules d' ∧ OnlyRules w.admitted d d' ∧ ∀ v ∈ w', Room rules d' v ∧
      ∀ rule, v.admitted rule → w.admitted rule ∨ Interleaving.Unlocked Worker.admitted others rule := by
  have hgoOn : ∀ {d'' : Data}, d''.acted = d.acted → Capped rules d'' ∧ OnlyRules w.admitted d d'' ∧ ∀ v ∈ w.goOn,
      Room rules d'' v ∧ ∀ rule, v.admitted rule → w.admitted rule ∨ Interleaving.Unlocked Worker.admitted others rule := by
    intro d'' hacted
    refine ⟨fun rule t => ?_, fun rule _ t => ?_, fun v hv => ⟨goOn_known hroom.known hv, fun rule hh => ?_⟩⟩
    · unfold inHour
      rw [hacted]
      exact hcap rule t
    · unfold since
      rw [hacted]
    · obtain ⟨r, -, rfl⟩ := Option.map_eq_some_iff.1 hv
      exact Bool.noConfusion hh.1
  have hstays : ∀ {v : Worker} {d'' : Data}, d''.acted = d.acted → v.rule = w.rule → v.later = w.later →
      (v.counted = true → v.startedAt = w.startedAt ∧ w.counted = true) → Capped rules d'' ∧ OnlyRules w.admitted d d'' ∧
        ∀ v' ∈ some v, Room rules d'' v' ∧
          ∀ rule, v'.admitted rule → w.admitted rule ∨ Interleaving.Unlocked Worker.admitted others rule := by
    intro v d'' hacted hrule hlater hcounted
    obtain ⟨hcap', honly, -⟩ := hgoOn hacted
    refine ⟨hcap', honly, fun v' hv' => ?_⟩
    obtain rfl := Option.mem_some_iff.1 hv'
    refine ⟨⟨by rw [hrule, hlater]; exact hroom.known, fun h => ?_⟩, fun rule hh => Or.inl ⟨(hcounted hh.1).2, hrule ▸ hh.2⟩⟩
    obtain ⟨hstart, hwc⟩ := hcounted h
    unfold since
    rw [hacted, hrule, hstart]
    exact hroom.room hwc
  cases ha with
  | claim => exact hstays rfl rfl rfl fun h => Bool.noConfusion h
  | claimUnheard => exact hgoOn rfl
  | giveUp => exact hgoOn rfl
  | ownEvent => exact hstays rfl rfl rfl fun h => Bool.noConfusion h
  | notOwn => exact hstays rfl rfl rfl fun h => Bool.noConfusion h
  | count e r run s now rs hcareful =>
    have hcounted := hcareful.counted hk (hw rfl)
    obtain ⟨hcap', honly, -⟩ := hgoOn rfl
    refine ⟨hcap', honly, fun v hv => ?_⟩
    obtain rfl := Option.mem_some_iff.1 hv
    refine ⟨⟨hroom.known, fun h => ?_⟩, fun rule hh => Or.inr fun q hq hheld => ?_⟩
    · have hr : r = rules r.id := hroom.known r mem_cons_self
      split at h
      · exact Bool.noConfusion h
      · rename_i hlt
        rw [hr] at hlt
        exact lt_of_le_of_lt hcounted (Nat.lt_of_not_le (hr ▸ hlt))
    · have hnot := hcareful.alone q hq (hheld.2.trans hh.2.symm)
      exact Bool.noConfusion (hnot.symm.trans hheld.1)
  | storm => exact hstays rfl rfl rfl fun h => Bool.noConfusion h
  | sayCapped => exact hstays rfl rfl rfl fun h => Bool.noConfusion h
  | delete => exact hgoOn rfl
  | fieldUnchanged => exact hstays rfl rfl rfl fun h => Bool.noConfusion h
  | notMet => exact hstays rfl rfl rfl fun h => Bool.noConfusion h
  | met => exact hstays rfl rfl rfl fun _ => ⟨rfl, rfl⟩
  | act =>
    refine ⟨hcap.act (hroom.room rfl) _ _, fun rule hnot t => since_cons _ d rule t _ _ fun he => hnot ⟨rfl, he⟩, fun v hv => ?_⟩
    obtain rfl := Option.mem_some_iff.1 hv
    exact ⟨⟨hroom.known, fun h => Bool.noConfusion h⟩, fun rule hh => Bool.noConfusion hh.1⟩
  | finish => exact hgoOn rfl

/-- **A rule acts once for an event, and under its cap in any hour**, where its runs count with care. -/
theorem keeps_cap {sys : Interleaving.System Data Worker} (h : CarefulRun account rules sys) :
    (∀ rule event, (sys.shared.acted.filter fun a => a.rule = rule ∧ a.event = event).length ≤ 1) ∧
      ∀ rule t, (inHour sys.shared rule t).length ≤ (rules rule).hourlyCap := by
  refine ⟨acts_once h, ?_⟩
  have hstable : ∀ (mine : Nat → Prop) (d d' : Data) (w : Worker), OnlyRules mine d d' → (∀ rule, w.admitted rule → ¬ mine rule) →
      Room rules d w → Room rules d' w := by
    intro mine d d' w hc hmine hl
    refine ⟨hl.known, fun hw => ?_⟩
    rw [hc _ (hmine _ ⟨hw, rfl⟩)]
    exact hl.room hw
  have hfresh : Capped rules fresh := fun _ _ => Nat.zero_le _
  exact (Interleaving.Run.locked hstable
    (fun d running d' w hcap hs => by
      obtain ⟨hs, hrules⟩ := hs
      cases hs with
      | handle =>
        refine ⟨hcap, fun _ _ _ => rfl, fun v hv => ⟨⟨hrules v hv, fun hc => ?_⟩, fun rule hh => ?_⟩⟩
        · obtain rfl := Option.mem_some_iff.1 hv
          exact Bool.noConfusion hc
        · obtain rfl := Option.mem_some_iff.1 hv
          exact Bool.noConfusion hh.1)
    (fun d l r w d' w' hreached hcap hl ha => by
      obtain ⟨hk, hclaimed⟩ := run_keeps hreached
      have hmem : w ∈ l ++ w :: r := mem_append_right _ mem_cons_self
      exact careful_act hcap (hl w hmem) hk (hclaimed w hmem) ha) hfresh h).1

end

/-! ## One run an hour -/

def onceAnHour (id : Nat) : Rule := ⟨id, true, "issue.created".toList, [], false, 1⟩

def made (event : Nat) : Event := ⟨event, "issue.created".toList, none, "CP-1".toList, 7, false, []⟩

theorem made_considered {counts : Data → List Worker → Worker → Int → Prop} {sys : Interleaving.System Data Worker} (event : Nat)
    (hrun : RunWhere 0 onceAnHour counts sys) :
    RunWhere 0 onceAnHour counts ⟨sys.shared, ⟨made event, onceAnHour 5, .claiming, 0, 0, []⟩ :: sys.running⟩ := by
  have hconsiders : considers (made event) (onceAnHour 5) = true := by
    have h : considers (made 0) (onceAnHour 5) = true := by decide
    exact h
  refine Interleaving.Run.start (some _) hrun ⟨.handle (made event) (onceAnHour 5) [] fun r hr => ?_, fun v hv r hr => ?_⟩
  · obtain rfl := mem_singleton.1 hr
    exact hconsiders
  · obtain rfl := Option.mem_some_iff.1 hv
    obtain rfl := mem_singleton.1 hr
    rfl

def at5 (event run : Nat) (stage : Stage) : Worker := ⟨made event, onceAnHour 5, stage, run, 0, []⟩

def actedOnce : Data := ⟨[⟨0, 5, 1, 0, .running⟩], 1, [⟨0, 5, 1, 0⟩]⟩

theorem acted_run : CarefulRun 0 onceAnHour ⟨actedOnce, [at5 1 0 (.finishing .done)]⟩ := by
  have h₁ : CarefulRun 0 onceAnHour ⟨fresh, [at5 1 0 .claiming]⟩ := made_considered 1 (Interleaving.Run.begin _)
  have h₂ := h₁.act [] _ (.claim (made 1) (onceAnHour 5) 0 0 0 [] nofun)
  have h₃ := h₂.act [] _ (.notOwn (made 1) (onceAnHour 5) 0 0 [] fun h => absurd h.1 (by decide))
  have h₄ := h₃.act [] _ (.count (made 1) (onceAnHour 5) 0 0 0 []
    ⟨nofun, nofun, nofun⟩)
  have h₅ : CarefulRun 0 onceAnHour ⟨_, [at5 1 0 .testing]⟩ := h₄
  have h₆ := h₅.act [] _ (.met (made 1) (onceAnHour 5) 0 0 [] (by decide))
  exact h₆.act [] _ (.act (made 1) (onceAnHour 5) 0 0 [] .done (Or.inl rfl))

def finishedOnce : Data := ⟨[⟨0, 5, 1, 0, .done⟩], 1, [⟨0, 5, 1, 0⟩]⟩

def cappedNext : Data := ⟨[⟨1, 5, 2, 1, .capped⟩, ⟨0, 5, 1, 0, .done⟩], 2, [⟨0, 5, 1, 0⟩]⟩

def second (stage : Stage) : Worker := ⟨made 2, onceAnHour 5, stage, 1, 1, []⟩

theorem capped_run : CarefulRun 0 onceAnHour ⟨cappedNext, []⟩ := by
  have h₁ : CarefulRun 0 onceAnHour ⟨finishedOnce, []⟩ :=
    acted_run.act [] none (.finish (made 1) (onceAnHour 5) 0 0 [] .done)
  have h₂ : CarefulRun 0 onceAnHour ⟨finishedOnce, [at5 2 0 .claiming]⟩ := made_considered 2 h₁
  have h₃ : CarefulRun 0 onceAnHour ⟨_, [second .guarding]⟩ :=
    h₂.act [] (some (second .guarding)) (.claim (made 2) (onceAnHour 5) 0 0 1 [] (by decide))
  have h₄ := h₃.act [] (some (second .counting)) (.notOwn (made 2) (onceAnHour 5) 1 1 [] fun h => absurd h.1 (by decide))
  have hcareful : Careful ⟨[⟨1, 5, 2, 1, .running⟩, ⟨0, 5, 1, 0, .done⟩], 2, [⟨0, 5, 1, 0⟩]⟩ [] (second .counting) 1 :=
    ⟨by decide, fun _ _ _ h => h, nofun⟩
  have h₅ := h₄.act [] (some (second .capped)) (.count (made 2) (onceAnHour 5) 1 1 1 [] hcareful)
  have h₆ := h₅.act [] (some (second (.finishing .capped))) (.sayCapped (made 2) (onceAnHour 5) 1 1 [])
  exact h₆.act [] none (.finish (made 2) (onceAnHour 5) 1 1 [] .capped)

theorem acted_capped : (∀ rule event, (cappedNext.acted.filter fun a => a.rule = rule ∧ a.event = event).length ≤ 1) ∧
    ∀ rule t, (inHour cappedNext rule t).length ≤ (onceAnHour rule).hourlyCap :=
  keeps_cap capped_run

/-- Two workers count before either has acted. -/
theorem acted_twice : ¬ ∀ (account : Nat) (rules : Nat → Rule) (sys : Interleaving.System Data Worker), Run account rules sys →
    (∀ rule event, (sys.shared.acted.filter fun a => a.rule = rule ∧ a.event = event).length ≤ 1) ∧
      ∀ rule t, (inHour sys.shared rule t).length ≤ (rules rule).hourlyCap := by
  intro hall
  have h₁ : Run 0 onceAnHour ⟨fresh, [at5 2 0 .claiming, at5 1 0 .claiming]⟩ :=
    made_considered 2 (made_considered 1 (Interleaving.Run.begin _))
  have h₂ := h₁.act [] _ (.claim (made 2) (onceAnHour 5) 0 0 0 [] nofun)
  have h₃ := h₂.act [] _ (.notOwn (made 2) (onceAnHour 5) 0 0 [] fun h => absurd h.1 (by decide))
  have h₄ : Run 0 onceAnHour ⟨_, [at5 2 0 .counting, at5 1 0 .claiming]⟩ := h₃
  have h₅ := h₄.act [at5 2 0 .counting] _ (.claim (made 1) (onceAnHour 5) 0 0 0 [] (by decide))
  have h₆ : Run 0 onceAnHour ⟨_, [at5 2 0 .counting, at5 1 1 .guarding]⟩ := h₅
  have h₇ := h₆.act [at5 2 0 .counting] _ (.notOwn (made 1) (onceAnHour 5) 1 0 [] fun h => absurd h.1 (by decide))
  have h₈ : Run 0 onceAnHour ⟨_, [at5 2 0 .counting, at5 1 1 .counting]⟩ := h₇
  have h₉ := h₈.act [at5 2 0 .counting] _ (.count (made 1) (onceAnHour 5) 1 0 0 [] trivial)
  have h₁₀ : Run 0 onceAnHour ⟨_, [at5 2 0 .counting, at5 1 1 .testing]⟩ := h₉
  have h₁₁ := h₁₀.act [] _ (.count (made 2) (onceAnHour 5) 0 0 0 [] trivial)
  have h₁₂ : Run 0 onceAnHour ⟨_, [at5 2 0 .testing, at5 1 1 .testing]⟩ := h₁₁
  have h₁₃ := h₁₂.act [at5 2 0 .testing] _ (.met (made 1) (onceAnHour 5) 1 0 [] (by decide))
  have h₁₄ : Run 0 onceAnHour ⟨_, [at5 2 0 .testing, at5 1 1 .acting]⟩ := h₁₃
  have h₁₅ := h₁₄.act [at5 2 0 .testing] _ (.act (made 1) (onceAnHour 5) 1 0 [] .done (Or.inl rfl))
  have h₁₆ := h₁₅.act [] _ (.met (made 2) (onceAnHour 5) 0 0 [] (by decide))
  have h₁₇ := h₁₆.act [] _ (.act (made 2) (onceAnHour 5) 0 0 [] .done (Or.inl rfl))
  exact absurd ((hall _ _ _ h₁₇).2 5 0) (by decide)

end Automation
end Armature
