import Armature.IssueTrail
import Mathlib.Algebra.BigOperators.Group.List.Lemmas
import Mathlib.Algebra.GroupWithZero.Nat
/-!
# IssueFlow — the cumulative flow's days (`report/flow.go`)

A day's rows are written as it passes, or rebuilt from the changelog when the flow is next asked for.  A rebuilt day has the
rows that would have been written at its end, for the issues the project holds now (`rebuilt_day`).
-/
namespace Armature
namespace Issues

open List
open Wf (Uuid Status)

/-! ## The snapshot table -/

/-- A row of `project_flow_snapshot`. -/
structure FlowRow where
  projectID : Uuid
  day : Int
  statusID : Uuid
  count : Nat
  reconstructed : Bool
  deriving DecidableEq

def FlowRow.of (projectID : Uuid) (day : Int) (r : FlowRow) : Bool := decide (r.projectID = projectID ∧ r.day = day)

def grouped (projectID : Uuid) (day : Int) (reconstructed : Bool) (statusIDs : List Uuid) : List FlowRow :=
  statusIDs.dedup.map fun id => ⟨projectID, day, id, statusIDs.count id, reconstructed⟩

def notSubtask (i : Issue) : Bool := decide (0 ≤ i.type.level)

def writeFlowSnapshot (db : Db) (projectID : Uuid) (day : Int) (table : List FlowRow) : List FlowRow :=
  (table.filter fun r => !r.of projectID day) ++
    grouped projectID day false
      ((db.issues.filter fun i => notSubtask i && decide (i.project.id = projectID)).map fun i => i.status.id)

/-! ## Days rebuilt -/

def days (from_ to_ : Int) : List Int := (List.range (to_ + 1 - from_).toNat).map fun n : Nat => from_ + n

def missing (table : List FlowRow) (projectID : Uuid) (from_ to_ : Int) : List Int :=
  (days from_ to_).filter fun day => !table.any (FlowRow.of projectID day)

def statusChanges (db : Db) (id : Uuid) : List (Int × Change) := (changesOf db.history id).filter fun x => x.2.field = "status"

section
variable (S : Statuses)

def named (name : Change → String) (x : Int × Change) : Option (Int × Uuid) :=
  (S.rows.find? fun s => S.lower s.name = S.lower (name x.2)).map fun s => (x.1, s.id)

def statusOn (db : Db) (dayEnd : Int) (i : Issue) : Uuid :=
  let lastBefore := ((((statusChanges db i.id).filter fun x => x.1 < dayEnd).filterMap (named S Change.to_)).insertionSort
    fun a b => b.1 ≤ a.1).head?
  let first := (((statusChanges db i.id).filterMap (named S Change.from_)).insertionSort fun a b => a.1 ≤ b.1).head?
  ((lastBefore <|> first).map Prod.snd).getD i.status.id

def rebuilt (db : Db) (dayEnd : Int → Int) (projectID : Uuid) (day : Int) : List FlowRow :=
  grouped projectID day true
    ((db.issues.filter fun i => decide (i.project.id = projectID ∧ i.createdAt < dayEnd day) && notSubtask i).map
      (statusOn S db (dayEnd day)))

def reconstructMissingDays (db : Db) (dayEnd : Int → Int) (projectID : Uuid) (from_ to_ : Int) (table : List FlowRow) :
    Bool × List FlowRow :=
  if missing table projectID from_ to_ = [] then (false, table)
  else
    let rows := (missing table projectID from_ to_).flatMap (rebuilt S db dayEnd projectID)
    -- ON CONFLICT DO NOTHING
    (true, table ++ rows.filter fun r => !table.any fun t => decide (t.of r.projectID r.day ∧ t.statusID = r.statusID))

end

def rowsOf (table : List FlowRow) (projectID : Uuid) (day : Int) : List FlowRow := table.filter (FlowRow.of projectID day)

variable {p : Uuid} {day : Int} {S : Statuses} {db : Db} {at_ : Int → Prop}

theorem grouped_of {p' : Uuid} {day' : Int} {flag : Bool} {ids : List Uuid} :
    (grouped p day flag ids).filter (FlowRow.of p' day') = if p = p' ∧ day = day' then grouped p day flag ids else [] := by
  split
  · rename_i h
    refine filter_eq_self.2 fun r hr => ?_
    obtain ⟨id, _, rfl⟩ := mem_map.1 hr
    exact decide_eq_true h
  · rename_i h
    refine filter_eq_nil_iff.2 fun r hr => ?_
    obtain ⟨id, _, rfl⟩ := mem_map.1 hr
    simpa [FlowRow.of] using h

theorem rowsOf_writeFlowSnapshot (db : Db) (p : Uuid) (day : Int) (table : List FlowRow) :
    rowsOf (writeFlowSnapshot db p day table) p day = grouped p day false
      ((db.issues.filter fun i => notSubtask i && decide (i.project.id = p)).map fun i => i.status.id) := by
  unfold rowsOf writeFlowSnapshot
  rw [filter_append, grouped_of, if_pos ⟨rfl, rfl⟩, filter_filter]
  simp

theorem days_nodup (from_ to_ : Int) : (days from_ to_).Nodup :=
  nodup_range.map fun a b h => by
    have h : from_ + (a : Int) = from_ + b := h
    omega

theorem flatMap_day {rows : Int → List FlowRow} {p : Uuid} {day : Int} :
    ∀ {ds : List Int}, (∀ d ∈ ds, (rows d).filter (FlowRow.of p day) = if d = day then rows d else []) → ds.Nodup → day ∈ ds →
      (ds.flatMap rows).filter (FlowRow.of p day) = rows day
  | d :: ds, hrows, hnodup, hday => by
    obtain ⟨hnotin, hnodup⟩ := nodup_cons.1 hnodup
    rw [flatMap_cons, filter_append, hrows d mem_cons_self]
    have hrest : ∀ d' ∈ ds, (rows d').filter (FlowRow.of p day) = if d' = day then rows d' else [] := fun d' hd' =>
      hrows d' (mem_cons_of_mem _ hd')
    rcases mem_cons.1 hday with rfl | hday
    · have hnone : (ds.flatMap rows).filter (FlowRow.of p day) = [] := by
        rw [filter_flatMap]
        refine flatMap_eq_nil_iff.2 fun d' hd' => ?_
        rw [hrest d' hd', if_neg]
        rintro rfl
        exact hnotin hd'
      rw [if_pos rfl, hnone, append_nil]
    · rw [if_neg, flatMap_day hrest hnodup hday, nil_append]
      rintro rfl
      exact hnotin hday

theorem rowsOf_reconstruct (S : Statuses) (db : Db) (dayEnd : Int → Int) {from_ to_ : Int} {table : List FlowRow}
    (hday : day ∈ missing table p from_ to_) :
    rowsOf (reconstructMissingDays S db dayEnd p from_ to_ table).2 p day = rebuilt S db dayEnd p day := by
  have hsome : missing table p from_ to_ ≠ [] := ne_nil_of_mem hday
  have hnone : ∀ d ∈ missing table p from_ to_, ∀ t ∈ table, FlowRow.of p d t = false := by
    intro d hd t ht
    have hany := (mem_filter.1 hd).2
    rw [Bool.not_eq_true', any_eq_false] at hany
    exact Bool.eq_false_iff.2 (hany t ht)
  have hfree : ((missing table p from_ to_).flatMap (rebuilt S db dayEnd p)).filter
      (fun r => !table.any fun t => decide (t.of r.projectID r.day ∧ t.statusID = r.statusID)) =
        (missing table p from_ to_).flatMap (rebuilt S db dayEnd p) := by
    refine filter_eq_self.2 fun r hr => ?_
    obtain ⟨d, hd, hr⟩ := mem_flatMap.1 hr
    obtain ⟨id, _, rfl⟩ := mem_map.1 hr
    rw [Bool.not_eq_true', any_eq_false]
    intro t ht hof
    have hof := (of_decide_eq_true hof).1
    rw [hnone d hd t ht] at hof
    cases hof
  unfold rowsOf reconstructMissingDays
  rw [if_neg hsome]
  dsimp only
  rw [hfree, filter_append, filter_eq_nil_iff.2 fun t ht => by rw [hnone day hday t ht]; exact Bool.false_ne_true,
    nil_append]
  refine flatMap_day (fun d _ => ?_) ((days_nodup from_ to_).filter _) hday
  unfold rebuilt
  rw [grouped_of]
  simp

/-! ## What the calls do to a status -/

def TellsStatus (e : Edit) : Prop :=
  told .status e.changes = [] ∧ e.after.status = e.before.status ∨
    told .status e.changes = [(e.before.status.name, e.after.status.name)]

structure Stays (e : Edit) : Prop where
  status : TellsStatus e
  type : e.after.type = e.before.type
  createdAt : e.after.createdAt = e.before.createdAt

def KeepsType {S : Statuses} (_ : Db) (e : Event S) : Prop := ∀ key typeID, e.call ≠ .updateType key typeID

theorem outcome_stays {e : Event S} (k : Kept S db) (b : Bare db) (hcond : KeepsType db e) {o : Outcome}
    (h : outcome e.setup db e.now e.call = .ok o) : ∀ ed ∈ o.edits, Stays ed := by
  obtain ⟨now, setup, call⟩ := e
  have hnone : ∀ ed ∈ ([] : List Edit), Stays ed := fun _ hed => absurd hed not_mem_nil
  have hone : ∀ {ed : Edit}, Stays ed → ∀ ed' ∈ [ed], Stays ed' := fun hs ed' hed' => mem_singleton.1 hed' ▸ hs
  cases call with
  | create =>
    obtain ⟨m, _, h⟩ := Go.bind_ok.1 h
    split at h
    · cases h
    · cases h
      exact hnone
  | transition =>
    obtain ⟨ed, hed, rfl⟩ := map_ok.1 h
    obtain ⟨_, w, d, assignee, others, _, _, hafter, hchanges, hothers⟩ := transitionIn_cases hed
    refine hone ⟨.inr ?_, by rw [hafter]; rfl, by rw [hafter]; rfl⟩
    rw [hafter, hchanges, ← singleton_append, told_append, told_assignee_resolution hothers]
    rfl
  | updateType key typeID => exact absurd rfl (hcond key typeID)
  | setSprint =>
    obtain ⟨ed, hed, rfl⟩ := map_ok.1 h
    rcases (setSprintIn_cases hed).2 with ⟨hafter, hchanges⟩ | ⟨to_, _, hafter, hchanges⟩
    · exact hone ⟨.inl ⟨by rw [hchanges]; rfl, by rw [hafter]⟩, by rw [hafter], by rw [hafter]⟩
    · exact hone ⟨.inl ⟨by rw [hchanges]; rfl, by rw [hafter]⟩, by rw [hafter], by rw [hafter]⟩
  | setTeam =>
    obtain ⟨ed, hed, rfl⟩ := map_ok.1 h
    rcases (setTeamIn_cases hed).2 with ⟨hafter, hchanges⟩ | ⟨to_, ⟨hafter, hchanges⟩ | ⟨r, s, _, _, _, hafter, hchanges⟩⟩
    · exact hone ⟨.inl ⟨by rw [hchanges]; rfl, by rw [hafter]⟩, by rw [hafter], by rw [hafter]⟩
    · exact hone ⟨.inl ⟨by rw [hchanges]; rfl, by rw [hafter]⟩, by rw [hafter], by rw [hafter]⟩
    · exact hone ⟨.inl ⟨by rw [hchanges]; rfl, by rw [hafter]⟩, by rw [hafter], by rw [hafter]⟩
  | move =>
    obtain ⟨moved, hmoved, h⟩ := Go.bind_ok.1 h
    cases h
    obtain ⟨root, _, _, _, hedits⟩ := move_edits k hmoved
    intro ed hed
    obtain ⟨hbefore, _, num, s, hs, _, hmove⟩ := hedits ed hed
    generalize ed.before = i at hbefore hmove
    subst hmove
    refine ⟨?_, rfl, rfl⟩
    have htold : told .status (moveRow moved.1 num (i, s)).changes = if s.id ≠ i.status.id then [(i.status.name, s.name)] else [] := by
      rw [moveRow_changes moved.1 num (b i hbefore), told_append, told_append, told_cleared]
      split <;> rfl
    unfold TellsStatus
    rw [htold]
    by_cases hid : s.id = i.status.id
    · exact .inl ⟨if_neg (not_not_intro hid), S.ids s hs _ (k.status i hbefore) hid⟩
    · exact .inr (if_pos hid)
  | plan =>
    obtain ⟨_, _, rfl⟩ := map_ok.1 h
    exact hnone
  | start =>
    obtain ⟨_, _, rfl⟩ := map_ok.1 h
    exact hnone
  | complete =>
    obtain ⟨c, hc, rfl⟩ := map_ok.1 h
    obtain ⟨before, hbefore, hc⟩ := Go.bind_ok.1 hc
    split at hc
    · cases hc
    · obtain ⟨destination, _, hc⟩ := Go.bind_ok.1 hc
      cases hc
      exact forall_mem_map.2 fun i _ => ⟨.inl ⟨rfl, rfl⟩, rfl, rfl⟩
  | delete =>
    obtain ⟨d, hd, rfl⟩ := map_ok.1 h
    obtain ⟨found, _, hd⟩ := Go.bind_ok.1 hd
    split at hd
    · cases hd
    · cases hd
      exact forall_mem_map.2 fun i _ => ⟨.inl ⟨rfl, rfl⟩, rfl, rfl⟩

/-! ## What became of an issue since -/

/-- What an issue became, and what was recorded of it on the way, at moments of the kind. -/
structure Since (at_ : Int → Prop) (was : Issue) (i : Issue) (later : List (Int × Change)) : Prop where
  id : i.id = was.id
  type : i.type = was.type
  createdAt : i.createdAt = was.createdAt
  times : ∀ x ∈ later, at_ x.1
  trail : Trail was.status.name (told .status (later.map Prod.snd)) i.status.name

theorem Since.here (i : Issue) : Since at_ i i [] := ⟨rfl, rfl, rfl, nofun, rfl⟩

theorem Since.step {was : Issue} {now : Int} (hnow : at_ now) (k : Kept S db) {o : Outcome}
    (h : Sound S db o) (hstays : ∀ ed ∈ o.edits, Stays ed) {i : Issue} (hi : i ∈ db.issues) {later : List (Int × Change)}
    (hsince : Since at_ was i later) : ∃ more, changesOf (db.after now o).history i.id = changesOf db.history i.id ++ more ∧
      Since at_ was (rewritten o.edits i) (later ++ more) := by
  rcases changesOf_after k h.toFits hi with ⟨ed, hed, rfl, hafter, hchanges⟩ | ⟨hafter, hchanges⟩
  · have hs := hstays ed hed
    refine ⟨_, hchanges, ?_⟩
    rw [hafter]
    have hmore : (ed.changes.map fun c => (now, c)).map Prod.snd = ed.changes := by
      rw [map_map]
      exact map_id _
    refine ⟨(h.id ed hed).trans hsince.id, hs.type.trans hsince.type, hs.createdAt.trans hsince.createdAt, ?_, ?_⟩
    · intro x hx
      rcases mem_append.1 hx with hx | hx
      · exact hsince.times x hx
      · obtain ⟨c, _, rfl⟩ := mem_map.1 hx
        exact hnow
    · rw [map_append, hmore, told_append]
      refine hsince.trail.append ?_
      rcases hs.status with ⟨hnone, hsame⟩ | hone
      · rw [hnone, hsame]
        rfl
      · rw [hone]
        exact ⟨rfl, rfl⟩
  · refine ⟨[], by rw [hchanges, append_nil], ?_⟩
    rw [hafter, append_nil]
    exact hsince

/-- The rows there were, each as it has become, and after them the ones made since. -/
structure Followed (S : Statuses) (at_ : Int → Prop) (start db : Db) (became : Issue → Issue) (made : List Issue) : Prop where
  kept : Kept S db
  bare : Bare db
  rows : db.issues = start.issues.map became ++ made
  old : ∀ i ∈ start.issues, ∃ later, changesOf db.history i.id = changesOf start.history i.id ++ later ∧
    Since at_ i (became i) later
  new : ∀ n ∈ made, ∃ row, at_ row.createdAt ∧ Since at_ row n (changesOf db.history n.id)

theorem Runs.followed {start : Db} (k : Kept S start) (b : Bare start) {h : List (Event S)}
    (hrun : Runs KeepsType start h db) (hat : ∀ e ∈ h, at_ e.now) : ∃ became made, Followed S at_ start db became made := by
  induction hrun with
  | nil =>
    refine ⟨id, [], k, b, by rw [map_id, append_nil], fun i _ => ⟨[], (append_nil _).symm, .here i⟩, ?_⟩
    exact fun n hn => absurd hn not_mem_nil
  | @snoc h db e db' hrun hcond hstep ih =>
    obtain ⟨became, made, f⟩ := ih fun e' he' => hat e' (mem_append_left _ he')
    have hnow : at_ e.now := hat e (mem_append_right _ (mem_singleton_self e))
    obtain ⟨o, ho, rfl⟩ := map_ok.1 hstep
    have hsound := outcome_sound f.kept ho
    have hstays := outcome_stays f.kept f.bare hcond ho
    refine ⟨rewritten o.edits ∘ became, made.map (rewritten o.edits) ++ (o.made.map Prod.fst).toList,
      hsound.kept f.kept, hsound.bare f.kept f.bare, ?_, fun i hi => ?_, fun n hn => ?_⟩
    · change db.issues.map (rewritten o.edits) ++ _ = _
      rw [f.rows, map_append, map_map, append_assoc]
    · obtain ⟨later, hchanges, hsince⟩ := f.old i hi
      have hmem : became i ∈ db.issues := f.rows ▸ mem_append_left _ (mem_map_of_mem hi)
      obtain ⟨more, hmore, hnew⟩ := hsince.step hnow f.kept hsound hstays hmem
      refine ⟨later ++ more, ?_, hnew⟩
      rw [← hsince.id, hmore, hsince.id, hchanges, append_assoc]
    · rcases mem_append.1 hn with hn | hn
      · obtain ⟨n', hn', rfl⟩ := mem_map.1 hn
        obtain ⟨row, hrow, hsince⟩ := f.new n' hn'
        have hmem : n' ∈ db.issues := f.rows ▸ mem_append_right _ hn'
        obtain ⟨more, hmore, hnew⟩ := hsince.step hnow f.kept hsound hstays hmem
        refine ⟨row, hrow, ?_⟩
        rw [rewritten_id f.kept hsound.toFits hmem, hmore]
        exact hnew
      · obtain ⟨m, hm, rfl⟩ := Option.map_eq_some_iff.1 (Option.mem_toList.1 hn)
        obtain ⟨hcreated, hnone⟩ := told_made ho (Option.mem_def.1 hm)
        refine ⟨m.1, hcreated ▸ hnow, ?_⟩
        rw [changesOf_made f.kept hsound.toFits (Option.mem_def.1 hm)]
        refine ⟨rfl, rfl, rfl, ?_, ?_⟩
        · intro x hx
          obtain ⟨c, _, rfl⟩ := mem_map.1 hx
          exact hnow
        · rw [map_map, show (Prod.snd ∘ fun c : Change => (e.now, c)) = id from rfl, map_id, hnone]
          rfl

/-! ## The order of the changelog -/

theorem Runs.clocked {cond : Db → Event S → Prop} {h : List (Event S)} (hrun : Runs cond empty h db)
    (hclock : (h.map Event.now).Pairwise (· ≤ ·)) :
    (db.history.map Entry.createdAt).Pairwise (· ≤ ·) ∧ ∀ x ∈ db.history, x.createdAt ∈ h.map Event.now := by
  induction hrun with
  | nil => exact ⟨.nil, nofun⟩
  | @snoc h db e db' hrun hcond hstep ih =>
    rw [map_append] at hclock
    obtain ⟨hbefore, _, hlast⟩ := pairwise_append.1 hclock
    obtain ⟨hsorted, hmem⟩ := ih hbefore
    obtain ⟨o, _, rfl⟩ := map_ok.1 hstep
    have hrecord : ∀ (id : Uuid) (cs : List Change), ∀ x ∈ record e.now id cs, x.createdAt = e.now := by
      intro id cs x hx
      unfold record at hx
      split at hx
      · cases hx
      · rw [mem_singleton.1 hx]
    have hnew : ∃ new, (db.after e.now o).history = db.history ++ new ∧ ∀ x ∈ new, x.createdAt = e.now := by
      refine ⟨_, append_assoc .., fun x hx => ?_⟩
      rcases mem_append.1 hx with hx | hx
      · obtain ⟨ed, _, hx⟩ := mem_flatMap.1 hx
        exact hrecord _ _ x hx
      · cases hm : o.made with
        | none =>
          rw [hm] at hx
          cases hx
        | some =>
          rw [hm] at hx
          exact hrecord _ _ x hx
    obtain ⟨new, hhistory, hnow⟩ := hnew
    rw [hhistory]
    constructor
    · rw [map_append]
      refine pairwise_append.2 ⟨hsorted, ?_, ?_⟩
      · have hall : new.map Entry.createdAt = List.replicate new.length e.now :=
          eq_replicate_iff.2 ⟨length_map _, forall_mem_map.2 hnow⟩
        rw [hall]
        exact pairwise_replicate.2 (.inr le_rfl)
      · intro a ha b hb
        obtain ⟨x, hx, rfl⟩ := mem_map.1 ha
        obtain ⟨y, hy, rfl⟩ := mem_map.1 hb
        rw [hnow y hy]
        exact hlast _ (hmem x hx) _ (mem_singleton_self _)
    · intro x hx
      rw [map_append]
      rcases mem_append.1 hx with hx | hx
      · exact mem_append_left _ (hmem x hx)
      · rw [hnow x hx]
        exact mem_append_right _ (mem_singleton_self _)

theorem changesOf_sorted {history : List Entry} (h : (history.map Entry.createdAt).Pairwise (· ≤ ·)) (id : Uuid) :
    (changesOf history id).Pairwise fun a b => a.1 ≤ b.1 := by
  have hfst : ∀ (x : Entry), ∀ a ∈ (if x.issueID = id then x.changes.map fun c => (x.createdAt, c) else []), a.1 = x.createdAt := by
    intro x a ha
    split at ha
    · obtain ⟨c, _, rfl⟩ := mem_map.1 ha
      rfl
    · cases ha
  unfold changesOf
  refine pairwise_flatMap.2 ⟨fun x _ => ?_, ?_⟩
  · exact pairwise_of_forall_mem_list fun a ha b hb => by rw [hfst x a ha, hfst x b hb]
  · refine (pairwise_map.1 h).imp fun {x y} hxy a ha b hb => ?_
    rw [hfst x a ha, hfst y b hb]
    exact hxy

theorem statusChanges_sorted (h : (db.history.map Entry.createdAt).Pairwise (· ≤ ·)) {id : Uuid}
    (hdistinct : ((statusChanges db id).map Prod.fst).Nodup) : (statusChanges db id).Pairwise fun a b => a.1 < b.1 := by
  have hle := (changesOf_sorted h id).sublist (filter_sublist (p := fun x => decide (x.2.field = "status")))
  exact (hle.and (pairwise_map.1 hdistinct)).imp fun hab => lt_of_le_of_ne hab.1 hab.2

theorem orderedInsert_last {α : Type} (r : α → α → Prop) [DecidableRel r] (a : α) :
    ∀ (l : List α), (∀ b ∈ l, ¬ r a b) → l.orderedInsert r a = l ++ [a]
  | [], _ => rfl
  | b :: l, h => by
    rw [List.orderedInsert, if_neg (h b mem_cons_self),
      orderedInsert_last r a l fun c hc => h c (mem_cons_of_mem _ hc), cons_append]

theorem latest_first {α : Type} : ∀ {l : List (Int × α)}, (l.Pairwise fun a b => a.1 < b.1) →
    (l.insertionSort fun a b => b.1 ≤ a.1) = l.reverse
  | [], _ => rfl
  | a :: l, h => by
    obtain ⟨ha, hl⟩ := pairwise_cons.1 h
    rw [insertionSort_cons, latest_first hl, orderedInsert_last, reverse_cons]
    intro b hb
    exact not_le_of_gt (ha b (mem_reverse.1 hb))

theorem earliest_first {α : Type} {l : List (Int × α)} (h : l.Pairwise fun a b => a.1 < b.1) :
    (l.insertionSort fun a b => a.1 ≤ b.1) = l :=
  List.Pairwise.insertionSort_eq (h.imp le_of_lt)

/-! ## The status on a day -/

section
variable {S : Statuses}

theorem named_known {name : Change → String} {x : Int × Change} {s : Status} (hs : s ∈ S.rows) (hname : name x.2 = s.name) :
    named S name x = some (x.1, s.id) := by
  unfold named
  cases hfind : S.rows.find? fun s' => S.lower s'.name = S.lower (name x.2) with
  | none => exact absurd (List.find?_eq_none.1 hfind s hs) (by simp [hname])
  | some s' =>
    have hlower := List.find?_some hfind
    have hsame : s' = s := S.names s' (mem_of_find?_eq_some hfind) s hs (by rw [of_decide_eq_true hlower, hname])
    rw [hsame]
    rfl

theorem named_fst {name : Change → String} {x : Int × Change} {y : Int × Uuid} (h : named S name x = some y) : y.1 = x.1 := by
  obtain ⟨s, _, rfl⟩ := Option.map_eq_some_iff.1 h
  rfl

theorem named_sorted (name : Change → String) {l : List (Int × Change)} (h : l.Pairwise fun a b => a.1 < b.1) :
    (l.filterMap (named S name)).Pairwise fun a b => a.1 < b.1 :=
  pairwise_filterMap.2 (h.imp fun {a b} hab x hx y hy => by rw [named_fst hx, named_fst hy]; exact hab)

theorem told_status (changes : List (Int × Change)) : told .status (changes.map Prod.snd) =
    (changes.filter fun x => x.2.field = "status").map fun x => (x.2.from_, x.2.to_) := by
  unfold told
  rw [filter_map, map_map]
  rfl

theorem statusOn_eq {db : Db} {dayEnd : Int} {was i : Issue} {before since : List (Int × Change)}
    (hchanges : changesOf db.history i.id = before ++ since) (hbefore : ∀ x ∈ before, x.1 < dayEnd)
    (hsince : ∀ x ∈ since, ¬ x.1 < dayEnd) (hsorted : (statusChanges db i.id).Pairwise fun a b => a.1 < b.1)
    (hlast : ∀ t ∈ (told .status (before.map Prod.snd)).getLast?, t.2 = was.status.name)
    (htrail : Trail was.status.name (told .status (since.map Prod.snd)) i.status.name)
    (hwas : was.status ∈ S.rows) (hi : i.status ∈ S.rows) : statusOn S db dayEnd i = was.status.id := by
  rw [told_status] at hlast htrail
  have hsplit : statusChanges db i.id = (before.filter fun x => x.2.field = "status") ++ since.filter fun x => x.2.field = "status" := by
    unfold statusChanges
    rw [hchanges, filter_append]
  have hday : (statusChanges db i.id).filter (fun x => x.1 < dayEnd) = before.filter fun x => x.2.field = "status" := by
    have hnone : (since.filter fun x => x.2.field = "status").filter (fun x => x.1 < dayEnd) = [] :=
      filter_eq_nil_iff.2 fun x hx => by simpa using hsince x (mem_of_mem_filter hx)
    rw [hsplit, filter_append, hnone, append_nil]
    exact filter_eq_self.2 fun x hx => decide_eq_true (hbefore x (mem_of_mem_filter hx))
  unfold statusOn
  dsimp only
  rw [latest_first (named_sorted _ (hsorted.filter _)), earliest_first (named_sorted _ hsorted), hday, List.head?_reverse]
  generalize before.filter (fun x => x.2.field = "status") = earlier at hsplit hlast
  generalize since.filter (fun x => x.2.field = "status") = later at hsplit htrail
  rcases eq_nil_or_concat earlier with rfl | ⟨init, x, rfl⟩
  · rw [hsplit]
    cases later with
    | nil =>
      -- it has had no change: it is what it was
      have hsame : i.status = was.status := S.names _ hi _ hwas (congrArg S.lower htrail.symm)
      rw [hsame]
      rfl
    | cons y later =>
      -- the first change since left it
      have hfrom := @named_known S Change.from_ y was.status hwas htrail.1
      rw [nil_append, filterMap_cons, hfrom]
      rfl
  · -- the last change before the day ended arrived at it
    have hto : x.2.to_ = was.status.name := hlast (x.2.from_, x.2.to_) (by simp)
    have hnamed := @named_known S Change.to_ x was.status hwas hto
    rw [concat_eq_append, filterMap_append, filterMap_cons, hnamed, filterMap_nil, List.getLast?_concat]
    rfl

end

/-! ## The rows of a rebuilt day -/

def asHeld (past now : Db) : Db :=
  { past with issues := past.issues.map fun i => { i with project := ((byID now i.id).map Issue.project).getD i.project } }

theorem Kept.byID (k : Kept S db) {i : Issue} (hi : i ∈ db.issues) : byID db i.id = some i := by
  unfold Issues.byID
  cases hfind : db.issues.find? fun j => j.id = i.id with
  | none => exact absurd (decide_eq_true rfl) (List.find?_eq_none.1 hfind i hi)
  | some =>
    have hid := List.find?_some hfind
    rw [k.same (mem_of_find?_eq_some hfind) hi (of_decide_eq_true hid)]

theorem clocked_split {S : Statuses} (moment : Int) : ∀ {h : List (Event S)}, ((h.map Event.now).Pairwise (· ≤ ·)) →
    (h.filter fun e => e.now < moment) ++ (h.filter fun e => ¬ e.now < moment) = h
  | [], _ => rfl
  | e :: h, hclock => by
    obtain ⟨hfirst, hclock⟩ := pairwise_cons.1 hclock
    by_cases he : e.now < moment
    · rw [filter_cons_of_pos (by simpa using he), filter_cons_of_neg (by simpa using he), cons_append,
        clocked_split moment hclock]
    · have hlater : ∀ e' ∈ e :: h, ¬ e'.now < moment := by
        intro e' he'
        rcases mem_cons.1 he' with rfl | he'
        · exact he
        · have := hfirst _ (mem_map_of_mem he')
          omega
      rw [filter_eq_nil_iff.2 fun e' he' => by simpa using hlater e' he', nil_append]
      exact filter_eq_self.2 fun e' he' => decide_eq_true (hlater e' he')

theorem sum_grouped (p : Uuid) (day : Int) (flag : Bool) (ids : List Uuid) :
    ((grouped p day flag ids).map FlowRow.count).sum = ids.length := by
  unfold grouped
  rw [map_map]
  exact sum_map_count_dedup_eq_length ids

section
variable {S : Statuses} {past db : Db} {moment : Int} {became : Issue → Issue} {born made : List Issue}

theorem statuses_then (f₁ : Followed S (fun t => t < moment) empty past id born)
    (f₂ : Followed S (fun t => ¬ t < moment) past db became made) (hhistory : (db.history.map Entry.createdAt).Pairwise (· ≤ ·))
    (hdistinct : ∀ i ∈ db.issues, ((statusChanges db i.id).map Prod.fst).Nodup) (p : Uuid) :
    (db.issues.filter fun i => decide (i.project.id = p ∧ i.createdAt < moment) && notSubtask i).map (statusOn S db moment) =
      (past.issues.filter fun i => notSubtask i && decide ((became i).project.id = p)).map fun i => i.status.id := by
  have hmade : (made.filter fun i => decide (i.project.id = p ∧ i.createdAt < moment) && notSubtask i) = [] := by
    refine filter_eq_nil_iff.2 fun n hn => ?_
    obtain ⟨row, hrow, hsince⟩ := f₂.new n hn
    rw [← hsince.createdAt] at hrow
    simp [hrow]
  have hborn : past.issues = born := f₁.rows
  have hsame : ∀ i ∈ past.issues, (decide ((became i).project.id = p ∧ (became i).createdAt < moment) && notSubtask (became i)) =
      (notSubtask i && decide ((became i).project.id = p)) := by
    intro i hi
    obtain ⟨row, hrow, hmade⟩ := f₁.new i (hborn ▸ hi)
    obtain ⟨later, _, hsince⟩ := f₂.old i hi
    have hcreated : (became i).createdAt < moment := by
      rw [hsince.createdAt, hmade.createdAt]
      exact hrow
    unfold notSubtask
    rw [hsince.type]
    simp [hcreated, Bool.and_comm]
  have hfilter : past.issues.filter ((fun i => decide (i.project.id = p ∧ i.createdAt < moment) && notSubtask i) ∘ became) =
      past.issues.filter fun i => notSubtask i && decide ((became i).project.id = p) := filter_congr hsame
  rw [f₂.rows, filter_append, hmade, append_nil, filter_map, map_map, hfilter]
  refine map_congr_left fun i hi => ?_
  have hi := mem_of_mem_filter hi
  have hbecame : became i ∈ db.issues := f₂.rows ▸ mem_append_left _ (mem_map_of_mem hi)
  obtain ⟨row, _, hmade⟩ := f₁.new i (hborn ▸ hi)
  obtain ⟨later, hchanges, hsince⟩ := f₂.old i hi
  rw [← hsince.id] at hchanges
  exact statusOn_eq hchanges (fun x hx => hmade.times x (hsince.id ▸ hx)) hsince.times
    (statusChanges_sorted hhistory (hdistinct _ hbecame)) (by rw [hsince.id]; exact hmade.trail.last) hsince.trail
    (f₁.kept.status i hi) (f₂.kept.status _ hbecame)

theorem asHeld_rows (f₂ : Followed S (fun t => ¬ t < moment) past db became made) (p : Uuid) :
    (((asHeld past db).issues.filter fun i => notSubtask i && decide (i.project.id = p)).map fun i => i.status.id) =
      (past.issues.filter fun i => notSubtask i && decide ((became i).project.id = p)).map fun i => i.status.id := by
  unfold asHeld
  dsimp only
  rw [filter_map, map_map]
  have hsame : ∀ i ∈ past.issues, byID db i.id = some (became i) := by
    intro i hi
    have hbecame : became i ∈ db.issues := f₂.rows ▸ mem_append_left _ (mem_map_of_mem hi)
    obtain ⟨later, _, hsince⟩ := f₂.old i hi
    rw [← hsince.id, f₂.kept.byID hbecame]
  have hcongr := @filter_congr _ ((fun i : Issue => notSubtask i && decide (i.project.id = p)) ∘
      fun i : Issue => { i with project := ((byID db i.id).map Issue.project).getD i.project })
    (fun i => notSubtask i && decide ((became i).project.id = p)) past.issues fun i hi => by
      simp [notSubtask, hsame i hi]
  rw [hcongr]
  rfl

theorem held_then (f₂ : Followed S (fun t => ¬ t < moment) past db became made) (p : Uuid) :
    (past.issues.filter fun i => notSubtask i && decide ((became i).project.id = p)).length =
      db.issues.countP fun i => decide (i.project.id = p ∧ i.id ∈ past.issues.map Issue.id) && notSubtask i := by
  have hids : past.issues.map Issue.id = (past.issues.map became).map Issue.id := by
    rw [map_map]
    refine map_congr_left fun i hi => ?_
    obtain ⟨later, _, hsince⟩ := f₂.old i hi
    exact hsince.id.symm
  have hnodup := f₂.kept.ids
  rw [f₂.rows, map_append, ← hids] at hnodup
  have hmade : made.countP (fun i => decide (i.project.id = p ∧ i.id ∈ past.issues.map Issue.id) && notSubtask i) = 0 := by
    refine countP_eq_zero.2 fun n hn hin => ?_
    have hin := (of_decide_eq_true (Bool.and_eq_true_iff.1 hin).1).2
    exact (nodup_append.1 hnodup).2.2 _ hin _ (mem_map_of_mem hn) rfl
  rw [f₂.rows, countP_append, hmade, Nat.add_zero, countP_map, ← countP_eq_length_filter]
  refine countP_congr fun i hi => ?_
  obtain ⟨later, _, hsince⟩ := f₂.old i hi
  have hin : (became i).id ∈ past.issues.map Issue.id := hsince.id ▸ mem_map_of_mem hi
  unfold notSubtask
  dsimp only [Function.comp]
  rw [hsince.type]
  simp [hin, and_comm]

end

/-- **A rebuilt day equals the snapshot that was missed**: the rows of a missing day are those of a snapshot at its end, for the
issues the project holds now, and count each of those that existed. -/
theorem rebuilt_day {h : List (Event S)} (hrun : Runs KeepsType empty h db)
    (hclock : (h.map Event.now).Pairwise (· ≤ ·)) (hdistinct : ∀ i ∈ db.issues, ((statusChanges db i.id).map Prod.fst).Nodup)
    (dayEnd : Int → Int) {from_ to_ : Int} {table : List FlowRow} (hday : day ∈ missing table p from_ to_) :
    ∃ past, Runs KeepsType empty (h.filter fun e => e.now < dayEnd day) past ∧
      rowsOf (reconstructMissingDays S db dayEnd p from_ to_ table).2 p day =
        (rowsOf (writeFlowSnapshot (asHeld past db) p day table) p day).map (fun r => { r with reconstructed := true }) ∧
      ((rowsOf (reconstructMissingDays S db dayEnd p from_ to_ table).2 p day).map FlowRow.count).sum =
        db.issues.countP fun i => decide (i.project.id = p ∧ i.id ∈ past.issues.map Issue.id) && notSubtask i := by
  have hhistory := (hrun.clocked hclock).1
  rw [← clocked_split (dayEnd day) hclock] at hrun
  obtain ⟨past, hpast, hsince⟩ := hrun.split
  obtain ⟨was, born, f₁⟩ : ∃ was born, Followed S (fun t => t < dayEnd day) empty past was born := hpast.followed kept_empty bare_empty fun e he => of_decide_eq_true (mem_filter.1 he).2
  obtain ⟨became, made, f₂⟩ : ∃ became made, Followed S (fun t => ¬ t < dayEnd day) past db became made := hsince.followed f₁.kept f₁.bare fun e he => of_decide_eq_true (mem_filter.1 he).2
  have f₁ : Followed S (fun t => t < dayEnd day) empty past id born := ⟨f₁.kept, f₁.bare, f₁.rows, fun _ hi => absurd hi not_mem_nil, f₁.new⟩
  refine ⟨past, hpast, ?_⟩
  rw [rowsOf_reconstruct S db dayEnd hday, rowsOf_writeFlowSnapshot, asHeld_rows f₂ p]
  unfold rebuilt
  rw [statuses_then f₁ f₂ hhistory hdistinct p]
  refine ⟨?_, ?_⟩
  · unfold grouped
    rw [map_map]
    rfl
  · rw [sum_grouped, length_map]
    exact held_then f₂ p

/-- A day of ten moments on which the issue was not yet done. -/
theorem Small.first_day_rebuilt : ∃ past,
    Runs KeepsType empty ([plans, makes, finishes].filter fun e => e.now < (0 + 1) * 10) past ∧
      rowsOf (reconstructMissingDays statuses finished (fun day => (day + 1) * 10) 1 0 2 []).2 1 0 =
        (rowsOf (writeFlowSnapshot (asHeld past finished) 1 0 []) 1 0).map (fun r => { r with reconstructed := true }) ∧
      ((rowsOf (reconstructMissingDays statuses finished (fun day => (day + 1) * 10) 1 0 2 []).2 1 0).map FlowRow.count).sum =
        finished.issues.countP fun i => decide (i.project.id = 1 ∧ i.id ∈ past.issues.map Issue.id) && notSubtask i := by
  have hrun : Runs KeepsType empty [plans, makes, finishes] finished :=
    .snoc (runs_made (fun _ _ h => by cases h) (fun _ _ h => by cases h)) (fun _ _ h => by cases h) rfl
  exact rebuilt_day hrun (by decide) (by decide) (fun day => (day + 1) * 10) (by decide)

end Issues
end Armature
