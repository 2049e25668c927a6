import Armature.WorkflowGraph
/-!
# WorkflowSave — what a saved workflow holds (`workflow/admin.go`)

A save stores one step per status and one transition per transition of the input, and keeps the rules the input says
nothing about, exactly when no stored transition is named twice and none whose rules are to be kept loses a status.
-/
namespace Armature
namespace Graph

open List
open Go (Text)
open Wf (Uuid)
open Rows (upsert)

variable {names : Uuid → Option Text} {registry : Registry} {lower : Text → Text} {db : Tables} {workflow : Uuid}
  {in_ : GraphInput}

/-! ## What is stored and what is wanted -/

structure StepView where
  statusId : Uuid
  isInitial : Bool
  position : Nat
  layout : Option (Int × Int)
  deriving DecidableEq

def StepRow.view (s : StepRow) : StepView := ⟨s.statusId, s.isInitial, s.position, s.layout⟩

def StepInput.view (input : StepInput × Nat) : StepView := ⟨input.1.statusId, input.1.isInitial, input.2, input.1.layout⟩

structure TransitionView where
  name : Text
  description : Text
  from_ : Option Uuid
  to_ : Uuid
  position : Nat
  deriving DecidableEq

def statusOf (steps : List StepRow) (id : Uuid) : Uuid := ((steps.find? (fun s => s.id = id)).map StepRow.statusId).getD Uuid.none

def TransitionRow.view (steps : List StepRow) (t : TransitionRow) : TransitionView :=
  ⟨t.name, t.description, t.fromStepId.map (statusOf steps), statusOf steps t.toStepId, t.position⟩

def TransitionInput.view (input : TransitionInput × Nat) : TransitionView :=
  ⟨input.1.name, input.1.description, input.1.fromStatusId, input.1.toStatusId, input.2⟩

structure RuleView where
  kind : Text
  type : Text
  config : Text
  position : Nat
  deriving DecidableEq

def RuleRow.view (r : RuleRow) : RuleView := ⟨r.kind, r.type, r.config, r.position⟩

def RuleInput.view (input : RuleInput × Nat) : RuleView :=
  ⟨input.1.kind, input.1.type, if input.1.config = [] then "{}".toList else input.1.config, input.2⟩

structure Saved (before after : Tables) (workflow : Uuid) (in_ : GraphInput) : Prop where
  steps : ((after.stepsOf workflow).map StepRow.view).Perm (in_.steps.zipIdx.map StepInput.view)
  transitions : ((after.transitionsOf workflow).map (TransitionRow.view after.steps)).Perm
    (in_.transitions.zipIdx.map TransitionInput.view)
  rules : ∀ t ∈ in_.transitions, t.rules = none → ∀ e ∈ before.transitions, e.workflowId = workflow → e.id = t.id →
    after.rulesOf e.id = before.rulesOf e.id
  given : ∀ x ∈ in_.transitions.zipIdx,
    (x.1.rules ≠ none ∨ ∀ e ∈ before.transitions, e.workflowId = workflow → e.id ≠ x.1.id) →
      ∃ t ∈ after.transitionsOf workflow, t.view after.steps = TransitionInput.view x ∧
        (after.rulesOf t.id).map RuleRow.view = (x.1.rules.getD []).zipIdx.map RuleInput.view

/-- What the database's keys and references promise of the tables. -/
structure Stored (db : Tables) : Prop where
  steps : Rows.Fresh StepRow.id (db.steps, db.next)
  statuses : ∀ workflow, ((db.stepsOf workflow).map StepRow.statusId).Nodup
  transitions : Rows.Fresh TransitionRow.id (db.transitions, db.next)
  rules : ∀ r ∈ db.rules, ∃ t ∈ db.transitions, t.id = r.transitionId
  to_step : ∀ t ∈ db.transitions, ∃ s ∈ db.steps, s.id = t.toStepId ∧ s.workflowId = t.workflowId
  from_step : ∀ t ∈ db.transitions, ∀ id, t.fromStepId = some id → ∃ s ∈ db.steps, s.id = id ∧ s.workflowId = t.workflowId

def Survives (db : Tables) (in_ : GraphInput) (e : TransitionRow) : Prop :=
  ∀ s ∈ db.steps, s.id = e.toStepId ∨ e.fromStepId = some s.id → s.statusId ∈ in_.steps.map StepInput.statusId

instance (db : Tables) (in_ : GraphInput) (e : TransitionRow) : Decidable (Survives db in_ e) :=
  inferInstanceAs (Decidable (∀ s ∈ db.steps, s.id = e.toStepId ∨ e.fromStepId = some s.id →
    s.statusId ∈ in_.steps.map StepInput.statusId))

/-- No stored transition that survives is named twice, and one whose rules are to be kept survives. -/
structure Keeps (db : Tables) (workflow : Uuid) (in_ : GraphInput) : Prop where
  once : ((in_.transitions.map TransitionInput.id).filter
    (fun id => ∃ e ∈ db.transitions, e.workflowId = workflow ∧ e.id = id ∧ Survives db in_ e)).Nodup
  rules : ∀ t ∈ in_.transitions, t.rules = none → ∀ e ∈ db.transitions, e.workflowId = workflow → e.id = t.id →
    db.rulesOf e.id ≠ [] → Survives db in_ e

/-! ## A graph that is accepted -/

structure Valid (in_ : GraphInput) : Prop where
  statuses : (in_.steps.map StepInput.statusId).Nodup
  to_in : ∀ t ∈ in_.transitions, t.toStatusId ∈ in_.steps.map StepInput.statusId
  from_in : ∀ t ∈ in_.transitions, ∀ status, t.fromStatusId = some status → status ∈ in_.steps.map StepInput.statusId

theorem checkStep_ok {acc acc' : Text × List Uuid} {step : StepInput} (h : checkStep names acc step = .ok acc') :
    step.statusId ∉ acc.2 ∧ acc'.2 = step.statusId :: acc.2 := by
  unfold checkStep at h
  split at h
  · cases h
  · split at h
    · cases h
    · refine ⟨‹_›, ?_⟩
      split at h
      · split at h
        · cases h
        · cases h
          rfl
      · cases h
        rfl

theorem checkSteps_ok : ∀ {steps : List StepInput} {acc acc' : Text × List Uuid}, steps.foldlM (checkStep names) acc = .ok acc' →
    acc.2.Nodup → acc'.2.Nodup ∧ acc'.2 = (steps.map StepInput.statusId).reverse ++ acc.2
  | [], acc, acc', h, hn => by
    cases h
    exact ⟨hn, rfl⟩
  | step :: steps, acc, acc', h, hn => by
    rw [foldlM_cons] at h
    cases hs : checkStep names acc step with
    | error =>
      rw [hs] at h
      cases h
    | ok =>
      rw [hs] at h
      obtain ⟨hnew, hmid⟩ := checkStep_ok hs
      obtain ⟨hn', he⟩ := checkSteps_ok h (hmid ▸ nodup_cons.2 ⟨hnew, hn⟩)
      refine ⟨hn', ?_⟩
      rw [he, hmid, map_cons, reverse_cons, append_assoc]
      rfl

theorem checkEdge_ok {inWorkflow : List Uuid} {byName byName' : List (Uuid × Text)} {t : TransitionInput}
    (h : checkEdge names inWorkflow byName t = .ok byName') :
    t.toStatusId ∈ inWorkflow ∧ ∀ status, t.fromStatusId = some status → status ∈ inWorkflow := by
  unfold checkEdge at h
  split at h
  · cases h
  · split at h
    · cases h
    · rename_i hto
      refine ⟨not_not.1 hto, fun status hs => ?_⟩
      rw [hs] at h
      dsimp only at h
      by_contra hin
      rw [if_pos hin] at h
      cases h

theorem validateEdges_ok {inWorkflow : List Uuid} : ∀ {transitions : List TransitionInput} {byName byName' : List (Uuid × Text)},
    transitions.foldlM (checkEdge names inWorkflow) byName = .ok byName' → ∀ t ∈ transitions,
      t.toStatusId ∈ inWorkflow ∧ ∀ status, t.fromStatusId = some status → status ∈ inWorkflow
  | [], _, _, _, _, ht => absurd ht not_mem_nil
  | edge :: transitions, byName, byName', h, t, ht => by
    rw [foldlM_cons] at h
    cases he : checkEdge names inWorkflow byName edge with
    | error =>
      rw [he] at h
      cases h
    | ok =>
      rw [he] at h
      rcases mem_cons.1 ht with rfl | ht
      · exact checkEdge_ok he
      · exact validateEdges_ok h t ht

theorem validateGraph_ok (h : validateGraph names in_ = .ok ()) : Valid in_ := by
  unfold validateGraph at h
  split at h
  · cases h
  · split at h
    · cases h
    · cases hs : in_.steps.foldlM (checkStep names) ([], []) with
      | error =>
        rw [hs] at h
        cases h
      | ok acc =>
        rw [hs] at h
        obtain ⟨hn, he⟩ := checkSteps_ok hs nodup_nil
        rw [append_nil] at he
        change (if acc.1 = [] then _ else validateEdges names in_.transitions acc.2) = .ok () at h
        split at h
        · cases h
        · have hedges : ∀ t ∈ in_.transitions, t.toStatusId ∈ acc.2 ∧ ∀ status, t.fromStatusId = some status → status ∈ acc.2 := by
            unfold validateEdges at h
            cases ht : in_.transitions.foldlM (checkEdge names acc.2) [] with
            | error =>
              rw [ht] at h
              cases h
            | ok => exact validateEdges_ok ht
          rw [he] at hn hedges
          simp only [mem_reverse] at hedges
          exact ⟨nodup_reverse.1 hn, fun t ht => (hedges t ht).1, fun t ht => (hedges t ht).2⟩

/-! ## Steps -/

def goneStep (workflow : Uuid) (in_ : GraphInput) (s : StepRow) : Bool :=
  decide (s.workflowId = workflow) && decide (s.statusId ∉ in_.steps.map StepInput.statusId)

def clear (workflow : Uuid) (s : StepRow) : StepRow :=
  if s.workflowId = workflow ∧ s.isInitial then { s with isInitial := false } else s

def trimmed (db : Tables) (workflow : Uuid) (in_ : GraphInput) : Tables :=
  let db := db.deleteSteps (goneStep workflow in_)
  { db with steps := db.steps.map (clear workflow) }

def written (db : Tables) (workflow : Uuid) (in_ : GraphInput) : Tables × (Uuid → Option Uuid) :=
  in_.steps.zipIdx.foldl (writeStep workflow) (trimmed db workflow in_, db.stepsByStatus workflow)

theorem clear_same (s : StepRow) : (clear workflow s).id = s.id ∧ (clear workflow s).workflowId = s.workflowId ∧
    (clear workflow s).statusId = s.statusId := by
  unfold clear
  split <;> exact ⟨rfl, rfl, rfl⟩

theorem mem_trimmed_steps {s' : StepRow} : s' ∈ (trimmed db workflow in_).steps ↔
    ∃ s ∈ db.steps, goneStep workflow in_ s = false ∧ s' = clear workflow s := by
  change s' ∈ (db.steps.filter (fun s => !goneStep workflow in_ s)).map (clear workflow) ↔ _
  rw [mem_map]
  constructor
  · rintro ⟨s, hs, rfl⟩
    rw [mem_filter, Bool.not_eq_true'] at hs
    exact ⟨s, hs.1, hs.2, rfl⟩
  · rintro ⟨s, hs, hg, rfl⟩
    exact ⟨s, mem_filter.2 ⟨hs, by rw [hg]; rfl⟩, rfl⟩

theorem goneStep_false {s : StepRow} : goneStep workflow in_ s = false ↔
    (s.workflowId = workflow → s.statusId ∈ in_.steps.map StepInput.statusId) := by
  unfold goneStep
  rw [Bool.and_eq_false_iff, decide_eq_false_iff_not, decide_eq_false_iff_not, not_not]
  tauto

theorem trimmed_fresh (h : Stored db) : Rows.Fresh StepRow.id ((trimmed db workflow in_).steps, db.next) := by
  have hids : ((trimmed db workflow in_).steps.map StepRow.id).Sublist (db.steps.map StepRow.id) := by
    change (((db.steps.filter (fun s => !goneStep workflow in_ s)).map (clear workflow)).map StepRow.id).Sublist _
    have hsame : StepRow.id ∘ clear workflow = StepRow.id := funext fun s => (clear_same s).1
    rw [map_map, hsame]
    exact filter_sublist.map _
  refine ⟨h.steps.nodup.sublist hids, fun s hs => ?_⟩
  obtain ⟨r, hr, _, rfl⟩ := mem_trimmed_steps.1 hs
  rw [(clear_same r).1]
  exact h.steps.below r hr

theorem stepsByStatus_some {status id : Uuid} (h : db.stepsByStatus workflow status = some id) :
    ∃ s ∈ db.steps, s.id = id ∧ s.statusId = status ∧ s.workflowId = workflow := by
  obtain ⟨s, hs, rfl⟩ := Option.map_eq_some_iff.1 h
  have hstatus := List.find?_some hs
  obtain ⟨hs, hw⟩ := mem_filter.1 (mem_of_find?_eq_some hs)
  exact ⟨s, hs, rfl, of_decide_eq_true hstatus, of_decide_eq_true hw⟩

theorem stepsByStatus_of_mem (h : Stored db) {s : StepRow} (hs : s ∈ db.steps) (hw : s.workflowId = workflow) :
    db.stepsByStatus workflow s.statusId = some s.id := by
  have hmem : s ∈ db.stepsOf workflow := mem_filter.2 ⟨hs, decide_eq_true hw⟩
  unfold Tables.stepsByStatus
  cases hf : (db.stepsOf workflow).find? (fun r => r.statusId = s.statusId) with
  | none => exact absurd (decide_eq_true rfl) (List.find?_eq_none.1 hf s hmem)
  | some =>
    have hstatus := List.find?_some hf
    rw [inj_on_of_nodup_map (h.statuses workflow) (mem_of_find?_eq_some hf) hmem (of_decide_eq_true hstatus)]
    rfl

def editStep (input : StepInput × Nat) : StepRow → StepRow := setStep input.1 input.2

def newStep (workflow : Uuid) (input : StepInput × Nat) (id : Uuid) : StepRow :=
  ⟨id, workflow, input.1.statusId, input.1.isInitial, input.2, input.1.layout⟩

theorem id_editStep (x : StepInput × Nat) (s : StepRow) : (editStep x s).id = s.id := rfl

theorem id_newStep (workflow : Uuid) (x : StepInput × Nat) (id : Uuid) : (newStep workflow x id).id = id := rfl

theorem writeSteps_eq {target : StepInput × Nat → Option Uuid} : ∀ (xs : List (StepInput × Nat)) (db : Tables) (m : Uuid → Option Uuid),
    (xs.map (fun x => x.1.statusId)).Nodup → (∀ x ∈ xs, target x = m x.1.statusId) →
      (xs.foldl (writeStep workflow) (db, m)).1 =
        { db with
          steps := (xs.foldl (upsert StepRow.id target editStep (newStep workflow)) (db.steps, db.next)).1
          next := (xs.foldl (upsert StepRow.id target editStep (newStep workflow)) (db.steps, db.next)).2 }
  | [], _, _, _, _ => rfl
  | x :: xs, db, m, hnodup, htarget => by
    rw [map_cons, nodup_cons] at hnodup
    rw [foldl_cons, foldl_cons]
    have hx := htarget x mem_cons_self
    cases hm : m x.1.statusId with
    | some existing =>
      have hstep : writeStep workflow (db, m) x =
          ({ db with steps := Rows.update StepRow.id existing (setStep x.1 x.2) db.steps }, m) := by
        unfold writeStep
        dsimp only
        rw [hm]
      have hupsert : upsert StepRow.id target editStep (newStep workflow) (db.steps, db.next) x =
          (Rows.update StepRow.id existing (setStep x.1 x.2) db.steps, db.next) := by
        unfold upsert
        rw [hx, hm]
        rfl
      rw [hstep, hupsert, writeSteps_eq xs _ m hnodup.2 fun y hy => htarget y (mem_cons_of_mem x hy)]
    | none =>
      have hstep : writeStep workflow (db, m) x =
          ({ db with steps := db.steps ++ [newStep workflow x db.next], next := db.next + 1 },
            Function.update m x.1.statusId (some db.next)) := by
        unfold writeStep
        dsimp only
        rw [hm]
        rfl
      have hupsert : upsert StepRow.id target editStep (newStep workflow) (db.steps, db.next) x =
          (db.steps ++ [newStep workflow x db.next], db.next + 1) := by
        unfold upsert
        rw [hx, hm]
      rw [hstep, hupsert, writeSteps_eq xs _ _ hnodup.2 fun y hy => ?_]
      rw [htarget y (mem_cons_of_mem x hy), Function.update_of_ne]
      exact fun he => hnodup.1 (he ▸ mem_map_of_mem hy)

def Maps (statuses : List Uuid) (workflow : Uuid) (steps : List StepRow) (m : Uuid → Option Uuid) : Prop :=
  ∀ status ∈ statuses, ∀ id, m status = some id → ∃ s ∈ steps, s.id = id ∧ s.statusId = status ∧ s.workflowId = workflow

theorem writeStep_maps {statuses : List Uuid} {acc : Tables × (Uuid → Option Uuid)} (h : Maps statuses workflow acc.1.steps acc.2)
    (x : StepInput × Nat) : Maps statuses workflow (writeStep workflow acc x).1.steps (writeStep workflow acc x).2 := by
  intro status hstatus id hid
  unfold writeStep at hid ⊢
  cases hm : acc.2 x.1.statusId with
  | some existing =>
    simp only [hm] at hid ⊢
    obtain ⟨s, hs, hrest⟩ := h status hstatus id hid
    by_cases he : s.id = existing
    · exact ⟨setStep x.1 x.2 s, Rows.mem_update.2 ⟨s, hs, .inl ⟨he, rfl⟩⟩, hrest⟩
    · exact ⟨s, Rows.mem_update.2 ⟨s, hs, .inr ⟨he, rfl⟩⟩, hrest⟩
  | none =>
    simp only [hm] at hid ⊢
    by_cases he : status = x.1.statusId
    · rw [he, Function.update_self] at hid
      cases hid
      exact ⟨_, mem_append_right _ (mem_singleton_self _), rfl, he.symm, rfl⟩
    · rw [Function.update_of_ne he] at hid
      obtain ⟨s, hs, hrest⟩ := h status hstatus id hid
      exact ⟨s, mem_append_left _ hs, hrest⟩

theorem writeSteps_maps {statuses : List Uuid} : ∀ (xs : List (StepInput × Nat)) {acc : Tables × (Uuid → Option Uuid)},
    Maps statuses workflow acc.1.steps acc.2 →
      Maps statuses workflow (xs.foldl (writeStep workflow) acc).1.steps (xs.foldl (writeStep workflow) acc).2
  | [], _, h => h
  | x :: xs, _, h => writeSteps_maps xs (writeStep_maps h x)

theorem writeStep_some (acc : Tables × (Uuid → Option Uuid)) (x : StepInput × Nat) :
    ((writeStep workflow acc x).2 x.1.statusId).isSome = true ∧
      ∀ status, (acc.2 status).isSome = true → ((writeStep workflow acc x).2 status).isSome = true := by
  unfold writeStep
  cases hm : acc.2 x.1.statusId with
  | some =>
    simp only [hm]
    exact ⟨rfl, fun _ h => h⟩
  | none =>
    simp only [hm]
    refine ⟨by rw [Function.update_self]; rfl, fun status h => ?_⟩
    by_cases he : status = x.1.statusId
    · rw [he, Function.update_self]
      rfl
    · rwa [Function.update_of_ne he]

theorem writeSteps_some : ∀ (xs : List (StepInput × Nat)) (acc : Tables × (Uuid → Option Uuid)) (status : Uuid),
    ((acc.2 status).isSome = true ∨ status ∈ xs.map (fun x => x.1.statusId)) →
      ((xs.foldl (writeStep workflow) acc).2 status).isSome = true
  | [], _, _, h => h.resolve_right not_mem_nil
  | x :: xs, acc, status, h => by
    refine writeSteps_some xs (writeStep workflow acc x) status ?_
    rcases h with h | h
    · exact .inl ((writeStep_some acc x).2 status h)
    · rw [map_cons, mem_cons] at h
      rcases h with rfl | h
      · exact .inl (writeStep_some acc x).1
      · exact .inr h

/-! ## The tables once the steps are written -/

def statusTarget (db : Tables) (workflow : Uuid) (x : StepInput × Nat) : Option Uuid := db.stepsByStatus workflow x.1.statusId

theorem statuses_zipIdx (in_ : GraphInput) :
    in_.steps.zipIdx.map (fun x => x.1.statusId) = in_.steps.map StepInput.statusId := by
  have h := congrArg (List.map StepInput.statusId) (zipIdx_map_fst 0 in_.steps)
  rwa [map_map] at h

theorem written_eq (v : Valid in_) (db : Tables) (workflow : Uuid) : (written db workflow in_).1 =
    { trimmed db workflow in_ with
      steps := (in_.steps.zipIdx.foldl (upsert StepRow.id (statusTarget db workflow) editStep (newStep workflow))
        ((trimmed db workflow in_).steps, db.next)).1
      next := (in_.steps.zipIdx.foldl (upsert StepRow.id (statusTarget db workflow) editStep (newStep workflow))
        ((trimmed db workflow in_).steps, db.next)).2 } :=
  writeSteps_eq _ _ _ (by rw [statuses_zipIdx]; exact v.statuses) fun _ _ => rfl

theorem written_fresh (h : Stored db) (v : Valid in_) :
    Rows.Fresh StepRow.id ((written db workflow in_).1.steps, (written db workflow in_).1.next) := by
  rw [written_eq v]
  exact Rows.Fresh.upserts id_editStep (id_newStep workflow) _ (trimmed_fresh h)

theorem written_step (db : Tables) (workflow : Uuid) {status : Uuid} (hstatus : status ∈ in_.steps.map StepInput.statusId) :
    ∃ id, (written db workflow in_).2 status = some id ∧
      ∃ s ∈ (written db workflow in_).1.steps, s.id = id ∧ s.statusId = status ∧ s.workflowId = workflow := by
  have hsome : ((written db workflow in_).2 status).isSome = true :=
    writeSteps_some _ _ status (.inr (by rw [statuses_zipIdx]; exact hstatus))
  obtain ⟨id, hid⟩ := Option.isSome_iff_exists.1 hsome
  have hmaps : Maps (in_.steps.map StepInput.statusId) workflow (written db workflow in_).1.steps (written db workflow in_).2 := by
    refine writeSteps_maps _ fun status hstatus id hid => ?_
    obtain ⟨s, hs, rfl, rfl, hw⟩ := stepsByStatus_some hid
    exact ⟨clear workflow s, mem_trimmed_steps.2 ⟨s, hs, goneStep_false.2 fun _ => hstatus, rfl⟩, (clear_same s).1,
      (clear_same s).2.2, (clear_same s).2.1.trans hw⟩
  exact ⟨id, hid, hmaps status hstatus id hid⟩

theorem statusOf_step (h : Stored db) (v : Valid in_) {status : Uuid} (hstatus : status ∈ in_.steps.map StepInput.statusId) :
    statusOf (written db workflow in_).1.steps (((written db workflow in_).2 status).getD Uuid.none) = status := by
  obtain ⟨id, hid, s, hs, rfl, hst, _⟩ := written_step db workflow hstatus
  rw [hid, Option.getD_some]
  unfold statusOf
  cases hf : (written db workflow in_).1.steps.find? (fun r => r.id = s.id) with
  | none => exact absurd (decide_eq_true rfl) (List.find?_eq_none.1 hf s hs)
  | some =>
    have hkey := List.find?_some hf
    rw [inj_on_of_nodup_map (written_fresh h v).nodup (mem_of_find?_eq_some hf) hs (of_decide_eq_true hkey)]
    exact hst

theorem statusTarget_nodup (h : Stored db) (v : Valid in_) : (in_.steps.zipIdx.filterMap (statusTarget db workflow)).Nodup := by
  have he : in_.steps.zipIdx.filterMap (statusTarget db workflow) =
      (in_.steps.map StepInput.statusId).filterMap (db.stepsByStatus workflow) := by
    rw [← statuses_zipIdx, filterMap_map]
    rfl
  rw [he]
  refine v.statuses.filterMap fun a b id ha hb => ?_
  obtain ⟨s, hs, hsi, rfl, _⟩ := stepsByStatus_some ha
  obtain ⟨r, hr, hri, rfl, _⟩ := stepsByStatus_some hb
  rw [inj_on_of_nodup_map h.steps.nodup hs hr (hsi.trans hri.symm)]

theorem written_steps_perm (h : Stored db) (v : Valid in_) :
    (((written db workflow in_).1.stepsOf workflow).map StepRow.view).Perm (in_.steps.zipIdx.map StepInput.view) := by
  have hkeep : ∀ x s, decide ((editStep x s).workflowId = workflow) = decide (s.workflowId = workflow) := fun _ _ => rfl
  have hpass : ∀ x n, decide ((newStep workflow x n).workflowId = workflow) = true := fun _ _ => decide_eq_true rfl
  have hrows : (written db workflow in_).1.stepsOf workflow =
      (in_.steps.zipIdx.foldl (upsert StepRow.id (statusTarget db workflow) editStep (newStep workflow))
        ((trimmed db workflow in_).stepsOf workflow, db.next)).1 := by
    unfold Tables.stepsOf
    rw [written_eq v]
    exact Rows.filter_upserts (p := fun s : StepRow => decide (s.workflowId = workflow)) hkeep hpass _ _
  have hfresh : Rows.Fresh StepRow.id ((trimmed db workflow in_).stepsOf workflow, db.next) :=
    ⟨(trimmed_fresh h).nodup.sublist (filter_sublist.map _),
      fun s hs => (trimmed_fresh h).below s (mem_of_mem_filter hs)⟩
  have hwanted : ∀ x ∈ in_.steps.zipIdx, ∀ n, (newStep workflow x n).view = StepInput.view x := fun _ _ _ => rfl
  rw [hrows]
  refine (Rows.upserts_perm id_editStep (id_newStep workflow) _ hfresh (statusTarget_nodup h v) hwanted ?_).trans ?_
  · intro x hx k hk
    obtain ⟨s, hs, rfl, hst, hw⟩ := stepsByStatus_some hk
    have hin : x.1.statusId ∈ in_.steps.map StepInput.statusId := by
      rw [← statuses_zipIdx]
      exact mem_map_of_mem hx
    refine ⟨clear workflow s, mem_filter.2 ⟨mem_trimmed_steps.2 ⟨s, hs, goneStep_false.2 fun _ => hst ▸ hin, rfl⟩,
      decide_eq_true ((clear_same s).2.1.trans hw)⟩, (clear_same s).1, ?_⟩
    unfold StepRow.view StepInput.view editStep setStep
    rw [(clear_same s).2.2, hst]
  · have hnone : ((trimmed db workflow in_).stepsOf workflow).filter
        (fun s => s.id ∉ in_.steps.zipIdx.filterMap (statusTarget db workflow)) = [] := by
      refine filter_eq_nil_iff.2 fun s' hs' => ?_
      rw [decide_eq_true_iff, not_not]
      obtain ⟨hmem, hw⟩ := mem_filter.1 hs'
      obtain ⟨s, hs, hg, rfl⟩ := mem_trimmed_steps.1 hmem
      have hw : s.workflowId = workflow := (clear_same s).2.1.symm.trans (of_decide_eq_true hw)
      have hstatus := goneStep_false.1 hg hw
      rw [← statuses_zipIdx] at hstatus
      obtain ⟨x, hx, hxs⟩ := mem_map.1 hstatus
      refine mem_filterMap.2 ⟨x, hx, ?_⟩
      unfold statusTarget
      rw [hxs, stepsByStatus_of_mem h hs hw, (clear_same s).1]
    rw [hnone, map_nil, nil_append]

theorem survives_iff (h : Stored db) {e : TransitionRow} (he : e ∈ db.transitions) (hw : e.workflowId = workflow) :
    e ∈ (trimmed db workflow in_).transitions ↔ Survives db in_ e := by
  have hgone : ∀ id, id ∈ (db.steps.filter (goneStep workflow in_)).map StepRow.id ↔
      ∃ s ∈ db.steps, goneStep workflow in_ s = true ∧ s.id = id := by
    intro id
    rw [mem_map]
    constructor
    · rintro ⟨s, hs, rfl⟩
      exact ⟨s, (mem_filter.1 hs).1, (mem_filter.1 hs).2, rfl⟩
    · rintro ⟨s, hs, hg, rfl⟩
      exact ⟨s, mem_filter.2 ⟨hs, hg⟩, rfl⟩
  have hmem : e ∈ (trimmed db workflow in_).transitions ↔
      e.toStepId ∉ (db.steps.filter (goneStep workflow in_)).map StepRow.id ∧
        ∀ id, e.fromStepId = some id → id ∉ (db.steps.filter (goneStep workflow in_)).map StepRow.id := by
    change e ∈ db.transitions.filter _ ↔ _
    rw [mem_filter, Bool.not_eq_true', Bool.or_eq_false_iff, decide_eq_false_iff_not]
    cases e.fromStepId with
    | none => exact ⟨fun hp => ⟨hp.2.1, nofun⟩, fun hp => ⟨he, hp.1, rfl⟩⟩
    | some id =>
      rw [Option.any_some, decide_eq_false_iff_not]
      exact ⟨fun hp => ⟨hp.2.1, fun _ hid => Option.some.inj hid ▸ hp.2.2⟩, fun hp => ⟨he, hp.1, hp.2 id rfl⟩⟩
  rw [hmem]
  constructor
  · rintro ⟨hto, hfrom⟩ s hs hends
    by_contra hstatus
    have hws : s.workflowId = workflow := by
      rcases hends with hid | hid
      · obtain ⟨r, hr, hri, hrw⟩ := h.to_step e he
        rw [inj_on_of_nodup_map h.steps.nodup hs hr (hid.trans hri.symm), hrw, hw]
      · obtain ⟨r, hr, hri, hrw⟩ := h.from_step e he s.id hid
        rw [inj_on_of_nodup_map h.steps.nodup hs hr hri.symm, hrw, hw]
    have hg : goneStep workflow in_ s = true := by
      unfold goneStep
      rw [decide_eq_true hws, decide_eq_true hstatus]
      rfl
    rcases hends with hid | hid
    · exact hto ((hgone _).2 ⟨s, hs, hg, hid⟩)
    · exact hfrom _ hid ((hgone _).2 ⟨s, hs, hg, rfl⟩)
  · intro hsurvives
    have hkeep : ∀ s ∈ db.steps, (s.id = e.toStepId ∨ e.fromStepId = some s.id) → goneStep workflow in_ s = true → False := by
      intro s hs hends hg
      rw [goneStep_false.2 fun _ => hsurvives s hs hends] at hg
      cases hg
    constructor
    · intro hin
      obtain ⟨s, hs, hg, hid⟩ := (hgone _).1 hin
      exact hkeep s hs (.inl hid) hg
    · rintro id hid hin
      obtain ⟨s, hs, hg, rfl⟩ := (hgone _).1 hin
      exact hkeep s hs (.inr hid) hg

/-! ## Transitions -/

def idTarget (surviving : List Uuid) (x : TransitionInput × Nat) : Option Uuid :=
  if x.1.id ∈ surviving then some x.1.id else none

def editTransition (steps : Uuid → Option Uuid) (x : TransitionInput × Nat) : TransitionRow → TransitionRow :=
  setTransition x.1 x.2 steps

def newTransition (workflow : Uuid) (steps : Uuid → Option Uuid) (x : TransitionInput × Nat) (id : Uuid) : TransitionRow :=
  setTransition x.1 x.2 steps ⟨id, workflow, [], none, Uuid.none, [], 0⟩

theorem id_editTransition (steps : Uuid → Option Uuid) (x : TransitionInput × Nat) (t : TransitionRow) :
    (editTransition steps x t).id = t.id := rfl

theorem id_newTransition (workflow : Uuid) (steps : Uuid → Option Uuid) (x : TransitionInput × Nat) (id : Uuid) :
    (newTransition workflow steps x id).id = id := rfl

section
variable (workflow : Uuid) (steps : Uuid → Option Uuid) (surviving : List Uuid)

theorem writeTransition_rows (db : Tables) (x : TransitionInput × Nat) :
    (writeTransition workflow steps surviving db x).steps = db.steps ∧
    (writeTransition workflow steps surviving db x).transitions =
      (upsert TransitionRow.id (idTarget surviving) (editTransition steps) (newTransition workflow steps)
        (db.transitions, db.next) x).1 ∧
    (writeTransition workflow steps surviving db x).next =
      (upsert TransitionRow.id (idTarget surviving) (editTransition steps) (newTransition workflow steps)
        (db.transitions, db.next) x).2 := by
  unfold writeTransition upsert idTarget
  dsimp only
  split
  · cases x.1.rules <;> exact ⟨rfl, rfl, rfl⟩
  · exact ⟨rfl, rfl, rfl⟩

theorem writeTransitions_rows : ∀ (xs : List (TransitionInput × Nat)) (db : Tables),
    (xs.foldl (writeTransition workflow steps surviving) db).steps = db.steps ∧
    (xs.foldl (writeTransition workflow steps surviving) db).transitions =
      (xs.foldl (upsert TransitionRow.id (idTarget surviving) (editTransition steps) (newTransition workflow steps))
        (db.transitions, db.next)).1
  | [], _ => ⟨rfl, rfl⟩
  | x :: xs, db => by
    obtain ⟨hsteps, hrows, hnext⟩ := writeTransition_rows workflow steps surviving db x
    obtain ⟨h1, h2⟩ := writeTransitions_rows xs (writeTransition workflow steps surviving db x)
    rw [foldl_cons, foldl_cons]
    refine ⟨h1.trans hsteps, ?_⟩
    rw [h2, hrows, hnext]

theorem rulesOf_append (db : Tables) (id transition : Uuid) (rules : List RuleInput) (h : id ≠ transition) :
    (writeRules db transition rules).rulesOf id = db.rulesOf id := by
  unfold Tables.rulesOf writeRules
  have hnone : (rules.zipIdx.map (ruleRow transition)).filter (fun r => r.transitionId = id) = [] := by
    refine filter_eq_nil_iff.2 fun r hr => ?_
    obtain ⟨x, _, rfl⟩ := mem_map.1 hr
    rw [decide_eq_true_iff]
    exact fun he => h he.symm
  dsimp only
  rw [filter_append, hnone, append_nil]

theorem writeTransition_rules (db : Tables) (x : TransitionInput × Nat) {id : Uuid} (hid : id < db.next)
    (h : x.1.id = id → id ∈ surviving → x.1.rules = none) :
    (writeTransition workflow steps surviving db x).rulesOf id = db.rulesOf id ∧
      db.next ≤ (writeTransition workflow steps surviving db x).next := by
  unfold writeTransition
  dsimp only
  split
  · rename_i hin
    cases hr : x.1.rules with
    | none => exact ⟨rfl, Nat.le_refl _⟩
    | some =>
      have hne : id ≠ x.1.id := by
        rintro rfl
        rw [h rfl hin] at hr
        cases hr
      dsimp only
      rw [rulesOf_append _ _ _ _ hne]
      refine ⟨?_, Nat.le_refl _⟩
      unfold Tables.rulesOf
      dsimp only
      rw [filter_filter]
      refine filter_congr fun r _ => ?_
      rw [Bool.eq_iff_iff, Bool.and_eq_true, decide_eq_true_iff, decide_eq_true_iff]
      exact ⟨And.left, fun he => ⟨he, fun hx => hne (he.symm.trans hx)⟩⟩
  · rw [rulesOf_append _ _ _ _ (Nat.ne_of_lt hid)]
    exact ⟨rfl, Nat.le_succ _⟩

theorem writeTransitions_rules {id : Uuid} : ∀ (xs : List (TransitionInput × Nat)) (db : Tables), id < db.next →
    (∀ x ∈ xs, x.1.id = id → id ∈ surviving → x.1.rules = none) →
      (xs.foldl (writeTransition workflow steps surviving) db).rulesOf id = db.rulesOf id
  | [], _, _, _ => rfl
  | x :: xs, db, hid, h => by
    obtain ⟨hrules, hnext⟩ := writeTransition_rules workflow steps surviving db x hid (h x mem_cons_self)
    rw [foldl_cons, writeTransitions_rules xs _ (Nat.lt_of_lt_of_le hid hnext) fun y hy => h y (mem_cons_of_mem x hy),
      hrules]

theorem writeTransition_given (db : Tables) (hrules : ∀ r ∈ db.rules, r.transitionId < db.next) (x : TransitionInput × Nat)
    (h : x.1.rules ≠ none ∨ x.1.id ∉ surviving) :
    (writeTransition workflow steps surviving db x).rulesOf ((idTarget surviving x).getD db.next) =
      (x.1.rules.getD []).zipIdx.map (ruleRow ((idTarget surviving x).getD db.next)) := by
  have hall : ∀ (db : Tables) (id : Uuid) (rules : List RuleInput), db.rulesOf id = [] →
      (writeRules db id rules).rulesOf id = rules.zipIdx.map (ruleRow id) := by
    intro db id rules hnone
    unfold Tables.rulesOf at hnone
    unfold Tables.rulesOf writeRules
    dsimp only
    rw [filter_append, hnone, nil_append]
    refine filter_eq_self.2 fun r hr => ?_
    obtain ⟨y, _, rfl⟩ := mem_map.1 hr
    exact decide_eq_true rfl
  unfold writeTransition idTarget
  dsimp only
  split
  · rename_i hin
    rcases h with h | h
    · obtain ⟨rules, hr⟩ := Option.ne_none_iff_exists'.1 h
      rw [hr]
      dsimp only [Option.getD_some]
      refine hall _ _ _ (filter_eq_nil_iff.2 fun r hr' => ?_)
      rw [decide_eq_true_iff]
      exact of_decide_eq_true (mem_filter.1 hr').2
    · exact absurd hin h
  · refine hall _ _ _ (filter_eq_nil_iff.2 fun r hr => ?_)
    rw [decide_eq_true_iff]
    exact Nat.ne_of_lt (hrules r hr)

theorem writeTransition_below (db : Tables) (hrules : ∀ r ∈ db.rules, r.transitionId < db.next)
    (hids : ∀ id ∈ surviving, id < db.next) (x : TransitionInput × Nat) :
    (∀ r ∈ (writeTransition workflow steps surviving db x).rules,
      r.transitionId < (writeTransition workflow steps surviving db x).next) ∧
    db.next ≤ (writeTransition workflow steps surviving db x).next := by
  unfold writeTransition
  dsimp only
  split
  · rename_i hin
    cases x.1.rules with
    | none => exact ⟨hrules, Nat.le_refl _⟩
    | some =>
      refine ⟨fun r hr => ?_, Nat.le_refl _⟩
      rcases mem_append.1 hr with hr | hr
      · exact hrules r (mem_of_mem_filter hr)
      · obtain ⟨y, _, rfl⟩ := mem_map.1 hr
        exact hids _ hin
  · refine ⟨fun r hr => ?_, Nat.le_succ _⟩
    rcases mem_append.1 hr with hr | hr
    · exact Nat.lt_succ_of_lt (hrules r hr)
    · obtain ⟨y, _, rfl⟩ := mem_map.1 hr
      exact Nat.lt_succ_self _

theorem writeTransitions_below : ∀ (xs : List (TransitionInput × Nat)) (db : Tables), (∀ r ∈ db.rules, r.transitionId < db.next) →
    (∀ id ∈ surviving, id < db.next) →
      (∀ r ∈ (xs.foldl (writeTransition workflow steps surviving) db).rules,
        r.transitionId < (xs.foldl (writeTransition workflow steps surviving) db).next) ∧
      db.next ≤ (xs.foldl (writeTransition workflow steps surviving) db).next
  | [], _, hrules, _ => ⟨hrules, Nat.le_refl _⟩
  | x :: xs, db, hrules, hids => by
    obtain ⟨hrules', hnext⟩ := writeTransition_below workflow steps surviving db hrules hids x
    obtain ⟨h1, h2⟩ := writeTransitions_below xs _ hrules' fun id hid => Nat.lt_of_lt_of_le (hids id hid) hnext
    rw [foldl_cons]
    exact ⟨h1, hnext.trans h2⟩

theorem writeTransitions_given {db : Tables} (hrules : ∀ r ∈ db.rules, r.transitionId < db.next)
    (hids : ∀ id ∈ surviving, id < db.next)
    {xs : List (TransitionInput × Nat)} (hnamed : (xs.filterMap (idTarget surviving)).Nodup) {x : TransitionInput × Nat}
    (hx : x ∈ xs) (hrow : ∀ k, idTarget surviving x = some k → ∃ t ∈ db.transitions, t.id = k ∧ t.workflowId = workflow)
    (h : x.1.rules ≠ none ∨ x.1.id ∉ surviving) :
    ∃ t ∈ (xs.foldl (writeTransition workflow steps surviving) db).transitions, t.workflowId = workflow ∧
      (∃ t' : TransitionRow, t = setTransition x.1 x.2 steps t') ∧
        (xs.foldl (writeTransition workflow steps surviving) db).rulesOf t.id = (x.1.rules.getD []).zipIdx.map (ruleRow t.id) := by
  obtain ⟨pre, post, rfl⟩ := append_of_mem hx
  rw [foldl_append, foldl_cons]
  obtain ⟨before, hbefore⟩ : ∃ b, b = pre.foldl (writeTransition workflow steps surviving) db := ⟨_, rfl⟩
  obtain ⟨hrules', hnext⟩ := writeTransitions_below workflow steps surviving pre db hrules hids
  have hpre := (writeTransitions_rows workflow steps surviving pre db).2
  rw [← hbefore] at hrules' hnext hpre ⊢
  have hids' : ∀ id ∈ surviving, id < before.next := fun id hid => Nat.lt_of_lt_of_le (hids id hid) hnext
  obtain ⟨_, hone, _⟩ := writeTransition_rows workflow steps surviving before x
  obtain ⟨id, hid⟩ : ∃ id, id = (idTarget surviving x).getD before.next := ⟨_, rfl⟩
  -- no later input is at the same transition
  have hlater : id ∉ post.filterMap (idTarget surviving) := by
    intro hin
    obtain ⟨y, hy, hyid⟩ := mem_filterMap.1 hin
    have hysurv : id ∈ surviving := by
      unfold idTarget at hyid
      split at hyid
      · cases hyid
        assumption
      · cases hyid
    cases hxt : idTarget surviving x with
    | none =>
      rw [hxt, Option.getD_none] at hid
      exact Nat.lt_irrefl _ (hid ▸ hids' id hysurv)
    | some =>
      rw [hxt, Option.getD_some] at hid
      rw [filterMap_append, filterMap_cons_some hxt, nodup_append', nodup_cons] at hnamed
      exact hnamed.2.1.1 (hid ▸ hin)
  have hwritten : ∃ t ∈ (writeTransition workflow steps surviving before x).transitions, t.id = id ∧ t.workflowId = workflow ∧
      ∃ t' : TransitionRow, t = setTransition x.1 x.2 steps t' := by
    rw [hone]
    unfold upsert
    cases hxt : idTarget surviving x with
    | none =>
      rw [hxt, Option.getD_none] at hid
      exact ⟨_, mem_append_right _ (mem_singleton_self _), hid.symm, rfl, _, rfl⟩
    | some k =>
      rw [hxt, Option.getD_some] at hid
      have hkept : ∃ t ∈ before.transitions, t.id = k ∧ t.workflowId = workflow := by
        rw [hpre]
        refine Rows.kept_edited ?_ pre (hrow k hxt)
        exact fun _ _ hP => hP
      obtain ⟨t, ht, htid, htw⟩ := hkept
      exact ⟨_, Rows.mem_update.2 ⟨t, ht, .inl ⟨htid, rfl⟩⟩, htid.trans hid.symm, htw, t, rfl⟩
  obtain ⟨t, ht, htid, htw, hset⟩ := hwritten
  refine ⟨t, ?_, htw, hset, ?_⟩
  · rw [(writeTransitions_rows workflow steps surviving post _).2]
    exact Rows.remains post (htid ▸ hlater) ht
  · have hbelow : id < (writeTransition workflow steps surviving before x).next := by
      have hafter := (writeTransition_below workflow steps surviving before hrules' hids' x).2
      unfold idTarget at hid
      split at hid
      · rename_i hin
        exact Nat.lt_of_lt_of_le (hid ▸ hids' _ hin) hafter
      · rename_i hout
        rw [hid]
        unfold writeTransition
        dsimp only
        rw [if_neg hout]
        exact Nat.lt_succ_self _
    rw [htid, writeTransitions_rules workflow steps surviving post _ hbelow fun y hy hyid hin => ?_, hid]
    · exact writeTransition_given workflow steps surviving before hrules' x h
    · refine absurd (mem_filterMap.2 ⟨y, hy, ?_⟩) hlater
      unfold idTarget
      rw [hyid, if_pos hin]

end

/-! ## What a save leaves -/

def survivors (db : Tables) (workflow : Uuid) (in_ : GraphInput) : List Uuid :=
  ((written db workflow in_).1.transitionsOf workflow).map TransitionRow.id

def named (db : Tables) (workflow : Uuid) (in_ : GraphInput) : List Uuid :=
  (in_.transitions.map TransitionInput.id).filter (fun id => id ∈ survivors db workflow in_)

def pruned (db : Tables) (workflow : Uuid) (in_ : GraphInput) : Tables :=
  (written db workflow in_).1.deleteTransitions
    (fun t => decide (t.workflowId = workflow) && decide (t.id ∉ named db workflow in_))

theorem writeGraph_pruned (db : Tables) (workflow : Uuid) (in_ : GraphInput) : writeGraph db workflow in_ =
    in_.transitions.zipIdx.foldl (writeTransition workflow (written db workflow in_).2 (survivors db workflow in_))
      (pruned db workflow in_) := rfl

theorem mem_survivors (h : Stored db) (v : Valid in_) {id : Uuid} : id ∈ survivors db workflow in_ ↔
    ∃ e ∈ db.transitions, e.workflowId = workflow ∧ e.id = id ∧ Survives db in_ e := by
  have hrows : (written db workflow in_).1.transitions = (trimmed db workflow in_).transitions := by rw [written_eq v]
  unfold survivors Tables.transitionsOf
  rw [hrows, mem_map]
  constructor
  · rintro ⟨e, he, rfl⟩
    obtain ⟨he, hw⟩ := mem_filter.1 he
    have hdb : e ∈ db.transitions := (mem_filter.1 he).1
    exact ⟨e, hdb, of_decide_eq_true hw, rfl, (survives_iff h hdb (of_decide_eq_true hw)).1 he⟩
  · rintro ⟨e, he, hw, rfl, hs⟩
    exact ⟨e, mem_filter.2 ⟨(survives_iff h he hw).2 hs, decide_eq_true hw⟩, rfl⟩

theorem named_eq (h : Stored db) (v : Valid in_) : named db workflow in_ = (in_.transitions.map TransitionInput.id).filter
    (fun id => ∃ e ∈ db.transitions, e.workflowId = workflow ∧ e.id = id ∧ Survives db in_ e) := by
  refine filter_congr fun id _ => ?_
  rw [Bool.eq_iff_iff, decide_eq_true_iff, decide_eq_true_iff]
  exact mem_survivors h v

theorem pruned_rows (v : Valid in_) {e : TransitionRow} : e ∈ (pruned db workflow in_).transitionsOf workflow ↔
    e ∈ (trimmed db workflow in_).transitions ∧ e.workflowId = workflow ∧ e.id ∈ named db workflow in_ := by
  have hrows : (written db workflow in_).1.transitions = (trimmed db workflow in_).transitions := by rw [written_eq v]
  unfold Tables.transitionsOf
  change e ∈ ((written db workflow in_).1.transitions.filter _).filter _ ↔ _
  rw [hrows, mem_filter, mem_filter, Bool.not_eq_true', Bool.and_eq_false_iff, decide_eq_false_iff_not,
    decide_eq_false_iff_not, not_not, decide_eq_true_iff]
  tauto

theorem pruned_fresh (h : Stored db) (v : Valid in_) :
    Rows.Fresh TransitionRow.id ((pruned db workflow in_).transitions, (pruned db workflow in_).next) := by
  have hsub : (pruned db workflow in_).transitions.Sublist db.transitions := by
    have hrows : (written db workflow in_).1.transitions = (trimmed db workflow in_).transitions := by rw [written_eq v]
    change ((written db workflow in_).1.transitions.filter _).Sublist _
    rw [hrows]
    exact filter_sublist.trans filter_sublist
  have hnext : db.next ≤ (pruned db workflow in_).next := by
    change db.next ≤ (written db workflow in_).1.next
    rw [written_eq v]
    exact Rows.next_upserts _ ((trimmed db workflow in_).steps, db.next)
  exact ⟨h.transitions.nodup.sublist (hsub.map _), fun r hr => Nat.lt_of_lt_of_le (h.transitions.below r (hsub.subset hr)) hnext⟩

theorem targets_named (in_ : GraphInput) : in_.transitions.zipIdx.filterMap (idTarget (survivors db workflow in_)) =
    named db workflow in_ := by
  have hall : ∀ (ids surviving : List Uuid), ids.filterMap (fun id => if id ∈ surviving then some id else none) =
      ids.filter (fun id => id ∈ surviving) := by
    intro ids surviving
    induction ids with
    | nil => rfl
    | cons id ids ih =>
      by_cases hin : id ∈ surviving
      · simp only [filterMap_cons, filter_cons, if_pos hin, if_pos (decide_eq_true hin), ih]
      · simp only [filterMap_cons, filter_cons, hin, if_false, decide_false, Bool.false_eq_true, ih]
  have hids : in_.transitions.zipIdx.map (fun x => x.1.id) = in_.transitions.map TransitionInput.id := by
    have h := congrArg (List.map TransitionInput.id) (zipIdx_map_fst 0 in_.transitions)
    rwa [map_map] at h
  unfold named
  rw [← hall, ← hids, filterMap_map]
  rfl

theorem after_steps (db : Tables) (workflow : Uuid) (in_ : GraphInput) :
    (writeGraph db workflow in_).steps = (written db workflow in_).1.steps := by
  rw [writeGraph_pruned, (writeTransitions_rows workflow _ _ _ _).1]
  rfl

theorem after_transitions (db : Tables) (workflow : Uuid) (in_ : GraphInput) : (writeGraph db workflow in_).transitionsOf workflow =
    (in_.transitions.zipIdx.foldl (upsert TransitionRow.id (idTarget (survivors db workflow in_))
      (editTransition (written db workflow in_).2) (newTransition workflow (written db workflow in_).2))
        ((pruned db workflow in_).transitionsOf workflow, (pruned db workflow in_).next)).1 := by
  have hkeep : ∀ x t, decide ((editTransition (written db workflow in_).2 x t).workflowId = workflow) =
      decide (t.workflowId = workflow) := fun _ _ => rfl
  have hpass : ∀ x n, decide ((newTransition workflow (written db workflow in_).2 x n).workflowId = workflow) = true :=
    fun _ _ => decide_eq_true rfl
  unfold Tables.transitionsOf
  rw [writeGraph_pruned, (writeTransitions_rows workflow _ _ _ _).2]
  exact Rows.filter_upserts (p := fun t : TransitionRow => decide (t.workflowId = workflow)) hkeep hpass _ _

theorem view_setTransition (h : Stored db) (v : Valid in_) {x : TransitionInput × Nat} (hx : x ∈ in_.transitions.zipIdx)
    (t : TransitionRow) : TransitionRow.view (written db workflow in_).1.steps
      (setTransition x.1 x.2 (written db workflow in_).2 t) = TransitionInput.view x := by
  have hmem : x.1 ∈ in_.transitions := fst_mem_of_mem_zipIdx hx
  unfold TransitionRow.view TransitionInput.view setTransition
  dsimp only
  rw [statusOf_step h v (v.to_in _ hmem), Option.map_map]
  congr 1
  cases hf : x.1.fromStatusId with
  | none => rfl
  | some status => exact congrArg some (statusOf_step h v (v.from_in _ hmem status hf))

theorem after_transitions_perm (h : Stored db) (v : Valid in_) (hnamed : (named db workflow in_).Nodup) :
    (((writeGraph db workflow in_).transitionsOf workflow).map (TransitionRow.view (writeGraph db workflow in_).steps)).Perm
      (in_.transitions.zipIdx.map TransitionInput.view) := by
  have hfresh : Rows.Fresh TransitionRow.id ((pruned db workflow in_).transitionsOf workflow, (pruned db workflow in_).next) :=
    ⟨(pruned_fresh h v).nodup.sublist (filter_sublist.map _), fun t ht => (pruned_fresh h v).below t (mem_of_mem_filter ht)⟩
  have hview : ∀ x ∈ in_.transitions.zipIdx, ∀ t, TransitionRow.view (written db workflow in_).1.steps
      (setTransition x.1 x.2 (written db workflow in_).2 t) = TransitionInput.view x := fun x hx => view_setTransition h v hx
  rw [after_steps, after_transitions]
  refine (Rows.upserts_perm (id_editTransition _) (id_newTransition workflow _) _ hfresh (by rw [targets_named]; exact hnamed)
    (fun x hx n => hview x hx _) ?_).trans ?_
  · intro x hx k hk
    unfold idTarget at hk
    split at hk
    · rename_i hin
      cases hk
      obtain ⟨e, he, hw, hid, hs⟩ := (mem_survivors h v).1 hin
      refine ⟨e, (pruned_rows v).2 ⟨(survives_iff h he hw).2 hs, hw, ?_⟩, hid, hview x hx e⟩
      rw [hid]
      exact mem_filter.2 ⟨mem_map_of_mem (fst_mem_of_mem_zipIdx hx), decide_eq_true hin⟩
    · cases hk
  · have hnone : ((pruned db workflow in_).transitionsOf workflow).filter
        (fun t => t.id ∉ in_.transitions.zipIdx.filterMap (idTarget (survivors db workflow in_))) = [] := by
      refine filter_eq_nil_iff.2 fun t ht => ?_
      rw [decide_eq_true_iff, not_not, targets_named]
      exact ((pruned_rows v).1 ht).2.2
    rw [hnone, map_nil, nil_append]

theorem named_nodup (h : Stored db) (v : Valid in_)
    (hlength : ((writeGraph db workflow in_).transitionsOf workflow).length = in_.transitions.length) :
    (named db workflow in_).Nodup := by
  rw [after_transitions, Rows.length_upserts] at hlength
  dsimp only at hlength
  have hcount : in_.transitions.zipIdx.countP (fun x => (idTarget (survivors db workflow in_) x).isNone) +
      (named db workflow in_).length = in_.transitions.length := by
    rw [← targets_named, length_filterMap_eq_countP, ← length_zipIdx (l := in_.transitions) (i := 0),
      length_eq_countP_add_countP (p := fun x => (idTarget (survivors db workflow in_) x).isNone)]
    congr 1
    refine countP_congr fun x _ => ?_
    cases idTarget (survivors db workflow in_) x <;> simp
  have hids : (((pruned db workflow in_).transitionsOf workflow).map TransitionRow.id).Nodup :=
    (pruned_fresh h v).nodup.sublist (filter_sublist.map _)
  have hsub : ((pruned db workflow in_).transitionsOf workflow).map TransitionRow.id ⊆ named db workflow in_ := by
    intro id hid
    obtain ⟨t, ht, rfl⟩ := mem_map.1 hid
    exact ((pruned_rows v).1 ht).2.2
  have hperm := (subperm_of_subset hids hsub).perm_of_length_le (by rw [length_map]; omega)
  exact hperm.nodup_iff.1 hids

/-! ## Rules -/

theorem rulesOf_deleteTransitions (db : Tables) (gone : TransitionRow → Bool) (id : Uuid) : (db.deleteTransitions gone).rulesOf id =
    if id ∈ (db.transitions.filter gone).map TransitionRow.id then [] else db.rulesOf id := by
  unfold Tables.rulesOf Tables.deleteTransitions
  dsimp only
  rw [filter_filter]
  split
  · rename_i hin
    refine filter_eq_nil_iff.2 fun r _ => ?_
    rw [Bool.and_eq_true, decide_eq_true_iff, decide_eq_true_iff]
    rintro ⟨rfl, hr⟩
    exact hr hin
  · rename_i hin
    refine filter_congr fun r _ => ?_
    rw [Bool.eq_iff_iff, Bool.and_eq_true, decide_eq_true_iff, decide_eq_true_iff]
    exact ⟨And.left, fun he => ⟨he, fun hr => hin (he ▸ hr)⟩⟩

theorem rulesOf_trimmed (h : Stored db) {e : TransitionRow} (he : e ∈ db.transitions) (hw : e.workflowId = workflow) :
    (trimmed db workflow in_).rulesOf e.id = if Survives db in_ e then db.rulesOf e.id else [] := by
  have hmem : e ∈ (trimmed db workflow in_).transitions ↔ Survives db in_ e := survives_iff h he hw
  let gone : TransitionRow → Bool := fun t =>
    decide (t.toStepId ∈ (db.steps.filter (goneStep workflow in_)).map StepRow.id) ||
      t.fromStepId.any (fun id => decide (id ∈ (db.steps.filter (goneStep workflow in_)).map StepRow.id))
  have hkept : e ∈ (trimmed db workflow in_).transitions ↔ gone e = false := by
    change e ∈ db.transitions.filter (fun t => !gone t) ↔ _
    rw [mem_filter, Bool.not_eq_true']
    exact ⟨And.right, fun hg => ⟨he, hg⟩⟩
  have hids : e.id ∈ (db.transitions.filter gone).map TransitionRow.id ↔ gone e = true := by
    rw [mem_map]
    constructor
    · rintro ⟨t, ht, hid⟩
      rw [← inj_on_of_nodup_map h.transitions.nodup (mem_filter.1 ht).1 he hid]
      exact (mem_filter.1 ht).2
    · exact fun hg => ⟨e, mem_filter.2 ⟨he, hg⟩, rfl⟩
  have hrules : (trimmed db workflow in_).rulesOf e.id = if e.id ∈ (db.transitions.filter gone).map TransitionRow.id then []
      else db.rulesOf e.id :=
    rulesOf_deleteTransitions { db with steps := db.steps.filter (fun s => !goneStep workflow in_ s) } gone e.id
  rw [hrules]
  by_cases hs : Survives db in_ e
  · rw [if_pos hs, if_neg]
    rw [hids, hkept.1 (hmem.2 hs)]
    exact Bool.false_ne_true
  · rw [if_neg hs, if_pos]
    rw [hids]
    by_contra hg
    exact hs (hmem.1 (hkept.2 (Bool.eq_false_iff.2 hg)))

theorem after_rules (h : Stored db) (v : Valid in_) {t : TransitionInput} (ht : t ∈ in_.transitions) {e : TransitionRow}
    (he : e ∈ db.transitions) (hw : e.workflowId = workflow) (hid : e.id = t.id)
    (hquiet : Survives db in_ e → ∀ u ∈ in_.transitions, u.id = e.id → u.rules = none) :
    (writeGraph db workflow in_).rulesOf e.id = if Survives db in_ e then db.rulesOf e.id else [] := by
  have hbelow : e.id < (pruned db workflow in_).next := by
    have hnext : db.next ≤ (written db workflow in_).1.next := by
      rw [written_eq v]
      exact Rows.next_upserts _ ((trimmed db workflow in_).steps, db.next)
    exact Nat.lt_of_lt_of_le (h.transitions.below e he) hnext
  have hsurvives : e.id ∈ survivors db workflow in_ → Survives db in_ e := by
    intro hin
    obtain ⟨e', he', hw', hid', hs⟩ := (mem_survivors h v).1 hin
    rwa [inj_on_of_nodup_map h.transitions.nodup he' he hid'] at hs
  rw [writeGraph_pruned, writeTransitions_rules workflow _ _ _ _ hbelow]
  · have hrules : ∀ id, (written db workflow in_).1.rulesOf id = (trimmed db workflow in_).rulesOf id := by
      intro id
      rw [written_eq v]
      rfl
    unfold pruned
    rw [rulesOf_deleteTransitions, hrules, rulesOf_trimmed h he hw]
    split
    · rename_i hgone
      rw [if_neg]
      intro hs
      obtain ⟨r, hr, hrid⟩ := mem_map.1 hgone
      have hnot := of_decide_eq_true (Bool.and_eq_true_iff.1 (mem_filter.1 hr).2).2
      refine hnot (mem_filter.2 ⟨?_, decide_eq_true ?_⟩)
      · rw [hrid, hid]
        exact mem_map_of_mem ht
      · rw [hrid]
        exact (mem_survivors h v).2 ⟨e, he, hw, rfl, hs⟩
    · rfl
  · intro x hx hxid hin
    exact hquiet (hsurvives hin) x.1 (fst_mem_of_mem_zipIdx hx) hxid

theorem after_given (h : Stored db) (v : Valid in_) (hnamed : (named db workflow in_).Nodup) {x : TransitionInput × Nat}
    (hx : x ∈ in_.transitions.zipIdx)
    (hgiven : x.1.rules ≠ none ∨ ∀ e ∈ db.transitions, e.workflowId = workflow → e.id ≠ x.1.id) :
    ∃ t ∈ (writeGraph db workflow in_).transitionsOf workflow,
      t.view (writeGraph db workflow in_).steps = TransitionInput.view x ∧
        ((writeGraph db workflow in_).rulesOf t.id).map RuleRow.view = (x.1.rules.getD []).zipIdx.map RuleInput.view := by
  have hnext : db.next ≤ (pruned db workflow in_).next := by
    change db.next ≤ (written db workflow in_).1.next
    rw [written_eq v]
    exact Rows.next_upserts _ ((trimmed db workflow in_).steps, db.next)
  have hrules : ∀ r ∈ (pruned db workflow in_).rules, r.transitionId < (pruned db workflow in_).next := by
    intro r hr
    have hin : r ∈ (written db workflow in_).1.rules := mem_of_mem_filter hr
    rw [written_eq v] at hin
    obtain ⟨t, ht, htid⟩ := h.rules r (mem_of_mem_filter hin)
    exact Nat.lt_of_lt_of_le (htid ▸ h.transitions.below t ht) hnext
  have hids : ∀ id ∈ survivors db workflow in_, id < (pruned db workflow in_).next := by
    intro id hid
    obtain ⟨e, he, _, rfl, _⟩ := (mem_survivors h v).1 hid
    exact Nat.lt_of_lt_of_le (h.transitions.below e he) hnext
  have hrow : ∀ k, idTarget (survivors db workflow in_) x = some k →
      ∃ t ∈ (pruned db workflow in_).transitions, t.id = k ∧ t.workflowId = workflow := by
    intro k hk
    unfold idTarget at hk
    split at hk
    · rename_i hin
      cases hk
      obtain ⟨e, he, hw, hid, hs⟩ := (mem_survivors h v).1 hin
      refine ⟨e, (mem_filter.1 ((pruned_rows v).2 ⟨(survives_iff h he hw).2 hs, hw, ?_⟩)).1, hid, hw⟩
      rw [hid]
      exact mem_filter.2 ⟨mem_map_of_mem (fst_mem_of_mem_zipIdx hx), decide_eq_true hin⟩
    · cases hk
  obtain ⟨t, ht, hw, ⟨t', rfl⟩, hgot⟩ := writeTransitions_given workflow (written db workflow in_).2 (survivors db workflow in_)
    hrules hids (by rw [targets_named]; exact hnamed) hx hrow (hgiven.imp_right fun hnew hin => by
      obtain ⟨e, he, hew, heid, _⟩ := (mem_survivors h v).1 hin
      exact hnew e he hew heid)
  rw [← writeGraph_pruned] at ht hgot
  refine ⟨_, mem_filter.2 ⟨ht, decide_eq_true hw⟩, ?_, ?_⟩
  · rw [after_steps]
    exact view_setTransition h v hx t'
  · rw [hgot, map_map]
    rfl

theorem writeGraph_saved (h : Stored db) (v : Valid in_) :
    Saved db (writeGraph db workflow in_) workflow in_ ↔ Keeps db workflow in_ := by
  constructor
  · intro saved
    refine ⟨?_, fun t ht hnone e he hw hid hrules => ?_⟩
    · rw [← named_eq h v]
      refine named_nodup h v ?_
      have hlength := saved.transitions.length_eq
      rwa [length_map, length_map, length_zipIdx] at hlength
    · by_contra hs
      have hafter := after_rules h v ht he hw hid fun hs' => absurd hs' hs
      rw [if_neg hs, saved.rules t ht hnone e he hw hid] at hafter
      exact hrules hafter
  · intro keeps
    have hnamed : (named db workflow in_).Nodup := by
      rw [named_eq h v]
      exact keeps.once
    refine ⟨?_, after_transitions_perm h v hnamed, fun t ht hnone e he hw hid => ?_, fun x => after_given h v hnamed⟩
    · unfold Tables.stepsOf
      rw [after_steps]
      exact written_steps_perm h v
    · rw [after_rules h v ht he hw hid]
      · by_cases hs : Survives db in_ e
        · rw [if_pos hs]
        · rw [if_neg hs]
          by_contra hrules
          exact hs (keeps.rules t ht hnone e he hw hid fun hn => hrules hn.symm)
      · intro hs u hu huid
        have honce := keeps.once
        rw [filter_map] at honce
        have hin : ∀ r ∈ in_.transitions, r.id = e.id → r ∈ in_.transitions.filter ((fun id => decide (∃ e ∈ db.transitions,
            e.workflowId = workflow ∧ e.id = id ∧ Survives db in_ e)) ∘ TransitionInput.id) := fun r hr hrid =>
          mem_filter.2 ⟨hr, decide_eq_true ⟨e, he, hw, hrid.symm, hs⟩⟩
        rw [inj_on_of_nodup_map honce (hin u hu huid) (hin t ht hid.symm) (huid.trans hid)]
        exact hnone

theorem saveWorkflow_ok {after : Tables} (h : saveWorkflow names registry lower db workflow in_ = .ok after) :
    Valid (tidy in_) ∧ ∃ workflows, after = writeGraph { db with workflows := workflows } workflow (tidy in_) := by
  unfold saveWorkflow at h
  dsimp only at h
  cases hv : validateGraph names (tidy in_) with
  | error =>
    rw [hv] at h
    cases h
  | ok =>
    rw [hv] at h
    cases hr : validateRules (tidy in_).transitions registry with
    | error =>
      rw [hr] at h
      cases h
    | ok =>
      rw [hr] at h
      refine ⟨validateGraph_ok hv, ?_⟩
      change (if _ then _ else if _ then _ else _) = _ at h
      split at h
      · cases h
      · split at h
        · cases h
        · cases h
          exact ⟨_, rfl⟩

/-- **A saved workflow is the graph it was given**, with the rules it gave and those it said nothing about, exactly when no
surviving transition is named twice and none whose rules are to be kept loses a status. -/
theorem save_exact (s : Stored db) {after : Tables} (h : saveWorkflow names registry lower db workflow in_ = .ok after) :
    Saved db after workflow (tidy in_) ↔ Keeps db workflow (tidy in_) := by
  obtain ⟨v, workflows, rfl⟩ := saveWorkflow_ok h
  have s' : Stored { db with workflows := workflows } := ⟨s.steps, s.statuses, s.transitions, s.rules, s.to_step, s.from_step⟩
  have hiff : Saved _ (writeGraph _ workflow (tidy in_)) workflow (tidy in_) ↔ Keeps _ workflow (tidy in_) := writeGraph_saved s' v
  constructor
  · intro saved
    have keeps := hiff.1 ⟨saved.steps, saved.transitions, saved.rules, saved.given⟩
    exact ⟨keeps.once, keeps.rules⟩
  · intro keeps
    have saved := hiff.2 ⟨keeps.once, keeps.rules⟩
    exact ⟨saved.steps, saved.transitions, saved.rules, saved.given⟩

def finishing : Tables where
  workflows := [⟨1, "Plain".toList, []⟩]
  steps := [⟨21, 1, 11, true, 0, none⟩, ⟨22, 1, 12, false, 1, none⟩]
  transitions := [⟨31, 1, "Finish".toList, some 21, 22, [], 0⟩]
  rules := [⟨31, "condition".toList, "is_assignee".toList, "{}".toList, 0⟩]
  next := 40

def statusNames (id : Uuid) : Option Text := if 11 ≤ id ∧ id ≤ 13 then some (Nat.toDigits 10 id) else none

def finishingIn (status : Uuid) : GraphInput where
  name := "Plain".toList
  description := []
  steps := [⟨11, true, none⟩, ⟨status, false, none⟩]
  transitions := [⟨31, " Finish ".toList, [], some 11, status, none⟩]

theorem finishing_stored : Stored finishing := by
  refine ⟨⟨by decide, by decide⟩, fun workflow => ?_, ⟨by decide, by decide⟩, by decide, by decide, ?_⟩
  · exact List.Nodup.sublist (filter_sublist.map StepRow.statusId) (by decide : (finishing.steps.map StepRow.statusId).Nodup)
  · intro t ht id hid
    rw [mem_singleton.1 ht] at hid ⊢
    cases hid
    decide

def reopeningIn : GraphInput where
  name := "Plain".toList
  description := []
  steps := [⟨11, true, none⟩, ⟨12, false, none⟩]
  transitions := [⟨31, "Finish".toList, [], some 11, 12, none⟩,
    ⟨Uuid.none, "Reopen".toList, [], some 12, 11, some [⟨"condition".toList, "is_assignee".toList, []⟩]⟩]

theorem save_exact_finishing : Saved finishing
    (writeGraph { finishing with workflows := [⟨1, "Plain".toList, []⟩] } 1 (tidy reopeningIn)) 1 (tidy reopeningIn) := by
  have h : saveWorkflow statusNames ⟨fun _ _ => true, fun _ _ _ => none⟩ id finishing 1 reopeningIn =
      .ok (writeGraph { finishing with workflows := [⟨1, "Plain".toList, []⟩] } 1 (tidy reopeningIn)) := rfl
  exact (save_exact finishing_stored h).2 ⟨by decide, by decide⟩

theorem retargeted_loses_rules : ¬ ∀ (names : Uuid → Option Text) (registry : Registry) (lower : Text → Text) (db : Tables)
    (workflow : Uuid) (in_ : GraphInput) (after : Tables), Stored db →
      saveWorkflow names registry lower db workflow in_ = .ok after → Saved db after workflow (tidy in_) := by
  intro h
  have hok : saveWorkflow statusNames ⟨fun _ _ => true, fun _ _ _ => none⟩ id finishing 1 (finishingIn 13) =
      .ok (writeGraph { finishing with workflows := [⟨1, "Plain".toList, []⟩] } 1 (tidy (finishingIn 13))) := rfl
  have saved := h _ _ _ _ _ _ _ finishing_stored hok
  have hrules := saved.rules _ mem_cons_self rfl _ mem_cons_self rfl rfl
  exact absurd hrules (by decide)

end Graph
end Armature
