import Armature.WorkflowSave
/-!
# WorkflowAccepts — the graphs that are accepted (`workflow/graph.go`)

`ValidateGraph` goes over the steps and then over the transitions, and keeps what it has seen.  It refuses nothing exactly
where the graph is `Accepted`, as long as every status has a name (`validateGraph_iff`).
-/
namespace Armature
namespace Graph

open List
open Go (Text)
open Wf (Uuid)

/-! ## What a graph is to be -/

def TransitionInput.key (t : TransitionInput) : Uuid × Text := (t.fromStatusId.getD Uuid.none, t.name)

/-- A transition is between statuses of the graph, and not from one to itself. -/
structure Joins (ids : List Uuid) (t : TransitionInput) : Prop where
  named : t.name ≠ []
  to_in : t.toStatusId ∈ ids
  from_in : ∀ status, t.fromStatusId = some status → status ∈ ids ∧ status ≠ t.toStatusId

/-- The statuses are there, each listed once, and one of them is where new issues start. -/
structure Starts (names : Uuid → Option Text) (steps : List StepInput) : Prop where
  known : ∀ s ∈ steps, (names s.statusId).isSome = true
  apart : (steps.map StepInput.statusId).Nodup
  initial : (steps.filter StepInput.isInitial).length = 1

structure Accepted (names : Uuid → Option Text) (in_ : GraphInput) : Prop where
  named : in_.name ≠ []
  starts : Starts names in_.steps
  joins : ∀ t ∈ in_.transitions, Joins (in_.steps.map StepInput.statusId) t
  apart : (in_.transitions.map TransitionInput.key).Nodup

section
variable {names : Uuid → Option Text} {inWorkflow : List Uuid}

/-! ## The steps -/

def Named (names : Uuid → Option Text) : Prop := ∀ id name, names id = some name → name ≠ []

def startsSeen (initial : Text) : Nat := if initial = [] then 0 else 1

theorem checkStep_iff {acc mid : Text × List Uuid} {step : StepInput} : checkStep names acc step = .ok mid ↔
    ∃ name, names step.statusId = some name ∧ step.statusId ∉ acc.2 ∧ (step.isInitial = true → acc.1 = []) ∧
      mid = (if step.isInitial then name else acc.1, step.statusId :: acc.2) := by
  unfold checkStep
  cases hname : names step.statusId with
  | none => simp [invalid]
  | some =>
    by_cases hseen : step.statusId ∈ acc.2
    · simp [hseen, invalid]
    · cases hinitial : step.isInitial with
      | false => simp [hseen, eq_comm]
      | true => by_cases hacc : acc.1 = [] <;> simp [hseen, hacc, invalid, eq_comm]

theorem checkSteps_iff (hnames : Named names) : ∀ {steps : List StepInput} {acc : Text × List Uuid},
    (∃ acc', steps.foldlM (checkStep names) acc = .ok acc' ∧ acc'.1 ≠ []) ↔
      (∀ s ∈ steps, (names s.statusId).isSome = true) ∧ (steps.map StepInput.statusId).Nodup ∧ (∀ s ∈ steps, s.statusId ∉ acc.2) ∧
        (steps.filter StepInput.isInitial).length + startsSeen acc.1 = 1
  | [], acc => by
    have hend : (∃ acc', ([] : List StepInput).foldlM (checkStep names) acc = .ok acc' ∧ acc'.1 ≠ []) ↔ acc.1 ≠ [] :=
      ⟨fun ⟨acc', h, hne⟩ => by cases h; exact hne, fun hne => ⟨acc, rfl, hne⟩⟩
    rw [hend]
    unfold startsSeen
    by_cases hacc : acc.1 = [] <;> simp [hacc]
  | step :: steps, acc => by
    have hbind : (∃ acc', (step :: steps).foldlM (checkStep names) acc = .ok acc' ∧ acc'.1 ≠ []) ↔
        ∃ mid, checkStep names acc step = .ok mid ∧ ∃ acc', steps.foldlM (checkStep names) mid = .ok acc' ∧ acc'.1 ≠ [] := by
      constructor
      · rintro ⟨acc', h, hne⟩
        rw [foldlM_cons] at h
        obtain ⟨mid, hmid, h⟩ := Go.bind_ok.1 h
        exact ⟨mid, hmid, acc', h, hne⟩
      · rintro ⟨mid, hmid, acc', h, hne⟩
        exact ⟨acc', by rw [foldlM_cons, hmid]; exact h, hne⟩
    have hnew : (∀ s ∈ steps, s.statusId ∉ step.statusId :: acc.2) ↔
        step.statusId ∉ steps.map StepInput.statusId ∧ ∀ s ∈ steps, s.statusId ∉ acc.2 := by
      simp only [mem_cons, not_or, mem_map, not_exists, not_and]
      exact forall₂_and
    -- An initial step counts once, and none was seen before it.
    have hcount : ∀ name, name ≠ [] → ((step.isInitial = true → acc.1 = []) ∧
        (steps.filter StepInput.isInitial).length + startsSeen (if step.isInitial then name else acc.1) = 1 ↔
          ((step :: steps).filter StepInput.isInitial).length + startsSeen acc.1 = 1) := by
      intro name hne
      unfold startsSeen
      rw [filter_cons]
      cases step.isInitial with
      | false => simp
      | true => by_cases hacc : acc.1 = [] <;> simp [hne, hacc]
    rw [hbind]
    simp only [checkStep_iff, forall_mem_cons, map_cons, nodup_cons]
    constructor
    · rintro ⟨mid, ⟨name, hname, hseen, hinitial, rfl⟩, hrest⟩
      obtain ⟨hknown, hapart, hfresh, hone⟩ := (checkSteps_iff hnames).1 hrest
      obtain ⟨hnot, hfresh⟩ := hnew.1 hfresh
      exact ⟨⟨by rw [hname]; rfl, hknown⟩, ⟨hnot, hapart⟩, ⟨hseen, hfresh⟩, (hcount name (hnames _ _ hname)).1 ⟨hinitial, hone⟩⟩
    · rintro ⟨⟨hsome, hknown⟩, ⟨hnot, hapart⟩, ⟨hseen, hfresh⟩, hone⟩
      obtain ⟨name, hname⟩ := Option.isSome_iff_exists.1 hsome
      obtain ⟨hinitial, hone⟩ := (hcount name (hnames _ _ hname)).2 hone
      exact ⟨_, ⟨name, hname, hseen, hinitial, rfl⟩, (checkSteps_iff hnames).2 ⟨hknown, hapart, hnew.2 ⟨hnot, hfresh⟩, hone⟩⟩

/-! ## The transitions -/

theorem checkEdge_iff {byName byName' : List (Uuid × Text)} {t : TransitionInput} :
    checkEdge names inWorkflow byName t = .ok byName' ↔ Joins inWorkflow t ∧ t.key ∉ byName ∧ byName' = t.key :: byName := by
  have hjoins : Joins inWorkflow t ↔ t.name ≠ [] ∧ t.toStatusId ∈ inWorkflow ∧
      ∀ status, t.fromStatusId = some status → status ∈ inWorkflow ∧ status ≠ t.toStatusId :=
    ⟨fun h => ⟨h.named, h.to_in, h.from_in⟩, fun h => ⟨h.1, h.2.1, h.2.2⟩⟩
  have hlast : ∀ from_ : Uuid, ((if (from_, t.name) ∈ byName then
        (if from_ = Uuid.none then invalid ["there are two transitions called ".toList, t.name, " available everywhere".toList]
          else invalid ["there are two transitions called ".toList, t.name, " leaving ".toList, nameOf names from_])
      else pure ((from_, t.name) :: byName) : Except Err (List (Uuid × Text))) = .ok byName') ↔
      (from_, t.name) ∉ byName ∧ byName' = (from_, t.name) :: byName := by
    intro from_
    by_cases hmem : (from_, t.name) ∈ byName
    · rw [if_pos hmem]
      refine iff_of_false ?_ fun h => h.1 hmem
      split <;> exact fun h => by cases h
    · rw [if_neg hmem, and_iff_right hmem]
      exact ⟨fun h => (Except.ok.inj h).symm, fun h => by rw [h]; rfl⟩
  rw [hjoins]
  unfold checkEdge TransitionInput.key
  by_cases hname : t.name = []
  · simp [hname, invalid]
  by_cases hto : t.toStatusId ∈ inWorkflow
  · rw [if_neg hname, if_neg (not_not.2 hto)]
    cases hfrom : t.fromStatusId with
    | none =>
      refine (hlast Uuid.none).trans ?_
      simp [hname, hto]
    | some status =>
      by_cases hin : status ∈ inWorkflow
      · by_cases hself : status = t.toStatusId
        · refine iff_of_false (fun h => ?_) fun h => (h.1.2.2 status rfl).2 hself
          dsimp only at h
          rw [if_neg (not_not.2 hin), if_pos hself] at h
          cases h
        · simp only [hin, hself, not_true_eq_false, if_false]
          refine (hlast status).trans ?_
          simp [hname, hto, hin, hself]
      · refine iff_of_false (fun h => ?_) fun h => hin (h.1.2.2 status rfl).1
        dsimp only at h
        rw [if_pos hin] at h
        cases h
  · simp [hname, hto, invalid]

theorem checkEdges_iff : ∀ {transitions : List TransitionInput} {byName : List (Uuid × Text)},
    (∃ byName', transitions.foldlM (checkEdge names inWorkflow) byName = .ok byName') ↔
      (∀ t ∈ transitions, Joins inWorkflow t) ∧ (transitions.map TransitionInput.key).Nodup ∧ ∀ t ∈ transitions, t.key ∉ byName
  | [], byName => iff_of_true ⟨byName, rfl⟩ (by simp)
  | t :: transitions, byName => by
    have hbind : (∃ byName', (t :: transitions).foldlM (checkEdge names inWorkflow) byName = .ok byName') ↔
        ∃ mid, checkEdge names inWorkflow byName t = .ok mid ∧ ∃ byName', transitions.foldlM (checkEdge names inWorkflow) mid = .ok byName' := by
      constructor
      · rintro ⟨byName', h⟩
        rw [foldlM_cons] at h
        obtain ⟨mid, hmid, h⟩ := Go.bind_ok.1 h
        exact ⟨mid, hmid, byName', h⟩
      · rintro ⟨mid, hmid, byName', h⟩
        exact ⟨byName', by rw [foldlM_cons, hmid]; exact h⟩
    have hnew : (∀ u ∈ transitions, u.key ∉ t.key :: byName) ↔
        t.key ∉ transitions.map TransitionInput.key ∧ ∀ u ∈ transitions, u.key ∉ byName := by
      simp only [mem_cons, not_or, mem_map, not_exists, not_and]
      exact forall₂_and
    rw [hbind, forall_mem_cons, forall_mem_cons, map_cons, nodup_cons]
    simp only [checkEdge_iff, and_assoc, exists_and_left, exists_eq_left, checkEdges_iff, hnew]
    tauto

/-! ## The graph -/

theorem validateGraph_iff (hnames : Named names) {in_ : GraphInput} : validateGraph names in_ = .ok () ↔ Accepted names in_ := by
  have hall : Accepted names in_ ↔ in_.name ≠ [] ∧ Starts names in_.steps ∧
      (∀ t ∈ in_.transitions, Joins (in_.steps.map StepInput.statusId) t) ∧ (in_.transitions.map TransitionInput.key).Nodup :=
    ⟨fun h => ⟨h.named, h.starts, h.joins, h.apart⟩, fun h => ⟨h.1, h.2.1, h.2.2.1, h.2.2.2⟩⟩
  have hstarts : Starts names in_.steps ↔ ∃ acc', in_.steps.foldlM (checkStep names) ([], []) = .ok acc' ∧ acc'.1 ≠ [] := by
    rw [checkSteps_iff hnames]
    exact ⟨fun h => ⟨h.known, h.apart, by simp, h.initial⟩, fun h => ⟨h.1, h.2.1, h.2.2.2⟩⟩
  rw [hall, hstarts]
  unfold validateGraph
  by_cases hname : in_.name = []
  · simp [hname, invalid]
  by_cases hsteps : in_.steps = []
  · simp [hname, hsteps, invalid, pure, Except.pure]
  rw [if_neg hname, if_neg hsteps, and_iff_right hname]
  constructor
  · intro h
    obtain ⟨⟨initial, seen⟩, hacc, h⟩ := Go.bind_ok.1 h
    obtain ⟨-, hseen⟩ := checkSteps_ok hacc nodup_nil
    rw [append_nil] at hseen
    dsimp only at h hseen
    split at h
    · cases h
    · rename_i hne
      refine ⟨⟨_, hacc, hne⟩, ?_⟩
      obtain ⟨byName, hbyName, -⟩ := Go.bind_ok.1 h
      obtain ⟨hjoins, hapart, -⟩ := checkEdges_iff.1 ⟨byName, hbyName⟩
      rw [hseen] at hjoins
      exact ⟨fun t ht => ⟨(hjoins t ht).named, mem_reverse.1 (hjoins t ht).to_in,
        fun status hs => ((hjoins t ht).from_in status hs).imp_left mem_reverse.1⟩, hapart⟩
  · rintro ⟨⟨⟨initial, seen⟩, hacc, hne⟩, hjoins, hapart⟩
    obtain ⟨-, hseen⟩ := checkSteps_ok hacc nodup_nil
    rw [append_nil] at hseen
    have hin : ∀ t ∈ in_.transitions, Joins seen t := fun t ht => by
      change seen = _ at hseen
      rw [hseen]
      exact ⟨(hjoins t ht).named, mem_reverse.2 (hjoins t ht).to_in,
        fun status hs => ((hjoins t ht).from_in status hs).imp_left mem_reverse.2⟩
    obtain ⟨byName, hbyName⟩ := checkEdges_iff.2 ⟨hin, hapart, fun _ _ => not_mem_nil⟩
    refine Go.bind_ok.2 ⟨_, hacc, (if_neg hne).trans ?_⟩
    exact Go.bind_ok.2 ⟨_, hbyName, rfl⟩

end

end Graph
end Armature
