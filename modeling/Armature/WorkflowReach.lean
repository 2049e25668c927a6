import Armature.GoUnicode
import Armature.Islands
import Armature.WorkflowEngine
/-!
# WorkflowReach — what `Validate` lets through and what a workflow can come to (`workflow/engine.go`)

`Validate` looks at the transitions one by one: some transition must lead to each status but the initial one.  What follows for
the whole graph is that a status no issue comes to lies behind an island, a group of statuses that lead to each other and that
nothing outside leads to.
-/
namespace Armature
namespace Wf

open List
open Relation (ReflTransGen TransGen)
open Islands (Shut Island)

/-! ## `Validate` -/

def StatusCategory.valid : StatusCategory → Bool
  | .todo | .inProgress | .done => true

def StatusCategory.text : StatusCategory → String
  | .todo => "todo"
  | .inProgress => "in_progress"
  | .done => "done"

def RuleKind.text : RuleKind → String
  | .condition => "condition"
  | .validator => "validator"
  | .postFunction => "postfunction"

def quoted (u : Go.Tables) (name : String) : String := String.ofList (Go.quote u name.toList)

def Piece.text (u : Go.Tables) : Piece → String
  | .words s => s
  | .quoted name => Wf.quoted u name

def Err.text (u : Go.Tables) : Err → String
  | .transitionNotFound => "no such transition"
  | .transitionNotAvailable why => "that transition is not available: " ++ String.join (why.map (Piece.text u))
  | .refused e => e.message
  | .failed message => String.join (message.map (Piece.text u))

def Registry.known (r : Registry) (kind : RuleKind) (type : String) : Bool :=
  match kind with
  | .condition => (r.conditions type).isSome
  | .validator => (r.validators type).isSome
  | .postFunction => (r.postFunctions type).isSome

namespace Engine

def buildRule (e : Engine) (rule : Rule) : Except Err Unit :=
  match rule.kind with
  | .condition => do let _ ← e.registry.buildCondition rule
  | .validator => do let _ ← e.registry.buildValidator rule
  | .postFunction => do let _ ← e.registry.buildPostFunction rule

def categoryProblems (u : Go.Tables) (s : Step) : List String :=
  if s.status.category.valid then []
  else ["status " ++ quoted u s.status.name ++ " has an unknown category " ++ quoted u s.status.category.text]

def initialProblems (w : Workflow) : List String :=
  let initials := w.steps.countP (fun s => s.isInitial)
  if initials = 0 then ["no status is marked as where new issues start"]
  else if 1 < initials then ["more than one status is marked as where new issues start"]
  else []

def ruleProblems (u : Go.Tables) (e : Engine) (t : Transition) (rule : Rule) : List String :=
  if !e.registry.known rule.kind rule.type then
    ["transition " ++ quoted u t.name ++ " uses unknown " ++ rule.kind.text ++ " " ++ quoted u rule.type]
  else
    match e.buildRule rule with
    | .ok () => []
    | .error err => ["transition " ++ quoted u t.name ++ ": " ++ err.text u]

def transitionProblems (u : Go.Tables) (e : Engine) (w : Workflow) (t : Transition) : List String :=
  (if (w.stepById t.toStepId).isNone then ["transition " ++ quoted u t.name ++ " leads outside the workflow"] else []) ++
  (match t.fromStepId with
    | none => []
    | some start =>
      if (w.stepById start).isNone then ["transition " ++ quoted u t.name ++ " starts outside the workflow"] else []) ++
  t.rules.flatMap (e.ruleProblems u t)

def arrivalProblems (u : Go.Tables) (w : Workflow) (s : Step) : List String :=
  if s.isInitial then []
  else if w.transitions.any (fun t => t.toStepId == s.id) then []
  else ["no transition leads to " ++ quoted u s.status.name]

def problems (u : Go.Tables) (e : Engine) (w : Workflow) : List String :=
  (if w.steps = [] then ["a workflow needs at least one status"] else []) ++
  w.steps.flatMap (categoryProblems u) ++ initialProblems w ++
  w.transitions.flatMap (e.transitionProblems u w) ++ w.steps.flatMap (arrivalProblems u w)

def validate (u : Go.Tables) (e : Engine) (w : Workflow) : Except Err Unit :=
  if e.problems u w = [] then .ok ()
  else .error (.failed [.words "workflow ", .quoted w.name, .words (" is not usable: [" ++ " ".intercalate (e.problems u w) ++ "]")])

end Engine

/-! ## What is accepted -/

structure Coherent (w : Workflow) (start : Step) : Prop where
  initial : w.steps.filter (fun s => s.isInitial) = [start]
  leadsIn : ∀ t ∈ w.transitions, ∃ s ∈ w.steps, s.id = t.toStepId
  startsIn : ∀ t ∈ w.transitions, ∀ id, t.fromStepId = some id → ∃ s ∈ w.steps, s.id = id
  ledTo : ∀ s ∈ w.steps, s.isInitial = false → ∃ t ∈ w.transitions, t.toStepId = s.id

theorem stepById_none {w : Workflow} {id : Uuid} : (w.stepById id).isNone = false → ∃ s ∈ w.steps, s.id = id := by
  intro h
  rw [Workflow.stepById, Option.isNone_eq_false_iff, List.find?_isSome] at h
  obtain ⟨s, hs, hid⟩ := h
  exact ⟨s, hs, by simpa using hid⟩

theorem initialProblems_nil {w : Workflow} (h : Engine.initialProblems w = []) :
    ∃ start, w.steps.filter (fun s => s.isInitial) = [start] := by
  rw [Engine.initialProblems] at h
  split at h
  · simp at h
  · split at h
    · simp at h
    · rw [← length_eq_one_iff, ← countP_eq_length_filter]
      omega

theorem coherent_of_validate {u : Go.Tables} {e : Engine} {w : Workflow} (h : e.validate u w = .ok ()) :
    ∃ start, Coherent w start := by
  have hnone : e.problems u w = [] := by
    rw [Engine.validate] at h
    split at h
    · assumption
    · cases h
  simp only [Engine.problems, append_eq_nil_iff, flatMap_eq_nil_iff] at hnone
  obtain ⟨⟨⟨-, hinitial⟩, htransitions⟩, harrivals⟩ := hnone
  obtain ⟨start, hstart⟩ := initialProblems_nil hinitial
  refine ⟨start, hstart, fun t ht => ?_, fun t ht id hid => ?_, fun s hs hother => ?_⟩
  · have hp := htransitions t ht
    simp only [Engine.transitionProblems, append_eq_nil_iff] at hp
    exact stepById_none (by simpa [Option.isSome_iff_ne_none] using hp.1.1)
  · have hp := htransitions t ht
    simp only [Engine.transitionProblems, append_eq_nil_iff, hid] at hp
    exact stepById_none (by simpa [Option.isSome_iff_ne_none] using hp.1.2)
  · have hp := harrivals s hs
    simpa [Engine.arrivalProblems, hother] using hp

/-! ## Following transitions -/

def Transition.leaves (t : Transition) (id : Uuid) : Prop := t.fromStepId = none ∨ t.fromStepId = some id

def Workflow.leads (w : Workflow) (a b : Uuid) : Prop :=
  (∃ s ∈ w.steps, s.id = a) ∧ ∃ t ∈ w.transitions, t.leaves a ∧ t.toStepId = b

namespace Coherent

variable {w : Workflow} {start : Step}

theorem start_mem (h : Coherent w start) : start ∈ w.steps ∧ start.isInitial = true := by
  have hmem : start ∈ w.steps.filter (fun s => s.isInitial) := by rw [h.initial]; simp
  simpa using mem_filter.1 hmem

theorem eq_start (h : Coherent w start) {s : Step} (hs : s ∈ w.steps) (hinitial : s.isInitial = true) : s = start := by
  have hmem : s ∈ w.steps.filter (fun s => s.isInitial) := mem_filter.2 ⟨hs, hinitial⟩
  rw [h.initial] at hmem
  simpa using hmem

theorem exists_leads (h : Coherent w start) {b : Uuid} (hb : ∃ s ∈ w.steps, s.id = b) (hne : b ≠ start.id) :
    ∃ a, w.leads a b := by
  obtain ⟨s, hs, rfl⟩ := hb
  have hother : s.isInitial = false := by
    cases hinitial : s.isInitial
    · rfl
    · exact absurd (congrArg Step.id (h.eq_start hs hinitial)) hne
  obtain ⟨t, ht, hto⟩ := h.ledTo s hs hother
  cases hfrom : t.fromStepId with
  | none => exact ⟨start.id, ⟨start, h.start_mem.1, rfl⟩, t, ht, .inl hfrom, hto⟩
  | some id => exact ⟨id, h.startsIn t ht id hfrom, t, ht, .inr hfrom, hto⟩

end Coherent

/-- **When an accepted workflow has no dead steps**: when none of its statuses form an island, a group without the initial one
that lead to each other and to which nothing outside the group leads. -/
theorem no_dead_steps (u : Go.Tables) (e : Engine) (w : Workflow) (h : e.validate u w = .ok ()) :
    ∃ start, w.steps.filter (fun s => s.isInitial) = [start] ∧
      ((∀ s ∈ w.steps, ReflTransGen w.leads start.id s.id) ↔
        ¬ ∃ I ⊆ {id | ∃ s ∈ w.steps, s.id = id}, start.id ∉ I ∧ Island w.leads I) := by
  obtain ⟨start, hcoherent⟩ := coherent_of_validate h
  refine ⟨start, hcoherent.initial, ?_⟩
  have hfin : {id | ∃ s ∈ w.steps, s.id = id}.Finite := by
    refine (finite_toSet (w.steps.map Step.id)).subset fun id hid => ?_
    simpa using hid
  rw [← Islands.all_reached_iff hfin (fun _ _ hedge _ => hedge.1) fun b hb hne => hcoherent.exists_leads hb hne]
  simp

def adrift : Workflow where
  name := "Adrift"
  steps := [⟨1, ⟨11, "Open", .todo⟩, true⟩, ⟨2, ⟨12, "Parked", .inProgress⟩, false⟩, ⟨3, ⟨13, "Waiting", .inProgress⟩, false⟩]
  transitions := [⟨21, "Wait", some 2, 3, 0, [], []⟩, ⟨22, "Park", some 3, 2, 1, [], []⟩]

theorem adrift_accepted : engine.validate Go.Tables.ascii adrift = .ok () := rfl

theorem leads_adrift {a b : Uuid} (h : adrift.leads a b) : a = 2 ∧ b = 3 ∨ a = 3 ∧ b = 2 := by
  obtain ⟨-, t, ht, hleaves, rfl⟩ := h
  simp only [adrift, mem_cons, not_mem_nil, or_false] at ht
  rcases ht with rfl | rfl <;> simpa [Transition.leaves, eq_comm] using hleaves

/-- **An accepted workflow can hold a step that no walk from the initial one comes to.** -/
theorem dead_step_accepted : ¬ ∀ (u : Go.Tables) (e : Engine) (w : Workflow), e.validate u w = .ok () →
    ∀ start ∈ w.steps, start.isInitial = true → ∀ s ∈ w.steps, ReflTransGen w.leads start.id s.id := by
  intro hall
  have hreach := hall Go.Tables.ascii engine adrift adrift_accepted ⟨1, ⟨11, "Open", .todo⟩, true⟩ (by simp [adrift]) rfl
    ⟨2, ⟨12, "Parked", .inProgress⟩, false⟩ (by simp [adrift])
  have hshut : Shut adrift.leads {2, 3} := fun a b hedge _ => by
    rcases leads_adrift hedge with ⟨rfl, -⟩ | ⟨rfl, -⟩ <;> simp
  exact absurd (hshut.of_reach hreach (by simp)) (by simp)

theorem no_dead_steps_adrift : engine.validate Go.Tables.ascii adrift = .ok () ∧
    ∃ start, adrift.steps.filter (fun s => s.isInitial) = [start] ∧
      ((∀ s ∈ adrift.steps, ReflTransGen adrift.leads start.id s.id) ↔
        ¬ ∃ I ⊆ {id | ∃ s ∈ adrift.steps, s.id = id}, start.id ∉ I ∧ Island adrift.leads I) :=
  ⟨adrift_accepted, no_dead_steps Go.Tables.ascii engine adrift adrift_accepted⟩

end Wf
end Armature
