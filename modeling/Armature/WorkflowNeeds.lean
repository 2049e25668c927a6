import Armature.WorkflowOffer
/-!
# WorkflowNeeds — what a transition needs is what its validators ask for

An engine is `Honest` when each validator names a field in every refusal of a bare move, and takes an input that gives
that field, or any where it asked for nothing; only `assignee_required` looks again, at an input that takes away the
assignee an issue has.  The engine of the built-in rules is (`honest_engine`), and on it an offered transition given all it
needs is carried out unless it is such an input (`offered_is_carried_out`).
-/
namespace Armature
namespace Wf

open List

def Supplies (input : Input) (field : String) : Prop :=
  (field = "comment" ∧ Go.trimSpace input.comment ≠ []) ∨
  (field = "resolution" ∧ Go.trimSpace input.resolution ≠ []) ∨
  (field = "assignee" ∧ ∃ id, input.assignee = some id ∧ id ≠ Uuid.none)

def Input.Unassigns (input : Input) : Prop := input.assignee = some Uuid.none

instance (input : Input) : Decidable input.Unassigns := by unfold Input.Unassigns; infer_instance

def TakesAway (t : Transition) (subject : Subject) (input : Input) : Prop :=
  input.Unassigns ∧ subject.assigneeId.isSome ∧ ∃ rule ∈ t.rules, rule.kind = .validator ∧ rule.type = "validator.assignee_required"

instance (t : Transition) (subject : Subject) (input : Input) : Decidable (TakesAway t subject input) := by
  unfold TakesAway; infer_instance

structure HonestValidator (v : Validator) : Prop where
  names_field : ∀ subject actor input err, v subject actor input = some err → ∃ r, err = .refused r ∧ r.field ≠ ""
  is_answered : ∀ subject actor input r, v subject actor {} = some (.refused r) → Supplies input r.field →
    v subject actor input = none

def AsksOnce (v : Validator) (subject : Subject) (input : Input) : Prop :=
  ∀ actor, v subject actor {} = none → v subject actor input = none

/-- Every rule the registry builds keeps its word: validators as above, and post-functions never fail. -/
structure Honest (e : Engine) : Prop where
  validators : ∀ rule v, e.registry.buildValidator rule = .ok v → HonestValidator v
  asks_once : ∀ rule v, e.registry.buildValidator rule = .ok v → ∀ subject input,
    ¬ (input.Unassigns ∧ subject.assigneeId.isSome ∧ rule.type = "validator.assignee_required") → AsksOnce v subject input
  asks_again : ∀ rule v, e.registry.buildValidator rule = .ok v → rule.type = "validator.assignee_required" →
    ∀ subject actor input, input.Unassigns → v subject actor input ≠ none
  postFunctions : ∀ rule f, e.registry.buildPostFunction rule = .ok f →
    ∀ subject actor input x, ∃ y, f subject actor input x = .ok y

/-! ## The built-in rules -/

theorem honest_assigneeRequired : HonestValidator assigneeRequired where
  names_field subject actor input err h := by
    unfold assigneeRequired at h
    split at h
    · cases h
    · split at h
      · cases h
      · exact ⟨_, (Option.some.inj h).symm, by decide⟩
  is_answered subject actor input r h hs := by
    have hf : r.field = "assignee" := by
      unfold assigneeRequired at h
      split at h
      · cases h
      · split at h
        · cases h
        · cases h; rfl
    rcases hs with ⟨hc, -⟩ | ⟨hc, -⟩ | ⟨-, id, ha, hne⟩
    · rw [hf] at hc; exact absurd hc (by decide)
    · rw [hf] at hc; exact absurd hc (by decide)
    · simp [assigneeRequired, ha, hne]

theorem assigneeRequired_asks_once {subject : Subject} {input : Input} (hu : ¬ (input.Unassigns ∧ subject.assigneeId.isSome)) :
    AsksOnce assigneeRequired subject input := by
  intro actor h
  have hs : subject.assigneeId.isSome = true := by
    cases hs : subject.assigneeId <;> simp [assigneeRequired, hs] at h ⊢
  unfold assigneeRequired
  cases ha : input.assignee with
  | none => simp [hs]
  | some id =>
    have hne : id ≠ Uuid.none := fun he => hu ⟨by rw [Input.Unassigns, ha, he], hs⟩
    simp [hne]

theorem assigneeRequired_unassigns {subject : Subject} {actor : Actor} {input : Input} (hu : input.Unassigns) :
    assigneeRequired subject actor input ≠ none := by
  rw [Input.Unassigns] at hu
  simp [assigneeRequired, hu]

def textRequired (text : Input → Go.Text) (e : RuleError) : Validator := fun _ _ input =>
  if Go.trimSpace (text input) = [] then some (.refused e) else none

theorem honest_textRequired (text : Input → Go.Text) (e : RuleError) (hbare : text {} = []) (hfield : e.field ≠ "")
    (hs : ∀ input, Supplies input e.field → Go.trimSpace (text input) ≠ []) : HonestValidator (textRequired text e) where
  names_field subject actor input err h := by
    unfold textRequired at h
    split at h
    · exact ⟨e, (Option.some.inj h).symm, hfield⟩
    · cases h
  is_answered subject actor input r h hsup := by
    unfold textRequired at h
    rw [hbare, if_pos (by decide)] at h
    cases h
    exact if_neg (hs input hsup)

theorem textRequired_asks (text : Input → Go.Text) (e : RuleError) (hbare : text {} = []) (subject : Subject) (input : Input) :
    AsksOnce (textRequired text e) subject input := by
  intro actor h
  unfold textRequired at h
  rw [hbare, if_pos (by decide)] at h
  cases h

theorem honest_commentRequired : HonestValidator commentRequired :=
  honest_textRequired (·.comment) ⟨"comment", "This transition needs a comment."⟩ rfl (by decide) (by
    rintro input (⟨-, h⟩ | ⟨h, -⟩ | ⟨h, -⟩)
    · exact h
    · exact absurd h (by decide)
    · exact absurd h (by decide))

theorem honest_resolutionRequired : HonestValidator resolutionRequired :=
  honest_textRequired (·.resolution) ⟨"resolution", "Choose a resolution before closing this."⟩ rfl (by decide) (by
    rintro input (⟨h, -⟩ | ⟨-, h⟩ | ⟨h, -⟩)
    · exact absurd h (by decide)
    · exact h
    · exact absurd h (by decide))

theorem honest_engine : Honest engine where
  validators rule v h := by
    simp only [engine, Registry.buildValidator, Registry.build, defaultRegistry] at h
    split at h
    · cases h
    · rename_i build hb
      split at hb <;> cases hb <;> cases h
      · exact honest_assigneeRequired
      · exact honest_commentRequired
      · exact honest_resolutionRequired
  asks_once rule v h subject input hu := by
    simp only [engine, Registry.buildValidator, Registry.build, defaultRegistry] at h
    split at h
    · cases h
    · rename_i build hb
      split at hb <;> cases hb <;> cases h
      · rename_i htype
        exact assigneeRequired_asks_once fun hboth => hu ⟨hboth.1, hboth.2, htype⟩
      · exact textRequired_asks (·.comment) _ rfl subject input
      · exact textRequired_asks (·.resolution) _ rfl subject input
  asks_again rule v h htype subject actor input hu := by
    simp only [engine, Registry.buildValidator, Registry.build, defaultRegistry, htype] at h
    cases h
    exact assigneeRequired_unassigns hu
  postFunctions rule f h subject actor input x := by
    simp only [engine, Registry.buildPostFunction, Registry.build, defaultRegistry] at h
    split at h
    · cases h
    · rename_i build hb
      split at hb <;> cases hb
      · cases h; exact ⟨_, rfl⟩
      · cases h; exact ⟨_, rfl⟩
      · cases h; exact ⟨_, rfl⟩
      · cases h; exact ⟨_, rfl⟩
      · cases hd : decode rule.config.text with
        | error => simp [buildAddComment, hd, bind, Except.bind] at h
        | ok =>
          simp only [buildAddComment, hd, bind, Except.bind] at h
          split at h
          · cases h
          · cases h; exact ⟨_, rfl⟩

/-! ## Needs and execution -/

namespace Engine

variable {e : Engine} {t : Transition} {w : Workflow} {subject : Subject} {actor : Actor} {input : Input}

theorem built {rule : Rule} {v : Validator} (h : e.validator t rule = .ok v) : e.registry.buildValidator rule = .ok v := by
  unfold Engine.validator at h
  cases hb : e.registry.buildValidator rule with
  | error => rw [hb] at h; cases h
  | ok => rw [hb] at h; exact h

theorem honest_postFunction (he : Honest e) {rule : Rule} {f : PostFunction} (h : e.postFunction t rule = .ok f)
    (x : Effect) : ∃ y, f subject actor input x = .ok y := by
  refine he.postFunctions rule f ?_ subject actor input x
  unfold Engine.postFunction at h
  cases hb : e.registry.buildPostFunction rule with
  | error => rw [hb] at h; cases h
  | ok => rw [hb] at h; exact h

theorem needs_nil_iff (he : Honest e) (hu : Usable e t) {n : List String} (hn : e.needs t subject actor = .ok n) :
    n = [] ↔ e.Accepted t subject actor {} := by
  obtain ⟨n', hn', hmem⟩ := needs_ok subject actor hu
  rw [hn] at hn'
  obtain rfl := Except.ok.inj hn'
  constructor
  · rintro rfl rule hr v hv
    cases hc : v subject actor {} with
    | none => rfl
    | some =>
      obtain ⟨r, rfl, hne⟩ := (he.validators rule v (built hv)).names_field _ _ _ _ hc
      exact absurd ((hmem r.field).2 ⟨rule, hr, v, hv, by simp [fieldOf, hc, hne]⟩) not_mem_nil
  · intro h
    refine eq_nil_iff_forall_not_mem.2 (fun f hf => ?_)
    obtain ⟨rule, hr, v, hv, hfield⟩ := (hmem f).1 hf
    rw [h rule hr v hv] at hfield
    cases hfield

theorem accepted_iff_supplied (he : Honest e) (hu : Usable e t) {n : List String}
    (hn : e.needs t subject actor = .ok n) (hs : ∀ f ∈ n, Supplies input f) :
    e.Accepted t subject actor input ↔ ¬ TakesAway t subject input := by
  obtain ⟨n', hn', hmem⟩ := needs_ok subject actor hu
  rw [hn] at hn'
  obtain rfl := Except.ok.inj hn'
  constructor
  · rintro h ⟨hunassigns, -, rule, hr, hkind, htype⟩
    have hrule := (mem_rulesOfKind _ _ _).2 ⟨hr, hkind⟩
    obtain ⟨v, hv⟩ := hu.validator hrule
    exact he.asks_again rule v (built hv) htype _ _ _ hunassigns (h rule hrule v hv)
  · intro ha rule hr v hv
    have hh := he.validators rule v (built hv)
    cases hc : v subject actor {} with
    | none =>
      refine he.asks_once rule v (built hv) subject input (fun hall => ha ⟨hall.1, hall.2.1, rule, ?_⟩) actor hc
      exact ⟨((mem_rulesOfKind _ _ _).1 hr).1, ((mem_rulesOfKind _ _ _).1 hr).2, hall.2.2⟩
    | some =>
      obtain ⟨r, rfl, hne⟩ := hh.names_field _ _ _ _ hc
      exact hh.is_answered _ _ _ r hc (hs _ ((hmem _).2 ⟨rule, hr, v, hv, by simp [fieldOf, hc, hne]⟩))

theorem stepById_isSome {s : Step} (hs : s ∈ w.steps) : ∃ s', w.stepById s.id = some s' := by
  unfold Workflow.stepById
  cases hf : w.steps.find? (fun s' => s'.id == s.id) with
  | some s' => exact ⟨s', rfl⟩
  | none => exact absurd (List.find?_eq_none.1 hf s hs) (by simp)

theorem carryOut_accepted (he : Honest e) (hu : Usable e t) (hstep : ∃ s ∈ w.steps, s.id = t.toStepId)
    (h : e.Accepted t subject actor input) : ∃ d, e.carryOut w t subject actor input = .ok d := by
  obtain ⟨s, hs, hid⟩ := hstep
  obtain ⟨target, ht⟩ := stepById_isSome (w := w) hs
  obtain ⟨y, hy⟩ := applyAll_ok subject actor input
    (rulesOfKind t.rules .postFunction) (inputEffect input) (fun rule hr => by
      obtain ⟨f, hf⟩ := hu.postFunction hr
      exact ⟨f, hf, fun x => honest_postFunction he hf x⟩)
  have hv := validateAll_ok (rulesOfKind t.rules .validator) (fun _ hr => hu.validator hr) h
  exact ⟨_, by simp [carryOut, hv, ← hid, ht, hy, bind, Except.bind, pure, Except.pure]; rfl⟩

theorem carryOut_refused_iff (he : Honest e) (hu : Usable e t) :
    (∃ r, e.carryOut w t subject actor input = .error (.refused r)) ↔ ¬ e.Accepted t subject actor input := by
  constructor
  · rintro ⟨r, hr⟩ h
    have hv := validateAll_ok (rulesOfKind t.rules .validator) (fun _ hr => hu.validator hr) h
    obtain ⟨y, hy⟩ := applyAll_ok subject actor input
      (rulesOfKind t.rules .postFunction) (inputEffect input) (fun rule hr => by
        obtain ⟨f, hf⟩ := hu.postFunction hr
        exact ⟨f, hf, fun x => honest_postFunction he hf x⟩)
    cases ht : w.stepById t.toStepId <;> simp [carryOut, hv, ht, hy, bind, Except.bind, pure, Except.pure] at hr
  · intro h
    have hbad : ∃ rule ∈ rulesOfKind t.rules .validator, ∃ v, e.validator t rule = .ok v ∧ v subject actor input ≠ none := by
      by_contra hno
      exact h (fun rule hr v hv => by_contra fun hne => hno ⟨rule, hr, v, hv, hne⟩)
    obtain ⟨rule, hr, v, err, hv, hc, hval⟩ := validateAll_error _ (fun _ hr => hu.validator hr) hbad
    obtain ⟨r, rfl, -⟩ := (he.validators rule v (built hv)).names_field _ _ _ _ hc
    exact ⟨r, by simp [carryOut, hval, bind, Except.bind]⟩

end Engine

/-! ## The engine of the built-in rules -/

open Engine

def Workflow.UniqueIds (w : Workflow) : Prop :=
  (w.steps.map (·.id)).Nodup ∧ (w.transitions.map (·.id)).Nodup

theorem transition_of_mem {w : Workflow} (hw : w.UniqueIds) {t : Transition} (ht : t ∈ w.transitions) :
    w.transition t.id = some t := by
  unfold Workflow.transition
  cases hf : w.transitions.find? (fun t' => t'.id == t.id) with
  | none => exact absurd (List.find?_eq_none.1 hf t ht) (by simp)
  | some t' =>
    have hid : t'.id = t.id := by simpa using List.find?_some hf
    rw [inj_on_of_nodup_map hw.2 (mem_of_find?_eq_some hf) ht hid]

theorem mem_of_transition {w : Workflow} {id : Uuid} {t : Transition} (h : w.transition id = some t) :
    t ∈ w.transitions ∧ t.id = id :=
  ⟨mem_of_find?_eq_some h, by simpa using List.find?_some h⟩

theorem carryOut_available {e : Engine} {t : Transition} {w : Workflow} {subject : Subject} {actor : Actor}
    {input : Input} (he : Honest e) (hu : Usable e t) : ¬ Unavailable (e.carryOut w t subject actor input) := by
  by_cases h : e.Accepted t subject actor input
  · by_cases hstep : ∃ s ∈ w.steps, s.id = t.toStepId
    · obtain ⟨d, hd⟩ := carryOut_accepted (w := w) he hu hstep h
      rw [hd]
      exact id
    · have hv := validateAll_ok (rulesOfKind t.rules .validator) (fun _ hr => hu.validator hr) h
      have hn : w.stepById t.toStepId = none := List.find?_eq_none.2 (fun s hs hid => hstep ⟨s, hs, by simpa using hid⟩)
      simp [carryOut, hv, hn, bind, Except.bind, Unavailable]
  · obtain ⟨r, hr⟩ := (carryOut_refused_iff (w := w) he hu).2 h
    rw [hr]
    exact id

/-- **What the engine offers is what it carries out.**  On a workflow with unique ids whose rules all build: exactly the
transitions offered do not fail as not found or not available; one needs nothing exactly when a bare move is refused by
no validator; and one that leads to a step of the workflow is carried out on every input that gives all it needs, but for
one that takes away an assignee the transition asks for. -/
theorem offered_is_carried_out (w : Workflow) (subject : Subject) (actor : Actor) (hw : w.UniqueIds)
    (hb : ∀ t ∈ w.transitions, Usable engine t) :
    ∃ ts, engine.available w subject actor = .ok ts ∧
      (∀ id input, (∃ t ∈ ts, t.id = id) ↔ ¬ Unavailable (engine.evaluate w id subject actor input)) ∧
      (∀ t ∈ ts, t.needs = [] ↔ ¬ ∃ r, engine.evaluate w t.id subject actor {} = .error (.refused r)) ∧
      ∀ t ∈ ts, (∃ s ∈ w.steps, s.id = t.toStepId) → ∀ input : Input, (∀ f ∈ t.needs, Supplies input f) →
        ((∃ d, engine.evaluate w t.id subject actor input = .ok d) ↔ ¬ TakesAway t subject input) := by
  obtain ⟨ts, hts, hmem⟩ := mem_available subject actor hb
  -- an offered transition is one of the workflow's that is open, with its needs written on it
  have of_mem : ∀ x ∈ ts, ∃ t ∈ w.transitions, engine.needs t subject actor = .ok x.needs ∧ x.toStepId = t.toStepId ∧
      x.rules = t.rules ∧ ∀ input, engine.evaluate w x.id subject actor input = engine.carryOut w t subject actor input := by
    intro x hx
    obtain ⟨t, ht, hopen, n, hn, rfl⟩ := (hmem x).1 hx
    exact ⟨t, ht, hn, rfl, rfl, fun input => evaluate_offered (transition_of_mem hw ht) hopen⟩
  refine ⟨ts, hts, fun id input => ⟨?_, fun h => ?_⟩, fun x hx => ?_, fun x hx hstep input hs => ?_⟩
  · rintro ⟨x, hx, rfl⟩
    obtain ⟨t, ht, -, -, -, he⟩ := of_mem x hx
    rw [he]
    exact carryOut_available honest_engine (hb t ht)
  · cases hf : w.transition id with
    | none => exact absurd (by simp [evaluate, hf, Unavailable]) h
    | some t =>
      obtain ⟨ht, rfl⟩ := mem_of_transition hf
      have hopen : engine.Open w subject actor t := by_contra fun hno => h (evaluate_refused hf (hb t ht) hno)
      obtain ⟨n, hn, -⟩ := needs_ok subject actor (hb t ht)
      exact ⟨{ t with needs := n }, (hmem _).2 ⟨t, ht, hopen, n, hn, rfl⟩, rfl⟩
  · obtain ⟨t, ht, hn, -, -, he⟩ := of_mem x hx
    rw [needs_nil_iff honest_engine (hb t ht) hn, he, carryOut_refused_iff honest_engine (hb t ht), not_not]
  · obtain ⟨t, ht, hn, hto, hrules, he⟩ := of_mem x hx
    have haccepted := accepted_iff_supplied honest_engine (hb t ht) hn hs
    have htakes : TakesAway x subject input ↔ TakesAway t subject input := by
      unfold TakesAway
      rw [hrules]
    rw [he, htakes, ← haccepted]
    constructor
    · rintro ⟨d, hd⟩
      by_contra hno
      obtain ⟨r, hr⟩ := (carryOut_refused_iff (w := w) honest_engine (hb t ht)).2 hno
      rw [hd] at hr
      cases hr
    · exact carryOut_accepted honest_engine (hb t ht) (hto ▸ hstep)

/-! ## A move that takes the assignee away -/

def closing (target : Uuid) : Transition :=
  ⟨5, "Close", some 3, target, 0, [], [⟨.validator, "validator.assignee_required", ⟨.ok [], .ok []⟩, 0⟩]⟩

def closingFlow (target : Uuid) : Workflow :=
  ⟨"Support", [⟨3, ⟨1, "Open", .todo⟩, true⟩, ⟨4, ⟨2, "Closed", .done⟩, false⟩], [closing target]⟩

def assigned : Subject := ⟨1, some 9, none⟩

theorem closingFlow_usable (target : Uuid) : (closingFlow target).UniqueIds ∧ ∀ t ∈ (closingFlow target).transitions, Usable engine t := by
  refine ⟨⟨by simp [closingFlow], nodup_singleton _⟩, fun t ht rule hr => ?_⟩
  rw [mem_singleton.1 ht] at hr
  rw [mem_singleton.1 hr]
  exact ⟨assigneeRequired, rfl⟩

theorem offered_is_carried_out_closing : ∃ d, engine.evaluate (closingFlow 4) 5 assigned ⟨9, "member"⟩ {} = .ok d := by
  obtain ⟨ts, hts, -, -, h⟩ := offered_is_carried_out (closingFlow 4) assigned ⟨9, "member"⟩ (closingFlow_usable 4).1
    (closingFlow_usable 4).2
  have he : engine.available (closingFlow 4) assigned ⟨9, "member"⟩ = .ok [closing 4] := rfl
  rw [he] at hts
  obtain rfl := Except.ok.inj hts
  exact (h (closing 4) (by simp) ⟨_, mem_cons_of_mem _ mem_cons_self, rfl⟩ {} (by simp [closing])).2 (by decide)

/-- **A move that gives all that is needed can still fail**: one that takes the assignee away where the transition asks
for one, and one to a step that is not in the workflow. -/
theorem supplied_move_fails :
    ((closingFlow 4).UniqueIds ∧ (∀ t ∈ (closingFlow 4).transitions, Usable engine t) ∧
      engine.available (closingFlow 4) assigned ⟨9, "member"⟩ = .ok [closing 4] ∧ (closing 4).needs = [] ∧
      ∀ d, engine.evaluate (closingFlow 4) 5 assigned ⟨9, "member"⟩ { assignee := some Uuid.none } ≠ .ok d) ∧
    ((closingFlow 8).UniqueIds ∧ (∀ t ∈ (closingFlow 8).transitions, Usable engine t) ∧
      engine.available (closingFlow 8) assigned ⟨9, "member"⟩ = .ok [closing 8] ∧ (closing 8).needs = [] ∧
      ∀ d, engine.evaluate (closingFlow 8) 5 assigned ⟨9, "member"⟩ {} ≠ .ok d) :=
  ⟨⟨(closingFlow_usable 4).1, (closingFlow_usable 4).2, rfl, rfl, fun _ h => by cases h⟩,
    ⟨(closingFlow_usable 8).1, (closingFlow_usable 8).2, rfl, rfl, fun _ h => by cases h⟩⟩

end Wf
end Armature
