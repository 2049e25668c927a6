import Armature.WorkflowEngine
/-!
# WorkflowOffer — what the engine offers is what it carries out

`mem_available` says which transitions are offered, `evaluate_offered` and `evaluate_refused` what `Evaluate` does with
one that is and with one that is not.  What a transition needs is read off its validators' refusals of a bare move;
`Honest` is what a validator has to keep for that reading to be enough.
-/
namespace Armature
namespace Wf

open List

def Builds (e : Engine) (rule : Rule) : Prop :=
  match rule.kind with
  | .condition => ∃ c, e.registry.buildCondition rule = .ok c
  | .validator => ∃ v, e.registry.buildValidator rule = .ok v
  | .postFunction => ∃ f, e.registry.buildPostFunction rule = .ok f

def Usable (e : Engine) (t : Transition) : Prop := ∀ rule ∈ t.rules, Builds e rule

theorem mem_rulesOfKind (rules : List Rule) (kind : RuleKind) (rule : Rule) :
    rule ∈ rulesOfKind rules kind ↔ rule ∈ rules ∧ rule.kind = kind := by
  unfold rulesOfKind
  simp [mem_filter]

variable {e : Engine} {t : Transition} {w : Workflow} {subject : Subject} {actor : Actor} {input : Input}

theorem mapError_ok {α : Type} {x : Except Err α} (g : Err → Err) (h : ∃ a, x = .ok a) : ∃ a, x.mapError g = .ok a := by
  obtain ⟨a, rfl⟩ := h
  exact ⟨a, rfl⟩

theorem Usable.condition (h : Usable e t) {rule : Rule} (hr : rule ∈ rulesOfKind t.rules .condition) :
    ∃ c, e.condition t rule = .ok c := by
  obtain ⟨hm, hk⟩ := (mem_rulesOfKind _ _ _).1 hr
  exact mapError_ok _ (by simpa only [Builds, hk] using h rule hm)

theorem Usable.validator (h : Usable e t) {rule : Rule} (hr : rule ∈ rulesOfKind t.rules .validator) :
    ∃ v, e.validator t rule = .ok v := by
  obtain ⟨hm, hk⟩ := (mem_rulesOfKind _ _ _).1 hr
  exact mapError_ok _ (by simpa only [Builds, hk] using h rule hm)

theorem Usable.postFunction (h : Usable e t) {rule : Rule} (hr : rule ∈ rulesOfKind t.rules .postFunction) :
    ∃ f, e.postFunction t rule = .ok f := by
  obtain ⟨hm, hk⟩ := (mem_rulesOfKind _ _ _).1 hr
  exact mapError_ok _ (by simpa only [Builds, hk] using h rule hm)

namespace Engine

/-! ## The walks, on rules that build -/

theorem firstFailing_ok : ∀ (rules : List Rule), (∀ rule ∈ rules, ∃ c, e.condition t rule = .ok c) →
    ∃ o, e.firstFailing t subject actor rules = .ok o
  | [], _ => ⟨none, rfl⟩
  | rule :: rules, h => by
    obtain ⟨c, hc⟩ := h rule mem_cons_self
    rw [firstFailing, hc]
    by_cases hp : (c subject actor).1 = true
    · obtain ⟨o, ho⟩ := firstFailing_ok rules (fun r hr => h r (mem_cons_of_mem _ hr))
      exact ⟨o, by simp [bind, Except.bind, hp, ho]⟩
    · exact ⟨some (c subject actor).2, by simp [bind, Except.bind, hp]⟩

theorem conditionsPass_ok (subject : Subject) (actor : Actor) (h : Usable e t) : ∃ o, e.conditionsPass t subject actor = .ok o :=
  firstFailing_ok _ (fun _ hr => h.condition hr)

theorem mem_addOnce (f field : String) (out : List String) :
    f ∈ (if field ∈ out then out else out ++ [field]) ↔ f ∈ out ∨ f = field := by
  split
  · rename_i h
    exact ⟨.inl, fun hf => hf.elim id (fun he => he ▸ h)⟩
  · simp

theorem needsFrom_ok (subject : Subject) (actor : Actor) : ∀ (rules : List Rule) (out : List String), (∀ rule ∈ rules, ∃ v, e.validator t rule = .ok v) →
    ∃ n, e.needsFrom t subject actor out rules = .ok n ∧ ∀ f, f ∈ n ↔
      f ∈ out ∨ ∃ rule ∈ rules, ∃ v, e.validator t rule = .ok v ∧ fieldOf (v subject actor {}) = some f
  | [], out, _ => ⟨out, rfl, by simp⟩
  | rule :: rules, out, h => by
    obtain ⟨v, hv⟩ := h rule mem_cons_self
    have hrest := fun r hr => h r (mem_cons_of_mem rule hr)
    cases hf : fieldOf (v subject actor {}) with
    | none =>
      obtain ⟨n, hn, hmem⟩ := needsFrom_ok subject actor rules out hrest
      refine ⟨n, by simp [needsFrom, hv, bind, Except.bind, hf, hn], fun f => ?_⟩
      rw [hmem f]
      simp [hv, hf]
    | some field =>
      obtain ⟨n, hn, hmem⟩ := needsFrom_ok subject actor rules (if field ∈ out then out else out ++ [field]) hrest
      refine ⟨n, by simp [needsFrom, hv, bind, Except.bind, hf, hn], fun f => ?_⟩
      rw [hmem f, mem_addOnce]
      simp [hv, hf, or_assoc, eq_comm]

theorem needs_ok (subject : Subject) (actor : Actor) (h : Usable e t) : ∃ n, e.needs t subject actor = .ok n ∧ ∀ f, f ∈ n ↔
    ∃ rule ∈ rulesOfKind t.rules .validator, ∃ v, e.validator t rule = .ok v ∧
      fieldOf (v subject actor {}) = some f := by
  obtain ⟨n, hn, hmem⟩ := needsFrom_ok subject actor (rulesOfKind t.rules .validator) []
    (fun _ hr => h.validator hr)
  exact ⟨n, hn, fun f => by rw [hmem f]; simp⟩

def Accepted (e : Engine) (t : Transition) (subject : Subject) (actor : Actor) (input : Input) : Prop :=
  ∀ rule ∈ rulesOfKind t.rules .validator, ∀ v, e.validator t rule = .ok v → v subject actor input = none

theorem validateAll_ok : ∀ (rules : List Rule), (∀ rule ∈ rules, ∃ v, e.validator t rule = .ok v) →
    (∀ rule ∈ rules, ∀ v, e.validator t rule = .ok v → v subject actor input = none) →
    e.validateAll t subject actor input rules = .ok ()
  | [], _, _ => rfl
  | rule :: rules, h, ha => by
    obtain ⟨v, hv⟩ := h rule mem_cons_self
    rw [validateAll, hv]
    simp only [bind, Except.bind, ha rule mem_cons_self v hv]
    exact validateAll_ok rules (fun r hr => h r (mem_cons_of_mem _ hr))
      (fun r hr => ha r (mem_cons_of_mem _ hr))

theorem validateAll_error : ∀ (rules : List Rule), (∀ rule ∈ rules, ∃ v, e.validator t rule = .ok v) →
    (∃ rule ∈ rules, ∃ v, e.validator t rule = .ok v ∧ v subject actor input ≠ none) →
    ∃ rule ∈ rules, ∃ v err, e.validator t rule = .ok v ∧ v subject actor input = some err ∧
      e.validateAll t subject actor input rules = .error err
  | [], _, h => by obtain ⟨r, hr, -⟩ := h; exact absurd hr not_mem_nil
  | rule :: rules, h, hbad => by
    obtain ⟨v, hv⟩ := h rule mem_cons_self
    rw [validateAll, hv]
    cases hc : v subject actor input with
    | some err => exact ⟨rule, mem_cons_self, v, err, hv, hc, by simp [bind, Except.bind, hc]⟩
    | none =>
      have hbad' : ∃ r ∈ rules, ∃ v, e.validator t r = .ok v ∧ v subject actor input ≠ none := by
        obtain ⟨r, hr, v', hv', hne⟩ := hbad
        rcases mem_cons.1 hr with rfl | hr
        · rw [hv] at hv'
          obtain rfl := Except.ok.inj hv'
          exact absurd hc hne
        · exact ⟨r, hr, v', hv', hne⟩
      obtain ⟨r, hr, v', err, hv', he, hval⟩ := validateAll_error rules
        (fun r hr => h r (mem_cons_of_mem _ hr)) hbad'
      exact ⟨r, mem_cons_of_mem _ hr, v', err, hv', he, by simpa [bind, Except.bind, hc] using hval⟩

theorem applyAll_ok (subject : Subject) (actor : Actor) (input : Input) : ∀ (rules : List Rule) (effect : Effect),
    (∀ rule ∈ rules, ∃ f, e.postFunction t rule = .ok f ∧ ∀ x, ∃ y, f subject actor input x = .ok y) →
    ∃ y, e.applyAll t subject actor input rules effect = .ok y
  | [], effect, _ => ⟨effect, rfl⟩
  | rule :: rules, effect, h => by
    obtain ⟨f, hf, htot⟩ := h rule mem_cons_self
    obtain ⟨y, hy⟩ := htot effect
    obtain ⟨z, hz⟩ := applyAll_ok subject actor input rules y (fun r hr => h r (mem_cons_of_mem _ hr))
    exact ⟨z, by rw [applyAll, hf]; simpa [bind, Except.bind, hy, Except.mapError] using hz⟩

/-! ## What is offered -/

def Open (e : Engine) (w : Workflow) (subject : Subject) (actor : Actor) (t : Transition) : Prop :=
  reachable t (w.stepByStatus subject.statusId) = true ∧ e.conditionsPass t subject actor = .ok none

theorem mem_offered (subject : Subject) (actor : Actor) (current : Option Step) : ∀ (ts : List Transition), (∀ t ∈ ts, Usable e t) →
    ∃ out, e.offered subject actor current ts = .ok out ∧ ∀ x, x ∈ out ↔
      ∃ t ∈ ts, reachable t current = true ∧ e.conditionsPass t subject actor = .ok none ∧
        ∃ n, e.needs t subject actor = .ok n ∧ x = { t with needs := n }
  | [], _ => ⟨[], rfl, by simp⟩
  | t :: ts, h => by
    obtain ⟨out, hout, hmem⟩ := mem_offered subject actor current ts (fun t ht => h t (mem_cons_of_mem _ ht))
    have hu := h t mem_cons_self
    by_cases hr : reachable t current = true
    · obtain ⟨o, ho⟩ := conditionsPass_ok subject actor hu
      cases o with
      | some =>
        refine ⟨out, by simp [offered, hr, ho, hout, bind, Except.bind], fun x => ?_⟩
        rw [hmem x]
        simp [ho]
      | none =>
        obtain ⟨n, hn, -⟩ := needs_ok subject actor hu
        refine ⟨{ t with needs := n } :: out, by simp [offered, hr, ho, hn, hout, bind, Except.bind, pure, Except.pure],
          fun x => ?_⟩
        rw [mem_cons, hmem x]
        simp [ho, hr, hn]
    · refine ⟨out, by simp [offered, hr, hout], fun x => ?_⟩
      rw [hmem x]
      simp [hr]

theorem mem_available (subject : Subject) (actor : Actor) (h : ∀ t ∈ w.transitions, Usable e t) : ∃ out, e.available w subject actor = .ok out ∧
    ∀ x, x ∈ out ↔ ∃ t ∈ w.transitions, e.Open w subject actor t ∧
      ∃ n, e.needs t subject actor = .ok n ∧ x = { t with needs := n } := by
  obtain ⟨out, hout, hmem⟩ := mem_offered subject actor (w.stepByStatus subject.statusId) _ h
  refine ⟨_, by simp [available, hout, bind, Except.bind, pure, Except.pure]; rfl, fun x => ?_⟩
  rw [mem_insertionSort, hmem x]
  simp only [Open, and_assoc]

/-! ## What is carried out -/

theorem evaluate_offered (ht : w.transition t.id = some t) (h : e.Open w subject actor t) :
    e.evaluate w t.id subject actor input = e.carryOut w t subject actor input := by
  simp [evaluate, ht, h.1, h.2, bind, Except.bind]

def Unavailable {α : Type} : Except Err α → Prop
  | .error .transitionNotFound => True
  | .error (.transitionNotAvailable _) => True
  | _ => False

theorem evaluate_refused (ht : w.transition t.id = some t) (hu : Usable e t) (h : ¬ e.Open w subject actor t) :
    Unavailable (e.evaluate w t.id subject actor input) := by
  obtain ⟨o, ho⟩ := conditionsPass_ok subject actor hu
  by_cases hr : reachable t (w.stepByStatus subject.statusId) = true
  · cases o with
    | none => exact absurd ⟨hr, ho⟩ h
    | some => simp [evaluate, ht, hr, ho, bind, Except.bind, Unavailable]
  · simp [evaluate, ht, hr, Unavailable]

end Engine
end Wf
end Armature
