import Armature.GoUnicode
import Armature.Interleaving
import Armature.IssueResolved
/-!
# RequestReply — a customer's reply to their request (`desk/reply.go`, `issue/transition.go`)

A reply adds the comment, reads the status, reads the ways out and takes one, each in a transaction of its own, while others
move the request.  The reads may be of a replica, so each sees some version of the request, not always the last.  What a
move does besides the status and the assignee is left out, and so is who may reply.
-/
namespace Armature
namespace Reply

open List
open Go (Text)
open Wf (Uuid Status Transition)

def waitingOnCustomer : Text := "Waiting for customer".toList

def customerResponded : Text := "Customer responded".toList

def reopen : Text := "Reopen".toList

/-- A workflow as it is kept: `statuses` is that of each step, of any workflow, and the ids are keys. -/
structure Kept where
  w : Wf.Workflow
  statuses : Uuid → Option Status
  own : ∀ s ∈ w.steps, statuses s.id = some s.status
  ids : ∀ t ∈ w.transitions, w.transition t.id = some t

structure Issue where
  status : Status
  assignee : Option Uuid
  reporter : Option Uuid

def subjectOf (i : Issue) : Wf.Subject := ⟨i.status.id, i.assignee, i.reporter⟩

def Issue.moved (i : Issue) (decision : Wf.Decision) : Issue :=
  ⟨decision.toStatus, if decision.effect.clearAssign then none else decision.effect.assignee <|> i.assignee, i.reporter⟩

def isDone (s : Status) : Bool := decide (s.category = .done)

def Waits (s : Status) : Prop := Go.equalFold s.name.toList waitingOnCustomer = true

instance (s : Status) : Decidable (Waits s) := by unfold Waits; infer_instance

structure Move where
  reply : Option Uuid
  from_ : Status
  to_ : Status

/-- `request.stays_done`. -/
structure StaysDone where
  key : Text
  actorID : Uuid
  commentID : Uuid
  status : String

/-- A reply that returned without error, and the versions of the request from its comment on. -/
structure Returned where
  comment : Uuid
  seen : List Issue

/-- The request, its earlier versions, the last one first, and what was done: each move, each event and each return. -/
structure Data where
  now : Issue
  log : List Issue
  moves : List Move
  told : List StaysDone
  returned : List Returned

def Data.versions (d : Data) : List Issue := d.now :: d.log

def Data.since (d : Data) (n : Nat) : List Issue := d.versions.take (d.versions.length - n)

def Data.become (d : Data) (i : Issue) : Data := { d with now := i, log := d.versions }

def Data.moved (d : Data) (reply : Option Uuid) (decision : Wf.Decision) : Data :=
  { d.become (d.now.moved decision) with moves := ⟨reply, d.now.status, decision.toStatus⟩ :: d.moves }

def Data.tell (d : Data) (e : StaysDone) : Data := { d with told := e :: d.told }

/-- What `Reply` found: the request waits on its customer, or it is in a done status of this name. -/
inductive Found where
  | waiting
  | finished (status : String)

inductive Stage where
  | looking
  | listing (found : Found)
  | moving (found : Found) (chosen : Transition)
  | telling (status : String)

/-- `since` is how many versions there were before the one the comment was added to. -/
structure Attempt where
  customer : Wf.Actor
  comment : Uuid
  since : Nat
  stage : Stage

def Data.return_ (d : Data) (p : Attempt) : Data := { d with returned := ⟨p.comment, d.since p.since⟩ :: d.returned }

def Attempt.go (p : Attempt) (s : Stage) : Attempt := { p with stage := s }

def pickWay (available : List Transition) (named : Text) (lands : Transition → Bool) : Option Transition :=
  available.find? (fun t => Go.equalFold t.name.toList named && lands t) <|>
    available.find? (fun t => !t.isGlobal && lands t)

def leavesDone (k : Kept) (t : Transition) : Bool := (k.statuses t.toStepId).any fun s => !isDone s

def pick (available : List Transition) (lands : Transition → Bool) : Found → Option Transition
  | .waiting => pickWay available customerResponded fun _ => true
  | .finished _ => pickWay available reopen lands

def stays (d : Data) (p : Attempt) : Found → Data × Option Attempt
  | .waiting => (d.return_ p, none)
  | .finished status => (d, some (p.go (.telling status)))

/-- Somebody else moves the request or edits it, or a reply's comment is committed. -/
inductive Start (k : Kept) (d : Data) : Data → Option Attempt → Prop where
  | transition (id : Uuid) (actor : Wf.Actor) (input : Wf.Input) (decision : Wf.Decision) :
      Wf.engine.evaluate k.w id (subjectOf d.now) actor input = .ok decision → Start k d (d.moved none decision) none
  | edit (assignee reporter : Option Uuid) : Start k d (d.become ⟨d.now.status, assignee, reporter⟩) none
  | addComment (customer : Wf.Actor) (comment : Uuid) :
      Start k d d (some ⟨customer, comment, d.log.length, .looking⟩)

/-- The steps of a reply.  What strands a request in done, or leaves its customer untold, happens where `lapse` holds. -/
inductive Act (lapse : Prop) (key : Text) (k : Kept) (d : Data) : Attempt → Data → Option Attempt → Prop where
  | waiting (p : Attempt) (v : Issue) : p.stage = .looking → v ∈ d.versions → Waits v.status →
      (lapse ∨ isDone d.now.status = false) → Act lapse key k d p d (some (p.go (.listing .waiting)))
  | finished (p : Attempt) (v : Issue) : p.stage = .looking → v ∈ d.versions → ¬ Waits v.status → isDone v.status = true →
      Act lapse key k d p d (some (p.go (.listing (.finished v.status.name))))
  | neither (p : Attempt) (v : Issue) : p.stage = .looking → v ∈ d.versions → ¬ Waits v.status → isDone v.status = false →
      (lapse ∨ isDone d.now.status = false) → Act lapse key k d p (d.return_ p) none
  | unread (p : Attempt) : p.stage = .looking → Act lapse key k d p d none
  /-- Where the status of a step cannot be read, the transition is taken not to land outside done. -/
  | choose (p : Attempt) (found : Found) (v : Issue) (available : List Transition) (lands : Transition → Bool)
      (chosen : Transition) : p.stage = .listing found → v ∈ d.versions →
      Wf.engine.available k.w (subjectOf v) p.customer = .ok available → (∀ t, lands t = true → leavesDone k t = true) →
      pick available lands found = some chosen → Act lapse key k d p d (some (p.go (.moving found chosen)))
  | noWay (p : Attempt) (found : Found) : p.stage = .listing found →
      Act lapse key k d p (stays d p found).1 (stays d p found).2
  | move (p : Attempt) (found : Found) (chosen : Transition) (decision : Wf.Decision) : p.stage = .moving found chosen →
      Wf.engine.evaluate k.w chosen.id (subjectOf d.now) p.customer {} = .ok decision →
      (lapse ∨ (found = .waiting → isDone d.now.status = true → leavesDone k chosen = true)) →
      Act lapse key k d p ((d.moved (some p.comment) decision).return_ p) none
  /-- The move is made, and its transaction is reported as failed. -/
  | moveUnheard (p : Attempt) (found : Found) (chosen : Transition) (decision : Wf.Decision) :
      p.stage = .moving found chosen →
      Wf.engine.evaluate k.w chosen.id (subjectOf d.now) p.customer {} = .ok decision →
      (lapse ∨ (found = .waiting → isDone d.now.status = true → leavesDone k chosen = true)) →
      Act lapse key k d p (stays (d.moved (some p.comment) decision) p found).1
        (stays (d.moved (some p.comment) decision) p found).2
  | notMoved (p : Attempt) (found : Found) (chosen : Transition) : p.stage = .moving found chosen →
      Act lapse key k d p (stays d p found).1 (stays d p found).2
  | tell (p : Attempt) (status : String) : p.stage = .telling status →
      Act lapse key k d p ((d.tell ⟨key, p.customer.userId, p.comment, status⟩).return_ p) none
  | tellUnheard (p : Attempt) (status : String) : p.stage = .telling status →
      Act lapse key k d p (d.tell ⟨key, p.customer.userId, p.comment, status⟩) none
  | notTold (p : Attempt) (status : String) : p.stage = .telling status → Act lapse key k d p d none

def fresh (i : Issue) : Data := ⟨i, [], [], [], []⟩

def RunWhere (lapse : Prop) (key : Text) (k : Kept) (i : Issue) : Interleaving.System Data Attempt → Prop :=
  Interleaving.Run (fun d _ d' p => Start k d d' p) (fun d _ p d' p' => Act lapse key k d p d' p') (fresh i)

abbrev Run (key : Text) (k : Kept) (i : Issue) : Interleaving.System Data Attempt → Prop := RunWhere True key k i

abbrev CarefulRun (key : Text) (k : Kept) (i : Issue) : Interleaving.System Data Attempt → Prop := RunWhere False key k i

/-! ## What a step keeps -/

section
variable {lapse : Prop} {key : Text} {k : Kept} {d d' : Data} {p : Attempt} {p' : Option Attempt}

theorem now_since {n : Nat} (h : n ≤ d.log.length) : d.now ∈ d.since n := by
  unfold Data.since
  obtain ⟨m, hm⟩ : ∃ m, d.versions.length - n = m + 1 := ⟨d.log.length - n, by simp [Data.versions]; omega⟩
  rw [hm]
  exact mem_cons_self

theorem since_become (i : Issue) (n : Nat) : d.since n ⊆ (d.become i).since n := by
  intro x hx
  unfold Data.since at hx ⊢
  have hlen : (d.become i).versions.length = d.versions.length + 1 := rfl
  rw [hlen]
  by_cases hn : n ≤ d.versions.length
  · rw [Nat.sub_add_comm hn]
    exact mem_cons_of_mem i hx
  · rw [Nat.sub_eq_zero_of_le (by omega)] at hx
    cases hx

structure Later (d d' : Data) : Prop where
  log : d.log.length ≤ d'.log.length
  since : ∀ n, d.since n ⊆ d'.since n

theorem Later.refl (d : Data) : Later d d := ⟨Nat.le_refl _, fun _ => List.Subset.refl _⟩

theorem Later.trans {d'' : Data} (h : Later d d') (h' : Later d' d'') : Later d d'' :=
  ⟨Nat.le_trans h.log h'.log, fun n => List.Subset.trans (h.since n) (h'.since n)⟩

theorem Later.become (d : Data) (i : Issue) : Later d (d.become i) := ⟨Nat.le_succ _, since_become i⟩

theorem Later.moved (d : Data) (reply : Option Uuid) (decision : Wf.Decision) : Later d (d.moved reply decision) :=
  ⟨Nat.le_succ _, since_become _⟩

def Known (k : Kept) (t : Transition) : Prop := ∃ u ∈ k.w.transitions, u.id = t.id ∧ u.toStepId = t.toStepId

def Attempt.Sure (k : Kept) (d : Data) (p : Attempt) : Prop :=
  match p.stage with
  | .listing .waiting => ∃ i ∈ d.since p.since, isDone i.status = false
  | .moving .waiting chosen => (∃ i ∈ d.since p.since, isDone i.status = false) ∧ Known k chosen
  | .moving (.finished _) chosen => leavesDone k chosen = true ∧ Known k chosen
  | _ => True

def Attempt.Sound (k : Kept) (d : Data) (p : Attempt) : Prop := p.since ≤ d.log.length ∧ p.Sure k d

theorem Sound.later (hl : Later d d') (h : p.Sound k d) : p.Sound k d' := by
  have hnot : (∃ i ∈ d.since p.since, isDone i.status = false) → ∃ i ∈ d'.since p.since, isDone i.status = false := by
    rintro ⟨i, hi, hdone⟩
    exact ⟨i, hl.since p.since hi, hdone⟩
  refine ⟨Nat.le_trans h.1 hl.log, ?_⟩
  have hsure := h.2
  unfold Attempt.Sure at hsure ⊢
  split at hsure
  · exact hnot hsure
  · exact ⟨hnot hsure.1, hsure.2⟩
  · exact hsure
  · trivial

/-- No reply moved a request from done to done, and each that returned without error has told of one that stayed done. -/
structure Fair (d : Data) : Prop where
  moves : ∀ m ∈ d.moves, m.reply ≠ none → isDone m.from_ = true → isDone m.to_ = false
  told : ∀ r ∈ d.returned, (∀ i ∈ r.seen, isDone i.status = true) → ∃ e ∈ d.told, e.commentID = r.comment

/-! ### The transition chosen -/

theorem offered_known {subject : Wf.Subject} {actor : Wf.Actor} {current : Option Wf.Step} :
    ∀ (ts : List Transition) (out : List Transition), Wf.engine.offered subject actor current ts = .ok out →
      ∀ x ∈ out, ∃ t ∈ ts, t.id = x.id ∧ t.toStepId = x.toStepId
  | [], out, h => by
    cases h
    exact nofun
  | t :: ts, out, h => by
    have hrest : ∀ rest, Wf.engine.offered subject actor current ts = .ok rest → ∀ x ∈ rest,
        ∃ u ∈ t :: ts, u.id = x.id ∧ u.toStepId = x.toStepId := by
      intro rest hr x hx
      obtain ⟨u, hu, hx⟩ := offered_known ts rest hr x hx
      exact ⟨u, mem_cons_of_mem t hu, hx⟩
    unfold Wf.Engine.offered at h
    split at h
    · obtain ⟨reason, _, h⟩ := Go.bind_ok.1 h
      cases reason with
      | some => exact hrest out h
      | none =>
        obtain ⟨asked, _, h⟩ := Go.bind_ok.1 h
        obtain ⟨rest, hr, h⟩ := Go.bind_ok.1 h
        cases h
        intro x hx
        rcases mem_cons.1 hx with rfl | hx
        · exact ⟨t, mem_cons_self, rfl, rfl⟩
        · exact hrest rest hr x hx
    · exact hrest out h

theorem available_known {subject : Wf.Subject} {actor : Wf.Actor} {out : List Transition}
    (h : Wf.engine.available k.w subject actor = .ok out) : ∀ t ∈ out, Known k t := by
  obtain ⟨offered, ho, h⟩ := Go.bind_ok.1 h
  cases h
  intro t ht
  exact offered_known _ _ ho t ((mem_insertionSort _).1 ht)

theorem pickWay_picks {available : List Transition} {named : Text} {lands : Transition → Bool} {t : Transition}
    (h : pickWay available named lands = some t) : t ∈ available ∧ lands t = true := by
  unfold pickWay at h
  rcases (Option.orElse_eq_some _ _ _).1 h with h | ⟨_, h⟩
  · have hpicked := List.find?_some h
    exact ⟨mem_of_find?_eq_some h, (Bool.and_eq_true_iff.1 hpicked).2⟩
  · have hpicked := List.find?_some h
    exact ⟨mem_of_find?_eq_some h, (Bool.and_eq_true_iff.1 hpicked).2⟩

theorem lands_outside {chosen : Transition} {subject : Wf.Subject} {actor : Wf.Actor} {input : Wf.Input}
    {decision : Wf.Decision} (hknown : Known k chosen) (hleaves : leavesDone k chosen = true)
    (hd : Wf.engine.evaluate k.w chosen.id subject actor input = .ok decision) : isDone decision.toStatus = false := by
  obtain ⟨t, target, ht, _, htarget, hto, _⟩ := Issues.evaluate_cases hd
  obtain ⟨u, hu, hid, hstep⟩ := hknown
  have hu := k.ids u hu
  rw [hid, ht] at hu
  obtain rfl := Option.some.inj hu
  unfold Wf.Workflow.stepById at htarget
  have hown := k.own target (mem_of_find?_eq_some htarget)
  have hfound := List.find?_some htarget
  have htid : target.id = chosen.toStepId := (eq_of_beq hfound).trans hstep
  unfold leavesDone at hleaves
  rw [← htid, hown] at hleaves
  rw [hto]
  simpa using hleaves

/-! ### One step -/

theorem Fair.return_ (h : Fair d)
    (hsaid : (∃ i ∈ d.since p.since, isDone i.status = false) ∨ ∃ e ∈ d.told, e.commentID = p.comment) :
      Fair (d.return_ p) := by
  refine ⟨h.moves, fun r hr hdone => ?_⟩
  rcases mem_cons.1 hr with rfl | hr
  · rcases hsaid with ⟨i, hi, hnot⟩ | htold
    · exact absurd ((hdone i hi).symm.trans hnot) Bool.noConfusion
    · exact htold
  · exact h.told r hr hdone

theorem Fair.moved (h : Fair d) {reply : Option Uuid} {decision : Wf.Decision}
    (hleaves : reply ≠ none → isDone d.now.status = true → isDone decision.toStatus = false) :
      Fair (d.moved reply decision) := by
  refine ⟨fun m hm hreply hdone => ?_, h.told⟩
  rcases mem_cons.1 hm with rfl | hm
  · exact hleaves hreply hdone
  · exact h.moves m hm hreply hdone

theorem Fair.tell (h : Fair d) (e : StaysDone) : Fair (d.tell e) := by
  refine ⟨h.moves, fun r hr hdone => ?_⟩
  obtain ⟨x, hx, hcomment⟩ := h.told r hr hdone
  exact ⟨x, mem_cons_of_mem e hx, hcomment⟩

def Keeps (k : Kept) (d d' : Data) (p' : Option Attempt) : Prop := Fair d' ∧ Later d d' ∧ ∀ q ∈ p', q.Sound k d'

theorem Keeps.ends (h : Fair d') (hl : Later d d') : Keeps k d d' none := ⟨h, hl, fun q hq => by cases hq⟩

theorem Keeps.goes (h : Fair d) {q : Attempt} (hq : q.Sound k d) : Keeps k d d (some q) := by
  refine ⟨h, Later.refl d, fun r hr => ?_⟩
  cases hr
  exact hq

theorem stays_keeps (h : Fair d) (found : Found) (hlen : p.since ≤ d.log.length)
    (hseen : found = .waiting → ∃ i ∈ d.since p.since, isDone i.status = false) :
    Keeps k d (stays d p found).1 (stays d p found).2 := by
  cases found with
  | waiting => exact .ends (h.return_ (.inl (hseen rfl))) ⟨Nat.le_refl _, fun _ => List.Subset.refl _⟩
  | finished => exact .goes h ⟨hlen, trivial⟩

theorem moved_seen {decision : Wf.Decision} {reply : Option Uuid} (hlen : p.since ≤ d.log.length)
    (hleaves : isDone d.now.status = true → isDone decision.toStatus = false) :
    ∃ i ∈ (d.moved reply decision).since p.since, isDone i.status = false := by
  cases hdone : isDone d.now.status with
  | false => exact ⟨d.now, since_become _ _ (now_since hlen), hdone⟩
  | true =>
    have hnow : (d.moved reply decision).now ∈ (d.moved reply decision).since p.since :=
      now_since (Nat.le_trans hlen (Later.moved d reply decision).log)
    exact ⟨_, hnow, hleaves hdone⟩

theorem move_leaves {found : Found} {chosen : Transition} {decision : Wf.Decision} (hs : p.stage = .moving found chosen)
    (hp : p.Sound k d) (hd : Wf.engine.evaluate k.w chosen.id (subjectOf d.now) p.customer {} = .ok decision)
    (hcare : found = .waiting → isDone d.now.status = true → leavesDone k chosen = true) :
    isDone d.now.status = true → isDone decision.toStatus = false := by
  intro hdone
  have hsure := hp.2
  unfold Attempt.Sure at hsure
  rw [hs] at hsure
  cases found with
  | waiting => exact lands_outside hsure.2 (hcare rfl hdone) hd
  | finished => exact lands_outside hsure.2 hsure.1 hd

theorem Act.keeps (ha : Act False key k d p d' p') (h : Fair d) (hp : p.Sound k d) : Keeps k d d' p' := by
  have hsure := hp.2
  unfold Attempt.Sure at hsure
  cases ha with
  | waiting v hs _ _ hnow =>
    exact .goes h ⟨hp.1, d.now, now_since hp.1, hnow.resolve_left id⟩
  | finished => exact .goes h ⟨hp.1, trivial⟩
  | neither v hs _ _ _ hnow =>
    exact .ends (h.return_ (.inl ⟨d.now, now_since hp.1, hnow.resolve_left id⟩)) ⟨Nat.le_refl _, fun _ => List.Subset.refl _⟩
  | unread => exact .ends h (Later.refl d)
  | choose found v available lands chosen hs _ havailable hlands hpick =>
    refine .goes h ⟨hp.1, ?_⟩
    rw [hs] at hsure
    cases found with
    | waiting => exact ⟨hsure, available_known havailable chosen (pickWay_picks hpick).1⟩
    | finished =>
      obtain ⟨hmem, hlands'⟩ := pickWay_picks hpick
      exact ⟨hlands chosen hlands', available_known havailable chosen hmem⟩
  | noWay found hs =>
    refine stays_keeps h found hp.1 fun hf => ?_
    rw [hs, hf] at hsure
    exact hsure
  | move found chosen decision hs hd hcare =>
    have hleaves := move_leaves hs hp hd (hcare.resolve_left id)
    refine .ends ((h.moved fun _ => hleaves).return_ (.inl (moved_seen hp.1 hleaves))) ?_
    exact ⟨Nat.le_succ _, since_become _⟩
  | moveUnheard found chosen decision hs hd hcare =>
    have hleaves := move_leaves hs hp hd (hcare.resolve_left id)
    have hkeeps : Keeps k (d.moved (some p.comment) decision) _ _ := stays_keeps (h.moved fun _ => hleaves) found
      (Nat.le_trans hp.1 (Later.moved d _ decision).log) fun _ => moved_seen hp.1 hleaves
    exact ⟨hkeeps.1, (Later.moved d _ decision).trans hkeeps.2.1, hkeeps.2.2⟩
  | notMoved found chosen hs =>
    refine stays_keeps h found hp.1 fun hf => ?_
    rw [hs, hf] at hsure
    exact hsure.1
  | tell =>
    exact .ends ((h.tell _).return_ (.inr ⟨_, mem_cons_self, rfl⟩)) ⟨Nat.le_refl _, fun _ => List.Subset.refl _⟩
  | tellUnheard => exact .ends (h.tell _) ⟨Nat.le_refl _, fun _ => List.Subset.refl _⟩
  | notTold => exact .ends h (Later.refl d)

theorem Start.keeps (hs : Start k d d' p') (h : Fair d) : Keeps k d d' p' := by
  cases hs with
  | transition id actor input decision _ => exact .ends (h.moved fun hne => absurd rfl hne) (Later.moved d none decision)
  | edit => exact .ends ⟨h.moves, h.told⟩ (Later.become d _)
  | addComment => exact .goes h ⟨Nat.le_refl _, trivial⟩

end

/-! ## Over whole runs -/

section
variable {key : Text} {k : Kept} {i : Issue} {sys : Interleaving.System Data Attempt}

/-- **A careful reply brings the request back or says that it did not**: whatever others do, no reply moves it from one done
status to another, and one that returns while it was done throughout has told so. -/
theorem back_or_told (hrun : CarefulRun key k i sys) :
    (∀ m ∈ sys.shared.moves, m.reply ≠ none → ¬ (isDone m.from_ = true ∧ isDone m.to_ = true)) ∧
      ∀ r ∈ sys.shared.returned, (∀ v ∈ r.seen, isDone v.status = true) → ∃ e ∈ sys.shared.told,
        e.commentID = r.comment := by
  have hfair : Fair sys.shared := by
    refine (Interleaving.Run.rely (I := Fair) (L := fun d p => p.Sound k d) (C := Later) ?_ ?_ ?_ ?_ hrun).1
    · exact fun _ _ _ hl hp => Sound.later hl hp
    · exact fun _ _ _ _ h hs => hs.keeps h
    · exact fun _ _ _ _ _ h hp ha => ha.keeps h hp
    · exact ⟨nofun, nofun⟩
  refine ⟨fun m hm hreply hboth => ?_, hfair.told⟩
  exact absurd ((hfair.moves m hm hreply hboth.1).symm.trans hboth.2) Bool.noConfusion

end

/-! ## A request resolved while its reply is on the way -/

def waiting : Status := ⟨1, "Waiting for customer", .inProgress⟩
def resolved : Status := ⟨2, "Resolved", .done⟩
def closed : Status := ⟨3, "Closed", .done⟩

def resolve : Transition := ⟨11, "Resolve", some 1, 2, 0, [], []⟩
def close : Transition := ⟨12, "Close", some 2, 3, 1, [], []⟩

def flow : Wf.Workflow := ⟨"Desk", [⟨1, waiting, true⟩, ⟨2, resolved, false⟩, ⟨3, closed, false⟩], [resolve, close]⟩

def kept : Kept where
  w := flow
  statuses id := (flow.stepById id).map Wf.Step.status
  own := by
    intro s hs
    simp only [flow, mem_cons, not_mem_nil, or_false] at hs
    rcases hs with rfl | rfl | rfl
    · rfl
    · rfl
    · rfl
  ids := by
    intro t ht
    simp only [flow, mem_cons, not_mem_nil, or_false] at ht
    rcases ht with rfl | rfl
    · rfl
    · rfl

def customer : Wf.Actor := ⟨1, "customer"⟩
def agent : Wf.Actor := ⟨2, "agent"⟩

def key : Text := "HELP-1".toList

def requestIn (s : Status) : Issue := ⟨s, none, some 1⟩

def replying (stage : Stage) : Attempt := ⟨customer, 7, 0, stage⟩

section
variable {lapse : Prop} {i : Issue} {d d' : Data} {p' : Option Attempt}

theorem RunWhere.start (h : RunWhere lapse key kept i ⟨d, []⟩) (hs : Start kept d d' p') :
    RunWhere lapse key kept i ⟨d', p'.toList⟩ := by
  have hlast := Interleaving.Run.start p' h hs
  rwa [append_nil] at hlast

theorem RunWhere.act {p : Attempt} (h : RunWhere lapse key kept i ⟨d, [p]⟩) (ha : Act lapse key kept d p d' p') :
    RunWhere lapse key kept i ⟨d', p'.toList⟩ := by
  have hlast := Interleaving.Run.act [] (r := []) p' h ha
  rwa [append_nil] at hlast

end

/-- A closed request has no way out, so its customer is told. -/
theorem closed_told : ∃ sys, CarefulRun key kept (requestIn closed) sys ∧ ∃ r ∈ sys.shared.returned,
    (∀ v ∈ r.seen, isDone v.status = true) ∧ ∃ e ∈ sys.shared.told, e.commentID = r.comment := by
  have hbegin : CarefulRun key kept (requestIn closed) ⟨fresh (requestIn closed), []⟩ := Interleaving.Run.begin _
  have hreplied := hbegin.start (.addComment customer 7)
  have hfound := hreplied.act (.finished (replying .looking) _ rfl mem_cons_self (by decide) rfl)
  have hnone := hfound.act (.noWay (replying (.listing (.finished "Closed"))) (.finished "Closed") rfl)
  have htold := hnone.act (.tell (replying (.telling "Closed")) "Closed" rfl)
  have hdone : ∀ v ∈ [requestIn closed], isDone v.status = true := by
    intro v hv
    rw [mem_singleton.1 hv]
    rfl
  exact ⟨_, htold, _, mem_cons_self, hdone, (back_or_told htold).2 _ mem_cons_self hdone⟩

/-- **A reply that found its request waiting closes it, once an agent has resolved it.** -/
theorem closed_by_reply : ∃ sys, Run key kept (requestIn waiting) sys ∧ ∃ m ∈ sys.shared.moves, m.reply = some 7 ∧
    isDone m.from_ = true ∧ isDone m.to_ = true := by
  have hbegin : Run key kept (requestIn waiting) ⟨fresh (requestIn waiting), []⟩ := Interleaving.Run.begin _
  have hreplied := hbegin.start (.addComment customer 7)
  have hfound := hreplied.act (.waiting (replying .looking) _ rfl mem_cons_self (by decide) (.inl trivial))
  have hresolved := Interleaving.Run.start none hfound
    (.transition 11 agent {} ⟨resolve, resolved, {}⟩ rfl)
  have hchosen := RunWhere.act hresolved (.choose (replying (.listing .waiting)) .waiting (requestIn resolved) [close]
    (fun _ => false) close rfl mem_cons_self rfl (fun _ h => absurd h Bool.noConfusion) rfl)
  have hmoved := hchosen.act (.move (replying (.moving .waiting close)) .waiting close ⟨close, closed, {}⟩ rfl rfl
    (.inl trivial))
  exact ⟨_, hmoved, _, mem_cons_self, rfl, rfl, rfl⟩

end Reply
end Armature
