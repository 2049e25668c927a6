import Mathlib.Data.List.Perm.Subperm
import Mathlib.Data.List.Infix
import Mathlib.Algebra.GroupWithZero.Nat
import Armature.InsertionMap
import Armature.WebhookSender
/-!
# WebhookSpread — a batch of deliveries through a pool of places (`spread`, `lane` in `webhook/send.go`)

Each endpoint has a lane, taken by its runners in turn, and a runner holds a place of the pool while it has a delivery.  The
runners' steps are interleaved as they may; what a try comes to is left open, and so is when the context ends.
-/
namespace Armature
namespace Webhook
namespace Spread

open List

/-! ## A lane -/

structure Due where
  endpointID : Nat
  id : Nat
  deriving DecidableEq

structure Lane where
  queue : List Due
  timeouts : Nat
  paused : Bool

def Lane.next (l : Lane) : Option (Due × Lane) :=
  match l.paused, l.queue with
  | false, d :: queue => some (d, { l with queue := queue })
  | _, _ => none

def Lane.record (l : Lane) (timedOut : Bool) : Lane :=
  if !timedOut then { l with timeouts := 0 }
  else { l with timeouts := l.timeouts + 1, paused := l.paused || decide (timeoutsBeforePause ≤ l.timeouts + 1) }

/-- Where `run` stands. -/
inductive Runner where
  | checking
  | waiting
  | holding
  | trying (d : Due)
  | recording (d : Due) (timedOut : Bool)
  /-- The place is to be given back, and another delivery taken. -/
  | releasing
  /-- The place is to be given back, and there is nothing more. -/
  | leaving
  | done
  deriving DecidableEq

def Runner.held : Runner → Bool
  | .checking | .waiting | .done => false
  | _ => true

def Runner.request : Runner → Option Due
  | .trying d => some d
  | _ => none

def Runner.delivery : Runner → Option Due
  | .trying d | .recording d _ => some d
  | _ => none

inductive Event where
  | tries (d : Due)
  | records (d : Due) (timedOut : Bool)
  | pauses (d : Due)

/-- A runner's step, with `cap` places in all and `places` of them taken. -/
inductive Act (cap : Nat) (ended : Bool) (places : Nat) (l : Lane) : Runner → List Event → Nat → Lane → Runner → Prop where
  | ends : ended = true → Act cap ended places l .checking [] places l .done
  | waits : ended = false → Act cap ended places l .checking [] places l .waiting
  | enters : places < cap → Act cap ended places l .waiting [] (places + 1) l .holding
  | tries {d : Due} {l' : Lane} : l.next = some (d, l') → Act cap ended places l .holding [.tries d] places l' (.trying d)
  | finds : l.next = none → Act cap ended places l .holding [] places l .leaving
  | returns {d : Due} (timedOut : Bool) : Act cap ended places l (.trying d) [] places l (.recording d timedOut)
  | records {d : Due} {timedOut : Bool} :
      Act cap ended places l (.recording d timedOut) [.records d timedOut] places (l.record timedOut) .releasing
  | releases {n : Nat} : places = n + 1 → Act cap ended places l .releasing [] n l .checking
  | leaves {n : Nat} : places = n + 1 → Act cap ended places l .leaving [] n l .done

/-! ## The pool -/

inductive Stage where
  | running
  | pausing
  | finished
  deriving DecidableEq

structure Watch where
  endpointID : Nat
  first : Due
  lane : Lane
  runners : List Runner
  stage : Stage

inductive Watch.Step (w : Watch) : List Event → Watch → Prop where
  | pauses : w.stage = .running → (∀ r ∈ w.runners, r = .done) → w.lane.paused = true →
      Step w [.pauses w.first] { w with stage := .pausing }
  | passes : w.stage = .running → (∀ r ∈ w.runners, r = .done) → w.lane.paused = false → Step w [] { w with stage := .finished }
  | paused : w.stage = .pausing → Step w [] { w with stage := .finished }

structure Pool where
  ended : Bool
  places : Nat
  lanes : List Watch
  log : List Event

inductive Step (cap : Nat) (p : Pool) : Pool → Prop where
  /-- The context ends. -/
  | cancel : p.ended = false → Step cap p { p with ended := true }
  | act {a b : List Watch} {w : Watch} {r₁ r₂ : List Runner} {r r' : Runner} {log : List Event} {places : Nat} {lane : Lane} :
      p.lanes = a ++ w :: b → w.runners = r₁ ++ r :: r₂ → Act cap p.ended p.places w.lane r log places lane r' →
      Step cap p { p with places := places, log := p.log ++ log,
                          lanes := a ++ { w with lane := lane, runners := r₁ ++ r' :: r₂ } :: b }
  | watch {a b : List Watch} {w w' : Watch} {log : List Event} : p.lanes = a ++ w :: b → w.Step log w' →
      Step cap p { p with lanes := a ++ w' :: b, log := p.log ++ log }

def watchOf (entry : Nat × List Due) : Option Watch := entry.2.head?.map fun first =>
  { endpointID := entry.1, first := first, lane := ⟨entry.2, 0, false⟩,
    runners := List.replicate (min maxInFlightPerEndpoint entry.2.length) .checking, stage := .running }

def start (found : List Due) : Pool where
  ended := false
  places := 0
  lanes := (InsertionMap.pushAll Due.endpointID id [] found).filterMap watchOf
  log := []

def room (limit : Int) : Nat := (max limit 1).toNat

def Run (found : List Due) (limit : Int) (p : Pool) : Prop := Relation.ReflTransGen (Step (room limit)) (start found) p

def Pool.Over (p : Pool) : Prop := ∀ w ∈ p.lanes, w.stage = .finished

/-! ## What is seen of a run -/

def Event.endpointID : Event → Nat
  | .tries d | .records d _ | .pauses d => d.endpointID

def Event.attempt : Event → Option Due
  | .tries d => some d
  | _ => none

def Event.timedOut : Event → Option Bool
  | .records _ timedOut => some timedOut
  | _ => none

def Event.isPause : Event → Bool
  | .pauses _ => true
  | _ => false

def Pool.requests (p : Pool) : List Due := p.lanes.flatMap fun w => w.runners.filterMap Runner.request

def requestsOf (endpoint : Nat) (p : Pool) : List Due := p.requests.filter (·.endpointID = endpoint)

def historyOf (endpoint : Nat) (log : List Event) : List Event := log.filter (·.endpointID = endpoint)

def tried (log : List Event) : List Due := log.filterMap Event.attempt

def recorded (log : List Event) : List Bool := log.filterMap Event.timedOut

def pauses (log : List Event) : Nat := log.countP Event.isPause

def ThreeInARow (records : List Bool) : Prop := List.replicate timeoutsBeforePause true <:+: records

/-! ## Timeouts in a row -/

def trailing (records : List Bool) : Nat := (records.reverse.takeWhile id).length

@[simp] theorem trailing_nil : trailing [] = 0 := rfl

theorem trailing_concat (records : List Bool) (timedOut : Bool) :
    trailing (records ++ [timedOut]) = if timedOut then trailing records + 1 else 0 := by
  unfold trailing
  rw [reverse_concat]
  cases timedOut <;> rfl

theorem prefix_iff : ∀ (n : Nat) (records : List Bool), List.replicate n true <+: records ↔ n ≤ (records.takeWhile id).length
  | 0, _ => iff_of_true nil_prefix (Nat.zero_le _)
  | n + 1, [] => by simp
  | n + 1, false :: _ => by simp [replicate_succ]
  | n + 1, true :: records => by simp [replicate_succ, prefix_iff n records]

theorem suffix_iff (n : Nat) (records : List Bool) : List.replicate n true <:+ records ↔ n ≤ trailing records := by
  rw [← reverse_prefix, reverse_replicate, prefix_iff]
  rfl

theorem threeInARow_concat (records : List Bool) (timedOut : Bool) : ThreeInARow (records ++ [timedOut]) ↔
    ThreeInARow records ∨ (timedOut = true ∧ timeoutsBeforePause ≤ trailing records + 1) := by
  unfold ThreeInARow
  rw [infix_concat_iff, suffix_iff, trailing_concat, or_comm]
  cases timedOut <;> simp [timeoutsBeforePause]

/-! ## A runner's step -/

section
variable {cap taken taken' : Nat} {ended : Bool} {l l' : Lane} {r r' : Runner} {log : List Event}

theorem next_eq {d : Due} (h : l.next = some (d, l')) : l.paused = false ∧ l.queue = d :: l'.queue ∧
    l'.paused = false ∧ l'.timeouts = l.timeouts := by
  unfold Lane.next at h
  split at h
  · rename_i hpaused hqueue
    cases h
    exact ⟨hpaused, hqueue, hpaused, rfl⟩
  · cases h

def Lane.Spent (l : Lane) : Prop := l.queue = [] ∨ l.paused = true

theorem next_none (h : l.next = none) : l.Spent := by
  unfold Lane.next at h
  split at h
  · cases h
  · rename_i hnot
    cases hpaused : l.paused with
    | true => exact .inr hpaused
    | false =>
      cases hqueue : l.queue with
      | nil => exact .inl hqueue
      | cons d queue => exact absurd hqueue (hnot d queue hpaused)

structure Lane.Counts (l : Lane) (records : List Bool) : Prop where
  timeouts : l.timeouts = trailing records
  paused : l.paused = true ↔ ThreeInARow records

theorem record_counts {records : List Bool} (h : l.Counts records) (timedOut : Bool) :
    (l.record timedOut).Counts (records ++ [timedOut]) := by
  unfold Lane.record
  cases timedOut with
  | false =>
    refine ⟨(trailing_concat records false).symm, ?_⟩
    rw [threeInARow_concat, ← h.paused]
    simp
  | true =>
    refine ⟨?_, ?_⟩
    · rw [trailing_concat, ← h.timeouts]
      rfl
    · rw [threeInARow_concat, ← h.paused, ← h.timeouts]
      simp

theorem Act.counts {records : List Bool} (h : Act cap ended taken l r log taken' l' r') (hl : l.Counts records) :
    l'.Counts (records ++ recorded log) := by
  cases h with
  | records => exact record_counts hl _
  | tries hnext =>
    obtain ⟨hpaused, -, hpaused', htimeouts⟩ := next_eq hnext
    rw [show recorded [Event.tries _] = [] from rfl, append_nil]
    refine ⟨htimeouts.trans hl.timeouts, ?_⟩
    rw [← hl.paused, hpaused, hpaused']
  | _ =>
    rw [show recorded [] = [] from rfl, append_nil]
    exact hl

@[simp] theorem record_queue (timedOut : Bool) : (l.record timedOut).queue = l.queue := by
  unfold Lane.record
  split <;> rfl

theorem record_paused (timedOut : Bool) (h : l.paused = true) : (l.record timedOut).paused = true := by
  unfold Lane.record
  split
  · exact h
  · rw [h, Bool.true_or]

theorem Act.queue (h : Act cap ended taken l r log taken' l' r') : tried log ++ l'.queue = l.queue := by
  cases h with
  | records => exact record_queue _
  | tries hnext => exact (next_eq hnext).2.1.symm
  | _ => rfl

theorem Act.spent (h : Act cap ended taken l r log taken' l' r') (hl : l.Spent) : l'.Spent := by
  cases h with
  | records => exact hl.imp (fun he => (record_queue _).trans he) (record_paused _)
  | tries hnext =>
    obtain ⟨hpaused, hqueue, -⟩ := next_eq hnext
    rcases hl with he | he
    · rw [he] at hqueue
      cases hqueue
    · rw [he] at hpaused
      cases hpaused
  | _ => exact hl

theorem Act.through (h : Act cap ended taken l r log taken' l' r') (hr : r' = .leaving ∨ r' = .done) :
    ended = true ∨ l'.Spent ∨ r = .leaving := by
  cases h with
  | ends he => exact .inl he
  | finds hnext => exact .inr (.inl (next_none hnext))
  | leaves => exact .inr (.inr rfl)
  | waits | enters | tries | returns | records | releases => rcases hr with hr | hr <;> cases hr

theorem Act.delivery (h : Act cap ended taken l r log taken' l' r') :
    ∀ d ∈ r'.delivery, d ∈ r.delivery ∨ d ∈ l.queue := by
  intro d hd
  cases h with
  | tries hnext =>
    cases hd
    exact .inr ((next_eq hnext).2.1 ▸ mem_cons_self)
  | returns =>
    cases hd
    exact .inl rfl
  | ends | waits | enters | finds | records | releases | leaves => cases hd

theorem Act.about (h : Act cap ended taken l r log taken' l' r') :
    ∀ e ∈ log, e.isPause = false ∧ ∃ d, (d ∈ r.delivery ∨ d ∈ l.queue) ∧ e.endpointID = d.endpointID := by
  intro e he
  cases h with
  | tries hnext =>
    rw [mem_singleton.1 he]
    exact ⟨rfl, _, .inr ((next_eq hnext).2.1 ▸ mem_cons_self), rfl⟩
  | records =>
    rw [mem_singleton.1 he]
    exact ⟨rfl, _, .inl rfl, rfl⟩
  | ends | waits | enters | finds | returns | releases | leaves => cases he

theorem Act.notDone (h : Act cap ended taken l r log taken' l' r') : r ≠ .done := by
  cases h <;> exact nofun

theorem Act.places (h : Act cap ended taken l r log taken' l' r') :
    taken' + r.held.toNat = taken + r'.held.toNat ∧ (taken ≤ cap → taken' ≤ cap) := by
  cases h with
  | enters hroom => exact ⟨rfl, fun _ => hroom⟩
  | releases he | leaves he =>
    subst he
    exact ⟨rfl, Nat.le_of_succ_le⟩
  | ends | waits | tries | finds | returns | records => exact ⟨rfl, id⟩

theorem act_of (hr : r ≠ .done) (hwait : r = .waiting → taken < cap) (hheld : r.held = true → 0 < taken) :
    ∃ log taken' l' r', Act cap ended taken l r log taken' l' r' := by
  have hplace : r.held = true → ∃ n, taken = n + 1 := fun h => ⟨taken - 1, (Nat.sub_add_cancel (hheld h)).symm⟩
  cases r with
  | checking =>
    cases ended with
    | true => exact ⟨_, _, _, _, .ends rfl⟩
    | false => exact ⟨_, _, _, _, .waits rfl⟩
  | waiting => exact ⟨_, _, _, _, .enters (hwait rfl)⟩
  | holding =>
    cases hnext : l.next with
    | none => exact ⟨_, _, _, _, .finds hnext⟩
    | some => exact ⟨_, _, _, _, .tries hnext⟩
  | trying => exact ⟨_, _, _, _, .returns false⟩
  | recording => exact ⟨_, _, _, _, .records⟩
  | releasing =>
    obtain ⟨n, hn⟩ := hplace rfl
    exact ⟨_, _, _, _, .releases hn⟩
  | leaving =>
    obtain ⟨n, hn⟩ := hplace rfl
    exact ⟨_, _, _, _, .leaves hn⟩
  | done => exact absurd rfl hr

def Runner.left : Runner → Nat
  | .checking => 4
  | .waiting => 3
  | .holding => 2
  | .trying _ => 7
  | .recording _ _ => 6
  | .releasing => 5
  | .leaving => 1
  | .done => 0

theorem Act.left (h : Act cap ended taken l r log taken' l' r') :
    6 * l'.queue.length + r'.left < 6 * l.queue.length + r.left := by
  cases h with
  | tries hnext =>
    rw [(next_eq hnext).2.1, length_cons]
    change _ + 7 < _ + 2
    omega
  | records =>
    rw [record_queue]
    exact Nat.lt_succ_self _
  | ends | waits | enters | finds | returns | releases | leaves => exact Nat.add_lt_add_left (by simp [Runner.left]) _

end

/-! ## What is kept of a lane -/

def dueOf (endpoint : Nat) (found : List Due) : List Due := found.filter (·.endpointID = endpoint)

structure Kept (found : List Due) (ended : Bool) (history : List Event) (w : Watch) : Prop where
  first : w.first ∈ dueOf w.endpointID found
  shared : tried history ++ w.lane.queue = dueOf w.endpointID found
  counts : w.lane.Counts (recorded history)
  some : w.runners ≠ []
  few : w.runners.length ≤ maxInFlightPerEndpoint
  delivery : ∀ r ∈ w.runners, ∀ d ∈ r.delivery, d ∈ dueOf w.endpointID found
  through : ended = false → ∀ r ∈ w.runners, r = .leaving ∨ r = .done → w.lane.Spent
  joined : w.stage ≠ .running → ∀ r ∈ w.runners, r = .done
  pauses : Spread.pauses history = if w.stage ≠ .running ∧ w.lane.paused = true then 1 else 0

section
variable {found : List Due} {ended : Bool} {history log : List Event} {w w' : Watch}

theorem mem_dueOf {endpoint : Nat} {d : Due} : d ∈ dueOf endpoint found ↔ d ∈ found ∧ d.endpointID = endpoint := by
  unfold dueOf
  rw [mem_filter, decide_eq_true_iff]

@[simp] theorem tried_append (a b : List Event) : tried (a ++ b) = tried a ++ tried b := filterMap_append

@[simp] theorem recorded_append (a b : List Event) : recorded (a ++ b) = recorded a ++ recorded b := filterMap_append

@[simp] theorem pauses_append (a b : List Event) : pauses (a ++ b) = pauses a + pauses b := countP_append

theorem Kept.ends (h : Kept found ended history w) : Kept found true history w := { h with through := nofun }

theorem Kept.queued (h : Kept found ended history w) {d : Due} (hd : d ∈ w.lane.queue) : d ∈ dueOf w.endpointID found := by
  rw [← h.shared]
  exact mem_append_right _ hd

theorem Kept.act (h : Kept found ended history w) {cap taken taken' : Nat} {r₁ r₂ : List Runner} {r r' : Runner} {lane : Lane}
    (hr : w.runners = r₁ ++ r :: r₂) (ha : Act cap ended taken w.lane r log taken' lane r') :
    Kept found ended (history ++ log) { w with lane := lane, runners := r₁ ++ r' :: r₂ } := by
  have hmem : r ∈ w.runners := hr ▸ mem_append_right _ mem_cons_self
  have hrunning : w.stage = .running := by
    by_contra hstage
    exact ha.notDone (h.joined hstage r hmem)
  have hother : ∀ q, q ∈ r₁ ++ r' :: r₂ → q = r' ∨ q ∈ w.runners := by
    intro q hq
    rw [hr]
    simp only [mem_append, mem_cons] at hq ⊢
    tauto
  exact {
    first := h.first
    shared := by
      rw [tried_append, append_assoc, ha.queue]
      exact h.shared
    counts := by
      rw [recorded_append]
      exact ha.counts h.counts
    some := append_ne_nil_of_right_ne_nil _ (cons_ne_nil _ _)
    few := by
      have hfew := h.few
      rw [hr] at hfew
      simpa using hfew
    delivery := by
      intro q hq d hd
      rcases hother q hq with rfl | hq
      · exact (ha.delivery d hd).elim (h.delivery r hmem d) h.queued
      · exact h.delivery q hq d hd
    through := by
      intro hended q hq hthrough
      rcases hother q hq with rfl | hq
      · rcases ha.through hthrough with he | hspent | hleaving
        · exact absurd (he.symm.trans hended) (by decide)
        · exact hspent
        · exact ha.spent (h.through hended r hmem (.inl hleaving))
      · exact ha.spent (h.through hended q hq hthrough)
    joined := fun hstage => absurd hrunning hstage
    pauses := by
      have hnone : Spread.pauses log = 0 :=
        countP_eq_zero.2 fun e he => Bool.eq_false_iff.1 (ha.about e he).1
      rw [pauses_append, hnone, h.pauses, if_neg fun hstage => hstage.1 hrunning, if_neg fun hstage => hstage.1 hrunning] }

theorem Kept.watch (h : Kept found ended history w) (hs : w.Step log w') : Kept found ended (history ++ log) w' := by
  have hnone : ∀ stage, Kept found ended history { w with stage := stage } →
      Kept found ended (history ++ []) { w with stage := stage } := fun stage hw => by rwa [append_nil]
  cases hs with
  | pauses hstage hdone hpaused =>
    have hbefore := h.pauses
    rw [if_neg fun hnot => hnot.1 hstage] at hbefore
    refine { h with shared := ?_, counts := ?_, joined := fun _ => hdone, pauses := ?_ }
    · rw [tried_append, show tried [Event.pauses w.first] = [] from rfl, append_nil]
      exact h.shared
    · rw [recorded_append, show recorded [Event.pauses w.first] = [] from rfl, append_nil]
      exact h.counts
    · rw [pauses_append, hbefore, if_pos ⟨by simp, hpaused⟩]
      rfl
  | passes hstage hdone hpaused =>
    refine hnone .finished { h with joined := fun _ => hdone, pauses := ?_ }
    rw [h.pauses, if_neg fun hnot => hnot.1 hstage, if_neg fun hnot => by rw [hpaused] at hnot; cases hnot.2]
  | paused hstage =>
    have hdone := h.joined (by rw [hstage]; decide)
    refine hnone .finished { h with joined := fun _ => hdone, pauses := ?_ }
    rw [h.pauses, hstage]
    simp

theorem watch_same (hs : w.Step log w') : w'.endpointID = w.endpointID ∧ w'.runners = w.runners := by
  cases hs <;> exact ⟨rfl, rfl⟩

theorem Kept.about_act (h : Kept found ended history w) {cap taken taken' : Nat} {r r' : Runner} {lane : Lane}
    (hr : r ∈ w.runners) (ha : Act cap ended taken w.lane r log taken' lane r') : ∀ e ∈ log, e.endpointID = w.endpointID := by
  intro e he
  obtain ⟨-, d, hd, hof⟩ := ha.about e he
  rw [hof]
  exact (mem_dueOf.1 (hd.elim (h.delivery r hr d) h.queued)).2

theorem Kept.about_watch (h : Kept found ended history w) (hs : w.Step log w') : ∀ e ∈ log, e.endpointID = w.endpointID := by
  intro e he
  cases hs with
  | pauses =>
    rw [mem_singleton.1 he]
    exact (mem_dueOf.1 h.first).2
  | passes | paused => cases he

end

/-! ## What is kept of the pool -/

structure Sound (found : List Due) (cap : Nat) (p : Pool) : Prop where
  distinct : (p.lanes.map Watch.endpointID).Nodup
  covers : ∀ d ∈ found, d.endpointID ∈ p.lanes.map Watch.endpointID
  keeps : ∀ w ∈ p.lanes, Kept found p.ended (historyOf w.endpointID p.log) w
  about : ∀ e ∈ p.log, e.endpointID ∈ p.lanes.map Watch.endpointID
  places : p.places = (p.lanes.flatMap Watch.runners).countP Runner.held
  room : p.places ≤ cap

section
variable {found : List Due} {cap : Nat} {p p' : Pool} {a b : List Watch} {w w' : Watch} {log : List Event}

@[simp] theorem historyOf_append (endpoint : Nat) (a b : List Event) :
    historyOf endpoint (a ++ b) = historyOf endpoint a ++ historyOf endpoint b := filter_append ..

theorem historyOf_own {endpoint : Nat} (h : ∀ e ∈ log, e.endpointID = endpoint) : historyOf endpoint log = log :=
  filter_eq_self.2 fun e he => decide_eq_true (h e he)

theorem historyOf_other {endpoint : Nat} (h : ∀ e ∈ log, e.endpointID ≠ endpoint) : historyOf endpoint log = [] :=
  filter_eq_nil_iff.2 fun e he hof => h e he (of_decide_eq_true hof)

theorem Sound.replace (h : Sound found cap p) (hp : p.lanes = a ++ w :: b) (hid : w'.endpointID = w.endpointID)
    (hlog : ∀ e ∈ log, e.endpointID = w.endpointID)
    (hw : Kept found p.ended (historyOf w.endpointID p.log ++ log) w') {taken : Nat}
    (htaken : taken + w.runners.countP Runner.held = p.places + w'.runners.countP Runner.held) (hroom : taken ≤ cap) :
    Sound found cap { p with places := taken, lanes := a ++ w' :: b, log := p.log ++ log } := by
  have hids : (a ++ w' :: b).map Watch.endpointID = p.lanes.map Watch.endpointID := by
    rw [hp, map_append, map_append, map_cons, map_cons, hid]
  have hdistinct := h.distinct
  rw [hp, map_append, map_cons, nodup_middle, nodup_cons, ← map_append] at hdistinct
  exact {
    distinct := by rw [hids]; exact h.distinct
    covers := by rw [hids]; exact h.covers
    keeps := by
      intro v hv
      rw [historyOf_append]
      rcases mem_append.1 hv with hv | hv
      · have hne : v.endpointID ≠ w.endpointID := fun he => hdistinct.1 (he ▸ mem_map_of_mem (mem_append_left b hv))
        rw [historyOf_other fun e he => (hlog e he).trans_ne hne.symm, append_nil]
        exact h.keeps v (hp ▸ mem_append_left _ hv)
      rcases mem_cons.1 hv with rfl | hv
      · rw [hid, historyOf_own hlog]
        exact hw
      · have hne : v.endpointID ≠ w.endpointID := fun he => hdistinct.1 (he ▸ mem_map_of_mem (mem_append_right a hv))
        rw [historyOf_other fun e he => (hlog e he).trans_ne hne.symm, append_nil]
        exact h.keeps v (hp ▸ mem_append_right _ (mem_cons_of_mem w hv))
    about := by
      intro e he
      rw [hids]
      rcases mem_append.1 he with he | he
      · exact h.about e he
      · rw [hlog e he, hp]
        exact mem_map_of_mem (mem_append_right _ mem_cons_self)
    places := by
      have hplaces := h.places
      rw [hp] at hplaces
      simp only [flatMap_append, flatMap_cons, countP_append] at hplaces ⊢
      omega
    room := hroom }

theorem countP_held (r₁ r₂ : List Runner) (r : Runner) :
    (r₁ ++ r :: r₂).countP Runner.held = r.held.toNat + (r₁.countP Runner.held + r₂.countP Runner.held) := by
  rw [countP_append, countP_cons]
  cases r.held with
  | false => simp
  | true =>
    simp
    omega

theorem Sound.step (h : Sound found cap p) (hs : Step cap p p') : Sound found cap p' := by
  cases hs with
  | cancel => exact { h with keeps := fun w hw => (h.keeps w hw).ends }
  | @act a b w r₁ r₂ r r' log taken lane hp hr ha =>
    have hw := h.keeps w (hp ▸ mem_append_right _ mem_cons_self)
    obtain ⟨hplaces, hroom⟩ := ha.places
    have hrunner : r ∈ w.runners := hr ▸ mem_append_right _ mem_cons_self
    have hid : ({ w with lane := lane, runners := r₁ ++ r' :: r₂ } : Watch).endpointID = w.endpointID := rfl
    refine h.replace hp hid (hw.about_act hrunner ha) (hw.act hr ha) ?_ (hroom h.room)
    rw [hr, countP_held, countP_held]
    omega
  | watch hp hs =>
    have hw := h.keeps _ (hp ▸ mem_append_right _ mem_cons_self)
    obtain ⟨hid, hrunners⟩ := watch_same hs
    exact h.replace hp hid (hw.about_watch hs) (hw.watch hs) (by rw [hrunners]) h.room

/-! ## The start -/

theorem start_keys : ((InsertionMap.pushAll Due.endpointID id [] found).map Prod.fst).Nodup ∧
    ∀ endpoint, endpoint ∈ (InsertionMap.pushAll Due.endpointID id [] found).map Prod.fst ↔ endpoint ∈ found.map Due.endpointID := by
  have h := InsertionMap.keys_pushAll Due.endpointID id found (m := []) nodup_nil
  exact ⟨h.1, fun endpoint => (h.2 endpoint).trans (or_iff_right not_mem_nil)⟩

theorem entry_start {entry : Nat × List Due} (h : entry ∈ InsertionMap.pushAll Due.endpointID id [] found) :
    entry.2 = dueOf entry.1 found ∧ ∃ first, entry.2.head? = some first := by
  have hqueue : entry.2 = dueOf entry.1 found := by
    have hget := InsertionMap.get_pushAll Due.endpointID id entry.1 found []
    rw [InsertionMap.get_of_mem start_keys.1 h, map_id] at hget
    exact hget
  refine ⟨hqueue, ?_⟩
  obtain ⟨d, hd, hof⟩ := mem_map.1 ((start_keys.2 entry.1).1 (mem_map_of_mem h))
  have hmem : d ∈ entry.2 := hqueue ▸ mem_dueOf.2 ⟨hd, hof⟩
  cases hhead : entry.2 with
  | nil =>
    rw [hhead] at hmem
    cases hmem
  | cons first rest => exact ⟨first, rfl⟩

theorem start_ids : (start found).lanes.map Watch.endpointID =
    (InsertionMap.pushAll Due.endpointID id [] found).map Prod.fst := by
  unfold start
  rw [map_filterMap, ← filterMap_eq_map]
  refine filterMap_congr fun entry hentry => ?_
  obtain ⟨-, first, hfirst⟩ := entry_start hentry
  unfold watchOf
  rw [hfirst]
  rfl

theorem kept_start (hw : w ∈ (start found).lanes) : Kept found false [] w ∧ w.runners.countP Runner.held = 0 := by
  obtain ⟨entry, hentry, hwatch⟩ := mem_filterMap.1 hw
  obtain ⟨hqueue, first, hfirst⟩ := entry_start hentry
  unfold watchOf at hwatch
  rw [hfirst] at hwatch
  cases hwatch
  have hlength : 0 < entry.2.length := by
    rw [length_pos_iff]
    rintro he
    rw [he] at hfirst
    cases hfirst
  have hall : ∀ {n : Nat}, ∀ r ∈ List.replicate n Runner.checking, r = .checking := fun r hr => (mem_replicate.1 hr).2
  refine ⟨?_, countP_eq_zero.2 fun r hr => by rw [hall r hr]; decide⟩
  exact {
    first := hqueue ▸ mem_of_mem_head? hfirst
    shared := hqueue
    counts := ⟨rfl, by simp [ThreeInARow, recorded, timeoutsBeforePause]⟩
    some := by
      simp only [ne_eq, replicate_eq_nil_iff]
      have : 0 < maxInFlightPerEndpoint := by decide
      omega
    few := by
      rw [length_replicate]
      exact Nat.min_le_left _ _
    delivery := by
      intro r hr d hd
      rw [hall r hr] at hd
      cases hd
    through := by
      intro _ r hr hthrough
      rw [hall r hr] at hthrough
      rcases hthrough with h | h <;> cases h
    joined := fun h => absurd rfl h
    pauses := rfl }

theorem sound_start : Sound found cap (start found) where
  distinct := by
    rw [start_ids]
    exact start_keys.1
  covers := by
    intro d hd
    rw [start_ids, start_keys.2]
    exact mem_map_of_mem hd
  keeps := fun w hw => (kept_start hw).1
  about := fun _ h => absurd h not_mem_nil
  places := by
    refine (countP_eq_zero.2 fun r hr => ?_).symm
    obtain ⟨w, hw, hr⟩ := mem_flatMap.1 hr
    exact countP_eq_zero.1 (kept_start hw).2 r hr
  room := Nat.zero_le _

theorem Run.sound {limit : Int} (h : Run found limit p) : Sound found (Spread.room limit) p := by
  induction h with
  | refl => exact sound_start
  | tail _ hs ih => exact ih.step hs

/-! ## One endpoint of the pool -/

theorem tried_historyOf (endpoint : Nat) : ∀ log : List Event, tried (historyOf endpoint log) = dueOf endpoint (tried log)
  | [] => rfl
  | e :: log => by
    have ih := tried_historyOf endpoint log
    unfold tried historyOf dueOf at ih ⊢
    by_cases he : e.endpointID = endpoint
    · rw [filter_cons_of_pos (by simpa using he)]
      cases e with
      | tries d =>
        have hattempt : (Event.tries d).attempt = some d := rfl
        have hd : d.endpointID = endpoint := he
        rw [filterMap_cons_some hattempt, filterMap_cons_some hattempt, filter_cons_of_pos (by simpa using hd), ih]
      | records | pauses => rw [filterMap_cons_none rfl, filterMap_cons_none rfl, ih]
    · rw [filter_cons_of_neg (by simpa using he), ih]
      cases e with
      | tries d =>
        have hattempt : (Event.tries d).attempt = some d := rfl
        have hd : d.endpointID ≠ endpoint := he
        rw [filterMap_cons_some hattempt, filter_cons_of_neg (by simpa using hd)]
      | records | pauses => rw [filterMap_cons_none rfl]

theorem count_dueOf (d : Due) (l : List Due) : (dueOf d.endpointID l).count d = l.count d :=
  count_filter (p := fun x : Due => decide (x.endpointID = d.endpointID)) (decide_eq_true rfl)

theorem count_tried (d : Due) (log : List Event) : (tried log).count d = (tried (historyOf d.endpointID log)).count d := by
  rw [tried_historyOf, count_dueOf]

theorem request_delivery {r : Runner} {d : Due} (h : r.request = some d) : d ∈ r.delivery := by
  cases r with
  | trying => exact h
  | checking | waiting | holding | recording | releasing | leaving | done => cases h

theorem Kept.requests {ended : Bool} {history : List Event} (h : Kept found ended history w) :
    ∀ d ∈ w.runners.filterMap Runner.request, d.endpointID = w.endpointID := by
  intro d hd
  obtain ⟨r, hr, hrequest⟩ := mem_filterMap.1 hd
  exact (mem_dueOf.1 (h.delivery r hr d (request_delivery hrequest))).2

theorem Sound.requests_eq (h : Sound found cap p) (hw : w ∈ p.lanes) :
    requestsOf w.endpointID p = w.runners.filterMap Runner.request := by
  obtain ⟨a, b, hp⟩ := append_of_mem hw
  have hdistinct := h.distinct
  rw [hp, map_append, map_cons, nodup_middle, nodup_cons, ← map_append] at hdistinct
  have hnone : ∀ v, v ∈ a ++ b → (v.runners.filterMap Runner.request).filter (·.endpointID = w.endpointID) = [] := by
    intro v hv
    have hmem : v ∈ p.lanes := by
      rw [hp]
      simp only [mem_append, mem_cons] at hv ⊢
      tauto
    refine filter_eq_nil_iff.2 fun d hd he => hdistinct.1 ?_
    have hof := (h.keeps v hmem).requests d hd
    rw [← of_decide_eq_true he, hof]
    exact mem_map_of_mem hv
  unfold requestsOf Pool.requests
  rw [hp, filter_flatMap, flatMap_append, flatMap_cons,
    flatMap_eq_nil_iff.2 fun v hv => hnone v (mem_append_left b hv),
    flatMap_eq_nil_iff.2 fun v hv => hnone v (mem_append_right a hv), nil_append, append_nil]
  exact filter_eq_self.2 fun d hd => decide_eq_true ((h.keeps w hw).requests d hd)

theorem Sound.lane_or_none (h : Sound found cap p) (endpoint : Nat) : (∃ w ∈ p.lanes, w.endpointID = endpoint) ∨
    (historyOf endpoint p.log = [] ∧ dueOf endpoint found = [] ∧ requestsOf endpoint p = []) := by
  by_cases hlane : endpoint ∈ p.lanes.map Watch.endpointID
  · exact .inl (mem_map.1 hlane)
  refine .inr ⟨?_, ?_, ?_⟩
  · exact historyOf_other fun e he hof => hlane (hof ▸ h.about e he)
  · exact filter_eq_nil_iff.2 fun d hd hof => hlane (of_decide_eq_true hof ▸ h.covers d hd)
  · refine filter_eq_nil_iff.2 fun d hd hof => hlane ?_
    obtain ⟨w, hw, hrequest⟩ := mem_flatMap.1 hd
    rw [← of_decide_eq_true hof, (h.keeps w hw).requests d hrequest]
    exact mem_map_of_mem hw

theorem Sound.tried_prefix (h : Sound found cap p) (endpoint : Nat) :
    tried (historyOf endpoint p.log) <+: dueOf endpoint found := by
  rcases h.lane_or_none endpoint with ⟨w, hw, rfl⟩ | ⟨hhistory, -⟩
  · exact ⟨_, (h.keeps w hw).shared⟩
  · rw [hhistory]
    exact nil_prefix

theorem Sound.once (h : Sound found cap p) : (tried p.log).Subperm found := by
  refine subperm_ext_iff.2 fun d _ => ?_
  calc (tried p.log).count d
      = (tried (historyOf d.endpointID p.log)).count d := count_tried d p.log
    _ ≤ (dueOf d.endpointID found).count d := (h.tried_prefix d.endpointID).sublist.count_le d
    _ = found.count d := count_dueOf d found

theorem Sound.inPlaces (h : Sound found cap p) : p.requests.length ≤ p.places := by
  have hheld : ∀ r : Runner, r.request.isSome = true → r.held = true := by
    intro r hr
    cases r with
    | trying => rfl
    | checking | waiting | holding | recording | releasing | leaving | done => cases hr
  have hrequests : p.requests = (p.lanes.flatMap Watch.runners).filterMap Runner.request := filterMap_flatMap.symm
  rw [h.places, hrequests, length_filterMap_eq_countP]
  exact countP_mono_left fun r _ => hheld r

theorem Sound.ofEach (h : Sound found cap p) (endpoint : Nat) : (requestsOf endpoint p).length ≤ maxInFlightPerEndpoint := by
  rcases h.lane_or_none endpoint with ⟨w, hw, rfl⟩ | ⟨-, -, hnone⟩
  · rw [h.requests_eq hw]
    exact (length_filterMap_le _ _).trans (h.keeps w hw).few
  · rw [hnone]
    exact Nat.zero_le _

theorem Sound.paused (h : Sound found cap p) (endpoint : Nat) :
    pauses (historyOf endpoint p.log) ≤ 1 ∧ (0 < pauses (historyOf endpoint p.log) →
      ThreeInARow (recorded (historyOf endpoint p.log)) ∧ requestsOf endpoint p = []) := by
  rcases h.lane_or_none endpoint with ⟨w, hw, rfl⟩ | ⟨hhistory, -⟩
  · have hkept := h.keeps w hw
    rw [hkept.pauses]
    split
    · rename_i hpaused
      refine ⟨Nat.le_refl 1, fun _ => ⟨hkept.counts.paused.1 hpaused.2, ?_⟩⟩
      rw [h.requests_eq hw]
      refine filterMap_eq_nil_iff.2 fun r hr => ?_
      rw [hkept.joined hpaused.1 r hr]
      rfl
    · exact ⟨Nat.zero_le 1, fun hpos => absurd hpos (Nat.lt_irrefl 0)⟩
  · rw [hhistory]
    exact ⟨Nat.zero_le 1, fun hpos => absurd hpos (Nat.lt_irrefl 0)⟩

/-! ## The end of a run -/

theorem Sound.over_paused (h : Sound found cap p) (hover : p.Over) (endpoint : Nat)
    (hrow : ThreeInARow (recorded (historyOf endpoint p.log))) : pauses (historyOf endpoint p.log) = 1 := by
  rcases h.lane_or_none endpoint with ⟨w, hw, rfl⟩ | ⟨hhistory, -⟩
  · have hkept := h.keeps w hw
    have hstage : w.stage ≠ .running := by
      rw [hover w hw]
      decide
    rw [hkept.pauses, if_pos ⟨hstage, hkept.counts.paused.2 hrow⟩]
  · rw [hhistory] at hrow
    exact absurd hrow (by simp [ThreeInARow, recorded, timeoutsBeforePause])

theorem Sound.over_tried (h : Sound found cap p) (hover : p.Over) (hended : p.ended = false) {d : Due}
    (hpaused : pauses (historyOf d.endpointID p.log) = 0) : (tried p.log).count d = found.count d := by
  rw [count_tried, ← count_dueOf d found]
  rcases h.lane_or_none d.endpointID with ⟨w, hw, hof⟩ | ⟨hhistory, hdue, -⟩
  · have hkept := h.keeps w hw
    rw [← hof] at hpaused ⊢
    have hstage : w.stage ≠ .running := by
      rw [hover w hw]
      decide
    obtain ⟨r, hr⟩ := exists_mem_of_ne_nil _ hkept.some
    rcases hkept.through hended r hr (.inr (hkept.joined hstage r hr)) with hqueue | hspent
    · have hshared := hkept.shared
      rw [hqueue, append_nil] at hshared
      rw [hshared]
    · rw [hkept.pauses, if_pos ⟨hstage, hspent⟩] at hpaused
      cases hpaused
  · rw [hhistory, hdue]
    rfl

theorem Sound.goesOn (h : Sound found cap p) (hcap : 0 < cap) (hover : ¬p.Over) : ∃ p', Step cap p p' := by
  have hact : ∀ w ∈ p.lanes, ∀ r ∈ w.runners, r ≠ .done → (r = .waiting → p.places < cap) → ∃ p', Step cap p p' := by
    intro w hw r hr hdone hwait
    obtain ⟨a, b, hp⟩ := append_of_mem hw
    obtain ⟨r₁, r₂, hrunners⟩ := append_of_mem hr
    have hheld : r.held = true → 0 < p.places := by
      intro hheld
      rw [h.places, countP_pos_iff]
      exact ⟨r, mem_flatMap.2 ⟨w, hw, hr⟩, hheld⟩
    obtain ⟨log, taken, lane, r', hstep⟩ : ∃ log taken lane r', Act cap p.ended p.places w.lane r log taken lane r' :=
      act_of hdone hwait hheld
    exact ⟨_, .act hp hrunners hstep⟩
  by_cases hfree : ∃ w ∈ p.lanes, ∃ r ∈ w.runners, r ≠ .done
  · obtain ⟨w, hw, r, hr, hdone⟩ := hfree
    by_cases hroom : p.places < cap
    · exact hact w hw r hr hdone fun _ => hroom
    -- Every place is taken, so there is a runner that holds one, and it waits for nothing.
    have hpos : 0 < p.places := Nat.lt_of_lt_of_le hcap (Nat.le_of_not_lt hroom)
    rw [h.places, countP_pos_iff] at hpos
    obtain ⟨holder, hmem, hheld⟩ := hpos
    obtain ⟨v, hv, hholder⟩ := mem_flatMap.1 hmem
    refine hact v hv holder hholder ?_ ?_
    · rintro rfl
      cases hheld
    · rintro rfl
      cases hheld
  · have hdone : ∀ w ∈ p.lanes, ∀ r ∈ w.runners, r = .done := by
      intro w hw r hr
      by_contra hne
      exact hfree ⟨w, hw, r, hr, hne⟩
    unfold Pool.Over at hover
    push Not at hover
    obtain ⟨w, hw, hstage⟩ := hover
    obtain ⟨a, b, hp⟩ := append_of_mem hw
    cases hof : w.stage with
    | finished => exact absurd hof hstage
    | pausing => exact ⟨_, .watch hp (.paused hof)⟩
    | running =>
      cases hpaused : w.lane.paused with
      | true => exact ⟨_, .watch hp (.pauses hof (hdone w hw) hpaused)⟩
      | false => exact ⟨_, .watch hp (.passes hof (hdone w hw) hpaused)⟩

def Stage.left : Stage → Nat
  | .running => 2
  | .pausing => 1
  | .finished => 0

def Watch.left (w : Watch) : Nat := 6 * w.lane.queue.length + (w.runners.map Runner.left).sum + w.stage.left

def Pool.left (p : Pool) : Nat := (!p.ended).toNat + (p.lanes.map Watch.left).sum

theorem step_left (hs : Step cap p p') : p'.left < p.left := by
  cases hs with
  | cancel hended => simp [Pool.left, hended]
  | @act a b w r₁ r₂ r r' log taken lane hp hr ha =>
    have hless := ha.left
    simp only [Pool.left, hp, map_append, map_cons, sum_append, sum_cons, Watch.left, hr]
    omega
  | @watch a b w w' log hp hs =>
    have hless : w'.left < w.left := by
      cases hs with
      | pauses hstage | passes hstage | paused hstage => simp [Watch.left, Stage.left, hstage]
    simp only [Pool.left, hp, map_append, map_cons, sum_append, sum_cons]
    omega

theorem acc_step (cap : Nat) (p : Pool) : Acc (fun q p => Step cap p q) p :=
  Subrelation.accessible (fun hs => step_left hs) (InvImage.accessible Pool.left (Nat.lt_wfRel.wf.apply p.left))

structure Fair (found : List Due) (cap : Nat) (p : Pool) : Prop where
  inPlaces : p.requests.length ≤ p.places ∧ p.places ≤ cap
  ofEach : ∀ endpoint, (requestsOf endpoint p).length ≤ maxInFlightPerEndpoint
  once : (tried p.log).Subperm found
  pausedOnce : ∀ endpoint, pauses (historyOf endpoint p.log) ≤ 1
  pausedAfter : ∀ endpoint, 0 < pauses (historyOf endpoint p.log) →
    ThreeInARow (recorded (historyOf endpoint p.log)) ∧ requestsOf endpoint p = []
  overPaused : p.Over → ∀ endpoint, ThreeInARow (recorded (historyOf endpoint p.log)) →
    pauses (historyOf endpoint p.log) = 1
  overTried : p.Over → p.ended = false → ∀ d ∈ found, pauses (historyOf d.endpointID p.log) = 0 →
    (tried p.log).count d = found.count d
  goesOn : ¬p.Over → ∃ p', Step cap p p'
  ends : Acc (fun q p => Step cap p q) p

/-- **A batch is spread fairly**, whatever the limit, the outcomes and the order of the runners' steps. -/
theorem run_fair {limit : Int} (h : Run found limit p) : Fair found (Spread.room limit) p := by
  have hsound := h.sound
  have hroom : 0 < Spread.room limit := by
    unfold Spread.room
    omega
  exact {
    inPlaces := ⟨hsound.inPlaces, hsound.room⟩
    ofEach := hsound.ofEach
    once := hsound.once
    pausedOnce := fun endpoint => (hsound.paused endpoint).1
    pausedAfter := fun endpoint => (hsound.paused endpoint).2
    overPaused := hsound.over_paused
    overTried := fun hover hended _ _ => hsound.over_tried hover hended
    goesOn := hsound.goesOn hroom
    ends := acc_step _ p }

end

/-! ## Two endpoints, on their way -/

def laneOf (d : Due) (queue : List Due) (r : Runner) : Watch := ⟨d.endpointID, d, ⟨queue, 0, false⟩, [r], .running⟩

theorem run_tries {cap places : Nat} (hroom : places < cap) (a b : List Watch) (d : Due) (log : List Event) :
    Relation.ReflTransGen (Step cap) ⟨false, places, a ++ laneOf d [d] .checking :: b, log⟩
      ⟨false, places + 1, a ++ laneOf d [] (.trying d) :: b, log ++ [.tries d]⟩ := by
  have hwaits : Step cap ⟨false, places, a ++ laneOf d [d] .checking :: b, log⟩
      ⟨false, places, a ++ laneOf d [d] .waiting :: b, log ++ []⟩ :=
    @Step.act _ ⟨false, places, _, log⟩ a b (laneOf d [d] .checking) [] [] .checking .waiting [] places ⟨[d], 0, false⟩ rfl rfl
      (.waits rfl)
  have henters : Step cap ⟨false, places, a ++ laneOf d [d] .waiting :: b, log⟩
      ⟨false, places + 1, a ++ laneOf d [d] .holding :: b, log ++ []⟩ :=
    @Step.act _ ⟨false, places, _, log⟩ a b (laneOf d [d] .waiting) [] [] .waiting .holding [] (places + 1) ⟨[d], 0, false⟩ rfl rfl
      (.enters hroom)
  have htries : Step cap ⟨false, places + 1, a ++ laneOf d [d] .holding :: b, log⟩
      ⟨false, places + 1, a ++ laneOf d [] (.trying d) :: b, log ++ [.tries d]⟩ :=
    @Step.act _ ⟨false, places + 1, _, log⟩ a b (laneOf d [d] .holding) [] [] .holding (.trying d) [.tries d] (places + 1)
      ⟨[], 0, false⟩ rfl rfl (.tries rfl)
  rw [append_nil] at hwaits henters
  exact ((Relation.ReflTransGen.single hwaits).tail henters).tail htries

def batch : List Due := [⟨1, 7⟩, ⟨2, 8⟩]

def flying : Pool where
  ended := false
  places := 2
  lanes := [laneOf ⟨1, 7⟩ [] (.trying ⟨1, 7⟩), laneOf ⟨2, 8⟩ [] (.trying ⟨2, 8⟩)]
  log := [.tries ⟨1, 7⟩, .tries ⟨2, 8⟩]

theorem run_flying : Run batch 2 flying :=
  (run_tries (by decide : 0 < room 2) [] [laneOf ⟨2, 8⟩ [⟨2, 8⟩] .checking] ⟨1, 7⟩ []).trans
    (run_tries (by decide) [laneOf ⟨1, 7⟩ [] (.trying ⟨1, 7⟩)] [] ⟨2, 8⟩ [.tries ⟨1, 7⟩])

theorem run_fair_flying : flying.requests = batch ∧ Fair batch (room 2) flying := ⟨rfl, run_fair run_flying⟩

end Spread
end Webhook
end Armature
