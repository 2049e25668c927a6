import Armature.RingBuffer
/-!
# LagWindow — when a replica's lag takes it out of the rotation (`db/lag.go`)

A reading is kept from each check of a standby whose receiver is connected; the lower median of those kept is held against the
lag that is allowed.  With no lag allowed, zero or less, nothing is held against it.
-/
namespace Armature
namespace Cluster

open List

abbrev LagWindow := Ring Int

def windowSize (size : Int) : Nat := (max size 1).toNat

theorem windowSize_pos (size : Int) : 0 < windowSize size := by
  unfold windowSize
  omega

def newLagWindow (size : Int) : LagWindow := .empty (windowSize size) (windowSize_pos size)

theorem push_ne_nil (w : LagWindow) (lag : Int) : (w.push lag).samples ≠ [] := by
  intro h
  have hlen : (w.push lag).recent.length = 0 := by rw [Ring.recent_length, h, length_nil]
  have hpos := w.pos
  rw [Ring.recent_push, length_take, length_cons] at hlen
  omega

def LagWindow.add (w : LagWindow) (lag : Int) : Int × LagWindow :=
  (lowerMedian (w.push lag).samples (push_ne_nil w lag), w.push lag)

inductive Reason where
  | receiver (status : String)
  | lag (typical : Int) (readings : Nat) (allowed : Int)
  deriving DecidableEq

structure ReplicaState where
  lags : LagWindow
  healthy : Bool
  lagMillis : Int
  lastErr : Option Reason

def newReplicaState (lagSamples : Int) : ReplicaState := ⟨newLagWindow lagSamples, false, 0, none⟩

def ReplicaState.markUnhealthy (r : ReplicaState) (reason : Reason) : ReplicaState :=
  { r with healthy := false, lastErr := some reason }

def ReplicaState.markHealthy (r : ReplicaState) : ReplicaState :=
  { r with healthy := true, lastErr := if r.healthy then r.lastErr else none }

structure Check where
  inRecovery : Bool
  lag : Int
  receiverStatus : String
  deriving DecidableEq

def judge (maxLag : Int) (r : ReplicaState) (c : Check) : ReplicaState :=
  let r := { r with lagMillis := c.lag.tdiv 1000000 }
  if c.inRecovery then
    if c.receiverStatus ≠ "" ∧ c.receiverStatus ≠ "streaming" then r.markUnhealthy (.receiver c.receiverStatus)
    else
      let (typical, lags) := r.lags.add c.lag
      let r := { r with lags := lags }
      if 0 < maxLag ∧ maxLag < typical then r.markUnhealthy (.lag typical lags.samples.length maxLag)
      else r.markHealthy
  else r.markHealthy

def judgeAll (maxLag : Int) (r : ReplicaState) (checks : List Check) : ReplicaState := checks.foldl (judge maxLag) r

/-! ## The readings of a run -/

def Check.streaming (c : Check) : Bool := c.inRecovery && (c.receiverStatus == "" || c.receiverStatus == "streaming")

def readings (checks : List Check) : List Int := (checks.filter Check.streaming).map Check.lag

theorem judge_lags (maxLag : Int) (r : ReplicaState) (c : Check) :
    (judge maxLag r c).lags = if c.streaming then r.lags.push c.lag else r.lags := by
  unfold judge Check.streaming
  cases c.inRecovery with
  | false => rfl
  | true =>
    by_cases hstatus : c.receiverStatus ≠ "" ∧ c.receiverStatus ≠ "streaming"
    · simp [hstatus, ReplicaState.markUnhealthy]
    · have hstream : (c.receiverStatus == "" || c.receiverStatus == "streaming") = true := by
        simp only [Bool.or_eq_true, beq_iff_eq]
        tauto
      rw [hstream]
      simp only [hstatus, if_false, if_true, Bool.and_self]
      split <;> rfl

theorem readings_cons (c : Check) (checks : List Check) :
    readings (c :: checks) = if c.streaming then c.lag :: readings checks else readings checks := by
  cases hc : c.streaming <;> simp [readings, hc]

theorem judgeAll_append (maxLag : Int) (r : ReplicaState) (checks : List Check) (c : Check) :
    judgeAll maxLag r (checks ++ [c]) = judge maxLag (judgeAll maxLag r checks) c := by
  simp [judgeAll]

theorem judgeAll_lags (maxLag : Int) : ∀ (checks : List Check) (r : ReplicaState),
    (judgeAll maxLag r checks).lags = r.lags.pushAll (readings checks)
  | [], _ => rfl
  | c :: checks, r => by
    have ih := judgeAll_lags maxLag checks (judge maxLag r c)
    rw [judge_lags] at ih
    rw [judgeAll, foldl_cons, ← judgeAll, ih, readings_cons]
    cases c.streaming <;> rfl

/-! ## The verdict -/

def OutForLag (r : ReplicaState) : Prop :=
  r.healthy = false ∧ ∃ typical kept allowed, r.lastErr = some (.lag typical kept allowed)

theorem outForLag_judge (maxLag : Int) (r : ReplicaState) {c : Check} (hc : c.streaming = true) :
    OutForLag (judge maxLag r c) ↔ 0 < maxLag ∧ maxLag < (r.lags.add c.lag).1 := by
  obtain ⟨hrecovery, hstatus⟩ : c.inRecovery = true ∧ ¬ (c.receiverStatus ≠ "" ∧ c.receiverStatus ≠ "streaming") := by
    simp only [Check.streaming, Bool.and_eq_true, Bool.or_eq_true, beq_iff_eq] at hc
    tauto
  unfold judge
  simp only [hrecovery, hstatus, if_true, if_false]
  split
  · simp [OutForLag, ReplicaState.markUnhealthy, *]
  · simp [OutForLag, ReplicaState.markHealthy, *]

def lastOf {α : Type} (k : Nat) (l : List α) : List α := l.drop (l.length - k)

/-- **Lag is judged on the majority of the last readings.** -/
theorem judged_on_majority (maxLag size : Int) (checks : List Check) {c : Check} (hc : c.streaming = true) :
    OutForLag (judgeAll maxLag (newReplicaState size) (checks ++ [c])) ↔
      0 < maxLag ∧ min (readings (checks ++ [c])).length (windowSize size) <
        2 * (lastOf (windowSize size) (readings (checks ++ [c]))).countP (maxLag < ·) := by
  have hreadings : readings (checks ++ [c]) = readings checks ++ [c.lag] := by simp [readings, hc]
  have hwindow : ((judgeAll maxLag (newReplicaState size) checks).lags.push c.lag).samples.Perm
      (lastOf (windowSize size) (readings (checks ++ [c]))) := by
    have hlags : (judgeAll maxLag (newReplicaState size) checks).lags.push c.lag =
        (newLagWindow size).pushAll (readings (checks ++ [c])) := by
      rw [judgeAll_lags, hreadings, Ring.pushAll, Ring.pushAll, foldl_append]
      rfl
    rw [hlags]
    refine (Ring.recent_perm _).symm.trans ?_
    rw [newLagWindow, Ring.recent_pushAll, take_reverse]
    exact reverse_perm _
  rw [judgeAll_append, outForLag_judge maxLag _ hc]
  refine and_congr_right fun _ => ?_
  rw [LagWindow.add, lt_lowerMedian_iff, hwindow.length_eq, hwindow.countP_eq, lastOf, length_drop]
  omega

/-- **With no lag allowed no reading takes a replica out**, late as it is. -/
theorem no_lag_allowed : ¬ ∀ (maxLag size : Int) (checks : List Check) (c : Check), c.streaming = true →
    (OutForLag (judgeAll maxLag (newReplicaState size) (checks ++ [c])) ↔
      min (readings (checks ++ [c])).length (windowSize size) <
        2 * (lastOf (windowSize size) (readings (checks ++ [c]))).countP (maxLag < ·)) := by
  intro h
  obtain ⟨hout, -⟩ := (h 0 1 [] ⟨true, 1, "streaming"⟩ rfl).2 (by decide)
  have hin : (judgeAll 0 (newReplicaState 1) ([] ++ [⟨true, 1, "streaming"⟩])).healthy = true := by decide
  rw [hin] at hout
  cases hout

/-- Two late readings of three take a replica out. -/
theorem two_of_three_late : OutForLag (judgeAll 2 (newReplicaState 3) ([⟨true, 0, "streaming"⟩, ⟨true, 10, "streaming"⟩] ++
    [⟨true, 10, "streaming"⟩])) :=
  (judged_on_majority 2 3 [⟨true, 0, "streaming"⟩, ⟨true, 10, "streaming"⟩] rfl).2 (by decide)

end Cluster
end Armature
