import Mathlib.Algebra.Order.Group.Int
import Mathlib.Data.Int.ModEq
import Mathlib.Data.Nat.Find
/-!
# ReplicaRouting — which replica serves a read (`db/cluster.go`)

The places are tried from the rotation's counter on, going round the list.  The counter is a 64-bit `int` of any value: its
least has no negative, and past its greatest an addition starts again at the least.  From there the remainder is negative, which
indexes nothing, but for the first place where the number of replicas divides 2^63.
-/
namespace Armature
namespace Cluster

open List

def int64 (x : Int) : Int := x.bmod (2 ^ 64)

inductive Panic where
  | indexOutOfRange
  deriving DecidableEq

structure Replica where
  name : String
  healthy : Bool
  replayLSN : UInt64
  deriving DecidableEq

structure Pin where
  forcePrimary : Bool := false
  requiredLSN : UInt64 := 0
  deriving DecidableEq

inductive RouteOutcome where
  /-- Served by a replica. -/
  | replica
  /-- The caller demanded the primary. -/
  | pinned
  /-- Replicas are up but none is caught up. -/
  | stale
  /-- No replica is currently usable. -/
  | noHealthy
  deriving DecidableEq

def replicaAt (replicas : List Replica) (start : Int) (i : Nat) : Option Replica :=
  let index := (int64 (start + i)).tmod replicas.length
  if index < 0 then none else replicas[index.toNat]?

def behind (p : Pin) (r : Replica) : Bool := p.requiredLSN != 0 && r.replayLSN < p.requiredLSN

def tryPlaces (at_ : Nat → Option Replica) (p : Pin) : List Nat → Bool → Except Panic (Option Replica × RouteOutcome)
  | [], sawHealthy => .ok (none, if sawHealthy then .stale else .noHealthy)
  | i :: places, sawHealthy =>
    match at_ i with
    | none => .error .indexOutOfRange
    | some r =>
      if !r.healthy then tryPlaces at_ p places sawHealthy
      else if behind p r then tryPlaces at_ p places true
      else .ok (some r, .replica)

def rotated (start : Int64) : Int := if start.toInt < 0 then int64 (-start.toInt) else start.toInt

def pickReplica (replicas : List Replica) (start : Int64) (p : Pin) : Except Panic (Option Replica × RouteOutcome) :=
  if p.forcePrimary then .ok (none, .pinned)
  else if replicas.length = 0 then .ok (none, .noHealthy)
  else tryPlaces (replicaAt replicas (rotated start)) p (List.range replicas.length) false

/-! ## The loop -/

def Qualifies (p : Pin) (r : Replica) : Prop := r.healthy = true ∧ (p.requiredLSN = 0 ∨ p.requiredLSN ≤ r.replayLSN)

instance (p : Pin) (r : Replica) : Decidable (Qualifies p r) := inferInstanceAs (Decidable (_ ∧ _))

theorem qualifies_iff {p : Pin} {r : Replica} : Qualifies p r ↔ r.healthy = true ∧ behind p r = false := by
  simp only [Qualifies, behind, Bool.and_eq_false_iff, bne_eq_false_iff_eq, decide_eq_false_iff_not, UInt64.not_lt]

section
variable {at_ : Nat → Option Replica} {p : Pin}

theorem tryPlaces_skip {i : Nat} {r : Replica} (hr : at_ i = some r) (hno : ¬ Qualifies p r) (places : List Nat) (saw : Bool) :
    tryPlaces at_ p (i :: places) saw = tryPlaces at_ p places (saw || r.healthy) := by
  rw [qualifies_iff] at hno
  rw [tryPlaces, hr]
  cases hhealthy : r.healthy with
  | false => simp [hhealthy]
  | true =>
    have hbehind : behind p r = true := by simpa [hhealthy] using hno
    simp [hhealthy, hbehind]

theorem tryPlaces_take {i : Nat} {r : Replica} (hr : at_ i = some r) (hq : Qualifies p r) (places : List Nat) (saw : Bool) :
    tryPlaces at_ p (i :: places) saw = .ok (some r, .replica) := by
  obtain ⟨hhealthy, hbehind⟩ := qualifies_iff.1 hq
  simp [tryPlaces, hr, hhealthy, hbehind]

theorem tryPlaces_panics {i : Nat} (hr : at_ i = none) (places : List Nat) (saw : Bool) :
    tryPlaces at_ p (i :: places) saw = .error .indexOutOfRange := by
  rw [tryPlaces, hr]

def Passed (at_ : Nat → Option Replica) (p : Pin) (places : List Nat) : Prop :=
  ∀ i ∈ places, ∃ r, at_ i = some r ∧ ¬ Qualifies p r

theorem tryPlaces_passed (rest : List Nat) : ∀ {places : List Nat} (saw : Bool), Passed at_ p places →
    ∃ saw', tryPlaces at_ p (places ++ rest) saw = tryPlaces at_ p rest saw' ∧
      (saw' = true ↔ saw = true ∨ ∃ i ∈ places, ∃ r, at_ i = some r ∧ r.healthy = true)
  | [], saw, _ => ⟨saw, rfl, by simp⟩
  | i :: places, saw, h => by
    obtain ⟨r, hr, hno⟩ := h i mem_cons_self
    obtain ⟨saw', heq, hsaw⟩ := tryPlaces_passed rest (saw || r.healthy) fun j hj => h j (mem_cons_of_mem i hj)
    refine ⟨saw', ?_, ?_⟩
    · rw [cons_append, tryPlaces_skip hr hno, heq]
    · rw [hsaw, Bool.or_eq_true, or_assoc]
      simp [hr]

end

theorem range_split {n i : Nat} (h : i < n) : ∃ rest, List.range n = List.range i ++ i :: rest := by
  obtain ⟨m, rfl⟩ : ∃ m, n = i + (m + 1) := ⟨n - i - 1, by omega⟩
  exact ⟨((List.range m).map Nat.succ).map (i + ·), by rw [range_add, range_succ_eq_map, map_cons, Nat.add_zero]⟩

/-! ## Where the index is right -/

def room (start : Int64) : Nat := 2 ^ 63 - start.toInt.natAbs

def reach (replicas : List Replica) (start : Int64) : Nat :=
  if replicas.length ∣ 2 ^ 63 then room start + 1 else room start

theorem toInt_bounds (start : Int64) : -2 ^ 63 ≤ start.toInt ∧ start.toInt < 2 ^ 63 :=
  ⟨Int64.le_toInt start, Int64.toInt_lt start⟩

theorem int64_rotated (start : Int64) {i : Nat} (hi : i ≤ room start + 1) : int64 (rotated start + i) =
    if i < room start then (start.toInt.natAbs : Int) + i else (i : Int) - room start - 2 ^ 63 := by
  obtain ⟨hlow, hhigh⟩ := toInt_bounds start
  unfold rotated room int64 at *
  simp only [Int.bmod]
  split <;> split <;> split <;> omega

theorem int64_before (start : Int64) {i : Nat} (hi : i < room start) :
    int64 (rotated start + i) = ((start.toInt.natAbs + i : Nat) : Int) := by
  rw [int64_rotated start (by omega), if_pos hi, Int.natCast_add]

theorem int64_after (start : Int64) {j : Nat} (hj : j ≤ 1) :
    int64 (rotated start + (room start + j : Nat)) = -((2 ^ 63 - j : Nat) : Int) := by
  rw [int64_rotated start (by omega), if_neg (by omega)]
  omega

section
variable {replicas : List Replica} {start : Int64}

theorem replicaAt_before {i : Nat} (hi : i < room start) :
    replicaAt replicas (rotated start) i = replicas[(start.toInt.natAbs + i) % replicas.length]? := by
  unfold replicaAt
  dsimp only
  rw [int64_before start hi, ← Int.ofNat_tmod, if_neg (by omega), Int.toNat_natCast]

theorem tmod_after (j n : Nat) : (-((2 ^ 63 - j : Nat) : Int)).tmod n = -(((2 ^ 63 - j) % n : Nat) : Int) := by
  rw [Int.neg_tmod, ← Int.ofNat_tmod]

theorem replicaAt_right {i : Nat} (hi : i < reach replicas start) :
    replicaAt replicas (rotated start) i = replicas[(start.toInt.natAbs + i) % replicas.length]? := by
  unfold reach at hi
  split at hi
  · rename_i hdvd
    by_cases hroom : i < room start
    · exact replicaAt_before hroom
    · have hi' : i = room start + 0 := by omega
      have hsum : start.toInt.natAbs + (room start + 0) = 2 ^ 63 := by
        obtain ⟨hlow, hhigh⟩ := toInt_bounds start
        unfold room
        omega
      have hzero : (2 ^ 63 - 0) % replicas.length = 0 := Nat.mod_eq_zero_of_dvd hdvd
      unfold replicaAt
      dsimp only
      rw [hi', int64_after start (by omega), tmod_after, hzero, hsum, Nat.mod_eq_zero_of_dvd hdvd]
      rfl
  · exact replicaAt_before hi

theorem replicaAt_wrong (hlt : reach replicas start < replicas.length) :
    replicaAt replicas (rotated start) (reach replicas start) = none := by
  have houtside : ∀ j, j ≤ 1 → (2 ^ 63 - j) % replicas.length ≠ 0 →
      replicaAt replicas (rotated start) (room start + j) = none := by
    intro j hj hne
    unfold replicaAt
    dsimp only
    rw [int64_after start hj, tmod_after, if_pos (by omega)]
  unfold reach at hlt ⊢
  split at hlt
  · rename_i hdvd
    rw [if_pos hdvd]
    refine houtside 1 (by omega) fun hzero => ?_
    -- two numbers in a row are divided by the length, which then is one
    have hone : replicas.length ∣ 1 := (Nat.dvd_sub hdvd (Nat.dvd_of_mod_eq_zero hzero)).trans (by decide)
    have hle := Nat.le_of_dvd (by decide) hone
    omega
  · rename_i hdvd
    rw [if_neg hdvd]
    exact houtside 0 (by omega) fun hzero => hdvd (Nat.dvd_of_mod_eq_zero hzero)

theorem exists_turn {s j n : Nat} (hj : j < n) : ∃ i < n, (s + i) % n = j := by
  have hs : s % n < n := Nat.mod_lt s (by omega)
  refine ⟨(j + (n - s % n)) % n, Nat.mod_lt _ (by omega), ?_⟩
  rw [Nat.add_mod_mod]
  have hsplit : s + (j + (n - s % n)) = j + n * (s / n + 1) := by
    have := Nat.div_add_mod s n
    rw [Nat.mul_add, Nat.mul_one]
    omega
  rw [hsplit, Nat.add_mul_mod_self_left, Nat.mod_eq_of_lt hj]

/-! ## What is picked -/

variable {p : Pin}

def Serves (replicas : List Replica) (start : Int64) (p : Pin) (i : Nat) : Prop :=
  ∃ r, replicas[(start.toInt.natAbs + i) % replicas.length]? = some r ∧ Qualifies p r

theorem passed_of_none_serves (hn : replicas.length ≠ 0) {places : List Nat} (hreach : ∀ i ∈ places, i < reach replicas start)
    (hnone : ∀ i ∈ places, ¬ Serves replicas start p i) : Passed (replicaAt replicas (rotated start)) p places := by
  intro i hi
  have hlt : (start.toInt.natAbs + i) % replicas.length < replicas.length := Nat.mod_lt _ (by omega)
  refine ⟨replicas[(start.toInt.natAbs + i) % replicas.length], ?_, fun hq => ?_⟩
  · rw [replicaAt_right (hreach i hi), List.getElem?_eq_getElem hlt]
  · exact hnone i hi ⟨_, List.getElem?_eq_getElem hlt, hq⟩

theorem pickReplica_loop (hforce : p.forcePrimary = false) (hn : replicas.length ≠ 0) :
    pickReplica replicas start p = tryPlaces (replicaAt replicas (rotated start)) p (List.range replicas.length) false := by
  rw [pickReplica, hforce, if_neg Bool.false_ne_true, if_neg hn]

theorem pickReplica_found (hforce : p.forcePrimary = false)
    (h : ∃ i, i < replicas.length ∧ i < reach replicas start ∧ Serves replicas start p i) :
    ∃ r ∈ replicas, Qualifies p r ∧ pickReplica replicas start p = .ok (some r, .replica) := by
  classical
  obtain ⟨hlen, hreach, r, hr, hq⟩ := Nat.find_spec h
  have hearlier := fun j (hj : j < Nat.find h) => Nat.find_min h hj
  generalize Nat.find h = i at *
  obtain ⟨rest, hsplit⟩ := range_split hlen
  have hpassed : Passed (replicaAt replicas (rotated start)) p (List.range i) := by
    refine passed_of_none_serves (by omega) (fun j hj => ?_) fun j hj hserves => ?_
    · have := mem_range.1 hj
      omega
    · have hji := mem_range.1 hj
      exact hearlier j hji ⟨by omega, by omega, hserves⟩
  obtain ⟨saw, heq, -⟩ := tryPlaces_passed (i :: rest) false hpassed
  refine ⟨r, mem_of_getElem? hr, hq, ?_⟩
  rw [pickReplica_loop hforce (by omega), hsplit, heq]
  exact tryPlaces_take ((replicaAt_right hreach).trans hr) hq rest saw

theorem pickReplica_none (hforce : p.forcePrimary = false) (hn : replicas.length ≠ 0)
    (hreach : replicas.length ≤ reach replicas start) (hnone : ∀ i < replicas.length, ¬ Serves replicas start p i) :
    ∃ outcome, pickReplica replicas start p = .ok (none, outcome) := by
  have hpassed : Passed (replicaAt replicas (rotated start)) p (List.range replicas.length) :=
    passed_of_none_serves hn (fun j hj => Nat.lt_of_lt_of_le (mem_range.1 hj) hreach)
      fun j hj => hnone j (mem_range.1 hj)
  obtain ⟨saw, heq, -⟩ := tryPlaces_passed [] false hpassed
  rw [append_nil] at heq
  exact ⟨if saw then .stale else .noHealthy, by rw [pickReplica_loop hforce hn, heq, tryPlaces]⟩

theorem pickReplica_panics (hforce : p.forcePrimary = false) (hlt : reach replicas start < replicas.length)
    (hnone : ∀ i < reach replicas start, ¬ Serves replicas start p i) :
    pickReplica replicas start p = .error .indexOutOfRange := by
  obtain ⟨rest, hsplit⟩ := range_split hlt
  have hpassed : Passed (replicaAt replicas (rotated start)) p (List.range (reach replicas start)) :=
    passed_of_none_serves (by omega) (fun j hj => mem_range.1 hj) fun j hj => hnone j (mem_range.1 hj)
  obtain ⟨saw, heq, -⟩ := tryPlaces_passed (reach replicas start :: rest) false hpassed
  rw [pickReplica_loop hforce (by omega), hsplit, heq]
  exact tryPlaces_panics (replicaAt_wrong hlt) rest saw

def Routes (replicas : List Replica) (start : Int64) (p : Pin) : Prop :=
  ∃ picked outcome, pickReplica replicas start p = .ok (picked, outcome) ∧
    (picked.isSome = true ↔ p.forcePrimary = false ∧ ∃ r ∈ replicas, Qualifies p r) ∧
    ∀ r, picked = some r → r ∈ replicas ∧ Qualifies p r

theorem routes_of_serves (hforce : p.forcePrimary = false)
    (h : ∃ i, i < replicas.length ∧ i < reach replicas start ∧ Serves replicas start p i) : Routes replicas start p := by
  obtain ⟨r, hmem, hq, hpick⟩ := pickReplica_found hforce h
  refine ⟨some r, .replica, hpick, by simpa using ⟨hforce, r, hmem, hq⟩, fun r' hr' => ?_⟩
  cases hr'
  exact ⟨hmem, hq⟩

theorem routes_of_none_serves (hforce : p.forcePrimary = false) (hn : replicas.length ≠ 0)
    (hall : replicas.length ≤ reach replicas start) (hnone : ∀ i < replicas.length, ¬ Serves replicas start p i) :
    Routes replicas start p := by
  obtain ⟨outcome, hpick⟩ := pickReplica_none hforce hn hall hnone
  refine ⟨none, outcome, hpick, ?_, by simp⟩
  simp only [Option.isSome_none, Bool.false_eq_true, hforce, true_and, false_iff, not_exists, not_and]
  intro r hr hq
  obtain ⟨j, hj, rfl⟩ := getElem_of_mem hr
  obtain ⟨i, hi, hturn⟩ := exists_turn (s := start.toInt.natAbs) hj
  exact hnone i hi ⟨replicas[j], by rw [hturn, List.getElem?_eq_getElem hj], hq⟩

end

/-- **When routing is total and fresh**: when the primary is forced, the places that are indexed as they should be are all there
are, or one of them serves the read. -/
theorem routes_iff (replicas : List Replica) (start : Int64) (p : Pin) : Routes replicas start p ↔
    p.forcePrimary = true ∨ replicas.length ≤ reach replicas start ∨ ∃ i < reach replicas start, Serves replicas start p i := by
  cases hforce : p.forcePrimary with
  | true =>
    have hpick : pickReplica replicas start p = .ok (none, .pinned) := by rw [pickReplica, if_pos hforce]
    simp [Routes, hpick, hforce]
  | false =>
    by_cases hn : replicas.length = 0
    · have hpick : pickReplica replicas start p = .ok (none, .noHealthy) := by
        rw [pickReplica, hforce, if_neg Bool.false_ne_true, if_pos hn]
      obtain rfl := length_eq_zero_iff.1 hn
      simp [Routes, hpick]
    · constructor
      · intro hroutes
        by_contra hno
        simp only [Bool.false_eq_true, false_or, not_or, Nat.not_le, not_exists, not_and] at hno
        obtain ⟨picked, outcome, hpick, -⟩ := hroutes
        rw [pickReplica_panics hforce hno.1 hno.2] at hpick
        cases hpick
      · intro h
        by_cases hserves : ∃ i, i < replicas.length ∧ i < reach replicas start ∧ Serves replicas start p i
        · exact routes_of_serves hforce hserves
        · have hall : replicas.length ≤ reach replicas start := by
            rcases h with h | h | ⟨i, hi, hs⟩
            · cases h
            · exact h
            · by_contra hlt
              exact hserves ⟨i, by omega, hi, hs⟩
          exact routes_of_none_serves hforce hn hall fun i hi hs => hserves ⟨i, hi, Nat.lt_of_lt_of_le hi hall, hs⟩

/-! ## Reads -/

def three : List Replica := [⟨"a", true, 100⟩, ⟨"b", true, 100⟩, ⟨"c", true, 100⟩]

/-- **At the least counter the list is indexed outside**, though every replica may serve the read. -/
theorem least_counter_panics : pickReplica three (Int64.ofInt (-2 ^ 63)) {} = .error .indexOutOfRange ∧
    ¬ ∀ (replicas : List Replica) (start : Int64) (p : Pin), Routes replicas start p := by
  have hpanics : pickReplica three (Int64.ofInt (-2 ^ 63)) {} = .error .indexOutOfRange := by decide
  refine ⟨hpanics, fun h => ?_⟩
  obtain ⟨picked, outcome, hpick, -⟩ := h three (Int64.ofInt (-2 ^ 63)) {}
  rw [hpanics] at hpick
  cases hpick

end Cluster
end Armature
