import Mathlib.Data.List.Lattice
import Mathlib.Data.List.Pairwise
import Mathlib.Logic.Function.Basic
import Mathlib.Order.MinMax
/-!
# GroupStream — a stream that groups of readers are given in order, and acknowledge

Entries are added at the end, under ids that go up.  A group is given what comes after its last delivery; what it was given
is pending for it until it is acknowledged.  A group is past an id that was delivered to it and is not pending.  Where every
group that counts is past what was trimmed (`Keeps`), nothing it still has to be given or to acknowledge is ever gone.
-/
namespace Armature
namespace GroupStream

open List

structure Group (I : Type) where
  lastDelivered : I
  /-- What was delivered and not acknowledged, with how often it was. -/
  pending : List (I × Nat)

structure Stream (I N E : Type) where
  entries : List (I × E)
  lastID : I
  groups : N → Group I

variable {I N E : Type} [LinearOrder I] [DecidableEq N]

namespace Stream

def onGroup (s : Stream I N E) (g : N) (f : Group I → Group I) : Stream I N E :=
  { s with groups := Function.update s.groups g (f (s.groups g)) }

def add (s : Stream I N E) (id : I) (e : E) : Stream I N E := { s with entries := s.entries ++ [(id, e)], lastID := id }

def undelivered (s : Stream I N E) (g : N) : List (I × E) := s.entries.filter fun m => (s.groups g).lastDelivered < m.1

def read (s : Stream I N E) (g : N) (count : Nat) : List (I × E) × Stream I N E :=
  let new := (s.undelivered g).take count
  (new, s.onGroup g fun st =>
    ⟨(new.getLast?.map Prod.fst).getD st.lastDelivered, st.pending ++ new.map fun m => (m.1, 1)⟩)

def pendingIDs (s : Stream I N E) (g : N) : List I := (s.groups g).pending.map Prod.fst

def claim (s : Stream I N E) (g : N) (idle : List I) : List (I × E) × Stream I N E :=
  (s.entries.filter fun m => m.1 ∈ idle ∧ m.1 ∈ s.pendingIDs g, s.onGroup g fun st =>
    ⟨st.lastDelivered, st.pending.filterMap fun p =>
      if p.1 ∈ idle then (if p.1 ∈ s.entries.map Prod.fst then some (p.1, p.2 + 1) else none) else some p⟩)

def ack (s : Stream I N E) (g : N) (id : I) : Stream I N E :=
  s.onGroup g fun st => ⟨st.lastDelivered, st.pending.filter fun p => p.1 ≠ id⟩

def trimMinID (s : Stream I N E) (floor : I) : Stream I N E := { s with entries := s.entries.filter fun m => floor ≤ m.1 }

def trimOldest (s : Stream I N E) (n : Nat) : Stream I N E := { s with entries := s.entries.drop n }

def oldestPending (s : Stream I N E) (g : N) : Option I := (s.pendingIDs g).min?

def deliveries (s : Stream I N E) (g : N) (id : I) : Option Nat :=
  ((s.groups g).pending.find? fun p => p.1 = id).map Prod.snd

end Stream

def Passed (s : Stream I N E) (g : N) (i : I) : Prop := i ≤ (s.groups g).lastDelivered ∧ i ∉ s.pendingIDs g

/-- Of all that was ever added, every group that counts is past what is no longer there. -/
structure Keeps (counts : N → Prop) (log : List (I × E)) (s : Stream I N E) : Prop where
  ordered : log.Pairwise fun m n => m.1 < n.1
  le_last : ∀ m ∈ log, m.1 ≤ s.lastID
  delivered_le : ∀ g, (s.groups g).lastDelivered ≤ s.lastID
  sublist : s.entries.Sublist log
  passed : ∀ m ∈ log, m ∉ s.entries → ∀ g, counts g → Passed s g m.1

def Below (log : List (I × E)) (s : Stream I N E) (g : N) (floor : I) : Prop :=
  floor ≤ s.lastID ∧ ∀ m ∈ log, m.1 < floor → Passed s g m.1

/-- The stream went on: what a group was past it still is, and what came is new. -/
structure Onward (counts : N → Prop) (log log' : List (I × E)) (s s' : Stream I N E) : Prop where
  kept : ∀ m ∈ log, m ∈ log'
  new : ∀ m ∈ log', m ∈ log ∨ s.lastID < m.1
  last_le : s.lastID ≤ s'.lastID
  delivered_le : ∀ g, (s.groups g).lastDelivered ≤ (s'.groups g).lastDelivered
  passed : ∀ g, counts g → ∀ m ∈ log, Passed s g m.1 → Passed s' g m.1

omit [DecidableEq N]

section
variable {counts : N → Prop} {log log' : List (I × E)} {s s' : Stream I N E} {g g' : N} {i j : I} {e : E}

theorem passed_congr (h : s'.groups g = s.groups g) : Passed s' g i ↔ Passed s g i := by
  unfold Passed Stream.pendingIDs
  rw [h]

theorem Onward.refl (counts : N → Prop) (log : List (I × E)) (s : Stream I N E) : Onward counts log log s s :=
  ⟨fun _ hm => hm, fun _ hm => Or.inl hm, le_rfl, fun _ => le_rfl, fun _ _ _ _ hp => hp⟩

theorem Below.onward {floor : I} (h : Below log s g floor) (hg : counts g) (ho : Onward counts log log' s s') :
    Below log' s' g floor := by
  refine ⟨h.1.trans ho.last_le, fun m hm hlt => ?_⟩
  rcases ho.new m hm with hm | hnew
  · exact ho.passed g hg m hm (h.2 m hm hlt)
  · exact absurd (hlt.trans_le h.1) (not_lt.2 hnew.le)

theorem Below.of_le {floor floor' : I} (h : Below log s g floor) (hle : floor' ≤ floor) : Below log s g floor' :=
  ⟨hle.trans h.1, fun m hm hlt => h.2 m hm (hlt.trans_le hle)⟩

theorem Keeps.eq_of_id (h : Keeps counts log s) {m n : I × E} (hm : m ∈ log) (hn : n ∈ log) (heq : m.1 = n.1) : m = n := by
  have hinj : log.Pairwise fun m n => m.1 ≠ n.1 := h.ordered.imp fun hlt => hlt.ne
  by_contra hne
  rcases pairwise_iff_getElem.1 hinj with hget
  obtain ⟨i, hi, rfl⟩ := getElem_of_mem hm
  obtain ⟨j, hj, rfl⟩ := getElem_of_mem hn
  rcases lt_trichotomy i j with hij | rfl | hij
  · exact hget i j hi hj hij heq
  · exact hne rfl
  · exact hget j i hj hi hij heq.symm

/-! ## Adding -/

theorem Keeps.add (h : Keeps counts log s) (hid : s.lastID < i) : Keeps counts (log ++ [(i, e)]) (s.add i e) := by
  refine ⟨pairwise_append.2 ⟨h.ordered, pairwise_singleton _ _, ?_⟩, ?_,
    fun g => (h.delivered_le g).trans hid.le, h.sublist.append (List.Sublist.refl _), ?_⟩
  · intro m hm n hn
    obtain rfl := mem_singleton.1 hn
    exact (h.le_last m hm).trans_lt hid
  · intro m hm
    rcases mem_append.1 hm with hm | hm
    · exact (h.le_last m hm).trans hid.le
    · obtain rfl := mem_singleton.1 hm
      exact le_rfl
  · intro m hm hnot g hg
    rcases mem_append.1 hm with hm | hm
    · exact h.passed m hm (fun hin => hnot (mem_append_left _ hin)) g hg
    · exact absurd (mem_append_right _ hm) hnot

theorem Onward.add (hid : s.lastID < i) : Onward counts log (log ++ [(i, e)]) s (s.add i e) := by
  refine ⟨fun m hm => mem_append_left _ hm, fun m hm => ?_, hid.le, fun _ => le_rfl, fun _ _ _ _ hp => hp⟩
  rcases mem_append.1 hm with hm | hm
  · exact Or.inl hm
  · obtain rfl := mem_singleton.1 hm
    exact Or.inr hid

theorem Keeps.not_passed (h : Keeps counts log s) (hid : s.lastID < i) : ¬ Passed (s.add i e) g i := fun hp =>
  absurd (hp.1.trans (h.delivered_le g)) (not_le.2 hid)

/-! ## Trimming -/

theorem Keeps.trimMinID (h : Keeps counts log s) {floor : I} (hb : ∀ g, counts g → Below log s g floor) :
    Keeps counts log (s.trimMinID floor) := by
  refine ⟨h.ordered, h.le_last, h.delivered_le, filter_sublist.trans h.sublist, fun m hm hnot g hg => ?_⟩
  by_cases hin : m ∈ s.entries
  · have hlt : m.1 < floor := not_le.1 fun hle => hnot (mem_filter.2 ⟨hin, by simpa using hle⟩)
    exact (hb g hg).2 m hm hlt
  · exact h.passed m hm hin g hg

theorem Keeps.trimOldest (h : Keeps counts log s) (hnone : ∀ g, ¬ counts g) (n : Nat) : Keeps counts log (s.trimOldest n) :=
  ⟨h.ordered, h.le_last, h.delivered_le, (drop_sublist n _).trans h.sublist, fun _ _ _ g hg => absurd hg (hnone g)⟩

theorem Onward.of_groups (hlast : s'.lastID = s.lastID) (hgroups : s'.groups = s.groups) : Onward counts log log s s' :=
  ⟨fun _ hm => hm, fun _ hm => Or.inl hm, hlast.ge, fun g => by rw [hgroups],
    fun _ _ _ _ hp => (passed_congr (congrFun hgroups _)).2 hp⟩

/-! ## What a group still needs -/

theorem Keeps.below (h : Keeps counts log s) {floor : I} (hlast : floor ≤ (s.groups g).lastDelivered)
    (hold : ∀ p, s.oldestPending g = some p → floor ≤ p) : Below log s g floor := by
  refine ⟨hlast.trans (h.delivered_le g), fun m _ hlt => ⟨hlt.le.trans hlast, fun hmem => ?_⟩⟩
  unfold Stream.oldestPending at hold
  cases hmin : (s.pendingIDs g).min? with
  | none =>
    rw [List.min?_eq_none_iff.1 hmin] at hmem
    cases hmem
  | some p =>
    have : Std.LawfulOrderMin I := { min_eq_or := min_choice, le_min_iff := fun _ _ _ => le_min_iff }
    exact absurd (hlt.trans_le (hold p hmin)) (not_lt.2 ((List.min?_eq_some_iff.1 hmin).2 m.1 hmem))

theorem oldestPending_eq_none : s.oldestPending g = none ↔ (s.groups g).pending = [] := by
  unfold Stream.oldestPending Stream.pendingIDs
  rw [List.min?_eq_none_iff, map_eq_nil_iff]

end

section
variable [DecidableEq N] {counts : N → Prop} {log log' : List (I × E)} {s s' : Stream I N E} {g g' : N} {i j : I} {e : E}

omit [LinearOrder I] in
@[simp] theorem onGroup_groups_self (f : Group I → Group I) : (s.onGroup g f).groups g = f (s.groups g) :=
  Function.update_self ..

/-! ## Reading -/

theorem read_groups_ne (hne : g ≠ g') (n : Nat) : (s.read g' n).2.groups g = s.groups g := Function.update_of_ne hne ..

theorem mem_read_of_le (h : Keeps counts log s) (n : Nat) {m : I × E} (hm : m ∈ s.entries)
    (hnew : (s.groups g).lastDelivered < m.1) (hle : m.1 ≤ ((s.read g n).2.groups g).lastDelivered) : m ∈ (s.read g n).1 := by
  have hord : (s.undelivered g).Pairwise fun m n => m.1 < n.1 := (h.ordered.sublist h.sublist).sublist filter_sublist
  have hin : m ∈ s.undelivered g := mem_filter.2 ⟨hm, by simpa using hnew⟩
  unfold Stream.read at hle ⊢
  rw [onGroup_groups_self] at hle
  dsimp only at hle ⊢
  cases hlast : ((s.undelivered g).take n).getLast? with
  | none =>
    rw [hlast] at hle
    exact absurd hle (not_le.2 hnew)
  | some last =>
    rw [hlast] at hle
    rw [← take_append_drop n (s.undelivered g)] at hin hord
    rcases mem_append.1 hin with hin | hin
    · exact hin
    · exact absurd ((pairwise_append.1 hord).2.2 last (mem_of_getLast? hlast) m hin) (not_lt.2 hle)

theorem read_delivered_le (n : Nat) (g' : N) : (s.groups g').lastDelivered ≤ ((s.read g n).2.groups g').lastDelivered := by
  by_cases heq : g' = g
  · subst heq
    unfold Stream.read
    rw [onGroup_groups_self]
    dsimp only
    cases hlast : ((s.undelivered g').take n).getLast? with
    | none => exact le_rfl
    | some last =>
      have hmem := mem_of_mem_take (mem_of_getLast? hlast)
      exact le_of_lt (by simpa using (mem_filter.1 hmem).2)
  · exact (congrArg Group.lastDelivered (read_groups_ne heq n)).ge

theorem passed_read (h : Keeps counts log s) (hg : counts g) (n : Nat) {m : I × E} (hm : m ∈ log) :
    Passed (s.read g' n).2 g m.1 ↔ Passed s g m.1 := by
  by_cases heq : g = g'
  · subst heq
    have hpend : (s.read g n).2.pendingIDs g = s.pendingIDs g ++ (s.read g n).1.map Prod.fst := by
      unfold Stream.pendingIDs Stream.read
      rw [onGroup_groups_self, map_append, map_map]
      rfl
    unfold Passed
    rw [hpend, mem_append, not_or]
    constructor
    · rintro ⟨hle, hold, hnew⟩
      refine ⟨not_lt.1 fun hlt => ?_, hold⟩
      by_cases hin : m ∈ s.entries
      · exact hnew (mem_map_of_mem (mem_read_of_le h n hin hlt hle))
      · exact absurd (h.passed m hm hin g hg).1 (not_le.2 hlt)
    · rintro ⟨hle, hold⟩
      refine ⟨hle.trans (read_delivered_le n g), hold, fun hnew => ?_⟩
      obtain ⟨m', hm', hid⟩ := mem_map.1 hnew
      have hlt : (s.groups g).lastDelivered < m'.1 := by
        simpa using (mem_filter.1 (mem_of_mem_take hm')).2
      exact absurd hle (not_le.2 (hid ▸ hlt))
  · exact passed_congr (read_groups_ne heq n)

theorem Keeps.read (h : Keeps counts log s) (g : N) (n : Nat) : Keeps counts log (s.read g n).2 := by
  refine ⟨h.ordered, h.le_last, fun g' => ?_, h.sublist,
    fun m hm hnot g' hg' => (passed_read h hg' n hm).2 (h.passed m hm hnot g' hg')⟩
  by_cases heq : g' = g
  · subst heq
    unfold Stream.read
    rw [onGroup_groups_self]
    dsimp only
    cases hlast : ((s.undelivered g').take n).getLast? with
    | none => exact h.delivered_le g'
    | some last =>
      have hmem := mem_of_mem_take (mem_of_getLast? hlast)
      exact h.le_last last (h.sublist.subset (mem_filter.1 hmem).1)
  · exact (congrArg Group.lastDelivered (read_groups_ne heq n)).le.trans (h.delivered_le g')

theorem Onward.read (h : Keeps counts log s) (g : N) (n : Nat) : Onward counts log log s (s.read g n).2 :=
  ⟨fun _ hm => hm, fun _ hm => Or.inl hm, le_rfl, read_delivered_le n, fun _ hg _ hm hp => (passed_read h hg n hm).2 hp⟩

/-! ## Claiming -/

theorem claim_groups_ne (hne : g ≠ g') (idle : List I) : (s.claim g' idle).2.groups g = s.groups g :=
  Function.update_of_ne hne ..

theorem claim_lastDelivered (idle : List I) (g' : N) :
    ((s.claim g idle).2.groups g').lastDelivered = (s.groups g').lastDelivered := by
  by_cases heq : g' = g
  · subst heq
    unfold Stream.claim
    rw [onGroup_groups_self]
  · exact congrArg Group.lastDelivered (claim_groups_ne heq idle)

theorem mem_pendingIDs_claim (idle : List I) :
    i ∈ (s.claim g idle).2.pendingIDs g ↔ i ∈ s.pendingIDs g ∧ (i ∈ idle → i ∈ s.entries.map Prod.fst) := by
  unfold Stream.pendingIDs Stream.claim
  rw [onGroup_groups_self]
  constructor
  · intro h
    obtain ⟨p, hp, rfl⟩ := mem_map.1 h
    obtain ⟨q, hq, heq⟩ := mem_filterMap.1 hp
    have hin : q.1 ∈ (s.groups g).pending.map Prod.fst := mem_map_of_mem hq
    split_ifs at heq with hidle hthere
    · cases heq
      exact ⟨hin, fun _ => hthere⟩
    · cases heq
      exact ⟨hin, fun hi => absurd hi hidle⟩
  · rintro ⟨h, hthere⟩
    obtain ⟨q, hq, rfl⟩ := mem_map.1 h
    by_cases hidle : q.1 ∈ idle
    · have heq : (if q.1 ∈ idle then (if q.1 ∈ s.entries.map Prod.fst then some (q.1, q.2 + 1) else none) else some q) =
          some (q.1, q.2 + 1) := by rw [if_pos hidle, if_pos (hthere hidle)]
      exact mem_map.2 ⟨(q.1, q.2 + 1), mem_filterMap.2 ⟨q, hq, heq⟩, rfl⟩
    · exact mem_map.2 ⟨q, mem_filterMap.2 ⟨q, hq, if_neg hidle⟩, rfl⟩

theorem passed_claim (h : Keeps counts log s) (hg : counts g) (idle : List I) {m : I × E} (hm : m ∈ log) :
    Passed (s.claim g' idle).2 g m.1 ↔ Passed s g m.1 := by
  by_cases heq : g = g'
  · subst heq
    unfold Passed
    rw [claim_lastDelivered, mem_pendingIDs_claim]
    constructor
    · rintro ⟨hle, hnot⟩
      refine ⟨hle, fun hpend => hnot ⟨hpend, fun _ => ?_⟩⟩
      by_contra hgone
      have hout : m ∉ s.entries := fun hin => hgone (mem_map_of_mem hin)
      exact (h.passed m hm hout g hg).2 hpend
    · rintro ⟨hle, hnot⟩
      exact ⟨hle, fun hpend => hnot hpend.1⟩
  · exact passed_congr (claim_groups_ne heq idle)

theorem Keeps.claim (h : Keeps counts log s) (g : N) (idle : List I) : Keeps counts log (s.claim g idle).2 :=
  ⟨h.ordered, h.le_last, fun g' => (claim_lastDelivered idle g').le.trans (h.delivered_le g'), h.sublist,
    fun m hm hnot g' hg' => (passed_claim h hg' idle hm).2 (h.passed m hm hnot g' hg')⟩

theorem Onward.claim (h : Keeps counts log s) (g : N) (idle : List I) : Onward counts log log s (s.claim g idle).2 :=
  ⟨fun _ hm => hm, fun _ hm => Or.inl hm, le_rfl, fun g' => (claim_lastDelivered idle g').ge,
    fun _ hg _ hm hp => (passed_claim h hg idle hm).2 hp⟩

/-! ## Acknowledging -/

theorem ack_groups_ne (hne : g ≠ g') (j : I) : (s.ack g' j).groups g = s.groups g := Function.update_of_ne hne ..

theorem passed_ack : Passed (s.ack g' j) g i ↔ Passed s g i ∨ (g = g' ∧ i = j ∧ i ≤ (s.groups g).lastDelivered) := by
  by_cases heq : g = g'
  · subst heq
    unfold Passed Stream.pendingIDs Stream.ack
    rw [onGroup_groups_self]
    simp only [mem_map, mem_filter, decide_eq_true_eq, not_exists, not_and]
    constructor
    · rintro ⟨hle, hnot⟩
      by_cases hij : i = j
      · exact Or.inr ⟨trivial, hij, hle⟩
      · exact Or.inl ⟨hle, fun p hp hpi => hnot p ⟨hp, hpi ▸ hij⟩ hpi⟩
    · rintro (⟨hle, hnot⟩ | ⟨-, hij, hle⟩)
      · exact ⟨hle, fun p hp => hnot p hp.1⟩
      · exact ⟨hle, fun p hp hpi => hp.2 (hpi.trans hij)⟩
  · rw [passed_congr (ack_groups_ne heq j)]
    exact ⟨Or.inl, fun h => h.elim id fun h => absurd h.1 heq⟩

theorem ack_lastDelivered (g' : N) : ((s.ack g j).groups g').lastDelivered = (s.groups g').lastDelivered := by
  by_cases heq : g' = g
  · subst heq
    unfold Stream.ack
    rw [onGroup_groups_self]
  · exact congrArg Group.lastDelivered (ack_groups_ne heq j)

theorem Keeps.ack (h : Keeps counts log s) (g : N) (j : I) : Keeps counts log (s.ack g j) :=
  ⟨h.ordered, h.le_last, fun g' => (ack_lastDelivered g').le.trans (h.delivered_le g'), h.sublist,
    fun m hm hnot g' hg' => passed_ack.2 (Or.inl (h.passed m hm hnot g' hg'))⟩

theorem Onward.ack (g : N) (j : I) : Onward counts log log s (s.ack g j) :=
  ⟨fun _ hm => hm, fun _ hm => Or.inl hm, le_rfl, fun g' => (ack_lastDelivered g').ge,
    fun _ _ _ _ hp => passed_ack.2 (Or.inl hp)⟩

end
end GroupStream
end Armature
