import Mathlib.Data.List.Count
import Mathlib.Data.List.Sort
/-!
# RingBuffer — the last readings of a run, and the lower median of them

A buffer that grows to its size and then writes over its oldest entry holds the latest entries pushed (`recent_pushAll`).  The
lower median of a list is over a bound just when more than half of the list is (`lt_lowerMedian_iff`).
-/
namespace Armature

open List

/-! ## A ring -/

structure Ring (α : Type*) where
  samples : List α
  next : Nat
  size : Nat
  pos : 0 < size
  le : samples.length ≤ size
  next_lt : next < size
  /-- Until it is full, entries go at the end. -/
  filling : samples.length < size → next = samples.length

namespace Ring

variable {α : Type*}

def empty (size : Nat) (h : 0 < size) : Ring α where
  samples := []
  next := 0
  size := size
  pos := h
  le := Nat.zero_le size
  next_lt := h
  filling _ := rfl

def push (r : Ring α) (x : α) : Ring α where
  samples := if r.samples.length < r.size then r.samples ++ [x] else r.samples.set r.next x
  next := (r.next + 1) % r.size
  size := r.size
  pos := r.pos
  le := by
    have hle := r.le
    split
    · rw [length_append, length_singleton]
      omega
    · rw [length_set]
      omega
  next_lt := Nat.mod_lt _ r.pos
  filling := by
    intro h
    split at h
    · rename_i hlt
      rw [length_append, length_singleton] at h
      rw [if_pos hlt, r.filling hlt, length_append, length_singleton, Nat.mod_eq_of_lt h]
    · rename_i hfull
      rw [length_set] at h
      exact absurd h hfull

@[simp] theorem push_size (r : Ring α) (x : α) : (r.push x).size = r.size := rfl

def recent (r : Ring α) : List α := (r.samples.drop r.next ++ r.samples.take r.next).reverse

theorem recent_perm (r : Ring α) : r.recent.Perm r.samples := by
  refine (reverse_perm _).trans (perm_append_comm.trans ?_)
  rw [take_append_drop]

theorem recent_length (r : Ring α) : r.recent.length = r.samples.length := r.recent_perm.length_eq

theorem recent_filling {r : Ring α} (h : r.samples.length < r.size) : r.recent = r.samples.reverse := by
  rw [recent, r.filling h, drop_length, take_length, nil_append]

theorem recent_start {r : Ring α} (h : r.next = 0) : r.recent = r.samples.reverse := by
  rw [recent, h, drop_zero, take_zero, append_nil]

theorem recent_push_filling (r : Ring α) (x : α) (hlt : r.samples.length < r.size) : (r.push x).recent = x :: r.recent := by
  have hle := r.le
  have hsamples : (r.push x).samples = r.samples ++ [x] := if_pos hlt
  have hpushed : (r.push x).recent = (r.push x).samples.reverse := by
    by_cases hfull : r.samples.length + 1 < r.size
    · exact recent_filling (by rw [hsamples, length_append]; exact hfull)
    · refine recent_start ?_
      have hsize : r.samples.length + 1 = r.size := by omega
      change (r.next + 1) % r.size = 0
      rw [r.filling hlt, hsize, Nat.mod_self]
  rw [hpushed, hsamples, recent_filling hlt, reverse_append]
  rfl

theorem recent_push_full (r : Ring α) (x : α) (hlen : r.next < r.samples.length) (hfull : ¬ r.samples.length < r.size) :
    (r.push x).recent = x :: ((r.samples.take r.next).reverse ++ (r.samples.drop (r.next + 1)).reverse) := by
  have hle := r.le
  have hsamples : (r.push x).samples = r.samples.set r.next x := if_neg hfull
  have htake : (r.samples.take r.next).length = r.next := by
    rw [length_take]
    omega
  rw [recent, hsamples, set_eq_take_append_cons_drop, if_pos hlen]
  change ((_ : List α).drop ((r.next + 1) % r.size) ++ (_ : List α).take ((r.next + 1) % r.size)).reverse = _
  by_cases hlast : r.next + 1 < r.size
  · have hfront : r.samples.take r.next ++ x :: r.samples.drop (r.next + 1) =
        (r.samples.take r.next ++ [x]) ++ r.samples.drop (r.next + 1) := by simp
    have hlen' : (r.samples.take r.next ++ [x]).length = r.next + 1 := by
      rw [length_append, htake, length_singleton]
    rw [Nat.mod_eq_of_lt hlast, hfront, drop_left' hlen', take_left' hlen']
    simp
  · have hsize : r.next + 1 = r.size := by omega
    have hend : r.samples.drop (r.next + 1) = [] := drop_of_length_le (by omega)
    rw [hsize, Nat.mod_self, ← hsize, hend]
    simp

theorem recent_push (r : Ring α) (x : α) : (r.push x).recent = (x :: r.recent).take r.size := by
  have hle := r.le
  have hnext := r.next_lt
  by_cases hlt : r.samples.length < r.size
  · rw [recent_push_filling r x hlt, take_of_length_le]
    rw [length_cons, recent_length]
    omega
  · have hlen : r.next < r.samples.length := by omega
    -- the entry at `next` is the oldest
    have hold : r.recent = (r.samples.take r.next).reverse ++ (r.samples.drop (r.next + 1)).reverse ++ [r.samples[r.next]] := by
      rw [recent, drop_eq_getElem_cons hlen, reverse_append, reverse_cons, append_assoc]
    obtain ⟨n, hn⟩ : ∃ n, r.size = n + 1 := ⟨r.size - 1, by omega⟩
    rw [recent_push_full r x hlen hlt, hn, take_succ_cons, hold, take_left']
    rw [length_append, length_reverse, length_reverse, length_take, length_drop]
    omega

def pushAll (r : Ring α) (xs : List α) : Ring α := xs.foldl push r

theorem recent_pushAll_from : ∀ (xs : List α) (r : Ring α), (r.pushAll xs).recent = (xs.reverse ++ r.recent).take r.size
  | [], r => by
    have hle := r.le
    rw [reverse_nil, nil_append, take_of_length_le (by rw [recent_length]; exact hle)]
    rfl
  | x :: xs, r => by
    have ih := recent_pushAll_from xs (r.push x)
    rw [push_size, recent_push] at ih
    rw [pushAll, foldl_cons, ← pushAll, ih, reverse_cons, append_assoc, singleton_append]
    rw [take_append, take_append, take_take, Nat.min_eq_left (Nat.sub_le _ _)]

theorem recent_pushAll (xs : List α) (size : Nat) (h : 0 < size) : ((empty size h).pushAll xs).recent = xs.reverse.take size := by
  rw [recent_pushAll_from]
  simp [recent, empty]

end Ring

/-! ## The lower median -/

section
variable {α : Type*} [LinearOrder α]

def lowerMedian (l : List α) (h : l ≠ []) : α :=
  (l.insertionSort (· ≤ ·)).get ⟨(l.length - 1) / 2, by
    have hpos := length_pos_of_ne_nil h
    rw [length_insertionSort]
    omega⟩

theorem lt_getElem_iff {s : List α} (hs : s.Pairwise (· ≤ ·)) {k : Nat} (hk : k < s.length) (a : α) :
    a < s[k] ↔ s.length - k ≤ s.countP (a < ·) := by
  have hsplit : s.countP (a < ·) = (s.take k).countP (a < ·) + (s.drop k).countP (a < ·) := by
    rw [← countP_append, take_append_drop]
  have hget := fun i j (hi : i < s.length) (hj : j < s.length) (hij : i < j) => pairwise_iff_getElem.1 hs i j hi hj hij
  constructor
  · intro hlt
    have hall : (s.drop k).countP (a < ·) = (s.drop k).length := by
      refine countP_eq_length.2 fun x hx => ?_
      obtain ⟨j, hj, rfl⟩ := getElem_of_mem hx
      rw [length_drop] at hj
      rw [getElem_drop, decide_eq_true_iff]
      rcases Nat.eq_zero_or_pos j with rfl | hpos
      · exact hlt
      · exact hlt.trans_le (hget k (k + j) hk (by omega) (by omega))
    rw [hsplit, hall, length_drop]
    omega
  · intro hcount
    by_contra hle
    -- up to the entry nothing is over the bound
    have hnone : (s.take (k + 1)).countP (a < ·) = 0 := by
      refine countP_eq_zero.2 fun x hx => ?_
      obtain ⟨j, hj, rfl⟩ := getElem_of_mem hx
      rw [length_take] at hj
      rw [getElem_take, decide_eq_true_iff, not_lt]
      rcases Nat.lt_or_ge j k with hjk | hjk
      · exact (hget j k (by omega) hk hjk).trans (not_lt.1 hle)
      · have hj' : j = k := by omega
        subst hj'
        exact not_lt.1 hle
    have hrest : s.countP (a < ·) = (s.take (k + 1)).countP (a < ·) + (s.drop (k + 1)).countP (a < ·) := by
      rw [← countP_append, take_append_drop]
    have hlen : (s.drop (k + 1)).countP (a < ·) ≤ (s.drop (k + 1)).length := countP_le_length
    rw [length_drop] at hlen
    omega

theorem lt_lowerMedian_iff (l : List α) (h : l ≠ []) (a : α) : a < lowerMedian l h ↔ l.length < 2 * l.countP (a < ·) := by
  have hpos := length_pos_of_ne_nil h
  have hlen := length_insertionSort (· ≤ ·) l
  have hcount := (perm_insertionSort (· ≤ ·) l).countP_eq (fun x => decide (a < x))
  have hk : (l.length - 1) / 2 < (l.insertionSort (· ≤ ·)).length := by omega
  rw [lowerMedian, get_eq_getElem, lt_getElem_iff (pairwise_insertionSort (· ≤ ·) l) hk, hlen, hcount]
  omega

end

end Armature
