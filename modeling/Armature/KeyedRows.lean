import Mathlib.Data.List.Nodup
import Mathlib.Data.List.Perm.Basic
/-!
# KeyedRows — tables as lists of rows with a key

`update` edits the rows of a key, which is one row at most where keys are distinct.  Up to order, an update takes the row
out and puts the edited one in.
-/
namespace Armature
namespace Rows

open List

variable {α β κ : Type} [DecidableEq κ] {key : α → κ}

def update (key : α → κ) (k : κ) (f : α → α) (rows : List α) : List α := rows.map (fun r => if key r = k then f r else r)

theorem length_update (k : κ) (f : α → α) (rows : List α) : (update key k f rows).length = rows.length := length_map _

theorem mem_update {k : κ} {f : α → α} {rows : List α} {s : α} : s ∈ update key k f rows ↔
    ∃ r ∈ rows, (key r = k ∧ s = f r) ∨ (key r ≠ k ∧ s = r) := by
  unfold update
  rw [mem_map]
  constructor
  · rintro ⟨r, hr, rfl⟩
    by_cases hk : key r = k
    · exact ⟨r, hr, .inl ⟨hk, if_pos hk⟩⟩
    · exact ⟨r, hr, .inr ⟨hk, if_neg hk⟩⟩
  · rintro ⟨r, hr, ⟨hk, rfl⟩ | ⟨hk, rfl⟩⟩
    · exact ⟨r, hr, if_pos hk⟩
    · exact ⟨s, hr, if_neg hk⟩

theorem keys_update {k : κ} {f : α → α} (hf : ∀ r, key (f r) = key r) (rows : List α) :
    (update key k f rows).map key = rows.map key := by
  unfold update
  rw [map_map]
  refine map_congr_left fun r _ => ?_
  dsimp only [Function.comp]
  split
  · exact hf r
  · rfl

theorem filter_update {k : κ} {f : α → α} {p : α → Bool} (hp : ∀ r, p (f r) = p r) (rows : List α) :
    (update key k f rows).filter p = update key k f (rows.filter p) := by
  unfold update
  rw [filter_map]
  congr 1
  refine filter_congr fun r _ => ?_
  dsimp only [Function.comp]
  split
  · exact hp r
  · rfl

theorem perm_of_mem : ∀ {rows : List α} {r : α}, (rows.map key).Nodup → r ∈ rows →
    rows.Perm (r :: rows.filter (fun s => key s ≠ key r))
  | s :: rows, r, h, hr => by
    rw [map_cons, nodup_cons] at h
    rcases mem_cons.1 hr with rfl | hr
    · have hrest : rows.filter (fun s => key s ≠ key r) = rows := by
        refine filter_eq_self.2 fun s hs => decide_eq_true fun he => h.1 ?_
        exact he ▸ mem_map_of_mem hs
      rw [filter_cons_of_neg (by rw [decide_eq_true_iff]; exact fun hn => hn rfl), hrest]
    · have hne : key s ≠ key r := fun he => h.1 (he ▸ mem_map_of_mem hr)
      have hkeep : decide (key s ≠ key r) = true := decide_eq_true hne
      rw [filter_cons, if_pos hkeep]
      exact ((perm_of_mem h.2 hr).cons s).trans (List.Perm.swap _ _ _)

theorem update_perm {rows : List α} {r : α} {f : α → α} (h : (rows.map key).Nodup) (hr : r ∈ rows) :
    (update key (key r) f rows).Perm (f r :: rows.filter (fun s => key s ≠ key r)) := by
  refine ((perm_of_mem h hr).map _).trans ?_
  rw [map_cons, if_pos rfl]
  refine List.Perm.of_eq (congrArg _ ?_)
  refine (map_congr_left fun s hs => ?_).trans (map_id _)
  exact if_neg (of_decide_eq_true (mem_filter.1 hs).2)

/-! ## Writing a list of inputs -/

section
variable {ι : Type} {target : ι → Option Nat} {edit : ι → α → α} {new : ι → Nat → α} {key : α → Nat}

def upsert (key : α → Nat) (target : ι → Option Nat) (edit : ι → α → α) (new : ι → Nat → α) (acc : List α × Nat) (x : ι) :
    List α × Nat :=
  match target x with
  | some k => (update key k (edit x) acc.1, acc.2)
  | none => (acc.1 ++ [new x acc.2], acc.2 + 1)

theorem length_upserts : ∀ (xs : List ι) (acc : List α × Nat), (xs.foldl (upsert key target edit new) acc).1.length =
    acc.1.length + xs.countP (fun x => (target x).isNone)
  | [], _ => rfl
  | x :: xs, acc => by
    rw [foldl_cons, length_upserts xs, countP_cons]
    unfold upsert
    cases target x with
    | some => simp only [length_update, Option.isNone_some, Bool.false_eq_true, if_false, Nat.add_zero]
    | none =>
      simp only [length_append, length_singleton, Option.isNone_none, if_true]
      omega

theorem next_upserts : ∀ (xs : List ι) (acc : List α × Nat), acc.2 ≤ (xs.foldl (upsert key target edit new) acc).2
  | [], _ => Nat.le_refl _
  | x :: xs, acc => by
    refine Nat.le_trans ?_ (next_upserts xs (upsert key target edit new acc x))
    unfold upsert
    cases target x with
    | some => exact Nat.le_refl _
    | none => exact Nat.le_succ _

theorem filter_upserts {p : α → Bool} (hedit : ∀ x r, p (edit x r) = p r) (hnew : ∀ x n, p (new x n) = true) :
    ∀ (xs : List ι) (acc : List α × Nat), (xs.foldl (upsert key target edit new) acc).1.filter p =
      (xs.foldl (upsert key target edit new) (acc.1.filter p, acc.2)).1
  | [], _ => rfl
  | x :: xs, acc => by
    rw [foldl_cons, foldl_cons, filter_upserts hedit hnew xs]
    unfold upsert
    cases target x with
    | some => rw [filter_update (hedit x)]
    | none => simp only [filter_append, filter_cons, hnew, if_true, filter_nil]

theorem remains {r : α} : ∀ (xs : List ι) {acc : List α × Nat}, key r ∉ xs.filterMap target → r ∈ acc.1 →
    r ∈ (xs.foldl (upsert key target edit new) acc).1
  | [], _, _, hr => hr
  | x :: xs, acc, hkey, hr => by
    rw [foldl_cons]
    cases hx : target x with
    | some =>
      rw [filterMap_cons_some hx, mem_cons, not_or] at hkey
      refine remains xs hkey.2 ?_
      unfold upsert
      rw [hx]
      exact mem_update.2 ⟨r, hr, .inr ⟨hkey.1, rfl⟩⟩
    | none =>
      rw [filterMap_cons_none hx] at hkey
      refine remains xs hkey ?_
      unfold upsert
      rw [hx]
      exact mem_append_left _ hr

theorem kept_edited {P : α → Prop} (hedit : ∀ x r, P r → P (edit x r)) : ∀ (xs : List ι) {acc : List α × Nat},
    (∃ r ∈ acc.1, P r) → ∃ r ∈ (xs.foldl (upsert key target edit new) acc).1, P r
  | [], _, h => h
  | x :: xs, acc, ⟨r, hr, hP⟩ => by
    rw [foldl_cons]
    refine kept_edited hedit xs ?_
    unfold upsert
    cases target x with
    | none => exact ⟨r, mem_append_left _ hr, hP⟩
    | some k =>
      by_cases hk : key r = k
      · exact ⟨edit x r, mem_update.2 ⟨r, hr, .inl ⟨hk, rfl⟩⟩, hedit x r hP⟩
      · exact ⟨r, mem_update.2 ⟨r, hr, .inr ⟨hk, rfl⟩⟩, hP⟩

/-- Keys stay distinct and below the next one. -/
structure Fresh (key : α → Nat) (acc : List α × Nat) : Prop where
  nodup : (acc.1.map key).Nodup
  below : ∀ r ∈ acc.1, key r < acc.2

theorem Fresh.upsert (hedit : ∀ x r, key (edit x r) = key r) (hnew : ∀ x n, key (new x n) = n) {acc : List α × Nat}
    (h : Fresh key acc) (x : ι) : Fresh key (upsert key target edit new acc x) := by
  unfold Rows.upsert
  cases target x with
  | some =>
    refine ⟨by rw [keys_update (hedit x)]; exact h.nodup, fun r hr => ?_⟩
    obtain ⟨s, hs, ⟨_, rfl⟩ | ⟨_, rfl⟩⟩ := mem_update.1 hr
    · rw [hedit]
      exact h.below s hs
    · exact h.below r hs
  | none =>
    constructor
    · rw [map_append, map_singleton, hnew, nodup_append']
      refine ⟨h.nodup, nodup_singleton _, ?_⟩
      intro k hk hk'
      obtain ⟨r, hr, rfl⟩ := mem_map.1 hk
      have := h.below r hr
      rw [mem_singleton.1 hk'] at this
      exact Nat.lt_irrefl _ this
    · intro r hr
      rcases mem_append.1 hr with hr | hr
      · exact Nat.lt_succ_of_lt (h.below r hr)
      · rw [mem_singleton.1 hr, hnew]
        exact Nat.lt_succ_self _

theorem Fresh.upserts (hedit : ∀ x r, key (edit x r) = key r) (hnew : ∀ x n, key (new x n) = n) :
    ∀ (xs : List ι) {acc : List α × Nat}, Fresh key acc → Fresh key (xs.foldl (Rows.upsert key target edit new) acc)
  | [], _, h => h
  | x :: xs, _, h => Fresh.upserts hedit hnew xs (h.upsert hedit hnew x)

theorem upserts_perm {view : α → β} {wanted : ι → β} (hedit : ∀ x r, key (edit x r) = key r)
    (hnew : ∀ x n, key (new x n) = n) :
    ∀ (xs : List ι) {acc : List α × Nat}, Fresh key acc → (xs.filterMap target).Nodup →
      (∀ x ∈ xs, ∀ n, view (new x n) = wanted x) →
      (∀ x ∈ xs, ∀ k, target x = some k → ∃ r ∈ acc.1, key r = k ∧ view (edit x r) = wanted x) →
        ((xs.foldl (upsert key target edit new) acc).1.map view).Perm
          ((acc.1.filter (fun r => key r ∉ xs.filterMap target)).map view ++ xs.map wanted)
  | [], acc, _, _, _, _ => by
    have hall : acc.1.filter (fun r => key r ∉ ([] : List ι).filterMap target) = acc.1 :=
      filter_eq_self.2 fun r _ => decide_eq_true not_mem_nil
    rw [hall, map_nil, append_nil]
    exact List.Perm.refl _
  | x :: xs, acc, h, hnodup, hwanted, htarget => by
    have hlater := fun y hy => hwanted y (mem_cons_of_mem x hy)
    have hfresh : Fresh key (upsert key target edit new acc x) := h.upsert hedit hnew x
    rw [foldl_cons, map_cons]
    cases hx : target x with
    | none =>
      rw [filterMap_cons_none hx] at hnodup ⊢
      have hacc : upsert key target edit new acc x = (acc.1 ++ [new x acc.2], acc.2 + 1) := by
        unfold upsert
        rw [hx]
      rw [hacc] at hfresh ⊢
      refine (upserts_perm hedit hnew xs hfresh hnodup hlater fun y hy k hk => ?_).trans ?_
      · obtain ⟨r, hr, hrest⟩ := htarget y (mem_cons_of_mem x hy) k hk
        exact ⟨r, mem_append_left _ hr, hrest⟩
      · have hin : acc.2 ∉ xs.filterMap target := by
          intro hin
          obtain ⟨y, hy, hk⟩ := mem_filterMap.1 hin
          obtain ⟨r, hr, hkey, _⟩ := htarget y (mem_cons_of_mem x hy) _ hk
          exact Nat.lt_irrefl _ (hkey ▸ h.below r hr)
        have hlast : decide (key (new x acc.2) ∉ xs.filterMap target) = true := decide_eq_true (by rw [hnew]; exact hin)
        rw [filter_append, filter_cons, if_pos hlast, filter_nil, map_append, map_singleton, hwanted x mem_cons_self,
          append_assoc]
        exact List.Perm.refl _
    | some k =>
      rw [filterMap_cons_some hx, nodup_cons] at hnodup
      rw [filterMap_cons_some hx]
      obtain ⟨r, hr, rfl, hview⟩ := htarget x mem_cons_self k hx
      have hacc : upsert key target edit new acc x = (update key (key r) (edit x) acc.1, acc.2) := by
        unfold upsert
        rw [hx]
      rw [hacc] at hfresh ⊢
      refine (upserts_perm hedit hnew xs hfresh hnodup.2 hlater fun y hy k hk => ?_).trans ?_
      · obtain ⟨s, hs, hkey, hrest⟩ := htarget y (mem_cons_of_mem x hy) k hk
        refine ⟨s, mem_update.2 ⟨s, hs, .inr ⟨?_, rfl⟩⟩, hkey, hrest⟩
        rintro he
        exact hnodup.1 (mem_filterMap.2 ⟨y, hy, by rw [hk, ← hkey, he]⟩)
      · have hperm := ((update_perm h.nodup hr (f := edit x)).filter (fun s => key s ∉ xs.filterMap target)).map view
        have hhead : decide (key (edit x r) ∉ xs.filterMap target) = true := decide_eq_true (by rw [hedit]; exact hnodup.1)
        rw [filter_cons, if_pos hhead, map_cons, hview, filter_filter] at hperm
        refine (hperm.append_right _).trans ?_
        have hrest : acc.1.filter (fun s => decide (key s ∉ xs.filterMap target) && decide (key s ≠ key r)) =
            acc.1.filter (fun s => key s ∉ key r :: xs.filterMap target) := by
          refine filter_congr fun s _ => ?_
          rw [Bool.eq_iff_iff, Bool.and_eq_true, decide_eq_true_iff, decide_eq_true_iff, decide_eq_true_iff, mem_cons, not_or,
            And.comm]
        rw [hrest]
        exact perm_middle.symm

end

end Rows
end Armature
