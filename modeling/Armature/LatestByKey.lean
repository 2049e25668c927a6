import Mathlib.Data.List.Nodup
import Mathlib.Order.Lattice
/-!
# LatestByKey — the last of each key in a list

A table of the items that came last of their key, filled one item after another: an item takes the place of the one that is
there if it is strictly later.  What the table holds does not depend on the order exactly when no two items tie for the last
of a key (`perm_of_untied`, `mem_latest_cons`).
-/
namespace Armature
namespace LatestByKey

open List

section
variable {α κ τ : Type} [LinearOrder τ] (key : α → κ) (time : α → τ)

def put [DecidableEq κ] : List α → α → List α
  | [], x => [x]
  | y :: ys, x => if key y = key x then (if time y < time x then x else y) :: ys else y :: put ys x

def latest [DecidableEq κ] (l : List α) : List α := l.foldl (put key time) []

def IsLast (l : List α) (x : α) : Prop := x ∈ l ∧ ∀ y ∈ l, key y = key x → time y ≤ time x

def Untied (l : List α) : Prop := ∀ x y, IsLast key time l x → IsLast key time l y → key x = key y → x = y

/-- A table that holds one item of each key in a list, the last. -/
structure Holds (l m : List α) : Prop where
  keys : (m.map key).Nodup
  last : ∀ y ∈ m, IsLast key time l y
  all : ∀ x ∈ l, ∃ y ∈ m, key y = key x

end

section
variable {α κ τ : Type} [LinearOrder τ] {key : α → κ} {time : α → τ}

theorem IsLast.perm {l l' : List α} (h : l'.Perm l) {x : α} : IsLast key time l' x ↔ IsLast key time l x := by
  unfold IsLast
  simp [h.mem_iff]

theorem Holds.perm {l l' m : List α} (h : l'.Perm l) : Holds key time l' m ↔ Holds key time l m := by
  constructor
  · rintro ⟨hkeys, hlast, hall⟩
    exact ⟨hkeys, fun y hy => (IsLast.perm h).1 (hlast y hy), fun x hx => hall x (h.mem_iff.2 hx)⟩
  · rintro ⟨hkeys, hlast, hall⟩
    exact ⟨hkeys, fun y hy => (IsLast.perm h).2 (hlast y hy), fun x hx => hall x (h.mem_iff.1 hx)⟩

theorem Holds.perm_table {l m m' : List α} (hp : m'.Perm m) (h : Holds key time l m) : Holds key time l m' where
  keys := ((hp.map key).nodup_iff).2 h.keys
  last y hy := h.last y (hp.mem_iff.1 hy)
  all x hx :=
    let ⟨y, hy, hk⟩ := h.all x hx
    ⟨y, hp.mem_iff.2 hy, hk⟩

theorem Holds.mem_iff {l m : List α} (h : Holds key time l m) (hu : Untied key time l) {x : α} :
    x ∈ m ↔ IsLast key time l x := by
  constructor
  · exact h.last x
  · intro hx
    obtain ⟨y, hy, hk⟩ := h.all x hx.1
    exact hu y x (h.last y hy) hx hk ▸ hy

theorem perm_of_untied {l m m' : List α} (hu : Untied key time l) (h : Holds key time l m) (h' : Holds key time l m') :
    m.Perm m' :=
  (perm_ext_iff_of_nodup h.keys.of_map h'.keys.of_map).2 fun _ => (h.mem_iff hu).trans (h'.mem_iff hu).symm

variable [DecidableEq κ]

/-! ## One item -/

theorem mem_put {x z : α} : ∀ {m : List α}, z ∈ put key time m x → z ∈ m ∨ z = x
  | [], h => Or.inr (mem_singleton.1 h)
  | y :: ys, h => by
    unfold put at h
    split at h
    · rcases mem_cons.1 h with rfl | h
      · split
        · exact Or.inr rfl
        · exact Or.inl mem_cons_self
      · exact Or.inl (mem_cons_of_mem _ h)
    · rcases mem_cons.1 h with rfl | h
      · exact Or.inl mem_cons_self
      · exact (mem_put h).imp_left (mem_cons_of_mem _)

theorem keys_put (x : α) : ∀ m : List α,
    (put key time m x).map key = if key x ∈ m.map key then m.map key else m.map key ++ [key x]
  | [] => by simp [put]
  | y :: ys => by
    unfold put
    by_cases hk : key y = key x
    · rw [if_pos hk]
      have hhead : key (if time y < time x then x else y) = key y := by
        split
        · exact hk.symm
        · rfl
      simp [hhead, hk]
    · have hk' : ¬ key x = key y := fun he => hk he.symm
      rw [if_neg hk, map_cons, keys_put x ys]
      by_cases hmem : key x ∈ ys.map key
      · have hin : key x ∈ (y :: ys).map key := mem_cons_of_mem _ hmem
        rw [if_pos hmem, if_pos hin, map_cons]
      · have hnot : key x ∉ (y :: ys).map key := by
          rw [map_cons, mem_cons]
          exact not_or.2 ⟨hk', hmem⟩
        rw [if_neg hmem, if_neg hnot, map_cons, cons_append]

theorem nodup_put {m : List α} (h : (m.map key).Nodup) (x : α) : ((put key time m x).map key).Nodup := by
  rw [keys_put]
  split
  · exact h
  · rename_i hnew
    exact h.append (nodup_singleton _) (disjoint_singleton.2 hnew)

theorem put_bound {x z : α} : ∀ {m : List α}, (m.map key).Nodup → z ∈ put key time m x → key z = key x → time x ≤ time z
  | [], _, h, _ => by rw [mem_singleton.1 h]
  | y :: ys, hm, h, hz => by
    rw [map_cons, nodup_cons] at hm
    unfold put at h
    split at h
    · rename_i hk
      rcases mem_cons.1 h with rfl | h
      · split
        · exact le_refl _
        · rename_i hlt
          exact not_lt.1 hlt
      · exact absurd (mem_map.2 ⟨z, h, hz.trans hk.symm⟩) hm.1
    · rename_i hk
      rcases mem_cons.1 h with rfl | h
      · exact absurd hz hk
      · exact put_bound hm.2 h hz

theorem mem_put_of_mem {x z : α} (h : key x = key z → time x ≤ time z) : ∀ {m : List α}, z ∈ m → z ∈ put key time m x
  | y :: ys, hz => by
    unfold put
    rcases mem_cons.1 hz with rfl | hz
    · split
      · rename_i hk
        rw [if_neg (not_lt.2 (h hk.symm))]
        exact mem_cons_self
      · exact mem_cons_self
    · split
      · exact mem_cons_of_mem _ hz
      · exact mem_cons_of_mem _ (mem_put_of_mem h hz)

theorem exists_put (m : List α) {x : α} {k : κ} (h : k ∈ m.map key ∨ k = key x) : ∃ y ∈ put key time m x, key y = k := by
  have hk : k ∈ (put key time m x).map key := by
    rw [keys_put]
    split
    · rename_i hmem
      rcases h with h | rfl
      · exact h
      · exact hmem
    · exact mem_append.2 (h.imp_right mem_singleton.2)
  exact mem_map.1 hk

theorem Holds.put {l m : List α} (h : Holds key time l m) (x : α) : Holds key time (l ++ [x]) (put key time m x) := by
  refine ⟨nodup_put h.keys x, fun y hy => ⟨?_, fun z hz hk => ?_⟩, fun z hz => ?_⟩
  · rcases mem_put hy with hy | rfl
    · exact mem_append_left _ (h.last y hy).1
    · exact mem_append_right _ (mem_singleton_self _)
  · rcases mem_append.1 hz with hz' | hz'
    · rcases mem_put hy with hy' | rfl
      · exact (h.last y hy').2 z hz' hk
      · -- the one that was there for the key stays unless the item is later
        obtain ⟨w, hw, hwk⟩ := h.all z hz'
        have hzw := (h.last w hw).2 z hz' hwk.symm
        by_cases hle : time w ≤ time y
        · exact le_trans hzw hle
        · have hstays : w ∈ LatestByKey.put key time m y := mem_put_of_mem (fun _ => le_of_lt (not_le.1 hle)) hw
          have heq : w = y := inj_on_of_nodup_map (nodup_put h.keys y) hstays hy (hwk.trans hk)
          exact absurd (heq ▸ le_refl _) hle
    · obtain rfl := mem_singleton.1 hz'
      exact put_bound h.keys hy hk.symm
  · refine exists_put m ?_
    rcases mem_append.1 hz with hz | hz
    · obtain ⟨y, hy, hk⟩ := h.all z hz
      exact Or.inl (mem_map.2 ⟨y, hy, hk⟩)
    · exact Or.inr (by rw [mem_singleton.1 hz])

/-! ## All items -/

theorem Holds.foldl : ∀ (rest : List α) {l m : List α}, Holds key time l m →
    Holds key time (l ++ rest) (rest.foldl (LatestByKey.put key time) m)
  | [], l, m, h => by rwa [append_nil]
  | x :: rest, l, m, h => by
    have := Holds.foldl rest (h.put x)
    rwa [append_assoc, singleton_append] at this

theorem holds_latest (l : List α) : Holds key time l (latest key time l) :=
  Holds.foldl l (l := []) ⟨nodup_nil, nofun, nofun⟩

theorem mem_foldl_put {x : α} : ∀ (rest : List α) {m : List α}, x ∈ m → (∀ y ∈ rest, key y = key x → time y ≤ time x) →
    x ∈ rest.foldl (put key time) m
  | [], _, h, _ => h
  | y :: rest, m, h, hr =>
    have hstays : x ∈ put key time m y := mem_put_of_mem (hr y mem_cons_self) h
    mem_foldl_put rest hstays fun z hz => hr z (mem_cons_of_mem _ hz)

theorem mem_latest_cons {l : List α} {x : α} (h : IsLast key time (x :: l) x) : x ∈ latest key time (x :: l) :=
  mem_foldl_put l (mem_singleton_self x) fun y hy => h.2 y (mem_cons_of_mem _ hy)

end

end LatestByKey
end Armature
