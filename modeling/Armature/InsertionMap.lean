import Mathlib.Data.List.Nodup
/-!
# InsertionMap — a map that keeps its entries in the order of insertion

A key that is set again keeps its place.  Setting entries of distinct keys lists them (`setAll_eq`), and pushing the items of
a list, each to the list under its key, groups them (`get_pushAll`).
-/
namespace Armature
namespace InsertionMap

open List

variable {α β γ : Type} [DecidableEq α]

def get : List (α × β) → α → Option β
  | [], _ => none
  | (j, v) :: m, k => if j = k then some v else get m k

def set : List (α × β) → α → β → List (α × β)
  | [], k, v => [(k, v)]
  | (j, u) :: m, k, v => if j = k then (j, v) :: m else (j, u) :: set m k v

def setAll (m entries : List (α × β)) : List (α × β) := entries.foldl (fun m entry => set m entry.1 entry.2) m

def push (m : List (α × List β)) (k : α) (x : β) : List (α × List β) := set m k ((get m k).getD [] ++ [x])

def pushAll (key : γ → α) (item : γ → β) (m : List (α × List β)) (l : List γ) : List (α × List β) :=
  l.foldl (fun m x => push m (key x) (item x)) m

theorem get_set (j k : α) (v : β) : ∀ m : List (α × β), get (set m k v) j = if k = j then some v else get m j
  | [] => rfl
  | (i, u) :: m => by
    have ih := get_set j k v m
    rw [set]
    by_cases hik : i = k
    · subst hik
      rw [if_pos rfl, get, get]
      split <;> rfl
    · rw [if_neg hik, get, get, ih]
      by_cases hij : i = j
      · subst hij
        rw [if_pos rfl, if_neg (Ne.symm hik), if_pos rfl]
      · rw [if_neg hij, if_neg hij]

theorem keys_set (k : α) (v : β) : ∀ m : List (α × β),
    (set m k v).map Prod.fst = if k ∈ m.map Prod.fst then m.map Prod.fst else m.map Prod.fst ++ [k]
  | [] => rfl
  | (i, u) :: m => by
    have ih := keys_set k v m
    rw [set]
    by_cases hik : i = k
    · subst hik
      rw [if_pos rfl, map_cons, map_cons, if_pos mem_cons_self]
    · rw [if_neg hik, map_cons, map_cons, ih]
      have hmem : k ∈ i :: m.map Prod.fst ↔ k ∈ m.map Prod.fst := by
        rw [mem_cons, or_iff_right (Ne.symm hik)]
      by_cases hk : k ∈ m.map Prod.fst
      · rw [if_pos hk, if_pos (hmem.2 hk)]
      · rw [if_neg hk, if_neg fun h => hk (hmem.1 h)]
        rfl

theorem nodup_set {m : List (α × β)} (h : (m.map Prod.fst).Nodup) (k : α) (v : β) : ((set m k v).map Prod.fst).Nodup := by
  rw [keys_set]
  split
  · exact h
  · rename_i hnew
    exact h.append (nodup_singleton k) (disjoint_singleton.2 hnew)

theorem mem_keys_set {m : List (α × β)} {j k : α} {v : β} :
    j ∈ (set m k v).map Prod.fst ↔ j ∈ m.map Prod.fst ∨ j = k := by
  rw [keys_set]
  split
  · rename_i hk
    exact ⟨.inl, fun h => h.elim id fun h => h ▸ hk⟩
  · rw [mem_append, mem_singleton]

theorem get_isSome {k : α} : ∀ {m : List (α × β)}, (get m k).isSome ↔ k ∈ m.map Prod.fst
  | [] => ⟨nofun, nofun⟩
  | (j, v) :: m => by
    rw [get, map_cons, mem_cons]
    by_cases hjk : j = k
    · rw [if_pos hjk]
      exact iff_of_true rfl (.inl hjk.symm)
    · rw [if_neg hjk, get_isSome, or_iff_right (Ne.symm hjk)]

theorem mem_of_get {k : α} {v : β} : ∀ {m : List (α × β)}, get m k = some v → (k, v) ∈ m
  | (j, u) :: m, h => by
    rw [get] at h
    split at h
    · rename_i hjk
      obtain rfl := Option.some.inj h
      rw [hjk]
      exact mem_cons_self
    · exact mem_cons_of_mem _ (mem_of_get h)

theorem get_of_mem {k : α} {v : β} : ∀ {m : List (α × β)}, (m.map Prod.fst).Nodup → (k, v) ∈ m → get m k = some v
  | (j, u) :: m, hnodup, h => by
    rw [map_cons, nodup_cons] at hnodup
    rw [get]
    rcases mem_cons.1 h with heq | h
    · obtain ⟨rfl, rfl⟩ := Prod.mk.inj heq
      rw [if_pos rfl]
    · have hk : k ∈ m.map Prod.fst := mem_map.2 ⟨(k, v), h, rfl⟩
      have hne : j ≠ k := fun hjk => hnodup.1 (hjk ▸ hk)
      rw [if_neg hne]
      exact get_of_mem hnodup.2 h

theorem get_iff {m : List (α × β)} (h : (m.map Prod.fst).Nodup) {k : α} {v : β} : get m k = some v ↔ (k, v) ∈ m :=
  ⟨mem_of_get, get_of_mem h⟩

theorem filter_key {k : α} {v : β} : ∀ {m : List (α × β)}, (m.map Prod.fst).Nodup → (k, v) ∈ m →
    m.filter (fun e => decide (e.1 = k)) = [(k, v)]
  | (j, u) :: m, hnodup, hmem => by
    rw [map_cons, nodup_cons] at hnodup
    rcases mem_cons.1 hmem with he | hrest
    · cases he
      have hnone : m.filter (fun e => decide (e.1 = k)) = [] :=
        filter_eq_nil_iff.2 fun e he h => hnodup.1 (mem_map.2 ⟨e, he, of_decide_eq_true h⟩)
      rw [filter_cons_of_pos (by simp), hnone]
    · have hjk : j ≠ k := by
        rintro rfl
        exact hnodup.1 (mem_map.2 ⟨(j, v), hrest, rfl⟩)
      rw [filter_cons_of_neg (by simpa using hjk), filter_key hnodup.2 hrest]

theorem perm_of_get {m m' : List (α × β)} (h : (m.map Prod.fst).Nodup) (h' : (m'.map Prod.fst).Nodup)
    (hget : ∀ k, get m k = get m' k) : m.Perm m' := by
  refine (perm_ext_iff_of_nodup h.of_map h'.of_map).2 fun ⟨k, v⟩ => ?_
  rw [← get_iff h, ← get_iff h', hget]

theorem set_new {k : α} {v : β} : ∀ {m : List (α × β)}, k ∉ m.map Prod.fst → set m k v = m ++ [(k, v)]
  | [], _ => rfl
  | (j, u) :: m, h => by
    rw [map_cons, mem_cons, not_or] at h
    rw [set, if_neg (Ne.symm h.1), set_new h.2]
    rfl

theorem setAll_eq : ∀ (entries : List (α × β)) {m : List (α × β)}, (m.map Prod.fst ++ entries.map Prod.fst).Nodup →
    setAll m entries = m ++ entries
  | [], m, _ => (append_nil m).symm
  | (k, v) :: entries, m, h => by
    have hnew : k ∉ m.map Prod.fst := fun hk => (nodup_append.1 h).2.2 k hk k mem_cons_self rfl
    have hset : setAll m ((k, v) :: entries) = setAll (m ++ [(k, v)]) entries := by
      rw [← set_new hnew]
      rfl
    have hrest : ((m ++ [(k, v)]).map Prod.fst ++ entries.map Prod.fst).Nodup := by
      rw [map_append, append_assoc]
      exact h
    rw [hset, setAll_eq entries hrest, append_assoc]
    rfl

theorem get_push (j k : α) (x : β) (m : List (α × List β)) :
    (get (push m k x) j).getD [] = (get m j).getD [] ++ if k = j then [x] else [] := by
  unfold push
  rw [get_set]
  split
  · rename_i hkj
    rw [hkj]
    rfl
  · rw [append_nil]

theorem get_pushAll (key : γ → α) (item : γ → β) (k : α) : ∀ (l : List γ) (m : List (α × List β)),
    (get (pushAll key item m l) k).getD [] = (get m k).getD [] ++ (l.filter fun x => key x = k).map item
  | [], m => (append_nil _).symm
  | x :: l, m => by
    have ih := get_pushAll key item k l (push m (key x) (item x))
    unfold pushAll at ih ⊢
    rw [foldl_cons, ih, get_push, append_assoc, filter_cons]
    by_cases hk : key x = k
    · simp [hk]
    · simp [hk]

theorem keys_pushAll (key : γ → α) (item : γ → β) : ∀ (l : List γ) {m : List (α × List β)}, (m.map Prod.fst).Nodup →
    ((pushAll key item m l).map Prod.fst).Nodup ∧
      ∀ k, k ∈ (pushAll key item m l).map Prod.fst ↔ k ∈ m.map Prod.fst ∨ k ∈ l.map key
  | [], m, h => ⟨h, fun k => by rw [map_nil, or_iff_left not_mem_nil]; rfl⟩
  | x :: l, m, h => by
    obtain ⟨hnodup, hmem⟩ := keys_pushAll key item l (nodup_set h (key x) ((get m (key x)).getD [] ++ [item x]))
    refine ⟨hnodup, fun k => ?_⟩
    have hk := hmem k
    rw [mem_keys_set, or_assoc] at hk
    rw [map_cons, mem_cons]
    exact hk

theorem nodup_eraseDups {κ : Type} [BEq κ] [LawfulBEq κ] : ∀ l : List κ, l.eraseDups.Nodup
  | [] => nodup_nil
  | k :: l => by
    rw [eraseDups_cons, nodup_cons]
    refine ⟨fun hmem => ?_, nodup_eraseDups _⟩
    have := (mem_filter.1 (mem_eraseDups.1 hmem)).2
    simp at this
  termination_by l => l.length
  decreasing_by exact Nat.lt_succ_of_le (length_filter_le _ _)

end InsertionMap
end Armature
