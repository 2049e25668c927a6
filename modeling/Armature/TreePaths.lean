import Armature.Tree
import Mathlib.Algebra.BigOperators.Ring.List
/-!
# TreePaths — the ways down a forest, and its topmost labels of each key

A path runs from a root to a leaf, and a line is a label with those above it, the nearest first.  `topmost` lists the labels that no label above them shares a key with, each under its
key.  Where a label weighs what the labels beneath it weigh together, a path gives its leaf's weight once to the one
topmost label of a key that stands on it.
-/
namespace Armature
namespace Tree

open List

variable {α κ : Type}

def extend (a : α) : List (List α) → List (List α)
  | [] => [[a]]
  | p :: ps => (p :: ps).map (a :: ·)

mutual
def paths : Tree α → List (List α)
  | node a cs => extend a (pathsAll cs)
def pathsAll : List (Tree α) → List (List α)
  | [] => []
  | t :: ts => t.paths ++ pathsAll ts
end

section
variable [DecidableEq κ] (key : α → Option κ)

mutual
def topmost (claimed : List κ) : Tree α → List (κ × α)
  | node a cs =>
    match key a with
    | none => topmostAll claimed cs
    | some k => if k ∈ claimed then topmostAll claimed cs else (k, a) :: topmostAll (k :: claimed) cs
def topmostAll (claimed : List κ) : List (Tree α) → List (κ × α)
  | [] => []
  | t :: ts => topmost claimed t ++ topmostAll claimed ts
end

def under (k : κ) (l : List (κ × α)) : List α := (l.filter (·.1 = k)).map (·.2)

@[simp] theorem under_nil (k : κ) : under k ([] : List (κ × α)) = [] := rfl

theorem under_append (k : κ) (l l' : List (κ × α)) : under k (l ++ l') = under k l ++ under k l' := by
  unfold under
  rw [filter_append, map_append]

theorem under_cons (k : κ) (e : κ × α) (l : List (κ × α)) :
    under k (e :: l) = if e.1 = k then e.2 :: under k l else under k l := by
  unfold under
  rw [filter_cons]
  by_cases h : e.1 = k
  · simp [h]
  · simp [h]

/-! ## Claimed keys -/

mutual
theorem topmost_claimed {k : κ} : ∀ (t : Tree α) {claimed : List κ}, k ∈ claimed → under k (topmost key claimed t) = []
  | node a cs, claimed, hk => by
    rw [topmost]
    cases key a with
    | none => exact topmostAll_claimed cs hk
    | some k' =>
      dsimp only
      split
      · exact topmostAll_claimed cs hk
      · rename_i hk'
        have hne : k' ≠ k := fun h => hk' (h ▸ hk)
        rw [under_cons, if_neg hne]
        exact topmostAll_claimed cs (mem_cons_of_mem _ hk)
theorem topmostAll_claimed {k : κ} : ∀ (ts : List (Tree α)) {claimed : List κ}, k ∈ claimed →
    under k (topmostAll key claimed ts) = []
  | [], _, _ => rfl
  | t :: ts, claimed, hk => by
    rw [topmostAll, under_append, topmost_claimed t hk, topmostAll_claimed ts hk, nil_append]
end

/-! ## Weights -/

variable {R : Type} [Semiring R]

def leafWeight (m : α → R) (p : List α) : R := (p.getLast?.map m).getD 0

def Additive (m : α → R) (ts : List (Tree α)) : Prop :=
  ∀ s ∈ subtreesAll ts, s.children ≠ [] → m s.label = ((s.children.map label).map m).sum

omit [DecidableEq κ] in
theorem Additive.tail {m : α → R} {t : Tree α} {ts : List (Tree α)} (h : Additive m (t :: ts)) : Additive m ts :=
  fun s hs => h s (by rw [subtreesAll]; exact mem_append_right _ hs)

theorem Additive.children {m : α → R} {a : α} {cs ts : List (Tree α)} (h : Additive m (node a cs :: ts)) : Additive m cs :=
  fun s hs => h s (by rw [subtreesAll, subtrees]; exact mem_append_left _ (mem_cons_of_mem _ hs))

theorem Additive.label {m : α → R} {a : α} {cs ts : List (Tree α)} (h : Additive m (node a cs :: ts)) (hcs : cs ≠ []) :
    m a = ((cs.map Tree.label).map m).sum :=
  h (node a cs) (by rw [subtreesAll, subtrees]; exact mem_append_left _ mem_cons_self) hcs

theorem pathsAll_ne_nil : ∀ {ts : List (Tree α)}, ts ≠ [] → pathsAll ts ≠ []
  | [], h => absurd rfl h
  | node a cs :: ts, _ => by
    rw [pathsAll, paths]
    cases pathsAll cs with
    | nil => simp [extend]
    | cons => simp [extend]

mutual
theorem path_ne_nil {p : List α} : ∀ {t : Tree α}, p ∈ t.paths → p ≠ []
  | node a cs, hp => by
    rw [paths] at hp
    cases hps : pathsAll cs with
    | nil =>
      rw [hps, extend, mem_singleton] at hp
      simp [hp]
    | cons =>
      rw [hps, extend, mem_map] at hp
      obtain ⟨r, _, rfl⟩ := hp
      simp
theorem pathAll_ne_nil {p : List α} : ∀ {ts : List (Tree α)}, p ∈ pathsAll ts → p ≠ []
  | t :: ts, hp => by
    rw [pathsAll] at hp
    rcases mem_append.1 hp with hp | hp
    · exact path_ne_nil hp
    · exact pathAll_ne_nil hp
end

theorem sum_extend (g : List α → R) (a : α) {ps : List (List α)} (h : ps ≠ []) :
    ((extend a ps).map g).sum = (ps.map fun p => g (a :: p)).sum := by
  cases ps with
  | nil => exact absurd rfl h
  | cons => rw [extend, List.map_map]; rfl

theorem leafWeight_cons (m : α → R) (a : α) {p : List α} (h : p ≠ []) : leafWeight m (a :: p) = leafWeight m p := by
  unfold leafWeight
  rw [List.getLast?_cons_of_ne_nil h]

theorem sum_leafWeight (m : α → R) : ∀ {ts : List (Tree α)}, Additive m ts →
    ((pathsAll ts).map (leafWeight m)).sum = ((ts.map label).map m).sum
  | [], _ => rfl
  | node a cs :: ts, h => by
    rw [pathsAll, map_append, sum_append, sum_leafWeight m h.tail, map_cons, map_cons, sum_cons,
      paths]
    congr 1
    by_cases hcs : cs = []
    · subst hcs
      simp [pathsAll, extend, leafWeight]
    · rw [sum_extend _ _ (pathsAll_ne_nil hcs), label_node, h.label hcs, ← sum_leafWeight m h.children]
      apply congrArg
      apply map_congr_left
      intro p hp
      rw [leafWeight_cons m a (pathAll_ne_nil hp)]

def given (m f : α → R) (k : κ) (p : List α) : R :=
  match p.find? (fun a => key a = some k) with
  | none => 0
  | some top => leafWeight m p * f top

theorem given_cons (m f : α → R) (k : κ) (a : α) {p : List α} (h : p ≠ []) :
    given key m f k (a :: p) = if key a = some k then leafWeight m p * f a else given key m f k p := by
  unfold given
  rw [List.find?_cons, leafWeight_cons m a h]
  by_cases ha : key a = some k
  · simp [ha]
  · simp [ha]

theorem sum_topmost (m f : α → R) {k : κ} : ∀ {ts : List (Tree α)} {claimed : List κ}, Additive m ts → k ∉ claimed →
    ((under k (topmostAll key claimed ts)).map fun a => m a * f a).sum = ((pathsAll ts).map (given key m f k)).sum
  | [], _, _, _ => rfl
  | node a cs :: ts, claimed, h, hk => by
    rw [topmostAll, under_append, map_append, sum_append, sum_topmost m f h.tail hk, pathsAll, map_append,
      sum_append]
    congr 1
    -- a label that does not have the key passes the sum on to the labels beneath it
    have hpass : key a ≠ some k → ∀ {claimed : List κ}, k ∉ claimed →
        ((under k (topmostAll key claimed cs)).map fun a => m a * f a).sum =
          ((extend a (pathsAll cs)).map (given key m f k)).sum := by
      intro ha claimed hk
      rw [sum_topmost m f h.children hk]
      by_cases hcs : cs = []
      · subst hcs
        simp [pathsAll, extend, given, ha]
      · rw [sum_extend _ _ (pathsAll_ne_nil hcs)]
        apply congrArg
        apply map_congr_left
        intro p hp
        rw [given_cons key m f k a (pathAll_ne_nil hp), if_neg ha]
    rw [topmost, paths]
    cases hka : key a with
    | none => exact hpass (by rw [hka]; exact nofun) hk
    | some k' =>
      dsimp only
      by_cases hkk : k' = k
      · subst hkk
        rw [if_neg hk, under_cons, if_pos rfl, topmostAll_claimed key cs mem_cons_self]
        rw [map_singleton, sum_singleton]
        by_cases hcs : cs = []
        · subst hcs
          simp [pathsAll, extend, given, hka, leafWeight]
        · rw [sum_extend _ _ (pathsAll_ne_nil hcs), h.label hcs, ← sum_leafWeight m h.children, ← sum_map_mul_right]
          apply congrArg
          apply map_congr_left
          intro p hp
          rw [given_cons key m f k' a (pathAll_ne_nil hp), if_pos hka]
      · have ha : key a ≠ some k := fun h => hkk (Option.some.inj (hka.symm.trans h))
        split
        · exact hpass ha hk
        · rw [under_cons, if_neg hkk]
          refine hpass ha fun h => ?_
          rcases mem_cons.1 h with h | h
          · exact hkk h.symm
          · exact hk h

end

theorem additive_rollUp {R : Type} [Semiring R] {m : α → R} {f : α → List α → α} : ∀ {ts : List (Tree α)},
    (∀ s ∈ subtreesAll ts, s.children ≠ [] → ∀ ls : List α, m (f s.label ls) = (ls.map m).sum) → Additive m (rollUpAll f ts)
  | [], _ => nofun
  | node a cs :: ts, h => by
    have hcs : Additive m (rollUpAll f cs) := additive_rollUp fun s hs =>
      h s (by rw [subtreesAll, subtrees]; exact mem_append_left _ (mem_cons_of_mem _ hs))
    have hts : Additive m (rollUpAll f ts) := additive_rollUp fun s hs =>
      h s (by rw [subtreesAll]; exact mem_append_right _ hs)
    intro s hs hne
    rw [rollUpAll, rollUp, subtreesAll, subtrees] at hs
    rcases mem_append.1 hs with hs | hs
    · rcases mem_cons.1 hs with rfl | hs
      · have hcs' : cs ≠ [] := fun hnil => hne (by subst hnil; rfl)
        have := h (node a cs) (by rw [subtreesAll, subtrees]; exact mem_append_left _ mem_cons_self) hcs'
        rw [label_node, children_node]
        exact this _
      · exact hcs s hs hne
    · exact hts s hs hne

mutual
theorem last_rollUp {f : α → List α → α} {p : List α} : ∀ {t : Tree α}, p ∈ (t.rollUp f).paths →
    ∃ a ∈ t.flatten, p.getLast? = some (f a [])
  | node a cs, hp => by
    rw [rollUp, paths] at hp
    cases hps : pathsAll (rollUpAll f cs) with
    | nil =>
      have hcs : cs = [] := by
        by_contra hne
        refine pathsAll_ne_nil (fun h => hne ?_) hps
        rw [rollUpAll_eq] at h
        exact map_eq_nil_iff.1 h
      subst hcs
      rw [hps, extend, mem_singleton] at hp
      exact ⟨a, mem_cons_self, by rw [hp]; rfl⟩
    | cons =>
      rw [hps, extend, mem_map] at hp
      obtain ⟨r, hr, rfl⟩ := hp
      rw [← hps] at hr
      obtain ⟨b, hb, hlast⟩ := last_rollUpAll hr
      exact ⟨b, mem_cons_of_mem _ hb, by rw [List.getLast?_cons_of_ne_nil (pathAll_ne_nil hr), hlast]⟩
theorem last_rollUpAll {f : α → List α → α} {p : List α} : ∀ {ts : List (Tree α)}, p ∈ pathsAll (rollUpAll f ts) →
    ∃ a ∈ flattenAll ts, p.getLast? = some (f a [])
  | t :: ts, hp => by
    rw [rollUpAll, pathsAll] at hp
    rw [flattenAll]
    rcases mem_append.1 hp with hp | hp
    · obtain ⟨a, ha, hlast⟩ := last_rollUp hp
      exact ⟨a, mem_append_left _ ha, hlast⟩
    · obtain ⟨a, ha, hlast⟩ := last_rollUpAll hp
      exact ⟨a, mem_append_right _ ha, hlast⟩
end

/-! ## Lines -/

mutual
def lines (above : List α) : Tree α → List (List α × α)
  | node a cs => (above, a) :: linesAll (a :: above) cs
def linesAll (above : List α) : List (Tree α) → List (List α × α)
  | [] => []
  | t :: ts => lines above t ++ linesAll above ts
end

mutual
theorem labels_lines (above : List α) : ∀ t : Tree α, (lines above t).map (·.2) = t.flatten
  | node a cs => by rw [lines, flatten, map_cons, labels_linesAll]
theorem labels_linesAll (above : List α) : ∀ ts : List (Tree α), (linesAll above ts).map (·.2) = flattenAll ts
  | [] => rfl
  | t :: ts => by rw [linesAll, flattenAll, map_append, labels_lines, labels_linesAll]
end

theorem mem_flattenAll_of_line {above as : List α} {i : α} {ts : List (Tree α)} (h : (as, i) ∈ linesAll above ts) :
    i ∈ flattenAll ts := by
  rw [← labels_linesAll above ts]
  exact mem_map_of_mem h

def Continues (above : List α) (all : List (List α × α)) (l : List (List α × α)) : Prop :=
  ∀ as i, (as, i) ∈ l → as = above ∨ ∃ a as', as = a :: as' ∧ (as', a) ∈ all

mutual
theorem lines_continue (above : List α) : ∀ t : Tree α, Continues above (lines above t) (lines above t)
  | node a cs => by
    intro as i h
    rw [lines] at h
    rcases mem_cons.1 h with h | h
    · exact .inl (congrArg Prod.fst h)
    · refine .inr ?_
      rcases linesAll_continue (a :: above) cs as i h with rfl | ⟨b, as', rfl, hb⟩
      · exact ⟨a, above, rfl, by rw [lines]; exact mem_cons_self⟩
      · exact ⟨b, as', rfl, by rw [lines]; exact mem_cons_of_mem _ hb⟩
theorem linesAll_continue (above : List α) : ∀ ts : List (Tree α), Continues above (linesAll above ts) (linesAll above ts)
  | [] => nofun
  | t :: ts => by
    intro as i h
    rw [linesAll] at h ⊢
    rcases mem_append.1 h with h | h
    · rcases lines_continue above t as i h with h | ⟨a, as', h, ha⟩
      · exact .inl h
      · exact .inr ⟨a, as', h, mem_append_left _ ha⟩
    · rcases linesAll_continue above ts as i h with h | ⟨a, as', h, ha⟩
      · exact .inl h
      · exact .inr ⟨a, as', h, mem_append_right _ ha⟩
end

theorem line_above {ts : List (Tree α)} {i : α} : ∀ {near far : List α} {a : α}, (near ++ a :: far, i) ∈ linesAll [] ts →
    (far, a) ∈ linesAll [] ts
  | near, far, a, h => by
    rcases linesAll_continue [] ts _ _ h with hnil | ⟨b, as', heq, hb⟩
    · simp at hnil
    · cases near with
      | nil =>
        obtain ⟨rfl, rfl⟩ := List.cons.inj heq
        exact hb
      | cons =>
        obtain ⟨rfl, rfl⟩ := List.cons.inj heq
        exact line_above hb
  termination_by near => near.length

mutual
theorem lines_nodup {above as : List α} {i : α} : ∀ {t : Tree α}, (t.flatten ++ above).Nodup → (as, i) ∈ lines above t →
    (i :: as).Nodup
  | node a cs, hn, h => by
    rw [lines] at h
    rw [flatten, cons_append] at hn
    rcases mem_cons.1 h with h | h
    · obtain ⟨rfl, rfl⟩ := Prod.mk.inj h
      have hsub : (i :: as).Sublist (i :: (flattenAll cs ++ as)) := (sublist_append_right _ _).cons_cons _
      exact hn.sublist hsub
    · exact linesAll_nodup (perm_middle.nodup_iff.2 hn) h
theorem linesAll_nodup {above as : List α} {i : α} : ∀ {ts : List (Tree α)}, (flattenAll ts ++ above).Nodup →
    (as, i) ∈ linesAll above ts → (i :: as).Nodup
  | t :: ts, hn, h => by
    rw [linesAll] at h
    rw [flattenAll, append_assoc] at hn
    rcases mem_append.1 h with h | h
    · refine lines_nodup (hn.sublist ?_) h
      exact (List.Sublist.refl _).append (sublist_append_right _ _)
    · exact linesAll_nodup (hn.sublist (sublist_append_right _ _)) h
end

end Tree
end Armature
