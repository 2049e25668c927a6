import Mathlib.Algebra.Order.BigOperators.Group.List
import Mathlib.Algebra.Order.Ring.Nat
import Mathlib.Logic.Relation
/-!
# QueueSearch — is a vertex reached, by a queue and what has been seen

Each vertex that the queue gives up is the goal, or has been seen, or puts its neighbours at the queue's end.  With as much
fuel as there are vertices queued and neighbours not yet queued, the search finds the goal exactly when something queued
leads to it (`search_iff`), and ends (`searchFor_eq`).
-/
namespace Armature
namespace QueueSearch

open List

variable {α : Type} [DecidableEq α] (next : α → List α) (goal : α)

def search : Nat → List α → List α → Bool
  | _, _, [] => false
  | 0, _, _ => false
  | fuel + 1, seen, v :: queue =>
    if v = goal then true
    else if v ∈ seen then search fuel seen queue
    else search fuel (v :: seen) (queue ++ next v)

def searchFor : Nat → List α → List α → Option Bool
  | _, _, [] => some false
  | 0, _, _ => none
  | fuel + 1, seen, v :: queue =>
    if v = goal then some true
    else if v ∈ seen then searchFor fuel seen queue
    else searchFor fuel (v :: seen) (queue ++ next v)

abbrev Leads (a b : α) : Prop := Relation.ReflTransGen (fun v w => w ∈ next v) a b

/-- What has been seen is not the goal, and its neighbours have been seen or are queued. -/
structure Closed (seen queue : List α) : Prop where
  not_goal : goal ∉ seen
  next_mem : ∀ v ∈ seen, ∀ w ∈ next v, w ∈ seen ∨ w ∈ queue

def left (vertices seen queue : List α) : Nat := queue.length + ((vertices.filter (· ∉ seen)).map fun v => (next v).length).sum

variable {next goal}

omit [DecidableEq α] in
theorem Closed.escape {seen queue : List α} (h : Closed next goal seen queue) {v : α} (hv : v ∈ seen) (hl : Leads next v goal) :
    ∃ q ∈ queue, q ∉ seen ∧ Leads next q goal := by
  induction hl using Relation.ReflTransGen.head_induction_on with
  | refl => exact absurd hv h.not_goal
  | @head v w hvw hl ih =>
    by_cases hw : w ∈ seen
    · exact ih hw
    · exact ⟨w, (h.next_mem v hv w hvw).resolve_left hw, hw, hl⟩

theorem left_seen {vertices : List α} (hnext : ∀ v, v ∉ vertices → next v = []) {seen queue : List α} {v : α} (hv : v ∉ seen) :
    left next vertices (v :: seen) (queue ++ next v) + 1 ≤ left next vertices seen (v :: queue) := by
  unfold left
  rw [length_append, length_cons]
  have hsum : ((vertices.filter (· ∉ v :: seen)).map fun w => (next w).length).sum + (next v).length ≤
      ((vertices.filter (· ∉ seen)).map fun w => (next w).length).sum := by
    by_cases hmem : v ∈ vertices
    · obtain ⟨a, b, rfl⟩ := append_of_mem hmem
      have hmono : ∀ l : List α, ((l.filter (· ∉ v :: seen)).map fun w => (next w).length).sum ≤
          ((l.filter (· ∉ seen)).map fun w => (next w).length).sum := fun l =>
        (List.Sublist.map _ (monotone_filter_right l fun w hw => by simp_all)).sum_le_sum fun _ _ => Nat.zero_le _
      have ha := hmono a
      have hb := hmono b
      simp only [filter_append, map_append, sum_append, filter_cons_of_pos (a := v) (l := b)
        (p := fun w => decide (w ∉ seen)) (by simpa using hv), map_cons, sum_cons]
      rw [filter_cons_of_neg (by simp)]
      omega
    · rw [hnext v hmem, length_nil, Nat.add_zero]
      exact (List.Sublist.map _ (monotone_filter_right vertices fun w hw => by simp_all)).sum_le_sum fun _ _ => Nat.zero_le _
  omega

theorem search_iff {vertices : List α} (hnext : ∀ v, v ∉ vertices → next v = []) :
    ∀ {fuel : Nat} {seen queue : List α}, left next vertices seen queue ≤ fuel → Closed next goal seen queue →
      (search next goal fuel seen queue = true ↔ ∃ q ∈ queue, Leads next q goal)
  | _, _, [], _, _ => by simp [search]
  | 0, seen, v :: queue, hf, _ => by simp [left] at hf
  | fuel + 1, seen, v :: queue, hf, hc => by
    unfold search
    by_cases hgoal : v = goal
    · rw [if_pos hgoal]
      simp only [true_iff]
      exact ⟨v, mem_cons_self, hgoal ▸ Relation.ReflTransGen.refl⟩
    · rw [if_neg hgoal]
      by_cases hseen : v ∈ seen
      · have hc' : Closed next goal seen queue := ⟨hc.not_goal, fun u hu w hw => by
          rcases hc.next_mem u hu w hw with h | h
          · exact Or.inl h
          · rcases mem_cons.1 h with rfl | h
            · exact Or.inl hseen
            · exact Or.inr h⟩
        rw [if_pos hseen, search_iff hnext (by unfold left at hf ⊢; rw [length_cons] at hf; omega) hc']
        constructor
        · rintro ⟨q, hq, hl⟩
          exact ⟨q, mem_cons_of_mem _ hq, hl⟩
        · rintro ⟨q, hq, hl⟩
          rcases mem_cons.1 hq with rfl | hq
          · obtain ⟨q', hq', -, hl'⟩ := hc'.escape hseen hl
            exact ⟨q', hq', hl'⟩
          · exact ⟨q, hq, hl⟩
      · have hc' : Closed next goal (v :: seen) (queue ++ next v) := by
          refine ⟨fun h => ?_, fun u hu w hw => ?_⟩
          · rcases mem_cons.1 h with h | h
            · exact hgoal h.symm
            · exact hc.not_goal h
          · rcases mem_cons.1 hu with rfl | hu
            · exact Or.inr (mem_append_right _ hw)
            · rcases hc.next_mem u hu w hw with h | h
              · exact Or.inl (mem_cons_of_mem _ h)
              · rcases mem_cons.1 h with rfl | h
                · exact Or.inl mem_cons_self
                · exact Or.inr (mem_append_left _ h)
        have hleft : left next vertices (v :: seen) (queue ++ next v) + 1 ≤ left next vertices seen (v :: queue) :=
          left_seen hnext hseen
        rw [if_neg hseen, search_iff hnext (by omega) hc']
        constructor
        · rintro ⟨q, hq, hl⟩
          rcases mem_append.1 hq with hq | hq
          · exact ⟨q, mem_cons_of_mem _ hq, hl⟩
          · exact ⟨v, mem_cons_self, Relation.ReflTransGen.head hq hl⟩
        · rintro ⟨q, hq, hl⟩
          rcases mem_cons.1 hq with rfl | hq
          · rcases Relation.ReflTransGen.cases_head hl with rfl | ⟨w, hw, hl⟩
            · exact absurd rfl hgoal
            · exact ⟨w, mem_append_right _ hw, hl⟩
          · exact ⟨q, mem_append_left _ hq, hl⟩

theorem searchFor_eq {vertices : List α} (hnext : ∀ v, v ∉ vertices → next v = []) :
    ∀ {fuel : Nat} {seen queue : List α}, left next vertices seen queue ≤ fuel →
      searchFor next goal fuel seen queue = some (search next goal fuel seen queue)
  | _, _, [], _ => by rw [searchFor, search]
  | 0, seen, v :: queue, hf => by simp [left] at hf
  | fuel + 1, seen, v :: queue, hf => by
    rw [searchFor, search]
    split
    · rfl
    · split
      · have hleft : left next vertices seen queue ≤ fuel := by
          unfold left at hf ⊢
          rw [length_cons] at hf
          omega
        exact searchFor_eq hnext hleft
      · rename_i hseen
        have hleft : left next vertices (v :: seen) (queue ++ next v) + 1 ≤ left next vertices seen (v :: queue) :=
          left_seen hnext hseen
        exact searchFor_eq hnext (by omega)

end QueueSearch
end Armature
