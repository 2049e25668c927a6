import Armature.Kahn
/-!
# LongestPath — each node one past the furthest it waits on

The layers of a graph put every node past all those it waits on, and no further than one past the furthest of them, or in the
first layer where it waits on none (`Longest`).  A graph has one such layering at most (`Longest.eq`), and raising what waits on a
node whenever a walk visits it makes one (`Layered.visit`, `Layered.longest`).
-/
namespace Armature
namespace LongestPath

variable {α : Type}

structure Longest (edges : List (α × α)) (layer : α → Nat) : Prop where
  past : ∀ u v, (u, v) ∈ edges → layer u + 1 ≤ layer v
  tight : ∀ v, layer v = 0 ∨ ∃ u, (u, v) ∈ edges ∧ layer v = layer u + 1

/-- The same, as far as the nodes visited go. -/
structure Layered (edges : List (α × α)) (done : List α) (layer : α → Nat) : Prop where
  past : ∀ u ∈ done, ∀ v, (u, v) ∈ edges → layer u + 1 ≤ layer v
  tight : ∀ v, layer v = 0 ∨ ∃ u ∈ done, (u, v) ∈ edges ∧ layer v = layer u + 1

theorem Longest.le {edges edges' : List (α × α)} {layer layer' : α → Nat} (h : Longest edges layer) (h' : Longest edges' layer')
    (hsub : ∀ e ∈ edges, e ∈ edges') : ∀ (n : Nat) (v : α), layer v = n → n ≤ layer' v
  | 0, _, _ => Nat.zero_le _
  | n + 1, v, hv => by
    rcases h.tight v with hzero | ⟨u, huv, heq⟩
    · omega
    · have ih := h.le h' hsub n u (by omega)
      have := h'.past u v (hsub _ huv)
      omega

theorem Longest.eq {edges edges' : List (α × α)} {layer layer' : α → Nat} (h : Longest edges layer) (h' : Longest edges' layer')
    (hiff : ∀ e, e ∈ edges ↔ e ∈ edges') : layer = layer' := by
  funext v
  exact Nat.le_antisymm (h.le h' (fun e => (hiff e).1) _ v rfl) (h'.le h (fun e => (hiff e).2) _ v rfl)

variable {edges : List (α × α)} {done : List α} {layer : α → Nat}

theorem Layered.longest (h : Layered edges done layer) (hall : ∀ e ∈ edges, e.1 ∈ done) : Longest edges layer := by
  refine ⟨fun u v huv => h.past u (hall _ huv) v huv, fun v => ?_⟩
  exact (h.tight v).imp_right fun ⟨u, _, hu⟩ => ⟨u, hu⟩

theorem Layered.visit (h : Layered edges done layer) {key : α} (hkey : key ∉ done)
    (hdone : ∀ v ∈ done ++ [key], ∀ u, (u, v) ∈ edges → u ∈ done) {layer' : α → Nat}
    (hraise : ∀ v, (key, v) ∈ edges → layer' v = max (layer v) (layer key + 1))
    (hstay : ∀ v, (key, v) ∉ edges → layer' v = layer v) : Layered edges (done ++ [key]) layer' := by
  have hvisited : ∀ v ∈ done ++ [key], layer' v = layer v := fun v hv => hstay v fun hkv => hkey (hdone v hv key hkv)
  have hup : ∀ v, layer v ≤ layer' v := by
    intro v
    by_cases hkv : (key, v) ∈ edges
    · rw [hraise v hkv]
      exact Nat.le_max_left _ _
    · rw [hstay v hkv]
  have hself : key ∈ done ++ [key] := List.mem_append_right _ (List.mem_singleton_self key)
  refine ⟨fun u hu v huv => ?_, fun v => ?_⟩
  · rw [hvisited u hu]
    rcases List.mem_append.1 hu with hu | hu
    · exact Nat.le_trans (h.past u hu v huv) (hup v)
    · obtain rfl := List.mem_singleton.1 hu
      rw [hraise v huv]
      exact Nat.le_max_right _ _
  · have hold : layer v = 0 ∨ ∃ u ∈ done ++ [key], (u, v) ∈ edges ∧ layer v = layer' u + 1 := by
      refine (h.tight v).imp_right fun ⟨u, hu, huv, heq⟩ => ?_
      have hu' := List.mem_append_left [key] hu
      exact ⟨u, hu', huv, by rw [hvisited u hu', heq]⟩
    by_cases hkv : (key, v) ∈ edges
    · rw [hraise v hkv]
      by_cases hle : layer key + 1 ≤ layer v
      · rw [max_eq_left hle]
        exact hold
      · rw [max_eq_right (by omega)]
        exact .inr ⟨key, hself, hkv, by rw [hvisited key hself]⟩
    · rw [hstay v hkv]
      exact hold

end LongestPath
end Armature
