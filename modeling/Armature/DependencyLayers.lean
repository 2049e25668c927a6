import Armature.DependencyGraph
import Armature.LongestPath
/-!
# DependencyLayers — every linked ticket gets the column after the last thing it waits on

Where the edges make no circle the queue reaches every node, and the columns are the longest-path layering (`layers_longest`).
-/
namespace Armature
namespace DependencyGraph

open List hiding get set
open Go (Text)
open InsertionMap (get set get_set get_isSome keys_set nodup_set mem_keys_set)
open LongestPath (Longest Layered)

def GraphEdge.ends (e : GraphEdge) : Text × Text := (e.from_, e.to_)

def columnIn (layer : List (Text × Nat)) (key : Text) : Nat := (get layer key).getD 0

theorem indegree_eq (forward : List GraphEdge) (k : Text) :
    forward.countP (fun e => e.to_ = k) = (forward.map GraphEdge.ends).countP fun e => e.2 = k := by
  rw [countP_map]
  rfl

theorem out_eq (forward : List GraphEdge) (k : Text) :
    (forward.filter fun e => e.from_ = k).map GraphEdge.to_ = Kahn.after (forward.map GraphEdge.ends) k := by
  unfold Kahn.after
  rw [filter_map, map_map]
  rfl

theorem relax_spec {k : Text} {own : Nat} : ∀ {out : List Text} {s : Layering}, k ∉ out → get s.layer k = some own →
    (s.layer.map Prod.fst).Nodup → ∃ layer, relax k out s =
        some ⟨layer, (Kahn.release s.indegree out).1, s.queue ++ (Kahn.release s.indegree out).2⟩ ∧
      (layer.map Prod.fst).Nodup ∧
      ∀ v, get layer v = if v ∈ out then some (max (columnIn s.layer v) (own + 1)) else get s.layer v
  | [], s, _, _, hnodup => by
    refine ⟨s.layer, ?_, hnodup, fun v => (if_neg not_mem_nil).symm⟩
    rw [relax, Kahn.release, append_nil]
  | to_ :: out, s, hk, hown, hnodup => by
    rw [mem_cons, not_or] at hk
    have hown' : get (set s.layer to_ (max ((get s.layer to_).getD 0) (own + 1))) k = some own := by
      rw [get_set, if_neg (Ne.symm hk.1), hown]
    obtain ⟨layer, hrelax, hlayer, hget⟩ := relax_spec
      (s := ⟨set s.layer to_ (max ((get s.layer to_).getD 0) (own + 1)),
        Function.update s.indegree to_ (s.indegree to_ - 1),
        if Function.update s.indegree to_ (s.indegree to_ - 1) to_ = 0 then s.queue ++ [to_] else s.queue⟩)
      hk.2 hown' (nodup_set hnodup _ _)
    refine ⟨layer, ?_, hlayer, fun v => ?_⟩
    · rw [relax, hown]
      dsimp only
      rw [hrelax, Kahn.release]
      dsimp only
      congr 2
      split
      · rw [append_assoc]
        rfl
      · rfl
    · rw [hget]
      unfold columnIn
      dsimp only
      rw [get_set]
      by_cases hv : to_ = v
      · subst hv
        rw [if_pos rfl, if_pos mem_cons_self, Option.getD_some, max_assoc, max_self, ite_self]
      · rw [if_neg hv]
        by_cases hout : v ∈ out
        · rw [if_pos hout, if_pos (mem_cons_of_mem _ hout)]
        · rw [if_neg hout, if_neg fun h => hout ((mem_cons.1 h).resolve_left (Ne.symm hv))]

/-- The loop's state, once `done` were visited. -/
structure Draining (keys : List Text) (edges : List (Text × Text)) (done queue : List Text) (indegree : Text → Int)
    (layer : List (Text × Nat)) : Prop where
  walking : Kahn.Walking keys edges done queue indegree
  nodup : (layer.map Prod.fst).Nodup
  known : ∀ v ∈ layer.map Prod.fst, v ∈ keys
  placed : ∀ v ∈ done ++ queue, v ∈ layer.map Prod.fst
  layered : Layered edges done (columnIn layer)

variable {keys : List Text} {edges : List (Text × Text)}

theorem Draining.step (hin : ∀ e ∈ edges, e.1 ∈ keys ∧ e.2 ∈ keys) {done queue : List Text} {k : Text} {indegree : Text → Int}
    {layer : List (Text × Nat)} (h : Draining keys edges done (k :: queue) indegree layer) :
    ∃ s, relax k (Kahn.after edges k) ⟨layer, indegree, queue⟩ = some s ∧
      Draining keys edges (done ++ [k]) s.queue s.indegree s.layer := by
  have hid : ∀ l : List Text, (id l).Perm l := fun l => List.Perm.refl l
  have hstep := h.walking.step hid fun e he => (hin e he).2
  have hkmem : k ∈ done ++ k :: queue := mem_append_right _ mem_cons_self
  have hkdone : k ∉ done := fun hmem => (nodup_append.1 h.walking.nodup).2.2 k hmem k mem_cons_self rfl
  have hwaits : ∀ v ∈ done ++ [k], ∀ u, (u, v) ∈ edges → u ∈ done := by
    intro v hv
    have hv' : v ∈ done ++ k :: queue := by
      rw [append_cons]
      exact mem_append_left _ hv
    exact (h.walking.free v (h.walking.inside v hv')).1 hv'
  have hself : k ∉ Kahn.after edges k := fun hmem =>
    hkdone (hwaits k (mem_append_right _ (mem_singleton_self k)) k (Kahn.mem_after.1 hmem))
  obtain ⟨own, hown⟩ := Option.isSome_iff_exists.1 (get_isSome.2 (h.placed k hkmem))
  obtain ⟨layer', hrelax, hnodup', hget⟩ := relax_spec (s := ⟨layer, indegree, queue⟩) hself hown h.nodup
  have hk : columnIn layer k = own := by
    unfold columnIn
    rw [hown]
    rfl
  have hraise : ∀ v, (k, v) ∈ edges → columnIn layer' v = max (columnIn layer v) (columnIn layer k + 1) := by
    intro v hv
    rw [hk]
    unfold columnIn
    rw [hget, if_pos (Kahn.mem_after.2 hv)]
    rfl
  have hstay : ∀ v, (k, v) ∉ edges → columnIn layer' v = columnIn layer v := by
    intro v hv
    unfold columnIn
    rw [hget, if_neg fun hmem => hv (Kahn.mem_after.1 hmem)]
  have hmem : ∀ v, v ∈ layer'.map Prod.fst ↔ v ∈ layer.map Prod.fst ∨ (k, v) ∈ edges := by
    intro v
    rw [← get_isSome, ← get_isSome, hget]
    split
    · rename_i hv
      exact iff_of_true rfl (.inr (Kahn.mem_after.1 hv))
    · rename_i hv
      rw [or_iff_left fun h => hv (Kahn.mem_after.2 h)]
  refine ⟨_, hrelax, hstep, hnodup', fun v hv => ?_, fun v hv => ?_, h.layered.visit hkdone hwaits hraise hstay⟩
  · rcases (hmem v).1 hv with hv | hv
    · exact h.known v hv
    · exact (hin _ hv).2
  · rw [hmem]
    have hv' := (hstep.free v (hstep.inside v hv)).1 hv
    by_cases hkv : (k, v) ∈ edges
    · exact .inr hkv
    · refine .inl (h.placed v ((h.walking.free v (hstep.inside v hv)).2 fun u hu => ?_))
      rcases mem_append.1 (hv' u hu) with hud | huk
      · exact hud
      · exact absurd (mem_singleton.1 huk ▸ hu) hkv

theorem Draining.drain (hin : ∀ e ∈ edges, e.1 ∈ keys ∧ e.2 ∈ keys) (hacyclic : Kahn.Acyclic edges) :
    ∀ (fuel : Nat) {done queue : List Text} {indegree : Text → Int} {layer : List (Text × Nat)},
      Draining keys edges done queue indegree layer → keys.length ≤ done.length + fuel →
        ∃ layer', drain (Kahn.after edges) fuel queue indegree layer = some layer' ∧ (layer'.map Prod.fst).Nodup ∧
          (∀ v, v ∈ layer'.map Prod.fst ↔ v ∈ keys) ∧ Longest edges (columnIn layer')
  | fuel, done, [], indegree, layer, h, _ => by
    have hall : ∀ v ∈ keys, v ∈ done := by
      intro v hv
      by_contra hno
      obtain ⟨w, hw, hwd, hfree⟩ := (hacyclic.clear v).exists_free (fun e he => (hin e he).1) hv hno
      have := (h.walking.free w hw).2 hfree
      rw [append_nil] at this
      exact hwd this
    refine ⟨layer, by cases fuel <;> rfl, h.nodup, fun v => ⟨h.known v, fun hv => ?_⟩, h.layered.longest fun e he => ?_⟩
    · exact h.placed v (mem_append_left _ (hall v hv))
    · exact hall _ (hin e he).1
  | 0, done, k :: queue, _, _, h, hfuel => by
    have hlen := (subperm_of_subset h.walking.nodup h.walking.inside).length_le
    rw [length_append, length_cons] at hlen
    omega
  | fuel + 1, done, k :: queue, indegree, layer, h, hfuel => by
    obtain ⟨s, hrelax, hs⟩ := h.step hin
    obtain ⟨layer', hdrain, hlayer'⟩ := hs.drain hin hacyclic fuel (by rw [length_append, length_singleton]; omega)
    refine ⟨layer', ?_, hlayer'⟩
    rw [DependencyGraph.drain, hrelax]
    exact hdrain

theorem get_zeros : ∀ (queue : List Text) (layer : List (Text × Nat)), (layer.map Prod.fst).Nodup →
    ((queue.foldl (fun layer k => set layer k 0) layer).map Prod.fst).Nodup ∧
      ∀ v, get (queue.foldl (fun layer k => set layer k 0) layer) v = if v ∈ queue then some 0 else get layer v
  | [], layer, h => ⟨h, fun v => (if_neg not_mem_nil).symm⟩
  | k :: queue, layer, h => by
    obtain ⟨hnodup, hget⟩ := get_zeros queue (set layer k 0) (nodup_set h k 0)
    refine ⟨hnodup, fun v => ?_⟩
    rw [foldl_cons, hget, get_set]
    by_cases hv : v ∈ queue
    · rw [if_pos hv, if_pos (mem_cons_of_mem _ hv)]
    · rw [if_neg hv]
      by_cases hk : k = v
      · rw [if_pos hk, if_pos (hk ▸ mem_cons_self)]
      · rw [if_neg hk, if_neg fun h => hv ((mem_cons.1 h).resolve_left (Ne.symm hk))]

theorem layers_longest (hkeys : keys.Nodup) {forward : List GraphEdge} (hin : ∀ e ∈ forward, e.from_ ∈ keys ∧ e.to_ ∈ keys)
    (hacyclic : Kahn.Acyclic (forward.map GraphEdge.ends)) {fuel : Nat} (hfuel : keys.length ≤ fuel) :
    ∃ layer, layers fuel keys forward = some layer ∧ (layer.map Prod.fst).Nodup ∧ (∀ v, v ∈ layer.map Prod.fst ↔ v ∈ keys) ∧
      Longest (forward.map GraphEdge.ends) (columnIn layer) := by
  have hin' : ∀ e ∈ forward.map GraphEdge.ends, e.1 ∈ keys ∧ e.2 ∈ keys := by
    intro e he
    obtain ⟨f, hf, rfl⟩ := mem_map.1 he
    exact hin f hf
  have hid : ∀ l : List Text, (id l).Perm l := fun l => List.Perm.refl l
  have hwalking : Kahn.Walking keys (forward.map GraphEdge.ends) [] _ _ := Kahn.Walking.start hid hkeys
  obtain ⟨hnodup, hget⟩ := get_zeros (keys.filter fun v => ((forward.map GraphEdge.ends).countP (fun e => e.2 = v) : Int) = 0)
    [] nodup_nil
  have hzero : ∀ v, columnIn ((keys.filter fun v => ((forward.map GraphEdge.ends).countP (fun e => e.2 = v) : Int) = 0).foldl
      (fun layer k => set layer k 0) []) v = 0 := by
    intro v
    unfold columnIn
    rw [hget]
    split <;> rfl
  have hmem : ∀ v, v ∈ ((keys.filter fun v => ((forward.map GraphEdge.ends).countP (fun e => e.2 = v) : Int) = 0).foldl
      (fun layer k => set layer k 0) []).map Prod.fst ↔
        v ∈ keys.filter fun v => ((forward.map GraphEdge.ends).countP (fun e => e.2 = v) : Int) = 0 := by
    intro v
    rw [← get_isSome, hget]
    split
    · exact iff_of_true rfl ‹_›
    · exact iff_of_false Bool.false_ne_true ‹_›
  have hstart : Draining keys (forward.map GraphEdge.ends) [] _ _ _ :=
    ⟨hwalking, hnodup, fun v hv => (mem_filter.1 ((hmem v).1 hv)).1, fun v hv => (hmem v).2 hv,
      fun _ h => absurd h not_mem_nil, fun v => .inl (hzero v)⟩
  have hdrain := hstart.drain hin' hacyclic fuel (by rw [length_nil]; omega)
  unfold layers
  simp only [indegree_eq, funext (out_eq forward)]
  exact hdrain

theorem drain_more {out : Text → List Text} (more : Nat) : ∀ (fuel : Nat) {queue : List Text} {indegree : Text → Int}
    {layer layer' : List (Text × Nat)}, drain out fuel queue indegree layer = some layer' →
      drain out (fuel + more) queue indegree layer = some layer'
  | 0, [], _, _, _, h => by cases more <;> exact h
  | fuel + 1, [], _, _, _, h => by
    rw [Nat.succ_add]
    exact h
  | fuel + 1, k :: queue, indegree, layer, layer', h => by
    rw [Nat.succ_add]
    rw [drain] at h ⊢
    split at h
    · cases h
    · exact drain_more more fuel h

end DependencyGraph
end Armature
