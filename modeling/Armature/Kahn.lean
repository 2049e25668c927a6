import Mathlib.Data.Fintype.Basic
import Mathlib.Data.List.Nodup
import Mathlib.Data.List.Count
import Mathlib.Order.WellFounded
import Mathlib.Logic.Function.Basic
import Mathlib.Logic.Relation
import Mathlib.Data.Finite.Defs
import Mathlib.Order.RelClasses
import Mathlib.Data.Set.Finite.Basic
/-!
# Kahn — a graph's nodes visited each after the nodes it waits on

A walk takes the next node that waits on nothing, visits it, and frees those it held back last.  It visits every node of
an acyclic graph, once, in an order `Legal` for the edges; a value settled along such an order, each node's from its own
and those of the nodes it waits on, is settled everywhere at once (`settle_fixed`).  Reachability is searched breadth
first.
-/
namespace Armature
namespace Kahn

open List

variable {α : Type} [DecidableEq α]

def before (edges : List (α × α)) (v : α) : List α := (edges.filter (fun e => e.2 = v)).map Prod.fst

def after (edges : List (α × α)) (u : α) : List α := (edges.filter (fun e => e.1 = u)).map Prod.snd

variable {u v key : α} {sort : List α → List α}

theorem mem_before {edges : List (α × α)} : u ∈ before edges v ↔ (u, v) ∈ edges := by
  unfold before
  simp

theorem mem_after {edges : List (α × α)} : v ∈ after edges u ↔ (u, v) ∈ edges := by
  unfold after
  simp

theorem count_after (u v : α) : ∀ edges : List (α × α), (after edges u).count v = edges.count (u, v)
  | [] => rfl
  | (a, b) :: edges => by
    have ih := count_after u v edges
    unfold after at ih ⊢
    rw [filter_cons]
    by_cases ha : a = u
    · subst ha
      simp [count_cons, ih]
    · simp [ih, ha]

/-! ## The walk -/

def release : (α → Int) → List α → (α → Int) × List α
  | degree, [] => (degree, [])
  | degree, v :: vs =>
    let degree := Function.update degree v (degree v - 1)
    let (last, next) := release degree vs
    (last, if degree v = 0 then v :: next else next)

def walk {σ : Type} (after : α → List α) (sort : List α → List α) (visit : α → σ → σ) : Nat → List α → (α → Int) → σ → σ
  | 0, _, _, s => s
  | _ + 1, [], _, s => s
  | n + 1, key :: ready, degree, s =>
    let s := visit key s
    let (degree, next) := release degree (after key)
    walk after sort visit n (ready ++ sort next) degree s

def order (after : α → List α) (sort : List α → List α) : Nat → List α → (α → Int) → List α
  | 0, _, _ => []
  | _ + 1, [], _ => []
  | n + 1, key :: ready, degree =>
    let (degree, next) := release degree (after key)
    key :: order after sort n (ready ++ sort next) degree

theorem walk_eq {σ : Type} (after : α → List α) (sort : List α → List α) (visit : α → σ → σ) :
    ∀ (n : Nat) (ready : List α) (degree : α → Int) (s : σ),
      walk after sort visit n ready degree s = (order after sort n ready degree).foldl (fun s key => visit key s) s
  | 0, _, _, _ => rfl
  | _ + 1, [], _, _ => rfl
  | n + 1, key :: ready, degree, s => by
    rw [walk, order, foldl_cons]
    exact walk_eq after sort visit n _ _ _

theorem release_degree : ∀ (vs : List α) (degree : α → Int) (v : α), (release degree vs).1 v = degree v - vs.count v
  | [], degree, v => (Int.sub_zero (degree v)).symm
  | w :: vs, degree, v => by
    rw [release]
    dsimp only
    rw [release_degree vs]
    by_cases hv : v = w
    · subst hv
      rw [Function.update_self, count_cons_self]
      omega
    · rw [Function.update_of_ne hv, count_cons_of_ne (Ne.symm hv)]

theorem release_next : ∀ {vs : List α} {degree : α → Int}, (∀ v, (vs.count v : Int) ≤ degree v) →
    (release degree vs).2.Nodup ∧ ∀ v, v ∈ (release degree vs).2 ↔ v ∈ vs ∧ degree v = vs.count v
  | [], _, _ => ⟨nodup_nil, fun v => by simp [release]⟩
  | w :: vs, degree, h => by
    have hw := h w
    rw [count_cons_self] at hw
    have hrest : ∀ v, (vs.count v : Int) ≤ Function.update degree w (degree w - 1) v := by
      intro v
      by_cases hv : v = w
      · subst hv
        rw [Function.update_self]
        omega
      · have := h v
        rwa [count_cons_of_ne (Ne.symm hv), ← Function.update_of_ne hv (degree w - 1) degree] at this
    obtain ⟨hnodup, hmem⟩ := release_next hrest
    have hself := hmem w
    rw [Function.update_self] at hself
    have hother : ∀ v, v ≠ w → (v ∈ (release (Function.update degree w (degree w - 1)) vs).2 ↔
        v ∈ w :: vs ∧ degree v = (w :: vs).count v) := by
      intro v hv
      rw [hmem, Function.update_of_ne hv, count_cons_of_ne (Ne.symm hv), mem_cons, or_iff_right hv]
    rw [release]
    dsimp only
    rw [Function.update_self]
    split
    · -- the last is lost: none is left to lose
      rename_i hzero
      have hnone : w ∉ vs := fun hin => by
        have := count_pos_iff.2 hin
        omega
      have hcount := count_eq_zero_of_not_mem hnone
      refine ⟨nodup_cons.2 ⟨fun hin => hnone (hself.1 hin).1, hnodup⟩, fun v => ?_⟩
      by_cases hv : v = w
      · subst hv
        refine iff_of_true mem_cons_self ⟨mem_cons_self, ?_⟩
        rw [count_cons_self]
        omega
      · rw [mem_cons, or_iff_right hv, hother v hv]
    · rename_i hzero
      refine ⟨hnodup, fun v => ?_⟩
      by_cases hv : v = w
      · subst hv
        rw [hself, count_cons_self]
        constructor
        · rintro ⟨hin, heq⟩
          exact ⟨mem_cons_of_mem _ hin, by omega⟩
        · rintro ⟨_, heq⟩
          refine ⟨count_pos_iff.1 ?_, ?_⟩ <;> omega
      · exact hother v hv

/-! ## What a walk visits -/

def Legal (edges : List (α × α)) : List α → List α → Prop
  | _, [] => True
  | done, v :: rest => v ∉ done ∧ (∀ u, (u, v) ∈ edges → u ∈ done) ∧ Legal edges (done ++ [v]) rest

def Acyclic (edges : List (α × α)) : Prop := ∀ v, ¬ Relation.TransGen (fun u v => (u, v) ∈ edges) v v

omit [DecidableEq α] in
theorem acyclic_of_rank {edges : List (α × α)} (rank : α → Nat) (h : ∀ e ∈ edges, rank e.1 < rank e.2) : Acyclic edges := by
  have hup : ∀ u v, Relation.TransGen (fun u v => (u, v) ∈ edges) u v → rank u < rank v := by
    intro u v huv
    induction huv with
    | single he => exact h _ he
    | tail _ he ih => exact Nat.lt_trans ih (h _ he)
  exact fun v hv => Nat.lt_irrefl _ (hup v v hv)

/-- The loop's state, once `done` were visited. -/
structure Walking (nodes : List α) (edges : List (α × α)) (done ready : List α) (degree : α → Int) : Prop where
  nodup : (done ++ ready).Nodup
  inside : ∀ v ∈ done ++ ready, v ∈ nodes
  degree : ∀ v, degree v = (edges.countP (fun e => e.2 = v ∧ e.1 ∉ done) : Int)
  free : ∀ v ∈ nodes, v ∈ done ++ ready ↔ ∀ u, (u, v) ∈ edges → u ∈ done

theorem countP_done {key v : α} {done : List α} (hkey : key ∉ done) : ∀ edges : List (α × α),
    edges.countP (fun e => e.2 = v ∧ e.1 ∉ done) =
      edges.countP (fun e => e.2 = v ∧ e.1 ∉ done ++ [key]) + edges.count (key, v)
  | [] => by simp
  | (u, w) :: edges => by
    have ih := countP_done (v := v) hkey edges
    rw [countP_cons, countP_cons, count_cons, ih]
    generalize edges.countP (fun e => e.2 = v ∧ e.1 ∉ done ++ [key]) = n
    by_cases hw : w = v
    · by_cases hu : u = key
      · simp [hw, hu, hkey]
        omega
      · simp [hw, hu]
        omega
    · simp [hw]

variable {nodes : List α} {edges : List (α × α)} {done ready : List α} {degree : α → Int}

theorem countP_zero {l : List α} :
    edges.countP (fun e => e.2 = v ∧ e.1 ∉ l) = 0 ↔ ∀ u, (u, v) ∈ edges → u ∈ l := by
  rw [countP_eq_zero]
  constructor
  · intro h u hu
    have := h (u, v) hu
    simp only [decide_eq_true_eq, true_and, not_not] at this
    exact this
  · rintro h ⟨u, w⟩ he
    simp only [decide_eq_true_eq, not_and, not_not]
    rintro rfl
    exact h u he

theorem Walking.zero (w : Walking nodes edges done ready degree) (v : α) :
    degree v = 0 ↔ ∀ u, (u, v) ∈ edges → u ∈ done := by
  rw [w.degree, Int.natCast_eq_zero, countP_zero]

theorem Walking.step (hsort : ∀ l, (sort l).Perm l) (hin : ∀ e ∈ edges, e.2 ∈ nodes)
    (w : Walking nodes edges done (key :: ready) degree) :
    Walking nodes edges (done ++ [key]) (ready ++ sort (release degree (after edges key)).2)
      (release degree (after edges key)).1 := by
  have hperm := hsort (release degree (after edges key)).2
  have hkey : key ∉ done := fun h =>
    (nodup_append.1 w.nodup).2.2 key h key mem_cons_self rfl
  have hcount : ∀ v, degree v = (edges.countP (fun e => e.2 = v ∧ e.1 ∉ done ++ [key]) : Int) + edges.count (key, v) := by
    intro v
    rw [w.degree v, countP_done hkey]
    omega
  have hwaits : ∀ v, (after edges key).count v = edges.count (key, v) := fun v => count_after key v edges
  have hbound : ∀ v, ((after edges key).count v : Int) ≤ degree v := by
    intro v
    rw [hwaits, hcount v]
    omega
  obtain ⟨hnodup, hmem⟩ := release_next hbound
  have hnext : ∀ v, v ∈ sort (release degree (after edges key)).2 ↔ (key, v) ∈ edges ∧ degree v = edges.count (key, v) := by
    intro v
    rw [hperm.mem_iff, hmem, mem_after, hwaits]
  have hnew : ∀ v ∈ sort (release degree (after edges key)).2, v ∉ done ++ key :: ready := by
    intro v hv hold
    have hzero := (w.zero v).2 ((w.free v (w.inside v hold)).1 hold)
    obtain ⟨he, hlast⟩ := (hnext v).1 hv
    have := count_pos_iff.2 he
    omega
  have hdegree : ∀ v, (release degree (after edges key)).1 v =
      (edges.countP (fun e => e.2 = v ∧ e.1 ∉ done ++ [key]) : Int) := by
    intro v
    have := hcount v
    rw [release_degree, hwaits]
    omega
  have hzero : ∀ v, (release degree (after edges key)).1 v = 0 ↔ ∀ u, (u, v) ∈ edges → u ∈ done ++ [key] := by
    intro v
    rw [hdegree, Int.natCast_eq_zero, countP_zero]
  have hlist : done ++ [key] ++ (ready ++ sort (release degree (after edges key)).2) =
      (done ++ key :: ready) ++ sort (release degree (after edges key)).2 := by
    rw [append_assoc, append_assoc]
    rfl
  refine ⟨?_, ?_, hdegree, ?_⟩
  · rw [hlist, nodup_append]
    exact ⟨w.nodup, hperm.nodup_iff.2 hnodup, fun a ha b hb he => hnew b hb (he ▸ ha)⟩
  · intro v hv
    rw [hlist, mem_append] at hv
    rcases hv with hv | hv
    · exact w.inside v hv
    · exact hin _ ((hnext v).1 hv).1
  · intro v hv
    rw [hlist, mem_append, ← hzero, release_degree, hwaits]
    constructor
    · rintro (hold | hnew')
      · have hfree := (w.free v hv).1 hold
        rw [count_eq_zero_of_not_mem fun h => hkey (hfree key h), (w.zero v).2 hfree]
        rfl
      · obtain ⟨he, hd⟩ := (hnext v).1 hnew'
        rw [hd, Int.sub_self]
    · intro h
      by_cases he : (key, v) ∈ edges
      · exact .inr ((hnext v).2 ⟨he, by omega⟩)
      · rw [count_eq_zero_of_not_mem he] at h
        exact .inl ((w.free v hv).2 ((w.zero v).1 (by omega)))

theorem Walking.start (hsort : ∀ l, (sort l).Perm l) (hnodes : nodes.Nodup) :
    Walking nodes edges [] (sort (nodes.filter (fun v => (edges.countP (fun e => e.2 = v) : Int) = 0)))
      (fun v => (edges.countP (fun e => e.2 = v) : Int)) := by
  have hperm := hsort (nodes.filter (fun v => (edges.countP (fun e => e.2 = v) : Int) = 0))
  have hcount : ∀ v, edges.countP (fun e => e.2 = v) = edges.countP (fun e => e.2 = v ∧ e.1 ∉ ([] : List α)) := by
    intro v
    simp
  refine ⟨?_, ?_, ?_, ?_⟩
  · rw [nil_append, hperm.nodup_iff]
    exact hnodes.filter _
  · intro v hv
    exact (mem_filter.1 (hperm.mem_iff.1 hv)).1
  · intro v
    rw [hcount]
  · intro v hv
    rw [nil_append, hperm.mem_iff, mem_filter, hcount, decide_eq_true_iff, Int.natCast_eq_zero, countP_zero]
    exact and_iff_right hv

theorem Walking.legal (hsort : ∀ l, (sort l).Perm l)
    (hin : ∀ e ∈ edges, e.2 ∈ nodes) : ∀ (n : Nat) {done ready : List α} {degree : α → Int},
      Walking nodes edges done ready degree → Legal edges done (order (after edges) sort n ready degree)
  | 0, _, _, _, _ => trivial
  | _ + 1, _, [], _, _ => trivial
  | n + 1, done, key :: ready, degree, w => by
    have hmem : key ∈ done ++ key :: ready := mem_append_right _ mem_cons_self
    refine ⟨fun h => (nodup_append.1 w.nodup).2.2 key h key mem_cons_self rfl, ?_, ?_⟩
    · exact (w.free key (w.inside key hmem)).1 hmem
    · exact (w.step hsort hin).legal hsort hin n

def Clear (edges : List (α × α)) (v : α) : Prop :=
  ∀ u, Relation.ReflTransGen (fun u v => (u, v) ∈ edges) u v → ¬ Relation.TransGen (fun u v => (u, v) ∈ edges) u u

omit [DecidableEq α] in
theorem Acyclic.clear (h : Acyclic edges) (v : α) : Clear edges v := fun u _ => h u

omit [DecidableEq α] in
theorem Clear.above (h : Clear edges v) (huv : Relation.ReflTransGen (fun u v => (u, v) ∈ edges) u v) : Clear edges u :=
  fun w hw => h w (hw.trans huv)

theorem Clear.exists_free (hin : ∀ e ∈ edges, e.1 ∈ nodes) (h : Clear edges v) (hv : v ∈ nodes)
    (hdone : v ∉ done) : ∃ w ∈ nodes, w ∉ done ∧ ∀ u, (u, w) ∈ edges → u ∈ done := by
  let waits (a b : {x // x ∈ nodes ∧ Clear edges x}) : Prop := Relation.TransGen (fun u v => (u, v) ∈ edges) a.1 b.1
  have : Finite {x // x ∈ nodes ∧ Clear edges x} :=
    Finite.of_injective (fun x => (⟨x.1, x.2.1⟩ : {x // x ∈ nodes})) fun a b hab => Subtype.ext (congrArg (fun x => x.1) hab)
  have : IsTrans {x // x ∈ nodes ∧ Clear edges x} waits := ⟨fun _ _ _ => Relation.TransGen.trans⟩
  have : Std.Irrefl waits := ⟨fun a => a.2.2 a.1 .refl⟩
  have hwf : WellFounded waits := Finite.wellFounded_of_trans_of_irrefl _
  obtain ⟨⟨w, hw, hclear⟩, hwd, hmin⟩ := hwf.has_min {x | x.1 ∉ done} ⟨⟨v, hv, h⟩, hdone⟩
  refine ⟨w, hw, hwd, fun u hu => ?_⟩
  by_contra hud
  exact hmin ⟨u, hin _ hu, hclear.above (.single hu)⟩ hud (.single hu)

theorem Walking.reaches (hsort : ∀ l, (sort l).Perm l)
    (hin : ∀ e ∈ edges, e.1 ∈ nodes ∧ e.2 ∈ nodes) (h : Clear edges v) (hv : v ∈ nodes) : ∀ (n : Nat) {done ready : List α}
      {degree : α → Int}, Walking nodes edges done ready degree → nodes.length ≤ done.length + n →
        v ∈ done ++ order (after edges) sort n ready degree
  | 0, done, ready, degree, w, hn => by
    have hsub : done.Subperm nodes := subperm_of_subset (nodup_append.1 w.nodup).1
      fun x hx => w.inside x (mem_append_left _ hx)
    have hperm := hsub.perm_of_length_le (by omega)
    rw [order, append_nil]
    exact hperm.mem_iff.2 hv
  | n + 1, done, [], degree, w, _ => by
    by_contra hno
    rw [order, append_nil] at hno
    obtain ⟨x, hx, hxd, hfree⟩ := h.exists_free (fun e he => (hin e he).1) hv hno
    have := (w.free x hx).2 hfree
    rw [append_nil] at this
    exact hxd this
  | n + 1, done, key :: ready, degree, w, hn => by
    have hstep := w.step hsort fun e he => (hin e he).2
    have := hstep.reaches hsort hin h hv n (by rw [length_append, length_singleton]; omega)
    rw [append_assoc] at this
    exact this

omit [DecidableEq α] in
theorem legal_clear : ∀ {visits done : List α}, Legal edges done visits → (∀ u ∈ done, Clear edges u) → ∀ v ∈ visits, Clear edges v
  | [], _, _, _, v, hv => absurd hv not_mem_nil
  | w :: visits, done, ⟨hw, hwaits, hrest⟩, hdone, v, hv => by
    have hclear : Clear edges w := by
      intro u hu hcycle
      rcases Relation.ReflTransGen.cases_tail hu with rfl | ⟨x, hux, hxw⟩
      · -- the last step of the circle comes from a node visited before
        obtain ⟨x, hux, hxw⟩ := Relation.TransGen.tail'_iff.1 hcycle
        exact hdone x (hwaits x hxw) x .refl ((Relation.TransGen.single hxw).trans_left hux)
      · exact hdone x (hwaits x hxw) u hux hcycle
    rcases mem_cons.1 hv with rfl | hv
    · exact hclear
    · refine legal_clear hrest (fun u hu => ?_) v hv
      rcases mem_append.1 hu with hu | hu
      · exact hdone u hu
      · rw [mem_singleton.1 hu]
        exact hclear

/-! ## Settling values along the walk -/

section
variable {β γ : Type}

def settle (act : α → β → (α → β) → β × List γ) (visits : List α) (s : (α → β) × List γ) : (α → β) × List γ :=
  visits.foldl (fun s v => (Function.update s.1 v (act v (s.1 v) s.1).1, s.2 ++ (act v (s.1 v) s.1).2)) s

def Reads (edges : List (α × α)) (act : α → β → (α → β) → β × List γ) : Prop :=
  ∀ v b s s', (∀ u, (u, v) ∈ edges → s u = s' u) → act v b s = act v b s'

theorem settle_cons (act : α → β → (α → β) → β × List γ) (v : α) (visits : List α) (s : (α → β) × List γ) :
    settle act (v :: visits) s =
      settle act visits (Function.update s.1 v (act v (s.1 v) s.1).1, s.2 ++ (act v (s.1 v) s.1).2) := rfl

omit [DecidableEq α] in
theorem legal_not_mem : ∀ {visits done : List α}, Legal edges done visits → ∀ v ∈ visits, v ∉ done
  | w :: visits, done, ⟨hw, _, hrest⟩, v, hv, hdone => by
    rcases mem_cons.1 hv with rfl | hv
    · exact hw hdone
    · exact legal_not_mem hrest v hv (mem_append_left _ hdone)

omit [DecidableEq α] in
theorem legal_nodup : ∀ {visits done : List α}, Legal edges done visits → visits.Nodup
  | [], _, _ => nodup_nil
  | w :: _, done, ⟨_, _, hrest⟩ =>
    nodup_cons.2 ⟨fun h => legal_not_mem hrest w h (mem_append_right done (mem_singleton_self w)), legal_nodup hrest⟩

theorem settle_other (act : α → β → (α → β) → β × List γ) : ∀ (visits : List α) (s : (α → β) × List γ) {v : α},
    v ∉ visits → (settle act visits s).1 v = s.1 v
  | [], _, _, _ => rfl
  | w :: visits, s, v, hv => by
    rw [mem_cons, not_or] at hv
    rw [settle_cons, settle_other act visits _ hv.2]
    exact Function.update_of_ne hv.1 _ _

theorem settle_still {act : α → β → (α → β) → β × List γ} {s : α → β} (h : ∀ v, act v (s v) s = (s v, [])) :
    ∀ visits : List α, settle act visits (s, []) = (s, [])
  | [] => rfl
  | v :: visits => by
    rw [settle_cons]
    dsimp only
    rw [h v, Function.update_eq_self, append_nil]
    exact settle_still h visits

theorem settle_fixed {act : α → β → (α → β) → β × List γ} (hact : Reads edges act) : ∀ {visits done : List α},
    Legal edges done visits → ∀ s : (α → β) × List γ,
      (∀ v ∈ visits, (settle act visits s).1 v = (act v (s.1 v) (settle act visits s).1).1) ∧
        (settle act visits s).2 = s.2 ++ visits.flatMap (fun v => (act v (s.1 v) (settle act visits s).1).2)
  | [], _, _, s => ⟨nofun, (append_nil _).symm⟩
  | w :: visits, done, h, s => by
    obtain ⟨hw, hbefore, hrest⟩ := h
    let s' : (α → β) × List γ := (Function.update s.1 w (act w (s.1 w) s.1).1, s.2 ++ (act w (s.1 w) s.1).2)
    obtain ⟨ih₁, ih₂⟩ := settle_fixed hact hrest s'
    have hlater := legal_not_mem hrest
    have hself : act w (s.1 w) s.1 = act w (s.1 w) (settle act visits s').1 := by
      refine hact w _ _ _ fun u hu => ?_
      have hud := hbefore u hu
      rw [settle_other act visits s' fun hu' => hlater u hu' (mem_append_left _ hud)]
      exact (Function.update_of_ne (fun he => hw (he ▸ hud) : u ≠ w) _ _).symm
    have hfirst : ∀ v ∈ visits, s'.1 v = s.1 v := by
      intro v hv
      refine Function.update_of_ne ?_ _ _
      rintro rfl
      exact hlater v hv (mem_append_right _ (mem_singleton_self v))
    rw [settle_cons]
    refine ⟨fun v hv => ?_, ?_⟩
    · rcases mem_cons.1 hv with rfl | hv
      · rw [← hself, settle_other act visits s' fun hv' => hlater v hv' (mem_append_right _ (mem_singleton_self v))]
        exact Function.update_self _ _ _
      · rw [← hfirst v hv]
        exact ih₁ v hv
    · rw [flatMap_cons, ← hself, ← append_assoc]
      refine ih₂.trans (congrArg _ ?_)
      exact flatMap_congr fun v hv => by rw [hfirst v hv]

end

/-! ## Reachability -/

def discover : List α → List α → List α × List α
  | [], reached => ([], reached)
  | v :: vs, reached =>
    if v ∈ reached then discover vs reached
    else
      let (queue, reached) := discover vs (reached ++ [v])
      (v :: queue, reached)

def search (after : α → List α) : Nat → List α → List α → List α
  | 0, _, reached => reached
  | _ + 1, [], reached => reached
  | n + 1, next :: queue, reached =>
    let (new, reached) := discover (after next) reached
    search after n (queue ++ new) reached

theorem discover_snd : ∀ (vs reached : List α), (discover vs reached).2 = reached ++ (discover vs reached).1
  | [], reached => (append_nil reached).symm
  | v :: vs, reached => by
    rw [discover]
    split
    · exact discover_snd vs reached
    · dsimp only
      rw [discover_snd vs (reached ++ [v]), append_assoc]
      rfl

theorem mem_discover {w : α} : ∀ {vs reached : List α},
    w ∈ (discover vs reached).2 ↔ w ∈ reached ∨ w ∈ vs
  | [], reached => by simp [discover]
  | v :: vs, reached => by
    rw [discover]
    split
    · rename_i hv
      rw [mem_discover, mem_cons]
      constructor
      · exact Or.imp_right .inr
      · rintro (h | rfl | h)
        · exact .inl h
        · exact .inl hv
        · exact .inr h
    · dsimp only
      rw [mem_discover, mem_append, mem_singleton, mem_cons, or_assoc]

theorem discover_nodup : ∀ {vs reached : List α}, reached.Nodup → (discover vs reached).2.Nodup
  | [], _, h => h
  | v :: vs, reached, h => by
    rw [discover]
    split
    · exact discover_nodup h
    · rename_i hv
      refine discover_nodup (nodup_append.2 ⟨h, nodup_singleton v, fun a ha b hb he => ?_⟩)
      rw [mem_singleton] at hb
      exact hv (hb ▸ he ▸ ha)

/-- The search's state: `reached` are reachable, and what follows them is too, or they wait in the queue. -/
structure Searching (edges : List (α × α)) (key : α) (queue reached : List α) : Prop where
  nodup : reached.Nodup
  sound : ∀ v ∈ reached, Relation.TransGen (fun u v => (u, v) ∈ edges) key v
  queued : ∀ v ∈ queue, v = key ∨ v ∈ reached
  closed : ∀ u, u = key ∨ u ∈ reached → u ∈ queue ∨ ∀ v, (u, v) ∈ edges → v ∈ reached

theorem Searching.step {next : α} {queue reached : List α} (s : Searching edges key (next :: queue) reached) :
    Searching edges key (queue ++ (discover (after edges next) reached).1) (discover (after edges next) reached).2 := by
  have hnext := s.queued next mem_cons_self
  refine ⟨discover_nodup s.nodup, fun v hv => ?_, fun v hv => ?_, fun u hu => ?_⟩
  · rcases mem_discover.1 hv with hv | hv
    · exact s.sound v hv
    · rcases hnext with rfl | hnext
      · exact .single (mem_after.1 hv)
      · exact (s.sound next hnext).tail (mem_after.1 hv)
  · rcases mem_append.1 hv with hv | hv
    · exact (s.queued v (mem_cons_of_mem _ hv)).imp_right fun h => mem_discover.2 (.inl h)
    · rw [discover_snd]
      exact .inr (mem_append_right _ hv)
  · have hold : u = key ∨ u ∈ reached → u ∈ queue ++ (discover (after edges next) reached).1 ∨
        ∀ v, (u, v) ∈ edges → v ∈ (discover (after edges next) reached).2 := by
      intro hu
      rcases s.closed u hu with hq | hall
      · rcases mem_cons.1 hq with rfl | hq
        · exact .inr fun v hv => mem_discover.2 (.inr (mem_after.2 hv))
        · exact .inl (mem_append_left _ hq)
      · exact .inr fun v hv => mem_discover.2 (.inl (hall v hv))
    rcases hu with hu | hu
    · exact hold (.inl hu)
    · rw [discover_snd, mem_append] at hu
      rcases hu with hu | hu
      · exact hold (.inr hu)
      · exact .inl (mem_append_right _ hu)

theorem Searching.run {key : α} : ∀ (n : Nat) {queue reached : List α}, Searching edges key queue reached →
    queue.length + edges.length ≤ n + reached.length → Searching edges key [] (search (after edges) n queue reached)
  | 0, queue, reached, s, hn => by
    have htargets : ∀ v ∈ reached, v ∈ edges.map Prod.snd := by
      intro v hv
      obtain ⟨u, _, hu⟩ := Relation.TransGen.tail'_iff.1 (s.sound v hv)
      exact mem_map.2 ⟨(u, v), hu, rfl⟩
    have hlen := (subperm_of_subset s.nodup htargets).length_le
    rw [length_map] at hlen
    have hqueue : queue = [] := length_eq_zero_iff.1 (by omega)
    subst hqueue
    exact s
  | _ + 1, [], _, s, _ => s
  | n + 1, next :: queue, reached, s, hn => by
    refine Searching.run n s.step ?_
    rw [discover_snd, length_append, length_append]
    rw [length_cons] at hn
    omega

theorem mem_search : v ∈ search (after edges) (edges.length + 1) [key] [] ↔
    Relation.TransGen (fun u v => (u, v) ∈ edges) key v := by
  have hstart : Searching edges key [key] [] := by
    refine ⟨nodup_nil, nofun, fun v hv => .inl (mem_singleton.1 hv), fun u hu => .inl ?_⟩
    rcases hu with rfl | hu
    · exact mem_singleton_self u
    · cases hu
  have s := hstart.run (edges.length + 1) (by rw [length_singleton, length_nil]; omega)
  have hclosed : ∀ u v, u = key ∨ u ∈ search (after edges) (edges.length + 1) [key] [] → (u, v) ∈ edges →
      v ∈ search (after edges) (edges.length + 1) [key] [] := by
    intro u v hu
    exact ((s.closed u hu).resolve_left not_mem_nil) v
  refine ⟨s.sound v, fun h => ?_⟩
  induction h with
  | single hv => exact hclosed _ _ (.inl rfl) hv
  | tail _ hv ih => exact hclosed _ _ (.inr ih) hv

end Kahn
end Armature
