import Mathlib.Data.List.Induction
import Mathlib.Data.List.Perm.Basic
/-!
# HeldBack — a pass that holds some refusals back

What is tried may take more along, which then counts as applied, and some refusals are held back until all has been tried.
Where what goes by itself, and what that takes along, do not hang on what was tried before, what comes of a pass does not
hang on the order (`run_verdict`).
-/
namespace Armature
namespace HeldBack

open List

variable {σ κ ε : Type}

/-- What a try comes to. -/
inductive Try (σ ε : Type) where
  | done (s : σ)
  | refused (e : ε)
  | held (e : ε)

structure Tally (σ κ ε : Type) where
  state : σ
  applied : List κ
  refused : List (κ × ε)
  deferred : List (κ × ε)

section
variable (carried : σ → κ → Bool) (attempt : σ → κ → Try σ ε)

def next (t : Tally σ κ ε) (k : κ) : Tally σ κ ε :=
  if carried t.state k then { t with applied := t.applied ++ [k] }
  else
    match attempt t.state k with
    | .done s => { t with state := s, applied := t.applied ++ [k] }
    | .refused e => { t with refused := t.refused ++ [(k, e)] }
    | .held e => { t with deferred := t.deferred ++ [(k, e)] }

def settle (t : Tally σ κ ε) (d : κ × ε) : Tally σ κ ε :=
  if carried t.state d.1 then { t with applied := t.applied ++ [d.1] } else { t with refused := t.refused ++ [d] }

def tried (s : σ) (ks : List κ) : Tally σ κ ε := ks.foldl (next carried attempt) ⟨s, [], [], []⟩

def run (s : σ) (ks : List κ) : Tally σ κ ε :=
  let t := tried carried attempt s ks
  t.deferred.foldl (settle carried) t

theorem tried_concat (s : σ) (ks : List κ) (k : κ) :
    tried carried attempt s (ks ++ [k]) = next carried attempt (tried carried attempt s ks) k := foldl_concat ..

/-! ## Each once -/

theorem next_once (t : Tally σ κ ε) (k : κ) : ((next carried attempt t k).applied ++
    ((next carried attempt t k).refused ++ (next carried attempt t k).deferred).map Prod.fst).Perm
      ((t.applied ++ (t.refused ++ t.deferred).map Prod.fst) ++ [k]) := by
  have hfront : (t.applied ++ [k] ++ (t.refused ++ t.deferred).map Prod.fst).Perm
      ((t.applied ++ (t.refused ++ t.deferred).map Prod.fst) ++ [k]) := by
    rw [append_assoc, append_assoc]
    exact perm_append_comm.append_left _
  unfold next
  split
  · exact hfront
  · split
    · exact hfront
    · rename_i e _
      have hswap : (t.refused ++ [(k, e)] ++ t.deferred).Perm (t.refused ++ t.deferred ++ [(k, e)]) := by
        rw [append_assoc, append_assoc]
        exact perm_append_comm.append_left _
      have hlast : (t.refused ++ t.deferred ++ [(k, e)]).map Prod.fst = (t.refused ++ t.deferred).map Prod.fst ++ [k] :=
        map_append
      have hkeys := (hswap.map Prod.fst).append_left t.applied
      rw [hlast, ← append_assoc] at hkeys
      exact hkeys
    · dsimp only
      rw [← append_assoc, map_append, ← append_assoc]
      exact List.Perm.refl _

theorem tried_once (s : σ) (ks : List κ) : ((tried carried attempt s ks).applied ++
    ((tried carried attempt s ks).refused ++ (tried carried attempt s ks).deferred).map Prod.fst).Perm ks := by
  induction ks using List.reverseRec with
  | nil => exact List.Perm.refl _
  | append_singleton ks k ih =>
    rw [tried_concat]
    exact (next_once carried attempt _ k).trans (ih.append_right _)

theorem settle_state (t : Tally σ κ ε) (d : κ × ε) : (settle carried t d).state = t.state := by
  unfold settle
  split <;> rfl

theorem settle_once (t : Tally σ κ ε) (d : κ × ε) :
    ((settle carried t d).applied ++ (settle carried t d).refused.map Prod.fst).Perm
      (d.1 :: (t.applied ++ t.refused.map Prod.fst)) := by
  unfold settle
  split
  · dsimp only
    rw [append_assoc]
    exact perm_middle
  · dsimp only
    rw [map_append, ← append_assoc]
    exact perm_append_comm

theorem settled_once : ∀ (ds : List (κ × ε)) (t : Tally σ κ ε),
    ((ds.foldl (settle carried) t).applied ++ (ds.foldl (settle carried) t).refused.map Prod.fst).Perm
      (t.applied ++ (t.refused ++ ds).map Prod.fst)
  | [], t => by rw [append_nil]; exact List.Perm.refl _
  | d :: ds, t => by
    refine (settled_once ds (settle carried t d)).trans ?_
    rw [map_append, map_append, map_cons, ← append_assoc, ← append_assoc]
    exact ((settle_once carried t d).append_right _).trans perm_middle.symm

theorem run_once (s : σ) (ks : List κ) :
    ((run carried attempt s ks).applied ++ (run carried attempt s ks).refused.map Prod.fst).Perm ks :=
  (settled_once carried _ _).trans (tried_once carried attempt s ks)

theorem settled_state : ∀ (ds : List (κ × ε)) (t : Tally σ κ ε), (ds.foldl (settle carried) t).state = t.state
  | [], _ => rfl
  | d :: ds, t => (settled_state ds (settle carried t d)).trans (settle_state carried t d)

theorem settled_applied (k : κ) : ∀ (ds : List (κ × ε)) (t : Tally σ κ ε),
    k ∈ (ds.foldl (settle carried) t).applied ↔ k ∈ t.applied ∨ (k ∈ ds.map Prod.fst ∧ carried t.state k = true)
  | [], t => by simp
  | d :: ds, t => by
    rw [foldl_cons, settled_applied k ds, settle_state, map_cons, mem_cons]
    have hone : k ∈ (settle carried t d).applied ↔ k ∈ t.applied ∨ (k = d.1 ∧ carried t.state k = true) := by
      unfold settle
      split
      · rename_i hc
        rw [mem_append, mem_singleton]
        exact or_congr_right ⟨fun he => ⟨he, he ▸ hc⟩, fun h => h.1⟩
      · rename_i hc
        exact ⟨.inl, fun h => h.resolve_right fun h => hc (h.1 ▸ h.2)⟩
    rw [hone, or_and_right, or_assoc]

theorem settled_refused {k : κ} : ∀ (ds : List (κ × ε)) (t : Tally σ κ ε), k ∈ (ds.foldl (settle carried) t).refused.map Prod.fst →
    k ∈ t.refused.map Prod.fst ∨ (k ∈ ds.map Prod.fst ∧ carried t.state k = false)
  | [], _, h => .inl h
  | d :: ds, t, h => by
    rcases settled_refused ds (settle carried t d) h with hk | ⟨hk, hc⟩
    · unfold settle at hk
      split at hk
      · exact .inl hk
      · rename_i hc
        rw [map_append, mem_append] at hk
        rcases hk with hk | hk
        · exact .inl hk
        · obtain rfl := mem_singleton.1 hk
          exact .inr ⟨mem_cons_self, Bool.not_eq_true _ ▸ hc⟩
    · rw [settle_state] at hc
      exact .inr ⟨mem_cons_of_mem _ hk, hc⟩

end

/-! ## In any order -/

structure Steady (carried : σ → κ → Bool) (attempt : σ → κ → Try σ ε) (At : List κ → σ → Prop) (fit goes : κ → Prop)
    (takes : κ → κ → Prop) : Prop where
  carried_iff {ks s k} (h : At ks s) (hk : fit k) : carried s k = true ↔ ∃ g ∈ ks, goes g ∧ takes g k
  carry {ks s k} (h : At ks s) (hk : fit k) (hc : carried s k = true) : At (ks ++ [k]) s
  go {ks s k} (h : At ks s) (hk : fit k) (hc : carried s k = false) (hg : goes k) :
    ∃ s', attempt s k = .done s' ∧ At (ks ++ [k]) s'
  stay {ks s k} (h : At ks s) (hk : fit k) (hc : carried s k = false) (hg : ¬ goes k) :
    (∀ s', attempt s k ≠ .done s') ∧ At (ks ++ [k]) s
  /-- What is refused for good is taken along by nothing. -/
  final {ks s k e} (h : At ks s) (hk : fit k) (hc : carried s k = false) (he : attempt s k = .refused e) :
    ∀ g, fit g → goes g → ¬ takes g k
  self {k} (hk : fit k) (hg : goes k) : takes k k

section
variable {carried : σ → κ → Bool} {attempt : σ → κ → Try σ ε} {At : List κ → σ → Prop} {fit goes : κ → Prop}
  {takes : κ → κ → Prop}

/-- What has come of the keys tried so far. -/
structure Told (At : List κ → σ → Prop) (fit goes : κ → Prop) (takes : κ → κ → Prop) (ks : List κ) (t : Tally σ κ ε) : Prop where
  at_ : At ks t.state
  applied : ∀ k ∈ t.applied, ∃ g ∈ ks, goes g ∧ takes g k
  refused : ∀ k ∈ t.refused.map Prod.fst, ∀ g, fit g → goes g → ¬ takes g k
  deferred : ∀ k ∈ t.deferred.map Prod.fst, k ∈ ks

theorem Told.next (h : Steady carried attempt At fit goes takes) {ks : List κ} {t : Tally σ κ ε}
    (ht : Told At fit goes takes ks t) {k : κ} (hk : fit k) : Told At fit goes takes (ks ++ [k]) (next carried attempt t k) := by
  have happlied : ∀ k' ∈ t.applied, ∃ g ∈ ks ++ [k], goes g ∧ takes g k' := fun k' hk' => by
    obtain ⟨g, hg, hboth⟩ := ht.applied k' hk'
    exact ⟨g, mem_append_left _ hg, hboth⟩
  have hdeferred : ∀ k' ∈ t.deferred.map Prod.fst, k' ∈ ks ++ [k] := fun k' hk' => mem_append_left _ (ht.deferred k' hk')
  have hnew : (∃ g ∈ ks ++ [k], goes g ∧ takes g k) → ∀ k' ∈ t.applied ++ [k], ∃ g ∈ ks ++ [k], goes g ∧ takes g k' :=
    fun hone k' hk' => (mem_append.1 hk').elim (happlied k') fun he => mem_singleton.1 he ▸ hone
  unfold HeldBack.next
  split
  · rename_i hc
    obtain ⟨g, hg, hboth⟩ := (h.carried_iff ht.at_ hk).1 hc
    exact ⟨h.carry ht.at_ hk hc, hnew ⟨g, mem_append_left _ hg, hboth⟩, ht.refused, hdeferred⟩
  · rename_i hc
    rw [Bool.not_eq_true] at hc
    by_cases hg : goes k
    · obtain ⟨s', hdone, hat⟩ := h.go ht.at_ hk hc hg
      rw [hdone]
      exact ⟨hat, hnew ⟨k, mem_append_right _ mem_cons_self, hg, h.self hk hg⟩, ht.refused, hdeferred⟩
    · obtain ⟨hnot, hat⟩ := h.stay ht.at_ hk hc hg
      split
      · rename_i s' hdone
        exact absurd hdone (hnot s')
      · rename_i e he
        refine ⟨hat, happlied, fun k' hk' => ?_, hdeferred⟩
        rw [map_append, mem_append] at hk'
        exact hk'.elim (ht.refused k') fun hk' => mem_singleton.1 hk' ▸ h.final ht.at_ hk hc he
      · refine ⟨hat, happlied, ht.refused, fun k' hk' => ?_⟩
        rw [map_append, mem_append] at hk'
        exact hk'.elim (hdeferred k') fun hk' => mem_append_right _ hk'

theorem tried_told (h : Steady carried attempt At fit goes takes) {s : σ} (hs : At [] s) {ks : List κ} (hfit : ∀ k ∈ ks, fit k) :
    Told At fit goes takes ks (tried carried attempt s ks) := by
  induction ks using List.reverseRec with
  | nil => exact ⟨hs, fun _ hk => (nomatch hk), fun _ hk => (nomatch hk), fun _ hk => (nomatch hk)⟩
  | append_singleton ks k ih =>
    rw [tried_concat]
    exact (ih fun k' hk' => hfit k' (mem_append_left _ hk')).next h
      (hfit k (mem_append_right _ mem_cons_self))

theorem run_verdict (h : Steady carried attempt At fit goes takes) {s : σ} (hs : At [] s) {ks : List κ} (hfit : ∀ k ∈ ks, fit k) :
    At ks (run carried attempt s ks).state ∧
      (∀ k, k ∈ (run carried attempt s ks).applied ↔ k ∈ ks ∧ ∃ g ∈ ks, goes g ∧ takes g k) ∧
      ∀ k, k ∈ (run carried attempt s ks).refused.map Prod.fst ↔ k ∈ ks ∧ ¬ ∃ g ∈ ks, goes g ∧ takes g k := by
  have ht := tried_told h hs hfit
  have hat : At ks (run carried attempt s ks).state := by
    unfold run
    dsimp only
    rw [settled_state]
    exact ht.at_
  have hmem : ∀ k, k ∈ (run carried attempt s ks).applied ∨ k ∈ (run carried attempt s ks).refused.map Prod.fst ↔ k ∈ ks :=
    fun k => mem_append.symm.trans (run_once carried attempt s ks).mem_iff
  have happlied : ∀ k ∈ (run carried attempt s ks).applied, ∃ g ∈ ks, goes g ∧ takes g k := by
    intro k hk
    rcases (settled_applied carried k _ _).1 hk with hk | ⟨hk, hc⟩
    · exact ht.applied k hk
    · exact (h.carried_iff ht.at_ (hfit k (ht.deferred k hk))).1 hc
  have hrefused : ∀ k ∈ (run carried attempt s ks).refused.map Prod.fst, ¬ ∃ g ∈ ks, goes g ∧ takes g k := by
    intro k hk
    rintro ⟨g, hg, hgoes, htakes⟩
    rcases settled_refused carried _ _ hk with hk | ⟨hk, hc⟩
    · exact ht.refused k hk g (hfit g hg) hgoes htakes
    · rw [(h.carried_iff ht.at_ (hfit k (ht.deferred k hk))).2 ⟨g, hg, hgoes, htakes⟩] at hc
      cases hc
  refine ⟨hat, fun k => ⟨fun hk => ⟨(hmem k).1 (.inl hk), happlied k hk⟩, fun hk => ?_⟩,
    fun k => ⟨fun hk => ⟨(hmem k).1 (.inr hk), hrefused k hk⟩, fun hk => ?_⟩⟩
  · exact ((hmem k).2 hk.1).resolve_right fun hr => hrefused k hr hk.2
  · exact ((hmem k).2 hk.1).resolve_left fun ha => hk.2 (happlied k ha)

end

end HeldBack
end Armature
