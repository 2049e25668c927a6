import Armature.IssueTrail
/-!
# IssueSubtree — what is under an issue, at any depth (`issue/movesubtree.go`)

Where levels fall from each issue to those right under it, `subtreeOf` finds all that is beneath an issue (`mem_subtreeOf`).
-/
namespace Armature
namespace Issues

open List
open Wf (Uuid)

def Beneath (db : Db) (root id : Uuid) : Prop := ∃ d, Depth db root d id

def Falls (db : Db) : Prop := ∃ level : Uuid → Int, ∀ i ∈ db.issues, ∀ p, i.parentID = some p → level i.id < level p

section
variable {db : Db}

theorem Beneath.refl (id : Uuid) : Beneath db id id := ⟨0, .root⟩

theorem Depth.trans {root mid : Uuid} {m : Nat} (h : Depth db root m mid) : ∀ {n : Nat} {x : Uuid}, Depth db mid n x →
    Depth db root (m + n) x
  | _, _, .root => h
  | _, _, .child hp hi hpar => .child (h.trans hp) hi hpar

theorem Beneath.trans {root mid id : Uuid} (h : Beneath db root mid) (h' : Beneath db mid id) : Beneath db root id := by
  obtain ⟨m, hm⟩ := h
  obtain ⟨n, hn⟩ := h'
  exact ⟨m + n, hm.trans hn⟩

theorem Beneath.child {root p : Uuid} {i : Issue} (h : Beneath db root p) (hi : i ∈ db.issues) (hpar : i.parentID = some p) :
    Beneath db root i.id := by
  obtain ⟨d, hd⟩ := h
  exact ⟨d + 1, hd.child hi hpar⟩

theorem Depth.first {root : Uuid} : ∀ {n : Nat} {x : Uuid}, Depth db root (n + 1) x →
    ∃ c ∈ db.issues, c.parentID = some root ∧ Depth db c.id n x
  | 0, _, .child .root hi hpar => ⟨_, hi, hpar, .root⟩
  | n + 1, _, .child hp hi hpar => by
    obtain ⟨c, hc, hcpar, hdepth⟩ := hp.first
    exact ⟨c, hc, hcpar, hdepth.child hi hpar⟩

theorem mem_subtreeFrom {j : Issue} : ∀ {n : Nat} {ids : List Uuid}, j ∈ subtreeFrom db n ids ↔
    j ∈ db.issues ∧ ∃ x ∈ ids, ∃ d < n, ∃ p, Depth db x d p ∧ j.parentID = some p
  | 0, _ => ⟨fun h => (nomatch h), fun ⟨_, _, _, _, h, _⟩ => absurd h (Nat.not_lt_zero _)⟩
  | n + 1, ids => by
    rw [subtreeFrom, mem_append, mem_childrenOf, mem_subtreeFrom]
    constructor
    · rintro (⟨hj, p, hp, hpar⟩ | ⟨hj, x, hx, d, hd, p, hdepth, hpar⟩)
      · exact ⟨hj, p, hp, 0, Nat.succ_pos n, p, .root, hpar⟩
      · obtain ⟨c, hc, rfl⟩ := mem_map.1 hx
        obtain ⟨hmem, y, hy, hcpar⟩ := mem_childrenOf.1 hc
        refine ⟨hj, y, hy, d + 1, Nat.succ_lt_succ hd, p, ?_, hpar⟩
        rw [Nat.add_comm]
        exact (Depth.child .root hmem hcpar).trans hdepth
    · rintro ⟨hj, x, hx, d, hd, p, hdepth, hpar⟩
      cases d with
      | zero =>
        cases hdepth
        exact .inl ⟨hj, x, hx, hpar⟩
      | succ d =>
        obtain ⟨c, hc, hcpar, hrest⟩ := hdepth.first
        exact .inr ⟨hj, c.id, mem_map_of_mem (mem_childrenOf.2 ⟨hc, x, hx, hcpar⟩), d, Nat.lt_of_succ_lt_succ hd, p, hrest, hpar⟩

theorem Depth.passes {level : Uuid → Int} (h : ∀ i ∈ db.issues, ∀ p, i.parentID = some p → level i.id < level p) {root : Uuid} :
    ∀ {d : Nat} {x : Uuid}, Depth db root d x → ∃ ids : List Uuid, ids.Nodup ∧ ids.length = d ∧ ids ⊆ db.issues.map Issue.id ∧
      ∀ y ∈ ids, level x ≤ level y
  | _, _, .root => ⟨[], nodup_nil, rfl, nil_subset _, fun _ h => (nomatch h)⟩
  | _, _, .child (i := i) hp hi hpar => by
    obtain ⟨ids, hnodup, hlen, hsub, habove⟩ := hp.passes h
    have hfall := h i hi _ hpar
    refine ⟨i.id :: ids, nodup_cons.2 ⟨fun hin => ?_, hnodup⟩, congrArg (· + 1) hlen,
      cons_subset.2 ⟨mem_map_of_mem hi, hsub⟩, forall_mem_cons.2 ⟨Int.le_refl _, fun y hy => ?_⟩⟩
    · have := habove _ hin
      omega
    · have := habove y hy
      omega

theorem Depth.le_length (h : Falls db) {root x : Uuid} {d : Nat} (hd : Depth db root d x) : d ≤ db.issues.length := by
  obtain ⟨level, hlevel⟩ := h
  obtain ⟨ids, hnodup, rfl, hsub, -⟩ := hd.passes hlevel
  rw [← length_map (f := Issue.id)]
  exact (subperm_of_subset hnodup hsub).length_le

theorem mem_subtreeOf (h : Falls db) {root : Uuid} {j : Issue} : j ∈ subtreeOf db root ↔
    j ∈ db.issues ∧ ∃ p, Beneath db root p ∧ j.parentID = some p := by
  unfold subtreeOf
  rw [mem_subtreeFrom]
  refine and_congr_right fun hj => ⟨?_, ?_⟩
  · rintro ⟨x, hx, d, -, p, hdepth, hpar⟩
    obtain rfl := mem_singleton.1 hx
    exact ⟨p, ⟨d, hdepth⟩, hpar⟩
  · rintro ⟨p, ⟨d, hdepth⟩, hpar⟩
    exact ⟨root, mem_singleton_self _, d, (hdepth.child hj hpar).le_length h, p, hdepth, hpar⟩

theorem mem_under (h : Falls db) (hids : (db.issues.map Issue.id).Nodup) {root j : Issue} (hroot : root ∈ db.issues) :
    j ∈ root :: subtreeOf db root.id ↔ j ∈ db.issues ∧ Beneath db root.id j.id := by
  rw [mem_cons, mem_subtreeOf h]
  constructor
  · rintro (rfl | ⟨hj, p, hp, hpar⟩)
    · exact ⟨hroot, .refl _⟩
    · exact ⟨hj, hp.child hj hpar⟩
  · rintro ⟨hj, d, hd⟩
    generalize hx : j.id = x at hd
    cases hd with
    | root => exact .inl (inj_on_of_nodup_map hids hj hroot hx)
    | @child n p i hp hi hpar =>
      obtain rfl := inj_on_of_nodup_map hids hj hi hx
      exact .inr ⟨hj, p, ⟨n, hp⟩, hpar⟩

/-! ## Lines that meet -/

theorem Beneath.of_top (hids : (db.issues.map Issue.id).Nodup) {i : Issue} (hi : i ∈ db.issues) (hpar : i.parentID = none)
    {root : Uuid} (h : Beneath db root i.id) : root = i.id := by
  obtain ⟨d, hd⟩ := h
  generalize hx : i.id = x at hd
  cases hd with
  | root => rfl
  | @child n p j _ hj hp =>
    obtain rfl := inj_on_of_nodup_map hids hi hj hx
    exact absurd (hpar.symm.trans hp) (Option.some_ne_none p).symm

theorem Depth.meet (hids : (db.issues.map Issue.id).Nodup) {a b : Uuid} : ∀ {m : Nat} {x : Uuid}, Depth db a m x → Beneath db b x →
    Beneath db a b ∨ Beneath db b a
  | _, _, .root, hb => .inr hb
  | _, _, .child (i := i) ha hi hpar, ⟨n, hb⟩ => by
    generalize hx : i.id = x at hb
    cases hb with
    | root => exact .inl (hx ▸ ⟨_, ha.child hi hpar⟩)
    | @child n p j hb hj hp =>
      obtain rfl := inj_on_of_nodup_map hids hi hj hx
      obtain rfl := Option.some.inj (hpar.symm.trans hp)
      exact ha.meet hids ⟨n, hb⟩

theorem Beneath.same_top (hids : (db.issues.map Issue.id).Nodup) {a b : Issue} (ha : a ∈ db.issues) (hb : b ∈ db.issues)
    (hapar : a.parentID = none) (hbpar : b.parentID = none) {x : Uuid} (h : Beneath db a.id x) (h' : Beneath db b.id x) : a = b := by
  obtain ⟨m, hm⟩ := h
  refine inj_on_of_nodup_map hids ha hb ?_
  rcases hm.meet hids h' with h | h
  · exact h.of_top hids hb hbpar
  · exact (h.of_top hids ha hapar).symm

theorem Depth.passed (hids : (db.issues.map Issue.id).Nodup) {α : Type} {f : Issue → α}
    (hf : ∀ i ∈ db.issues, ∀ p, i.parentID = some p → ∃ above ∈ db.issues, above.id = p ∧ f above = f i) {root : Issue}
    (hroot : root ∈ db.issues) : ∀ {d : Nat} {x : Uuid}, Depth db root.id d x → ∀ i ∈ db.issues, i.id = x → f i = f root
  | _, _, .root, i, hi, hx => by rw [inj_on_of_nodup_map hids hi hroot hx]
  | _, _, .child (i := j) hp hj hpar, i, hi, hx => by
    obtain rfl := inj_on_of_nodup_map hids hi hj hx
    obtain ⟨above, habove, hid, hsame⟩ := hf i hi _ hpar
    rw [← hsame]
    exact hp.passed hids hf hroot above habove hid

/-! ## Another store -/

theorem Depth.kept {db' : Db} (keep : Uuid → Prop) (hup : ∀ i ∈ db.issues, ∀ p, i.parentID = some p → keep i.id → keep p)
    (hrow : ∀ i ∈ db.issues, keep i.id → ∃ i' ∈ db'.issues, i'.id = i.id ∧ i'.parentID = i.parentID) {root : Uuid} :
    ∀ {d : Nat} {x : Uuid}, Depth db root d x → keep x → Depth db' root d x
  | _, _, .root, _ => .root
  | _, _, .child (i := i) hp hi hpar, hk => by
    obtain ⟨i', hi', hid, hpar'⟩ := hrow i hi hk
    rw [← hid]
    exact (hp.kept keep hup hrow (hup i hi _ hpar hk)).child hi' (hpar'.trans hpar)

end

end Issues
end Armature
