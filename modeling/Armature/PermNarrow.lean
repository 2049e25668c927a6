import Armature.PermModel
/-!
# PermNarrow — a narrowed set is exactly what every narrowing leaves

A key's projects take what is held over the whole organization down to the projects named, and what a set can is what it
could before where each narrowing allows it.  The order of the narrowings makes no difference, down to the grants listed.
-/
namespace Armature
namespace Perm

open List
open Armature.Perm.Set

/-- A narrowing of a set: to what a key may do, or to the permissions named. -/
inductive Narrowing where
  | asKey (projects : List ProjectKey)
  | only (names : List String)

namespace Narrowing

def apply : Narrowing → Set → Set
  | asKey projects, s => s.asKey projects
  | only names, s => s.only names

def Allows : Narrowing → Permission → ProjectKey → Prop
  | asKey projects, p, k => p ∉ keyRefused ∧ (projects = [] ∨ k ∈ projects)
  | only names, p, _ => p ∈ names

def Confines : Narrowing → Prop
  | asKey projects => projects ≠ []
  | only _ => False

def keeps : Narrowing → Grant → Bool
  | asKey projects, g =>
    !orgWideOnly g.role && (decide (g.projectKey = "") || projects.isEmpty || projects.contains g.projectKey)
  | only _, _ => true

theorem allows_everywhere {n : Narrowing} (h : ¬ n.Confines) {p : Permission} (k k' : ProjectKey) :
    n.Allows p k ↔ n.Allows p k' := by
  cases n with
  | asKey projects =>
    have hnil : projects = [] := Classical.not_not.1 h
    simp [Allows, hnil]
  | only => exact Iff.rfl

theorem mem_byProject_apply (n : Narrowing) (s : Set) (k : ProjectKey) (p : Permission) :
    (k, p) ∈ (n.apply s).byProject ↔ n.Allows p k ∧ ((k, p) ∈ s.byProject ∨ n.Confines ∧ p ∈ s.orgWide) := by
  cases n with
  | asKey projects =>
    unfold apply Set.asKey Allows Confines
    by_cases hnil : projects = []
    · simp [hnil, ofPairs, and_comm]
    · simp only [hnil, if_false, ofPairs, Finset.mem_union, Finset.mem_product, mem_toFinset, Finset.mem_filter, false_or,
        ne_eq, not_false_iff, true_and]
      constructor
      · rintro (⟨hk, ho, hr⟩ | ⟨hb, hk, hr⟩)
        · exact ⟨⟨hr, hk⟩, .inr ho⟩
        · exact ⟨⟨hr, hk⟩, .inl hb⟩
      · rintro ⟨⟨hr, hk⟩, hb | ho⟩
        · exact .inr ⟨hb, hk, hr⟩
        · exact .inl ⟨hk, ho, hr⟩
  | only =>
    simp [apply, Set.only, Allows, Confines, ofPairs, and_comm]

theorem mem_orgWide_apply (n : Narrowing) (s : Set) (p : Permission) :
    p ∈ (n.apply s).orgWide ↔ p ∈ s.orgWide ∧ ¬ n.Confines ∧ ∀ k, n.Allows p k := by
  cases n with
  | asKey projects =>
    unfold apply Set.asKey Allows Confines
    by_cases hnil : projects = []
    · simp [hnil, ofPairs]
    · simp [hnil, ofPairs]
  | only =>
    simp [apply, Set.only, Allows, Confines, ofPairs]

theorem named_apply (n : Narrowing) (s : Set) : (n.apply s).named = (n.apply s).byProject.image Prod.fst := by
  cases n with
  | asKey projects =>
    unfold apply Set.asKey
    by_cases hnil : projects = []
    · simp [hnil, ofPairs]
    · simp [hnil, ofPairs]
  | only => rfl

theorem roles_apply (n : Narrowing) (s : Set) : (n.apply s).roles = s.roles.filter n.keeps := by
  cases n with
  | asKey projects =>
    unfold apply Set.asKey
    by_cases hnil : projects = []
    · simp only [hnil, if_true]
      rfl
    · simp only [hnil, if_false]
      rfl
  | only => exact (filter_eq_self.2 fun _ _ => rfl).symm

theorem can_apply (n : Narrowing) (s : Set) (p : Permission) (k : ProjectKey) :
    (n.apply s).can p k = true ↔ s.can p k = true ∧ n.Allows p k := by
  unfold Set.can Set.canInOrg
  simp only [Bool.or_eq_true, decide_eq_true_eq, mem_orgWide_apply, mem_byProject_apply]
  constructor
  · rintro (⟨ho, -, ha⟩ | ⟨ha, hb | ⟨-, ho⟩⟩)
    · exact ⟨.inl ho, ha k⟩
    · exact ⟨.inr hb, ha⟩
    · exact ⟨.inl ho, ha⟩
  · rintro ⟨ho | hb, ha⟩
    · by_cases hc : n.Confines
      · exact .inr ⟨ha, .inr ⟨hc, ho⟩⟩
      · exact .inl ⟨ho, hc, fun k' => (allows_everywhere hc k k').1 ha⟩
    · exact .inr ⟨ha, .inl hb⟩

theorem apply_comm (m n : Narrowing) (s : Set) : m.apply (n.apply s) = n.apply (m.apply s) := by
  have hby : (m.apply (n.apply s)).byProject = (n.apply (m.apply s)).byProject := by
    ext ⟨k, p⟩
    simp only [mem_byProject_apply, mem_orgWide_apply]
    constructor
    · rintro ⟨hm, ⟨hn, hb | ⟨hc, ho⟩⟩ | ⟨hc, ho, hcn, hn⟩⟩
      · exact ⟨hn, .inl ⟨hm, .inl hb⟩⟩
      · by_cases hcm : m.Confines
        · exact ⟨hn, .inl ⟨hm, .inr ⟨hcm, ho⟩⟩⟩
        · exact ⟨hn, .inr ⟨hc, ho, hcm, fun k' => (allows_everywhere hcm k k').1 hm⟩⟩
      · exact ⟨hn k, .inl ⟨hm, .inr ⟨hc, ho⟩⟩⟩
    · rintro ⟨hn, ⟨hm, hb | ⟨hc, ho⟩⟩ | ⟨hc, ho, hcm, hm⟩⟩
      · exact ⟨hm, .inl ⟨hn, .inl hb⟩⟩
      · by_cases hcn : n.Confines
        · exact ⟨hm, .inl ⟨hn, .inr ⟨hcn, ho⟩⟩⟩
        · exact ⟨hm, .inr ⟨hc, ho, hcn, fun k' => (allows_everywhere hcn k k').1 hn⟩⟩
      · exact ⟨hm k, .inl ⟨hn, .inr ⟨hc, ho⟩⟩⟩
  apply Set.ext
  · ext p
    simp only [mem_orgWide_apply]
    constructor
    · rintro ⟨⟨ho, hcn, hn⟩, hcm, hm⟩
      exact ⟨⟨ho, hcm, hm⟩, hcn, hn⟩
    · rintro ⟨⟨ho, hcm, hm⟩, hcn, hn⟩
      exact ⟨⟨ho, hcn, hn⟩, hcm, hm⟩
  · exact hby
  · rw [named_apply, named_apply, hby]
  · rw [roles_apply, roles_apply, roles_apply, roles_apply, filter_filter, filter_filter]
    apply filter_congr
    intro g _
    exact Bool.and_comm _ _

end Narrowing

def narrow (ns : List Narrowing) (s : Set) : Set := ns.foldl (fun s n => n.apply s) s

theorem can_narrow (p : Permission) (k : ProjectKey) : ∀ (ns : List Narrowing) (s : Set),
    (narrow ns s).can p k = true ↔ s.can p k = true ∧ ∀ n ∈ ns, n.Allows p k
  | [], s => by simp [narrow]
  | n :: ns, s => by
    have hcons : narrow (n :: ns) s = narrow ns (n.apply s) := rfl
    rw [hcons, can_narrow p k ns, Narrowing.can_apply, forall_mem_cons, and_assoc]

theorem narrow_perm {ns ms : List Narrowing} (h : ns.Perm ms) (s : Set) : narrow ns s = narrow ms s := by
  have : RightCommutative fun (s : Set) (n : Narrowing) => n.apply s := ⟨fun s m n => Narrowing.apply_comm n m s⟩
  exact h.foldl_eq s

/-! ## What the queries list -/

theorem canInOrg_can {s : Set} {p : Permission} (h : s.canInOrg p = true) (k : ProjectKey) : s.can p k = true := by
  unfold Set.can
  rw [h, Bool.true_or]

def Sees (s : Set) : Prop :=
  match s.readable with
  | none => ∀ k, s.can readPermission k = true
  | some keys => keys.Pairwise (· < ·) ∧ ∀ k, k ∈ keys ↔ s.can readPermission k = true

theorem readable_sees (s : Set) : Sees s := by
  unfold Sees Set.readable
  by_cases h : s.canInOrg readPermission = true
  · rw [if_pos h]
    exact fun k => canInOrg_can h k
  · rw [if_neg h]
    refine ⟨Finset.sortedLT_sort _ |>.pairwise, fun k => ?_⟩
    rw [Finset.mem_sort, Finset.mem_filter]
    unfold Set.can
    rw [Bool.not_eq_true] at h
    rw [h, Bool.false_or, decide_eq_true_eq]
    exact ⟨fun h => h.2, fun h => ⟨s.named_of _ h, h⟩⟩

def Listed (s : Set) (p : Permission) (k : ProjectKey) : Prop :=
  p ∈ s.orgPermissions ∨ ∃ ps, s.projectPermissions k = some ps ∧ p ∈ ps

theorem can_iff_listed (s : Set) {p : Permission} (hp : p ∈ allPermissions) (k : ProjectKey) :
    s.can p k = true ↔ Listed s p k := by
  unfold Listed Set.can Set.orgPermissions Set.projectPermissions
  rw [Bool.or_eq_true, decide_eq_true_eq, mem_filter]
  constructor
  · rintro (ho | hb)
    · exact .inl ⟨hp, ho⟩
    · refine .inr ⟨_, if_pos (s.named_of _ hb), mem_filter.2 ⟨hp, decide_eq_true hb⟩⟩
  · rintro (⟨-, ho⟩ | ⟨ps, hps, hin⟩)
    · exact .inl ho
    · split at hps
      · obtain rfl := Option.some.inj hps
        exact .inr (of_decide_eq_true (mem_filter.1 hin).2)
      · cases hps

theorem mem_projects (s : Set) (k : ProjectKey) : k ∈ s.projects ↔ k ∈ s.named := Finset.mem_sort _

theorem can_of_not_project {s : Set} {k : ProjectKey} (h : k ∉ s.projects) (p : Permission) : s.can p k = s.canInOrg p := by
  have : (k, p) ∉ s.byProject := fun hb => h ((mem_projects s k).2 (s.named_of _ hb))
  unfold Set.can
  rw [decide_eq_false this, Bool.or_false]

theorem project_can (n : Narrowing) (s : Set) {k : ProjectKey} (h : k ∈ (n.apply s).projects) :
    ∃ p, (n.apply s).can p k = true := by
  rw [mem_projects, Narrowing.named_apply] at h
  obtain ⟨⟨k', p⟩, hb, rfl⟩ := Finset.mem_image.1 h
  refine ⟨p, ?_⟩
  unfold Set.can
  rw [decide_eq_true hb, Bool.or_true]

/-! ## Where a set comes from -/

theorem can_add (defs : Definitions) (s : Set) (g : Grant) (p : Permission) (k : ProjectKey) :
    (s.add defs g).can p k = true ↔ s.can p k = true ∨
      (g.projectKey = "" ∨ g.projectKey = k) ∧ ∃ perms, defs g.role = some perms ∧ p ∈ perms := by
  unfold Set.add
  cases hdef : defs g.role with
  | none => simp
  | some perms =>
    dsimp only
    by_cases hkey : g.projectKey = ""
    · rw [if_pos hkey]
      unfold Set.can Set.canInOrg
      simp only [Bool.or_eq_true, decide_eq_true_eq, Finset.mem_union, mem_toFinset, hkey, true_or, true_and,
        Option.some.injEq, exists_eq_left']
      exact or_right_comm
    · rw [if_neg hkey]
      unfold Set.can Set.canInOrg
      simp only [Bool.or_eq_true, decide_eq_true_eq, Finset.mem_union, Finset.mem_image, mem_toFinset, Prod.mk.injEq,
        exists_eq_right_right, hkey, false_or, Option.some.injEq, exists_eq_left']
      rw [or_assoc, and_comm (a := p ∈ perms)]

theorem can_foldl (defs : Definitions) (p : Permission) (k : ProjectKey) : ∀ (grants : List Grant) (s : Set),
    (grants.foldl (Set.add defs) s).can p k = true ↔ s.can p k = true ∨
      ∃ g ∈ grants, (g.projectKey = "" ∨ g.projectKey = k) ∧ ∃ perms, defs g.role = some perms ∧ p ∈ perms
  | [], s => by simp
  | g :: grants, s => by
    rw [foldl_cons, can_foldl defs p k grants, can_add, or_assoc]
    simp

theorem can_newSetWith (grants : List Grant) (defs : Definitions) (p : Permission) (k : ProjectKey) :
    (newSetWith grants defs).can p k = true ↔
      ∃ g ∈ grants, (g.projectKey = "" ∨ g.projectKey = k) ∧ ∃ perms, defs g.role = some perms ∧ p ∈ perms := by
  unfold newSetWith
  rw [can_foldl]
  simp [ofRoles, Set.can, Set.canInOrg]

/-- **Narrowing is exact conjunction**, and the queries answer alike. -/
theorem narrow_exact (grants : List Grant) (defs : Definitions) (ns : List Narrowing) :
    (∀ p k, (narrow ns (newSetWith grants defs)).can p k = true ↔
        (newSetWith grants defs).can p k = true ∧ ∀ n ∈ ns, n.Allows p k) ∧
      (∀ p, (narrow ns (newSetWith grants defs)).canInOrg p = true →
        ∀ k, (narrow ns (newSetWith grants defs)).can p k = true) ∧
      Sees (narrow ns (newSetWith grants defs)) ∧
      (∀ p ∈ allPermissions, ∀ k, (narrow ns (newSetWith grants defs)).can p k = true ↔
        Listed (narrow ns (newSetWith grants defs)) p k) ∧
      (∀ k, k ∉ (narrow ns (newSetWith grants defs)).projects → ∀ p,
        (narrow ns (newSetWith grants defs)).can p k = (narrow ns (newSetWith grants defs)).canInOrg p) ∧
      (ns ≠ [] → ∀ k ∈ (narrow ns (newSetWith grants defs)).projects, ∃ p,
        (narrow ns (newSetWith grants defs)).can p k = true) ∧
      ∀ ms, ns.Perm ms → narrow ns (newSetWith grants defs) = narrow ms (newSetWith grants defs) := by
  refine ⟨fun p k => can_narrow p k ns _, fun p h k => canInOrg_can h k, readable_sees _, fun p hp k => can_iff_listed _ hp k,
    fun k hk p => can_of_not_project hk p, fun hns k hk => ?_, fun ms h => narrow_perm h _⟩
  obtain ⟨ns, n, rfl⟩ := (eq_nil_or_concat ns).resolve_left hns
  rw [concat_eq_append] at hk ⊢
  have hlast : narrow (ns ++ [n]) (newSetWith grants defs) = n.apply (narrow ns (newSetWith grants defs)) := by
    unfold narrow
    rw [foldl_append]
    rfl
  rw [hlast] at hk ⊢
  exact project_can n _ hk

def watcher : Set := newSetWith [⟨"watcher", "A"⟩] fun r => if r = "watcher" then some [] else none

def readerOfA : Set :=
  newSetWith [⟨"user", ""⟩, ⟨"reader", "A"⟩] fun r => if r = "user" then some ["read", "issue.write"] else some ["read"]

theorem watcher_projects : watcher.projects = ["A"] ∧ ∀ p, watcher.can p "A" = false := by
  refine ⟨?_, fun p => ?_⟩
  · have h : watcher.named = {"A"} := by decide +kernel
    unfold Set.projects
    rw [h, Finset.sort_singleton]
  · rw [← Bool.not_eq_true, watcher, can_newSetWith]
    rintro ⟨g, hg, -, perms, hperms, hp⟩
    rw [mem_singleton] at hg
    subst hg
    obtain rfl := Option.some.inj hperms
    cases hp

/-- **A role that grants nothing names its project where nothing is held, and what is held everywhere is in no project's
list.** -/
theorem listed_apart :
    (¬ ∀ grants defs ns, ∀ k ∈ (narrow ns (newSetWith grants defs)).projects, ∃ p,
      (narrow ns (newSetWith grants defs)).can p k = true) ∧
      ¬ ∀ grants defs ns k perms, (narrow ns (newSetWith grants defs)).projectPermissions k = some perms →
        ∀ p ∈ allPermissions, p ∈ perms ↔ (narrow ns (newSetWith grants defs)).can p k = true := by
  constructor
  · intro h
    obtain ⟨p, hp⟩ := h [⟨"watcher", "A"⟩] (fun r => if r = "watcher" then some [] else none) [] "A"
      (watcher_projects.1 ▸ mem_cons_self)
    exact Bool.noConfusion ((watcher_projects.2 p).symm.trans hp)
  · intro h
    have hheld : readerOfA.can "issue.write" "A" = true := by decide +kernel
    have hlisted : readerOfA.projectPermissions "A" = some ["read"] := by decide +kernel
    exact absurd ((h _ _ [] "A" ["read"] hlisted "issue.write" (by decide)).2 hheld) (by decide)

end Perm
end Armature
