import Armature.PermNarrow
import Mathlib.Data.List.Nodup
import Mathlib.Logic.Relation
/-!
# PermKey — an API key over its life (`auth/tokens_admin.go`, `migrations/00048_token_projects.sql`)

A key made for projects keeps a row for each, and a project that is deleted takes its row with it.  No rows is every project
its owner reaches: with the last of its projects a key stops being confined.
-/
namespace Armature
namespace Perm

open List
open Armature.Perm.Set (newSetWith)

structure Project where
  id : Nat
  key : ProjectKey
  archived : Bool
  deriving DecidableEq

/-- The projects there are, what one key's list of projects holds, and what the key's owner may do. -/
structure World where
  projects : List Project
  /-- The key's rows of `api_token_project`. -/
  stored : List Nat
  owner : Set
  keys : (projects.map Project.key).Nodup
  stored_of : ∀ id ∈ stored, ∃ q ∈ projects, q.id = id

namespace World

def tokenProjects (w : World) : List ProjectKey :=
  ((w.projects.filter fun q => q.id ∈ w.stored).map Project.key).mergeSort fun a b => decide (a ≤ b)

def requestSet (w : World) : Set := w.owner.asKey w.tokenProjects

def createAPIToken (w : World) (names : List ProjectKey) : Option World :=
  let ids := (w.projects.filter fun q => q.key ∈ names).map Project.id
  if ids.length = names.length then
    some { w with
      stored := ids
      stored_of := by
        intro id hid
        obtain ⟨q, hq, rfl⟩ := mem_map.1 hid
        exact ⟨q, (mem_filter.1 hq).1, rfl⟩ }
  else none

def create (w : World) (q : Project) (h : q.key ∉ w.projects.map Project.key) : World :=
  { w with
    projects := q :: w.projects
    keys := nodup_cons.2 ⟨h, w.keys⟩
    stored_of := fun id hid =>
      let ⟨r, hr, heq⟩ := w.stored_of id hid
      ⟨r, mem_cons_of_mem _ hr, heq⟩ }

def archive (w : World) (id : Nat) : World :=
  { w with
    projects := w.projects.map fun q => if q.id = id then { q with archived := true } else q
    keys := by
      have : (w.projects.map fun q => if q.id = id then { q with archived := true } else q).map Project.key =
          w.projects.map Project.key := by
        rw [map_map]
        apply map_congr_left
        intro q _
        by_cases h : q.id = id
        · simp [h]
        · simp [h]
      rw [this]
      exact w.keys
    stored_of := by
      intro i hi
      obtain ⟨q, hq, rfl⟩ := w.stored_of i hi
      refine ⟨_, mem_map_of_mem hq, ?_⟩
      by_cases h : q.id = id
      · simp [h]
      · simp [h] }

def delete (w : World) (id : Nat) : World :=
  { w with
    projects := w.projects.filter fun q => q.id ≠ id
    stored := w.stored.filter fun i => i ≠ id
    keys := w.keys.sublist (filter_sublist.map _)
    stored_of := by
      intro i hi
      obtain ⟨hi, hne⟩ := mem_filter.1 hi
      obtain ⟨q, hq, rfl⟩ := w.stored_of i hi
      exact ⟨q, mem_filter.2 ⟨hq, hne⟩, rfl⟩ }

end World

inductive Step : World → World → Prop where
  | create (w : World) (q : Project) (hid : q.id ∉ w.projects.map Project.id) (h : q.key ∉ w.projects.map Project.key) :
      Step w (w.create q h)
  | archive (w : World) (id : Nat) : Step w (w.archive id)
  | delete (w : World) (id : Nat) : Step w (w.delete id)
  | granted (w : World) (owner : Set) : Step w { w with owner := owner }

abbrev Run : World → World → Prop := Relation.ReflTransGen Step

def Confined (named : List Nat) (w : World) : Prop :=
  ∀ q ∈ w.projects, q.id ∉ named → ∀ p, w.requestSet.can p q.key = false

def LendsNothing (named : List Nat) (w : World) : Prop :=
  ∀ q ∈ w.projects, q.id ∉ named → ∀ p, (w.owner.asKey []).can p q.key = false

theorem can_asKey (s : Set) (projects : List ProjectKey) (p : Permission) (k : ProjectKey) :
    (s.asKey projects).can p k = true ↔ s.can p k = true ∧ p ∉ Set.keyRefused ∧ (projects = [] ∨ k ∈ projects) :=
  Narrowing.can_apply (.asKey projects) s p k

theorem mem_tokenProjects {w : World} {k : ProjectKey} :
    k ∈ w.tokenProjects ↔ ∃ q ∈ w.projects, q.id ∈ w.stored ∧ q.key = k := by
  unfold World.tokenProjects
  rw [mem_mergeSort, mem_map]
  constructor
  · rintro ⟨q, hq, rfl⟩
    obtain ⟨hq, hid⟩ := mem_filter.1 hq
    exact ⟨q, hq, of_decide_eq_true hid, rfl⟩
  · rintro ⟨q, hq, hid, rfl⟩
    exact ⟨q, mem_filter.2 ⟨hq, decide_eq_true hid⟩, rfl⟩

theorem tokenProjects_nil {w : World} : w.tokenProjects = [] ↔ w.stored = [] := by
  constructor
  · intro h
    rw [eq_nil_iff_forall_not_mem]
    intro id hid
    obtain ⟨q, hq, rfl⟩ := w.stored_of id hid
    have : q.key ∈ w.tokenProjects := mem_tokenProjects.2 ⟨q, hq, hid, rfl⟩
    rw [h] at this
    exact not_mem_nil this
  · intro h
    rw [eq_nil_iff_forall_not_mem]
    intro k hk
    obtain ⟨q, -, hid, -⟩ := mem_tokenProjects.1 hk
    rw [h] at hid
    exact not_mem_nil hid

theorem Step.stored_subset {w w' : World} (h : Step w w') : w'.stored ⊆ w.stored := by
  cases h with
  | create => exact List.Subset.refl _
  | archive => exact List.Subset.refl _
  | delete => exact (filter_sublist).subset
  | granted => exact List.Subset.refl _

theorem Run.stored_subset {w w' : World} (h : Run w w') : w'.stored ⊆ w.stored := by
  induction h with
  | refl => exact List.Subset.refl _
  | tail _ hstep ih => exact List.Subset.trans hstep.stored_subset ih

theorem confined_of_stored {named : List Nat} {w : World} (hsub : w.stored ⊆ named) (hne : w.stored ≠ []) : Confined named w := by
  intro q hq hnot p
  rw [← Bool.not_eq_true]
  intro hcan
  obtain ⟨-, -, hk⟩ := (can_asKey w.owner w.tokenProjects p q.key).1 hcan
  rcases hk with hnil | hk
  · exact hne (tokenProjects_nil.1 hnil)
  · obtain ⟨r, hr, hid, hkey⟩ := mem_tokenProjects.1 hk
    have hrq : r = q := inj_on_of_nodup_map w.keys hr hq hkey
    exact hnot (hsub (hrq ▸ hid))

theorem confined_of_empty {named : List Nat} {w : World} (h : w.stored = []) : Confined named w ↔ LendsNothing named w := by
  unfold Confined LendsNothing World.requestSet
  rw [tokenProjects_nil.2 h]

theorem createAPIToken_stored {w w₀ : World} {names : List ProjectKey} (h : w.createAPIToken names = some w₀)
    (hnames : names ≠ []) : w₀.stored ≠ [] := by
  unfold World.createAPIToken at h
  dsimp only at h
  split at h
  · rename_i hlen
    obtain rfl := Option.some.inj h
    intro hnil
    dsimp only at hnil
    rw [hnil, length_nil] at hlen
    exact hnames (length_eq_zero_iff.1 hlen.symm)
  · cases h

/-- **A key made for projects is confined exactly as long as its list is not empty**, or its owner has nothing else to lend. -/
theorem confined_iff {w w₀ : World} {names : List ProjectKey} (hmade : w.createAPIToken names = some w₀) (hnames : names ≠ []) :
    w₀.stored ≠ [] ∧ ∀ w', Run w₀ w' → (Confined w₀.stored w' ↔ w'.stored ≠ [] ∨ LendsNothing w₀.stored w') := by
  refine ⟨createAPIToken_stored hmade hnames, fun w' hrun => ?_⟩
  have hsub := Run.stored_subset hrun
  by_cases hne : w'.stored = []
  · rw [confined_of_empty hne]
    simp [hne]
  · exact ⟨fun _ => .inl hne, fun _ => confined_of_stored hsub hne⟩

/-! ## Two projects and a key for one of them -/

def twoProjects : World where
  projects := [⟨1, "A", false⟩, ⟨2, "B", false⟩]
  stored := []
  owner := newSetWith [⟨"user", ""⟩] fun _ => some ["read", "issue.write"]
  keys := by decide
  stored_of := nofun

def keyedA : World := { twoProjects with stored := [1], stored_of := by decide }

def keyedBoth : World := { twoProjects with stored := [1, 2], stored_of := by decide }

/-- A key for A may edit B once A is deleted. -/
theorem deleted_frees : ∃ w₀ w', twoProjects.createAPIToken ["A"] = some w₀ ∧ Run w₀ w' ∧ ¬ Confined w₀.stored w' := by
  refine ⟨keyedA, keyedA.delete 1, rfl, .single (.delete _ 1), fun h => ?_⟩
  have hcan := h ⟨2, "B", false⟩ (by decide) (by decide) "issue.write"
  rw [← Bool.not_eq_true] at hcan
  refine hcan ((can_asKey _ _ _ _).2 ⟨by decide +kernel, by decide, .inl ?_⟩)
  exact tokenProjects_nil.2 (by decide)

/-- A key for both is still confined when A is deleted. -/
theorem deleted_one_of_two : ∃ w₀ w', twoProjects.createAPIToken ["A", "B"] = some w₀ ∧ Run w₀ w' ∧ w'.stored = [2] ∧
    Confined w₀.stored w' := by
  have hrun : Run keyedBoth (keyedBoth.delete 1) := .single (.delete _ 1)
  have hmade : twoProjects.createAPIToken ["A", "B"] = some keyedBoth := rfl
  refine ⟨keyedBoth, _, hmade, hrun, by decide, ?_⟩
  exact ((confined_iff hmade (by decide)).2 _ hrun).2 (.inl (by decide))

end Perm
end Armature
