import Mathlib.Data.Set.Card
import Mathlib.Data.Set.Finite.Lemmas
import Mathlib.Logic.Relation
/-!
# Islands — what a walk along edges never comes to

What is not reached from a vertex is shut: nothing outside leads into it.  Where everything but that vertex has an edge into it,
a shut set that is finite holds an island, a shut set whose members all lead to each other.
-/
namespace Armature
namespace Islands

open Relation (ReflTransGen TransGen)

variable {α : Type*} {leads : α → α → Prop}

def Shut (leads : α → α → Prop) (G : Set α) : Prop := ∀ a b, leads a b → b ∈ G → a ∈ G

/-- **An island**: shut, and a way from each member to each, back to itself too. -/
structure Island (leads : α → α → Prop) (G : Set α) : Prop where
  nonempty : G.Nonempty
  shut : Shut leads G
  round : ∀ a ∈ G, ∀ b ∈ G, TransGen leads a b

def behind (leads : α → α → Prop) (b : α) : Set α := {a | TransGen leads a b}

theorem shut_behind (b : α) : Shut leads (behind leads b) := fun _ _ hedge hbehind => TransGen.head hedge hbehind

theorem shut_unreached (root : α) : Shut leads {b | ¬ ReflTransGen leads root b} :=
  fun _ _ hedge hb ha => hb (ha.tail hedge)

theorem Shut.of_reach {G : Set α} (hG : Shut leads G) {a b : α} (h : ReflTransGen leads a b) (hb : b ∈ G) : a ∈ G := by
  induction h using ReflTransGen.head_induction_on with
  | refl => exact hb
  | head hedge _ ih => exact hG _ _ hedge ih

theorem Shut.behind_subset {G : Set α} (hG : Shut leads G) {b : α} (hb : b ∈ G) : behind leads b ⊆ G :=
  fun _ ha => hG.of_reach ha.to_reflTransGen hb

theorem exists_island {G : Set α} (hfin : G.Finite) (hne : G.Nonempty) (hG : Shut leads G)
    (hpred : ∀ b ∈ G, ∃ a, leads a b) : ∃ I ⊆ G, Island leads I := by
  obtain ⟨m, hm, hleast⟩ := Set.exists_min_image G (fun b => (behind leads b).ncard) hfin hne
  have hsub : behind leads m ⊆ G := hG.behind_subset hm
  have hsame : ∀ b ∈ behind leads m, behind leads b = behind leads m := fun b hb => by
    have hin : behind leads b ⊆ behind leads m := fun a ha => TransGen.trans ha hb
    exact Set.eq_of_subset_of_ncard_le hin (hleast b (hsub hb)) (hfin.subset hsub)
  obtain ⟨a, ha⟩ := hpred m hm
  refine ⟨behind leads m, hsub, ⟨a, TransGen.single ha⟩, shut_behind m, fun x hx y hy => ?_⟩
  have hxy : x ∈ behind leads y := (hsame y hy).symm ▸ hx
  exact hxy

theorem all_reached_iff {s : Set α} (hfin : s.Finite) (hs : Shut leads s) {root : α}
    (hpred : ∀ b ∈ s, b ≠ root → ∃ a, leads a b) :
    (∀ b ∈ s, ReflTransGen leads root b) ↔ ¬ ∃ I ⊆ s, root ∉ I ∧ Island leads I := by
  constructor
  · rintro hall ⟨I, hI, hroot, hisland⟩
    obtain ⟨b, hb⟩ := hisland.nonempty
    exact hroot (hisland.shut.of_reach (hall b (hI hb)) hb)
  · intro hnone b hb
    by_contra hb'
    let G : Set α := s ∩ {b | ¬ ReflTransGen leads root b}
    have hG : Shut leads G := fun x y hxy hy => ⟨hs x y hxy hy.1, shut_unreached root x y hxy hy.2⟩
    have hroot : ∀ x ∈ G, x ≠ root := by
      rintro x hx rfl
      exact hx.2 ReflTransGen.refl
    obtain ⟨I, hI, hisland⟩ := exists_island (hfin.subset Set.inter_subset_left) ⟨b, hb, hb'⟩ hG
      (fun x hx => hpred x hx.1 (hroot x hx))
    exact hnone ⟨I, hI.trans Set.inter_subset_left, fun h => hroot root (hI h) rfl, hisland⟩

end Islands
end Armature
