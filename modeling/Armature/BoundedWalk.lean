import Mathlib.Data.List.Cycle
import Mathlib.Data.List.Nodup
import Mathlib.Data.List.Range
/-!
# BoundedWalk — a breadth-first walk along edges, up to a number of steps

What a recursive query gathers that starts from the edges out of `start`, goes on from each row along an edge to where the row
has not been, and stops at a length.  It has every path of at most that length that visits nothing twice
(`mem_walk_iff`).  A path is the vertices reached, the latest first.
-/
namespace Armature
namespace BoundedWalk

open List

variable {α : Type} [DecidableEq α]

def rows (edges : List (α × α)) (start : α) : Nat → List (List α)
  | 0 => (edges.filter fun e => e.1 = start).map fun e => [e.2]
  | n + 1 =>
    (rows edges start n).flatMap fun path =>
      match path with
      | [] => []
      | last :: _ => (edges.filter fun e => e.1 = last ∧ e.2 ∉ path).map fun e => e.2 :: path

def walk (edges : List (α × α)) (start : α) (bound : Nat) : List (List α) :=
  (List.range bound).flatMap (rows edges start)

def Leads (edges : List (α × α)) (start : α) : List α → Prop
  | [] => False
  | [x] => (start, x) ∈ edges
  | x :: y :: rest => (y, x) ∈ edges ∧ Leads edges start (y :: rest)

omit [DecidableEq α] in
theorem Leads.ne_nil {edges : List (α × α)} {start : α} {p : List α} (h : Leads edges start p) : p ≠ [] := by
  rintro rfl
  exact h

theorem mem_rows_iff {edges : List (α × α)} {start : α} :
    ∀ {n : Nat} {p : List α}, p ∈ rows edges start n ↔ p.length = n + 1 ∧ Leads edges start p ∧ p.Nodup
  | 0, p => by
    simp only [rows, mem_map, mem_filter, decide_eq_true_eq]
    constructor
    · rintro ⟨e, ⟨he, rfl⟩, rfl⟩
      exact ⟨rfl, he, nodup_singleton _⟩
    · rintro ⟨hlen, hl, -⟩
      obtain ⟨x, rfl⟩ := length_eq_one_iff.1 hlen
      exact ⟨(start, x), ⟨hl, rfl⟩, rfl⟩
  | n + 1, p => by
    simp only [rows, mem_flatMap, mem_rows_iff]
    constructor
    · rintro ⟨path, ⟨hlen, hl, hn⟩, hp⟩
      cases path with
      | nil => exact absurd rfl hl.ne_nil
      | cons =>
        simp only [mem_map, mem_filter, decide_eq_true_eq] at hp
        obtain ⟨e, ⟨he, rfl, hnot⟩, rfl⟩ := hp
        exact ⟨by simp [← hlen], ⟨he, hl⟩, nodup_cons.2 ⟨hnot, hn⟩⟩
    · rintro ⟨hlen, hl, hn⟩
      match p, hlen, hl, hn with
      | x :: y :: rest, hlen, hl, hn =>
        obtain ⟨hnot, hn⟩ := nodup_cons.1 hn
        refine ⟨y :: rest, ⟨by simpa using hlen, hl.2, hn⟩, ?_⟩
        simp only [mem_map, mem_filter, decide_eq_true_eq]
        exact ⟨(y, x), ⟨hl.1, rfl, hnot⟩, rfl⟩

theorem mem_walk_iff {edges : List (α × α)} {start : α} {bound : Nat} {p : List α} :
    p ∈ walk edges start bound ↔ p.length ≤ bound ∧ Leads edges start p ∧ p.Nodup := by
  simp only [walk, mem_flatMap, mem_range, mem_rows_iff]
  constructor
  · rintro ⟨n, hn, hlen, hl⟩
    exact ⟨by omega, hl⟩
  · rintro ⟨hb, hl⟩
    have hpos : 0 < p.length := length_pos_iff.2 hl.1.ne_nil
    exact ⟨p.length - 1, by omega, by omega, hl⟩

/-! ## A cycle, seen from one of its links -/

section
variable {L : Type} (source target : L → α)

omit [DecidableEq α] in
theorem leads_of_chain {edges : List (α × α)} {start : α} (l : List L) (hl : l ≠ [])
    (hstart : ∀ f ∈ l.head?, source f = start) (hc : l.IsChain fun f g => target f = source g)
    (he : ∀ f ∈ l, (source f, target f) ∈ edges) : Leads edges start (l.map target).reverse := by
  induction l using List.reverseRecOn with
  | nil => exact absurd rfl hl
  | append_singleton l f ih =>
    have hf := he f (by simp)
    rcases eq_nil_or_concat l with rfl | ⟨l', g, rfl⟩
    · have hs : source f = start := hstart f (by simp)
      simpa [Leads, hs] using hf
    · have hlink : target g = source f := by
        have := (isChain_append.1 hc).2.2
        exact this g (by simp) f (by simp)
      have hleads := ih (by simp) (fun a ha => hstart a (by
        rw [List.head?_append_of_ne_nil _ (by simp)]; exact ha)) (isChain_append.1 hc).1
        fun a ha => he a (mem_append_left _ ha)
      simp only [concat_eq_append, map_append, map_cons, map_nil, reverse_append, reverse_cons,
        reverse_nil, nil_append, cons_append] at hleads ⊢
      exact ⟨by rw [hlink]; exact hf, hleads⟩

omit [DecidableEq α] in
theorem leads_of_cycle {edges : List (α × α)} {c : Cycle L} {e : L} (hmem : e ∈ c)
    (hc : c.Chain fun f g => target f = source g) (hn : (c.map target).Nodup) (hself : source e ≠ target e)
    (he : ∀ f ∈ c, f ≠ e → (source f, target f) ∈ edges) :
    ∃ p, p.length + 1 = c.length ∧ Leads edges (target e) p ∧ p.Nodup ∧ p.head? = some (source e) := by
  induction c using Quotient.inductionOn' with
  | h l =>
    obtain ⟨a, b, rfl⟩ := append_of_mem (Cycle.mem_coe_iff.1 hmem)
    have hrotated : (a ++ e :: b).IsRotated (e :: b ++ a) := isRotated_append
    have hrot : ((a ++ e :: b : List L) : Cycle L) = ((e :: (b ++ a) : List L) : Cycle L) := Cycle.coe_eq_coe.2 hrotated
    rw [Cycle.mk''_eq_coe, hrot] at hc hn he ⊢
    generalize b ++ a = rest at hc hn he
    rw [Cycle.chain_coe_cons] at hc
    rw [Cycle.map_coe, Cycle.nodup_coe_iff, map_cons, nodup_cons] at hn
    have hrest : rest ≠ [] := by
      rintro rfl
      have : target e = source e := by simpa using hc
      exact hself this.symm
    have hne : ∀ f ∈ rest, f ≠ e := fun f hf heq => hn.1 (heq ▸ mem_map_of_mem hf)
    have hchain : rest.IsChain fun f g => target f = source g :=
      (isChain_append.1 (isChain_cons.1 hc).2).1
    have hhead : ∀ f ∈ rest.head?, source f = target e := fun f hf =>
      ((isChain_cons.1 hc).1 f (by rw [List.head?_append_of_ne_nil _ hrest]; exact hf)).symm
    refine ⟨(rest.map target).reverse, by simp, leads_of_chain source target rest hrest hhead hchain fun f hf =>
      he f (Cycle.mem_coe_iff.2 (mem_cons_of_mem _ hf)) (hne f hf), nodup_reverse.2 hn.2, ?_⟩
    obtain ⟨rest', g, rfl⟩ := eq_nil_or_concat rest |>.resolve_left hrest
    have hback : target g = source e :=
      (isChain_append.1 (isChain_cons.1 hc).2).2.2 g (by simp) e (by simp)
    simp [hback]

end

end BoundedWalk
end Armature
