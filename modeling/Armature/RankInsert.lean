import Armature.Rank
/-!
# RankInsert — a list kept in order by insertions

`between` answers every pair of bounds it should and refuses every other (`between_ok`, `between_error`); a list whose
ranks ascend takes any sequence of insertions between neighbours and stays ascending (`insertAll_ordered`).
-/
namespace Armature
namespace Rank

open List

def Fits (a b : List Byte) : Prop := Proper a ∧ Proper b ∧ (a ≠ [] → b ≠ [] → a < b)

theorem nil_lt_of_ne_nil {r : List Byte} (h : r ≠ []) : [] < r := by
  cases r with
  | nil => exact absurd rfl h
  | cons => exact nil_lt_cons _ _

theorem isRank_initial : IsRank initial := by
  have h : initial = [digit (base / 2)] := by decide
  rw [h]
  exact isRank_digit (by rw [base_eq]; decide) (by rw [base_eq]; decide)

theorem between_eq {a b : List Byte} (ha : Proper a) (hb : Proper b) (h : ¬ (a = [] ∧ b = [])) : between a b =
    if a ≠ [] ∧ b ≠ [] ∧ ¬ a < b then .error (.outOfOrder a b) else .ok (walk a b) := by
  unfold between
  rw [if_neg h, (validate_ok_iff a).2 ha, (validate_ok_iff b).2 hb]
  rfl

theorem between_ok {a b : List Byte} (h : Fits a b) :
    ∃ r, between a b = .ok r ∧ IsRank r ∧ (a ≠ [] → a < r) ∧ (b ≠ [] → r < b) := by
  obtain ⟨ha, hb, hab⟩ := h
  by_cases hn : a = [] ∧ b = []
  · obtain ⟨rfl, rfl⟩ := hn
    exact ⟨initial, rfl, isRank_initial, fun hc => absurd rfl hc, fun hc => absurd rfl hc⟩
  · have hw : between a b = .ok (walk a b) := by
      rw [between_eq ha hb hn, if_neg]
      rintro ⟨h1, h2, h3⟩
      exact h3 (hab h1 h2)
    by_cases hbn : b = []
    · subst hbn
      obtain ⟨hr, hlt⟩ := walk_open ha.1
      exact ⟨_, hw, hr, fun _ => hlt, fun hc => absurd rfl hc⟩
    · have hlt : a < b := by
        by_cases han : a = []
        · exact han ▸ nil_lt_of_ne_nil hbn
        · exact hab han hbn
      obtain ⟨hr, h1, h2⟩ := walk_between b a ha.1 hb hlt
      exact ⟨_, hw, hr, fun _ => h1, fun _ => h2⟩

theorem between_error {a b : List Byte} (h : ¬ Fits a b) : ∃ e, between a b = .error e := by
  have hn : ¬ (a = [] ∧ b = []) := by
    rintro ⟨rfl, rfl⟩
    exact h ⟨proper_nil, proper_nil, fun hc => absurd rfl hc⟩
  by_cases ha : Proper a
  · by_cases hb : Proper b
    · refine ⟨_, (between_eq ha hb hn).trans (if_pos ?_)⟩
      by_contra hc
      exact h ⟨ha, hb, fun h1 h2 => by_contra fun h3 => hc ⟨h1, h2, h3⟩⟩
    · obtain ⟨e, he⟩ := validate_error hb
      refine ⟨e, ?_⟩
      unfold between
      rw [if_neg hn, (validate_ok_iff a).2 ha, he]
      rfl
  · obtain ⟨e, he⟩ := validate_error ha
    refine ⟨e, ?_⟩
    unfold between
    rw [if_neg hn, he]
    rfl

/-! ## Insertions between neighbours -/

def insertAt (l : List (List Byte)) (i : Nat) : Except Err (List (List Byte)) := do
  let r ← between ((l.take i).getLast?.getD []) ((l.drop i).head?.getD [])
  return l.take i ++ r :: l.drop i

def insertAll (l : List (List Byte)) (is : List Nat) : Except Err (List (List Byte)) := is.foldlM insertAt l

def Ordered (l : List (List Byte)) : Prop := (∀ r ∈ l, IsRank r) ∧ l.SortedLT

theorem Ordered.splice {x y : List (List Byte)} {r : List Byte} (h : Ordered (x ++ y)) (hr : IsRank r)
    (hx : ∀ a, x.getLast? = some a → a < r) (hy : ∀ b, y.head? = some b → r < b) : Ordered (x ++ r :: y) := by
  obtain ⟨hall, hs⟩ := h
  have hp := pairwise_append.1 hs.pairwise
  refine ⟨fun q hq => ?_, (pairwise_append.2 ⟨hp.1, pairwise_cons.2 ⟨?_, hp.2.1⟩, ?_⟩).sortedLT⟩
  · simp only [mem_append, mem_cons] at hq
    rcases hq with hq | rfl | hq
    · exact hall q (mem_append_left _ hq)
    · exact hr
    · exact hall q (mem_append_right _ hq)
  · cases y with
    | nil => exact nofun
    | cons b y =>
      have hb := hy b rfl
      intro q hq
      rcases mem_cons.1 hq with rfl | hq
      · exact hb
      · exact lt_trans hb (rel_of_pairwise_cons hp.2.1 hq)
  · intro p hpx q hq
    rcases mem_cons.1 hq with rfl | hq
    · rcases eq_nil_or_concat x with rfl | ⟨x', a, rfl⟩
      · cases hpx
      · have ha := hx a (by simp)
        rw [concat_eq_append] at hpx hp
        rcases mem_append.1 hpx with hpx | hpx
        · exact lt_trans ((pairwise_append.1 hp.1).2.2 p hpx a (by simp)) ha
        · exact mem_singleton.1 hpx ▸ ha
    · exact hp.2.2 p hpx q hq

theorem insertAt_ordered {l : List (List Byte)} (h : Ordered l) (i : Nat) :
    ∃ r, insertAt l i = .ok (l.take i ++ r :: l.drop i) ∧ Ordered (l.take i ++ r :: l.drop i) := by
  have hsplit : Ordered (l.take i ++ l.drop i) := by rwa [take_append_drop]
  have hx : ∀ a, (l.take i).getLast? = some a → IsRank a := fun a ha =>
    h.1 a (mem_of_mem_take (mem_of_getLast? ha))
  have hy : ∀ b, (l.drop i).head? = some b → IsRank b := fun b hb =>
    h.1 b (mem_of_mem_drop (mem_of_head? hb))
  have proper : ∀ o : Option (List Byte), (∀ a, o = some a → IsRank a) → Proper (o.getD []) := by
    intro o ho
    cases o with
    | none => exact proper_nil
    | some a => exact (ho a rfl).1
  have hfits : Fits ((l.take i).getLast?.getD []) ((l.drop i).head?.getD []) := by
    refine ⟨proper _ hx, proper _ hy, fun h1 h2 => ?_⟩
    obtain ⟨a, ha⟩ := Option.ne_none_iff_exists'.1 (fun hn => h1 (by rw [hn]; rfl) : (l.take i).getLast? ≠ none)
    obtain ⟨b, hb⟩ := Option.ne_none_iff_exists'.1 (fun hn => h2 (by rw [hn]; rfl) : (l.drop i).head? ≠ none)
    rw [ha, hb]
    exact (pairwise_append.1 hsplit.2.pairwise).2.2 a (mem_of_getLast? ha) b (mem_of_head? hb)
  obtain ⟨r, hr, hrank, hlo, hhi⟩ := between_ok hfits
  refine ⟨r, by unfold insertAt; rw [hr]; rfl, hsplit.splice hrank (fun a ha => ?_) (fun b hb => ?_)⟩
  · rw [ha] at hlo; exact hlo (hx a ha).2
  · rw [hb] at hhi; exact hhi (hy b hb).2

theorem insertAll_ordered : ∀ (is : List Nat) (l : List (List Byte)), Ordered l →
    ∃ l', insertAll l is = .ok l' ∧ Ordered l' ∧ l.Sublist l' ∧ l'.length = l.length + is.length
  | [], l, h => ⟨l, rfl, h, List.Sublist.refl l, rfl⟩
  | i :: is, l, h => by
    obtain ⟨r, hr, ho⟩ := insertAt_ordered h i
    obtain ⟨l', hl', ho', hsub, hlen⟩ := insertAll_ordered is _ ho
    have hkeep : l.Sublist (l.take i ++ r :: l.drop i) := by
      conv => lhs; rw [← take_append_drop i l]
      exact (List.Sublist.refl _).append (sublist_cons_self _ _)
    refine ⟨l', ?_, ho', hkeep.trans hsub, ?_⟩
    · unfold insertAll
      rw [foldlM_cons, hr]
      exact hl'
    · have := congrArg List.length (take_append_drop i l)
      simp only [length_append, length_cons] at hlen this ⊢
      omega

/-! ## Seeds -/

def sequenceFrom : Nat → List (List Byte) → List Byte → Except Err (List (List Byte))
  | 0, out, _ => .ok out
  | n + 1, out, previous => do
    let next ← between previous []
    sequenceFrom n (out ++ [next]) next

def sequence (n : Nat) : Except Err (List (List Byte)) := sequenceFrom n [] []

theorem sequenceFrom_ordered : ∀ (n : Nat) {out : List (List Byte)}, Ordered out →
    ∃ l, sequenceFrom n out (out.getLast?.getD []) = .ok l ∧ Ordered l ∧ l.length = out.length + n
  | 0, out, h => ⟨out, rfl, h, rfl⟩
  | n + 1, out, h => by
    have hlast : ∀ a, out.getLast? = some a → IsRank a := fun a ha => h.1 a (mem_of_getLast? ha)
    have hproper : Proper (out.getLast?.getD []) := by
      cases ho : out.getLast? with
      | none => exact proper_nil
      | some a => exact (hlast a ho).1
    obtain ⟨r, hr, hrank, hlo, -⟩ := between_ok ⟨hproper, proper_nil, fun _ hne => absurd rfl hne⟩
    have hnext : Ordered (out ++ [r]) := by
      refine Ordered.splice (by rwa [append_nil]) hrank (fun a ha => ?_) fun b hb => by cases hb
      rw [ha] at hlo
      exact hlo (hlast a ha).2
    obtain ⟨l, hl, ho, hlen⟩ := sequenceFrom_ordered n hnext
    rw [List.getLast?_concat, Option.getD_some] at hl
    refine ⟨l, ?_, ho, by rw [hlen, length_append, length_singleton]; omega⟩
    unfold sequenceFrom
    rw [hr]
    exact hl

/-- **However many ranks a list is seeded with, they are ranks and ascend**, though each is found above the one before. -/
theorem sequence_ordered (n : Nat) : ∃ l, sequence n = .ok l ∧ Ordered l ∧ l.length = n := by
  obtain ⟨l, hl, ho, hlen⟩ := sequenceFrom_ordered n ⟨fun r hr => absurd hr not_mem_nil, sortedLT_iff_pairwise.2 .nil⟩
  exact ⟨l, hl, ho, by rw [hlen, length_nil, Nat.zero_add]⟩

/-- **`Between` is a dense order insertion**: it answers exactly the bounds a rank fits between, strictly between
them, so a list filled by insertions between neighbours stays strictly ascending. -/
theorem between_dense :
    (∀ a b, Fits a b → ∃ r, between a b = .ok r ∧ IsRank r ∧ (a ≠ [] → a < r) ∧ (b ≠ [] → r < b)) ∧
    (∀ a b, ¬ Fits a b → ∃ e, between a b = .error e) ∧
    (∀ (l : List (List Byte)) (is : List Nat), Ordered l →
      ∃ l', insertAll l is = .ok l' ∧ Ordered l' ∧ l.Sublist l' ∧ l'.length = l.length + is.length) :=
  ⟨fun _ _ h => between_ok h, fun _ _ h => between_error h, fun l is h => insertAll_ordered is l h⟩

end Rank
end Armature
