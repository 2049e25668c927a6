import Mathlib.Data.List.Basic
import Mathlib.Data.List.TakeWhile
/-!
# TextWords — the words of a text, in order in another

A word is a run of letters, whatever is taken for one.  A list of words is in order in a text when they stand in it one
after another without overlapping: then nothing was lost of them on the way, and what else the text holds was added.
-/
namespace Armature

open List

variable {α : Type} {p : α → Bool}

def words (p : α → Bool) (s : List α) : List (List α) := (s.splitOnP (fun c => !p c)).filter (fun w => !w.isEmpty)

def InOrder : List (List α) → List α → Prop
  | [], _ => True
  | w :: ws, t => ∃ before after, t = before ++ w ++ after ∧ InOrder ws after

def AreWords (p : α → Bool) (ws : List (List α)) : Prop := ∀ w ∈ ws, w ≠ [] ∧ ∀ c ∈ w, p c = true

/-! ## The words of a text -/

theorem words_nil : words p [] = [] := by
  unfold words
  rw [splitOnP_nil]
  rfl

variable {c : α} {l s t : List α} {ws : List (List α)}

theorem words_append (hc : p c = false) (s t : List α) : words p (s ++ c :: t) = words p s ++ words p t := by
  unfold words
  rw [splitOnP_append_cons s t (by rw [hc]; rfl), filter_append]

theorem words_self {w : List α} (hne : w ≠ []) (h : ∀ c ∈ w, p c = true) : words p w = [w] := by
  unfold words
  rw [splitOnP_eq_singleton (fun c hc => by rw [h c hc]; rfl)]
  exact filter_cons_of_pos (by cases w with | nil => exact absurd rfl hne | cons c w => rfl)

theorem letters_or_split (p : α → Bool) : ∀ s : List α, (∀ c ∈ s, p c = true) ∨
    ∃ l c t, s = l ++ c :: t ∧ (∀ c ∈ l, p c = true) ∧ p c = false
  | [] => .inl (fun _ h => nomatch h)
  | c :: s => by
    cases hc : p c with
    | false => exact .inr ⟨[], c, s, rfl, forall_mem_nil _, hc⟩
    | true =>
      rcases letters_or_split p s with h | ⟨l, d, t, rfl, hl, hd⟩
      · exact .inl (forall_mem_cons.2 ⟨hc, h⟩)
      · exact .inr ⟨c :: l, d, t, rfl, forall_mem_cons.2 ⟨hc, hl⟩, hd⟩

theorem words_cons (hl : ∀ c ∈ l, p c = true) (hc : p c = false) (t : List α) :
    words p (l ++ c :: t) = if l = [] then words p t else l :: words p t := by
  rw [words_append hc]
  split
  · rename_i h
    rw [h, words_nil, nil_append]
  · rename_i h
    rw [words_self h hl, singleton_append]

theorem byRuns {P : List α → Prop} (p : α → Bool) (last : ∀ l, (∀ c ∈ l, p c = true) → P l)
    (more : ∀ l c t, (∀ c ∈ l, p c = true) → p c = false → P t → P (l ++ c :: t)) (s : List α) : P s := by
  induction hn : s.length using Nat.strongRecOn generalizing s with
  | ind n ih =>
    rcases letters_or_split p s with h | ⟨l, c, t, rfl, hl, hc⟩
    · exact last s h
    · refine more l c t hl hc (ih t.length ?_ t rfl)
      rw [← hn, length_append, length_cons]
      omega

theorem words_getLast : ∀ r : List α,
    (words p r.reverse).getLast?.getD [] = ((r.dropWhile fun c => !p c).takeWhile p).reverse
  | [] => by
    rw [reverse_nil, words_nil]
    rfl
  | c :: r => by
    cases hc : p c with
    | false =>
      rw [reverse_cons, words_append hc, words_nil, append_nil, words_getLast r,
        dropWhile_cons_of_pos (by rw [hc]; rfl)]
    | true =>
      rw [dropWhile_cons_of_neg (by rw [hc]; decide)]
      have hne : ∀ {l t : List α}, c :: r = l ++ t → (∀ x ∈ t.head?, p x = false) → l.reverse ≠ [] := by
        intro l t h ht hnil
        rw [reverse_eq_nil_iff.1 hnil, nil_append] at h
        have := ht c (by rw [← h]; rfl)
        rw [hc] at this
        cases this
      rcases letters_or_split p (c :: r) with h | ⟨l, d, t, h, hl, hd⟩
      · rw [words_self (fun hnil => cons_ne_nil c r (reverse_eq_nil_iff.1 hnil)) fun x hx => h x (mem_reverse.1 hx),
          takeWhile_eq_self_iff.2 h]
        rfl
      · have hword : words p l.reverse = [l.reverse] :=
          words_self (hne h fun x hx => by cases hx; exact hd) fun x hx => hl x (mem_reverse.1 hx)
        rw [h, reverse_append, reverse_cons, append_assoc, singleton_append, words_append hd, hword,
          takeWhile_append_of_pos hl, takeWhile_cons_of_neg (by rw [hd]; decide), append_nil, List.getLast?_concat]
        rfl

theorem words_letters (hl : ∀ c ∈ l, p c = true) : words p l = if l = [] then [] else [l] := by
  split
  · rename_i h
    rw [h, words_nil]
  · rename_i h
    exact words_self h hl

theorem words_areWords (s : List α) : AreWords p (words p s) := by
  induction s using byRuns p with
  | last l hl =>
    rw [words_letters hl]
    split
    · exact fun _ h => nomatch h
    · rename_i h
      exact fun w hw => by rw [mem_singleton.1 hw]; exact ⟨h, hl⟩
  | more l c t hl hc ih =>
    rw [words_cons hl hc]
    split
    · exact ih
    · rename_i h
      exact forall_mem_cons.2 ⟨⟨h, hl⟩, ih⟩

theorem words_flatten (s : List α) : (words p s).flatten = s.filter p := by
  induction s using byRuns p with
  | last l hl =>
    rw [words_letters hl, filter_eq_self.2 hl]
    split
    · rename_i h
      rw [h]
      rfl
    · exact flatten_singleton
  | more l c t hl hc ih =>
    rw [words_cons hl hc, filter_append, filter_eq_self.2 hl, filter_cons_of_neg (by rw [hc]; decide), ← ih]
    split
    · rename_i h
      rw [h, nil_append]
    · rfl

theorem splitOn_of_notMem [BEq α] [LawfulBEq α] (hl : ∀ a ∈ l, (!(a == c)) = true) : l.splitOn c = [l] := by
  unfold List.splitOn
  exact splitOnP_eq_singleton fun a ha => by simpa using hl a ha

theorem splitOn_append [BEq α] [LawfulBEq α] (s t : List α) :
    (s ++ c :: t).splitOn c = s.splitOn c ++ t.splitOn c := by
  unfold List.splitOn
  exact splitOnP_append_cons s t (beq_self_eq_true c)

theorem splitOn_append_cons [BEq α] [LawfulBEq α] (hl : ∀ a ∈ l, (!(a == c)) = true) (t : List α) :
    (l ++ c :: t).splitOn c = l :: t.splitOn c := by
  rw [splitOn_append, splitOn_of_notMem hl]
  rfl

theorem byPieces [BEq α] [LawfulBEq α] {P : List α → Prop} (c : α) (last : ∀ l, (∀ a ∈ l, (!(a == c)) = true) → P l)
    (more : ∀ l t, (∀ a ∈ l, (!(a == c)) = true) → P t → P (l ++ c :: t)) (s : List α) : P s := by
  refine byRuns (fun a => !(a == c)) last (fun l d t hl hd ht => ?_) s
  have hdc : d = c := by simpa using hd
  rw [hdc]
  exact more l t hl ht

theorem mem_of_mem_splitOn [BEq α] [LawfulBEq α] {a : α} (hl : l ∈ s.splitOn c) (ha : a ∈ l) : a ∈ s := by
  induction s using byPieces c with
  | last s hs =>
    rw [splitOn_of_notMem hs] at hl
    rwa [mem_singleton.1 hl] at ha
  | more s t hs ih =>
    rw [splitOn_append_cons hs] at hl
    rcases mem_cons.1 hl with rfl | hl
    · exact mem_append_left _ ha
    · exact mem_append_right _ (mem_cons_of_mem _ (ih hl))

theorem splitOn_notMem [BEq α] [LawfulBEq α] (s : List α) : ∀ p ∈ s.splitOn c, c ∉ p := by
  induction s using byPieces c with
  | last s hs =>
    rw [splitOn_of_notMem hs, forall_mem_singleton]
    exact fun h => by simpa using hs _ h
  | more s t hs ih =>
    rw [splitOn_append_cons hs, forall_mem_cons]
    exact ⟨fun h => by simpa using hs _ h, ih⟩

theorem words_splitOn [BEq α] [LawfulBEq α] (hc : p c = false) (s : List α) :
    (s.splitOn c).flatMap (words p) = words p s := by
  induction s using byPieces c with
  | last l hl => rw [splitOn_of_notMem hl, flatMap_singleton]
  | more l t hl ih => rw [splitOn_append_cons hl, flatMap_cons, ih, words_append hc]

theorem flatten_flatMap {β : Type} {f : β → List (List α)} : ∀ xs : List β, (xs.flatMap f).flatten = xs.flatMap (fun x => (f x).flatten)
  | [] => rfl
  | x :: xs => by rw [flatMap_cons, flatten_append, flatten_flatMap xs, flatMap_cons]

theorem filter_splitOn [BEq α] [LawfulBEq α] (hc : p c = false) (s : List α) :
    (s.splitOn c).flatMap (List.filter p) = s.filter p := by
  rw [← words_flatten, ← words_splitOn hc, flatten_flatMap]
  exact congrArg (fun f => List.flatMap f (s.splitOn c)) (funext fun l => (words_flatten l).symm)

theorem words_intercalate {c : α} (hc : p c = false) : ∀ ls : List (List α),
    words p ([c].intercalate ls) = ls.flatMap (words p)
  | [] => words_nil
  | [l] => by rw [intercalate_singleton, flatMap_singleton]
  | l :: m :: ls => by
    rw [intercalate_cons_cons, append_assoc, singleton_append, words_append hc, words_intercalate hc (m :: ls)]
    rfl

/-! ## Words that are joined -/

theorem intercalate_ne_nil (sep : List α) : ∀ {ws : List (List α)}, AreWords p ws → ws ≠ [] → sep.intercalate ws ≠ []
  | [], _, h => absurd rfl h
  | [w], hw, _ => by
    rw [intercalate_singleton]
    exact (hw w mem_cons_self).1
  | w :: v :: ws, hw, _ => by
    rw [intercalate_cons_cons, append_assoc]
    exact fun h => (hw w mem_cons_self).1 (append_eq_nil_iff.1 h).1

theorem intercalate_head (sep : List α) : ∀ {ws : List (List α)}, AreWords p ws → ∀ c ∈ (sep.intercalate ws).head?, p c = true
  | [], _, _, h => nomatch h
  | [w], hw, c, h => by
    rw [intercalate_singleton] at h
    exact (hw w mem_cons_self).2 c (mem_of_mem_head? h)
  | w :: v :: ws, hw, c, h => by
    obtain ⟨hne, hall⟩ := hw w mem_cons_self
    rw [intercalate_cons_cons, append_assoc, List.head?_append_of_ne_nil _ hne] at h
    exact hall c (mem_of_mem_head? h)

theorem intercalate_last (sep : List α) : ∀ {ws : List (List α)}, AreWords p ws →
    ∀ c ∈ (sep.intercalate ws).getLast?, p c = true
  | [], _, _, h => nomatch h
  | [w], hw, c, h => by
    rw [intercalate_singleton] at h
    exact (hw w mem_cons_self).2 c (mem_of_getLast? h)
  | w :: v :: ws, hw, c, h => by
    have hrest : AreWords p (v :: ws) := fun x hx => hw x (mem_cons_of_mem _ hx)
    rw [intercalate_cons_cons,
      List.getLast?_append_of_ne_nil _ (intercalate_ne_nil sep hrest (cons_ne_nil v ws))] at h
    exact intercalate_last sep hrest c h

theorem mem_intercalate {sep : List α} {c : α} : ∀ {ws : List (List α)}, c ∈ sep.intercalate ws →
    (∃ w ∈ ws, c ∈ w) ∨ c ∈ sep
  | [], h => nomatch h
  | [w], h => .inl ⟨w, mem_cons_self, by rwa [intercalate_singleton] at h⟩
  | w :: v :: ws, h => by
    rw [intercalate_cons_cons] at h
    rcases mem_append.1 h with h | h
    · rcases mem_append.1 h with h | h
      · exact .inl ⟨w, mem_cons_self, h⟩
      · exact .inr h
    · exact (mem_intercalate h).imp_left fun ⟨x, hx, hc⟩ => ⟨x, mem_cons_of_mem _ hx, hc⟩

/-! ## Words in order -/

theorem InOrder.append : ∀ {ws vs : List (List α)} {s t : List α}, InOrder ws s → InOrder vs t → InOrder (ws ++ vs) (s ++ t)
  | [], [], _, _, _, _ => True.intro
  | [], v :: vs, s, _, _, ⟨before, after, e, h⟩ => ⟨s ++ before, after, by rw [e, append_assoc, append_assoc,
      append_assoc], h⟩
  | w :: ws, vs, _, t, ⟨before, after, e, h⟩, h' => ⟨before, after ++ t, by rw [e, append_assoc], h.append h'⟩

theorem InOrder.under (s : List α) (h : InOrder ws t) : InOrder ws (s ++ t) :=
  @InOrder.append α [] ws s t True.intro h

theorem InOrder.over (t : List α) (h : InOrder ws s) : InOrder ws (s ++ t) := by
  have := @InOrder.append α ws [] s t h True.intro
  rwa [append_nil] at this

theorem words_inOrder (s : List α) : InOrder (words p s) s := by
  induction s using byRuns p with
  | last l hl =>
    rw [words_letters hl]
    split
    · exact True.intro
    · exact ⟨[], [], by rw [nil_append, append_nil], True.intro⟩
  | more l c t hl hc ih =>
    rw [words_cons hl hc]
    split
    · exact (ih.under [c]).under l
    · exact ⟨[], c :: t, rfl, ih.under [c]⟩

theorem mapIdx_map {β γ δ : Type} {f : β → γ} : ∀ {xs : List β} {g : Nat → γ → δ},
    (xs.map f).mapIdx g = xs.mapIdx (fun i x => g i (f x))
  | [], _ => rfl
  | x :: xs, g => by rw [map_cons, mapIdx_cons, mapIdx_cons, mapIdx_map]

theorem InOrder.mapIdx {β : Type} {f : β → List (List α)} : ∀ {xs : List β} {g : Nat → β → List α},
    (∀ i, ∀ x ∈ xs, InOrder (f x) (g i x)) → InOrder (xs.flatMap f) (xs.mapIdx g).flatten
  | [], _, _ => True.intro
  | x :: xs, g, h => by
    rw [flatMap_cons, mapIdx_cons, flatten_cons]
    exact (h 0 x mem_cons_self).append (InOrder.mapIdx (fun i y hy => h (i + 1) y (mem_cons_of_mem _ hy)))

theorem filter_mapIdx {β : Type} {f : β → List α} : ∀ {xs : List β} {g : Nat → β → List α},
    (∀ i, ∀ x ∈ xs, (g i x).filter p = f x) → (xs.mapIdx g).flatten.filter p = xs.flatMap f
  | [], _, _ => rfl
  | x :: xs, g, h => by
    rw [flatMap_cons, mapIdx_cons, flatten_cons, filter_append, h 0 x mem_cons_self,
      filter_mapIdx (fun i y hy => h (i + 1) y (mem_cons_of_mem _ hy))]

theorem InOrder.flatMap (f : α → List α) : ∀ {ws : List (List α)} {t : List α}, (∀ w ∈ ws, ∀ c ∈ w, f c = [c]) →
    InOrder ws t → InOrder ws (t.flatMap f)
  | [], _, _, _ => True.intro
  | w :: ws, _, hf, ⟨before, after, e, h⟩ => by
    have hw : ∀ v : List α, (∀ c ∈ v, f c = [c]) → v.flatMap f = v := by
      intro v hv
      induction v with
      | nil => rfl
      | cons c v ih =>
        rw [flatMap_cons, hv c mem_cons_self, ih (fun d hd => hv d (mem_cons_of_mem _ hd))]
        rfl
    refine ⟨before.flatMap f, after.flatMap f, ?_, h.flatMap f (fun v hv => hf v (mem_cons_of_mem _ hv))⟩
    rw [e, flatMap_append, flatMap_append, hw w (hf w mem_cons_self)]

theorem InOrder.of_append : ∀ {ws vs : List (List α)} {t : List α}, InOrder (ws ++ vs) t →
    ∃ s r, t = s ++ r ∧ InOrder ws s ∧ InOrder vs r
  | [], _, t, h => ⟨[], t, rfl, True.intro, h⟩
  | w :: ws, vs, t, ⟨before, after, e, h⟩ => by
    obtain ⟨s, r, rfl, hs, hr⟩ := h.of_append
    exact ⟨before ++ w ++ s, r, by rw [e, append_assoc (before ++ w)], ⟨before, s, rfl, hs⟩, hr⟩

theorem InOrder.split {c : α} (hc : p c = false) : ∀ {ws : List (List α)} {s t : List α}, AreWords p ws →
    InOrder ws (s ++ c :: t) → ∃ vs vs', ws = vs ++ vs' ∧ InOrder vs s ∧ InOrder vs' t
  | [], _, _, _, _ => ⟨[], [], rfl, True.intro, True.intro⟩
  | w :: ws, s, t, hw, ⟨before, after, e, h⟩ => by
    obtain ⟨hne, hlet⟩ := hw w mem_cons_self
    have hws : AreWords p ws := fun v hv => hw v (mem_cons_of_mem _ hv)
    have hcw : c ∉ w := fun hin => by have := hlet c hin; rw [hc] at this; cases this
    rcases append_eq_append_iff.1 e with ⟨gap, hbw, hgap⟩ | ⟨gap, rfl, hgap⟩
    · cases gap with
      | nil =>
        -- the word ends where the text before does
        obtain ⟨vs, vs', rfl, h1, h2⟩ := InOrder.split (s := []) hc hws (by rw [nil_append, hgap]; exact h)
        rw [append_nil] at hbw
        refine ⟨w :: vs, vs', rfl, ⟨before, [], ?_, h1⟩, h2⟩
        rw [append_nil, hbw]
      | cons d gap =>
        obtain ⟨rfl, ht⟩ := List.cons.inj hgap
        -- the rune that is no letter stands before the word
        rcases append_eq_append_iff.1 hbw with ⟨a, ha, hca⟩ | ⟨a, rfl, hca⟩
        · have hin : c ∈ w := by rw [hca]; exact mem_append_right _ mem_cons_self
          exact absurd hin hcw
        · cases a with
          | nil =>
            rw [nil_append] at hca
            rw [← hca] at hcw
            exact absurd mem_cons_self hcw
          | cons d a =>
            obtain ⟨rfl, hg⟩ := List.cons.inj hca
            exact ⟨[], w :: ws, rfl, True.intro, ⟨a, after, by rw [ht, hg]; rfl, h⟩⟩
    · obtain ⟨vs, vs', rfl, h1, h2⟩ := InOrder.split hc hws (hgap ▸ h)
      exact ⟨w :: vs, vs', rfl, ⟨before, gap, rfl, h1⟩, h2⟩

theorem AreWords.append {vs : List (List α)} : AreWords p (ws ++ vs) ↔ AreWords p ws ∧ AreWords p vs :=
  forall_mem_append

theorem InOrder.eq_nil (hw : AreWords p ws) (ht : ∀ c ∈ t, p c = false)
    (h : InOrder ws t) : ws = [] := by
  cases ws with
  | nil => rfl
  | cons w ws =>
    obtain ⟨before, after, rfl, -⟩ := h
    obtain ⟨hne, hlet⟩ := hw w mem_cons_self
    cases w with
    | nil => exact absurd rfl hne
    | cons c w =>
      have := ht c (mem_append_left _ (mem_append_right _ mem_cons_self))
      rw [hlet c mem_cons_self] at this
      cases this

theorem InOrder.of_over (hw : AreWords p ws) (ht : ∀ c ∈ t, p c = false)
    (h : InOrder ws (s ++ t)) : InOrder ws s := by
  cases t with
  | nil => rwa [append_nil] at h
  | cons =>
    obtain ⟨hc, ht⟩ := forall_mem_cons.1 ht
    obtain ⟨vs, vs', rfl, h1, h2⟩ := h.split hc hw
    rw [h2.eq_nil (AreWords.append.1 hw).2 ht, append_nil]
    exact h1

theorem InOrder.of_under (hw : AreWords p ws) (hs : ∀ c ∈ s, p c = false)
    (h : InOrder ws (s ++ t)) : InOrder ws t := by
  induction s generalizing ws with
  | nil => exact h
  | cons c s ih =>
    obtain ⟨hc, hs⟩ := forall_mem_cons.1 hs
    obtain ⟨vs, vs', rfl, h1, h2⟩ := InOrder.split (s := []) hc hw h
    have hnil : vs = [] := h1.eq_nil (AreWords.append.1 hw).1 (forall_mem_nil _)
    rw [hnil] at hw ⊢
    exact ih hw hs h2

theorem InOrder.trans (s : List α) : ∀ {t : List α}, AreWords p ws → InOrder ws s →
    InOrder (words p s) t → InOrder ws t := by
  induction s using byRuns p generalizing ws with
  | last l hl =>
    intro t hw h ht
    rw [words_letters hl] at ht
    by_cases hnil : l = []
    · rw [hnil] at h
      rw [h.eq_nil hw (forall_mem_nil _)]
      exact True.intro
    · rw [if_neg hnil] at ht
      obtain ⟨before, after, rfl, -⟩ := ht
      exact (h.under before).over after
  | more l c s hl hc ih =>
    intro t hw h ht
    obtain ⟨vs, vs', rfl, h1, h2⟩ := h.split hc hw
    obtain ⟨hvs, hvs'⟩ := AreWords.append.1 hw
    rw [words_cons hl hc] at ht
    by_cases hnil : l = []
    · rw [if_pos hnil] at ht
      rw [hnil] at h1
      rw [h1.eq_nil hvs (forall_mem_nil _)]
      exact ih hvs' h2 ht
    · rw [if_neg hnil] at ht
      obtain ⟨before, after, rfl, ht⟩ := ht
      exact (h1.under before).append (ih hvs' h2 ht)

theorem InOrder.trans_flatMap {β : Type} {f : β → List (List α)} {g : β → List α} : ∀ {xs : List β} {t : List α},
    (∀ x ∈ xs, AreWords p (f x) ∧ InOrder (f x) (g x)) → InOrder (xs.flatMap (fun x => words p (g x))) t →
    InOrder (xs.flatMap f) t
  | [], _, _, _ => True.intro
  | x :: xs, t, h, ht => by
    rw [flatMap_cons] at ht ⊢
    obtain ⟨hx, hxs⟩ := forall_mem_cons.1 h
    obtain ⟨s, r, rfl, hs, hr⟩ := ht.of_append
    exact (InOrder.trans (g x) hx.1 hx.2 hs).append (InOrder.trans_flatMap hxs hr)

theorem InOrder.of_sublist {vs ws : List (List α)} (h : vs.Sublist ws) : ∀ {t : List α}, InOrder ws t → InOrder vs t := by
  induction h with
  | slnil => exact id
  | cons w _ ih =>
    rintro t ⟨before, after, rfl, h⟩
    exact (ih h).under _
  | cons_cons w _ ih =>
    rintro t ⟨before, after, e, h⟩
    exact ⟨before, after, e, ih h⟩

theorem InOrder.sublist : ∀ {ws : List (List α)} {t : List α}, InOrder ws t → ws.flatten.Sublist t
  | [], t, _ => nil_sublist t
  | w :: ws, _, ⟨before, after, e, h⟩ => by
    rw [e, flatten_cons, append_assoc]
    exact (List.Sublist.refl w |>.append h.sublist).trans (sublist_append_right _ _)

theorem InOrder.letters (h : InOrder ws t) :
    (ws.flatten.filter p).length ≤ (t.filter p).length := (h.sublist.filter p).length_le

end Armature
