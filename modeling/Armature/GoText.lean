import Mathlib.Data.Char
import Mathlib.Data.List.Lex
import Mathlib.Data.List.TakeWhile
/-!
# GoText — Go's `strings` and `unicode` on texts

A text is its runes, as `[]rune` reads it.
-/
namespace Armature
namespace Go

open List

abbrev Text := List Char

instance (t : Text) (l : List Text) : Decidable (t ∈ l) := inferInstance

def isSpace (c : Char) : Bool :=
  let n := c.toNat
  (0x09 ≤ n && n ≤ 0x0D) || n == 0x20 || n == 0x85 || n == 0xA0 || n == 0x1680 || (0x2000 ≤ n && n ≤ 0x200A) ||
    n == 0x2028 || n == 0x2029 || n == 0x202F || n == 0x205F || n == 0x3000

def trimLeft (s : Text) : Text := s.dropWhile isSpace

def trimSpace (s : Text) : Text := (trimLeft (trimLeft s).reverse).reverse

theorem trimLeft_eq_nil_iff (s : Text) : trimLeft s = [] ↔ ∀ c ∈ s, isSpace c = true := by
  unfold trimLeft
  rw [dropWhile_eq_nil_iff]

theorem trimSpace_eq_nil_iff (s : Text) : trimSpace s = [] ↔ ∀ c ∈ s, isSpace c = true := by
  unfold trimSpace
  rw [reverse_eq_nil_iff, trimLeft_eq_nil_iff]
  constructor
  · intro h
    rw [← trimLeft_eq_nil_iff]
    cases hs : trimLeft s with
    | nil => rfl
    | cons c t =>
      have hc : ¬ isSpace c = true := by
        have := List.head?_dropWhile_not isSpace s
        unfold trimLeft at hs
        rw [hs] at this
        simpa using this
      exact absurd (h c (by rw [hs]; simp)) hc
  · intro h c hc
    exact h c ((dropWhile_sublist _).subset (mem_reverse.1 hc))

theorem cut_split (p : Char → Bool) (s : Text) : ∃ a b, s = a ++ ((s.dropWhile p).reverse.dropWhile p).reverse ++ b ∧
    (∀ c ∈ a, p c = true) ∧ ∀ c ∈ b, p c = true := by
  refine ⟨s.takeWhile p, ((s.dropWhile p).reverse.takeWhile p).reverse, ?_, fun c hc => mem_takeWhile_imp hc,
    fun c hc => mem_takeWhile_imp (mem_reverse.1 hc)⟩
  rw [append_assoc, ← reverse_append, takeWhile_append_dropWhile, reverse_reverse,
    takeWhile_append_dropWhile]

theorem trimSpace_split (s : Text) : ∃ a b, s = a ++ trimSpace s ++ b ∧ (∀ c ∈ a, isSpace c = true) ∧ ∀ c ∈ b, isSpace c = true :=
  cut_split isSpace s

theorem trimLeft_head {s : Text} {c : Char} (h : (trimLeft s).head? = some c) : isSpace c = false := by
  have hnot := List.head?_dropWhile_not isSpace s
  unfold trimLeft at h
  rw [h] at hnot
  simpa using hnot

theorem trimSpace_last {s : Text} {c : Char} (h : (trimSpace s).getLast? = some c) : isSpace c = false := by
  unfold trimSpace at h
  rw [List.getLast?_reverse] at h
  exact trimLeft_head h

theorem trimSpace_head {s : Text} {c : Char} (h : (trimSpace s).head? = some c) : isSpace c = false := by
  have hsplit : trimLeft s = trimSpace s ++ ((trimLeft s).reverse.takeWhile isSpace).reverse := by
    have hrest : trimSpace s = ((trimLeft s).reverse.dropWhile isSpace).reverse := rfl
    rw [hrest, ← reverse_append, takeWhile_append_dropWhile, reverse_reverse]
  refine trimLeft_head (s := s) ?_
  rw [hsplit, List.head?_append, h]
  rfl

theorem trimLeft_between {a t : Text} (ha : ∀ c ∈ a, isSpace c = true) (ht : ∀ c ∈ t.head?, isSpace c = false) :
    trimLeft (a ++ t) = t := by
  unfold trimLeft
  rw [dropWhile_append_of_pos ha]
  cases t with
  | nil => rfl
  | cons c t => exact dropWhile_cons_of_neg (by rw [ht c rfl]; exact Bool.false_ne_true)

theorem trimSpace_between {a t b : Text} (ha : ∀ c ∈ a, isSpace c = true) (hb : ∀ c ∈ b, isSpace c = true)
    (hhead : ∀ c ∈ t.head?, isSpace c = false) (hlast : ∀ c ∈ t.getLast?, isSpace c = false) :
    trimSpace (a ++ t ++ b) = t := by
  unfold trimSpace
  cases t with
  | nil =>
    have hall : trimLeft (a ++ [] ++ b) = [] := by
      rw [trimLeft_eq_nil_iff]
      intro c hc
      rw [append_nil] at hc
      rcases mem_append.1 hc with hc | hc
      · exact ha c hc
      · exact hb c hc
    rw [hall]
    rfl
  | cons c t =>
    rw [append_assoc, trimLeft_between ha (t := c :: t ++ b) hhead, reverse_append,
      trimLeft_between (fun d hd => hb d (mem_reverse.1 hd)) (by rwa [List.head?_reverse]), reverse_reverse]

theorem trimSpace_trimSpace (s : Text) : trimSpace (trimSpace s) = trimSpace s := by
  have hempty : ∀ c ∈ ([] : Text), isSpace c = true := nofun
  have h := trimSpace_between (t := trimSpace s) hempty hempty (fun c hc => trimSpace_head hc) fun c hc => trimSpace_last hc
  rwa [nil_append, append_nil] at h

theorem bind_ok {ε α β : Type} {x : Except ε α} {f : α → Except ε β} {b : β} :
    x >>= f = .ok b ↔ ∃ a, x = .ok a ∧ f a = .ok b := by
  cases x with
  | error => simp [bind, Except.bind]
  | ok => simp [bind, Except.bind]

theorem forM_ok_iff {ε α : Type} {f : α → Except ε Unit} : ∀ {l : List α}, l.forM f = .ok () ↔ ∀ a ∈ l, f a = .ok ()
  | [] => ⟨nofun, fun _ => rfl⟩
  | b :: l => by
    change (f b >>= fun _ => l.forM f) = .ok () ↔ _
    rw [forall_mem_cons, ← forM_ok_iff (l := l)]
    cases hb : f b with
    | error =>
      constructor
      · intro h
        cases h
      · rintro ⟨h, -⟩
        cases h
    | ok => exact ⟨fun h => ⟨rfl, h⟩, fun h => h.2⟩

theorem mapM_ok {ε α β : Type} {f : α → Except ε β} {g : α → β} : ∀ {l : List α}, (∀ a ∈ l, f a = .ok (g a)) →
    l.mapM f = .ok (l.map g)
  | [], _ => rfl
  | a :: l, h => by
    rw [mapM_cons, h a mem_cons_self, mapM_ok fun b hb => h b (mem_cons_of_mem _ hb)]
    rfl

theorem mapM_cases {ε α β : Type} {f : α → Except ε β} : ∀ {as : List α} {bs : List β}, as.mapM f = .ok bs →
    List.Forall₂ (fun a b => f a = .ok b) as bs
  | [], bs, h => by
    cases h
    exact .nil
  | a :: as, bs, h => by
    rw [mapM_cons] at h
    obtain ⟨b, hb, h⟩ := bind_ok.1 h
    obtain ⟨rest, hrest, h⟩ := bind_ok.1 h
    cases h
    exact .cons hb (mapM_cases hrest)

end Go
end Armature
