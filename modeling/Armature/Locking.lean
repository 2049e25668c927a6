import Armature.Interleaving
/-!
# Locking — transactions that lock the rows they rely on

Processes that hold rows, no two of them the same one, and change only what they hold: what a process knows of the rows that
it holds stays so.
-/
namespace Armature
namespace Interleaving

open List

variable {S P R : Type} (locks : P → R → Prop)

def Unlocked (ps : List P) (r : R) : Prop := ∀ p ∈ ps, ¬ locks p r

def Apart (ps : List P) : Prop := ps.Pairwise fun p q => ∀ r, locks p r → ¬ locks q r

variable {locks}

theorem mem_between {l r : List P} {p q : P} (h : q ∈ l ++ r) : q ∈ l ++ p :: r := by
  rcases mem_append.1 h with h | h
  · exact mem_append_left _ h
  · exact mem_append_right _ (mem_cons_of_mem _ h)

theorem apart_between {l r : List P} {p : P} :
    Apart locks (l ++ p :: r) ↔ (∀ q ∈ l ++ r, ∀ row, locks p row → ¬ locks q row) ∧ Apart locks (l ++ r) := by
  unfold Apart
  rw [pairwise_middle fun h row hq hp => h row hp hq, pairwise_cons]

theorem apart_after {l r : List P} {p : Option P} (h : Apart locks (l ++ r))
    (hp : ∀ q ∈ p, ∀ row, locks q row → Unlocked locks (l ++ r) row) : Apart locks (l ++ p.toList ++ r) := by
  cases p with
  | none => rwa [Option.toList_none, append_nil]
  | some p =>
    rw [Option.toList_some, append_assoc, singleton_append, apart_between]
    exact ⟨fun q hq row hrow => hp p rfl row hrow q hq, h⟩

theorem Run.locked {starts : S → List P → S → Option P → Prop} {acts : S → List P → P → S → Option P → Prop}
    {I : S → Prop} {L : S → P → Prop} {C : (R → Prop) → S → S → Prop} {s₀ : S}
    (hstable : ∀ mine s s' p, C mine s s' → (∀ row, locks p row → ¬ mine row) → L s p → L s' p)
    (hstart : ∀ s running s' p, I s → starts s running s' p →
      I s' ∧ C (Unlocked locks running) s s' ∧ ∀ q ∈ p, L s' q ∧ ∀ row, ¬ locks q row)
    (hact : ∀ s l r p s' p', Run starts acts s₀ ⟨s, l ++ p :: r⟩ → I s → (∀ q ∈ l ++ p :: r, L s q) → acts s (l ++ r) p s' p' →
      I s' ∧ C (locks p) s s' ∧ ∀ q ∈ p', L s' q ∧ ∀ row, locks q row → locks p row ∨ Unlocked locks (l ++ r) row)
    {sys : System S P} (h₀ : I s₀) (h : Run starts acts s₀ sys) :
    I sys.shared ∧ Apart locks sys.running ∧ ∀ p ∈ sys.running, L sys.shared p := by
  refine Run.holds_reached (I := fun s ps => I s ∧ Apart locks ps ∧ ∀ p ∈ ps, L s p) ?_ ?_ ?_
    ⟨h₀, List.Pairwise.nil, nofun⟩ h
  · rintro s running s' p - ⟨hi, hapart, hl⟩ hs
    obtain ⟨hi', hc, hp⟩ := hstart s running s' p hi hs
    refine ⟨hi', apart_after (l := []) hapart fun q hq row hrow => absurd hrow ((hp q hq).2 row), fun q hq => ?_⟩
    rcases mem_append.1 hq with hq | hq
    · exact (hp q (Option.mem_toList.1 hq)).1
    · exact hstable _ s s' q hc (fun row hrow hfree => hfree q hq hrow) (hl q hq)
  · rintro s l r p s' p' hreached ⟨hi, hapart, hl⟩ ha
    obtain ⟨hmine, hothers⟩ := apart_between.1 hapart
    obtain ⟨hi', hc, hp⟩ := hact s l r p s' p' hreached hi hl ha
    have hstays : ∀ q ∈ l ++ r, L s' q := fun q hq =>
      hstable _ s s' q hc (fun row hrow hmy => hmine q hq row hmy hrow) (hl q (mem_between hq))
    refine ⟨hi', apart_after hothers fun q hq row hrow => ?_, fun q hq => ?_⟩
    · exact ((hp q hq).2 row hrow).elim (fun hmy o ho => hmine o ho row hmy) id
    · rcases mem_append.1 hq with hq | hq
      · rcases mem_append.1 hq with hq | hq
        · exact hstays q (mem_append_left _ hq)
        · exact (hp q (Option.mem_toList.1 hq)).1
      · exact hstays q (mem_append_right _ hq)
  · rintro s l r p ⟨hi, hapart, hl⟩
    exact ⟨hi, (apart_between.1 hapart).2, fun q hq => hl q (mem_between hq)⟩

/-! ## Rows that one holds or several share -/

section
variable (locks shares : P → R → Prop)

def Compatible (p q : P) : Prop := (∀ r, locks p r → ¬ locks q r ∧ ¬ shares q r) ∧ ∀ r, locks q r → ¬ shares p r

def Free (ps : List P) (r : R) : Prop := ∀ p ∈ ps, ¬ locks p r ∧ ¬ shares p r

variable {locks shares}

theorem Compatible.symm {p q : P} (h : Compatible locks shares p q) : Compatible locks shares q p :=
  ⟨fun r hq => ⟨fun hp => (h.1 r hp).1 hq, h.2 r hq⟩, fun r hp => (h.1 r hp).2⟩

theorem compatible_after {others : List P} {p p' : P} (h : ∀ q ∈ others, Compatible locks shares p q)
    (hlocks : ∀ r, locks p' r → locks p r ∨ Free locks shares others r)
    (hshares : ∀ r, shares p' r → (locks p r ∨ shares p r) ∨ Unlocked locks others r) :
    ∀ q ∈ others, Compatible locks shares p' q := by
  refine fun q hq => ⟨fun r hr => ?_, fun r hr hs => ?_⟩
  · exact (hlocks r hr).elim ((h q hq).1 r) fun hfree => hfree q hq
  · rcases hshares r hs with (hp | hp) | hun
    · exact ((h q hq).1 r hp).1 hr
    · exact (h q hq).2 r hr hp
    · exact hun q hq hr

theorem Run.beside {starts : S → List P → S → Option P → Prop} {acts : S → List P → P → S → Option P → Prop}
    {I : S → Prop} {L : S → P → Prop} {B : P → P → Prop} {s₀ : S} (hsymm : ∀ p q, B p q → B q p)
    (hstart : ∀ s running s' p, I s → (∀ q ∈ running, L s q) → starts s running s' p →
      I s' ∧ (∀ q ∈ running, L s' q) ∧ ∀ q ∈ p, L s' q ∧ ∀ t ∈ running, B q t)
    (hact : ∀ s others p s' p', I s → L s p → (∀ q ∈ others, L s q ∧ B p q) → acts s others p s' p' →
      I s' ∧ (∀ q ∈ others, L s' q) ∧ ∀ q ∈ p', L s' q ∧ ∀ t ∈ others, B q t)
    {sys : System S P} (h₀ : I s₀) (h : Run starts acts s₀ sys) :
    I sys.shared ∧ (∀ p ∈ sys.running, L sys.shared p) ∧ sys.running.Pairwise B := by
  refine Run.holds (I := fun s ps => I s ∧ (∀ p ∈ ps, L s p) ∧ ps.Pairwise B) ?_ ?_ ?_
    ⟨h₀, nofun, List.Pairwise.nil⟩ h
  · rintro s running s' p ⟨hi, hl, hb⟩ hs
    obtain ⟨hi', hl', hp⟩ := hstart s running s' p hi hl hs
    refine ⟨hi', fun q hq => ?_, ?_⟩
    · exact (mem_append.1 hq).elim (fun hq => (hp q (Option.mem_toList.1 hq)).1) (hl' q)
    · cases p with
      | none => exact hb
      | some p => exact pairwise_cons.2 ⟨(hp p rfl).2, hb⟩
  · rintro s l r p s' p' ⟨hi, hl, hb⟩ ha
    obtain ⟨hmine, hothers⟩ := (pairwise_middle fun {a b} => hsymm a b).1 hb |> pairwise_cons.1
    obtain ⟨hi', hl', hp⟩ := hact s (l ++ r) p s' p' hi (hl p (mem_append_right _ mem_cons_self))
      (fun q hq => ⟨hl q (mem_between hq), hmine q hq⟩) ha
    cases p' with
    | none =>
      rw [Option.toList_none, append_nil]
      exact ⟨hi', hl', hothers⟩
    | some p' =>
      rw [Option.toList_some, append_assoc, singleton_append]
      refine ⟨hi', fun q hq => ?_, (pairwise_middle fun {a b} => hsymm a b).2 (pairwise_cons.2 ⟨(hp p' rfl).2, hothers⟩)⟩
      rcases mem_append.1 hq with hq | hq
      · exact hl' q (mem_append_left _ hq)
      · rcases mem_cons.1 hq with rfl | hq
        · exact (hp _ rfl).1
        · exact hl' q (mem_append_right _ hq)
  · rintro s l r p ⟨hi, hl, hb⟩
    exact ⟨hi, fun q hq => hl q (mem_between hq), ((pairwise_middle fun {a b} => hsymm a b).1 hb |> pairwise_cons.1).2⟩

end

end Interleaving
end Armature
