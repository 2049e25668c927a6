import Mathlib.Data.List.Basic
import Mathlib.Logic.Relation
/-!
# Interleaving — processes over shared data, each of which may stop between any two steps

A process starts, or something else changes the shared data; a process that runs takes a step, and may be done with it; and
any process may die.  `start` and `act` say which steps there are, beside the processes running then.
-/
namespace Armature
namespace Interleaving

open List

variable {S P : Type}

structure System (S P : Type) where
  shared : S
  running : List P

inductive Step (start : S → List P → S → Option P → Prop) (act : S → List P → P → S → Option P → Prop) :
    System S P → System S P → Prop where
  | start {s s' : S} {running : List P} {p : Option P} : start s running s' p →
      Step start act ⟨s, running⟩ ⟨s', p.toList ++ running⟩
  | act {s s' : S} {l r : List P} {p : P} {p' : Option P} : act s (l ++ r) p s' p' →
      Step start act ⟨s, l ++ p :: r⟩ ⟨s', l ++ p'.toList ++ r⟩
  | die {s : S} {l r : List P} {p : P} : Step start act ⟨s, l ++ p :: r⟩ ⟨s, l ++ r⟩

def Run (start : S → List P → S → Option P → Prop) (act : S → List P → P → S → Option P → Prop) (s : S) (sys : System S P) : Prop :=
  Relation.ReflTransGen (Step start act) ⟨s, []⟩ sys

section
variable {starts : S → List P → S → Option P → Prop} {acts : S → List P → P → S → Option P → Prop}

theorem Run.begin (s : S) : Run starts acts s ⟨s, []⟩ := Relation.ReflTransGen.refl

theorem Run.start {s₀ s s' : S} {running : List P} (p : Option P) (h : Run starts acts s₀ ⟨s, running⟩)
    (hs : starts s running s' p) : Run starts acts s₀ ⟨s', p.toList ++ running⟩ :=
  Relation.ReflTransGen.tail h (.start hs)

theorem Run.act {s₀ s s' : S} (l : List P) {r : List P} {p : P} (p' : Option P) (h : Run starts acts s₀ ⟨s, l ++ p :: r⟩)
    (ha : acts s (l ++ r) p s' p') : Run starts acts s₀ ⟨s', l ++ p'.toList ++ r⟩ :=
  Relation.ReflTransGen.tail h (.act ha)

theorem Run.holds_reached {I : S → List P → Prop} {s₀ : S}
    (hstart : ∀ s running s' p, Run starts acts s₀ ⟨s, running⟩ → I s running → starts s running s' p → I s' (p.toList ++ running))
    (hact : ∀ s l r p s' p', Run starts acts s₀ ⟨s, l ++ p :: r⟩ → I s (l ++ p :: r) → acts s (l ++ r) p s' p' →
      I s' (l ++ p'.toList ++ r))
    (hdie : ∀ s l r p, I s (l ++ p :: r) → I s (l ++ r)) {sys : System S P} (h₀ : I s₀ [])
    (h : Run starts acts s₀ sys) : I sys.shared sys.running := by
  induction h with
  | refl => exact h₀
  | tail hrun hs ih =>
    cases hs with
    | start hs => exact hstart _ _ _ _ hrun ih hs
    | act ha => exact hact _ _ _ _ _ _ hrun ih ha
    | die => exact hdie _ _ _ _ ih

theorem holds_where {ok : System S P → System S P → Prop} {I : S → List P → Prop}
    (hstart : ∀ s running s' p, I s running → starts s running s' p → I s' (p.toList ++ running))
    (hact : ∀ s l r p s' p', I s (l ++ p :: r) → acts s (l ++ r) p s' p' → I s' (l ++ p'.toList ++ r))
    (hdie : ∀ s l r p, ok ⟨s, l ++ p :: r⟩ ⟨s, l ++ r⟩ → I s (l ++ p :: r) → I s (l ++ r)) {sys sys' : System S P}
    (h₀ : I sys.shared sys.running) (h : Relation.ReflTransGen (fun a b => Step starts acts a b ∧ ok a b) sys sys') :
    I sys'.shared sys'.running := by
  induction h with
  | refl => exact h₀
  | tail _ hs ih =>
    obtain ⟨hstep, hok⟩ := hs
    cases hstep with
    | start hs => exact hstart _ _ _ _ ih hs
    | act ha => exact hact _ _ _ _ _ _ ih ha
    | die => exact hdie _ _ _ _ hok ih

theorem holds_on {I : S → List P → Prop}
    (hstart : ∀ s running s' p, I s running → starts s running s' p → I s' (p.toList ++ running))
    (hact : ∀ s l r p s' p', I s (l ++ p :: r) → acts s (l ++ r) p s' p' → I s' (l ++ p'.toList ++ r))
    (hdie : ∀ s l r p, I s (l ++ p :: r) → I s (l ++ r)) {sys sys' : System S P} (h₀ : I sys.shared sys.running)
    (h : Relation.ReflTransGen (Step starts acts) sys sys') : I sys'.shared sys'.running := by
  refine @holds_where S P starts acts (fun _ _ => True) I hstart hact (fun s l r p _ => hdie s l r p) _ _ h₀ ?_
  exact h.lift id fun _ _ hs => ⟨hs, trivial⟩

def Spared (may : S → P → Prop) (sys sys' : System S P) : Prop :=
  ∀ s l r p, sys = ⟨s, l ++ p :: r⟩ → sys' = ⟨s, l ++ r⟩ → may s p

theorem spared_start {may : S → P → Prop} {s s' : S} {p : Option P} : Spared may ⟨s, []⟩ ⟨s', p.toList ++ []⟩ := by
  intro t l r q he
  have hnil : l ++ q :: r = [] := (congrArg System.running he).symm
  exact absurd (append_eq_nil_iff.1 hnil).2 (cons_ne_nil q r)

theorem spared_act {may : S → P → Prop} {s s' : S} {p q : P} : Spared may ⟨s, [p]⟩ ⟨s', [q]⟩ := by
  intro t l r x he he'
  have hlen := congrArg (fun sys => sys.running.length) he
  have hlen' := congrArg (fun sys => sys.running.length) he'
  simp only [length_append, length_cons, length_nil] at hlen hlen'
  omega

theorem spared_over {may : S → P → Prop} {s s' : S} {p : P} (h : s' ≠ s) : Spared may ⟨s, [p]⟩ ⟨s', []⟩ := by
  intro t l r x he he'
  exact absurd ((congrArg System.shared he').trans (congrArg System.shared he).symm) h

theorem Run.holds {I : S → List P → Prop}
    (hstart : ∀ s running s' p, I s running → starts s running s' p → I s' (p.toList ++ running))
    (hact : ∀ s l r p s' p', I s (l ++ p :: r) → acts s (l ++ r) p s' p' → I s' (l ++ p'.toList ++ r))
    (hdie : ∀ s l r p, I s (l ++ p :: r) → I s (l ++ r)) {s₀ : S} {sys : System S P} (h₀ : I s₀ [])
    (h : Run starts acts s₀ sys) : I sys.shared sys.running :=
  holds_on hstart hact hdie h₀ h

theorem rely_on {I : S → Prop} {L : S → P → Prop} {C : S → S → Prop} (hstable : ∀ s s' p, C s s' → L s p → L s' p)
    (hstart : ∀ s running s' p, I s → starts s running s' p → I s' ∧ C s s' ∧ ∀ q ∈ p, L s' q)
    (hact : ∀ s others p s' p', I s → L s p → acts s others p s' p' → I s' ∧ C s s' ∧ ∀ q ∈ p', L s' q)
    {sys sys' : System S P} (h₀ : I sys.shared ∧ ∀ p ∈ sys.running, L sys.shared p)
    (h : Relation.ReflTransGen (Step starts acts) sys sys') : I sys'.shared ∧ ∀ p ∈ sys'.running, L sys'.shared p := by
  refine holds_on (I := fun s ps => I s ∧ ∀ p ∈ ps, L s p) ?_ ?_ ?_ h₀ h
  · rintro s running s' p ⟨hi, hl⟩ hs
    obtain ⟨hi', hc, hp⟩ := hstart s running s' p hi hs
    refine ⟨hi', fun q hq => ?_⟩
    rcases mem_append.1 hq with hq | hq
    · exact hp q (Option.mem_toList.1 hq)
    · exact hstable s s' q hc (hl q hq)
  · rintro s l r p s' p' ⟨hi, hl⟩ ha
    obtain ⟨hi', hc, hp⟩ := hact s (l ++ r) p s' p' hi (hl p (mem_append_right _ mem_cons_self)) ha
    refine ⟨hi', fun q hq => ?_⟩
    rcases mem_append.1 hq with hq | hq
    · rcases mem_append.1 hq with hq | hq
      · exact hstable s s' q hc (hl q (mem_append_left _ hq))
      · exact hp q (Option.mem_toList.1 hq)
    · exact hstable s s' q hc (hl q (mem_append_right _ (mem_cons_of_mem _ hq)))
  · rintro s l r p ⟨hi, hl⟩
    refine ⟨hi, fun q hq => hl q ?_⟩
    rcases mem_append.1 hq with hq | hq
    · exact mem_append_left _ hq
    · exact mem_append_right _ (mem_cons_of_mem _ hq)

theorem Run.rely {I : S → Prop} {L : S → P → Prop} {C : S → S → Prop} (hstable : ∀ s s' p, C s s' → L s p → L s' p)
    (hstart : ∀ s running s' p, I s → starts s running s' p → I s' ∧ C s s' ∧ ∀ q ∈ p, L s' q)
    (hact : ∀ s others p s' p', I s → L s p → acts s others p s' p' → I s' ∧ C s s' ∧ ∀ q ∈ p', L s' q)
    {s₀ : S} {sys : System S P} (h₀ : I s₀) (h : Run starts acts s₀ sys) : I sys.shared ∧ ∀ p ∈ sys.running, L sys.shared p :=
  rely_on hstable hstart hact ⟨h₀, fun _ hp => absurd hp not_mem_nil⟩ h

end

/-! ## What the processes hold -/

section
variable {K : Type} [DecidableEq K] (f : P → Option K)

def one (x : Option K) (k : K) : Nat := if x = some k then 1 else 0

def held (ps : List P) (k : K) : Nat := ps.countP fun p => decide (f p = some k)

@[simp] theorem one_none (k : K) : one none k = 0 := rfl

theorem one_some_self (k : K) : one (some k) k = 1 := if_pos rfl

theorem one_some_ne {j k : K} (h : j ≠ k) : one (some j) k = 0 := if_neg fun he => h (Option.some.inj he)

@[simp] theorem held_nil (k : K) : held f [] k = 0 := rfl

theorem held_between (l r : List P) (p : P) (k : K) : held f (l ++ p :: r) k = held f (l ++ r) k + one (f p) k := by
  simp only [held, one, countP_append, countP_cons, decide_eq_true_eq]
  omega

theorem held_after (l r : List P) (p : Option P) (k : K) :
    held f (l ++ p.toList ++ r) k = held f (l ++ r) k + one (p.bind f) k := by
  cases p with
  | none => rw [Option.toList_none, append_nil, Option.bind_none, one_none, Nat.add_zero]
  | some => rw [Option.toList_some, append_assoc, singleton_append, held_between, Option.bind_some]

theorem held_congr {f g : P → Option K} {ps : List P} (h : ∀ p ∈ ps, f p = g p) (k : K) : held f ps k = held g ps k :=
  countP_congr fun p hp => by rw [h p hp]

end

end Interleaving
end Armature
