import Armature.GoText
import Armature.LatestByKey
import Mathlib.Data.Int.Order.Basic
import Mathlib.Tactic.SplitIfs
/-!
# CombineChecks — one answer from the CI runs against a commit (`git/checks.go`)

The database hands the runs over newest first, those that started together in any order, and of these the one that comes
first is the check.  Otherwise the order does not matter (`combineChecks_order_iff`).
-/
namespace Armature
namespace Git

open List
open Go (Text)
open LatestByKey (IsLast Untied Holds latest holds_latest)

inductive CIStatus where
  | pending
  | success
  | failure
  | cancelled
  /-- A string that is none of these. -/
  | other (text : Text)
  deriving DecidableEq

structure CIRun where
  id : Nat
  repository : Text
  externalID : Text
  name : Text
  status : CIStatus
  url : Text
  sha : Text
  branch : Text
  startedAt : Int
  finishedAt : Option Int
  deriving DecidableEq

structure CIChecks where
  status : CIStatus
  checks : List CIRun
  deriving DecidableEq

def outweighs : List CIStatus := [.success, .cancelled, .pending, .failure]

def CIStatus.index (s : CIStatus) : Int :=
  match outweighs.idxOf? s with
  | some i => i
  | none => -1

/-- How a range over the map goes through its values: in any order. -/
structure MapOrder where
  values : List CIRun → List CIRun
  perm : ∀ l, (values l).Perm l

def MapOrder.asFilled : MapOrder := ⟨id, List.Perm.refl⟩

def telling (s : CIStatus) (run : CIRun) : CIStatus := if s.index < run.status.index then run.status else s

def combineChecks (o : MapOrder) (runs : List CIRun) : Option CIChecks :=
  if runs = [] then none
  else
    let values := o.values (latest CIRun.name CIRun.startedAt runs)
    some ⟨values.foldl telling .success, values.mergeSort fun a b => !decide (b.name < a.name)⟩

def grouped (runs : List CIRun) : Text → List CIRun :=
  runs.foldl (fun g run => Function.update g run.sha (g run.sha ++ [run])) fun _ => []

def checksBySHA (o : MapOrder) (runs : List CIRun) (sha : Text) : Option CIChecks := combineChecks o (grouped runs sha)

/-! ## The status -/

theorem index_other (text : Text) : (CIStatus.other text).index = -1 := rfl

theorem index_ge (s : CIStatus) : -1 ≤ s.index := by
  cases s with
  | other => exact le_refl _
  | _ => decide

theorem index_ranked {s : CIStatus} : 0 ≤ s.index ↔ s ∈ outweighs := by
  cases s with
  | other => simp [index_other, outweighs]
  | _ => decide

theorem index_inj {s s' : CIStatus} (h : s.index = s'.index) (hs : 0 ≤ s.index) : s = s' := by
  have hs' : 0 ≤ s'.index := h ▸ hs
  cases s with
  | other => exact absurd hs (by rw [index_other]; decide)
  | _ =>
    cases s' with
    | other => exact absurd hs' (by rw [index_other]; decide)
    | _ => first | rfl | exact absurd h (by decide)

theorem telling_cases (s : CIStatus) (run : CIRun) :
    (telling s run = run.status ∧ s.index < run.status.index) ∨ (telling s run = s ∧ run.status.index ≤ s.index) := by
  unfold telling
  split
  · rename_i h
    exact Or.inl ⟨rfl, h⟩
  · rename_i h
    exact Or.inr ⟨rfl, not_lt.1 h⟩

theorem telling_comm (s : CIStatus) (a b : CIRun) : telling (telling s a) b = telling (telling s b) a := by
  have hs := index_ge s
  have heq : a.status.index = b.status.index → s.index < a.status.index → a.status = b.status := fun h hlt =>
    index_inj h (by omega)
  unfold telling
  split_ifs <;> first | rfl | omega | exact heq (by omega) (by omega)

theorem telling_run : ∀ (l : List CIRun) (s : CIStatus),
    (l.foldl telling s = s ∨ ∃ c ∈ l, c.status = l.foldl telling s) ∧ s.index ≤ (l.foldl telling s).index ∧
      ∀ c ∈ l, c.status.index ≤ (l.foldl telling s).index
  | [], s => ⟨Or.inl rfl, le_refl _, nofun⟩
  | a :: l, s => by
    obtain ⟨hfrom, hle, hall⟩ := telling_run l (telling s a)
    rw [foldl_cons]
    have hbound : s.index ≤ (telling s a).index ∧ a.status.index ≤ (telling s a).index := by
      rcases telling_cases s a with ⟨he, hlt⟩ | ⟨he, hge⟩
      · rw [he]
        exact ⟨hlt.le, le_refl _⟩
      · rw [he]
        exact ⟨le_refl _, hge⟩
    refine ⟨?_, hbound.1.trans hle, fun c hc => ?_⟩
    · rcases hfrom with hfrom | ⟨c, hc, he⟩
      · rw [hfrom]
        rcases telling_cases s a with ⟨he, -⟩ | ⟨he, -⟩
        · exact Or.inr ⟨a, mem_cons_self, he.symm⟩
        · exact Or.inl he
      · exact Or.inr ⟨c, mem_cons_of_mem _ hc, he⟩
    · rcases mem_cons.1 hc with rfl | hc
      · exact hbound.2.trans hle
      · exact hall c hc

theorem telling_among (l : List CIRun) :
    (∃ c ∈ l, c.status = l.foldl telling .success) ↔ ∃ c ∈ l, c.status ∈ outweighs := by
  obtain ⟨hfrom, hle, hall⟩ := telling_run l .success
  constructor
  · rintro ⟨c, hc, he⟩
    exact ⟨c, hc, index_ranked.1 (by rw [he]; exact hle)⟩
  · rintro ⟨c, hc, hranked⟩
    rcases hfrom with hfrom | hfrom
    · have hbound := hall c hc
      rw [hfrom] at hbound ⊢
      exact ⟨c, hc, index_inj (le_antisymm hbound (index_ranked.2 hranked)) (index_ranked.2 hranked)⟩
    · exact hfrom

/-! ## The checks -/

theorem mergeSort_names (l : List CIRun) (h : (l.map CIRun.name).Nodup) :
    ((l.mergeSort fun a b => !decide (b.name < a.name)).map CIRun.name).Pairwise (· < ·) := by
  have hle : (l.mergeSort fun a b => !decide (b.name < a.name)).Pairwise fun a b => a.name ≤ b.name := by
    refine (pairwise_mergeSort (fun a b c => ?_) (fun a b => ?_) l).imp fun hab => ?_
    · simpa using fun hab hbc => le_trans hab hbc
    · simpa using le_total a.name b.name
    · simpa using hab
  have hne : ((l.mergeSort fun a b => !decide (b.name < a.name)).map CIRun.name).Nodup :=
    (((mergeSort_perm l _).map CIRun.name).nodup_iff).2 h
  exact (pairwise_map.2 hle).imp₂ (fun _ _ hab hne => lt_of_le_of_ne hab hne) hne

theorem checks_perm {l l' : List CIRun} (hp : l.Perm l') (h : (l.map CIRun.name).Nodup) :
    (l.mergeSort fun a b => !decide (b.name < a.name)) = l'.mergeSort fun a b => !decide (b.name < a.name) := by
  have hs := pairwise_map.1 (mergeSort_names l h)
  have hs' := pairwise_map.1 (mergeSort_names l' (((hp.map _).nodup_iff).1 h))
  refine List.Perm.eq_of_pairwise (fun a b _ _ hab hba => absurd hab hba.asymm) hs hs' ?_
  exact ((mergeSort_perm l _).trans hp).trans (mergeSort_perm l' _).symm

/-- One check for each name, by name: the run that started last; and the most telling of their statuses. -/
structure Combined (runs : List CIRun) (out : CIChecks) : Prop where
  names : (out.checks.map CIRun.name).Pairwise (· < ·)
  last : ∀ c ∈ out.checks, IsLast CIRun.name CIRun.startedAt runs c
  all : ∀ run ∈ runs, ∃ c ∈ out.checks, c.name = run.name
  among : ∃ c ∈ out.checks, c.status = out.status
  telling : ∀ c ∈ out.checks, c.status.index ≤ out.status.index

def Answers (runs : List CIRun) : Option CIChecks → Prop
  | none => runs = []
  | some out => Combined runs out

def OrderFree (runs : List CIRun) : Prop :=
  ∀ (o o' : MapOrder) (runs' : List CIRun), runs'.Perm runs →
    combineChecks o' runs' = combineChecks o runs ∧ Answers runs (combineChecks o' runs')

theorem holds_values (o : MapOrder) {runs runs' : List CIRun} (hp : runs'.Perm runs) :
    Holds CIRun.name CIRun.startedAt runs (o.values (latest CIRun.name CIRun.startedAt runs')) :=
  ((Holds.perm hp).1 (holds_latest runs')).perm_table (o.perm _)

def Ranked (runs : List CIRun) : Prop := ∃ run, IsLast CIRun.name CIRun.startedAt runs run ∧ run.status ∈ outweighs

theorem combined_iff (o : MapOrder) {runs runs' : List CIRun} (hp : runs'.Perm runs) (hu : Untied CIRun.name CIRun.startedAt runs)
    {out : CIChecks} (h : combineChecks o runs' = some out) : Combined runs out ↔ Ranked runs := by
  unfold combineChecks at h
  split_ifs at h
  have hholds := holds_values o hp
  have hmem : ∀ c, c ∈ o.values (latest CIRun.name CIRun.startedAt runs') ↔ IsLast CIRun.name CIRun.startedAt runs c :=
    fun c => hholds.mem_iff hu
  generalize o.values (latest CIRun.name CIRun.startedAt runs') = values at h hholds hmem
  dsimp only at h
  cases h
  have hall := (telling_run values .success).2.2
  have hamong : (∃ c ∈ values, c.status = values.foldl telling .success) ↔ Ranked runs := by
    rw [telling_among]
    exact exists_congr fun c => and_congr_left fun _ => hmem c
  constructor
  · rintro ⟨-, -, -, ⟨c, hc, he⟩, -⟩
    exact hamong.1 ⟨c, mem_mergeSort.1 hc, he⟩
  · intro hranked
    obtain ⟨c, hc, he⟩ := hamong.2 hranked
    exact ⟨mergeSort_names _ hholds.keys, fun c hc => hholds.last c (mem_mergeSort.1 hc),
      fun run hrun => let ⟨c, hc, hk⟩ := hholds.all run hrun; ⟨c, mem_mergeSort.2 hc, hk⟩,
      ⟨c, mem_mergeSort.2 hc, he⟩, fun c hc => hall c (mem_mergeSort.1 hc)⟩

theorem combineChecks_perm {runs runs' : List CIRun} (o o' : MapOrder) (hu : Untied CIRun.name CIRun.startedAt runs)
    (hp : runs'.Perm runs) : combineChecks o' runs' = combineChecks o runs := by
  unfold combineChecks
  by_cases hnil : runs = []
  · subst hnil
    rw [perm_nil.1 hp]
    rfl
  · have hnil' : runs' ≠ [] := fun he => hnil (nil_perm.1 (he ▸ hp))
    rw [if_neg hnil, if_neg hnil']
    have hholds := holds_values o (List.Perm.refl runs)
    have hholds' := holds_values o' hp
    have hvalues := LatestByKey.perm_of_untied hu hholds' hholds
    dsimp only
    rw [checks_perm hvalues hholds'.keys, hvalues.foldl_eq' fun a _ b _ s => telling_comm s a b]

theorem mem_checks_cons {run : CIRun} {rest : List CIRun} (h : IsLast CIRun.name CIRun.startedAt (run :: rest) run) :
    ∃ out, combineChecks .asFilled (run :: rest) = some out ∧ run ∈ out.checks :=
  ⟨_, if_neg (cons_ne_nil _ _), mem_mergeSort.2 (LatestByKey.mem_latest_cons h)⟩

/-- **The answer does not depend on the order of the runs, and is the most telling of the runs that started last,** exactly
when no two runs tie for the last of a name, and one of the last is of a ranked status. -/
theorem combineChecks_order_iff (runs : List CIRun) :
    OrderFree runs ↔ Untied CIRun.name CIRun.startedAt runs ∧ (runs = [] ∨ Ranked runs) := by
  constructor
  · intro h
    have hu : Untied CIRun.name CIRun.startedAt runs := by
      intro a b ha hb hk
      have hfirst : ∀ c, IsLast CIRun.name CIRun.startedAt runs c →
          ∃ out, combineChecks .asFilled runs = some out ∧ c ∈ out.checks := by
        intro c hc
        have hp : (c :: runs.erase c).Perm runs := (perm_cons_erase hc.1).symm
        obtain ⟨out, hout, hmem⟩ := mem_checks_cons ((LatestByKey.IsLast.perm hp).2 hc)
        exact ⟨out, by rw [← hout, (h .asFilled .asFilled _ hp).1], hmem⟩
      obtain ⟨out, hout, hmema⟩ := hfirst a ha
      obtain ⟨out', hout', hmemb⟩ := hfirst b hb
      rw [hout] at hout'
      cases hout'
      have hans := (h .asFilled .asFilled runs (List.Perm.refl _)).2
      rw [hout] at hans
      have hnodup : (out.checks.map CIRun.name).Nodup := hans.names.imp fun hlt => hlt.ne
      exact inj_on_of_nodup_map hnodup hmema hmemb hk
    refine ⟨hu, ?_⟩
    have hans := (h .asFilled .asFilled runs (List.Perm.refl _)).2
    cases hout : combineChecks .asFilled runs with
    | none =>
      rw [hout] at hans
      exact Or.inl hans
    | some =>
      rw [hout] at hans
      exact Or.inr ((combined_iff .asFilled (List.Perm.refl _) hu hout).1 hans)
  · rintro ⟨hu, hranked⟩ o o' runs' hp
    refine ⟨combineChecks_perm o o' hu hp, ?_⟩
    cases hout : combineChecks o' runs' with
    | none =>
      unfold combineChecks at hout
      split_ifs at hout with hnil
      exact nil_perm.1 (hnil ▸ hp)
    | some =>
      refine (combined_iff o' hp hu hout).2 (hranked.resolve_left fun hnil => ?_)
      rw [hnil, perm_nil] at hp
      rw [hp] at hout
      cases hout

def job (externalID : Text) (status : CIStatus) : CIRun :=
  ⟨0, "api".toList, externalID, "test".toList, status, [], "head0001".toList, [], 0, none⟩

/-- Whether the commit is green hangs on which of them comes first. -/
theorem tied_runs_answer : ¬ ∀ runs : List CIRun, OrderFree runs := by
  intro h
  have hswap := (h [job ['1'] .success, job ['2'] .failure] .asFilled .asFilled
    [job ['2'] .failure, job ['1'] .success] (List.Perm.swap _ _ _)).1
  have hstatus := congrArg (Option.map CIChecks.status) hswap
  revert hstatus
  decide +kernel

/-! ## The runs of many commits -/

theorem grouped_eq (runs : List CIRun) (sha : Text) : grouped runs sha = runs.filter fun run => run.sha = sha := by
  have hrun : ∀ (l : List CIRun) (g : Text → List CIRun),
      l.foldl (fun g run => Function.update g run.sha (g run.sha ++ [run])) g sha =
        g sha ++ l.filter fun run => run.sha = sha := by
    intro l
    induction l with
    | nil => simp
    | cons run l ih =>
      intro g
      rw [foldl_cons, ih]
      by_cases he : run.sha = sha
      · simp [he]
      · simp [he, Function.update_of_ne (Ne.symm he)]
  exact hrun runs _

theorem checksBySHA_perm {runs runs' : List CIRun} (o o' : MapOrder) (sha : Text)
    (hu : Untied CIRun.name CIRun.startedAt (runs.filter fun run => run.sha = sha)) (hp : runs'.Perm runs) :
    checksBySHA o' runs' sha = checksBySHA o runs sha := by
  unfold checksBySHA
  rw [grouped_eq, grouped_eq]
  exact combineChecks_perm o o' hu (hp.filter _)

end Git
end Armature
