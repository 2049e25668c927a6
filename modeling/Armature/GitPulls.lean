import Armature.GoText
import Armature.Transactions
import Mathlib.Tactic.Push
/-!
# GitPulls — which delivery merged a pull request (`git/pull_requests.go`, `git/receive.go`)

`recordPull` reads the state a pull request had, under a lock on its row where there is one, and then writes the row.  A
delivery whose state is merged, and that read another, is the one that merged it.  The deliveries here are of one pull
request; what they link and the branch they mark are left out.
-/
namespace Armature
namespace Git
namespace Pulls

open List
open Go (Text)

inductive PullState where
  | «open» | merged | closed
  deriving DecidableEq

structure PullRequest where
  number : Int
  title : Text
  url : Text
  state : PullState
  sourceBranch : Text
  targetBranch : Text
  authorName : Text
  headSha : Text
  openedAt : Int
  mergedAt : Option Int
  deriving DecidableEq

def upsert (row : Option PullRequest) (pr : PullRequest) : PullRequest :=
  match row with
  | none => pr
  | some r =>
    { r with
      title := pr.title
      url := pr.url
      state := pr.state
      sourceBranch := pr.sourceBranch
      targetBranch := pr.targetBranch
      headSha := if pr.headSha = [] then r.headSha else pr.headSha
      mergedAt := pr.mergedAt.or r.mergedAt }

/-- A delivery's transaction: what it records, and the state it read before it. -/
structure Delivery where
  pr : PullRequest
  wasState : Option PullState
  deriving DecidableEq

def mergedPull (d : Delivery) : Option PullRequest :=
  if d.pr.state ≠ .merged ∨ d.wasState = some .merged then none else some d.pr

structure Db where
  row : Option PullRequest
  returned : List PullRequest

def Delivery.holdsRow (d : Delivery) : Bool := d.wasState.isSome

def May (db : Db) (running : List Delivery) (d : Delivery) : Prop :=
  d.wasState = db.row.map PullRequest.state ∧ (db.row.isSome = true → ∀ t ∈ running, t.holdsRow = false)

def MayCommit (others : List Delivery) : Prop := ∀ t ∈ others, t.holdsRow = false

def record (d : Delivery) (db : Db) : Db := ⟨some (upsert db.row d.pr), (mergedPull d).toList ++ db.returned⟩

def unseen : Db := ⟨none, []⟩

abbrev Run : Transactions.Active Db Delivery → Prop := Transactions.RunWhere record May (fun _ others _ => MayCommit others) unseen

def Orderly (db : Db) (d : Delivery) : Prop :=
  ∀ r, db.row = some r → r.state = .merged → d.pr.state = .merged ∧ d.wasState ≠ none

abbrev OrderlyRun : Transactions.Active Db Delivery → Prop :=
  Transactions.RunWhere record May (fun db others d => MayCommit others ∧ Orderly db d) unseen

@[simp] theorem upsert_state (row : Option PullRequest) (pr : PullRequest) : (upsert row pr).state = pr.state := by
  cases row <;> rfl

/-- Whoever holds the row read the state that is still there, and nobody else holds it. -/
structure Locked (db : Db) (running : List Delivery) : Prop where
  read : ∀ t ∈ running, ∀ s, t.wasState = some s → db.row.map PullRequest.state = some s
  alone : running.Pairwise fun t t' => ¬ (t.holdsRow = true ∧ t'.holdsRow = true)

/-- A merge was returned once at most, and it was when the row is merged. -/
structure Once (db : Db) (running : List Delivery) : Prop extends Locked db running where
  once : db.returned.length ≤ 1
  merged : db.returned ≠ [] ↔ db.row.map PullRequest.state = some .merged

variable {db : Db} {d : Delivery} {l r : List Delivery}

theorem Locked.write {running : List Delivery} (h : Locked db running) (hm : May db running d) :
    Locked db (d :: running) := by
  obtain ⟨hwas, hfree⟩ := hm
  refine ⟨fun t ht s hs => ?_, pairwise_cons.2 ⟨fun t ht hboth => ?_, h.alone⟩⟩
  · rcases mem_cons.1 ht with rfl | ht
    · rw [← hwas]
      exact hs
    · exact h.read t ht s hs
  · have hrow : db.row.isSome = true := by
      have hd := hboth.1
      unfold Delivery.holdsRow at hd
      rw [hwas] at hd
      simpa using hd
    rw [hfree hrow t ht] at hboth
    exact absurd hboth.2 (by simp)

theorem Locked.rollback (h : Locked db (l ++ d :: r)) : Locked db (l ++ r) := by
  have hsub : (l ++ r).Sublist (l ++ d :: r) := (List.Sublist.refl l).append (sublist_cons_self d r)
  exact ⟨fun t ht => h.read t (hsub.subset ht), h.alone.sublist hsub⟩

theorem Locked.commit (h : Locked db (l ++ d :: r)) (hfree : MayCommit (l ++ r)) :
    Locked (record d db) (l ++ r) := by
  refine ⟨fun t ht s hs => ?_, h.rollback.alone⟩
  have hnot := hfree t ht
  unfold Delivery.holdsRow at hnot
  rw [hs] at hnot
  exact absurd hnot (by simp)

theorem mergedPull_none (h : mergedPull d = none) : d.pr.state ≠ .merged ∨ d.wasState = some .merged := by
  unfold mergedPull at h
  split at h
  · assumption
  · cases h

theorem mergedPull_some {pr : PullRequest} (h : mergedPull d = some pr) :
    d.pr.state = .merged ∧ d.wasState ≠ some .merged := by
  unfold mergedPull at h
  split at h
  · cases h
  · rename_i hc
    push Not at hc
    exact hc

theorem Once.commit (h : Once db (l ++ d :: r)) (hfree : MayCommit (l ++ r))
    (ho : Orderly db d) : Once (record d db) (l ++ r) := by
  have hread := h.read d (mem_append_right _ mem_cons_self)
  refine ⟨h.toLocked.commit hfree, ?_, ?_⟩
  · cases hm : mergedPull d with
    | none => simpa [record, hm] using h.once
    | some =>
      have hnil : db.returned = [] := by
        by_contra hne
        obtain ⟨row, hrow, hstate⟩ := Option.map_eq_some_iff.1 (h.merged.1 hne)
        obtain ⟨s, hs⟩ := Option.ne_none_iff_exists'.1 (ho row hrow hstate).2
        have hrs := hread s hs
        rw [hrow, Option.map_some, hstate] at hrs
        exact (mergedPull_some hm).2 (hs.trans hrs.symm)
      simp [record, hm, hnil]
  · cases hm : mergedPull d with
    | some => simp [record, hm, (mergedPull_some hm).1]
    | none =>
      simp only [record, hm, Option.toList_none, nil_append, Option.map_some, upsert_state, Option.some.injEq]
      constructor
      · intro hne
        obtain ⟨row, hrow, hmerged⟩ := Option.map_eq_some_iff.1 (h.merged.1 hne)
        exact (ho row hrow hmerged).1
      · intro hstate
        have hwas := (mergedPull_none hm).resolve_left fun hne => hne hstate
        exact h.merged.2 (hread _ hwas)

theorem orderly_once {s : Transactions.Active Db Delivery} (h : OrderlyRun s) : Once s.db s.running :=
  Transactions.RunWhere.holds (I := Once) (fun _ _ _ hi hm => ⟨hi.toLocked.write hm, hi.once, hi.merged⟩)
    (fun _ _ _ _ hi ho => hi.commit ho.1 ho.2) (fun _ _ _ _ hi => ⟨hi.toLocked.rollback, hi.once, hi.merged⟩)
    ⟨⟨nofun, List.Pairwise.nil⟩, Nat.zero_le _, by simp [unseen]⟩ h

abbrev GoesOn : Transactions.Active Db Delivery → Transactions.Active Db Delivery → Prop :=
  Relation.ReflTransGen (Transactions.Step record May fun _ others _ => MayCommit others)

theorem second_merge (h : Once db (l ++ d :: r)) (hfree : MayCommit (l ++ r))
    (ho : ¬ Orderly db d) : ∃ s, GoesOn ⟨db, l ++ d :: r⟩ s ∧ 2 ≤ s.db.returned.length := by
  have hcommit : GoesOn ⟨db, l ++ d :: r⟩ ⟨record d db, l ++ r⟩ := Relation.ReflTransGen.single (.commit hfree)
  unfold Orderly at ho
  push Not at ho
  obtain ⟨row, hrow, hmerged, hd⟩ := ho
  have hreturned : 1 ≤ db.returned.length := length_pos_iff.2 (h.merged.2 (by rw [hrow, Option.map_some, hmerged]))
  by_cases hstate : d.pr.state = .merged
  · refine ⟨_, hcommit, ?_⟩
    have hm : mergedPull d = some d.pr := by
      unfold mergedPull
      rw [hd hstate, if_neg (by simp [hstate])]
    simp only [record, hm, Option.toList_some, length_append, length_singleton]
    omega
  · -- the row is not merged now, and the merge comes once more
    have hwas : some d.pr.state ≠ some PullState.merged := fun heq => hstate (Option.some.inj heq)
    have hmay : May (record d db) (l ++ r) ⟨row, some d.pr.state⟩ := ⟨by simp [record], fun _ => hfree⟩
    refine ⟨_, (hcommit.tail (.write hmay)).tail (Transactions.Step.commit (l := []) hfree), ?_⟩
    have hm : mergedPull ⟨row, some d.pr.state⟩ = some row := by
      unfold mergedPull
      rw [if_neg (by simp [hmerged, hstate])]
    simp only [record, hm, Option.toList_some, length_append, length_singleton]
    omega

/-- **A merge is returned by one delivery at most, in every run whose commits are orderly; and a commit that is not lets a
second one be returned.** -/
theorem merge_returned_once (s : Transactions.Active Db Delivery) (db : Db) (l r : List Delivery) (d : Delivery) :
    (OrderlyRun s → s.db.returned.length ≤ 1) ∧
      (OrderlyRun ⟨db, l ++ d :: r⟩ → MayCommit (l ++ r) → ¬ Orderly db d →
        ∃ s, GoesOn ⟨db, l ++ d :: r⟩ s ∧ 2 ≤ s.db.returned.length) :=
  ⟨fun h => (orderly_once h).once, fun h hfree ho => second_merge (orderly_once h) hfree ho⟩

def pull (state : PullState) : PullRequest :=
  ⟨21, "CP-4 fix".toList, [], state, "CP-4-fix".toList, "main".toList, "ada".toList, [], 0, none⟩

def mergedAgain : Db :=
  record ⟨pull .merged, some .merged⟩ (record ⟨pull .merged, some .open⟩ (record ⟨pull .open, none⟩ unseen))

theorem mergedAgain_run : OrderlyRun ⟨mergedAgain, []⟩ := by
  have free : MayCommit [] := nofun
  have h₀ : OrderlyRun ⟨unseen, []⟩ := Transactions.RunWhere.start _
  have h₁ := (h₀.write (e := ⟨pull .open, none⟩) ⟨rfl, nofun⟩).commit []
    ⟨free, nofun⟩
  have h₂ := (h₁.write (e := ⟨pull .merged, some .open⟩) ⟨rfl, nofun⟩).commit []
    ⟨free, fun _ _ _ => ⟨rfl, by decide⟩⟩
  exact (h₂.write (e := ⟨pull .merged, some .merged⟩) ⟨rfl, nofun⟩).commit []
    ⟨free, fun _ _ _ => ⟨rfl, by decide⟩⟩

theorem merged_once : mergedAgain.returned = [pull .merged] ∧ mergedAgain.returned.length ≤ 1 :=
  ⟨rfl, (merge_returned_once ⟨mergedAgain, []⟩ unseen [] [] ⟨pull .open, none⟩).1 mergedAgain_run⟩

/-- A merge, an edit from before it that comes late, and the merge delivered again. -/
theorem merge_returned_twice : ¬ ∀ s, Run s → s.db.returned.length ≤ 1 := by
  intro h
  have h₀ : Run ⟨unseen, []⟩ := Transactions.RunWhere.start _
  have free : MayCommit [] := nofun
  have h₁ := (h₀.write (e := ⟨pull .merged, none⟩) ⟨rfl, nofun⟩).commit [] free
  have h₂ := (h₁.write (e := ⟨pull .open, some .merged⟩) ⟨rfl, nofun⟩).commit [] free
  have h₃ := (h₂.write (e := ⟨pull .merged, some .open⟩) ⟨rfl, nofun⟩).commit [] free
  exact absurd (h _ h₃) (by decide +kernel)

end Pulls
end Git
end Armature
