import Armature.PlanLoad
import Mathlib.Algebra.BigOperators.Group.List.Lemmas
import Mathlib.Algebra.Order.BigOperators.Group.List
import Mathlib.Algebra.Order.Ring.Rat
import Mathlib.Data.Rat.BigOperators
import Mathlib.Tactic.Positivity
/-!
# PlanCounted — how often a leaf's points are counted

Where only leaves carry typed estimates, every other row's is the sum of those beneath it.  A sprint, and a team's row of
the load, then counts a leaf's points once, through the topmost row on the way down to the leaf that is its own.  It is
once for each sprint and each team: a leaf whose line of parents names two is counted in both.
-/
namespace Armature
namespace Plan

open List
open Wf (Uuid)
open Armature.Tree (pathsAll under leafWeight given Additive)

/-! ## Estimates -/

def points (r : Row) : Rat := r.estimate.getD 0

def typedPoints (p : List Row) : Rat := leafWeight (fun r => r.issue.estimate.getD 0) p

def LeavesOnly (nodes : List (Tree Issue)) : Prop :=
  ∀ t ∈ Tree.subtreesAll nodes, t.children ≠ [] → t.label.estimate = none

theorem sumOf_foldl : ∀ (rs : List Row) (total : Option Rat),
    (rs.foldl (fun total r =>
      match r.estimate with
      | none => total
      | some e => some (total.getD 0 + e)) total).getD 0 = total.getD 0 + (rs.map points).sum
  | [], total => by simp
  | r :: rs, total => by
    rw [foldl_cons, sumOf_foldl rs, map_cons, sum_cons]
    unfold points
    cases r.estimate with
    | none => simp
    | some => simp [add_assoc]

theorem points_sumOf (rs : List Row) : (sumOf rs).getD 0 = (rs.map points).sum := by
  have h : (sumOf rs).getD 0 = (none : Option Rat).getD 0 + (rs.map points).sum := sumOf_foldl rs none
  rw [h, Option.getD_none, zero_add]

theorem points_rollEstimate {r : Row} (h : r.estimate = none) (rs : List Row) :
    points (rollEstimate r rs) = (rs.map points).sum := by
  rw [← points_sumOf]
  unfold rollEstimate points
  rw [h]
  cases sumOf rs with
  | none => simp [h]
  | some => rfl

theorem rollRow_estimate (r : Row) (rs : List Row) : (rollRow r rs).estimate = r.estimate := by
  unfold rollRow
  split
  · rfl
  · split <;> rfl

theorem rollRow_issue (r : Row) (rs : List Row) : (rollRow r rs).issue = r.issue := by
  unfold rollRow
  split
  · rfl
  · split <;> rfl

variable {nodes : List (Tree Issue)}

theorem additive_fromTree (h : LeavesOnly nodes) : Additive points (fromTree nodes) := by
  unfold fromTree rollupEstimates rollup
  apply Tree.additive_rollUp
  intro s hs hne ls
  rw [Tree.subtreesAll_rollUpAll, mem_map] at hs
  obtain ⟨s, hs, rfl⟩ := hs
  rw [Tree.subtreesAll_mapAll, mem_map] at hs
  obtain ⟨t, ht, rfl⟩ := hs
  apply points_rollEstimate
  rw [Tree.label_rollUp, rollRow_estimate, Tree.label_map]
  refine h t ht fun hnil => hne ?_
  cases t with
  | node =>
    rw [Tree.children_node] at hnil
    subst hnil
    rfl

theorem leafWeight_fromTree {p : List Row} (hp : p ∈ pathsAll (fromTree nodes)) :
    leafWeight points p = typedPoints p := by
  unfold fromTree rollupEstimates at hp
  obtain ⟨r, hr, hlast⟩ := Tree.last_rollUpAll hp
  unfold rollup at hr
  obtain ⟨r', hr', ls, rfl⟩ := Tree.mem_rollUpAll hr
  rw [Tree.flattenAll_mapAll, mem_map] at hr'
  obtain ⟨i, -, rfl⟩ := hr'
  unfold typedPoints leafWeight
  rw [hlast]
  have hroll : ∀ r : Row, rollEstimate r [] = r := by
    intro r
    unfold rollEstimate
    cases r.estimate <;> rfl
  rw [Option.map_some, Option.map_some, hroll]
  unfold points
  rw [rollRow_estimate, rollRow_issue]
  rfl

/-! ## Sprints -/

def standsIn (s : Uuid) (p : List Row) : Bool := p.any fun r => r.issue.sprintID = some s

theorem count_committed (plan : SprintPlan) (r : Row) : (plan.count r).committed = plan.committed + points r := by
  unfold SprintPlan.count points
  cases r.estimate with
  | none => simp
  | some => rfl

theorem count_sprint (plan : SprintPlan) (r : Row) : (plan.count r).sprint = plan.sprint := by
  unfold SprintPlan.count
  cases r.estimate <;> rfl

theorem foldl_count : ∀ (rs : List Row) (plan : SprintPlan),
    (rs.foldl SprintPlan.count plan).committed = plan.committed + (rs.map points).sum ∧
      (rs.foldl SprintPlan.count plan).sprint = plan.sprint
  | [], plan => by simp
  | r :: rs, plan => by
    obtain ⟨hc, hs⟩ := foldl_count rs (plan.count r)
    rw [foldl_cons, hc, hs, count_committed, count_sprint, map_cons, sum_cons, add_assoc]
    exact ⟨rfl, rfl⟩

theorem given_sprint (s : Uuid) (p : List Row) :
    given (fun r => r.issue.sprintID) points (fun _ => 1) s p = if standsIn s p then leafWeight points p else 0 := by
  unfold given standsIn
  cases hf : p.find? (fun r => decide (r.issue.sprintID = some s)) with
  | none =>
    have : p.any (fun r => decide (r.issue.sprintID = some s)) = false := by
      rw [any_eq_false]
      exact List.find?_eq_none.1 hf
    rw [this]
    simp
  | some top =>
    have htop := List.find?_some hf
    have : p.any (fun r => decide (r.issue.sprintID = some s)) = true :=
      any_eq_true.2 ⟨top, mem_of_find?_eq_some hf, htop⟩
    rw [this]
    simp

theorem committed_eq (h : LeavesOnly nodes) (s : Sprint) :
    ((under s.id (topmostBySprint (fromTree nodes))).map points).sum =
      ((pathsAll (fromTree nodes)).map fun p => if standsIn s.id p then typedPoints p else 0).sum := by
  have hsum := Tree.sum_topmost (fun r : Row => r.issue.sprintID) points (fun _ => 1) (additive_fromTree h)
    (not_mem_nil (a := s.id))
  simp only [mul_one] at hsum
  unfold topmostBySprint
  rw [hsum]
  apply congrArg
  apply map_congr_left
  intro p hp
  rw [given_sprint, leafWeight_fromTree hp]

/-! ## Weeks -/

def loadAt (row : List LoadWeek) (i : Nat) : Rat := (row[i]?.map LoadWeek.load).getD 0

def share (weeks : List Int) (works : Int → Bool) (i : Nat) (r : Row) : Rat :=
  match r.start, r.due with
  | some start, some due =>
    let days := spreadDays works start due
    (days.countP (fun d => weekIndex weeks d = some i) : Rat) / days.length
  | _, _ => 0

def addedTo (f64 : Rat → Rat) (load : Rat) (parts : List Rat) : Rat := parts.foldl (fun load part => f64 (load + part)) load

def parts (f64 : Rat → Rat) (weeks : List Int) (works : Int → Bool) (i : Nat) (r : Row) : List Rat :=
  match r.start, r.due, r.estimate with
  | some start, some due, some e =>
    let days := spreadDays works start due
    List.replicate (days.countP fun d => weekIndex weeks d = some i) (f64 (e / days.length))
  | _, _, _ => []

theorem addedTo_exact : ∀ (ps : List Rat) (load : Rat), addedTo exact load ps = load + ps.sum
  | [], load => by rw [sum_nil, add_zero]; rfl
  | p :: ps, load => by
    have hrest := addedTo_exact ps (load + p)
    rw [sum_cons, ← add_assoc, ← hrest]
    rfl

theorem sum_parts (weeks : List Int) (works : Int → Bool) (i : Nat) (r : Row) :
    (parts exact weeks works i r).sum = points r * share weeks works i r := by
  unfold parts share points
  cases r.start with
  | none => simp
  | some =>
    cases r.due with
    | none => simp
    | some =>
      cases r.estimate with
      | none => simp
      | some =>
        dsimp only
        rw [sum_replicate, nsmul_eq_mul, Option.getD_some, exact, id]
        ring

variable (f64 : Rat → Rat)

theorem loadAt_add (perDay : Rat) (row : List LoadWeek) (j i : Nat) (hi : i < row.length) :
    loadAt (row.modify j (LoadWeek.add f64 perDay)) i = if j = i then f64 (loadAt row i + perDay) else loadAt row i := by
  unfold loadAt
  rw [List.getElem?_modify, List.getElem?_eq_getElem hi]
  by_cases h : j = i
  · simp [h, LoadWeek.add]
  · simp [h]

theorem loadAt_touch (r : Row) (row : List LoadWeek) (j i : Nat) : loadAt (row.modify j (LoadWeek.touch r)) i = loadAt row i := by
  unfold loadAt
  rw [List.getElem?_modify]
  cases row[i]? with
  | none => rfl
  | some =>
    by_cases h : j = i
    · simp [h, LoadWeek.touch]
    · simp [h]

variable (weeks : List Int)

theorem addDays_cons (perDay : Rat) (d : Int) (days : List Int) (row : List LoadWeek) :
    addDays f64 weeks perDay (d :: days) row = addDays f64 weeks perDay days
      ((weekIndex weeks d).elim row fun i => row.modify i (LoadWeek.add f64 perDay)) := by
  unfold addDays
  rw [foldl_cons]
  cases weekIndex weeks d <;> rfl

theorem addDays_length (perDay : Rat) : ∀ (days : List Int) (row : List LoadWeek),
    (addDays f64 weeks perDay days row).length = row.length
  | [], _ => rfl
  | d :: days, row => by
    rw [addDays_cons, addDays_length perDay days]
    cases weekIndex weeks d with
    | none => rfl
    | some => exact length_modify _ _ _

theorem addDays_load (perDay : Rat) : ∀ (days : List Int) (row : List LoadWeek) (i : Nat), i < row.length →
    loadAt (addDays f64 weeks perDay days row) i =
      addedTo f64 (loadAt row i) (List.replicate (days.countP fun d => weekIndex weeks d = some i) perDay)
  | [], row, i, _ => rfl
  | d :: days, row, i, hi => by
    rw [addDays_cons, countP_cons]
    cases hw : weekIndex weeks d with
    | none =>
      rw [Option.elim_none, addDays_load perDay days row i hi]
      simp
    | some j =>
      have hj : i < (row.modify j (LoadWeek.add f64 perDay)).length := by rw [length_modify]; exact hi
      rw [Option.elim_some, addDays_load perDay days _ i hj, loadAt_add f64 perDay row j i hi]
      by_cases hji : j = i
      · simp only [hji, if_true, decide_true, replicate_succ]
        rfl
      · simp [hji]

theorem touchWeeks_load (r : Row) (days : List Int) (row : List LoadWeek) (i : Nat) :
    (touchWeeks weeks r days row).length = row.length ∧ loadAt (touchWeeks weeks r days row) i = loadAt row i := by
  unfold touchWeeks
  generalize (days.filterMap (weekIndex weeks)).dedup = js
  induction js generalizing row with
  | nil => exact ⟨rfl, rfl⟩
  | cons j js ih =>
    rw [foldl_cons, (ih _).1, (ih _).2, length_modify, loadAt_touch]
    exact ⟨rfl, rfl⟩

variable (works : Int → Bool)

theorem spread_length (row : TeamLoad) (r : Row) :
    (row.spread f64 weeks works r).weeks.length = row.weeks.length := by
  unfold TeamLoad.spread
  split
  · rename_i start due _ _
    dsimp only
    rw [(touchWeeks_load _ _ _ _ 0).1]
    cases r.estimate with
    | none => rfl
    | some => exact addDays_length _ _ _ _ _
  · rfl

theorem foldl_length : ∀ (rs : List Row) (row : TeamLoad),
    (rs.foldl (TeamLoad.spread f64 weeks works) row).weeks.length = row.weeks.length
  | [], _ => rfl
  | r :: rs, row => by
    rw [foldl_cons, foldl_length rs, spread_length]

theorem spread_parts (row : TeamLoad) (r : Row) {i : Nat} (hi : i < row.weeks.length) :
    loadAt (row.spread f64 weeks works r).weeks i = addedTo f64 (loadAt row.weeks i) (parts f64 weeks works i r) := by
  unfold TeamLoad.spread parts
  cases r.start with
  | none => rfl
  | some =>
    cases r.due with
    | none => rfl
    | some =>
      dsimp only
      rw [(touchWeeks_load _ _ _ _ i).2]
      cases r.estimate with
      | none => rfl
      | some => exact addDays_load f64 weeks _ _ _ i hi

theorem spread_load (row : TeamLoad) (r : Row) {i : Nat} (hi : i < row.weeks.length) :
    loadAt (row.spread exact weeks works r).weeks i = loadAt row.weeks i + points r * share weeks works i r := by
  rw [spread_parts exact weeks works row r hi, addedTo_exact, sum_parts]

theorem foldl_spread : ∀ (rs : List Row) (row : TeamLoad) {i : Nat}, i < row.weeks.length →
    loadAt (rs.foldl (TeamLoad.spread f64 weeks works) row).weeks i =
      addedTo f64 (loadAt row.weeks i) (rs.flatMap (parts f64 weeks works i))
  | [], row, i, _ => rfl
  | r :: rs, row, i, hi => by
    rw [foldl_cons, foldl_spread rs _ (by rw [spread_length]; exact hi), spread_parts f64 weeks works row r hi,
      flatMap_cons]
    unfold addedTo
    rw [foldl_append]

/-! ## Rows of the load -/

def givenTo (weeks : List Int) (works : Int → Bool) (team : Option Uuid) (i : Nat) (p : List Row) : Rat :=
  match p.find? (fun r => r.issue.teamID = team) with
  | none => 0
  | some top => typedPoints p * share weeks works i top

theorem given_team (team : Option Uuid) (i : Nat) {p : List Row}
    (hp : leafWeight points p = typedPoints p) :
    given (fun r => some r.issue.teamID) points (share weeks works i) team p = givenTo weeks works team i p := by
  unfold given givenTo
  simp only [Option.some.injEq]
  cases p.find? (fun r => decide (r.issue.teamID = team)) with
  | none => rfl
  | some top => exact congrArg (· * _) hp

theorem loadAt_rowFor (items : List Item) (work : ReadDays) (team : Option Uuid) (name : Go.Text) (kind : LoadKind)
    (capacity : Option Rat) {i : Nat} (hi : i < weeks.length) :
    loadAt (rowFor f64 items weeks work team name kind capacity).weeks i =
      addedTo f64 0 ((under team (topmostByTeam items)).flatMap (parts f64 weeks (work.works team) i)) := by
  unfold rowFor
  dsimp only
  generalize hstart : List.map _ weeks = row
  have hlen : row.length = weeks.length := by rw [← hstart, length_map]
  have hzero : loadAt row i = 0 := by
    unfold loadAt
    rw [← hstart, List.getElem?_map, List.getElem?_eq_getElem hi]
    cases team with
    | none => rfl
    | some =>
      unfold weekOf
      cases capacity <;> rfl
  rw [foldl_spread f64 weeks (work.works team) (under team (topmostByTeam items)) ⟨team, name, kind, capacity, row, 0⟩
    (by rw [hlen]; exact hi), hzero]

theorem parts_topmost (h : LeavesOnly nodes) (team : Option Uuid) (i : Nat) :
    ((under team (topmostByTeam (fromTree nodes))).flatMap (parts exact weeks works i)).sum =
      ((pathsAll (fromTree nodes)).map (givenTo weeks works team i)).sum := by
  have hsum : ∀ rs : List Row, (rs.flatMap (parts exact weeks works i)).sum = (rs.map fun r => points r * share weeks works i r).sum := by
    intro rs
    induction rs with
    | nil => rfl
    | cons r rs ih => rw [flatMap_cons, sum_append, ih, sum_parts, map_cons, sum_cons]
  rw [hsum]
  unfold topmostByTeam
  rw [Tree.sum_topmost (fun r : Row => some r.issue.teamID) points (share weeks works i) (additive_fromTree h)
    (not_mem_nil (a := team))]
  apply congrArg
  apply map_congr_left
  intro p hp
  exact given_team weeks works team i (leafWeight_fromTree hp)

theorem spread_same : ∀ (rs : List Row) (row : TeamLoad),
    (rs.foldl (TeamLoad.spread f64 weeks works) row).teamID = row.teamID ∧ (rs.foldl (TeamLoad.spread f64 weeks works) row).kind = row.kind
  | [], _ => ⟨rfl, rfl⟩
  | r :: rs, row => by
    have hone : (row.spread f64 weeks works r).teamID = row.teamID ∧ (row.spread f64 weeks works r).kind = row.kind := by
      unfold TeamLoad.spread
      split <;> exact ⟨rfl, rfl⟩
    rw [foldl_cons, (spread_same rs _).1, (spread_same rs _).2, hone.1, hone.2]
    exact ⟨rfl, rfl⟩

theorem totalOf_kind (rows : List TeamLoad) : (totalOf f64 weeks rows).kind = .total := by
  unfold totalOf
  dsimp only
  generalize hz : (⟨none, "Total".toList, .total, none, weeks.map LoadWeek.empty, 0⟩ : TeamLoad) = total
  have hkind : total.kind = .total := by rw [← hz]
  clear hz
  induction rows generalizing total with
  | nil => exact hkind
  | cons row rows ih => exact ih (total.plus f64 row) hkind

theorem mem_loads {items : List Item} {teams : List Team} {start until_ : Int} {work : ReadDays} {row : TeamLoad}
    (h : row ∈ (loads f64 items teams start until_ work).rows) (hkind : row.kind ≠ .total) :
    ∃ name kind capacity, row = (rowFor f64 items (weeksOf start until_) work row.teamID name kind capacity).shown f64 := by
  unfold loads at h
  obtain ⟨r, hr, rfl⟩ := mem_map.1 h
  have hof : ∀ team name kind capacity, r = rowFor f64 items (weeksOf start until_) work team name kind capacity →
      ∃ name kind capacity, r.shown f64 = (rowFor f64 items (weeksOf start until_) work (r.shown f64).teamID name kind capacity).shown f64 := by
    rintro team name kind capacity rfl
    have hteam : ((rowFor f64 items (weeksOf start until_) work team name kind capacity).shown f64).teamID = team :=
      (spread_same f64 (weeksOf start until_) (work.works team) _ _).1
    exact ⟨name, kind, capacity, by rw [hteam]⟩
  rcases mem_append.1 hr with hr | hr
  · unfold teamRows at hr
    rcases mem_append.1 hr with hr | hr
    · obtain ⟨t, -, rfl⟩ := mem_map.1 hr
      exact hof _ _ _ _ rfl
    · rw [mem_singleton] at hr
      exact hof _ _ _ _ hr
  · rw [mem_singleton] at hr
    subst hr
    exact absurd (totalOf_kind _ _ _) hkind

/-! ## Shares -/

theorem share_nonneg (i : Nat) (r : Row) : 0 ≤ share weeks works i r := by
  unfold share
  split
  · dsimp only
    positivity
  · exact le_refl 0

theorem sum_single (o : Option Nat) : ∀ n : Nat, ((List.range n).map fun i => if o = some i then 1 else 0).sum =
    if ∃ i < n, o = some i then 1 else 0
  | 0 => by simp
  | n + 1 => by
    rw [range_succ, map_append, sum_append, sum_single o n, map_singleton, sum_singleton]
    by_cases hn : o = some n
    · have h1 : ¬ ∃ i < n, o = some i := by
        rintro ⟨i, hi, h⟩
        exact Nat.lt_irrefl n (Option.some.inj (hn.symm.trans h) ▸ hi)
      have h2 : ∃ i < n + 1, o = some i := ⟨n, by omega, hn⟩
      rw [if_neg h1, if_pos hn, if_pos h2]
    · have h : (∃ i < n + 1, o = some i) ↔ ∃ i < n, o = some i := by
        constructor
        · rintro ⟨i, hi, h⟩
          have : i ≠ n := fun hin => hn (hin ▸ h)
          exact ⟨i, by omega, h⟩
        · rintro ⟨i, hi, h⟩
          exact ⟨i, by omega, h⟩
      simp only [if_neg hn, h, Nat.add_zero]

theorem sum_countP {f : Int → Option Nat} (n : Nat) : ∀ days : List Int,
    ((List.range n).map fun i => days.countP (fun d => f d = some i)).sum ≤ days.length
  | [] => by simp
  | d :: days => by
    have hsplit : ((List.range n).map fun i => (d :: days).countP (fun d => f d = some i)) =
        (List.range n).map fun i => days.countP (fun d => f d = some i) + if f d = some i then 1 else 0 := by
      apply map_congr_left
      intro i _
      rw [countP_cons]
      simp
    have hrec := sum_countP (f := f) n days
    rw [hsplit, sum_map_add, sum_single, length_cons]
    split <;> omega

theorem sum_share (r : Row) :
    ((List.range weeks.length).map fun i => share weeks works i r).sum ≤ 1 := by
  unfold share
  cases r.start with
  | none => simp
  | some start =>
    cases r.due with
    | none => simp
    | some due =>
      dsimp only
      generalize spreadDays works start due = days
      have h : ((List.range weeks.length).map fun i =>
          ((days.countP fun d => weekIndex weeks d = some i : Nat) : Rat) / days.length).sum =
          (((List.range weeks.length).map fun i => days.countP fun d => weekIndex weeks d = some i).sum : Rat) / days.length := by
        rw [← Nat.coe_castRingHom, map_list_sum, map_map, div_eq_mul_inv, ← sum_map_mul_right]
        rfl
      rw [h]
      apply div_le_one_of_le₀
      · exact_mod_cast sum_countP weeks.length days
      · positivity

/-! ## What is counted once -/

theorem sum_committed {nodes : List (Tree Issue)} (h : LeavesOnly nodes) : ∀ sprints : List Sprint,
    ((sprintPlans (fromTree nodes) sprints).map SprintPlan.committed).sum =
      ((pathsAll (fromTree nodes)).map fun p => (sprints.countP fun s => standsIn s.id p) * typedPoints p).sum
  | [] => by simp [sprintPlans]
  | s :: sprints => by
    have hcons : (sprintPlans (fromTree nodes) (s :: sprints)).map SprintPlan.committed =
        ((under s.id (topmostBySprint (fromTree nodes))).foldl SprintPlan.count ⟨s, 0, 0, 0, 0, 0⟩).committed ::
          (sprintPlans (fromTree nodes) sprints).map SprintPlan.committed := rfl
    rw [hcons, sum_cons, sum_committed h sprints, (foldl_count _ _).1, zero_add, committed_eq h s, ← sum_map_add]
    apply congrArg
    apply map_congr_left
    intro p _
    rw [countP_cons]
    by_cases hs : standsIn s.id p = true
    · simp [hs]; ring
    · simp [hs]

def sized (id : Uuid) (sprint team : Option Uuid) (estimate : Option Rat) : Issue :=
  { id := id, key := [], category := .todo, parentID := none, assignee := none, sprintID := sprint, teamID := team,
    startDate := some 0, dueDate := some 0, estimate := estimate, timeEstimateMinutes := none, timeRemainingMinutes := none }

def handedDown : List (Tree Issue) :=
  [.node (sized 1 (some 10) (some 20) none) [.node (sized 2 (some 11) (some 21) (some 3)) []]]

theorem handedDown_leavesOnly : LeavesOnly handedDown := by
  intro t ht hne
  have : t = .node (sized 1 (some 10) (some 20) none) [.node (sized 2 (some 11) (some 21) (some 3)) []] ∨
      t = .node (sized 2 (some 11) (some 21) (some 3)) [] := by
    simpa [handedDown, Tree.subtreesAll, Tree.subtrees] using ht
  rcases this with rfl | rfl
  · rfl
  · exact absurd rfl hne

end Plan
end Armature
