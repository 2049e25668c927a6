import Armature.PlanResources
/-!
# PlanOnce — when the resource view counts work once

The walk up from an issue ends at the first ancestor that is done, so an open ancestor above a done one does not speak for
the issue.  Where it would have, both are counted; elsewhere no issue is counted under an ancestor counted in its row, and
every open issue with hours is counted or stands under one that is.
-/
namespace Armature
namespace Plan

open List
open Go (Text Tables)
open Wf (Uuid)
open Armature.Tree (flattenAll linesAll)

/-- A forest hung by its parent links: each issue once, under the one its parent link names, and a root's names none there. -/
structure Linked (nodes : List (Tree Issue)) : Prop where
  ids : ((flattenAll nodes).map Issue.id).Nodup
  roots : ∀ i, ([], i) ∈ linesAll [] nodes → ∀ p, i.parentID = some p → p ∉ (flattenAll nodes).map Issue.id
  parents : ∀ a as i, (a :: as, i) ∈ linesAll [] nodes → i.parentID = some a.id

def isOpen (i : Issue) : Bool := !i.isDone

mutual
theorem openNode_eq : ∀ n : Tree Issue, openNode n = n.flatten.filter isOpen
  | .node i cs => by
    rw [openNode, Tree.flatten, filter_cons, openIssues_eq cs]
    unfold isOpen
    cases i.isDone <;> rfl
theorem openIssues_eq : ∀ nodes : List (Tree Issue), openIssues nodes = (flattenAll nodes).filter isOpen
  | [] => rfl
  | n :: ns => by rw [openIssues, flattenAll, filter_append, openNode_eq n, openIssues_eq ns]
end

/-! ## The walk up -/

def LinkTo (byID : Uuid → Option Issue) (link : Option Uuid) : List Issue → Prop
  | [] => ∀ p, link = some p → byID p = none
  | a :: _ => link = some a.id

theorem climb_iff {byID : Uuid → Option Issue} {speaks : Issue → Bool} : ∀ {n : Nat} {seen : List Uuid} {link : Option Uuid}
    {as : List Issue}, LinkTo byID link as → (∀ near a far, as = near ++ a :: far → LinkTo byID a.parentID far) →
      (∀ a ∈ as, byID a.id = if isOpen a then some a else none) → (as.map Issue.id).Nodup → (∀ a ∈ as, a.id ∉ seen) →
        (as.takeWhile isOpen).length < n →
          (climb byID speaks n seen link = true ↔ ∃ a ∈ as.takeWhile isOpen, speaks a = true)
  | 0, _, _, _, _, _, _, _, _, hn => absurd hn (Nat.not_lt_zero _)
  | n + 1, seen, link, [], hlink, _, _, _, _, _ => by
    cases link with
    | none => simp [climb]
    | some p =>
      rw [climb, hlink p rfl]
      simp
  | n + 1, seen, link, a :: as, hlink, habove, hby, hnodup, hseen, hn => by
    have hl : link = some a.id := hlink
    rw [hl, climb, if_neg (hseen a mem_cons_self), hby a mem_cons_self, takeWhile_cons] at *
    cases hopen : isOpen a with
    | false => simp
    | true =>
      simp only [if_true, mem_cons, exists_eq_or_imp]
      by_cases hs : speaks a = true
      · simp [hs]
      · rw [if_neg hs]
        rw [map_cons, nodup_cons] at hnodup
        have hrec : climb byID speaks n (a.id :: seen) a.parentID = true ↔ ∃ b ∈ as.takeWhile isOpen, speaks b = true :=
          climb_iff (habove [] a as rfl)
          (fun near b far h => habove (a :: near) b far (by rw [h, cons_append]))
          (fun b hb => hby b (mem_cons_of_mem _ hb)) hnodup.2
          (fun b hb h => by
            rcases mem_cons.1 h with h | h
            · exact hnodup.1 (h ▸ mem_map_of_mem hb)
            · exact hseen b (mem_cons_of_mem _ hb) h)
          (by rw [hopen, if_pos rfl, length_cons] at hn; omega)
        rw [hrec]
        simp [hs]

theorem find_id {issues : List Issue} (h : (issues.map Issue.id).Nodup) {a : Issue} (ha : a ∈ issues) :
    issues.find? (·.id = a.id) = some a := by
  cases hf : issues.find? (·.id = a.id) with
  | none => exact absurd (by simp) (List.find?_eq_none.1 hf a ha)
  | some b =>
    have hb := mem_of_find?_eq_some hf
    have hid : b.id = a.id := by simpa using List.find?_some hf
    rw [inj_on_of_nodup_map h hb ha hid]

/-! ## Covered and counted -/

section
variable (u : Tables) (input : ResourceInput) (nodes : List (Tree Issue))

def reading : ResourceInput := { input with issues := openIssues nodes }

def Counted (i : Issue) : Prop := i ∈ uncovered u (reading input nodes) ∧ (hoursOf i).isSome = true

def Spoken (i : Issue) (as : List Issue) : Prop :=
  ∃ a ∈ as, (hoursOf a).isSome = true ∧ rowOf u (reading input nodes) a = rowOf u (reading input nodes) i

def CountsOnce : Prop :=
  (∀ as i, (as, i) ∈ linesAll [] nodes → Counted u input nodes i → ∀ a ∈ as, isOpen a = true → Counted u input nodes a →
      rowOf u (reading input nodes) a ≠ rowOf u (reading input nodes) i) ∧
    ∀ as i, (as, i) ∈ linesAll [] nodes → isOpen i = true → (hoursOf i).isSome = true → Counted u input nodes i ∨
      ∃ a ∈ as, isOpen a = true ∧ Counted u input nodes a ∧
        rowOf u (reading input nodes) a = rowOf u (reading input nodes) i

def Unbroken : Prop :=
  ∀ as i, (as, i) ∈ linesAll [] nodes → isOpen i = true → (hoursOf i).isSome = true →
    Spoken u input nodes i (as.filter isOpen) → Spoken u input nodes i (as.takeWhile isOpen)

variable {u input nodes}

theorem inOrder_perm : (issuesInOrder (reading input nodes)).Perm ((flattenAll nodes).filter isOpen) := by
  rw [← openIssues_eq]
  exact mergeSort_perm _ _

theorem inOrder_ids (h : Linked nodes) : ((issuesInOrder (reading input nodes)).map Issue.id).Nodup := by
  rw [(inOrder_perm.map Issue.id).nodup_iff]
  exact h.ids.sublist (filter_sublist.map _)

theorem mem_inOrder {i : Issue} : i ∈ issuesInOrder (reading input nodes) ↔ i ∈ flattenAll nodes ∧ isOpen i = true := by
  rw [inOrder_perm.mem_iff, mem_filter]

theorem covered_iff (h : Linked nodes) {as : List Issue} {i : Issue} (hi : (as, i) ∈ linesAll [] nodes) :
    coveredByAncestor (issuesInOrder (reading input nodes)) (rowOf u (reading input nodes)) i = true ↔
      Spoken u input nodes i (as.takeWhile isOpen) := by
  have hinj : ∀ a ∈ flattenAll nodes, ∀ b ∈ flattenAll nodes, a.id = b.id → a = b := fun a ha b hb =>
    inj_on_of_nodup_map h.ids ha hb
  have hmem : ∀ near a far, as = near ++ a :: far → (far, a) ∈ linesAll [] nodes := by
    rintro near a far rfl
    exact Tree.line_above hi
  have hin : ∀ a ∈ as, a ∈ flattenAll nodes := by
    intro a ha
    obtain ⟨near, far, hsplit⟩ := append_of_mem ha
    exact Tree.mem_flattenAll_of_line (hmem near a far hsplit)
  have hnodup : (i :: as).Nodup := Tree.linesAll_nodup (by rw [append_nil]; exact h.ids.of_map _) hi
  have hids : (as.map Issue.id).Nodup :=
    (nodup_cons.1 hnodup).2.map_on fun a ha b hb => hinj a (hin a ha) b (hin b hb)
  have hrev : ((issuesInOrder (reading input nodes)).reverse.map Issue.id).Nodup := by
    rw [map_reverse, nodup_reverse]
    exact inOrder_ids h
  have hby : ∀ a ∈ flattenAll nodes, (issuesInOrder (reading input nodes)).reverse.find? (·.id = a.id) =
      if isOpen a then some a else none := by
    intro a ha
    by_cases hopen : isOpen a = true
    · rw [if_pos hopen]
      exact find_id hrev (mem_reverse.2 (mem_inOrder.2 ⟨ha, hopen⟩))
    · rw [if_neg hopen, List.find?_eq_none]
      intro b hb heq
      obtain ⟨hb, hbopen⟩ := mem_inOrder.1 (mem_reverse.1 hb)
      exact hopen (hinj b hb a ha (of_decide_eq_true heq) ▸ hbopen)
  have hlink : ∀ {far : List Issue} {a : Issue}, (far, a) ∈ linesAll [] nodes →
      LinkTo (fun id => (issuesInOrder (reading input nodes)).reverse.find? (·.id = id)) a.parentID far := by
    intro far a ha
    cases far with
    | cons b far => exact h.parents b far a ha
    | nil =>
      intro p hp
      rw [List.find?_eq_none]
      intro b hb heq
      exact h.roots a ha p hp (mem_map.2 ⟨b, (mem_inOrder.1 (mem_reverse.1 hb)).1, of_decide_eq_true heq⟩)
  have hfuel : (as.takeWhile isOpen).length ≤ (issuesInOrder (reading input nodes)).length := by
    have hsub : ∀ a ∈ as.takeWhile isOpen, a ∈ issuesInOrder (reading input nodes) := fun a ha =>
      mem_inOrder.2 ⟨hin a ((takeWhile_sublist _).subset ha), mem_takeWhile_imp ha⟩
    exact (subperm_of_subset ((nodup_cons.1 hnodup).2.sublist (takeWhile_sublist _)) hsub).length_le
  unfold coveredByAncestor Spoken
  dsimp only
  rw [climb_iff (hlink hi) (fun near a far hsplit => hlink (hmem near a far hsplit)) (fun a ha => hby a (hin a ha)) hids
    (fun a ha hid => ?_) (Nat.lt_succ_of_le hfuel)]
  · simp only [Bool.and_eq_true, beq_iff_eq]
  · rw [mem_singleton] at hid
    have hai : a = i := hinj a (hin a ha) i (Tree.mem_flattenAll_of_line hi) hid
    exact (nodup_cons.1 hnodup).1 (hai ▸ ha)

theorem mem_uncovered (h : Linked nodes) {as : List Issue} {i : Issue} (hi : (as, i) ∈ linesAll [] nodes) :
    i ∈ uncovered u (reading input nodes) ↔ isOpen i = true ∧ ¬ Spoken u input nodes i (as.takeWhile isOpen) := by
  unfold uncovered
  rw [mem_filter, mem_inOrder, ← covered_iff h hi]
  constructor
  · rintro ⟨⟨hin, hopen⟩, hnot⟩
    refine ⟨hopen, fun hcov => ?_⟩
    have hany : (issuesInOrder (reading input nodes)).any (fun j => decide (j.id = i.id) &&
        coveredByAncestor (issuesInOrder (reading input nodes)) (rowOf u (reading input nodes)) j) = true :=
      any_eq_true.2 ⟨i, mem_inOrder.2 ⟨hin, hopen⟩, by simp [hcov]⟩
    rw [hany] at hnot
    exact absurd hnot (by decide)
  · rintro ⟨hopen, hcov⟩
    refine ⟨⟨Tree.mem_flattenAll_of_line hi, hopen⟩, ?_⟩
    rw [Bool.not_eq_true', any_eq_false]
    intro j hj hboth
    rw [Bool.and_eq_true] at hboth
    have hji : j = i := inj_on_of_nodup_map h.ids (mem_inOrder.1 hj).1 (Tree.mem_flattenAll_of_line hi)
      (of_decide_eq_true hboth.1)
    exact hcov (hji ▸ hboth.2)

theorem counted_iff (h : Linked nodes) {as : List Issue} {i : Issue} (hi : (as, i) ∈ linesAll [] nodes) :
    Counted u input nodes i ↔ isOpen i = true ∧ (hoursOf i).isSome = true ∧ ¬ Spoken u input nodes i (as.takeWhile isOpen) := by
  unfold Counted
  rw [mem_uncovered h hi]
  exact ⟨fun ⟨⟨a, b⟩, c⟩ => ⟨a, c, b⟩, fun ⟨a, c, b⟩ => ⟨⟨a, b⟩, c⟩⟩

theorem counted_or_under (h : Linked nodes) : ∀ (as : List Issue) (i : Issue), (as, i) ∈ linesAll [] nodes → isOpen i = true →
    (hoursOf i).isSome = true → Counted u input nodes i ∨ ∃ a ∈ as, isOpen a = true ∧ Counted u input nodes a ∧
      rowOf u (reading input nodes) a = rowOf u (reading input nodes) i
  | as, i, hi, hopen, hsized => by
    by_cases hs : Spoken u input nodes i (as.takeWhile isOpen)
    · right
      obtain ⟨a, ha, hasized, hrow⟩ := hs
      have haopen : isOpen a = true := mem_takeWhile_imp ha
      have hain := (takeWhile_sublist _).subset ha
      obtain ⟨near, far, hsplit⟩ := append_of_mem hain
      have hline : (far, a) ∈ linesAll [] nodes := by
        rw [hsplit] at hi
        exact Tree.line_above hi
      have hshort : far.length < as.length := by
        rw [hsplit, length_append, length_cons]
        omega
      rcases counted_or_under h far a hline haopen hasized with hc | ⟨b, hb, hbopen, hc, hbrow⟩
      · exact ⟨a, hain, haopen, hc, hrow⟩
      · refine ⟨b, ?_, hbopen, hc, hbrow.trans hrow⟩
        rw [hsplit]
        exact mem_append_right _ (mem_cons_of_mem _ hb)
    · exact .inl ((counted_iff h hi).2 ⟨hopen, hsized, hs⟩)
  termination_by as => as.length

/-- **Work is counted once exactly where no done issue stands between an open one with hours and all the open ancestors that
state hours in its row.** -/
theorem countsOnce_iff (h : Linked nodes) : CountsOnce u input nodes ↔ Unbroken u input nodes := by
  constructor
  · rintro ⟨honce, -⟩ as i hi hopen hsized ⟨a, ha, hasized, hrow⟩
    by_contra hnot
    obtain ⟨hain, haopen⟩ := mem_filter.1 ha
    have hi_counted : Counted u input nodes i := (counted_iff h hi).2 ⟨hopen, hsized, hnot⟩
    obtain ⟨near, far, hsplit⟩ := append_of_mem hain
    have hline : (far, a) ∈ linesAll [] nodes := by
      rw [hsplit] at hi
      exact Tree.line_above hi
    rcases counted_or_under h far a hline haopen hasized with hc | ⟨b, hb, hbopen, hc, hbrow⟩
    · exact honce as i hi hi_counted a hain haopen hc hrow
    · refine honce as i hi hi_counted b ?_ hbopen hc (hbrow.trans hrow)
      rw [hsplit]
      exact mem_append_right _ (mem_cons_of_mem _ hb)
  · intro hunbroken
    refine ⟨fun as i hi hc a ha haopen hac hrow => ?_, counted_or_under h⟩
    obtain ⟨hopen, hsized, hnot⟩ := (counted_iff h hi).1 hc
    exact hnot (hunbroken as i hi hopen hsized ⟨a, mem_filter.2 ⟨ha, haopen⟩, hac.2, hrow⟩)

/-! ## What a row lists -/

def Lists (rows : List ResourceRow) (r w : Nat) (e : WeekIssue) : Prop :=
  ∃ row week, rows[r]? = some row ∧ row.weeks[w]? = some week ∧ e ∈ week.issues

theorem lists_modify {rows : List ResourceRow} {k r w : Nat} {e : WeekIssue} {f : ResourceRow → ResourceRow}
    (h : Lists (rows.modify k f) r w e) : Lists rows r w e ∨ r = k ∧ ∃ row week, rows[r]? = some row ∧
      (f row).weeks[w]? = some week ∧ e ∈ week.issues := by
  obtain ⟨row, week, hrow, hweek, he⟩ := h
  rw [List.getElem?_modify] at hrow
  obtain ⟨row', hrow', rfl⟩ := Option.map_eq_some_iff.1 hrow
  by_cases hk : k = r
  · subst hk
    rw [if_pos rfl] at hweek
    exact .inr ⟨rfl, row', week, hrow', hweek, he⟩
  · rw [if_neg hk] at hweek
    exact .inl ⟨row', week, hrow', hweek, he⟩

theorem fill_weeks {key : Text} : ∀ (parts : List (Nat × Rat)) (row : List ResourceWeek) {w : Nat} {week : ResourceWeek}
    {e : WeekIssue}, (parts.foldl (fun row p => row.modify p.1 fun week =>
        { week with loadHours := week.loadHours + p.2, issues := week.issues ++ [⟨key, roundHundredths exact p.2⟩] }) row)[w]? =
          some week → e ∈ week.issues → (∃ week, row[w]? = some week ∧ e ∈ week.issues) ∨ e.key = key
  | [], row, w, week, e, hw, he => .inl ⟨week, hw, he⟩
  | p :: parts, row, w, week, e, hw, he => by
    rw [foldl_cons] at hw
    rcases fill_weeks parts _ hw he with ⟨week', hw', he'⟩ | hkey
    · rw [List.getElem?_modify] at hw'
      obtain ⟨week'', hw'', rfl⟩ := Option.map_eq_some_iff.1 hw'
      by_cases hp : p.1 = w
      · rw [if_pos hp] at he'
        rcases mem_append.1 he' with he' | he'
        · exact .inl ⟨week'', hw'', he'⟩
        · exact .inr (congrArg WeekIssue.key (mem_singleton.1 he'))
      · rw [if_neg hp] at he'
        exact .inl ⟨week'', hw'', he'⟩
    · exact .inr hkey

theorem lists_read {parents : List Uuid} {r w : Nat} {e : WeekIssue} : ∀ (issues : List Issue) (out : ResourcePlan),
    Lists (issues.foldl (ResourcePlan.read u input parents) out).rows r w e → Lists out.rows r w e ∨
      ∃ i ∈ issues, (hoursOf i).isSome = true ∧ rowOf u input i = r ∧ e.key = i.key
  | [], _, h => .inl h
  | i :: issues, out, h => by
    rcases lists_read issues _ h with h | ⟨j, hj, hrest⟩
    · unfold ResourcePlan.read at h
      cases hh : hoursOf i with
      | none =>
        left
        rw [hh] at h
        split at h <;> first | exact h | (split at h <;> exact h) | contradiction
      | some =>
        rw [hh] at h
        cases hs : i.startDate with
        | none => rw [hs] at h; exact .inl h
        | some =>
          cases hd : i.dueDate with
          | none => rw [hs, hd] at h; exact .inl h
          | some =>
            rw [hs, hd] at h
            dsimp only at h
            split at h
            · rcases lists_modify h with h | ⟨hr, row, week, hrow, hweek, he⟩
              · exact .inl h
              · rcases fill_weeks _ _ hweek he with ⟨week', hw', he'⟩ | hkey
                · exact .inl ⟨row, week', hrow, hw', he'⟩
                · exact .inr ⟨i, mem_cons_self, by rw [hh]; rfl, hr.symm, hkey⟩
            · exact .inl h
    · exact .inr ⟨j, mem_cons_of_mem _ hj, hrest⟩

theorem resourceRow_empty (weeks : List Int) (id : Option Uuid) (kind : RowKind) (name : Text) (people : List Uuid)
    (works : Int → Bool) : ∀ week ∈ (resourceRow input weeks id kind name people works).weeks, week.issues = [] := by
  intro week hweek
  unfold resourceRow at hweek
  obtain ⟨start, -, rfl⟩ := mem_map.1 hweek
  cases id <;> rfl

theorem resourceRows_empty {weeks : List Int} {row : ResourceRow} (h : row ∈ resourceRows u input weeks) :
    ∀ week ∈ row.weeks, week.issues = [] := by
  unfold resourceRows at h
  rcases mem_append.1 h with h | h
  · split at h
    · obtain ⟨p, -, rfl⟩ := mem_map.1 h
      exact resourceRow_empty weeks (some p.1) .person p.2 [p.1] (input.work.personWorks p.1)
    · obtain ⟨t, -, rfl⟩ := mem_map.1 h
      exact resourceRow_empty weeks _ _ _ _ _
  · rw [mem_singleton] at h
    rw [h]
    exact resourceRow_empty weeks _ _ _ _ _

/-- **What a week of a row lists was counted, in that row.** -/
theorem listed_counted {r w : Nat} {e : WeekIssue} (h : Lists (readResources u (reading input nodes)).rows r w e) :
    ∃ i, Counted u input nodes i ∧ rowOf u (reading input nodes) i = r ∧ e.key = i.key := by
  obtain ⟨row, week, hrow, hweek, he⟩ := h
  unfold readResources at hrow
  dsimp only at hrow
  rw [List.getElem?_map] at hrow
  obtain ⟨row', hrow', rfl⟩ := Option.map_eq_some_iff.1 hrow
  rw [List.getElem?_map] at hweek
  obtain ⟨week', hweek', rfl⟩ := Option.map_eq_some_iff.1 hweek
  rcases lists_read _ _ ⟨row', week', hrow', hweek', he⟩ with ⟨row, week, hrow, hweek, he⟩ | ⟨i, hi, hs, hr, hk⟩
  · have := resourceRows_empty (mem_of_getElem? hrow) week (mem_of_getElem? hweek)
    rw [this] at he
    cases he
  · exact ⟨i, ⟨hi, hs⟩, hr, hk⟩

end

/-! ## A done story between -/

def staffed (id : Uuid) (key : String) (category : Wf.StatusCategory) (parent : Option Uuid) (minutes : Option Int) : Issue :=
  { id := id, key := key.toList, category := category, parentID := parent, assignee := none, sprintID := none, teamID := some 20,
    startDate := some 0, dueDate := some 0, estimate := none, timeEstimateMinutes := none, timeRemainingMinutes := minutes }

def oneWeek : ResourceInput :=
  { grouping := .team, start := 0, until_ := 0, issues := [], teams := [⟨20, "Alpha".toList, none⟩], people := [],
    work := ⟨Workdays.zero, fun _ _ => none⟩, shares := [] }

def epic16 : Issue := staffed 1 "P-1" .todo none (some 960)
def story : Wf.StatusCategory → Issue := fun category => staffed 2 "P-2" category (some 1) none
def subtask8 : Issue := staffed 3 "P-3" .todo (some 2) (some 480)

def overDone : List (Tree Issue) := [.node epic16 [.node (story .done) [.node subtask8 []]]]
def overOpen : List (Tree Issue) := [.node epic16 [.node (story .todo) [.node subtask8 []]]]

theorem linked_chain (category : Wf.StatusCategory) : Linked [.node epic16 [.node (story category) [.node subtask8 []]]] where
  ids := by cases category <;> decide
  roots i hi p hp := by
    simp only [linesAll, Tree.lines, append_nil, mem_cons, not_mem_nil, or_false, Prod.mk.injEq, reduceCtorEq,
      false_and, true_and] at hi
    subst hi
    cases hp
  parents a as i hi := by
    simp only [linesAll, Tree.lines, append_nil, mem_cons, not_mem_nil, or_false, Prod.mk.injEq, reduceCtorEq,
      false_and, false_or, List.cons.injEq] at hi
    rcases hi with ⟨⟨rfl, -⟩, rfl⟩ | ⟨⟨rfl, -⟩, rfl⟩
    · rfl
    · rfl

theorem overDone_linked : Linked overDone := linked_chain .done

theorem overDone_inOrder : issuesInOrder (reading oneWeek overDone) = [epic16, subtask8] := by
  have h : openIssues overDone = [epic16, subtask8] := by decide
  unfold issuesInOrder reading
  dsimp only
  rw [h]
  exact mergeSort_of_pairwise (by decide)

theorem epic16_listed : ∃ i, Counted Tables.ascii oneWeek overDone i ∧ rowOf Tables.ascii (reading oneWeek overDone) i = 0 ∧
    epic16.key = i.key := by
  have hkeys : (readResources Tables.ascii (reading oneWeek overDone)).rows.map
      (fun row => row.weeks.map fun week => week.issues.map WeekIssue.key) = [[[epic16.key, subtask8.key]], [[]]] := by
    unfold readResources uncovered
    rw [overDone_inOrder]
    decide +kernel
  obtain ⟨row, hrow, hweeks⟩ := Option.map_eq_some_iff.1 (List.getElem?_map.symm.trans (congrArg (·[0]?) hkeys))
  obtain ⟨week, hweek, hlist⟩ := Option.map_eq_some_iff.1 (List.getElem?_map.symm.trans (congrArg (·[0]?) hweeks))
  obtain ⟨e, he, hkey⟩ := mem_map.1 (hlist ▸ mem_cons_self : epic16.key ∈ week.issues.map WeekIssue.key)
  rw [← hkey]
  exact listed_counted ⟨row, week, hrow, hweek, he⟩

/-- Eight hours of a subtask and the sixteen of the epic they are in are both counted, the story between them being done. -/
theorem overDone_counted_twice : Linked overDone ∧ ¬ CountsOnce Tables.ascii oneWeek overDone ∧
    (readResources Tables.ascii (reading oneWeek overDone)).rows.map (fun row => row.weeks.map ResourceWeek.loadHours) =
      [[24], [0]] := by
  refine ⟨overDone_linked, fun h => ?_, ?_⟩
  · have hline : ([story .done, epic16], subtask8) ∈ linesAll [] overDone := by decide
    have hepic : Counted Tables.ascii oneWeek overDone epic16 := by
      have hroot : ([], epic16) ∈ linesAll [] overDone := by decide
      rw [counted_iff overDone_linked hroot]
      exact ⟨by decide, by decide, fun ⟨a, ha, _⟩ => not_mem_nil ha⟩
    have hsub : Counted Tables.ascii oneWeek overDone subtask8 := by
      rw [counted_iff overDone_linked hline]
      exact ⟨by decide, by decide, fun ⟨a, ha, _⟩ => not_mem_nil ha⟩
    exact h.1 _ _ hline hsub epic16 (by decide) (by decide) hepic rfl
  · unfold readResources uncovered
    rw [overDone_inOrder]
    decide +kernel

theorem overOpen_unbroken : Unbroken Tables.ascii oneWeek overOpen := by
  intro as i hi hopen hsized hspoken
  have hall : ∀ a ∈ as, isOpen a = true := by
    intro a ha
    simp only [overOpen, linesAll, Tree.lines, append_nil, mem_cons, not_mem_nil, or_false, Prod.mk.injEq] at hi
    rcases hi with ⟨rfl, rfl⟩ | ⟨rfl, rfl⟩ | ⟨rfl, rfl⟩
    · cases ha
    · rw [mem_singleton] at ha
      subst ha
      rfl
    · rcases mem_pair.1 ha with rfl | rfl <;> rfl
  rw [filter_eq_self.2 hall] at hspoken
  rw [takeWhile_eq_self_iff.2 hall]
  exact hspoken

theorem overOpen_countsOnce : CountsOnce Tables.ascii oneWeek overOpen := by
  have h : Linked overOpen := linked_chain .todo
  exact (countsOnce_iff h).2 overOpen_unbroken

end Plan
end Armature
