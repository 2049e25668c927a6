import Armature.PlanStable
/-!
# PlanAgain — running the auto plan on the plan it leaves (`plan/align.go`, `plan/constraints.go`)

Within a line of parents a link is kept as it is, so an issue can wait on a parent whose due date is rolled up from that
very issue: every push moves the parent's due date on as well, and the next run pushes again.
-/
namespace Armature
namespace Plan

open List
open Go (Text day)

variable {items : List Item} {in_ : AlignInput} {nodes : List (Tree Issue)}

/-! ## Due dates that count -/

def CountsDue (items : List Item) (above below : Text) : Prop :=
  ∃ item ∈ Tree.subtreesAll items, keyOf item = above ∧ item.label.issue.dueDate = none ∧
    Tree.Under (fun r => r.issue.dueDate = none) (fun r => r.issue.key = below) item

def Ordered (items : List Item) (key : Text) : Prop :=
  ∀ r ∈ Tree.flattenAll items, r.issue.key = key → ∀ start due, r.start = some start → r.due = some due → start ≤ due

theorem later_ge {due t : Option Int} {d : Int} (h : (∃ e, due = some e ∧ d ≤ e) ∨ ∃ e, t = some e ∧ d ≤ e) :
    ∃ e, later due t = some e ∧ d ≤ e := by
  rcases due with _ | due <;> rcases t with _ | t
  · obtain ⟨e, he, _⟩ | ⟨e, he, _⟩ := h <;> cases he
  · exact h.resolve_left fun ⟨_, he, _⟩ => nomatch he
  · exact h.resolve_right fun ⟨_, he, _⟩ => nomatch he
  · have hle : d ≤ due ∨ d ≤ t := by
      rcases h with ⟨e, he, hle⟩ | ⟨e, he, hle⟩
      · exact .inl (Option.some.inj he ▸ hle)
      · exact .inr (Option.some.inj he ▸ hle)
    simp only [later]
    split
    · exact ⟨t, rfl, by omega⟩
    · exact ⟨due, rfl, by omega⟩

theorem spanOf_due {d : Int} : ∀ {rows : List Row} {due : Option Int},
    ((∃ e, due = some e ∧ d ≤ e) ∨ ∃ r ∈ rows, ∃ e, r.due = some e ∧ d ≤ e) →
      ∃ e, rows.foldl (fun due r => later due r.due) due = some e ∧ d ≤ e
  | [], _, h => h.resolve_right fun ⟨_, hr, _⟩ => not_mem_nil hr
  | row :: rows, due, h => by
    rw [foldl_cons]
    apply spanOf_due
    rcases h with h | ⟨r, hr, h⟩
    · exact .inl (later_ge (.inl h))
    · rcases mem_cons.1 hr with rfl | hr
      · exact .inl (later_ge (.inr h))
      · exact .inr ⟨r, hr, h⟩

theorem rollRow_counts {r c : Row} {children : List Row} {d : Int} (hr : r.due = none) (hc : c ∈ children)
    (hstart : c.start.isSome = true) (hdue : ∃ e, c.due = some e ∧ d ≤ e) :
    (rollRow r children).start.isSome = true ∧ (rollRow r children).derived = true ∧
      ∃ e, (rollRow r children).due = some e ∧ d ≤ e := by
  have hs : (spanOf children).1.isSome = true := by
    rw [(spanOf_isSome children).1]
    exact any_eq_true.2 ⟨c, hc, hstart⟩
  obtain ⟨e, he, hle⟩ : ∃ e, (spanOf children).2 = some e ∧ d ≤ e := spanOf_due (.inr ⟨c, hc, hdue⟩)
  obtain ⟨s, hs⟩ := Option.isSome_iff_exists.1 hs
  have hspan : spanOf children = (some s, some e) := Prod.ext hs he
  unfold rollRow
  rw [if_neg (by unfold Row.scheduled; rw [hr, Option.isSome_none, Bool.and_false]; exact Bool.false_ne_true), hspan]
  dsimp only
  refine ⟨?_, rfl, e, by rw [hr]; rfl, hle⟩
  cases r.start <;> rfl

theorem label_scheduled {x : Item} (h : x.label.scheduled = true) : (x.rollUp rollRow).label = x.label := by
  rw [Tree.label_rollUp]
  unfold rollRow
  rw [if_pos h]

theorem rollUp_counts {d : Int} {x : Item}
    (h : Tree.Under (fun r : Row => r.due = none) (fun r => r.start.isSome = true ∧ r.due = some d) x) (hx : x.label.due = none) :
    (x.rollUp rollRow).label.start.isSome = true ∧ (x.rollUp rollRow).label.derived = true ∧
      ∃ e, (x.rollUp rollRow).label.due = some e ∧ d ≤ e := by
  induction h with
  | @child a c cs hc hgoal =>
    have hsame : (c.rollUp rollRow).label = c.label := label_scheduled (by unfold Row.scheduled; rw [hgoal.1, hgoal.2]; rfl)
    have hmem : c.label ∈ (cs.map (Tree.rollUp rollRow)).map Tree.label :=
      hsame ▸ mem_map_of_mem (mem_map_of_mem hc)
    rw [Tree.label_rollUp, Tree.rollUpAll_eq]
    exact rollRow_counts hx hmem hgoal.1 ⟨d, hgoal.2, Int.le_refl d⟩
  | @deeper a c cs hc hpass _ ih =>
    obtain ⟨hstart, _, hdue⟩ := ih hpass
    rw [Tree.label_rollUp, Tree.rollUpAll_eq]
    exact rollRow_counts hx (mem_map_of_mem (mem_map_of_mem hc)) hstart hdue

/-! ## Pushes that push again -/

theorem advance_ge (w : Workdays) (team : Option Wf.Uuid) : ∀ (n : Nat) (due : Int), due ≤ w.advance team n due
  | 0, due => Int.le_refl due
  | n + 1, due => by
    have hnext := nextWorkday_ge w team (due + day)
    have hrest := advance_ge w team n (w.nextWorkday team (due + day))
    have hday := Go.day_pos
    rw [Workdays.advance]
    omega

theorem place_ordered (w : Workdays) (team : Option Wf.Uuid) (from_ : Int) (length : Nat) {was : Span}
    (h : was.start ≤ was.due) : (w.place team from_ length was).start ≤ (w.place team from_ length was).due := by
  unfold Workdays.place
  dsimp only
  split
  · unfold durationSub
    dsimp only
    omega
  · exact advance_ge w team (length - 1) _

theorem turn_ordered {key : Text} {n : AlignNode} (hn : (nodesOf items in_).lookup key = some n) (hdays : n.days = 0)
    {own : Span} {spans : Text → Span} {m : Move} (hm : m ∈ (turn items in_ key own spans).2) (h : own.start ≤ own.due) :
    m.to_.start ≤ m.to_.due := by
  unfold turn alignKey at hm
  rw [hn] at hm
  dsimp only at hm
  rw [if_neg (by omega)] at hm
  split at hm
  · rw [mem_singleton.1 hm]
    exact place_ordered _ _ _ _ h
  · cases hm

theorem own_due {r : Row} (hr : r ∈ Tree.flattenAll (fromTree nodes)) (hd : r.derived = false) : r.due = r.issue.dueDate := by
  obtain ⟨i, cs, hcore⟩ := mem_fromTree hr
  rcases rollRow_cases (itemOf i) cs with hsame | ⟨hderived, _⟩
  · rw [hsame] at hcore
    have hdue : r.due = i.dueDate := congrArg (fun c => c.2.2.1) hcore
    have hissue : r.issue = i := congrArg Prod.fst hcore
    rw [hdue, hissue]
  · have hflag : r.derived = (rollRow (itemOf i) cs).derived := congrArg (fun c => c.2.2.2) hcore
    rw [hd, hderived] at hflag
    cases hflag

theorem mem_again_label (in_ : AlignInput) {item : Item} (h : item ∈ Tree.subtreesAll (fromTree nodes)) :
    ((item.map (moveRow (align (fromTree nodes) in_).moves)).rollUp rollRow).label ∈ Tree.flattenAll (again nodes in_) := by
  unfold again moved rollup
  rw [← Tree.labels_subtreesAll, Tree.subtreesAll_rollUpAll, Tree.subtreesAll_mapAll]
  exact mem_map_of_mem (mem_map_of_mem (mem_map_of_mem h))

section
variable (g : Given (fromTree nodes) in_) (hplace : in_.place = false)
include g hplace

theorem current_row {r : Row} (hr : r ∈ Tree.flattenAll (again nodes in_)) {start due : Int} (hstart : r.start = some start)
    (hdue : r.due = some due) : current (again nodes in_) in_ r.issue.key = some ⟨midnight start, midnight due⟩ := by
  have hrow := lookup_row (nodup_again g hplace) hplace hr
  rw [rowNode_some (by unfold Row.scheduled; rw [hstart, hdue]; rfl), hstart, hdue] at hrow
  exact current_again hplace hrow

theorem moveRow_ordered {r : Row} (hr : r ∈ Tree.flattenAll (fromTree nodes)) (hs : r.scheduled = true)
    (hd : r.derived = false) (hordered : Ordered (fromTree nodes) r.issue.key) : ∃ start due,
      (moveRow (align (fromTree nodes) in_).moves r).start = some start ∧
      (moveRow (align (fromTree nodes) in_).moves r).due = some due ∧ start ≤ due := by
  have hown := hs
  unfold Row.scheduled at hown
  rw [Bool.and_eq_true, Option.isSome_iff_exists, Option.isSome_iff_exists] at hown
  obtain ⟨⟨start, hstart⟩, ⟨due, hdue⟩⟩ := hown
  have hle := hordered r hr rfl start due hstart hdue
  unfold moveRow
  cases hto : moveTo (align (fromTree nodes) in_).moves r.issue.key with
  | none =>
    dsimp only
    rw [if_neg (by rw [hd]; exact Bool.false_ne_true)]
    exact ⟨start, due, hstart, hdue, hle⟩
  | some =>
    obtain ⟨m, hm, hkey, rfl⟩ := moveTo_some hto
    obtain ⟨_, hturn⟩ := mem_moves.1 hm
    have hn := lookup_row g.keys_nodup hplace hr
    rw [rowNode_some hs, hstart, hdue] at hn
    rw [hkey, spansOf_eq hn] at hturn
    dsimp only
    rw [if_neg (by rw [hd]; exact Bool.false_ne_true)]
    exact ⟨_, _, rfl, rfl, turn_ordered hn (days_zero hplace hn) hturn (midnight_mono hle)⟩

theorem moveRow_due_none {r : Row} (hr : r ∈ Tree.flattenAll (fromTree nodes)) (h : r.issue.dueDate = none) :
    (moveRow (align (fromTree nodes) in_).moves r).due = none := by
  unfold moveRow
  cases hd : r.derived with
  | true =>
    cases hto : moveTo (align (fromTree nodes) in_).moves r.issue.key with
    | none =>
      dsimp only
      rw [if_pos hd]
      exact h
    | some =>
      dsimp only
      rw [if_pos rfl]
      exact h
  | false =>
    have hdue := (own_due hr hd).trans h
    have hto : moveTo (align (fromTree nodes) in_).moves r.issue.key = none := by
      rw [Option.eq_none_iff_forall_ne_some]
      intro s hs
      have hscheduled := (moves_row g hplace hr hs).1
      unfold Row.scheduled at hscheduled
      rw [hdue, Option.isSome_none, Bool.and_false] at hscheduled
      cases hscheduled
    rw [hto]
    dsimp only
    rw [if_neg (by rw [hd]; exact Bool.false_ne_true)]
    exact hdue

theorem counted_late {u v : Text} (hcounts : CountsDue (fromTree nodes) u v) (hmay : MayMove (fromTree nodes) in_ v)
    (hordered : Ordered (fromTree nodes) v) : RollsUpDue (fromTree nodes) u ∧ ∃ s t,
      current (again nodes in_) in_ u = some s ∧ current (again nodes in_) in_ v = some t ∧ t.start ≤ s.due := by
  obtain ⟨item, hitem, hu, hnone, hunder⟩ := hcounts
  obtain ⟨⟨below, hbelow, hv, hmay⟩, _⟩ := hmay
  rw [hplace, Bool.false_and, if_neg Bool.false_ne_true] at hmay
  have hrows : ∀ {x : Item}, x ∈ Tree.subtreesAll (fromTree nodes) → ∀ {a}, a ∈ x.flatten → a ∈ Tree.flattenAll (fromTree nodes) :=
    fun hx _ ha => Tree.flattenAll_subtree hx ha
  have hr := hrows hbelow (Tree.label_mem below)
  have hkeys : ((Tree.flattenAll (fromTree nodes)).map (fun r => r.issue.key)).Nodup := by
    rw [← keyOf_labels]
    exact g.keys_nodup
  have hd := movable_derived hmay.2
  obtain ⟨start, due, hstart, hdue, hle⟩ := moveRow_ordered g hplace hr hmay.1 hd (by unfold keyOf at hv; rwa [hv])
  -- the item above, rolled up over the moved rows
  have hmoved : Tree.Under (fun a => (moveRow (align (fromTree nodes) in_).moves a).due = none)
      (fun a => (moveRow (align (fromTree nodes) in_).moves a).start.isSome = true ∧
        (moveRow (align (fromTree nodes) in_).moves a).due = some due) item := by
    refine hunder.mono (fun a ha hn => moveRow_due_none g hplace (hrows hitem ha) hn) fun a ha hkey => ?_
    have hsame : a = below.label := inj_on_of_nodup_map hkeys (hrows hitem ha) hr (hkey.trans hv.symm)
    rw [hsame]
    exact ⟨by rw [hstart]; rfl, hdue⟩
  obtain ⟨hs, hderived, e, he, hlate⟩ := rollUp_counts hmoved.map
    (by rw [Tree.label_map]; exact moveRow_due_none g hplace (hrows hitem (Tree.label_mem item)) hnone)
  obtain ⟨s, hs⟩ := Option.isSome_iff_exists.1 hs
  have hissue : ∀ x : Item, ((x.map (moveRow (align (fromTree nodes) in_).moves)).rollUp rollRow).label.issue = x.label.issue := by
    intro x
    rw [Tree.label_rollUp, issue_rollRow, Tree.label_map, issue_moveRow]
  have habove := current_row g hplace (mem_again_label in_ hitem) hs he
  rw [hissue, show item.label.issue.key = u from hu] at habove
  -- the issue itself
  have hself : ((below.map (moveRow (align (fromTree nodes) in_).moves)).rollUp rollRow).label =
      moveRow (align (fromTree nodes) in_).moves below.label := by
    rw [label_scheduled, Tree.label_map]
    rw [Tree.label_map]
    unfold Row.scheduled
    rw [hstart, hdue]
    rfl
  have hbelow' := current_row g hplace (mem_again_label in_ hbelow) (hself ▸ hstart) (hself ▸ hdue)
  rw [hissue, show below.label.issue.key = v from hv] at hbelow'
  refine ⟨?_, _, _, habove, hbelow', midnight_mono (Int.le_trans hle hlate)⟩
  obtain ⟨r, hr, hframe, _⟩ := mem_again g hplace (mem_again_label in_ hitem)
  have hfi : item.label.issue = r.issue := (hissue item).symm.trans (congrArg Frame.issue hframe)
  have hfd := congrArg Frame.derived hframe
  exact ⟨r, hr, by rw [← hfi]; exact hu, hfd.symm.trans hderived, by rw [← hfi]; exact hnone⟩

end

/-- **When a second run is quiet**: exactly when every issue it may move starts after the due date of each blocker whose due
date is rolled up.  It is quiet where no such blocker blocks what may move, and never where one counts what it blocks. -/
theorem align_again (nodes : List (Tree Issue)) (in_ : AlignInput) (g : Given (fromTree nodes) in_) (hplace : in_.place = false)
    (h : Kahn.Acyclic (edgesOf (fromTree nodes) in_)) :
    ((align (again nodes in_) in_).moves = [] ↔
      ∀ c ∈ constraints (fromTree nodes) in_.blockers, RollsUpDue (fromTree nodes) c.blockerKey →
        MayMove (fromTree nodes) in_ c.blockedKey → ∀ s t, current (again nodes in_) in_ c.blockerKey = some s →
          current (again nodes in_) in_ c.blockedKey = some t → s.due < t.start) ∧
    ((∀ c ∈ constraints (fromTree nodes) in_.blockers, RollsUpDue (fromTree nodes) c.blockerKey →
        ¬ MayMove (fromTree nodes) in_ c.blockedKey) → (align (again nodes in_) in_).moves = []) ∧
    ∀ c ∈ constraints (fromTree nodes) in_.blockers, CountsDue (fromTree nodes) c.blockerKey c.blockedKey →
      MayMove (fromTree nodes) in_ c.blockedKey → Ordered (fromTree nodes) c.blockedKey →
        (align (again nodes in_) in_).moves ≠ [] := by
  have hiff := again_nil_iff g hplace h
  refine ⟨hiff, fun hnone => hiff.2 fun c hc hroll hmay => absurd hmay (hnone c hc hroll), ?_⟩
  intro c hc hcounts hmay hordered hquiet
  obtain ⟨hroll, s, t, hs, ht, hle⟩ := counted_late g hplace hcounts hmay hordered
  have hlt := hiff.1 hquiet c hc hroll hmay s t hs ht
  omega

theorem align_again_pair : (align (again [.node (task "PR-1" 739921 739925) [], .node (task "PR-2" 739923 739924) []]
    (linked [("PR-1", "PR-2")])) (linked [("PR-1", "PR-2")])).moves = [] := by
  have hedges : edgesOf (fromTree [.node (task "PR-1" 739921 739925) [], .node (task "PR-2" 739923 739924) []])
      (linked [("PR-1", "PR-2")]) = [("PR-1".toList, "PR-2".toList)] := by decide +kernel
  refine (align_again _ (linked [("PR-1", "PR-2")])
    ⟨by decide +kernel, by decide +kernel, by decide +kernel, by decide +kernel, by decide +kernel⟩ rfl ?_).2.1 ?_
  · rw [hedges]
    exact Kahn.acyclic_of_rank (fun k => if k = "PR-1".toList then 0 else 1) (by decide)
  · rintro c _ ⟨r, hr, _, hd, _⟩
    have hplain : ∀ r ∈ Tree.flattenAll (fromTree [.node (task "PR-1" 739921 739925) [], .node (task "PR-2" 739923 739924) []]),
        r.derived = false := by decide +kernel
    rw [hplain r hr] at hd
    cases hd

def epicOverTask : List (Tree Issue) :=
  [.node { task "PR-1" 0 0 with startDate := none, dueDate := none } [.node (task "PR-2" 739921 739925) []]]

theorem epicOverTask_again : ¬ ∀ (nodes : List (Tree Issue)) (in_ : AlignInput), Given (fromTree nodes) in_ → in_.place = false →
    Kahn.Acyclic (edgesOf (fromTree nodes) in_) → (align (again nodes in_) in_).moves = [] := by
  intro hquiet
  have hedges : edgesOf (fromTree epicOverTask) (linked [("PR-1", "PR-2")]) = [("PR-1".toList, "PR-2".toList)] := by
    decide +kernel
  have hmoves : (align (again epicOverTask (linked [("PR-1", "PR-2")])) (linked [("PR-1", "PR-2")])).moves ≠ [] := by
    decide +kernel
  refine hmoves (hquiet epicOverTask (linked [("PR-1", "PR-2")])
    ⟨by decide +kernel, by decide +kernel, by decide +kernel, by decide +kernel, by decide +kernel⟩ rfl ?_)
  rw [hedges]
  exact Kahn.acyclic_of_rank (fun k => if k = "PR-1".toList then 0 else 1) (by decide)

end Plan
end Armature
