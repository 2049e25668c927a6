import Armature.PlanStable
/-!
# PlanRollup — whether a derived parent agrees with its children (`plan/plan.go`)

`Check` passes over derived rows, as rows that are made of their children.  A row with one end of its own keeps it, whatever
its children have, and a row may take its ends from different children: the dates that come out agree where the dates typed
do (`derived_agrees`).
-/
namespace Armature
namespace Plan

open List
open Wf (Uuid)

/-! ## The typed dates that show at an issue -/

mutual
/-- A start typed at the issue, or beneath it where it has none and its children have both ends to give. -/
inductive Starts : Tree Issue → Int → Prop where
  | own {i : Issue} {cs : List (Tree Issue)} {s : Int} : i.startDate = some s → Starts (.node i cs) s
  | beneath {i : Issue} {cs : List (Tree Issue)} {c c' : Tree Issue} {s d : Int} : i.startDate = none → c ∈ cs → Starts c s →
      c' ∈ cs → Dues c' d → Starts (.node i cs) s
inductive Dues : Tree Issue → Int → Prop where
  | own {i : Issue} {cs : List (Tree Issue)} {d : Int} : i.dueDate = some d → Dues (.node i cs) d
  | beneath {i : Issue} {cs : List (Tree Issue)} {c c' : Tree Issue} {s d : Int} : i.dueDate = none → c' ∈ cs → Starts c' s →
      c ∈ cs → Dues c d → Dues (.node i cs) d
end

/-! ## What a roll-up takes from the children -/

theorem foldl_sooner : ∀ (rows : List Row) (start : Option Int),
    rows.foldl (fun start r => sooner start r.start) start = (start.toList ++ rows.filterMap Row.start).min?
  | [], start => by cases start <;> rfl
  | r :: rows, start => by
    rw [foldl_cons, foldl_sooner rows, filterMap_cons]
    rcases start with _ | a <;> rcases r.start with _ | b
    · rfl
    · rfl
    · rfl
    · have hmin : sooner (some a) (some b) = some (min a b) := by
        simp only [sooner]
        split <;> (congr 1; omega)
      rw [hmin]
      rfl

theorem foldl_later : ∀ (rows : List Row) (due : Option Int),
    rows.foldl (fun due r => later due r.due) due = (due.toList ++ rows.filterMap Row.due).max?
  | [], due => by cases due <;> rfl
  | r :: rows, due => by
    rw [foldl_cons, foldl_later rows, filterMap_cons]
    rcases due with _ | a <;> rcases r.due with _ | b
    · rfl
    · rfl
    · rfl
    · have hmax : later (some a) (some b) = some (max a b) := by
        simp only [later]
        split <;> (congr 1; omega)
      rw [hmax]
      rfl

theorem spanOf_eq (rows : List Row) : spanOf rows = ((rows.filterMap Row.start).min?, (rows.filterMap Row.due).max?) :=
  Prod.ext (foldl_sooner rows none) (foldl_later rows none)

theorem rollRow_dates (r : Row) (children : List Row) : (r.scheduled = true ∨ (spanOf children).1 = none ∨ (spanOf children).2 = none) ∧
      rollRow r children = r ∨
    r.scheduled = false ∧ ∃ s d, spanOf children = (some s, some d) ∧ (rollRow r children).derived = true ∧
      (rollRow r children).start = some (r.start.getD s) ∧ (rollRow r children).due = some (r.due.getD d) := by
  unfold rollRow
  cases hr : r.scheduled with
  | true => exact .inl ⟨.inl rfl, if_pos rfl⟩
  | false =>
    rw [if_neg Bool.false_ne_true]
    rcases hspan : spanOf children with ⟨_ | s, _ | d⟩
    · exact .inl ⟨.inr (.inl rfl), rfl⟩
    · exact .inl ⟨.inr (.inl rfl), rfl⟩
    · exact .inl ⟨.inr (.inr rfl), rfl⟩
    · refine .inr ⟨rfl, s, d, rfl, rfl, ?_, ?_⟩
      · cases r.start <;> rfl
      · cases r.due <;> rfl

/-! ## The rolled-up row of an issue -/

def rolled (t : Tree Issue) : Row := ((t.map itemOf).rollUp rollRow).label

theorem rolled_node (i : Issue) (cs : List (Tree Issue)) : rolled (.node i cs) = rollRow (itemOf i) (cs.map rolled) := by
  unfold rolled
  rw [Tree.map, Tree.label_rollUp, Tree.mapAll_eq, Tree.label_node, Tree.children_node, Tree.rollUpAll_eq, map_map, map_map]
  rfl

/-- The row's start is the first of those that show, its due the last. -/
structure Shown (t : Tree Issue) (r : Row) : Prop where
  start : ∀ s ∈ r.start, Starts t s ∧ ∀ a, Starts t a → s ≤ a
  starts : ∀ a, Starts t a → r.start.isSome
  due : ∀ d ∈ r.due, Dues t d ∧ ∀ a, Dues t a → a ≤ d
  dues : ∀ a, Dues t a → r.due.isSome

theorem spanOf_starts {rows : List Row} {s : Int} (h : (spanOf rows).1 = some s) :
    (∃ r ∈ rows, r.start = some s) ∧ ∀ r ∈ rows, ∀ a ∈ r.start, s ≤ a := by
  rw [spanOf_eq] at h
  obtain ⟨hmem, hle⟩ := List.min?_eq_some_iff.1 h
  exact ⟨mem_filterMap.1 hmem, fun r hr a ha => hle a (mem_filterMap.2 ⟨r, hr, ha⟩)⟩

theorem spanOf_dues {rows : List Row} {d : Int} (h : (spanOf rows).2 = some d) :
    (∃ r ∈ rows, r.due = some d) ∧ ∀ r ∈ rows, ∀ a ∈ r.due, a ≤ d := by
  rw [spanOf_eq] at h
  obtain ⟨hmem, hle⟩ := List.max?_eq_some_iff.1 h
  exact ⟨mem_filterMap.1 hmem, fun r hr a ha => hle a (mem_filterMap.2 ⟨r, hr, ha⟩)⟩

theorem spanOf_some {cs : List (Tree Issue)} (hcs : ∀ c ∈ cs, Shown c (rolled c)) {c c' : Tree Issue} {s d : Int} (hc : c ∈ cs)
    (hs : Starts c s) (hc' : c' ∈ cs) (hd : Dues c' d) :
    ¬ ((spanOf (cs.map rolled)).1 = none ∨ (spanOf (cs.map rolled)).2 = none) := by
  obtain ⟨hstart, hdue⟩ := spanOf_isSome (cs.map rolled)
  have h₁ : (spanOf (cs.map rolled)).1.isSome := by
    rw [hstart]
    exact any_eq_true.2 ⟨_, mem_map_of_mem hc, (hcs c hc).starts s hs⟩
  have h₂ : (spanOf (cs.map rolled)).2.isSome := by
    rw [hdue]
    exact any_eq_true.2 ⟨_, mem_map_of_mem hc', (hcs c' hc').dues d hd⟩
  rintro (hnone | hnone)
  · rw [hnone] at h₁
    cases h₁
  · rw [hnone] at h₂
    cases h₂

theorem rolled_shown (t : Tree Issue) : Shown t (rolled t) := by
  induction t using Tree.induct with
  | h i cs hcs =>
    rw [rolled_node]
    rcases rollRow_dates (itemOf i) (cs.map rolled) with ⟨hkept, hrow⟩ | ⟨hopen, s, d, hspan, -, hstart, hdue⟩
    · rw [hrow]
      have hnone : (i.startDate = none ∨ i.dueDate = none) → ∀ {c c' : Tree Issue} {s d : Int}, c ∈ cs → Starts c s → c' ∈ cs →
          Dues c' d → False := by
        intro hend c c' s d hc hs hc' hd
        refine spanOf_some hcs hc hs hc' hd (hkept.resolve_left fun hscheduled => ?_)
        obtain ⟨h₁, h₂⟩ := Bool.and_eq_true_iff.1 hscheduled
        rcases hend with hend | hend
        · exact absurd h₁ (by simp [itemOf, hend])
        · exact absurd h₂ (by simp [itemOf, hend])
      refine ⟨fun s hs => ⟨.own hs, fun a ha => ?_⟩, fun a ha => ?_, fun d hd => ⟨.own hd, fun a ha => ?_⟩, fun a ha => ?_⟩
      · cases ha with
        | own ha => exact Int.le_of_eq (Option.some.inj (hs.symm.trans ha))
        | beneath hstart hc hs' hc' hd => exact (hnone (.inl hstart) hc hs' hc' hd).elim
      · cases ha with
        | own ha => exact Option.isSome_iff_exists.2 ⟨a, ha⟩
        | beneath hstart hc hs' hc' hd => exact (hnone (.inl hstart) hc hs' hc' hd).elim
      · cases ha with
        | own ha => exact Int.le_of_eq (Option.some.inj (ha.symm.trans hd))
        | beneath hdue hc hs' hc' hd => exact (hnone (.inr hdue) hc hs' hc' hd).elim
      · cases ha with
        | own ha => exact Option.isSome_iff_exists.2 ⟨a, ha⟩
        | beneath hdue hc hs' hc' hd => exact (hnone (.inr hdue) hc hs' hc' hd).elim
    · obtain ⟨⟨r, hr, hs⟩, hfirst⟩ := spanOf_starts (congrArg Prod.fst hspan)
      obtain ⟨⟨r', hr', hd⟩, hlast⟩ := spanOf_dues (congrArg Prod.snd hspan)
      obtain ⟨c, hc, rfl⟩ := mem_map.1 hr
      obtain ⟨c', hc', rfl⟩ := mem_map.1 hr'
      have hshows := ((hcs c hc).start s hs).1
      have hdues := ((hcs c' hc').due d hd).1
      refine ⟨fun x hx => ?_, fun a _ => by rw [hstart]; rfl, fun x hx => ?_, fun a _ => by rw [hdue]; rfl⟩
      · rw [hstart] at hx
        cases hi : i.startDate with
        | some own =>
          have hx : x = own := by simpa [itemOf, hi, eq_comm] using hx
          subst hx
          refine ⟨.own hi, fun a ha => ?_⟩
          cases ha with
          | own ha => exact Int.le_of_eq (Option.some.inj (hi.symm.trans ha))
          | beneath hnone => exact absurd (hnone.symm.trans hi) (by simp)
        | none =>
          have hx : x = s := by simpa [itemOf, hi, eq_comm] using hx
          subst hx
          refine ⟨.beneath hi hc hshows hc' hdues, fun a ha => ?_⟩
          cases ha with
          | own ha => exact absurd (hi.symm.trans ha) (by simp)
          | beneath _ hb hsb _ _ =>
            obtain ⟨e, he⟩ := Option.isSome_iff_exists.1 ((hcs _ hb).starts a hsb)
            exact Int.le_trans (hfirst _ (mem_map_of_mem hb) e he) (((hcs _ hb).start e he).2 a hsb)
      · rw [hdue] at hx
        cases hi : i.dueDate with
        | some own =>
          have hx : x = own := by simpa [itemOf, hi, eq_comm] using hx
          subst hx
          refine ⟨.own hi, fun a ha => ?_⟩
          cases ha with
          | own ha => exact Int.le_of_eq (Option.some.inj (ha.symm.trans hi))
          | beneath hnone => exact absurd (hnone.symm.trans hi) (by simp)
        | none =>
          have hx : x = d := by simpa [itemOf, hi, eq_comm] using hx
          subst hx
          refine ⟨.beneath hi hc hshows hc' hdues, fun a ha => ?_⟩
          cases ha with
          | own ha => exact absurd (hi.symm.trans ha) (by simp)
          | beneath _ _ _ hb hdb =>
            obtain ⟨e, he⟩ := Option.isSome_iff_exists.1 ((hcs _ hb).dues a hdb)
            exact Int.le_trans (((hcs _ hb).due e he).2 a hdb) (hlast _ (mem_map_of_mem hb) e he)

/-! ## When the plan agrees with itself -/

def Filled (t : Tree Issue) : Prop := (t.label.startDate = none ∨ t.label.dueDate = none) ∧
  (∃ c ∈ t.children, ∃ s, Starts c s) ∧ ∃ c ∈ t.children, ∃ d, Dues c d

def Fits (t : Tree Issue) : Prop := Filled t → (∃ s d, Starts t s ∧ Dues t d ∧ s ≤ d) ∧
  ∀ c ∈ t.children, ∀ s d, Starts c s → Dues c d → (∀ a ∈ t.label.startDate, a ≤ s) ∧ ∀ b ∈ t.label.dueDate, d ≤ b

def Agrees (x : Item) : Prop := (∀ s ∈ x.label.start, ∀ d ∈ x.label.due, s ≤ d) ∧
  (x.label.derived = true → ∀ c ∈ x.children, ∀ s ∈ c.label.start, ∀ d ∈ c.label.due,
    (∃ a ∈ x.label.start, a ≤ s) ∧ ∃ b ∈ x.label.due, d ≤ b)

def rolledItem (t : Tree Issue) : Item := (t.map itemOf).rollUp rollRow

theorem rolledItem_label (t : Tree Issue) : (rolledItem t).label = rolled t := rfl

theorem rolledItem_children (t : Tree Issue) : (rolledItem t).children = t.children.map rolledItem := by
  cases t with
  | node =>
    unfold rolledItem
    rw [Tree.map, Tree.rollUp, Tree.children_node, Tree.children_node, Tree.rollUpAll_eq, Tree.mapAll_eq, map_map]
    rfl

theorem subtrees_rollup (nodes : List (Tree Issue)) :
    Tree.subtreesAll (rollup (Tree.mapAll itemOf nodes)) = (Tree.subtreesAll nodes).map rolledItem := by
  unfold rollup
  rw [Tree.subtreesAll_rollUpAll, Tree.subtreesAll_mapAll, map_map]
  rfl

theorem rolled_cases (t : Tree Issue) : ¬ Filled t ∧ rolled t = itemOf t.label ∨
    Filled t ∧ (rolled t).derived = true ∧ ∃ s d, (rolled t).start = some s ∧ (rolled t).due = some d ∧
      (∀ a ∈ t.label.startDate, s = a) ∧ ∀ b ∈ t.label.dueDate, d = b := by
  cases t with
  | node i cs =>
    have hcs : ∀ c ∈ cs, Shown c (rolled c) := fun c _ => rolled_shown c
    rw [rolled_node]
    rcases rollRow_dates (itemOf i) (cs.map rolled) with ⟨hkept, hrow⟩ | ⟨hopen, s, d, hspan, hderived, hstart, hdue⟩
    · refine .inl ⟨?_, hrow⟩
      rintro ⟨hend, ⟨c, hc, s, hs⟩, c', hc', d, hd⟩
      refine spanOf_some hcs hc hs hc' hd (hkept.resolve_left fun hscheduled => ?_)
      obtain ⟨h₁, h₂⟩ := Bool.and_eq_true_iff.1 hscheduled
      rcases hend with hend | hend
      · exact absurd h₁ (by simpa [itemOf] using hend)
      · exact absurd h₂ (by simpa [itemOf] using hend)
    · obtain ⟨⟨r, hr, hs⟩, -⟩ := spanOf_starts (congrArg Prod.fst hspan)
      obtain ⟨⟨r', hr', hd⟩, -⟩ := spanOf_dues (congrArg Prod.snd hspan)
      obtain ⟨c, hc, rfl⟩ := mem_map.1 hr
      obtain ⟨c', hc', rfl⟩ := mem_map.1 hr'
      refine .inr ⟨⟨?_, ⟨c, hc, s, ((hcs c hc).start s hs).1⟩, c', hc', d, ((hcs c' hc').due d hd).1⟩, hderived, _, _, hstart, hdue,
        fun a ha => ?_, fun b hb => ?_⟩
      · rw [Tree.label_node]
        rcases Bool.and_eq_false_iff.1 hopen with h | h
        · exact .inl (by simpa [itemOf] using h)
        · exact .inr (by simpa [itemOf] using h)
      · have ha : i.startDate = some a := ha
        simp [itemOf, ha]
      · have hb : i.dueDate = some b := hb
        simp [itemOf, hb]

theorem agrees_iff {t : Tree Issue} (htyped : ∀ s ∈ t.label.startDate, ∀ d ∈ t.label.dueDate, s ≤ d) :
    Agrees (rolledItem t) ↔ Fits t := by
  have hshown := rolled_shown t
  unfold Agrees
  rw [rolledItem_label, rolledItem_children]
  rcases rolled_cases t with ⟨hopen, hrow⟩ | ⟨hfilled, hderived, s, d, hs, hd, hstart, hdue⟩
  · rw [hrow]
    exact ⟨fun _ hfilled => absurd hfilled hopen, fun _ => ⟨htyped, fun h => by cases h⟩⟩
  · obtain ⟨hstarts, hfirst⟩ := hshown.start s hs
    obtain ⟨hdues, hlast⟩ := hshown.due d hd
    constructor
    · rintro ⟨hordered, hcontains⟩ -
      refine ⟨⟨s, d, hstarts, hdues, hordered s hs d hd⟩, fun c hc x y hx hy => ?_⟩
      obtain ⟨e, he⟩ := Option.isSome_iff_exists.1 ((rolled_shown c).starts x hx)
      obtain ⟨f, hf⟩ := Option.isSome_iff_exists.1 ((rolled_shown c).dues y hy)
      obtain ⟨⟨a, ha, hae⟩, b, hb, hfb⟩ := hcontains hderived _ (mem_map_of_mem hc) e he f hf
      rw [hs] at ha
      rw [hd] at hb
      cases ha
      cases hb
      have hex := ((rolled_shown c).start e he).2 x hx
      have hyf := ((rolled_shown c).due f hf).2 y hy
      refine ⟨fun a ha => ?_, fun b hb => ?_⟩
      · rw [← hstart a ha]
        omega
      · rw [← hdue b hb]
        omega
    · intro hfits
      obtain ⟨⟨x, y, hx, hy, hxy⟩, hchildren⟩ := hfits hfilled
      refine ⟨fun a ha b hb => ?_, fun _ item hitem e he f hf => ?_⟩
      · rw [hs] at ha
        rw [hd] at hb
        cases ha
        cases hb
        have := hfirst x hx
        have := hlast y hy
        omega
      · obtain ⟨c, hc, rfl⟩ := mem_map.1 hitem
        have hce := ((rolled_shown c).start e he).1
        have hcf := ((rolled_shown c).due f hf).1
        obtain ⟨hbefore, hafter⟩ := hchildren c hc e f hce hcf
        refine ⟨⟨s, hs, ?_⟩, d, hd, ?_⟩
        · cases t with
          | node i cs =>
            cases hi : i.startDate with
            | some a =>
              rw [hstart a hi]
              exact hbefore a hi
            | none => exact hfirst e (.beneath hi hc hce hc hcf)
        · cases t with
          | node i cs =>
            cases hi : i.dueDate with
            | some b =>
              rw [hdue b hi]
              exact hafter b hi
            | none => exact hlast f (.beneath hi hc hce hc hcf)

/-- **A derived parent agrees with its children, and every range runs forward**, where the typed dates fit: no end typed at an
issue lies within what its children give the other end of. -/
theorem derived_agrees (nodes : List (Tree Issue))
    (htyped : ∀ i ∈ Tree.flattenAll nodes, ∀ s ∈ i.startDate, ∀ d ∈ i.dueDate, s ≤ d) :
    (∀ x ∈ Tree.subtreesAll (rollup (Tree.mapAll itemOf nodes)), (∀ s ∈ x.label.start, ∀ d ∈ x.label.due, s ≤ d) ∧
      (x.label.derived = true → ∀ c ∈ x.children, ∀ s ∈ c.label.start, ∀ d ∈ c.label.due,
        (∃ a ∈ x.label.start, a ≤ s) ∧ ∃ b ∈ x.label.due, d ≤ b)) ↔
    ∀ t ∈ Tree.subtreesAll nodes, Fits t := by
  rw [subtrees_rollup]
  have hlabel : ∀ t ∈ Tree.subtreesAll nodes, t.label ∈ Tree.flattenAll nodes := fun t ht => by
    rw [← Tree.labels_subtreesAll]
    exact mem_map_of_mem ht
  constructor
  · intro h t ht
    exact (agrees_iff (htyped _ (hlabel t ht))).1 (h _ (mem_map_of_mem ht))
  · intro h x hx
    obtain ⟨t, ht, rfl⟩ := mem_map.1 hx
    exact (agrees_iff (htyped _ (hlabel t ht))).2 (h t ht)

def dated (n : Nat) (start due : Option Int) : Issue := ⟨n, [], .todo, none, none, none, none, start, due, none, none, none⟩

/-- An epic that starts on day 30, over a story of days 10 to 20: it comes out as ending before it starts. -/
theorem late_start_disagrees : ¬ ∀ nodes : List (Tree Issue),
    (∀ i ∈ Tree.flattenAll nodes, ∀ s ∈ i.startDate, ∀ d ∈ i.dueDate, s ≤ d) →
    ∀ x ∈ Tree.subtreesAll (rollup (Tree.mapAll itemOf nodes)), (∀ s ∈ x.label.start, ∀ d ∈ x.label.due, s ≤ d) ∧
      (x.label.derived = true → ∀ c ∈ x.children, ∀ s ∈ c.label.start, ∀ d ∈ c.label.due,
        (∃ a ∈ x.label.start, a ≤ s) ∧ ∃ b ∈ x.label.due, d ≤ b) := by
  intro h
  have hordered := (h [.node (dated 1 (some 30) none) [.node (dated 2 (some 10) (some 20)) []]] (by decide) _ mem_cons_self).1
  exact absurd (hordered 30 rfl 20 rfl) (by decide)

/-- An epic without dates over the same story. -/
theorem epic_agrees : (∀ x ∈ Tree.subtreesAll (rollup (Tree.mapAll itemOf [.node (dated 1 none none)
      [.node (dated 2 (some 10) (some 20)) []]])), (∀ s ∈ x.label.start, ∀ d ∈ x.label.due, s ≤ d) ∧
      (x.label.derived = true → ∀ c ∈ x.children, ∀ s ∈ c.label.start, ∀ d ∈ c.label.due,
        (∃ a ∈ x.label.start, a ≤ s) ∧ ∃ b ∈ x.label.due, d ≤ b)) ↔
    ∀ t ∈ Tree.subtreesAll [.node (dated 1 none none) [.node (dated 2 (some 10) (some 20)) []]], Fits t :=
  derived_agrees _ (by decide)

end Plan
end Armature
