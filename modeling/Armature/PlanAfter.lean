import Armature.PlanAlign
/-!
# PlanAfter — the auto plan puts what it may move after its blockers

Along Kahn's order every span is settled for good (`Settled`), so each key can be read on its own: what becomes of it is a
function of its first span and of its blockers' last ones.
-/
namespace Armature
namespace Plan

open List
open Go (Text day)

variable {items : List Item} {in_ : AlignInput}

/-! ## Constraints -/

theorem mem_edgesOf {u v : Text} : (u, v) ∈ edgesOf items in_ ↔
    (∃ c ∈ constraints items in_.blockers, c.blockerKey = u ∧ c.blockedKey = v) ∧ u ∈ nodesOf items in_ ∧
      v ∈ nodesOf items in_ := by
  unfold edgesOf
  simp only [mem_map, mem_filter, Bool.and_eq_true, decide_eq_true_eq, Prod.mk.injEq]
  constructor
  · rintro ⟨c, ⟨hc, hu, hv⟩, rfl, rfl⟩
    exact ⟨⟨c, hc, rfl, rfl⟩, hu, hv⟩
  · rintro ⟨⟨c, hc, rfl, rfl⟩, hu, hv⟩
    exact ⟨c, ⟨hc, hu, hv⟩, rfl, rfl⟩

/-! ## Nodes -/

theorem lookup_addItem (in_ : AlignInput) (nodes : Nodes) (item : Item) (key : Text) :
    (addItem in_ nodes item).lookup key =
      if keyOf item = key then nodeOf in_ item <|> nodes.lookup key else nodes.lookup key := by
  unfold addItem
  cases nodeOf in_ item with
  | none => simp
  | some =>
    by_cases hkey : keyOf item = key
    · rw [if_pos hkey, ← hkey, AList.lookup_insert]
      rfl
    · rw [if_neg hkey, AList.lookup_insert_ne (Ne.symm hkey)]

theorem lookup_addItems_other : ∀ {rows : List Item} (nodes : Nodes) {key : Text}, key ∉ rows.map keyOf →
    (rows.foldl (addItem in_) nodes).lookup key = nodes.lookup key
  | [], _, _, _ => rfl
  | row :: rows, nodes, key, h => by
    rw [map_cons, mem_cons, not_or] at h
    rw [foldl_cons, lookup_addItems_other _ h.2, lookup_addItem, if_neg (Ne.symm h.1)]

theorem lookup_addItems : ∀ {rows : List Item} (nodes : Nodes) {item : Item}, (rows.map keyOf).Nodup → item ∈ rows →
    (rows.foldl (addItem in_) nodes).lookup (keyOf item) = (nodeOf in_ item <|> nodes.lookup (keyOf item))
  | [], _, _, _, hitem => absurd hitem not_mem_nil
  | row :: rows, nodes, item, h, hitem => by
    rw [map_cons, nodup_cons] at h
    rw [foldl_cons]
    rcases mem_cons.1 hitem with rfl | hitem
    · rw [lookup_addItems_other _ h.1, lookup_addItem, if_pos rfl]
    · have hother : keyOf row ≠ keyOf item := fun he => h.1 (he ▸ mem_map_of_mem hitem)
      rw [lookup_addItems _ h.2 hitem, lookup_addItem, if_neg hother]

def outsideNode (s : Span) : AlignNode := ⟨⟨midnight s.start, midnight s.due⟩, none, false, 0⟩

theorem lookup_addOutside : ∀ (entries : List (Sigma (fun _ : Text => Span))) (nodes : Nodes) (key : Text),
    (entries.foldl addOutside nodes).lookup key = (nodes.lookup key <|> (entries.dlookup key).map outsideNode)
  | [], nodes, key => by simp
  | ⟨k, s⟩ :: entries, nodes, key => by
    rw [foldl_cons, lookup_addOutside]
    unfold addOutside
    by_cases hmem : k ∈ nodes
    · rw [if_pos hmem]
      by_cases hkey : k = key
      · subst hkey
        obtain ⟨n, hn⟩ := Option.isSome_iff_exists.1 (AList.lookup_isSome.2 hmem)
        rw [hn]
        rfl
      · rw [dlookup_cons_ne _ _ (Ne.symm hkey)]
    · rw [if_neg hmem]
      by_cases hkey : k = key
      · subst hkey
        rw [AList.lookup_insert, AList.lookup_eq_none.2 hmem, dlookup_cons_eq]
        rfl
      · rw [AList.lookup_insert_ne (Ne.symm hkey), dlookup_cons_ne _ _ (Ne.symm hkey)]

theorem lookup_nodesOf (items : List Item) (in_ : AlignInput) (key : Text) : (nodesOf items in_).lookup key =
    (((Tree.subtreesAll items).foldl (addItem in_) ∅).lookup key <|> (in_.outside.lookup key).map outsideNode) :=
  lookup_addOutside _ _ key

/-! ## The latest blocker -/

theorem latestOf_congr {spans spans' : Text → Span} {blockers : List Text} (h : ∀ b ∈ blockers, spans b = spans' b) :
    latestOf spans blockers = latestOf spans' blockers := by
  unfold latestOf
  refine foldl_ext _ _ _ fun acc b hb => ?_
  rw [h b hb]

/-- What the fold over the blockers keeps: the due date is the latest so far, and a key names a blocker that has it. -/
structure Latest (spans : Text → Span) (seen : List Text) (acc : Int × Text) : Prop where
  le : ∀ b ∈ seen, (spans b).due ≤ acc.1
  nonneg : 0 ≤ acc.1
  none : acc.2 = [] → acc.1 = 0
  some : acc.2 ≠ [] → acc.2 ∈ seen ∧ (spans acc.2).due = acc.1

theorem Latest.step {spans : Text → Span} {seen : List Text} {acc : Int × Text} (l : Latest spans seen acc) {b : Text}
    (hb : b ≠ []) : Latest spans (seen ++ [b])
      (if acc.1 < (spans b).due ∨ (spans b).due = acc.1 ∧ b < acc.2 then ((spans b).due, b) else acc) := by
  have hseen : ∀ c ∈ seen ++ [b], c ∈ seen ∨ c = b := fun c hc => by simpa using hc
  split
  · rename_i hlater
    have hle : acc.1 ≤ (spans b).due := by
      rcases hlater with h | ⟨h, _⟩
      · exact Int.le_of_lt h
      · exact Int.le_of_eq h.symm
    refine ⟨fun c hc => ?_, Int.le_trans l.nonneg hle, fun h => absurd h hb, fun _ => ⟨by simp, rfl⟩⟩
    rcases hseen c hc with hc | rfl
    · exact Int.le_trans (l.le c hc) hle
    · exact Int.le_refl _
  · rename_i hnot
    refine ⟨fun c hc => ?_, l.nonneg, l.none, fun h => ⟨mem_append_left _ (l.some h).1, (l.some h).2⟩⟩
    rcases hseen c hc with hc | rfl
    · exact l.le c hc
    · exact Int.not_lt.1 fun h => hnot (.inl h)

theorem latestOf_spec (spans : Text → Span) {blockers : List Text} (h : ∀ b ∈ blockers, b ≠ []) :
    Latest spans blockers (latestOf spans blockers) := by
  have hfold : ∀ (bs : List Text), (∀ b ∈ bs, b ≠ []) → ∀ (seen : List Text) (acc : Int × Text), Latest spans seen acc →
      Latest spans (seen ++ bs) (bs.foldl (fun acc blocker =>
        let due := (spans blocker).due
        if acc.1 < due ∨ due = acc.1 ∧ blocker < acc.2 then (due, blocker) else acc) acc) := by
    intro bs
    induction bs with
    | nil =>
      intro _ seen acc l
      rwa [append_nil]
    | cons b bs ih =>
      intro hbs seen acc l
      have := ih (fun c hc => hbs c (mem_cons_of_mem _ hc)) _ _ (l.step (hbs b mem_cons_self))
      rwa [append_assoc] at this
  exact hfold blockers h [] (0, []) ⟨fun _ h => absurd h not_mem_nil, Int.le_refl 0, fun _ => rfl, fun h => absurd rfl h⟩

/-! ## Placing -/

theorem nextWorkday_ge (w : Workdays) (team : Option Wf.Uuid) (d : Int) : d ≤ w.nextWorkday team d := by
  unfold Workdays.nextWorkday
  cases hfind : ((List.range workdaySearchDays).map (fun i : Nat => d + i * day)).find? (w.works team) with
  | none => exact Int.le_refl d
  | some t =>
    obtain ⟨i, _, rfl⟩ := mem_map.1 (mem_of_find?_eq_some hfind)
    have := Int.mul_nonneg (Int.natCast_nonneg i) (Int.le_of_lt Go.day_pos)
    rw [Option.getD_some]
    omega

theorem place_start (w : Workdays) (team : Option Wf.Uuid) (from_ : Int) (length : Nat) (was : Span) :
    from_ ≤ (w.place team from_ length was).start := by
  unfold Workdays.place
  dsimp only
  split
  · exact nextWorkday_ge w team from_
  · exact nextWorkday_ge w team from_

/-! ## What a run settles -/

def reach (items : List Item) (in_ : AlignInput) (key : Text) : Bool :=
  in_.downstream = [] || (downstreamOf in_.downstream (edgesOf items in_)).contains key

def turn (items : List Item) (in_ : AlignInput) : Text → Span → (Text → Span) → Span × List Move :=
  alignKey (nodesOf items in_) (edgesOf items in_) (reach items in_) in_

def indegree (items : List Item) (in_ : AlignInput) (key : Text) : Int :=
  ((edgesOf items in_).countP (fun e => e.2 = key) : Int)

def visits (items : List Item) (in_ : AlignInput) : List Text :=
  Kahn.order (Kahn.after (edgesOf items in_)) sortStrings (nodesOf items in_).keys.length
    (sortStrings ((nodesOf items in_).keys.filter (fun key => indegree items in_ key = 0))) (indegree items in_)

def settled (items : List Item) (in_ : AlignInput) : (Text → Span) × List Move :=
  Kahn.settle (turn items in_) (visits items in_) (spansOf (nodesOf items in_), [])

theorem align_eq (items : List Item) (in_ : AlignInput) : align items in_ = ⟨(settled items in_).2, unplacedOf items in_⟩ := by
  unfold align
  dsimp only
  rw [Kahn.walk_eq]
  rfl

theorem sortStrings_perm (keys : List Text) : (sortStrings keys).Perm keys := perm_insertionSort _ keys

theorem edgesOf_inside : ∀ e ∈ edgesOf items in_, e.1 ∈ (nodesOf items in_).keys ∧ e.2 ∈ (nodesOf items in_).keys :=
  fun _ he => ⟨AList.mem_keys.1 (mem_edgesOf.1 he).2.1, AList.mem_keys.1 (mem_edgesOf.1 he).2.2⟩

theorem walking (items : List Item) (in_ : AlignInput) : Kahn.Walking (nodesOf items in_).keys (edgesOf items in_) []
    (sortStrings ((nodesOf items in_).keys.filter (fun key => indegree items in_ key = 0))) (indegree items in_) :=
  Kahn.Walking.start sortStrings_perm (AList.keys_nodup _)

theorem visits_legal (items : List Item) (in_ : AlignInput) : Kahn.Legal (edgesOf items in_) [] (visits items in_) :=
  (walking items in_).legal sortStrings_perm (fun e he => (edgesOf_inside e he).2) _

variable {key : Text} {n : AlignNode}

theorem visits_iff (hkey : key ∈ nodesOf items in_) : key ∈ visits items in_ ↔ Kahn.Clear (edgesOf items in_) key :=
  ⟨Kahn.legal_clear (visits_legal items in_) nofun key, fun h =>
    (walking items in_).reaches sortStrings_perm edgesOf_inside h (AList.mem_keys.1 hkey) _
      (by rw [length_nil]; omega)⟩

theorem visits_complete (h : Kahn.Acyclic (edgesOf items in_)) (hkey : key ∈ nodesOf items in_) :
    key ∈ visits items in_ := (visits_iff hkey).2 (h.clear key)

theorem turn_reads (items : List Item) (in_ : AlignInput) : Kahn.Reads (edgesOf items in_) (turn items in_) := by
  intro v own spans spans' h
  have hlatest := latestOf_congr fun u (hu : u ∈ Kahn.before (edgesOf items in_) v) => h u (Kahn.mem_before.1 hu)
  unfold turn alignKey
  rw [hlatest]

theorem last_eq (hkey : key ∈ visits items in_) :
    (settled items in_).1 key = (turn items in_ key (spansOf (nodesOf items in_) key) (settled items in_).1).1 :=
  (Kahn.settle_fixed (turn_reads items in_) (visits_legal items in_) _).1 key hkey

theorem moves_eq (items : List Item) (in_ : AlignInput) : (align items in_).moves = (visits items in_).flatMap (fun key =>
    (turn items in_ key (spansOf (nodesOf items in_) key) (settled items in_).1).2) := by
  rw [align_eq]
  exact (Kahn.settle_fixed (turn_reads items in_) (visits_legal items in_) _).2

theorem turn_moves (items : List Item) (in_ : AlignInput) (key : Text) (own : Span) (spans : Text → Span) :
    (∀ m ∈ (turn items in_ key own spans).2, m.issueKey = key ∧ m.to_ = (turn items in_ key own spans).1) ∧
      ((turn items in_ key own spans).2 = [] → (turn items in_ key own spans).1 = own) := by
  unfold turn alignKey
  split
  · exact ⟨nofun, fun _ => rfl⟩
  · dsimp only
    split
    · refine ⟨fun m hm => ?_, nofun⟩
      rw [mem_singleton.1 hm]
      exact ⟨rfl, rfl⟩
    · split
      · refine ⟨fun m hm => ?_, nofun⟩
        rw [mem_singleton.1 hm]
        exact ⟨rfl, rfl⟩
      · exact ⟨nofun, fun _ => rfl⟩

theorem mem_moves {m : Move} : m ∈ (align items in_).moves ↔ m.issueKey ∈ visits items in_ ∧
    m ∈ (turn items in_ m.issueKey (spansOf (nodesOf items in_) m.issueKey) (settled items in_).1).2 := by
  rw [moves_eq, mem_flatMap]
  constructor
  · rintro ⟨key, hkey, hm⟩
    rw [((turn_moves items in_ key _ _).1 m hm).1]
    exact ⟨hkey, hm⟩
  · rintro ⟨hkey, hm⟩
    exact ⟨_, hkey, hm⟩

theorem turn_once (key : Text) (own : Span) (spans : Text → Span) :
    ((turn items in_ key own spans).2.map Move.issueKey).Sublist [key] := by
  unfold turn alignKey
  split
  · exact nil_sublist _
  · dsimp only
    split
    · exact List.Sublist.refl _
    · split
      · exact List.Sublist.refl _
      · exact nil_sublist _

theorem moves_nodup (items : List Item) (in_ : AlignInput) : ((align items in_).moves.map Move.issueKey).Nodup := by
  have hsub : ∀ keys : List Text, ((keys.flatMap fun key =>
      (turn items in_ key (spansOf (nodesOf items in_) key) (settled items in_).1).2).map Move.issueKey).Sublist keys := by
    intro keys
    induction keys with
    | nil => exact nil_sublist _
    | cons key keys ih =>
      rw [flatMap_cons, map_append]
      exact (turn_once key _ _).append ih
  rw [moves_eq]
  exact (Kahn.legal_nodup (visits_legal items in_)).sublist (hsub _)

def current (items : List Item) (in_ : AlignInput) (key : Text) : Option Span :=
  ((nodesOf items in_).lookup key).bind (fun n => if 0 < n.days then none else some n.span)

def finalSpan (items : List Item) (in_ : AlignInput) (key : Text) : Option Span :=
  match moveTo (align items in_).moves key with
  | some span => some span
  | none => current items in_ key

theorem moveTo_some {moves : List Move} {s : Span} (h : moveTo moves key = some s) :
    ∃ m ∈ moves, m.issueKey = key ∧ m.to_ = s := by
  unfold moveTo at h
  obtain ⟨m, hm, rfl⟩ := Option.map_eq_some_iff.1 h
  exact ⟨m, mem_reverse.1 (mem_of_find?_eq_some hm), by simpa using List.find?_some hm, rfl⟩

theorem moveTo_none {moves : List Move} (h : moveTo moves key = none) : ∀ m ∈ moves, m.issueKey ≠ key := by
  unfold moveTo at h
  rw [Option.map_eq_none_iff, List.find?_eq_none] at h
  intro m hm
  simpa using h m (mem_reverse.2 hm)

theorem spansOf_eq {nodes : Nodes} (h : nodes.lookup key = some n) :
    spansOf nodes key = n.span := by
  unfold spansOf
  rw [h]

theorem turn_placed (hn : (nodesOf items in_).lookup key = some n) (hdays : 0 < n.days)
    (own : Span) (spans : Text → Span) : (turn items in_ key own spans).2 ≠ [] := by
  unfold turn alignKey
  rw [hn]
  dsimp only
  rw [if_pos hdays]
  exact cons_ne_nil _ _

theorem finalSpan_eq (h : Kahn.Acyclic (edgesOf items in_)) (key : Text) :
    finalSpan items in_ key = if key ∈ nodesOf items in_ then some ((settled items in_).1 key) else none := by
  unfold finalSpan
  cases hto : moveTo (align items in_).moves key with
  | some =>
    obtain ⟨m, hm, rfl, rfl⟩ := moveTo_some hto
    obtain ⟨_, hm⟩ := mem_moves.1 hm
    have hmem : m.issueKey ∈ nodesOf items in_ := by
      by_contra hno
      unfold turn alignKey at hm
      rw [AList.lookup_eq_none.2 hno] at hm
      cases hm
    rw [if_pos hmem, last_eq (visits_complete h hmem), ((turn_moves items in_ _ _ _).1 m hm).2]
  | none =>
    unfold current
    cases hn : (nodesOf items in_).lookup key with
    | none => rw [if_neg (AList.lookup_eq_none.1 hn), Option.bind_none]
    | some n =>
      have hmem : key ∈ nodesOf items in_ := AList.lookup_isSome.1 (by rw [hn]; rfl)
      have hnone : (turn items in_ key (spansOf (nodesOf items in_) key) (settled items in_).1).2 = [] := by
        refine eq_nil_iff_forall_not_mem.2 fun m hm => ?_
        have hkey := ((turn_moves items in_ key _ _).1 m hm).1
        refine moveTo_none hto m (mem_moves.2 ?_) hkey
        rw [hkey]
        exact ⟨visits_complete h hmem, hm⟩
      have hdays : ¬ 0 < n.days := fun hd => turn_placed hn hd _ _ hnone
      rw [if_pos hmem, last_eq (visits_complete h hmem), (turn_moves items in_ key _ _).2 hnone, spansOf_eq hn]
      simp [hdays]

/-! ## What may move -/

structure Given (items : List Item) (in_ : AlignInput) : Prop where
  keys_nodup : ((Tree.subtreesAll items).map keyOf).Nodup
  keys_ne : ∀ item ∈ Tree.subtreesAll items, keyOf item ≠ []
  outside_ne : [] ∉ in_.outside
  starts : ∀ item ∈ Tree.subtreesAll items, item.label.derived = false → ∀ t, item.label.start = some t → 0 < midnight t
  today : 0 < midnight in_.today

def MayMove (items : List Item) (in_ : AlignInput) (key : Text) : Prop :=
  (∃ item ∈ Tree.subtreesAll items, keyOf item = key ∧
    if in_.place && placeable item in_.matched then ∃ hours, hoursOf item.label.issue = some hours ∧ 0 < hours
    else item.label.scheduled = true ∧ movable item.label (midnight in_.today) in_.matched = true) ∧
  (in_.downstream = [] ∨ Relation.TransGen (fun u v => (u, v) ∈ edgesOf items in_) in_.downstream key)

theorem reach_iff (items : List Item) (in_ : AlignInput) (key : Text) : reach items in_ key = true ↔
    in_.downstream = [] ∨ Relation.TransGen (fun u v => (u, v) ∈ edgesOf items in_) in_.downstream key := by
  unfold reach downstreamOf
  rw [Bool.or_eq_true, decide_eq_true_iff, contains_iff_mem, Kahn.mem_search]

theorem addItems_some {n : AlignNode} {key : Text} : ∀ (rows : List Item) {nodes : Nodes},
    (rows.foldl (addItem in_) nodes).lookup key = some n →
      nodes.lookup key = some n ∨ ∃ item ∈ rows, keyOf item = key ∧ nodeOf in_ item = some n
  | [], _, h => .inl h
  | row :: rows, nodes, h => by
    rcases addItems_some rows h with h | ⟨item, hitem, hn⟩
    · rw [lookup_addItem] at h
      split at h
      · rename_i hkey
        cases hrow : nodeOf in_ row with
        | none =>
          rw [hrow] at h
          exact .inl h
        | some =>
          rw [hrow] at h
          cases h
          exact .inr ⟨row, mem_cons_self, hkey, hrow⟩
      · exact .inl h
    · exact .inr ⟨item, mem_cons_of_mem _ hitem, hn⟩

theorem nodesOf_some (h : (nodesOf items in_).lookup key = some n) :
    (∃ item ∈ Tree.subtreesAll items, keyOf item = key ∧ nodeOf in_ item = some n) ∨
      ∃ s, in_.outside.lookup key = some s ∧ n = outsideNode s := by
  rw [lookup_nodesOf] at h
  cases hrows : ((Tree.subtreesAll items).foldl (addItem in_) ∅).lookup key with
  | some =>
    rw [hrows] at h
    cases h
    rcases addItems_some _ hrows with h | h
    · rw [AList.lookup_empty] at h
      cases h
    · exact .inl h
  | none =>
    rw [hrows] at h
    obtain ⟨s, hs, rfl⟩ := Option.map_eq_some_iff.1 h
    exact .inr ⟨s, hs, rfl⟩

theorem nodesOf_row (g : Given items in_) {item : Item} (hitem : item ∈ Tree.subtreesAll items)
    (hn : nodeOf in_ item = some n) : (nodesOf items in_).lookup (keyOf item) = some n := by
  rw [lookup_nodesOf, lookup_addItems ∅ g.keys_nodup hitem, hn]
  rfl

theorem nodeOf_some {item : Item} (h : nodeOf in_ item = some n) :
    (in_.place = true ∧ placeable item in_.matched = true ∧ n.movable = true ∧ n.span = ⟨0, 0⟩ ∧
      ∃ hours, hoursOf item.label.issue = some hours ∧ 0 < hours ∧ n.days = (daysOf hours).toNat) ∨
    ((in_.place && placeable item in_.matched) = false ∧ n.days = 0 ∧
      n.movable = movable item.label (midnight in_.today) in_.matched ∧
      ∃ start due, item.label.start = some start ∧ item.label.due = some due ∧ n.span = ⟨midnight start, midnight due⟩) := by
  unfold nodeOf read at h
  cases hplace : in_.place && placeable item in_.matched with
  | true =>
    rw [Bool.and_eq_true] at hplace
    simp only [hplace.1, hplace.2, Bool.and_self, if_true] at h
    cases hhours : hoursOf item.label.issue with
    | none =>
      rw [hhours] at h
      cases h
    | some hours =>
      rw [hhours] at h
      dsimp only at h
      by_cases hpos : 0 < hours
      · rw [if_pos hpos] at h
        cases h
        exact .inl ⟨hplace.1, hplace.2, rfl, rfl, hours, rfl, hpos, rfl⟩
      · rw [if_neg hpos] at h
        cases h
  | false =>
    simp only [hplace, Bool.false_eq_true, if_false] at h
    cases hstart : item.label.start with
    | none =>
      rw [hstart] at h
      cases h
    | some start =>
      cases hdue : item.label.due with
      | none =>
        rw [hstart, hdue] at h
        cases h
      | some due =>
        rw [hstart, hdue] at h
        cases h
        exact .inr ⟨rfl, rfl, rfl, start, due, rfl, rfl, rfl⟩

theorem daysOf_pos {hours : Rat} (h : 0 < hours) : 0 < daysOf hours := by
  have h1 : (0 : Rat) < minutesPerHour := by decide
  have h2 : (0 : Rat) < (standardDayMinutes : Rat) := by decide
  have h3 := Rat.mul_pos (Rat.mul_pos h h1) (Rat.inv_pos.2 h2)
  unfold daysOf
  rw [Rat.lt_ceil_iff, Rat.div_def]
  exact h3

theorem mayMove_iff (g : Given items in_) (hpair : ¬ (in_.place = true ∧ in_.downstream ≠ [])) (key : Text) :
    MayMove items in_ key ↔
      ∃ n, (nodesOf items in_).lookup key = some n ∧ (0 < n.days ∨ (n.movable && reach items in_ key) = true) := by
  unfold MayMove
  rw [← reach_iff]
  constructor
  · rintro ⟨⟨item, hitem, rfl, hmay⟩, hreach⟩
    split at hmay
    · rename_i hplace
      obtain ⟨hours, hhours, hpos⟩ := hmay
      have hn : nodeOf in_ item = some ⟨⟨0, 0⟩, item.label.issue.teamID, true, (daysOf hours).toNat⟩ := by
        unfold nodeOf read
        simp only [hplace, if_true, hhours, if_pos hpos]
      refine ⟨_, nodesOf_row g hitem hn, .inl ?_⟩
      have := daysOf_pos hpos
      dsimp only
      omega
    · rename_i hplace
      obtain ⟨hscheduled, hmovable⟩ := hmay
      unfold Row.scheduled at hscheduled
      rw [Bool.and_eq_true, Option.isSome_iff_exists, Option.isSome_iff_exists] at hscheduled
      obtain ⟨⟨start, hstart⟩, ⟨due, hdue⟩⟩ := hscheduled
      have hn : nodeOf in_ item = some ⟨⟨midnight start, midnight due⟩, item.label.issue.teamID,
          movable item.label (midnight in_.today) in_.matched, 0⟩ := by
        unfold nodeOf read
        simp only [hplace, hstart, hdue, Bool.false_eq_true, if_false]
      exact ⟨_, nodesOf_row g hitem hn, .inr (by rw [hmovable, hreach]; rfl)⟩
  · rintro ⟨n, hn, hmay⟩
    rcases nodesOf_some hn with ⟨item, hitem, hkey, hnode⟩ | ⟨s, _, rfl⟩
    · rcases nodeOf_some hnode with ⟨hplace, hplaceable, _, _, hours, hhours, hpos, _⟩ |
          ⟨hplace, hdays, hmovable, start, due, hstart, hdue, _⟩
      · refine ⟨⟨item, hitem, hkey, ?_⟩, ?_⟩
        · rw [if_pos (by rw [hplace, hplaceable]; rfl)]
          exact ⟨hours, hhours, hpos⟩
        · rw [reach_iff]
          exact .inl (by_contra fun h => hpair ⟨hplace, h⟩)
      · rw [hdays, hmovable, Bool.and_eq_true] at hmay
        obtain ⟨hm, hreach⟩ := hmay.resolve_left (Nat.lt_irrefl 0)
        refine ⟨⟨item, hitem, hkey, ?_⟩, hreach⟩
        rw [if_neg (by rw [hplace]; exact Bool.false_ne_true)]
        exact ⟨by unfold Row.scheduled; rw [hstart, hdue]; rfl, hm⟩
    · rcases hmay with h | h
      · exact absurd h (Nat.lt_irrefl 0)
      · cases h

/-! ## After its blockers -/

theorem blockers_ne (g : Given items in_) (key : Text) : ∀ b ∈ Kahn.before (edgesOf items in_) key, b ≠ [] := by
  rintro b hb rfl
  have hmem := (mem_edgesOf.1 (Kahn.mem_before.1 hb)).2.1
  obtain ⟨n, hn⟩ := Option.isSome_iff_exists.1 (AList.lookup_isSome.2 hmem)
  rcases nodesOf_some hn with ⟨item, hitem, hkey, _⟩ | ⟨s, hs, _⟩
  · exact g.keys_ne item hitem hkey
  · exact g.outside_ne (AList.lookup_isSome.1 (by rw [hs]; rfl))

theorem movable_derived {r : Row} {today : Int} {matched : Option (List Text)} (h : movable r today matched = true) :
    r.derived = false := by
  unfold movable at h
  cases hd : r.derived with
  | false => rfl
  | true =>
    rw [hd] at h
    cases h

theorem start_pos (g : Given items in_) (hn : (nodesOf items in_).lookup key = some n)
    (hdays : ¬ 0 < n.days) (hmovable : n.movable = true) : 0 < n.span.start := by
  rcases nodesOf_some hn with ⟨item, hitem, _, hnode⟩ | ⟨s, _, rfl⟩
  · rcases nodeOf_some hnode with ⟨_, _, _, _, hours, _, hpos, hd⟩ | ⟨_, _, hm, start, due, hstart, _, hspan⟩
    · have := daysOf_pos hpos
      omega
    · rw [hspan]
      exact g.starts item hitem (movable_derived (hm ▸ hmovable)) start hstart
  · cases hmovable

theorem turn_after (g : Given items in_) (hn : (nodesOf items in_).lookup key = some n)
    (hmay : 0 < n.days ∨ (n.movable && reach items in_ key) = true) (spans : Text → Span) :
    (latestOf spans (Kahn.before (edgesOf items in_) key)).1 <
      (turn items in_ key n.span spans).1.start := by
  have l := latestOf_spec spans (blockers_ne g key)
  have hday := Go.day_pos
  have htoday := g.today
  unfold turn alignKey
  rw [hn]
  dsimp only
  split
  · -- a placed key starts today at the earliest
    dsimp only
    split
    · rename_i hfrom
      have := place_start in_.work n.team ((latestOf spans (Kahn.before (edgesOf items in_) key)).1 + day) n.days ⟨0, 0⟩
      omega
    · rename_i hfrom
      have := place_start in_.work n.team (midnight in_.today) n.days ⟨0, 0⟩
      by_cases hafter : (latestOf spans (Kahn.before (edgesOf items in_) key)).2 = []
      · have := l.none hafter
        omega
      · have : ¬ midnight in_.today < (latestOf spans (Kahn.before (edgesOf items in_) key)).1 + day := fun h =>
          hfrom ⟨hafter, h⟩
        omega
  · rename_i hdays
    have hmovable := hmay.resolve_left hdays
    split
    · have := place_start in_.work n.team ((latestOf spans (Kahn.before (edgesOf items in_) key)).1 + day)
        (in_.work.workingDays n.team n.span) n.span
      dsimp only
      omega
    · rename_i hstay
      by_cases hafter : (latestOf spans (Kahn.before (edgesOf items in_) key)).2 = []
      · rw [Bool.and_eq_true] at hmovable
        have := l.none hafter
        have := start_pos g hn hdays hmovable.1
        dsimp only
        omega
      · exact Int.not_le.1 fun h => hstay ⟨hmovable, hafter, h⟩

theorem last_after (g : Given items in_) (h : Kahn.Acyclic (edgesOf items in_)) {u v : Text}
    (he : (u, v) ∈ edgesOf items in_) (hn : (nodesOf items in_).lookup v = some n) (hmay : 0 < n.days ∨ (n.movable && reach items in_ v) = true) :
    ((settled items in_).1 u).due < ((settled items in_).1 v).start := by
  have hlatest := (latestOf_spec (settled items in_).1 (blockers_ne g v)).le u (Kahn.mem_before.2 he)
  have hafter := turn_after g hn hmay (settled items in_).1
  rw [last_eq (visits_complete h (mem_edgesOf.1 he).2.2), spansOf_eq hn]
  exact Int.lt_of_le_of_lt hlatest hafter

/-- **The auto plan puts everything it may move after its blockers**, moves nothing else, and leaves alone what already
starts after them. -/
theorem align_after_blockers (items : List Item) (in_ : AlignInput) (g : Given items in_)
    (hpair : ¬ (in_.place = true ∧ in_.downstream ≠ [])) (h : Kahn.Acyclic (edgesOf items in_)) :
    (∀ c ∈ constraints items in_.blockers, MayMove items in_ c.blockedKey → ∀ s t,
      finalSpan items in_ c.blockerKey = some s → finalSpan items in_ c.blockedKey = some t → s.due < t.start) ∧
    (∀ m ∈ (align items in_).moves, MayMove items in_ m.issueKey) ∧
    ∀ key s, current items in_ key = some s →
      (∀ c ∈ constraints items in_.blockers, c.blockedKey = key → ∀ t, finalSpan items in_ c.blockerKey = some t →
        t.due < s.start) → ∀ m ∈ (align items in_).moves, m.issueKey ≠ key := by
  have hnode : ∀ {key s}, finalSpan items in_ key = some s → key ∈ nodesOf items in_ ∧ (settled items in_).1 key = s := by
    intro key s hs
    rw [finalSpan_eq h] at hs
    split at hs
    · exact ⟨‹_›, Option.some.inj hs⟩
    · cases hs
  refine ⟨?_, ?_, ?_⟩
  · intro c hc hmay s t hs ht
    obtain ⟨hu, rfl⟩ := hnode hs
    obtain ⟨hv, rfl⟩ := hnode ht
    obtain ⟨n, hn, hmay⟩ := (mayMove_iff g hpair c.blockedKey).1 hmay
    have hedge : (c.blockerKey, c.blockedKey) ∈ edgesOf items in_ := mem_edgesOf.2 ⟨⟨c, hc, rfl, rfl⟩, hu, hv⟩
    exact last_after g h hedge hn hmay
  · intro m hm
    rw [mayMove_iff g hpair]
    have hturn := (mem_moves.1 hm).2
    unfold turn alignKey at hturn
    cases hn : (nodesOf items in_).lookup m.issueKey with
    | none =>
      rw [hn] at hturn
      cases hturn
    | some n =>
      rw [hn] at hturn
      refine ⟨n, rfl, ?_⟩
      dsimp only at hturn
      split at hturn
      · exact .inl ‹_›
      · split at hturn
        · rename_i hpush
          exact .inr hpush.1
        · cases hturn
  · rintro key s hs hafter m hm rfl
    have hturn := (mem_moves.1 hm).2
    unfold current at hs
    obtain ⟨n, hn, hspan⟩ := Option.bind_eq_some_iff.1 hs
    split at hspan
    · cases hspan
    · rename_i hdays
      cases hspan
      have l := latestOf_spec (settled items in_).1 (blockers_ne g m.issueKey)
      unfold turn alignKey at hturn
      rw [hn, spansOf_eq hn] at hturn
      dsimp only at hturn
      rw [if_neg hdays] at hturn
      split at hturn
      · rename_i hpush
        obtain ⟨hmem, hdue⟩ := l.some hpush.2.1
        obtain ⟨⟨c, hc, hcu, hcv⟩, hu, _⟩ := mem_edgesOf.1 (Kahn.mem_before.1 hmem)
        have hfinal := finalSpan_eq h (latestOf (settled items in_).1 (Kahn.before (edgesOf items in_) m.issueKey)).2
        rw [if_pos hu, ← hcu] at hfinal
        have := hafter c hc hcv _ hfinal
        rw [hcu, hdue] at this
        exact absurd hpush.2.2 (Int.not_le.2 this)
      · cases hturn

def linked (links : List (String × String)) : AlignInput where
  blockers := links.map (fun l => ⟨l.1.toList, l.2.toList⟩)
  work := .zero
  today := 739889 * day
  matched := none
  outside := ∅
  place := false
  downstream := []

def task (key : String) (start due : Int) : Issue :=
  ⟨0, key.toList, .todo, none, none, none, none, some (start * day), some (due * day), none, none, none⟩

def pair : List Item := fromTree [.node (task "PR-1" 739921 739925) [], .node (task "PR-2" 739923 739924) []]

theorem align_after_blockers_pair : ∃ s t, finalSpan pair (linked [("PR-1", "PR-2")]) "PR-1".toList = some s ∧
    finalSpan pair (linked [("PR-1", "PR-2")]) "PR-2".toList = some t ∧ s.due < t.start := by
  have g : Given pair (linked [("PR-1", "PR-2")]) :=
    ⟨by decide +kernel, by decide +kernel, by decide +kernel, by decide +kernel, by decide +kernel⟩
  have hedges : edgesOf pair (linked [("PR-1", "PR-2")]) = [("PR-1".toList, "PR-2".toList)] := by decide +kernel
  have hacyclic : Kahn.Acyclic (edgesOf pair (linked [("PR-1", "PR-2")])) := by
    rw [hedges]
    exact Kahn.acyclic_of_rank (fun k => if k = "PR-1".toList then 0 else 1) (by decide)
  have hs : finalSpan pair (linked [("PR-1", "PR-2")]) "PR-1".toList = some ⟨739921 * day, 739925 * day⟩ := by decide +kernel
  have ht : finalSpan pair (linked [("PR-1", "PR-2")]) "PR-2".toList = some ⟨739928 * day, 739929 * day⟩ := by decide +kernel
  have hmay : MayMove pair (linked [("PR-1", "PR-2")]) "PR-2".toList := by
    refine ⟨⟨.node (itemOf (task "PR-2" 739923 739924)) [], ?_, rfl, ?_⟩, .inl rfl⟩
    · exact .tail _ (.head _)
    · exact ⟨rfl, by decide +kernel⟩
  have hmem : (⟨"PR-1".toList, "PR-2".toList, ⟨"PR-1".toList, "PR-2".toList⟩⟩ : Constraint) ∈
      constraints pair [⟨"PR-1".toList, "PR-2".toList⟩] := by decide +kernel
  exact ⟨_, _, hs, ht, (align_after_blockers pair (linked [("PR-1", "PR-2")]) g nofun hacyclic).1 _ hmem hmay _ _ hs ht⟩

end Plan
end Armature
