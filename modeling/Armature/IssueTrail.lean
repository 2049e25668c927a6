import Armature.IssueStore
/-!
# IssueTrail — the changelog of sprint, team and status (`issue/update.go`, `issue/sprint.go`, `sprint/lifecycle.go`)

Every operation but one records what it does to these three fields, under the names they had and have.  Deleting a sprint
that has not run sends its work back to the backlog and records nothing.
-/
namespace Armature
namespace Issues

open List
open Wf (Uuid Status)

/-! ## What the tables keep -/

structure Kept (S : Statuses) (db : Db) : Prop where
  ids : (db.issues.map Issue.id).Nodup
  status : ∀ i ∈ db.issues, i.status ∈ S.rows
  sprintIDs : (db.sprints.map fun s => s.ref.id).Nodup
  sprint : ∀ i ∈ db.issues, ∀ r ∈ i.sprint, ∃ s ∈ db.sprints, s.ref = r
  history : ∀ h ∈ db.history, h.issueID ∈ db.issues.map Issue.id

def Bare (db : Db) : Prop := ∀ i ∈ db.issues, i.answers = []

structure Fits (db : Db) (o : Outcome) : Prop where
  before : ∀ e ∈ o.edits, e.before ∈ db.issues
  id : ∀ e ∈ o.edits, e.after.id = e.before.id
  ids : (o.edits.map fun e => e.before.id).Nodup
  fresh : ∀ m ∈ o.made, m.1.id ∉ db.issues.map Issue.id

section
variable {S : Statuses} {setup : Setup S} {db : Db} {now : Int}

theorem Kept.same (k : Kept S db) {i j : Issue} (hi : i ∈ db.issues) (hj : j ∈ db.issues) (h : i.id = j.id) : i = j :=
  inj_on_of_nodup_map k.ids hi hj h

theorem Kept.sameSprint (k : Kept S db) {i : Issue} (hi : i ∈ db.issues) {s : Sprint} (hs : s ∈ db.sprints) {r : Ref}
    (hr : i.sprint = some r) (h : s.ref.id = r.id) : s.ref = r := by
  obtain ⟨s', hs', rfl⟩ := k.sprint i hi r hr
  rw [inj_on_of_nodup_map k.sprintIDs hs hs' h]

/-! ## What is under an issue -/

inductive Depth (db : Db) (root : Uuid) : Nat → Uuid → Prop where
  | root : Depth db root 0 root
  | child {n p i} : Depth db root n p → i ∈ db.issues → i.parentID = some p → Depth db root (n + 1) i.id

variable {root : Issue}

theorem Depth.unique (k : Kept S db) (hroot : root ∈ db.issues) (hparent : root.parentID = none) {m : Nat}
    {x : Uuid} (h : Depth db root.id m x) : ∀ {n : Nat}, Depth db root.id n x → m = n := by
  have hnone : ∀ i ∈ db.issues, i.id = root.id → i.parentID ≠ none → False := fun i hi hid hne =>
    hne (k.same hi hroot hid ▸ hparent)
  induction h with
  | root =>
    intro n hn
    generalize hx : root.id = x at hn
    cases hn with
    | root => rfl
    | @child n p i _ hi hp => exact absurd (hp.symm ▸ Option.some_ne_none p) fun hne => hnone i hi hx.symm hne
  | @child m p i _ hi hp ih =>
    intro n hn
    generalize hx : i.id = x at hn
    cases hn with
    | root => exact absurd (hp.symm ▸ Option.some_ne_none p) fun hne => hnone i hi hx hne
    | @child n' p' j hdepth hj hp' =>
      obtain rfl := k.same hi hj hx
      obtain rfl := Option.some.inj (hp.symm.trans hp')
      rw [ih hdepth]

theorem mem_childrenOf {ids : List Uuid} {i : Issue} : i ∈ childrenOf db ids ↔ i ∈ db.issues ∧ ∃ p ∈ ids, i.parentID = some p := by
  unfold childrenOf
  rw [mem_insertionSort, mem_filter, Option.any_eq_true]
  constructor
  · rintro ⟨hi, p, hp, hids⟩
    exact ⟨hi, p, of_decide_eq_true hids, hp⟩
  · rintro ⟨hi, p, hids, hp⟩
    exact ⟨hi, p, hp, decide_eq_true hids⟩

theorem subtreeFrom_spec (k : Kept S db) {root : Issue} (hroot : root ∈ db.issues) (hparent : root.parentID = none) :
    ∀ (n m : Nat) (ids : List Uuid), (∀ x ∈ ids, Depth db root.id m x) →
      ((subtreeFrom db n ids).map Issue.id).Nodup ∧
        ∀ i ∈ subtreeFrom db n ids, i ∈ db.issues ∧ ∃ d, m < d ∧ Depth db root.id d i.id
  | 0, _, _, _ => ⟨nodup_nil, fun _ h => absurd h not_mem_nil⟩
  | n + 1, m, ids, hids => by
    have hchild : ∀ i ∈ childrenOf db ids, i ∈ db.issues ∧ Depth db root.id (m + 1) i.id := by
      intro i hi
      obtain ⟨hmem, p, hp, hparent⟩ := mem_childrenOf.1 hi
      exact ⟨hmem, .child (hids p hp) hmem hparent⟩
    obtain ⟨hnodup, hbelow⟩ := subtreeFrom_spec k hroot hparent n (m + 1) ((childrenOf db ids).map Issue.id)
      (forall_mem_map.2 fun i hi => (hchild i hi).2)
    have hlevel : ((childrenOf db ids).map Issue.id).Nodup :=
      (((perm_insertionSort _ _).map Issue.id).nodup_iff).2 (k.ids.sublist (filter_sublist.map _))
    rw [subtreeFrom, map_append]
    refine ⟨nodup_append.2 ⟨hlevel, hnodup, ?_⟩, fun i hi => ?_⟩
    · intro x hx y hy hxy
      obtain ⟨i, hi, rfl⟩ := mem_map.1 hx
      obtain ⟨j, hj, rfl⟩ := mem_map.1 hy
      obtain ⟨_, d, hd, hdepth⟩ := hbelow j hj
      have := Depth.unique k hroot hparent (hchild i hi).2 (hxy ▸ hdepth)
      omega
    · rcases mem_append.1 hi with hi | hi
      · exact ⟨(hchild i hi).1, m + 1, Nat.lt_succ_self m, (hchild i hi).2⟩
      · obtain ⟨hmem, d, hd, hdepth⟩ := hbelow i hi
        exact ⟨hmem, d, by omega, hdepth⟩

theorem subtreeOf_spec (k : Kept S db) (hroot : root ∈ db.issues) (hparent : root.parentID = none) :
    ((root :: subtreeOf db root.id).map Issue.id).Nodup ∧ ∀ i ∈ root :: subtreeOf db root.id, i ∈ db.issues := by
  obtain ⟨hnodup, hbelow⟩ := subtreeFrom_spec k hroot hparent db.issues.length 0 [root.id]
    (fun x hx => mem_singleton.1 hx ▸ .root)
  refine ⟨nodup_cons.2 ⟨fun hin => ?_, hnodup⟩, fun i hi => ?_⟩
  · obtain ⟨i, hi, hid⟩ := mem_map.1 hin
    obtain ⟨_, d, hd, hdepth⟩ := hbelow i hi
    have := Depth.unique k hroot hparent .root (hid ▸ hdepth)
    omega
  · rcases mem_cons.1 hi with rfl | hi
    · exact hroot
    · exact (hbelow i hi).1

/-! ## What became of a row -/

theorem rewritten_cases (k : Kept S db) {o : Outcome} (f : Fits db o) {i : Issue} (hi : i ∈ db.issues) :
    (∃ e ∈ o.edits, e.before = i ∧ rewritten o.edits i = e.after) ∨
      (∀ e ∈ o.edits, e.before.id ≠ i.id) ∧ rewritten o.edits i = i := by
  unfold rewritten
  cases hfind : o.edits.find? fun e => e.before.id = i.id with
  | none => exact .inr ⟨fun e he hid => List.find?_eq_none.1 hfind e he (decide_eq_true hid), rfl⟩
  | some e =>
    have he := mem_of_find?_eq_some hfind
    have hid := List.find?_some hfind
    exact .inl ⟨e, he, k.same (f.before e he) hi (of_decide_eq_true hid), rfl⟩

theorem rewritten_id (k : Kept S db) {o : Outcome} (f : Fits db o) {i : Issue} (hi : i ∈ db.issues) :
    (rewritten o.edits i).id = i.id := by
  rcases rewritten_cases k f hi with ⟨e, he, rfl, hafter⟩ | ⟨_, hsame⟩
  · rw [hafter, f.id e he]
  · rw [hsame]

theorem mem_after {o : Outcome} {j : Issue} : j ∈ (db.after now o).issues ↔
    (∃ i ∈ db.issues, rewritten o.edits i = j) ∨ ∃ cs, o.made = some (j, cs) := by
  unfold Db.after
  rw [mem_append, mem_map, Option.mem_toList]
  refine or_congr Iff.rfl ?_
  cases o.made with
  | none => simp
  | some m =>
    obtain ⟨row, cs⟩ := m
    constructor
    · intro h
      cases h
      exact ⟨cs, rfl⟩
    · rintro ⟨_, h⟩
      cases h
      rfl

/-! ## What the changelog holds of an issue -/

def changesOf (history : List Entry) (id : Uuid) : List (Int × Change) :=
  history.flatMap fun h => if h.issueID = id then h.changes.map fun c => (h.createdAt, c) else []

theorem changesOf_append (h₁ h₂ : List Entry) (id : Uuid) : changesOf (h₁ ++ h₂) id = changesOf h₁ id ++ changesOf h₂ id :=
  flatMap_append

theorem changesOf_record (now : Int) (id' id : Uuid) (changes : List Change) :
    changesOf (record now id' changes) id = if id' = id then changes.map fun c => (now, c) else [] := by
  unfold record changesOf
  split
  · rename_i hnone
    simp [hnone]
  · simp

theorem changesOf_other {history : List Entry} {id : Uuid} (h : ∀ e ∈ history, e.issueID ≠ id) : changesOf history id = [] :=
  flatMap_eq_nil_iff.2 fun e he => if_neg (h e he)

theorem changesOf_edits (now : Int) (id : Uuid) : ∀ (edits : List Edit),
    (∀ e ∈ edits, e.before.id ≠ id) → changesOf (edits.flatMap fun e => record now e.before.id e.changes) id = []
  | [], _ => rfl
  | e :: edits, h => by
    rw [flatMap_cons, changesOf_append, changesOf_record, if_neg (h e mem_cons_self),
      changesOf_edits now id edits fun e' he' => h e' (mem_cons_of_mem _ he')]
    rfl

theorem changesOf_edit (now : Int) {edits : List Edit} (hnodup : (edits.map fun e => e.before.id).Nodup) {e : Edit}
    (he : e ∈ edits) : changesOf (edits.flatMap fun e => record now e.before.id e.changes) e.before.id =
      e.changes.map fun c => (now, c) := by
  obtain ⟨before, after, rfl⟩ := append_of_mem he
  rw [map_append, map_cons] at hnodup
  obtain ⟨_, hcons, hdisjoint⟩ := nodup_append.1 hnodup
  have hbefore := changesOf_edits now e.before.id before fun e' he' hid =>
    hdisjoint _ (mem_map_of_mem he') _ mem_cons_self hid
  have hafter := changesOf_edits now e.before.id after fun e' he' hid => by
    have hmem : e'.before.id ∈ after.map fun e => e.before.id := mem_map_of_mem he'
    exact (nodup_cons.1 hcons).1 (hid ▸ hmem)
  rw [flatMap_append, flatMap_cons, changesOf_append, changesOf_append, hbefore, hafter, changesOf_record,
    if_pos rfl, nil_append, append_nil]

theorem changesOf_after (k : Kept S db) {o : Outcome} (f : Fits db o) {i : Issue} (hi : i ∈ db.issues) :
    (∃ e ∈ o.edits, e.before = i ∧ rewritten o.edits i = e.after ∧ changesOf (db.after now o).history i.id =
      changesOf db.history i.id ++ e.changes.map fun c => (now, c)) ∨
    rewritten o.edits i = i ∧ changesOf (db.after now o).history i.id = changesOf db.history i.id := by
  have hmade : changesOf ((o.made.map fun m => record now m.1.id m.2).getD []) i.id = [] := by
    cases hm : o.made with
    | none => rfl
    | some m =>
      have hne : m.1.id ≠ i.id := fun hid => f.fresh m hm (hid ▸ mem_map_of_mem hi)
      exact (changesOf_record now m.1.id i.id m.2).trans (if_neg hne)
  unfold Db.after
  dsimp only
  rw [changesOf_append, changesOf_append, hmade, append_nil]
  rcases rewritten_cases k f hi with ⟨e, he, rfl, hafter⟩ | ⟨hnone, hsame⟩
  · exact .inl ⟨e, he, rfl, hafter, by rw [changesOf_edit now f.ids he]⟩
  · exact .inr ⟨hsame, by rw [changesOf_edits now _ _ hnone, append_nil]⟩

theorem changesOf_made (k : Kept S db) {o : Outcome} (f : Fits db o) {row : Issue} {cs : List Change} (hm : o.made = some (row, cs)) :
    changesOf (db.after now o).history row.id = cs.map fun c => (now, c) := by
  have hfresh := f.fresh _ hm
  have hold : changesOf db.history row.id = [] := changesOf_other fun h hh hid => hfresh (hid ▸ k.history h hh)
  have hedits := changesOf_edits now row.id o.edits fun e he hid =>
    hfresh (hid ▸ mem_map_of_mem (f.before e he))
  unfold Db.after
  dsimp only
  rw [changesOf_append, changesOf_append, hold, hedits, hm]
  exact (changesOf_record now row.id row.id cs).trans (if_pos rfl)

/-! ## What every transaction leaves kept -/

structure Sound (S : Statuses) (db : Db) (o : Outcome) : Prop extends Fits db o where
  status : ∀ e ∈ o.edits, e.after.status ∈ S.rows
  answers : ∀ e ∈ o.edits, e.after.answers = e.before.answers ∨ e.after.answers = []
  made : ∀ m ∈ o.made, m.1.status ∈ S.rows ∧ m.1.answers = [] ∧ ∀ r ∈ m.1.sprint, ∃ s ∈ o.sprints, s.ref = r
  sprintIDs : (o.sprints.map fun s => s.ref.id).Nodup
  sprint : ∀ i ∈ db.issues, ∀ r ∈ (rewritten o.edits i).sprint, ∃ s ∈ o.sprints, s.ref = r

theorem Sound.kept (k : Kept S db) {o : Outcome} (h : Sound S db o) : Kept S (db.after now o) := by
  have f := h.toFits
  have hrows : ∀ j ∈ (db.after now o).issues, j.status ∈ S.rows ∧ ∀ r ∈ j.sprint, ∃ s ∈ o.sprints, s.ref = r := by
    intro j hj
    rcases mem_after.1 hj with ⟨i, hi, rfl⟩ | ⟨cs, hm⟩
    · refine ⟨?_, h.sprint i hi⟩
      rcases rewritten_cases k f hi with ⟨e, he, _, hafter⟩ | ⟨_, hsame⟩
      · exact hafter ▸ h.status e he
      · exact hsame.symm ▸ k.status i hi
    · exact ⟨(h.made _ hm).1, (h.made _ hm).2.2⟩
  have hids : (db.issues.map (rewritten o.edits)).map Issue.id = db.issues.map Issue.id := by
    rw [map_map]
    exact map_congr_left fun i hi => rewritten_id k f hi
  refine ⟨?_, fun j hj => (hrows j hj).1, h.sprintIDs, fun j hj => (hrows j hj).2, ?_⟩
  · unfold Db.after
    rw [map_append, hids]
    cases hm : o.made with
    | none => exact (append_nil _).symm ▸ k.ids
    | some m =>
      refine nodup_append.2 ⟨k.ids, nodup_singleton _, ?_⟩
      intro x hx y hy hxy
      rw [mem_singleton.1 hy] at hxy
      exact f.fresh m hm (hxy ▸ hx)
  · intro e he
    have hid : e.issueID ∈ db.issues.map Issue.id ∨ ∃ m ∈ o.made, e.issueID = m.1.id := by
      rcases mem_append.1 he with he | he
      · rcases mem_append.1 he with he | he
        · exact .inl (k.history e he)
        · obtain ⟨edit, hedit, he⟩ := mem_flatMap.1 he
          unfold record at he
          split at he
          · cases he
          · rw [mem_singleton.1 he]
            exact .inl (mem_map_of_mem (f.before edit hedit))
      · cases hm : o.made with
        | none =>
          rw [hm] at he
          cases he
        | some m =>
          rw [hm] at he
          change e ∈ record now m.1.id m.2 at he
          unfold record at he
          split at he
          · cases he
          · exact .inr ⟨m, rfl, by rw [mem_singleton.1 he]⟩
    unfold Db.after
    rw [map_append, hids]
    rcases hid with hid | ⟨m, hm, hid⟩
    · exact mem_append_left _ hid
    · rw [Option.mem_def.1 hm, hid]
      exact mem_append_right _ (mem_singleton_self _)

theorem Sound.bare (k : Kept S db) (b : Bare db) {o : Outcome} (h : Sound S db o) : Bare (db.after now o) := by
  intro j hj
  rcases mem_after.1 hj with ⟨i, hi, rfl⟩ | ⟨cs, hm⟩
  · rcases rewritten_cases k h.toFits hi with ⟨e, he, rfl, hafter⟩ | ⟨_, hsame⟩
    · rw [hafter]
      exact (h.answers e he).elim (fun hsame => hsame.trans (b _ hi)) id
    · rw [hsame]
      exact b i hi
  · exact (h.made _ hm).2.1

theorem sound_of (k : Kept S db) {o : Outcome} (f : Fits db o) (hmade : o.made = none)
    (hedits : ∀ e ∈ o.edits, e.after.status ∈ S.rows ∧ (e.after.answers = e.before.answers ∨ e.after.answers = []) ∧
      ∀ r ∈ e.after.sprint, ∃ s ∈ db.sprints, s.ref = r)
    (hids : (o.sprints.map fun s => s.ref.id).Nodup) (hrefs : ∀ s ∈ db.sprints, ∃ s' ∈ o.sprints, s'.ref = s.ref) :
    Sound S db o where
  toFits := f
  status e he := (hedits e he).1
  answers e he := (hedits e he).2.1
  made m hm := by
    rw [hmade] at hm
    cases hm
  sprintIDs := hids
  sprint i hi r hr := by
    have hdb : ∃ s ∈ db.sprints, s.ref = r := by
      rcases rewritten_cases k f hi with ⟨e, he, _, hafter⟩ | ⟨_, hsame⟩
      · exact (hedits e he).2.2 r (hafter ▸ hr)
      · exact k.sprint i hi r (hsame ▸ hr)
    obtain ⟨s, hs, rfl⟩ := hdb
    exact hrefs s hs

theorem sound_one (k : Kept S db) {e : Edit} (hbefore : e.before ∈ db.issues) (hid : e.after.id = e.before.id)
    (hstatus : e.after.status = e.before.status ∨ e.after.status ∈ S.rows) (hanswers : e.after.answers = e.before.answers)
    (hsprint : e.after.sprint = e.before.sprint ∨ ∀ r ∈ e.after.sprint, ∃ s ∈ db.sprints, s.ref = r) :
    Sound S db (rewrites db [e]) := by
  have hall : ∀ {P : Edit → Prop}, P e → ∀ e' ∈ (rewrites db [e]).edits, P e' := fun hp e' he' => mem_singleton.1 he' ▸ hp
  refine sound_of k ⟨hall hbefore, hall hid, nodup_singleton _, fun m hm => by cases hm⟩ rfl
    (hall ⟨?_, .inl hanswers, ?_⟩) k.sprintIDs fun s hs => ⟨s, hs, rfl⟩
  · rcases hstatus with h | h
    · rw [h]
      exact k.status _ hbefore
    · exact h
  · rcases hsprint with h | h
    · rw [h]
      exact k.sprint _ hbefore
    · exact h

theorem create_cases {id : Uuid} {input : CreateInput} {actor : Uuid} {m : Issue × List Change}
    (h : create setup db now id input actor = .ok m) : m.1.id = id ∧ m.1.createdAt = now ∧ m.1.status ∈ S.rows ∧ m.1.answers = [] ∧
      (∀ r ∈ m.1.sprint, ∃ s ∈ db.sprints, s.ref = r) ∧ ∀ c ∈ m.2, c.field = "created" ∨ c.field = "assignee" := by
  obtain ⟨p, _, h⟩ := Go.bind_ok.1 h
  obtain ⟨t, _, h⟩ := Go.bind_ok.1 h
  obtain ⟨parentID, _, h⟩ := Go.bind_ok.1 h
  obtain ⟨w, hw, h⟩ := Go.bind_ok.1 h
  obtain ⟨initial, hinitial, h⟩ := Go.bind_ok.1 h
  obtain ⟨sprint, hsprint, h⟩ := Go.bind_ok.1 h
  cases h
  refine ⟨rfl, rfl, forIssueType_steps hw _ (initialStep_mem hinitial), rfl, sprintFor_mem hsprint, fun c hc => ?_⟩
  rcases mem_append.1 hc with hc | hc
  · exact .inl (by rw [mem_singleton.1 hc])
  · split at hc
    · obtain ⟨a, _, rfl⟩ := Option.map_eq_some_iff.1 (Option.mem_toList.1 hc)
      exact .inr rfl
    · cases hc

theorem moved_rows (status : Status) {statuses : Option (List (Uuid × Uuid))} {rows : List (Issue × Status)}
    (hrows : List.Forall₂ (fun d r => r.1 = d ∧ r.2 ∈ S.rows ∧ r.2.id = mappedStatus statuses d.status.id)
      (subtreeOf db root.id) rows) : ((root, status) :: rows).map Prod.fst = root :: subtreeOf db root.id := by
  have hfst : ∀ {ds : List Issue} {rs : List (Issue × Status)},
      List.Forall₂ (fun d r => r.1 = d ∧ r.2 ∈ S.rows ∧ r.2.id = mappedStatus statuses d.status.id) ds rs →
        rs.map Prod.fst = ds := by
    intro ds rs h
    induction h with
    | nil => rfl
    | cons h _ ih => rw [map_cons, h.1, ih]
  rw [map_cons, hfst hrows]

theorem forall₂_right {α β : Type} {R : α → β → Prop} {as : List α} {bs : List β} (h : List.Forall₂ R as bs) {b : β}
    (hb : b ∈ bs) : ∃ a ∈ as, R a b := by
  induction h with
  | nil => cases hb
  | cons hr _ ih =>
    rcases mem_cons.1 hb with rfl | hb
    · exact ⟨_, mem_cons_self, hr⟩
    · obtain ⟨a, ha, hr⟩ := ih hb
      exact ⟨a, mem_cons_of_mem _ ha, hr⟩

theorem move_edits {key : Key} {input : MoveInput} {moved : Project × List Edit} (k : Kept S db)
    (h : moveIn setup db key input = .ok moved) : ∃ root ∈ db.issues, atKey db key = .ok root ∧
      (moved.2.map fun e => e.before.id).Nodup ∧ ∀ e ∈ moved.2, e.before ∈ db.issues ∧ e.before ∈ root :: subtreeOf db root.id ∧
        ∃ num, ∃ s ∈ S.rows, s.id = wanted input root e.before ∧ e = moveRow moved.1 num (e.before, s) := by
  obtain ⟨root, hroot, hat, hparent, status, hstatus, hid, rows, hrows, seq, hmoved⟩ := moveIn_cases h
  obtain ⟨hnodup, hmem⟩ := subtreeOf_spec k hroot hparent
  have hfst := moved_rows status hrows
  refine ⟨root, hroot, hat, ?_, fun e he => ?_⟩
  · have hids : ((root, status) :: rows).map (fun r => r.1.id) = (root :: subtreeOf db root.id).map Issue.id := by
      rw [← hfst, map_map]
      rfl
    rw [hmoved, moveRows_ids, hids]
    exact hnodup
  · obtain ⟨num, r, hr, rfl⟩ := mem_moveRows (hmoved ▸ he)
    have hbefore : r.1 ∈ root :: subtreeOf db root.id := by
      rw [← hfst]
      exact mem_map_of_mem hr
    refine ⟨hmem _ hbefore, hbefore, num, r.2, ?_⟩
    rcases mem_cons.1 hr with rfl | hr
    · exact ⟨hstatus, hid.trans (if_pos rfl).symm, rfl⟩
    · obtain ⟨d, hd, rfl, hs, hsid⟩ := forall₂_right hrows hr
      have hunder : r.1.id ∈ (subtreeOf db root.id).map Issue.id := mem_map_of_mem hd
      have hne : r.1.id ≠ root.id := by
        intro hroot
        rw [hroot] at hunder
        exact (nodup_cons.1 hnodup).1 hunder
      exact ⟨hs, hsid.trans (if_neg hne).symm, rfl⟩

theorem setState_refs (db : Db) (id : Uuid) (state : SprintState) :
    (setState db id state).map (fun s => s.ref) = db.sprints.map fun s => s.ref := by
  unfold setState
  rw [map_map]
  refine map_congr_left fun s _ => ?_
  dsimp only [Function.comp]
  split <;> rfl

theorem setState_kept (k : Kept S db) (id : Uuid) (state : SprintState) :
    ((setState db id state).map fun s => s.ref.id).Nodup ∧ ∀ s ∈ db.sprints, ∃ s' ∈ setState db id state, s'.ref = s.ref := by
  have hrefs := setState_refs db id state
  constructor
  · have hids : (setState db id state).map (fun s => s.ref.id) = db.sprints.map fun s => s.ref.id := by
      have := congrArg (List.map Ref.id) hrefs
      rwa [map_map, map_map] at this
    rw [hids]
    exact k.sprintIDs
  · intro s hs
    have hmem : s.ref ∈ (setState db id state).map fun s => s.ref := by
      rw [hrefs]
      exact mem_map_of_mem hs
    exact mem_map.1 hmem

theorem resolveDestination_mem {from_ : Sprint} {moveTo : Option Uuid} {to_ : Option Sprint}
    (h : resolveDestination db from_ moveTo = .ok to_) : ∀ s ∈ to_, s ∈ db.sprints := by
  unfold resolveDestination at h
  split at h
  · cases h
    exact fun s hs => by cases hs
  · split at h
    · cases h
    · obtain ⟨d, hd, h⟩ := Go.bind_ok.1 h
      split at h
      · cases h
      · split at h
        · cases h
        · split at h
          · cases h
          · cases h
            intro s hs
            cases hs
            exact (sprintAt_mem hd).1

theorem filtered_fits (k : Kept S db) (p : Issue → Bool) (g : Issue → Edit) (hg : ∀ i, (g i).before = i ∧ (g i).after.id = i.id)
    (sprints : List Sprint) : Fits db { rewrites db ((db.issues.filter p).map g) with sprints := sprints } where
  before := forall_mem_map.2 fun i hi => (hg i).1.symm ▸ mem_of_mem_filter hi
  id := forall_mem_map.2 fun i _ => (hg i).2.trans (congrArg Issue.id (hg i).1).symm
  ids := by
    have hids : ((db.issues.filter p).map g).map (fun e => e.before.id) = (db.issues.filter p).map Issue.id := by
      rw [map_map]
      exact map_congr_left fun i _ => congrArg Issue.id (hg i).1
    change (((db.issues.filter p).map g).map fun e => e.before.id).Nodup
    rw [hids]
    exact k.ids.sublist (filter_sublist.map _)
  fresh m hm := by cases hm

theorem outcome_sound (k : Kept S db) {c : Call} {o : Outcome} (h : outcome setup db now c = .ok o) : Sound S db o := by
  cases c with
  | create id input actor =>
    obtain ⟨m, hm, h⟩ := Go.bind_ok.1 h
    obtain ⟨hid, _, hstatus, hanswers, hsprint, _⟩ := create_cases hm
    split at h
    · cases h
    · rename_i hnew
      cases h
      have hnone : ∀ e ∈ ([] : List Edit), False := fun _ he => absurd he not_mem_nil
      refine ⟨⟨fun e he => (hnone e he).elim, fun e he => (hnone e he).elim, nodup_nil, fun m' hm' => ?_⟩,
        fun e he => (hnone e he).elim, fun e he => (hnone e he).elim, fun m' hm' => ?_, k.sprintIDs, k.sprint⟩
      · cases hm'
        rw [hid]
        exact hnew
      · cases hm'
        exact ⟨hstatus, hanswers, hsprint⟩
  | transition =>
    obtain ⟨e, he, rfl⟩ := map_ok.1 h
    obtain ⟨hbefore, w, d, assignee, others, hw, hd, hafter, _⟩ := transitionIn_cases he
    obtain ⟨st, hst, hto⟩ := evaluate_step hd
    have hstatus : e.after.status ∈ S.rows := by
      rw [hafter]
      exact hto ▸ forIssueType_steps hw st hst
    exact sound_one k hbefore (by rw [hafter]; rfl) (.inr hstatus) (by rw [hafter]; rfl) (.inl (by rw [hafter]; rfl))
  | updateType =>
    obtain ⟨e, he, rfl⟩ := map_ok.1 h
    obtain ⟨hbefore, hcases⟩ := updateType_cases he
    rcases hcases with ⟨hafter, _⟩ | ⟨t, ⟨hafter, _⟩ | ⟨s, hs, others, hafter, _⟩⟩
    · exact sound_one k hbefore (by rw [hafter]) (.inl (by rw [hafter])) (by rw [hafter]) (.inl (by rw [hafter]))
    · exact sound_one k hbefore (by rw [hafter]) (.inl (by rw [hafter])) (by rw [hafter]) (.inl (by rw [hafter]))
    · exact sound_one k hbefore (by rw [hafter]) (.inr (hafter ▸ hs)) (by rw [hafter]) (.inl (by rw [hafter]))
  | setSprint =>
    obtain ⟨e, he, rfl⟩ := map_ok.1 h
    obtain ⟨hbefore, hcases⟩ := setSprintIn_cases he
    rcases hcases with ⟨hafter, _⟩ | ⟨to_, hto, hafter, _⟩
    · exact sound_one k hbefore (by rw [hafter]) (.inl (by rw [hafter])) (by rw [hafter]) (.inl (by rw [hafter]))
    · exact sound_one k hbefore (by rw [hafter]) (.inl (by rw [hafter])) (by rw [hafter]) (.inr (hafter ▸ hto))
  | setTeam =>
    obtain ⟨e, he, rfl⟩ := map_ok.1 h
    obtain ⟨hbefore, hcases⟩ := setTeamIn_cases he
    rcases hcases with ⟨hafter, _⟩ | ⟨to_, ⟨hafter, _⟩ | ⟨r, s, _, _, _, hafter, _⟩⟩
    · exact sound_one k hbefore (by rw [hafter]) (.inl (by rw [hafter])) (by rw [hafter]) (.inl (by rw [hafter]))
    · exact sound_one k hbefore (by rw [hafter]) (.inl (by rw [hafter])) (by rw [hafter]) (.inl (by rw [hafter]))
    · refine sound_one k hbefore (by rw [hafter]) (.inl (by rw [hafter])) (by rw [hafter]) (.inr ?_)
      rw [hafter]
      exact fun r hr => by cases hr
  | move =>
    obtain ⟨moved, hmoved, h⟩ := Go.bind_ok.1 h
    cases h
    obtain ⟨root, _, _, hids, hedits⟩ := move_edits k hmoved
    refine sound_of k ⟨fun e he => (hedits e he).1, fun e he => ?_, hids, fun m hm => by cases hm⟩ rfl (fun e he => ?_)
      k.sprintIDs fun s hs => ⟨s, hs, rfl⟩
    · obtain ⟨_, _, num, s, _, _, hmove⟩ := hedits e he
      rw [hmove]
      rfl
    · obtain ⟨_, _, num, s, hs, _, hmove⟩ := hedits e he
      rw [hmove]
      exact ⟨hs, .inr rfl, fun r hr => by cases hr⟩
  | plan sprint =>
    obtain ⟨sprints, hsprints, rfl⟩ := map_ok.1 h
    unfold plan at hsprints
    split at hsprints
    · cases hsprints
    · rename_i hnew
      cases hsprints
      have hnone : ∀ e ∈ ([] : List Edit), False := fun _ he => absurd he not_mem_nil
      refine sound_of k ⟨fun e he => (hnone e he).elim, fun e he => (hnone e he).elim, nodup_nil, fun m hm => by cases hm⟩ rfl
        (fun e he => (hnone e he).elim) ?_ fun s hs => ⟨s, mem_append_left _ hs, rfl⟩
      rw [map_append]
      refine nodup_append.2 ⟨k.sprintIDs, nodup_singleton _, ?_⟩
      intro x hx y hy hxy
      rw [hxy, mem_singleton.1 hy] at hx
      exact hnew hx
  | start id =>
    obtain ⟨sprints, hsprints, rfl⟩ := map_ok.1 h
    have hstate : sprints = setState db id .active := by
      obtain ⟨before, _, hsprints⟩ := Go.bind_ok.1 hsprints
      split at hsprints
      · cases hsprints
      · split at hsprints
        · cases hsprints
        · cases hsprints
          rfl
    obtain ⟨hids, hrefs⟩ := setState_kept k id .active
    have hnone : ∀ e ∈ ([] : List Edit), False := fun _ he => absurd he not_mem_nil
    exact sound_of k ⟨fun e he => (hnone e he).elim, fun e he => (hnone e he).elim, nodup_nil, fun m hm => by cases hm⟩ rfl
      (fun e he => (hnone e he).elim) (hstate ▸ hids) (hstate ▸ hrefs)
  | complete id moveTo =>
    obtain ⟨c, hc, rfl⟩ := map_ok.1 h
    obtain ⟨before, _, hc⟩ := Go.bind_ok.1 hc
    split at hc
    · cases hc
    · obtain ⟨destination, hdestination, hc⟩ := Go.bind_ok.1 hc
      cases hc
      obtain ⟨hids, hrefs⟩ := setState_kept k id .closed
      refine sound_of k (filtered_fits k _ _ (fun i => ⟨rfl, rfl⟩) _) rfl (forall_mem_map.2 fun i hi => ?_) hids hrefs
      have hmem := mem_of_mem_filter hi
      refine ⟨k.status i hmem, .inl rfl, fun r hr => ?_⟩
      obtain ⟨s, hs, rfl⟩ := Option.map_eq_some_iff.1 hr
      exact ⟨s, resolveDestination_mem hdestination s hs, rfl⟩
  | delete id =>
    obtain ⟨d, hd, rfl⟩ := map_ok.1 h
    obtain ⟨found, _, hd⟩ := Go.bind_ok.1 hd
    split at hd
    · cases hd
    · cases hd
      have f := filtered_fits k (fun i => decide (i.sprint.map Ref.id = some id)) (fun i => ⟨i, { i with sprint := none }, []⟩)
        (fun i => ⟨rfl, rfl⟩) (db.sprints.filter fun s => decide (s.ref.id ≠ id))
      refine ⟨f, forall_mem_map.2 fun i hi => k.status i (mem_of_mem_filter hi),
        forall_mem_map.2 fun i _ => .inl rfl, (fun m hm => by cases hm),
        k.sprintIDs.sublist (filter_sublist.map _), fun i hi r hr => ?_⟩
      rcases rewritten_cases k f hi with ⟨e, he, _, hafter⟩ | ⟨hnone, hsame⟩
      · obtain ⟨i', _, rfl⟩ := mem_map.1 he
        rw [hafter] at hr
        cases hr
      · have hr : i.sprint = some r := by rw [hsame] at hr; exact hr
        obtain ⟨s, hs, rfl⟩ := k.sprint i hi r hr
        refine ⟨s, mem_filter.2 ⟨hs, decide_eq_true fun hid => ?_⟩, rfl⟩
        have hin : i ∈ db.issues.filter fun i => decide (i.sprint.map Ref.id = some id) :=
          mem_filter.2 ⟨hi, decide_eq_true (by rw [hr, ← hid]; rfl)⟩
        exact hnone _ (mem_map_of_mem hin) rfl

theorem kept_empty : Kept S empty :=
  ⟨nodup_nil, fun _ h => absurd h not_mem_nil, nodup_nil, fun _ h => absurd h not_mem_nil,
    nofun⟩

theorem bare_empty : Bare empty := fun _ h => absurd h not_mem_nil

end

/-! ## The trail of a field -/

inductive Field where
  | sprint | team | status
  deriving DecidableEq

namespace Field

def name : Field → String
  | sprint => "sprint"
  | team => "team"
  | status => "status"

def value : Field → Issue → String
  | sprint, i => nameOf i.sprint
  | team, i => nameOf i.team
  | status, i => i.status.name

end Field

def told (f : Field) (changes : List Change) : List (String × String) :=
  (changes.filter fun c => c.field = f.name).map fun c => (c.from_, c.to_)

def Trail {α : Type} : α → List (α × α) → α → Prop
  | a, [], b => a = b
  | a, t :: ts, b => t.1 = a ∧ Trail t.2 ts b

theorem Trail.append {α : Type} {b c : α} : ∀ {a : α} {ts us : List (α × α)}, Trail a ts b → Trail b us c → Trail a (ts ++ us) c
  | _, [], _, h, h' => by
    cases h
    exact h'
  | _, _ :: _, _, h, h' => ⟨h.1, Trail.append h.2 h'⟩

theorem Trail.last {α : Type} {b : α} : ∀ {a : α} {ts : List (α × α)}, Trail a ts b → ∀ t ∈ ts.getLast?, t.2 = b
  | _, [t], h, t', ht => by
    cases ht
    exact h.2
  | _, t :: u :: ts, h, t', ht => Trail.last h.2 t' (by rwa [List.getLast?_cons_cons] at ht)

theorem told_append (f : Field) (cs ds : List Change) : told f (cs ++ ds) = told f cs ++ told f ds := by
  unfold told
  rw [filter_append, map_append]

theorem told_other {f : Field} {cs : List Change} (h : ∀ c ∈ cs, c.field ≠ f.name) : told f cs = [] := by
  unfold told
  rw [filter_eq_nil_iff.2 fun c hc => by simpa using h c hc]
  rfl

def Tells (e : Edit) : Prop := ∀ f : Field, Trail (f.value e.before) (told f e.changes) (f.value e.after)

theorem tells_same {e : Edit} (hafter : e.after = e.before) (hchanges : e.changes = []) : Tells e := by
  intro f
  rw [hafter, hchanges]
  rfl

theorem told_assignee_resolution {others : List Change} (h : ∀ c ∈ others, c.field = "assignee" ∨ c.field = "resolution") (f : Field) :
    told f others = [] := by
  refine told_other fun c hc => ?_
  rcases h c hc with he | he <;> rw [he] <;> cases f <;> decide

section
variable {S : Statuses} {setup : Setup S} {db : Db} {now : Int}

variable {key : Key} {e : Edit}

theorem tells_setSprint {sprintID : Option Uuid} (h : setSprintIn db key sprintID = .ok e) : Tells e := by
  rcases (setSprintIn_cases h).2 with ⟨hafter, hchanges⟩ | ⟨to_, _, hafter, hchanges⟩
  · exact tells_same hafter hchanges
  · intro f
    rw [hafter, hchanges]
    cases f <;> simp [told, Field.name, Field.value, Trail]

theorem tells_setTeam (k : Kept S db) {teamID : Option Uuid} (h : setTeamIn setup db key teamID = .ok e) :
    Tells e := by
  obtain ⟨hbefore, hcases⟩ := setTeamIn_cases h
  rcases hcases with ⟨hafter, hchanges⟩ | ⟨to_, ⟨hafter, hchanges⟩ | ⟨r, s, hs, hr, hid, hafter, hchanges⟩⟩
  · exact tells_same hafter hchanges
  · intro f
    rw [hafter, hchanges]
    cases f <;> simp [told, Field.name, Field.value, Trail]
  · -- the sprint that is given up is the one the row names
    have hname : nameOf e.before.sprint = s.ref.name := by rw [hr, k.sameSprint hbefore hs hr hid]; rfl
    intro f
    rw [hafter, hchanges]
    cases f with
    | sprint =>
      change (s.ref.name = nameOf e.before.sprint) ∧ _
      exact ⟨hname.symm, rfl⟩
    | team => simp [told, Field.name, Field.value, Trail]
    | status => simp [told, Field.name, Field.value, Trail]

theorem tells_transition {id : Uuid} {input : Wf.Input} {actor : Wf.Actor}
    (h : transitionIn setup db now key id input actor = .ok e) : Tells e := by
  obtain ⟨_, w, d, assignee, others, _, _, hafter, hchanges, hothers⟩ := transitionIn_cases h
  intro f
  have hnone := told_assignee_resolution hothers f
  rw [hafter, hchanges, ← singleton_append, told_append, hnone]
  cases f <;> simp [told, Field.name, Field.value, Trail, Issue.transitioned]

theorem tells_updateType {typeID : Uuid} (h : updateType setup db now key typeID = .ok e) : Tells e := by
  rcases (updateType_cases h).2 with ⟨hafter, hchanges⟩ | ⟨t, ⟨hafter, hchanges⟩ | ⟨s, _, others, hafter, hchanges, hothers⟩⟩
  · exact tells_same hafter hchanges
  · intro f
    rw [hafter, hchanges]
    cases f <;> simp [told, Field.name, Field.value, Trail]
  · intro f
    have hnone := told_assignee_resolution (fun c hc => .inr (hothers c hc)) f
    have hsplit : e.changes = [⟨"type", e.before.type.ref.name, t.ref.name⟩, ⟨"status", e.before.status.name, s.name⟩] ++ others :=
      hchanges
    rw [hafter, hsplit, told_append, hnone]
    cases f <;> simp [told, Field.name, Field.value, Trail]

def lost : Field → Issue → List (String × String)
  | .sprint, i => (i.sprint.map fun r => (r.name, "")).toList
  | .team, i => (i.team.map fun r => (r.name, "")).toList
  | .status, _ => []

theorem told_cleared (i : Issue) (f : Field) : told f (cleared i) = lost f i := by
  have href : ∀ (field : String) (r : Option Ref), told f (r.map fun r => (⟨field, r.name, ""⟩ : Change)).toList =
      if field = f.name then (r.map fun r => (r.name, "")).toList else [] := by
    intro field r
    cases r <;> by_cases h : field = f.name <;> simp [told, h]
  have hrefs : ∀ (field : String) (rs : List Ref), field ≠ f.name →
      told f (if rs = [] then [] else [⟨field, joinNames rs, ""⟩]) = [] := by
    intro field rs h
    split <;> simp [told, h]
  unfold cleared
  dsimp only
  rw [told_append, told_append, told_append, told_append, told_append, told_append, href, href, href, href,
    hrefs "fixVersion" _ (by cases f <;> decide), hrefs "affectsVersion" _ (by cases f <;> decide),
    hrefs "component" _ (by cases f <;> decide)]
  cases f <;> simp [Field.name, lost]

theorem moveRow_changes (target : Project) (num : Nat) {i : Issue} (hanswers : i.answers = []) (s : Status) :
    (moveRow target num (i, s)).changes = [⟨"project", i.project.key, target.key⟩, ⟨"key", i.key, formatKey target.key num⟩] ++
      (if s.id ≠ i.status.id then [⟨"status", i.status.name, s.name⟩] else []) ++ cleared i := by
  simp [moveRow, droppedValues, hanswers]

theorem tells_moveRow (target : Project) (num : Nat) {i : Issue} (hanswers : i.answers = []) {s : Status}
    (hsame : s.id = i.status.id → s = i.status) : Tells (moveRow target num (i, s)) := by
  intro f
  rw [moveRow_changes target num hanswers, told_append, told_append, told_cleared]
  cases f with
  | sprint =>
    have hstatus : told .sprint (if s.id ≠ i.status.id then [⟨"status", i.status.name, s.name⟩] else []) = [] := by
      split <;> rfl
    rw [hstatus]
    cases hr : i.sprint <;> simp [told, Field.name, Field.value, Trail, moveRow, lost, hr, nameOf]
  | team =>
    have hstatus : told .team (if s.id ≠ i.status.id then [⟨"status", i.status.name, s.name⟩] else []) = [] := by
      split <;> rfl
    rw [hstatus]
    cases hr : i.team <;> simp [told, Field.name, Field.value, Trail, moveRow, lost, hr, nameOf]
  | status =>
    by_cases hid : s.id = i.status.id
    · rw [if_neg (not_not_intro hid)]
      simp [told, Field.name, Field.value, Trail, moveRow, lost, hsame hid]
    · rw [if_pos hid]
      simp [told, Field.name, Field.value, Trail, moveRow, lost]

theorem tells_carryOver (k : Kept S db) {from_ : Sprint} (hfrom : from_ ∈ db.sprints) (to_ : Option Sprint) :
    ∀ e ∈ carryOver db from_ to_, Tells e := by
  intro e he
  obtain ⟨i, hi, rfl⟩ := mem_map.1 he
  obtain ⟨hmem, hin⟩ := mem_filter.1 hi
  obtain ⟨r, hr, hid⟩ := Option.map_eq_some_iff.1 (of_decide_eq_true (Bool.and_eq_true_iff.1 hin).1)
  have hname : nameOf i.sprint = from_.ref.name := by rw [hr, k.sameSprint hmem hfrom hr hid.symm]; rfl
  intro f
  cases f with
  | sprint =>
    change (from_.ref.name = nameOf i.sprint) ∧ _
    exact ⟨hname.symm, rfl⟩
  | team => simp [told, Field.name, Field.value, Trail]
  | status => simp [told, Field.name, Field.value, Trail]

end

/-! ## The trail of an issue -/

def KeepsSprints {S : Statuses} (db : Db) (e : Event S) : Prop :=
  ∀ id, e.call = .delete id → ∀ i ∈ db.issues, i.sprint.map Ref.id ≠ some id

variable {S : Statuses} {db : Db}

theorem outcome_tells {e : Event S} (k : Kept S db) (b : Bare db) (hcond : KeepsSprints db e) {o : Outcome}
    (h : outcome e.setup db e.now e.call = .ok o) : ∀ ed ∈ o.edits, Tells ed := by
  obtain ⟨now, setup, call⟩ := e
  cases call with
  | create =>
    obtain ⟨m, _, h⟩ := Go.bind_ok.1 h
    split at h
    · cases h
    · cases h
      exact fun ed hed => absurd hed not_mem_nil
  | transition =>
    obtain ⟨ed, hed, rfl⟩ := map_ok.1 h
    exact fun ed' hed' => mem_singleton.1 hed' ▸ tells_transition hed
  | updateType =>
    obtain ⟨ed, hed, rfl⟩ := map_ok.1 h
    exact fun ed' hed' => mem_singleton.1 hed' ▸ tells_updateType hed
  | setSprint =>
    obtain ⟨ed, hed, rfl⟩ := map_ok.1 h
    exact fun ed' hed' => mem_singleton.1 hed' ▸ tells_setSprint hed
  | setTeam =>
    obtain ⟨ed, hed, rfl⟩ := map_ok.1 h
    exact fun ed' hed' => mem_singleton.1 hed' ▸ tells_setTeam k hed
  | move =>
    obtain ⟨moved, hmoved, h⟩ := Go.bind_ok.1 h
    cases h
    obtain ⟨root, _, _, _, hedits⟩ := move_edits k hmoved
    intro ed hed
    obtain ⟨hbefore, _, num, s, hs, _, hmove⟩ := hedits ed hed
    rw [hmove]
    exact tells_moveRow _ _ (b _ hbefore) fun hid => S.ids s hs _ (k.status _ hbefore) hid
  | plan =>
    obtain ⟨_, _, rfl⟩ := map_ok.1 h
    exact fun ed hed => absurd hed not_mem_nil
  | start =>
    obtain ⟨_, _, rfl⟩ := map_ok.1 h
    exact fun ed hed => absurd hed not_mem_nil
  | complete =>
    obtain ⟨c, hc, rfl⟩ := map_ok.1 h
    obtain ⟨before, hbefore, hc⟩ := Go.bind_ok.1 hc
    split at hc
    · cases hc
    · obtain ⟨destination, _, hc⟩ := Go.bind_ok.1 hc
      cases hc
      exact tells_carryOver k (sprintAt_mem hbefore).1 destination
  | delete id =>
    obtain ⟨d, hd, rfl⟩ := map_ok.1 h
    obtain ⟨found, _, hd⟩ := Go.bind_ok.1 hd
    split at hd
    · cases hd
    · cases hd
      intro ed hed
      obtain ⟨i, hi, _⟩ := mem_map.1 hed
      obtain ⟨hmem, hin⟩ := mem_filter.1 hi
      exact absurd (of_decide_eq_true hin) (hcond id rfl i hmem)

def MadeAs {S : Statuses} (cond : Db → Event S → Prop) (h : List (Event S)) (row : Issue) : Prop :=
  ∃ h₁ e h₂ db o cs, h = h₁ ++ e :: h₂ ∧ Runs cond empty h₁ db ∧ outcome e.setup db e.now e.call = .ok o ∧ o.made = some (row, cs)

theorem MadeAs.snoc {cond : Db → Event S → Prop} {h : List (Event S)} {row : Issue} (hmade : MadeAs cond h row)
    (e : Event S) : MadeAs cond (h ++ [e]) row := by
  obtain ⟨h₁, e₁, h₂, db, o, cs, rfl, hrun, ho, hm⟩ := hmade
  exact ⟨h₁, e₁, h₂ ++ [e], db, o, cs, by rw [append_assoc, cons_append], hrun, ho, hm⟩

theorem told_made {setup : Setup S} {now : Int} {c : Call} {o : Outcome}
    (h : outcome setup db now c = .ok o) {row : Issue} {cs : List Change} (hm : o.made = some (row, cs)) :
    row.createdAt = now ∧ ∀ f, told f cs = [] := by
  cases c with
  | create =>
    obtain ⟨m, hcreate, h⟩ := Go.bind_ok.1 h
    split at h
    · cases h
    · cases h
      cases hm
      obtain ⟨_, hnow, _, _, _, hfields⟩ := create_cases hcreate
      refine ⟨hnow, fun f => told_other fun c hc => ?_⟩
      rcases hfields c hc with he | he <;> rw [he] <;> cases f <;> decide
  | move =>
    obtain ⟨moved, _, h⟩ := Go.bind_ok.1 h
    cases h
    cases hm
  | _ =>
    obtain ⟨_, _, rfl⟩ := map_ok.1 h
    cases hm

def changelog (db : Db) (id : Uuid) : List Change := (changesOf db.history id).map Prod.snd

/-- **The changelog accounts for a field** of an issue from what it was made with to what it is, where no sprint is deleted that
an issue is in. -/
theorem changelog_accounts {h : List (Event S)} (hrun : Runs KeepsSprints empty h db) :
    ∀ i ∈ db.issues, ∃ row, MadeAs KeepsSprints h row ∧ row.id = i.id ∧ ∀ f : Field,
      Trail (f.value row) (told f (changelog db i.id)) (f.value i) ∧
      ∀ t ∈ (told f (changelog db i.id)).getLast?, t.2 = f.value i := by
  have htrail : Kept S db ∧ Bare db ∧ ∀ i ∈ db.issues, ∃ row, MadeAs KeepsSprints h row ∧ row.id = i.id ∧ ∀ f : Field,
      Trail (f.value row) (told f (changelog db i.id)) (f.value i) := by
    induction hrun with
    | nil => exact ⟨kept_empty, bare_empty, fun _ hi => absurd hi not_mem_nil⟩
    | @snoc h db e db' hrun hcond hstep ih =>
      obtain ⟨k, b, htrail⟩ := ih
      obtain ⟨o, ho, rfl⟩ := map_ok.1 hstep
      have hsound := outcome_sound k ho
      have f := hsound.toFits
      refine ⟨hsound.kept k, hsound.bare k b, fun j hj => ?_⟩
      rcases mem_after.1 hj with ⟨i, hi, rfl⟩ | ⟨cs, hm⟩
      · obtain ⟨row, hmade, hid, hrow⟩ := htrail i hi
        have hsame := rewritten_id k f hi
        refine ⟨row, hmade.snoc e, hid.trans hsame.symm, fun g => ?_⟩
        rw [hsame]
        unfold changelog
        have hchanged := @changesOf_after _ _ e.now k _ f i hi
        rcases hchanged with ⟨ed, hed, rfl, hafter, hchanges⟩ | ⟨hafter, hchanges⟩
        · rw [hafter, hchanges, map_append, map_map, told_append]
          have htold := outcome_tells k b hcond ho ed hed g
          refine (hrow g).append ?_
          rwa [show (Prod.snd ∘ fun c : Change => (e.now, c)) = id from rfl, map_id]
        · rw [hafter, hchanges]
          exact hrow g
      · obtain ⟨_, hnone⟩ := told_made ho hm
        refine ⟨j, ⟨h, e, [], db, o, cs, rfl, hrun, ho, hm⟩, rfl, fun g => ?_⟩
        unfold changelog
        rw [changesOf_made k f hm, map_map, show (Prod.snd ∘ fun c : Change => (e.now, c)) = id from rfl, map_id, hnone]
        rfl
  intro i hi
  obtain ⟨row, hmade, hid, hrow⟩ := htrail.2.2 i hi
  exact ⟨row, hmade, hid, fun f => ⟨hrow f, (hrow f).last⟩⟩

/-! ## A small project -/

namespace Small

def todo : Status := ⟨1, "To do", .todo⟩
def done : Status := ⟨2, "Done", .done⟩
def statuses : Statuses := ⟨[todo, done], id, by decide, by decide⟩

def task : IssueType := ⟨⟨1, "Task"⟩, 0, false⟩
def ops : Project := ⟨1, "OPS"⟩
def lab : Project := ⟨2, "LAB"⟩

def after (type : String) : Wf.Rule := ⟨.postFunction, type, ⟨.ok [], .ok []⟩, 0⟩

def workflow : Wf.Workflow :=
  ⟨"Simple", [⟨1, todo, true⟩, ⟨2, done, false⟩],
    [⟨1, "Finish", some 1, 2, 0, [], [after "postfunction.set_resolved"]⟩,
     ⟨2, "Reopen", some 2, 1, 1, [], [after "postfunction.clear_resolved"]⟩]⟩

def setup : Setup statuses where
  projects := [ops, lab]
  archived _ := false
  types := [task]
  used _ := [1]
  retired _ := false
  workflow _ _ := some workflow
  steps := fun _ _ w hw => by
    cases hw
    decide
  users := []
  member _ := false
  teams := []
  components := []

def sprint : Sprint := ⟨⟨1, "Sprint"⟩, 1, none, .planned, true⟩

def plans : Event statuses := ⟨0, setup, .plan sprint⟩
def makes : Event statuses := ⟨1, setup, .create 7 ⟨"OPS", 1, none, none, none, some 1, none, []⟩ 9⟩

def row : Issue := ⟨7, task, ops, 1, 1, todo, none, none, 9, none, some ⟨1, "Sprint"⟩, none, none, none, [], [], [], []⟩

def planned : Db := ⟨[], [], [sprint], fun _ => 0⟩
def made : Db := ⟨[row], [⟨7, 1, [⟨"created", "", "OPS-1"⟩]⟩], [sprint], Function.update (fun _ => 0) 1 1⟩

theorem runs_made {cond : Db → Event statuses → Prop} (hplans : cond empty plans) (hmakes : cond planned makes) :
    Runs cond empty [plans, makes] made :=
  .snoc (h := [plans]) (.snoc (h := []) .nil hplans rfl) hmakes rfl

def finishes : Event statuses := ⟨20, setup, .transition ⟨"OPS", 1⟩ 1 {} ⟨9, ""⟩⟩

def finishedRow : Issue := row.transitioned done none (some 20)

def finished : Db :=
  ⟨[finishedRow], made.history ++ [⟨7, 20, [⟨"status", "To do", "Done"⟩, ⟨"resolution", "", "Done"⟩]⟩], [sprint], made.issueSeq⟩

end Small

theorem Small.made_row {cond : Db → Event Small.statuses → Prop} {e : Event Small.statuses}
    (he : ∀ db o, outcome e.setup db e.now e.call = .ok o → o.made = none) {i : Issue}
    (h : MadeAs cond [Small.plans, Small.makes, e] i) : i = Small.row := by
  obtain ⟨h₁, e₁, h₂, db, o, cs, hlist, hrun, ho, hm⟩ := h
  rcases h₁ with _ | ⟨a, _ | ⟨b, _ | ⟨c, rest⟩⟩⟩
  · obtain ⟨rfl, _⟩ := List.cons.inj hlist
    obtain ⟨_, _, rfl⟩ := map_ok.1 ho
    cases hm
  · obtain ⟨rfl, htail⟩ := List.cons.inj hlist
    obtain ⟨rfl, _⟩ := List.cons.inj htail
    obtain ⟨db₀, hrun, _, hstep⟩ := Runs.snoc_inv (h := []) hrun
    obtain rfl := Runs.nil_inv hrun
    cases hstep
    cases ho
    cases hm
    rfl
  · obtain ⟨rfl, htail⟩ := List.cons.inj hlist
    obtain ⟨rfl, hlast⟩ := List.cons.inj htail
    obtain ⟨rfl, _⟩ := List.cons.inj hlast
    rw [he db o ho] at hm
    cases hm
  · have := congrArg List.length hlist
    simp at this

/-- Deleting the sprint sends its issue back, and the changelog says nothing of it. -/
theorem Small.deleted_sprint_unrecorded : ¬ ∀ (S : Statuses) (h : List (Event S)) (db : Db), Runs (fun _ _ => True) empty h db →
    ∀ i ∈ db.issues, ∃ row, MadeAs (fun _ _ => True) h row ∧ row.id = i.id ∧ ∀ f : Field,
      Trail (f.value row) (told f (changelog db i.id)) (f.value i) ∧
      ∀ t ∈ (told f (changelog db i.id)).getLast?, t.2 = f.value i := by
  intro hall
  have hrun : Runs (fun _ _ => True) empty [plans, makes, ⟨2, setup, .delete 1⟩]
      ⟨[{ row with sprint := none }], made.history, [], made.issueSeq⟩ := .snoc (runs_made trivial trivial) trivial rfl
  obtain ⟨i, hmade, _, htrail⟩ := hall _ _ _ hrun _ (mem_singleton_self _)
  have hrow : i = row := made_row (fun db o ho => by obtain ⟨_, _, rfl⟩ := map_ok.1 ho; rfl) hmade
  have hsprint : "Sprint" = "" := by
    have h := (htrail .sprint).1
    rw [hrow] at h
    exact h
  exact absurd hsprint (by decide)

def Small.takesOut : Event Small.statuses := ⟨2, Small.setup, .setSprint ⟨"OPS", 1⟩ none⟩

def Small.takenOut : Db :=
  ⟨[{ Small.row with sprint := none }], Small.made.history ++ [⟨7, 2, [⟨"sprint", "Sprint", ""⟩]⟩], [Small.sprint], Small.made.issueSeq⟩

/-- Taken out of the sprint by hand, the issue has it told. -/
theorem Small.taken_out_accounted : takenOut.issues ≠ [] ∧ ∀ i ∈ takenOut.issues, ∃ row, MadeAs KeepsSprints [plans, makes, takesOut] row ∧ row.id = i.id ∧
    ∀ f : Field, Trail (f.value row) (told f (changelog takenOut i.id)) (f.value i) ∧
      ∀ t ∈ (told f (changelog takenOut i.id)).getLast?, t.2 = f.value i := by
  have hrun : Runs KeepsSprints empty [plans, makes, takesOut] takenOut :=
    .snoc (runs_made (fun _ h => by cases h) (fun _ h => by cases h)) (fun _ h => by cases h) rfl
  exact ⟨by decide, changelog_accounts hrun⟩

end Issues
end Armature
