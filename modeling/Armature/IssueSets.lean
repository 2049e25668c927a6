import Armature.InsertionMap
import Armature.IssueStore
/-!
# IssueSets — an issue's versions, components and labels (`issue/versions.go`, `label/label.go`, `00034`, `00017`)

Three operations replace a set and three merge into one.  What is recorded is the joined names before and after, and they stand
in the order of the caller or of the database.  One issue's rows are modelled, which no other call writes under its lock.
-/
namespace Armature
namespace IssueSets

open List
open Go (Text)
open Issues (Change)
open Wf (Uuid)

/-! ## Rows -/

structure Version where
  id : Uuid
  projectID : Uuid
  name : Text
  position : Int
  archived : Bool
  deriving DecidableEq

structure Component where
  id : Uuid
  projectID : Uuid
  name : Text
  deriving DecidableEq

structure Label where
  id : Uuid
  name : Text
  deriving DecidableEq

/-- What the database makes of texts, and the identities it draws. -/
structure Builtins where
  /-- `lower`, the same in both. -/
  lower : Text → Text
  /-- The order of texts. -/
  collate : Text → Text → Bool
  /-- `\s`. -/
  blank : Char → Bool
  blank_space : blank ' ' = true
  draw : List Uuid → Uuid
  draw_new : ∀ ids, draw ids ∉ ids

structure Db (b : Builtins) where
  versions : List Version
  components : List Component
  labels : List Label
  version_ids : (versions.map Version.id).Nodup
  component_ids : (components.map Component.id).Nodup
  label_ids : (labels.map Label.id).Nodup
  /-- `label_name_idx` -/
  label_names : (labels.map fun l => b.lower l.name).Nodup
  /-- `label_name_not_blank`, `label_name_has_no_spaces` -/
  label_words : ∀ l ∈ labels, l.name ≠ [] ∧ ∀ c ∈ l.name, b.blank c = false

/-- An issue's project, and its rows of `issue_version`, `issue_component` and `issue_label`. -/
structure State (b : Builtins) where
  db : Db b
  projectID : Uuid
  fix : List Uuid
  affects : List Uuid
  components : List Uuid
  labels : List Uuid
  labelled : ∀ id ∈ labels, id ∈ db.labels.map Label.id

inductive Refusal where
  | versionNotFound
  | archived (name : Text)
  | componentNotFound
  | badName (raw : Text)
  /-- The database's own. -/
  | label (name : Text)
  deriving DecidableEq

/-! ## What an issue carries, in the database's order -/

section
variable {b : Builtins} (st : State b)

def versionOrder (v w : Version) : Bool :=
  decide (v.position < w.position) || (decide (v.position = w.position) && b.collate (b.lower v.name) (b.lower w.name))

def versionNames (p : Uuid → Bool) : List Text :=
  ((st.db.versions.mergeSort (versionOrder (b := b))).filter fun v => p v.id).map Version.name

def componentNames (p : Uuid → Bool) : List Text :=
  ((st.db.components.mergeSort fun v w => b.collate (b.lower v.name) (b.lower w.name)).filter fun c => p c.id).map Component.name

def labelsOn : List Label :=
  (st.db.labels.mergeSort fun v w => b.collate (b.lower v.name) (b.lower w.name)).filter fun l => decide (l.id ∈ st.labels)

def joined (names : List Text) : Text := [',', ' '].intercalate names

def words (labels : List Label) : Text := joined ((labels.map Label.name).mergeSort fun s t => decide (s ≤ t))

def told (field : String) (from_ to_ : Text) : List Change :=
  if from_ = to_ then [] else [⟨field, String.ofList from_, String.ofList to_⟩]

def dedupe (ids : List Uuid) : List Uuid := ids.eraseDups

/-! ## Versions -/

def nameable (v : Uuid) : Except Refusal Version :=
  match st.db.versions.find? fun r => decide (r.id = v ∧ r.projectID = st.projectID) with
  | none => .error .versionNotFound
  | some r => if r.archived then .error (.archived r.name) else .ok r

def setVersions (fix affects : List Uuid) : Except Refusal (State b × List Change) := do
  let fixRows ← (dedupe fix).mapM (nameable st)
  let affectsRows ← (dedupe affects).mapM (nameable st)
  .ok ({ st with fix := dedupe fix, affects := dedupe affects },
    told "fixVersion" (joined (versionNames st fun v => decide (v ∈ st.fix))) (joined (fixRows.map Version.name)) ++
      told "affectsVersion" (joined (versionNames st fun v => decide (v ∈ st.affects))) (joined (affectsRows.map Version.name)))

def changed (had add remove : List Uuid) : List Uuid :=
  had.filter (fun v => decide (v ∉ remove)) ++ (dedupe add).filter fun v => decide (v ∉ had)

def changeFixVersionsIn (add remove : List Uuid) : Except Refusal (State b × List Change) := do
  let _ ← ((dedupe add).filter fun v => decide (v ∉ st.fix)).mapM (nameable st)
  let now := changed st.fix add remove
  .ok ({ st with fix := now },
    told "fixVersion" (joined (versionNames st fun v => decide (v ∈ st.fix))) (joined (versionNames st fun v => decide (v ∈ now))))

/-! ## Components -/

def placeable (c : Uuid) : Except Refusal Component :=
  match st.db.components.find? fun r => decide (r.id = c ∧ r.projectID = st.projectID) with
  | none => .error .componentNotFound
  | some r => .ok r

def setComponents (ids : List Uuid) : Except Refusal (State b × List Change) := do
  let _ ← (dedupe ids).mapM (placeable st)
  .ok ({ st with components := dedupe ids },
    told "component" (joined (componentNames st fun c => decide (c ∈ st.components)))
      (joined (componentNames st fun c => decide (c ∈ dedupe ids))))

def changeComponentsIn (add remove : List Uuid) : Except Refusal (State b × List Change) := do
  let _ ← ((dedupe add).filter fun c => decide (c ∉ st.components)).mapM (placeable st)
  let now := changed st.components add remove
  .ok ({ st with components := now },
    told "component" (joined (componentNames st fun c => decide (c ∈ st.components)))
      (joined (componentNames st fun c => decide (c ∈ now))))

/-! ## Labels -/

def maxNameLength : Nat := 40

def isBlank (c : Char) : Bool := c == '\t' || c == '\n' || c == '\x0C' || c == '\r' || c == ' '

def cleanName (raw : Text) : Except Refusal Text :=
  let name := Go.trimSpace raw
  if name = [] ∨ name.any isBlank = true ∨ maxNameLength < name.length then .error (.badName raw) else .ok name

variable {labels : List Label} {name : Text}

theorem names_concat (id : Uuid) (h : (labels.map fun l => b.lower l.name).Nodup)
    (hnone : labels.find? (fun l => decide (b.lower l.name = b.lower name)) = none) :
    ((labels ++ [(⟨id, name⟩ : Label)]).map fun l => b.lower l.name).Nodup := by
  rw [map_append]
  refine h.append (nodup_singleton _) (disjoint_singleton.2 fun hmem => ?_)
  obtain ⟨l, hl, he⟩ := mem_map.1 hmem
  exact List.find?_eq_none.1 hnone l hl (decide_eq_true he)

theorem ids_concat (name : Text) (h : (labels.map Label.id).Nodup) :
    ((labels ++ [(⟨b.draw (labels.map Label.id), name⟩ : Label)]).map Label.id).Nodup := by
  rw [map_append]
  exact h.append (nodup_singleton _) (disjoint_singleton.2 (b.draw_new _))

theorem words_concat (id : Uuid)
    (h : ∀ l ∈ labels, l.name ≠ [] ∧ ∀ c ∈ l.name, b.blank c = false) (hname : ¬(name = [] ∨ name.any b.blank = true)) :
    ∀ l ∈ labels ++ [(⟨id, name⟩ : Label)], l.name ≠ [] ∧ ∀ c ∈ l.name, b.blank c = false := by
  intro l hl
  rcases mem_append.1 hl with hl | hl
  · exact h l hl
  · rw [mem_singleton.1 hl]
    exact ⟨(not_or.1 hname).1, fun c hc => Bool.eq_false_iff.2 fun hblank => (not_or.1 hname).2 (any_eq_true.2 ⟨c, hc, hblank⟩)⟩

def coin (db : Db b) (name : Text) : Except Refusal (Db b × Uuid) :=
  if hname : name = [] ∨ name.any b.blank = true then .error (.label name)
  else
    match hfound : db.labels.find? fun l => decide (b.lower l.name = b.lower name) with
    | some l => .ok (db, l.id)
    | none => .ok ({ db with labels := db.labels ++ [⟨b.draw (db.labels.map Label.id), name⟩],
                               label_ids := ids_concat name db.label_ids,
                               label_names := names_concat _ db.label_names hfound,
                               label_words := words_concat _ db.label_words hname }, b.draw (db.labels.map Label.id))

def coinAll : Db b → List Text → Except Refusal (Db b × List Uuid)
  | db, [] => .ok (db, [])
  | db, name :: names => do
    let (db, id) ← coin db name
    let (db, ids) ← coinAll db names
    .ok (db, id :: ids)

def wantedOf : List (Text × Text) → List Text → Except Refusal (List (Text × Text))
  | wanted, [] => .ok wanted
  | wanted, raw :: names => do
    let name ← cleanName raw
    wantedOf (InsertionMap.set wanted (b.lower name) name) names

structure Coined (db : Db b) (name : Text) (db' : Db b) (id : Uuid) : Prop where
  grows : db.labels <+: db'.labels
  found : ∃ l ∈ db'.labels, l.id = id ∧ b.lower l.name = b.lower name

theorem coin_ok {db db' : Db b} {id : Uuid} (h : coin db name = .ok (db', id)) : Coined db name db' id := by
  unfold coin at h
  split at h
  · cases h
  split at h
  · rename_i l hfound
    cases h
    exact ⟨prefix_refl _, l, mem_of_find?_eq_some hfound, rfl, by simpa using List.find?_some hfound⟩
  · cases h
    exact ⟨prefix_append _ _, _, mem_append_right _ (mem_singleton_self _), rfl, rfl⟩

/-- What comes of coining words: `ids` are of labels that are them, each of them once or more. -/
structure CoinedAll (db : Db b) (names : List Text) (db' : Db b) (ids : List Uuid) : Prop where
  grows : db.labels <+: db'.labels
  mem : ∀ id ∈ ids, ∃ l ∈ db'.labels, l.id = id ∧ ∃ name ∈ names, b.lower l.name = b.lower name
  found : ∀ name ∈ names, ∃ l ∈ db'.labels, l.id ∈ ids ∧ b.lower l.name = b.lower name

theorem coinAll_ok : ∀ {names : List Text} {db db' : Db b} {ids : List Uuid}, coinAll db names = .ok (db', ids) →
    CoinedAll db names db' ids
  | [], db, db', ids, h => by
    cases h
    exact ⟨prefix_refl _, fun _ h => absurd h not_mem_nil, fun _ h => absurd h not_mem_nil⟩
  | name :: names, db, db', ids, h => by
    rw [coinAll] at h
    obtain ⟨⟨db₁, id⟩, hone, h⟩ := Go.bind_ok.1 h
    obtain ⟨⟨db₂, rest⟩, hrest, h⟩ := Go.bind_ok.1 h
    cases h
    have h₁ := coin_ok hone
    have h₂ := coinAll_ok hrest
    obtain ⟨l, hl, hid, hlower⟩ := h₁.found
    refine ⟨h₁.grows.trans h₂.grows, ?_, ?_⟩
    · intro i hi
      rcases mem_cons.1 hi with rfl | hi
      · exact ⟨l, h₂.grows.subset hl, hid, name, mem_cons_self, hlower⟩
      · obtain ⟨m, hm, hmid, n, hn, hof⟩ := h₂.mem i hi
        exact ⟨m, hm, hmid, n, mem_cons_of_mem _ hn, hof⟩
    · intro n hn
      rcases mem_cons.1 hn with rfl | hn
      · exact ⟨l, h₂.grows.subset hl, hid ▸ mem_cons_self, hlower⟩
      · obtain ⟨m, hm, hmid, hof⟩ := h₂.found n hn
        exact ⟨m, hm, mem_cons_of_mem _ hmid, hof⟩

theorem labelled_coined {db : Db b} {names : List Text} {ids : List Uuid} (h : coinAll st.db names = .ok (db, ids)) (p : Uuid → Bool) :
    ∀ id ∈ (st.labels ++ ids).filter p, id ∈ db.labels.map Label.id := by
  intro id hid
  have hc := coinAll_ok h
  rcases mem_append.1 (mem_filter.1 hid).1 with hid | hid
  · exact (hc.grows.map Label.id).subset (st.labelled id hid)
  · obtain ⟨l, hl, rfl, -⟩ := hc.mem id hid
    exact mem_map_of_mem hl

def wantedOn (names remove : List Text) (keep : Bool) : Except Refusal (List (Text × Text)) := do
  let wanted ← wantedOf (b := b) [] names
  let wanted := if keep then (labelsOn st).foldl (fun m l => InsertionMap.set m (b.lower l.name) l.name) wanted else wanted
  -- Taken off after the merge, so a word being removed is never coined.
  .ok (remove.foldl (fun m raw => m.filter fun e => decide (e.1 ≠ b.lower (Go.trimSpace raw))) wanted)

def labelIssue (names remove : List Text) (keep : Bool) : Except Refusal (State b × List Change) := do
  let wanted ← wantedOn st names remove keep
  let before := labelsOn st
  let fresh := (wanted.filter fun e => !before.any fun l => decide (b.lower l.name = e.1)).map Prod.snd
  let gone := (before.filter fun l => !wanted.any fun e => decide (e.1 = b.lower l.name)).map Label.id
  match h : coinAll st.db fresh with
  | .error e => .error e
  | .ok (db, ids) =>
    let after := { st with db := db, labels := (st.labels ++ ids).filter fun id => decide (id ∉ gone),
                           labelled := labelled_coined st h _ }
    .ok (after, told "labels" (words before) (words (labelsOn after)))

def setIssueLabelsIn (names : List Text) : Except Refusal (State b × List Change) := labelIssue st names [] false

def changeIssueLabelsIn (add remove : List Text) : Except Refusal (State b × List Change) := labelIssue st add remove true

end

/-! ## Joined names -/

def commas : List Text → List Text
  | x :: y :: names => (x ++ [',']) :: commas (y :: names)
  | names => names

theorem joined_eq : ∀ names : List Text, joined names = [' '].intercalate (commas names)
  | [] => rfl
  | [_] => rfl
  | x :: y :: names => by
    have ih := joined_eq (y :: names)
    have hne : commas (y :: names) ≠ [] := by cases names <;> exact cons_ne_nil _ _
    unfold joined at ih ⊢
    rw [intercalate_cons_cons, ih, commas, intercalate_cons_of_ne_nil hne]
    simp

theorem length_commas : ∀ names : List Text, (commas names).length = names.length
  | [] => rfl
  | [_] => rfl
  | x :: y :: names => by rw [commas, length_cons, length_commas (y :: names), length_cons (a := x)]

theorem commas_inj : ∀ {xs ys : List Text}, commas xs = commas ys → xs = ys
  | [], ys, h => by
    have hlength := congrArg List.length h
    rw [length_commas, length_commas] at hlength
    exact (length_eq_zero_iff.1 hlength.symm).symm
  | [x], ys, h => by
    have hlength := congrArg List.length h
    rw [length_commas, length_commas] at hlength
    obtain ⟨y, rfl⟩ := length_eq_one_iff.1 hlength.symm
    exact h
  | x :: w :: xs, ys, h => by
    have hlength := congrArg List.length h
    rw [length_commas, length_commas] at hlength
    match ys, hlength with
    | y :: z :: ys, _ =>
      rw [commas, commas, List.cons.injEq] at h
      rw [append_cancel_right h.1, commas_inj h.2]

theorem commas_words : ∀ {names : List Text}, (∀ n ∈ names, ' ' ∉ n) → ∀ n ∈ commas names, ' ' ∉ n
  | [], _, n, hn => absurd hn not_mem_nil
  | [_], h, n, hn => h n hn
  | x :: y :: names, h, n, hn => by
    rw [commas] at hn
    rcases mem_cons.1 hn with rfl | hn
    · intro hs
      rcases mem_append.1 hs with hs | hs
      · exact h x mem_cons_self hs
      · cases mem_singleton.1 hs
    · exact commas_words (fun m hm => h m (mem_cons_of_mem x hm)) n hn

theorem joined_inj {xs ys : List Text} (hx : ∀ n ∈ xs, n ≠ [] ∧ ' ' ∉ n) (hy : ∀ n ∈ ys, n ≠ [] ∧ ' ' ∉ n)
    (h : joined xs = joined ys) : xs = ys := by
  have hcut : ∀ {names : List Text}, (∀ n ∈ names, n ≠ [] ∧ ' ' ∉ n) → names ≠ [] → (joined names).splitOn ' ' = commas names := by
    intro names hnames hne
    have hcommas : commas names ≠ [] := fun he => hne (commas_inj he)
    rw [joined_eq, splitOn_intercalate ' ' (commas_words fun n hn => (hnames n hn).2) hcommas]
  have hnil : ∀ {names : List Text}, (∀ n ∈ names, n ≠ [] ∧ ' ' ∉ n) → joined names = [] → names = [] := by
    intro names hnames he
    by_contra hne
    have hsplit := hcut hnames hne
    rw [he] at hsplit
    have hone : names = [[]] := commas_inj hsplit.symm
    exact (hnames [] (hone ▸ mem_singleton_self [])).1 rfl
  by_cases hxs : xs = []
  · subst hxs
    exact (hnil hy h.symm).symm
  by_cases hys : ys = []
  · subst hys
    exact hnil hx h
  · refine commas_inj ?_
    rw [← hcut hx hxs, h, hcut hy hys]

theorem joined_spaced (x : Text) : ∀ names : List Text, joined (x :: names) = [','].intercalate (x :: names.map (' ' :: ·))
  | [] => rfl
  | y :: names => by
    have ih := joined_spaced y names
    unfold joined at ih ⊢
    rw [intercalate_cons_cons, ih, map_cons, intercalate_cons_cons]
    cases names with
    | nil => simp
    | cons => simp [intercalate_cons_cons]

theorem joined_inj_commas {xs ys : List Text} (hx : ∀ n ∈ xs, n ≠ [] ∧ ',' ∉ n) (hy : ∀ n ∈ ys, n ≠ [] ∧ ',' ∉ n)
    (h : joined xs = joined ys) : xs = ys := by
  have hcut : ∀ {x : Text} {names : List Text}, (∀ n ∈ x :: names, n ≠ [] ∧ ',' ∉ n) →
      (joined (x :: names)).splitOn ',' = x :: names.map (' ' :: ·) := by
    intro x names hnames
    rw [joined_spaced]
    refine splitOn_intercalate ',' (fun n hn => ?_) (cons_ne_nil _ _)
    rcases mem_cons.1 hn with rfl | hn
    · exact (hnames n mem_cons_self).2
    · obtain ⟨m, hm, rfl⟩ := mem_map.1 hn
      exact fun hc => (hnames m (mem_cons_of_mem x hm)).2 ((mem_cons.1 hc).resolve_left (by decide))
  have hnil : ∀ {x : Text} {names : List Text}, (∀ n ∈ x :: names, n ≠ [] ∧ ',' ∉ n) → joined (x :: names) ≠ [] := by
    intro x names hnames he
    have hsplit := hcut hnames
    rw [he] at hsplit
    exact (hnames x mem_cons_self).1 (List.cons.inj hsplit).1.symm
  cases xs with
  | nil =>
    cases ys with
    | nil => rfl
    | cons => exact absurd h.symm (hnil hy)
  | cons =>
    cases ys with
    | nil => exact absurd h (hnil hx)
    | cons =>
      have hsplit := hcut hx
      rw [h, hcut hy] at hsplit
      obtain ⟨hhead, htail⟩ := List.cons.inj hsplit
      rw [hhead, map_injective_iff.2 (cons_injective (a := ' ')) htail]

/-! ## What labelling leaves -/

section
variable {b : Builtins} {st st' : State b} {names remove : List Text} {keep : Bool}

def Carries (st : State b) (k : Text) : Prop := ∃ l ∈ labelsOn st, b.lower l.name = k

theorem mem_labelsOn {l : Label} : l ∈ labelsOn st ↔ l ∈ st.db.labels ∧ l.id ∈ st.labels := by
  unfold labelsOn
  rw [mem_filter, mem_mergeSort, decide_eq_true_iff]

theorem label_unique {db : Db b} {l m : Label} (hl : l ∈ db.labels) (hm : m ∈ db.labels) (h : l.id = m.id) : l = m :=
  inj_on_of_nodup_map db.label_ids hl hm h

theorem cleanName_ok {raw name : Text} (h : cleanName raw = .ok name) : name = Go.trimSpace raw := by
  unfold cleanName at h
  dsimp only at h
  split at h
  · cases h
  · exact (Except.ok.inj h).symm

def Keyed (b : Builtins) (wanted : List (Text × Text)) : Prop := ∀ e ∈ wanted, e.1 = b.lower e.2

theorem keyed_set {wanted : List (Text × Text)} (h : Keyed b wanted) (name : Text) :
    Keyed b (InsertionMap.set wanted (b.lower name) name) := by
  induction wanted with
  | nil => exact fun e he => by rw [mem_singleton.1 he]
  | cons w wanted ih =>
    rw [Keyed, forall_mem_cons] at h
    unfold InsertionMap.set
    split
    · rename_i hw
      exact forall_mem_cons.2 ⟨hw, h.2⟩
    · exact forall_mem_cons.2 ⟨h.1, ih h.2⟩

theorem wantedOf_ok : ∀ {names : List Text} {wanted out : List (Text × Text)}, wantedOf (b := b) wanted names = .ok out →
    Keyed b wanted → Keyed b out ∧
      ∀ k, k ∈ out.map Prod.fst ↔ k ∈ wanted.map Prod.fst ∨ ∃ n ∈ names, b.lower (Go.trimSpace n) = k
  | [], wanted, out, h, hkeyed => by
    cases h
    exact ⟨hkeyed, fun k => by simp⟩
  | raw :: names, wanted, out, h, hkeyed => by
    rw [wantedOf] at h
    obtain ⟨name, hname, h⟩ := Go.bind_ok.1 h
    obtain ⟨hout, hkeys⟩ := wantedOf_ok h (keyed_set hkeyed name)
    refine ⟨hout, fun k => ?_⟩
    rw [hkeys, InsertionMap.mem_keys_set, cleanName_ok hname, or_assoc, exists_mem_cons_iff, eq_comm (a := k)]

theorem merged_keys : ∀ (before : List Label) {wanted : List (Text × Text)}, Keyed b wanted →
    Keyed b (before.foldl (fun m l => InsertionMap.set m (b.lower l.name) l.name) wanted) ∧
      ∀ k, k ∈ (before.foldl (fun m l => InsertionMap.set m (b.lower l.name) l.name) wanted).map Prod.fst ↔
        k ∈ wanted.map Prod.fst ∨ ∃ l ∈ before, b.lower l.name = k
  | [], wanted, h => ⟨h, fun k => by simp⟩
  | l :: before, wanted, h => by
    obtain ⟨hout, hkeys⟩ := merged_keys before (keyed_set h l.name)
    refine ⟨hout, fun k => ?_⟩
    rw [foldl_cons, hkeys, InsertionMap.mem_keys_set, or_assoc, exists_mem_cons_iff, eq_comm (a := k)]

theorem removed_keys : ∀ (remove : List Text) {wanted : List (Text × Text)}, Keyed b wanted →
    Keyed b (remove.foldl (fun m raw => m.filter fun e => decide (e.1 ≠ b.lower (Go.trimSpace raw))) wanted) ∧
      ∀ k, k ∈ (remove.foldl (fun m raw => m.filter fun e => decide (e.1 ≠ b.lower (Go.trimSpace raw))) wanted).map Prod.fst ↔
        k ∈ wanted.map Prod.fst ∧ ∀ r ∈ remove, b.lower (Go.trimSpace r) ≠ k
  | [], wanted, h => ⟨h, fun k => by simp⟩
  | raw :: remove, wanted, h => by
    have hfilter : Keyed b (wanted.filter fun e => decide (e.1 ≠ b.lower (Go.trimSpace raw))) :=
      fun e he => h e (mem_filter.1 he).1
    obtain ⟨hout, hkeys⟩ := removed_keys remove hfilter
    refine ⟨hout, fun k => ?_⟩
    rw [foldl_cons, hkeys, forall_mem_cons, ← and_assoc]
    refine and_congr_left fun _ => ?_
    rw [mem_map, mem_map]
    constructor
    · rintro ⟨e, he, rfl⟩
      exact ⟨⟨e, (mem_filter.1 he).1, rfl⟩, Ne.symm (of_decide_eq_true (mem_filter.1 he).2)⟩
    · rintro ⟨⟨e, he, rfl⟩, hne⟩
      exact ⟨e, mem_filter.2 ⟨he, decide_eq_true hne.symm⟩, rfl⟩

theorem wantedOn_ok {wanted : List (Text × Text)} (h : wantedOn st names remove keep = .ok wanted) :
    Keyed b wanted ∧ ∀ k, k ∈ wanted.map Prod.fst ↔
      ((∃ n ∈ names, b.lower (Go.trimSpace n) = k) ∨ (keep = true ∧ Carries st k)) ∧ ∀ r ∈ remove, b.lower (Go.trimSpace r) ≠ k := by
  unfold wantedOn at h
  obtain ⟨given, hgiven, h⟩ := Go.bind_ok.1 h
  cases h
  have hempty : Keyed b [] := nofun
  obtain ⟨hkeyed, hkeys⟩ := wantedOf_ok hgiven hempty
  cases keep with
  | false =>
    obtain ⟨hout, hleft⟩ := removed_keys remove hkeyed
    refine ⟨hout, fun k => (hleft k).trans ?_⟩
    rw [hkeys]
    simp
  | true =>
    obtain ⟨hmerged, hall⟩ := merged_keys (labelsOn st) hkeyed
    obtain ⟨hout, hleft⟩ := removed_keys remove hmerged
    refine ⟨hout, fun k => (hleft k).trans ?_⟩
    rw [hall, hkeys]
    simp [Carries]

variable {changes : List Change}

theorem labelIssue_ok (h : labelIssue st names remove keep = .ok (st', changes)) :
    ∃ wanted fresh gone ids, wantedOn st names remove keep = .ok wanted ∧
      fresh = (wanted.filter fun e => !(labelsOn st).any fun l => decide (b.lower l.name = e.1)).map Prod.snd ∧
      gone = ((labelsOn st).filter fun l => !wanted.any fun e => decide (e.1 = b.lower l.name)).map Label.id ∧
      coinAll st.db fresh = .ok (st'.db, ids) ∧ st'.labels = (st.labels ++ ids).filter (fun id => decide (id ∉ gone)) ∧
      changes = told "labels" (words (labelsOn st)) (words (labelsOn st')) := by
  unfold labelIssue at h
  obtain ⟨wanted, hwanted, h⟩ := Go.bind_ok.1 h
  dsimp only at h
  split at h
  · cases h
  · rename_i db ids hcoin
    cases h
    exact ⟨wanted, _, _, ids, hwanted, rfl, rfl, hcoin, rfl, rfl⟩

theorem labelIssue_carries (h : labelIssue st names remove keep = .ok (st', changes)) (k : Text) :
    Carries st' k ↔ ((∃ n ∈ names, b.lower (Go.trimSpace n) = k) ∨ (keep = true ∧ Carries st k)) ∧
      ∀ r ∈ remove, b.lower (Go.trimSpace r) ≠ k := by
  obtain ⟨wanted, fresh, gone, ids, hwanted, rfl, rfl, hcoin, hlabels, -⟩ := labelIssue_ok h
  obtain ⟨hkeyed, hkeys⟩ := wantedOn_ok hwanted
  have hc := coinAll_ok hcoin
  rw [← hkeys, mem_map]
  have hgone : ∀ {l : Label}, l ∈ labelsOn st → (l.id ∉ ((labelsOn st).filter fun l =>
      !wanted.any fun e => decide (e.1 = b.lower l.name)).map Label.id ↔ ∃ e ∈ wanted, e.1 = b.lower l.name) := by
    intro l hl
    rw [← not_iff_not, not_not, mem_map]
    constructor
    · rintro ⟨m, hm, hid⟩ ⟨e, he, hof⟩
      obtain ⟨hm, hnone⟩ := mem_filter.1 hm
      cases label_unique (mem_labelsOn.1 hm).1 (mem_labelsOn.1 hl).1 hid
      have hany : wanted.any (fun e => decide (e.1 = b.lower l.name)) = true := any_eq_true.2 ⟨e, he, decide_eq_true hof⟩
      rw [hany] at hnone
      cases hnone
    · intro hnone
      refine ⟨l, mem_filter.2 ⟨hl, ?_⟩, rfl⟩
      rw [Bool.not_eq_true', any_eq_false]
      exact fun e he hof => hnone ⟨e, he, of_decide_eq_true hof⟩
  constructor
  · rintro ⟨l, hl, rfl⟩
    obtain ⟨hldb, hlid⟩ := mem_labelsOn.1 hl
    rw [hlabels, mem_filter, mem_append, decide_eq_true_iff] at hlid
    obtain ⟨hold | hnew, hstays⟩ := hlid
    · obtain ⟨m, hm, hid⟩ := mem_map.1 (st.labelled l.id hold)
      cases label_unique (hc.grows.subset hm) hldb hid
      obtain ⟨e, he, hof⟩ := (hgone (mem_labelsOn.2 ⟨hm, hold⟩)).1 hstays
      exact ⟨e, he, hof⟩
    · obtain ⟨m, hm, hid, name, hname, hof⟩ := hc.mem l.id hnew
      cases label_unique hm hldb hid
      obtain ⟨e, he, rfl⟩ := mem_map.1 hname
      have hmem := (mem_filter.1 he).1
      exact ⟨e, hmem, (hkeyed e hmem).trans hof.symm⟩
  · rintro ⟨e, he, rfl⟩
    by_cases hhad : ∃ l ∈ labelsOn st, b.lower l.name = e.1
    · obtain ⟨l, hl, hof⟩ := hhad
      obtain ⟨hldb, hlid⟩ := mem_labelsOn.1 hl
      refine ⟨l, mem_labelsOn.2 ⟨hc.grows.subset hldb, ?_⟩, hof⟩
      rw [hlabels, mem_filter, mem_append, decide_eq_true_iff]
      exact ⟨.inl hlid, (hgone hl).2 ⟨e, he, hof.symm⟩⟩
    · have hfresh : e.2 ∈ (wanted.filter fun e => !(labelsOn st).any fun l => decide (b.lower l.name = e.1)).map Prod.snd := by
        refine mem_map_of_mem (mem_filter.2 ⟨he, ?_⟩)
        rw [Bool.not_eq_true', any_eq_false]
        exact fun l hl hof => hhad ⟨l, hl, of_decide_eq_true hof⟩
      obtain ⟨l, hl, hid, hof⟩ := hc.found e.2 hfresh
      rw [← hkeyed e he] at hof
      refine ⟨l, mem_labelsOn.2 ⟨hl, ?_⟩, hof⟩
      rw [hlabels, mem_filter, mem_append, decide_eq_true_iff]
      refine ⟨.inr hid, fun hmem => ?_⟩
      obtain ⟨m, hm, hmid⟩ := mem_map.1 hmem
      have hmst := (mem_filter.1 hm).1
      cases label_unique (hc.grows.subset (mem_labelsOn.1 hmst).1) hl hmid
      exact hhad ⟨_, hmst, hof⟩

theorem words_perm {l m : List Label} (h : ∀ x ∈ l ++ m, x.name ≠ [] ∧ ' ' ∉ x.name) (he : words l = words m) :
    (l.map Label.name).Perm (m.map Label.name) := by
  have hsort : ∀ {l : List Label}, (∀ x ∈ l, x.name ≠ [] ∧ ' ' ∉ x.name) →
      ∀ n ∈ (l.map Label.name).mergeSort (fun s t => decide (s ≤ t)), n ≠ [] ∧ ' ' ∉ n := by
    intro l hl n hn
    obtain ⟨x, hx, rfl⟩ := mem_map.1 (mem_mergeSort.1 hn)
    exact hl x hx
  have hsame := joined_inj (hsort fun x hx => h x (mem_append_left m hx)) (hsort fun x hx => h x (mem_append_right l hx)) he
  have hm := mergeSort_perm (m.map Label.name) fun s t => decide (s ≤ t)
  rw [← hsame] at hm
  exact (mergeSort_perm _ _).symm.trans hm

theorem labelsOn_words (st : State b) : ∀ l ∈ labelsOn st, l.name ≠ [] ∧ ' ' ∉ l.name := by
  intro l hl
  obtain ⟨hne, hwords⟩ := st.db.label_words l (mem_labelsOn.1 hl).1
  refine ⟨hne, fun hs => ?_⟩
  have := hwords ' ' hs
  rw [b.blank_space] at this
  cases this

theorem labelIssue_told (h : labelIssue st names remove keep = .ok (st', changes)) :
    words (labelsOn st) = words (labelsOn st') ↔ ∀ k, Carries st k ↔ Carries st' k := by
  constructor
  · intro he k
    have hperm := words_perm (fun x hx => (mem_append.1 hx).elim (labelsOn_words st x) (labelsOn_words st' x)) he
    have hcarries : ∀ st : State b, Carries st k ↔ ∃ n ∈ (labelsOn st).map Label.name, b.lower n = k := fun st => by
      constructor
      · rintro ⟨l, hl, hof⟩
        exact ⟨l.name, mem_map_of_mem hl, hof⟩
      · rintro ⟨n, hn, hof⟩
        obtain ⟨l, hl, rfl⟩ := mem_map.1 hn
        exact ⟨l, hl, hof⟩
    rw [hcarries, hcarries]
    exact exists_congr fun n => and_congr_left fun _ => hperm.mem_iff
  · intro hsame
    obtain ⟨wanted, fresh, gone, ids, hwanted, hfresh, hgone, hcoin, hlabels, -⟩ := labelIssue_ok h
    have hkeys : ∀ k, Carries st k ↔ k ∈ wanted.map Prod.fst := fun k => by
      rw [hsame, labelIssue_carries h, (wantedOn_ok hwanted).2]
    have hnofresh : fresh = [] := by
      rw [hfresh, map_eq_nil_iff, filter_eq_nil_iff]
      intro e he hnone
      obtain ⟨l, hl, hof⟩ := (hkeys e.1).2 (mem_map_of_mem he)
      have hany : (labelsOn st).any (fun l => decide (b.lower l.name = e.1)) = true :=
        any_eq_true.2 ⟨l, hl, decide_eq_true hof⟩
      rw [hany] at hnone
      cases hnone
    have hnogone : gone = [] := by
      rw [hgone, map_eq_nil_iff, filter_eq_nil_iff]
      intro l hl hnone
      obtain ⟨e, he, hof⟩ := mem_map.1 ((hkeys (b.lower l.name)).1 ⟨l, hl, rfl⟩)
      have hany : wanted.any (fun e => decide (e.1 = b.lower l.name)) = true := any_eq_true.2 ⟨e, he, decide_eq_true hof⟩
      rw [hany] at hnone
      cases hnone
    rw [hnofresh] at hcoin
    have hok := Except.ok.inj hcoin
    obtain ⟨hdb, hids⟩ := Prod.mk.inj hok
    have hlist : st'.labels = st.labels := by
      rw [hlabels, hnogone, ← hids, append_nil]
      exact filter_eq_self.2 fun _ _ => decide_eq_true not_mem_nil
    unfold labelsOn
    rw [← hdb, hlist]

end

/-! ## The law of the six -/

inductive Op where
  | setVersions (fix affects : List Uuid)
  | setComponents (ids : List Uuid)
  | setIssueLabels (names : List Text)
  | changeFixVersions (add remove : List Uuid)
  | changeComponents (add remove : List Uuid)
  | changeIssueLabels (add remove : List Text)

section
variable {b : Builtins} (st : State b)

def run : Op → Except Refusal (State b × List Change)
  | .setVersions fix affects => setVersions st fix affects
  | .setComponents ids => setComponents st ids
  | .setIssueLabels names => setIssueLabelsIn st names
  | .changeFixVersions add remove => changeFixVersionsIn st add remove
  | .changeComponents add remove => changeComponentsIn st add remove
  | .changeIssueLabels add remove => changeIssueLabelsIn st add remove

def SameSet (l m : List Uuid) : Prop := ∀ v, v ∈ l ↔ v ∈ m

def SameWords (st st' : State b) : Prop := ∀ k, Carries st k ↔ Carries st' k

def Recorded (field : String) (changes : List Change) : Prop := ∃ c ∈ changes, c.field = field

def MayName (had given : List Uuid) : Prop :=
  ∀ v ∈ given, ∃ r ∈ st.db.versions, r.id = v ∧ r.projectID = st.projectID ∧ (r.archived = true → v ∈ had)

def Among (b : Builtins) (names : List Text) (k : Text) : Prop := ∃ n ∈ names, b.lower (Go.trimSpace n) = k

def Leaves (st' : State b) (changes : List Change) : Op → Prop
  | .setVersions fix affects => SameSet st'.fix fix ∧ SameSet st'.affects affects ∧
    (Recorded "fixVersion" changes ↔ ¬SameSet st.fix st'.fix) ∧ (Recorded "affectsVersion" changes ↔ ¬SameSet st.affects st'.affects)
  | .setComponents ids => SameSet st'.components ids ∧
    (Recorded "component" changes ↔ ¬SameSet st.components st'.components)
  | .setIssueLabels names => (∀ k, Carries st' k ↔ Among b names k) ∧ (Recorded "labels" changes ↔ ¬SameWords st st')
  | .changeFixVersions add remove => (∀ v, v ∈ st'.fix ↔ (v ∈ st.fix ∨ v ∈ add) ∧ v ∉ remove) ∧
    (Recorded "fixVersion" changes ↔ ¬SameSet st.fix st'.fix)
  | .changeComponents add remove => (∀ v, v ∈ st'.components ↔ (v ∈ st.components ∨ v ∈ add) ∧ v ∉ remove) ∧
    (Recorded "component" changes ↔ ¬SameSet st.components st'.components)
  | .changeIssueLabels add remove => (∀ k, Carries st' k ↔ (Carries st k ∨ Among b add k) ∧ ¬Among b remove k) ∧
    (Recorded "labels" changes ↔ ¬SameWords st st')

def Allows : Op → Prop
  | .setVersions fix affects => MayName st st.fix fix ∧ MayName st st.affects affects
  | .changeFixVersions add _ => MayName st st.fix add
  | _ => False

def Lawful (op : Op) : Prop :=
  (∀ st' changes, run st op = .ok (st', changes) → Leaves st st' changes op) ∧ (Allows st op → ∃ r, run st op = .ok r)

/-! ## Where it holds -/

def Open (v : Uuid) : Prop := ∃ r ∈ st.db.versions, r.id = v ∧ r.projectID = st.projectID ∧ r.archived = false

def Placed (c : Uuid) : Prop := ∃ r ∈ st.db.components, r.id = c ∧ r.projectID = st.projectID

def Listed (given : List Uuid) : Prop := List.Sublist (dedupe given) ((st.db.versions.mergeSort (versionOrder (b := b))).map Version.id)

def Merged (had add remove : List Uuid) (v : Uuid) : Prop := (v ∈ had ∨ v ∈ add) ∧ v ∉ remove

instance (had add remove : List Uuid) (v : Uuid) : Decidable (Merged had add remove v) := inferInstanceAs (Decidable (_ ∧ _))

def Apart {α : Type} (rows : List α) (id : α → Uuid) (name : α → Text) (had now : Uuid → Prop) : Prop :=
  ∀ xs ys : List α, xs.Nodup → ys.Nodup → (∀ r, r ∈ xs ↔ r ∈ rows ∧ had (id r)) → (∀ r, r ∈ ys ↔ r ∈ rows ∧ now (id r)) →
    joined (xs.map name) = joined (ys.map name) → ∀ v, had v ↔ now v

def Replaced (had given : List Uuid) : Prop :=
  (SameSet had given → Listed st given) ∧ Apart st.db.versions Version.id Version.name (· ∈ had) (· ∈ given)

def Plain {α : Type} (rows : List α) (id : α → Uuid) (name : α → Text) (had add remove : List Uuid) : Prop :=
  (∀ v ∈ add, v ∈ remove → v ∈ had) ∧ Apart rows id name (· ∈ had) (Merged had add remove)

def Spared : Op → Prop
  | .setVersions fix affects =>
    (MayName st st.fix fix → MayName st st.affects affects → ∀ v, v ∈ fix ∨ v ∈ affects → Open st v) ∧
    ((∀ v, v ∈ fix ∨ v ∈ affects → Open st v) → Replaced st st.fix fix ∧ Replaced st st.affects affects)
  | .setComponents ids => (∀ c ∈ ids, Placed st c) →
    Apart st.db.components Component.id Component.name (· ∈ st.components) (· ∈ ids)
  | .changeFixVersions add remove => (∀ v ∈ add, v ∈ st.fix ∨ Open st v) →
    Plain st.db.versions Version.id Version.name st.fix add remove
  | .changeComponents add remove => (∀ c ∈ add, c ∈ st.components ∨ Placed st c) →
    Plain st.db.components Component.id Component.name st.components add remove
  | .setIssueLabels _ => True
  | .changeIssueLabels _ _ => True

end

/-! ## The six, one by one -/

section
variable {b : Builtins} {st : State b}

theorem recorded_told (field : String) (s t : Text) : Recorded field (told field s t) ↔ s ≠ t := by
  unfold Recorded told
  split
  · rename_i h
    simp [h]
  · rename_i h
    simp [h]

theorem recorded_other {field other : String} (h : other ≠ field) (s t : Text) : ¬Recorded field (told other s t) := by
  unfold Recorded told
  split
  · simp
  · simp [h]

theorem recorded_append (field : String) (c d : List Change) : Recorded field (c ++ d) ↔ Recorded field c ∨ Recorded field d := by
  unfold Recorded
  simp only [mem_append, or_and_right, exists_or]

theorem mem_dedupe {v : Uuid} {l : List Uuid} : v ∈ dedupe l ↔ v ∈ l := mem_eraseDups

theorem mapM_isOk {α β : Type} {f : α → Except Refusal β} : ∀ {l : List α}, (∃ rows, l.mapM f = .ok rows) ↔ ∀ a ∈ l, ∃ r, f a = .ok r
  | [] => ⟨nofun, fun _ => ⟨[], rfl⟩⟩
  | a :: l => by
    rw [forall_mem_cons, ← mapM_isOk (l := l)]
    constructor
    · rintro ⟨rows, h⟩
      rw [mapM_cons] at h
      obtain ⟨r, hr, h⟩ := Go.bind_ok.1 h
      obtain ⟨rest, hrest, -⟩ := Go.bind_ok.1 h
      exact ⟨⟨r, hr⟩, rest, hrest⟩
    · rintro ⟨⟨r, hr⟩, rest, hrest⟩
      exact ⟨r :: rest, by rw [mapM_cons, hr, hrest]; rfl⟩

theorem nameable_isOk (v : Uuid) : (∃ r, nameable st v = .ok r) ↔ Open st v := by
  unfold nameable Open
  constructor
  · rintro ⟨r, h⟩
    split at h
    · cases h
    split at h
    · cases h
    · rename_i row hfind harchived
      obtain ⟨hid, hproject⟩ : row.id = v ∧ row.projectID = st.projectID := by simpa using List.find?_some hfind
      exact ⟨row, mem_of_find?_eq_some hfind, hid, hproject, Bool.eq_false_iff.2 harchived⟩
  · rintro ⟨r, hr, hid, hproject, harchived⟩
    split
    · rename_i hnone
      exact absurd (decide_eq_true ⟨hid, hproject⟩) (List.find?_eq_none.1 hnone r hr)
    · rename_i row hfind
      obtain ⟨hrow, -⟩ : row.id = v ∧ row.projectID = st.projectID := by simpa using List.find?_some hfind
      cases inj_on_of_nodup_map st.db.version_ids (mem_of_find?_eq_some hfind) hr (hrow.trans hid.symm)
      rw [if_neg (Bool.eq_false_iff.1 harchived)]
      exact ⟨_, rfl⟩

theorem placeable_isOk (c : Uuid) : (∃ r, placeable st c = .ok r) ↔ Placed st c := by
  unfold placeable Placed
  constructor
  · rintro ⟨r, h⟩
    split at h
    · cases h
    · rename_i row hfind
      obtain ⟨hid, hproject⟩ : row.id = c ∧ row.projectID = st.projectID := by simpa using List.find?_some hfind
      exact ⟨row, mem_of_find?_eq_some hfind, hid, hproject⟩
  · rintro ⟨r, hr, hid, hproject⟩
    split
    · rename_i hnone
      exact absurd (decide_eq_true ⟨hid, hproject⟩) (List.find?_eq_none.1 hnone r hr)
    · exact ⟨_, rfl⟩

theorem nameable_rows : ∀ {l : List Uuid} {rows : List Version}, List.Forall₂ (fun v r => nameable st v = .ok r) l rows →
    (∀ r ∈ rows, r ∈ st.db.versions) ∧ rows.map Version.id = l
  | [], _, .nil => ⟨nofun, rfl⟩
  | v :: l, r :: rows, .cons h hs => by
    obtain ⟨hrows, hids⟩ := nameable_rows hs
    have hrow : r ∈ st.db.versions ∧ r.id = v := by
      unfold nameable at h
      split at h
      · cases h
      split at h
      · cases h
      · rename_i row hfind _
        obtain ⟨hid, -⟩ : row.id = v ∧ row.projectID = st.projectID := by simpa using List.find?_some hfind
        rw [← Except.ok.inj h]
        exact ⟨mem_of_find?_eq_some hfind, hid⟩
    exact ⟨forall_mem_cons.2 ⟨hrow.1, hrows⟩, by rw [map_cons, hids, hrow.2]⟩

theorem setVersions_isOk {fix affects : List Uuid} :
    (∃ r, setVersions st fix affects = .ok r) ↔ ∀ v, v ∈ fix ∨ v ∈ affects → Open st v := by
  have hall : ∀ given : List Uuid, (∃ rows, (dedupe given).mapM (nameable st) = .ok rows) ↔ ∀ v ∈ given, Open st v := by
    intro given
    rw [mapM_isOk]
    simp only [mem_dedupe, nameable_isOk]
  unfold setVersions
  constructor
  · rintro ⟨r, h⟩
    obtain ⟨fixRows, hfix, h⟩ := Go.bind_ok.1 h
    obtain ⟨affectsRows, haffects, -⟩ := Go.bind_ok.1 h
    exact fun v hv => hv.elim ((hall fix).1 ⟨_, hfix⟩ v) ((hall affects).1 ⟨_, haffects⟩ v)
  · intro h
    obtain ⟨fixRows, hfix⟩ := (hall fix).2 fun v hv => h v (.inl hv)
    obtain ⟨affectsRows, haffects⟩ := (hall affects).2 fun v hv => h v (.inr hv)
    rw [hfix, haffects]
    exact ⟨_, rfl⟩

variable {st' : State b} {changes : List Change} {had add remove : List Uuid}

theorem setVersions_ok {fix affects : List Uuid} (h : setVersions st fix affects = .ok (st', changes)) :
    ∃ fixRows affectsRows : List Version, st'.fix = dedupe fix ∧ st'.affects = dedupe affects ∧
      ((∀ r ∈ fixRows, r ∈ st.db.versions) ∧ fixRows.map Version.id = dedupe fix) ∧
      ((∀ r ∈ affectsRows, r ∈ st.db.versions) ∧ affectsRows.map Version.id = dedupe affects) ∧
      changes = told "fixVersion" (joined (versionNames st fun v => decide (v ∈ st.fix))) (joined (fixRows.map Version.name)) ++
        told "affectsVersion" (joined (versionNames st fun v => decide (v ∈ st.affects))) (joined (affectsRows.map Version.name)) := by
  unfold setVersions at h
  obtain ⟨fixRows, hfix, h⟩ := Go.bind_ok.1 h
  obtain ⟨affectsRows, haffects, h⟩ := Go.bind_ok.1 h
  cases h
  exact ⟨fixRows, affectsRows, rfl, rfl, nameable_rows (Go.mapM_cases hfix), nameable_rows (Go.mapM_cases haffects), rfl⟩

theorem filter_of_sublist {l order : List Uuid} (h : l.Sublist order) (hnodup : order.Nodup) :
    order.filter (fun v => decide (v ∈ l)) = l := by
  have hself : l.filter (fun v => decide (v ∈ l)) = l := filter_eq_self.2 fun v hv => decide_eq_true hv
  have hsub := h.filter fun v => decide (v ∈ l)
  rw [hself] at hsub
  have hlength : (order.filter fun v => decide (v ∈ l)).length ≤ l.length :=
    (subperm_of_subset (hnodup.filter _) fun v hv => of_decide_eq_true (mem_filter.1 hv).2).length_le
  exact (hsub.eq_of_length_le hlength).symm

theorem rows_of_ids {rows : List Version} (hnodup : (rows.map Version.id).Nodup) : ∀ {xs ys : List Version},
    (∀ r ∈ xs, r ∈ rows) → (∀ r ∈ ys, r ∈ rows) → xs.map Version.id = ys.map Version.id → xs = ys
  | [], [], _, _, _ => rfl
  | x :: xs, y :: ys, hx, hy, h => by
    obtain ⟨hhead, htail⟩ := List.cons.inj h
    rw [forall_mem_cons] at hx hy
    rw [inj_on_of_nodup_map hnodup hx.1 hy.1 hhead, rows_of_ids hnodup hx.2 hy.2 htail]

theorem replaced_told {given : List Uuid} {rows : List Version} (h : Replaced st had given)
    (hrows : (∀ r ∈ rows, r ∈ st.db.versions) ∧ rows.map Version.id = dedupe given) :
    joined (versionNames st fun v => decide (v ∈ had)) = joined (rows.map Version.name) ↔ SameSet had given := by
  obtain ⟨hmem, hids⟩ := hrows
  have hsorted := mergeSort_perm st.db.versions (versionOrder (b := b))
  have hordered : ((st.db.versions.mergeSort (versionOrder (b := b))).map Version.id).Nodup :=
    (hsorted.map Version.id).nodup_iff.2 st.db.version_ids
  constructor
  · refine h.2 _ rows (hordered.of_map.filter _) (.of_map (f := Version.id) ?_) (fun r => ?_) (fun r => ⟨fun hr => ?_, fun hr => ?_⟩)
    · rw [hids]
      exact InsertionMap.nodup_eraseDups _
    · rw [mem_filter, hsorted.mem_iff, decide_eq_true_iff]
    · exact ⟨hmem r hr, mem_dedupe.1 (hids ▸ mem_map_of_mem hr)⟩
    · have hid : r.id ∈ rows.map Version.id := hids ▸ mem_dedupe.2 hr.2
      obtain ⟨row, hrow, he⟩ := mem_map.1 hid
      cases inj_on_of_nodup_map st.db.version_ids (hmem row hrow) hr.1 he
      exact hrow
  · intro hsame
    have hlisted := filter_of_sublist (h.1 hsame) hordered
    have hread : ((st.db.versions.mergeSort (versionOrder (b := b))).filter fun v => decide (v.id ∈ had)).map Version.id =
        rows.map Version.id := by
      rw [hids, ← hlisted, filter_map]
      congr 1
      refine filter_congr fun r _ => decide_eq_decide.2 ?_
      rw [mem_dedupe]
      exact hsame r.id
    unfold versionNames
    rw [rows_of_ids st.db.version_ids (fun r hr => hsorted.mem_iff.1 (mem_filter.1 hr).1) hmem hread]

theorem sameSet_dedupe {given : List Uuid} : SameSet had (dedupe given) ↔ SameSet had given := by
  unfold SameSet
  simp only [mem_dedupe]

theorem setVersions_lawful (fix affects : List Uuid) (h : Spared st (.setVersions fix affects)) :
    Lawful st (.setVersions fix affects) := by
  obtain ⟨hopen, hreplaced⟩ := h
  refine ⟨fun st' changes hok => ?_, fun hallowed => setVersions_isOk.2 (hopen hallowed.1 hallowed.2)⟩
  obtain ⟨hfix, haffects⟩ := hreplaced (setVersions_isOk.1 ⟨_, hok⟩)
  obtain ⟨fixRows, affectsRows, hfixed, haffected, hfixRows, haffectsRows, rfl⟩ := setVersions_ok hok
  have hset : ∀ given, SameSet (dedupe given) given := fun given v => mem_dedupe
  simp only [Leaves]
  rw [hfixed, haffected, recorded_append, recorded_append, recorded_told, recorded_told,
    or_iff_left (recorded_other (by decide) _ _), or_iff_right (recorded_other (by decide) _ _), sameSet_dedupe, sameSet_dedupe]
  exact ⟨hset fix, hset affects, not_congr (replaced_told hfix hfixRows), not_congr (replaced_told haffects haffectsRows)⟩

/-! ### Components replaced -/

theorem setComponents_isOk {ids : List Uuid} : (∃ r, setComponents st ids = .ok r) ↔ ∀ c ∈ ids, Placed st c := by
  have hall : (∃ rows, (dedupe ids).mapM (placeable st) = .ok rows) ↔ ∀ c ∈ ids, Placed st c := by
    rw [mapM_isOk]
    simp only [mem_dedupe, placeable_isOk]
  rw [← hall]
  unfold setComponents
  constructor
  · rintro ⟨r, h⟩
    obtain ⟨rows, hrows, -⟩ := Go.bind_ok.1 h
    exact ⟨rows, hrows⟩
  · rintro ⟨rows, hrows⟩
    rw [hrows]
    exact ⟨_, rfl⟩

theorem setComponents_ok {ids : List Uuid} (h : setComponents st ids = .ok (st', changes)) :
    st'.components = dedupe ids ∧ changes = told "component" (joined (componentNames st fun c => decide (c ∈ st.components)))
      (joined (componentNames st fun c => decide (c ∈ ids))) := by
  unfold setComponents at h
  obtain ⟨rows, -, h⟩ := Go.bind_ok.1 h
  cases h
  refine ⟨rfl, ?_⟩
  simp only [mem_dedupe]

theorem apart_told {α : Type} {rows sorted : List α} {id : α → Uuid} {name : α → Text} (hsorted : sorted.Perm rows)
    (hids : (rows.map id).Nodup) {had now : Uuid → Prop} [DecidablePred had] [DecidablePred now] (h : Apart rows id name had now) :
    joined ((sorted.filter fun r => decide (had (id r))).map name) = joined ((sorted.filter fun r => decide (now (id r))).map name) ↔
      ∀ v, had v ↔ now v := by
  have hnodup : sorted.Nodup := hsorted.nodup_iff.2 hids.of_map
  have hmem : ∀ (p : Uuid → Prop) [DecidablePred p] (r : α), r ∈ sorted.filter (fun r => decide (p (id r))) ↔ r ∈ rows ∧ p (id r) := by
    intro p _ r
    rw [mem_filter, hsorted.mem_iff, decide_eq_true_iff]
  refine ⟨h _ _ (hnodup.filter _) (hnodup.filter _) (hmem had) (hmem now), fun hsame => ?_⟩
  simp only [hsame]

theorem componentNames_told {had now : Uuid → Prop} [DecidablePred had] [DecidablePred now]
    (h : Apart st.db.components Component.id Component.name had now) :
    joined (componentNames st fun c => decide (had c)) = joined (componentNames st fun c => decide (now c)) ↔ ∀ c, had c ↔ now c :=
  apart_told (mergeSort_perm _ _) st.db.component_ids h

theorem versionNames_told {had now : Uuid → Prop} [DecidablePred had] [DecidablePred now]
    (h : Apart st.db.versions Version.id Version.name had now) :
    joined (versionNames st fun v => decide (had v)) = joined (versionNames st fun v => decide (now v)) ↔ ∀ v, had v ↔ now v :=
  apart_told (mergeSort_perm _ _) st.db.version_ids h

theorem setComponents_lawful (ids : List Uuid) (h : Spared st (.setComponents ids)) : Lawful st (.setComponents ids) := by
  refine ⟨fun st' changes hok => ?_, False.elim⟩
  have hapart := h (setComponents_isOk.1 ⟨_, hok⟩)
  obtain ⟨hids, rfl⟩ := setComponents_ok hok
  have hset : SameSet (dedupe ids) ids := fun c => mem_dedupe
  simp only [Leaves]
  rw [hids, recorded_told, sameSet_dedupe]
  exact ⟨hset, not_congr (componentNames_told hapart)⟩

/-! ### Sets merged -/

theorem mem_changed {v : Uuid} :
    v ∈ changed had add remove ↔ v ∈ had ∧ v ∉ remove ∨ v ∈ add ∧ v ∉ had := by
  unfold changed
  simp [mem_dedupe]

theorem changed_merged (h : ∀ v ∈ add, v ∈ remove → v ∈ had) (v : Uuid) : v ∈ changed had add remove ↔ Merged had add remove v := by
  rw [mem_changed]
  unfold Merged
  have := h v
  tauto

theorem merge_plain (text : (Uuid → Bool) → Text) (hnew : ∀ v ∈ add, v ∈ remove → v ∈ had)
    (htext : text (fun v => decide (v ∈ had)) = text (fun v => decide (Merged had add remove v)) ↔ ∀ v, v ∈ had ↔ Merged had add remove v) :
    (∀ v, v ∈ changed had add remove ↔ Merged had add remove v) ∧
      (text (fun v => decide (v ∈ had)) ≠ text (fun v => decide (v ∈ changed had add remove)) ↔
        ¬SameSet had (changed had add remove)) := by
  have hmerged := changed_merged hnew
  refine ⟨hmerged, not_congr ?_⟩
  unfold SameSet
  simp only [hmerged]
  exact htext

theorem mapM_new_isOk {α : Type} {f : Uuid → Except Refusal α} :
    (∃ rows, ((dedupe add).filter fun v => decide (v ∉ had)).mapM f = .ok rows) ↔ ∀ v ∈ add, v ∈ had ∨ ∃ r, f v = .ok r := by
  rw [mapM_isOk]
  refine forall_congr' fun v => ?_
  rw [mem_filter, mem_dedupe, decide_eq_true_iff, and_imp, or_iff_not_imp_left]

theorem changeFixVersions_isOk :
    (∃ r, changeFixVersionsIn st add remove = .ok r) ↔ ∀ v ∈ add, v ∈ st.fix ∨ Open st v := by
  have hall : (∃ rows, ((dedupe add).filter fun v => decide (v ∉ st.fix)).mapM (nameable st) = .ok rows) ↔
      ∀ v ∈ add, v ∈ st.fix ∨ ∃ r, nameable st v = .ok r := mapM_new_isOk
  simp only [nameable_isOk] at hall
  rw [← hall]
  unfold changeFixVersionsIn
  constructor
  · rintro ⟨r, h⟩
    obtain ⟨rows, hrows, -⟩ := Go.bind_ok.1 h
    exact ⟨rows, hrows⟩
  · rintro ⟨rows, hrows⟩
    rw [hrows]
    exact ⟨_, rfl⟩

theorem changeComponents_isOk :
    (∃ r, changeComponentsIn st add remove = .ok r) ↔ ∀ c ∈ add, c ∈ st.components ∨ Placed st c := by
  have hall : (∃ rows, ((dedupe add).filter fun c => decide (c ∉ st.components)).mapM (placeable st) = .ok rows) ↔
      ∀ c ∈ add, c ∈ st.components ∨ ∃ r, placeable st c = .ok r := mapM_new_isOk
  simp only [placeable_isOk] at hall
  rw [← hall]
  unfold changeComponentsIn
  constructor
  · rintro ⟨r, h⟩
    obtain ⟨rows, hrows, -⟩ := Go.bind_ok.1 h
    exact ⟨rows, hrows⟩
  · rintro ⟨rows, hrows⟩
    rw [hrows]
    exact ⟨_, rfl⟩

theorem mayName_open {given : List Uuid} (h : MayName st had given) : ∀ v ∈ given, v ∈ had ∨ Open st v := by
  intro v hv
  obtain ⟨r, hr, hid, hproject, harchived⟩ := h v hv
  cases hflag : r.archived with
  | true => exact .inl (harchived hflag)
  | false => exact .inr ⟨r, hr, hid, hproject, hflag⟩

theorem changeFixVersions_lawful (add remove : List Uuid) (h : Spared st (.changeFixVersions add remove)) :
    Lawful st (.changeFixVersions add remove) := by
  refine ⟨fun st' changes hok => ?_, fun hmay => changeFixVersions_isOk.2 (mayName_open hmay)⟩
  obtain ⟨hnew, hapart⟩ := h (changeFixVersions_isOk.1 ⟨_, hok⟩)
  unfold run changeFixVersionsIn at hok
  obtain ⟨rows, -, hok⟩ := Go.bind_ok.1 hok
  cases hok
  simp only [Leaves]
  rw [recorded_told]
  exact merge_plain (fun p => joined (versionNames st p)) hnew (versionNames_told hapart)

theorem changeComponents_lawful (add remove : List Uuid) (h : Spared st (.changeComponents add remove)) :
    Lawful st (.changeComponents add remove) := by
  refine ⟨fun st' changes hok => ?_, False.elim⟩
  obtain ⟨hnew, hapart⟩ := h (changeComponents_isOk.1 ⟨_, hok⟩)
  unfold run changeComponentsIn at hok
  obtain ⟨rows, -, hok⟩ := Go.bind_ok.1 hok
  cases hok
  simp only [Leaves]
  rw [recorded_told]
  exact merge_plain (fun p => joined (componentNames st p)) hnew (componentNames_told hapart)

/-! ### Labels -/

theorem labels_recorded {names remove : List Text} {keep : Bool}
    (h : labelIssue st names remove keep = .ok (st', changes)) : Recorded "labels" changes ↔ ¬SameWords st st' := by
  obtain ⟨-, -, -, -, -, -, -, -, -, rfl⟩ := labelIssue_ok h
  rw [recorded_told]
  exact not_iff_not.2 (labelIssue_told h)

theorem setIssueLabels_lawful (names : List Text) : Lawful st (.setIssueLabels names) := by
  refine ⟨fun st' changes h => ?_, False.elim⟩
  refine ⟨fun k => ?_, labels_recorded h⟩
  rw [labelIssue_carries h]
  simp [Among]

theorem changeIssueLabels_lawful (add remove : List Text) : Lawful st (.changeIssueLabels add remove) := by
  refine ⟨fun st' changes h => ?_, False.elim⟩
  refine ⟨fun k => ?_, labels_recorded h⟩
  rw [labelIssue_carries h]
  simp [Among, or_comm]

/-- **The six change sets as sets where no archived version is given, the order is the project's and no two sets read alike.** -/
theorem lawful_of_spared (op : Op) (h : Spared st op) : Lawful st op := by
  cases op with
  | setVersions fix affects => exact setVersions_lawful fix affects h
  | setComponents ids => exact setComponents_lawful ids h
  | setIssueLabels names => exact setIssueLabels_lawful names
  | changeFixVersions add remove => exact changeFixVersions_lawful add remove h
  | changeComponents add remove => exact changeComponents_lawful add remove h
  | changeIssueLabels add remove => exact changeIssueLabels_lawful add remove

theorem apart_of_plain {α : Type} {rows : List α} {id : α → Uuid} {name : α → Text} {had now : Uuid → Prop}
    (hplain : ∀ r ∈ rows, name r ≠ [] ∧ ',' ∉ name r) (hnames : (rows.map name).Nodup)
    (hrows : ∀ v, had v ∨ now v → ∃ r ∈ rows, id r = v) : Apart rows id name had now := by
  intro xs ys _ _ hx hy he v
  have hnamed : ∀ {zs : List α} {p : Uuid → Prop}, (∀ r, r ∈ zs ↔ r ∈ rows ∧ p (id r)) → ∀ n ∈ zs.map name, n ≠ [] ∧ ',' ∉ n := by
    intro zs p hz n hn
    obtain ⟨r, hr, rfl⟩ := mem_map.1 hn
    exact hplain r ((hz r).1 hr).1
  have hsame := joined_inj_commas (hnamed hx) (hnamed hy) he
  have hrow : ∀ r ∈ rows, r ∈ xs ↔ r ∈ ys := by
    intro r hr
    have hfind : ∀ {zs : List α} {p : Uuid → Prop}, (∀ r, r ∈ zs ↔ r ∈ rows ∧ p (id r)) → (r ∈ zs ↔ name r ∈ zs.map name) := by
      intro zs p hz
      refine ⟨mem_map_of_mem, fun hn => ?_⟩
      obtain ⟨s, hs, hof⟩ := mem_map.1 hn
      cases inj_on_of_nodup_map hnames ((hz s).1 hs).1 hr hof
      exact hs
    rw [hfind hx, hfind hy, hsame]
  constructor
  · intro hv
    obtain ⟨r, hr, rfl⟩ := hrows v (.inl hv)
    exact ((hy r).1 ((hrow r hr).1 ((hx r).2 ⟨hr, hv⟩))).2
  · intro hv
    obtain ⟨r, hr, rfl⟩ := hrows v (.inr hv)
    exact ((hx r).1 ((hrow r hr).2 ((hy r).2 ⟨hr, hv⟩))).2

end

/-! ## An archived version given again -/

def ascii : Builtins where
  lower := List.map Char.toLower
  collate s t := decide (s ≤ t)
  blank := isBlank
  blank_space := rfl
  draw ids := ids.foldr max 0 + 1
  draw_new ids h := by
    have hle : ∀ {ids : List Uuid} {v : Uuid}, v ∈ ids → v ≤ ids.foldr max 0 := by
      intro ids v hv
      induction ids with
      | nil => cases hv
      | cons w ids ih =>
        rcases mem_cons.1 hv with rfl | hv
        · exact Nat.le_max_left _ _
        · exact (ih hv).trans (Nat.le_max_right _ _)
    exact absurd (hle h) (Nat.not_succ_le_self _)

def shipped : State ascii where
  db := { versions := [⟨1, 7, ['1', '.', '0'], 0, true⟩], components := [], labels := [], version_ids := nodup_singleton _,
          component_ids := nodup_nil, label_ids := nodup_nil, label_names := nodup_nil,
          label_words := nofun }
  projectID := 7
  fix := [1]
  affects := []
  components := []
  labels := []
  labelled _ h := absurd h not_mem_nil

theorem shipped_refused : ¬Lawful shipped (.setVersions [1] []) := by
  intro h
  obtain ⟨r, hr⟩ := h.2 ⟨fun v hv => ⟨_, mem_singleton_self _, (mem_singleton.1 hv).symm, rfl, fun _ => hv⟩,
    nofun⟩
  have hrefused : run shipped (.setVersions [1] []) = .error (.archived ['1', '.', '0']) := rfl
  rw [hrefused] at hr
  cases hr

def planned : State ascii where
  db := { versions := [⟨2, 7, ['1', '.', '1'], 1, false⟩, ⟨1, 7, ['1', '.', '0'], 0, false⟩], components := [], labels := [],
          version_ids := by decide, component_ids := nodup_nil, label_ids := nodup_nil, label_names := nodup_nil,
          label_words := nofun }
  projectID := 7
  fix := [2]
  affects := [2]
  components := []
  labels := []
  labelled _ h := absurd h not_mem_nil

theorem planned_spared : Spared planned (.setVersions [1, 2, 1] [2, 2]) := by
  have hplain : ∀ r ∈ planned.db.versions, r.name ≠ [] ∧ ',' ∉ r.name := by decide
  have hrows : ∀ v, v ∈ [2] ∨ v ∈ [1, 2, 1] ∨ v ∈ [2, 2] → ∃ r ∈ planned.db.versions, r.id = v := by
    have hall : ∀ v ∈ [2] ++ [1, 2, 1] ++ [2, 2], ∃ r ∈ planned.db.versions, r.id = v := by decide
    exact fun v hv => hall v (by simpa [or_assoc] using hv)
  refine ⟨fun _ _ v hv => ?_, fun _ => ⟨⟨fun _ => ?_, apart_of_plain hplain (by decide) fun v hv => hrows v (hv.imp_right .inl)⟩,
    ⟨fun _ => ?_, apart_of_plain hplain (by decide) fun v hv => hrows v (hv.imp_right .inr)⟩⟩⟩
  · obtain ⟨r, hr, hid⟩ := hrows v (.inr hv)
    exact ⟨r, hr, hid, (by decide : ∀ r ∈ planned.db.versions, r.projectID = planned.projectID ∧ r.archived = false) r hr⟩
  · rename_i hsame
    exact absurd ((hsame 1).2 (by decide)) (by decide)
  · have hmem : 2 ∈ (planned.db.versions.mergeSort (versionOrder (b := ascii))).map Version.id :=
      mem_map.2 ⟨⟨2, 7, ['1', '.', '1'], 1, false⟩, mem_mergeSort.2 (by decide), rfl⟩
    exact singleton_sublist.2 hmem

theorem planned_lawful : Lawful planned (.setVersions [1, 2, 1] [2, 2]) := lawful_of_spared _ planned_spared

end IssueSets
end Armature
