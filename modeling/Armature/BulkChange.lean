import Armature.HeldBack
import Armature.IssueKeys
import Armature.IssueSubtree
import Armature.PermModel
/-!
# BulkChange — many issues moved or deleted at once (`bulk/bulk.go`, `issue/movecopy.go`, `issue/list.go`)

Each key has a transaction of its own, and nothing else writes meanwhile.  What goes with an issue above it counts as applied;
that a child moves with its parent is held back as a refusal until all keys were tried.  So each key is accounted for once,
by what the issues were when the request came (`accounted_for`).  Field edits, and the LSN, are left out.
-/
namespace Armature
namespace Bulk

open List
open Go (Text Tables)
open Wf (Uuid)
open Issues (Db Issue Project Key Edit Setup Statuses Beneath)
open Perm (Permission readPermission)
open HeldBack (Try Tally)

def maxSelection : Nat := 200

/-- An input that moves or deletes; `Check` refuses both at once, and either with other changes. -/
inductive Change where
  | move (projectKey : Text) (statuses : List (Uuid × Uuid))
  | delete

def issueWrite : Permission := "issue.write"
def projectAdminister : Permission := "project.administer"

def Change.needs : Change → List Permission
  | .move .. => [issueWrite]
  | .delete => [issueWrite, projectAdminister]

/-- Why an issue was left as it was: a sentence, or the refusal that is worded for the person. -/
inductive Reason where
  | sentence (text : String)
  | refused (r : Issues.Refusal)
  deriving DecidableEq

def notFound : Reason := .sentence "That issue was not found."

structure KeyChange where
  from_ : String
  to_ : String
  deriving DecidableEq

inductive Err where
  | deleteTakesAdministering
  | refused (r : Issues.Refusal)
  deriving DecidableEq

def reasonFor : Err → Reason
  | .deleteTakesAdministering => .sentence "Deleting an issue takes administering its project."
  | .refused .notFound => notFound
  | .refused r => .refused r

structure State where
  db : Db
  carried : List String
  moved : List KeyChange

structure Result where
  applied : List Text
  refused : List (Text × Reason)
  moved : List KeyChange

section
variable {S : Statuses} (u : Tables) (setup : Setup S) (perms : Perm.Set)

def readKey (key : Text) : Option Key :=
  match Links.parseKey u key with
  | .ok (projectKey, num) => some ⟨String.ofList projectKey, num⟩
  | .error _ => none

def canonical (key : Text) : String :=
  match readKey u key with
  | some k => Issues.formatKey k.projectKey k.num
  | none => String.ofList key

def refusal (needs : List Permission) (key : Key) : Option Reason :=
  if perms.can readPermission key.projectKey then
    (needs.find? fun p => !perms.can p key.projectKey).map fun p =>
      if p = issueWrite then .sentence ("You cannot change issues in " ++ key.projectKey ++ ".")
      else .sentence ("You need the " ++ p ++ " permission in " ++ key.projectKey ++ " to do this.")
  else some notFound

/-! ## One issue -/

def deleteIn (db : Db) (key : Key) : Except Err (List Issue) :=
  if perms.can projectAdminister key.projectKey then
    match Issues.atKey db key with
    | .ok doomed => .ok (doomed :: Issues.subtreeOf db doomed.id)
    | .error r => .error (.refused r)
  else .error .deleteTakesAdministering

def without (db : Db) (gone : List Issue) : Db :=
  { db with
    issues := db.issues.filter fun i => decide (i.id ∉ gone.map Issue.id)
    history := db.history.filter fun h => decide (h.issueID ∉ gone.map Issue.id) }

def moveInput (projectKey : Text) (statuses : List (Uuid × Uuid)) : Issues.MoveInput :=
  ⟨String.ofList (Go.toUpper u (Go.trimSpace projectKey)), none, some statuses⟩

def movedOut (db : Db) (moved : Project × List Edit) : Issues.Outcome :=
  { Issues.rewrites db moved.2 with
    issueSeq := Function.update db.issueSeq moved.1.id (db.issueSeq moved.1.id + moved.2.length) }

def keyChange (e : Edit) : KeyChange := ⟨e.before.key, e.after.key⟩

def one (now : Int) (db : Db) (change : Change) (key : Key) : Except Err (Db × List KeyChange × List String) :=
  match change with
  | .move projectKey statuses =>
    match Issues.moveIn setup db key (moveInput u projectKey statuses) with
    | .ok moved => .ok (db.after now (movedOut db moved), moved.2.map keyChange, [])
    | .error r => .error (.refused r)
  | .delete =>
    match deleteIn perms db key with
    | .ok gone => .ok (without db gone, [], gone.map Issue.key)
    | .error e => .error e

def Change.holdsBack : Change → Err → Bool
  | .move .., .refused .subtaskMovesWithParent => true
  | .move .., .refused .staysWithParent => true
  | _, _ => false

/-! ## The request -/

def carriedAlong (x : State) (key : Text) : Bool := decide (canonical u key ∈ x.carried)

variable (now : Text → Int) (change : Change)

def attempt (x : State) (key : Text) : Try State Reason :=
  match readKey u key with
  | none => .refused notFound
  | some k =>
    match refusal perms change.needs k with
    | some reason => .refused reason
    | none =>
      match one u setup perms (now key) x.db change k with
      | .ok (db, moved, gone) => .done ⟨db, x.carried ++ moved.map KeyChange.from_ ++ gone, x.moved ++ moved⟩
      | .error e => if change.holdsBack e then .held (reasonFor e) else .refused (reasonFor e)

def pass (db : Db) (keys : List Text) : Tally State Text Reason :=
  HeldBack.run (carriedAlong u) (attempt u setup perms now change) ⟨db, [], []⟩ keys

def checkKeys (keys : List Text) : Except String Unit :=
  if keys = [] then .error "choose at least one issue"
  else if maxSelection < keys.length then
    .error ("change at most " ++ toString maxSelection ++ " issues at once; this is " ++ toString keys.length)
  else .ok ()

def Change.check : Change → Except String Unit
  | .move projectKey _ => if Go.trimSpace projectKey = [] then .error "say which project the issues move to" else .ok ()
  | .delete => .ok ()

def answer (t : Tally State Text Reason) : Result × Db := (⟨t.applied, t.refused, t.state.moved⟩, t.state.db)

def edit (db : Db) (keys : List Text) : Except String (Result × Db) := do
  checkKeys keys
  change.check
  .ok (answer (pass u setup perms now change db keys))

end

/-! ## Keys -/

def named (i : Issue) : Key := ⟨i.project.key, i.num⟩

variable {k : Key} {i : Issue}

theorem atKey_named {db : Db} (h : Issues.atKey db k = .ok i) : i ∈ db.issues ∧ named i = k := by
  have hfind := Issues.elim_ok.1 h
  obtain ⟨hkey, hnum⟩ : i.project.key = k.projectKey ∧ i.num = k.num := by
    simpa only [decide_eq_true_eq] using List.find?_some hfind
  refine ⟨mem_of_find?_eq_some hfind, ?_⟩
  unfold named
  rw [hkey, hnum]

theorem atKey_of {db : Db} (hi : i ∈ db.issues) (hk : named i = k)
    (hone : ∀ j ∈ db.issues, named j = k → j = i) : Issues.atKey db k = .ok i := by
  subst hk
  cases hat : Issues.atKey db (named i) with
  | ok j =>
    obtain ⟨hj, hkey⟩ := atKey_named hat
    rw [hone j hj hkey]
  | error =>
    have hnone : (db.issues.find? fun j => decide (j.project.key = (named i).projectKey ∧ j.num = (named i).num)) = none := by
      unfold Issues.atKey at hat
      cases hfind : db.issues.find? fun j => decide (j.project.key = (named i).projectKey ∧ j.num = (named i).num) with
      | none => rfl
      | some =>
        rw [hfind] at hat
        cases hat
    exact absurd (decide_eq_true (⟨rfl, rfl⟩ : i.project.key = (named i).projectKey ∧ i.num = (named i).num))
      (List.find?_eq_none.1 hnone i hi)

theorem readKey_valid {u : Tables} {key : Text} (h : readKey u key = some k) :
    IssueKeys.validKey k.projectKey.toList = true := by
  unfold readKey at h
  split at h
  · rename_i projectKey num hparse
    cases h
    rw [String.toList_ofList]
    unfold Links.parseKey at hparse
    dsimp only at hparse
    split at hparse
    · split at hparse
      · rename_i hshape
        cases hparse
        unfold IssueKeys.validKey
        rw [List.head?_cons, Option.any_some, hshape.1, all_cons, hshape.2.1, length_cons]
        unfold Links.isKeyLetter
        rw [hshape.1]
        have hlen : 2 ≤ _ + 1 ∧ _ + 1 ≤ 10 := ⟨Nat.succ_le_succ hshape.2.2.1, Nat.succ_le_succ hshape.2.2.2.1⟩
        rw [decide_eq_true hlen]
        rfl
      · cases hparse
    · cases hparse
  · cases h

theorem formatKey_toList (projectKey : String) (num : Nat) :
    (Issues.formatKey projectKey num).toList = Links.formatKey projectKey.toList num := by
  unfold Issues.formatKey Links.formatKey
  have hnum : (toString num).toList = Go.itoa num := Nat.toList_repr
  rw [String.toList_append, String.toList_append, append_assoc, hnum]
  rfl

theorem canonical_iff {u : Tables} {key : Text} (hk : readKey u key = some k)
    (hi : IssueKeys.validKey i.project.key.toList = true) : canonical u key = i.key ↔ k = named i := by
  have hcanonical : canonical u key = Issues.formatKey k.projectKey k.num := by
    unfold canonical
    rw [hk]
  rw [hcanonical]
  constructor
  · intro he
    have hlist := congrArg String.toList he
    unfold Issue.key at hlist
    rw [formatKey_toList, formatKey_toList] at hlist
    obtain ⟨hproject, hnum⟩ := IssueKeys.formatKey_inj (readKey_valid hk) hi hlist
    cases k
    rw [String.toList_inj] at hproject
    cases hproject
    cases hnum
    rfl
  · rintro rfl
    rfl

/-! ## What the tables keep -/

/-- What the keys, references and the guard of the tree hold the rows to, where a project's key is its own. -/
structure Sound {S : Statuses} (setup : Setup S) (db : Db) : Prop where
  ids : (db.issues.map Issue.id).Nodup
  keys : ∀ i ∈ db.issues, ∀ j ∈ db.issues, named i = named j → i = j
  valid : ∀ i ∈ db.issues, IssueKeys.validKey i.project.key.toList = true
  parents : ∀ i ∈ db.issues, ∀ p, i.parentID = some p → ∃ above ∈ db.issues, above.id = p ∧ above.project = i.project ∧
    Issues.canParent above.type.level i.type.level = true
  projects : ∀ p ∈ setup.projects, ∀ i ∈ db.issues, p.key = i.project.key → p.id = i.project.id

section
variable {S : Statuses} {setup : Setup S} {db : Db}

variable {i root : Issue} {k : Key} {target : Project} {input : Issues.MoveInput}

theorem Sound.same (h : Sound setup db) {j : Issue} (hi : i ∈ db.issues) (hj : j ∈ db.issues) (he : i.id = j.id) : i = j :=
  inj_on_of_nodup_map h.ids hi hj he

theorem Sound.atKey (h : Sound setup db) (hi : i ∈ db.issues) (hk : named i = k) :
    Issues.atKey db k = .ok i :=
  atKey_of hi hk fun j hj hkj => h.keys j hj i hi (hkj.trans hk.symm)

theorem Sound.falls (h : Sound setup db) : Issues.Falls db := by
  have hby : ∀ i ∈ db.issues, Issues.byID db i.id = some i := by
    intro i hi
    unfold Issues.byID
    cases hfind : db.issues.find? fun j => decide (j.id = i.id) with
    | none => exact absurd (decide_eq_true rfl) (List.find?_eq_none.1 hfind i hi)
    | some j =>
      have hid : j.id = i.id := by simpa only [decide_eq_true_eq] using List.find?_some hfind
      rw [h.same (mem_of_find?_eq_some hfind) hi hid]
  refine ⟨fun id => ((Issues.byID db id).map fun i => i.type.level).getD 0, fun i hi p hp => ?_⟩
  obtain ⟨above, habove, rfl, -, hlevel⟩ := h.parents i hi p hp
  have hdecide : above.type.level = i.type.level + 1 := of_decide_eq_true hlevel
  dsimp only
  rw [hby i hi, hby above habove, Option.map_some, Option.map_some, Option.getD_some, Option.getD_some, hdecide]
  omega

theorem Sound.project (h : Sound setup db) {j : Issue} (hi : i ∈ db.issues) (hj : j ∈ db.issues)
    (hb : Beneath db i.id j.id) :
    j.project = i.project := by
  obtain ⟨d, hd⟩ := hb
  refine hd.passed h.ids (f := Issue.project) (fun c hc p hp => ?_) hi j hj rfl
  obtain ⟨above, habove, hid, hproject, -⟩ := h.parents c hc p hp
  exact ⟨above, habove, hid, hproject⟩

/-! ## A move -/

structure Lands (setup : Setup S) (input : Issues.MoveInput) (target : Project) (root : Issue) (under : Issue → Prop) : Prop where
  standard : root.type.isSubtask = false
  top : root.parentID = none
  there : Issues.projectAt setup input.projectKey = .ok target
  away : target.id ≠ root.project.id
  used : ∀ i, i = root ∨ under i → i.type.ref.id ∈ setup.used target.id
  status : ∃ w s, Issues.forIssueType setup target.id root.type.ref.id = .ok w ∧ Issues.rootLanding target root input w = .ok s
  landing : ∀ d, under d → ∃ r, Issues.checkDescendants setup target root input.statuses d = .ok r

theorem checkTypesUsedIn_ok {moving : List Issue} :
    Issues.checkTypesUsedIn setup target root moving = .ok () ↔ ∀ i ∈ moving, i.type.ref.id ∈ setup.used target.id := by
  unfold Issues.checkTypesUsedIn
  cases hfind : moving.find? fun i => decide (i.type.ref.id ∉ setup.used target.id) with
  | none =>
    refine ⟨fun _ i hi => ?_, fun _ => rfl⟩
    have hnot := List.find?_eq_none.1 hfind i hi
    rwa [decide_eq_true_eq, not_not] at hnot
  | some i =>
    have hbad : i.type.ref.id ∉ setup.used target.id := by simpa only [decide_eq_true_eq] using List.find?_some hfind
    exact ⟨fun h => (nomatch h), fun h => absurd (h i (mem_of_find?_eq_some hfind)) hbad⟩

theorem mapM_some {ε α β : Type} {f : α → Except ε β} : ∀ {l : List α}, (∀ a ∈ l, ∃ b, f a = .ok b) → ∃ bs, l.mapM f = .ok bs
  | [], _ => ⟨[], rfl⟩
  | a :: l, h => by
    rw [forall_mem_cons] at h
    obtain ⟨b, hb⟩ := h.1
    obtain ⟨bs, hbs⟩ := mapM_some h.2
    refine ⟨b :: bs, ?_⟩
    rw [mapM_cons, hb, hbs]
    rfl

theorem moveRows_before (target : Project) : ∀ (seq : Nat) (rows : List (Issue × Wf.Status)),
    (Issues.moveRows target seq rows).map Edit.before = rows.map Prod.fst
  | _, [] => rfl
  | seq, row :: rows => by
    rw [Issues.moveRows, map_cons, map_cons, moveRows_before target (seq + 1) rows]
    rfl

theorem moveIn_edits {moved : Project × List Edit}
    (h : Issues.moveIn setup db k input = .ok moved) : ∃ root, Issues.atKey db k = .ok root ∧
      Lands setup input moved.1 root (fun d => d ∈ Issues.subtreeOf db root.id) ∧
      moved.2.map Edit.before = root :: Issues.subtreeOf db root.id ∧
      ∀ e ∈ moved.2, e.after.id = e.before.id ∧ e.after.parentID = e.before.parentID ∧ e.after.project = moved.1 := by
  obtain ⟨root, hroot, h⟩ := Go.bind_ok.1 h
  split at h
  · cases h
  · rename_i hstandard
    split at h
    · cases h
    · rename_i htop
      obtain ⟨target, htarget, h⟩ := Go.bind_ok.1 h
      split at h
      · cases h
      · rename_i haway
        obtain ⟨_, hused, h⟩ := Go.bind_ok.1 h
        obtain ⟨w, hw, h⟩ := Go.bind_ok.1 h
        obtain ⟨status, hstatus, h⟩ := Go.bind_ok.1 h
        obtain ⟨rows, hrows, h⟩ := Go.bind_ok.1 h
        cases h
        have heach := Go.mapM_cases hrows
        have hfst := Issues.moved_rows status (heach.imp fun d r hr => Issues.checkDescendants_ok hr)
        refine ⟨root, hroot, ⟨Bool.not_eq_true _ ▸ hstandard, not_not.1 htop, htarget, haway, fun i hi => ?_,
          ⟨w, status, hw, hstatus⟩, fun d hd => ?_⟩, (moveRows_before _ _ _).trans hfst, fun e he => ?_⟩
        · exact checkTypesUsedIn_ok.1 hused i (mem_cons.2 hi)
        · obtain ⟨r, -, hr⟩ := Issues.forall₂_right (List.Forall₂.flip (R := flip _) heach) hd
          exact ⟨r, hr⟩
        · obtain ⟨num, r, -, rfl⟩ := Issues.mem_moveRows he
          exact ⟨rfl, rfl, rfl⟩

theorem moveIn_lands (hroot : Issues.atKey db k = .ok root)
    (h : Lands setup input target root fun d => d ∈ Issues.subtreeOf db root.id) :
    ∃ moved, Issues.moveIn setup db k input = .ok moved := by
  obtain ⟨w, status, hw, hstatus⟩ := h.status
  obtain ⟨rows, hrows⟩ := mapM_some h.landing
  have hused : Issues.checkTypesUsedIn setup target root (root :: Issues.subtreeOf db root.id) = .ok () :=
    checkTypesUsedIn_ok.2 fun i hi => h.used i (mem_cons.1 hi)
  refine ⟨(target, Issues.moveRows target (db.issueSeq target.id) ((root, status) :: rows)), ?_⟩
  refine Go.bind_ok.2 ⟨root, hroot, ?_⟩
  rw [h.standard, if_neg Bool.false_ne_true, if_neg (not_not.2 h.top)]
  refine Go.bind_ok.2 ⟨target, h.there, ?_⟩
  rw [if_neg h.away]
  exact Go.bind_ok.2 ⟨(), hused, Go.bind_ok.2 ⟨w, hw, Go.bind_ok.2 ⟨status, hstatus, Go.bind_ok.2 ⟨rows, hrows, rfl⟩⟩⟩⟩

theorem moveIn_held (hi : Issues.atKey db k = .ok i) (hparent : i.parentID ≠ none) :
    Issues.moveIn setup db k input = .error .subtaskMovesWithParent ∨ Issues.moveIn setup db k input = .error .staysWithParent := by
  unfold Issues.moveIn
  rw [hi]
  cases hsub : i.type.isSubtask with
  | true => exact .inl (if_pos hsub)
  | false => exact .inr ((if_neg (by rw [hsub]; exact Bool.false_ne_true)).trans (if_pos hparent))

theorem Lands.congr {under under' : Issue → Prop}
    (h : Lands setup input target root under) (hu : ∀ d, under' d → under d) : Lands setup input target root under' :=
  ⟨h.standard, h.top, h.there, h.away, fun i hi => h.used i (hi.imp_right (hu i)), h.status, fun d hd => h.landing d (hu d hd)⟩

theorem projectAt_there {key : String} (h : Issues.projectAt setup key = .ok target) :
    target ∈ setup.projects ∧ target.key = key := by
  unfold Issues.projectAt at h
  split at h
  · cases h
  · rename_i p hfind
    split at h
    · cases h
    · cases h
      exact ⟨mem_of_find?_eq_some hfind, by simpa only [decide_eq_true_eq] using List.find?_some hfind⟩

end

/-! ## Along the list -/

def Fate {S : Statuses} (u : Tables) (setup : Setup S) : Change → Issue → Issue → Prop
  | .move projectKey statuses, i, j => j.id = i.id ∧ j.parentID = i.parentID ∧
      Issues.projectAt setup (moveInput u projectKey statuses).projectKey = .ok j.project
  | .delete, _, _ => False

section
variable {S : Statuses} (u : Tables) (setup : Setup S) (perms : Perm.Set) (now : Text → Int) (change : Change) (db : Db)

def Names (key : Text) (i : Issue) : Prop := readKey u key = some (named i)

def Goes (key : Text) : Prop := ∃ k, readKey u key = some k ∧ refusal perms change.needs k = none ∧
  ∃ out, one u setup perms (now key) db change k = .ok out

def Takes (g key : Text) : Prop := ∃ i ∈ db.issues, ∃ j ∈ db.issues, Names u g i ∧ Names u key j ∧ Beneath db i.id j.id

def Taken (keys : List Text) (id : Uuid) : Prop := ∃ g ∈ keys, Goes u setup perms now change db g ∧
  ∃ i ∈ db.issues, Names u g i ∧ Beneath db i.id id

structure Along (taken : Uuid → Prop) (x : State) : Prop where
  ids : (x.db.issues.map Issue.id).Nodup
  carried : ∀ c, c ∈ x.carried ↔ ∃ i ∈ db.issues, taken i.id ∧ i.key = c
  kept : ∀ i ∈ db.issues, ¬ taken i.id → i ∈ x.db.issues
  rows : ∀ j ∈ x.db.issues, (j ∈ db.issues ∧ ¬ taken j.id) ∨ ∃ i ∈ db.issues, taken i.id ∧ Fate u setup change i j
  fate : ∀ i ∈ db.issues, taken i.id → change = .delete ∨ ∃ j ∈ x.db.issues, Fate u setup change i j

end

section
variable {S : Statuses} {u : Tables} {setup : Setup S} {perms : Perm.Set} {now : Text → Int} {change : Change} {db : Db}

variable {key : Text} {i : Issue} {k : Key} {keys : List Text}

theorem Sound.named (h : Sound setup db) {j : Issue} (hi : i ∈ db.issues) (hj : j ∈ db.issues) (hki : Names u key i)
    (hkj : Names u key j) : i = j := h.keys i hi j hj (Option.some.inj (hki.symm.trans hkj))

theorem refusal_project {needs : List Permission} {j : Issue} (h : i.project = j.project) :
    refusal perms needs (named i) = refusal perms needs (named j) := by
  unfold refusal Bulk.named
  rw [h]

theorem refusal_none {needs : List Permission} (h : refusal perms needs k = none) {p : Permission} (hp : p ∈ needs) :
    perms.can p k.projectKey = true := by
  unfold refusal at h
  split at h
  · rw [Option.map_eq_none_iff] at h
    simpa using List.find?_eq_none.1 h p hp
  · cases h

theorem deleteIn_ok {gone : List Issue} : deleteIn perms db k = .ok gone ↔
    perms.can projectAdminister k.projectKey = true ∧ ∃ doomed, Issues.atKey db k = .ok doomed ∧
      gone = doomed :: Issues.subtreeOf db doomed.id := by
  unfold deleteIn
  split
  · rename_i hcan
    cases hat : Issues.atKey db k with
    | ok doomed =>
      constructor
      · intro h
        cases h
        exact ⟨hcan, doomed, rfl, rfl⟩
      · rintro ⟨-, doomed', hd, rfl⟩
        cases hd
        rfl
    | error => exact ⟨fun h => (nomatch h), fun ⟨_, _, hd, _⟩ => (nomatch hd)⟩
  · rename_i hcan
    exact ⟨fun h => (nomatch h), fun h => absurd h.1 hcan⟩

theorem one_move {projectKey : Text} {statuses : List (Uuid × Uuid)} {t : Int} {out : Db × List KeyChange × List String} :
    one u setup perms t db (.move projectKey statuses) k = .ok out ↔ ∃ moved,
      Issues.moveIn setup db k (moveInput u projectKey statuses) = .ok moved ∧
        out = (db.after t (movedOut db moved), moved.2.map keyChange, []) := by
  unfold one
  dsimp only
  cases Issues.moveIn setup db k (moveInput u projectKey statuses) with
  | ok moved => exact ⟨fun h => ⟨moved, rfl, (Except.ok.inj h).symm⟩, fun ⟨_, hm, ho⟩ => by cases hm; rw [ho]⟩
  | error => exact ⟨fun h => (nomatch h), fun ⟨_, hm, _⟩ => (nomatch hm)⟩

theorem one_delete {t : Int} {out : Db × List KeyChange × List String} :
    one u setup perms t db .delete k = .ok out ↔ ∃ gone, deleteIn perms db k = .ok gone ∧
      out = (without db gone, [], gone.map Issue.key) := by
  unfold one
  dsimp only
  cases deleteIn perms db k with
  | ok gone => exact ⟨fun h => ⟨gone, rfl, (Except.ok.inj h).symm⟩, fun ⟨_, hg, ho⟩ => by cases hg; rw [ho]⟩
  | error => exact ⟨fun h => (nomatch h), fun ⟨_, hg, _⟩ => (nomatch hg)⟩

theorem Goes.root (h : Goes u setup perms now change db key) : ∃ i ∈ db.issues, Names u key i ∧
    refusal perms change.needs (named i) = none := by
  obtain ⟨k, hk, hallowed, out, hout⟩ := h
  have hat : ∃ i, Issues.atKey db k = .ok i := by
    cases change with
    | move =>
      obtain ⟨moved, hmoved, -⟩ := one_move.1 hout
      obtain ⟨root, hroot, -⟩ := moveIn_edits hmoved
      exact ⟨root, hroot⟩
    | delete =>
      obtain ⟨gone, hgone, -⟩ := one_delete.1 hout
      obtain ⟨-, doomed, hdoomed, -⟩ := deleteIn_ok.1 hgone
      exact ⟨doomed, hdoomed⟩
  obtain ⟨i, hat⟩ := hat
  obtain ⟨hi, rfl⟩ := atKey_named hat
  exact ⟨i, hi, hk, hallowed⟩

theorem Goes.lands {projectKey : Text} {statuses : List (Uuid × Uuid)} (hs : Sound setup db)
    (h : Goes u setup perms now (.move projectKey statuses) db key) (hi : i ∈ db.issues) (hn : Names u key i) :
    ∃ target, Lands setup (moveInput u projectKey statuses) target i fun d => d ∈ Issues.subtreeOf db i.id := by
  obtain ⟨k, hk, -, out, hout⟩ := h
  obtain ⟨moved, hmoved, -⟩ := one_move.1 hout
  obtain ⟨root, hroot, hlands, -⟩ := moveIn_edits hmoved
  obtain ⟨hmem, rfl⟩ := atKey_named hroot
  obtain rfl := hs.named hmem hi hk hn
  exact ⟨_, hlands⟩

theorem Taken.down {id id' : Uuid} (h : Taken u setup perms now change db keys id) (hb : Beneath db id id') :
    Taken u setup perms now change db keys id' := by
  obtain ⟨g, hg, hgoes, i, hi, hn, hbi⟩ := h
  exact ⟨g, hg, hgoes, i, hi, hn, hbi.trans hb⟩

theorem taken_concat {id : Uuid} : Taken u setup perms now change db (keys ++ [key]) id ↔
    Taken u setup perms now change db keys id ∨ (Goes u setup perms now change db key ∧
      ∃ i ∈ db.issues, Names u key i ∧ Beneath db i.id id) := by
  unfold Taken
  simp only [mem_append, mem_singleton, or_and_right, exists_or, exists_eq_left]

section
variable {taken : Uuid → Prop} {x : State}

variable {j root : Issue}

theorem Along.origin (h : Along u setup change db taken x) (hj : j ∈ x.db.issues) :
    ∃ i ∈ db.issues, i.id = j.id ∧ i.parentID = j.parentID := by
  rcases h.rows j hj with ⟨hj, -⟩ | ⟨i, hi, -, hfate⟩
  · exact ⟨j, hj, rfl, rfl⟩
  · cases change with
    | move => exact ⟨i, hi, hfate.1.symm, hfate.2.1.symm⟩
    | delete => exact hfate.elim

theorem Along.falls (h : Along u setup change db taken x) (hs : Sound setup db) : Issues.Falls x.db := by
  obtain ⟨level, hlevel⟩ := hs.falls
  refine ⟨level, fun j hj p hp => ?_⟩
  obtain ⟨i, hi, hid, hparent⟩ := h.origin hj
  rw [← hid]
  exact hlevel i hi p (hparent.trans hp)

theorem Along.beneath_before (h : Along u setup change db taken x) {root id : Uuid} (hb : Beneath x.db root id) :
    Beneath db root id := by
  obtain ⟨d, hd⟩ := hb
  exact ⟨d, hd.kept (fun _ => True) (fun _ _ _ _ _ => trivial) (fun j hj _ => h.origin hj) trivial⟩

theorem Along.beneath_after (h : Along u setup change db taken x) (hdown : ∀ {id id'}, taken id → Beneath db id id' → taken id')
    {root id : Uuid} (hb : Beneath db root id) (hid : ¬ taken id) : Beneath x.db root id := by
  obtain ⟨d, hd⟩ := hb
  refine ⟨d, hd.kept (fun id => ¬ taken id) (fun i hi p hp hnot htaken => ?_) (fun i hi hnot => ?_) hid⟩
  · exact hnot (hdown htaken ((Beneath.refl p).child hi hp))
  · exact ⟨i, h.kept i hi hnot, rfl, rfl⟩

theorem Along.row (h : Along u setup change db taken x) (hj : j ∈ x.db.issues) (hnot : ¬ taken j.id) : j ∈ db.issues := by
  rcases h.rows j hj with ⟨hj, -⟩ | ⟨i, -, htaken, hfate⟩
  · exact hj
  · cases change with
    | move => exact absurd (hfate.1 ▸ htaken) hnot
    | delete => exact hfate.elim

theorem Along.under (h : Along u setup change db taken x) (hs : Sound setup db)
    (hdown : ∀ {id id'}, taken id → Beneath db id id' → taken id') (hroot : root ∈ x.db.issues)
    (hfree : ∀ j ∈ x.db.issues, Beneath db root.id j.id → ¬ taken j.id) :
    j ∈ root :: Issues.subtreeOf x.db root.id ↔ j ∈ db.issues ∧ ¬ taken j.id ∧ Beneath db root.id j.id := by
  rw [Issues.mem_under (h.falls hs) h.ids hroot]
  constructor
  · rintro ⟨hj, hb⟩
    have hbefore := h.beneath_before hb
    have hnot := hfree j hj hbefore
    exact ⟨h.row hj hnot, hnot, hbefore⟩
  · rintro ⟨hj, hnot, hb⟩
    exact ⟨h.kept j hj hnot, h.beneath_after hdown hb hnot⟩

/-! ### One more -/

variable {taken' : Uuid → Prop}

theorem Along.carried_more (h : Along u setup change db taken x) {along : List Issue}
    (halong : ∀ {j}, j ∈ along ↔ j ∈ db.issues ∧ ¬ taken j.id ∧ Beneath db root.id j.id)
    (hmore : ∀ id, taken' id ↔ taken id ∨ Beneath db root.id id) (c : String) :
    c ∈ x.carried ++ along.map Issue.key ↔ ∃ i ∈ db.issues, taken' i.id ∧ i.key = c := by
  rw [mem_append, h.carried, mem_map]
  constructor
  · rintro (⟨i, hi, htaken, hkey⟩ | ⟨i, hin, hkey⟩)
    · exact ⟨i, hi, (hmore _).2 (.inl htaken), hkey⟩
    · obtain ⟨hi, -, hb⟩ := halong.1 hin
      exact ⟨i, hi, (hmore _).2 (.inr hb), hkey⟩
  · rintro ⟨i, hi, htaken, hkey⟩
    by_cases hold : taken i.id
    · exact .inl ⟨i, hi, hold, hkey⟩
    · exact .inr ⟨i, halong.2 ⟨hi, hold, ((hmore _).1 htaken).resolve_left hold⟩, hkey⟩

theorem rewritten_or (edits : List Edit) (i : Issue) :
    (∃ e ∈ edits, e.before.id = i.id ∧ Issues.rewritten edits i = e.after) ∨
      ((∀ e ∈ edits, e.before.id ≠ i.id) ∧ Issues.rewritten edits i = i) := by
  unfold Issues.rewritten
  cases hfind : edits.find? fun e => decide (e.before.id = i.id) with
  | none => exact .inr ⟨fun e he hid => List.find?_eq_none.1 hfind e he (decide_eq_true hid), rfl⟩
  | some e =>
    have hid : e.before.id = i.id := by simpa only [decide_eq_true_eq] using List.find?_some hfind
    exact .inl ⟨e, mem_of_find?_eq_some hfind, hid, rfl⟩

theorem Along.move {projectKey : Text} {statuses : List (Uuid × Uuid)} (h : Along u setup (.move projectKey statuses) db taken x)
    (hs : Sound setup db) {moved : Project × List Edit} (t : Int)
    (halong : ∀ {j}, j ∈ moved.2.map Edit.before ↔ j ∈ db.issues ∧ ¬ taken j.id ∧ Beneath db root.id j.id)
    (hedits : ∀ e ∈ moved.2, e.after.id = e.before.id ∧ e.after.parentID = e.before.parentID ∧ e.after.project = moved.1)
    (hthere : Issues.projectAt setup (moveInput u projectKey statuses).projectKey = .ok moved.1)
    (hmore : ∀ id, taken' id ↔ taken id ∨ Beneath db root.id id) :
    Along u setup (.move projectKey statuses) db taken' ⟨x.db.after t (movedOut x.db moved),
      x.carried ++ (moved.2.map keyChange).map KeyChange.from_ ++ [], x.moved ++ moved.2.map keyChange⟩ := by
  have hissues : (x.db.after t (movedOut x.db moved)).issues = x.db.issues.map (Issues.rewritten moved.2) := append_nil _
  have hbefore : ∀ e ∈ moved.2, e.before ∈ db.issues ∧ ¬ taken e.before.id ∧ Beneath db root.id e.before.id :=
    fun e he => halong.1 (mem_map_of_mem he)
  have hfate : ∀ e ∈ moved.2, Fate u setup (.move projectKey statuses) e.before e.after := fun e he =>
    ⟨(hedits e he).1, (hedits e he).2.1, (hedits e he).2.2 ▸ hthere⟩
  have hid : ∀ j, (Issues.rewritten moved.2 j).id = j.id := fun j => by
    rcases rewritten_or moved.2 j with ⟨e, he, hej, hr⟩ | ⟨-, hr⟩
    · rw [hr, (hedits e he).1, hej]
    · rw [hr]
  refine ⟨?_, fun c => ?_, fun i hi hnot => ?_, fun j' hj' => ?_, fun i hi htaken => .inr ?_⟩
  · have hids : x.db.issues.map (Issue.id ∘ Issues.rewritten moved.2) = x.db.issues.map Issue.id :=
      map_congr_left fun j _ => hid j
    rw [hissues, map_map, hids]
    exact h.ids
  · have hkeys : x.carried ++ (moved.2.map keyChange).map KeyChange.from_ ++ [] =
        x.carried ++ (moved.2.map Edit.before).map Issue.key := by
      rw [append_nil, map_map, map_map]
      rfl
    rw [hkeys]
    exact h.carried_more halong hmore c
  · rw [hissues]
    have hold : ¬ taken i.id := fun ht => hnot ((hmore _).2 (.inl ht))
    refine mem_map.2 ⟨i, h.kept i hi hold, ?_⟩
    rcases rewritten_or moved.2 i with ⟨e, he, hei, -⟩ | ⟨-, hr⟩
    · exact absurd ((hmore _).2 (.inr (hei ▸ (hbefore e he).2.2))) hnot
    · exact hr
  · rw [hissues] at hj'
    obtain ⟨j, hj, rfl⟩ := mem_map.1 hj'
    rcases rewritten_or moved.2 j with ⟨e, he, hej, hr⟩ | ⟨hnone, hr⟩
    · rw [hr]
      exact .inr ⟨e.before, (hbefore e he).1, (hmore _).2 (.inr (hbefore e he).2.2), hfate e he⟩
    · rw [hr]
      rcases h.rows j hj with ⟨hmem, hnot⟩ | ⟨i, hi, htaken, hf⟩
      · refine .inl ⟨hmem, fun htaken => ?_⟩
        have hb := ((hmore _).1 htaken).resolve_left hnot
        obtain ⟨e, he, hej⟩ := mem_map.1 (halong.2 ⟨hmem, hnot, hb⟩)
        exact hnone e he (congrArg Issue.id hej)
      · exact .inr ⟨i, hi, (hmore _).2 (.inl htaken), hf⟩
  · rw [hissues]
    by_cases hold : taken i.id
    · obtain ⟨j, hj, hf⟩ := (h.fate i hi hold).resolve_left (fun he => nomatch he)
      refine ⟨j, mem_map.2 ⟨j, hj, ?_⟩, hf⟩
      rcases rewritten_or moved.2 j with ⟨e, he, hej, -⟩ | ⟨-, hr⟩
      · exact absurd ((hej.trans hf.1) ▸ hold) (hbefore e he).2.1
      · exact hr
    · obtain ⟨e, he, rfl⟩ := mem_map.1 (halong.2 ⟨hi, hold, ((hmore _).1 htaken).resolve_left hold⟩)
      refine ⟨Issues.rewritten moved.2 e.before, mem_map_of_mem (h.kept _ hi hold), ?_⟩
      rcases rewritten_or moved.2 e.before with ⟨e', he', hee, hr⟩ | ⟨hnone, -⟩
      · rw [hr, ← hs.same (hbefore e' he').1 hi hee]
        exact hfate e' he'
      · exact absurd rfl (hnone e he)

theorem Along.delete (h : Along u setup .delete db taken x) {gone : List Issue}
    (halong : ∀ {j}, j ∈ gone ↔ j ∈ db.issues ∧ ¬ taken j.id ∧ Beneath db root.id j.id)
    (hmore : ∀ id, taken' id ↔ taken id ∨ Beneath db root.id id) :
    Along u setup .delete db taken' ⟨without x.db gone, x.carried ++ ([] : List KeyChange).map KeyChange.from_ ++ gone.map Issue.key,
      x.moved ++ []⟩ := by
  have hleft : ∀ {j}, j ∈ (without x.db gone).issues ↔ j ∈ x.db.issues ∧ j.id ∉ gone.map Issue.id := fun {j} => by
    unfold without
    rw [mem_filter, decide_eq_true_eq]
  refine ⟨h.ids.sublist (filter_sublist.map _), fun c => ?_, fun i hi hnot => hleft.2 ⟨?_, fun hin => ?_⟩, fun j hj => ?_,
    fun _ _ _ => .inl rfl⟩
  · rw [map_nil, append_nil]
    exact h.carried_more halong hmore c
  · exact h.kept i hi fun ht => hnot ((hmore _).2 (.inl ht))
  · obtain ⟨j, hj, hid⟩ := mem_map.1 hin
    exact hnot ((hmore _).2 (.inr (hid ▸ (halong.1 hj).2.2)))
  · obtain ⟨hj, hnotin⟩ := hleft.1 hj
    rcases h.rows j hj with ⟨hmem, hnot⟩ | ⟨i, -, -, hf⟩
    · refine .inl ⟨hmem, fun htaken => hnotin ?_⟩
      exact mem_map_of_mem (halong.2 ⟨hmem, hnot, ((hmore _).1 htaken).resolve_left hnot⟩)
    · exact hf.elim

end

/-! ## Each key -/

theorem attempt_done {x x' : State} : attempt u setup perms now change x key = .done x' ↔
    ∃ k, readKey u key = some k ∧ refusal perms change.needs k = none ∧ ∃ out, one u setup perms (now key) x.db change k = .ok out ∧
      x' = ⟨out.1, x.carried ++ out.2.1.map KeyChange.from_ ++ out.2.2, x.moved ++ out.2.1⟩ := by
  unfold attempt
  cases hk : readKey u key with
  | none => exact ⟨fun h => (nomatch h), fun ⟨_, h, _⟩ => (nomatch h)⟩
  | some k =>
    dsimp only
    cases hr : refusal perms change.needs k with
    | some =>
      refine ⟨fun h => (nomatch h), fun ⟨k', hk', hr', _⟩ => ?_⟩
      cases hk'
      rw [hr] at hr'
      cases hr'
    | none =>
      dsimp only
      cases ho : one u setup perms (now key) x.db change k with
      | ok out =>
        constructor
        · intro h
          cases h
          exact ⟨k, rfl, hr, out, ho, rfl⟩
        · rintro ⟨k', hk', -, out', ho', rfl⟩
          cases hk'
          rw [ho] at ho'
          cases ho'
          rfl
      | error =>
        constructor
        · intro h
          dsimp only at h
          split at h <;> cases h
        · rintro ⟨k', hk', -, out', ho', -⟩
          cases hk'
          rw [ho] at ho'
          cases ho'

section
variable {keys : List Text} {x : State} {key : Text}

abbrev At (u : Tables) (setup : Setup S) (perms : Perm.Set) (now : Text → Int) (change : Change) (db : Db) (keys : List Text)
    (x : State) : Prop := Along u setup change db (Taken u setup perms now change db keys) x

theorem carried_names (hs : Sound setup db) (h : At u setup perms now change db keys x) {k : Key} (hk : readKey u key = some k) :
    carriedAlong u x key = true ↔ ∃ i ∈ db.issues, Names u key i ∧ Taken u setup perms now change db keys i.id := by
  unfold carriedAlong Names
  rw [decide_eq_true_eq, h.carried, hk]
  refine exists_congr fun i => and_congr_right fun hi => ?_
  rw [Option.some.injEq, ← canonical_iff hk (hs.valid i hi), and_comm]
  exact and_congr_left fun _ => eq_comm

variable {projectKey : Text} {statuses : List (Uuid × Uuid)} {i : Issue}

theorem apart_of_top (hs : Sound setup db) (hi : i ∈ db.issues)
    (htop : i.parentID = none) (hnot : ¬ Taken u setup perms now (.move projectKey statuses) db keys i.id) {id : Uuid}
    (hb : Beneath db i.id id) : ¬ Taken u setup perms now (.move projectKey statuses) db keys id := by
  rintro ⟨g, hg, hgoes, r, hr, hn, hbr⟩
  obtain ⟨target, hlands⟩ := hgoes.lands hs hr hn
  obtain rfl := Beneath.same_top hs.ids hi hr htop hlands.top hb hbr
  exact hnot ⟨g, hg, hgoes, i, hi, hn, .refl _⟩

theorem At.atKey (hs : Sound setup db) (h : At u setup perms now change db keys x) (hi : i ∈ db.issues)
    (hnot : ¬ Taken u setup perms now change db keys i.id)
    (haway : ∀ j, Fate u setup change j j → j.project.id ≠ i.project.id) : Issues.atKey x.db (named i) = .ok i := by
  refine atKey_of (h.kept i hi hnot) rfl fun j hj hkey => ?_
  rcases h.rows j hj with ⟨hmem, -⟩ | ⟨o, -, -, hfate⟩
  · exact hs.keys j hmem i hi hkey
  · cases change with
    | move projectKey statuses =>
      have hproject := hs.projects _ (projectAt_there hfate.2.2).1 i hi (congrArg Key.projectKey hkey)
      exact absurd hproject (haway j ⟨rfl, rfl, hfate.2.2⟩)
    | delete => exact hfate.elim

theorem Lands.apart {target : Project} {root : Issue} {under : Issue → Prop}
    (h : Lands setup (moveInput u projectKey statuses) target root under) (hi : i.project = root.project) (j : Issue)
    (hf : Fate u setup (.move projectKey statuses) j j) : j.project.id ≠ i.project.id := by
  have htarget : j.project = target := Except.ok.inj (hf.2.2.symm.trans h.there)
  rw [htarget, hi]
  exact h.away

theorem subtree_same (hs : Sound setup db)
    (h : At u setup perms now (.move projectKey statuses) db keys x) (hi : i ∈ db.issues) (htop : i.parentID = none)
    (hnot : ¬ Taken u setup perms now (.move projectKey statuses) db keys i.id) {d : Issue} :
    d ∈ Issues.subtreeOf x.db i.id ↔ d ∈ Issues.subtreeOf db i.id := by
  rw [Issues.mem_subtreeOf (h.falls hs), Issues.mem_subtreeOf hs.falls]
  constructor
  · rintro ⟨hd, p, hp, hparent⟩
    have hbefore := h.beneath_before hp
    obtain ⟨o, ho, hid, hsame⟩ := h.origin hd
    have hd' := apart_of_top hs hi htop hnot (hbefore.child ho (hsame.trans hparent))
    exact ⟨h.row hd (hid ▸ hd'), p, hbefore, hparent⟩
  · rintro ⟨hd, p, hp, hparent⟩
    have hkept := apart_of_top hs hi htop hnot (hp.child hd hparent)
    exact ⟨h.kept d hd hkept, p, h.beneath_after Taken.down hp (apart_of_top hs hi htop hnot hp), hparent⟩

theorem goes_done (hs : Sound setup db) (h : At u setup perms now change db keys x)
    (hc : carriedAlong u x key = false) (hg : Goes u setup perms now change db key) :
    ∃ x', attempt u setup perms now change x key = .done x' ∧ At u setup perms now change db (keys ++ [key]) x' := by
  obtain ⟨i, hi, hn, hallowed⟩ := hg.root
  have hnot : ¬ Taken u setup perms now change db keys i.id := fun htaken => by
    rw [(carried_names hs h hn).2 ⟨i, hi, hn, htaken⟩] at hc
    cases hc
  have hmore : ∀ id, Taken u setup perms now change db (keys ++ [key]) id ↔
      Taken u setup perms now change db keys id ∨ Beneath db i.id id := fun id => by
    rw [taken_concat]
    refine or_congr_right ⟨fun ⟨_, j, hj, hnj, hb⟩ => ?_, fun hb => ⟨hg, i, hi, hn, hb⟩⟩
    rwa [hs.named hi hj hn hnj]
  cases change with
  | move =>
    obtain ⟨target, hlands⟩ := hg.lands hs hi hn
    have hat := At.atKey hs h hi hnot (hlands.apart rfl)
    obtain ⟨moved, hmoved⟩ := moveIn_lands hat (hlands.congr fun d hd => (subtree_same hs h hi hlands.top hnot).1 hd)
    obtain ⟨root, hroot, hlands', hbefore, hedits⟩ := moveIn_edits hmoved
    obtain rfl := Except.ok.inj (hat.symm.trans hroot)
    refine ⟨_, attempt_done.2 ⟨named i, hn, hallowed, _, one_move.2 ⟨moved, hmoved, rfl⟩, rfl⟩, ?_⟩
    refine h.move hs (now key) (fun {j} => ?_) hedits hlands'.there hmore
    rw [hbefore]
    refine h.under hs Taken.down (h.kept i hi hnot) fun j hj hb => ?_
    exact apart_of_top hs hi hlands.top hnot hb
  | delete =>
    have hat := At.atKey hs h hi hnot fun _ hf => hf.elim
    have hgone := deleteIn_ok.2 ⟨refusal_none hallowed (mem_cons_of_mem _ mem_cons_self), i, hat, rfl⟩
    refine ⟨_, attempt_done.2 ⟨named i, hn, hallowed, _, one_delete.2 ⟨_, hgone, rfl⟩, rfl⟩, ?_⟩
    refine h.delete (h.under hs Taken.down (h.kept i hi hnot) fun j hj hb => ?_) hmore
    exact ((h.rows j hj).resolve_right fun ⟨_, _, _, hf⟩ => hf.elim).2

theorem not_done (hs : Sound setup db) (h : At u setup perms now change db keys x) (hg : ¬ Goes u setup perms now change db key)
    (x' : State) : attempt u setup perms now change x key ≠ .done x' := by
  intro hdone
  obtain ⟨k, hk, hallowed, out, hout, -⟩ := attempt_done.1 hdone
  refine hg ⟨k, hk, hallowed, ?_⟩
  cases change with
  | move =>
    obtain ⟨moved, hmoved, -⟩ := one_move.1 hout
    obtain ⟨root, hroot, hlands, -⟩ := moveIn_edits hmoved
    obtain ⟨hmem, rfl⟩ := atKey_named hroot
    obtain ⟨hi, hnot⟩ := (h.rows root hmem).resolve_right fun ⟨_, _, _, hf⟩ => hlands.apart rfl root ⟨rfl, rfl, hf.2.2⟩ rfl
    obtain ⟨moved', hmoved'⟩ := moveIn_lands (hs.atKey hi rfl)
      (hlands.congr fun d hd => (subtree_same hs h hi hlands.top hnot).2 hd)
    exact ⟨_, one_move.2 ⟨moved', hmoved', rfl⟩⟩
  | delete =>
    obtain ⟨gone, hgone, -⟩ := one_delete.1 hout
    obtain ⟨hcan, doomed, hdoomed, -⟩ := deleteIn_ok.1 hgone
    obtain ⟨hmem, rfl⟩ := atKey_named hdoomed
    obtain ⟨hi, -⟩ := (h.rows doomed hmem).resolve_right fun ⟨_, _, _, hf⟩ => hf.elim
    exact ⟨_, one_delete.2 ⟨_, deleteIn_ok.2 ⟨hcan, doomed, hs.atKey hi rfl, rfl⟩, rfl⟩⟩

theorem refused_final (hs : Sound setup db) (h : At u setup perms now change db keys x) (hc : carriedAlong u x key = false)
    {e : Reason} (he : attempt u setup perms now change x key = .refused e) {g : Text} (hg : Goes u setup perms now change db g) :
    ¬ Takes u db g key := by
  rintro ⟨i, hi, j, hj, hni, hnj, hb⟩
  have hnone : ¬ Goes u setup perms now change db key := fun hgoes => by
    obtain ⟨x', hdone, -⟩ := goes_done hs h hc hgoes
    rw [hdone] at he
    cases he
  obtain ⟨r, hr, hnr, hallowed⟩ := hg.root
  obtain rfl := hs.named hi hr hni hnr
  have hproject := hs.project hi hj hb
  rw [← refusal_project hproject] at hallowed
  have hnot : ¬ Taken u setup perms now change db keys j.id := fun htaken => by
    rw [(carried_names hs h hnj).2 ⟨j, hj, hnj, htaken⟩] at hc
    cases hc
  cases change with
  | move =>
    obtain ⟨target, hlands⟩ := hg.lands hs hi hni
    have hparent : j.parentID ≠ none := fun htop => by
      obtain rfl := hs.same hi hj (hb.of_top hs.ids hj htop)
      -- a second spelling of a key that goes
      obtain ⟨k, hk, hrest⟩ := hg
      cases hni.symm.trans hk
      exact hnone ⟨_, hnj, hallowed, by
        obtain ⟨-, out, hout⟩ := hrest
        obtain ⟨moved, hmoved, -⟩ := one_move.1 hout
        exact ⟨_, one_move.2 ⟨moved, hmoved, rfl⟩⟩⟩
    have hat := At.atKey hs h hj hnot (hlands.apart hproject)
    unfold attempt at he
    rw [show readKey u key = some (named j) from hnj] at he
    dsimp only at he
    rw [hallowed] at he
    unfold one at he
    dsimp only at he
    rcases moveIn_held hat hparent with herr | herr
    all_goals
      rw [herr] at he
      cases he
  | delete =>
    refine hnone ⟨named j, hnj, hallowed, _, one_delete.2 ⟨_, deleteIn_ok.2 ⟨?_, j, hs.atKey hj rfl, rfl⟩, rfl⟩⟩
    exact refusal_none hallowed (mem_cons_of_mem _ mem_cons_self)

theorem Along.congr {taken taken' : Uuid → Prop} (h : Along u setup change db taken x) (he : ∀ id, taken' id ↔ taken id) :
    Along u setup change db taken' x := by
  obtain rfl : taken' = taken := funext fun id => propext (he id)
  exact h

variable (perms now change) in
theorem steady (hs : Sound setup db) : HeldBack.Steady (carriedAlong u) (attempt u setup perms now change)
    (At u setup perms now change db) (fun key => ∃ k, readKey u key = some k) (Goes u setup perms now change db) (Takes u db) where
  carried_iff {keys x key} h := by
    rintro ⟨k, hk⟩
    rw [carried_names hs h hk]
    constructor
    · rintro ⟨j, hj, hn, g, hg, hgoes, i, hi, hni, hb⟩
      exact ⟨g, hg, hgoes, i, hi, j, hj, hni, hn, hb⟩
    · rintro ⟨g, hg, hgoes, i, hi, j, hj, hni, hn, hb⟩
      exact ⟨j, hj, hn, g, hg, hgoes, i, hi, hni, hb⟩
  carry {keys x key} h := by
    rintro ⟨k, hk⟩ hc
    refine h.congr fun id => taken_concat.trans ⟨fun hor => hor.elim (fun h => h) ?_, .inl⟩
    rintro ⟨-, i, hi, hn, hb⟩
    obtain ⟨j, hj, hnj, htaken⟩ := (carried_names hs h hk).1 hc
    obtain rfl := hs.named hi hj hn hnj
    exact htaken.down hb
  go h _ hc hg := goes_done hs h hc hg
  stay h _ _ hg := ⟨not_done hs h hg, h.congr fun id => taken_concat.trans ⟨fun hor => hor.resolve_right fun hgo => hg hgo.1, .inl⟩⟩
  final h _ hc he g _ hg := refused_final hs h hc he hg
  self _ hg := by
    obtain ⟨i, hi, hn, -⟩ := hg.root
    exact ⟨i, hi, i, hi, hn, hn, .refl _⟩

end

theorem goes_now {now' : Text → Int} : Goes u setup perms now' change db key ↔ Goes u setup perms now change db key := by
  unfold Goes
  refine exists_congr fun k => and_congr_right fun _ => and_congr_right fun _ => ?_
  cases change with
  | move =>
    constructor
    · rintro ⟨out, hout⟩
      obtain ⟨moved, hmoved, -⟩ := one_move.1 hout
      exact ⟨_, one_move.2 ⟨moved, hmoved, rfl⟩⟩
    · rintro ⟨out, hout⟩
      obtain ⟨moved, hmoved, -⟩ := one_move.1 hout
      exact ⟨_, one_move.2 ⟨moved, hmoved, rfl⟩⟩
  | delete => exact Iff.rfl

theorem start_along : Along u setup change db (Taken u setup perms now change db []) ⟨db, [], []⟩ ↔
    (db.issues.map Issue.id).Nodup := by
  have hnone : ∀ id, ¬ Taken u setup perms now change db [] id := fun id ⟨_, hg, _⟩ => nomatch hg
  refine ⟨fun h => h.ids, fun hids => ⟨hids, fun c => ⟨fun hc => (nomatch hc), fun ⟨_, _, ht, _⟩ => absurd ht (hnone _)⟩,
    fun i hi _ => hi, fun j hj => .inl ⟨hj, hnone _⟩, fun _ _ ht => absurd ht (hnone _)⟩⟩

theorem edit_ok {out : Result × Db} : edit u setup perms now change db keys = .ok out ↔
    checkKeys keys = .ok () ∧ change.check = .ok () ∧ out = answer (pass u setup perms now change db keys) := by
  constructor
  · intro h
    obtain ⟨_, hkeys, h⟩ := Go.bind_ok.1 h
    obtain ⟨_, hcheck, h⟩ := Go.bind_ok.1 h
    cases h
    exact ⟨hkeys, hcheck, rfl⟩
  · rintro ⟨hkeys, hcheck, rfl⟩
    exact Go.bind_ok.2 ⟨(), hkeys, Go.bind_ok.2 ⟨(), hcheck, rfl⟩⟩

theorem checkKeys_perm {keys' : List Text} (h : keys'.Perm keys) : checkKeys keys' = checkKeys keys := by
  have hnil : keys' = [] ↔ keys = [] := by rw [← length_eq_zero_iff, ← length_eq_zero_iff, h.length_eq]
  unfold checkKeys
  simp only [hnil, h.length_eq]

end

/-! ## What comes of a request -/

def Became (u : Tables) (db' : Db) : Change → Issue → Prop
  | .move projectKey statuses, i => ∃ j ∈ db'.issues, j.id = i.id ∧ j.project.id ≠ i.project.id ∧
      j.project.key = (moveInput u projectKey statuses).projectKey
  | .delete, i => ∀ j ∈ db'.issues, j.id ≠ i.id

structure Accounted (u : Tables) (change : Change) (db : Db) (keys : List Text) (out : Result) (db' : Db) : Prop where
  once : (out.applied ++ out.refused.map Prod.fst).Perm keys
  applied : ∀ key ∈ out.applied, ∃ i ∈ db.issues, Names u key i ∧ Became u db' change i
  refused : ∀ key ∈ out.refused.map Prod.fst, ∀ i ∈ db.issues, Names u key i → i ∈ db'.issues

section
variable {S : Statuses} {u : Tables} {setup : Setup S} {perms : Perm.Set} {now : Text → Int} {change : Change} {db : Db}

theorem At.became {keys : List Text} {x : State} (h : At u setup perms now change db keys x) (hs : Sound setup db) {i : Issue} (hi : i ∈ db.issues)
    (htaken : Taken u setup perms now change db keys i.id) : Became u x.db change i := by
  cases change with
  | move =>
    obtain ⟨j, hj, hf⟩ := (h.fate i hi htaken).resolve_left (fun he => nomatch he)
    obtain ⟨g, -, hgoes, r, hr, hn, hb⟩ := htaken
    obtain ⟨target, hlands⟩ := hgoes.lands hs hr hn
    exact ⟨j, hj, hf.1, hlands.apart (hs.project hr hi hb) j ⟨rfl, rfl, hf.2.2⟩, (projectAt_there hf.2.2).2⟩
  | delete =>
    intro j hj hid
    exact ((h.rows j hj).resolve_right fun ⟨_, _, _, hf⟩ => hf.elim).2 (hid ▸ htaken)

/-- **Every key is accounted for once, whatever the order**: by what is there when the request comes, and not by what stands
where in the list, nor by when each transaction began. -/
theorem accounted_for (hs : Sound setup db) {keys : List Text} (hread : ∀ key ∈ keys, ∃ k, readKey u key = some k)
    {out : Result} {db' : Db} (h : edit u setup perms now change db keys = .ok (out, db')) :
    Accounted u change db keys out db' ∧ ∀ (keys' : List Text) (now' : Text → Int), keys'.Perm keys →
      ∃ out' db'', edit u setup perms now' change db keys' = .ok (out', db'') ∧
        (∀ key, key ∈ out'.applied ↔ key ∈ out.applied) ∧
        ∀ key, key ∈ out'.refused.map Prod.fst ↔ key ∈ out.refused.map Prod.fst := by
  obtain ⟨hkeys, hcheck, hout⟩ := edit_ok.1 h
  cases hout
  obtain ⟨hat, happlied, hrefused⟩ := HeldBack.run_verdict (steady perms now change hs) (start_along.2 hs.ids) hread
  refine ⟨⟨HeldBack.run_once _ _ _ _, fun key hkey => ?_, fun key hkey i hi hn => ?_⟩, fun keys' now' hperm => ?_⟩
  · obtain ⟨hin, hgo⟩ := (happlied key).1 hkey
    obtain ⟨g, hg, hgoes, i, hi, j, hj, hni, hnj, hb⟩ := hgo
    exact ⟨j, hj, hnj, At.became hat hs hj ⟨g, hg, hgoes, i, hi, hni, hb⟩⟩
  · obtain ⟨-, hgo⟩ := (hrefused key).1 hkey
    refine hat.kept i hi ?_
    rintro ⟨g, hg, hgoes, r, hr, hnr, hb⟩
    exact hgo ⟨g, hg, hgoes, r, hr, i, hi, hnr, hn, hb⟩
  · obtain ⟨-, happlied', hrefused'⟩ := HeldBack.run_verdict (steady perms now' change hs) (start_along.2 hs.ids)
      fun key hkey => hread key (hperm.mem_iff.1 hkey)
    have hgo : ∀ key, (∃ g ∈ keys', Goes u setup perms now' change db g ∧ Takes u db g key) ↔
        ∃ g ∈ keys, Goes u setup perms now change db g ∧ Takes u db g key := fun key =>
      exists_congr fun g => and_congr hperm.mem_iff (and_congr_left fun _ => goes_now)
    refine ⟨_, _, edit_ok.2 ⟨(checkKeys_perm hperm).trans hkeys, hcheck, rfl⟩, fun key => ?_, fun key => ?_⟩
    · exact (happlied' key).trans ((and_congr hperm.mem_iff (hgo key)).trans (happlied key).symm)
    · exact (hrefused' key).trans ((and_congr hperm.mem_iff (not_congr (hgo key))).trans (hrefused key).symm)

end

namespace Small

open Issues.Small (task ops todo)

def epic : Issues.IssueType := ⟨⟨2, "Epic"⟩, 1, false⟩

def setup : Setup Issues.Small.statuses := { Issues.Small.setup with types := [task, epic], used := fun _ => [1, 2] }

def issue (id : Uuid) (type : Issues.IssueType) (num : Nat) (parent : Option Uuid) : Issue :=
  ⟨id, type, ops, num, 0, todo, none, none, 9, parent, none, none, none, none, [], [], [], []⟩

def db : Db := ⟨[issue 11 epic 1 none, issue 12 task 2 (some 11), issue 13 task 3 none], [], [], fun _ => 0⟩

theorem none_named : ∀ e ∈ (∅ : Finset (Perm.ProjectKey × Perm.Permission)), e.1 ∈ (∅ : Finset Perm.ProjectKey) :=
  fun _ h => absurd h (Finset.notMem_empty _)

def perms : Perm.Set := ⟨{readPermission, issueWrite}, ∅, ∅, [], none_named⟩

def toLab : Change := .move ['l', 'a', 'b'] []

def keys : List Text := [['O', 'P', 'S', '-', '2'], ['o', 'p', 's', '-', '1'], ['O', 'P', 'S', '-', '9']]

theorem sound : Sound setup db where
  ids := by decide
  keys := by decide
  valid := by decide
  parents := by
    intro i hi p hp
    rcases mem_cons.1 hi with rfl | hi
    · cases hp
    · rcases mem_pair.1 hi with rfl | rfl
      · cases hp
        exact ⟨_, mem_cons_self, rfl, rfl, by decide⟩
      · cases hp
  projects := by decide

end Small

/-- A task and its epic, in that order, and a key that names nothing. -/
theorem epic_accounted_for : ∃ out db', edit Tables.ascii Small.setup Small.perms (fun _ => 5) Small.toLab Small.db Small.keys = .ok (out, db') ∧
    Accounted Tables.ascii Small.toLab Small.db Small.keys out db' ∧ ∀ (keys' : List Text) (now' : Text → Int), keys'.Perm Small.keys →
      ∃ out' db'', edit Tables.ascii Small.setup Small.perms now' Small.toLab Small.db keys' = .ok (out', db'') ∧
        (∀ key, key ∈ out'.applied ↔ key ∈ out.applied) ∧
        ∀ key, key ∈ out'.refused.map Prod.fst ↔ key ∈ out.refused.map Prod.fst := by
  have hread : ∀ key ∈ Small.keys, ∃ k, readKey Tables.ascii key = some k := by
    intro key hkey
    rcases mem_cons.1 hkey with rfl | hkey
    · exact ⟨_, rfl⟩
    · rcases mem_pair.1 hkey with rfl | rfl <;> exact ⟨_, rfl⟩
  exact ⟨_, _, edit_ok.2 ⟨rfl, rfl, rfl⟩, accounted_for Small.sound hread (edit_ok.2 ⟨rfl, rfl, rfl⟩)⟩

end Bulk
end Armature
