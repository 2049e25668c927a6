import Armature.PermModel
import Armature.Transactions
/-!
# PermAdmin — who administers, over any interleaving (`perm/assign.go`, `perm/store.go`, `migrations/00951_…`)

A transaction that takes a global administrator assignment away holds a lock from its count to its end, so one always
remains.  The count is of assignments: it does not see whether a group that has one has a member.
-/
namespace Armature
namespace Perm
namespace Admin

open List

inductive Subject where
  | user (id : Nat)
  | group (id : Nat)
  deriving DecidableEq

/-- A row of `role_assignment`. -/
structure Assignment where
  id : Nat
  role : Role
  project : Option Nat
  subject : Subject
  deriving DecidableEq

structure Group where
  id : Nat
  builtin : Bool
  fromProvider : Bool
  deriving DecidableEq

structure RoleRow where
  installationWideOnly : Bool
  permissions : List Permission

structure Db where
  assignments : List Assignment
  groups : List Group
  /-- The rows of `group_member`: a group and a person. -/
  members : List (Nat × Nat)
  roles : Role → Option RoleRow
  projects : List Nat
  /-- The installation's members. -/
  people : List Nat

def resolveFor (db : Db) (user : Nat) : List Role :=
  (db.assignments.filter fun a =>
    match a.subject with
    | .user u => u == user
    | .group g => db.members.contains (g, user)).map Assignment.role

def Administered (db : Db) : Prop := ∃ user, globalAdministrator ∈ resolveFor db user

def isAdmin (a : Assignment) : Bool := decide (a.role = globalAdministrator)

/-! ## Transactions -/

inductive Op where
  | grant (id : Nat) (role : Role) (project : Option Nat) (subject : Subject)
  | revoke (id : Nat)
  | createGroup (id : Nat) (fromProvider : Bool)
  | deleteGroup (id : Nat)
  | addToGroup (group user : Nat)
  | removeFromGroup (group user : Nat)

inductive Refusal where
  | notFound | roleNotFound | scope | everyoneAdministers | notAMember | lastGlobalAdministrator | builtinGroup
  | managedElsewhere
  deriving DecidableEq

inductive Change where
  | none
  | insert (a : Assignment)
  | remove (a : Assignment)
  | newGroup (g : Group)
  | dropGroup (group : Nat)
  | join (group user : Nat)
  | leave (group user : Nat)
  deriving DecidableEq

/-- What a transaction has written, and whether it holds the lock on taking global administration away. -/
structure Effect where
  change : Change
  locked : Bool
  deriving DecidableEq

def Change.takes : Change → Assignment → Bool
  | .remove b, a => a == b
  | .dropGroup g, a => a.subject == .group g
  | _, _ => false

def Change.parts : Change → Nat × Nat → Bool
  | .dropGroup g, m => m.1 == g
  | .leave g u, m => m == (g, u)
  | _, _ => false

def Change.apply (c : Change) (db : Db) : Db :=
  { db with
    assignments := (match c with | .insert a => [a] | _ => []) ++ db.assignments.filter fun a => !c.takes a
    groups :=
      match c with
      | .newGroup g => g :: db.groups
      | .dropGroup g => db.groups.filter (·.id ≠ g)
      | _ => db.groups
    members := (match c with | .join g u => [(g, u)] | _ => []) ++ db.members.filter fun m => !c.parts m }

def apply (e : Effect) (db : Db) : Db := e.change.apply db

def keepsAnAdministrator (db : Db) (c : Change) : Bool := db.assignments.any fun a => isAdmin a && !c.takes a

def groupOf (db : Db) (id : Nat) : Except Refusal Group :=
  match db.groups.find? (·.id = id) with
  | none => .error .notFound
  | some g => if g.builtin then .error .builtinGroup else .ok g

def statements (db : Db) : Op → Except Refusal Effect
  | .grant id role project subject =>
    match if role = "" then none else db.roles role with
    | none => .error .roleNotFound
    | some row =>
      if row.installationWideOnly ∧ project ≠ none then .error .scope
      else if (match subject with
          | .group g => db.groups.any (fun r => r.id == g && r.builtin) && row.permissions.contains orgAdminister
          | .user _ => false) then .error .everyoneAdministers
      else if (match project with
          | some p => !db.projects.contains p
          | none => false) then .error .notFound
      else if (match subject with
          | .user u => !db.people.contains u
          | .group g => !db.groups.any (fun r => r.id == g)) then .error .notAMember
      -- granting the same thing twice leaves the row there is
      else if db.assignments.any (fun a => a.role == role && a.project == project && a.subject == subject) then
        .ok ⟨.none, false⟩
      else .ok ⟨.insert ⟨id, role, project, subject⟩, false⟩
  | .revoke id =>
    match db.assignments.find? (·.id = id) with
    | none => .error .notFound
    | some found =>
      if found.role = globalAdministrator then
        if (db.assignments.filter fun a => isAdmin a && !decide (a.id = id)).length = 0 then .error .lastGlobalAdministrator
        else if keepsAnAdministrator db (.remove found) then .ok ⟨.remove found, true⟩
        else .error .lastGlobalAdministrator
      else .ok ⟨.remove found, false⟩
  | .createGroup id fromProvider => .ok ⟨.newGroup ⟨id, false, fromProvider⟩, false⟩
  | .deleteGroup id => do
    let _ ← groupOf db id
    -- the rows of the group's roles go with it, each past the trigger
    if db.assignments.any (fun a => isAdmin a && a.subject == .group id) then
      if keepsAnAdministrator db (.dropGroup id) then .ok ⟨.dropGroup id, true⟩ else .error .lastGlobalAdministrator
    else .ok ⟨.dropGroup id, false⟩
  | .addToGroup group user => do
    let g ← groupOf db group
    if g.fromProvider then .error .managedElsewhere
    else if !db.people.contains user then .error .notAMember
    else if db.members.contains (group, user) then .ok ⟨.none, false⟩
    else .ok ⟨.join group user, false⟩
  | .removeFromGroup group user => do
    let g ← groupOf db group
    if g.fromProvider then .error .managedElsewhere else .ok ⟨.leave group user, false⟩

def Change.references : Change → Option Nat
  | .insert a => match a.subject with | .group g => some g | .user _ => Option.none
  | .join g _ => some g
  | _ => Option.none

/-- What two running transactions cannot both have done: the second waits for the lock, the row or the group. -/
structure Apart (e t : Effect) : Prop where
  locks : ¬ (e.locked = true ∧ t.locked = true)
  rows : ∀ a, ¬ (e.change.takes a = true ∧ t.change.takes a = true)
  same : ∀ a b, e.change = .insert a → t.change = .insert b → (a.role, a.project, a.subject) ≠ (b.role, b.project, b.subject)
  groups : ∀ g, ¬ (e.change = .dropGroup g ∧ t.change.references = some g) ∧
    ¬ (t.change = .dropGroup g ∧ e.change.references = some g)

def May (db : Db) (running : List Effect) (e : Effect) : Prop :=
  (∃ op, statements db op = .ok e) ∧ ∀ t ∈ running, Apart e t

abbrev Run : Db → Transactions.Active Db Effect → Prop := Transactions.Run apply May

theorem Apart.symm {e t : Effect} (h : Apart e t) : Apart t e :=
  ⟨fun hl => h.locks ⟨hl.2, hl.1⟩, fun a ha => h.rows a ⟨ha.2, ha.1⟩, fun a b ha hb => (h.same b a hb ha).symm,
    fun g => ⟨(h.groups g).2, (h.groups g).1⟩⟩

/-! ## One assignment always remains -/

def HasAssignment (db : Db) : Prop := ∃ a ∈ db.assignments, isAdmin a = true

/-- What a change to the data leaves as it is, of the role: everything without the lock, one assignment with it. -/
structure Leaves (db : Db) (e : Effect) : Prop where
  locked : e.locked = true → ∃ a ∈ db.assignments, isAdmin a = true ∧ e.change.takes a = false
  free : e.locked = false → ∀ a ∈ db.assignments, isAdmin a = true → e.change.takes a = false
  other : ∀ b, e.locked = false → e.change = .remove b → isAdmin b = false

theorem mem_apply {db : Db} {e : Effect} {a : Assignment} :
    a ∈ (apply e db).assignments ↔ e.change = .insert a ∨ (a ∈ db.assignments ∧ e.change.takes a = false) := by
  simp only [apply, Change.apply, mem_append, mem_filter, Bool.not_eq_eq_eq_not, Bool.not_true]
  apply or_congr _ Iff.rfl
  cases e.change <;> simp [eq_comm]

theorem keepsAnAdministrator_iff {db : Db} {c : Change} :
    keepsAnAdministrator db c = true ↔ ∃ a ∈ db.assignments, isAdmin a = true ∧ c.takes a = false := by
  simp [keepsAnAdministrator]

theorem Leaves.harmless (db : Db) {c : Change} (h : ∀ a, c.takes a = false) (hr : ∀ b, c ≠ .remove b) :
    Leaves db ⟨c, false⟩ :=
  ⟨fun hl => absurd hl (by simp), fun _ a _ _ => h a, fun b _ hb => absurd hb (hr b)⟩

theorem statements_leaves {db : Db} {op : Op} {e : Effect} (h : statements db op = .ok e) : Leaves db e := by
  cases op with
  | grant =>
    simp only [statements] at h
    split at h
    · cases h
    repeat' split at h
    all_goals first
      | cases h
        exact Leaves.harmless db (fun _ => rfl) (fun _ => by simp)
      | cases h
  | revoke id =>
    simp only [statements] at h
    split at h
    · cases h
    · rename_i found hfound
      split_ifs at h with hrole hcount hkeep
      · cases h
        exact ⟨fun _ => keepsAnAdministrator_iff.1 hkeep, fun hl => absurd hl (by simp), fun _ hl => absurd hl (by simp)⟩
      · cases h
        refine ⟨fun hl => absurd hl (by simp), fun _ a _ ha => ?_, fun b _ hb => ?_⟩
        · have : a ≠ found := fun heq => hrole (by simpa [isAdmin, heq] using ha)
          simpa [Change.takes] using this
        · cases hb
          simpa [isAdmin] using hrole
  | createGroup =>
    cases h
    exact Leaves.harmless db (fun _ => rfl) (fun _ => by simp)
  | deleteGroup id =>
    simp only [statements] at h
    cases hg : groupOf db id with
    | error => rw [hg] at h; cases h
    | ok =>
      rw [hg] at h
      simp only [bind, Except.bind] at h
      split_ifs at h with hany hkeep
      · cases h
        exact ⟨fun _ => keepsAnAdministrator_iff.1 hkeep, fun hl => absurd hl (by simp), fun _ hl => absurd hl (by simp)⟩
      · cases h
        refine ⟨fun hl => absurd hl (by simp), fun _ a ha hadmin => ?_, fun b _ hb => absurd hb (by simp)⟩
        have hno := any_eq_false.1 (Bool.eq_false_iff.2 hany) a ha
        simpa [Change.takes, hadmin] using hno
  | addToGroup group user =>
    simp only [statements] at h
    cases hg : groupOf db group with
    | error => rw [hg] at h; cases h
    | ok =>
      rw [hg] at h
      simp only [bind, Except.bind] at h
      split_ifs at h
      · cases h; exact Leaves.harmless db (fun _ => rfl) (fun _ => by simp)
      · cases h; exact Leaves.harmless db (fun _ => rfl) (fun _ => by simp)
  | removeFromGroup group user =>
    simp only [statements] at h
    cases hg : groupOf db group with
    | error => rw [hg] at h; cases h
    | ok =>
      rw [hg] at h
      simp only [bind, Except.bind] at h
      split_ifs at h
      cases h
      exact Leaves.harmless db (fun _ => rfl) (fun _ => by simp)

theorem hasAssignment_apply {db : Db} {e : Effect} (hp : HasAssignment db) (he : Leaves db e) :
    HasAssignment (apply e db) := by
  cases hl : e.locked with
  | true =>
    obtain ⟨a, ha, hadmin, hkept⟩ := he.locked hl
    exact ⟨a, mem_apply.2 (Or.inr ⟨ha, hkept⟩), hadmin⟩
  | false =>
    obtain ⟨a, ha, hadmin⟩ := hp
    exact ⟨a, mem_apply.2 (Or.inr ⟨ha, he.free hl a ha hadmin⟩), hadmin⟩

theorem Leaves.stable {db : Db} {e t : Effect} (he : Leaves db e) (ht : Leaves db t) (h : Apart e t) :
    Leaves (apply e db) t where
  locked hl := by
    obtain ⟨a, ha, hadmin, hkept⟩ := ht.locked hl
    have hfree : e.locked = false := Bool.eq_false_iff.2 fun hel => h.locks ⟨hel, hl⟩
    exact ⟨a, mem_apply.2 (Or.inr ⟨ha, he.free hfree a ha hadmin⟩), hadmin, hkept⟩
  free hl a ha hadmin := by
    rcases mem_apply.1 ha with hins | ⟨ha, -⟩
    · cases ht' : t.change with
      | remove b =>
        have hb := ht.other b hl ht'
        have : a ≠ b := fun heq => by rw [heq, hb] at hadmin; exact absurd hadmin (by simp)
        simpa [Change.takes] using this
      | dropGroup g =>
        have hsub : a.subject ≠ .group g := fun hsub => (h.groups g).2 ⟨ht', by simp [hins, Change.references, hsub]⟩
        simpa [Change.takes] using hsub
      | _ => rfl
    · exact ht.free hl a ha hadmin
  other b hl hb := ht.other b hl hb

theorem assignment_stays {ok : Db → List Effect → Effect → Prop} {db : Db} {s : Transactions.Active Db Effect}
    (h₀ : HasAssignment db) (h : Transactions.RunWhere apply May ok db s) : HasAssignment s.db := by
  have h₀' : Transactions.Relied HasAssignment Leaves Apart db [] :=
    ⟨h₀, nofun, List.Pairwise.nil⟩
  have hrelied : Transactions.Relied HasAssignment Leaves Apart s.db s.running := by
    refine Transactions.relied_on ?_ ?_ ?_ ?_ h₀' h
    · exact fun _ _ ha => ha.symm
    · rintro _ _ _ _ ⟨⟨_, hop⟩, hapart⟩
      exact ⟨statements_leaves hop, hapart⟩
    · exact fun _ _ hp he => hasAssignment_apply hp he
    · exact fun _ _ _ _ he ht ha => he.stable ht ha
  exact hrelied.1

/-- **One assignment of the role always remains**, in every run and whatever runs together. -/
theorem run_hasAssignment {db : Db} {s : Transactions.Active Db Effect} (h₀ : HasAssignment db) (h : Run db s) :
    HasAssignment s.db :=
  assignment_stays h₀ h

/-! ## But not always somebody to hold it -/

def Carried (db : Db) (a : Assignment) : Prop :=
  isAdmin a = true ∧ ∀ g, a.subject = .group g → ∃ u, (g, u) ∈ db.members

def Manned (db : Db) : Prop := ∀ a ∈ db.assignments, isAdmin a = true → ∀ g, a.subject = .group g → ∃ u, (g, u) ∈ db.members

def Mans (db : Db) (_ : List Effect) (e : Effect) : Prop :=
  match e.change with
  | .insert a => isAdmin a = true → ∀ g, a.subject = .group g → ∃ u, (g, u) ∈ db.members
  | .leave g u => (∃ a ∈ db.assignments, isAdmin a = true ∧ a.subject = .group g) → ∃ v, v ≠ u ∧ (g, v) ∈ db.members
  | _ => True

theorem administered_iff {db : Db} : Administered db ↔ ∃ a ∈ db.assignments, Carried db a := by
  simp only [Administered, resolveFor, mem_map, mem_filter]
  constructor
  · rintro ⟨user, a, ⟨ha, hsub⟩, hrole⟩
    refine ⟨a, ha, by simp [isAdmin, hrole], fun g hg => ?_⟩
    rw [hg] at hsub
    exact ⟨user, by simpa using hsub⟩
  · rintro ⟨a, ha, hadmin, hg⟩
    have hrole : a.role = globalAdministrator := by simpa [isAdmin] using hadmin
    cases hs : a.subject with
    | user u => exact ⟨u, a, ⟨ha, by simp [hs]⟩, hrole⟩
    | group g =>
      obtain ⟨u, hu⟩ := hg g hs
      exact ⟨u, a, ⟨ha, by simpa [hs] using hu⟩, hrole⟩

theorem mem_members {db : Db} {e : Effect} {m : Nat × Nat} :
    m ∈ (apply e db).members ↔ e.change = .join m.1 m.2 ∨ (m ∈ db.members ∧ e.change.parts m = false) := by
  simp only [apply, Change.apply, mem_append, mem_filter, Bool.not_eq_eq_eq_not, Bool.not_true]
  apply or_congr _ Iff.rfl
  cases e.change <;> simp [Prod.ext_iff, eq_comm]

theorem manned_apply {db : Db} {others : List Effect} {e : Effect} (h : Manned db) (he : Mans db others e) :
    Manned (apply e db) := by
  intro a ha hadmin g hg
  rcases mem_apply.1 ha with hins | ⟨ha, htakes⟩
  · simp only [Mans, hins] at he
    obtain ⟨u, hu⟩ := he hadmin g hg
    exact ⟨u, mem_members.2 (Or.inr ⟨hu, by rw [hins]; rfl⟩)⟩
  · obtain ⟨u, hu⟩ := h a ha hadmin g hg
    cases hch : e.change with
    | dropGroup g' =>
      have hne : g ≠ g' := fun heq => by simp [hch, Change.takes, hg, heq] at htakes
      exact ⟨u, mem_members.2 (Or.inr ⟨hu, by simpa [hch, Change.parts] using hne⟩)⟩
    | leave g' u' =>
      by_cases heq : g = g'
      · simp only [Mans, hch] at he
        obtain ⟨v, hne, hv⟩ := he ⟨a, ha, hadmin, heq ▸ hg⟩
        exact ⟨v, mem_members.2 (Or.inr ⟨heq ▸ hv, by simp [hch, Change.parts, hne]⟩)⟩
      · exact ⟨u, mem_members.2 (Or.inr ⟨hu, by simp [hch, Change.parts, heq]⟩)⟩
    | _ => exact ⟨u, mem_members.2 (Or.inr ⟨hu, by rw [hch]; rfl⟩)⟩

/-- **Somebody always administers, where no group that has the role is ever left without members**: of the assignments one
always remains, and it is somebody's. -/
theorem somebody_administers {db : Db} {s : Transactions.Active Db Effect} (h₀ : Administered db) (hm : Manned db)
    (h : Transactions.RunWhere apply May Mans db s) : Administered s.db := by
  obtain ⟨a, ha, hc⟩ := administered_iff.1 h₀
  have hmanned : Manned s.db := Transactions.RunWhere.invariant (P := Manned) (fun _ _ _ hp hs => manned_apply hp hs) hm h
  obtain ⟨b, hb, hadmin⟩ := assignment_stays ⟨a, ha, hc.1⟩ h
  exact administered_iff.2 ⟨b, hb, hadmin, hmanned b hb hadmin⟩

def adaAndNobodys : Db where
  assignments := [⟨1, globalAdministrator, none, .user 7⟩, ⟨2, globalAdministrator, none, .group 3⟩]
  groups := [⟨3, false, false⟩]
  members := []
  roles := fun _ => some ⟨true, allPermissions⟩
  projects := []
  people := [7]

def adaAndTeam : Db := { adaAndNobodys with members := [(3, 8), (3, 9)] }

theorem adaAndTeam_manned : Manned adaAndTeam := by
  intro a ha _ g hg
  rcases mem_cons.1 ha with rfl | ha
  · cases hg
  · obtain rfl := mem_singleton.1 ha
    cases hg
    exact ⟨8, mem_cons_self⟩

/-- Ada's assignment is revoked while the group, which has one too, loses one of its two members. -/
theorem team_administers : Administered
    (apply ⟨.leave 3 8, false⟩ (apply ⟨.remove ⟨1, globalAdministrator, none, .user 7⟩, true⟩ adaAndTeam)) := by
  have hstart : Transactions.RunWhere apply May Mans adaAndTeam ⟨adaAndTeam, []⟩ := Transactions.RunWhere.start _
  have hrevoke := hstart.write (e := ⟨.remove ⟨1, globalAdministrator, none, .user 7⟩, true⟩)
    ⟨⟨.revoke 1, by decide +kernel⟩, nofun⟩
  have hapart : Apart ⟨.leave 3 8, false⟩ ⟨.remove ⟨1, globalAdministrator, none, .user 7⟩, true⟩ :=
    ⟨fun h => absurd h.1 Bool.false_ne_true, fun a h => absurd h.1 Bool.false_ne_true, fun a b h => (by cases h),
      fun g => ⟨fun h => (by cases h.1), fun h => (by cases h.1)⟩⟩
  have hleave := hrevoke.write (e := ⟨.leave 3 8, false⟩)
    ⟨⟨.removeFromGroup 3 8, by decide +kernel⟩, fun t ht => mem_singleton.1 ht ▸ hapart⟩
  refine somebody_administers ⟨7, by decide +kernel⟩ adaAndTeam_manned ((hleave.commit [_] trivial).commit [] fun _ => ?_)
  exact ⟨9, by decide, by decide⟩

theorem nobodys_remains : HasAssignment (apply ⟨.remove ⟨1, globalAdministrator, none, .user 7⟩, true⟩ adaAndNobodys) := by
  have hst : statements adaAndNobodys (.revoke 1) = .ok ⟨.remove ⟨1, globalAdministrator, none, .user 7⟩, true⟩ := by
    decide +kernel
  have hstart : Run adaAndNobodys ⟨adaAndNobodys, []⟩ := Transactions.RunWhere.start _
  exact run_hasAssignment ⟨_, mem_cons_self, by decide⟩
    ((hstart.write ⟨⟨_, hst⟩, nofun⟩).commit [] trivial)

/-- Ada's assignment is revoked: the empty group's counts as the one that stays. -/
theorem nobody_administers :
    ¬ ∀ (db : Db) (s : Transactions.Active Db Effect), Administered db → Run db s → Administered s.db := by
  intro h
  have hst : statements adaAndNobodys (.revoke 1) = .ok ⟨.remove ⟨1, globalAdministrator, none, .user 7⟩, true⟩ := by
    decide +kernel
  have hstart : Run adaAndNobodys ⟨adaAndNobodys, []⟩ := Transactions.RunWhere.start _
  have hrun := (hstart.write ⟨⟨_, hst⟩, nofun⟩).commit [] trivial
  obtain ⟨user, hu⟩ := h adaAndNobodys _ ⟨7, by decide +kernel⟩ hrun
  have hnone : ∀ u, resolveFor (apply ⟨.remove ⟨1, globalAdministrator, none, .user 7⟩, true⟩ adaAndNobodys) u = [] :=
    fun _ => rfl
  rw [hnone] at hu
  cases hu

end Admin
end Perm
end Armature
