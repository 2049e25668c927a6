import Mathlib.Data.Finset.Prod
import Mathlib.Data.Finset.Sort
import Mathlib.Data.String.Basic
/-!
# PermModel — what one person may do (`perm/perm.go`, `perm/definitions.go`)

A permission, a role and a project go by their texts: an organization's own roles may grant any.  A map to `true` is the
set of its keys, and the map of maps by project is its pairs beside the projects that have a map of their own.
-/
namespace Armature
namespace Perm

abbrev Permission := String
abbrev Role := String
abbrev ProjectKey := String

def globalAdministrator : Role := "global_administrator"

def orgWideOnly (r : Role) : Bool := decide (r = globalAdministrator)

def readPermission : Permission := "read"
def projectCreate : Permission := "project.create"
def orgAdminister : Permission := "org.administer"

def allPermissions : List Permission :=
  [readPermission, "issue.write", "issue.transition", "comment.write", "sprint.manage", "team.manage", "board.configure",
    "project.administer", projectCreate, orgAdminister]

/-- One role held over one project, or over the whole organization under an empty key. -/
structure Grant where
  role : Role
  projectKey : ProjectKey
  deriving DecidableEq

abbrev Definitions := Role → Option (List Permission)

@[ext]
structure Set where
  orgWide : Finset Permission
  byProject : Finset (ProjectKey × Permission)
  /-- The projects with a map of their own, be it empty. -/
  named : Finset ProjectKey
  roles : List Grant
  named_of : ∀ e ∈ byProject, e.1 ∈ named

namespace Set

def add (defs : Definitions) (s : Set) (g : Grant) : Set :=
  match defs g.role with
  | none => s
  | some perms =>
    if g.projectKey = "" then { s with orgWide := s.orgWide ∪ perms.toFinset }
    else
      { s with
        byProject := s.byProject ∪ perms.toFinset.image (g.projectKey, ·)
        named := insert g.projectKey s.named
        named_of := by
          intro e he
          rcases Finset.mem_union.1 he with he | he
          · exact Finset.mem_insert_of_mem (s.named_of e he)
          · obtain ⟨p, -, rfl⟩ := Finset.mem_image.1 he
            exact Finset.mem_insert_self _ _ }

def ofRoles (grants : List Grant) : Set := ⟨∅, ∅, ∅, grants, fun _ h => absurd h (Finset.notMem_empty _)⟩

def newSetWith (grants : List Grant) (defs : Definitions) : Set := grants.foldl (add defs) (ofRoles grants)

def ofPairs (orgWide : Finset Permission) (byProject : Finset (ProjectKey × Permission)) (roles : List Grant) : Set :=
  ⟨orgWide, byProject, byProject.image Prod.fst, roles, fun _ h => Finset.mem_image_of_mem _ h⟩

/-! ## Questions -/

def canInOrg (s : Set) (p : Permission) : Bool := decide (p ∈ s.orgWide)

def can (s : Set) (p : Permission) (projectKey : ProjectKey) : Bool :=
  s.canInOrg p || decide ((projectKey, p) ∈ s.byProject)

def orgPermissions (s : Set) : List Permission := allPermissions.filter s.canInOrg

def projects (s : Set) : List ProjectKey := s.named.sort

def projectPermissions (s : Set) (projectKey : ProjectKey) : Option (List Permission) :=
  if projectKey ∈ s.named then some (allPermissions.filter fun p => decide ((projectKey, p) ∈ s.byProject)) else none

def readable (s : Set) : Option (List ProjectKey) :=
  if s.canInOrg readPermission then none
  else some ((s.named.filter fun k => (k, readPermission) ∈ s.byProject).sort)

/-! ## Narrowing -/

def keyRefused : List Permission := [orgAdminister, projectCreate]

def keyGrants (s : Set) (projects : List ProjectKey) : List Grant :=
  s.roles.filter fun g =>
    !orgWideOnly g.role && (decide (g.projectKey = "") || projects.isEmpty || projects.contains g.projectKey)

def asKey (s : Set) (projects : List ProjectKey) : Set :=
  let lent := s.orgWide.filter (· ∉ keyRefused)
  let here := s.byProject.filter fun e => (projects = [] ∨ e.1 ∈ projects) ∧ e.2 ∉ keyRefused
  if projects = [] then ofPairs lent here (s.keyGrants projects)
  else ofPairs ∅ (projects.toFinset ×ˢ lent ∪ here) (s.keyGrants projects)

def only (s : Set) (names : List String) : Set :=
  ofPairs (s.orgWide.filter (· ∈ names)) (s.byProject.filter fun e => e.2 ∈ names) s.roles

end Set
end Perm
end Armature
