import Armature.GitPack
/-!
# GitProxy — which pushes the proxy lets through (`git/proxy.go`)

`checkPush` judges every command of a push.  An update of a branch goes through only if the pack shows it to be a fast
forward; the proxy's parents of a commit are all its header's parent lines, and git's those right after the tree line, so a
stray parent line can make a rewrite look like one (`pushes_keep_history`).
-/
namespace Armature
namespace Git

open List
open Go (Bytes bytes bytes_ne_nil)

structure Context where
  defaultBranch : Bytes
  /-- The project and the key of the issue that a branch still on the host was made for. -/
  branchIssue : Bytes → Option (Bytes × Bytes)
  mayEdit : Bytes → Bool

def headsPrefix : Bytes := bytes "refs/heads/"

def tagsPrefix : Bytes := bytes "refs/tags/"

structure PushedRef where
  ref : Bytes
  old : Bytes
  new : Bytes
  issue : Bytes
  refused : Bytes
  deriving DecidableEq

abbrev Cache := Option (List (Bytes × List Bytes))

section
variable (h : Hashes) (zlib : Zlib) (ctx : Context)

def commitsOf (pack : Bytes) (hexLen : Nat) : Cache → Except BadPack (List (Bytes × List Bytes))
  | some found => .ok found
  | none => packCommits h zlib pack hexLen

def judge (pack : Bytes) (u : RefUpdate) (commits : Cache) : (Bytes × Bytes) × Cache :=
  let isBranch := headsPrefix.isPrefixOf u.ref
  let branch := u.ref.drop headsPrefix.length
  if tagsPrefix.isPrefixOf u.ref then
    ((bytes "Tags are not pushed through Armature. Push a branch made for an issue, and tag on the host.", []), commits)
  else if !isBranch || branch == [] then ((bytes "Only a branch made for an issue is pushed through Armature.", []), commits)
  else if branch = ctx.defaultBranch then
    ((branch ++ bytes " is the default branch, which takes work only through a pull request. " ++
      bytes "Push to the issue's branch and open one.", []), commits)
  else if u.deletes then
    ((bytes "Armature does not delete branches. Delete it on the host, or leave it to its pull request.", []), commits)
  else
    match ctx.branchIssue branch with
    | none =>
      ((branch ++ bytes " was not made for an issue. Make the issue's branch with create_issue_branch and push to that.", []),
        commits)
    | some (project, key) =>
      if !ctx.mayEdit project then
        ((bytes "You may not edit " ++ key ++ bytes ", so you may not push to its branch.", key), commits)
      else if u.creates then (([], key), commits)
      else
        match commitsOf h zlib pack u.new.length commits with
        | .error _ =>
          ((bytes "Armature could not read the commits in this push, so it cannot tell it rewrites nothing. " ++
            bytes "Push again with a current git.", key), commits)
        | .ok found =>
          if !fastForward found u.old u.new then
            ((bytes "This would rewrite " ++ branch ++ bytes ", and Armature never force-pushes. " ++
              bytes "Fetch the branch, put your work on top of it and push again.", key), some found)
          else (([], key), some found)

def judgeAll (pack : Bytes) : List RefUpdate → Cache → List PushedRef
  | [], _ => []
  | u :: us, commits =>
    let ((reason, key), commits) := judge h zlib ctx pack u commits
    ⟨u.ref, u.old, u.new, key, reason⟩ :: judgeAll pack us commits

def checkPush (push : PushRequest) : List PushedRef × Bool :=
  let refs := judgeAll h zlib ctx push.pack push.updates none
  let allowed := refs.all fun r => r.refused == []
  if allowed then (refs, true)
  else
    (refs.map fun r =>
      if r.refused = [] then { r with refused := bytes "Another ref in this push was refused, so none of it was pushed." } else r,
      false)

end

/-! ## History as git reads it -/

def headerLines (body : Bytes) : List Bytes := (body.splitOn 10).dropLast

def gitParents (body : Bytes) : List Bytes :=
  match headerLines body with
  | tree :: rest =>
    if (bytes "tree ").isPrefixOf tree then (rest.takeWhile parentPrefix.isPrefixOf).map (List.drop parentPrefix.length) else []
  | [] => []

/-- The commits that git has, by id.  The id of a ref that is not there names none. -/
structure Store where
  commit : Bytes → Option Bytes
  null : ∀ id, zeroOID id = true → commit id = none

def Store.Reaches (store : Store) (new old : Bytes) : Prop :=
  Relation.ReflTransGen (fun id p => ∃ body, store.commit id = some body ∧ p ∈ gitParents body) new old

def Store.Holds (store : Store) (h : Hashes) (zlib : Zlib) (pack : Bytes) : Prop :=
  ∀ hexLen st, hexLen = 40 ∨ hexLen = 64 → readPack h zlib pack hexLen = .ok st →
    ∀ id s, (id, s) ∈ st.byID → store.commit id = some s

def KeepsHistory (store : Store) (push : PushRequest) : Prop :=
  ∀ u ∈ push.updates, u.creates = false → store.Reaches u.new u.old

def StraysReach (store : Store) (h : Hashes) (zlib : Zlib) (pack new : Bytes) : Prop :=
  ∀ hexLen st, hexLen = 40 ∨ hexLen = 64 → readPack h zlib pack hexLen = .ok st →
    ∀ id s, QueueSearch.Leads (parentsIn st.commits) new id → (id, s) ∈ st.byID →
      ∀ p ∈ parentsOf s, p ∉ gitParents s → isOID p = true → zeroOID p = false → store.Reaches new p

def WellFormed (push : PushRequest) : Prop := ∀ u ∈ push.updates, isOID u.old = true ∧ isOID u.new = true

def Pushable (ctx : Context) (branch : Bytes) : Prop :=
  branch ≠ [] ∧ branch ≠ ctx.defaultBranch ∧ ∃ project key, ctx.branchIssue branch = some (project, key) ∧ ctx.mayEdit project = true

/-! ## What is read of a pack -/

section
variable {h : Hashes} {zlib : Zlib}

theorem readEntry_cases {packLen hexLen : Nat} {st st' : Reading} (hr : readEntry h zlib packLen hexLen st = .ok st') :
    (∃ body : Bytes, st'.byID = (objectID h hexLen (bytes "commit") body, body) :: st.byID ∧
      st'.commits = (objectID h hexLen (bytes "commit") body, parentsOf body) :: st.commits) ∨
    (st'.byID = st.byID ∧ st'.commits = st.commits) := by
  simp only [readEntry, Go.bind_ok] at hr
  obtain ⟨⟨kind, size, r⟩, -, hr⟩ := hr
  by_cases hbig : maxUnpackedPush < st.inflated + size
  · rw [if_pos hbig] at hr
    cases hr
  rw [if_neg hbig] at hr
  simp only [Go.bind_ok] at hr
  obtain ⟨⟨base, r'⟩, -, ⟨body, r''⟩, -, hr⟩ := hr
  cases base with
  | some =>
    obtain ⟨out, -, hr⟩ := Go.bind_ok.1 hr
    cases hr
    exact Or.inl ⟨out, rfl, rfl⟩
  | none =>
    dsimp only at hr
    split_ifs at hr
    · cases hr
      exact Or.inl ⟨body, rfl, rfl⟩
    · cases hr
      exact Or.inr ⟨rfl, rfl⟩

/-- The commits go by their hashes, and their parents are those of their headers. -/
structure Named (h : Hashes) (hexLen : Nat) (st : Reading) : Prop where
  id_eq : ∀ id s, (id, s) ∈ st.byID → id = objectID h hexLen (bytes "commit") s
  commits_eq : st.commits = st.byID.map fun e => (e.1, parentsOf e.2)

theorem readEntries_named {packLen hexLen : Nat} : ∀ {count : Nat} {st st' : Reading}, Named h hexLen st →
    readEntries h zlib packLen hexLen count st = .ok st' → Named h hexLen st'
  | 0, st, st', hn, hr => by
    cases hr
    exact hn
  | count + 1, st, st', hn, hr => by
    obtain ⟨st₁, h₁, hr⟩ := Go.bind_ok.1 hr
    refine readEntries_named ?_ hr
    rcases readEntry_cases h₁ with ⟨body, hid, hc⟩ | ⟨hid, hc⟩
    · refine ⟨fun id s hmem => ?_, by rw [hc, hid, hn.commits_eq, map_cons]⟩
      rw [hid] at hmem
      rcases mem_cons.1 hmem with heq | hmem
      · cases heq
        rfl
      · exact hn.id_eq id s hmem
    · exact ⟨fun id s hmem => hn.id_eq id s (hid ▸ hmem), by rw [hc, hid, hn.commits_eq]⟩

theorem readPack_named {pack : Bytes} {hexLen : Nat} {st : Reading} (hr : readPack h zlib pack hexLen = .ok st) :
    Named h hexLen st := by
  have hempty : ∀ rest : Bytes, Named h hexLen ⟨rest, 0, [], [], []⟩ := fun _ => ⟨nofun, rfl⟩
  unfold readPack at hr
  split_ifs at hr
  · cases hr
    exact hempty []
  · exact readEntries_named (hempty _) hr

theorem objectID_isOID (h : Hashes) {hexLen : Nat} (hlen : hexLen = 40 ∨ hexLen = 64) (kind body : Bytes) :
    isOID (objectID h hexLen kind body) = true ∧ (objectID h hexLen kind body).length = hexLen := by
  unfold objectID
  rcases hlen with rfl | rfl
  · exact h.sha1_id _
  · exact h.sha256_id _

theorem Named.parentsIn_eq {hexLen : Nat} {st : Reading} (hn : Named h hexLen st) {id s : Bytes} (hs : (id, s) ∈ st.byID)
    (hone : ∀ s', (id, s') ∈ st.byID → s' = s) : parentsIn st.commits id = parentsOf s := by
  unfold parentsIn find
  cases hf : st.commits.find? fun e => e.1 = id with
  | none =>
    have hmem : (id, parentsOf s) ∈ st.commits := hn.commits_eq ▸ mem_map_of_mem hs
    have := List.find?_eq_none.1 hf _ hmem
    simp at this
  | some e =>
    have hmem := mem_of_find?_eq_some hf
    have hid : e.1 = id := by simpa using List.find?_some hf
    rw [hn.commits_eq] at hmem
    obtain ⟨⟨id', s'⟩, hs', rfl⟩ := mem_map.1 hmem
    obtain rfl : id' = id := hid
    rw [hone s' hs']
    rfl

theorem Named.mem_parentsIn {hexLen : Nat} {st : Reading} (hn : Named h hexLen st) {id p : Bytes} (hp : p ∈ parentsIn st.commits id) :
    ∃ s, (id, s) ∈ st.byID ∧ p ∈ parentsOf s := by
  unfold parentsIn find at hp
  cases hf : st.commits.find? fun e => e.1 = id with
  | none => simp [hf] at hp
  | some e =>
    have hmem := mem_of_find?_eq_some hf
    have hid : e.1 = id := by simpa using List.find?_some hf
    rw [hn.commits_eq] at hmem
    obtain ⟨⟨id', s⟩, hs, rfl⟩ := mem_map.1 hmem
    rw [hf] at hp
    exact ⟨s, hid ▸ hs, hp⟩

end

/-! ## What the commits show -/

section
variable {h : Hashes} {zlib : Zlib} {store : Store} {pack : Bytes}

theorem parentsIn_isOID (hholds : store.Holds h zlib pack) {hexLen : Nat} (hlen : hexLen = 40 ∨ hexLen = 64) {st : Reading}
    (hr : readPack h zlib pack hexLen = .ok st) {id s : Bytes} (hs : (id, s) ∈ st.byID) :
    isOID id = true ∧ id.length = hexLen ∧ zeroOID id = false := by
  obtain ⟨hoid, hidLen⟩ : isOID id = true ∧ id.length = hexLen := by
    rw [(readPack_named hr).id_eq id s hs]
    exact objectID_isOID h hlen _ _
  refine ⟨hoid, hidLen, Bool.eq_false_iff.2 fun hz => ?_⟩
  have hstored := hholds hexLen st hlen hr id s hs
  rw [store.null id hz] at hstored
  cases hstored

theorem leads_reaches (hholds : store.Holds h zlib pack) {new : Bytes} (hstrays : StraysReach store h zlib pack new)
    {hexLen : Nat} (hlen : hexLen = 40 ∨ hexLen = 64) {st : Reading} (hr : readPack h zlib pack hexLen = .ok st) {old : Bytes}
    (hl : QueueSearch.Leads (parentsIn st.commits) new old) (hold : isOID old = true ∧ zeroOID old = false) :
    store.Reaches new old := by
  induction hl with
  | refl => exact Relation.ReflTransGen.refl
  | @tail id p hid hp ih =>
    obtain ⟨s, hs, hmem⟩ := (readPack_named hr).mem_parentsIn hp
    by_cases hgit : p ∈ gitParents s
    · obtain ⟨hoid, -, hzero⟩ := parentsIn_isOID hholds hlen hr hs
      exact (ih ⟨hoid, hzero⟩).tail ⟨s, hholds hexLen st hlen hr id s hs, hgit⟩
    · exact hstrays hexLen st hlen hr id s hid hs p hmem hgit hold.1 hold.2

end

/-! ## What is let through -/

section
variable {h : Hashes} {zlib : Zlib} {ctx : Context} {pack : Bytes}

theorem said {a b : Bytes} (hb : b ≠ []) : ¬ a ++ b = [] := append_ne_nil_of_right_ne_nil a hb

variable (h zlib ctx pack) in
theorem judge_cases (u : RefUpdate) (commits : Cache) :
    ((judge h zlib ctx pack u commits).1.1 ≠ [] ∧ (judge h zlib ctx pack u commits).2 = commits) ∨
    (u.creates = true ∧ (judge h zlib ctx pack u commits).2 = commits) ∨
    ∃ found, commitsOf h zlib pack u.new.length commits = .ok found ∧ (judge h zlib ctx pack u commits).2 = some found ∧
      ((judge h zlib ctx pack u commits).1.1 = [] → fastForward found u.old u.new = true) := by
  have htag : bytes "Tags are not pushed through Armature. Push a branch made for an issue, and tag on the host." ≠ [] :=
    bytes_ne_nil (by decide)
  have hbranch : bytes "Only a branch made for an issue is pushed through Armature." ≠ [] := bytes_ne_nil (by decide)
  have hdelete : bytes "Armature does not delete branches. Delete it on the host, or leave it to its pull request." ≠ [] :=
    bytes_ne_nil (by decide)
  have hdefault : bytes "Push to the issue's branch and open one." ≠ [] := bytes_ne_nil (by decide)
  have hissue : bytes " was not made for an issue. Make the issue's branch with create_issue_branch and push to that." ≠ [] :=
    bytes_ne_nil (by decide)
  have hedit : bytes ", so you may not push to its branch." ≠ [] := bytes_ne_nil (by decide)
  have hread : bytes "Push again with a current git." ≠ [] := bytes_ne_nil (by decide)
  have hforce : bytes "Fetch the branch, put your work on top of it and push again." ≠ [] := bytes_ne_nil (by decide)
  obtain ⟨j, hj⟩ : ∃ j, j = judge h zlib ctx pack u commits := ⟨_, rfl⟩
  rw [← hj]
  unfold judge at hj
  dsimp only at hj
  split at hj
  · rw [hj]
    exact Or.inl ⟨htag, rfl⟩
  split at hj
  · rw [hj]
    exact Or.inl ⟨hbranch, rfl⟩
  split at hj
  · rw [hj]
    exact Or.inl ⟨said hdefault, rfl⟩
  split at hj
  · rw [hj]
    exact Or.inl ⟨hdelete, rfl⟩
  split at hj
  · rw [hj]
    exact Or.inl ⟨said hissue, rfl⟩
  split at hj
  · rw [hj]
    exact Or.inl ⟨said hedit, rfl⟩
  split at hj
  · rename_i hcreates
    rw [hj]
    exact Or.inr (Or.inl ⟨hcreates, rfl⟩)
  split at hj
  · rw [hj]
    exact Or.inl ⟨said hread, rfl⟩
  rename_i found hfound
  refine Or.inr (Or.inr ⟨found, hfound, ?_⟩)
  split at hj
  · rw [hj]
    exact ⟨rfl, fun hsaid => absurd hsaid (said hforce)⟩
  · rename_i hff
    rw [hj]
    exact ⟨rfl, fun _ => by simpa using hff⟩

def Found (h : Hashes) (zlib : Zlib) (pack : Bytes) (commits : Cache) : Prop :=
  ∀ found, commits = some found → ∃ hexLen st, (hexLen = 40 ∨ hexLen = 64) ∧ readPack h zlib pack hexLen = .ok st ∧ found = st.commits

theorem isOID_length {s : Bytes} (hs : isOID s = true) : s.length = 40 ∨ s.length = 64 := by
  have := (Bool.and_eq_true_iff.1 hs).1
  simpa using this

theorem commitsOf_found {hexLen : Nat} (hlen : hexLen = 40 ∨ hexLen = 64) {commits : Cache} (hf : Found h zlib pack commits)
    {found : List (Bytes × List Bytes)} (hc : commitsOf h zlib pack hexLen commits = .ok found) : Found h zlib pack (some found) := by
  intro _ heq
  cases heq
  cases commits with
  | some =>
    cases hc
    exact hf found rfl
  | none =>
    unfold commitsOf packCommits at hc
    cases hp : readPack h zlib pack hexLen with
    | error => rw [hp] at hc; cases hc
    | ok st =>
      rw [hp] at hc
      cases hc
      exact ⟨hexLen, st, hlen, hp, rfl⟩

theorem judgeAll_allows : ∀ {us : List RefUpdate} {commits : Cache}, Found h zlib pack commits →
    (∀ u ∈ us, isOID u.old = true ∧ isOID u.new = true) → (∀ r ∈ judgeAll h zlib ctx pack us commits, r.refused = []) →
      ∀ u ∈ us, u.creates = false → ∃ found, Found h zlib pack (some found) ∧ fastForward found u.old u.new = true
  | [], _, _, _, _ => nofun
  | u :: us, commits, hf, hw, hr => by
    have hlen := isOID_length (hw u mem_cons_self).2
    unfold judgeAll at hr
    have hfirst : (judge h zlib ctx pack u commits).1.1 = [] := hr _ mem_cons_self
    have hfound : Found h zlib pack (judge h zlib ctx pack u commits).2 := by
      rcases judge_cases h zlib ctx pack u commits with ⟨-, heq⟩ | ⟨-, heq⟩ | ⟨found, hc, heq, -⟩
      · rwa [heq]
      · rwa [heq]
      · rw [heq]
        exact commitsOf_found hlen hf hc
    intro v hv hcreates
    rcases mem_cons.1 hv with rfl | hv
    · rcases judge_cases h zlib ctx pack v commits with ⟨hsaid, -⟩ | ⟨hcr, -⟩ | ⟨found, hc, -, hff⟩
      · exact absurd hfirst hsaid
      · rw [hcr] at hcreates
        cases hcreates
      · exact ⟨found, commitsOf_found hlen hf hc, hff hfirst⟩
    · exact judgeAll_allows hfound (fun w hw' => hw w (mem_cons_of_mem _ hw'))
        (fun r hr' => hr r (mem_cons_of_mem _ hr')) v hv hcreates

end

section
variable {h : Hashes} {zlib : Zlib} {ctx : Context} {pack : Bytes}

theorem checkPush_allowed {push : PushRequest} :
    (checkPush h zlib ctx push).2 = true ↔ ∀ r ∈ judgeAll h zlib ctx push.pack push.updates none, r.refused = [] := by
  unfold checkPush
  dsimp only
  split_ifs with hall
  · simpa using hall
  · simpa using hall

theorem allowed_keeps {store : Store} {push : PushRequest} (hholds : store.Holds h zlib push.pack)
    (hstrays : ∀ u ∈ push.updates, u.creates = false → StraysReach store h zlib push.pack u.new) (hw : WellFormed push)
    (ha : (checkPush h zlib ctx push).2 = true) : KeepsHistory store push := by
  intro u hu hcreates
  obtain ⟨found, hfound, hff⟩ := judgeAll_allows (fun _ heq => by cases heq) hw (checkPush_allowed.1 ha) u hu hcreates
  obtain ⟨hexLen, st, hlen, hr, rfl⟩ := hfound found rfl
  exact leads_reaches hholds (hstrays u hu hcreates) hlen hr ((fastForward_iff _ _ _).1 hff) ⟨(hw u hu).1, hcreates⟩

theorem judge_pushable {branch : Bytes} (hb : Pushable ctx branch) {old new : Bytes} (hnew : zeroOID new = false)
    (hold : zeroOID old = false) {found : List (Bytes × List Bytes)} (hc : packCommits h zlib pack new.length = .ok found)
    (hff : fastForward found old new = true) : (judge h zlib ctx pack ⟨old, new, headsPrefix ++ branch⟩ none).1.1 = [] := by
  obtain ⟨hne, hdefault, project, key, hissue, hedit⟩ := hb
  have hheads : headsPrefix.isPrefixOf (headsPrefix ++ branch) = true := by simp
  have htags : tagsPrefix.isPrefixOf (headsPrefix ++ branch) = false := rfl
  unfold judge RefUpdate.deletes RefUpdate.creates commitsOf
  simp only [htags, hheads, drop_left, Bool.false_eq_true, if_false, Bool.not_true, Bool.false_or, beq_iff_eq, hne, hdefault,
    hnew, hissue, hedit, hold, hc, hff]

theorem stray_rewrites {store : Store} (hholds : store.Holds h zlib pack) {branch new : Bytes} (hb : Pushable ctx branch)
    (hstrays : ¬ StraysReach store h zlib pack new) :
    ∃ push old, WellFormed push ∧ push.pack = pack ∧ push.updates = [⟨old, new, headsPrefix ++ branch⟩] ∧
      (checkPush h zlib ctx push).2 = true ∧ ¬ KeepsHistory store push := by
  unfold StraysReach at hstrays
  push Not at hstrays
  obtain ⟨hexLen, st, hlen, hr, id, s, hl, hs, p, hp, hgit, hoid, hzero, hreach⟩ := hstrays
  have hn := readPack_named hr
  obtain ⟨hnewOID, hnewLen, hnewZero⟩ : isOID new = true ∧ new.length = hexLen ∧ zeroOID new = false := by
    rcases Relation.ReflTransGen.cases_head hl with rfl | ⟨q, hq, -⟩
    · exact parentsIn_isOID hholds hlen hr hs
    · obtain ⟨s', hs', -⟩ := hn.mem_parentsIn hq
      exact parentsIn_isOID hholds hlen hr hs'
  have hedge : p ∈ parentsIn st.commits id := by
    rw [hn.parentsIn_eq hs fun s' hs' => Option.some.inj ((hholds hexLen st hlen hr id s' hs').symm.trans (hholds hexLen st hlen hr id s hs))]
    exact hp
  have hcommits : packCommits h zlib pack new.length = .ok st.commits := by
    unfold packCommits
    rw [hnewLen, hr]
    rfl
  refine ⟨⟨[⟨p, new, headsPrefix ++ branch⟩], [], false, pack⟩, p, ?_, rfl, rfl, ?_, ?_⟩
  · intro u hu
    obtain rfl := mem_singleton.1 hu
    exact ⟨hoid, hnewOID⟩
  · refine checkPush_allowed.2 fun r hr' => ?_
    obtain rfl := mem_singleton.1 hr'
    exact judge_pushable hb hnewZero hzero hcommits ((fastForward_iff _ _ _).2 (hl.tail hedge))
  · exact fun hk => hreach (hk _ mem_cons_self hzero)

end

/-! ## A push with a stray -/

theorem readCommands_wellFormed : ∀ {n : Nat} {rest rest' : Bytes} {push push' : PushRequest} {first : Bool}, WellFormed push →
    readCommands n rest push first = .ok (push', rest') → WellFormed push'
  | n + 1, rest, rest', push, push', first, hw, hr => by
    unfold readCommands at hr
    obtain ⟨⟨pkt, next⟩, -, hr⟩ := Go.bind_ok.1 hr
    cases pkt with
    | none =>
      cases hr
      exact hw
    | some =>
      dsimp only at hr
      split_ifs at hr
      · cases hr
        exact hw
      · refine readCommands_wellFormed ?_ hr
        exact hw
      · obtain ⟨u, hu, hr⟩ := Go.bind_ok.1 hr
        refine readCommands_wellFormed (fun v hv => ?_) hr
        rcases mem_append.1 hv with hv | hv
        · exact hw v hv
        · obtain rfl := mem_singleton.1 hv
          exact (command_ok hu).2

theorem parsePush_wellFormed {body : Bytes} {push : PushRequest} (hp : parsePush body = .ok push) : WellFormed push := by
  unfold parsePush at hp
  obtain ⟨⟨read, rest⟩, hr, hp⟩ := Go.bind_ok.1 hp
  have hw : WellFormed read := readCommands_wellFormed (fun _ hu => absurd hu not_mem_nil) hr
  dsimp only at hp
  split_ifs at hp
  · cases hp
    exact hw
  · obtain ⟨_, -, hp⟩ := Go.bind_ok.1 hp
    cases hp
    exact hw
  · cases hp
    exact hw

/-- A push of one commit of 146 bytes, to a branch that was at `oidA`. -/
structure Sample where
  commit : Bytes
  id : Bytes
  id256 : Bytes
  checksum : Bytes
  trailer : Bytes
  ids : (isOID id = true ∧ id.length = 40 ∧ zeroOID id = false) ∧ isOID id256 = true ∧ id256.length = 64 ∧ zeroOID id256 = false

namespace Sample

variable (c : Sample)

def stream : Bytes := [120, 1, 1, 146, 0, 109, 255] ++ c.commit ++ c.checksum

def pack : Bytes := bytes "PACK" ++ [0, 0, 0, 2, 0, 0, 0, 1, 146, 9] ++ c.stream ++ c.trailer

def body : Bytes :=
  pktLine (oidA ++ 32 :: c.id ++ bytes " refs/heads/CP-1-fix" ++ 0 :: bytes "report-status") ++ bytes "0000" ++ c.pack

def read : PushRequest where
  updates := [⟨oidA, c.id, bytes "refs/heads/CP-1-fix"⟩]
  capabilities := [bytes "report-status"]
  certificate := false
  pack := c.pack

def hashes : Hashes where
  sha1 b := if b = bytes "commit 146" ++ 0 :: c.commit then c.id else oidA
  sha256 b := if b = bytes "commit 146" ++ 0 :: c.commit then c.id256 else List.replicate 64 49
  sha1_id b := by
    split_ifs
    · exact ⟨c.ids.1.1, c.ids.1.2.1⟩
    · decide
  sha256_id b := by
    split_ifs
    · exact ⟨c.ids.2.1, c.ids.2.2.1⟩
    · decide

def zlib : Zlib := fun r => if c.stream.isPrefixOf r then some (c.commit, r.drop c.stream.length) else none

def store : Store where
  commit id := if id = c.id ∨ id = c.id256 then some c.commit else none
  null id hz := if_neg fun hid => by
    rcases hid with rfl | rfl
    · exact absurd hz (Bool.eq_false_iff.1 c.ids.1.2.2)
    · exact absurd hz (Bool.eq_false_iff.1 c.ids.2.2.2)

variable {c}

def Alone (c : Sample) : Prop := ∀ hexLen, hexLen = 40 ∨ hexLen = 64 →
  (readPack c.hashes c.zlib c.pack hexLen).map Reading.byID = .ok [(if hexLen = 64 then c.id256 else c.id, c.commit)]

theorem Alone.mem (ha : c.Alone) {hexLen : Nat} (hlen : hexLen = 40 ∨ hexLen = 64) {st : Reading}
    (hr : readPack c.hashes c.zlib c.pack hexLen = .ok st) {id s : Bytes} (hs : (id, s) ∈ st.byID) :
    (id = if hexLen = 64 then c.id256 else c.id) ∧ s = c.commit := by
  have hids := ha hexLen hlen
  rw [hr] at hids
  rw [Except.ok.inj hids] at hs
  exact Prod.mk.inj (mem_singleton.1 hs)

theorem Alone.holds (ha : c.Alone) : c.store.Holds c.hashes c.zlib c.pack := by
  intro hexLen st hlen hr id s hs
  obtain ⟨rfl, rfl⟩ := ha.mem hlen hr hs
  refine if_pos ?_
  split_ifs
  · exact Or.inr rfl
  · exact Or.inl rfl

end Sample

def sampleContext : Context where
  defaultBranch := bytes "main"
  branchIssue branch := if branch = bytes "CP-1-fix" then some (bytes "CP", bytes "CP-1") else none
  mayEdit _ := true

def stray : Sample where
  commit := bytes "tree 4b825dc642cb6eb9a060e54bf8d69288fbee4904\nauthor A <a@b> 0 +0000\ncommitter A <a@b> 0 +0000\nparent " ++ oidA ++
    bytes "\n\nx\n"
  id := bytes "10cfcadeeb1fffef4dd31c73f0e96ab1f648c513"
  id256 := bytes "a49d72e4a7d9487998d9787eacd24d0b86a8f29798b2a9f805e54fd641ddc078"
  checksum := [158, 87, 37, 32]
  trailer := [178, 146, 117, 160, 203, 223, 157, 66, 100, 192, 197, 200, 142, 117, 107, 64, 99, 138, 126, 249]
  ids := by decide

def tidied : Sample where
  commit := bytes "tree 4b825dc642cb6eb9a060e54bf8d69288fbee4904\nparent " ++ oidA ++
    bytes "\nauthor A <a@b> 0 +0000\ncommitter A <a@b> 0 +0000\n\nx\n"
  id := bytes "bcd5f3b4a4c1c310188bacf0ef1c6761d562e0ba"
  id256 := bytes "96e6f45a35bdfa75e454bb2c44da430aa0e3d927d1dbe2006fea07fe502ebb9e"
  checksum := [33, 131, 37, 32]
  trailer := [36, 175, 142, 88, 237, 249, 169, 2, 47, 207, 243, 204, 243, 120, 224, 84, 2, 34, 211, 32]
  ids := by decide

end Git
end Armature
