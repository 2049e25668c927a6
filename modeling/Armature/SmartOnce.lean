import Armature.GoUnicode
import Armature.Interleaving
/-!
# SmartOnce — a command in a commit message is carried out once (`git/keys.go`, `git/receive.go`, `git/smart_once.go`)

A delivery is recorded, and then each command of its new commits is recorded, carried out and, where it was refused,
forgotten again: three transactions.  What the tracker makes of a command, and which issue a key names meanwhile, is left
open; the hash of a command's text is a parameter.
-/
namespace Armature
namespace Smart

open List
open Go (Text Tables isSpace isLetter isAsciiDigit isAsciiUpper isAsciiLower toLower)

/-! ## What a message asks for -/

def fields (s : Text) : List Text := (s.splitOnP isSpace).filter (· != [])

def joinSpace (ws : List Text) : Text := List.intercalate [' '] ws

def isWordChar (c : Char) : Bool := isAsciiLower c || isAsciiUpper c || isAsciiDigit c || c == '_'

def keyAt (s : Text) : Option Text :=
  let project := s.takeWhile fun c => isAsciiUpper c || isAsciiDigit c
  match s.dropWhile fun c => isAsciiUpper c || isAsciiDigit c with
  | '-' :: rest =>
    let num := rest.takeWhile isAsciiDigit
    if project.head?.any isAsciiUpper && decide (2 ≤ project.length ∧ project.length ≤ 10) && num.head?.any (· != '0')
        && (rest.dropWhile isAsciiDigit).head?.all (fun c => !isWordChar c) then
      some (project ++ '-' :: num)
    else none
  | _ => none

def keysFrom (inWord : Bool) : Nat → Text → List Text
  | _, [] => []
  | skip + 1, c :: cs => keysFrom (isWordChar c) skip cs
  | 0, c :: cs =>
    match if inWord then none else keyAt (c :: cs) with
    | some key => key :: keysFrom (isWordChar c) (key.length - 1) cs
    | none => keysFrom (isWordChar c) 0 cs

def issueKeys (text : Text) : List Text := (keysFrom false 0 text).eraseDups

structure Command where
  transition : Text
  comment : Text
  deriving DecidableEq

def isCommandWord (u : Tables) (name : Text) : Bool := name.all fun r => isLetter u r || r == '-' || r == '_'

def lineCommands (u : Tables) : List Text → List Command
  | [] => []
  | word :: rest =>
    if word.head? = some '#' ∧ word.tail ≠ [] then
      let name := toLower u word.tail
      if name = "comment".toList then if rest = [] then [] else [⟨[], joinSpace rest⟩]
      else if isCommandWord u name then ⟨name, []⟩ :: lineCommands u rest
      else lineCommands u rest
    else lineCommands u rest

def smartCommands (u : Tables) (message : Text) : List Command :=
  (message.splitOn '\n').flatMap fun line => lineCommands u (fields line)

def identity (hash : Text → Text) (c : Command) : Text :=
  hash (if c.comment = [] then "transition:".toList ++ c.transition else "comment:".toList ++ joinSpace (fields c.comment))

/-! ## The deliveries -/

structure Commit where
  sha : Text
  message : Text

/-- A row of `git_smart_command`. -/
structure Slot where
  repo : Nat
  issue : Nat
  hash : Text
  deriving DecidableEq

structure Data where
  names : Text → Option Nat
  deleted : List Nat
  commits : List (Nat × Text)
  rows : List Slot
  begun : List Slot
  carried : List Slot
  forgotten : List Slot

inductive Stage where
  | recording | carrying | forgetting
  deriving DecidableEq

/-- What is left of a delivery: the commands of the commit that it is at, and the commits to come. -/
structure Delivery where
  repo : Nat
  asked : List (Text × Command)
  stage : Stage
  later : List Commit

def recordCommits (repo : Nat) : List (Nat × Text) → List Commit → List (Nat × Text) × List Commit
  | known, [] => (known, [])
  | known, c :: cs =>
    if (repo, c.sha) ∈ known then recordCommits repo known cs
    else
      let rest := recordCommits repo ((repo, c.sha) :: known) cs
      (rest.1, c :: rest.2)

def asks (u : Tables) (c : Commit) : List (Text × Command) :=
  (issueKeys c.message).flatMap fun key => (smartCommands u c.message).map fun cmd => (key, cmd)

section
variable (hash : Text → Text)

def slot (repo issue : Nat) (cmd : Command) : Slot := ⟨repo, issue, identity hash cmd⟩

def recordCommand (d : Data) (repo : Nat) (key : Text) (cmd : Command) : Data × Bool :=
  match d.names key with
  | none => (d, true)
  | some issue =>
    let s := slot hash repo issue cmd
    if s ∈ d.rows then (d, false) else ({ d with rows := s :: d.rows, begun := s :: d.begun }, true)

def forgetCommand (d : Data) (repo : Nat) (key : Text) (cmd : Command) : Data :=
  match d.names key with
  | none => d
  | some issue =>
    let s := slot hash repo issue cmd
    { d with rows := d.rows.filter (· ≠ s), forgotten := s :: d.forgotten }

inductive Act (u : Tables) (lost : Prop) (d : Data) : Delivery → Data → Option Delivery → Prop where
  | commit (repo : Nat) (c : Commit) (cs : List Commit) :
      Act u lost d ⟨repo, [], .recording, c :: cs⟩ d (some ⟨repo, asks u c, .recording, cs⟩)
  /-- There is nobody to act as. -/
  | nobody (repo : Nat) (c : Commit) (cs : List Commit) :
      Act u lost d ⟨repo, [], .recording, c :: cs⟩ d (some ⟨repo, [], .recording, cs⟩)
  | done (repo : Nat) (cs : List Commit) : Act u lost d ⟨repo, [], .recording, cs⟩ d none
  | record (repo : Nat) (key : Text) (cmd : Command) (rest : List (Text × Command)) (cs : List Commit) :
      Act u lost d ⟨repo, (key, cmd) :: rest, .recording, cs⟩ (recordCommand hash d repo key cmd).1
        (some (if (recordCommand hash d repo key cmd).2 then ⟨repo, (key, cmd) :: rest, .carrying, cs⟩
          else ⟨repo, rest, .recording, cs⟩))
  | notRecorded (repo : Nat) (key : Text) (cmd : Command) (rest : List (Text × Command)) (cs : List Commit) (d' : Data) :
      (d' = d ∨ d' = (recordCommand hash d repo key cmd).1) →
      Act u lost d ⟨repo, (key, cmd) :: rest, .recording, cs⟩ d' (some ⟨repo, rest, .recording, cs⟩)
  | carryOut (repo : Nat) (key : Text) (cmd : Command) (rest : List (Text × Command)) (cs : List Commit) (issue : Nat) :
      d.names key = some issue →
      Act u lost d ⟨repo, (key, cmd) :: rest, .carrying, cs⟩ { d with carried := slot hash repo issue cmd :: d.carried }
        (some ⟨repo, rest, .recording, cs⟩)
  | refused (repo : Nat) (key : Text) (cmd : Command) (rest : List (Text × Command)) (cs : List Commit) :
      Act u lost d ⟨repo, (key, cmd) :: rest, .carrying, cs⟩ d (some ⟨repo, (key, cmd) :: rest, .forgetting, cs⟩)
  | carriedUnheard (repo : Nat) (key : Text) (cmd : Command) (rest : List (Text × Command)) (cs : List Commit) (issue : Nat) :
      lost → d.names key = some issue →
      Act u lost d ⟨repo, (key, cmd) :: rest, .carrying, cs⟩ { d with carried := slot hash repo issue cmd :: d.carried }
        (some ⟨repo, (key, cmd) :: rest, .forgetting, cs⟩)
  | forget (repo : Nat) (key : Text) (cmd : Command) (rest : List (Text × Command)) (cs : List Commit) :
      Act u lost d ⟨repo, (key, cmd) :: rest, .forgetting, cs⟩ (forgetCommand hash d repo key cmd)
        (some ⟨repo, rest, .recording, cs⟩)
  | notForgotten (repo : Nat) (key : Text) (cmd : Command) (rest : List (Text × Command)) (cs : List Commit) (d' : Data) :
      (d' = d ∨ d' = forgetCommand hash d repo key cmd) →
      Act u lost d ⟨repo, (key, cmd) :: rest, .forgetting, cs⟩ d' (some ⟨repo, rest, .recording, cs⟩)

end

inductive Start (moves : Data → List Delivery → (Text → Option Nat) → Prop) (d : Data) (running : List Delivery) :
    Data → Option Delivery → Prop where
  | deliver (repo : Nat) (cs : List Commit) :
      Start moves d running { d with commits := (recordCommits repo d.commits cs).1 }
        (some ⟨repo, [], .recording, (recordCommits repo d.commits cs).2⟩)
  | rename (names : Text → Option Nat) : moves d running names → (∀ key issue, names key = some issue → issue ∉ d.deleted) →
      Start moves d running { d with names := names } none
  | delete (i : Nat) (names : Text → Option Nat) : moves d running names →
      (∀ key issue, names key = some issue → issue ∉ i :: d.deleted) →
      Start moves d running { d with names := names, deleted := i :: d.deleted, rows := d.rows.filter (·.issue ≠ i) } none

def fresh (names : Text → Option Nat) : Data := ⟨names, [], [], [], [], [], []⟩

def RunWhere (hash : Text → Text) (u : Tables) (lost : Prop) (moves : Data → List Delivery → (Text → Option Nat) → Prop)
    (names : Text → Option Nat) : Interleaving.System Data Delivery → Prop :=
  Interleaving.Run (Start moves) (fun d _ w d' w' => Act hash u lost d w d' w') (fresh names)

abbrev Run (hash : Text → Text) (u : Tables) : (Text → Option Nat) → Interleaving.System Data Delivery → Prop :=
  RunWhere hash u True fun _ _ _ => True

def Delivery.busy (w : Delivery) : Option (Text × Command) := if w.stage = .recording then none else w.asked.head?

def Settled (d : Data) (running : List Delivery) (names : Text → Option Nat) : Prop :=
  ∀ w ∈ running, ∀ a ∈ w.busy, names a.1 = d.names a.1

abbrev SettledRun (hash : Text → Text) (u : Tables) : (Text → Option Nat) → Interleaving.System Data Delivery → Prop :=
  RunWhere hash u False Settled

/-! ## What a step keeps -/

section
open Interleaving (one held one_none one_some_self one_some_ne)
variable {hash : Text → Text} {u : Tables} {d d' : Data} {h o : Slot → Nat}

def target (hash : Text → Text) (d : Data) (repo : Nat) (key : Text) (cmd : Command) : Option Slot :=
  (d.names key).map fun issue => slot hash repo issue cmd

def holding (hash : Text → Text) (d : Data) (w : Delivery) : Option Slot :=
  w.busy.bind fun a => target hash d w.repo a.1 a.2

/-- What is so between any two steps, where `h` counts the deliveries that hold a command. -/
structure Kept (d : Data) (h : Slot → Nat) : Prop where
  named : ∀ key issue, d.names key = some issue → issue ∉ d.deleted
  once : ∀ s, d.carried.count s + h s ≤ 1
  row : ∀ s, 0 < d.carried.count s + h s → s ∈ d.rows ∨ s.issue ∈ d.deleted
  begun : ∀ s, d.forgotten.count s ≤ d.begun.count s
  standing : ∀ s ∈ d.rows, d.forgotten.count s < d.begun.count s

theorem Kept.mono (hk : Kept d h) (hle : ∀ s, o s ≤ h s) : Kept d o :=
  ⟨hk.named, fun s => le_trans (Nat.add_le_add_left (hle s) _) (hk.once s),
    fun s hs => hk.row s (lt_of_lt_of_le hs (Nat.add_le_add_left (hle s) _)), hk.begun, hk.standing⟩

theorem Kept.untouched (hk : Kept d h) {key : Text} {repo issue : Nat} {cmd : Command} (hi : d.names key = some issue)
    (hrow : slot hash repo issue cmd ∉ d.rows) :
    d.carried.count (slot hash repo issue cmd) + h (slot hash repo issue cmd) = 0 := by
  by_contra hpos
  rcases hk.row _ (Nat.pos_of_ne_zero hpos) with hmem | hdel
  · exact hrow hmem
  · exact hk.named key issue hi hdel

theorem Kept.insert (hk : Kept d h) (s : Slot) : Kept { d with rows := s :: d.rows, begun := s :: d.begun } h := by
  refine ⟨hk.named, hk.once, fun t ht => (hk.row t ht).imp_left (mem_cons_of_mem s), fun t => ?_, fun t ht => ?_⟩
  · exact le_trans (hk.begun t) count_le_count_cons
  · by_cases hst : s = t
    · subst hst
      rw [count_cons_self]
      exact Nat.lt_succ_of_le (hk.begun s)
    · have hlt := hk.standing t ((mem_cons.1 ht).resolve_left (Ne.symm hst))
      exact lt_of_lt_of_le hlt count_le_count_cons

theorem Kept.hold (hk : Kept d h) {s : Slot} (hnone : d.carried.count s + h s = 0) (hrow : s ∈ d.rows) :
    Kept d fun t => h t + one (some s) t := by
  refine ⟨hk.named, fun t => ?_, fun t ht => ?_, hk.begun, hk.standing⟩
  · by_cases hst : s = t
    · subst hst
      simp only [one_some_self]
      omega
    · simp only [one_some_ne hst]
      exact hk.once t
  · by_cases hst : s = t
    · exact Or.inl (hst ▸ hrow)
    · simp only [one_some_ne hst] at ht
      exact hk.row t ht

theorem Kept.record (hk : Kept d h) (repo : Nat) (key : Text) (cmd : Command) :
    Kept (recordCommand hash d repo key cmd).1 h := by
  unfold recordCommand
  cases d.names key with
  | none => exact hk
  | some =>
    dsimp only
    split
    · exact hk
    · exact hk.insert _

theorem Kept.recordNew (hk : Kept d h) {repo : Nat} {key : Text} {cmd : Command}
    (hnew : (recordCommand hash d repo key cmd).2 = true) :
    Kept (recordCommand hash d repo key cmd).1 fun s => h s + one (target hash d repo key cmd) s := by
  unfold recordCommand at hnew ⊢
  unfold target
  cases hi : d.names key with
  | none => exact hk
  | some issue =>
    rw [hi] at hnew
    dsimp only at hnew ⊢
    split at hnew
    · cases hnew
    · rename_i hrow
      rw [if_neg hrow]
      exact (hk.insert _).hold (hk.untouched hi hrow) mem_cons_self

theorem recordCommand_names (repo : Nat) (key : Text) (cmd : Command) :
    (recordCommand hash d repo key cmd).1.names = d.names := by
  unfold recordCommand
  cases d.names key with
  | none => rfl
  | some =>
    dsimp only
    split <;> rfl

theorem Kept.carry {s : Slot} (hk : Kept d fun t => h t + one (some s) t) : Kept { d with carried := s :: d.carried } h := by
  have hcount : ∀ t, (s :: d.carried).count t + h t = d.carried.count t + (h t + one (some s) t) := by
    intro t
    by_cases hst : s = t
    · subst hst
      rw [count_cons_self, one_some_self]
      omega
    · rw [count_cons_of_ne hst, one_some_ne hst]
      rfl
  exact ⟨hk.named, fun t => hcount t ▸ hk.once t, fun t ht => hk.row t (hcount t ▸ ht), hk.begun, hk.standing⟩

theorem Kept.release {s : Slot} (hk : Kept d fun t => h t + one (some s) t) (hdel : s.issue ∉ d.deleted) :
    Kept { d with rows := d.rows.filter (· ≠ s), forgotten := s :: d.forgotten } h := by
  have hless : Kept d h := hk.mono fun t => Nat.le_add_right _ _
  have honce : d.carried.count s + (h s + 1) ≤ 1 := one_some_self s ▸ hk.once s
  have hrow : s ∈ d.rows := by
    refine (hk.row s ?_).resolve_right hdel
    rw [one_some_self]
    omega
  refine ⟨hk.named, hless.once, fun t ht => ?_, fun t => ?_, fun t ht => ?_⟩
  · by_cases hst : s = t
    · subst hst
      dsimp only at ht
      omega
    · exact (hless.row t ht).imp_left fun hmem => mem_filter.2 ⟨hmem, decide_eq_true (Ne.symm hst)⟩
  · by_cases hst : s = t
    · subst hst
      rw [count_cons_self]
      exact hk.standing s hrow
    · rw [count_cons_of_ne hst]
      exact hk.begun t
  · obtain ⟨hmem, hne⟩ := mem_filter.1 ht
    rw [count_cons_of_ne (Ne.symm (of_decide_eq_true hne))]
    exact hk.standing t hmem

theorem Kept.forget {repo : Nat} {key : Text} {cmd : Command}
    (hk : Kept d fun t => h t + one (target hash d repo key cmd) t) : Kept (forgetCommand hash d repo key cmd) h := by
  unfold forgetCommand
  unfold target at hk
  cases hi : d.names key with
  | none => exact hk.mono fun t => Nat.le_add_right _ _
  | some issue =>
    rw [hi] at hk
    exact hk.release (hk.named key issue hi)

theorem forgetCommand_names (repo : Nat) (key : Text) (cmd : Command) : (forgetCommand hash d repo key cmd).names = d.names := by
  unfold forgetCommand
  cases d.names key <;> rfl

theorem act_keeps {w : Delivery} {w' : Option Delivery} (hk : Kept d fun s => h s + one (holding hash d w) s)
    (ha : Act hash u False d w d' w') : d'.names = d.names ∧ Kept d' fun s => h s + one (w'.bind (holding hash d')) s := by
  have hrest : Kept d h := hk.mono fun s => Nat.le_add_right _ _
  cases ha with
  | commit => exact ⟨rfl, hrest⟩
  | nobody => exact ⟨rfl, hrest⟩
  | done => exact ⟨rfl, hrest⟩
  | record repo key cmd rest cs =>
    refine ⟨recordCommand_names repo key cmd, ?_⟩
    cases hnew : (recordCommand hash d repo key cmd).2 with
    | false => exact hrest.record repo key cmd
    | true =>
      have hkept := hrest.recordNew hnew
      have htarget : target hash (recordCommand hash d repo key cmd).1 repo key cmd = target hash d repo key cmd := by
        unfold target
        rw [recordCommand_names]
      rw [← htarget] at hkept
      exact hkept
  | notRecorded repo key cmd rest cs d' hd =>
    rcases hd with rfl | rfl
    · exact ⟨rfl, hrest⟩
    · exact ⟨recordCommand_names repo key cmd, hrest.record repo key cmd⟩
  | carryOut repo key cmd rest cs issue hi =>
    have hmine : holding hash d ⟨repo, (key, cmd) :: rest, .carrying, cs⟩ = some (slot hash repo issue cmd) :=
      congrArg (Option.map _) hi
    rw [hmine] at hk
    exact ⟨rfl, hk.carry⟩
  | refused => exact ⟨rfl, hk⟩
  | carriedUnheard repo key cmd rest cs issue hlost => exact hlost.elim
  | forget repo key cmd rest cs => exact ⟨forgetCommand_names repo key cmd, Kept.forget hk⟩
  | notForgotten repo key cmd rest cs d' hd =>
    rcases hd with rfl | rfl
    · exact ⟨rfl, hrest⟩
    · exact ⟨forgetCommand_names repo key cmd, Kept.forget hk⟩

theorem start_keeps {running : List Delivery} {p : Option Delivery} (hk : Kept d h) (hs : Start Settled d running d' p) :
    (∀ w ∈ running, holding hash d' w = holding hash d w) ∧ Kept d' fun s => h s + one (p.bind (holding hash d')) s := by
  have hstays : ∀ {names : Text → Option Nat} {d' : Data}, Settled d running names → d'.names = names →
      ∀ w ∈ running, holding hash d' w = holding hash d w := by
    intro names d' hset hnames w hw
    refine Option.bind_congr fun a ha => ?_
    unfold target
    rw [hnames, hset w hw a ha]
  cases hs with
  | deliver => exact ⟨fun _ _ => rfl, hk.named, hk.once, hk.row, hk.begun, hk.standing⟩
  | rename names hset hnamed => exact ⟨hstays hset rfl, hnamed, hk.once, hk.row, hk.begun, hk.standing⟩
  | delete i names hset hnamed =>
    refine ⟨hstays hset rfl, hnamed, hk.once, fun s hpos => ?_, hk.begun, fun s hmem => hk.standing s (mem_filter.1 hmem).1⟩
    by_cases hsi : s.issue = i
    · exact Or.inr (hsi ▸ mem_cons_self)
    · rcases hk.row s hpos with hmem | hdel
      · exact Or.inl (mem_filter.2 ⟨hmem, decide_eq_true hsi⟩)
      · exact Or.inr (mem_cons_of_mem i hdel)

theorem run_keeps {names : Text → Option Nat} {sys : Interleaving.System Data Delivery} (hrun : SettledRun hash u names sys) :
    Kept sys.shared (held (holding hash sys.shared) sys.running) := by
  refine Interleaving.Run.holds (I := fun d ws => Kept d (held (holding hash d) ws)) ?_ ?_ ?_ ?_ hrun
  · intro d running d' p hk hs
    obtain ⟨hsame, hk'⟩ := start_keeps hk hs
    refine hk'.mono fun s => ?_
    have hafter := Interleaving.held_after (holding hash d') [] running p s
    rw [nil_append, nil_append, Interleaving.held_congr hsame] at hafter
    exact hafter.le
  · intro d l r w d' w' hk ha
    have hk₀ : Kept d fun s => held (holding hash d) (l ++ r) s + one (holding hash d w) s :=
      hk.mono fun s => (Interleaving.held_between (holding hash d) l r w s).ge
    obtain ⟨hnames, hk'⟩ := act_keeps hk₀ ha
    have hsame : ∀ w : Delivery, holding hash d' w = holding hash d w := by
      intro w
      unfold holding target
      rw [hnames]
    refine hk'.mono fun s => ?_
    rw [Interleaving.held_after, Interleaving.held_congr fun w _ => hsame w]
  · intro d l r w hk
    exact hk.mono fun s => (Interleaving.held_between (holding hash d) l r w s).ge.trans' (Nat.le_add_right _ _)
  · exact ⟨fun _ _ _ => not_mem_nil, fun _ => Nat.zero_le _, fun _ hpos => absurd hpos (lt_irrefl 0), fun _ => Nat.zero_le _,
      nofun⟩

/-- **A command is carried out once at most**, and may be tried again when all that was recorded of it was forgotten. -/
theorem carried_out_once {names : Text → Option Nat} {sys : Interleaving.System Data Delivery} (hrun : SettledRun hash u names sys)
    (repo issue : Nat) (cmd : Command) : sys.shared.carried.count (slot hash repo issue cmd) ≤ 1 ∧
      (sys.shared.begun.count (slot hash repo issue cmd) = sys.shared.forgotten.count (slot hash repo issue cmd) →
        ∀ key, sys.shared.names key = some issue → (recordCommand hash sys.shared repo key cmd).2 = true) := by
  have hk := run_keeps hrun
  refine ⟨le_trans (Nat.le_add_right _ _) (hk.once _), fun hall key hi => ?_⟩
  have hrow : slot hash repo issue cmd ∉ sys.shared.rows := fun hmem => (hk.standing _ hmem).ne hall.symm
  unfold recordCommand
  rw [hi]
  dsimp only
  rw [if_neg hrow]

end

/-! ## A command, and an issue that is made meanwhile -/

def fixed : Command := ⟨[], "fixed typo".toList⟩

def commitOf (sha : String) : Commit := ⟨sha.toList, "CP-9 #comment  fixed typo".toList⟩

theorem asks_commitOf (sha : String) : asks Tables.ascii (commitOf sha) = [("CP-9".toList, fixed)] := by
  have hasks : asks Tables.ascii (commitOf "") = [("CP-9".toList, fixed)] := by decide +kernel
  exact hasks

def nine (key : Text) : Option Nat := if key = "CP-9".toList then some 9 else none

def carriedOnce : Data :=
  { fresh nine with
    commits := [(1, "a".toList)], rows := [slot id 1 9 fixed], begun := [slot id 1 9 fixed], carried := [slot id 1 9 fixed] }

def askedAgain : Data := { carriedOnce with commits := [(1, "b".toList), (1, "a".toList)] }

theorem askedAgain_run : SettledRun id Tables.ascii nine ⟨askedAgain, [⟨1, [], .recording, []⟩]⟩ := by
  have h₀ : SettledRun id Tables.ascii nine ⟨fresh nine, []⟩ := Interleaving.Run.begin _
  have h₁ := h₀.start _ (.deliver 1 [commitOf "a"])
  have h₂ := h₁.act [] _ (.commit 1 (commitOf "a") [])
  rw [asks_commitOf] at h₂
  have h₃ := h₂.act [] _ (.record 1 "CP-9".toList fixed [] [])
  have h₄ := h₃.act [] _ (.carryOut 1 "CP-9".toList fixed [] [] 9 rfl)
  have h₅ : SettledRun id Tables.ascii nine ⟨carriedOnce, []⟩ := h₄.act [] none (.done 1 [])
  have h₆ := h₅.start _ (.deliver 1 [commitOf "a", commitOf "b"])
  have h₇ : SettledRun id Tables.ascii nine ⟨askedAgain, [⟨1, asks Tables.ascii (commitOf "b"), .recording, []⟩]⟩ :=
    h₆.act [] _ (.commit 1 (commitOf "b") [])
  rw [asks_commitOf] at h₇
  exact h₇.act [] _ (.record 1 "CP-9".toList fixed [] [])

theorem typo_fixed_once : askedAgain.carried.count (slot id 1 9 fixed) ≤ 1 ∧
    (askedAgain.begun.count (slot id 1 9 fixed) = askedAgain.forgotten.count (slot id 1 9 fixed) →
      ∀ key, askedAgain.names key = some 9 → (recordCommand id askedAgain 1 key fixed).2 = true) :=
  carried_out_once askedAgain_run 1 9 fixed

/-- Two deliveries record the command before its issue is there, and carry it out once it is. -/
theorem typo_fixed_twice : ¬ ∀ (hash : Text → Text) (u : Tables) (names : Text → Option Nat)
    (sys : Interleaving.System Data Delivery), Run hash u names sys → ∀ (repo issue : Nat) (cmd : Command),
      sys.shared.carried.count (slot hash repo issue cmd) ≤ 1 ∧
        (sys.shared.begun.count (slot hash repo issue cmd) = sys.shared.forgotten.count (slot hash repo issue cmd) →
          ∀ key, sys.shared.names key = some issue → (recordCommand hash sys.shared repo key cmd).2 = true) := by
  intro hall
  let key := "CP-9".toList
  let fixing : Delivery := ⟨1, [(key, fixed)], .carrying, []⟩
  let finished : Delivery := ⟨1, [], .recording, []⟩
  have h₀ : Run id Tables.ascii (fun _ => none) ⟨fresh fun _ => none, []⟩ := Interleaving.Run.begin _
  have h₁ := h₀.start _ (.deliver 1 [commitOf "a"])
  have h₂ := h₁.act [] _ (.commit 1 (commitOf "a") [])
  rw [asks_commitOf] at h₂
  have h₃ := h₂.act [] _ (.record 1 key fixed [] [])
  have h₄ := h₃.start _ (.deliver 1 [commitOf "b"])
  have h₅ := h₄.act [] _ (.commit 1 (commitOf "b") [])
  rw [asks_commitOf] at h₅
  have h₆ := h₅.act [] _ (.record 1 key fixed [] [])
  have h₇ : Run id Tables.ascii (fun _ => none) ⟨_, [fixing, fixing]⟩ := h₆.start _ (.rename nine trivial fun _ _ _ => not_mem_nil)
  have h₈ : Run id Tables.ascii (fun _ => none) ⟨_, [finished, fixing]⟩ := h₇.act [] _ (.carryOut 1 key fixed [] [] 9 rfl)
  have h₉ := h₈.act [finished] _ (.carryOut 1 key fixed [] [] 9 rfl)
  exact absurd (hall _ _ _ _ h₉ 1 9 fixed).1 (by decide)

end Smart
end Armature
