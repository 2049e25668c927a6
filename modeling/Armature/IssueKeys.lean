import Armature.IssueLinks
/-!
# IssueKeys — an issue key never changes hands (`issue/service.go`, `issue/import.go`, `issue/movecopy.go`, `issue/movesubtree.go`)

Creations, imports and moves take numbers from a project's `issue_seq`, whose row they hold until they commit; a move holds
the rows that it moves, and what was below the issue when it looked goes with it.  An import may ask for a number
(`importKeyNum`), and gets one that is free because its issue moved away.  Where none does, each key stays its issue's
(`key_kept`).  What else refuses a call, and so rolls it back, is left open.
-/
namespace Armature
namespace IssueKeys

open List
open Go (Text Tables)
open Links (parseKey formatKey)

structure Issue where
  id : Nat
  project : Text
  num : Nat
  parent : Option Nat
  isSubtask : Bool
  deriving DecidableEq

def Issue.key (i : Issue) : Text := formatKey i.project i.num

structure Db where
  /-- `issue_seq` of each project, by the project's key. -/
  issueSeq : Text → Option Nat
  issues : List Issue
  /-- The rows of `issue_old_key`: the issue a key was left by. -/
  oldKeys : Text → Option Nat

def empty : Db := ⟨fun _ => none, [], fun _ => none⟩

inductive Refusal where
  | invalidKey
  | unusableKey
  | projectExists
  | projectNotFound
  | issueNotFound
  | issueExists
  | outOfRange
  | subtaskMovesWithParent
  | staysWithParent
  | alreadyThere
  deriving DecidableEq

inductive Effect where
  | founded (project : Text)
  | made (seq : Nat) (i : Issue)
  | moved (target : Text) (seq : Nat) (rows : List (Issue × Nat))
  | edited (id : Nat) (parent : Option Nat) (isSubtask : Bool)
  deriving DecidableEq

def setAt {α : Type} (f : Text → Option α) (k : Text) (a : α) : Text → Option α := fun t => if t = k then some a else f t

def moveRow (target : Text) (db : Db) (row : Issue × Nat) : Db :=
  { db with
    issues := db.issues.map fun i => if i.id = row.1.id then { i with project := target, num := row.2 } else i
    oldKeys := setAt db.oldKeys row.1.key row.1.id }

def apply : Effect → Db → Db
  | .founded project, db => { db with issueSeq := setAt db.issueSeq project 0 }
  | .made seq i, db => { db with issueSeq := setAt db.issueSeq i.project seq, issues := i :: db.issues }
  | .moved target seq rows, db => rows.foldl (moveRow target) { db with issueSeq := setAt db.issueSeq target seq }
  | .edited id parent subtask, db =>
    { db with issues := db.issues.map fun i => if i.id = id then { i with parent := parent, isSubtask := subtask } else i }

def validKey (key : Text) : Bool :=
  key.head?.any Go.isAsciiUpper && key.all Links.isKeyLetter && decide (2 ≤ key.length ∧ key.length ≤ 10)

def issueSeqOf (db : Db) (project : Text) : Except Refusal Nat := (db.issueSeq project).elim (.error .projectNotFound) .ok

def nextKeyNum (seq : Nat) : Except Refusal Nat := if seq + 1 < 2 ^ 63 then .ok (seq + 1) else .error .outOfRange

def taken (db : Db) (project : Text) (num : Nat) : Bool := db.issues.any fun i => decide (i.project = project ∧ i.num = num)

def importKeyNum (db : Db) (project : Text) (seq : Nat) (wanted : Option Int) : Except Refusal (Nat × Nat) :=
  match wanted with
  | none => (nextKeyNum seq).map fun next => (next, next)
  | some wanted =>
    if wanted ≤ 0 then (nextKeyNum seq).map fun next => (next, next)
    else
      let seq := max seq wanted.toNat
      if taken db project wanted.toNat then (nextKeyNum seq).map fun next => (next, next) else .ok (wanted.toNat, seq)

def insert (db : Db) (seq : Nat) (i : Issue) : Except Refusal Effect :=
  if db.issues.any (·.id = i.id) then .error .issueExists else .ok (.made seq i)

def create (db : Db) (id : Nat) (project : Text) (parent : Option Nat) (isSubtask : Bool) : Except Refusal Effect := do
  let seq ← issueSeqOf db project
  let num ← nextKeyNum seq
  insert db num ⟨id, project, num, parent, isSubtask⟩

def insertImported (db : Db) (id : Nat) (project : Text) (wanted : Option Int) (parent : Option Nat) (isSubtask : Bool) :
    Except Refusal Effect := do
  let seq ← issueSeqOf db project
  let given ← importKeyNum db project seq wanted
  insert db given.2 ⟨id, project, given.1, parent, isSubtask⟩

def childrenOf (db : Db) (ids : List Nat) : List Nat :=
  ((db.issues.filter fun i => i.parent.any ids.contains).mergeSort fun i j => i.num ≤ j.num).map (·.id)

def walkDown (db : Db) : Nat → List Nat → List Nat
  | 0, _ => []
  | fuel + 1, ids => childrenOf db ids ++ walkDown db fuel (childrenOf db ids)

def subtreeOf (db : Db) (root : Nat) : Option (List Nat) :=
  let ids := walkDown db db.issues.length [root]
  if (root :: ids).Nodup then some ids else none

def numbered : Nat → List Issue → Except Refusal (List (Issue × Nat) × Nat)
  | seq, [] => .ok ([], seq)
  | seq, d :: ds => do
    let num ← nextKeyNum seq
    let rest ← numbered num ds
    .ok ((d, num) :: rest.1, rest.2)

section
variable (u : Tables)

def readKey (key : Text) : Except Refusal (Text × Nat) := (parseKey u key).mapError fun _ => .invalidKey

def atKey (db : Db) (project : Text) (num : Nat) : Option Issue := db.issues.find? fun i => decide (i.project = project ∧ i.num = num)

def rowsUnder (db seen : Db) (root : Nat) : Option (List Issue) :=
  (subtreeOf seen root).map fun ids => ids.filterMap fun id => db.issues.find? fun i => i.id = id

def moveIn (db seen : Db) (key targetKey : Text) : Except Refusal Effect := do
  let (project, num) ← readKey u key
  let before ← (atKey db project num).elim (.error .issueNotFound) .ok
  if before.isSubtask then .error .subtaskMovesWithParent
  else if before.parent ≠ none then .error .staysWithParent
  else
    let target := Go.toUpper u (Go.trimSpace targetKey)
    let seq ← issueSeqOf db target
    if target = before.project then .error .alreadyThere
    else
      let subtree ← (rowsUnder db seen before.id).elim (.error .issueNotFound) .ok
      let rows ← numbered seq (before :: subtree)
      .ok (.moved target rows.2 rows.1)

def byOldKey (db : Db) (key : Text) : Except Refusal Issue := do
  let (project, num) ← readKey u key
  ((db.oldKeys (formatKey project num)).bind fun id => db.issues.find? fun i => i.id = id).elim (.error .issueNotFound) .ok

def byKey (db : Db) (key : Text) : Except Refusal Issue := do
  let (project, num) ← readKey u key
  match atKey db project num with
  | some found => .ok found
  | none => byOldKey u db key

end

/-! ## Calls that run side by side -/

inductive Call where
  | found (project : Text)
  | create (id : Nat) (project : Text) (parent : Option Nat) (isSubtask : Bool)
  | insertImported (id : Nat) (project : Text) (wanted : Option Int) (parent : Option Nat) (isSubtask : Bool)
  /-- `seen` is what was committed when the move looked for what is under the issue. -/
  | move (seen : Db) (key targetKey : Text)
  /-- Any other write to an issue: its key stays, what it hangs under and its type may not. -/
  | edit (id : Nat) (parent : Option Nat) (isSubtask : Bool)

def perform (u : Tables) (db : Db) : Call → Except Refusal Effect
  | .found project =>
    if !validKey project then .error .unusableKey
    else if (db.issueSeq project).isSome then .error .projectExists
    else .ok (.founded project)
  | .create id project parent subtask => create db id project parent subtask
  | .insertImported id project wanted parent subtask => insertImported db id project wanted parent subtask
  | .move seen key targetKey => moveIn u db seen key targetKey
  | .edit id parent subtask => .ok (.edited id parent subtask)

def Effect.project : Effect → Option Text
  | .founded project => some project
  | .made _ i => some i.project
  | .moved target _ _ => some target
  | .edited _ _ _ => none

def Effect.rows : Effect → List Nat
  | .founded _ => []
  | .made _ i => [i.id]
  | .moved _ _ rows => rows.map (·.1.id)
  | .edited id _ _ => [id]

def Apart (e t : Effect) : Prop := (∀ p ∈ e.project, p ∉ t.project) ∧ ∀ id ∈ e.rows, id ∉ t.rows

def MayWhere (u : Tables) (ok : Db → Call → Prop) (db : Db) (running : List Effect) (e : Effect) : Prop :=
  ∃ call, ok db call ∧ perform u db call = .ok e ∧ ∀ t ∈ running, Apart e t

abbrev StepsWhere (u : Tables) (ok : Db → Call → Prop) : Transactions.Active Db Effect → Transactions.Active Db Effect → Prop :=
  Relation.ReflTransGen (Transactions.Step apply (MayWhere u ok) fun _ _ _ => True)

def RunWhere (u : Tables) (ok : Db → Call → Prop) (s : Transactions.Active Db Effect) : Prop := StepsWhere u ok ⟨empty, []⟩ s

abbrev Run (u : Tables) (s : Transactions.Active Db Effect) : Prop := RunWhere u (fun _ _ => True) s

/-! ## Keys that are written and read -/

theorem isKeyLetter_plain {c : Char} (h : Links.isKeyLetter c = true) (u : Tables) :
    c ≠ '-' ∧ Go.isSpace c = false ∧ Go.upperRune u c = c := by
  have hn : (48 ≤ c.toNat ∧ c.toNat ≤ 57) ∨ (65 ≤ c.toNat ∧ c.toNat ≤ 90) := by
    unfold Links.isKeyLetter Go.isAsciiUpper Go.isAsciiDigit at h
    rw [Bool.or_eq_true, decide_eq_true_eq, decide_eq_true_eq] at h
    exact h.symm
  have hlower : Go.isAsciiLower c = false := by
    refine decide_eq_false fun hc => ?_
    have h' : 97 ≤ c.toNat ∧ c.toNat ≤ 122 := hc
    omega
  refine ⟨fun hc => ?_, ?_, ?_⟩
  · subst hc
    have h45 : '-'.toNat = 45 := rfl
    omega
  · unfold Go.isSpace
    simp only [Bool.or_eq_false_iff, Bool.and_eq_false_iff, decide_eq_false_iff_not, beq_eq_false_iff_ne]
    omega
  · unfold Go.upperRune
    rw [hlower, if_neg Bool.false_ne_true, if_pos]
    unfold Go.isAscii
    exact decide_eq_true (by omega)

theorem isKeyLetter_digit {c : Char} (h : Go.isAsciiDigit c = true) : Links.isKeyLetter c = true := by
  unfold Links.isKeyLetter
  rw [h, Bool.or_true]

variable {p p' : Text} {n n' id seq : Nat} {db : Db} {i : Issue} {e : Effect}

theorem validKey_letters (h : validKey p = true) : ∀ c ∈ p, Links.isKeyLetter c = true := by
  unfold validKey at h
  rw [Bool.and_eq_true, Bool.and_eq_true, all_eq_true] at h
  exact h.1.2

theorem notDash (h : validKey p = true) : ∀ c ∈ p, decide (c ≠ '-') = true :=
  fun c hc => decide_eq_true (isKeyLetter_plain (validKey_letters h c hc) Tables.ascii).1

theorem takeWhile_formatKey (h : validKey p = true) (n : Nat) : (formatKey p n).takeWhile (· ≠ '-') = p := by
  unfold formatKey
  rw [takeWhile_append_of_pos (notDash h)]
  simp

theorem dropWhile_formatKey (h : validKey p = true) (n : Nat) :
    (formatKey p n).dropWhile (· ≠ '-') = '-' :: Go.itoa n := by
  unfold formatKey
  rw [dropWhile_append_of_pos (notDash h)]
  simp

theorem formatKey_inj (h : validKey p = true) (h' : validKey p' = true)
    (he : formatKey p n = formatKey p' n') : p = p' ∧ n = n' := by
  have hp : p = p' := by rw [← takeWhile_formatKey h n, he, takeWhile_formatKey h' n']
  have hd : '-' :: Go.itoa n = '-' :: Go.itoa n' := by rw [← dropWhile_formatKey h n, he, dropWhile_formatKey h' n']
  exact ⟨hp, by rw [← Go.atoi_itoa n, (List.cons.inj hd).2, Go.atoi_itoa n']⟩

theorem trimSpace_plain {s : Text} (h : ∀ c ∈ s, Go.isSpace c = false) : Go.trimSpace s = s := by
  have hleft : ∀ {t : Text}, (∀ c ∈ t, Go.isSpace c = false) → Go.trimLeft t = t := by
    intro t ht
    cases t with
    | nil => rfl
    | cons c t => exact dropWhile_cons_of_neg (by simp [ht c mem_cons_self])
  unfold Go.trimSpace
  rw [hleft h, hleft fun c hc => h c (mem_reverse.1 hc), reverse_reverse]

theorem formatKey_plain (h : validKey p = true) (n : Nat) (u : Tables) :
    ∀ c ∈ formatKey p n, Go.isSpace c = false ∧ Go.upperRune u c = c := by
  intro c hc
  rcases mem_append.1 hc with hc | hc
  · exact (isKeyLetter_plain (validKey_letters h c hc) u).2
  · rcases mem_cons.1 hc with rfl | hc
    · exact ⟨by decide, rfl⟩
    · exact (isKeyLetter_plain (isKeyLetter_digit (Go.itoa_digits n c hc)) u).2

theorem trimmed_formatKey (h : validKey p = true) (n : Nat) (u : Tables) :
    Go.toUpper u (Go.trimSpace (formatKey p n)) = formatKey p n := by
  rw [trimSpace_plain fun c hc => (formatKey_plain h n u c hc).1]
  unfold Go.toUpper
  exact (map_congr_left fun c hc => (formatKey_plain h n u c hc).2).trans (map_id _)

theorem readKey_formatKey (u : Tables) (h : validKey p = true) (hn : 1 ≤ n) (hn' : n < 10 ^ 18) :
    readKey u (formatKey p n) = .ok (p, n) := by
  have hlen : (Go.itoa n).length ≤ 18 := (Nat.length_toDigits_le_iff (by decide) (by decide)).2 hn'
  have hdigits := Go.itoa_digits n
  have hhead := Go.itoa_head hn
  have hnum := Go.atoi_itoa n
  have hletters := validKey_letters h
  unfold validKey at h
  have hp := takeWhile_formatKey (p := p) (by unfold validKey; exact h) n
  have hd := dropWhile_formatKey (p := p) (by unfold validKey; exact h) n
  have ht := trimmed_formatKey (p := p) (by unfold validKey; exact h) n u
  have hread : parseKey u (formatKey p n) = .ok (p, n) := by
    unfold parseKey
    rw [ht]
    dsimp only
    rw [hp, hd]
    cases p with
    | nil => simp at h
    | cons first more =>
      cases hi : Go.itoa n with
      | nil => exact absurd hi (Go.itoa_ne_nil n)
      | cons digit digits =>
        rw [hi] at hlen hdigits hhead hnum
        simp only [List.head?_cons, Option.any_some, Bool.and_eq_true, decide_eq_true_eq, length_cons] at h hlen
        refine (if_pos ⟨h.1.1, all_eq_true.2 fun c hc => hletters c (mem_cons_of_mem _ hc), by omega, by omega,
          hdigits digit mem_cons_self, fun he => hhead (by rw [he]; rfl),
          all_eq_true.2 fun c hc => hdigits c (mem_cons_of_mem _ hc), by omega⟩).trans ?_
        rw [hnum]
  unfold readKey
  rw [hread]
  rfl

/-! ## Whose a key is -/

def Has (db : Db) (id : Nat) (p : Text) (n : Nat) : Prop := ∃ i ∈ db.issues, i.id = id ∧ i.project = p ∧ i.num = n

def Unheld (db : Db) (p : Text) (n : Nat) : Prop := (∀ id, ¬ Has db id p n) ∧ db.oldKeys (formatKey p n) = none

def Readable (n : Nat) : Prop := 1 ≤ n ∧ n < 10 ^ 18

structure Owns (db : Db) (id : Nat) (p : Text) (n : Nat) : Prop where
  has : ∃ p n, Has db id p n
  alone : ∀ j, Has db j p n → j = id
  found : Has db id p n ∨ db.oldKeys (formatKey p n) = some id
  readable : Readable n
  below : ∃ q, db.issueSeq p = some q ∧ n ≤ q

structure Kept (db : Db) : Prop where
  once : ∀ id p n p' n', Has db id p n → Has db id p' n' → p = p' ∧ n = n'
  apart : ∀ id id' p n, Has db id p n → Has db id' p n → id = id'
  valid : ∀ p q, db.issueSeq p = some q → validKey p = true
  below : ∀ id p n, Has db id p n → Readable n ∧ ∃ q, db.issueSeq p = some q ∧ n ≤ q
  left : ∀ t id, db.oldKeys t = some id → ∃ p n q, t = formatKey p n ∧ db.issueSeq p = some q ∧ n ≤ q

theorem has_iff {f : Issue → Issue} {id' : Nat}
    {g : Text → Option Nat} {k : Text → Option Nat} (hf : ∀ i, (f i).id = id' ∧ (f i).project = p' ∧ (f i).num = n' ↔
      i.id = id ∧ i.project = p ∧ i.num = n) : Has ⟨g, db.issues.map f, k⟩ id' p' n' ↔ Has db id p n := by
  constructor
  · rintro ⟨i, hi, h⟩
    obtain ⟨j, hj, rfl⟩ := mem_map.1 hi
    exact ⟨j, hj, (hf j).1 h⟩
  · rintro ⟨j, hj, h⟩
    exact ⟨f j, mem_map_of_mem hj, (hf j).2 h⟩

theorem has_edited {i : Nat} {parent : Option Nat} {sub : Bool} :
    Has (apply (.edited i parent sub) db) id p n ↔ Has db id p n :=
  has_iff fun j => by
    split <;> exact Iff.rfl

theorem has_made (seq : Nat) :
    Has (apply (.made seq i) db) id p n ↔ (i.id = id ∧ i.project = p ∧ i.num = n) ∨ Has db id p n := by
  unfold Has apply
  simp only [mem_cons, exists_eq_or_imp]

theorem has_moveRow {target : Text} {row : Issue × Nat} :
    Has (moveRow target db row) id p n ↔
      if id = row.1.id then p = target ∧ n = row.2 ∧ ∃ p n, Has db id p n else Has db id p n := by
  split
  · rename_i hid
    subst hid
    constructor
    · rintro ⟨i, hi, hid, hp, hn⟩
      obtain ⟨j, hj, rfl⟩ := mem_map.1 hi
      split at hid
      · rename_i hj'
        rw [if_pos hj'] at hp hn
        exact ⟨hp.symm, hn.symm, j.project, j.num, j, hj, hj', rfl, rfl⟩
      · rename_i hj'
        exact absurd hid hj'
    · rintro ⟨rfl, rfl, p', n', j, hj, hid, -, -⟩
      exact ⟨_, mem_map_of_mem hj, by rw [if_pos hid]; exact ⟨hid, rfl, rfl⟩⟩
  · rename_i hid
    refine has_iff fun j => ?_
    split
    · rename_i hj
      exact ⟨fun h => absurd (h.1.symm.trans hj) hid, fun h => absurd (h.1.symm.trans hj) hid⟩
    · exact Iff.rfl

theorem has_rows {target : Text} {id : Nat} {p : Text} {n : Nat} : ∀ {rows : List (Issue × Nat)} {db : Db},
    id ∉ rows.map (·.1.id) → (Has (rows.foldl (moveRow target) db) id p n ↔ Has db id p n)
  | [], _, _ => Iff.rfl
  | row :: rows, db, h => by
    rw [map_cons, mem_cons, not_or] at h
    rw [foldl_cons, has_rows h.2, has_moveRow, if_neg h.1]

theorem rows_seq {target : Text} : ∀ (rows : List (Issue × Nat)) (db : Db), (rows.foldl (moveRow target) db).issueSeq = db.issueSeq
  | [], _ => rfl
  | row :: rows, db => rows_seq rows (moveRow target db row)

theorem has_apply (h : id ∉ e.rows) (p : Text) (n : Nat) :
    Has (apply e db) id p n ↔ Has db id p n := by
  cases e with
  | founded => exact Iff.rfl
  | made seq i =>
    have hne : i.id ≠ id := fun he => h (mem_singleton.2 he.symm)
    rw [has_made, or_iff_right fun h => hne h.1]
  | moved => exact has_rows h
  | edited => exact has_edited

theorem setAt_ne {α : Type} {f : Text → Option α} {k t : Text} (h : t ≠ k) (a : α) : setAt f k a t = f t := if_neg h

theorem setAt_self {α : Type} (f : Text → Option α) (k : Text) (a : α) : setAt f k a k = some a := if_pos rfl

theorem seq_apply (h : p ∉ e.project) : (apply e db).issueSeq p = db.issueSeq p := by
  cases e with
  | founded => exact setAt_ne (fun he => h (by rw [he]; rfl)) 0
  | made seq i => exact setAt_ne (fun he => h (by rw [he]; rfl)) seq
  | moved target seq rows =>
    unfold apply
    rw [rows_seq]
    exact setAt_ne (fun he => h (by rw [he]; rfl)) seq
  | edited => rfl

/-! ## What each effect needs -/

def Counted (db : Db) (p : Text) (seq : Nat) : Prop := ∃ q, db.issueSeq p = some q ∧ q ≤ seq

def Given (db : Db) (p : Text) (seq n : Nat) : Prop := Readable n ∧ n ≤ seq ∧ Unheld db p n

def Fit (db : Db) : Effect → Prop
  | .founded p => validKey p = true ∧ db.issueSeq p = none
  | .made seq i => Counted db i.project seq ∧ Given db i.project seq i.num ∧ ∀ p n, ¬ Has db i.id p n
  | .moved target seq rows =>
    Counted db target seq ∧ (∀ row ∈ rows, Has db row.1.id row.1.project row.1.num ∧ Given db target seq row.2) ∧
      (rows.map (·.1.id)).Nodup ∧ (rows.map (·.2)).Nodup
  | .edited _ _ _ => True

/-! ## What is kept -/

theorem Kept.valid_of_has (h : Kept db) (hi : Has db id p n) : validKey p = true := by
  obtain ⟨-, q, hq, -⟩ := h.below id p n hi
  exact h.valid p q hq

theorem Kept.key_ne (h : Kept db) (hp : validKey p = true) (hu : Unheld db p n)
    (hi : Has db id p' n') : formatKey p n ≠ formatKey p' n' := by
  intro he
  obtain ⟨rfl, rfl⟩ := formatKey_inj hp (h.valid_of_has hi) he
  exact hu.1 id hi

def raise (db : Db) (p : Text) (seq : Nat) : Db := { db with issueSeq := setAt db.issueSeq p seq }

theorem raise_below {q : Text} (hseq : ∀ q, db.issueSeq p = some q → q ≤ seq)
    (h : ∃ s, db.issueSeq q = some s ∧ n ≤ s) : ∃ s, (raise db p seq).issueSeq q = some s ∧ n ≤ s := by
  obtain ⟨s, hs, hn⟩ := h
  by_cases hqp : q = p
  · subst hqp
    exact ⟨seq, setAt_self _ _ _, hn.trans (hseq s hs)⟩
  · exact ⟨s, (setAt_ne hqp seq).trans hs, hn⟩

theorem Kept.raise (h : Kept db) (hp : validKey p = true)
    (hseq : ∀ q, db.issueSeq p = some q → q ≤ seq) : Kept (raise db p seq) where
  once := h.once
  apart := h.apart
  valid q s hs := by
    by_cases hqp : q = p
    · exact hqp ▸ hp
    · exact h.valid q s ((setAt_ne hqp seq).symm.trans hs)
  below id q n hi := ⟨(h.below id q n hi).1, raise_below hseq (h.below id q n hi).2⟩
  left t id ht := by
    obtain ⟨q, n, s, hq, hs, hn⟩ := h.left t id ht
    obtain ⟨s', hs', hn'⟩ := raise_below hseq ⟨s, hs, hn⟩
    exact ⟨q, n, s', hq, hs', hn'⟩

theorem Owns.raise {q : Text} (h : Owns db id q n)
    (hseq : ∀ q, db.issueSeq p = some q → q ≤ seq) : Owns (raise db p seq) id q n :=
  ⟨h.has, h.alone, h.found, h.readable, raise_below hseq h.below⟩

theorem Kept.insert (h : Kept db) (hseq : db.issueSeq i.project = some seq)
    (hg : Given db i.project seq i.num) (hnew : ∀ p n, ¬ Has db i.id p n) : Kept { db with issues := i :: db.issues } := by
  have hhas : ∀ {id p n}, Has { db with issues := i :: db.issues } id p n →
      (i.id = id ∧ i.project = p ∧ i.num = n) ∨ Has db id p n := (has_made seq).1
  refine ⟨fun id p n p' n' hi hi' => ?_, fun id id' p n hi hi' => ?_, h.valid, fun id p n hi => ?_, h.left⟩
  · rcases hhas hi with ⟨rfl, rfl, rfl⟩ | hi
    · rcases hhas hi' with ⟨-, rfl, rfl⟩ | hi'
      · exact ⟨rfl, rfl⟩
      · exact absurd hi' (hnew p' n')
    · rcases hhas hi' with ⟨rfl, rfl, rfl⟩ | hi'
      · exact absurd hi (hnew p n)
      · exact h.once id p n p' n' hi hi'
  · rcases hhas hi with ⟨rfl, rfl, rfl⟩ | hi
    · rcases hhas hi' with ⟨rfl, -, -⟩ | hi'
      · rfl
      · exact absurd hi' (hg.2.2.1 id')
    · rcases hhas hi' with ⟨rfl, rfl, rfl⟩ | hi'
      · exact absurd hi (hg.2.2.1 id)
      · exact h.apart id id' p n hi hi'
  · rcases hhas hi with ⟨rfl, rfl, rfl⟩ | hi
    · exact ⟨hg.1, seq, hseq, hg.2.1⟩
    · exact h.below id p n hi

theorem Owns.not_unheld (h : Owns db id p n) : ¬ Unheld db p n := by
  intro hu
  rcases h.found with hf | hf
  · exact hu.1 id hf
  · exact absurd (hf.symm.trans hu.2) (Option.some_ne_none id)

theorem Owns.insert (h : Owns db id p n)
    (hu : Unheld db i.project i.num) : Owns { db with issues := i :: db.issues } id p n := by
  have hin : ∀ {id p n}, Has db id p n → Has { db with issues := i :: db.issues } id p n := by
    rintro id p n ⟨j, hj, hh⟩
    exact ⟨j, mem_cons_of_mem _ hj, hh⟩
  obtain ⟨p', n', hhas⟩ := h.has
  refine ⟨⟨p', n', hin hhas⟩, fun j hj => ?_, h.found.imp_left hin, h.readable, h.below⟩
  rcases (has_made 0).1 hj with ⟨-, rfl, rfl⟩ | hj
  · exact absurd hu h.not_unheld
  · exact h.alone j hj

section
variable {db : Db} {target : Text} {row : Issue × Nat}

theorem Kept.moveRow {seq : Nat} (h : Kept db) (hseq : db.issueSeq target = some seq)
    (hrow : Has db row.1.id row.1.project row.1.num) (hg : Given db target seq row.2) : Kept (moveRow target db row) := by
  refine ⟨fun id p n p' n' hi hi' => ?_, fun id id' p n hi hi' => ?_, h.valid, fun id p n hi => ?_, fun t id ht => ?_⟩
  · rw [has_moveRow] at hi hi'
    split at hi
    · rename_i hid
      rw [if_pos hid] at hi'
      exact ⟨hi.1.trans hi'.1.symm, hi.2.1.trans hi'.2.1.symm⟩
    · rename_i hid
      rw [if_neg hid] at hi'
      exact h.once id p n p' n' hi hi'
  · rw [has_moveRow] at hi hi'
    split at hi <;> split at hi'
    · rename_i hid hid'
      exact hid.trans hid'.symm
    · obtain ⟨rfl, rfl, -⟩ := hi
      exact absurd hi' (hg.2.2.1 id')
    · obtain ⟨rfl, rfl, -⟩ := hi'
      exact absurd hi (hg.2.2.1 id)
    · exact h.apart id id' p n hi hi'
  · rw [has_moveRow] at hi
    split at hi
    · obtain ⟨rfl, rfl, -⟩ := hi
      exact ⟨hg.1, seq, hseq, hg.2.1⟩
    · exact h.below id p n hi
  · have ht' : setAt db.oldKeys row.1.key row.1.id t = some id := ht
    unfold setAt at ht'
    split at ht'
    · rename_i hkey
      obtain ⟨-, q, hq, hn⟩ := h.below _ _ _ hrow
      exact ⟨row.1.project, row.1.num, q, hkey, hq, hn⟩
    · exact h.left t id ht'

theorem Unheld.moveRow {p : Text} {n : Nat} (h : Unheld db p n) (hk : Kept db) (hp : validKey p = true)
    (hrow : Has db row.1.id row.1.project row.1.num) (hne : ¬ (p = target ∧ n = row.2)) : Unheld (moveRow target db row) p n := by
  refine ⟨fun id hi => ?_, (setAt_ne (hk.key_ne hp h hrow) _).trans h.2⟩
  rw [has_moveRow] at hi
  split at hi
  · exact hne ⟨hi.1, hi.2.1⟩
  · exact h.1 id hi

theorem Owns.moveRow {id : Nat} {p : Text} {n : Nat} (h : Owns db id p n) (hk : Kept db)
    (hrow : Has db row.1.id row.1.project row.1.num) (hu : Unheld db target row.2) : Owns (moveRow target db row) id p n := by
  obtain ⟨p', n', hhas⟩ := h.has
  refine ⟨?_, fun j hj => ?_, ?_, h.readable, h.below⟩
  · by_cases hid : id = row.1.id
    · exact ⟨target, row.2, has_moveRow.2 (by rw [if_pos hid]; exact ⟨rfl, rfl, p', n', hhas⟩)⟩
    · exact ⟨p', n', has_moveRow.2 (by rw [if_neg hid]; exact hhas)⟩
  · rw [has_moveRow] at hj
    split at hj
    · obtain ⟨rfl, rfl, -⟩ := hj
      exact absurd hu h.not_unheld
    · exact h.alone j hj
  · by_cases hkey : formatKey p n = row.1.key
    · obtain ⟨s, hs, -⟩ := h.below
      obtain ⟨rfl, rfl⟩ := formatKey_inj (hk.valid p s hs) (hk.valid_of_has hrow) hkey
      exact Or.inr ((if_pos hkey).trans (congrArg some (h.alone _ hrow)))
    · refine h.found.imp (fun hi => ?_) fun ho => (setAt_ne hkey _).trans ho
      refine has_moveRow.2 ?_
      rw [if_neg]
      · exact hi
      · rintro rfl
        obtain ⟨rfl, rfl⟩ := hk.once _ _ _ _ _ hi hrow
        exact hkey rfl

end

theorem rows_keep {target : Text} {seq : Nat} : ∀ {rows : List (Issue × Nat)} {db : Db}, Kept db →
    db.issueSeq target = some seq →
    (∀ row ∈ rows, Has db row.1.id row.1.project row.1.num ∧ Given db target seq row.2) →
    (rows.map (·.1.id)).Nodup → (rows.map (·.2)).Nodup →
    Kept (rows.foldl (moveRow target) db) ∧ (∀ id p n, Owns db id p n → Owns (rows.foldl (moveRow target) db) id p n) ∧
      ∀ p n, validKey p = true → p ≠ target → Unheld db p n → Unheld (rows.foldl (moveRow target) db) p n
  | [], _, hk, _, _, _, _ => ⟨hk, fun _ _ _ h => h, fun _ _ _ _ h => h⟩
  | row :: rows, db, hk, hseq, hr, hids, hnums => by
    obtain ⟨hrow, hg⟩ := hr row mem_cons_self
    rw [map_cons, nodup_cons] at hids hnums
    have hvalid := hk.valid target seq hseq
    have hrest : ∀ row' ∈ rows, Has (moveRow target db row) row'.1.id row'.1.project row'.1.num ∧
        Given (moveRow target db row) target seq row'.2 := by
      intro row' hrow'
      obtain ⟨hhas, hread, hle, hu⟩ := hr row' (mem_cons_of_mem _ hrow')
      have hid : row'.1.id ≠ row.1.id := fun he => hids.1 (mem_map.2 ⟨row', hrow', he⟩)
      have hnum : row'.2 ≠ row.2 := fun he => hnums.1 (mem_map.2 ⟨row', hrow', he⟩)
      exact ⟨has_moveRow.2 (by rw [if_neg hid]; exact hhas), hread, hle, hu.moveRow hk hvalid hrow fun h => hnum h.2⟩
    obtain ⟨hk', howns, hun⟩ := rows_keep (hk.moveRow hseq hrow hg) hseq hrest hids.2 hnums.2
    exact ⟨hk', fun id p n ho => howns id p n (ho.moveRow hk hrow hg.2.2),
      fun p n hp hne hu => hun p n hp hne (hu.moveRow hk hp hrow fun h => hne h.1)⟩

section
variable {db : Db} {e : Effect}

variable {p : Text} {seq : Nat}

theorem Counted.le (h : Counted db p seq) : ∀ q, db.issueSeq p = some q → q ≤ seq := by
  intro q hq
  obtain ⟨q', hq', hle⟩ := h
  cases hq.symm.trans hq'
  exact hle

theorem Counted.valid (h : Counted db p seq) (hk : Kept db) : validKey p = true := by
  obtain ⟨q, hq, -⟩ := h
  exact hk.valid p q hq

theorem fit_apply (hk : Kept db) (h : Fit db e) :
    Kept (apply e db) ∧ (∀ id p n, Owns db id p n → Owns (apply e db) id p n) ∧
      ∀ p n, validKey p = true → p ∉ e.project → Unheld db p n → Unheld (apply e db) p n := by
  cases e with
  | founded q =>
    have hle : ∀ s, db.issueSeq q = some s → s ≤ 0 := fun s hs => absurd (hs.symm.trans h.2) (Option.some_ne_none s)
    exact ⟨hk.raise h.1 hle, fun _ _ _ ho => ho.raise hle, fun _ _ _ _ hu => hu⟩
  | made seq i =>
    obtain ⟨hc, hg, hnew⟩ := h
    have hk' := hk.raise (hc.valid hk) hc.le
    refine ⟨hk'.insert (setAt_self _ _ _) hg hnew, fun id p n ho => (ho.raise hc.le).insert hg.2.2, fun p n _ hp hu => ⟨fun id hi => ?_, hu.2⟩⟩
    rcases (has_made seq).1 hi with ⟨-, hip, -⟩ | hi
    · exact hp (by rw [← hip]; rfl)
    · exact hu.1 id hi
  | moved =>
    obtain ⟨hc, hr, hids, hnums⟩ := h
    obtain ⟨hkept, howns, hun⟩ := rows_keep (hk.raise (hc.valid hk) hc.le) (setAt_self _ _ _) hr hids hnums
    exact ⟨hkept, fun id p n ho => howns id p n (ho.raise hc.le), fun p n hv hp hu =>
      hun p n hv (fun he => hp (by rw [he]; rfl)) hu⟩
  | edited i parent sub =>
    have hhas : ∀ id p n, Has (apply (.edited i parent sub) db) id p n ↔ Has db id p n := fun id p n => has_edited
    refine ⟨⟨fun id p n p' n' hi hi' => hk.once id p n p' n' ((hhas _ _ _).1 hi) ((hhas _ _ _).1 hi'),
      fun id id' p n hi hi' => hk.apart id id' p n ((hhas _ _ _).1 hi) ((hhas _ _ _).1 hi'), hk.valid,
      fun id p n hi => hk.below id p n ((hhas _ _ _).1 hi), hk.left⟩, fun id p n ho => ?_, fun p n _ _ hu => ?_⟩
    · obtain ⟨p', n', hi⟩ := ho.has
      exact ⟨⟨p', n', (hhas _ _ _).2 hi⟩, fun j hj => ho.alone j ((hhas _ _ _).1 hj), ho.found.imp_left (hhas _ _ _).2,
        ho.readable, ho.below⟩
    · exact ⟨fun id hi => hu.1 id ((hhas _ _ _).1 hi), hu.2⟩

theorem apart_symm {t : Effect} (h : Apart e t) : Apart t e :=
  ⟨fun p hp hp' => h.1 p hp' hp, fun id hid hid' => h.2 id hid' hid⟩

theorem Counted.apply (h : Counted db p seq) (hp : p ∉ e.project) : Counted (apply e db) p seq := by
  obtain ⟨q, hq, hle⟩ := h
  exact ⟨q, (seq_apply hp).trans hq, hle⟩

theorem Given.apply {n : Nat} (h : Given db p seq n) (hk : Kept db) (he : Fit db e) (hv : validKey p = true)
    (hp : p ∉ e.project) : Given (apply e db) p seq n :=
  ⟨h.1, h.2.1, (fit_apply hk he).2.2 p n hv hp h.2.2⟩

theorem Fit.stable {t : Effect} (hk : Kept db) (he : Fit db e) (ht : Fit db t) (ha : Apart e t) : Fit (apply e db) t := by
  have hproject : ∀ p ∈ t.project, p ∉ e.project := fun p hp hp' => ha.1 p hp' hp
  have hrows : ∀ id ∈ t.rows, id ∉ e.rows := fun id hid hid' => ha.2 id hid' hid
  cases t with
  | founded p => exact ⟨ht.1, (seq_apply (hproject p rfl)).trans ht.2⟩
  | made seq i =>
    obtain ⟨hc, hg, hnew⟩ := ht
    have hp := hproject i.project rfl
    refine ⟨hc.apply hp, hg.apply hk he (hc.valid hk) hp, fun p n hi => hnew p n ?_⟩
    exact (has_apply (hrows i.id (mem_singleton_self _)) p n).1 hi
  | moved target seq rows =>
    obtain ⟨hc, hr, hids, hnums⟩ := ht
    have hp := hproject target rfl
    refine ⟨hc.apply hp, fun row hrow => ?_, hids, hnums⟩
    obtain ⟨hhas, hg⟩ := hr row hrow
    exact ⟨(has_apply (hrows row.1.id (mem_map.2 ⟨row, hrow, rfl⟩)) _ _).2 hhas, hg.apply hk he (hc.valid hk) hp⟩
  | edited => trivial

end

/-! ## Calls that take no key from anybody -/

def RoomFor (db : Db) (project : Text) (count : Nat) : Prop := ∀ seq ∈ db.issueSeq project, seq + count < 10 ^ 18

def carried (u : Tables) (db seen : Db) (key : Text) : Nat :=
  match readKey u key with
  | .error _ => 0
  | .ok (project, num) => ((atKey db project num).bind fun before => rowsUnder db seen before.id).elim 0 fun rows => rows.length + 1

def Clear (u : Tables) (db : Db) : Call → Prop
  | .found _ => True
  | .create _ project _ _ => RoomFor db project 1
  | .insertImported _ project wanted _ _ =>
    match wanted with
    | none => RoomFor db project 1
    | some wanted =>
      if wanted ≤ 0 then RoomFor db project 1
      else
        db.oldKeys (formatKey project wanted.toNat) = none ∧ wanted.toNat < 10 ^ 18 ∧
          (taken db project wanted.toNat = true → wanted.toNat + 1 < 10 ^ 18 ∧ RoomFor db project 1)
  | .move seen key targetKey => RoomFor db (Go.toUpper u (Go.trimSpace targetKey)) (carried u db seen key)
  | .edit _ _ _ => True

section
variable {db : Db}

variable {p : Text} {seq n : Nat}

theorem issueSeqOf_ok (h : issueSeqOf db p = .ok seq) : db.issueSeq p = some seq := by
  unfold issueSeqOf at h
  cases hs : db.issueSeq p with
  | none =>
    rw [hs] at h
    cases h
  | some =>
    rw [hs] at h
    exact congrArg some (Except.ok.inj h)

theorem nextKeyNum_ok (h : nextKeyNum seq = .ok n) : n = seq + 1 := by
  unfold nextKeyNum at h
  split at h
  · exact (Except.ok.inj h).symm
  · cases h

theorem unheld_past (hk : Kept db) (hs : db.issueSeq p = some seq) (hn : seq < n) : Unheld db p n := by
  refine ⟨fun id hi => ?_, Option.eq_none_iff_forall_ne_some.2 fun id ho => ?_⟩
  · obtain ⟨-, q, hq, hle⟩ := hk.below id p n hi
    cases hs.symm.trans hq
    omega
  · obtain ⟨p', n', q, hkey, hq, hle⟩ := hk.left _ _ ho
    obtain ⟨rfl, rfl⟩ := formatKey_inj (hk.valid p seq hs) (hk.valid p' q hq) hkey
    cases hs.symm.trans hq
    omega

theorem has_of_mem {i : Issue} (h : i ∈ db.issues) : Has db i.id i.project i.num := ⟨i, h, rfl, rfl, rfl⟩

theorem insert_ok {i : Issue} {e : Effect} (h : insert db seq i = .ok e) :
    e = .made seq i ∧ ∀ p n, ¬ Has db i.id p n := by
  unfold insert at h
  split at h
  · cases h
  · rename_i hnew
    refine ⟨(Except.ok.inj h).symm, ?_⟩
    rintro p n ⟨j, hj, hid, -, -⟩
    exact hnew (any_eq_true.2 ⟨j, hj, decide_eq_true hid⟩)

theorem given_next (hk : Kept db) {q : Nat} (hs : db.issueSeq p = some q) (hq : q ≤ seq) (hn : seq + 1 < 10 ^ 18) :
    Given db p (seq + 1) (seq + 1) :=
  ⟨⟨by omega, hn⟩, le_refl _, unheld_past hk hs (by omega)⟩

theorem not_taken (h : taken db p n ≠ true) : ∀ id, ¬ Has db id p n := by
  rintro id ⟨i, hi, -, hp, hn⟩
  exact h (any_eq_true.2 ⟨i, hi, decide_eq_true ⟨hp, hn⟩⟩)

theorem importKeyNum_ok (hk : Kept db) {u : Tables} {id : Nat} {wanted : Option Int} {parent : Option Nat}
    {sub : Bool} {given : Nat × Nat} (hs : db.issueSeq p = some seq) (hc : Clear u db (.insertImported id p wanted parent sub))
    (h : importKeyNum db p seq wanted = .ok given) : seq ≤ given.2 ∧ Given db p given.2 given.1 := by
  have hnext : ∀ {s : Nat}, seq ≤ s → s + 1 < 10 ^ 18 → (nextKeyNum s).map (fun next => (next, next)) = .ok given →
      seq ≤ given.2 ∧ Given db p given.2 given.1 := by
    intro s hle hroom hgiven
    cases hn : nextKeyNum s with
    | error =>
      rw [hn] at hgiven
      cases hgiven
    | ok next =>
      rw [hn] at hgiven
      obtain rfl := Except.ok.inj hgiven
      obtain rfl := nextKeyNum_ok hn
      exact ⟨by dsimp only; omega, given_next hk hs hle hroom⟩
  unfold Clear at hc
  unfold importKeyNum at h
  cases wanted with
  | none => exact hnext (le_refl _) (hc seq hs) h
  | some w =>
    dsimp only at hc h
    split at h
    · rename_i hw
      rw [if_pos hw] at hc
      exact hnext (le_refl _) (hc seq hs) h
    · rename_i hw
      rw [if_neg hw] at hc
      obtain ⟨hold, hlt, hroom⟩ := hc
      split at h
      · rename_i ht
        obtain ⟨hw', hr⟩ := hroom ht
        have hseq : seq + 1 < 10 ^ 18 := hr seq hs
        exact hnext (le_max_left _ _) (by omega) h
      · rename_i ht
        obtain rfl := Except.ok.inj h
        exact ⟨le_max_left _ _, ⟨by omega, hlt⟩, le_max_right _ _, not_taken ht, hold⟩

theorem numbered_ok : ∀ {ds : List Issue} {seq : Nat} {given : List (Issue × Nat) × Nat}, numbered seq ds = .ok given →
    given.1.map (·.1) = ds ∧ (∀ row ∈ given.1, seq < row.2 ∧ row.2 ≤ given.2) ∧ (given.1.map (·.2)).Nodup ∧
      given.2 = seq + ds.length
  | [], seq, given, h => by
    obtain rfl := Except.ok.inj h
    exact ⟨rfl, nofun, nodup_nil, rfl⟩
  | d :: ds, seq, given, h => by
    unfold numbered at h
    obtain ⟨num, hn, h⟩ := Go.bind_ok.1 h
    obtain ⟨rest, hrest, h⟩ := Go.bind_ok.1 h
    obtain rfl := Except.ok.inj h
    obtain rfl := nextKeyNum_ok hn
    obtain ⟨hmap, hbounds, hnodup, hlen⟩ := numbered_ok hrest
    refine ⟨congrArg (d :: ·) hmap, fun row hrow => ?_, nodup_cons.2 ⟨fun hin => ?_, hnodup⟩, ?_⟩
    · dsimp only
      rcases mem_cons.1 hrow with rfl | hrow
      · dsimp only
        omega
      · have := hbounds row hrow
        omega
    · obtain ⟨row, hrow, heq⟩ := mem_map.1 hin
      have := hbounds row hrow
      dsimp only at heq
      omega
    · dsimp only
      rw [hlen, length_cons]
      omega

theorem found_ids : ∀ ids : List Nat,
    ((ids.filterMap fun id => db.issues.find? fun i => decide (i.id = id)).map (·.id)).Sublist ids
  | [] => List.Sublist.slnil
  | id :: ids => by
    rw [filterMap_cons]
    split
    · exact (found_ids ids).cons id
    · rename_i i hi
      have hid : decide (i.id = id) = true := @List.find?_some _ (fun j : Issue => decide (j.id = id)) _ _ hi
      rw [map_cons, of_decide_eq_true hid]
      exact (found_ids ids).cons_cons id

theorem rowsUnder_ok {seen : Db} {root : Nat} {rows : List Issue} (h : rowsUnder db seen root = some rows) :
    (∀ i ∈ rows, i ∈ db.issues) ∧ (root :: rows.map (·.id)).Nodup := by
  unfold rowsUnder subtreeOf at h
  dsimp only at h
  split at h
  · rename_i hnodup
    obtain rfl := Option.some.inj h
    refine ⟨fun i hi => ?_, hnodup.sublist ((found_ids _).cons_cons root)⟩
    obtain ⟨id, -, hid⟩ := mem_filterMap.1 hi
    exact mem_of_find?_eq_some hid
  · cases h

end

section
variable {u : Tables} {db : Db}

theorem elim_ok {α : Type} {o : Option α} {r : Refusal} {a : α} (h : o.elim (.error r) Except.ok = .ok a) : o = some a := by
  cases o with
  | none => cases h
  | some => exact congrArg some (Except.ok.inj h)

theorem atKey_mem {p : Text} {n : Nat} {i : Issue} (h : atKey db p n = some i) : i ∈ db.issues ∧ i.project = p ∧ i.num = n :=
  ⟨mem_of_find?_eq_some h,
    of_decide_eq_true (@List.find?_some _ (fun i : Issue => decide (i.project = p ∧ i.num = n)) _ _ h)⟩

variable {e : Effect}

theorem moveIn_ok {seen : Db} {key targetKey : Text} (h : moveIn u db seen key targetKey = .ok e) :
    ∃ project num before subtree seq given, readKey u key = .ok (project, num) ∧ atKey db project num = some before ∧
      rowsUnder db seen before.id = some subtree ∧ db.issueSeq (Go.toUpper u (Go.trimSpace targetKey)) = some seq ∧
      numbered seq (before :: subtree) = .ok given ∧ e = .moved (Go.toUpper u (Go.trimSpace targetKey)) given.2 given.1 := by
  unfold moveIn at h
  obtain ⟨⟨project, num⟩, hread, h⟩ := Go.bind_ok.1 h
  obtain ⟨before, hbefore, h⟩ := Go.bind_ok.1 h
  split at h
  · cases h
  · split at h
    · cases h
    · obtain ⟨seq, hseq, h⟩ := Go.bind_ok.1 h
      split at h
      · cases h
      · obtain ⟨subtree, hsub, h⟩ := Go.bind_ok.1 h
        obtain ⟨given, hgiven, h⟩ := Go.bind_ok.1 h
        exact ⟨project, num, before, subtree, seq, given, hread, elim_ok hbefore, elim_ok hsub, issueSeqOf_ok hseq, hgiven,
          (Except.ok.inj h).symm⟩

theorem moveIn_fit (hk : Kept db) {seen : Db} {key targetKey : Text} (hc : Clear u db (.move seen key targetKey))
    (h : moveIn u db seen key targetKey = .ok e) : Fit db e := by
  obtain ⟨project, num, before, subtree, seq, given, hread, hbefore, hsub, hseq, hgiven, rfl⟩ := moveIn_ok h
  obtain ⟨hmap, hbounds, hnums, hlen⟩ := numbered_ok hgiven
  obtain ⟨hmem, hids⟩ := rowsUnder_ok hsub
  have hroom : given.2 < 10 ^ 18 := by
    have hc' := hc seq hseq
    unfold carried at hc'
    rw [hread] at hc'
    dsimp only at hc'
    rw [hbefore, Option.bind_some, hsub] at hc'
    rw [hlen, length_cons]
    exact hc'
  have hrows : ∀ row ∈ given.1, row.1 ∈ db.issues := by
    intro row hrow
    have hin : row.1 ∈ before :: subtree := hmap ▸ mem_map_of_mem hrow
    rcases mem_cons.1 hin with heq | hin
    · exact heq ▸ (atKey_mem hbefore).1
    · exact hmem _ hin
  refine ⟨⟨seq, hseq, by omega⟩, fun row hrow => ⟨has_of_mem (hrows row hrow), ?_⟩, ?_, hnums⟩
  · have hb := hbounds row hrow
    exact ⟨⟨by omega, by omega⟩, hb.2, unheld_past hk hseq hb.1⟩
  · have hsplit : given.1.map (fun row => row.1.id) = (given.1.map (·.1)).map (·.id) := (map_map).symm
    rw [hsplit, hmap]
    exact hids

theorem perform_fit (hk : Kept db) {call : Call} (hc : Clear u db call) (h : perform u db call = .ok e) : Fit db e := by
  cases call with
  | found project =>
    unfold perform at h
    dsimp only at h
    split at h
    · cases h
    · rename_i hvalid
      split at h
      · cases h
      · rename_i hnone
        obtain rfl := Except.ok.inj h
        exact ⟨by simpa using hvalid, Option.not_isSome_iff_eq_none.1 hnone⟩
  | create =>
    obtain ⟨seq, hseq, h⟩ := Go.bind_ok.1 h
    obtain ⟨num, hnum, h⟩ := Go.bind_ok.1 h
    obtain ⟨rfl, hnew⟩ := insert_ok h
    obtain rfl := nextKeyNum_ok hnum
    have hs := issueSeqOf_ok hseq
    exact ⟨⟨seq, hs, Nat.le_succ _⟩, given_next hk hs (le_refl _) (hc seq hs), hnew⟩
  | insertImported =>
    obtain ⟨seq, hseq, h⟩ := Go.bind_ok.1 h
    obtain ⟨given, hgiven, h⟩ := Go.bind_ok.1 h
    obtain ⟨rfl, hnew⟩ := insert_ok h
    have hs := issueSeqOf_ok hseq
    obtain ⟨hle, hg⟩ := importKeyNum_ok hk hs hc hgiven
    exact ⟨⟨seq, hs, hle⟩, hg, hnew⟩
  | move => exact moveIn_fit hk hc h
  | edit =>
    obtain rfl := Except.ok.inj h
    trivial

theorem Owns.byKey (hk : Kept db) {id : Nat} {p : Text} {n : Nat} (h : Owns db id p n) :
    ∃ found, byKey u db (formatKey p n) = .ok found ∧ found.id = id := by
  obtain ⟨s, hs, -⟩ := h.below
  have hread := readKey_formatKey u (hk.valid p s hs) h.readable.1 h.readable.2
  unfold IssueKeys.byKey
  rw [hread]
  cases hat : atKey db p n with
  | some found =>
    refine ⟨found, by simp only [bind, Except.bind, hat], ?_⟩
    obtain ⟨hin, hp, hn⟩ := atKey_mem hat
    exact h.alone _ ⟨found, hin, rfl, hp, hn⟩
  | none =>
    have hold : db.oldKeys (formatKey p n) = some id := by
      refine h.found.resolve_left ?_
      rintro ⟨i, hi, -, hp, hn⟩
      exact List.find?_eq_none.1 hat i hi (decide_eq_true ⟨hp, hn⟩)
    obtain ⟨p', n', i, hi, hid, -, -⟩ := h.has
    have hsome : (db.issues.find? fun i => decide (i.id = id)).isSome :=
      List.find?_isSome.2 ⟨i, hi, decide_eq_true hid⟩
    obtain ⟨found, hfound⟩ := Option.isSome_iff_exists.1 hsome
    refine ⟨found, ?_, of_decide_eq_true (@List.find?_some _ (fun j : Issue => decide (j.id = id)) _ _ hfound)⟩
    simp only [bind, Except.bind, hat, byOldKey, hread, hold, Option.bind_some]
    rw [hfound]
    rfl

end

/-! ## Runs -/

section
variable {u : Tables}

def Orderly (K : Nat → Text → Nat → Prop) (db : Db) : Prop := Kept db ∧ ∀ id p n, K id p n → Owns db id p n

theorem clear_keeps {K : Nat → Text → Nat → Prop} {s s' : Transactions.Active Db Effect}
    (h₀ : Transactions.Relied (Orderly K) Fit Apart s.db s.running) (h : StepsWhere u (Clear u) s s') :
    Transactions.Relied (Orderly K) Fit Apart s'.db s'.running := by
  refine Transactions.relied_on (fun e t => apart_symm) ?_ ?_ ?_ h₀ h
  · rintro db running e ⟨hk, -⟩ ⟨call, hc, hp, ha⟩
    exact ⟨perform_fit hk hc hp, ha⟩
  · rintro db e ⟨hk, ho⟩ hf
    obtain ⟨hk', howns, -⟩ := fit_apply hk hf
    exact ⟨hk', fun id p n hx => howns id p n (ho id p n hx)⟩
  · rintro db e t ⟨hk, -⟩ he ht ha
    exact Fit.stable hk he ht ha

theorem nothing_held {id : Nat} {p : Text} {n : Nat} : ¬ Has empty id p n := by
  rintro ⟨i, hi, -⟩
  exact not_mem_nil hi

theorem empty_kept : Kept empty where
  once _ _ _ _ _ hi _ := absurd hi nothing_held
  apart _ _ _ _ hi _ := absurd hi nothing_held
  valid _ q h := absurd h.symm (Option.some_ne_none q)
  below _ _ _ hi := absurd hi nothing_held
  left _ id h := absurd h.symm (Option.some_ne_none id)

theorem Kept.owns {db : Db} (h : Kept db) {i : Issue} (hi : i ∈ db.issues) : Owns db i.id i.project i.num :=
  have hhas := has_of_mem hi
  ⟨⟨i.project, i.num, hhas⟩, fun j hj => h.apart j i.id _ _ hj hhas, Or.inl hhas, (h.below _ _ _ hhas).1, (h.below _ _ _ hhas).2⟩

/-- **A key never changes hands** in a run that grants no key an issue left: whatever comes after, no other issue has the
key, and it finds the issue that had it. -/
theorem key_kept {s s' : Transactions.Active Db Effect} (h : RunWhere u (Clear u) s) (h' : StepsWhere u (Clear u) s s')
    {i : Issue} (hi : i ∈ s.db.issues) :
    (∀ j ∈ s'.db.issues, j.key = i.key → j.id = i.id) ∧ ∃ found, byKey u s'.db i.key = .ok found ∧ found.id = i.id := by
  have hstart : Transactions.Relied (Orderly fun _ _ _ => False) Fit Apart empty [] :=
    ⟨⟨empty_kept, fun _ _ _ h => absurd h not_false⟩, nofun, List.Pairwise.nil⟩
  obtain ⟨⟨hk, -⟩, hfit, hapart⟩ := clear_keeps hstart h
  have hmid : Transactions.Relied (Orderly fun id p n => id = i.id ∧ p = i.project ∧ n = i.num) Fit Apart s.db s.running :=
    ⟨⟨hk, fun id p n hx => hx.1 ▸ hx.2.1 ▸ hx.2.2 ▸ hk.owns hi⟩, hfit, hapart⟩
  obtain ⟨⟨hk', hown⟩, -, -⟩ := clear_keeps hmid h'
  have ho := hown i.id i.project i.num ⟨rfl, rfl, rfl⟩
  refine ⟨fun j hj hkey => ?_, ho.byKey hk'⟩
  obtain ⟨q, hq, -⟩ := ho.below
  obtain ⟨hp, hn⟩ := formatKey_inj (hk'.valid_of_has (has_of_mem hj)) (hk'.valid _ q hq) hkey
  exact ho.alone j.id ⟨j, hj, rfl, hp, hn⟩

end

/-! ## An issue moved, and its key given to another -/

theorem call_commits {u : Tables} {ok : Db → Call → Prop} (call : Call) (hok : ok db call)
    (h : perform u db call = .ok e) : StepsWhere u ok ⟨db, []⟩ ⟨apply e db, []⟩ := by
  have hwrite : Transactions.Step apply (MayWhere u ok) (fun _ _ _ => True) ⟨db, []⟩ ⟨db, [e]⟩ :=
    .write ⟨call, hok, h, nofun⟩
  have hcommit : Transactions.Step apply (MayWhere u ok) (fun _ _ _ => True) ⟨db, [] ++ e :: []⟩ ⟨apply e db, []⟩ := .commit trivial
  exact (Relation.ReflTransGen.single hwrite).tail hcommit

def cp : Text := ['C', 'P']

def ab : Text := ['A', 'B']

def made : Db := apply (.made 1 ⟨1, cp, 1, none, false⟩) (apply (.founded ab) (apply (.founded cp) empty))

def movedAway : Db := apply (.moved ab 1 [(⟨1, cp, 1, none, false⟩, 1)]) made

theorem made_run {ok : Db → Call → Prop} (h₁ : ok empty (.found cp)) (h₂ : ok (apply (.founded cp) empty) (.found ab))
    (h₃ : ok (apply (.founded ab) (apply (.founded cp) empty)) (.create 1 cp none false)) : RunWhere Tables.ascii ok ⟨made, []⟩ :=
  ((call_commits (.found cp) h₁ rfl).trans (call_commits (.found ab) h₂ rfl)).trans (call_commits (.create 1 cp none false) h₃ rfl)

theorem moveIn_made : moveIn Tables.ascii made made ['C', 'P', '-', '1'] ab = .ok (.moved ab 1 [(⟨1, cp, 1, none, false⟩, 1)]) := by
  decide +kernel

/-- The issue moves, and is found where it was. -/
theorem key_kept_moved :
    ∃ s s', RunWhere Tables.ascii (Clear Tables.ascii) s ∧ StepsWhere Tables.ascii (Clear Tables.ascii) s s' ∧
      ∃ i ∈ s.db.issues, i ∉ s'.db.issues ∧ (∀ j ∈ s'.db.issues, j.key = i.key → j.id = i.id) ∧
        ∃ found, byKey Tables.ascii s'.db i.key = .ok found ∧ found.id = i.id := by
  have hrun : RunWhere Tables.ascii (Clear Tables.ascii) ⟨made, []⟩ := by
    refine made_run trivial trivial fun seq hseq => ?_
    obtain rfl : 0 = seq := Option.some.inj hseq
    decide
  have hmove : StepsWhere Tables.ascii (Clear Tables.ascii) ⟨made, []⟩ ⟨movedAway, []⟩ := by
    refine call_commits (.move made ['C', 'P', '-', '1'] ab) (fun seq hseq => ?_) moveIn_made
    obtain rfl : 0 = seq := Option.some.inj hseq
    decide +kernel
  exact ⟨_, _, hrun, hmove, ⟨1, cp, 1, none, false⟩, mem_singleton_self _, by decide,
    key_kept hrun hmove (mem_singleton_self _)⟩

/-- The issue moves away, and an import gets its key. -/
theorem key_changes_hands :
    ¬ ∀ (u : Tables) (s s' : Transactions.Active Db Effect), Run u s → StepsWhere u (fun _ _ => True) s s' →
      ∀ i ∈ s.db.issues, (∀ j ∈ s'.db.issues, j.key = i.key → j.id = i.id) ∧
        ∃ found, byKey u s'.db i.key = .ok found ∧ found.id = i.id := by
  intro h
  have hrun : Run Tables.ascii ⟨made, []⟩ := made_run trivial trivial trivial
  have hmove : StepsWhere Tables.ascii (fun _ _ => True) ⟨made, []⟩ ⟨movedAway, []⟩ :=
    call_commits (.move made ['C', 'P', '-', '1'] ab) trivial moveIn_made
  have himport : StepsWhere Tables.ascii (fun _ _ => True) ⟨movedAway, []⟩ ⟨apply (.made 1 ⟨2, cp, 1, none, false⟩) movedAway, []⟩ :=
    call_commits (.insertImported 2 cp (some 1) none false) trivial (by decide +kernel)
  have hsame := (h _ _ _ hrun (hmove.trans himport) ⟨1, cp, 1, none, false⟩ (mem_singleton_self _)).1
    ⟨2, cp, 1, none, false⟩ mem_cons_self rfl
  exact absurd hsame (by decide)

end IssueKeys
end Armature
