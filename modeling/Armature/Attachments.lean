import Armature.GoNames
import Armature.Locking
/-!
# Attachments — a file's row and its bytes (`attachment/service.go`, `attachment/reaper.go`, `00934`)

The bytes are put inside the transaction that writes the row, and removed after the one that deletes it, for which the row
leaves a tombstone.  Either of the two systems may fail at any step, and a failure that is reported may still have taken
effect.
-/
namespace Armature
namespace Files

open List
open Go (Text UUID Element)

abbrev Bytes := List UInt8

/-! ## Names and keys -/

def maxNameLength : Nat := 200

def isControl (c : Char) : Bool := decide (c.toNat < 0x20 ∨ (0x7F ≤ c.toNat ∧ c.toNat < 0xA0))

def cleanName (name : Text) : Text :=
  let base := Go.basePath ((Go.trimSpace name).map fun c => if c = '\\' then '/' else c)
  let kept := base.filter fun r => !(isControl r || r == '"' || r == '/')
  if kept = [] ∨ kept = ['.'] ∨ kept = ['.', '.'] then "file".toList
  else if maxNameLength < kept.length then kept.take maxNameLength else kept

def objectKey (installationID issueID id : UUID) (name : Text) : Text :=
  Go.joinPath ["org".toList, installationID.text, "issue".toList, issueID.text, id.text, name]

theorem cleanName_element (name : Text) : Element (cleanName name) := by
  unfold cleanName
  dsimp only
  generalize hkept : (Go.basePath ((Go.trimSpace name).map fun c => if c = '\\' then '/' else c)).filter
    (fun r => !(isControl r || r == '"' || r == '/')) = kept
  have hslash : '/' ∉ kept := by
    intro h
    rw [← hkept] at h
    simpa using (mem_filter.1 h).2
  split
  · exact ⟨by decide, by decide, by decide, by decide⟩
  rename_i hdots
  obtain ⟨hne, hhere, hup⟩ := not_or.1 hdots |>.imp_right not_or.1
  split
  · rename_i hlong
    have hlength : (kept.take maxNameLength).length = maxNameLength := by
      rw [length_take]
      exact Nat.min_eq_left (Nat.le_of_lt hlong)
    have hnot : ∀ {t : Text}, t.length < maxNameLength → kept.take maxNameLength ≠ t := by
      intro t ht he
      rw [he] at hlength
      omega
    exact ⟨hnot (by decide), hnot (by decide), hnot (by decide), fun h => hslash (mem_of_mem_take h)⟩
  · exact ⟨hne, hhere, hup, hslash⟩

theorem objectKey_inj {installation issue issue' id id' : UUID} {name name' : Text} (hn : Element name) (hn' : Element name')
    (h : objectKey installation issue id name = objectKey installation issue' id' name') : id = id' := by
  have hword : Element "org".toList ∧ Element "issue".toList := ⟨⟨by decide, by decide, by decide, by decide⟩,
    ⟨by decide, by decide, by decide, by decide⟩⟩
  have hall : ∀ {i j : UUID} {n : Text}, Element n →
      ∀ p ∈ ["org".toList, installation.text, "issue".toList, i.text, j.text, n], Element p := by
    intro i j n hn p hp
    simp only [mem_cons, not_mem_nil, or_false] at hp
    rcases hp with rfl | rfl | rfl | rfl | rfl | rfl
    · exact hword.1
    · exact installation.element
    · exact hword.2
    · exact i.element
    · exact j.element
    · exact hn
  have hlist := Go.joinPath_inj (cons_ne_nil _ _) (cons_ne_nil _ _) (hall hn) (hall hn') h
  simp only [List.cons.injEq] at hlist
  exact Go.UUID.ext hlist.2.2.2.2.1

/-! ## The two systems -/

/-- A row of `attachment`. -/
structure Attachment where
  id : UUID
  issueID : UUID
  fileName : Text
  contentType : Text
  sizeBytes : Nat
  objectKey : Text
  deriving DecidableEq

structure Data where
  installationID : UUID
  issues : List (UUID × Option UUID)
  attachments : List Attachment
  tombstones : List Text
  store : Text → Option Bytes
  drawn : List UUID
  committed : List Attachment

def leaveTombstones (gone : List Attachment) (tombstones : List Text) : List Text :=
  gone.foldl (fun ts a => if a.objectKey ∈ ts then ts else ts ++ [a.objectKey]) tombstones

def Data.without (d : Data) (p : Attachment → Bool) : Data :=
  { d with attachments := d.attachments.filter fun a => !p a,
           tombstones := leaveTombstones (d.attachments.filter p) d.tombstones }

def Data.put (d : Data) (key : Text) (data : Bytes) : Data :=
  { d with store := fun k => if k = key then some data else d.store k }

def Data.remove (d : Data) (key : Text) : Data := { d with store := fun k => if k = key then none else d.store k }

@[simp] theorem put_here (d : Data) (key : Text) (data : Bytes) : (d.put key data).store key = some data := if_pos rfl

theorem put_other {d : Data} {key k : Text} (data : Bytes) (h : k ≠ key) : (d.put key data).store k = d.store k := if_neg h

@[simp] theorem remove_here (d : Data) (key : Text) : (d.remove key).store key = none := if_pos rfl

theorem remove_other {d : Data} {key k : Text} (h : k ≠ key) : (d.remove key).store k = d.store k := if_neg h

def Goes (issues : List (UUID × Option UUID)) (root : UUID) : UUID → Prop :=
  Relation.ReflTransGen (fun up i => (i, some up) ∈ issues) root

def reapBatch : Nat := 200

inductive Process where
  /-- The row is written and nothing is committed; the bytes are to be put, or have been. -/
  | putting (a : Attachment) (data : Bytes)
  | committing (a : Attachment)
  /-- The objects to be removed. -/
  | reaping (keys : List Text)
  /-- The first one is, and its tombstone is to go. -/
  | clearing (key : Text) (keys : List Text)

def Process.writes : Process → Option Attachment
  | .putting a _ => some a
  | .committing a => some a
  | _ => none

def recorded (d : Data) (issueID id : UUID) (fileName contentType : Text) (data : Bytes) : Attachment where
  id := id
  issueID := issueID
  fileName := cleanName fileName
  contentType := contentType
  sizeBytes := data.length
  objectKey := objectKey d.installationID issueID id (cleanName fileName)

/-- An upload of what is neither empty nor too large, a deletion of a row or of an issue, or a pass of the reaper. -/
inductive Start (maxSize : Nat) (d : Data) (running : List Process) : Data → Option Process → Prop where
  | upload (issueID id : UUID) (fileName contentType : Text) (data : Bytes) : data ≠ [] → data.length ≤ maxSize →
      (∃ parent, (issueID, parent) ∈ d.issues) → id ∉ d.drawn →
      Start maxSize d running { d with drawn := id :: d.drawn }
        (some (.putting (recorded d issueID id fileName contentType data) data))
  | delete (a : Attachment) : a ∈ d.attachments →
      Start maxSize d running (d.without fun b => decide (b.id = a.id)) (some (.reaping [a.objectKey]))
  | deleteIssue (root : UUID) (gone : List UUID) : (∀ i, i ∈ gone ↔ Goes d.issues root i) →
      (∀ p ∈ running, ∀ a ∈ p.writes, a.issueID ∉ gone) →
      Start maxSize d running { d.without fun a => decide (a.issueID ∈ gone) with
        issues := d.issues.filter fun i => decide (i.1 ∉ gone) } none
  | reap (found : List Text) : found.Perm d.tombstones → Start maxSize d running d (some (.reaping (found.take reapBatch)))

inductive Act (d : Data) : Process → Data → Option Process → Prop where
  | put (a : Attachment) (data : Bytes) : Act d (.putting a data) (d.put a.objectKey data) (some (.committing a))
  /-- The store reports a failure, and the transaction rolls back. -/
  | notPut (a : Attachment) (data : Bytes) (d' : Data) :
      (d' = d ∨ d' = d.put a.objectKey data) → Act d (.putting a data) d' none
  | commit (a : Attachment) :
      Act d (.committing a) { d with attachments := d.attachments ++ [a], committed := d.committed ++ [a] } none
  | rollback (a : Attachment) : Act d (.committing a) d none
  | remove (key : Text) (keys : List Text) : Act d (.reaping (key :: keys)) (d.remove key) (some (.clearing key keys))
  | notRemoved (key : Text) (keys : List Text) (d' : Data) : (d' = d ∨ d' = d.remove key) →
      Act d (.reaping (key :: keys)) d' (some (.reaping keys))
  | clear (key : Text) (keys : List Text) :
      Act d (.clearing key keys) { d with tombstones := d.tombstones.filter (· ≠ key) } (some (.reaping keys))
  | notCleared (key : Text) (keys : List Text) : Act d (.clearing key keys) d (some (.reaping keys))
  | done : Act d (.reaping []) d none

def fresh (installationID : UUID) (issues : List (UUID × Option UUID)) (store : Text → Option Bytes) : Data :=
  ⟨installationID, issues, [], [], store, [], []⟩

def Run (maxSize : Nat) (installationID : UUID) (issues : List (UUID × Option UUID)) (store : Text → Option Bytes) :
    Interleaving.System Data Process → Prop :=
  Interleaving.Run (Start maxSize) (fun d _ p d' p' => Act d p d' p') (fresh installationID issues store)

/-! ## What every step keeps -/

section
variable {d d' : Data} {new : List Attachment}

def Gone (d : Data) (key : Text) : Prop := ∃ a ∈ d.committed, a ∉ d.attachments ∧ a.objectKey = key

def Attachment.Keyed (d : Data) (a : Attachment) : Prop :=
  a.objectKey = Files.objectKey d.installationID a.issueID a.id a.fileName ∧ Element a.fileName

structure Kept (d : Data) : Prop where
  live : ∀ a ∈ d.attachments, a ∈ d.committed ∧ d.store a.objectKey ≠ none
  gone : ∀ a ∈ d.committed, a ∉ d.attachments → d.store a.objectKey = none ∨ a.objectKey ∈ d.tombstones
  tombs : ∀ key ∈ d.tombstones, Gone d key
  keyed : ∀ a ∈ d.committed, a.Keyed d
  once : ∀ a ∈ d.committed, ∀ b ∈ d.committed, a.id = b.id → a = b
  drawn : ∀ a ∈ d.committed, a.id ∈ d.drawn

def Knows (d : Data) : Process → Prop
  | .putting a _ => a.Keyed d ∧ a.id ∈ d.drawn ∧ ∀ b ∈ d.committed, b.id ≠ a.id
  | .committing a => (a.Keyed d ∧ a.id ∈ d.drawn ∧ ∀ b ∈ d.committed, b.id ≠ a.id) ∧ d.store a.objectKey ≠ none
  | .reaping keys => ∀ key ∈ keys, Gone d key
  | .clearing key keys => (Gone d key ∧ d.store key = none) ∧ ∀ k ∈ keys, Gone d k

def Beside (p q : Process) : Prop := ∀ a ∈ p.writes, ∀ b ∈ q.writes, a.id ≠ b.id

theorem Beside.symm {p q : Process} (h : Beside p q) : Beside q p := fun b hb a ha he => h a ha b hb he.symm

structure Frame (d d' : Data) (new : List Attachment) : Prop where
  installation : d'.installationID = d.installationID
  drawn : d.drawn ⊆ d'.drawn
  committed : ∀ a ∈ d'.committed, a ∈ d.committed ∨ a ∈ new
  gone : ∀ key, Gone d key → Gone d' key
  kept : ∀ key, d.store key ≠ none → ¬ Gone d key → d'.store key ≠ none
  empty : ∀ key, Gone d key → d.store key = none → d'.store key = none

theorem Kept.not_gone (h : Kept d) {a : Attachment} (hkeyed : a.Keyed d) (hnew : ∀ b ∈ d.committed, b.id ≠ a.id) :
    ∀ b ∈ d.committed, b.objectKey ≠ a.objectKey := by
  intro b hb he
  rw [(h.keyed b hb).1, hkeyed.1] at he
  exact hnew b hb (objectKey_inj (h.keyed b hb).2 hkeyed.2 he)

theorem Kept.of_key (h : Kept d) {a b : Attachment} (ha : a ∈ d.committed) (hb : b ∈ d.committed)
    (he : a.objectKey = b.objectKey) :
    a = b := by
  rw [(h.keyed a ha).1, (h.keyed b hb).1] at he
  exact h.once a ha b hb (objectKey_inj (h.keyed a ha).2 (h.keyed b hb).2 he)

theorem Knows.stable (h : Kept d) (hf : Frame d d' new) {p : Process} (hnew : ∀ a ∈ p.writes, ∀ b ∈ new, b.id ≠ a.id)
    (hk : Knows d p) : Knows d' p := by
  have hwrites : ∀ a ∈ p.writes, a.Keyed d ∧ a.id ∈ d.drawn ∧ (∀ b ∈ d.committed, b.id ≠ a.id) →
      a.Keyed d' ∧ a.id ∈ d'.drawn ∧ ∀ b ∈ d'.committed, b.id ≠ a.id := by
    rintro a ha ⟨hkeyed, hdrawn, hother⟩
    refine ⟨⟨by rw [hf.installation]; exact hkeyed.1, hkeyed.2⟩, hf.drawn hdrawn, fun b hb => ?_⟩
    exact (hf.committed b hb).elim (hother b) (hnew a ha b)
  cases p with
  | putting a data => exact hwrites a rfl hk
  | committing a =>
    refine ⟨hwrites a rfl hk.1, hf.kept _ hk.2 ?_⟩
    rintro ⟨b, hb, _, hkey⟩
    exact h.not_gone hk.1.1 hk.1.2.2 b hb hkey
  | reaping => exact fun key hkey => hf.gone key (hk key hkey)
  | clearing key keys => exact ⟨⟨hf.gone key hk.1.1, hf.empty key hk.1.1 hk.1.2⟩, fun k hk' => hf.gone k (hk.2 k hk')⟩

/-! ## Each change -/

theorem mem_leaveTombstones {key : Text} : ∀ {gone : List Attachment} {tombstones : List Text},
    key ∈ leaveTombstones gone tombstones ↔ key ∈ tombstones ∨ ∃ a ∈ gone, a.objectKey = key
  | [], tombstones => by simp [leaveTombstones]
  | a :: gone, tombstones => by
    have hone : key ∈ (if a.objectKey ∈ tombstones then tombstones else tombstones ++ [a.objectKey]) ↔
        key ∈ tombstones ∨ a.objectKey = key := by
      split
      · rename_i hin
        exact ⟨.inl, fun h => h.elim id fun he => he ▸ hin⟩
      · simp [eq_comm]
    unfold leaveTombstones
    rw [foldl_cons]
    have hrest := @mem_leaveTombstones key gone (if a.objectKey ∈ tombstones then tombstones else tombstones ++ [a.objectKey])
    unfold leaveTombstones at hrest
    rw [hrest, hone, or_assoc]
    simp

theorem Kept.without (h : Kept d) (p : Attachment → Bool) : Kept (d.without p) ∧ Frame d (d.without p) [] := by
  have hsub : ∀ {a}, a ∈ (d.without p).attachments → a ∈ d.attachments := fun ha => (mem_filter.1 ha).1
  have hgone : ∀ key, Gone d key → Gone (d.without p) key := fun key ⟨a, ha, hnot, hkey⟩ =>
    ⟨a, ha, fun hin => hnot (hsub hin), hkey⟩
  refine ⟨⟨fun a ha => h.live a (hsub ha), fun a ha hnot => ?_, fun key hkey => ?_, h.keyed, h.once, h.drawn⟩,
    ⟨rfl, List.Subset.refl _, fun a ha => .inl ha, hgone, fun _ hs _ => hs, fun _ _ hs => hs⟩⟩
  · by_cases hin : a ∈ d.attachments
    · have hp : p a = true := by
        by_contra hp
        exact hnot (mem_filter.2 ⟨hin, by simp [hp]⟩)
      exact .inr (mem_leaveTombstones.2 (.inr ⟨a, mem_filter.2 ⟨hin, hp⟩, rfl⟩))
    · exact (h.gone a ha hin).imp_right fun ht => mem_leaveTombstones.2 (.inl ht)
  · rcases mem_leaveTombstones.1 hkey with hold | ⟨a, ha, rfl⟩
    · exact hgone key (h.tombs key hold)
    · obtain ⟨hin, hp⟩ := mem_filter.1 ha
      refine ⟨a, (h.live a hin).1, fun hnot => ?_, rfl⟩
      have hout := (mem_filter.1 hnot).2
      rw [hp] at hout
      cases hout

theorem Kept.put (h : Kept d) {a : Attachment} (hkeyed : a.Keyed d) (hnew : ∀ b ∈ d.committed, b.id ≠ a.id) (data : Bytes) :
    Kept (d.put a.objectKey data) ∧ Frame d (d.put a.objectKey data) [] := by
  have hother : ∀ b ∈ d.committed, (d.put a.objectKey data).store b.objectKey = d.store b.objectKey := fun b hb =>
    put_other data (h.not_gone hkeyed hnew b hb)
  refine ⟨⟨fun b hb => ⟨(h.live b hb).1, ?_⟩, fun b hb hnot => ?_, h.tombs, h.keyed, h.once, h.drawn⟩,
    ⟨rfl, List.Subset.refl _, fun b hb => .inl hb, fun _ hg => hg, fun key hs _ => ?_, ?_⟩⟩
  · rw [hother b (h.live b hb).1]
    exact (h.live b hb).2
  · rw [hother b hb]
    exact h.gone b hb hnot
  · by_cases hk : key = a.objectKey
    · rw [hk, put_here]
      exact Option.some_ne_none data
    · rw [put_other data hk]
      exact hs
  · rintro key ⟨b, hb, _, rfl⟩ hs
    rw [hother b hb]
    exact hs

theorem Kept.remove (h : Kept d) {key : Text} (hgone : Gone d key) : Kept (d.remove key) ∧ Frame d (d.remove key) [] := by
  obtain ⟨a, ha, hnot, rfl⟩ := hgone
  refine ⟨⟨fun b hb => ⟨(h.live b hb).1, ?_⟩, fun b hb hout => ?_, h.tombs, h.keyed, h.once, h.drawn⟩,
    ⟨rfl, List.Subset.refl _, fun b hb => .inl hb, fun _ hg => hg, fun key hs hkey => ?_, fun key _ hs => ?_⟩⟩
  · have hne : b.objectKey ≠ a.objectKey := fun he => hnot (h.of_key (h.live b hb).1 ha he ▸ hb)
    rw [remove_other hne]
    exact (h.live b hb).2
  · by_cases he : b.objectKey = a.objectKey
    · rw [he]
      exact .inl (remove_here d _)
    · rw [remove_other he]
      exact h.gone b hb hout
  · rw [remove_other fun he => hkey ⟨a, ha, hnot, he.symm⟩]
    exact hs
  · by_cases he : key = a.objectKey
    · rw [he]
      exact remove_here d _
    · rw [remove_other he]
      exact hs

theorem Kept.commit (h : Kept d) {a : Attachment} (hkeyed : a.Keyed d) (hdrawn : a.id ∈ d.drawn)
    (hnew : ∀ b ∈ d.committed, b.id ≠ a.id) (hstored : d.store a.objectKey ≠ none) :
    Kept { d with attachments := d.attachments ++ [a], committed := d.committed ++ [a] } ∧
      Frame d { d with attachments := d.attachments ++ [a], committed := d.committed ++ [a] } [a] := by
  have hmem : ∀ {b : Attachment} {l : List Attachment}, b ∈ l ++ [a] ↔ b ∈ l ∨ b = a := by
    intro b l
    rw [mem_append, mem_singleton]
  have hgone : ∀ key, Gone d key →
      Gone { d with attachments := d.attachments ++ [a], committed := d.committed ++ [a] } key := by
    rintro key ⟨b, hb, hnot, rfl⟩
    refine ⟨b, hmem.2 (.inl hb), fun hin => ?_, rfl⟩
    rcases hmem.1 hin with hin | rfl
    · exact hnot hin
    · exact hnew b hb rfl
  refine ⟨⟨fun b hb => ?_, fun b hb hnot => ?_, fun key hkey => hgone key (h.tombs key hkey), fun b hb => ?_,
    fun b hb c hc he => ?_,
    fun b hb => ?_⟩, ⟨rfl, List.Subset.refl _, fun b hb => (hmem.1 hb).imp_right fun he => mem_singleton.2 he, hgone,
      fun _ hs _ => hs, fun _ _ hs => hs⟩⟩
  · rcases hmem.1 hb with hb | rfl
    · exact ⟨hmem.2 (.inl (h.live b hb).1), (h.live b hb).2⟩
    · exact ⟨hmem.2 (.inr rfl), hstored⟩
  · rcases hmem.1 hb with hb | rfl
    · exact h.gone b hb fun hin => hnot (hmem.2 (.inl hin))
    · exact absurd (hmem.2 (.inr rfl)) hnot
  · rcases hmem.1 hb with hb | rfl
    · exact h.keyed b hb
    · exact hkeyed
  · rcases hmem.1 hb with hold | hlast
    · rcases hmem.1 hc with hold' | rfl
      · exact h.once b hold c hold' he
      · exact absurd he (hnew b hold)
    · rcases hmem.1 hc with hold' | hlast'
      · exact absurd (hlast ▸ he.symm) (hnew c hold')
      · rw [hlast, hlast']
  · rcases hmem.1 hb with hb | rfl
    · exact h.drawn b hb
    · exact hdrawn

theorem Kept.clear (h : Kept d) {key : Text} (hs : d.store key = none) :
    Kept { d with tombstones := d.tombstones.filter (· ≠ key) } ∧
      Frame d { d with tombstones := d.tombstones.filter (· ≠ key) } [] := by
  refine ⟨⟨h.live, fun a ha hnot => ?_, fun k hk => h.tombs k (mem_filter.1 hk).1, h.keyed, h.once, h.drawn⟩,
    ⟨rfl, List.Subset.refl _, fun a ha => .inl ha, fun _ hg => hg, fun _ hs _ => hs, fun _ _ hs => hs⟩⟩
  rcases h.gone a ha hnot with hnone | hin
  · exact .inl hnone
  · by_cases he : a.objectKey = key
    · exact .inl (he ▸ hs)
    · exact .inr (mem_filter.2 ⟨hin, by simpa using he⟩)

theorem Kept.same (h : Kept d) : Kept d ∧ Frame d d [] :=
  ⟨h, rfl, List.Subset.refl _, fun _ ha => .inl ha, fun _ hg => hg, fun _ hs _ => hs, fun _ _ hs => hs⟩

/-! ## A run -/

theorem Kept.drawing (h : Kept d) (id : UUID) :
    Kept { d with drawn := id :: d.drawn } ∧ Frame d { d with drawn := id :: d.drawn } [] :=
  ⟨⟨h.live, h.gone, h.tombs, h.keyed, h.once, fun a ha => mem_cons_of_mem id (h.drawn a ha)⟩,
    rfl, subset_cons_self _ _, fun _ ha => .inl ha, fun _ hg => hg, fun _ hs _ => hs, fun _ _ hs => hs⟩

theorem Act.keeps {p : Process} {p' : Option Process} (ha : Act d p d' p') (h : Kept d) (hk : Knows d p) :
    (∃ new, Kept d' ∧ Frame d d' new ∧ ∀ b ∈ new, b ∈ p.writes) ∧ ∀ q ∈ p', Knows d' q ∧ ∀ a ∈ q.writes, a ∈ p.writes := by
  have hnone : ∀ b ∈ ([] : List Attachment), b ∈ p.writes := nofun
  cases ha with
  | put a data =>
    obtain ⟨hkept, hframe⟩ := h.put hk.1 hk.2.2 data
    refine ⟨⟨[], hkept, hframe, hnone⟩, fun q hq => ?_⟩
    cases hq
    exact ⟨⟨hk, by rw [put_here]; exact Option.some_ne_none data⟩, fun _ hb => hb⟩
  | notPut a data _ hd =>
    refine ⟨?_, fun q hq => by cases hq⟩
    rcases hd with rfl | rfl
    · exact ⟨[], h, h.same.2, hnone⟩
    · exact ⟨[], (h.put hk.1 hk.2.2 data).1, (h.put hk.1 hk.2.2 data).2, hnone⟩
  | commit a =>
    obtain ⟨hkept, hframe⟩ := h.commit hk.1.1 hk.1.2.1 hk.1.2.2 hk.2
    exact ⟨⟨[a], hkept, hframe, fun b hb => congrArg some (mem_singleton.1 hb).symm⟩, fun q hq => by cases hq⟩
  | rollback => exact ⟨⟨[], h, h.same.2, hnone⟩, fun q hq => by cases hq⟩
  | remove key keys =>
    have hgone : Gone d key := hk key mem_cons_self
    obtain ⟨hkept, hframe⟩ := h.remove hgone
    refine ⟨⟨[], hkept, hframe, hnone⟩, fun q hq => ?_⟩
    cases hq
    exact ⟨⟨⟨hframe.gone key hgone, remove_here d key⟩, fun k hk' => hframe.gone k (hk k (mem_cons_of_mem key hk'))⟩,
      fun _ hb => by cases hb⟩
  | notRemoved key keys _ hd =>
    have hgone : Gone d key := hk key mem_cons_self
    have hrest : Knows d (.reaping keys) := fun k hk' => hk k (mem_cons_of_mem key hk')
    rcases hd with rfl | rfl
    · refine ⟨⟨[], h, h.same.2, hnone⟩, fun q hq => ?_⟩
      cases hq
      exact ⟨hrest, fun _ hb => by cases hb⟩
    · obtain ⟨hkept, hframe⟩ := h.remove hgone
      refine ⟨⟨[], hkept, hframe, hnone⟩, fun q hq => ?_⟩
      cases hq
      exact ⟨fun k hk' => hframe.gone k (hrest k hk'), fun _ hb => by cases hb⟩
  | clear =>
    obtain ⟨hkept, hframe⟩ := h.clear hk.1.2
    refine ⟨⟨[], hkept, hframe, hnone⟩, fun q hq => ?_⟩
    cases hq
    exact ⟨hk.2, fun _ hb => by cases hb⟩
  | notCleared =>
    refine ⟨⟨[], h, h.same.2, hnone⟩, fun q hq => ?_⟩
    cases hq
    exact ⟨hk.2, fun _ hb => by cases hb⟩
  | done => exact ⟨⟨[], h, h.same.2, hnone⟩, fun q hq => by cases hq⟩

theorem Start.keeps {maxSize : Nat} {running : List Process} {p : Option Process} (hs : Start maxSize d running d' p)
    (h : Kept d) :
    (Kept d' ∧ Frame d d' []) ∧ ∀ q ∈ p, Knows d' q ∧ ∀ a ∈ q.writes, a.id ∉ d.drawn := by
  cases hs with
  | upload issueID id fileName contentType data _ _ _ hid =>
    refine ⟨h.drawing id, fun q hq => ?_⟩
    cases hq
    have hother : ∀ b ∈ d.committed, b.id ≠ id := fun b hb he => hid (he ▸ h.drawn b hb)
    refine ⟨⟨⟨rfl, cleanName_element fileName⟩, mem_cons_self, hother⟩, fun a ha => ?_⟩
    cases ha
    exact hid
  | delete a ha =>
    have hw := h.without fun b => decide (b.id = a.id)
    refine ⟨hw, fun q hq => ?_⟩
    cases hq
    refine ⟨fun key hkey => ?_, fun b hb => by cases hb⟩
    rw [mem_singleton.1 hkey]
    exact ⟨a, (h.live a ha).1, fun hin => (by simp [Data.without] at hin), rfl⟩
  | deleteIssue root gone =>
    obtain ⟨hkept, hframe⟩ := h.without fun a => decide (a.issueID ∈ gone)
    exact ⟨⟨⟨hkept.live, hkept.gone, hkept.tombs, hkept.keyed, hkept.once, hkept.drawn⟩, hframe.installation, hframe.drawn,
      hframe.committed, hframe.gone, hframe.kept, hframe.empty⟩, fun q hq => by cases hq⟩
  | reap found hfound =>
    refine ⟨h.same, fun q hq => ?_⟩
    cases hq
    exact ⟨fun key hkey => h.tombs key (hfound.mem_iff.1 (mem_of_mem_take hkey)), fun b hb => by cases hb⟩

end

section
variable {maxSize : Nat} {installationID : UUID} {issues : List (UUID × Option UUID)} {store : Text → Option Bytes}
  {sys : Interleaving.System Data Process}

theorem kept_fresh : Kept (fresh installationID issues store) where
  live := nofun
  gone := nofun
  tombs := nofun
  keyed := nofun
  once := nofun
  drawn := nofun

theorem Knows.drawn {d : Data} {p : Process} (hk : Knows d p) : ∀ a ∈ p.writes, a.id ∈ d.drawn := by
  intro a ha
  cases p with
  | putting =>
    cases ha
    exact hk.2.1
  | committing =>
    cases ha
    exact hk.1.2.1
  | reaping => cases ha
  | clearing => cases ha

theorem run_kept (hrun : Run maxSize installationID issues store sys) : Kept sys.shared := by
  refine (Interleaving.Run.beside (I := Kept) (L := Knows) (B := Beside) (fun _ _ => Beside.symm) ?_ ?_ kept_fresh hrun).1
  · intro d running d' p h hl hs
    obtain ⟨⟨hkept, hframe⟩, hp⟩ := hs.keeps h
    refine ⟨hkept, fun q hq => (hl q hq).stable h hframe fun _ _ b hb => absurd hb not_mem_nil, fun q hq => ?_⟩
    refine ⟨(hp q hq).1, fun t ht a ha b hb he => (hp q hq).2 a ha ?_⟩
    rw [he]
    exact (hl t ht).drawn b hb
  · intro d others p d' p' h hk hothers ha
    obtain ⟨⟨new, hkept, hframe, hnew⟩, hp'⟩ := ha.keeps h hk
    refine ⟨hkept, fun q hq => (hothers q hq).1.stable h hframe fun a ha b hb => (hothers q hq).2 b (hnew b hb) a ha,
      fun q hq => ?_⟩
    exact ⟨(hp' q hq).1, fun t ht a ha b hb => (hothers t ht).2 a ((hp' q hq).2 a ha) b hb⟩

/-- **No row without its bytes, and no bytes forgotten.** -/
theorem rows_and_bytes (hrun : Run maxSize installationID issues store sys) :
    (∀ a ∈ sys.shared.attachments, sys.shared.store a.objectKey ≠ none) ∧
    ∀ a ∈ sys.shared.committed, a ∉ sys.shared.attachments →
      sys.shared.store a.objectKey = none ∨ a.objectKey ∈ sys.shared.tombstones :=
  ⟨fun a ha => ((run_kept hrun).live a ha).2, (run_kept hrun).gone⟩

end

/-! ## Deleted, and the process gone before the object is -/

def installation : UUID := ⟨"00000000-0000-0000-0000-00000000000a".toList, by decide⟩
def bug : UUID := ⟨"00000000-0000-0000-0000-00000000000b".toList, by decide⟩
def file : UUID := ⟨"00000000-0000-0000-0000-00000000000c".toList, by decide⟩

def tracker : Data := fresh installation [(bug, none)] fun _ => none

def log : Attachment := recorded tracker bug file "log.txt".toList "text/plain".toList [1, 2]

theorem left_for_the_reaper : ∃ d : Data, Run 4 installation [(bug, none)] (fun _ => none) ⟨d, []⟩ ∧
    d.committed = [log] ∧ d.attachments = [] ∧ d.store log.objectKey = some [1, 2] ∧ log.objectKey ∈ d.tombstones := by
  have hbegin : Run 4 installation [(bug, none)] (fun _ => none) ⟨tracker, []⟩ := Interleaving.Run.begin _
  have hupload := Interleaving.Run.start _ hbegin
    (.upload bug file "log.txt".toList "text/plain".toList [1, 2] (cons_ne_nil _ _) (by decide)
      ⟨none, mem_cons_self⟩
      not_mem_nil)
  have hput := Interleaving.Run.act [] _ hupload (.put log [1, 2])
  have hcommit := Interleaving.Run.act [] _ hput (.commit log)
  have hdelete := Interleaving.Run.start _ hcommit (.delete log mem_cons_self)
  have hdied := Relation.ReflTransGen.tail hdelete (.die (l := []))
  have hcommitted : ∀ a ∈ [log], a ∉ ([log].filter fun b => !decide (b.id = log.id)) := by decide
  have hrow := (rows_and_bytes hdied).2 log mem_cons_self (hcommitted log mem_cons_self)
  have hstored : (tracker.put log.objectKey [1, 2]).store log.objectKey = some [1, 2] := put_here _ _ _
  refine ⟨_, hdied, rfl, by decide, hstored, hrow.resolve_left fun hnone => ?_⟩
  exact Option.some_ne_none _ (hstored.symm.trans hnone)

end Files
end Armature
