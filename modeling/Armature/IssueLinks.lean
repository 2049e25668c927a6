import Armature.BoundedWalk
import Armature.GoUnicode
import Armature.Transactions
/-!
# IssueLinks — links between issues, and the walk that refuses a circle (`issue/links.go`, `migrations/00024_…`)

`AddLink` walks the blocks links from the new link's target, at most `maxBlockDepth` of them, and a trigger walks them again.
Both see what is committed.  So a circle that gets in is longer than the walk, or two of its links were added side by side
(`circle_long_or_raced`).
-/
namespace Armature
namespace Links

open List
open Go (Text Tables)

structure Issue where
  id : Nat
  project : Text
  num : Nat

/-- A row of `issue_link_type`. -/
structure LinkType where
  id : Nat
  name : Text
  outward : Text
  inward : Text
  deriving DecidableEq

/-- A row of `issue_link`. -/
structure Link where
  id : Nat
  kind : Nat
  source : Nat
  target : Nat
  /-- The links whose insertion was under way when this one's was.  The code has no such column: the statements below do. -/
  beside : List (Nat × Nat × Nat)
  deriving DecidableEq

def Link.key (l : Link) : Nat × Nat × Nat := (l.kind, l.source, l.target)

structure Db where
  issues : List Issue
  types : List LinkType
  links : List Link
  types_apart : ∀ t ∈ types, ∀ t' ∈ types, t.id = t'.id → t = t'

structure LinkInput where
  typeName : Text
  typeId : Option Nat
  targetKey : Text

inductive Refusal where
  | invalidKey (key : Text)
  | notFound (key : Text)
  | linkToSelf
  | noSuchKind
  | linkCycle (message : Text)
  | comesBack
  | alreadyLinked
  deriving DecidableEq

section
variable (u : Tables) (lower : Text → Text)

def linkTypeBlocks : Text := "Blocks".toList

def maxBlockDepth : Nat := 32

def isKeyLetter (c : Char) : Bool := Go.isAsciiUpper c || Go.isAsciiDigit c

def parseKey (key : Text) : Except Refusal (Text × Nat) :=
  let trimmed := Go.toUpper u (Go.trimSpace key)
  match trimmed.takeWhile (· ≠ '-'), trimmed.dropWhile (· ≠ '-') with
  | first :: more, '-' :: digit :: digits =>
    if Go.isAsciiUpper first ∧ more.all isKeyLetter ∧ 1 ≤ more.length ∧ more.length ≤ 9 ∧ Go.isAsciiDigit digit ∧ digit ≠ '0' ∧
        digits.all Go.isAsciiDigit ∧ digits.length ≤ 17 then .ok (first :: more, Go.atoi (digit :: digits))
    else .error (.invalidKey key)
  | _, _ => .error (.invalidKey key)

def formatKey (projectKey : Text) (num : Nat) : Text := projectKey ++ '-' :: Go.itoa num

def issueIdOf (db : Db) (projectKey : Text) (num : Nat) : Except Refusal Nat :=
  match db.issues.find? fun i => i.project = projectKey ∧ i.num = num with
  | some i => .ok i.id
  | none => .error (.notFound (formatKey projectKey num))

def resolveLinkType (db : Db) (input : LinkInput) : Except Refusal LinkType :=
  match (match input.typeId with
    | some id => db.types.find? fun t => t.id = id
    | none =>
      let trimmed := Go.trimSpace input.typeName
      let name := if trimmed = [] then linkTypeBlocks else trimmed
      db.types.find? fun t => lower t.name = lower name) with
  | some t => .ok t
  | none => .error .noSuchKind

def edges (db : Db) (kind : Nat) : List (Nat × Nat) := (db.links.filter (·.kind = kind)).map fun l => (l.source, l.target)

def wayRound (db : Db) (kind start goal : Nat) : Option (List Nat) :=
  (BoundedWalk.walk (edges db kind) start maxBlockDepth).find? fun path => path.head? = some goal

def keysById (db : Db) (ids : List Nat) : List Text :=
  ids.filterMap fun id => (db.issues.find? fun i => i.id = id).map fun i => formatKey i.project i.num

def joinComma : List Text → Text
  | [] => []
  | [t] => t
  | t :: rest => t ++ ", ".toList ++ joinComma rest

def cycleSentence (keys : List Text) : Text :=
  match keys, keys.getLast? with
  | targetKey :: rest, some sourceKey =>
    let between := rest.dropLast
    let through := if between = [] then [] else " through ".toList ++ joinComma between
    targetKey ++ " already blocks ".toList ++ sourceKey ++ through ++ ", so ".toList ++ sourceKey ++ " cannot block ".toList ++
      targetKey ++ ".".toList
  | _, _ => []

def refuseBlockCycle (db : Db) (kind source target : Nat) : Except Refusal Unit :=
  match wayRound db kind target source with
  | none => .ok ()
  | some path => .error (.linkCycle (cycleSentence (keysById db (target :: path.reverse))))

def cycleGuard (db : Db) (t : LinkType) (source target : Nat) : Except Refusal Unit :=
  if lower t.name = "blocks".toList ∧ (wayRound db t.id target source).isSome then .error .comesBack else .ok ()

def clashes (kind source target : Nat) (l : Link) : Bool :=
  decide (l.kind = kind) && (decide (l.source = source ∧ l.target = target) || decide (l.source = target ∧ l.target = source))

def addLink (db : Db) (id : Nat) (key : Text) (input : LinkInput) : Except Refusal Link := do
  let (sourceProject, sourceNum) ← parseKey u key
  let (targetProject, targetNum) ← parseKey u input.targetKey
  let source ← issueIdOf db sourceProject sourceNum
  let target ← issueIdOf db targetProject targetNum
  if source = target then .error .linkToSelf
  else do
    let linkType ← resolveLinkType lower db input
    let _ ← (if Go.equalFold linkType.name linkTypeBlocks then refuseBlockCycle db linkType.id source target else .ok ())
    cycleGuard lower db linkType source target
    if db.links.any (clashes linkType.id source target) then .error .alreadyLinked
    else .ok ⟨id, linkType.id, source, target, []⟩

/-- A call of `AddLink`. -/
structure Call where
  id : Nat
  key : Text
  input : LinkInput

def writes (db : Db) (running : List Link) (call : Call) : Option Link :=
  match addLink u lower db call.id call.key call.input with
  | .ok l => if running.any (clashes l.kind l.source l.target) then none else some { l with beside := running.map Link.key }
  | .error _ => none

def May (db : Db) (running : List Link) (l : Link) : Prop := ∃ call, writes u lower db running call = some l

def insert (l : Link) (db : Db) : Db := { db with links := l :: db.links }

abbrev Run : Db → Transactions.Active Db Link → Prop := Transactions.Run insert (May u lower)

end

/-! ## What the walk finds -/

variable {db : Db} {kind : Nat}

theorem wayRound_none {start goal : Nat} (h : wayRound db kind start goal = none) {p : List Nat}
    (hlen : p.length ≤ maxBlockDepth) (hl : BoundedWalk.Leads (edges db kind) start p) (hn : p.Nodup) :
    p.head? ≠ some goal := by
  have hp := List.find?_eq_none.1 h p (BoundedWalk.mem_walk_iff.2 ⟨hlen, hl, hn⟩)
  simpa using hp

def IsBlocks (db : Db) (kind : Nat) : Prop := ∃ t ∈ db.types, t.id = kind ∧ Go.equalFold t.name linkTypeBlocks = true

theorem resolveLinkType_mem {lower : Text → Text} {input : LinkInput} {t : LinkType}
    (h : resolveLinkType lower db input = .ok t) : t ∈ db.types := by
  unfold resolveLinkType at h
  split at h
  · rename_i found hfound
    cases h
    cases hid : input.typeId <;> rw [hid] at hfound <;> exact mem_of_find?_eq_some hfound
  · cases h

theorem refuseBlockCycle_ok {source target : Nat} (h : refuseBlockCycle db kind source target = .ok ()) :
    wayRound db kind target source = none := by
  unfold refuseBlockCycle at h
  split at h
  · assumption
  · cases h

theorem addLink_ok {u : Tables} {lower : Text → Text} {id : Nat} {key : Text} {input : LinkInput} {l : Link}
    (h : addLink u lower db id key input = .ok l) :
    l.source ≠ l.target ∧ (IsBlocks db l.kind → wayRound db l.kind l.target l.source = none) := by
  simp only [addLink, Go.bind_ok] at h
  obtain ⟨⟨sourceProject, sourceNum⟩, -, ⟨targetProject, targetNum⟩, -, source, -, target, -, h⟩ := h
  split_ifs at h with hself
  simp only [Go.bind_ok] at h
  obtain ⟨t, ht, ⟨⟩, hwalk, ⟨⟩, -, h⟩ := h
  split_ifs at h
  cases h
  refine ⟨hself, fun ⟨t', ht', hid, hname⟩ => ?_⟩
  obtain rfl : t' = t := db.types_apart t' ht' t (resolveLinkType_mem ht) hid
  rw [if_pos hname] at hwalk
  exact refuseBlockCycle_ok hwalk

/-! ## Circles -/

/-- Links one after another, back to the first, through each issue once. -/
structure Circle (has : Link → Prop) (c : Cycle Link) : Prop where
  ne_nil : c ≠ Cycle.nil
  has : ∀ l ∈ c, has l
  chain : c.Chain fun l m => l.target = m.source
  once : (c.map Link.target).Nodup

def Raced (c : Cycle Link) : Prop := ∃ l ∈ c, ∃ m ∈ c, m.key ∈ l.beside

def Stored (db : Db) (kind : Nat) (l : Link) : Prop := l ∈ db.links ∧ l.kind = kind

theorem mem_edges {l : Link} (h : Stored db kind l) : (l.source, l.target) ∈ edges db kind :=
  mem_map.2 ⟨l, mem_filter.2 ⟨h.1, by simpa using h.2⟩, rfl⟩

theorem Circle.long_of_new {has : Link → Prop} {c : Cycle Link} (h : Circle has c) {e : Link} (he : e ∈ c)
    (hself : e.source ≠ e.target) (hwalk : wayRound db kind e.target e.source = none)
    (hothers : ∀ l ∈ c, l ≠ e → Stored db kind l) : maxBlockDepth + 1 < c.length := by
  obtain ⟨p, hlen, hl, hn, hhead⟩ :=
    BoundedWalk.leads_of_cycle Link.source Link.target he h.chain h.once hself fun l hl hne => mem_edges (hothers l hl hne)
  by_contra hshort
  exact wayRound_none hwalk (by omega) hl hn hhead

section
variable {u : Tables} {lower : Text → Text}

variable {db : Db}

theorem writes_ok {running : List Link} {call : Call} {e : Link} (h : writes u lower db running call = some e) :
    e.beside = running.map Link.key ∧ e.source ≠ e.target ∧ (IsBlocks db e.kind → wayRound db e.kind e.target e.source = none) := by
  unfold writes at h
  split at h
  · rename_i l hl
    split_ifs at h
    cases h
    obtain ⟨hself, hwalk⟩ := addLink_ok hl
    exact ⟨rfl, hself, hwalk⟩
  · cases h

def ShortRaced (kind : Nat) (db : Db) (running : List Link) : Prop :=
  IsBlocks db kind →
    ∀ c, Circle (fun l => (l ∈ db.links ∨ l ∈ running) ∧ l.kind = kind) c → maxBlockDepth + 1 < c.length ∨ Raced c

theorem Circle.mono {has has' : Link → Prop} {c : Cycle Link} (h : Circle has c) (himp : ∀ l ∈ c, has l → has' l) : Circle has' c :=
  ⟨h.ne_nil, fun l hl => himp l hl (h.has l hl), h.chain, h.once⟩

theorem ShortRaced.write {kind : Nat} {running : List Link} {e : Link} (h : ShortRaced kind db running)
    (hm : May u lower db running e) : ShortRaced kind db (e :: running) := by
  intro hb c hc
  obtain ⟨call, hcall⟩ := hm
  obtain ⟨hbeside, hself, hwalk⟩ := writes_ok hcall
  by_cases he : e ∈ c
  · by_cases hrun : ∃ m ∈ c, m ∈ running
    · obtain ⟨m, hmc, hmr⟩ := hrun
      exact Or.inr ⟨e, he, m, hmc, by rw [hbeside]; exact mem_map_of_mem hmr⟩
    · have hkind : e.kind = kind := (hc.has e he).2
      refine Or.inl (hc.long_of_new he hself (hwalk (hkind ▸ hb)) fun l hl hne => ?_)
      obtain ⟨hin, hlk⟩ := hc.has l hl
      rcases hin with hin | hin
      · exact ⟨hin, hlk.trans hkind.symm⟩
      · rcases mem_cons.1 hin with heq | hin
        · exact absurd heq hne
        · exact absurd ⟨l, hl, hin⟩ hrun
  · refine h hb c (hc.mono fun l hl hin => ⟨hin.1.imp_right fun hr => ?_, hin.2⟩)
    exact (mem_cons.1 hr).resolve_left fun heq => he (heq ▸ hl)

theorem run_shortRaced {kind : Nat} {s : Transactions.Active Db Link} (h₀ : db.links = []) (h : Run u lower db s) :
    ShortRaced kind s.db s.running := by
  refine Transactions.RunWhere.holds (I := ShortRaced kind) (fun d r e hi hm => hi.write hm) ?_ ?_ ?_ h
  · intro d l r e hi _ hb c hc
    refine hi hb c (hc.mono fun m _ hm => ⟨?_, hm.2⟩)
    simp only [insert, mem_cons, mem_append] at hm ⊢
    tauto
  · intro d l r e hi hb c hc
    refine hi hb c (hc.mono fun m _ hm => ⟨?_, hm.2⟩)
    simp only [mem_append, mem_cons] at hm ⊢
    tauto
  · intro _ c hc
    obtain ⟨l, hl⟩ : ∃ l, l ∈ c := by
      induction c using Quotient.inductionOn' with
      | h ls =>
        cases ls with
        | nil => exact absurd rfl hc.ne_nil
        | cons l ls => exact ⟨l, Cycle.mem_coe_iff.2 mem_cons_self⟩
    have := (hc.has l hl).1
    simp [h₀] at this

/-- **A stored circle of blocks links is longer than the walk goes, or two of its links were added side by side.** -/
theorem circle_long_or_raced {kind : Nat} {db : Db} {s : Transactions.Active Db Link} (h₀ : db.links = []) (h : Run u lower db s)
    (hb : IsBlocks s.db kind) {c : Cycle Link} (hc : Circle (Stored s.db kind) c) : maxBlockDepth + 1 < c.length ∨ Raced c :=
  run_shortRaced h₀ h hb c (hc.mono fun _ _ hl => ⟨Or.inl hl.1, hl.2⟩)

end

/-! ## A long circle, and a short one -/

def addEach (u : Tables) (lower : Text → Text) : List Call → Db → Option Db
  | [], db => some db
  | call :: calls, db => (writes u lower db [] call).bind fun l => addEach u lower calls (insert l db)

theorem addEach_run {u : Tables} {lower : Text → Text} {db₀ : Db} :
    ∀ {calls : List Call} {db db' : Db}, addEach u lower calls db = some db' → Run u lower db₀ ⟨db, []⟩ → Run u lower db₀ ⟨db', []⟩
  | [], db, db', h, hrun => by
    cases h
    exact hrun
  | call :: calls, db, db', h, hrun => by
    simp only [addEach, Option.bind_eq_some_iff] at h
    obtain ⟨l, hl, h⟩ := h
    exact addEach_run h ((hrun.write ⟨call, hl⟩).commit [] trivial)

def blocksType : LinkType := ⟨1, "Blocks".toList, "blocks".toList, "is blocked by".toList⟩

def unlinked (n : Nat) : Db where
  issues := (List.range n).map fun i => ⟨i, "AB".toList, i + 1⟩
  types := [blocksType]
  links := []
  types_apart := by simp

def blocks (i j : Nat) : Call := ⟨i, formatKey "AB".toList (i + 1), ⟨"blocks".toList, none, formatKey "AB".toList (j + 1)⟩⟩

def asciiLower : Text → Text := Go.toLower Tables.ascii

def longWay : List Call := (List.range 34).map fun i => blocks i ((i + 1) % 34)

def longCircle : List Link := (List.range 34).map fun i => ⟨i, 1, i, (i + 1) % 34, []⟩

theorem longWay_added :
    (addEach Tables.ascii asciiLower longWay (unlinked 34)).map (fun db => (db.links, db.types)) =
      some (longCircle.reverse, [blocksType]) := by
  decide +kernel

theorem longCircle_chain : (longCircle : Cycle Link).Chain fun l m => l.target = m.source := by
  have h : longCircle = ⟨0, 1, 0, 1, []⟩ :: longCircle.tail := by decide +kernel
  rw [h, Cycle.chain_coe_cons]
  decide +kernel

/-- One link at a time, a circle of thirty-four gets in: the walk stops after thirty-two. -/
theorem blocks_come_round :
    ¬ ∀ (u : Tables) (lower : Text → Text) (db : Db) (s : Transactions.Active Db Link) (kind : Nat), db.links = [] →
      Run u lower db s → IsBlocks s.db kind → ∀ c, ¬ Circle (Stored s.db kind) c := by
  intro h
  obtain ⟨db, hadd, hdb⟩ := Option.map_eq_some_iff.1 longWay_added
  obtain ⟨hlinks, htypes⟩ := Prod.mk.inj hdb
  have hstart : Run Tables.ascii asciiLower (unlinked 34) ⟨unlinked 34, []⟩ := Transactions.RunWhere.start _
  have hblocks : IsBlocks db 1 := ⟨blocksType, by rw [htypes]; exact mem_singleton_self _, rfl, by decide +kernel⟩
  refine h _ _ _ ⟨db, []⟩ 1 rfl (addEach_run hadd hstart) hblocks longCircle
    ⟨by decide +kernel, fun l hl => ⟨?_, ?_⟩, longCircle_chain, ?_⟩
  · rw [hlinks]
    exact mem_reverse.2 (Cycle.mem_coe_iff.1 hl)
  · obtain ⟨i, -, rfl⟩ := mem_map.1 (Cycle.mem_coe_iff.1 hl)
    rfl
  · rw [Cycle.map_coe, Cycle.nodup_coe_iff]
    decide +kernel

def racedCircle : List Link := [⟨0, 1, 0, 1, []⟩, ⟨1, 1, 1, 2, []⟩, ⟨2, 1, 2, 0, [(1, 1, 2)]⟩]

/-- The first blocks the second; then the second is let block the third, and the third the first, side by side. -/
theorem raced_circle :
    ∃ s, Run Tables.ascii asciiLower (unlinked 3) s ∧
      ∃ c, Circle (Stored s.db 1) c ∧ c.length = 3 ∧ (maxBlockDepth + 1 < c.length ∨ Raced c) := by
  have hstart : Run Tables.ascii asciiLower (unlinked 3) ⟨unlinked 3, []⟩ := Transactions.RunWhere.start _
  have h₁ := (hstart.write (e := ⟨0, 1, 0, 1, []⟩) ⟨blocks 0 1, by decide +kernel⟩).commit [] trivial
  have h₂ := h₁.write (e := ⟨1, 1, 1, 2, []⟩) ⟨blocks 1 2, by decide +kernel⟩
  have h₃ := h₂.write (e := ⟨2, 1, 2, 0, [(1, 1, 2)]⟩) ⟨blocks 2 0, by decide +kernel⟩
  have h₅ := (h₃.commit [] trivial).commit [] trivial
  refine ⟨_, h₅, racedCircle, ?hc, rfl,
    circle_long_or_raced rfl h₅ ⟨blocksType, mem_singleton_self _, rfl, by decide +kernel⟩ ?hc⟩
  refine ⟨by decide +kernel, fun l hl => ?_, ?_, ?_⟩
  · rcases mem_cons.1 (Cycle.mem_coe_iff.1 hl) with rfl | hl
    · exact ⟨by simp [insert], rfl⟩
    · rcases mem_cons.1 hl with rfl | hl
      · exact ⟨by simp [insert], rfl⟩
      · obtain rfl := mem_singleton.1 hl
        exact ⟨by simp [insert], rfl⟩
  · rw [racedCircle, Cycle.chain_coe_cons]
    decide +kernel
  · rw [Cycle.map_coe, Cycle.nodup_coe_iff]
    decide +kernel

end Links
end Armature
