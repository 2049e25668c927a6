import Armature.GitPktline
import Armature.GoUnicode
import Armature.QueueSearch
/-!
# GitPack — the commits of a pushed pack, and whether one follows another (`git/pack.go`)

`packCommits` reads a pack's commits and their parents, which `fastForward` follows.  The hashes and zlib are Go's: they are
given, as `Hashes` and as a function that inflates the stream at the start of what is left.
-/
namespace Armature
namespace Git

open List
open Go (Bytes bytes)

structure Hashes where
  sha1 : Bytes → Bytes
  sha256 : Bytes → Bytes
  sha1_id : ∀ b, isOID (sha1 b) = true ∧ (sha1 b).length = 40
  sha256_id : ∀ b, isOID (sha256 b) = true ∧ (sha256 b).length = 64

abbrev Zlib := Bytes → Option (Bytes × Bytes)

inductive BadPack where
  | notAPack | entryCutShort | sizeCutShort | baseCutShort | unpacksTooFar | notInflated | notItsSize | deltaDoesNotFit
  deriving DecidableEq

def packHeaderLen : Nat := 12

def maxUnpackedPush : Nat := 512 * 2 ^ 20

def objCommit : Nat := 1

def objOfsDelta : Nat := 6

def objRefDelta : Nat := 7

def sizeMore : Nat → Nat → Bytes → Except BadPack (Nat × Bytes)
  | _, _, [] => .error .sizeCutShort
  | shift, size, c :: b =>
    if 56 < shift then .error .sizeCutShort
    else if 128 ≤ c then sizeMore (shift + 7) (size + c.toNat % 128 * 2 ^ shift) b
    else .ok (size + c.toNat % 128 * 2 ^ shift, b)

def entryHeader : Bytes → Except BadPack (Nat × Nat × Bytes)
  | [] => .error .entryCutShort
  | c :: b =>
    let kind := c.toNat / 16 % 8
    let size := c.toNat % 16
    if 128 ≤ c then (sizeMore 4 size b).map fun r => (kind, r.1, r.2) else .ok (kind, size, b)

def distanceMore : Nat → Bytes → Except BadPack (Nat × Bytes)
  | _, [] => .error .baseCutShort
  | back, c :: b =>
    if 2 ^ 48 < back then .error .baseCutShort
    else if 128 ≤ c then distanceMore ((back + 1) * 128 + c.toNat % 128) b
    else .ok ((back + 1) * 128 + c.toNat % 128, b)

def ofsDeltaDistance : Bytes → Except BadPack (Nat × Bytes)
  | [] => .error .baseCutShort
  | c :: b => if 128 ≤ c then distanceMore (c.toNat % 128) b else .ok (c.toNat % 128, b)

def inflate (zlib : Zlib) (r : Bytes) (size : Nat) : Except BadPack (Bytes × Bytes) :=
  match zlib r with
  | none => .error .notInflated
  | some (body, rest) => if body.length = size then .ok (body, rest) else .error .notItsSize

/-! ## Deltas -/

def readUvarint : Nat → Nat → Bytes → Option (Nat × Bytes)
  | _, _, [] => none
  | i, x, c :: b =>
    if 10 ≤ i then none
    else if c < 128 then if i = 9 ∧ 1 < c then none else some (x + c.toNat * 2 ^ (7 * i), b)
    else readUvarint (i + 1) (x + c.toNat % 128 * 2 ^ (7 * i)) b

def readPlaces (op : Nat) : List (Nat × Nat) → Bytes → Option (Nat × Bytes)
  | [], b => some (0, b)
  | (bit, place) :: places, b =>
    if op / 2 ^ bit % 2 = 1 then
      match b with
      | [] => none
      | c :: b => (readPlaces op places b).map fun r => (c.toNat * 256 ^ place + r.1, r.2)
    else readPlaces op places b

def applyOps (base : Bytes) : Nat → Bytes → Bytes → Option Bytes
  | _, [], out => some out
  | 0, _, _ => none
  | fuel + 1, op :: b, out =>
    if 128 ≤ op then do
      let (offset, b) ← readPlaces op.toNat [(0, 0), (1, 1), (2, 2), (3, 3)] b
      let (length, b) ← readPlaces op.toNat [(4, 0), (5, 1), (6, 2)] b
      let length := if length = 0 then 0x10000 else length
      if base.length < offset + length then none
      else applyOps base fuel b (out ++ (base.drop offset).take length)
    else if op ≠ 0 then
      if b.length < op.toNat then none else applyOps base fuel (b.drop op.toNat) (out ++ b.take op.toNat)
    else none

def applyDelta (base delta : Bytes) : Except BadPack Bytes :=
  match (do
    let (baseSize, b) ← readUvarint 0 0 delta
    if baseSize ≠ base.length then none
    else do
      let (size, b) ← readUvarint 0 0 b
      if maxUnpackedPush < size then none
      else do
        let out ← applyOps base b.length b []
        if out.length = size then some out else none) with
  | some out => .ok out
  | none => .error .deltaDoesNotFit

theorem readPlaces_length {op : Nat} : ∀ {places : List (Nat × Nat)} {b rest : Bytes} {n : Nat},
    readPlaces op places b = some (n, rest) → rest.length ≤ b.length
  | [], b, rest, n, h => by
    cases h
    exact le_rfl
  | (bit, place) :: places, b, rest, n, h => by
    unfold readPlaces at h
    split_ifs at h
    · cases b with
      | nil => cases h
      | cons =>
        obtain ⟨r, hr, heq⟩ := Option.map_eq_some_iff.1 h
        cases heq
        exact (readPlaces_length hr).trans (Nat.le_succ _)
    · exact readPlaces_length h

theorem applyOps_fuel (base : Bytes) : ∀ {n m : Nat} {b out : Bytes}, b.length ≤ n → b.length ≤ m →
    applyOps base n b out = applyOps base m b out
  | n, m, [], out, _, _ => by
    cases n <;> cases m <;> rfl
  | n + 1, m + 1, op :: b, out, hn, hm => by
    unfold applyOps
    rw [length_cons] at hn hm
    split_ifs
    · cases ho : readPlaces op.toNat [(0, 0), (1, 1), (2, 2), (3, 3)] b with
      | none => rfl
      | some r =>
        obtain ⟨offset, b'⟩ := r
        have h₁ := readPlaces_length ho
        simp only [Option.bind_eq_bind, Option.bind_some]
        cases hl : readPlaces op.toNat [(4, 0), (5, 1), (6, 2)] b' with
        | none => rfl
        | some r =>
          obtain ⟨len, b''⟩ := r
          have h₂ := readPlaces_length hl
          have hrec : ∀ out, applyOps base n b'' out = applyOps base m b'' out := fun _ =>
            applyOps_fuel base (by omega) (by omega)
          simp only [Option.bind_some, hrec]
    · rfl
    · exact applyOps_fuel base (by rw [length_drop]; omega) (by rw [length_drop]; omega)
    · rfl

/-! ## Commits -/

def hexByte (n : Nat) : UInt8 := UInt8.ofNat (if n < 10 then 48 + n else 87 + n)

def hexEncode (b : Bytes) : Bytes := b.flatMap fun c => [hexByte (c.toNat / 16), hexByte (c.toNat % 16)]

def objectID (h : Hashes) (hexLen : Nat) (kind body : Bytes) : Bytes :=
  (if hexLen = 64 then h.sha256 else h.sha1)
    (kind ++ 32 :: (Go.itoa body.length).map (fun c => UInt8.ofNat c.toNat) ++ 0 :: body)

def parentPrefix : Bytes := bytes "parent "

def parentsOf (commit : Bytes) : List Bytes :=
  ((commit.splitOn 10).takeWhile (· ≠ [])).filterMap fun line =>
    if parentPrefix.isPrefixOf line then some (line.drop parentPrefix.length) else none

/-- What has been read of a pack: commits by where they start and by id, and their parents. -/
structure Reading where
  rest : Bytes
  inflated : Nat
  byOffset : List (Nat × Bytes)
  byID : List (Bytes × Bytes)
  commits : List (Bytes × List Bytes)

def find {κ α : Type} [DecidableEq κ] (m : List (κ × α)) (k : κ) : Option α := (m.find? fun e => e.1 = k).map Prod.snd

section
variable (h : Hashes) (zlib : Zlib)

def baseOf (hexLen start kind : Nat) (st : Reading) (r : Bytes) : Except BadPack (Option Bytes × Bytes) :=
  if kind = objOfsDelta then
    (ofsDeltaDistance r).map fun d => (if d.1 ≤ start then find st.byOffset (start - d.1) else none, d.2)
  else if kind = objRefDelta then
    if r.length < hexLen / 2 then .error .baseCutShort
    else .ok (find st.byID (hexEncode (r.take (hexLen / 2))), r.drop (hexLen / 2))
  else .ok (none, r)

def Reading.keep (hexLen start : Nat) (st : Reading) (body : Bytes) : Reading :=
  let id := objectID h hexLen (bytes "commit") body
  { st with
    byOffset := (start, body) :: st.byOffset
    byID := (id, body) :: st.byID
    commits := (id, parentsOf body) :: st.commits }

def readEntry (packLen hexLen : Nat) (st : Reading) : Except BadPack Reading := do
  let start := packLen - st.rest.length
  let (kind, size, r) ← entryHeader st.rest
  let inflated := st.inflated + size
  if maxUnpackedPush < inflated then .error .unpacksTooFar
  else do
    let (base, r) ← baseOf hexLen start kind st r
    let (body, r) ← inflate zlib r size
    let st := { st with rest := r, inflated := inflated }
    match base with
    | some b => do
      let out ← applyDelta b body
      .ok (st.keep h hexLen start out)
    | none => if kind = objCommit then .ok (st.keep h hexLen start body) else .ok st

def readEntries (packLen hexLen : Nat) : Nat → Reading → Except BadPack Reading
  | 0, st => .ok st
  | count + 1, st => do
    let st ← readEntry h zlib packLen hexLen st
    readEntries packLen hexLen count st

def readPack (pack : Bytes) (hexLen : Nat) : Except BadPack Reading :=
  if pack = [] then .ok ⟨[], 0, [], [], []⟩
  else if pack.length < packHeaderLen ∨ pack.take 4 ≠ bytes "PACK" then .error .notAPack
  else
    let count := ((pack.drop 8).take 4).foldl (fun n c => 256 * n + c.toNat) 0
    readEntries h zlib pack.length hexLen count ⟨pack.drop packHeaderLen, 0, [], [], []⟩

def packCommits (pack : Bytes) (hexLen : Nat) : Except BadPack (List (Bytes × List Bytes)) :=
  (readPack h zlib pack hexLen).map Reading.commits

end

def parentsIn (commits : List (Bytes × List Bytes)) (id : Bytes) : List Bytes :=
  (find commits id).getD []

def fastForward (commits : List (Bytes × List Bytes)) (old new : Bytes) : Bool :=
  QueueSearch.search (parentsIn commits) old
    (1 + ((commits.map Prod.fst).map fun id => (parentsIn commits id).length).sum) [] [new]

def fastForwardIn (rounds : Nat) (commits : List (Bytes × List Bytes)) (old new : Bytes) : Option Bool :=
  QueueSearch.searchFor (parentsIn commits) old rounds [] [new]

theorem parentsIn_absent {commits : List (Bytes × List Bytes)} {id : Bytes} (hid : id ∉ commits.map Prod.fst) :
    parentsIn commits id = [] := by
  have hnone : commits.find? (fun e => e.1 = id) = none := by
    rw [List.find?_eq_none]
    intro e he heq
    exact hid (mem_map.2 ⟨e, he, by simpa using heq⟩)
  simp [parentsIn, find, hnone]

theorem fastForward_iff (commits : List (Bytes × List Bytes)) (old new : Bytes) :
    fastForward commits old new = true ↔ QueueSearch.Leads (parentsIn commits) new old := by
  unfold fastForward
  rw [QueueSearch.search_iff (fun _ => parentsIn_absent) _ ⟨not_mem_nil, nofun⟩]
  · simp
  · simp [QueueSearch.left]

def ParentOf (commits : List (Bytes × List Bytes)) (id parent : Bytes) : Prop :=
  ∃ parents, find commits id = some parents ∧ parent ∈ parents

theorem mem_parentsIn {commits : List (Bytes × List Bytes)} {id parent : Bytes} :
    parent ∈ parentsIn commits id ↔ ParentOf commits id parent := by
  unfold parentsIn ParentOf
  cases find commits id with
  | none => exact ⟨fun h => absurd h not_mem_nil, fun ⟨_, h, _⟩ => absurd h (Option.some_ne_none _).symm⟩
  | some parents =>
    constructor
    · exact fun h => ⟨parents, rfl, h⟩
    · rintro ⟨_, h, hmem⟩
      rwa [← Option.some.inj h] at hmem

/-- **`fastForward` ends, and is reachability**: it takes no more rounds than the start and all parents, and says whether old
is reached from new through parents of commits in the map. -/
theorem fastForward_reachability (commits : List (Bytes × List Bytes)) (old new : Bytes) :
    (∃ n, ∀ rounds, n ≤ rounds → fastForwardIn rounds commits old new = some (fastForward commits old new)) ∧
      (fastForward commits old new = true ↔ Relation.ReflTransGen (ParentOf commits) new old) := by
  have hleads : QueueSearch.Leads (parentsIn commits) new old ↔ Relation.ReflTransGen (ParentOf commits) new old := by
    have hrel : (fun v w => w ∈ parentsIn commits v) = ParentOf commits := by
      funext v w
      exact propext mem_parentsIn
    unfold QueueSearch.Leads
    rw [hrel]
  refine ⟨⟨QueueSearch.left (parentsIn commits) (commits.map Prod.fst) [] [new], fun rounds hrounds => ?_⟩, (fastForward_iff commits old new).trans hleads⟩
  have hclosed : QueueSearch.Closed (parentsIn commits) old [] [new] :=
    ⟨not_mem_nil, nofun⟩
  -- however many rounds there are, the answer is the same
  have hanswer := QueueSearch.search_iff (fun _ => parentsIn_absent) hrounds hclosed
  unfold fastForwardIn
  rw [QueueSearch.searchFor_eq (fun _ => parentsIn_absent) hrounds]
  refine congrArg some (Bool.eq_iff_iff.2 (hanswer.trans ?_))
  rw [fastForward_iff]
  simp

end Git
end Armature
