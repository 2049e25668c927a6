import Armature.PackCoding
/-!
# PackBound — what a pack makes the proxy hold (`git/pack.go`)

`PackCommits` counts what its entries' headers state and stops past the bound, and `applyDelta` stops at a rebuilt object
past it.  What the deltas of one pack rebuild is not counted together, nor with what is inflated: `tracePack` keeps both, and
`readPack` is it with them left out (`tracePack_reads`).
-/
namespace Armature
namespace Git

open List
open Go (Bytes bytes)

/-- What an entry comes to: its stated size, what is inflated of it, and what a delta rebuilds of that. -/
structure Entry where
  size : Nat
  body : Bytes
  rebuilt : Option Bytes

namespace Entry

def held (e : Entry) : Nat := e.body.length + e.rebuilt.elim 0 List.length

def stated (e : Entry) : Nat := e.size + e.rebuilt.elim 0 fun _ => resultSize e.body

/-- The sizes are as they are stated, and a rebuilt object's is below the bound. -/
structure Honest (e : Entry) : Prop where
  body_length : e.body.length = e.size
  rebuilt_length : ∀ out, e.rebuilt = some out → out.length = resultSize e.body
  rebuilt_le : ∀ out, e.rebuilt = some out → out.length ≤ maxUnpackedPush

end Entry

def held (es : List Entry) : Nat := (es.map Entry.held).sum

def stated (es : List Entry) : Nat := (es.map Entry.stated).sum

section
variable (h : Hashes) (zlib : Zlib)

def traceEntry (packLen hexLen : Nat) (st : Reading) : Except BadPack (Entry × Reading) := do
  let start := packLen - st.rest.length
  let (kind, size, r) ← entryHeader st.rest
  let inflated := st.inflated + size
  if maxUnpackedPush < inflated then .error .unpacksTooFar
  else do
    let (base, r) ← baseOf hexLen start kind st r
    let (body, r) ← inflate zlib r size
    let st := { st with rest := r, inflated := inflated }
    match base with
    | some b => do
      let out ← applyDelta b body
      .ok (⟨size, body, some out⟩, st.keep h hexLen start out)
    | none => .ok (⟨size, body, none⟩, if kind = objCommit then st.keep h hexLen start body else st)

def traceEntries (packLen hexLen : Nat) : Nat → Reading → Except BadPack (List Entry × Reading)
  | 0, st => .ok ([], st)
  | count + 1, st => do
    let (e, st) ← traceEntry h zlib packLen hexLen st
    let (es, st) ← traceEntries packLen hexLen count st
    .ok (e :: es, st)

def tracePack (pack : Bytes) (hexLen : Nat) : Except BadPack (List Entry × Reading) :=
  if pack = [] then .ok ([], ⟨[], 0, [], [], []⟩)
  else if pack.length < packHeaderLen ∨ pack.take 4 ≠ bytes "PACK" then .error .notAPack
  else
    let count := ((pack.drop 8).take 4).foldl (fun n c => 256 * n + c.toNat) 0
    traceEntries h zlib pack.length hexLen count ⟨pack.drop packHeaderLen, 0, [], [], []⟩

def HoldsWithin (pack : Bytes) (hexLen : Nat) : Prop :=
  ∀ es st, tracePack h zlib pack hexLen = .ok (es, st) → held es ≤ maxUnpackedPush

def StatesWithin (pack : Bytes) (hexLen : Nat) : Prop :=
  ∀ es st, tracePack h zlib pack hexLen = .ok (es, st) → stated es ≤ maxUnpackedPush

end

section
variable {h : Hashes} {zlib : Zlib} {packLen hexLen : Nat}

/-! ## The trace is of what is read -/

theorem map_bind {ε α β γ : Type} (f : β → γ) (x : Except ε α) (g : α → Except ε β) :
    (x >>= g).map f = x >>= fun a => (g a).map f := by
  cases x <;> rfl

theorem traceEntry_reads (st : Reading) :
    (traceEntry h zlib packLen hexLen st).map Prod.snd = readEntry h zlib packLen hexLen st := by
  unfold traceEntry readEntry
  rw [map_bind]
  refine bind_congr fun ⟨kind, size, r⟩ => ?_
  dsimp only
  by_cases hbig : maxUnpackedPush < st.inflated + size
  · rw [if_pos hbig, if_pos hbig]
    rfl
  · rw [if_neg hbig, if_neg hbig, map_bind]
    refine bind_congr fun ⟨base, r⟩ => ?_
    rw [map_bind]
    refine bind_congr fun ⟨body, r⟩ => ?_
    cases base with
    | some =>
      dsimp only
      rw [map_bind]
      exact bind_congr fun _ => rfl
    | none =>
      dsimp only
      split_ifs <;> rfl

theorem traceEntries_reads : ∀ (count : Nat) (st : Reading),
    (traceEntries h zlib packLen hexLen count st).map Prod.snd = readEntries h zlib packLen hexLen count st
  | 0, _ => rfl
  | count + 1, st => by
    unfold traceEntries readEntries
    rw [← traceEntry_reads, map_bind]
    cases traceEntry h zlib packLen hexLen st with
    | error => rfl
    | ok r =>
      refine (map_bind Prod.snd _ _).trans (Eq.trans ?_ (traceEntries_reads count r.2))
      cases traceEntries h zlib packLen hexLen count r.2 <;> rfl

theorem tracePack_reads (pack : Bytes) : (tracePack h zlib pack hexLen).map Prod.snd = readPack h zlib pack hexLen := by
  unfold tracePack readPack
  split_ifs
  · rfl
  · rfl
  · exact traceEntries_reads _ _

/-! ## Sizes -/

theorem inflate_size {r body rest : Bytes} {size : Nat} (hi : inflate zlib r size = .ok (body, rest)) : body.length = size := by
  unfold inflate at hi
  split at hi
  · cases hi
  · split_ifs at hi with hlen
    cases hi
    exact hlen

theorem traceEntry_sizes {st st' : Reading} {e : Entry} (hr : traceEntry h zlib packLen hexLen st = .ok (e, st')) :
    e.Honest ∧ st'.inflated = st.inflated + e.size ∧ st'.inflated ≤ maxUnpackedPush := by
  simp only [traceEntry, Go.bind_ok] at hr
  obtain ⟨⟨kind, size, r⟩, -, hr⟩ := hr
  by_cases hbig : maxUnpackedPush < st.inflated + size
  · rw [if_pos hbig] at hr
    cases hr
  rw [if_neg hbig] at hr
  simp only [Go.bind_ok] at hr
  obtain ⟨⟨base, r'⟩, -, ⟨body, r''⟩, hi, hr⟩ := hr
  have hbody := inflate_size hi
  cases base with
  | some =>
    obtain ⟨out, hout, hr⟩ := Go.bind_ok.1 hr
    cases hr
    obtain ⟨hsize, hle⟩ := applyDelta_size hout
    refine ⟨⟨hbody, ?_, ?_⟩, rfl, Nat.le_of_not_lt hbig⟩
    · rintro _ ⟨⟩
      exact hsize
    · rintro _ ⟨⟩
      exact hle
  | none =>
    dsimp only at hr
    cases hr
    refine ⟨⟨hbody, nofun, nofun⟩, ?_, ?_⟩
    · split_ifs <;> rfl
    · split_ifs <;> exact Nat.le_of_not_lt hbig

theorem traceEntries_sizes : ∀ {count : Nat} {st st' : Reading} {es : List Entry}, st.inflated ≤ maxUnpackedPush →
    traceEntries h zlib packLen hexLen count st = .ok (es, st') →
      (∀ e ∈ es, e.Honest) ∧ st.inflated + (es.map Entry.size).sum ≤ maxUnpackedPush
  | 0, st, st', es, hst, hr => by
    cases hr
    exact ⟨forall_mem_nil _, hst⟩
  | count + 1, st, st', es, hst, hr => by
    obtain ⟨⟨e, st₁⟩, h₁, hr⟩ := Go.bind_ok.1 hr
    obtain ⟨⟨es, st₂⟩, h₂, hr⟩ := Go.bind_ok.1 hr
    cases hr
    obtain ⟨he, hinflated, hle⟩ := traceEntry_sizes h₁
    obtain ⟨hes, hsum⟩ := traceEntries_sizes hle h₂
    refine ⟨forall_mem_cons.2 ⟨he, hes⟩, ?_⟩
    rw [map_cons, sum_cons, ← Nat.add_assoc, ← hinflated]
    exact hsum

theorem tracePack_sizes {pack : Bytes} {es : List Entry} {st : Reading} (hr : tracePack h zlib pack hexLen = .ok (es, st)) :
    (∀ e ∈ es, e.Honest) ∧ (es.map Entry.size).sum ≤ maxUnpackedPush := by
  unfold tracePack at hr
  split_ifs at hr
  · cases hr
    exact ⟨forall_mem_nil _, Nat.zero_le _⟩
  · have hsizes := traceEntries_sizes (Nat.zero_le _) hr
    rwa [Nat.zero_add] at hsizes

theorem Entry.Honest.held_eq {e : Entry} (he : e.Honest) : e.held = e.stated := by
  unfold Entry.held Entry.stated
  rw [he.body_length]
  cases hr : e.rebuilt with
  | none => rfl
  | some out => exact congrArg _ (he.rebuilt_length out hr)

theorem held_eq_stated {es : List Entry} (hes : ∀ e ∈ es, e.Honest) : held es = stated es := by
  unfold held stated
  rw [map_congr_left fun e he => (hes e he).held_eq]

/-- **What is inflated is below the bound, and so is each object that is rebuilt**: as many bounds as there are deltas, and
one. -/
theorem held_le {pack : Bytes} {es : List Entry} {st : Reading} (hr : tracePack h zlib pack hexLen = .ok (es, st)) :
    held es ≤ maxUnpackedPush * (1 + es.countP fun e => e.rebuilt.isSome) := by
  obtain ⟨hes, hsum⟩ := tracePack_sizes hr
  have hsplit : ∀ {es : List Entry}, (∀ e ∈ es, e.Honest) →
      held es ≤ (es.map Entry.size).sum + maxUnpackedPush * es.countP fun e => e.rebuilt.isSome := by
    intro es
    induction es with
    | nil => exact fun _ => Nat.zero_le _
    | cons e es ih =>
      intro hes
      obtain ⟨he, hes⟩ := forall_mem_cons.1 hes
      have hrest := ih hes
      have hone : e.held ≤ e.size + maxUnpackedPush * if e.rebuilt.isSome then 1 else 0 := by
        unfold Entry.held
        rw [he.body_length]
        cases hout : e.rebuilt with
        | none => exact Nat.le_add_right _ _
        | some out =>
          rw [Option.isSome_some, if_pos rfl, Nat.mul_one]
          exact Nat.add_le_add_left (he.rebuilt_le out hout) _
      change e.held + held es ≤ _
      rw [map_cons, sum_cons, countP_cons, Nat.mul_add]
      omega
  have hheld := hsplit hes
  rw [Nat.mul_add]
  omega

/-! ## Within the bound -/

/-- **An accepted pack makes the proxy hold no more than the bound exactly when the sizes it states come to no more**: those
in its entries' headers, and those in the deltas whose base was read. -/
theorem holds_within (h : Hashes) (zlib : Zlib) (pack : Bytes) (hexLen : Nat) :
    HoldsWithin h zlib pack hexLen ↔ StatesWithin h zlib pack hexLen := by
  constructor
  · intro hheld es st hr
    rw [← held_eq_stated (tracePack_sizes hr).1]
    exact hheld es st hr
  · intro hstated es st hr
    rw [held_eq_stated (tracePack_sizes hr).1]
    exact hstated es st hr

/-! ## A small pack that holds more -/

def storedStream (b adler : Bytes) : Bytes :=
  [120, 1, 1, UInt8.ofNat (b.length % 256), UInt8.ofNat (b.length / 256), UInt8.ofNat (255 - b.length % 256),
    UInt8.ofNat (255 - b.length / 256)] ++ (b ++ adler)

def storedZlib : Zlib
  | 120 :: 1 :: 1 :: lo :: hi :: nlo :: nhi :: r =>
    let n := lo.toNat + 256 * hi.toNat
    if lo.toNat + nlo.toNat = 255 ∧ hi.toNat + nhi.toNat = 255 ∧ n + 4 ≤ r.length then some (r.take n, r.drop (n + 4)) else none
  | _ => none

theorem inflate_stored {b adler : Bytes} (rest : Bytes) (hb : b.length < 65536) (hadler : adler.length = 4) :
    inflate storedZlib (storedStream b adler ++ rest) b.length = .ok (b, rest) := by
  have hlo := toNat_byte (n := b.length % 256) (by omega)
  have hhi := toNat_byte (n := b.length / 256) (by omega)
  have hnlo := toNat_byte (n := 255 - b.length % 256) (by omega)
  have hnhi := toNat_byte (n := 255 - b.length / 256) (by omega)
  have hn : b.length % 256 + 256 * (b.length / 256) = b.length := by omega
  have hzlib : storedZlib (storedStream b adler ++ rest) = some (b, rest) := by
    unfold storedStream
    rw [append_assoc]
    simp only [cons_append, nil_append, storedZlib]
    rw [hlo, hhi, hnlo, hnhi, hn, if_pos ⟨by omega, by omega, by simp; omega⟩, append_assoc, take_left,
      ← append_assoc, drop_left' (by rw [length_append, hadler])]
  unfold inflate
  rw [hzlib]
  exact if_pos rfl

variable (h packLen hexLen) in
theorem traceEntry_commit (st : Reading) {b adler : Bytes} (more : Bytes) (hb : b.length < 65536) (hadler : adler.length = 4)
    (hrest : st.rest = encodeHeader objCommit b.length ++ (storedStream b adler ++ more))
    (hfit : st.inflated + b.length ≤ maxUnpackedPush) :
    traceEntry h storedZlib packLen hexLen st = .ok (⟨b.length, b, none⟩,
      Reading.keep h hexLen (packLen - st.rest.length) { st with rest := more, inflated := st.inflated + b.length } b) := by
  have hheader := entryHeader_encodeHeader (storedStream b adler ++ more) (show objCommit < 8 by decide)
    (show b.length < 2 ^ 60 by omega)
  rw [← hrest] at hheader
  unfold traceEntry
  rw [hheader]
  change (if _ then _ else inflate storedZlib _ _ >>= _) = _
  rw [if_neg (by omega), inflate_stored more hb hadler]
  rfl

variable (h packLen hexLen) in
theorem traceEntry_ofs (st : Reading) {base b adler out : Bytes} (more : Bytes) {back : Nat} (hb : b.length < 65536)
    (hadler : adler.length = 4) (hback : back < 2 ^ 48)
    (hrest : st.rest = encodeHeader objOfsDelta b.length ++ (encodeDistance back ++ (storedStream b adler ++ more)))
    (hfit : st.inflated + b.length ≤ maxUnpackedPush) (hstart : back ≤ packLen - st.rest.length)
    (hbase : find st.byOffset (packLen - st.rest.length - back) = some base) (hout : applyDelta base b = .ok out) :
    traceEntry h storedZlib packLen hexLen st = .ok (⟨b.length, b, some out⟩,
      Reading.keep h hexLen (packLen - st.rest.length) { st with rest := more, inflated := st.inflated + b.length } out) := by
  have hheader := entryHeader_encodeHeader (encodeDistance back ++ (storedStream b adler ++ more))
    (show objOfsDelta < 8 by decide) (show b.length < 2 ^ 60 by omega)
  have hbaseOf : baseOf hexLen (packLen - st.rest.length) objOfsDelta st
      (encodeDistance back ++ (storedStream b adler ++ more)) = .ok (some base, storedStream b adler ++ more) := by
    unfold baseOf
    rw [if_pos rfl, ofsDeltaDistance_encodeDistance _ hback, ← hbase]
    exact congrArg (fun o => Except.ok (o, _)) (if_pos hstart)
  rw [← hrest] at hheader
  unfold traceEntry
  rw [hheader]
  change (if _ then _ else baseOf hexLen (packLen - st.rest.length) objOfsDelta st _ >>= _) = _
  rw [if_neg (by omega), hbaseOf]
  change (inflate storedZlib _ _ >>= _) = _
  rw [inflate_stored more hb hadler]
  change (applyDelta base b >>= _) = _
  rw [hout]
  rfl

def commitEntry (b adler : Bytes) : Bytes := encodeHeader objCommit b.length ++ storedStream b adler

def pairPack (b adler delta adler' trailer : Bytes) : Bytes :=
  [80, 65, 67, 75, 0, 0, 0, 2, 0, 0, 0, 2] ++ (commitEntry b adler ++ (encodeHeader objOfsDelta delta.length ++
    (encodeDistance (commitEntry b adler).length ++ (storedStream delta adler' ++ trailer))))

theorem tracePack_two (h : Hashes) (zlib : Zlib) (hexLen : Nat) (rest : Bytes) :
    tracePack h zlib ([80, 65, 67, 75, 0, 0, 0, 2, 0, 0, 0, 2] ++ rest) hexLen =
      traceEntries h zlib (12 + rest.length) hexLen 2 ⟨rest, 0, [], [], []⟩ := by
  have hlen : ([80, 65, 67, 75, 0, 0, 0, 2, 0, 0, 0, 2] ++ rest : Bytes).length = 12 + rest.length := by
    rw [length_append]
    rfl
  have hsignature : bytes "PACK" = [80, 65, 67, 75] := by decide +kernel
  unfold tracePack
  rw [if_neg (append_ne_nil_of_left_ne_nil (cons_ne_nil _ _) _), hlen, if_neg]
  · rfl
  · rw [hsignature]
    refine not_or.2 ⟨?_, not_not.2 rfl⟩
    unfold packHeaderLen
    omega

theorem tracePack_pair (h : Hashes) {b delta out : Bytes} (adler adler' trailer : Bytes) (hexLen : Nat) (hb : b.length < 65536)
    (hadler : adler.length = 4) (hdelta : delta.length < 65536) (hadler' : adler'.length = 4)
    (hback : (commitEntry b adler).length < 2 ^ 48) (hout : applyDelta b delta = .ok out) :
    ∃ st, tracePack h storedZlib (pairPack b adler delta adler' trailer) hexLen =
      .ok ([⟨b.length, b, none⟩, ⟨delta.length, delta, some out⟩], st) := by
  obtain ⟨second, hsecond⟩ : ∃ r, r = encodeHeader objOfsDelta delta.length ++
    (encodeDistance (commitEntry b adler).length ++ (storedStream delta adler' ++ trailer)) := ⟨_, rfl⟩
  obtain ⟨packLen, hpackLen⟩ : ∃ n, n = 12 + (commitEntry b adler ++ second).length := ⟨_, rfl⟩
  have hmax : 65536 + 65536 ≤ maxUnpackedPush := by decide
  have hlen : (commitEntry b adler ++ second).length = (commitEntry b adler).length + second.length := length_append
  have hfirst := traceEntry_commit h packLen hexLen ⟨commitEntry b adler ++ second, 0, [], [], []⟩ second hb hadler
    (by rw [commitEntry, append_assoc]) (by dsimp only; omega)
  -- the delta's base is the entry at 12, the first of the pack
  have hbase : find [(packLen - (commitEntry b adler ++ second).length, b)]
      (packLen - second.length - (commitEntry b adler).length) = some b := by
    rw [show packLen - (commitEntry b adler ++ second).length = 12 by omega,
      show packLen - second.length - (commitEntry b adler).length = 12 by omega]
    rfl
  have hnext := traceEntry_ofs h packLen hexLen
    (Reading.keep h hexLen (packLen - (commitEntry b adler ++ second).length) ⟨second, 0 + b.length, [], [], []⟩ b) trailer
    hdelta hadler' hback hsecond (by change 0 + b.length + delta.length ≤ _; omega)
    (by change _ ≤ packLen - second.length; omega) hbase hout
  dsimp only at hfirst
  rw [pairPack, ← hsecond, tracePack_two, ← hpackLen, traceEntries, hfirst]
  change ∃ st, (traceEntries h storedZlib packLen hexLen 1 _ >>= _) = _
  rw [traceEntries, hnext]
  exact ⟨_, rfl⟩

def bombCommit : Bytes :=
  bytes "tree 4b825dc642cb6eb9a060e54bf8d69288fbee4904\nauthor A <a@b> 0 +0000\ncommitter A <a@b> 0 +0000\n\n" ++
    (List.replicate 65438 120 ++ [10])

def bombCopies : List Instruction := List.replicate 8192 (.copy 0 65535)

def bombDelta : Bytes := encodeDelta 0x10000 bombCommit bombCopies

def bombTrailer : Bytes := [48, 94, 28, 34, 114, 165, 28, 250, 216, 186, 145, 224, 14, 107, 249, 159, 85, 3, 22, 64]

def bombPack : Bytes := pairPack bombCommit [236, 142, 243, 85] bombDelta [211, 29, 202, 60] bombTrailer

def bombHashes : Hashes where
  sha1 b :=
    if b = bytes "commit 65535" ++ 0 :: bombCommit then bytes "d68ad3fe74f9fdab923ddef69c48c33be931b314"
    else if b = bytes "commit 536862720" ++ 0 :: rebuild bombCommit bombCopies then
      bytes "91d51256ac2625d7104d5b8014c6cb52374b0eea"
    else oidA
  sha256 b :=
    if b = bytes "commit 65535" ++ 0 :: bombCommit then
      bytes "2d2b3b73a7774fc225f947a2444af9aeef12787b951f10ace56a363fa039b8ac"
    else if b = bytes "commit 536862720" ++ 0 :: rebuild bombCommit bombCopies then
      bytes "78fbde4e1c207d294dbec8d2aac6a734995861e813ec76d175f45877924a8f5b"
    else List.replicate 64 49
  sha1_id b := by split_ifs <;> decide
  sha256_id b := by split_ifs <;> decide

theorem length_bombCommit : bombCommit.length = 65535 := by
  unfold bombCommit bytes
  rw [String.toList_ofList, length_append, length_append, length_replicate]
  rfl

theorem length_rebuild_bomb : (rebuild bombCommit bombCopies).length = 8192 * 65535 := by
  have hlen := length_rebuild_copies bombCommit 8192
  rwa [length_bombCommit] at hlen

theorem length_copies (n : Nat) : ((List.replicate n (Instruction.copy 0 65535)).flatMap (Instruction.encode 0x10000)).length = n * 3 := by
  have hcopy : (Instruction.copy 0 65535).encode 0x10000 = [176, 255, 255] := by
    change copyOps 0x10000 0 65535 = _
    rw [copyOps, if_pos (by decide)]
    decide +kernel
  rw [length_flatMap, map_replicate, sum_replicate_nat, hcopy]
  rfl

theorem length_delta_copies {base : Bytes} (n : Nat) (hbase : base.length = 65535) :
    (encodeDelta 0x10000 base (List.replicate n (.copy 0 65535))).length = 3 + ((appendUvarint (n * 65535)).length + n * 3) := by
  have hlen := length_rebuild_copies base n
  rw [hbase] at hlen
  have hvarint : appendUvarint 65535 = [255, 255, 3] := by simp [appendUvarint, sevens]
  unfold encodeDelta
  rw [length_append, length_append, length_copies, hlen, hbase, hvarint]
  rfl

theorem length_bombDelta : bombDelta.length = 24584 := by
  have hresult : appendUvarint (8192 * 65535) = [128, 192, 255, 255, 1] := by simp [appendUvarint, sevens]
  unfold bombDelta bombCopies
  rw [length_delta_copies 8192 length_bombCommit, hresult]
  rfl

theorem applyDelta_bomb : applyDelta bombCommit bombDelta = .ok (rebuild bombCommit bombCopies) := by
  have hlen := length_bombCommit
  refine applyDelta_encodeDelta (by decide) (by decide) (by omega) (fun i hi => ?_) ?_
  · rw [eq_of_mem_replicate hi]
    exact ⟨by decide, by omega, by decide⟩
  · rw [length_rebuild_bomb]
    decide

theorem length_bombEntry : (commitEntry bombCommit [236, 142, 243, 85]).length = 65549 := by
  have hheader : encodeHeader objCommit 65535 = [159, 255, 31] := by simp [encodeHeader, sevens, objCommit]
  unfold commitEntry storedStream
  rw [length_bombCommit, hheader, length_append, length_append, length_append, length_bombCommit]
  rfl

theorem bomb_bounded : ∃ es st, tracePack bombHashes storedZlib bombPack 40 = .ok (es, st) ∧
    held es ≤ maxUnpackedPush * (1 + es.countP fun e => e.rebuilt.isSome) := by
  have hcommit := length_bombCommit
  have hdelta := length_bombDelta
  have hentry := length_bombEntry
  obtain ⟨st, hr⟩ := tracePack_pair bombHashes [236, 142, 243, 85] [211, 29, 202, 60] bombTrailer 40 (by omega) rfl (by omega)
    rfl (by omega) applyDelta_bomb
  exact ⟨_, st, hr, held_le hr⟩

/-- **A pack of 90 KB holds more than 512 MiB.** -/
theorem bomb_held : ¬ ∀ (h : Hashes) (zlib : Zlib) (pack : Bytes) (hexLen : Nat), HoldsWithin h zlib pack hexLen := by
  intro hall
  have hcommit := length_bombCommit
  have hdelta := length_bombDelta
  have hentry := length_bombEntry
  obtain ⟨st, hr⟩ := tracePack_pair bombHashes [236, 142, 243, 85] [211, 29, 202, 60] bombTrailer 40 (by omega) rfl (by omega)
    rfl (by omega) applyDelta_bomb
  have hle := hall bombHashes storedZlib bombPack 40 _ st hr
  have hheld : ∀ (n m : Nat) (b delta out : Bytes),
      held [⟨n, b, none⟩, ⟨m, delta, some out⟩] = b.length + (delta.length + out.length) := fun n m b delta out => by
    simp [held, Entry.held]
  rw [hheld, length_bombCommit, length_bombDelta, length_rebuild_bomb] at hle
  unfold maxUnpackedPush at hle
  omega

end

end Git
end Armature
