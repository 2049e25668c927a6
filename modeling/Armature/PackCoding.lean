import Armature.GitPack
/-!
# PackCoding — what git writes of a pack is read back (`git/pack.go`)

The encoders are git's, as `packBuilder` of the tests has them: a number in bytes of seven bits, a distance that counts on from
each length, and the instructions of a delta.  `most` is the longest copy that one instruction is given.
-/
namespace Armature
namespace Git

open List
open Go (Bytes)

/-! ## What git writes -/

def sevens (c size : Nat) : Bytes :=
  if size = 0 then [UInt8.ofNat c] else UInt8.ofNat (c + 128) :: sevens (size % 128) (size / 128)
termination_by size
decreasing_by omega

def encodeHeader (kind size : Nat) : Bytes := sevens (kind * 16 + size % 16) (size / 16)

def appendUvarint (n : Nat) : Bytes := sevens (n % 128) (n / 128)

def distanceBytes (back : Nat) (enc : Bytes) : Bytes :=
  if back = 0 then enc else distanceBytes ((back - 1) / 128) (UInt8.ofNat (128 + (back - 1) % 128) :: enc)
termination_by back
decreasing_by omega

def encodeDistance (back : Nat) : Bytes := distanceBytes (back / 128) [UInt8.ofNat (back % 128)]

inductive Instruction where
  | copy (offset length : Nat)
  | insert (b : Bytes)

def offsetPlaces : List (Nat × Nat) := [(0, 0), (1, 1), (2, 2), (3, 3)]

def lengthPlaces : List (Nat × Nat) := [(4, 0), (5, 1), (6, 2)]

def digit (n place : Nat) : Nat := n / 256 ^ place % 256

def flags (n : Nat) (places : List (Nat × Nat)) : Nat :=
  (places.map fun p => if digit n p.2 = 0 then 0 else 2 ^ p.1).sum

def present (n : Nat) : List (Nat × Nat) → Bytes
  | [] => []
  | p :: places => if digit n p.2 = 0 then present n places else UInt8.ofNat (digit n p.2) :: present n places

def copyOp (offset length : Nat) : Bytes :=
  let length := if length = 0x10000 then 0 else length
  UInt8.ofNat (128 + (flags offset offsetPlaces + flags length lengthPlaces)) ::
    (present offset offsetPlaces ++ present length lengthPlaces)

def copyOps (most offset length : Nat) : Bytes :=
  if length ≤ most ∨ most = 0 then copyOp offset length
  else copyOp offset most ++ copyOps most (offset + most) (length - most)
termination_by length
decreasing_by omega

def insertOps (b : Bytes) : Bytes :=
  if b.length ≤ 127 then UInt8.ofNat b.length :: b else 127 :: (b.take 127 ++ insertOps (b.drop 127))
termination_by b.length
decreasing_by rw [length_drop]; omega

namespace Instruction

def encode (most : Nat) : Instruction → Bytes
  | copy offset length => copyOps most offset length
  | insert b => insertOps b

def adds (base : Bytes) : Instruction → Bytes
  | copy offset length => (base.drop offset).take length
  | insert b => b

def Inside (most : Nat) (base : Bytes) : Instruction → Prop
  | copy offset length => 0 < length ∧ offset + length ≤ base.length ∧ offset + (length - 1) / most * most < 2 ^ 32
  | insert b => b ≠ []

end Instruction

def rebuild (base : Bytes) (is : List Instruction) : Bytes := is.flatMap (Instruction.adds base)

def encodeDelta (most : Nat) (base : Bytes) (is : List Instruction) : Bytes :=
  appendUvarint base.length ++ (appendUvarint (rebuild base is).length ++ is.flatMap (Instruction.encode most))

/-! ## Numbers -/

variable {n op most : Nat} {base : Bytes}

theorem toNat_byte (h : n < 256) : (UInt8.ofNat n).toNat = n := by
  rw [UInt8.toNat_ofNat', Nat.mod_eq_of_lt h]

theorem byte_marked (h : n < 256) : 128 ≤ UInt8.ofNat n ↔ 128 ≤ n := by
  rw [UInt8.le_iff_toNat_le, toNat_byte h]
  rfl

theorem sevens_zero (c : Nat) : sevens c 0 = [UInt8.ofNat c] := by
  rw [sevens, if_pos rfl]

theorem sevens_pos (c : Nat) {size : Nat} (h : size ≠ 0) :
    sevens c size = UInt8.ofNat (c + 128) :: sevens (size % 128) (size / 128) := by
  rw [sevens, if_neg h]

theorem shifted (x c n shift : Nat) :
    x + c * 2 ^ shift + (n % 128 + 128 * (n / 128)) * 2 ^ (shift + 7) = x + (c + 128 * n) * 2 ^ shift := by
  rw [Nat.mod_add_div, Nat.pow_add, Nat.add_mul, ← Nat.add_assoc]
  congr 1
  rw [Nat.mul_comm (2 ^ shift), ← Nat.mul_assoc, Nat.mul_comm n]

theorem sizeMore_sevens (rest : Bytes) : ∀ {k shift size c n : Nat}, shift + 7 * k ≤ 56 → c < 128 → n < 128 ^ k →
    sizeMore shift size (sevens c n ++ rest) = .ok (size + (c + 128 * n) * 2 ^ shift, rest)
  | k, shift, size, c, n, hshift, hc, hn => by
    by_cases hz : n = 0
    · subst hz
      rw [sevens_zero, singleton_append, sizeMore, if_neg (by omega),
        if_neg (by rw [byte_marked (by omega)]; omega), toNat_byte (by omega), Nat.mod_eq_of_lt hc]
      rfl
    · obtain _ | k := k
      · exact absurd hn (by omega)
      · rw [sevens_pos c hz, cons_append, sizeMore, if_neg (by omega),
          if_pos ((byte_marked (by omega)).2 (by omega)), toNat_byte (by omega), Nat.add_mod_right, Nat.mod_eq_of_lt hc,
          sizeMore_sevens rest (k := k) (by omega) (by omega) (Nat.div_lt_of_lt_mul (by rwa [Nat.pow_succ'] at hn))]
        rw [shifted]

variable (rest : Bytes)

theorem entryHeader_encodeHeader {kind size : Nat} (hkind : kind < 8) (hsize : size < 2 ^ 60) :
    entryHeader (encodeHeader kind size ++ rest) = .ok (kind, size, rest) := by
  unfold encodeHeader
  by_cases hz : size / 16 = 0
  · rw [hz, sevens_zero, singleton_append, entryHeader, if_neg (by rw [byte_marked (by omega)]; omega),
      toNat_byte (by omega)]
    congr 2
    · omega
    · congr 1
      omega
  · rw [sevens_pos _ hz, cons_append, entryHeader, if_pos ((byte_marked (by omega)).2 (by omega)), toNat_byte (by omega),
      sizeMore_sevens rest (k := 7) (by omega) (by omega) (by omega)]
    dsimp only [Except.map]
    congr 2
    · omega
    · congr 1
      omega

theorem readUvarint_sevens (rest : Bytes) : ∀ {k i x c n : Nat}, i + k ≤ 8 → c < 128 → n < 128 ^ k →
    readUvarint i x (sevens c n ++ rest) = some (x + (c + 128 * n) * 2 ^ (7 * i), rest)
  | k, i, x, c, n, hi, hc, hn => by
    by_cases hz : n = 0
    · subst hz
      rw [sevens_zero, singleton_append, readUvarint, if_neg (by omega),
        if_pos (by rw [← UInt8.not_le, byte_marked (by omega)]; omega), if_neg (by omega), toNat_byte (by omega)]
      rfl
    · obtain _ | k := k
      · exact absurd hn (by omega)
      · rw [sevens_pos c hz, cons_append, readUvarint, if_neg (by omega),
          if_neg (by rw [← UInt8.not_le, byte_marked (by omega)]; omega), toNat_byte (by omega), Nat.add_mod_right,
          Nat.mod_eq_of_lt hc,
          readUvarint_sevens rest (k := k) (by omega) (by omega) (Nat.div_lt_of_lt_mul (by rwa [Nat.pow_succ'] at hn))]
        rw [Nat.mul_succ, shifted]

theorem readUvarint_appendUvarint (h : n < 2 ^ 63) :
    readUvarint 0 0 (appendUvarint n ++ rest) = some (n, rest) := by
  unfold appendUvarint
  rw [readUvarint_sevens rest (k := 8) (by omega) (by omega) (by omega)]
  congr 2
  omega

theorem ofsDeltaDistance_bytes (enc : Bytes) {back : Nat} (hpos : back ≠ 0) (hback : back ≤ 2 ^ 48) :
    ofsDeltaDistance (distanceBytes back enc) = distanceMore (back - 1) enc := by
  induction back using Nat.strongRecOn generalizing enc with
  | ind back ih =>
    have hlow : 128 + (back - 1) % 128 < 256 := by omega
    rw [distanceBytes, if_neg hpos]
    by_cases hz : (back - 1) / 128 = 0
    · rw [hz, distanceBytes, if_pos rfl, ofsDeltaDistance, if_pos ((byte_marked hlow).2 (by omega)), toNat_byte hlow]
      congr 1
      omega
    · rw [ih _ (by omega) _ hz (by omega), distanceMore, if_neg (by omega), if_pos ((byte_marked hlow).2 (by omega)),
        toNat_byte hlow]
      congr 1
      omega

theorem distanceBytes_append : ∀ (back : Nat) (enc : Bytes),
    distanceBytes back enc ++ rest = distanceBytes back (enc ++ rest) := by
  intro back
  induction back using Nat.strongRecOn with
  | ind back ih =>
    intro enc
    rw [distanceBytes]
    by_cases hz : back = 0
    · rw [if_pos hz, hz, distanceBytes, if_pos rfl]
    · rw [if_neg hz, ih _ (by omega), distanceBytes.eq_def back, if_neg hz]
      rfl

theorem ofsDeltaDistance_encodeDistance {back : Nat} (h : back < 2 ^ 48) :
    ofsDeltaDistance (encodeDistance back ++ rest) = .ok (back, rest) := by
  have hlow : back % 128 < 256 := by omega
  unfold encodeDistance
  rw [distanceBytes_append, singleton_append]
  by_cases hz : back / 128 = 0
  · rw [hz, distanceBytes, if_pos rfl, ofsDeltaDistance, if_neg (by rw [byte_marked hlow]; omega), toNat_byte hlow]
    congr 2
    omega
  · rw [ofsDeltaDistance_bytes _ hz (by omega), distanceMore, if_neg (by omega), if_neg (by rw [byte_marked hlow]; omega),
      toNat_byte hlow]
    congr 2
    omega

/-! ## Instructions -/

theorem readPlaces_present {op n : Nat} (rest : Bytes) : ∀ (places : List (Nat × Nat)),
    (∀ p ∈ places, op / 2 ^ p.1 % 2 = 1 ↔ digit n p.2 ≠ 0) →
    readPlaces op places (present n places ++ rest) = some ((places.map fun p => digit n p.2 * 256 ^ p.2).sum, rest)
  | [], _ => rfl
  | (bit, place) :: places, h => by
    have ih := readPlaces_present rest places fun q hq => h q (mem_cons_of_mem _ hq)
    have hp : op / 2 ^ bit % 2 = 1 ↔ digit n place ≠ 0 := h (bit, place) mem_cons_self
    have hlt : digit n place < 256 := Nat.mod_lt _ (by decide)
    unfold readPlaces
    by_cases hz : digit n place = 0
    · rw [if_neg fun hbit => hp.1 hbit hz, present, if_pos hz, ih, map_cons, sum_cons, hz, Nat.zero_mul, Nat.zero_add]
    · rw [if_pos (hp.2 hz), present, if_neg hz, cons_append]
      dsimp only
      rw [ih, Option.map_some, toNat_byte hlt, map_cons, sum_cons]

theorem bits_read {a b c d e f g : Nat} (ha : a ≤ 1) (hb : b ≤ 1) (hc : c ≤ 1) (hd : d ≤ 1) (he : e ≤ 1) (hf : f ≤ 1)
    (hg : g ≤ 1) (hop : op = 128 + ((a + (2 * b + (4 * c + 8 * d))) + (16 * e + (32 * f + 64 * g)))) :
    op < 256 ∧ 128 ≤ op ∧ op / 1 % 2 = a ∧ op / 2 % 2 = b ∧ op / 4 % 2 = c ∧ op / 8 % 2 = d ∧ op / 16 % 2 = e ∧
      op / 32 % 2 = f ∧ op / 64 % 2 = g := by
  omega

def shown (n place : Nat) : Nat := if digit n place = 0 then 0 else 1

theorem shown_le (n place : Nat) : shown n place ≤ 1 := by
  unfold shown
  split <;> omega

theorem shown_one {place : Nat} : shown n place = 1 ↔ digit n place ≠ 0 := by
  unfold shown
  split <;> simp_all

theorem flag_shown (n bit place : Nat) : (if digit n place = 0 then 0 else 2 ^ bit) = 2 ^ bit * shown n place := by
  unfold shown
  split <;> simp

theorem copyOp_bits (offset length : Nat) (hop : op = 128 + (flags offset offsetPlaces + flags length lengthPlaces)) :
    op < 256 ∧ 128 ≤ op ∧ (∀ p ∈ offsetPlaces, op / 2 ^ p.1 % 2 = 1 ↔ digit offset p.2 ≠ 0) ∧
      ∀ p ∈ lengthPlaces, op / 2 ^ p.1 % 2 = 1 ↔ digit length p.2 ≠ 0 := by
  unfold flags offsetPlaces lengthPlaces at hop
  simp only [flag_shown, map_cons, map_nil, sum_cons, sum_nil, Nat.add_zero, Nat.pow_zero, Nat.one_mul]
    at hop
  obtain ⟨hlt, hge, h₀, h₁, h₂, h₃, h₄, h₅, h₆⟩ := bits_read (shown_le _ _) (shown_le _ _) (shown_le _ _) (shown_le _ _)
    (shown_le _ _) (shown_le _ _) (shown_le _ _) hop
  refine ⟨hlt, hge, ?_, ?_⟩
  · simp only [offsetPlaces, forall_mem_cons, ← shown_one]
    exact ⟨by rw [← h₀]; rfl, by rw [← h₁]; rfl, by rw [← h₂]; rfl, by rw [← h₃]; rfl, by simp⟩
  · simp only [lengthPlaces, forall_mem_cons, ← shown_one]
    exact ⟨by rw [← h₄]; rfl, by rw [← h₅]; rfl, by rw [← h₆]; rfl, by simp⟩

theorem readPlaces_offset (h : n < 2 ^ 32)
    (hbits : ∀ p ∈ offsetPlaces, op / 2 ^ p.1 % 2 = 1 ↔ digit n p.2 ≠ 0) :
    readPlaces op offsetPlaces (present n offsetPlaces ++ rest) = some (n, rest) := by
  have hsum : (offsetPlaces.map fun p => digit n p.2 * 256 ^ p.2).sum = n := by
    have hlist : (offsetPlaces.map fun p => digit n p.2 * 256 ^ p.2) =
        [digit n 0 * 256 ^ 0, digit n 1 * 256 ^ 1, digit n 2 * 256 ^ 2, digit n 3 * 256 ^ 3] := rfl
    rw [hlist, sum_cons, sum_cons, sum_cons, sum_cons, sum_nil]
    unfold digit
    omega
  rw [readPlaces_present rest _ hbits, hsum]

theorem readPlaces_length_written (h : n < 2 ^ 24)
    (hbits : ∀ p ∈ lengthPlaces, op / 2 ^ p.1 % 2 = 1 ↔ digit n p.2 ≠ 0) :
    readPlaces op lengthPlaces (present n lengthPlaces ++ rest) = some (n, rest) := by
  have hsum : (lengthPlaces.map fun p => digit n p.2 * 256 ^ p.2).sum = n := by
    have hlist : (lengthPlaces.map fun p => digit n p.2 * 256 ^ p.2) =
        [digit n 0 * 256 ^ 0, digit n 1 * 256 ^ 1, digit n 2 * 256 ^ 2] := rfl
    rw [hlist, sum_cons, sum_cons, sum_cons, sum_nil]
    unfold digit
    omega
  rw [readPlaces_present rest _ hbits, hsum]

def run (base b out : Bytes) : Option Bytes := applyOps base b.length b out

theorem run_copyOp (out : Bytes) {offset length : Nat} (hoff : offset < 2 ^ 32) (hpos : 0 < length)
    (hlen : length < 2 ^ 24) (hin : offset + length ≤ base.length) :
    run base (copyOp offset length ++ rest) out = run base rest (out ++ (base.drop offset).take length) := by
  obtain ⟨stated, hstated⟩ : ∃ m, m = if length = 0x10000 then 0 else length := ⟨_, rfl⟩
  obtain ⟨op, hop⟩ : ∃ op, op = 128 + (flags offset offsetPlaces + flags stated lengthPlaces) := ⟨_, rfl⟩
  obtain ⟨hlt, hge, hoffset, hlength⟩ := copyOp_bits offset stated hop
  have hback : (if stated = 0 then 0x10000 else stated) = length := by split_ifs at hstated ⊢ <;> omega
  have hcopy : copyOp offset length ++ rest = UInt8.ofNat op ::
      (present offset offsetPlaces ++ (present stated lengthPlaces ++ rest)) := by
    rw [hop, hstated, copyOp, cons_append, append_assoc]
  have hread : readPlaces op [(0, 0), (1, 1), (2, 2), (3, 3)]
      (present offset offsetPlaces ++ (present stated lengthPlaces ++ rest)) =
      some (offset, present stated lengthPlaces ++ rest) := readPlaces_offset _ hoff hoffset
  have hread' : readPlaces op [(4, 0), (5, 1), (6, 2)] (present stated lengthPlaces ++ rest) = some (stated, rest) :=
    readPlaces_length_written _ (by split_ifs at hstated <;> omega) hlength
  unfold run
  rw [hcopy, length_cons, applyOps, if_pos ((byte_marked hlt).2 hge), toNat_byte hlt, hread]
  simp only [Option.bind_eq_bind, Option.bind_some]
  rw [hread']
  simp only [Option.bind_some]
  rw [hback, if_neg (by omega)]
  exact applyOps_fuel base (by rw [length_append, length_append]; omega) le_rfl

theorem run_insertOp (base : Bytes) {b : Bytes} (rest out : Bytes) (hne : b ≠ []) (hlen : b.length ≤ 127) :
    run base (UInt8.ofNat b.length :: b ++ rest) out = run base rest (out ++ b) := by
  have hpos := length_pos_iff.2 hne
  have hbyte : (UInt8.ofNat b.length).toNat = b.length := toNat_byte (by omega)
  have hzero : UInt8.ofNat b.length ≠ 0 := fun h => by
    rw [h] at hbyte
    exact absurd hbyte (by simp; omega)
  unfold run
  rw [cons_append, length_cons, applyOps, if_neg (by rw [byte_marked (by omega)]; omega), if_pos hzero, hbyte,
    if_neg (by rw [length_append]; omega), drop_left, take_left]
  exact applyOps_fuel base (by rw [length_append]; omega) le_rfl

theorem run_copyOps (hmost : 0 < most) (hfits : most < 2 ^ 24) (rest : Bytes) :
    ∀ (length offset : Nat) (out : Bytes), 0 < length → offset + length ≤ base.length →
      offset + (length - 1) / most * most < 2 ^ 32 →
      run base (copyOps most offset length ++ rest) out = run base rest (out ++ (base.drop offset).take length) := by
  intro length
  induction length using Nat.strongRecOn with
  | ind length ih =>
    intro offset out hpos hin hlast
    rw [copyOps]
    by_cases hle : length ≤ most
    · rw [if_pos (.inl hle)]
      exact run_copyOp rest out (by omega) hpos (by omega) hin
    · have hpieces : (length - 1) / most = (length - most - 1) / most + 1 := by
        rw [Nat.div_eq_sub_div hmost (by omega), Nat.sub_right_comm]
      rw [hpieces, Nat.succ_mul] at hlast
      have hslice : (base.drop offset).take length = (base.drop offset).take most ++
          (base.drop (offset + most)).take (length - most) := by
        rw [← drop_drop, ← take_add, Nat.add_sub_cancel' (by omega)]
      rw [if_neg (by omega), append_assoc, run_copyOp _ out (by omega) hmost hfits (by omega),
        ih (length - most) (by omega) (offset + most) _ (by omega) (by omega) (by omega), append_assoc, ← hslice]

theorem run_insertOps : ∀ (n : Nat) (b out : Bytes), b.length = n → b ≠ [] →
    run base (insertOps b ++ rest) out = run base rest (out ++ b) := by
  intro n
  induction n using Nat.strongRecOn with
  | ind n ih =>
    intro b out hn hne
    rw [insertOps]
    by_cases hle : b.length ≤ 127
    · rw [if_pos hle]
      exact run_insertOp base rest out hne hle
    · have htake : (b.take 127).length = 127 := by rw [length_take]; omega
      have hdrop : (b.drop 127).length = n - 127 := by rw [length_drop]; omega
      have hone := run_insertOp base (insertOps (b.drop 127) ++ rest) out (b := b.take 127)
        (ne_nil_of_length_pos (by omega)) (by omega)
      rw [htake] at hone
      rw [if_neg hle, cons_append, append_assoc]
      refine hone.trans ?_
      rw [ih (n - 127) (by omega) _ _ hdrop (ne_nil_of_length_pos (by omega)), append_assoc,
        take_append_drop]

theorem run_encode (hmost : 0 < most) (hfits : most < 2 ^ 24) (rest out : Bytes) {i : Instruction}
    (h : i.Inside most base) : run base (i.encode most ++ rest) out = run base rest (out ++ i.adds base) := by
  cases i with
  | copy offset length => exact run_copyOps hmost hfits rest length offset out h.1 h.2.1 h.2.2
  | insert b => exact run_insertOps rest b.length b out rfl h

theorem run_instructions {most : Nat} (hmost : 0 < most) (hfits : most < 2 ^ 24) {base : Bytes} :
    ∀ {is : List Instruction} (out : Bytes), (∀ i ∈ is, i.Inside most base) →
      run base (is.flatMap (Instruction.encode most)) out = some (out ++ rebuild base is)
  | [], out, _ => by
    unfold rebuild
    rw [flatMap_nil, flatMap_nil, append_nil]
    rfl
  | i :: is, out, h => by
    obtain ⟨hi, his⟩ := forall_mem_cons.1 h
    rw [flatMap_cons, run_encode hmost hfits _ _ hi, run_instructions hmost hfits _ his, append_assoc]
    rfl

theorem applyDelta_encodeDelta (hmost : 0 < most) (hfits : most < 2 ^ 24)
    (hbase : base.length < 2 ^ 63) {is : List Instruction} (hin : ∀ i ∈ is, i.Inside most base)
    (hfit : (rebuild base is).length ≤ maxUnpackedPush) : applyDelta base (encodeDelta most base is) = .ok (rebuild base is) := by
  have hmax : maxUnpackedPush < 2 ^ 63 := by decide
  have hrun : applyOps base _ _ [] = _ := run_instructions hmost hfits [] hin
  unfold applyDelta encodeDelta
  rw [readUvarint_appendUvarint _ hbase, Option.bind_eq_bind, Option.bind_some]
  dsimp only
  rw [if_neg (fun h => h rfl), readUvarint_appendUvarint _ (by omega), Option.bind_some]
  dsimp only
  rw [if_neg (by omega), hrun, Option.bind_eq_bind, Option.bind_some, nil_append, if_pos rfl]

theorem readUvarint_sevens_some (rest : Bytes) : ∀ {size i x c m : Nat} {b : Bytes}, c < 128 →
    readUvarint i x (sevens c size ++ rest) = some (m, b) → m = x + (c + 128 * size) * 2 ^ (7 * i) ∧ b = rest := by
  intro size
  induction size using Nat.strongRecOn with
  | ind size ih =>
    intro i x c m b hc h
    by_cases hz : size = 0
    · subst hz
      rw [sevens_zero, singleton_append, readUvarint] at h
      split_ifs at h
      · cases h
        rw [toNat_byte (by omega)]
        exact ⟨rfl, rfl⟩
      · rename_i hmark
        rw [← UInt8.not_le, byte_marked (by omega)] at hmark
        omega
    · rw [sevens_pos c hz, cons_append, readUvarint] at h
      split_ifs at h
      · rename_i hmark _
        rw [← UInt8.not_le, byte_marked (by omega)] at hmark
        omega
      · rw [toNat_byte (by omega), Nat.add_mod_right, Nat.mod_eq_of_lt hc] at h
        obtain ⟨hm, hb⟩ := ih (size / 128) (by omega) (Nat.mod_lt _ (by decide)) h
        rw [Nat.mul_succ, shifted] at hm
        exact ⟨hm, hb⟩

theorem readUvarint_appendUvarint_some {m : Nat} {rest b : Bytes}
    (h : readUvarint 0 0 (appendUvarint n ++ rest) = some (m, b)) : m = n ∧ b = rest := by
  obtain ⟨hm, hb⟩ := readUvarint_sevens_some rest (Nat.mod_lt _ (by decide)) h
  exact ⟨by omega, hb⟩

theorem applyDelta_refused {is : List Instruction} (hlong : maxUnpackedPush < (rebuild base is).length) :
    applyDelta base (encodeDelta most base is) = .error .deltaDoesNotFit := by
  unfold applyDelta encodeDelta
  rcases hbase : readUvarint 0 0 (appendUvarint base.length ++ _) with _ | ⟨baseSize, b⟩
  · rfl
  rw [Option.bind_eq_bind, Option.bind_some]
  dsimp only
  obtain ⟨rfl, rfl⟩ := readUvarint_appendUvarint_some hbase
  rw [if_neg (fun h => h rfl)]
  rcases hsize : readUvarint 0 0 (appendUvarint (rebuild base is).length ++ _) with _ | ⟨size, b⟩
  · rfl
  rw [Option.bind_some]
  dsimp only
  rw [if_pos ((readUvarint_appendUvarint_some hsize).1 ▸ hlong)]

/-! ## What a delta reads of its base -/

def readOps (base : Bytes) : Nat → Bytes → List (Nat × Nat) → Bytes → List (Nat × Nat) × Option Bytes
  | _, [], read, out => (read, some out)
  | 0, _, read, _ => (read, none)
  | fuel + 1, op :: b, read, out =>
    if 128 ≤ op then
      match readPlaces op.toNat offsetPlaces b with
      | none => (read, none)
      | some (offset, b) =>
        match readPlaces op.toNat lengthPlaces b with
        | none => (read, none)
        | some (length, b) =>
          let length := if length = 0 then 0x10000 else length
          if base.length < offset + length then (read, none)
          else readOps base fuel b (read ++ [(offset, length)]) (out ++ (base.drop offset).take length)
    else if op ≠ 0 then
      if b.length < op.toNat then (read, none) else readOps base fuel (b.drop op.toNat) read (out ++ b.take op.toNat)
    else (read, none)

def readDelta (base delta : Bytes) : List (Nat × Nat) × Except BadPack Bytes :=
  match readUvarint 0 0 delta with
  | none => ([], .error .deltaDoesNotFit)
  | some (baseSize, b) =>
    if baseSize ≠ base.length then ([], .error .deltaDoesNotFit)
    else
      match readUvarint 0 0 b with
      | none => ([], .error .deltaDoesNotFit)
      | some (size, b) =>
        if maxUnpackedPush < size then ([], .error .deltaDoesNotFit)
        else
          let r := readOps base b.length b [] []
          (r.1, match r.2 with
            | none => .error .deltaDoesNotFit
            | some out => if out.length = size then .ok out else .error .deltaDoesNotFit)

theorem readOps_out (base : Bytes) : ∀ (n : Nat) (b : Bytes) (read : List (Nat × Nat)) (out : Bytes),
    (readOps base n b read out).2 = applyOps base n b out
  | 0, [], _, _ => rfl
  | 0, _ :: _, _, _ => rfl
  | n + 1, [], _, _ => rfl
  | n + 1, op :: b, read, out => by
    unfold readOps applyOps offsetPlaces lengthPlaces
    split_ifs
    · cases readPlaces op.toNat [(0, 0), (1, 1), (2, 2), (3, 3)] b with
      | none => rfl
      | some r =>
        simp only [Option.bind_eq_bind, Option.bind_some]
        cases readPlaces op.toNat [(4, 0), (5, 1), (6, 2)] r.2 with
        | none => rfl
        | some =>
          simp only [Option.bind_some]
          split_ifs
          · rfl
          · exact readOps_out base n _ _ _
          · rfl
          · exact readOps_out base n _ _ _
    · rfl
    · exact readOps_out base n _ _ _
    · rfl

theorem readDelta_out (base delta : Bytes) : (readDelta base delta).2 = applyDelta base delta := by
  unfold readDelta applyDelta
  cases readUvarint 0 0 delta with
  | none => rfl
  | some r =>
    simp only [Option.bind_eq_bind, Option.bind_some]
    split_ifs
    · rfl
    · cases readUvarint 0 0 r.2 with
      | none => rfl
      | some r' =>
        simp only [Option.bind_some]
        split_ifs
        · rfl
        · rw [readOps_out]
          cases applyOps base r'.2.length r'.2 [] with
          | none => rfl
          | some =>
            simp only [Option.bind_some]
            split_ifs <;> rfl

theorem readOps_inside (base : Bytes) : ∀ (n : Nat) (b : Bytes) (read : List (Nat × Nat)) (out : Bytes),
    (∀ r ∈ read, r.1 + r.2 ≤ base.length) → ∀ r ∈ (readOps base n b read out).1, r.1 + r.2 ≤ base.length
  | 0, [], _, _, h => h
  | 0, _ :: _, _, _, h => h
  | n + 1, [], _, _, h => h
  | n + 1, op :: b, read, out, h => by
    unfold readOps
    split_ifs
    · cases readPlaces op.toNat offsetPlaces b with
      | none => exact h
      | some r =>
        dsimp only
        cases readPlaces op.toNat lengthPlaces r.2 with
        | none => exact h
        | some r' =>
          dsimp only
          obtain ⟨length, hlength⟩ : ∃ m, m = if r'.1 = 0 then 0x10000 else r'.1 := ⟨_, rfl⟩
          rw [← hlength]
          by_cases hout : base.length < r.1 + length
          · rw [if_pos hout]
            exact h
          · rw [if_neg hout]
            refine readOps_inside base n _ _ _ fun s hs => ?_
            rcases mem_append.1 hs with hs | hs
            · exact h s hs
            · rw [mem_singleton.1 hs]
              exact Nat.le_of_not_lt hout
    · exact h
    · exact readOps_inside base n _ _ _ h
    · exact h

theorem readDelta_inside (base delta : Bytes) : ∀ r ∈ (readDelta base delta).1, r.1 + r.2 ≤ base.length := by
  unfold readDelta
  split
  · exact forall_mem_nil _
  · split_ifs
    · exact forall_mem_nil _
    · split
      · exact forall_mem_nil _
      · split_ifs
        · exact forall_mem_nil _
        · exact readOps_inside base _ _ _ _ (forall_mem_nil _)

def resultSize (delta : Bytes) : Nat :=
  ((readUvarint 0 0 delta).bind fun r => readUvarint 0 0 r.2).elim 0 Prod.fst

theorem applyDelta_size {base delta out : Bytes} (hd : applyDelta base delta = .ok out) :
    out.length = resultSize delta ∧ out.length ≤ maxUnpackedPush := by
  rw [← readDelta_out] at hd
  unfold readDelta at hd
  unfold resultSize
  split at hd
  · cases hd
  · rename_i baseSize b hbase
    rw [hbase, Option.bind_some]
    split_ifs at hd
    split at hd
    · cases hd
    · rename_i size ops hsize
      rw [hsize]
      split_ifs at hd with hmax
      dsimp only at hd
      split at hd
      · cases hd
      · split_ifs at hd with hlen
        cases hd
        exact ⟨hlen, by rw [hlen]; exact Nat.le_of_not_lt hmax⟩

/-! ## Round trips -/

/-- **What git writes of a header, of a distance and of a delta is read back**, the delta as far as a push may hold what it
rebuilds: one that rebuilds more is refused, whoever wrote it. -/
theorem decoding_undoes_encoding :
    (∀ (kind size : Nat) (rest : Bytes), kind < 8 → size < 2 ^ 53 →
      entryHeader (encodeHeader kind size ++ rest) = .ok (kind, size, rest)) ∧
    (∀ (back : Nat) (rest : Bytes), back < 2 ^ 48 → ofsDeltaDistance (encodeDistance back ++ rest) = .ok (back, rest)) ∧
    (∀ (most : Nat) (base : Bytes) (is : List Instruction), 0 < most → most < 2 ^ 24 → base.length < 2 ^ 63 →
      (∀ i ∈ is, i.Inside most base) → (rebuild base is).length ≤ maxUnpackedPush →
      applyDelta base (encodeDelta most base is) = .ok (rebuild base is) ∧
        ∀ r ∈ (readDelta base (encodeDelta most base is)).1, r.1 + r.2 ≤ base.length) ∧
    (∀ (most : Nat) (base : Bytes) (is : List Instruction), maxUnpackedPush < (rebuild base is).length →
      applyDelta base (encodeDelta most base is) = .error .deltaDoesNotFit) ∧
    ∀ base delta out : Bytes, applyDelta base delta = .ok out → out.length ≤ maxUnpackedPush := by
  refine ⟨fun kind size rest hkind hsize => ?_, fun back rest hback => ofsDeltaDistance_encodeDistance rest hback, ?_,
    fun most base is hlong => applyDelta_refused hlong, fun base delta out h => (applyDelta_size h).2⟩
  · exact entryHeader_encodeHeader rest hkind (hsize.trans (by decide))
  · intro most base is hmost hfits hbase hin hfit
    exact ⟨applyDelta_encodeDelta hmost hfits hbase hin hfit, readDelta_inside base _⟩

theorem small_decoding :
    entryHeader (encodeHeader 6 300 ++ [9]) = .ok (6, 300, [9]) ∧
    ofsDeltaDistance (encodeDistance 300 ++ [9]) = .ok (300, [9]) ∧
    applyDelta [1, 2, 3] (encodeDelta 0x10000 [1, 2, 3] [.copy 1 2, .insert [7]]) = .ok [2, 3, 7] := by
  obtain ⟨hheader, hdistance, hdelta, -, -⟩ := decoding_undoes_encoding
  refine ⟨hheader 6 300 [9] (by decide) (by decide), hdistance 300 [9] (by decide), ?_⟩
  refine (hdelta 0x10000 [1, 2, 3] [.copy 1 2, .insert [7]] (by decide) (by decide) (by decide) ?_ (by decide)).1
  rw [forall_mem_cons, forall_mem_singleton]
  exact ⟨⟨by decide, by decide, by decide⟩, cons_ne_nil _ _⟩

theorem length_rebuild_copies (base : Bytes) (n : Nat) :
    (rebuild base (List.replicate n (.copy 0 base.length))).length = n * base.length := by
  unfold rebuild
  rw [length_flatMap, map_replicate, sum_replicate]
  simp [Instruction.adds]

/-- **A delta of 8193 copies of its base is refused**, as it rebuilds more than 512 MiB. -/
theorem large_delta_refused : ¬ ∀ (most : Nat) (base : Bytes) (is : List Instruction), 0 < most → most < 2 ^ 24 →
    base.length < 2 ^ 63 → (∀ i ∈ is, i.Inside most base) →
      applyDelta base (encodeDelta most base is) = .ok (rebuild base is) := by
  intro h
  obtain ⟨base, hbase⟩ : ∃ b : Bytes, b.length = 0x10000 := ⟨List.replicate 0x10000 0, length_replicate⟩
  have hlen := length_rebuild_copies base 8193
  rw [hbase] at hlen
  have hback := h 0x10000 base (List.replicate 8193 (.copy 0 0x10000)) (by decide) (by decide) (by omega) fun i hi => by
    rw [eq_of_mem_replicate hi]
    exact ⟨by decide, by omega, by decide⟩
  rw [applyDelta_refused (by rw [hlen]; decide)] at hback
  cases hback

end Git
end Armature
