import Armature.GoUnicode
import Armature.Lapsing
import Mathlib.Data.List.Nodup
import Mathlib.Order.Fin.Basic
import Mathlib.Tactic.Ring
/-!
# Freshness — the position a session's reads must have (`freshness/freshness.go`)

Two trackers keep, for each key, the greatest position noted and when it lapses: a map under a lock, and a Redis key with an
expiry.  Both are the register of `Lapsing`.  Moments are the tracker's clock: nanoseconds in memory, milliseconds in Redis.
-/
namespace Armature
namespace Fresh

open List
open Go (Text)
open Lapsing (Held live)

abbrev Lsn := Fin (2 ^ 64)

/-- One call of `Note`. -/
structure Note where
  key : Text
  lsn : Lsn
  time : Int

/-! ## Memory -/

structure Entry where
  lsn : Lsn
  exp : Int

structure Entries where
  rows : List (Text × Entry)
  apart : (rows.map Prod.fst).Nodup

def noEntries : Entries := ⟨[], nodup_nil⟩

def lookup (entries : Entries) (key : Text) : Option Entry := (entries.rows.find? fun e => e.1 = key).map Prod.snd

theorem fst_sublist {rows rows' : List (Text × Entry)} (h : rows'.Sublist rows) : (rows'.map Prod.fst).Sublist (rows.map Prod.fst) :=
  h.map Prod.fst

def store (entries : Entries) (key : Text) (e : Entry) : Entries where
  rows := (key, e) :: entries.rows.filter fun r => r.1 ≠ key
  apart := by
    rw [map_cons, nodup_cons]
    refine ⟨fun hmem => ?_, entries.apart.sublist (fst_sublist filter_sublist)⟩
    obtain ⟨r, hr, hk⟩ := mem_map.1 hmem
    simpa [hk] using (mem_filter.1 hr).2

def sweepLocked (now : Int) (entries : Entries) : Entries :=
  if entries.rows.length < 1024 then entries
  else ⟨entries.rows.filter fun r => now < r.2.exp, entries.apart.sublist (fst_sublist filter_sublist)⟩

def memoryNote (ttl : Int) (entries : Entries) (n : Note) : Entries :=
  if n.key = [] ∨ n.lsn = 0 then entries
  else
    match lookup entries n.key with
    | some cur =>
      if n.time < cur.exp ∧ n.lsn ≤ cur.lsn then entries
      else sweepLocked n.time (store entries n.key ⟨n.lsn, n.time + ttl⟩)
    | none => sweepLocked n.time (store entries n.key ⟨n.lsn, n.time + ttl⟩)

def memoryRequired (entries : Entries) (key : Text) (now : Int) : Lsn :=
  if key = [] then 0
  else
    match lookup entries key with
    | some e => if now < e.exp then e.lsn else 0
    | none => 0

def memoryAfter (ttl : Int) (ns : List Note) : Entries := ns.foldl (memoryNote ttl) noEntries

/-! ## Redis -/

abbrev Redis := Text → Option (Text × Int)

def get (redis : Redis) (now : Int) (key : Text) : Option Text :=
  match redis key with
  | some (v, last) => if last < now then none else some v
  | none => none

def set (redis : Redis) (now : Int) (key value : Text) (ms : Int) : Redis :=
  fun k => if k = key then some (value, now + ms) else redis k

def atLeast (cur new : Text) : Bool := decide (new.length < cur.length) || (decide (cur.length = new.length) && decide (new ≤ cur))

def raiseScript (redis : Redis) (now : Int) (key pos : Text) (ms : Int) : Redis :=
  match get redis now key with
  | some cur => if atLeast cur pos then redis else set redis now key pos ms
  | none => set redis now key pos ms

def keyPrefix : Text := "fresh:".toList

def minTTLMillis : Int := 1

def milliseconds (ttl : Int) : Int := ttl.tdiv 1000000

def redisNote (ttl : Int) (redis : Redis) (n : Note) : Redis :=
  if n.key = [] ∨ n.lsn = 0 then redis
  else raiseScript redis n.time (keyPrefix ++ n.key) (Go.itoa n.lsn) (max (milliseconds ttl) minTTLMillis)

def uint64 (s : Text) : Option Lsn :=
  if s ≠ [] ∧ s.all Go.isAsciiDigit then if h : Go.atoi s < 2 ^ 64 then some ⟨Go.atoi s, h⟩ else none else none

def redisRequired (redis : Redis) (key : Text) (now : Int) : Lsn :=
  if key = [] then 0
  else
    match get redis now (keyPrefix ++ key) with
    | some v => (uint64 v).getD 0
    | none => 0

def redisAfter (ttl : Int) (ns : List Note) : Redis := ns.foldl (redisNote ttl) fun _ => none

/-! ## What is asked of a tracker -/

def StaysRequired (within : Int → Int → Prop) (required : List Note → Text → Int → Lsn) (key : Text) (ns : List Note) : Prop :=
  ∀ pre, pre <+: ns → ∀ t, (∀ n ∈ pre, n.time ≤ t) → ∀ n ∈ pre, n.key = key → within n.time t → n.lsn ≤ required pre key t

def asks (key : Text) (n : Note) : Option Lsn := if n.key = key ∧ n.lsn ≠ 0 then some n.lsn else none

/-! ## The map is the register -/

variable {key : Text} {n : Note} {cur : Option (Held Lsn)} {ns : List Note}

theorem lookup_iff {entries : Entries} {e : Entry} : lookup entries key = some e ↔ (key, e) ∈ entries.rows := by
  unfold lookup
  rw [Option.map_eq_some_iff]
  constructor
  · rintro ⟨r, hr, rfl⟩
    have hk : r.1 = key := by simpa using List.find?_some hr
    exact hk ▸ mem_of_find?_eq_some hr
  · intro hmem
    cases hf : entries.rows.find? fun r => r.1 = key with
    | none => exact absurd (List.find?_eq_none.1 hf _ hmem) (by simp)
    | some r =>
      have hk : r.1 = key := by simpa using List.find?_some hf
      have heq : r = (key, e) := inj_on_of_nodup_map entries.apart (mem_of_find?_eq_some hf) hmem hk
      exact ⟨r, rfl, by rw [heq]⟩

def heldIn (entries : Entries) (key : Text) : Option (Held Lsn) := (lookup entries key).map fun e => ⟨e.lsn, e.exp⟩

theorem heldIn_iff {entries : Entries} {h : Held Lsn} :
    heldIn entries key = some h ↔ (key, Entry.mk h.value h.till) ∈ entries.rows := by
  unfold heldIn
  rw [Option.map_eq_some_iff]
  constructor
  · rintro ⟨e, he, rfl⟩
    exact lookup_iff.1 he
  · intro hmem
    exact ⟨_, lookup_iff.2 hmem, rfl⟩

theorem heldIn_store (entries : Entries) (key other : Text) (e : Entry) :
    heldIn (store entries key e) other = if other = key then some ⟨e.lsn, e.exp⟩ else heldIn entries other := by
  apply Option.ext
  intro h
  rw [heldIn_iff]
  by_cases hk : other = key
  · subst hk
    rw [if_pos rfl]
    simp only [store, mem_cons, mem_filter, Prod.mk.injEq, true_and, ne_eq, decide_not, Bool.not_eq_eq_eq_not,
      Bool.not_true, decide_eq_false_iff_not, not_true_eq_false, and_false, or_false, Option.some.injEq]
    constructor
    · rintro rfl
      rfl
    · rintro rfl
      rfl
  · rw [if_neg hk, heldIn_iff]
    simp [store, hk]

theorem heldIn_sweep (now : Int) (entries : Entries) (key : Text) :
    Lapsing.Alike now (heldIn (sweepLocked now entries) key) (heldIn entries key) := by
  intro t ht
  unfold sweepLocked
  split
  · rfl
  · apply Option.ext
    intro h
    rw [Lapsing.live_some, Lapsing.live_some, heldIn_iff, heldIn_iff]
    simp only [mem_filter, decide_eq_true_eq]
    constructor
    · rintro ⟨⟨hmem, -⟩, hlt⟩
      exact ⟨hmem, hlt⟩
    · rintro ⟨hmem, hlt⟩
      exact ⟨⟨hmem, lt_of_le_of_lt ht hlt⟩, hlt⟩

theorem asks_some {p : Lsn} : asks key n = some p ↔ n.key = key ∧ n.lsn ≠ 0 ∧ n.lsn = p := by
  unfold asks
  split
  · rename_i h
    simp [h.1, h.2]
  · rename_i h
    simp only [reduceCtorEq, false_iff]
    rintro ⟨hk, hl, -⟩
    exact h ⟨hk, hl⟩

theorem asks_of_ignored (hkey : key ≠ []) (h : n.key = [] ∨ n.lsn = 0) : asks key n = none := by
  unfold asks
  refine if_neg fun hc => ?_
  rcases h with hk | hl
  · exact hkey (hc.1 ▸ hk)
  · exact hc.2 hl

theorem memoryNote_eq (ttl : Int) (entries : Entries) (hk : n.key ≠ []) (hl : n.lsn ≠ 0) :
    memoryNote ttl entries n =
      if ∃ h, live n.time (heldIn entries n.key) = some h ∧ n.lsn ≤ h.value then entries
      else sweepLocked n.time (store entries n.key ⟨n.lsn, n.time + ttl⟩) := by
  unfold memoryNote heldIn
  rw [if_neg (by simp [hk, hl])]
  cases lookup entries n.key with
  | none => simp
  | some => simp only [Option.map_some, Lapsing.live_some, Option.some.injEq, and_assoc, exists_eq_left']

theorem heldIn_note (ttl : Int) (entries : Entries) (hkey : key ≠ []) (n : Note)
    (h : Lapsing.Alike n.time (heldIn entries key) cur) :
    Lapsing.Alike n.time (heldIn (memoryNote ttl entries n) key) (Lapsing.note Note.time (asks key) ttl cur n) := by
  by_cases hnothing : n.key = [] ∨ n.lsn = 0
  · unfold memoryNote Lapsing.note
    rw [if_pos hnothing, asks_of_ignored hkey hnothing]
    exact h
  · push Not at hnothing
    rw [memoryNote_eq ttl entries hnothing.1 hnothing.2]
    unfold Lapsing.note
    by_cases hk : n.key = key
    · rw [asks_some.2 ⟨hk, hnothing.2, rfl⟩]
      refine fun t ht => Eq.trans ?_ (h.raise t ht)
      subst hk
      split
      · rename_i hkept
        obtain ⟨g, hg, hle⟩ := hkept
        rw [Lapsing.raise_kept hg hle]
      · rename_i hkept
        rw [Lapsing.raise_written fun g hg => not_le.1 fun hle => hkept ⟨g, hg, hle⟩, heldIn_sweep _ _ _ t ht, heldIn_store,
          if_pos rfl]
    · have hnone : asks key n = none := by
        unfold asks
        exact if_neg fun hc => hk hc.1
      rw [hnone]
      split
      · exact h
      · intro t ht
        rw [heldIn_sweep _ _ _ t ht, heldIn_store, if_neg fun heq => hk heq.symm]
        exact h t ht

theorem heldIn_after (ttl : Int) (hkey : key ≠ []) (ns : List Note) (hs : ns.Pairwise fun m n => m.time ≤ n.time)
    {t : Int} (ht : ∀ n ∈ ns, n.time ≤ t) :
    Lapsing.Alike t (heldIn (memoryAfter ttl ns) key) (Lapsing.after Note.time (asks key) ttl ns) := by
  induction ns using List.reverseRecOn generalizing t with
  | nil => exact fun _ _ => rfl
  | append_singleton pre n ih =>
    obtain ⟨hpre, -, hlast⟩ := pairwise_append.1 hs
    have hn := ih hpre fun m hm => hlast m hm n (mem_singleton_self n)
    rw [Lapsing.after_concat]
    unfold memoryAfter
    rw [foldl_append]
    exact (heldIn_note ttl _ hkey n hn).later (ht n (by simp))

/-! ## The key in Redis is the register -/

theorem foldl_digits (ds : Text) : ∀ n : Nat,
    ds.foldl (fun n c => 10 * n + (c.toNat - '0'.toNat)) n = n * 10 ^ ds.length + Go.atoi ds := by
  unfold Go.atoi
  induction ds with
  | nil => intro n; simp
  | cons c ds ih =>
    intro n
    rw [foldl_cons, foldl_cons, ih, ih (10 * 0 + _), length_cons, pow_succ]
    ring

theorem atoi_cons (c : Char) (ds : Text) : Go.atoi (c :: ds) = (c.toNat - '0'.toNat) * 10 ^ ds.length + Go.atoi ds := by
  have h := foldl_digits ds (10 * 0 + (c.toNat - '0'.toNat))
  unfold Go.atoi at h ⊢
  rw [foldl_cons, h]
  ring

theorem digit_value {c : Char} (h : Go.isAsciiDigit c = true) : '0'.toNat ≤ c.toNat ∧ c.toNat ≤ '0'.toNat + 9 := by
  have h' : '0' ≤ c ∧ c ≤ '9' := of_decide_eq_true h
  exact ⟨UInt32.le_iff_toNat_le.1 h'.1, UInt32.le_iff_toNat_le.1 h'.2⟩

theorem atoi_lt {ds : Text} (h : ∀ c ∈ ds, Go.isAsciiDigit c = true) : Go.atoi ds < 10 ^ ds.length := by
  induction ds with
  | nil => simp [Go.atoi]
  | cons c ds ih =>
    have hc := digit_value (h c mem_cons_self)
    have hd := ih fun d hd => h d (mem_cons_of_mem _ hd)
    rw [atoi_cons, length_cons, pow_succ]
    have hv : c.toNat - '0'.toNat ≤ 9 := by omega
    have := Nat.mul_le_mul_right (10 ^ ds.length) hv
    omega

theorem text_cons_le {c d : Char} {a b : Text} : c :: a ≤ d :: b ↔ c < d ∨ c = d ∧ a ≤ b := by
  rw [le_iff_lt_or_eq, le_iff_lt_or_eq, cons_lt_cons_iff, List.cons.injEq]
  tauto

theorem digits_le_iff : ∀ {a b : Text}, (∀ c ∈ a, Go.isAsciiDigit c = true) → (∀ c ∈ b, Go.isAsciiDigit c = true) →
    a.length = b.length → (a ≤ b ↔ Go.atoi a ≤ Go.atoi b)
  | [], [], _, _, _ => by simp
  | c :: a, d :: b, ha, hb, hlen => by
    have hlen' : a.length = b.length := by simpa using hlen
    have ha' : ∀ x ∈ a, Go.isAsciiDigit x = true := fun x hx => ha x (mem_cons_of_mem _ hx)
    have hb' : ∀ x ∈ b, Go.isAsciiDigit x = true := fun x hx => hb x (mem_cons_of_mem _ hx)
    have hc := digit_value (ha c mem_cons_self)
    have hd := digit_value (hb d mem_cons_self)
    have hlt : c < d ↔ c.toNat < d.toNat := UInt32.lt_iff_toNat_lt
    have heq : c = d ↔ c.toNat = d.toNat := Char.toNat_inj.symm
    rw [text_cons_le, digits_le_iff ha' hb' hlen', atoi_cons, atoi_cons, hlen', hlt, heq]
    have hA := atoi_lt ha'
    have hB := atoi_lt hb'
    rw [hlen'] at hA
    rcases lt_trichotomy c.toNat d.toNat with h | h | h
    · have hstep : (c.toNat - '0'.toNat + 1) * 10 ^ b.length ≤ (d.toNat - '0'.toNat) * 10 ^ b.length :=
        Nat.mul_le_mul_right _ (by omega)
      rw [Nat.add_mul, Nat.one_mul] at hstep
      constructor <;> intro _ <;> omega
    · rw [h]
      constructor <;> intro _ <;> omega
    · have hstep : (d.toNat - '0'.toNat + 1) * 10 ^ b.length ≤ (c.toNat - '0'.toNat) * 10 ^ b.length :=
        Nat.mul_le_mul_right _ (by omega)
      rw [Nat.add_mul, Nat.one_mul] at hstep
      constructor <;> intro _ <;> omega

theorem itoa_length_le {m n : Nat} (h : m ≤ n) : (Go.itoa m).length ≤ (Go.itoa n).length := by
  have hpos : 0 < (Go.itoa n).length := length_pos_iff.2 (Go.itoa_ne_nil n)
  have hn := (Nat.length_toDigits_le_iff (by decide) hpos).1 (le_refl (Nat.toDigits 10 n).length)
  exact (Nat.length_toDigits_le_iff (by decide) hpos).2 (lt_of_le_of_lt h hn)

theorem atLeast_itoa (m n : Nat) : atLeast (Go.itoa m) (Go.itoa n) = decide (n ≤ m) := by
  have hle : (Go.itoa m).length = (Go.itoa n).length → (Go.itoa n ≤ Go.itoa m ↔ n ≤ m) := fun hlen => by
    rw [digits_le_iff (Go.itoa_digits n) (Go.itoa_digits m) hlen.symm, Go.atoi_itoa, Go.atoi_itoa]
  have hshort : m < n → (Go.itoa m).length ≤ (Go.itoa n).length := fun h => itoa_length_le h.le
  have hlong : n ≤ m → (Go.itoa n).length ≤ (Go.itoa m).length := itoa_length_le
  unfold atLeast
  rw [Bool.eq_iff_iff]
  simp only [Bool.or_eq_true, Bool.and_eq_true, decide_eq_true_eq]
  constructor
  · rintro (h | ⟨hlen, h⟩)
    · by_contra hlt
      have := hshort (not_le.1 hlt)
      omega
    · exact (hle hlen).1 h
  · intro h
    rcases Nat.lt_or_ge (Go.itoa n).length (Go.itoa m).length with hlt | hge
    · exact Or.inl hlt
    · have hlen : (Go.itoa m).length = (Go.itoa n).length := le_antisymm hge (hlong h)
      exact Or.inr ⟨hlen, (hle hlen).2 h⟩

theorem uint64_itoa (p : Lsn) : uint64 (Go.itoa p) = some p := by
  unfold uint64
  rw [if_pos ⟨Go.itoa_ne_nil p, all_eq_true.2 (Go.itoa_digits p)⟩]
  simp only [Go.atoi_itoa, p.isLt, dif_pos]

def redisLife (ttl : Int) : Int := max (milliseconds ttl) minTTLMillis + 1

def redisSpan (ttl : Int) : Int := (ttl + 999999) / 1000000

def kept (h : Held Lsn) : Text × Int := (Go.itoa h.value, h.till - 1)

theorem get_kept {redis : Redis} (h : redis key = cur.map kept) (now : Int) :
    get redis now key = (live now cur).map fun h => Go.itoa h.value := by
  unfold get
  rw [h]
  cases cur with
  | none => rfl
  | some g =>
    simp only [Option.map_some, kept, live]
    by_cases hlt : now < g.till
    · rw [if_neg (by omega), if_pos hlt]
      rfl
    · rw [if_pos (by omega), if_neg hlt]
      rfl

theorem redis_note (ttl : Int) (redis : Redis) (hkey : key ≠ []) (n : Note)
    (h : redis (keyPrefix ++ key) = cur.map kept) :
    redisNote ttl redis n (keyPrefix ++ key) = (Lapsing.note Note.time (asks key) (redisLife ttl) cur n).map kept := by
  by_cases hnothing : n.key = [] ∨ n.lsn = 0
  · unfold redisNote Lapsing.note
    rw [if_pos hnothing, asks_of_ignored hkey hnothing]
    exact h
  · push Not at hnothing
    have hset : ∀ k, set redis n.time (keyPrefix ++ k) (Go.itoa n.lsn) (max (milliseconds ttl) minTTLMillis) (keyPrefix ++ k) =
        some (kept ⟨n.lsn, n.time + redisLife ttl⟩) := fun k => by
      unfold set
      rw [if_pos rfl]
      simp only [kept, redisLife]
      congr 2
      omega
    unfold redisNote raiseScript Lapsing.note
    rw [if_neg (by simp [hnothing.1, hnothing.2])]
    by_cases hk : n.key = key
    · subst hk
      rw [asks_some.2 ⟨rfl, hnothing.2, rfl⟩, get_kept h]
      dsimp only
      unfold Lapsing.raise
      cases live n.time cur with
      | none => exact hset n.key
      | some g =>
        simp only [Option.map_some, atLeast_itoa, decide_eq_true_eq]
        by_cases hle : n.lsn ≤ g.value
        · rw [if_pos hle, if_pos (show (n.lsn : Nat) ≤ g.value from hle)]
          exact h
        · rw [if_neg hle, if_neg (show ¬ (n.lsn : Nat) ≤ g.value from hle)]
          exact hset n.key
    · have hnone : asks key n = none := by
        unfold asks
        exact if_neg fun hc => hk hc.1
      have hother : ∀ v ms, set redis n.time (keyPrefix ++ n.key) v ms (keyPrefix ++ key) = redis (keyPrefix ++ key) := fun v ms =>
        if_neg fun heq => hk (append_cancel_left heq).symm
      rw [hnone]
      cases get redis n.time (keyPrefix ++ n.key) with
      | none => exact (hother _ _).trans h
      | some =>
        dsimp only
        split
        · exact h
        · exact (hother _ _).trans h

theorem redis_after (ttl : Int) (hkey : key ≠ []) (ns : List Note) :
    redisAfter ttl ns (keyPrefix ++ key) = (Lapsing.after Note.time (asks key) (redisLife ttl) ns).map kept := by
  induction ns using List.reverseRecOn with
  | nil => rfl
  | append_singleton pre n ih =>
    rw [Lapsing.after_concat]
    unfold redisAfter at ih ⊢
    rw [foldl_append]
    exact redis_note ttl _ hkey n ih

/-! ## What a tracker keeps -/

theorem staysRequired_iff {within : Int → Int → Prop} {required : List Note → Text → Int → Lsn}
    (life span : Int) (hwithin : ∀ s t, within s t ↔ t < s + span)
    (hrequired : ∀ pre, pre <+: ns → ∀ t, (∀ n ∈ pre, n.time ≤ t) → required pre key t =
      ((live t (Lapsing.after Note.time (asks key) life pre)).map Held.value).getD 0) :
    StaysRequired within required key ns ↔ Lapsing.Keeps Note.time (asks key) life span ns := by
  constructor
  · intro h pre hpre t ht n hn p hp hlt
    obtain ⟨hk, hl, rfl⟩ := asks_some.1 hp
    have hle := h pre hpre t ht n hn hk ((hwithin _ _).2 hlt)
    rw [hrequired pre hpre t ht] at hle
    cases hlive : live t (Lapsing.after Note.time (asks key) life pre) with
    | none =>
      rw [hlive] at hle
      exact absurd (Fin.le_zero_iff.1 hle) hl
    | some h =>
      rw [hlive] at hle
      exact ⟨h, rfl, hle⟩
  · intro h pre hpre t ht n hn hk hw
    by_cases hl : n.lsn = 0
    · rw [hl]
      exact Fin.zero_le _
    · obtain ⟨g, hg, hle⟩ := h pre hpre t ht n hn n.lsn (asks_some.2 ⟨hk, hl, rfl⟩) ((hwithin _ _).1 hw)
      rw [hrequired pre hpre t ht, hg]
      exact hle

theorem staysRequired_empty {within : Int → Int → Prop} {required : List Note → Text → Int → Lsn} {span : Int}
    (hs : ns.Pairwise fun m n => m.time ≤ n.time) (hwithin : ∀ s t, within s t ↔ t < s + span)
    (hrequired : ∀ pre t, required pre [] t = 0) :
    StaysRequired within required [] ns ↔ (0 < span → ∀ n ∈ ns, n.key = [] → n.lsn = 0) := by
  constructor
  · intro h hspan n hn hk
    obtain ⟨pre, post, rfl⟩ := append_of_mem hn
    have htimes : ∀ m ∈ pre ++ [n], m.time ≤ n.time := by
      intro m hm
      rcases mem_append.1 hm with hm | hm
      · exact (pairwise_append.1 hs).2.2 m hm n mem_cons_self
      · rw [mem_singleton.1 hm]
    have hle := h (pre ++ [n]) ⟨post, by simp⟩ n.time htimes n (by simp) hk ((hwithin _ _).2 (by omega))
    rw [hrequired] at hle
    exact Fin.le_zero_iff.1 hle
  · intro h pre hpre t ht n hn hk hw
    have hlt := (hwithin _ _).1 hw
    have := ht n hn
    rw [h (by omega) n (hpre.subset hn) hk]
    exact Fin.zero_le _

def LivesOn (life span : Int) (key : Text) (ns : List Note) : Prop :=
  (key = [] → 0 < span → ∀ n ∈ ns, n.key = [] → n.lsn = 0) ∧ (key ≠ [] → Lapsing.Outlasts Note.time (asks key) life span ns)

theorem memory_stays {ttl : Int} (hs : ns.Pairwise fun m n => m.time ≤ n.time) :
    StaysRequired (fun s t => t < s + ttl) (fun pre => memoryRequired (memoryAfter ttl pre)) key ns ↔ LivesOn ttl ttl key ns := by
  unfold LivesOn
  by_cases hkey : key = []
  · subst hkey
    rw [staysRequired_empty hs (fun _ _ => Iff.rfl) fun _ _ => rfl]
    simp
  · rw [staysRequired_iff ttl ttl (fun _ _ => Iff.rfl) fun pre hpre t ht => ?_, Lapsing.keeps_iff le_rfl hs]
    · simp [hkey]
    · rw [← heldIn_after ttl hkey pre (hs.sublist hpre.sublist) ht t le_rfl]
      unfold memoryRequired heldIn
      rw [if_neg hkey]
      cases lookup (memoryAfter ttl pre) key with
      | none => rfl
      | some =>
        simp only [Option.map_some, live]
        split <;> rfl

theorem redisSpan_iff (ttl s t : Int) : (t - s) * 1000000 < ttl ↔ t < s + redisSpan ttl := by
  unfold redisSpan
  omega

theorem redisSpan_le (ttl : Int) : redisSpan ttl ≤ redisLife ttl := by
  unfold redisSpan redisLife milliseconds minTTLMillis
  rcases Int.le_total 0 ttl with h | h
  · rw [Int.tdiv_eq_ediv_of_nonneg h]
    omega
  · omega

theorem redis_stays {ttl : Int} (hs : ns.Pairwise fun m n => m.time ≤ n.time) :
    StaysRequired (fun s t => (t - s) * 1000000 < ttl) (fun pre => redisRequired (redisAfter ttl pre)) key ns ↔
      LivesOn (redisLife ttl) (redisSpan ttl) key ns := by
  unfold LivesOn
  by_cases hkey : key = []
  · subst hkey
    rw [staysRequired_empty hs (redisSpan_iff ttl) fun _ _ => rfl]
    simp
  · rw [staysRequired_iff (redisLife ttl) (redisSpan ttl) (redisSpan_iff ttl) fun pre hpre t ht => ?_,
      Lapsing.keeps_iff (redisSpan_le ttl) hs]
    · simp [hkey]
    · unfold redisRequired
      rw [if_neg hkey, get_kept (redis_after ttl hkey pre)]
      cases live t (Lapsing.after Note.time (asks key) (redisLife ttl) pre) with
      | none => rfl
      | some =>
        simp only [Option.map_some, uint64_itoa]

/-- **A key's noted positions stay required, exactly when no note is passed over for an entry that lapses sooner**, in memory
and in Redis. -/
theorem own_writes_stay (hs : ns.Pairwise fun m n => m.time ≤ n.time) (ttl : Int) (key : Text) :
    (StaysRequired (fun s t => t < s + ttl) (fun pre => memoryRequired (memoryAfter ttl pre)) key ns ↔ LivesOn ttl ttl key ns) ∧
      (StaysRequired (fun s t => (t - s) * 1000000 < ttl) (fun pre => redisRequired (redisAfter ttl pre)) key ns ↔
        LivesOn (redisLife ttl) (redisSpan ttl) key ns) :=
  ⟨memory_stays hs, redis_stays hs⟩

def session : Text := "s".toList

def passedOver : List Note := [⟨session, 10, 0⟩, ⟨session, 5, 0⟩]

theorem livesOn_passedOver {life span : Int}
    (hfirst : ∀ h, live 0 (Lapsing.after Note.time (asks session) life [⟨session, 10, 0⟩]) = some h → span ≤ h.till) :
    LivesOn life span session passedOver := by
  refine ⟨fun h => absurd h (by decide), fun _ pre n hpre p hp h hl _ => ?_⟩
  cases pre with
  | nil => cases hl
  | cons first pre =>
    obtain ⟨rfl, hrest⟩ := cons_prefix_cons.1 hpre
    cases pre with
    | nil =>
      obtain ⟨rfl, -⟩ := cons_prefix_cons.1 hrest
      rw [Int.zero_add]
      exact hfirst h hl
    | cons =>
      have hlen := hrest.length_le
      simp at hlen

theorem own_write_stays :
    (StaysRequired (fun s t => t < s + 5) (fun pre => memoryRequired (memoryAfter 5 pre)) session passedOver) ∧
      StaysRequired (fun s t => (t - s) * 1000000 < 5000000) (fun pre => redisRequired (redisAfter 5000000 pre)) session passedOver := by
  have hs : passedOver.Pairwise fun m n => m.time ≤ n.time := by decide
  refine ⟨(own_writes_stay hs 5 session).1.2 (livesOn_passedOver fun h hl => ?_),
    (own_writes_stay hs 5000000 session).2.2 (livesOn_passedOver fun h hl => ?_)⟩
  · obtain rfl : ⟨10, 5⟩ = h := Option.some.inj hl
    decide
  · obtain rfl : ⟨10, redisLife 5000000⟩ = h := Option.some.inj hl
    decide

def lateNote : List Note := [⟨session, 10, 0⟩, ⟨session, 5, 4⟩]

/-- The late position lapses with the greater one, though its own lifetime has hardly begun. -/
theorem late_write_lapses :
    (¬ ∀ (ttl : Int) (key : Text) (ns : List Note), ns.Pairwise (fun m n => m.time ≤ n.time) →
        StaysRequired (fun s t => t < s + ttl) (fun pre => memoryRequired (memoryAfter ttl pre)) key ns) ∧
      ¬ ∀ (ttl : Int) (key : Text) (ns : List Note), ns.Pairwise (fun m n => m.time ≤ n.time) →
        StaysRequired (fun s t => (t - s) * 1000000 < ttl) (fun pre => redisRequired (redisAfter ttl pre)) key ns := by
  have hs : lateNote.Pairwise fun m n => m.time ≤ n.time := by decide
  have htimes : ∀ n ∈ lateNote, n.time ≤ 6 := by decide
  have hmem : (⟨session, 5, 4⟩ : Note) ∈ lateNote := mem_cons_of_mem _ mem_cons_self
  constructor
  · intro h
    have hle := h 5 session lateNote hs lateNote (prefix_refl _) 6 htimes ⟨session, 5, 4⟩ hmem rfl (by decide)
    exact absurd hle (by decide +kernel)
  · intro h
    have hle := h 5000000 session lateNote hs lateNote (prefix_refl _) 6 htimes ⟨session, 5, 4⟩ hmem rfl (by decide)
    exact absurd hle (by decide +kernel)

end Fresh
end Armature
