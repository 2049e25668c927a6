import Armature.NetAddr
import Mathlib.Data.List.Nodup
import Mathlib.Data.List.Perm.Subperm
/-!
# NetGuard — the addresses that somebody else chose (`netguard`)

`Check` judges a URL before anything is sent, and `guardedDial` what the transport makes of it.  Both read the operator's
list, but one reads the host as it is spelled, and the other as it is dialed (`Agrees`).  They agree on a host that is
dialed as it is spelled, and that is spelled as the operator lists it (`guard_agrees_iff`).
-/
namespace Armature
namespace Netguard

open List
open Go (Text Tables toLower lowerRune trimSpace isAscii isAsciiDigit)
open Netip

/-! ## What is not ours -/

/-- Unicode's cases, and `idna.Lookup.ToASCII`, which takes no colon in a name. -/
structure Platform where
  tables : Tables
  foreign : ∀ c, isAscii c = false → c ≠ 'İ' → c ≠ '\u212A' → isAscii (tables.lower c) = false
  settled : ∀ c, lowerRune tables (lowerRune tables c) = lowerRune tables c
  toASCII : Text → Option Text
  colon : ∀ s, ':' ∈ s → toASCII s = none

structure Url where
  https : Bool
  hostname : Text
  port : Text
  digits : ∀ c ∈ port, isAsciiDigit c = true
  noSlash : '/' ∉ hostname
  short : hostname.length < 2 ^ 63

/-! ## The operator's list -/

structure Allow where
  hosts : List Text
  prefixes : List Prefix

def readItem (u : Tables) (item : Text) : Allow :=
  if item = [] then ⟨[], []⟩
  else
    match parsePrefix item with
    | some range => ⟨[], [range.masked]⟩
    | none =>
      match parseAddr item with
      | some addr => ⟨[], [prefixFrom addr addr.bitLen]⟩
      | none =>
        -- A slash meant a range, and this one did not read as one.
        if '/' ∈ item then ⟨[], []⟩ else ⟨[toLower u item], []⟩

def parseAllow (u : Tables) (list : Text) : Allow :=
  let items := (list.splitOn ',').map fun item => readItem u (trimSpace item)
  ⟨items.flatMap Allow.hosts, items.flatMap Allow.prefixes⟩

def Allow.permits (allow : Allow) (addr : Addr) : Bool := allow.prefixes.any fun range => range.contains addr

def insideRanges : List Prefix :=
  [⟨.ofNat4 (100 * 2 ^ 24 + 64 * 2 ^ 16), 10⟩, ⟨.ofNat4 (169 * 2 ^ 24 + 254 * 2 ^ 16), 16⟩, ⟨.ofNat6 (0xfd00 * 2 ^ 112) [], 8⟩]

def reserved (addr : Addr) : Bool :=
  let addr := addr.unmap
  addr.isLoopback || addr.isPrivate || addr.isUnspecified || addr.isLinkLocalUnicast || addr.isLinkLocalMulticast ||
    addr.isMulticast || addr.isInterfaceLocalMulticast || insideRanges.any fun range => range.contains addr

/-! ## `Check` -/

def ipv6Unspecified : Addr := .ofNat6 0 []
def ipv4Zero : Addr := .ofNat4 0

def internetAddrs (found : List Addr) : List Addr :=
  let ips := found.map Addr.as16
  if ips = [ipv6Unspecified] then ips ++ [ipv4Zero.as16] else ips

def lookupNetIP (answer : Option (List Addr)) (host : Text) : Option (List Addr) :=
  if host = [] then none
  else
    match parseAddr host with
    | some addr => some (internetAddrs [addr])
    | none => answer.map internetAddrs

inductive Verdict where
  | accepted
  | notAnAddress
  | refused (host : Text)
  | unresolved (host : Text)
  deriving DecidableEq

def check (u : Tables) (allow : Allow) (answer : Option (List Addr)) (url : Url) : Verdict :=
  if url.hostname = [] then .notAnAddress
  else
    let host := toLower u url.hostname
    if host ∈ allow.hosts then .accepted
    else
      match parseAddr host with
      | some addr => if reserved addr && !allow.permits addr.unmap then .refused host else .accepted
      | none =>
        match lookupNetIP answer host with
        | none | some [] => .unresolved host
        | some found =>
          if found.any fun addr => !reserved addr.unmap || allow.permits addr.unmap then .accepted else .refused host

/-! ## The dialer -/

def joinHostPort (host port : Text) : Text := if ':' ∈ host then '[' :: host ++ ']' :: ':' :: port else host ++ ':' :: port

def splitHostPort (hostport : Text) : Option (Text × Text) :=
  if ':' ∉ hostport then none
  else
    let before := (hostport.reverse.dropWhile (· != ':')).tail.reverse
    let port := (hostport.reverse.takeWhile (· != ':')).reverse
    if hostport.head? = some '[' then
      let host := hostport.tail.takeWhile (· != ']')
      if before ≠ '[' :: host ++ [']'] ∨ '[' ∈ hostport.tail ∨ ']' ∈ port then none else some (host, port)
    else if ':' ∈ before ∨ '[' ∈ hostport ∨ ']' ∈ hostport then none
    else some (before, port)

def Url.portOf (url : Url) : Text :=
  if url.port ≠ [] then url.port else if url.https then ['4', '4', '3'] else ['8', '0']

def Url.ascii (p : Platform) (url : Url) : Text :=
  if url.hostname.all isAscii then url.hostname else (p.toASCII url.hostname).getD url.hostname

def Url.dialHost (p : Platform) (url : Url) : Option Text :=
  (splitHostPort (joinHostPort (url.ascii p) url.portOf)).map Prod.fst

inductive Dialed where
  | unreadable
  | byName (host : Text)
  | unresolved
  | tried (addrs : List Addr)

def attempts (allow : Allow) (connects : Addr → Bool) : List Addr → List Addr
  | [] => []
  | addr :: found =>
    if reserved addr.unmap && !allow.permits addr.unmap then attempts allow connects found
    else if connects addr.unmap then [addr.unmap]
    else addr.unmap :: attempts allow connects found

def guardedDial (u : Tables) (allow : Allow) (answer : Option (List Addr)) (connects : Addr → Bool) : Option Text → Dialed
  | none => .unreadable
  | some host =>
    if toLower u host ∈ allow.hosts then .byName host
    else
      match lookupNetIP answer host with
      | none => .unresolved
      | some found => .tried (attempts allow connects found)

/-! ## What the two have to say to each other -/

def Dialed.Tries : Dialed → Prop
  | .byName _ => True
  | .tried addrs => addrs ≠ []
  | _ => False

def Dialed.Guarded (u : Tables) (allow : Allow) : Dialed → Prop
  | .byName host => toLower u host ∈ allow.hosts
  | .tried addrs => ∀ addr ∈ addrs, reserved addr = true → allow.permits addr = true
  | _ => True

def Agrees (p : Platform) (url : Url) : Prop :=
  ∀ (list : Text) (answer : Option (List Addr)) (connects : Addr → Bool),
    let checked (list : Text) := check p.tables (parseAllow p.tables list) answer url
    let dialed (list : Text) := guardedDial p.tables (parseAllow p.tables list) answer connects (url.dialHost p)
    (checked list = .accepted ↔ (dialed list).Tries) ∧ (dialed list).Guarded p.tables (parseAllow p.tables list) ∧
      ∀ host, checked list = .refused host →
        checked (list ++ ',' :: host) = .accepted ∧ (dialed (list ++ ',' :: host)).Tries

def Itemized (text : Text) (addr : Addr) : Prop := ∃ item ∈ text.splitOn ',', (parseAddr (trimSpace item)).map Addr.bare = some addr

def Plain (p : Platform) (url : Url) : Prop :=
  let host := toLower p.tables url.hostname
  url.hostname = [] ∨ (url.dialHost p).map (toLower p.tables) = some host ∧
    match parseAddr host with
    | some addr => reserved addr.bare = true →
      addr.bare ≠ ipv6Unspecified ∧ addr.unmap = addr.bare.unmap ∧ Itemized host addr.bare.unmap
    | none => ',' ∉ host ∧ trimSpace host = host

/-! ## Upper and lower case -/

variable {c : Char} {a : Addr} {u : Tables} {list host : Text} {url : Url} {allow : Allow} {k : Nat} {p : Platform}

theorem lowerRune_ascii (u : Tables) (hc : isAscii c = true) : lowerRune u c = lowerRune .ascii c := by
  unfold lowerRune
  rw [if_pos hc, if_pos hc]

def marks : List Char := ['.', ':', '%', '/', ',']

theorem lowered_ascii : ∀ n < 0x80, let c := Char.ofNat n
    let d := lowerRune .ascii c
    hexValue d = hexValue c ∧ isAsciiDigit d = isAsciiDigit c ∧ (isAsciiDigit c = true → d = c) ∧
      (marks.all fun m => decide (d = m) == decide (c = m)) = true := by
  decide

theorem lower_ascii_ne (p : Platform) (hc : isAscii c = false) :
    lowerRune p.tables c = 'i' ∨ lowerRune p.tables c = 'k' ∨ isAscii (lowerRune p.tables c) = false := by
  have hupper : ¬Go.isAsciiUpper c = true := by
    rw [Go.isAsciiUpper_iff]
    unfold isAscii at hc
    rw [decide_eq_false_iff_not] at hc
    omega
  unfold lowerRune
  rw [if_neg hupper, if_neg (by rw [hc]; exact Bool.false_ne_true)]
  split
  · exact .inl rfl
  · rename_i hi
    split
    · exact .inr (.inl rfl)
    · rename_i hk
      exact .inr (.inr (p.foreign c hc hi hk))

theorem isAscii_of_digit (h : isAsciiDigit c = true) : isAscii c = true := by
  unfold isAsciiDigit at h
  unfold isAscii
  rw [decide_eq_true_eq] at h ⊢
  exact Nat.lt_of_le_of_lt h.2 (by decide)

theorem isAscii_of_hex {n : Nat} (h : hexValue c = some n) : isAscii c = true := by
  have hle : ∀ d : Char, d.toNat < 0x80 → c ≤ d → isAscii c = true := by
    intro d hd hcd
    unfold isAscii
    rw [decide_eq_true_eq]
    exact Nat.lt_of_le_of_lt hcd hd
  unfold hexValue at h
  split at h
  · rename_i hc
    exact hle '9' (by decide) hc.2
  · split at h
    · rename_i hc
      exact hle 'f' (by decide) hc.2
    · split at h
      · rename_i hc
        exact hle 'F' (by decide) hc.2
      · cases h

/-- No rune above ASCII is written in an address, and none is lowered to one that is. -/
structure Apart (c : Char) : Prop where
  hex : hexValue c = none
  digit : isAsciiDigit c = false
  mark : c ∉ marks

theorem apart_of_foreign (hc : isAscii c = false) : Apart c where
  hex := by
    cases h : hexValue c with
    | none => rfl
    | some =>
      rw [isAscii_of_hex h] at hc
      cases hc
  digit := by
    cases h : isAsciiDigit c with
    | false => rfl
    | true =>
      rw [isAscii_of_digit h] at hc
      cases hc
  mark := by
    have hmarks : marks.all isAscii = true := by decide
    intro hm
    rw [all_eq_true.1 hmarks c hm] at hc
    cases hc

theorem apart_lower (p : Platform) (hc : isAscii c = false) : Apart (lowerRune p.tables c) := by
  rcases lower_ascii_ne p hc with h | h | h
  · rw [h]
    exact ⟨by decide, by decide, by decide⟩
  · rw [h]
    exact ⟨by decide, by decide, by decide⟩
  · exact apart_of_foreign h

theorem lower_same (p : Platform) (c : Char) : hexValue (lowerRune p.tables c) = hexValue c ∧
    isAsciiDigit (lowerRune p.tables c) = isAsciiDigit c ∧ (isAsciiDigit c = true → lowerRune p.tables c = c) ∧
      ∀ m ∈ marks, lowerRune p.tables c = m ↔ c = m := by
  cases hc : isAscii c with
  | true =>
    have hlt : c.toNat < 0x80 := by
      unfold isAscii at hc
      exact of_decide_eq_true hc
    have h := lowered_ascii c.toNat hlt
    rw [Char.ofNat_toNat] at h
    rw [lowerRune_ascii p.tables hc]
    refine ⟨h.1, h.2.1, h.2.2.1, fun m hm => ?_⟩
    have hmark := all_eq_true.1 h.2.2.2 m hm
    rwa [beq_iff_eq, decide_eq_decide] at hmark
  | false =>
    have h := apart_of_foreign hc
    have hl := apart_lower p hc
    refine ⟨hl.hex.trans h.hex.symm, hl.digit.trans h.digit.symm, fun hd => ?_, fun m hm => ?_⟩
    · rw [h.digit] at hd
      cases hd
    · exact iff_of_false (fun he => hl.mark (he ▸ hm)) fun he => h.mark (he ▸ hm)

theorem lowerRune_reads (p : Platform) : Reads (lowerRune p.tables) where
  mark m hm c := (lower_same p c).2.2.2 m (by
    rcases mem_cons.1 hm with rfl | hm
    · decide
    · rcases mem_cons.1 hm with rfl | hm
      · decide
      · rw [mem_singleton.1 hm]
        decide)
  hex c := (lower_same p c).1
  digit c := (lower_same p c).2.1
  decimal c := (lower_same p c).2.2.1

theorem mem_toLower (p : Platform) {m : Char} (hm : m ∈ marks) (s : Text) : m ∈ toLower p.tables s ↔ m ∈ s := by
  unfold toLower
  rw [mem_map]
  constructor
  · rintro ⟨c, hc, he⟩
    rwa [← ((lower_same p c).2.2.2 m hm).1 he]
  · intro h
    exact ⟨m, h, ((lower_same p m).2.2.2 m hm).2 rfl⟩

theorem toLower_toLower (p : Platform) (s : Text) : toLower p.tables (toLower p.tables s) = toLower p.tables s := by
  unfold toLower
  rw [map_map]
  exact map_congr_left fun c _ => p.settled c

theorem toLower_eq_nil (u : Tables) (s : Text) : toLower u s = [] ↔ s = [] := map_eq_nil_iff

theorem parseAddr_lower (p : Platform) (s : Text) :
    parseAddr (toLower p.tables s) = (parseAddr s).map (Addr.mapZone (lowerRune p.tables)) := parseAddr_map (lowerRune_reads p) s

theorem parseAddr_of_lower (p : Platform) {s : Text} (h : parseAddr (toLower p.tables s) = some a) :
    ∃ b, parseAddr s = some b ∧ b.bare = a.bare := by
  rw [parseAddr_lower, Option.map_eq_some_iff] at h
  obtain ⟨b, hb, rfl⟩ := h
  exact ⟨b, hb, (bare_mapZone _ b).symm⟩

theorem parseAddr_lower_none (p : Platform) {s : Text} : parseAddr (toLower p.tables s) = none ↔ parseAddr s = none := by
  rw [parseAddr_lower, Option.map_eq_none_iff]

/-! ## Reserved addresses -/

theorem reserved_unmap (a : Addr) : reserved a.unmap = reserved a := by
  unfold reserved
  rw [unmap_unmap]

theorem reserved_bare (h : reserved a = true) : reserved a.bare = true := by
  cases a with
  | v4 => exact h
  | v6 n zone =>
    cases zone with
    | nil => exact h
    | cons c zone =>
      by_cases hn : n.val / 2 ^ 32 = 0xffff
      · simpa only [reserved, Addr.bare, Addr.unmap, if_pos hn] using h
      · have hranges : (insideRanges.any fun range => range.contains (.v6 n (c :: zone))) = false := rfl
        simp only [reserved, Addr.bare, Addr.unmap, if_neg hn, hranges, Addr.isLoopback, Addr.isPrivate, Addr.isUnspecified,
          Addr.isLinkLocalUnicast, Addr.isLinkLocalMulticast, Addr.isMulticast, Addr.isInterfaceLocalMulticast,
          Bool.or_eq_true, isEmpty_cons, Bool.and_false, Bool.false_eq_true, or_false] at h ⊢
        tauto

def Allow.lets (allow : Allow) (addr : Addr) : Bool := !reserved addr.unmap || allow.permits addr.unmap

theorem attempts_guarded (allow : Allow) (connects : Addr → Bool) : ∀ (found : List Addr),
    ∀ addr ∈ attempts allow connects found, reserved addr = true → allow.permits addr = true
  | [], _, h => nomatch h
  | a :: found, addr, h => by
    intro hreserved
    unfold attempts at h
    split at h
    · exact attempts_guarded allow connects found addr h hreserved
    · rename_i ha
      have hself : addr = a.unmap → allow.permits addr = true := by
        rintro rfl
        simpa only [hreserved, Bool.true_and, Bool.not_eq_true', Bool.not_eq_false] using ha
      split at h
      · exact hself (mem_singleton.1 h)
      · rcases mem_cons.1 h with h | h
        · exact hself h
        · exact attempts_guarded allow connects found addr h hreserved

theorem attempts_ne_nil (allow : Allow) (connects : Addr → Bool) (found : List Addr) :
    attempts allow connects found ≠ [] ↔ found.any allow.lets = true := by
  induction found with
  | nil => exact iff_of_false (fun h => h rfl) Bool.false_ne_true
  | cons a found ih =>
    rw [any_cons]
    unfold attempts
    by_cases ha : (reserved a.unmap && !allow.permits a.unmap) = true
    · have hlets : allow.lets a = false := by
        unfold Allow.lets
        rw [Bool.and_eq_true, Bool.not_eq_true'] at ha
        rw [ha.1, ha.2]
        rfl
      rw [if_pos ha, hlets, Bool.false_or]
      exact ih
    · have hlets : allow.lets a = true := by
        unfold Allow.lets
        rw [Bool.not_eq_true, Bool.and_eq_false_iff] at ha
        rcases ha with ha | ha
        · rw [ha]
          rfl
        · rw [Bool.not_eq_false'] at ha
          rw [ha, Bool.or_true]
      rw [if_neg ha, hlets]
      refine iff_of_true ?_ rfl
      split <;> exact cons_ne_nil _ _

theorem guardedDial_guarded (u : Tables) (allow : Allow) (answer : Option (List Addr)) (connects : Addr → Bool)
    (host : Option Text) : (guardedDial u allow answer connects host).Guarded u allow := by
  cases host with
  | none => trivial
  | some host =>
    simp only [guardedDial]
    split
    · assumption
    · cases lookupNetIP answer host with
      | none => trivial
      | some found => exact attempts_guarded allow connects found

/-! ## The list, item by item -/

theorem mem_hosts :
    host ∈ (parseAllow u list).hosts ↔ ∃ item ∈ list.splitOn ',', host ∈ (readItem u (trimSpace item)).hosts := by
  unfold parseAllow
  simp only [mem_flatMap, mem_map, exists_exists_and_eq_and]

theorem mem_prefixes {range : Prefix} :
    range ∈ (parseAllow u list).prefixes ↔ ∃ item ∈ list.splitOn ',', range ∈ (readItem u (trimSpace item)).prefixes := by
  unfold parseAllow
  simp only [mem_flatMap, mem_map, exists_exists_and_eq_and]

theorem readItem_hosts {item : Text} (h : host ∈ (readItem u item).hosts) :
    host = toLower u item ∧ item ≠ [] ∧ parseAddr item = none := by
  unfold readItem at h
  split at h
  · cases h
  · rename_i hne
    split at h
    · cases h
    · split at h
      · cases h
      · rename_i hnone
        split at h
        · cases h
        · exact ⟨mem_singleton.1 h, hne, hnone⟩

theorem hosts_noAddr (p : Platform) (h : host ∈ (parseAllow p.tables list).hosts) : parseAddr host = none := by
  obtain ⟨item, -, hitem⟩ := mem_hosts.1 h
  obtain ⟨rfl, -, hnone⟩ := readItem_hosts hitem
  exact (parseAddr_lower_none p).2 hnone

theorem parseAllow_append (u : Tables) (list more : Text) : parseAllow u (list ++ ',' :: more) =
    ⟨(parseAllow u list).hosts ++ (parseAllow u more).hosts, (parseAllow u list).prefixes ++ (parseAllow u more).prefixes⟩ := by
  unfold parseAllow
  simp only [splitOn_append, map_append, flatMap_append]

theorem permits_append {more : Text} {addr : Addr} (h : (parseAllow u more).permits addr = true) :
    (parseAllow u (list ++ ',' :: more)).permits addr = true := by
  rw [parseAllow_append]
  unfold Allow.permits at h ⊢
  rw [any_append, h, Bool.or_true]

theorem parseAllow_name (hne : host ≠ []) (hslash : '/' ∉ host) (haddr : parseAddr host = none)
    (hcomma : ',' ∉ host) (htrim : trimSpace host = host) : parseAllow u host = ⟨[toLower u host], []⟩ := by
  have hitem : readItem u host = ⟨[toLower u host], []⟩ := by
    unfold readItem parsePrefix
    simp only [if_neg hne, if_neg hslash, haddr]
  have hsplit : host.splitOn ',' = [host] := splitOn_of_notMem fun c hc => by
    rw [Bool.not_eq_true', beq_eq_false_iff_ne]
    rintro rfl
    exact hcomma hc
  unfold parseAllow
  rw [hsplit, map_singleton, htrim, hitem]
  rfl

theorem trimSpace_sublist (s : Text) : (trimSpace s).Sublist s := by
  obtain ⟨a, b, hsplit, -, -⟩ := Go.trimSpace_split s
  calc (trimSpace s).Sublist (a ++ trimSpace s) := sublist_append_right a _
    List.Sublist _ (a ++ trimSpace s ++ b) := sublist_append_left _ b
    _ = s := hsplit.symm

theorem listed_alone (p : Platform) (h : host ∈ (parseAllow p.tables host).hosts) :
    ',' ∉ host ∧ trimSpace host = host := by
  obtain ⟨item, hitem, hhost⟩ := mem_hosts.1 h
  obtain ⟨heq, -, -⟩ := readItem_hosts hhost
  have hcomma : ',' ∉ host := by
    rw [heq, mem_toLower p (by decide)]
    exact fun hc => splitOn_notMem host item hitem ((trimSpace_sublist item).subset hc)
  have hsplit : host.splitOn ',' = [host] := splitOn_of_notMem fun c hc => by
    rw [Bool.not_eq_true', beq_eq_false_iff_ne]
    rintro rfl
    exact hcomma hc
  rw [hsplit, mem_singleton] at hitem
  rw [hitem] at heq
  refine ⟨hcomma, (trimSpace_sublist host).eq_of_length ?_⟩
  have hlength := congrArg List.length heq
  unfold toLower at hlength
  rw [length_map] at hlength
  exact hlength.symm

/-! ## What the transport dials -/

theorem lastColon {before port : Text} (hport : ':' ∉ port) :
    ((before ++ ':' :: port).reverse.dropWhile (· != ':')).tail.reverse = before ∧
      ((before ++ ':' :: port).reverse.takeWhile (· != ':')).reverse = port := by
  have hrev : (before ++ ':' :: port).reverse = port.reverse ++ ':' :: before.reverse := by simp
  have hnot : ∀ c ∈ port.reverse, (c != ':') = true := by
    intro c hc
    rw [bne_iff_ne]
    rintro rfl
    exact hport (mem_reverse.1 hc)
  have hcolon : ¬(':' != ':') = true := by decide
  constructor
  · rw [hrev, dropWhile_append_of_pos hnot, dropWhile_cons_of_neg (p := (· != ':')) hcolon, tail_cons, reverse_reverse]
  · rw [hrev, takeWhile_append_of_pos hnot, takeWhile_cons_of_neg (p := (· != ':')) hcolon, append_nil, reverse_reverse]

theorem splitHostPort_join {port : Text} {hp : Text × Text} (hport : ':' ∉ port) (hhost : ':' ∈ host ∨ '[' ∉ host)
    (h : splitHostPort (joinHostPort host port) = some hp) : hp.1 = host := by
  by_cases hcolon : ':' ∈ host
  · have hjoin : joinHostPort host port = ('[' :: host ++ [']']) ++ ':' :: port := by
      unfold joinHostPort
      rw [if_pos hcolon]
      simp
    rw [hjoin] at h
    unfold splitHostPort at h
    rw [if_neg (by simp)] at h
    simp only [(lastColon hport).1, (lastColon hport).2] at h
    rw [if_pos (by rfl)] at h
    split at h
    · cases h
    · rename_i hnot
      rw [not_or, not_not] at hnot
      rw [← Option.some.inj h]
      have heq := hnot.1
      simp only [cons_append, List.cons.injEq, true_and, append_cancel_right_eq] at heq
      exact heq.symm
  · have hbracket : '[' ∉ host := hhost.resolve_left hcolon
    have hjoin : joinHostPort host port = host ++ ':' :: port := by
      unfold joinHostPort
      rw [if_neg hcolon]
    have hhead : (host ++ ':' :: port).head? ≠ some '[' := by
      intro hhead
      cases host with
      | nil => cases hhead
      | cons =>
        rw [cons_append, List.head?_cons, Option.some.injEq] at hhead
        rw [hhead] at hbracket
        exact hbracket mem_cons_self
    rw [hjoin] at h
    unfold splitHostPort at h
    rw [if_neg (by simp)] at h
    simp only [(lastColon hport).1, (lastColon hport).2, if_neg hhead] at h
    split at h
    · cases h
    · rw [← Option.some.inj h]

theorem portOf_noColon (url : Url) : ':' ∉ url.portOf := by
  unfold Url.portOf
  split
  · intro h
    have hdigit := url.digits ':' h
    cases hdigit
  · split <;> decide

theorem dialHost_addr (p : Platform) (ha : parseAddr url.hostname = some a)
    (h : url.dialHost p = some host) : host = url.hostname := by
  have hspelled := parseAddr_spelled ha
  have hdigits : (∀ c ∈ url.hostname, c = '.' ∨ isAsciiDigit c = true) → url.hostname.all isAscii = true := by
    intro hall
    rw [all_eq_true]
    intro c hc
    rcases hall c hc with rfl | hd
    · rfl
    · exact isAscii_of_digit hd
  have hascii : url.ascii p = url.hostname := by
    unfold Url.ascii
    rcases hspelled with hcolon | hall
    · split
      · rfl
      · rw [p.colon _ hcolon]
        rfl
    · rw [if_pos (hdigits hall)]
  unfold Url.dialHost at h
  rw [hascii, Option.map_eq_some_iff] at h
  obtain ⟨hp, hsplit, rfl⟩ := h
  refine splitHostPort_join (portOf_noColon url) (hspelled.imp_right fun hall hbracket => ?_) hsplit
  rcases hall '[' hbracket with h | h
  · cases h
  · cases h

/-! ## How each judges an address and a name -/

theorem check_addr (p : Platform) (ha : parseAddr (toLower p.tables url.hostname) = some a) (list : Text)
    (answer : Option (List Addr)) : check p.tables (parseAllow p.tables list) answer url =
      if (parseAllow p.tables list).lets a then .accepted else .refused (toLower p.tables url.hostname) := by
  have hne : url.hostname ≠ [] := by
    intro hnil
    rw [hnil] at ha
    cases ha
  have hhosts : toLower p.tables url.hostname ∉ (parseAllow p.tables list).hosts := by
    intro h
    rw [hosts_noAddr p h] at ha
    cases ha
  simp only [check, if_neg hne, if_neg hhosts, ha, Allow.lets, reserved_unmap]
  cases reserved a <;> cases (parseAllow p.tables list).permits a.unmap <;> rfl

theorem as16_eq (h : a.as16 = ipv6Unspecified) : a.bare = ipv6Unspecified := by
  cases a with
  | v4 n =>
    have hval : 0xffff * 2 ^ 32 + n.val = 0 := congrArg Fin.val (Addr.v6.inj h).1
    omega
  | v6 => exact h

theorem lets_as16 (allow : Allow) (a : Addr) : allow.lets a.as16 = allow.lets a.bare := by
  unfold Allow.lets
  rw [unmap_as16]

theorem tries_found (p : Platform) (ha : parseAddr host = some a) (list : Text)
    (hhosts : toLower p.tables host ∉ (parseAllow p.tables list).hosts) (answer : Option (List Addr)) (connects : Addr → Bool) :
    (guardedDial p.tables (parseAllow p.tables list) answer connects (some host)).Tries ↔
      (internetAddrs [a]).any (parseAllow p.tables list).lets = true := by
  have hne : host ≠ [] := by
    rintro rfl
    cases ha
  simp only [guardedDial, lookupNetIP, if_neg hhosts, if_neg hne, ha, Dialed.Tries, attempts_ne_nil]

theorem tries_addr (p : Platform) (ha : parseAddr host = some a) (hzero : a.bare ≠ ipv6Unspecified) (list : Text)
    (hhosts : toLower p.tables host ∉ (parseAllow p.tables list).hosts) (answer : Option (List Addr)) (connects : Addr → Bool) :
    (guardedDial p.tables (parseAllow p.tables list) answer connects (some host)).Tries ↔
      (parseAllow p.tables list).lets a.bare = true := by
  have hone : internetAddrs [a] = [a.as16] := if_neg fun h => hzero (as16_eq (singleton_inj.1 h))
  rw [tries_found p ha list hhosts, hone, any_cons, any_nil, Bool.or_false, lets_as16]

theorem tries_unspecified (p : Platform) (ha : parseAddr host = some a) (hzero : a.bare = ipv6Unspecified) (list : Text)
    (hhosts : toLower p.tables host ∉ (parseAllow p.tables list).hosts) (answer : Option (List Addr)) (connects : Addr → Bool) :
    (guardedDial p.tables (parseAllow p.tables list) answer connects (some host)).Tries ↔
      (parseAllow p.tables list).lets ipv6Unspecified = true ∨ (parseAllow p.tables list).lets ipv4Zero = true := by
  have has : a.as16 = ipv6Unspecified := by
    cases a with
    | v4 => cases hzero
    | v6 => exact hzero
  have htwo : internetAddrs [a] = [a.as16, ipv4Zero.as16] := if_pos (congrArg (fun x => [x]) has)
  have hfour : ipv4Zero.bare = ipv4Zero := rfl
  rw [tries_found p ha list hhosts, htwo, any_cons, any_cons, any_nil, Bool.or_false, Bool.or_eq_true, lets_as16,
    lets_as16, hzero, hfour]

theorem addr_notHost (p : Platform) (ha : parseAddr host = some a) (list : Text) :
    toLower p.tables host ∉ (parseAllow p.tables list).hosts := by
  intro h
  rw [(parseAddr_lower_none p).1 (hosts_noAddr p h)] at ha
  cases ha

theorem check_name (p : Platform) (hne : url.hostname ≠ [])
    (hhosts : toLower p.tables url.hostname ∉ (parseAllow p.tables list).hosts)
    (hnone : parseAddr (toLower p.tables url.hostname) = none) (answer : Option (List Addr)) :
    check p.tables (parseAllow p.tables list) answer url = .accepted ↔
      ∃ found, answer = some found ∧ (internetAddrs found).any (parseAllow p.tables list).lets = true := by
  have hlower : toLower p.tables url.hostname ≠ [] := fun h => hne ((toLower_eq_nil _ _).1 h)
  simp only [check, if_neg hne, if_neg hhosts, hnone, lookupNetIP, if_neg hlower]
  cases answer with
  | none => simp
  | some found =>
    simp only [Option.map_some, Option.some.injEq, exists_eq_left']
    cases internetAddrs found with
    | nil => simp
    | cons =>
      simp only [ite_eq_left_iff, reduceCtorEq, imp_false, not_not]
      rfl

theorem tries_name (p : Platform) (hne : host ≠ [])
    (hhosts : toLower p.tables host ∉ (parseAllow p.tables list).hosts) (hnone : parseAddr host = none)
    (answer : Option (List Addr)) (connects : Addr → Bool) :
    (guardedDial p.tables (parseAllow p.tables list) answer connects (some host)).Tries ↔
      ∃ found, answer = some found ∧ (internetAddrs found).any (parseAllow p.tables list).lets = true := by
  simp only [guardedDial, if_neg hhosts, lookupNetIP, if_neg hne, hnone]
  cases answer with
  | none => simp [Dialed.Tries]
  | some => simp only [Option.map_some, Dialed.Tries, attempts_ne_nil, Option.some.injEq, exists_eq_left']

theorem listed_lets (p : Platform) (hne : url.hostname ≠ [])
    (hhosts : toLower p.tables url.hostname ∈ (parseAllow p.tables list).hosts)
    (hhost : toLower p.tables host = toLower p.tables url.hostname) (answer : Option (List Addr)) (connects : Addr → Bool) :
    check p.tables (parseAllow p.tables list) answer url = .accepted ∧
      (guardedDial p.tables (parseAllow p.tables list) answer connects (some host)).Tries := by
  rw [← hhost] at hhosts
  simp only [check, guardedDial, if_neg hne, ← hhost, if_pos hhosts]
  exact ⟨trivial, trivial⟩

theorem check_refused {answer : Option (List Addr)}
    (h : check u allow answer url = .refused host) : host = toLower u url.hostname := by
  unfold check at h
  split at h
  · cases h
  · dsimp only at h
    split at h
    · cases h
    · split at h
      · split at h
        · exact (Verdict.refused.inj h).symm
        · cases h
      · split at h
        · cases h
        · cases h
        · split at h
          · cases h
          · exact (Verdict.refused.inj h).symm

/-! ## An address that no list of names has -/

def inside (k : Nat) : Addr := .ofNat6 (0xfd00 * 2 ^ 112 + k) []

theorem inside_unmap (hk : k < 2 ^ 64) : (inside k).unmap = inside k := by
  have hmod : (0xfd00 * 2 ^ 112 + k) % 2 ^ 128 = 0xfd00 * 2 ^ 112 + k := Nat.mod_eq_of_lt (by omega)
  have hmapped : ¬(0xfd00 * 2 ^ 112 + k) / 2 ^ 32 = 0xffff := by omega
  simp only [inside, Addr.ofNat6, Addr.unmap, hmod, if_neg hmapped]

theorem inside_reserved (hk : k < 2 ^ 64) : reserved (inside k).unmap = true := by
  have hmod : (0xfd00 * 2 ^ 112 + k) % 2 ^ 128 = 0xfd00 * 2 ^ 112 + k := Nat.mod_eq_of_lt (by omega)
  have hprivate : (0xfd00 * 2 ^ 112 + k) / 2 ^ 121 = 0xfc / 2 := by omega
  have hself : (inside k).unmap.isPrivate = true := by
    rw [inside_unmap hk]
    simp only [inside, Addr.ofNat6, hmod, Addr.isPrivate, hprivate, decide_true]
  rw [reserved_unmap]
  unfold reserved
  simp only [hself, Bool.or_true, Bool.true_or]

theorem internetAddrs_inside (hk : k < 2 ^ 64) : internetAddrs [inside k] = [inside k] := by
  refine if_neg fun h => ?_
  have hval : (0xfd00 * 2 ^ 112 + k) % 2 ^ 128 = 0 := congrArg Fin.val (Addr.v6.inj (singleton_inj.1 h)).1
  omega

theorem inside_inj {j : Nat} (hj : j < 2 ^ 64) (hk : k < 2 ^ 64) (h : inside j = inside k) : j = k := by
  have hval : (0xfd00 * 2 ^ 112 + j) % 2 ^ 128 = (0xfd00 * 2 ^ 112 + k) % 2 ^ 128 := congrArg Fin.val (Addr.v6.inj h).1
  rw [Nat.mod_eq_of_lt (by omega), Nat.mod_eq_of_lt (by omega)] at hval
  omega

theorem length_splitOn (s : Text) : (s.splitOn ',').length ≤ s.length + 1 := by
  induction s using byPieces ',' with
  | last s hs =>
    rw [splitOn_of_notMem hs, length_singleton]
    omega
  | more s t hs ih =>
    rw [splitOn_append_cons hs, length_cons, length_append, length_cons]
    omega

theorem readItem_single {item : Text} (hslash : '/' ∉ item) :
    (readItem u item).prefixes = (parseAddr item).toList.map fun a => prefixFrom a a.bitLen := by
  have hrange : parsePrefix item = none := by
    unfold parsePrefix
    rw [if_neg hslash]
  unfold readItem
  rw [hrange]
  split
  · rename_i hnil
    rw [hnil]
    rfl
  · cases parseAddr item with
    | some => rfl
    | none => rfl

theorem permits_iff (u : Tables) (hslash : '/' ∉ list) (b : Addr) (hzone : b.bare = b) :
    (parseAllow u list).permits b = true ↔ Itemized list b := by
  have hitem : ∀ item ∈ list.splitOn ',', (readItem u (trimSpace item)).prefixes =
      (parseAddr (trimSpace item)).toList.map fun a => prefixFrom a a.bitLen := fun item hitem =>
    readItem_single fun h => hslash (mem_of_mem_splitOn hitem ((trimSpace_sublist item).subset h))
  have hcontains : ∀ a : Addr, (prefixFrom a a.bitLen).contains b = true ↔ a.bare = b := by
    intro a
    refine ⟨fun h => (contains_single h).symm, ?_⟩
    rintro rfl
    cases a with
    | v4 => exact decide_eq_true rfl
    | v6 => exact decide_eq_true rfl
  unfold Allow.permits Itemized
  simp only [any_eq_true, mem_prefixes]
  constructor
  · rintro ⟨range, ⟨item, hi, hmem⟩, hb⟩
    rw [hitem item hi] at hmem
    obtain ⟨a, ha, rfl⟩ := mem_map.1 hmem
    exact ⟨item, hi, by rw [Option.mem_toList.1 ha, Option.map_some, (hcontains a).1 hb]⟩
  · rintro ⟨item, hi, hmap⟩
    obtain ⟨a, ha, hab⟩ := Option.map_eq_some_iff.1 hmap
    refine ⟨prefixFrom a a.bitLen, ⟨item, hi, ?_⟩, (hcontains a).2 hab⟩
    rw [hitem item hi, ha]
    exact mem_singleton_self _

theorem length_flatMap_le {α β : Type} {f : α → List β} : ∀ {l : List α}, (∀ a ∈ l, (f a).length ≤ 1) → (l.flatMap f).length ≤ l.length
  | [], _ => Nat.le_refl 0
  | a :: l, h => by
    rw [flatMap_cons, length_append, length_cons, Nat.add_comm]
    exact Nat.add_le_add (length_flatMap_le fun b hb => h b (mem_cons_of_mem a hb)) (h a mem_cons_self)

theorem exists_unlisted (u : Tables) (hslash : '/' ∉ list) (hshort : list.length < 2 ^ 63) :
    ∃ k < 2 ^ 64, (parseAllow u list).permits (inside k) = false := by
  have hitem : ∀ item ∈ list.splitOn ',', (readItem u (trimSpace item)).prefixes = [] ∨
      ∃ a, (readItem u (trimSpace item)).prefixes = [prefixFrom a a.bitLen] := by
    intro item hitem
    rw [readItem_single fun h => hslash (mem_of_mem_splitOn hitem ((trimSpace_sublist item).subset h))]
    cases parseAddr (trimSpace item) with
    | none => exact .inl rfl
    | some a => exact .inr ⟨a, rfl⟩
  have hlength : (parseAllow u list).prefixes.length ≤ list.length + 1 := by
    refine Nat.le_trans (length_flatMap_le ?_) (Nat.le_trans (Nat.le_of_eq (length_map _)) (length_splitOn list))
    rw [forall_mem_map]
    intro item hi
    rcases hitem item hi with h | ⟨a, h⟩ <;> rw [h]
    · exact Nat.zero_le 1
    · exact Nat.le_refl 1
  have hlisted : ∀ b, (parseAllow u list).permits b = true → b ∈ (parseAllow u list).prefixes.map Prefix.addr := by
    intro b hb
    obtain ⟨range, hrange, hcontains⟩ := any_eq_true.1 hb
    obtain ⟨item, hi, hmem⟩ := mem_prefixes.1 hrange
    refine mem_map.2 ⟨range, hrange, ?_⟩
    rcases hitem item hi with h | ⟨a, h⟩ <;> rw [h] at hmem
    · cases hmem
    · rw [mem_singleton.1 hmem] at hcontains ⊢
      exact (contains_single hcontains).symm
  by_contra hall
  have hpermits : ∀ k < 2 ^ 64, inside k ∈ (parseAllow u list).prefixes.map Prefix.addr := by
    intro k hk
    refine hlisted _ ?_
    by_contra hnot
    exact hall ⟨k, hk, Bool.eq_false_iff.2 hnot⟩
  have hnodup : ((List.range ((parseAllow u list).prefixes.length + 1)).map inside).Nodup := by
    refine List.Nodup.map_on (fun j hj k hk => inside_inj ?_ ?_) nodup_range
    · have := mem_range.1 hj
      omega
    · have := mem_range.1 hk
      omega
  have hsubset : (List.range ((parseAllow u list).prefixes.length + 1)).map inside ⊆ (parseAllow u list).prefixes.map Prefix.addr := by
    intro b hb
    obtain ⟨k, hk, rfl⟩ := mem_map.1 hb
    have := mem_range.1 hk
    exact hpermits k (by omega)
  have hle := (subperm_of_subset hnodup hsubset).length_le
  rw [length_map, length_map, length_range] at hle
  omega

/-! ## Where they agree -/

theorem parseAllow_nil (u : Tables) : parseAllow u [] = ⟨[], []⟩ := rfl

def everywhere : Text := ['0', '.', '0', '.', '0', '.', '0', '/', '0', ',', ':', ':', '/', '0']

theorem permits_everywhere (u : Tables) (a : Addr) : (parseAllow u everywhere).permits a = !a.hasZone := by
  have hlist : (parseAllow u everywhere).prefixes = [⟨.ofNat4 0, 0⟩, ⟨.ofNat6 0 [], 0⟩] := rfl
  unfold Allow.permits
  rw [hlist]
  rcases a with n | ⟨n, _ | ⟨c, zone⟩⟩
  · have hn : n.val / 2 ^ 32 = 0 / 2 ^ 32 := by omega
    simp only [any_cons, Prefix.contains, Addr.ofNat4, Nat.zero_mod, Nat.sub_zero, hn, decide_true, Bool.true_or]
    rfl
  · have hn : n.val / 2 ^ 128 = 0 / 2 ^ 128 := by omega
    simp only [any_cons, Prefix.contains, Addr.ofNat6, Nat.zero_mod, Nat.sub_zero, hn, decide_true, Bool.true_or, Bool.or_true]
    rfl
  · rfl

theorem unmap_of_noZone (h : a.unmap.hasZone = false) : a.unmap = a.bare.unmap := by
  cases a with
  | v4 => rfl
  | v6 n zone =>
    by_cases hn : n.val / 2 ^ 32 = 0xffff
    · simp only [Addr.unmap, Addr.bare, if_pos hn]
    · simp only [Addr.unmap, if_neg hn, Addr.hasZone, Bool.not_eq_false', List.isEmpty_iff] at h
      rw [h]
      rfl

theorem bare_unmap_bare (a : Addr) : a.bare.unmap.bare = a.bare.unmap := by
  cases a with
  | v4 => rfl
  | v6 n zone =>
    by_cases hn : n.val / 2 ^ 32 = 0xffff
    · simp only [Addr.bare, Addr.unmap, if_pos hn]
      rfl
    · simp only [Addr.bare, Addr.unmap, if_neg hn]

theorem noSlash_lower (p : Platform) (url : Url) : '/' ∉ toLower p.tables url.hostname :=
  fun h => url.noSlash ((mem_toLower p (by decide) _).1 h)

theorem bare_unmap_noZone (a : Addr) : a.bare.unmap.hasZone = false := by
  cases a with
  | v4 => rfl
  | v6 n zone =>
    by_cases hn : n.val / 2 ^ 32 = 0xffff
    · simp only [Addr.bare, Addr.unmap, if_pos hn]
      rfl
    · simp only [Addr.bare, Addr.unmap, if_neg hn]
      rfl

theorem lets_of_unmap {b : Addr} (h : a.unmap = b.unmap) : allow.lets a = allow.lets b := by
  unfold Allow.lets
  rw [h]

theorem lets_reserved (h : reserved a = true) : allow.lets a = allow.permits a.unmap := by
  unfold Allow.lets
  rw [reserved_unmap, h]
  rfl

theorem lets_free (h : reserved a = false) : allow.lets a = true := by
  unfold Allow.lets
  rw [reserved_unmap, h]
  rfl

theorem agrees_nil (p : Platform) (hnil : url.hostname = []) : Agrees p url := by
  intro list answer connects
  have hchecked : ∀ list, check p.tables (parseAllow p.tables list) answer url = .notAnAddress := by
    intro list
    unfold check
    rw [if_pos hnil]
  have hhost : ∀ host, url.dialHost p = some host → host = [] := by
    intro host h
    have hascii : url.ascii p = [] := by
      unfold Url.ascii
      rw [hnil]
      rfl
    unfold Url.dialHost at h
    rw [hascii, Option.map_eq_some_iff] at h
    obtain ⟨hp, hsplit, rfl⟩ := h
    exact splitHostPort_join (portOf_noColon url) (.inr not_mem_nil) hsplit
  have hnone : ∀ list, ¬(guardedDial p.tables (parseAllow p.tables list) answer connects (url.dialHost p)).Tries := by
    intro list
    cases hdial : url.dialHost p with
    | none => exact id
    | some host =>
      rw [hhost host hdial]
      have hnot : toLower p.tables [] ∉ (parseAllow p.tables list).hosts := by
        intro h
        obtain ⟨item, -, hitem⟩ := mem_hosts.1 h
        obtain ⟨heq, hne, -⟩ := readItem_hosts hitem
        exact hne ((toLower_eq_nil _ _).1 heq.symm)
      simp only [guardedDial, if_neg hnot]
      exact id
  refine ⟨iff_of_false (fun h => ?_) (hnone list), guardedDial_guarded _ _ _ _ _, fun host h => ?_⟩
  · cases (hchecked list).symm.trans h
  · cases (hchecked list).symm.trans h

theorem agrees_addr (p : Platform) (ha : parseAddr (toLower p.tables url.hostname) = some a)
    (hdial : (url.dialHost p).map (toLower p.tables) = some (toLower p.tables url.hostname))
    (hplain : reserved a.bare = true → a.bare ≠ ipv6Unspecified ∧ a.unmap = a.bare.unmap ∧
      Itemized (toLower p.tables url.hostname) a.bare.unmap) : Agrees p url := by
  intro list answer connects
  obtain ⟨b, hb, hbare⟩ := parseAddr_of_lower p ha
  obtain ⟨host, hhost, -⟩ := Option.map_eq_some_iff.1 hdial
  have hzero : b.bare ≠ ipv6Unspecified := by
    rw [hbare]
    intro hz
    have hreserved : reserved a.bare = true := by rw [hz]; decide
    exact (hplain hreserved).1 hz
  have hsame : ∀ allow : Allow, allow.lets a = allow.lets a.bare := by
    intro allow
    cases hreserved : reserved a.bare with
    | true => exact lets_of_unmap ((hplain hreserved).2.1.trans (by rfl))
    | false =>
      have hfree : reserved a = false := Bool.eq_false_iff.2 fun h => by
        rw [reserved_bare h] at hreserved
        cases hreserved
      rw [lets_free hfree, lets_free hreserved]
  have hchecked : ∀ list, check p.tables (parseAllow p.tables list) answer url = .accepted ↔
      (parseAllow p.tables list).lets a.bare = true := by
    intro list
    rw [check_addr p ha, hsame]
    cases (parseAllow p.tables list).lets a.bare <;> simp
  have htries : ∀ list, (guardedDial p.tables (parseAllow p.tables list) answer connects (url.dialHost p)).Tries ↔
      (parseAllow p.tables list).lets a.bare = true := by
    intro list
    rw [hhost, dialHost_addr p hb hhost, tries_addr p hb hzero list (addr_notHost p hb list), hbare]
  refine ⟨(hchecked list).trans (htries list).symm, guardedDial_guarded _ _ _ _ _, fun host h => ?_⟩
  have hlets : (parseAllow p.tables (list ++ ',' :: host)).lets a.bare = true := by
    cases hreserved : reserved a.bare with
    | false => exact lets_free hreserved
    | true =>
      rw [lets_reserved hreserved, check_refused h]
      exact permits_append ((permits_iff _ (noSlash_lower p url) _ (bare_unmap_bare a)).2 (hplain hreserved).2.2)
  exact ⟨(hchecked _).2 hlets, (htries _).2 hlets⟩

theorem agrees_name (p : Platform) (hne : url.hostname ≠ []) (hnone : parseAddr (toLower p.tables url.hostname) = none)
    (hdial : (url.dialHost p).map (toLower p.tables) = some (toLower p.tables url.hostname))
    (hcomma : ',' ∉ toLower p.tables url.hostname)
    (htrim : trimSpace (toLower p.tables url.hostname) = toLower p.tables url.hostname) : Agrees p url := by
  intro list answer connects
  obtain ⟨host, hhost, hlower⟩ := Option.map_eq_some_iff.1 hdial
  have hnoslash := noSlash_lower p url
  have hlne : toLower p.tables url.hostname ≠ [] := fun h => hne ((toLower_eq_nil _ _).1 h)
  have hhne : host ≠ [] := by
    rintro rfl
    exact hlne hlower.symm
  have hhnone : parseAddr host = none := by
    rw [← parseAddr_lower_none p, hlower]
    exact hnone
  refine ⟨?_, guardedDial_guarded _ _ _ _ _, fun refused h => ?_⟩
  · by_cases hhosts : toLower p.tables url.hostname ∈ (parseAllow p.tables list).hosts
    · have hlisted := listed_lets p hne hhosts hlower answer connects
      rw [hhost]
      exact iff_of_true hlisted.1 hlisted.2
    · rw [hhost, check_name p hne hhosts hnone, tries_name p hhne (by rwa [hlower]) hhnone]
  · have hhosts : toLower p.tables url.hostname ∈ (parseAllow p.tables (list ++ ',' :: refused)).hosts := by
      rw [check_refused h, parseAllow_append, parseAllow_name hlne hnoslash hnone hcomma htrim, toLower_toLower]
      exact mem_append_right _ mem_cons_self
    rw [hhost]
    exact listed_lets p hne hhosts hlower answer connects

/-! ## Where they do not -/

theorem Agrees.dials (h : Agrees p url)
    (ha : parseAddr (toLower p.tables url.hostname) = some a) : url.dialHost p = some url.hostname := by
  obtain ⟨b, hb, -⟩ := parseAddr_of_lower p ha
  cases hdial : url.dialHost p with
  | some => rw [dialHost_addr p hb hdial]
  | none =>
    obtain ⟨hagree, -, hlisted⟩ := h [] none fun _ => true
    rw [hdial] at hagree hlisted
    have hverdict := check_addr p ha [] none
    split at hverdict
    · exact absurd (hagree.1 hverdict) id
    · exact absurd (hlisted _ hverdict).2 id

def zeroListed : Text := ['0', '.', '0', '.', '0', '.', '0']

theorem Agrees.not_unspecified (h : Agrees p url) (ha : parseAddr (toLower p.tables url.hostname) = some a) :
    a.bare ≠ ipv6Unspecified := by
  intro hzero
  obtain ⟨b, hb, hbare⟩ := parseAddr_of_lower p ha
  have htries : ∀ list, (guardedDial p.tables (parseAllow p.tables list) none (fun _ => true) (url.dialHost p)).Tries ↔
      (parseAllow p.tables list).lets ipv6Unspecified = true ∨ (parseAllow p.tables list).lets ipv4Zero = true := by
    intro list
    rw [h.dials ha, tries_unspecified p hb (hbare.trans hzero) list (addr_notHost p hb list)]
  have hchecked : ∀ list, (parseAllow p.tables list).lets a = true ↔
      (parseAllow p.tables list).lets ipv6Unspecified = true ∨ (parseAllow p.tables list).lets ipv4Zero = true := by
    intro list
    have hagree := (h list none fun _ => true).1
    dsimp only at hagree
    rw [← htries list, ← hagree, check_addr p ha]
    cases (parseAllow p.tables list).lets a <;> simp
  have hself : reserved a = true := by
    by_contra hnot
    have hboth := (hchecked []).1 (lets_free (Bool.eq_false_iff.2 hnot))
    have hnone : (parseAllow p.tables []).lets ipv6Unspecified = false ∧ (parseAllow p.tables []).lets ipv4Zero = false := by
      constructor <;> rfl
    rw [hnone.1, hnone.2] at hboth
    rcases hboth with hl | hl <;> cases hl
  -- With `0.0.0.0` listed alone, it is dialed, and refused as `::`.
  have hfour : (parseAllow p.tables zeroListed).lets ipv4Zero = true := rfl
  have hpermits := (hchecked zeroListed).2 (.inr hfour)
  rw [lets_reserved hself] at hpermits
  have hprefixes : (parseAllow p.tables zeroListed).prefixes = [⟨.ofNat4 0, 32⟩] := rfl
  cases a with
  | v4 => cases hzero
  | v6 n zone =>
    have hn : n = 0 := (Addr.v6.inj hzero).1
    rw [hn] at hpermits
    unfold Allow.permits at hpermits
    rw [hprefixes] at hpermits
    cases hpermits

theorem Agrees.plain_addr (h : Agrees p url)
    (ha : parseAddr (toLower p.tables url.hostname) = some a) (hreserved : reserved a.bare = true) :
    a.bare ≠ ipv6Unspecified ∧ a.unmap = a.bare.unmap ∧ Itemized (toLower p.tables url.hostname) a.bare.unmap := by
  obtain ⟨b, hb, hbare⟩ := parseAddr_of_lower p ha
  have hzero := h.not_unspecified ha
  have htries : ∀ list, (guardedDial p.tables (parseAllow p.tables list) none (fun _ => true) (url.dialHost p)).Tries ↔
      (parseAllow p.tables list).lets a.bare = true := by
    intro list
    rw [h.dials ha, tries_addr p hb (hbare ▸ hzero) list (addr_notHost p hb list), hbare]
  have hchecked : ∀ list, (parseAllow p.tables list).lets a = true ↔ (parseAllow p.tables list).lets a.bare = true := by
    intro list
    have hagree := (h list none fun _ => true).1
    dsimp only at hagree
    rw [← htries list, ← hagree, check_addr p ha]
    cases (parseAllow p.tables list).lets a <;> simp
  -- With no list at all, the address is refused in both its forms.
  have hrefused : (parseAllow p.tables []).lets a = false := by
    rw [Bool.eq_false_iff]
    intro hlets
    have hbarelets := (hchecked []).1 hlets
    rw [lets_reserved hreserved] at hbarelets
    cases hbarelets
  have hself : reserved a = true := by
    by_contra hnot
    rw [lets_free (Bool.eq_false_iff.2 hnot)] at hrefused
    cases hrefused
  refine ⟨hzero, ?_, ?_⟩
  · -- With a list of every address, it is let through in both.
    have hlets : (parseAllow p.tables everywhere).lets a.bare = true := by
      rw [lets_reserved hreserved, permits_everywhere, bare_unmap_noZone]
      rfl
    have hpermits := (hchecked everywhere).2 hlets
    rw [lets_reserved hself, permits_everywhere, Bool.not_eq_true'] at hpermits
    exact unmap_of_noZone hpermits
  · have hverdict := check_addr p ha [] none
    rw [hrefused] at hverdict
    have hlisted := (htries _).1 (((h [] none fun _ => true).2.2 _ hverdict).2)
    rw [lets_reserved hreserved, parseAllow_append, parseAllow_nil] at hlisted
    exact (permits_iff _ (noSlash_lower p url) _ (bare_unmap_bare a)).1 hlisted

theorem Agrees.listed_name (h : Agrees p url) (hne : url.hostname ≠ [])
    (hnone : parseAddr (toLower p.tables url.hostname) = none) :
    toLower p.tables url.hostname ∈ (parseAllow p.tables (toLower p.tables url.hostname)).hosts := by
  have hnoslash := noSlash_lower p url
  have hshort : (toLower p.tables url.hostname).length < 2 ^ 63 := by
    unfold toLower
    rw [length_map]
    exact url.short
  obtain ⟨k, hk, hunlisted⟩ := exists_unlisted p.tables hnoslash hshort
  have hinside : reserved (inside k) = true := reserved_unmap (inside k) ▸ inside_reserved hk
  have hlets : ∀ allow : Allow, allow.lets (inside k) = allow.permits (inside k) := by
    intro allow
    rw [lets_reserved hinside, inside_unmap hk]
  have hlower : toLower p.tables url.hostname ≠ [] := fun h => hne ((toLower_eq_nil _ _).1 h)
  have hverdict : check p.tables (parseAllow p.tables []) (some [inside k]) url = .refused (toLower p.tables url.hostname) := by
    simp only [check, parseAllow_nil, if_neg hne, hnone, lookupNetIP, if_neg hlower, Option.map_some, internetAddrs_inside hk,
      any_cons, inside_reserved hk]
    rfl
  have haccepted := ((h [] (some [inside k]) fun _ => true).2.2 _ hverdict).1
  by_contra hnot
  have hhosts : toLower p.tables url.hostname ∉ (parseAllow p.tables ([] ++ ',' :: toLower p.tables url.hostname)).hosts := by
    rw [parseAllow_append, parseAllow_nil]
    exact hnot
  obtain ⟨found, hfound, hany⟩ := (check_name p hne hhosts hnone _).1 haccepted
  rw [← Option.some.inj hfound, internetAddrs_inside hk, any_cons, any_nil, Bool.or_false, hlets, parseAllow_append,
    parseAllow_nil] at hany
  rw [show (parseAllow p.tables (toLower p.tables url.hostname)).permits (inside k) = true from hany] at hunlisted
  cases hunlisted

theorem Agrees.dials_name (h : Agrees p url) (hne : url.hostname ≠ [])
    (hnone : parseAddr (toLower p.tables url.hostname) = none) :
    (url.dialHost p).map (toLower p.tables) = some (toLower p.tables url.hostname) := by
  have hlisted := h.listed_name hne hnone
  obtain ⟨hcomma, htrim⟩ := listed_alone p hlisted
  have hnoslash := noSlash_lower p url
  have hlower : toLower p.tables url.hostname ≠ [] := fun h => hne ((toLower_eq_nil _ _).1 h)
  have hallow := parseAllow_name (u := p.tables) hlower hnoslash hnone hcomma htrim
  have hinside : reserved (inside 0) = true := reserved_unmap (inside 0) ▸ inside_reserved (by decide)
  have hpermits : ∀ a, (parseAllow p.tables (toLower p.tables url.hostname)).permits a = false := by
    intro a
    rw [hallow]
    rfl
  -- The name is listed, and resolves to an address that is not.
  have haccepted : check p.tables (parseAllow p.tables (toLower p.tables url.hostname)) (some [inside 0]) url = .accepted :=
    (listed_lets p hne hlisted (rfl : toLower p.tables url.hostname = _) _ fun _ => true).1
  have htries := (h _ (some [inside 0]) fun _ => true).1.1 haccepted
  dsimp only at htries
  cases hdial : url.dialHost p with
  | none =>
    rw [hdial] at htries
    exact absurd htries id
  | some host =>
    rw [hdial] at htries
    rw [Option.map_some]
    by_contra hother
    have hhosts : toLower p.tables host ∉ (parseAllow p.tables (toLower p.tables url.hostname)).hosts := by
      rw [hallow, toLower_toLower, mem_singleton]
      exact fun he => hother (congrArg some he)
    have hhne : host ≠ [] := by
      rintro rfl
      simp only [guardedDial, if_neg hhosts] at htries
      exact htries
    cases ha : parseAddr host with
    | none =>
      obtain ⟨found, hfound, hany⟩ := (tries_name p hhne hhosts ha _ _).1 htries
      rw [← Option.some.inj hfound, internetAddrs_inside (by decide), any_cons, any_nil, Bool.or_false, lets_reserved hinside, hpermits] at hany
      cases hany
    | some a =>
      -- An address is tried that nobody lists, though the name does not resolve.
      have htried : (guardedDial p.tables (parseAllow p.tables []) none (fun _ => true) (url.dialHost p)).Tries := by
        have hfree : ∀ a, (parseAllow p.tables (toLower p.tables url.hostname)).lets a = true →
            (parseAllow p.tables []).lets a = true := by
          intro a hlets
          refine lets_free ?_
          by_contra hnot
          rw [lets_reserved (Bool.not_eq_false _ ▸ hnot), hpermits] at hlets
          cases hlets
        rw [hdial, tries_found p ha [] (addr_notHost p ha [])]
        obtain ⟨b, hb, hlets⟩ := any_eq_true.1 ((tries_found p ha _ hhosts _ _).1 htries)
        exact any_eq_true.2 ⟨b, hb, hfree b hlets⟩
      obtain ⟨found, hfound, -⟩ := (check_name p hne not_mem_nil hnone _).1 ((h [] none fun _ => true).1.2 htried)
      cases hfound

/-- **The guard judges a host as it is dialed exactly where the host is plain.** -/
theorem guard_agrees_iff (p : Platform) (url : Url) : Agrees p url ↔ Plain p url := by
  unfold Plain
  by_cases hne : url.hostname = []
  · exact iff_of_true (agrees_nil p hne) (.inl hne)
  simp only [hne, false_or]
  cases ha : parseAddr (toLower p.tables url.hostname) with
  | some =>
    dsimp only
    constructor
    · intro h
      rw [h.dials ha]
      exact ⟨rfl, h.plain_addr ha⟩
    · rintro ⟨hdial, hplain⟩
      exact agrees_addr p ha hdial hplain
  | none =>
    dsimp only
    constructor
    · intro h
      exact ⟨h.dials_name hne ha, listed_alone p (h.listed_name hne ha)⟩
    · rintro ⟨hdial, hcomma, htrim⟩
      exact agrees_name p hne ha hdial hcomma htrim

theorem lowered_settled : ∀ n < 0x80, lowerRune .ascii (lowerRune .ascii (Char.ofNat n)) = lowerRune .ascii (Char.ofNat n) := by
  decide

theorem settled_ascii (c : Char) : lowerRune .ascii (lowerRune .ascii c) = lowerRune .ascii c := by
  by_cases hc : c.toNat < 0x80
  · have h := lowered_settled c.toNat hc
    rwa [Char.ofNat_toNat] at h
  · have hupper : ¬Go.isAsciiUpper c = true := by
      rw [Go.isAsciiUpper_iff]
      omega
    have hforeign : ¬isAscii c = true := by
      unfold isAscii
      rwa [decide_eq_true_eq]
    by_cases hi : c = 'İ'
    · rw [hi]
      decide
    by_cases hk : c = '\u212A'
    · rw [hk]
      decide
    have hself : lowerRune .ascii c = c := by
      unfold lowerRune
      rw [if_neg hupper, if_neg hforeign, if_neg hi, if_neg hk]
      rfl
    rw [hself, hself]

def plainPlatform : Platform where
  tables := .ascii
  foreign _ hc _ _ := hc
  settled := settled_ascii
  toASCII _ := none
  colon _ _ := rfl

def mappedHost : Text := [':', ':', 'f', 'f', 'f', 'f', ':', '1', '0', '.', '0', '.', '0', '.', '1']

theorem mappedHost_noSlash : '/' ∉ mappedHost := by decide
theorem mappedHost_short : mappedHost.length < 2 ^ 63 := by decide

def mapped : Url := ⟨false, mappedHost, [], forall_mem_nil _, mappedHost_noSlash, mappedHost_short⟩

/-- **Listing the host that the refusal names changes nothing**: the list has the address of IPv6, and the guard asks for
the one of IPv4. -/
theorem mapped_not_agrees : ¬Agrees plainPlatform mapped := by
  intro h
  have hrefused : check plainPlatform.tables (parseAllow plainPlatform.tables []) none mapped = .refused mappedHost := by decide
  have hagain : check plainPlatform.tables (parseAllow plainPlatform.tables (',' :: mappedHost)) none mapped =
      .refused mappedHost := by decide
  have haccepted := ((h [] none fun _ => true).2.2 mappedHost hrefused).1
  dsimp only [nil_append] at haccepted
  rw [hagain] at haccepted
  cases haccepted

end Netguard
end Armature
