import Armature.GoUnicode
import Armature.TextWords
/-!
# NetAddr — addresses and ranges (`net/netip`)

An address is a number, with a zone where it has more than 32 bits.  `ParseAddr` cuts the zone off, and reads the rest by
what each rune is: a digit, a point, a colon.  A text is read the same where these are (`parseAddr_map`).
-/
namespace Armature
namespace Netip

open List
open Go (Text isAsciiDigit)

theorem pow32_pos : 0 < 2 ^ 32 := by decide
theorem pow128_pos : 0 < 2 ^ 128 := by decide

inductive Addr where
  | v4 (n : Fin (2 ^ 32))
  | v6 (n : Fin (2 ^ 128)) (zone : Text)
  deriving DecidableEq

theorem mapped_lt (n : Fin (2 ^ 32)) : 0xffff * 2 ^ 32 + n.val < 2 ^ 128 := by omega

namespace Addr

def ofNat4 (n : Nat) : Addr := .v4 ⟨n % 2 ^ 32, Nat.mod_lt _ pow32_pos⟩

def ofNat6 (n : Nat) (zone : Text) : Addr := .v6 ⟨n % 2 ^ 128, Nat.mod_lt _ pow128_pos⟩ zone

def bare : Addr → Addr
  | v4 n => v4 n
  | v6 n _ => v6 n []

def hasZone : Addr → Bool
  | v4 _ => false
  | v6 _ zone => !zone.isEmpty

def unmap : Addr → Addr
  | v4 n => v4 n
  | v6 n zone => if n.val / 2 ^ 32 = 0xffff then ofNat4 n.val else v6 n zone

def as16 : Addr → Addr
  | v4 n => v6 ⟨0xffff * 2 ^ 32 + n.val, mapped_lt n⟩ []
  | v6 n _ => v6 n []

def bitLen : Addr → Nat
  | v4 _ => 32
  | v6 _ _ => 128

/-! ## What an address that is not mapped is for -/

def isLoopback : Addr → Bool
  | v4 n => decide (n.val / 2 ^ 24 = 127)
  | v6 n _ => decide (n.val = 1)

def isPrivate : Addr → Bool
  | v4 n => decide (n.val / 2 ^ 24 = 10) || decide (n.val / 2 ^ 20 = 0xac1) || decide (n.val / 2 ^ 16 = 0xc0a8)
  | v6 n _ => decide (n.val / 2 ^ 121 = 0xfc / 2)

def isUnspecified : Addr → Bool
  | v4 n => decide (n.val = 0)
  | v6 n zone => decide (n.val = 0) && zone.isEmpty

def isLinkLocalUnicast : Addr → Bool
  | v4 n => decide (n.val / 2 ^ 16 = 0xa9fe)
  | v6 n _ => decide (n.val / 2 ^ 118 = 0xfe80 / 2 ^ 6)

def isLinkLocalMulticast : Addr → Bool
  | v4 n => decide (n.val / 2 ^ 8 = 0xe00000)
  | v6 n _ => decide (n.val / 2 ^ 120 = 0xff) && decide (n.val / 2 ^ 112 % 16 = 2)

def isMulticast : Addr → Bool
  | v4 n => decide (n.val / 2 ^ 28 = 0xe)
  | v6 n _ => decide (n.val / 2 ^ 120 = 0xff)

def isInterfaceLocalMulticast : Addr → Bool
  | v4 _ => false
  | v6 n _ => decide (n.val / 2 ^ 120 = 0xff) && decide (n.val / 2 ^ 112 % 16 = 1)

end Addr

/-! ## Ranges -/

structure Prefix where
  addr : Addr
  bits : Nat

def prefixFrom (addr : Addr) (bits : Nat) : Prefix := ⟨addr.bare, bits⟩

def Prefix.masked (p : Prefix) : Prefix :=
  match p.addr with
  | .v4 n => ⟨.ofNat4 (n.val / 2 ^ (32 - p.bits) * 2 ^ (32 - p.bits)), p.bits⟩
  | .v6 n zone => ⟨.ofNat6 (n.val / 2 ^ (128 - p.bits) * 2 ^ (128 - p.bits)) zone, p.bits⟩

def Prefix.contains (p : Prefix) (ip : Addr) : Bool :=
  match p.addr, ip with
  | .v4 m, .v4 n => decide (n.val / 2 ^ (32 - p.bits) = m.val / 2 ^ (32 - p.bits))
  | .v6 m _, .v6 n [] => decide (n.val / 2 ^ (128 - p.bits) = m.val / 2 ^ (128 - p.bits))
  | _, _ => false

/-! ## Reading an address -/

def hexValue (c : Char) : Option Nat :=
  if '0' ≤ c ∧ c ≤ '9' then some (c.toNat - '0'.toNat)
  else if 'a' ≤ c ∧ c ≤ 'f' then some (c.toNat - 'a'.toNat + 10)
  else if 'A' ≤ c ∧ c ≤ 'F' then some (c.toNat - 'A'.toNat + 10)
  else none

def isHex (c : Char) : Bool := (hexValue c).isSome

def hexNumber (ds : Text) : Nat := ds.foldl (fun n c => 16 * n + (hexValue c).getD 0) 0

def parseOctet (s : Text) : Option Nat :=
  if s ≠ [] ∧ s.all isAsciiDigit ∧ (s.length = 1 ∨ s.head? ≠ some '0') ∧ Go.atoi s ≤ 255 then some (Go.atoi s) else none

def parseIPv4Fields (s : Text) : Option Nat :=
  match s.splitOn '.' with
  | [a, b, c, d] => do
    let a ← parseOctet a
    let b ← parseOctet b
    let c ← parseOctet c
    let d ← parseOctet d
    some (((a * 256 + b) * 256 + c) * 256 + d)
  | _ => none

abbrev Groups := List Nat × Option Nat × Text

def parseGroups : Nat → Text → List Nat → Option Nat → Option Groups
  | 0, s, ip, ellipsis => some (ip, ellipsis, s)
  | left + 1, s, ip, ellipsis =>
    let digits := s.takeWhile isHex
    if digits = [] ∨ 4 < digits.length then none
    else
      match s.dropWhile isHex with
      | [] => some (ip ++ [hexNumber digits], ellipsis, [])
      | c :: t =>
        -- Followed by a point, it might be in a trailing IPv4.
        if c = '.' then
          if ellipsis = none ∧ ip.length ≠ 6 then none
          else if 8 < ip.length + 2 then none
          else (parseIPv4Fields s).map fun n => (ip ++ [n / 2 ^ 16, n % 2 ^ 16], ellipsis, [])
        else if c ≠ ':' then none
        else
          match t with
          | [] => none
          | d :: u =>
            if d = ':' then
              if ellipsis.isSome then none
              else if u = [] then some (ip ++ [hexNumber digits], some (ip.length + 1), [])
              else parseGroups left u (ip ++ [hexNumber digits]) (some (ip.length + 1))
            else parseGroups left t (ip ++ [hexNumber digits]) ellipsis

def expand : Groups → Option Nat
  | (ip, ellipsis, rest) =>
    if rest ≠ [] then none
    else
      (match ellipsis with
      | none => if ip.length < 8 then none else some ip
      | some k => if ip.length < 8 then some (ip.take k ++ List.replicate (8 - ip.length) 0 ++ ip.drop k) else none).map
        (List.foldl (fun n g => n * 2 ^ 16 + g) 0)

def parseBody (s : Text) : Option Nat :=
  if s = [':', ':'] then some 0
  else if s.take 2 = [':', ':'] then (parseGroups 8 (s.drop 2) [] (some 0)).bind expand
  else (parseGroups 8 s [] none).bind expand

def parseIPv6 (s : Text) : Option Addr :=
  let zone := s.dropWhile (· != '%')
  if zone = ['%'] then none else (parseBody (s.takeWhile (· != '%'))).map fun n => .ofNat6 n zone.tail

def parseAddr (s : Text) : Option Addr :=
  match s.find? fun c => c == '.' || c == ':' || c == '%' with
  | some '.' => (parseIPv4Fields s).map .ofNat4
  | some ':' => parseIPv6 s
  | _ => none

def parsePrefix (s : Text) : Option Prefix :=
  if '/' ∈ s then
    let addr := (s.reverse.dropWhile (· != '/')).tail.reverse
    let bits := (s.reverse.takeWhile (· != '/')).reverse
    match parseAddr addr with
    | none => none
    | some a =>
      if a.hasZone || bits.isEmpty || !bits.all isAsciiDigit || decide (1 < bits.length ∧ bits.head? = some '0') ||
          decide (a.bitLen < Go.atoi bits) then none
      else some (prefixFrom a (Go.atoi bits))
  else none

/-! ## Texts that are read the same -/

structure Reads (f : Char → Char) : Prop where
  mark : ∀ m ∈ ['.', ':', '%'], ∀ c, f c = m ↔ c = m
  hex : ∀ c, hexValue (f c) = hexValue c
  digit : ∀ c, isAsciiDigit (f c) = isAsciiDigit c
  decimal : ∀ c, isAsciiDigit c = true → f c = c

def Addr.mapZone (f : Char → Char) : Addr → Addr
  | v4 n => v4 n
  | v6 n zone => v6 n (zone.map f)

theorem splitOn_map {f : Char → Char} {m : Char} (hm : ∀ c, f c = m ↔ c = m) (s : Text) :
    (s.map f).splitOn m = (s.splitOn m).map (List.map f) := by
  induction s with
  | nil => rfl
  | cons c s ih =>
    rw [map_cons, splitOn_cons_eq_if_modifyHead, splitOn_cons_eq_if_modifyHead, ih]
    by_cases hc : c = m
    · rw [if_pos (by simpa using (hm c).2 hc), if_pos (by simpa using hc)]
      rfl
    · rw [if_neg (by simpa using fun he => hc ((hm c).1 he)), if_neg (by simpa using hc)]
      cases s.splitOn m <;> rfl

theorem expand_map (f : Char → Char) (g : Groups) : expand (g.1, g.2.1, g.2.2.map f) = expand g := by
  obtain ⟨ip, ellipsis, rest⟩ := g
  unfold expand
  simp only [ne_eq, map_eq_nil_iff]

section
variable {f : Char → Char} (hf : Reads f)
include hf

theorem map_decimal {s : Text} (h : s.all isAsciiDigit = true) : s.map f = s := by
  rw [all_eq_true] at h
  exact (map_congr_left fun c hc => hf.decimal c (h c hc)).trans (map_id s)

theorem parseOctet_map (s : Text) : parseOctet (s.map f) = parseOctet s := by
  by_cases hs : s.all isAsciiDigit = true
  · rw [map_decimal hf hs]
  · have hs' : ¬(s.map f).all isAsciiDigit = true := by
      rw [all_map]
      simpa [Function.comp_def, hf.digit] using hs
    unfold parseOctet
    rw [if_neg fun h => hs' h.2.1, if_neg fun h => hs h.2.1]

theorem parseIPv4Fields_map (s : Text) : parseIPv4Fields (s.map f) = parseIPv4Fields s := by
  unfold parseIPv4Fields
  rw [splitOn_map (hf.mark '.' (by simp))]
  rcases s.splitOn '.' with _ | ⟨a, _ | ⟨b, _ | ⟨c, _ | ⟨d, _ | ⟨e, l⟩⟩⟩⟩⟩ <;> simp [parseOctet_map hf]

theorem hexNumber_map (ds : Text) : hexNumber (ds.map f) = hexNumber ds := by
  unfold hexNumber
  rw [foldl_map]
  simp only [hf.hex]

theorem isHex_comp : isHex ∘ f = isHex := by
  funext c
  unfold isHex
  rw [Function.comp_apply, hf.hex]

theorem mark_dot (c : Char) : f c = '.' ↔ c = '.' := hf.mark '.' (by simp) c
theorem mark_colon (c : Char) : f c = ':' ↔ c = ':' := hf.mark ':' (by simp) c

theorem parseGroups_map : ∀ (left : Nat) (s : Text) (ip : List Nat) (ellipsis : Option Nat),
    parseGroups left (s.map f) ip ellipsis = (parseGroups left s ip ellipsis).map fun g => (g.1, g.2.1, g.2.2.map f)
  | 0, s, ip, ellipsis => rfl
  | left + 1, s, ip, ellipsis => by
    have hdigits : (s.map f).takeWhile isHex = (s.takeWhile isHex).map f := by rw [takeWhile_map, isHex_comp hf]
    have hrest : (s.map f).dropWhile isHex = (s.dropWhile isHex).map f := by rw [dropWhile_map, isHex_comp hf]
    have hempty : (s.takeWhile isHex).map f = [] ∨ 4 < ((s.takeWhile isHex).map f).length ↔
        s.takeWhile isHex = [] ∨ 4 < (s.takeWhile isHex).length := by rw [map_eq_nil_iff, length_map]
    unfold parseGroups
    simp only [hdigits, hrest, hexNumber_map hf, hempty]
    split
    · rfl
    rcases s.dropWhile isHex with _ | ⟨c, t⟩
    · rfl
    simp only [map_cons, mark_dot hf, mark_colon hf, ne_eq]
    split
    · rw [parseIPv4Fields_map hf]
      split
      · rfl
      split
      · rfl
      · rw [Option.map_map]
        rfl
    split
    · rfl
    rcases t with _ | ⟨d, u⟩
    · rfl
    simp only [map_cons, mark_colon hf, map_eq_nil_iff]
    split
    · split
      · rfl
      split
      · rfl
      · exact parseGroups_map left u _ _
    · exact parseGroups_map left (d :: u) _ _

theorem parseBody_map (s : Text) : parseBody (s.map f) = parseBody s := by
  have hgroups : ∀ (t : Text) (ellipsis : Option Nat),
      (parseGroups 8 (t.map f) [] ellipsis).bind expand = (parseGroups 8 t [] ellipsis).bind expand := by
    intro t ellipsis
    rw [parseGroups_map hf, Option.bind_map]
    exact congrArg _ (funext fun g => expand_map f g)
  have hcolons : ∀ t : Text, t.map f = [':', ':'] ↔ t = [':', ':'] := by
    intro t
    rcases t with _ | ⟨a, _ | ⟨b, _ | ⟨c, t⟩⟩⟩ <;> simp [mark_colon hf]
  unfold parseBody
  simp only [← map_take, ← map_drop, hcolons, hgroups]

theorem percent_comp : (fun c => c != '%') ∘ f = fun c => c != '%' := by
  funext c
  have h : f c = '%' ↔ c = '%' := hf.mark '%' (by simp) c
  rw [Function.comp_apply, Bool.eq_iff_iff, bne_iff_ne, bne_iff_ne]
  exact not_congr h

theorem map_percent (s : Text) : s.map f = ['%'] ↔ s = ['%'] := by
  have h : ∀ c, f c = '%' ↔ c = '%' := hf.mark '%' (by simp)
  rcases s with _ | ⟨a, _ | ⟨b, s⟩⟩ <;> simp [h]

theorem parseIPv6_map (s : Text) : parseIPv6 (s.map f) = (parseIPv6 s).map (Addr.mapZone f) := by
  have hzone : (s.map f).dropWhile (· != '%') = (s.dropWhile (· != '%')).map f := by
    rw [dropWhile_map, percent_comp hf]
  have hbody : (s.map f).takeWhile (· != '%') = (s.takeWhile (· != '%')).map f := by
    rw [takeWhile_map, percent_comp hf]
  unfold parseIPv6
  simp only [hzone, hbody, map_percent hf, parseBody_map hf]
  split
  · rfl
  · rw [Option.map_map]
    refine congrArg (fun g => Option.map g _) (funext fun n => ?_)
    rw [← map_tail]
    rfl

theorem parseAddr_map (s : Text) : parseAddr (s.map f) = (parseAddr s).map (Addr.mapZone f) := by
  have hmark : (fun c => c == '.' || c == ':' || c == '%') ∘ f = fun c => c == '.' || c == ':' || c == '%' := by
    funext c
    have h : ∀ m ∈ ['.', ':', '%'], (f c == m) = (c == m) := by
      intro m hm
      rw [Bool.eq_iff_iff, beq_iff_eq, beq_iff_eq]
      exact hf.mark m hm c
    rw [Function.comp_apply, h '.' (by simp), h ':' (by simp), h '%' (by simp)]
  unfold parseAddr
  rw [List.find?_map, hmark]
  rcases hfind : s.find? (fun c => c == '.' || c == ':' || c == '%') with _ | c
  · rfl
  · have hc := List.find?_some hfind
    simp only [Bool.or_eq_true, beq_iff_eq] at hc
    rcases hc with (rfl | rfl) | rfl
    · have hdot : f '.' = '.' := (mark_dot hf '.').2 rfl
      simp only [Option.map_some, hdot, parseIPv4Fields_map hf, Option.map_map]
      rfl
    · have hcolon : f ':' = ':' := (mark_colon hf ':').2 rfl
      simp only [Option.map_some, hcolon, parseIPv6_map hf]
    · have hpercent : f '%' = '%' := (hf.mark '%' (by simp) '%').2 rfl
      simp only [Option.map_some, hpercent]
      rfl

end

/-! ## The same address in other forms -/

@[simp] theorem bare_mapZone (f : Char → Char) (a : Addr) : (a.mapZone f).bare = a.bare := by cases a <;> rfl

theorem unmap_as16 (a : Addr) : a.as16.unmap = a.bare.unmap := by
  cases a with
  | v4 n =>
    have hn : (0xffff * 2 ^ 32 + n.val) / 2 ^ 32 = 0xffff := by omega
    have hm : (0xffff * 2 ^ 32 + n.val) % 2 ^ 32 = n.val := by omega
    simp only [Addr.as16, Addr.bare, Addr.unmap, Addr.ofNat4, hn, if_true, hm]
  | v6 => rfl

theorem unmap_unmap (a : Addr) : a.unmap.unmap = a.unmap := by
  cases a with
  | v4 => rfl
  | v6 n zone =>
    by_cases hn : n.val / 2 ^ 32 = 0xffff
    · simp only [Addr.unmap, if_pos hn, Addr.ofNat4]
    · simp only [Addr.unmap, if_neg hn]

/-! ## How an address is spelled -/

theorem mem_piece {m c : Char} {s : Text} (hc : c ∈ s) : c = m ∨ ∃ piece ∈ s.splitOn m, c ∈ piece := by
  induction s using byPieces m with
  | last s hs =>
    rw [splitOn_of_notMem hs]
    exact .inr ⟨s, mem_singleton_self s, hc⟩
  | more s t hs ih =>
    rw [splitOn_append_cons hs]
    rcases mem_append.1 hc with hc | hc
    · exact .inr ⟨s, mem_cons_self, hc⟩
    · rcases mem_cons.1 hc with hc | hc
      · exact .inl hc
      · rcases ih hc with hc | ⟨piece, hp, hc⟩
        · exact .inl hc
        · exact .inr ⟨piece, mem_cons_of_mem _ hp, hc⟩

theorem parseOctet_digits {s : Text} {n : Nat} (h : parseOctet s = some n) : ∀ c ∈ s, isAsciiDigit c = true := by
  unfold parseOctet at h
  split at h
  · rename_i hs
    exact all_eq_true.1 hs.2.1
  · cases h

theorem parseIPv4Fields_digits {s : Text} {n : Nat} (h : parseIPv4Fields s = some n) :
    ∀ piece ∈ s.splitOn '.', ∀ c ∈ piece, isAsciiDigit c = true := by
  unfold parseIPv4Fields at h
  split at h
  · rename_i a b c d hsplit
    simp only [Option.bind_eq_bind, Option.bind_eq_some_iff] at h
    obtain ⟨w, hw, x, hx, y, hy, z, hz, -⟩ := h
    rw [hsplit]
    simp only [forall_mem_cons]
    exact ⟨parseOctet_digits hw, parseOctet_digits hx, parseOctet_digits hy, parseOctet_digits hz, forall_mem_nil _⟩
  · cases h

theorem parseAddr_spelled {s : Text} {a : Addr} (h : parseAddr s = some a) :
    ':' ∈ s ∨ ∀ c ∈ s, c = '.' ∨ isAsciiDigit c = true := by
  unfold parseAddr at h
  split at h
  · obtain ⟨n, hn, -⟩ := Option.map_eq_some_iff.1 h
    refine .inr fun c hc => ?_
    rcases mem_piece (m := '.') hc with hdot | ⟨piece, hp, hc⟩
    · exact .inl hdot
    · exact .inr (parseIPv4Fields_digits hn piece hp c hc)
  · rename_i hfind
    exact .inl (mem_of_find?_eq_some hfind)
  · cases h

theorem contains_single {a b : Addr} (h : (prefixFrom a a.bitLen).contains b = true) : b = a.bare := by
  cases a with
  | v4 n =>
    cases b with
    | v4 m =>
      have hm : m.val / 2 ^ (32 - 32) = n.val / 2 ^ (32 - 32) := of_decide_eq_true h
      rw [Nat.sub_self, pow_zero, Nat.div_one, Nat.div_one] at hm
      rw [Fin.ext hm]
      rfl
    | v6 => cases h
  | v6 n zone =>
    cases b with
    | v4 => cases h
    | v6 m zone' =>
      cases zone' with
      | cons => cases h
      | nil =>
        have hm : m.val / 2 ^ (128 - 128) = n.val / 2 ^ (128 - 128) := of_decide_eq_true h
        rw [Nat.sub_self, pow_zero, Nat.div_one, Nat.div_one] at hm
        rw [Fin.ext hm]
        rfl

end Netip
end Armature
