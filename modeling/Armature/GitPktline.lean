import Armature.GoBytes
import Armature.GoText
import Mathlib.Tactic.SplitIfs
/-!
# GitPktline — the commands of a push, as the proxy reads them (`git/pktline.go`)

A push is pkt-lines up to a flush, the client's push options if it asked for them, and the pack.  `parsePush` is the proxy's
reading and `Host.read` the one of the host that the body goes on to; `parsePush_agrees_iff` says when they are the same.
-/
namespace Armature
namespace Git

open List
open Go (Bytes bytes)

def pktHeaderLen : Nat := 4

def zeroOID (oid : Bytes) : Bool := oid.all (· = 48)

structure RefUpdate where
  old : Bytes
  new : Bytes
  ref : Bytes
  deriving DecidableEq

def RefUpdate.deletes (u : RefUpdate) : Bool := zeroOID u.new

def RefUpdate.creates (u : RefUpdate) : Bool := zeroOID u.old

structure PushRequest where
  updates : List RefUpdate
  capabilities : List Bytes
  certificate : Bool
  pack : Bytes
  deriving DecidableEq

def PushRequest.asked (p : PushRequest) (capability : Bytes) : Bool := p.capabilities.contains capability

/-- What `ErrBadPush` is wrapped with. -/
inductive BadPush where
  | cutShort
  | notALength (header : Bytes)
  | doesNotFit (n : Nat)
  | notACommand (line : Bytes)
  | namesNoRef
  deriving DecidableEq

def readPkt (b : Bytes) : Except BadPush (Option Bytes × Bytes) :=
  if b.length < pktHeaderLen then .error .cutShort
  else
    match Go.parseHex (b.take pktHeaderLen) with
    | none => .error (.notALength (b.take pktHeaderLen))
    | some n =>
      if n = 0 then .ok (none, b.drop pktHeaderLen)
      else if n < pktHeaderLen ∨ b.length < n then .error (.doesNotFit n)
      else .ok (some ((b.take n).drop pktHeaderLen), b.drop n)

def pktLine (payload : Bytes) : Bytes := Go.hex4 (payload.length + pktHeaderLen) ++ payload

def isOID (s : Bytes) : Bool :=
  (s.length == 40 || s.length == 64) && s.all fun c => (48 ≤ c && c ≤ 57) || (97 ≤ c && c ≤ 102)

def shallowPrefix : Bytes := bytes "shallow "

def pushCert : Bytes := bytes "push-cert"

def pushOptions : Bytes := bytes "push-options"

def readLine (first : Bool) (payload : Bytes) : Bytes × Option (List Bytes) :=
  let line := Go.trimSuffix 10 payload
  if first then
    match Go.cut 0 line with
    | some (cmd, caps) => (cmd, some (Go.fields caps))
    | none => (line, none)
  else (line, none)

def command (line : Bytes) : Except BadPush RefUpdate :=
  match Go.fields line with
  | [old, new, ref] => if isOID old && isOID new then .ok ⟨old, new, ref⟩ else .error (.notACommand line)
  | _ => .error (.notACommand line)

def readCommands : Nat → Bytes → PushRequest → Bool → Except BadPush (PushRequest × Bytes)
  | 0, _, _, _ => .error .cutShort
  | fuel + 1, rest, push, first => do
    let (pkt, next) ← readPkt rest
    match pkt with
    | none => .ok (push, next)
    | some payload =>
      let (line, caps) := readLine first payload
      let push := { push with capabilities := caps.getD push.capabilities }
      if first && line == pushCert then .ok ({ push with certificate := true }, next)
      else if shallowPrefix.isPrefixOf line then readCommands fuel next push first
      else do
        let u ← command line
        readCommands fuel next { push with updates := push.updates ++ [u] } false

def skipOptions : Nat → Bytes → Except BadPush Bytes
  | 0, _ => .error .cutShort
  | fuel + 1, rest => do
    let (pkt, next) ← readPkt rest
    match pkt with
    | none => .ok next
    | some _ => skipOptions fuel next

def parsePush (body : Bytes) : Except BadPush PushRequest := do
  let (push, rest) ← readCommands (body.length + 1) body ⟨[], [], false, []⟩ true
  if push.certificate then .ok push
  else if push.updates = [] then .error .namesNoRef
  else if push.asked pushOptions then do
    let rest ← skipOptions (rest.length + 1) rest
    .ok { push with pack := rest }
  else .ok { push with pack := rest }

/-! ## The host's reading -/

namespace Host

def lines : Nat → Bytes → Option (List Bytes × Bytes)
  | 0, _ => none
  | fuel + 1, b =>
    match readPkt b with
    | .ok (none, rest) => some ([], rest)
    | .ok (some payload, rest) => (lines fuel rest).map fun r => (payload :: r.1, r.2)
    | .error _ => none

def isShallow (payload : Bytes) : Bool := shallowPrefix.isPrefixOf payload

def said (payload : Bytes) : Bytes := Go.upTo 0 (Go.trimSuffix 10 payload)

def command (payload : Bytes) : Option RefUpdate :=
  match Go.cut 32 (said payload) with
  | some (old, rest) =>
    match Go.cut 32 rest with
    | some (new, ref) => if isOID old && isOID new then some ⟨old, new, ref⟩ else none
    | none => none
  | none => none

def features (payload : Bytes) : Bytes :=
  match Go.cut 0 (Go.trimSuffix 10 payload) with
  | some (_, caps) => Go.upTo 0 caps
  | none => []

def words (b : Bytes) : List Bytes := b.splitOnP fun c => c = 32 ∨ c = 9 ∨ c = 10 ∨ c = 13

def asks (payload : Bytes) : Bool :=
  (words (features payload)).any fun w => w == pushOptions || (pushOptions ++ [61]).isPrefixOf w

def read (body : Bytes) : Option (List RefUpdate × Bytes) := do
  let (payloads, rest) ← lines (body.length + 1) body
  let commands := payloads.filter fun p => !isShallow p
  let updates ← commands.mapM command
  if commands.any asks then
    let (_, pack) ← lines (rest.length + 1) rest
    some (updates, pack)
  else some (updates, rest)

end Host

/-! ## Framing -/

theorem readPkt_length {b rest : Bytes} {pkt : Option Bytes} (h : readPkt b = .ok (pkt, rest)) : rest.length < b.length := by
  unfold readPkt pktHeaderLen at h
  split_ifs at h with hlen
  split at h
  · cases h
  · rename_i n _
    split_ifs at h with h0 hn
    · cases h
      rw [length_drop]
      omega
    · cases h
      rw [length_drop]
      omega

theorem readCommands_fuel : ∀ {n m : Nat} {rest : Bytes} {push : PushRequest} {first : Bool}, rest.length < n → rest.length < m →
    readCommands n rest push first = readCommands m rest push first
  | n + 1, m + 1, rest, push, first, hn, hm => by
    unfold readCommands
    cases hp : readPkt rest with
    | error => rfl
    | ok r =>
      obtain ⟨pkt, next⟩ := r
      have hlt := readPkt_length hp
      have ih : ∀ push first, readCommands n next push first = readCommands m next push first := fun _ _ =>
        readCommands_fuel (by omega) (by omega)
      cases pkt with
      | none => rfl
      | some => simp only [bind, Except.bind, ih]

theorem skipOptions_fuel : ∀ {n m : Nat} {rest : Bytes}, rest.length < n → rest.length < m → skipOptions n rest = skipOptions m rest
  | n + 1, m + 1, rest, hn, hm => by
    unfold skipOptions
    cases hp : readPkt rest with
    | error => rfl
    | ok r =>
      obtain ⟨pkt, next⟩ := r
      have hlt := readPkt_length hp
      cases pkt with
      | none => rfl
      | some payload => exact skipOptions_fuel (by omega) (by omega)

theorem skipOptions_iff : ∀ {n : Nat} {rest pack : Bytes},
    skipOptions n rest = .ok pack ↔ ∃ options, Host.lines n rest = some (options, pack)
  | 0, rest, pack => by simp [skipOptions, Host.lines]
  | n + 1, rest, pack => by
    unfold skipOptions Host.lines
    cases hp : readPkt rest with
    | error => simp [bind, Except.bind]
    | ok r =>
      obtain ⟨pkt, next⟩ := r
      cases pkt with
      | none => simp [bind, Except.bind, eq_comm]
      | some payload =>
        simp only [bind, Except.bind, skipOptions_iff (n := n), Option.map_eq_some_iff, Prod.exists, Prod.mk.injEq]
        constructor
        · rintro ⟨options, ho⟩
          exact ⟨payload :: options, options, pack, ho, rfl, rfl⟩
        · rintro ⟨_, options, p, ho, -, rfl⟩
          exact ⟨options, ho⟩

theorem lines_length : ∀ {n : Nat} {b rest : Bytes} {payloads : List Bytes},
    Host.lines n b = some (payloads, rest) → rest.length < b.length
  | n + 1, b, rest, payloads, h => by
    unfold Host.lines at h
    split at h
    · rename_i hp
      cases h
      exact readPkt_length hp
    · rename_i next hp
      obtain ⟨r, hr, heq⟩ := Option.map_eq_some_iff.1 h
      cases heq
      exact lt_trans (lines_length hr) (readPkt_length hp)
    · cases h

/-! ## The loop, line by line -/

def readPayloads : List Bytes → PushRequest → Bool → Option PushRequest
  | [], push, _ => some push
  | payload :: rest, push, first =>
    let (line, caps) := readLine first payload
    let push := { push with capabilities := caps.getD push.capabilities }
    if first && line == pushCert then none
    else if shallowPrefix.isPrefixOf line then readPayloads rest push first
    else
      match command line with
      | .ok u => readPayloads rest { push with updates := push.updates ++ [u] } false
      | .error _ => none

theorem readCommands_lines : ∀ {n : Nat} {rest rest' : Bytes} {push push' : PushRequest} {first : Bool},
    readCommands n rest push first = .ok (push', rest') → push'.certificate = false →
      ∃ payloads, Host.lines n rest = some (payloads, rest') ∧ readPayloads payloads push first = some push'
  | n + 1, rest, rest', push, push', first, h, hc => by
    unfold readCommands at h
    obtain ⟨⟨pkt, next⟩, hp, h⟩ := Go.bind_ok.1 h
    unfold Host.lines
    rw [hp]
    cases pkt with
    | none =>
      cases h
      exact ⟨[], rfl, rfl⟩
    | some payload =>
      dsimp only at h
      split_ifs at h with hcert hshallow
      · cases h
        cases hc
      · obtain ⟨payloads, hl, hr⟩ := readCommands_lines h hc
        refine ⟨payload :: payloads, by simp [hl], ?_⟩
        unfold readPayloads
        dsimp only
        rw [if_neg hcert, if_pos hshallow]
        exact hr
      · obtain ⟨u, hu, h⟩ := Go.bind_ok.1 h
        obtain ⟨payloads, hl, hr⟩ := readCommands_lines h hc
        refine ⟨payload :: payloads, by simp [hl], ?_⟩
        unfold readPayloads
        dsimp only
        rw [if_neg hcert, if_neg hshallow, hu]
        exact hr

/-! ## One line -/

theorem prefix_trimSuffix {pre b : Bytes} {suffix : UInt8} (h : pre.getLast? ≠ some suffix) :
    pre.isPrefixOf (Go.trimSuffix suffix b) = pre.isPrefixOf b := by
  unfold Go.trimSuffix
  split
  · rename_i hlast
    obtain ⟨init, hinit⟩ := List.getLast?_eq_some_iff.1 hlast
    rw [Bool.eq_iff_iff, isPrefixOf_iff_prefix, isPrefixOf_iff_prefix, hinit, dropLast_concat,
      prefix_concat_iff]
    constructor
    · exact Or.inr
    · rintro (heq | hpre)
      · exact absurd (by rw [heq, List.getLast?_concat]) h
      · exact hpre
  · rfl

theorem prefix_upTo {pre b : Bytes} {sep : UInt8} (h : sep ∉ pre) : pre.isPrefixOf (Go.upTo sep b) = pre.isPrefixOf b := by
  rw [Bool.eq_iff_iff, isPrefixOf_iff_prefix, isPrefixOf_iff_prefix]
  constructor
  · exact fun hpre => hpre.trans ( takeWhile_prefix _)
  · rintro ⟨t, rfl⟩
    unfold Go.upTo
    rw [takeWhile_append_of_pos fun c hc => by simpa using fun heq : c = sep => h (heq ▸ hc)]
    exact prefix_append _ _

theorem readLine_shallow (first : Bool) (payload : Bytes) :
    shallowPrefix.isPrefixOf (readLine first payload).1 = Host.isShallow payload := by
  have htrim : shallowPrefix.isPrefixOf (Go.trimSuffix 10 payload) = Host.isShallow payload := prefix_trimSuffix (by decide)
  unfold readLine
  cases first with
  | false => exact htrim
  | true =>
    dsimp only [if_true]
    cases hc : Go.cut 0 (Go.trimSuffix 10 payload) with
    | none => exact htrim
    | some r =>
      obtain ⟨cmd, caps⟩ := r
      rw [← htrim]
      have hup : Go.upTo 0 (Go.trimSuffix 10 payload) = cmd := by
        obtain ⟨heq, hnot⟩ := Go.cut_eq_some hc
        rw [heq, Go.upTo_append_of_notMem hnot]
      rw [← hup]
      exact prefix_upTo (by decide)

theorem isOID_notMem {s : Bytes} (h : isOID s = true) : (32 : UInt8) ∉ s := by
  intro hmem
  have hall := all_eq_true.1 (Bool.and_eq_true_iff.1 h).2 32 hmem
  exact absurd hall (by decide)

theorem Host.command_iff {payload : Bytes} {u : RefUpdate} : Host.command payload = some u ↔
    isOID u.old = true ∧ isOID u.new = true ∧ Host.said payload = u.old ++ 32 :: (u.new ++ 32 :: u.ref) := by
  unfold Host.command
  constructor
  · intro h
    split at h
    · rename_i old rest hold
      split at h
      · rename_i new ref hnew
        split_ifs at h with hids
        cases h
        obtain ⟨ho, hn⟩ := Bool.and_eq_true_iff.1 hids
        rw [(Go.cut_eq_some hold).1, (Go.cut_eq_some hnew).1]
        exact ⟨ho, hn, rfl⟩
      · cases h
    · cases h
  · rintro ⟨ho, hn, hs⟩
    rw [hs, Go.cut_append_of_notMem (isOID_notMem ho)]
    dsimp only
    rw [Go.cut_append_of_notMem (isOID_notMem hn)]
    dsimp only
    rw [if_pos (by rw [ho, hn]; rfl)]

theorem command_ok {line : Bytes} {u : RefUpdate} (h : command line = .ok u) :
    Go.fields line = [u.old, u.new, u.ref] ∧ isOID u.old = true ∧ isOID u.new = true := by
  unfold command at h
  split at h
  · rename_i old new ref hf
    split_ifs at h with hids
    cases h
    exact ⟨hf, Bool.and_eq_true_iff.1 hids⟩
  · cases h

theorem command_agrees {payload line : Bytes} {u : RefUpdate} (h : command line = .ok u) :
    Host.command payload = some u ↔ Host.said payload = Go.joinSpace (Go.fields line) := by
  obtain ⟨hf, ho, hn⟩ := command_ok h
  rw [Host.command_iff, hf]
  simp [ho, hn, Go.joinSpace]

/-! ## All lines -/

def commandLines (payloads : List Bytes) : List Bytes := payloads.filter fun p => !Host.isShallow p

def Literal (payloads : List Bytes) : Prop :=
  (∀ p ∈ commandLines payloads, Go.OneSpaced (Host.said p)) ∧ ∀ p ∈ (commandLines payloads).tail, 0 ∉ Go.trimSuffix 10 p

instance (payloads : List Bytes) : Decidable (Literal payloads) := inferInstanceAs (Decidable (_ ∧ _))

def behindNul (payload : Bytes) : Option Bytes := (Go.cut 0 (Go.trimSuffix 10 payload)).map Prod.snd

def capabilityList (payloads : List Bytes) : Option Bytes :=
  ((payloads.takeWhile Host.isShallow ++ (commandLines payloads).take 1).filterMap behindNul).getLast?

def AsksProxy (payloads : List Bytes) : Prop := ∃ caps ∈ capabilityList payloads, Go.Stands pushOptions caps

set_option maxRecDepth 2000 in
theorem asksProxy_iff (payloads : List Bytes) : AsksProxy payloads ↔ pushOptions ∈ ((capabilityList payloads).map Go.fields).getD [] := by
  unfold AsksProxy
  cases capabilityList payloads with
  | none => simp
  | some caps => simp [Go.mem_fields_iff (by decide : pushOptions ≠ []) (by decide) caps]

instance (payloads : List Bytes) : Decidable (AsksProxy payloads) := decidable_of_iff _ (asksProxy_iff payloads).symm

theorem readLine_first (payload : Bytes) : (readLine true payload).1 = Host.said payload := by
  unfold readLine Host.said
  dsimp only [if_true]
  cases hc : Go.cut 0 (Go.trimSuffix 10 payload) with
  | none => exact (Go.upTo_of_cut_none hc).symm
  | some =>
    obtain ⟨heq, hnot⟩ := Go.cut_eq_some hc
    rw [heq, Go.upTo_append_of_notMem hnot]
    exact congrArg Prod.fst (if_pos rfl)

theorem first_agrees {payload : Bytes} {u : RefUpdate} (h : command (readLine true payload).1 = .ok u) :
    Host.command payload = some u ↔ Go.OneSpaced (Host.said payload) := by
  rw [command_agrees h, readLine_first, ← Go.joinSpace_fields_iff]

theorem later_agrees {payload : Bytes} {u : RefUpdate} (h : command (readLine false payload).1 = .ok u) :
    Host.command payload = some u ↔ Go.OneSpaced (Host.said payload) ∧ 0 ∉ Go.trimSuffix 10 payload := by
  rw [command_agrees h]
  change Host.said payload = Go.joinSpace (Go.fields (Go.trimSuffix 10 payload)) ↔ _
  unfold Host.said
  constructor
  · intro heq
    have hnot : 0 ∉ Go.trimSuffix 10 payload := by
      intro hmem
      refine Go.notMem_upTo 0 (Go.trimSuffix 10 payload) ?_
      rw [heq]
      exact Go.nul_mem_joinSpace_fields hmem
    rw [Go.upTo_of_notMem hnot] at heq ⊢
    exact ⟨(Go.joinSpace_fields_iff _).1 heq, hnot⟩
  · rintro ⟨hspaced, hnot⟩
    rw [Go.upTo_of_notMem hnot] at hspaced ⊢
    exact (Go.joinSpace_fields_iff _).2 hspaced

theorem mapM_command_cons {payload : Bytes} {ps : List Bytes} {u : RefUpdate} {us : List RefUpdate} {P Q : Prop}
    (hp : Host.command payload = some u ↔ P) (hps : ps.mapM Host.command = some us ↔ Q) :
    (payload :: ps).mapM Host.command = some (u :: us) ↔ P ∧ Q := by
  rw [mapM_cons, ← hp, ← hps]
  cases Host.command payload <;> cases ps.mapM Host.command <;> simp

theorem readPayloads_later : ∀ {payloads : List Bytes} {push push' : PushRequest}, readPayloads payloads push false = some push' →
    push'.capabilities = push.capabilities ∧ ∃ us, push'.updates = push.updates ++ us ∧
      ((commandLines payloads).mapM Host.command = some us ↔
        ∀ p ∈ commandLines payloads, Go.OneSpaced (Host.said p) ∧ 0 ∉ Go.trimSuffix 10 p)
  | [], push, push', h => by
    cases h
    exact ⟨rfl, [], by simp, by simp [commandLines]⟩
  | payload :: rest, push, push', h => by
    unfold readPayloads at h
    dsimp only at h
    rw [readLine_shallow] at h
    split_ifs at h with hcert hshallow
    · obtain ⟨hcaps, us, hus, hiff⟩ := readPayloads_later h
      refine ⟨hcaps, us, hus, ?_⟩
      rw [commandLines, filter_cons_of_neg (by simp [hshallow])]
      exact hiff
    · split at h
      · rename_i u hu
        obtain ⟨hcaps, us, hus, hiff⟩ := readPayloads_later h
        refine ⟨hcaps, u :: us, by simp [hus], ?_⟩
        rw [commandLines, filter_cons_of_pos (by simp [hshallow]), forall_mem_cons]
        exact mapM_command_cons (later_agrees hu) hiff
      · cases h

theorem readPayloads_ok : ∀ {payloads : List Bytes} {push push' : PushRequest}, readPayloads payloads push true = some push' →
    push'.capabilities = ((capabilityList payloads).map Go.fields).getD push.capabilities ∧ ∃ us, push'.updates = push.updates ++ us ∧
      ((commandLines payloads).mapM Host.command = some us ↔ Literal payloads)
  | [], push, push', h => by
    cases h
    exact ⟨rfl, [], by simp, by simp [commandLines, Literal]⟩
  | payload :: rest, push, push', h => by
    unfold readPayloads at h
    dsimp only at h
    rw [readLine_shallow, readLine_caps] at h
    split_ifs at h with hcert hshallow
    · obtain ⟨hcaps, us, hus, hiff⟩ := readPayloads_ok h
      refine ⟨?_, us, hus, ?_⟩
      · rw [hcaps]
        unfold capabilityList commandLines
        rw [filter_cons_of_neg (by simp [hshallow]), takeWhile_cons_of_pos hshallow, cons_append]
        exact (stated_getD _ _ _).symm
      · unfold Literal commandLines
        rw [filter_cons_of_neg (by simp [hshallow])]
        exact hiff
    · split at h
      · rename_i u hu
        obtain ⟨hcaps, us, hus, hiff⟩ := readPayloads_later h
        have hlines : commandLines (payload :: rest) = payload :: commandLines rest := filter_cons_of_pos (by simp [hshallow])
        refine ⟨?_, u :: us, by simp [hus], ?_⟩
        · rw [hcaps]
          unfold capabilityList
          rw [hlines, takeWhile_cons_of_neg hshallow]
          exact (stated_getD payload [] push.capabilities).symm
        · unfold Literal
          rw [hlines, mapM_command_cons (first_agrees hu) hiff, forall_mem_cons, tail_cons]
          simp only [forall_and, and_assoc]
      · cases h
where
  readLine_caps (payload : Bytes) : (readLine true payload).2 = (behindNul payload).map Go.fields := by
    unfold readLine behindNul
    rw [if_pos rfl]
    cases Go.cut 0 (Go.trimSuffix 10 payload) <;> rfl
  stated_getD (payload : Bytes) (lines : List Bytes) (caps : List Bytes) :
      (((payload :: lines).filterMap behindNul).getLast?.map Go.fields).getD caps =
        ((lines.filterMap behindNul).getLast?.map Go.fields).getD (((behindNul payload).map Go.fields).getD caps) := by
    rw [filterMap_cons]
    cases behindNul payload with
    | none => rfl
    | some =>
      dsimp only
      rw [List.getLast?_cons]
      cases (lines.filterMap behindNul).getLast? <;> rfl

def Agrees (payloads : List Bytes) : Prop :=
  Literal payloads ∧ (AsksProxy payloads ↔ ∃ p ∈ commandLines payloads, Host.asks p = true)

instance (payloads : List Bytes) : Decidable (Agrees payloads) := inferInstanceAs (Decidable (_ ∧ _))

theorem parsePush_ok {body : Bytes} {push : PushRequest} (h : parsePush body = .ok push) (hc : push.certificate = false) :
    ∃ payloads rest read, Host.lines (body.length + 1) body = some (payloads, rest) ∧
      readPayloads payloads ⟨[], [], false, []⟩ true = some read ∧ push.updates = read.updates ∧
      (if read.asked pushOptions then ∃ options, Host.lines (rest.length + 1) rest = some (options, push.pack)
        else push.pack = rest) := by
  unfold parsePush at h
  obtain ⟨⟨read, rest⟩, hread, h⟩ := Go.bind_ok.1 h
  dsimp only at h
  split_ifs at h with hcert hnone hasked
  · cases h
    rw [hc] at hcert
    cases hcert
  · obtain ⟨pack, hpack, h⟩ := Go.bind_ok.1 h
    cases h
    obtain ⟨payloads, hlines, hpayloads⟩ := readCommands_lines hread (by simpa using hcert)
    exact ⟨payloads, rest, read, hlines, hpayloads, rfl, by rw [if_pos hasked]; exact skipOptions_iff.1 hpack⟩
  · cases h
    obtain ⟨payloads, hlines, hpayloads⟩ := readCommands_lines hread (by simpa using hcert)
    exact ⟨payloads, rest, read, hlines, hpayloads, rfl, by rw [if_neg hasked]⟩

/-- **The proxy judges the commands that the host carries out, and sees the same pack, exactly when every command line is
literal and push options are asked for in both readings.** -/
theorem parsePush_agrees_iff {body : Bytes} {push : PushRequest} (h : parsePush body = .ok push) (hc : push.certificate = false) :
    Host.read body = some (push.updates, push.pack) ↔
      ∃ payloads rest, Host.lines (body.length + 1) body = some (payloads, rest) ∧ Agrees payloads := by
  obtain ⟨payloads, rest, read, hlines, hread, hupdates, hpack⟩ := parsePush_ok h hc
  obtain ⟨hcaps, us, hus, hiff⟩ := readPayloads_ok hread
  have hupd : push.updates = us := by rw [hupdates, hus]; rfl
  have hasked : AsksProxy payloads ↔ read.asked pushOptions = true := by
    rw [asksProxy_iff, ← hcaps, PushRequest.asked, contains_iff_mem]
  have hasks : (∃ p ∈ commandLines payloads, Host.asks p = true) ↔ (commandLines payloads).any Host.asks = true :=
    any_eq_true.symm
  have hagrees : (∃ payloads rest, Host.lines (body.length + 1) body = some (payloads, rest) ∧ Agrees payloads) ↔
      Agrees payloads := by
    constructor
    · rintro ⟨payloads', rest', hl, ha⟩
      rw [hlines] at hl
      cases hl
      exact ha
    · exact fun ha => ⟨payloads, rest, hlines, ha⟩
  rw [hagrees]
  unfold Agrees
  rw [hasked, hasks, ← hiff, hupd]
  unfold Host.read
  rw [hlines]
  simp only [Option.bind_eq_bind, Option.bind_some]
  change (((commandLines payloads).mapM Host.command).bind fun us => if (commandLines payloads).any Host.asks = true then _ else _) = _ ↔ _
  cases hm : (commandLines payloads).mapM Host.command with
  | none => simp
  | some =>
    simp only [Option.bind_some, Option.some.injEq]
    cases hhost : (commandLines payloads).any Host.asks with
    | true =>
      simp only [if_true]
      cases hread : read.asked pushOptions with
      | true =>
        rw [hread, if_pos rfl] at hpack
        obtain ⟨options, ho⟩ := hpack
        simp [ho]
      | false =>
        -- the host goes on past a flush that the proxy takes to be the pack's
        rw [hread, if_neg (by simp)] at hpack
        cases ho : Host.lines (rest.length + 1) rest with
        | none => simp
        | some r =>
          have hlt := lines_length ho
          have hne : r.2 ≠ push.pack := fun heq => by
            rw [heq, hpack] at hlt
            exact lt_irrefl _ hlt
          simp [hne]
    | false =>
      simp only [Bool.false_eq_true, if_false]
      cases hread : read.asked pushOptions with
      | true =>
        rw [hread, if_pos rfl] at hpack
        obtain ⟨options, ho⟩ := hpack
        have hlt := lines_length ho
        have hne : rest ≠ push.pack := fun heq => by
          rw [heq] at hlt
          exact lt_irrefl _ hlt
        simp [hne]
      | false =>
        rw [hread, if_neg (by simp)] at hpack
        simp [hpack]

/-! ## Two pushes -/

def oidA : Bytes := List.replicate 40 49

def oidB : Bytes := List.replicate 40 50

def aPush : Bytes :=
  pktLine (shallowPrefix ++ oidA ++ [10]) ++
    pktLine (oidA ++ 32 :: oidB ++ bytes " refs/heads/CP-1-fix" ++ 0 :: bytes "report-status push-options agent=git/2.43\n") ++
    pktLine (List.replicate 40 48 ++ 32 :: oidB ++ bytes " refs/heads/CP-1-more\n") ++ bytes "0000" ++
    pktLine (bytes "ci.skip\n") ++ bytes "0000PACK..."

def aPushRead : PushRequest where
  updates := [⟨oidA, oidB, bytes "refs/heads/CP-1-fix"⟩, ⟨List.replicate 40 48, oidB, bytes "refs/heads/CP-1-more"⟩]
  capabilities := [bytes "report-status", pushOptions, bytes "agent=git/2.43"]
  certificate := false
  pack := bytes "PACK..."

theorem aPush_agrees : Host.read aPush = some (aPushRead.updates, aPushRead.pack) := by
  have hpush : parsePush aPush = .ok aPushRead := by decide +kernel
  refine (parsePush_agrees_iff hpush rfl).2 ?_
  have hlines : (Host.lines (aPush.length + 1) aPush).isSome = true := by decide +kernel
  obtain ⟨⟨payloads, rest⟩, hl⟩ := Option.isSome_iff_exists.1 hlines
  have hpayloads : payloads = ((Host.lines (aPush.length + 1) aPush).map Prod.fst).getD [] := by
    rw [hl]
    rfl
  refine ⟨payloads, rest, hl, ?_, ?_⟩ <;> rw [hpayloads] <;> decide +kernel

def spacedPush : Bytes :=
  pktLine (oidA ++ 32 :: oidB ++ bytes " refs/heads/CP-1-fix" ++ [0xC2, 0xA0] ++ 0 :: bytes "report-status") ++ bytes "0000PACK"

/-- The proxy judges it by the name without the space; the host carries out the command on the one with it. -/
theorem spaced_ref_judged :
    ¬ ∀ (body : Bytes) (push : PushRequest), parsePush body = .ok push → push.certificate = false →
      Host.read body = some (push.updates, push.pack) := by
  intro h
  have hpush : parsePush spacedPush =
      .ok ⟨[⟨oidA, oidB, bytes "refs/heads/CP-1-fix"⟩], [bytes "report-status"], false, bytes "PACK"⟩ := by decide +kernel
  have hread := h spacedPush _ hpush rfl
  exact absurd hread (by decide +kernel)

end Git
end Armature
