import Armature.GoBytes
import Armature.GoJson
import Armature.Locking
import Mathlib.Logic.Function.Basic
/-!
# SecondFactor — the code step of a sign-in (`auth/totp.go`, `auth/secondfactor.go`)

The statements of each call's transaction, which locks the rows that it reads to change them and commits at its end; any
number of them run at once, any of them may fail and be rolled back.  HMAC, the hash of a token and the seal are parameters,
and so is what a clock reads.
-/
namespace Armature
namespace SecondFactor

open Go (Text Bytes)

def totpDigits : Nat := 6
def totpSkewSteps : Int := 1
def recoveryCodeCount : Nat := 10
def challengeAttempts : Nat := 5

structure Crypto where
  /-- HMAC-SHA1 of a message under a key. -/
  mac : Bytes → Bytes → Bytes
  hashToken : Text → Text
  /-- Unseals a person's secret. -/
  openSecret : Bytes → Nat → Option Bytes
  uuid : Nat → Text

/-! ## Codes -/

def byteLen (s : Text) : Nat := (s.map Go.Json.utf8Len).sum

def normalizeCode (code : Text) : Text :=
  (code.filter fun r => !(r == '-' || r == ' ' || r == '\t')).map fun r => if 'A' ≤ r ∧ r ≤ 'Z' then r.toLower else r

def isTOTPCode (code : Text) : Bool :=
  decide (byteLen (normalizeCode code) = totpDigits) && (normalizeCode code).all fun r => decide ('0' ≤ r ∧ r ≤ '9')

def bigEndian (n : Nat) : Bytes := (List.range 8).map fun i => UInt8.ofNat (n / 256 ^ (7 - i))

def uint32 (b : Bytes) : Nat := b.foldl (fun n c => n * 256 + c.toNat) 0

def hotp (k : Crypto) (secret : Bytes) (counter : Nat) (digits : Nat) : Text :=
  let sum := k.mac secret (bigEndian counter)
  let offset := (sum.getLastD 0).toNat % 16
  let value := uint32 ((sum.drop offset).take 4) % 2 ^ 31
  let shown := Nat.toDigits 10 (value % 10 ^ digits)
  List.replicate (digits - shown.length) '0' ++ shown

def totpStep (at_ : Int) : Int := (at_ / 1000000000).tdiv 30

def matchTOTP (k : Crypto) (secret : Bytes) (code : Text) (now last : Int) : Option Int :=
  let code := normalizeCode code
  if byteLen code ≠ totpDigits then none
  else
    let current := totpStep now
    [current - totpSkewSteps, current, current + totpSkewSteps].find? fun step =>
      decide (hotp k secret (step % 2 ^ 64).toNat totpDigits = code ∧ last < step)

def recoveryDigest (k : Crypto) (user : Nat) (code : Text) : Text :=
  k.hashToken (k.uuid user ++ ':' :: normalizeCode code)

/-! ## The tables -/

/-- A row of `user_second_factor`. -/
structure Factor where
  sealed_ : Bytes
  confirmed : Bool
  lastStep : Int

/-- A row of `recovery_code`, made with the set of that number. -/
structure Code where
  set : Nat
  digest : Text
  used : Bool
  deriving DecidableEq

/-- A row of `login_challenge`, the one issued as that number. -/
structure Challenge where
  number : Nat
  tokenHash : Text
  expiresAt : Int
  attempts : Nat

structure Data where
  active : Nat → Bool
  factor : Nat → Option Factor
  codes : Nat → List Code
  challenge : Nat → Option Challenge
  issued : Nat
  sets : Nat
  steps : List (Nat × Int × Int)
  spent : List (Nat × Nat × Text)
  judged : List Nat
  sessions : List Nat

inductive Row where
  | challenge (user : Nat)
  | factor (user : Nat)
  | code (user : Nat) (digest : Text)
  deriving DecidableEq

/-! ## The calls -/

inductive Call where
  | completeLogin (challenge : Text)
  | renewRecoveryCodes
  | removeSecondFactor

inductive Spent where
  | step (step now : Int)
  | code (set : Nat) (digest : Text)

inductive Stage where
  /-- To look the challenge up. -/
  | begun
  | spending
  /-- The person has a second factor; to look for the recovery code. -/
  | looking
  | noSecondFactor
  | refused
  | accepted (how : Spent)
  /-- The recovery codes `old` are deleted. -/
  | renewing (how : Spent) (old : List Code)
  /-- The second factor is deleted. -/
  | dropping (how : Spent)
  /-- And the recovery codes `old` are. -/
  | removing (how : Spent) (old : List Code)

structure Tx where
  call : Call
  code : Text
  user : Nat
  challenge : Option Challenge
  stage : Stage
  locked : List Row

def Tx.locks (t : Tx) (r : Row) : Prop := r ∈ t.locked

def Data.spend (d : Data) (user : Nat) : Spent → Data
  | .step step now =>
    { d with
      factor := Function.update d.factor user ((d.factor user).map fun f => { f with lastStep := step })
      steps := (user, step, now) :: d.steps }
  | .code set digest =>
    { d with
      codes := Function.update d.codes user ((d.codes user).map fun c => if c.digest = digest then { c with used := true } else c)
      spent := (user, set, digest) :: d.spent }

def Data.countWrong (d : Data) (user : Nat) (c : Challenge) : Data :=
  { d with
    challenge := Function.update d.challenge user
      (if challengeAttempts ≤ c.attempts + 1 then none
        else (d.challenge user).map fun c => { c with attempts := c.attempts + 1 })
    judged := c.number :: d.judged }

def Data.dropChallenge (d : Data) (user : Nat) : Data := { d with challenge := Function.update d.challenge user none }

def Data.openSession (d : Data) (c : Challenge) : Data :=
  { d with judged := c.number :: d.judged, sessions := c.number :: d.sessions }

def Data.replaceCodes (d : Data) (user : Nat) (old : List Code) (digests : List Text) : Data :=
  { d with
    codes := Function.update d.codes user
      ((d.codes user).filter (fun c => c.digest ∉ old.map Code.digest) ++ digests.map fun g => ⟨d.sets, g, false⟩)
    sets := d.sets + 1 }

def Data.dropFactor (d : Data) (user : Nat) (old : List Code) : Data :=
  { d with
    factor := Function.update d.factor user none
    codes := Function.update d.codes user ((d.codes user).filter fun c => c.digest ∉ old.map Code.digest) }

def codeRows (user : Nat) (old : List Code) : List Row := old.map fun c => .code user c.digest

section
variable (k : Crypto)

inductive Act (d : Data) (others : List Tx) : Tx → Data → Option Tx → Prop where
  | find (token code : Text) (u user : Nat) (c : Challenge) (now : Int) :
      d.challenge user = some c → c.tokenHash = k.hashToken token → now < c.expiresAt → d.active user = true →
      Interleaving.Unlocked Tx.locks others (.challenge user) →
      Act d others ⟨.completeLogin token, code, u, none, .begun, []⟩ d
        (some ⟨.completeLogin token, code, user, some c, .spending, [.challenge user]⟩)
  | noFactor (call : Call) (code : Text) (user : Nat) (c : Option Challenge) (locked : List Row) :
      ((d.factor user).all fun f => !f.confirmed) = true →
      Act d others ⟨call, code, user, c, .spending, locked⟩ d (some ⟨call, code, user, c, .noSecondFactor, locked⟩)
  | stepAccepted (call : Call) (code : Text) (user : Nat) (c : Option Challenge) (locked : List Row) (f : Factor)
      (secret : Bytes) (now step : Int) :
      isTOTPCode code = true → d.factor user = some f → f.confirmed = true →
      Interleaving.Unlocked Tx.locks others (.factor user) → k.openSecret f.sealed_ user = some secret →
      matchTOTP k secret code now f.lastStep = some step →
      Act d others ⟨call, code, user, c, .spending, locked⟩ d
        (some ⟨call, code, user, c, .accepted (.step step now), .factor user :: locked⟩)
  | stepRefused (call : Call) (code : Text) (user : Nat) (c : Option Challenge) (locked : List Row) (f : Factor)
      (secret : Bytes) (now : Int) :
      isTOTPCode code = true → d.factor user = some f → f.confirmed = true →
      Interleaving.Unlocked Tx.locks others (.factor user) → k.openSecret f.sealed_ user = some secret →
      matchTOTP k secret code now f.lastStep = none →
      Act d others ⟨call, code, user, c, .spending, locked⟩ d
        (some ⟨call, code, user, c, .refused, .factor user :: locked⟩)
  | has (call : Call) (code : Text) (user : Nat) (c : Option Challenge) (locked : List Row) :
      isTOTPCode code = false → ((d.factor user).any fun f => f.confirmed) = true →
      Act d others ⟨call, code, user, c, .spending, locked⟩ d (some ⟨call, code, user, c, .looking, locked⟩)
  | codeAccepted (call : Call) (code : Text) (user : Nat) (c : Option Challenge) (locked : List Row) (row : Code) :
      row ∈ d.codes user → row.digest = recoveryDigest k user code → row.used = false →
      Interleaving.Unlocked Tx.locks others (.code user row.digest) →
      Act d others ⟨call, code, user, c, .looking, locked⟩ d
        (some ⟨call, code, user, c, .accepted (.code row.set row.digest), .code user row.digest :: locked⟩)
  | codeRefused (call : Call) (code : Text) (user : Nat) (c : Option Challenge) (locked : List Row) :
      (∀ row ∈ d.codes user, row.digest = recoveryDigest k user code → row.used = true) →
      Act d others ⟨call, code, user, c, .looking, locked⟩ d (some ⟨call, code, user, c, .refused, locked⟩)
  | loginRefused (token code : Text) (user : Nat) (c : Challenge) (locked : List Row) :
      Act d others ⟨.completeLogin token, code, user, some c, .refused, locked⟩ (d.countWrong user c) none
  | loginEnded (token code : Text) (user : Nat) (c : Challenge) (locked : List Row) :
      Act d others ⟨.completeLogin token, code, user, some c, .noSecondFactor, locked⟩ (d.dropChallenge user) none
  | login (token code : Text) (user : Nat) (c : Challenge) (locked : List Row) (how : Spent) :
      Act d others ⟨.completeLogin token, code, user, some c, .accepted how, locked⟩
        (((d.spend user how).dropChallenge user).openSession c) none
  | deleteCodes (code : Text) (user : Nat) (locked : List Row) (how : Spent) :
      (∀ r ∈ codeRows user (d.codes user), Interleaving.Unlocked Tx.locks others r) →
      Act d others ⟨.renewRecoveryCodes, code, user, none, .accepted how, locked⟩ d
        (some ⟨.renewRecoveryCodes, code, user, none, .renewing how (d.codes user), codeRows user (d.codes user) ++ locked⟩)
  | renew (code : Text) (user : Nat) (locked : List Row) (how : Spent) (old : List Code) (digests : List Text) :
      digests.length = recoveryCodeCount → digests.Nodup →
      (∀ g ∈ digests, ∀ c ∈ d.codes user, c.digest = g → g ∈ old.map Code.digest) →
      Act d others ⟨.renewRecoveryCodes, code, user, none, .renewing how old, locked⟩
        ((d.spend user how).replaceCodes user old digests) none
  | deleteFactor (code : Text) (user : Nat) (locked : List Row) (how : Spent) :
      Interleaving.Unlocked Tx.locks others (.factor user) →
      Act d others ⟨.removeSecondFactor, code, user, none, .accepted how, locked⟩ d
        (some ⟨.removeSecondFactor, code, user, none, .dropping how, .factor user :: locked⟩)
  | deleteItsCodes (code : Text) (user : Nat) (locked : List Row) (how : Spent) :
      (∀ r ∈ codeRows user (d.codes user), Interleaving.Unlocked Tx.locks others r) →
      Act d others ⟨.removeSecondFactor, code, user, none, .dropping how, locked⟩ d
        (some ⟨.removeSecondFactor, code, user, none, .removing how (d.codes user), codeRows user (d.codes user) ++ locked⟩)
  | deleteChallenge (code : Text) (user : Nat) (locked : List Row) (how : Spent) (old : List Code) :
      Interleaving.Unlocked Tx.locks others (.challenge user) → .challenge user ∉ locked →
      Act d others ⟨.removeSecondFactor, code, user, none, .removing how old, locked⟩ d
        (some ⟨.removeSecondFactor, code, user, none, .removing how old, .challenge user :: locked⟩)
  | remove (code : Text) (user : Nat) (locked : List Row) (how : Spent) (old : List Code) :
      .challenge user ∈ locked →
      Act d others ⟨.removeSecondFactor, code, user, none, .removing how old, locked⟩
        (((d.spend user how).dropFactor user old).dropChallenge user) none

/-- A call comes in, somebody signs in with a password, or an account is switched on or off. -/
inductive Start (d : Data) (running : List Tx) : Data → Option Tx → Prop where
  | completeLogin (token code : Text) (u : Nat) : Start d running d (some ⟨.completeLogin token, code, u, none, .begun, []⟩)
  | renewRecoveryCodes (code : Text) (user : Nat) :
      Start d running d (some ⟨.renewRecoveryCodes, code, user, none, .spending, []⟩)
  | removeSecondFactor (code : Text) (user : Nat) :
      Start d running d (some ⟨.removeSecondFactor, code, user, none, .spending, []⟩)
  | issueChallenge (user : Nat) (tokenHash : Text) (expiresAt : Int) :
      Interleaving.Unlocked Tx.locks running (.challenge user) →
      (∀ v c, v ≠ user → d.challenge v = some c → c.tokenHash ≠ tokenHash) →
      Start d running
        { d with
          challenge := Function.update d.challenge user (some ⟨d.issued, tokenHash, expiresAt, 0⟩)
          issued := d.issued + 1 } none
  | account (active : Nat → Bool) : Start d running { d with active := active } none

def fresh (active : Nat → Bool) (factor : Nat → Option Factor) (codes : Nat → List (Text × Bool)) : Data where
  active := active
  factor := factor
  codes user := (codes user).map fun c => ⟨0, c.1, c.2⟩
  challenge _ := none
  issued := 0
  sets := 1
  steps := []
  spent := []
  judged := []
  sessions := []

def Run (active : Nat → Bool) (factor : Nat → Option Factor) (codes : Nat → List (Text × Bool)) :
    Interleaving.System Data Tx → Prop :=
  Interleaving.Run Start (Act k) (fresh active factor codes)

end

end SecondFactor
end Armature
