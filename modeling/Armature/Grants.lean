import Armature.Locking
import Armature.NqlDates
/-!
# Grants — a connected app's tokens (`oauth/token.go`)

A grant is one row that consent and refresh rewrite, replays delete, and exchange reads and inserts beside.  Each request is
a transaction of statements that wait for the rows they need: a code and a refresh token are answered once and replays end
the grant, whatever overlaps (`spent_once`); exchanged tokens stay within their grant where no grant loses scopes while an
exchange that has read it is under way (`exchanged_within`).
-/
namespace Armature
namespace OAuth

open List
open Go (second day)
open Interleaving (Unlocked Free Compatible)

abbrev Id := Nat

abbrev Digest := Nat

inductive Scope where
  | read
  | issueWrite
  | issueTransition
  | commentWrite
  | gitWrite
  | webhooks
  deriving DecidableEq

def Scope.name : Scope → String
  | .read => "read"
  | .issueWrite => "issue.write"
  | .issueTransition => "issue.transition"
  | .commentWrite => "comment.write"
  | .gitWrite => "git.write"
  | .webhooks => "webhooks.partner"

def scopes : List Scope := [.read, .issueWrite, .issueTransition, .commentWrite, .gitWrite, .webhooks]

def accessTokenTTL : Int := 3600 * second

def refreshTokenTTL : Int := 90 * day

def minVerifier : Nat := 43

def maxVerifier : Nat := 128

/-- What the code takes of the world: `challengeOf` is a verifier's SHA-256 in base64. -/
structure World where
  challengeOf : String → String
  /-- The scopes of a client, and whether its `keycloak_client_id` is set. -/
  clientScopes : Id → List Scope
  keycloak : Id → Bool

def verifies (w : World) (verifier challenge : String) : Bool :=
  minVerifier ≤ verifier.length && verifier.length ≤ maxVerifier &&
    verifier.toList.all (fun c => c.isAlphanum || c ∈ ['-', '.', '_', '~']) && w.challengeOf verifier == challenge

def normalScopes (asked : List String) : List Scope := scopes.filter fun s => s.name ∈ asked

def validScopeRequest (asked : List String) (allowed : List Scope) : Bool :=
  Scope.read.name ∈ asked && asked.all fun a => allowed.any fun s => s.name == a

def asked (words : List String) (allowed : List Scope) : Option (List Scope) :=
  if words = [] then some allowed else if validScopeRequest words allowed then some (normalScopes words) else none

def lifetimeOf : Option Int → Option Int
  | none => some accessTokenTTL
  | some seconds =>
    if seconds < 1 ∨ accessTokenTTL < Nql.wrap64 (seconds * second) then none else some (Nql.wrap64 (seconds * second))

/-! ## Rows -/

/-- A row of `oauth_code`. -/
structure Code where
  clientID : Id
  userID : Id
  scopes : List Scope
  redirectURI : String
  challenge : String
  expiresAt : Int
  usedAt : Option Int
  grantID : Option Id

/-- A row of `api_token` with a client. -/
structure Grant where
  userID : Id
  clientID : Id
  tokenHash : Digest
  scopes : List Scope
  expiresAt : Int
  refreshHash : Digest
  accessExpiresAt : Int

/-- A row of `oauth_rotated_refresh`. -/
structure Rotated where
  grantID : Id
  rotatedAt : Int

/-- A row of `oauth_exchanged_token`. -/
structure Exchanged where
  grantID : Id
  scopes : List Scope
  expiresAt : Int

inductive Secret where
  | code (digest : Digest)
  | refresh (digest : Digest)
  deriving DecidableEq

/-- A secret that was traded for tokens of a grant: a refresh token, when. -/
structure Spent where
  grantID : Id
  clientID : Id
  rotatedAt : Option Int

structure Data where
  clock : Int
  /-- Who is an active agent. -/
  person : Id → Bool
  code : Digest → Option Code
  grant : Id → Option Grant
  rotated : Digest → Option Rotated
  exchanged : Digest → Option Exchanged
  known : List Digest
  ids : List Id
  spent : Secret → Option Spent
  answered : List Secret
  owed : List Id

def fresh (clock : Int) (person : Id → Bool) (code : Digest → Option Code) : Data :=
  ⟨clock, person, code, fun _ => none, fun _ => none, fun _ => none, [], [], fun _ => none, [], []⟩

/-! ## Requests -/

structure Presented where
  clientID : Id
  secret : Secret

inductive Request where
  | redeemCode (clientID : Id) (code : Digest) (redirectURI verifier : String)
  | refresh (clientID : Id) (token : Digest) (scope : List String)
  | narrow (clientID : Id) (subject : Digest) (scope : List String) (expiresIn : Option Int)
  | fromIdentityProvider (clientID userID : Id) (scope : List String)
  | revoke (clientID : Id) (token : Digest)

def Request.secret : Request → Option Digest
  | .redeemCode .. => none
  | .refresh _ token _ => some token
  | .narrow _ subject _ _ => some subject
  | .fromIdentityProvider .. => none
  | .revoke _ token => some token

inductive Row where
  | code (digest : Digest)
  | grant (id : Id)
  /-- The one grant of a person and an app. -/
  | pair (userID clientID : Id)
  /-- A secret just made: nobody is told it before the commit. -/
  | secret (digest : Digest)

inductive Stage where
  | asked (r : Request)
  /-- A code that may be used, locked. -/
  | redeeming (clientID : Id) (code : Digest) (redirectURI verifier : String)
  /-- `grant` is called: for a code, or for a token of the identity provider. -/
  | granting (code : Option Digest) (clientID userID : Id) (scopes : List Scope)
  /-- The grant is written: a row that was there, or a new one. -/
  | granted (code : Option Digest) (id : Id) (g : Grant) (new : Bool)
  /-- `endGrant` is called. -/
  | ending (p : Presented) (id : Id)
  /-- A grant is deleted; the codes it was given for lose it. -/
  | ended (p : Option Presented) (id : Id) (codes : List Digest)
  /-- No grant has the refresh token. -/
  | rotatedAway (clientID : Id) (token : Digest)
  | holding (clientID : Id) (token : Digest) (id : Id) (scope : List String)
  /-- The grant is rotated, and old rotations are swept. -/
  | refreshed (token : Digest) (id : Id) (g : Grant) (swept : List Digest)
  | refused (p : Presented) (held : Option Row)
  /-- `narrow` has read the grant. -/
  | read (id userID : Id) (scopes : List Scope) (scope : List String) (lifetime : Int)
  /-- Its holder may have a token, of these scopes. -/
  | exchanging (id : Id) (scopes : List Scope) (lifetime : Int)
  | exchanged (token : Digest) (x : Exchanged) (swept : List Digest)
  | unlinked (token : Digest)

structure Tx where
  since : Int
  stage : Stage

def Presented.rows (p : Presented) : Row → Prop
  | .code x => p.secret = .code x
  | _ => False

def Stage.locks : Stage → Row → Prop
  | .redeeming _ code _ _, .code x => code = x
  | .granting code _ _ _, .code x => code = some x
  | .granted code _ _ _, .code x => code = some x
  | .granted _ id _ _, .grant i => id = i
  | .granted _ _ g new, .pair u c => new = true ∧ g.userID = u ∧ g.clientID = c
  | .granted _ _ g _, .secret x => g.tokenHash = x ∨ g.refreshHash = x
  | .ending p _, r => p.rows r
  | .ended p _ codes, .code x => (∃ q ∈ p, q.rows (.code x)) ∨ x ∈ codes
  | .ended _ id _, .grant i => id = i
  | .holding _ _ id _, .grant i => id = i
  | .refreshed _ id _ _, .grant i => id = i
  | .refreshed _ _ g _, .secret x => g.tokenHash = x ∨ g.refreshHash = x
  | .refused _ held, r => held = some r
  | .exchanged token _ _, .secret x => token = x
  | _, _ => False

def Stage.shares : Stage → Row → Prop
  | .asked r, .secret x => r.secret = some x
  | .rotatedAway _ token, .secret x => token = x
  | .holding _ token _ _, .secret x => token = x
  | .refreshed token _ _ _, .secret x => token = x
  | .ending p _, .secret x => p.secret = .refresh x
  | .ended p _ _, .secret x => ∃ q ∈ p, q.secret = .refresh x
  | .refused p _, .secret x => p.secret = .refresh x
  | .exchanged _ x _, .grant i => x.grantID = i
  | _, _ => False

abbrev Tx.locks (t : Tx) : Row → Prop := t.stage.locks

abbrev Tx.shares (t : Tx) : Row → Prop := t.stage.shares

/-! ## What commits do -/

def owedTo (d : Data) (p : Presented) : List Id :=
  match d.spent p.secret with
  | none => []
  | some r =>
    if r.clientID = p.clientID ∧ (r.rotatedAt.all fun t => decide (d.clock ≤ t + refreshTokenTTL)) = true then [r.grantID] else []

def Data.settle (d : Data) (p : Presented) : Data := { d with owed := owedTo d p ++ d.owed }

def Data.putGrant (d : Data) (id : Id) (g : Grant) : Data :=
  { d with
    grant := Function.update d.grant id (some g)
    exchanged := fun t => (d.exchanged t).filter fun e => decide (e.grantID ≠ id) }

def Data.useCode (d : Data) (x : Digest) (id clientID : Id) (now : Int) : Data :=
  { d with
    code := Function.update d.code x ((d.code x).map fun c => { c with usedAt := some now, grantID := some id })
    spent := Function.update d.spent (.code x) (some ⟨id, clientID, none⟩)
    answered := .code x :: d.answered }

def Data.endGrant (d : Data) (id : Id) (codes : List Digest) : Data :=
  { d with
    grant := Function.update d.grant id none
    exchanged := fun t => (d.exchanged t).filter fun e => decide (e.grantID ≠ id)
    rotated := fun t => (d.rotated t).filter fun r => decide (r.grantID ≠ id)
    code := fun x => if x ∈ codes then (d.code x).map fun c => { c with grantID := none } else d.code x }

def Data.rotateToken (d : Data) (token : Digest) (id clientID : Id) (since : Int) (swept : List Digest) : Data :=
  { d with
    rotated := fun t => if t ∈ swept then none else Function.update d.rotated token (some ⟨id, since⟩) t
    spent := Function.update d.spent (.refresh token) (some ⟨id, clientID, some since⟩)
    answered := .refresh token :: d.answered }

def Data.keepScopes (d : Data) (id : Id) (g : Grant) : Data :=
  { d with
    grant := Function.update d.grant id (some g)
    exchanged := fun t => (d.exchanged t).map fun e =>
      if e.grantID = id then { e with scopes := e.scopes.filter (· ∈ g.scopes) } else e }

def Data.exchange (d : Data) (token : Digest) (x : Exchanged) (swept : List Digest) : Data :=
  { d with exchanged := Function.update (fun t => if t ∈ swept then none else d.exchanged t) token (some x) }

def Data.unlink (d : Data) (token : Digest) : Data := { d with exchanged := Function.update d.exchanged token none }

/-! ## Steps -/

inductive Start : Data → List Tx → Data → Option Tx → Prop where
  | tick {d : Data} {running : List Tx} (now : Int) : d.clock ≤ now → Start d running { d with clock := now } none
  | people {d : Data} {running : List Tx} (person : Id → Bool) : Start d running { d with person := person } none
  | request {d : Data} {running : List Tx} (r : Request) : (∀ x ∈ r.secret, Unlocked Tx.locks running (.secret x)) →
      Start d running { d with known := r.secret.toList ++ d.known } (some ⟨d.clock, .asked r⟩)

def Presented.held (p : Presented) : Option Row :=
  match p.secret with
  | .code x => some (.code x)
  | .refresh _ => none

def liveScopes (now : Int) (g : Grant) (held : List Scope) : List Scope :=
  if now < g.expiresAt then scopes.filter fun s => s ∈ g.scopes ++ held else held

def newGrant (clientID userID : Id) (held : List Scope) (access refresh : Digest) (now : Int) : Grant :=
  ⟨userID, clientID, access, held, now + refreshTokenTTL, refresh, now + accessTokenTTL⟩

inductive Act (w : World) (ok : Data → List Tx → Id → List Scope → Prop) : Data → List Tx → Tx → Data → Option Tx → Prop where
  -- `redeemCode`
  | unknownCode {d : Data} {others : List Tx} {since : Int} {c : Id} {x : Digest} {uri verifier : String} : d.code x = none →
      Act w ok d others ⟨since, .asked (.redeemCode c x uri verifier)⟩ d (some ⟨since, .refused ⟨c, .code x⟩ none⟩)
  | otherApp {d : Data} {others : List Tx} {since : Int} {c : Id} {x : Digest} {uri verifier : String} {row : Code} :
      d.code x = some row → Free Tx.locks Tx.shares others (.code x) → row.clientID ≠ c →
      Act w ok d others ⟨since, .asked (.redeemCode c x uri verifier)⟩ d (some ⟨since, .refused ⟨c, .code x⟩ (some (.code x))⟩)
  | reused {d : Data} {others : List Tx} {since : Int} {c : Id} {x : Digest} {uri verifier : String} {row : Code} (id : Id) :
      d.code x = some row → Free Tx.locks Tx.shares others (.code x) → row.clientID = c → row.usedAt ≠ none →
      row.grantID = some id →
      Act w ok d others ⟨since, .asked (.redeemCode c x uri verifier)⟩ d (some ⟨since, .ending ⟨c, .code x⟩ id⟩)
  | reusedEnded {d : Data} {others : List Tx} {since : Int} {c : Id} {x : Digest} {uri verifier : String} {row : Code} :
      d.code x = some row → Free Tx.locks Tx.shares others (.code x) → row.clientID = c → row.usedAt ≠ none →
      row.grantID = none →
      Act w ok d others ⟨since, .asked (.redeemCode c x uri verifier)⟩ d (some ⟨since, .refused ⟨c, .code x⟩ (some (.code x))⟩)
  | unused {d : Data} {others : List Tx} {since : Int} {c : Id} {x : Digest} {uri verifier : String} {row : Code} :
      d.code x = some row → Free Tx.locks Tx.shares others (.code x) → row.clientID = c → row.usedAt = none →
      Act w ok d others ⟨since, .asked (.redeemCode c x uri verifier)⟩ d (some ⟨since, .redeeming c x uri verifier⟩)
  | redeem {d : Data} {others : List Tx} {since : Int} {c : Id} {x : Digest} {uri verifier : String} {row : Code} :
      d.code x = some row → d.clock < row.expiresAt → row.redirectURI = uri → verifies w verifier row.challenge = true →
      d.person row.userID = true →
      Act w ok d others ⟨since, .redeeming c x uri verifier⟩ d (some ⟨since, .granting (some x) c row.userID row.scopes⟩)
  | unredeemed {d : Data} {others : List Tx} {since : Int} {c : Id} {x : Digest} {uri verifier : String} {row : Code} :
      d.code x = some row → ¬ (d.clock < row.expiresAt ∧ row.redirectURI = uri ∧ verifies w verifier row.challenge = true ∧
        d.person row.userID = true) →
      Act w ok d others ⟨since, .redeeming c x uri verifier⟩ d (some ⟨since, .refused ⟨c, .code x⟩ (some (.code x))⟩)
  -- `fromIdentityProvider`
  | identity {d : Data} {others : List Tx} {since : Int} {c user : Id} {scope : List String} {held : List Scope} :
      w.keycloak c = true → Scope.webhooks.name ∉ scope →
      asked scope ((w.clientScopes c).filter fun s => decide (s ≠ .webhooks)) = some held → d.person user = true →
      Act w ok d others ⟨since, .asked (.fromIdentityProvider c user scope)⟩ d (some ⟨since, .granting none c user held⟩)
  -- `grant`
  | renew {d : Data} {others : List Tx} {since : Int} {code : Option Digest} {c user : Id} {held : List Scope} {id : Id} {g : Grant}
      (access refresh : Digest) : d.grant id = some g → g.userID = user → g.clientID = c →
      Free Tx.locks Tx.shares others (.grant id) → access ∉ d.known → refresh ∉ d.known →
      Act w ok d others ⟨since, .granting code c user held⟩ { d with known := access :: refresh :: d.known }
        (some ⟨since, .granted code id (newGrant c user (liveScopes d.clock g held) access refresh d.clock) false⟩)
  | make {d : Data} {others : List Tx} {since : Int} {code : Option Digest} {c user : Id} {held : List Scope} (id : Id)
      (access refresh : Digest) : (∀ i g, d.grant i = some g → ¬ (g.userID = user ∧ g.clientID = c)) →
      Free Tx.locks Tx.shares others (.pair user c) → id ∉ d.ids → access ∉ d.known → refresh ∉ d.known →
      Act w ok d others ⟨since, .granting code c user held⟩ { d with known := access :: refresh :: d.known, ids := id :: d.ids }
        (some ⟨since, .granted code id (newGrant c user held access refresh d.clock) true⟩)
  | consented {d : Data} {others : List Tx} {since : Int} {x : Digest} {id : Id} {g : Grant} {new : Bool} :
      ok d others id g.scopes → Act w ok d others ⟨since, .granted (some x) id g new⟩
        (((d.settle ⟨g.clientID, .code x⟩).putGrant id g).useCode x id g.clientID since) none
  | vouched {d : Data} {others : List Tx} {since : Int} {id : Id} {g : Grant} {new : Bool} :
      ok d others id g.scopes → Act w ok d others ⟨since, .granted none id g new⟩ (d.putGrant id g) none
  -- `endGrant`
  | delete {d : Data} {others : List Tx} {since : Int} {p : Presented} {id : Id} {g : Grant} (codes : List Digest) :
      d.grant id = some g → Free Tx.locks Tx.shares others (.grant id) →
      (∀ x, x ∈ codes ↔ ∃ row, d.code x = some row ∧ row.grantID = some id) →
      (∀ x ∈ codes, Free Tx.locks Tx.shares others (.code x)) →
      Act w ok d others ⟨since, .ending p id⟩ d (some ⟨since, .ended (some p) id codes⟩)
  | gone {d : Data} {others : List Tx} {since : Int} {p : Presented} {id : Id} : d.grant id = none →
      Act w ok d others ⟨since, .ending p id⟩ d (some ⟨since, .refused p p.held⟩)
  | replayed {d : Data} {others : List Tx} {since : Int} {p : Presented} {id : Id} {codes : List Digest} :
      Act w ok d others ⟨since, .ended (some p) id codes⟩ ((d.settle p).endGrant id codes) none
  | revoked {d : Data} {others : List Tx} {since : Int} {id : Id} {codes : List Digest} :
      Act w ok d others ⟨since, .ended none id codes⟩ (d.endGrant id codes) none
  -- `refresh`
  | current {d : Data} {others : List Tx} {since : Int} {c : Id} {x : Digest} {scope : List String} {id : Id} {g : Grant} :
      d.grant id = some g → g.refreshHash = x → g.clientID = c → Free Tx.locks Tx.shares others (.grant id) →
      Act w ok d others ⟨since, .asked (.refresh c x scope)⟩ d (some ⟨since, .holding c x id scope⟩)
  | notCurrent {d : Data} {others : List Tx} {since : Int} {c : Id} {x : Digest} {scope : List String} :
      (∀ i g, d.grant i = some g → g.clientID = c → g.refreshHash ≠ x) →
      Act w ok d others ⟨since, .asked (.refresh c x scope)⟩ d (some ⟨since, .rotatedAway c x⟩)
  | replay {d : Data} {others : List Tx} {since : Int} {c : Id} {x : Digest} {r : Rotated} {g : Grant} :
      d.rotated x = some r → d.grant r.grantID = some g → g.clientID = c →
      Act w ok d others ⟨since, .rotatedAway c x⟩ d (some ⟨since, .ending ⟨c, .refresh x⟩ r.grantID⟩)
  | unrotated {d : Data} {others : List Tx} {since : Int} {c : Id} {x : Digest} :
      (∀ r g, d.rotated x = some r → d.grant r.grantID = some g → g.clientID ≠ c) →
      Act w ok d others ⟨since, .rotatedAway c x⟩ d (some ⟨since, .refused ⟨c, .refresh x⟩ none⟩)
  | unrefreshed {d : Data} {others : List Tx} {since : Int} {c : Id} {x : Digest} {id : Id} {scope : List String} {g : Grant} :
      d.grant id = some g → ¬ (d.clock < g.expiresAt ∧ d.person g.userID = true ∧ asked scope g.scopes ≠ none) →
      Act w ok d others ⟨since, .holding c x id scope⟩ d (some ⟨since, .refused ⟨c, .refresh x⟩ (some (.grant id))⟩)
  | rotate {d : Data} {others : List Tx} {since : Int} {c : Id} {x : Digest} {id : Id} {scope : List String} {g : Grant}
      {held : List Scope} (access refresh : Digest) (swept : List Digest) : d.grant id = some g → d.clock < g.expiresAt →
      d.person g.userID = true → asked scope g.scopes = some held → access ∉ d.known → refresh ∉ d.known → d.rotated x = none →
      (∀ y, y ∈ swept ↔ ∃ r, Function.update d.rotated x (some ⟨id, since⟩) y = some r ∧ r.rotatedAt < d.clock - refreshTokenTTL) →
      Act w ok d others ⟨since, .holding c x id scope⟩ { d with known := access :: refresh :: d.known }
        (some ⟨since, .refreshed x id (newGrant g.clientID g.userID held access refresh d.clock) swept⟩)
  | refreshed {d : Data} {others : List Tx} {since : Int} {x : Digest} {id : Id} {g : Grant} {swept : List Digest} :
      ok d others id g.scopes → Act w ok d others ⟨since, .refreshed x id g swept⟩
        (((d.settle ⟨g.clientID, .refresh x⟩).keepScopes id g).rotateToken x id g.clientID since swept) none
  | refused {d : Data} {others : List Tx} {since : Int} {p : Presented} {held : Option Row} :
      Act w ok d others ⟨since, .refused p held⟩ (d.settle p) none
  -- `narrow`
  | read {d : Data} {others : List Tx} {since : Int} {c : Id} {x : Digest} {scope : List String} {expiresIn : Option Int}
      {id : Id} {g : Grant} {lifetime : Int} : lifetimeOf expiresIn = some lifetime → d.grant id = some g →
      g.tokenHash = x → g.clientID = c → since < g.accessExpiresAt → since < g.expiresAt →
      Act w ok d others ⟨since, .asked (.narrow c x scope expiresIn)⟩ d (some ⟨since, .read id g.userID g.scopes scope lifetime⟩)
  | personIn {d : Data} {others : List Tx} {since : Int} {id user : Id} {scopes held : List Scope} {scope : List String}
      {lifetime : Int} : d.person user = true → asked scope scopes = some held →
      Act w ok d others ⟨since, .read id user scopes scope lifetime⟩ d (some ⟨since, .exchanging id held lifetime⟩)
  | insert {d : Data} {others : List Tx} {since : Int} {id : Id} {held : List Scope} {lifetime : Int} {g : Grant}
      (token : Digest) (swept : List Digest) : d.grant id = some g → Unlocked Tx.locks others (.grant id) → token ∉ d.known →
      (∀ y, y ∈ swept ↔ ∃ e, d.exchanged y = some e ∧ e.expiresAt < since) →
      Act w ok d others ⟨since, .exchanging id held lifetime⟩ { d with known := token :: d.known }
        (some ⟨since, .exchanged token ⟨id, held, d.clock + lifetime⟩ swept⟩)
  | exchanged {d : Data} {others : List Tx} {since : Int} {token : Digest} {x : Exchanged} {swept : List Digest} :
      Act w ok d others ⟨since, .exchanged token x swept⟩ (d.exchange token x swept) none
  -- `Revoke`
  | revoke {d : Data} {others : List Tx} {since : Int} {c : Id} {x : Digest} {id : Id} {g : Grant} (codes : List Digest) :
      d.grant id = some g → g.clientID = c → g.tokenHash = x ∨ g.refreshHash = x → Free Tx.locks Tx.shares others (.grant id) →
      (∀ y, y ∈ codes ↔ ∃ row, d.code y = some row ∧ row.grantID = some id) →
      (∀ y ∈ codes, Free Tx.locks Tx.shares others (.code y)) →
      Act w ok d others ⟨since, .asked (.revoke c x)⟩ d (some ⟨since, .ended none id codes⟩)
  | revokeExchanged {d : Data} {others : List Tx} {since : Int} {c : Id} {x : Digest} {e : Exchanged} {g : Grant} :
      (∀ i g, d.grant i = some g → g.clientID = c → g.tokenHash ≠ x ∧ g.refreshHash ≠ x) → d.exchanged x = some e →
      d.grant e.grantID = some g → g.clientID = c →
      Act w ok d others ⟨since, .asked (.revoke c x)⟩ d (some ⟨since, .unlinked x⟩)
  | unlinked {d : Data} {others : List Tx} {since : Int} {x : Digest} :
      Act w ok d others ⟨since, .unlinked x⟩ (d.unlink x) none

abbrev RunWhere (w : World) (ok : Data → List Tx → Id → List Scope → Prop) (clock : Int) (person : Id → Bool)
    (code : Digest → Option Code) (sys : Interleaving.System Data Tx) : Prop :=
  Interleaving.Run Start (Act w ok) (fresh clock person code) sys

abbrev Run (w : World) (clock : Int) (person : Id → Bool) (code : Digest → Option Code) (sys : Interleaving.System Data Tx) : Prop :=
  RunWhere w (fun _ _ _ _ => True) clock person code sys

/-! ## What is kept -/

theorem mem_owedTo {d : Data} {p : Presented} {i : Id} : i ∈ owedTo d p ↔ ∃ r, d.spent p.secret = some r ∧
    r.clientID = p.clientID ∧ (∀ t ∈ r.rotatedAt, d.clock ≤ t + refreshTokenTTL) ∧ r.grantID = i := by
  unfold owedTo
  cases hs : d.spent p.secret with
  | none => simp
  | some r =>
    simp only [Option.all_eq_true, decide_eq_true_eq]
    by_cases hc : r.clientID = p.clientID ∧ ∀ t, r.rotatedAt = some t → d.clock ≤ t + refreshTokenTTL
    · simp [hc, eq_comm]
    · rw [if_neg hc]
      simp only [not_mem_nil, Option.some.injEq, false_iff]
      rintro ⟨r', rfl, hclient, hin, -⟩
      exact hc ⟨hclient, fun t ht => hin t ht⟩

theorem owedTo_unspent {d : Data} {p : Presented} (h : d.spent p.secret = none) : owedTo d p = [] := by
  simp [owedTo, h]

structure Kept (d : Data) : Prop where
  own : ∀ i j a b, d.grant i = some a → d.grant j = some b → a.refreshHash = b.refreshHash → i = j
  live : ∀ i a, d.grant i = some a → d.spent (.refresh a.refreshHash) = none
  hashes : ∀ i a, d.grant i = some a → a.refreshHash ∈ d.known
  grants : ∀ i a, d.grant i = some a → i ∈ d.ids
  tokens : ∀ x r, d.spent (.refresh x) = some r → x ∈ d.known
  origins : ∀ s r, d.spent s = some r → r.grantID ∈ d.ids
  apps : ∀ s r g, d.spent s = some r → d.grant r.grantID = some g → g.clientID = r.clientID
  /-- A code that was traded names its grant, until that ends. -/
  codes : ∀ x r, d.spent (.code x) = some r → ∃ row, d.code x = some row ∧ row.usedAt ≠ none ∧ row.clientID = r.clientID ∧
    (row.grantID = some r.grantID ∨ d.grant r.grantID = none)
  /-- A rotation is on record, until its grant ends or it is swept. -/
  rotations : ∀ x r, d.spent (.refresh x) = some r → ∃ t, r.rotatedAt = some t ∧
    (d.grant r.grantID = none ∨ d.rotated x = some ⟨r.grantID, t⟩ ∨ t + refreshTokenTTL < d.clock)
  records : ∀ x ρ, d.rotated x = some ρ → ∃ r, d.spent (.refresh x) = some r ∧ r.rotatedAt = some ρ.rotatedAt
  once : d.answered.Nodup
  answers : ∀ s ∈ d.answered, d.spent s ≠ none
  ended : ∀ i ∈ d.owed, i ∈ d.ids ∧ d.grant i = none

/-- What a step may change: the rows it holds, and what nobody relies on. -/
structure Moves (mine : Row → Prop) (d d' : Data) : Prop where
  clock : d.clock ≤ d'.clock
  known : d.known ⊆ d'.known
  ids : d.ids ⊆ d'.ids
  code : ∀ x, ¬ mine (.code x) → d'.code x = d.code x
  absent : ∀ x, d.code x = none → d'.code x = none
  grant : ∀ i, ¬ mine (.grant i) → d'.grant i = d.grant i
  hash : ∀ i b, d'.grant i = some b →
    (∃ a, d.grant i = some a ∧ a.refreshHash = b.refreshHash ∧ a.clientID = b.clientID) ∨ mine (.secret b.refreshHash)
  stays : ∀ s r, d.spent s = some r → d'.spent s = some r
  codeSpent : ∀ x r, d'.spent (.code x) = some r → d.spent (.code x) = some r ∨ mine (.code x) ∧ d.code x ≠ none ∧ mine (.grant r.grantID)
  tokenSpent : ∀ x r, d'.spent (.refresh x) = some r → d.spent (.refresh x) = some r ∨
    mine (.grant r.grantID) ∧ ∃ b, d.grant r.grantID = some b ∧ b.refreshHash = x ∧ b.clientID = r.clientID
  owed : ∀ i ∈ d'.owed, i ∈ d.owed ∨ ∃ s r, d.spent s = some r ∧ r.grantID = i
  born : ∀ i, d.grant i = none → d'.grant i ≠ none → ∀ s r, d.spent s = some r → r.grantID ≠ i

def NotCurrent (d : Data) (clientID : Id) (x : Digest) : Prop := ∀ i b, d.grant i = some b → b.clientID = clientID → b.refreshHash ≠ x

def Guarded (d : Data) (mine : Row → Prop) (p : Presented) : Prop :=
  match p.secret with
  | .code x => mine (.code x) ∨ d.code x = none
  | .refresh x => NotCurrent d p.clientID x ∨ ∃ i b, mine (.grant i) ∧ d.grant i = some b ∧ b.refreshHash = x

def Covers (d : Data) (p : Presented) (id : Option Id) : Prop := ∀ i ∈ owedTo d p, id = some i ∨ d.grant i = none

def Made (d : Data) (g : Grant) : Prop := (∀ j b, d.grant j = some b → b.refreshHash ≠ g.refreshHash) ∧ d.spent (.refresh g.refreshHash) = none

def Unborn (d : Data) (id : Id) : Prop := d.grant id = none ∧ (∀ s r, d.spent s = some r → r.grantID ≠ id) ∧ id ∉ d.owed

def Usable (d : Data) (clientID : Id) (x : Digest) : Prop := ∃ row, d.code x = some row ∧ row.clientID = clientID ∧ row.usedAt = none

def Swept (d : Data) (token : Digest) (since : Int) (y : Digest) : Prop :=
  (y = token ∧ since + refreshTokenTTL < d.clock) ∨
    ∃ r t, d.spent (.refresh y) = some r ∧ r.rotatedAt = some t ∧ t + refreshTokenTTL < d.clock

def Informed (d : Data) (since : Int) : Stage → Prop
  | .redeeming c x _ _ => Usable d c x
  | .granting code c _ _ => ∀ x ∈ code, Usable d c x
  | .granted code id g _ => (∀ x ∈ code, Usable d g.clientID x) ∧ Made d g ∧
      ((∃ b, d.grant id = some b ∧ b.clientID = g.clientID) ∨ Unborn d id)
  | .ending p id => Covers d p (some id) ∧ Guarded d (Stage.ending p id).locks p
  | .ended p id codes => (∀ x ∈ codes, ∃ row, d.code x = some row ∧ row.grantID = some id) ∧
      ∀ q ∈ p, Covers d q (some id) ∧ Guarded d (Stage.ended p id codes).locks q
  | .rotatedAway c x => NotCurrent d c x
  | .holding c x id _ => ∃ b, d.grant id = some b ∧ b.clientID = c ∧ b.refreshHash = x
  | .refreshed x id g swept => (∃ b, d.grant id = some b ∧ b.clientID = g.clientID ∧ b.refreshHash = x) ∧ Made d g ∧
      ∀ y ∈ swept, Swept d x since y
  | .refused p held => Covers d p none ∧ Guarded d (Stage.refused p held).locks p
  | .exchanged _ x _ => ∃ b, d.grant x.grantID = some b
  | _ => True

structure Knows (d : Data) (t : Tx) : Prop where
  secrets : ∀ x, t.locks (.secret x) ∨ t.shares (.secret x) → x ∈ d.known
  ids : ∀ i, t.locks (.grant i) ∨ t.shares (.grant i) → i ∈ d.ids
  stage : Informed d t.since t.stage

/-! ## What is known stays so -/

section
variable {mine : Row → Prop} {d d' : Data}

theorem moves_refl (mine : Row → Prop) (d : Data) : Moves mine d d where
  clock := le_refl _
  known := List.Subset.refl _
  ids := List.Subset.refl _
  code _ _ := rfl
  absent _ h := h
  grant _ _ := rfl
  hash _ b hb := Or.inl ⟨b, hb, rfl, rfl⟩
  stays _ _ h := h
  codeSpent _ _ h := Or.inl h
  tokenSpent _ _ h := Or.inl h
  owed _ h := Or.inl h
  born _ h h' := absurd h h'

abbrev Clear (mine locks shares : Row → Prop) : Prop := ∀ r, mine r → ¬ locks r ∧ ¬ shares r

theorem Moves.notCurrent (hm : Moves mine d d') {c : Id} {x : Digest} (hx : ¬ mine (.secret x)) (h : NotCurrent d c x) :
    NotCurrent d' c x := by
  intro i b hb hc he
  rcases hm.hash i b hb with ⟨a, ha, hhash, hclient⟩ | hmine
  · exact h i a ha (hclient.trans hc) (hhash.trans he)
  · exact hx (he ▸ hmine)

theorem Moves.grantGone (hm : Moves mine d d') {i : Id} {s : Secret} {r : Spent} (hs : d.spent s = some r) (hi : r.grantID = i)
    (h : d.grant i = none) : d'.grant i = none := by
  by_contra hne
  exact hm.born i h hne s r hs hi

theorem Moves.usable (hm : Moves mine d d') {c : Id} {x : Digest} (hx : ¬ mine (.code x)) (h : Usable d c x) : Usable d' c x := by
  obtain ⟨row, hrow, hrest⟩ := h
  exact ⟨row, (hm.code x hx).trans hrow, hrest⟩

theorem Moves.made (hm : Moves mine d d') {g : Grant} (hx : ¬ mine (.secret g.refreshHash)) (h : Made d g) : Made d' g := by
  refine ⟨fun j b hb he => ?_, Option.eq_none_iff_forall_ne_some.2 fun r hr => ?_⟩
  · rcases hm.hash j b hb with ⟨a, ha, hhash, -⟩ | hmine
    · exact h.1 j a ha (hhash.trans he)
    · exact hx (he ▸ hmine)
  · rcases hm.tokenSpent _ r hr with hr | ⟨-, b, hb, hhash, -⟩
    · exact Option.some_ne_none r (hr.symm.trans h.2)
    · exact h.1 _ b hb hhash

theorem Moves.unborn (hm : Moves mine d d') {id : Id} (hid : ¬ mine (.grant id)) (h : Unborn d id) : Unborn d' id := by
  obtain ⟨hnone, hspent, howed⟩ := h
  refine ⟨(hm.grant id hid).trans hnone, fun s r hr he => ?_, fun hmem => ?_⟩
  · cases s with
    | code x =>
      rcases hm.codeSpent x r hr with hr | ⟨-, -, hgrant⟩
      · exact hspent _ r hr he
      · exact hid (he ▸ hgrant)
    | refresh x =>
      rcases hm.tokenSpent x r hr with hr | ⟨hgrant, -⟩
      · exact hspent _ r hr he
      · exact hid (he ▸ hgrant)
  · rcases hm.owed id hmem with hmem | ⟨s, r, hr, he⟩
    · exact howed hmem
    · exact hspent s r hr he

theorem Moves.swept (hm : Moves mine d d') {token y : Digest} {since : Int} (h : Swept d token since y) : Swept d' token since y := by
  rcases h with ⟨rfl, hlate⟩ | ⟨r, t, hr, ht, hlate⟩
  · exact Or.inl ⟨rfl, lt_of_lt_of_le hlate hm.clock⟩
  · exact Or.inr ⟨r, t, hm.stays _ r hr, ht, lt_of_lt_of_le hlate hm.clock⟩

theorem Moves.guarded (hm : Moves mine d d') {locks shares : Row → Prop} (hclear : Clear mine locks shares) {p : Presented}
    (hshares : ∀ x, p.secret = .refresh x → shares (.secret x)) (h : Guarded d locks p) : Guarded d' locks p := by
  unfold Guarded at h ⊢
  cases hs : p.secret with
  | code x =>
    simp only [hs] at h ⊢
    exact h.imp_right (hm.absent x)
  | refresh x =>
    simp only [hs] at h ⊢
    rcases h with h | ⟨i, b, hi, hb, hhash⟩
    · exact Or.inl (hm.notCurrent (fun hx => (hclear _ hx).2 (hshares x hs)) h)
    · exact Or.inr ⟨i, b, hi, (hm.grant i fun hmine => (hclear _ hmine).1 hi).trans hb, hhash⟩

theorem Moves.covers (hm : Moves mine d d') (hk : Kept d) {locks shares : Row → Prop} (hclear : Clear mine locks shares)
    {p : Presented} (hg : Guarded d locks p) {id : Option Id} (h : Covers d p id) : Covers d' p id := by
  intro i hi
  obtain ⟨r, hr, hclient, hin, rfl⟩ := mem_owedTo.1 hi
  have hold : d.spent p.secret = some r → id = some r.grantID ∨ d'.grant r.grantID = none := fun hr' =>
    (h r.grantID (mem_owedTo.2 ⟨r, hr', hclient, fun t ht => le_trans hm.clock (hin t ht), rfl⟩)).imp_right (hm.grantGone hr' rfl)
  unfold Guarded at hg
  cases hs : p.secret with
  | code x =>
    simp only [hs] at hg hr hold
    rcases hm.codeSpent x r hr with hr' | ⟨hmine, hrow, -⟩
    · exact hold hr'
    · exact (hg.elim (hclear _ hmine).1 hrow).elim
  | refresh x =>
    simp only [hs] at hg hr hold
    rcases hm.tokenSpent x r hr with hr' | ⟨hmine, b, hb, hhash, happ⟩
    · exact hold hr'
    · rcases hg with hg | ⟨j, a, hj, ha, hhash'⟩
      · exact absurd hhash (hg _ b hb (happ.trans hclient))
      · have hsame := hk.own _ _ b a hb ha (hhash.trans hhash'.symm)
        exact ((hclear _ hmine).1 (hsame ▸ hj)).elim

theorem Knows.stable {t : Tx} (hl : Knows d t) (hk : Kept d) (hm : Moves mine d d') (hclear : Clear mine t.locks t.shares) :
    Knows d' t := by
  refine ⟨fun x hx => hm.known (hl.secrets x hx), fun i hi => hm.ids (hl.ids i hi), ?_⟩
  obtain ⟨since, stage⟩ := t
  have hstage := hl.stage
  have hrow : ∀ r, stage.locks r → ¬ mine r := fun r hr hmine => (hclear r hmine).1 hr
  have hshare : ∀ r, stage.shares r → ¬ mine r := fun r hr hmine => (hclear r hmine).2 hr
  cases stage with
  | asked => trivial
  | redeeming c x uri verifier => exact hm.usable (hrow (.code x) rfl) hstage
  | granting code c user held => exact fun x hx => hm.usable (hrow (.code x) (Option.mem_def.1 hx)) (hstage x hx)
  | granted code id g new =>
    obtain ⟨hcode, hmade, hgrant⟩ := hstage
    refine ⟨fun x hx => hm.usable (hrow (.code x) (Option.mem_def.1 hx)) (hcode x hx),
      hm.made (hrow (.secret _) (Or.inr rfl)) hmade, hgrant.imp ?_ (hm.unborn (hrow (.grant id) rfl))⟩
    rintro ⟨b, hb, hclient⟩
    exact ⟨b, (hm.grant id (hrow (.grant id) rfl)).trans hb, hclient⟩
  | ending =>
    exact ⟨hm.covers hk hclear hstage.2 hstage.1, hm.guarded hclear (fun x hx => hx) hstage.2⟩
  | ended =>
    refine ⟨fun x hx => ?_, fun q hq => ?_⟩
    · obtain ⟨row, hrow', hgrant⟩ := hstage.1 x hx
      exact ⟨row, (hm.code x (hrow (.code x) (Or.inr hx))).trans hrow', hgrant⟩
    obtain ⟨hcov, hg⟩ := hstage.2 q hq
    exact ⟨hm.covers hk hclear hg hcov, hm.guarded hclear (fun x hx => ⟨q, hq, hx⟩) hg⟩
  | rotatedAway c x => exact hm.notCurrent (hshare (.secret x) rfl) hstage
  | holding c x id scope =>
    obtain ⟨b, hb, hrest⟩ := hstage
    exact ⟨b, (hm.grant id (hrow (.grant id) rfl)).trans hb, hrest⟩
  | refreshed x id g swept =>
    obtain ⟨⟨b, hb, hrest⟩, hmade, hswept⟩ := hstage
    exact ⟨⟨b, (hm.grant id (hrow (.grant id) rfl)).trans hb, hrest⟩, hm.made (hrow (.secret _) (Or.inr rfl)) hmade,
      fun y hy => hm.swept (hswept y hy)⟩
  | refused => exact ⟨hm.covers hk hclear hstage.2 hstage.1, hm.guarded hclear (fun x hx => hx) hstage.2⟩
  | read => trivial
  | exchanging => trivial
  | exchanged =>
    obtain ⟨b, hb⟩ := hstage
    exact ⟨b, (hm.grant _ (hshare (.grant _) rfl)).trans hb⟩
  | unlinked => trivial

end

/-! ## Commits keep it -/

section
variable {d : Data}

variable {p : Presented} {id c : Id} {g : Grant} {x : Digest} {now since : Int} {s : Secret} {r : Spent}
  {codes : List Digest}

theorem settle_unspent (h : d.spent p.secret = none) : d.settle p = d := by
  unfold Data.settle
  rw [owedTo_unspent h, nil_append]

theorem update_some {A B : Type} [DecidableEq A] {f : A → Option B} {i k : A} {g b : B}
    (h : Function.update f k (some g) i = some b) : (i = k ∧ b = g) ∨ (i ≠ k ∧ f i = some b) := by
  by_cases hi : i = k
  · subst hi
    rw [Function.update_self] at h
    exact Or.inl ⟨rfl, (Option.some.inj h).symm⟩
  · rw [Function.update_of_ne hi] at h
    exact Or.inr ⟨hi, h⟩

theorem written_gone {i : Id} (hold : (∃ b, d.grant id = some b ∧ b.clientID = g.clientID) ∨ Unborn d id)
    (hi : i ≠ id ∨ ¬ Unborn d id) (h : d.grant i = none) : Function.update d.grant id (some g) i = none := by
  have hne : i ≠ id := by
    rintro rfl
    rcases hold with ⟨b, hb, -⟩ | hun
    · exact Option.some_ne_none b (hb.symm.trans h)
    · exact hi.elim (fun hne => hne rfl) fun hnot => hnot hun
  rw [Function.update_of_ne hne]
  exact h

theorem Kept.putGrant (hk : Kept d) (hmade : Made d g) (hknown : g.refreshHash ∈ d.known) (hid : id ∈ d.ids)
    (hold : (∃ b, d.grant id = some b ∧ b.clientID = g.clientID) ∨ Unborn d id) (e : Digest → Option Exchanged) :
    Kept { d with grant := Function.update d.grant id (some g), exchanged := e } := by
  have hnot : ∀ {s r}, d.spent s = some r → r.grantID ≠ id ∨ ¬ Unborn d id := fun hr => by
    by_cases hun : Unborn d id
    · exact Or.inl (hun.2.1 _ _ hr)
    · exact Or.inr hun
  refine ⟨fun i j a b ha hb he => ?_, fun i a ha => ?_, fun i a ha => ?_, fun i a ha => ?_, hk.tokens, hk.origins,
    fun s r a hr ha => ?_, fun x r hr => ?_, fun x r hr => ?_, hk.records, hk.once, hk.answers, fun i hi => ?_⟩
  · rcases update_some ha with ⟨hi, rfl⟩ | ⟨-, ha'⟩ <;> rcases update_some hb with ⟨hj, rfl⟩ | ⟨-, hb'⟩
    · exact hi.trans hj.symm
    · exact absurd he.symm (hmade.1 j b hb')
    · exact absurd he (hmade.1 i a ha')
    · exact hk.own i j a b ha' hb' he
  · rcases update_some ha with ⟨-, rfl⟩ | ⟨-, ha⟩
    · exact hmade.2
    · exact hk.live i a ha
  · rcases update_some ha with ⟨-, rfl⟩ | ⟨-, ha⟩
    · exact hknown
    · exact hk.hashes i a ha
  · rcases update_some ha with ⟨rfl, -⟩ | ⟨-, ha⟩
    · exact hid
    · exact hk.grants i a ha
  · rcases update_some ha with ⟨hi, rfl⟩ | ⟨-, ha⟩
    · rcases hold with ⟨b, hb, hclient⟩ | hun
      · exact hclient.symm.trans (hk.apps s r b hr (hi ▸ hb))
      · exact absurd hi (hun.2.1 s r hr)
    · exact hk.apps s r a hr ha
  · obtain ⟨row, hrow, hused, hclient, hgrant⟩ := hk.codes x r hr
    exact ⟨row, hrow, hused, hclient, hgrant.imp_right (written_gone hold (hnot hr))⟩
  · obtain ⟨t, ht, hrest⟩ := hk.rotations x r hr
    exact ⟨t, ht, hrest.imp_left (written_gone hold (hnot hr))⟩
  · obtain ⟨hmem, hnone⟩ := hk.ended i hi
    refine ⟨hmem, written_gone hold ?_ hnone⟩
    by_cases hun : Unborn d id
    · exact Or.inl fun he => hun.2.2 (he ▸ hi)
    · exact Or.inr hun

theorem useCode_spent (h : (d.useCode x id c now).spent s = some r) :
    (s = .code x ∧ r = ⟨id, c, none⟩) ∨ (s ≠ .code x ∧ d.spent s = some r) := update_some h

theorem useCode_spent_other (h : s ≠ .code x) :
    (d.useCode x id c now).spent s = d.spent s := Function.update_of_ne h _ _

theorem rotateToken_spent {swept : List Digest}
    (h : (d.rotateToken x id c since swept).spent s = some r) :
    (s = .refresh x ∧ r = ⟨id, c, some since⟩) ∨ (s ≠ .refresh x ∧ d.spent s = some r) := update_some h

theorem rotateToken_spent_other {swept : List Digest} (h : s ≠ .refresh x) :
    (d.rotateToken x id c since swept).spent s = d.spent s := Function.update_of_ne h _ _

theorem answers_cons {f : Secret → Option Spent} {s₀ : Secret} {answered : List Secret}
    (h : ∀ s ∈ answered, f s ≠ none) : ∀ s ∈ s₀ :: answered, Function.update f s₀ (some r) s ≠ none := by
  intro s hs
  by_cases he : s = s₀
  · subst he
    rw [Function.update_self]
    exact Option.some_ne_none r
  · rw [Function.update_of_ne he]
    exact h s ((mem_cons.1 hs).resolve_left he)

theorem Kept.useCode (hk : Kept d) (hgrant : d.grant id = some g)
    (husable : Usable d g.clientID x) (hspent : d.spent (.code x) = none) : Kept (d.useCode x id g.clientID now) := by
  obtain ⟨row, hrow, hclient, -⟩ := husable
  refine ⟨hk.own, fun i a ha => ?_, hk.hashes, hk.grants, fun y r hr => ?_, fun s r hr => ?_, fun s r a hr ha => ?_, fun y r hr => ?_,
    fun y r hr => ?_, fun y ρ hρ => ?_, ?_, fun s hs => ?_, hk.ended⟩
  · exact (useCode_spent_other (by simp)).trans (hk.live i a ha)
  · rcases useCode_spent hr with ⟨h, -⟩ | ⟨-, hr⟩
    · cases h
    · exact hk.tokens y r hr
  · rcases useCode_spent hr with ⟨-, rfl⟩ | ⟨-, hr⟩
    · exact hk.grants id g hgrant
    · exact hk.origins s r hr
  · rcases useCode_spent hr with ⟨-, rfl⟩ | ⟨-, hr⟩
    · rw [Option.some.inj (hgrant.symm.trans ha)]
    · exact hk.apps s r a hr ha
  · rcases useCode_spent hr with ⟨h, rfl⟩ | ⟨hne, hr⟩
    · cases h
      refine ⟨{ row with usedAt := some now, grantID := some id }, ?_, Option.some_ne_none _, hclient, Or.inl rfl⟩
      show Function.update d.code x _ x = _
      rw [Function.update_self, hrow]
      rfl
    · obtain ⟨row', hrow', hrest⟩ := hk.codes y r hr
      exact ⟨row', (Function.update_of_ne (fun h => hne (congrArg _ h)) _ _).trans hrow', hrest⟩
  · rcases useCode_spent hr with ⟨h, -⟩ | ⟨-, hr⟩
    · cases h
    · exact hk.rotations y r hr
  · obtain ⟨r, hr, hrest⟩ := hk.records y ρ hρ
    exact ⟨r, (useCode_spent_other (by simp)).trans hr, hrest⟩
  · exact nodup_cons.2 ⟨fun hmem => hk.answers _ hmem hspent, hk.once⟩
  · exact answers_cons hk.answers s hs

theorem Kept.rotateToken (hk : Kept d) {swept : List Digest}
    (hgrant : d.grant id = some g) (hnot : ∀ j b, d.grant j = some b → b.refreshHash ≠ x) (hknown : x ∈ d.known)
    (hspent : d.spent (.refresh x) = none) (hswept : ∀ y ∈ swept, Swept d x since y) :
    Kept (d.rotateToken x id g.clientID since swept) := by
  refine ⟨hk.own, fun i a ha => ?_, hk.hashes, hk.grants, fun y r hr => ?_, fun s r hr => ?_, fun s r a hr ha => ?_, fun y r hr => ?_,
    fun y r hr => ?_, fun y ρ hρ => ?_, ?_, fun s hs => ?_, hk.ended⟩
  · exact (rotateToken_spent_other fun h => hnot i a ha (Secret.refresh.inj h)).trans (hk.live i a ha)
  · rcases rotateToken_spent hr with ⟨h, -⟩ | ⟨-, hr⟩
    · cases h
      exact hknown
    · exact hk.tokens y r hr
  · rcases rotateToken_spent hr with ⟨-, rfl⟩ | ⟨-, hr⟩
    · exact hk.grants id g hgrant
    · exact hk.origins s r hr
  · rcases rotateToken_spent hr with ⟨-, rfl⟩ | ⟨-, hr⟩
    · rw [Option.some.inj (hgrant.symm.trans ha)]
    · exact hk.apps s r a hr ha
  · rcases rotateToken_spent hr with ⟨h, -⟩ | ⟨-, hr⟩
    · cases h
    · exact hk.codes y r hr
  · rcases rotateToken_spent hr with ⟨h, rfl⟩ | ⟨hne, hr⟩
    · cases h
      refine ⟨since, rfl, Or.inr ?_⟩
      by_cases hmem : x ∈ swept
      · rcases hswept x hmem with ⟨-, hlate⟩ | ⟨r, t, hr, -⟩
        · exact Or.inr hlate
        · exact absurd (hr.symm.trans hspent) (Option.some_ne_none r)
      · exact Or.inl ((if_neg hmem).trans (Function.update_self _ _ _))
    · obtain ⟨t, ht, hrest⟩ := hk.rotations y r hr
      have hyx : y ≠ x := fun h => hne (congrArg _ h)
      refine ⟨t, ht, hrest.imp_right fun hrest => ?_⟩
      by_cases hmem : y ∈ swept
      · rcases hswept y hmem with ⟨h, -⟩ | ⟨r', t', hr', ht', hlate⟩
        · exact absurd h hyx
        · obtain rfl := Option.some.inj (hr.symm.trans hr')
          obtain rfl := Option.some.inj (ht.symm.trans ht')
          exact Or.inr hlate
      · exact hrest.imp_left fun h => (if_neg hmem).trans ((Function.update_of_ne hyx _ _).trans h)
  · have hin : y ∉ swept := fun hmem => Option.some_ne_none ρ (hρ.symm.trans (if_pos hmem))
    rcases update_some ((if_neg hin).symm.trans hρ) with ⟨rfl, rfl⟩ | ⟨hy, hρ⟩
    · exact ⟨_, Function.update_self _ _ _, rfl⟩
    · obtain ⟨r, hr, hrest⟩ := hk.records y ρ hρ
      exact ⟨r, (rotateToken_spent_other fun h => hy (Secret.refresh.inj h)).trans hr, hrest⟩
  · exact nodup_cons.2 ⟨fun hmem => hk.answers _ hmem hspent, hk.once⟩
  · exact answers_cons hk.answers s hs

theorem endGrant_some {i : Id} {b : Grant} (h : (d.endGrant id codes).grant i = some b) :
    i ≠ id ∧ d.grant i = some b := by
  by_cases hi : i = id
  · subst hi
    rw [show (d.endGrant i codes).grant i = none from Function.update_self _ _ _] at h
    cases h
  · exact ⟨hi, (Function.update_of_ne hi _ _).symm.trans h⟩

theorem endGrant_none {i : Id} (h : id = i ∨ d.grant i = none) : (d.endGrant id codes).grant i = none := by
  by_cases hi : i = id
  · subst hi
    exact Function.update_self _ _ _
  · exact (Function.update_of_ne hi _ _).trans (h.resolve_left fun he => hi he.symm)

theorem Kept.endGrant (hk : Kept d)
    (hcodes : ∀ x ∈ codes, ∃ row, d.code x = some row ∧ row.grantID = some id) : Kept (d.endGrant id codes) := by
  refine ⟨fun i j a b ha hb => hk.own i j a b (endGrant_some ha).2 (endGrant_some hb).2, fun i a ha => hk.live i a (endGrant_some ha).2,
    fun i a ha => hk.hashes i a (endGrant_some ha).2, fun i a ha => hk.grants i a (endGrant_some ha).2, hk.tokens, hk.origins,
    fun s r a hr ha => hk.apps s r a hr (endGrant_some ha).2, fun x r hr => ?_, fun x r hr => ?_, fun x ρ hρ => ?_, hk.once,
    hk.answers, fun i hi => ⟨(hk.ended i hi).1, endGrant_none (Or.inr (hk.ended i hi).2)⟩⟩
  · obtain ⟨row, hrow, hused, hclient, hgrant⟩ := hk.codes x r hr
    by_cases hid : r.grantID = id
    · by_cases hmem : x ∈ codes
      · refine ⟨{ row with grantID := none }, ?_, hused, hclient, Or.inr (endGrant_none (Or.inl hid.symm))⟩
        show (if x ∈ codes then (d.code x).map _ else d.code x) = _
        rw [if_pos hmem, hrow]
        rfl
      · exact ⟨row, (if_neg hmem).trans hrow, hused, hclient, Or.inr (endGrant_none (Or.inl hid.symm))⟩
    · by_cases hmem : x ∈ codes
      · obtain ⟨row', hrow', hgrant'⟩ := hcodes x hmem
        obtain rfl := Option.some.inj (hrow.symm.trans hrow')
        have hnone : d.grant r.grantID = none := hgrant.resolve_left fun he => hid (Option.some.inj (he.symm.trans hgrant'))
        refine ⟨{ row with grantID := none }, ?_, hused, hclient, Or.inr (endGrant_none (Or.inr hnone))⟩
        show (if x ∈ codes then (d.code x).map _ else d.code x) = _
        rw [if_pos hmem, hrow]
        rfl
      · exact ⟨row, (if_neg hmem).trans hrow, hused, hclient, hgrant.imp_right fun h => endGrant_none (Or.inr h)⟩
  · obtain ⟨t, ht, hrest⟩ := hk.rotations x r hr
    refine ⟨t, ht, ?_⟩
    rcases hrest with hnone | hrow | hlate
    · exact Or.inl (endGrant_none (Or.inr hnone))
    · by_cases hid : r.grantID = id
      · exact Or.inl (endGrant_none (Or.inl hid.symm))
      · refine Or.inr (Or.inl ?_)
        show (d.rotated x).filter _ = _
        rw [hrow]
        simp [hid]
    · exact Or.inr (Or.inr hlate)
  · obtain ⟨hρ, -⟩ := Option.filter_eq_some_iff.1 hρ
    exact hk.records x ρ hρ

theorem Kept.owe (hk : Kept d) {is : List Id} (h : ∀ i ∈ is, i ∈ d.ids ∧ d.grant i = none) : Kept { d with owed := is ++ d.owed } :=
  ⟨hk.own, hk.live, hk.hashes, hk.grants, hk.tokens, hk.origins, hk.apps, hk.codes, hk.rotations, hk.records, hk.once, hk.answers,
    fun i hi => (mem_append.1 hi).elim (h i) (hk.ended i)⟩

theorem Kept.make (hk : Kept d) (xs : List Digest) (is : List Id) : Kept { d with known := xs ++ d.known, ids := is ++ d.ids } :=
  { hk with
    hashes := fun i a ha => mem_append_right _ (hk.hashes i a ha)
    grants := fun i a ha => mem_append_right _ (hk.grants i a ha)
    tokens := fun x r hr => mem_append_right _ (hk.tokens x r hr)
    origins := fun s r hr => mem_append_right _ (hk.origins s r hr)
    ended := fun i hi => ⟨mem_append_right _ (hk.ended i hi).1, (hk.ended i hi).2⟩ }

theorem owed_ids (hk : Kept d) {i : Id} (h : i ∈ owedTo d p) : i ∈ d.ids := by
  obtain ⟨r, hr, -, -, rfl⟩ := mem_owedTo.1 h
  exact hk.origins _ r hr

/-! ## What commits change -/

variable {mine : Row → Prop} {d' : Data}

theorem Moves.of_settle (h : Moves mine (d.settle p) d') : Moves mine d d' where
  clock := h.clock
  known := h.known
  ids := h.ids
  code := h.code
  absent := h.absent
  grant := h.grant
  hash := h.hash
  stays := h.stays
  codeSpent := h.codeSpent
  tokenSpent := h.tokenSpent
  owed i hi := by
    rcases h.owed i hi with hi | hi
    · refine (mem_append.1 hi).symm.imp_right fun hi => ?_
      obtain ⟨r, hr, -, -, he⟩ := mem_owedTo.1 hi
      exact ⟨_, r, hr, he⟩
    · exact Or.inr hi
  born := h.born

theorem moves_settle (mine : Row → Prop) (d : Data) (p : Presented) : Moves mine d (d.settle p) := (moves_refl mine _).of_settle

theorem moves_make (mine : Row → Prop) (d : Data) (xs : List Digest) (is : List Id) :
    Moves mine d { d with known := xs ++ d.known, ids := is ++ d.ids } :=
  { moves_refl mine d with
    known := subset_append_right _ _
    ids := subset_append_right _ _ }

theorem moves_grant (mine : Row → Prop) (hid : mine (.grant id)) (hsecret : mine (.secret g.refreshHash))
    (hold : (∃ b, d.grant id = some b ∧ b.clientID = g.clientID) ∨ Unborn d id) (e : Digest → Option Exchanged) :
    Moves mine d { d with grant := Function.update d.grant id (some g), exchanged := e } where
  clock := le_refl _
  known := List.Subset.refl _
  ids := List.Subset.refl _
  code _ _ := rfl
  absent _ h := h
  grant i hi := by
    have hne : i ≠ id := fun he => hi (he ▸ hid)
    exact Function.update_of_ne hne _ _
  hash i b hb := by
    rcases update_some hb with ⟨-, rfl⟩ | ⟨-, hb⟩
    · exact Or.inr hsecret
    · exact Or.inl ⟨b, hb, rfl, rfl⟩
  stays _ _ h := h
  codeSpent _ _ h := Or.inl h
  tokenSpent _ _ h := Or.inl h
  owed _ h := Or.inl h
  born i hnone hne s r hr he := by
    by_cases hi : i = id
    · subst hi
      rcases hold with ⟨b, hb, -⟩ | hun
      · exact Option.some_ne_none b (hb.symm.trans hnone)
      · exact hun.2.1 s r hr he
    · exact hne ((Function.update_of_ne hi _ _).trans hnone)

theorem Moves.useCode (h : Moves mine d d') (hx : mine (.code x)) (hid : mine (.grant id))
    (hrow : d.code x ≠ none) (hspent : d.spent (.code x) = none) : Moves mine d (d'.useCode x id c now) :=
  { h with
    code := fun y hy => by
      have hne : y ≠ x := fun he => hy (he ▸ hx)
      exact (Function.update_of_ne hne _ _).trans (h.code y hy)
    absent := fun y hy => by
      have hne : y ≠ x := fun he => hrow (he ▸ hy)
      exact (Function.update_of_ne hne _ _).trans (h.absent y hy)
    stays := fun s r hr => by
      have hne : s ≠ .code x := fun he => Option.some_ne_none r ((he ▸ hr).symm.trans hspent)
      exact (useCode_spent_other hne).trans (h.stays s r hr)
    codeSpent := fun y r hr => by
      rcases useCode_spent hr with ⟨he, rfl⟩ | ⟨-, hr⟩
      · cases he
        exact Or.inr ⟨hx, hrow, hid⟩
      · exact h.codeSpent y r hr
    tokenSpent := fun y r hr => by
      rcases useCode_spent hr with ⟨he, -⟩ | ⟨-, hr⟩
      · cases he
      · exact h.tokenSpent y r hr }

theorem Moves.rotateToken (h : Moves mine d d') {swept : List Digest} (hid : mine (.grant id))
    (hgrant : ∃ b, d.grant id = some b ∧ b.clientID = c ∧ b.refreshHash = x) (hspent : d.spent (.refresh x) = none) :
    Moves mine d (d'.rotateToken x id c since swept) :=
  { h with
    stays := fun s r hr => by
      have hne : s ≠ .refresh x := fun he => Option.some_ne_none r ((he ▸ hr).symm.trans hspent)
      exact (rotateToken_spent_other hne).trans (h.stays s r hr)
    codeSpent := fun y r hr => by
      rcases rotateToken_spent hr with ⟨he, -⟩ | ⟨-, hr⟩
      · cases he
      · exact h.codeSpent y r hr
    tokenSpent := fun y r hr => by
      rcases rotateToken_spent hr with ⟨he, rfl⟩ | ⟨-, hr⟩
      · cases he
        obtain ⟨b, hb, hclient, hhash⟩ := hgrant
        exact Or.inr ⟨hid, b, hb, hhash, hclient⟩
      · exact h.tokenSpent y r hr }

theorem moves_endGrant (mine : Row → Prop) (hid : mine (.grant id)) (hcodes : ∀ x ∈ codes, mine (.code x)) :
    Moves mine d (d.endGrant id codes) :=
  { moves_refl mine d with
    code := fun x hx => if_neg fun hmem => hx (hcodes x hmem)
    absent := fun x hx => by
      show (if x ∈ codes then (d.code x).map _ else d.code x) = none
      rw [hx, Option.map_none, ite_self]
    grant := fun i hi => by
      have hne : i ≠ id := fun he => hi (he ▸ hid)
      exact Function.update_of_ne hne _ _
    hash := fun i b hb => Or.inl ⟨b, (endGrant_some hb).2, rfl, rfl⟩
    born := fun i hnone hne => absurd (endGrant_none (Or.inr hnone)) hne }

end

/-! ## Every step keeps it -/

section
variable {w : World} {ok : Data → List Tx → Id → List Scope → Prop} {d d' : Data} {others : List Tx} {t : Tx}
  {t' : Option Tx}

variable {x : Digest} {q : Tx} {c : Id} {p : Presented}

theorem free_secret (hx : x ∉ d.known) (hl : ∀ q ∈ others, Knows d q) : Free Tx.locks Tx.shares others (.secret x) :=
  fun q hq => ⟨fun h => hx ((hl q hq).secrets x (Or.inl h)), fun h => hx ((hl q hq).secrets x (Or.inr h))⟩

def Leaves (others : List Tx) (d' : Data) (q : Tx) : Prop := Knows d' q ∧ ∀ u ∈ others, Compatible Tx.locks Tx.shares q u

theorem leaves_some (h : Leaves others d' q) : ∀ q' ∈ some q, Leaves others d' q' := by
  intro q' hq'
  obtain rfl := Option.mem_some_iff.1 hq'
  exact h

theorem leaves_none : ∀ q ∈ (none : Option Tx), Leaves others d' q := nofun

theorem made_fresh (hk : Kept d) {g : Grant} (hx : g.refreshHash ∉ d.known) : Made d g :=
  ⟨fun j b hb he => hx (he ▸ hk.hashes j b hb), Option.eq_none_iff_forall_ne_some.2 fun r hr => hx (hk.tokens _ r hr)⟩

theorem usable_unspent (hk : Kept d) (h : Usable d c x) : d.spent (.code x) = none := by
  refine Option.eq_none_iff_forall_ne_some.2 fun r hr => ?_
  obtain ⟨row, hrow, -, hunused⟩ := h
  obtain ⟨row', hrow', hused, -⟩ := hk.codes x r hr
  obtain rfl := Option.some.inj (hrow.symm.trans hrow')
  exact hused hunused

theorem covers_unspent (h : d.spent p.secret = none) (id : Option Id) : Covers d p id := by
  intro i hi
  rw [owedTo_unspent h] at hi
  cases hi

theorem rows_iff {r : Row} : p.rows r ↔ p.held = some r := by
  unfold Presented.held
  cases r <;> cases hs : p.secret <;> simp [Presented.rows, hs]

theorem Guarded.mono {mine mine' : Row → Prop} (h : ∀ r, mine r → mine' r) (hg : Guarded d mine p) :
    Guarded d mine' p := by
  unfold Guarded at hg ⊢
  cases hs : p.secret with
  | code =>
    simp only [hs] at hg ⊢
    exact hg.imp_left (h _)
  | refresh =>
    simp only [hs] at hg ⊢
    exact hg.imp_right fun ⟨i, b, hi, hrest⟩ => ⟨i, b, h _ hi, hrest⟩

theorem covers_code (hk : Kept d) {row : Code} (hrow : d.code x = some row) :
    Covers d ⟨c, .code x⟩ row.grantID := by
  intro i hi
  obtain ⟨r, hr, -, -, rfl⟩ := mem_owedTo.1 hi
  obtain ⟨row', hrow', -, -, hgrant⟩ := hk.codes x r hr
  obtain rfl := Option.some.inj (hrow.symm.trans hrow')
  exact hgrant

theorem covers_otherApp (hk : Kept d) {row : Code} (hrow : d.code x = some row) (hc : row.clientID ≠ c) :
    Covers d ⟨c, .code x⟩ none := by
  intro i hi
  obtain ⟨r, hr, hclient, -, rfl⟩ := mem_owedTo.1 hi
  obtain ⟨row', hrow', -, happ, -⟩ := hk.codes x r hr
  obtain rfl := Option.some.inj (hrow.symm.trans hrow')
  exact absurd (happ.trans hclient) hc

theorem covers_rotated (hk : Kept d) {i : Id} (hi : i ∈ owedTo d ⟨c, .refresh x⟩) :
    d.grant i = none ∨ ∃ ρ g, d.rotated x = some ρ ∧ ρ.grantID = i ∧ d.grant i = some g ∧ g.clientID = c := by
  obtain ⟨r, hr, hclient, hin, rfl⟩ := mem_owedTo.1 hi
  obtain ⟨t, ht, hrest⟩ := hk.rotations x r hr
  cases hg : d.grant r.grantID with
  | none => exact Or.inl rfl
  | some g =>
    rw [hg] at hrest
    rcases hrest with h | h | h
    · cases h
    · exact Or.inr ⟨_, g, h, rfl, rfl, (hk.apps _ r g hr hg).trans hclient⟩
    · exact absurd h (not_lt.2 (hin t ht))

def Named (d : Data) : Row → Prop
  | .grant i => i ∈ d.ids
  | .secret x => x ∈ d.known
  | _ => True

def Carries (d : Data) (others : List Tx) (t : Tx) (d' : Data) (t' : Option Tx) : Prop :=
  Kept d' ∧ Moves t.locks d d' ∧ ∀ q ∈ t', Leaves others d' q

theorem goes_made (hk : Kept d) (hl : Knows d t) (hothers : ∀ q ∈ others, Knows d q ∧ Compatible Tx.locks Tx.shares t q)
    (xs : List Digest) (is : List Id)
    (hstage : Informed { d with known := xs ++ d.known, ids := is ++ d.ids } q.since q.stage)
    (hlocks : ∀ r, q.locks r → t.locks r ∨
      Named { d with known := xs ++ d.known, ids := is ++ d.ids } r ∧ Free Tx.locks Tx.shares others r)
    (hshares : ∀ r, q.shares r → (t.locks r ∨ t.shares r) ∨
      Named { d with known := xs ++ d.known, ids := is ++ d.ids } r ∧ Unlocked Tx.locks others r) :
    Carries d others t { d with known := xs ++ d.known, ids := is ++ d.ids } (some q) := by
  refine ⟨hk.make xs is, moves_make _ d xs is, leaves_some ⟨⟨fun x hx => ?_, fun i hi => ?_, hstage⟩,
    Interleaving.compatible_after (fun q hq => (hothers q hq).2) (fun r hr => (hlocks r hr).imp_right And.right)
      fun r hr => (hshares r hr).imp_right And.right⟩⟩
  · have hold : t.locks (.secret x) ∨ t.shares (.secret x) → x ∈ xs ++ d.known := fun h => mem_append_right _ (hl.secrets x h)
    exact hx.elim (fun h => (hlocks _ h).elim (hold ∘ Or.inl) And.left) fun h => (hshares _ h).elim hold And.left
  · have hold : t.locks (.grant i) ∨ t.shares (.grant i) → i ∈ is ++ d.ids := fun h => mem_append_right _ (hl.ids i h)
    exact hi.elim (fun h => (hlocks _ h).elim (hold ∘ Or.inl) And.left) fun h => (hshares _ h).elim hold And.left

theorem goes (hk : Kept d) (hl : Knows d t) (hothers : ∀ q ∈ others, Knows d q ∧ Compatible Tx.locks Tx.shares t q)
    (hstage : Informed d q.since q.stage) (hlocks : ∀ r, q.locks r → t.locks r ∨ Named d r ∧ Free Tx.locks Tx.shares others r)
    (hshares : ∀ r, q.shares r → (t.locks r ∨ t.shares r) ∨ Named d r ∧ Unlocked Tx.locks others r) : Carries d others t d (some q) :=
  goes_made hk hl hothers [] [] hstage hlocks hshares

def Keeps (w : World) (ok : Data → List Tx → Id → List Scope → Prop) (since : Int) (stage : Stage) : Prop :=
  ∀ {d d' : Data} {others : List Tx} {t' : Option Tx}, Kept d → Knows d ⟨since, stage⟩ →
    (∀ q ∈ others, Knows d q ∧ Compatible Tx.locks Tx.shares ⟨since, stage⟩ q) → Act w ok d others ⟨since, stage⟩ d' t' →
      Carries d others ⟨since, stage⟩ d' t'

section
variable {since : Int} {c : Id} {x : Digest}

theorem redeemCode_keeps {uri verifier : String} : Keeps w ok since (.asked (.redeemCode c x uri verifier)) := by
  intro d d' others t' hk hl hothers ha
  cases ha with
  | unknownCode hrow =>
    have hspent : d.spent (.code x) = none := Option.eq_none_iff_forall_ne_some.2 fun r hr => by
      obtain ⟨row, hrow', -⟩ := hk.codes x r hr
      exact Option.some_ne_none row (hrow'.symm.trans hrow)
    refine goes hk hl hothers ⟨covers_unspent hspent _, Or.inr hrow⟩ (fun r hr => ?_) fun r hr => ?_
    · cases hr
    · cases r <;> cases hr
  | otherApp hrow hfree hc =>
    refine goes hk hl hothers ⟨covers_otherApp hk hrow hc, Or.inl rfl⟩ (fun r hr => ?_) fun r hr => ?_
    · cases hr
      exact Or.inr ⟨trivial, hfree⟩
    · cases r <;> cases hr
  | reused id hrow hfree hc hused hgrant =>
    refine goes hk hl hothers ⟨hgrant ▸ covers_code hk hrow, Or.inl rfl⟩ (fun r hr => ?_) fun r hr => ?_
    · cases r <;> cases hr
      exact Or.inr ⟨trivial, hfree⟩
    · cases r <;> cases hr
  | reusedEnded hrow hfree hc hused hgrant =>
    refine goes hk hl hothers ⟨hgrant ▸ covers_code hk hrow, Or.inl rfl⟩ (fun r hr => ?_) fun r hr => ?_
    · cases hr
      exact Or.inr ⟨trivial, hfree⟩
    · cases r <;> cases hr
  | @unused _ _ _ _ _ row hrow hfree hc hused =>
    refine goes hk hl hothers ⟨row, hrow, hc, hused⟩ (fun r hr => ?_) fun r hr => ?_
    · cases r <;> cases hr
      exact Or.inr ⟨trivial, hfree⟩
    · cases r <;> cases hr

theorem redeeming_keeps {uri verifier : String} : Keeps w ok since (.redeeming c x uri verifier) := by
  intro d d' others t' hk hl hothers ha
  cases ha with
  | redeem =>
    refine goes hk hl hothers (fun y hy => ?_) (fun r hr => ?_) fun r hr => ?_
    · obtain rfl := Option.mem_some_iff.1 hy
      exact hl.stage
    · cases r <;> cases hr
      exact Or.inl rfl
    · cases r <;> cases hr
  | unredeemed =>
    refine goes hk hl hothers ⟨covers_unspent (usable_unspent hk hl.stage) _, Or.inl rfl⟩ (fun r hr => ?_) fun r hr => ?_
    · cases hr
      exact Or.inl rfl
    · cases r <;> cases hr

variable {scope : List String} {id : Id}

theorem fromIdentityProvider_keeps {user : Id} : Keeps w ok since (.asked (.fromIdentityProvider c user scope)) := by
  intro d d' others t' hk hl hothers ha
  cases ha with
  | identity =>
    refine goes hk hl hothers nofun (fun r hr => ?_) fun r hr => ?_
    · cases r <;> cases hr
    · cases r <;> cases hr

theorem granting_keeps {code : Option Digest} {user : Id} {held : List Scope} : Keeps w ok since (.granting code c user held) := by
  intro d d' others t' hk hl hothers ha
  have hfresh : ∀ {x}, x ∉ d.known → Free Tx.locks Tx.shares others (.secret x) := fun hx =>
    free_secret hx fun q hq => (hothers q hq).1
  cases ha with
  | @renew _ _ _ _ _ id g access refresh hgrant huser hclient hfree haccess hrefresh =>
    refine goes_made hk hl hothers [access, refresh] [] ⟨hl.stage, made_fresh hk hrefresh, Or.inl ⟨g, hgrant, hclient⟩⟩
      (fun r hr => ?_) fun r hr => ?_
    · cases r with
      | code => exact Or.inl hr
      | grant i =>
        obtain rfl : id = i := hr
        exact Or.inr ⟨hk.grants _ g hgrant, hfree⟩
      | pair => exact absurd hr.1 Bool.false_ne_true
      | secret =>
        rcases hr with rfl | rfl
        · exact Or.inr ⟨mem_cons_self, hfresh haccess⟩
        · exact Or.inr ⟨mem_cons_of_mem _ mem_cons_self, hfresh hrefresh⟩
    · cases r <;> cases hr
  | make id access refresh hnone hfree hid haccess hrefresh =>
    have hunborn : Unborn d id := ⟨Option.eq_none_iff_forall_ne_some.2 fun g hg => hid (hk.grants id g hg),
      fun s r hr he => hid (he ▸ hk.origins s r hr), fun hmem => hid (hk.ended id hmem).1⟩
    refine goes_made hk hl hothers [access, refresh] [id] ⟨hl.stage, made_fresh hk hrefresh, Or.inr hunborn⟩
      (fun r hr => ?_) fun r hr => ?_
    · cases r with
      | code => exact Or.inl hr
      | grant i =>
        obtain rfl : id = i := hr
        refine Or.inr ⟨mem_cons_self, fun q hq => ⟨fun h => ?_, fun h => ?_⟩⟩
        · exact hid ((hothers q hq).1.ids id (Or.inl h))
        · exact hid ((hothers q hq).1.ids id (Or.inr h))
      | pair =>
        obtain ⟨-, rfl, rfl⟩ := hr
        exact Or.inr ⟨trivial, hfree⟩
      | secret =>
        rcases hr with rfl | rfl
        · exact Or.inr ⟨mem_cons_self, hfresh haccess⟩
        · exact Or.inr ⟨mem_cons_of_mem _ mem_cons_self, hfresh hrefresh⟩
    · cases r <;> cases hr

theorem granted_keeps {code : Option Digest} {g : Grant} {new : Bool} : Keeps w ok since (.granted code id g new) := by
  intro d d' others t' hk hl _ ha
  obtain ⟨hcode, hmade, hold⟩ := hl.stage
  have hknown := hl.secrets _ (Or.inl (Or.inr rfl))
  have hkept := hk.putGrant hmade hknown (hl.ids id (Or.inl rfl)) hold
  have hmoves := moves_grant (Stage.granted code id g new).locks rfl (Or.inr rfl) hold
  cases ha with
  | @consented _ x _ _ _ hok =>
    have husable := hcode x rfl
    have hspent := usable_unspent hk husable
    rw [settle_unspent hspent]
    refine ⟨(hkept _).useCode (Function.update_self _ _ _) husable hspent, (hmoves _).useCode rfl rfl ?_ hspent, leaves_none⟩
    obtain ⟨row, hrow, -⟩ := husable
    exact fun hnone => Option.some_ne_none row (hrow.symm.trans hnone)
  | vouched => exact ⟨hkept _, hmoves _, leaves_none⟩

theorem ending_keeps {p : Presented} : Keeps w ok since (.ending p id) := by
  intro d d' others t' hk hl hothers ha
  obtain ⟨hcov, hg⟩ := hl.stage
  cases ha with
  | @delete _ _ _ g codes hgrant hfree hcodes hfreeCodes =>
    have hrows : ∀ r, p.rows r → (Stage.ended (some p) id codes).locks r := fun r hr => by
      cases r with
      | code => exact Or.inl ⟨p, rfl, hr⟩
      | grant => cases hr
      | pair => cases hr
      | secret => cases hr
    refine goes hk hl hothers ⟨fun x hx => (hcodes x).1 hx, fun q hq => ?_⟩ (fun r hr => ?_) fun r hr => ?_
    · obtain rfl := Option.mem_some_iff.1 hq
      exact ⟨hcov, hg.mono hrows⟩
    · cases r with
      | code x =>
        rcases hr with ⟨q, hq, hr⟩ | hr
        · obtain rfl := Option.mem_some_iff.1 hq
          exact Or.inl hr
        · exact Or.inr ⟨trivial, hfreeCodes x hr⟩
      | grant i =>
        obtain rfl : id = i := hr
        exact Or.inr ⟨hk.grants _ g hgrant, hfree⟩
      | pair => cases hr
      | secret => cases hr
    · cases r with
      | secret =>
        obtain ⟨q, hq, hr⟩ := hr
        obtain rfl := Option.mem_some_iff.1 hq
        exact Or.inl (Or.inr hr)
      | code => cases hr
      | grant => cases hr
      | pair => cases hr
  | gone hgrant =>
    refine goes hk hl hothers ⟨fun i hi => Or.inr ?_, hg.mono fun r hr => rows_iff.1 hr⟩ (fun r hr => ?_) fun r hr => ?_
    · rcases hcov i hi with he | he
      · exact Option.some.inj he ▸ hgrant
      · exact he
    · exact Or.inl (rows_iff.2 hr)
    · cases r with
      | secret => exact Or.inl (Or.inr hr)
      | code => cases hr
      | grant => cases hr
      | pair => cases hr

theorem ended_keeps {p : Option Presented} {codes : List Digest} : Keeps w ok since (.ended p id codes) := by
  intro d d' others t' hk hl _ ha
  obtain ⟨hcodes, hq⟩ := hl.stage
  have hmoves := moves_endGrant (d := d) (Stage.ended p id codes).locks rfl fun x hx => Or.inr hx
  cases ha with
  | @replayed _ p =>
    obtain ⟨hcov, -⟩ := hq p rfl
    exact ⟨(hk.endGrant hcodes).owe fun i hi => ⟨owed_ids hk hi, endGrant_none ((hcov i hi).imp_left Option.some.inj)⟩,
      (moves_endGrant (Stage.ended (some p) id codes).locks rfl fun x hx => Or.inr hx).of_settle, leaves_none⟩
  | revoked => exact ⟨hk.endGrant hcodes, hmoves, leaves_none⟩

theorem refresh_keeps : Keeps w ok since (.asked (.refresh c x scope)) := by
  intro d d' others t' hk hl hothers ha
  cases ha with
  | @current _ _ _ _ id g hgrant hhash hclient hfree =>
    refine goes hk hl hothers ⟨g, hgrant, hclient, hhash⟩ (fun r hr => ?_) fun r hr => ?_
    · cases r <;> cases hr
      exact Or.inr ⟨hk.grants _ g hgrant, hfree⟩
    · cases r <;> cases hr
      exact Or.inl (Or.inr rfl)
  | notCurrent hnot =>
    refine goes hk hl hothers hnot (fun r hr => ?_) fun r hr => ?_
    · cases r <;> cases hr
    · cases r <;> cases hr
      exact Or.inl (Or.inr rfl)

theorem rotatedAway_keeps : Keeps w ok since (.rotatedAway c x) := by
  intro d d' others t' hk hl hothers ha
  cases ha with
  | @replay _ _ _ ρ g hrot hgrant hclient =>
    refine goes hk hl hothers ⟨fun i hi => ?_, Or.inl hl.stage⟩ (fun r hr => ?_) fun r hr => ?_
    · rcases covers_rotated hk hi with hnone | ⟨ρ', g', hrot', rfl, -⟩
      · exact Or.inr hnone
      · exact Or.inl (congrArg _ (congrArg Rotated.grantID (Option.some.inj (hrot.symm.trans hrot'))))
    · cases r <;> cases hr
    · cases r <;> cases hr
      exact Or.inl (Or.inr rfl)
  | unrotated hnot =>
    refine goes hk hl hothers ⟨fun i hi => Or.inr ?_, Or.inl hl.stage⟩ (fun r hr => ?_) fun r hr => ?_
    · rcases covers_rotated hk hi with hnone | ⟨ρ, g, hrot, rfl, hgrant, hclient⟩
      · exact hnone
      · exact absurd hclient (hnot ρ g hrot hgrant)
    · cases hr
    · cases r <;> cases hr
      exact Or.inl (Or.inr rfl)

theorem holding_keeps : Keeps w ok since (.holding c x id scope) := by
  intro d d' others t' hk hl hothers ha
  obtain ⟨b, hb, hclient, hhash⟩ := hl.stage
  cases ha with
  | unrefreshed =>
    have hspent : d.spent (.refresh x) = none := hhash ▸ hk.live id b hb
    refine goes hk hl hothers ⟨covers_unspent hspent _, Or.inr ⟨id, b, rfl, hb, hhash⟩⟩ (fun r hr => ?_) fun r hr => ?_
    · cases hr
      exact Or.inl rfl
    · cases r <;> cases hr
      exact Or.inl (Or.inr rfl)
  | @rotate _ _ _ _ _ g held access refresh swept hgrant hin hperson hasked haccess hrefresh hrot hswept =>
    obtain rfl := Option.some.inj (hgrant.symm.trans hb)
    have hfresh : ∀ {x}, x ∉ d.known → Free Tx.locks Tx.shares others (.secret x) := fun hx =>
      free_secret hx fun q hq => (hothers q hq).1
    refine goes_made hk hl hothers [access, refresh] [] ⟨⟨g, hgrant, rfl, hhash⟩, made_fresh hk hrefresh, fun y hy => ?_⟩
      (fun r hr => ?_) fun r hr => ?_
    · obtain ⟨ρ, hρ, hlate⟩ := (hswept y).1 hy
      rcases update_some hρ with ⟨rfl, rfl⟩ | ⟨-, hρ⟩
      · exact Or.inl ⟨rfl, lt_sub_iff_add_lt.1 hlate⟩
      · obtain ⟨r, hr, ht⟩ := hk.records y ρ hρ
        exact Or.inr ⟨r, _, hr, ht, lt_sub_iff_add_lt.1 hlate⟩
    · cases r with
      | code => cases hr
      | grant => exact Or.inl hr
      | pair => cases hr
      | secret =>
        rcases hr with rfl | rfl
        · exact Or.inr ⟨mem_cons_self, hfresh haccess⟩
        · exact Or.inr ⟨mem_cons_of_mem _ mem_cons_self, hfresh hrefresh⟩
    · cases r <;> cases hr
      exact Or.inl (Or.inr rfl)

theorem refreshed_keeps {g : Grant} {swept : List Digest} : Keeps w ok since (.refreshed x id g swept) := by
  intro d d' others t' hk hl _ ha
  obtain ⟨⟨b, hb, hclient, rfl⟩, hmade, hswept⟩ := hl.stage
  have hspent := hk.live id b hb
  have hold : (∃ b, d.grant id = some b ∧ b.clientID = g.clientID) ∨ Unborn d id := Or.inl ⟨b, hb, hclient⟩
  have hknown := hl.secrets _ (Or.inl (Or.inr rfl))
  cases ha with
  | refreshed =>
    rw [settle_unspent hspent]
    refine ⟨(hk.putGrant hmade hknown (hl.ids id (Or.inl rfl)) hold _).rotateToken (Function.update_self _ _ _) (fun j a ha => ?_)
      (hl.secrets _ (Or.inr rfl)) hspent hswept,
      (moves_grant (Stage.refreshed b.refreshHash id g swept).locks rfl (Or.inr rfl) hold _).rotateToken rfl
        ⟨b, hb, hclient, rfl⟩ hspent, leaves_none⟩
    rcases update_some ha with ⟨-, rfl⟩ | ⟨hj, ha⟩
    · exact fun he => hmade.1 id b hb he.symm
    · exact fun he => hj (hk.own j id a b ha hb he)

theorem refused_keeps {p : Presented} {held : Option Row} : Keeps w ok since (.refused p held) := by
  intro d d' others t' hk hl _ ha
  obtain ⟨hcov, -⟩ := hl.stage
  cases ha with
  | refused =>
    exact ⟨hk.owe fun i hi => ⟨owed_ids hk hi, (hcov i hi).resolve_left fun he => Option.some_ne_none i he.symm⟩,
      moves_settle _ d p, leaves_none⟩

theorem narrow_keeps {expiresIn : Option Int} : Keeps w ok since (.asked (.narrow c x scope expiresIn)) := by
  intro d d' others t' hk hl hothers ha
  cases ha with
  | read =>
    refine goes hk hl hothers trivial (fun r hr => ?_) fun r hr => ?_
    · cases r <;> cases hr
    · cases r <;> cases hr

theorem read_keeps {user : Id} {scopes : List Scope} {lifetime : Int} : Keeps w ok since (.read id user scopes scope lifetime) := by
  intro d d' others t' hk hl hothers ha
  cases ha with
  | personIn =>
    refine goes hk hl hothers trivial (fun r hr => ?_) fun r hr => ?_
    · cases r <;> cases hr
    · cases r <;> cases hr

theorem exchanging_keeps {held : List Scope} {lifetime : Int} : Keeps w ok since (.exchanging id held lifetime) := by
  intro d d' others t' hk hl hothers ha
  cases ha with
  | @insert _ _ _ _ g token swept hgrant hun htoken hswept =>
    refine goes_made hk hl hothers [token] [] ⟨g, hgrant⟩ (fun r hr => ?_) fun r hr => ?_
    · cases r <;> cases hr
      exact Or.inr ⟨mem_cons_self, free_secret htoken fun q hq => (hothers q hq).1⟩
    · cases r <;> cases hr
      exact Or.inr ⟨hk.grants _ g hgrant, hun⟩

theorem revoke_keeps : Keeps w ok since (.asked (.revoke c x)) := by
  intro d d' others t' hk hl hothers ha
  cases ha with
  | @revoke _ _ _ id g codes hgrant hclient hhash hfree hcodes hfreeCodes =>
    refine goes hk hl hothers ⟨fun y hy => (hcodes y).1 hy, nofun⟩ (fun r hr => ?_)
      fun r hr => ?_
    · cases r with
      | code y =>
        rcases hr with ⟨q, hq, -⟩ | hr
        · cases hq
        · exact Or.inr ⟨trivial, hfreeCodes y hr⟩
      | grant i =>
        obtain rfl : id = i := hr
        exact Or.inr ⟨hk.grants _ g hgrant, hfree⟩
      | pair => cases hr
      | secret => cases hr
    · cases r with
      | secret =>
        obtain ⟨q, hq, -⟩ := hr
        cases hq
      | code => cases hr
      | grant => cases hr
      | pair => cases hr
  | revokeExchanged =>
    refine goes hk hl hothers trivial (fun r hr => ?_) fun r hr => ?_
    · cases r <;> cases hr
    · cases r <;> cases hr

end

theorem act_keeps (hk : Kept d) (hl : Knows d t) (hothers : ∀ q ∈ others, Knows d q ∧ Compatible Tx.locks Tx.shares t q)
    (ha : Act w ok d others t d' t') : Carries d others t d' t' := by
  obtain ⟨since, stage⟩ := t
  cases stage with
  | asked r =>
    cases r with
    | redeemCode => exact redeemCode_keeps hk hl hothers ha
    | fromIdentityProvider => exact fromIdentityProvider_keeps hk hl hothers ha
    | refresh => exact refresh_keeps hk hl hothers ha
    | narrow => exact narrow_keeps hk hl hothers ha
    | revoke => exact revoke_keeps hk hl hothers ha
  | redeeming => exact redeeming_keeps hk hl hothers ha
  | granting => exact granting_keeps hk hl hothers ha
  | granted => exact granted_keeps hk hl hothers ha
  | ending => exact ending_keeps hk hl hothers ha
  | ended => exact ended_keeps hk hl hothers ha
  | rotatedAway => exact rotatedAway_keeps hk hl hothers ha
  | holding => exact holding_keeps hk hl hothers ha
  | refreshed => exact refreshed_keeps hk hl hothers ha
  | refused => exact refused_keeps hk hl hothers ha
  | read => exact read_keeps hk hl hothers ha
  | exchanging => exact exchanging_keeps hk hl hothers ha
  | exchanged =>
    cases ha with
    | exchanged => exact ⟨{ hk with }, { moves_refl _ _ with }, leaves_none⟩
  | unlinked =>
    cases ha with
    | unlinked => exact ⟨{ hk with }, { moves_refl _ _ with }, leaves_none⟩

theorem start_keeps {running : List Tx} (hk : Kept d) (hs : Start d running d' t') :
    Kept d' ∧ Moves (fun _ => False) d d' ∧ ∀ q ∈ t', Leaves running d' q := by
  cases hs with
  | tick now hnow =>
    refine ⟨{ hk with rotations := fun x r hr => ?_ }, { moves_refl (fun _ => False) d with clock := hnow }, leaves_none⟩
    obtain ⟨t, ht, hrest⟩ := hk.rotations x r hr
    exact ⟨t, ht, hrest.imp_right (Or.imp_right fun h => lt_of_lt_of_le h hnow)⟩
  | people => exact ⟨{ hk with }, { moves_refl (fun _ => False) d with }, leaves_none⟩
  | request r hun =>
    refine ⟨hk.make r.secret.toList [], moves_make _ d r.secret.toList [], leaves_some ⟨⟨fun x hx => ?_, fun i hi => ?_, trivial⟩,
      fun q hq => ⟨fun row hrow => ?_, fun row hrow hs => ?_⟩⟩⟩
    · rcases hx with hx | hx
      · cases hx
      · exact mem_append_left _ (Option.mem_toList.2 hx)
    · rcases hi with hi | hi <;> cases hi
    · cases row <;> cases hrow
    · cases row with
      | secret x => exact hun x hs q hq hrow
      | code => cases hs
      | grant => cases hs
      | pair => cases hs

end

section
variable {w : World} {ok : Data → List Tx → Id → List Scope → Prop} {clock : Int} {person : Id → Bool}
  {code : Digest → Option Code}

theorem fresh_kept : Kept (fresh clock person code) where
  own _ _ _ _ h := absurd h.symm (Option.some_ne_none _)
  live _ _ h := absurd h.symm (Option.some_ne_none _)
  hashes _ _ h := absurd h.symm (Option.some_ne_none _)
  grants _ _ h := absurd h.symm (Option.some_ne_none _)
  tokens _ _ h := absurd h.symm (Option.some_ne_none _)
  origins _ _ h := absurd h.symm (Option.some_ne_none _)
  apps _ _ _ h := absurd h.symm (Option.some_ne_none _)
  codes _ _ h := absurd h.symm (Option.some_ne_none _)
  rotations _ _ h := absurd h.symm (Option.some_ne_none _)
  records _ _ h := absurd h.symm (Option.some_ne_none _)
  once := nodup_nil
  answers _ h := absurd h not_mem_nil
  ended _ h := absurd h not_mem_nil

theorem clear_nobody (locks shares : Row → Prop) : Clear (fun _ => False) locks shares := fun _ h => h.elim

theorem clear_other {t q : Tx} (h : Compatible Tx.locks Tx.shares t q) : Clear t.locks q.locks q.shares := fun r hr => h.1 r hr

theorem run_kept {sys : Interleaving.System Data Tx} (h : RunWhere w ok clock person code sys) : Kept sys.shared := by
  refine (Interleaving.Run.beside (B := Compatible Tx.locks Tx.shares) (L := Knows) (fun _ _ => Compatible.symm) ?_ ?_ fresh_kept h).1
  · intro d running d' t hk hl hs
    obtain ⟨hk', hm, hleaves⟩ := start_keeps hk hs
    exact ⟨hk', fun q hq => (hl q hq).stable hk hm (clear_nobody _ _), hleaves⟩
  · intro d others t d' t' hk hl hothers ha
    obtain ⟨hk', hm, hleaves⟩ := act_keeps hk hl hothers ha
    exact ⟨hk', fun q hq => (hothers q hq).1.stable hk hm (clear_other (hothers q hq).2), hleaves⟩

theorem spent_once {sys : Interleaving.System Data Tx} (h : RunWhere w ok clock person code sys) :
    sys.shared.answered.Nodup ∧ ∀ i ∈ sys.shared.owed, sys.shared.grant i = none :=
  ⟨(run_kept h).once, fun i hi => ((run_kept h).ended i hi).2⟩

end

/-! ## Exchanged tokens -/

def Within (d : Data) : Prop := ∀ t e, d.exchanged t = some e → ∃ g, d.grant e.grantID = some g ∧ e.scopes ⊆ g.scopes

def Stage.reads : Stage → Option (Id × List Scope)
  | .read id _ scopes _ _ => some (id, scopes)
  | .exchanging id held _ => some (id, held)
  | .exchanged _ x _ => some (x.grantID, x.scopes)
  | _ => none

def Quiet (d : Data) (others : List Tx) (id : Id) (held : List Scope) : Prop :=
  (∃ g, d.grant id = some g ∧ g.scopes ⊆ held) ∨ ∀ q ∈ others, ∀ r ∈ q.stage.reads, r.1 ≠ id

def Fits (d : Data) (t : Tx) : Prop := ∀ r ∈ t.stage.reads, ∀ g, d.grant r.1 = some g → r.2 ⊆ g.scopes

theorem name_inj {s s' : Scope} (h : s.name = s'.name) : s = s' := by
  cases s <;> cases s' <;> first | rfl | exact absurd h (by decide)

theorem asked_subset {words : List String} {allowed held : List Scope} (h : asked words allowed = some held) : held ⊆ allowed := by
  unfold asked at h
  by_cases hwords : words = []
  · rw [if_pos hwords] at h
    rw [Option.some.inj h]
    exact List.Subset.refl _
  · rw [if_neg hwords] at h
    by_cases hvalid : validScopeRequest words allowed = true
    · rw [if_pos hvalid] at h
      obtain rfl := Option.some.inj h
      intro s hs
      have hword : s.name ∈ words := of_decide_eq_true (mem_filter.1 hs).2
      have hany := all_eq_true.1 (Bool.and_eq_true_iff.1 hvalid).2 _ hword
      obtain ⟨s', hs', hname⟩ := any_eq_true.1 hany
      exact name_inj (eq_of_beq hname) ▸ hs'
    · rw [if_neg hvalid] at h
      cases h

section
variable {w : World} {d d' : Data} {others : List Tx} {t : Tx} {t' : Option Tx}

variable {id : Id} {g : Grant}

theorem fits_written {q : Tx} (hquiet : Quiet d others id g.scopes) (hq : q ∈ others) (hf : Fits d q)
    (hgrant : d'.grant = Function.update d.grant id (some g)) : Fits d' q := by
  intro r hr b hb
  rw [hgrant] at hb
  rcases update_some hb with ⟨hid, rfl⟩ | ⟨-, hb⟩
  · rcases hquiet with ⟨a, ha, hsub⟩ | hnone
    · exact List.Subset.trans (hf r hr a (hid ▸ ha)) hsub
    · exact absurd hid (hnone q hq r hr)
  · exact hf r hr b hb

theorem within_put (hw : Within d) : Within (d.putGrant id g) := by
  intro x e he
  obtain ⟨he, hne⟩ := Option.filter_eq_some_iff.1 he
  obtain ⟨b, hb, hsub⟩ := hw x e he
  exact ⟨b, (Function.update_of_ne (of_decide_eq_true hne) _ _).trans hb, hsub⟩

theorem within_end {codes : List Digest} (hw : Within d) : Within (d.endGrant id codes) := by
  intro x e he
  obtain ⟨he, hne⟩ := Option.filter_eq_some_iff.1 he
  obtain ⟨b, hb, hsub⟩ := hw x e he
  exact ⟨b, (Function.update_of_ne (of_decide_eq_true hne) _ _).trans hb, hsub⟩

theorem within_keep (hw : Within d) : Within (d.keepScopes id g) := by
  intro x e he
  obtain ⟨e₀, he₀, rfl⟩ := Option.map_eq_some_iff.1 he
  obtain ⟨b, hb, hsub⟩ := hw x e₀ he₀
  by_cases hid : e₀.grantID = id
  · rw [if_pos hid]
    refine ⟨g, ?_, fun s hs => of_decide_eq_true (mem_filter.1 hs).2⟩
    show Function.update d.grant id (some g) e₀.grantID = some g
    rw [hid, Function.update_self]
  · rw [if_neg hid]
    exact ⟨b, (Function.update_of_ne hid _ _).trans hb, hsub⟩

theorem fits_gone {codes : List Digest} {q : Tx} (hf : Fits d q) : Fits (d.endGrant id codes) q :=
  fun r hr b hb => hf r hr b (endGrant_some hb).2

theorem act_within (hl : Knows d t) (hw : Within d) (hf : Fits d t) (hothers : ∀ q ∈ others, Fits d q)
    (ha : Act w Quiet d others t d' t') : Within d' ∧ (∀ q ∈ others, Fits d' q) ∧ ∀ q ∈ t', Fits d' q := by
  have hstays : ∀ {q : Tx}, q.stage.reads = none → Within d ∧ (∀ q ∈ others, Fits d q) ∧ ∀ q' ∈ some q, Fits d q' := by
    intro q hnone
    refine ⟨hw, hothers, fun q' hq' r hr => ?_⟩
    obtain rfl := Option.mem_some_iff.1 hq'
    rw [hnone] at hr
    cases hr
  have hends : ∀ {d'' : Data}, ∀ q ∈ (none : Option Tx), Fits d'' q := nofun
  cases ha with
  | unknownCode => exact hstays rfl
  | otherApp => exact hstays rfl
  | reused => exact hstays rfl
  | reusedEnded => exact hstays rfl
  | unused => exact hstays rfl
  | redeem => exact hstays rfl
  | unredeemed => exact hstays rfl
  | identity => exact hstays rfl
  | renew => exact hstays rfl
  | make => exact hstays rfl
  | consented hok => exact ⟨within_put hw, fun q hq => fits_written hok hq (hothers q hq) rfl, hends⟩
  | vouched hok => exact ⟨within_put hw, fun q hq => fits_written hok hq (hothers q hq) rfl, hends⟩
  | delete => exact hstays rfl
  | gone => exact hstays rfl
  | replayed => exact ⟨within_end hw, fun q hq => fits_gone (hothers q hq), hends⟩
  | revoked => exact ⟨within_end hw, fun q hq => fits_gone (hothers q hq), hends⟩
  | current => exact hstays rfl
  | notCurrent => exact hstays rfl
  | replay => exact hstays rfl
  | unrotated => exact hstays rfl
  | unrefreshed => exact hstays rfl
  | rotate => exact hstays rfl
  | refreshed hok => exact ⟨within_keep hw, fun q hq => fits_written hok hq (hothers q hq) rfl, hends⟩
  | refused => exact ⟨hw, hothers, hends⟩
  | @read since c x scope expiresIn id g lifetime hlife hgrant htoken hclient hacc hexp =>
    refine ⟨hw, hothers, fun q hq r hr b hb => ?_⟩
    obtain rfl := Option.mem_some_iff.1 hq
    obtain rfl := Option.mem_some_iff.1 hr
    obtain rfl := Option.some.inj (hgrant.symm.trans hb)
    exact List.Subset.refl _
  | @personIn since id user scopes held scope lifetime hperson hasked =>
    refine ⟨hw, hothers, fun q hq r hr b hb => ?_⟩
    obtain rfl := Option.mem_some_iff.1 hq
    obtain rfl := Option.mem_some_iff.1 hr
    exact List.Subset.trans (asked_subset hasked) (hf (id, scopes) rfl b hb)
  | @insert since id held lifetime g token swept hgrant hun htoken hswept =>
    refine ⟨hw, hothers, fun q hq r hr b hb => ?_⟩
    obtain rfl := Option.mem_some_iff.1 hq
    obtain rfl := Option.mem_some_iff.1 hr
    exact hf (id, held) rfl b hb
  | @exchanged since token x swept =>
    refine ⟨fun y e he => ?_, hothers, hends⟩
    have he : Function.update (fun t => if t ∈ swept then none else d.exchanged t) token (some x) y = some e := he
    rcases update_some he with ⟨-, rfl⟩ | ⟨-, he⟩
    · obtain ⟨b, hb⟩ := hl.stage
      exact ⟨b, hb, hf (_, _) rfl b hb⟩
    · by_cases hmem : y ∈ swept
      · rw [if_pos hmem] at he
        cases he
      · rw [if_neg hmem] at he
        exact hw y e he
  | revoke => exact hstays rfl
  | revokeExchanged => exact hstays rfl
  | @unlinked since x =>
    refine ⟨fun y e he => ?_, hothers, hends⟩
    by_cases hy : y = x
    · subst hy
      rw [show (d.unlink y).exchanged y = none from Function.update_self _ _ _] at he
      cases he
    · exact hw y e ((Function.update_of_ne hy _ _).symm.trans he)

theorem start_within {running : List Tx} (hw : Within d) (hf : ∀ q ∈ running, Fits d q) (hs : Start d running d' t') :
    Within d' ∧ (∀ q ∈ running, Fits d' q) ∧ ∀ q ∈ t', Fits d' q := by
  cases hs with
  | tick => exact ⟨hw, hf, nofun⟩
  | people => exact ⟨hw, hf, nofun⟩
  | request =>
    refine ⟨hw, hf, fun q hq r' hr' => ?_⟩
    obtain rfl := Option.mem_some_iff.1 hq
    cases hr'

variable {clock : Int} {person : Id → Bool} {code : Digest → Option Code}

/-- **Tokens are single use and stay within their grant**, where no grant loses scopes while an exchange has read it. -/
theorem exchanged_within {sys : Interleaving.System Data Tx} (h : RunWhere w Quiet clock person code sys) :
    (sys.shared.answered.Nodup ∧ ∀ i ∈ sys.shared.owed, sys.shared.grant i = none) ∧ Within sys.shared := by
  refine ⟨spent_once h, ?_⟩
  refine (Interleaving.Run.beside (I := fun d => Kept d ∧ Within d) (L := fun d t => Knows d t ∧ Fits d t)
    (B := Compatible Tx.locks Tx.shares) (fun _ _ => Compatible.symm) ?_ ?_
    ⟨fresh_kept, nofun⟩ h).1.2
  · rintro d running d' t ⟨hk, hw⟩ hl hs
    obtain ⟨hk', hm, hleaves⟩ := start_keeps hk hs
    obtain ⟨hw', hf', hnew⟩ := start_within hw (fun q hq => (hl q hq).2) hs
    exact ⟨⟨hk', hw'⟩, fun q hq => ⟨(hl q hq).1.stable hk hm (clear_nobody _ _), hf' q hq⟩,
      fun q hq => ⟨⟨(hleaves q hq).1, hnew q hq⟩, (hleaves q hq).2⟩⟩
  · rintro d others t d' t' ⟨hk, hw⟩ ⟨hl, hf⟩ hothers ha
    obtain ⟨hk', hm, hleaves⟩ := act_keeps hk hl (fun q hq => ⟨(hothers q hq).1.1, (hothers q hq).2⟩) ha
    obtain ⟨hw', hf', hnew⟩ := act_within hl hw hf (fun q hq => (hothers q hq).1.2) ha
    exact ⟨⟨hk', hw'⟩, fun q hq => ⟨(hothers q hq).1.1.stable hk hm (clear_other (hothers q hq).2), hf' q hq⟩,
      fun q hq => ⟨⟨(hleaves q hq).1, hnew q hq⟩, (hleaves q hq).2⟩⟩

end

/-! ## An exchange beside a refresh -/

def exampleVerifier : String := "dBjftJeZ4CVP-mB92K27uhbUJU1p1r_wW1gFWFOEjXk"

def exampleWorld : World where
  challengeOf _ := "E9Melhoa2OwvFrEMTJguCHaoeK1t8URWbuGJSstw-cM"
  clientScopes _ := scopes
  keycloak _ := false

def exampleCode (x : Digest) : Option Code :=
  if x = 10 then some ⟨2, 1, [.read, .issueWrite], "https://app/back", "E9Melhoa2OwvFrEMTJguCHaoeK1t8URWbuGJSstw-cM", 60 * second, none, none⟩
  else none

def connected : Data :=
  (({ fresh 0 (fun _ => true) exampleCode with known := [100, 101], ids := [1] }).putGrant 1
    (newGrant 2 1 [.read, .issueWrite] 100 101 0)).useCode 10 1 2 0

theorem example_verifies : verifies exampleWorld exampleVerifier "E9Melhoa2OwvFrEMTJguCHaoeK1t8URWbuGJSstw-cM" = true := by
  decide +kernel

variable (ok : Data → List Tx → Id → List Scope → Prop)

theorem connected_run (hok : ∀ d id held, ok d [] id held) :
    RunWhere exampleWorld ok 0 (fun _ => true) exampleCode ⟨connected, []⟩ := by
  have hnobody : ∀ r, Free Tx.locks Tx.shares [] r := nofun
  have h₀ : RunWhere exampleWorld ok 0 (fun _ => true) exampleCode ⟨fresh 0 (fun _ => true) exampleCode, []⟩ := Interleaving.Run.begin _
  have h₁ := h₀.start _ (.request (.redeemCode 2 10 "https://app/back" exampleVerifier) nofun)
  have h₂ := h₁.act [] _ (.unused rfl (hnobody _) rfl rfl)
  have h₃ := h₂.act [] _ (.redeem rfl (by decide) rfl example_verifies rfl)
  have h₄ := h₃.act [] _ (.make 1 100 101 nofun (hnobody _) (by decide) (by decide) (by decide))
  exact h₄.act [] none (.consented (hok _ _ _))

def exampleGrant : Grant := newGrant 2 1 [.read, .issueWrite] 100 101 0

def exampleToken : Exchanged := ⟨1, [.read, .issueWrite], accessTokenTTL⟩

def asking : Data := { connected with known := 100 :: connected.known }

theorem reading_run (hok : ∀ d id held, ok d [] id held) :
    RunWhere exampleWorld ok 0 (fun _ => true) exampleCode
      ⟨asking, [⟨0, .exchanging 1 [.read, .issueWrite] accessTokenTTL⟩]⟩ := by
  have hgrant : asking.grant 1 = some exampleGrant := rfl
  have h₁ : RunWhere exampleWorld ok 0 (fun _ => true) exampleCode ⟨asking, [⟨0, .asked (.narrow 2 100 [] none)⟩]⟩ :=
    (connected_run ok hok).start _ (.request (.narrow 2 100 [] none) nofun)
  have hlive : (0 : Int) < exampleGrant.accessExpiresAt ∧ (0 : Int) < exampleGrant.expiresAt := by decide
  have h₂ := h₁.act [] (some ⟨0, .read 1 1 [.read, .issueWrite] [] accessTokenTTL⟩)
    (.read rfl hgrant rfl rfl hlive.1 hlive.2)
  exact h₂.act [] (some ⟨0, .exchanging 1 [.read, .issueWrite] accessTokenTTL⟩) (.personIn rfl rfl)

theorem exchanged_run (hok : ∀ d id held, ok d [] id held) :
    ∃ d, RunWhere exampleWorld ok 0 (fun _ => true) exampleCode ⟨d, []⟩ ∧ d.exchanged 104 = some exampleToken ∧
      d.answered = [.code 10] := by
  have hnobody : Unlocked Tx.locks [] (.grant 1) := nofun
  have hgrant : asking.grant 1 = some exampleGrant := rfl
  have h₁ := (reading_run ok hok).act [] _ (.insert 104 [] hgrant hnobody (by decide) fun y =>
    ⟨fun hy => absurd hy not_mem_nil, fun ⟨_, he, _⟩ => absurd he.symm (Option.some_ne_none _)⟩)
  exact ⟨_, h₁.act [] none .exchanged, rfl, rfl⟩

theorem exchanged_within_example : ∃ d : Data, d.exchanged 104 = some exampleToken ∧
    (d.answered.Nodup ∧ ∀ i ∈ d.owed, d.grant i = none) ∧ Within d := by
  obtain ⟨d, hrun, hx, -⟩ := exchanged_run Quiet fun _ _ _ => Or.inr nofun
  exact ⟨d, hx, exchanged_within hrun⟩

def refreshing : Data := { asking with known := 101 :: asking.known }

def narrowed : Data :=
  (({ refreshing with known := 102 :: 103 :: refreshing.known }).keepScopes 1 (newGrant 2 1 [.read] 102 103 0)).rotateToken 101 1 2 0 []

theorem narrowed_run : Run exampleWorld 0 (fun _ => true) exampleCode
    ⟨narrowed, [⟨0, .exchanging 1 [.read, .issueWrite] accessTokenTTL⟩]⟩ := by
  have hgrant : refreshing.grant 1 = some exampleGrant := rfl
  have hreads : ∀ (q : Tx) (r : Row), q ∈ [(⟨0, .exchanging 1 [.read, .issueWrite] accessTokenTTL⟩ : Tx)] → ¬ q.locks r ∧ ¬ q.shares r := by
    intro q r hq
    obtain rfl := mem_singleton.1 hq
    cases r <;> exact ⟨fun h => h, fun h => h⟩
  have h₁ : Run exampleWorld 0 (fun _ => true) exampleCode
      ⟨refreshing, [⟨0, .asked (.refresh 2 101 ["read"])⟩, ⟨0, .exchanging 1 [.read, .issueWrite] accessTokenTTL⟩]⟩ :=
    (reading_run _ fun _ _ _ => trivial).start (some ⟨0, .asked (.refresh 2 101 ["read"])⟩) (.request (.refresh 2 101 ["read"]) fun x _ q hq =>
      (hreads q (.secret x) hq).1)
  have h₂ := h₁.act [] (some ⟨0, .holding 2 101 1 ["read"]⟩) (Act.current hgrant rfl rfl fun q hq => hreads q (.grant 1) hq)
  have h₃ := h₂.act [] (some ⟨0, .refreshed 101 1 (newGrant 2 1 [.read] 102 103 0) []⟩)
    (Act.rotate 102 103 [] hgrant (by decide) rfl rfl (by decide) (by decide) rfl fun y =>
      ⟨fun hy => absurd hy not_mem_nil, fun ⟨r, hr, hlate⟩ => by
        rcases update_some hr with ⟨-, rfl⟩ | ⟨-, hr⟩
        · exact absurd hlate (by decide)
        · cases hr⟩)
  exact h₃.act [] none (.refreshed trivial)

/-- **An exchange that has read the grant outlives its narrowing.** -/
theorem exchange_outlives_narrowing : ¬ ∀ (w : World) (clock : Int) (person : Id → Bool) (code : Digest → Option Code)
    (sys : Interleaving.System Data Tx), Run w clock person code sys →
      (sys.shared.answered.Nodup ∧ ∀ i ∈ sys.shared.owed, sys.shared.grant i = none) ∧ Within sys.shared := by
  intro hall
  have hgrant : narrowed.grant 1 = some (newGrant 2 1 [.read] 102 103 0) := rfl
  have h₁ := narrowed_run.act [] _ (Act.insert 104 [] hgrant nofun (by decide) fun y =>
    ⟨fun hy => absurd hy not_mem_nil, fun ⟨_, he, _⟩ => absurd he.symm (Option.some_ne_none _)⟩)
  have h₂ := h₁.act [] none .exchanged
  obtain ⟨g, hg, hsub⟩ := (hall _ _ _ _ _ h₂).2 104 exampleToken rfl
  obtain rfl := Option.some.inj hg
  exact absurd (hsub (mem_cons_of_mem _ mem_cons_self)) (by decide)

end OAuth
end Armature
