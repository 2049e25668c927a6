import Armature.GoText
import Armature.Interleaving
/-!
# MailInbound — how often one mail is acted on (`desk/inbound.go`, `desk/inbound_retry.go`, `desk/inbound_raise.go`)

One mail, its row, and the attempts at it of any number of workers.  An attempt claims the row, decides what the mail is,
writes what it says and records the outcome, each in a transaction of its own; any of these may fail before or after it was
committed.  What the reads find out of the database but the row is given; texts and the mails sent back are left out.  The
row keeps attempts apart for as long as none outlives its claim, and once it shows what was written nobody writes it again.
-/
namespace Armature
namespace Inbound

open List
open Go (Text)

def mailAttempts : Nat := 10

inductive Outcome where
  | processing | commented | raised | refused | unmatched | empty | automatic | failed
  deriving DecidableEq

structure Row where
  outcome : Outcome
  receivedAt : Int
  attempts : Nat
  issueID : Option Nat
  commentID : Option Nat
  deriving DecidableEq

structure Message where
  /-- The request that it names. -/
  key : Option Text
  senderFailedChecks : Bool
  autoSubmitted : Bool
  isDaemon : Bool
  /-- Nothing is left of it once the quotes are gone. -/
  isEmpty : Bool

/-- Where a mail landed, and whether the desk trusts the sender's domain. -/
structure Placement where
  issueID : Nat
  isAgent : Bool
  trusted : Bool

structure MailDesk where
  agent : Bool
  trusted : Bool

inductive CustomerErr where
  | hasAccount | inactive | badAddress

/-- What an attempt is about to do.  `p` is the request that a failure is told on. -/
inductive Stage where
  | acting
  /-- To post what the mail says, as a comment or a note. -/
  | posting (p : Nat)
  /-- To look for the request that an earlier attempt raised. -/
  | lookingBack
  | raising
  /-- To leave the raised request's id on the row. -/
  | noting (id : Nat)
  | attaching (id : Nat)
  | finishing (p : Option Nat) (comment : Option Nat) (outcome : Outcome)
  | failing (p : Option Nat)

structure Attempt where
  attempts : Nat
  stage : Stage

/-- The mail's row, and what was ever raised or written for the mail. -/
structure Data where
  now : Int
  row : Option Row
  requests : List Nat
  comments : List Nat
  /-- A note says that some of the mail's files could not be added. -/
  filesLeft : Bool

def claim (now : Int) (row : Option Row) : Option Row :=
  match row with
  | none => some ⟨.processing, now, 1, none, none⟩
  | some r =>
    if (r.outcome = .failed ∧ r.attempts < mailAttempts) ∨ (r.outcome = .processing ∧ r.receivedAt < now - 300) then
      some { r with outcome := .processing, receivedAt := now, attempts := r.attempts + 1 }
    else none

def placed (m : Message) (found : Option Placement) : Stage :=
  match found with
  | none => .finishing none none .refused
  | some p =>
    if m.senderFailedChecks then .finishing (some p.issueID) none .refused
    else if !p.isAgent && !p.trusted then .finishing (some p.issueID) none .refused
    else if m.autoSubmitted then .finishing (some p.issueID) none .automatic
    else if m.isEmpty then .finishing (some p.issueID) none .empty
    else .posting p.issueID

def desked (m : Message) (found : Option MailDesk) : Stage :=
  match found with
  | none => .finishing none none .unmatched
  | some at_ =>
    if m.autoSubmitted || m.isDaemon then .finishing none none .automatic
    else if m.senderFailedChecks then .finishing none none .refused
    else if at_.agent then .finishing none none .unmatched
    else if !at_.trusted then .finishing none none .refused
    else .lookingBack

def raisedBefore (row : Option Row) : Option Nat := row.bind Row.issueID

def notCustomer : CustomerErr → Stage
  | .hasAccount => .finishing none none .unmatched
  | .inactive | .badAddress => .finishing none none .refused

def record (outcome : Outcome) (p comment : Option Nat) (row : Option Row) : Option Row :=
  row.map fun r => { r with outcome := outcome, issueID := p, commentID := comment }

def recordFailure (p : Option Nat) (row : Option Row) : Option Row :=
  row.map fun r => { r with outcome := .failed, issueID := p }

def gaveUp (attempts : Nat) (p : Option Nat) : Bool := decide (mailAttempts ≤ attempts) && p.isSome

def Finds (m : Message) (d : Data) (p : Option Nat) : Prop := m.key = none → p = none → raisedBefore d.row = none

def MayDie (m : Message) (d : Data) : Stage → Prop
  | .noting _ => False
  | .finishing _ comment _ => comment = none
  | .failing (some id) => m.key = none → raisedBefore d.row = some id
  | _ => True

/-- What happens beside the steps of an attempt; where nothing may `lapse`, nobody is at work for longer than a claim
holds. -/
inductive Start (lapse : Prop) (d : Data) (running : List Attempt) : Data → Option Attempt → Prop where
  | wait (now : Int) : d.now ≤ now → (lapse ∨ (running ≠ [] → ∀ r ∈ d.row, now ≤ r.receivedAt + 300)) →
      Start lapse d running { d with now := now } none
  | claim (r : Row) : claim d.now d.row = some r → Start lapse d running { d with row := some r } (some ⟨r.attempts, .acting⟩)
  /-- The row was written, and the worker did not hear of it. -/
  | claimUnheard (r : Row) : claim d.now d.row = some r → Start lapse d running { d with row := some r } none

inductive Act (lapse : Prop) (m : Message) (d : Data) : Stage → Data → Option Stage → Nat → Prop where
  | place (n : Nat) (found : Option Placement) : m.key ≠ none → Act lapse m d .acting d (some (placed m found)) n
  | mailDesk (n : Nat) (found : Option MailDesk) : m.key = none → Act lapse m d .acting d (some (desked m found)) n
  | notRead (n : Nat) : Act lapse m d .acting d (some (.failing none)) n
  | post (n p comment : Nat) :
      Act lapse m d (.posting p) { d with comments := comment :: d.comments } (some (.finishing (some p) (some comment) .commented)) n
  | notPosted (n p : Nat) (d' : Data) : (d' = d ∨ (lapse ∧ ∃ comment, d' = { d with comments := comment :: d.comments })) →
      Act lapse m d (.posting p) d' (some (.failing (some p))) n
  | foundBefore (n id : Nat) : raisedBefore d.row = some id →
      Act lapse m d .lookingBack d (some (.finishing (some id) none .raised)) n
  | noneBefore (n : Nat) : raisedBefore d.row = none → Act lapse m d .lookingBack d (some .raising) n
  | notLooked (n : Nat) : Act lapse m d .lookingBack d (some (.failing none)) n
  | noCustomer (n : Nat) (e : CustomerErr) : Act lapse m d .raising d (some (notCustomer e)) n
  | raise (n id : Nat) : Act lapse m d .raising { d with requests := id :: d.requests } (some (.noting id)) n
  | notRaised (n : Nat) (d' : Data) : (d' = d ∨ (lapse ∧ ∃ id, d' = { d with requests := id :: d.requests })) →
      Act lapse m d .raising d' (some (.failing none)) n
  | note (n id : Nat) :
      Act lapse m d (.noting id) { d with row := d.row.map fun r => { r with issueID := some id } } (some (.attaching id)) n
  | notNoted (n id : Nat) (d' : Data) : (d' = d ∨ d' = { d with row := d.row.map fun r => { r with issueID := some id } }) →
      Act lapse m d (.noting id) d' (some (.failing (some id))) n
  /-- With a note about the files that could not be added, or without one. -/
  | attach (n id : Nat) (d' : Data) : (d' = d ∨ ∃ comment, d' = { d with comments := comment :: d.comments, filesLeft := true }) →
      Act lapse m d (.attaching id) d' (some (.finishing (some id) none .raised)) n
  | finish (n : Nat) (p comment : Option Nat) (outcome : Outcome) :
      Act lapse m d (.finishing p comment outcome) { d with row := record outcome p comment d.row } none n
  | notFinished (n : Nat) (p comment : Option Nat) (outcome : Outcome) (d' : Data) :
      (d' = d ∨ (d' = { d with row := record outcome p comment d.row } ∧ (lapse ∨ Finds m d p))) → (lapse ∨ comment = none) →
      Act lapse m d (.finishing p comment outcome) d' (some (.failing p)) n
  | fail (n : Nat) (p : Option Nat) : gaveUp n p = false → (lapse ∨ Finds m d p) →
      Act lapse m d (.failing p) { d with row := recordFailure p d.row } none n
  | giveUp (n : Nat) (p : Option Nat) (note : Nat) : gaveUp n p = true → (lapse ∨ (m.key = none → d.filesLeft = false)) →
      Act lapse m d (.failing p) { d with row := recordFailure p d.row, comments := note :: d.comments } none n
  | notRecorded (n : Nat) (p : Option Nat) : (lapse ∨ MayDie m d (.failing p)) → Act lapse m d (.failing p) d none n

def unread (now : Int) : Data := ⟨now, none, [], [], false⟩

def Acts (lapse : Prop) (m : Message) (d : Data) (_ : List Attempt) (a : Attempt) (d' : Data) (a' : Option Attempt) : Prop :=
  ∃ stage, a' = stage.map (Attempt.mk a.attempts) ∧ Act lapse m d a.stage d' stage a.attempts

def RunWhere (lapse : Prop) (m : Message) (now : Int) : Interleaving.System Data Attempt → Prop :=
  Relation.ReflTransGen (fun s s' => Interleaving.Step (Start lapse) (Acts lapse m) s s' ∧
    (lapse ∨ Interleaving.Spared (fun d a => MayDie m d a.stage) s s')) ⟨unread now, []⟩

abbrev Run (m : Message) : Int → Interleaving.System Data Attempt → Prop := RunWhere True m

abbrev OrderlyRun (m : Message) : Int → Interleaving.System Data Attempt → Prop := RunWhere False m

/-! ## One attempt after another -/

structure Good (m : Message) (d : Data) : Prop where
  requests : d.requests.length ≤ 1
  comments : d.comments.length ≤ 1
  reply : m.key ≠ none → d.requests = []
  onRow : m.key = none → ∀ id, raisedBefore d.row = some id → id ∈ d.requests
  unraised : m.key = none → d.requests = [] → d.comments = []

/-- An attempt may start: no reply has been written, and the request that was raised, if one was, stands on the row. -/
structure Ready (m : Message) (d : Data) : Prop where
  reply : m.key ≠ none → d.comments = []
  raised : m.key = none → ∀ id ∈ d.requests, raisedBefore d.row = some id
  files : m.key = none → d.filesLeft = false → d.comments = []

def Claimable (row : Option Row) : Prop := ∀ r ∈ row, r.outcome = .processing ∨ (r.outcome = .failed ∧ r.attempts < mailAttempts)

def Held (d : Data) (n : Nat) : Prop :=
  ∃ r, d.row = some r ∧ r.attempts = n ∧ r.outcome ≠ .failed ∧ d.now ≤ r.receivedAt + 300

def Fits (m : Message) (d : Data) : Stage → Prop
  | .acting => Ready m d
  | .posting _ => m.key ≠ none ∧ d.comments = []
  | .lookingBack => m.key = none ∧ Ready m d
  | .raising => m.key = none ∧ d.requests = []
  | .noting id => m.key = none ∧ id ∈ d.requests ∧ d.comments = []
  | .attaching id => m.key = none ∧ raisedBefore d.row = some id ∧ d.comments = []
  | .finishing p comment outcome => (outcome ≠ .processing ∧ outcome ≠ .failed) ∧ (comment = none → Ready m d) ∧
      (m.key = none → comment = none ∧ ∀ id ∈ p, id ∈ d.requests)
  | .failing p => (m.key ≠ none → d.comments = []) ∧ (m.key = none → (∀ id ∈ p, id ∈ d.requests) ∧
      (p = none → ∀ id ∈ d.requests, raisedBefore d.row = some id) ∧ (d.filesLeft = false → d.comments = []))

section
variable {m : Message} {d d' : Data}

theorem raisedBefore_map (f : Row → Row) (p : Option Nat) (hf : ∀ r, (f r).issueID = p) {row : Option Row} {id : Nat}
    (h : raisedBefore (row.map f) = some id) : id ∈ p := by
  cases row with
  | none => cases h
  | some r =>
    rw [← hf r]
    exact h

theorem claim_issueID {now : Int} {row : Option Row} {r : Row} (h : claim now row = some r) : r.issueID = raisedBefore row := by
  unfold claim at h
  split at h
  · cases h
    rfl
  · split_ifs at h
    cases h
    rfl

theorem claim_claimable {now : Int} {row : Option Row} {r : Row} (h : claim now row = some r) :
    Claimable row ∧ r.outcome = .processing ∧ r.receivedAt = now := by
  unfold claim at h
  split at h
  · cases h
    exact ⟨nofun, rfl, rfl⟩
  · split_ifs at h with hopen
    cases h
    refine ⟨fun r hr => ?_, rfl, rfl⟩
    cases hr
    exact hopen.elim .inr fun hold => .inl hold.1

theorem Held.claim {n : Nat} (h : Held d n) : claim d.now d.row = none := by
  obtain ⟨r, hr, _, hfailed, hnow⟩ := h
  rw [hr]
  refine if_neg ?_
  rintro (⟨hf, _⟩ | ⟨_, hlate⟩)
  · exact hfailed hf
  · omega

theorem Good.row (h : Good m d) {row : Option Row} {p : Option Nat} (hp : m.key = none → ∀ id ∈ p, id ∈ d.requests)
    (hrow : ∀ id, raisedBefore row = some id → id ∈ p) : Good m { d with row := row } :=
  ⟨h.requests, h.comments, h.reply, fun hk id hid => hp hk id (hrow id hid), h.unraised⟩

theorem Good.comment (h : Good m d) (hnone : d.comments = []) (hraised : m.key = none → d.requests ≠ []) (comment : Nat)
    (left : Bool) : Good m { d with comments := comment :: d.comments, filesLeft := left } :=
  ⟨h.requests, by simp [hnone], h.reply, h.onRow, fun hk hr => absurd hr (hraised hk)⟩

theorem Good.raise (h : Good m d) (hk : m.key = none) (hnone : d.requests = []) (id : Nat) :
    Good m { d with requests := id :: d.requests } :=
  ⟨by simp [hnone], h.comments, fun hk' => absurd hk hk', fun _ id' hid => mem_cons_of_mem _ (h.onRow hk id' hid),
    fun _ hr => absurd hr (cons_ne_nil _ _)⟩

theorem Good.only (h : Good m d) {id id' : Nat} (hid : id ∈ d.requests) (hid' : id' ∈ d.requests) : id' = id := by
  obtain ⟨x, hx⟩ | hnil : (∃ x, d.requests = [x]) ∨ d.requests = [] := by
    rcases hd : d.requests with _ | ⟨x, _ | ⟨y, ys⟩⟩
    · exact .inr rfl
    · exact .inl ⟨x, rfl⟩
    · have hlen := h.requests
      rw [hd] at hlen
      simp at hlen
  · rw [hx] at hid hid'
    rw [mem_singleton.1 hid, mem_singleton.1 hid']
  · rw [hnil] at hid
    cases hid

theorem Held.map {n : Nat} (h : Held d n) {f : Row → Row} (hf : ∀ r, (f r).attempts = r.attempts ∧
    (r.outcome ≠ .failed → (f r).outcome ≠ .failed) ∧ (f r).receivedAt = r.receivedAt) : Held { d with row := d.row.map f } n := by
  obtain ⟨r, hr, hn, hfailed, hnow⟩ := h
  exact ⟨f r, by rw [hr]; rfl, (hf r).1.trans hn, (hf r).2.1 hfailed, by rw [(hf r).2.2]; exact hnow⟩

theorem Ready.waits (h : Ready m d) (now : Int) : Ready m { d with now := now } := ⟨h.reply, h.raised, h.files⟩

theorem Fits.waits {stage : Stage} (h : Fits m d stage) (now : Int) : Fits m { d with now := now } stage := by
  cases stage with
  | acting => exact Ready.waits h now
  | posting => exact h
  | lookingBack => exact ⟨h.1, h.2.waits now⟩
  | raising => exact h
  | noting => exact h
  | attaching => exact h
  | finishing => exact ⟨h.1, fun hc => (h.2.1 hc).waits now, h.2.2⟩
  | failing => exact h

theorem fits_placed (hk : m.key ≠ none) (hr : Ready m d) (found : Option Placement) : Fits m d (placed m found) := by
  have hfinish : ∀ {p o}, o ≠ Outcome.processing ∧ o ≠ .failed → Fits m d (.finishing p none o) :=
    fun ho => ⟨ho, fun _ => hr, fun h => absurd h hk⟩
  unfold placed
  cases found with
  | none => exact hfinish (by decide)
  | some =>
    dsimp only
    split_ifs
    · exact hfinish (by decide)
    · exact hfinish (by decide)
    · exact hfinish (by decide)
    · exact hfinish (by decide)
    · exact ⟨hk, hr.reply hk⟩

theorem fits_finishing_none (hr : Ready m d) {o : Outcome} (ho : o ≠ .processing ∧ o ≠ .failed) :
    Fits m d (.finishing none none o) := ⟨ho, fun _ => hr, fun _ => ⟨rfl, nofun⟩⟩

theorem fits_desked (hk : m.key = none) (hr : Ready m d) (found : Option MailDesk) : Fits m d (desked m found) := by
  unfold desked
  cases found with
  | none => exact fits_finishing_none hr (by decide)
  | some =>
    dsimp only
    split_ifs
    · exact fits_finishing_none hr (by decide)
    · exact fits_finishing_none hr (by decide)
    · exact fits_finishing_none hr (by decide)
    · exact fits_finishing_none hr (by decide)
    · exact ⟨hk, hr⟩

theorem fits_failing_none (hr : Ready m d) : Fits m d (.failing none) :=
  ⟨hr.reply, fun hk => ⟨nofun, fun _ => hr.raised hk, hr.files hk⟩⟩

theorem ready_unraised (h : Good m d) (hk : m.key = none) (hnone : d.requests = []) : Ready m d :=
  ⟨fun hk' => absurd hk hk', fun _ _ hid => absurd (hnone ▸ hid) not_mem_nil, fun _ _ => h.unraised hk hnone⟩

theorem ready_posting (hk : m.key ≠ none) (hc : d.comments = []) : Ready m d :=
  ⟨fun _ => hc, fun hk' => absurd hk' hk, fun hk' => absurd hk' hk⟩

theorem ready_attaching (h : Good m d) (hk : m.key = none) {id : Nat} (hrow : raisedBefore d.row = some id)
    (hc : d.filesLeft = false → d.comments = []) : Ready m d :=
  ⟨fun hk' => absurd hk hk', fun _ _ hid => (h.only (h.onRow hk id hrow) hid) ▸ hrow, fun _ => hc⟩

theorem dies_ready (h : Good m d) {stage : Stage} (hf : Fits m d stage) (hdie : MayDie m d stage) : Ready m d := by
  cases stage with
  | acting => exact hf
  | posting => exact ready_posting hf.1 hf.2
  | lookingBack => exact hf.2
  | raising => exact ready_unraised h hf.1 hf.2
  | noting => exact hdie.elim
  | attaching => exact ready_attaching h hf.1 hf.2.1 fun _ => hf.2.2
  | finishing => exact hf.2.1 hdie
  | failing p =>
    refine ⟨hf.1, fun hk id hid => ?_, fun hk => (hf.2 hk).2.2⟩
    cases p with
    | none => exact (hf.2 hk).2.1 rfl id hid
    | some id' => exact (h.only ((hf.2 hk).1 id' rfl) hid) ▸ hdie hk

structure Kept (m : Message) (d : Data) (n : Nat) (stage : Option Stage) : Prop where
  good : Good m d
  ended : stage = none → Claimable d.row → Ready m d
  next : ∀ s ∈ stage, Held d n ∧ Fits m d s

theorem Good.goes_on {n : Nat} {s : Stage} (h : Good m d) (hheld : Held d n) (hs : Fits m d s) : Kept m d n (some s) :=
  ⟨h, fun he => absurd he (Option.some_ne_none s), fun s' hs' => by cases hs'; exact ⟨hheld, hs⟩⟩

theorem Good.ends {n : Nat} (h : Good m d) (hover : Claimable d.row → Ready m d) : Kept m d n none :=
  ⟨h, fun _ => hover, nofun⟩

theorem finishing_keeps (h : Good m d) {n : Nat} (hheld : Held d n) {p comment : Option Nat} {outcome : Outcome}
    (hf : Fits m d (.finishing p comment outcome)) {stage' : Option Stage}
    (ha : Act False m d (.finishing p comment outcome) d' stage' n) : Kept m d' n stage' := by
  have hgood : Good m { d with row := record outcome p comment d.row } :=
    h.row (p := p) (fun hk => (hf.2.2 hk).2) fun id hid => raisedBefore_map _ p (fun _ => rfl) hid
  have hheld' : Held { d with row := record outcome p comment d.row } n :=
    hheld.map fun r => ⟨rfl, fun _ => hf.1.2, rfl⟩
  cases ha with
  | finish =>
    refine hgood.ends fun hopen => ?_
    obtain ⟨r, hr, _⟩ := hheld
    rcases hopen { r with outcome := outcome, issueID := p, commentID := comment } (by rw [hr]; rfl) with ho | ⟨ho, _⟩
    · exact absurd ho hf.1.1
    · exact absurd ho hf.1.2
  | notFinished _ _ _ _ _ hd hcomment =>
    have hready := hf.2.1 (hcomment.resolve_left id)
    rcases hd with rfl | ⟨rfl, hfinds⟩
    · exact h.goes_on hheld ⟨hready.reply, fun hk => ⟨(hf.2.2 hk).2, fun _ => hready.raised hk, hready.files hk⟩⟩
    · refine hgood.goes_on hheld' ⟨hready.reply, fun hk => ⟨(hf.2.2 hk).2, fun hp id hid => ?_, hready.files hk⟩⟩
      have hshown := hready.raised hk id hid
      rw [hfinds.resolve_left (fun h => h) hk hp] at hshown
      cases hshown

theorem failing_keeps (h : Good m d) {n : Nat} (hheld : Held d n) {p : Option Nat} (hf : Fits m d (.failing p))
    {stage' : Option Stage} (ha : Act False m d (.failing p) d' stage' n) : Kept m d' n stage' := by
  have hrow : ∀ {d : Data}, Good m d → (m.key = none → ∀ id ∈ p, id ∈ d.requests) →
      Good m { d with row := recordFailure p d.row } := fun hd hp =>
    hd.row (p := p) hp fun id hid => raisedBefore_map _ p (fun _ => rfl) hid
  cases ha with
  | fail _ _ hgave hfinds =>
    refine (hrow h fun hk => (hf.2 hk).1).ends fun _ => ⟨hf.1, fun hk id hid => ?_, fun hk => (hf.2 hk).2.2⟩
    obtain ⟨r, hr, _⟩ := hheld
    have hset : raisedBefore (recordFailure p d.row) = p := by rw [hr]; rfl
    cases p with
    | none =>
      have hshown := (hf.2 hk).2.1 rfl id hid
      rw [hfinds.resolve_left (fun h => h) hk rfl] at hshown
      cases hshown
    | some id' => exact hset.trans (congrArg some (h.only hid ((hf.2 hk).1 id' rfl)))
  | giveUp _ _ note hgave hfiles =>
    obtain ⟨hmany, hsome⟩ := Bool.and_eq_true_iff.1 hgave
    obtain ⟨id, rfl⟩ := Option.isSome_iff_exists.1 hsome
    have hcomments : d.comments = [] := by
      by_cases hk : m.key = none
      · exact (hf.2 hk).2.2 (hfiles.resolve_left (fun h => h) hk)
      · exact hf.1 hk
    have hnoted := h.comment hcomments (fun hk => ne_nil_of_mem ((hf.2 hk).1 id rfl)) note d.filesLeft
    refine (hrow hnoted fun hk => (hf.2 hk).1).ends fun hopen => ?_
    obtain ⟨r, hr, hn, _⟩ := hheld
    rcases hopen { r with outcome := .failed, issueID := some id } (by change recordFailure (some id) d.row = _; rw [hr]; rfl) with ho | ⟨_, hfew⟩
    · cases ho
    · have hten := of_decide_eq_true hmany
      change r.attempts < mailAttempts at hfew
      omega
  | notRecorded _ _ hdie => exact h.ends fun _ => dies_ready h hf (hdie.resolve_left id)

theorem act_keeps (h : Good m d) {n : Nat} (hheld : Held d n) {stage : Stage} {stage' : Option Stage} (hf : Fits m d stage)
    (ha : Act False m d stage d' stage' n) : Kept m d' n stage' := by
  cases stage with
  | finishing => exact finishing_keeps h hheld hf ha
  | failing => exact failing_keeps h hheld hf ha
  | acting =>
    cases ha with
    | place _ found hk => exact h.goes_on hheld (fits_placed hk hf found)
    | mailDesk _ found hk => exact h.goes_on hheld (fits_desked hk hf found)
    | notRead => exact h.goes_on hheld (fits_failing_none hf)
  | posting =>
    cases ha with
    | post _ _ comment =>
      exact (h.comment hf.2 (fun hk => absurd hk hf.1) comment d.filesLeft).goes_on hheld
        ⟨by decide, fun hc => absurd hc (Option.some_ne_none _), fun hk => absurd hk hf.1⟩
    | notPosted _ _ _ hd =>
      obtain rfl := hd.resolve_right fun hlapse => hlapse.1
      exact h.goes_on hheld ⟨fun _ => hf.2, fun hk => absurd hk hf.1⟩
  | lookingBack =>
    cases ha with
    | foundBefore _ id hid =>
      refine h.goes_on hheld ⟨by decide, fun _ => hf.2, fun hk => ⟨rfl, fun id' hid' => ?_⟩⟩
      cases hid'
      exact h.onRow hk id hid
    | noneBefore _ hnone =>
      refine h.goes_on hheld ⟨hf.1, eq_nil_iff_forall_not_mem.2 fun id hid => ?_⟩
      have hrow := hf.2.raised hf.1 id hid
      rw [hnone] at hrow
      cases hrow
    | notLooked => exact h.goes_on hheld (fits_failing_none hf.2)
  | raising =>
    have hready := ready_unraised h hf.1 hf.2
    cases ha with
    | noCustomer _ e => cases e <;> exact h.goes_on hheld (fits_finishing_none hready (by decide))
    | raise _ id => exact (h.raise hf.1 hf.2 id).goes_on hheld ⟨hf.1, mem_cons_self, h.unraised hf.1 hf.2⟩
    | notRaised _ _ hd =>
      obtain rfl := hd.resolve_right fun hlapse => hlapse.1
      exact h.goes_on hheld (fits_failing_none hready)
  | noting id =>
    have hgood : Good m { d with row := d.row.map fun r => { r with issueID := some id } } :=
      h.row (p := some id) (fun _ id' hid => Option.mem_some_iff.1 hid ▸ hf.2.1)
        fun id' hid => raisedBefore_map _ (some id) (fun _ => rfl) hid
    have hheld' : Held { d with row := d.row.map fun r => { r with issueID := some id } } n :=
      hheld.map fun r => ⟨rfl, fun hr => hr, rfl⟩
    have hfails : ∀ {d' : Data}, d'.requests = d.requests → d'.comments = d.comments → Fits m d' (.failing (some id)) :=
      fun hreq hcom => ⟨fun hk => absurd hf.1 hk, fun _ => ⟨fun id' hid => by cases hid; exact hreq ▸ hf.2.1,
        fun hp => absurd hp (Option.some_ne_none id), fun _ => hcom.trans hf.2.2⟩⟩
    cases ha with
    | note =>
      refine hgood.goes_on hheld' ⟨hf.1, ?_, hf.2.2⟩
      obtain ⟨r, hr, _⟩ := hheld
      change raisedBefore (d.row.map _) = _
      rw [hr]
      rfl
    | notNoted _ _ _ hd =>
      rcases hd with rfl | rfl
      · exact h.goes_on hheld (hfails rfl rfl)
      · exact hgood.goes_on hheld' (hfails rfl rfl)
  | attaching id =>
    have hraised := h.onRow hf.1 id hf.2.1
    have hnamed : m.key = none → none = (none : Option Nat) ∧ ∀ id' ∈ some id, id' ∈ d.requests :=
      fun _ => ⟨rfl, fun id' hid => Option.mem_some_iff.1 hid ▸ hraised⟩
    cases ha with
    | attach _ _ _ hd =>
      rcases hd with rfl | ⟨comment, rfl⟩
      · exact h.goes_on hheld ⟨by decide, fun _ => ready_attaching h hf.1 hf.2.1 fun _ => hf.2.2, hnamed⟩
      · have hgood := h.comment hf.2.2 (fun _ => ne_nil_of_mem hraised) comment true
        exact hgood.goes_on hheld
          ⟨by decide, fun _ => ready_attaching hgood hf.1 hf.2.1 fun hleft => absurd hleft.symm Bool.false_ne_true, hnamed⟩

def Alone (m : Message) (d : Data) (running : List Attempt) : Prop :=
  Good m d ∧ running.length ≤ 1 ∧ (running = [] → Claimable d.row → Ready m d) ∧ ∀ a ∈ running, Held d a.attempts ∧ Fits m d a.stage

theorem Alone.between {l r : List Attempt} {a : Attempt} (h : Alone m d (l ++ a :: r)) :
    l = [] ∧ r = [] ∧ Good m d ∧ Held d a.attempts ∧ Fits m d a.stage := by
  obtain ⟨hgood, hlen, -, hfits⟩ := h
  rw [length_append, length_cons] at hlen
  exact ⟨length_eq_zero_iff.1 (by omega), length_eq_zero_iff.1 (by omega), hgood,
    hfits a (mem_append_right _ mem_cons_self)⟩

theorem alone_start {running : List Attempt} {p : Option Attempt} (h : Alone m d running) (hs : Start False d running d' p) :
    Alone m d' (p.toList ++ running) := by
  obtain ⟨hgood, hlen, hrest, hfits⟩ := h
  have hclaim : ∀ {r : Row}, claim d.now d.row = some r → running = [] ∧ Good m { d with row := some r } ∧
      Ready m { d with row := some r } := by
    intro r hr
    have hnil : running = [] := by
      rcases running with _ | ⟨a, rest⟩
      · rfl
      · rw [(hfits a mem_cons_self).1.claim] at hr
        cases hr
    have hready := hrest hnil (claim_claimable hr).1
    exact ⟨hnil, hgood.row (fun hk id hid => hgood.onRow hk id hid) fun id hid => (claim_issueID hr).symm.trans hid,
      hready.reply, fun hk id hid => (claim_issueID hr).trans (hready.raised hk id hid), hready.files⟩
  cases hs with
  | wait now hle hlate =>
    refine ⟨⟨hgood.requests, hgood.comments, hgood.reply, hgood.onRow, hgood.unraised⟩, hlen, fun hnil hopen => ?_, fun a ha => ?_⟩
    · exact (hrest hnil hopen).waits now
    · obtain ⟨⟨r, hr, hn, hfailed, -⟩, hstage⟩ := hfits a ha
      refine ⟨⟨r, hr, hn, hfailed, hlate.resolve_left id (ne_nil_of_mem ha) r hr⟩, ?_⟩
      exact hstage.waits now
  | claim r hr =>
    obtain ⟨rfl, hgood', hready⟩ := hclaim hr
    refine ⟨hgood', Nat.le_refl 1, fun h => absurd h (cons_ne_nil _ _), fun a ha => ?_⟩
    obtain rfl := mem_singleton.1 ha
    obtain ⟨-, hprocessing, hreceived⟩ := claim_claimable hr
    exact ⟨⟨r, rfl, rfl, by rw [hprocessing]; decide, by change d.now ≤ r.receivedAt + 300; omega⟩, hready⟩
  | claimUnheard r hr =>
    obtain ⟨rfl, hgood', hready⟩ := hclaim hr
    exact ⟨hgood', Nat.zero_le _, fun _ _ => hready, nofun⟩

theorem orderly_alone {now : Int} {sys : Interleaving.System Data Attempt} (h : OrderlyRun m now sys) :
    Alone m sys.shared sys.running := by
  refine Interleaving.holds_where (I := Alone m) (fun d running d' p halone hs => alone_start halone hs) ?_ ?_ ?_ h
  · rintro d l r a d' a' halone ⟨stage, rfl, ha⟩
    obtain ⟨rfl, rfl, hgood, hheld, hfits⟩ := halone.between
    have hkept := act_keeps hgood hheld hfits ha
    rw [nil_append, append_nil]
    cases stage with
    | none => exact ⟨hkept.good, Nat.zero_le _, fun _ => hkept.ended rfl, nofun⟩
    | some s =>
      refine ⟨hkept.good, Nat.le_refl 1, fun h => absurd h (cons_ne_nil _ _), fun b hb => ?_⟩
      obtain rfl := mem_singleton.1 hb
      exact hkept.next s rfl
  · rintro d l r a hspared halone
    have hdie := hspared.resolve_left id d l r a rfl rfl
    obtain ⟨rfl, rfl, hgood, -, hfits⟩ := halone.between
    exact ⟨hgood, Nat.zero_le _, fun _ _ => dies_ready hgood hfits hdie, nofun⟩
  · refine ⟨⟨Nat.zero_le _, Nat.zero_le _, fun _ => rfl, nofun, fun _ _ => rfl⟩,
      Nat.zero_le _, fun _ _ => ⟨fun _ => rfl, nofun, fun _ _ => rfl⟩,
      nofun⟩

end

/-! ## A reply, and the same reply twice -/

def reply : Message := ⟨some "SEC-1".toList, false, false, false, false⟩

def customer : Placement := ⟨7, false, true⟩

section
variable {lapse : Prop} {m : Message} {now : Int} {d d' : Data}

theorem RunWhere.start {p : Option Attempt} (h : RunWhere lapse m now ⟨d, []⟩) (hs : Start lapse d [] d' p) :
    RunWhere lapse m now ⟨d', p.toList⟩ := by
  have hlast := Relation.ReflTransGen.tail h ⟨.start hs, .inr Interleaving.spared_start⟩
  rwa [append_nil] at hlast

theorem RunWhere.act {n : Nat} {stage stage' : Stage} (h : RunWhere lapse m now ⟨d, [⟨n, stage⟩]⟩)
    (ha : Act lapse m d stage d' (some stage') n) : RunWhere lapse m now ⟨d', [⟨n, stage'⟩]⟩ :=
  have hacts : Acts lapse m d ([] ++ []) ⟨n, stage⟩ d' (some ⟨n, stage'⟩) := ⟨some stage', rfl, ha⟩
  Relation.ReflTransGen.tail h ⟨.act hacts, .inr Interleaving.spared_act⟩

theorem RunWhere.over {n : Nat} {stage : Stage} (h : RunWhere lapse m now ⟨d, [⟨n, stage⟩]⟩)
    (ha : Act lapse m d stage d' none n) (hne : d' ≠ d) : RunWhere lapse m now ⟨d', []⟩ :=
  have hacts : Acts lapse m d ([] ++ []) ⟨n, stage⟩ d' none := ⟨none, rfl, ha⟩
  Relation.ReflTransGen.tail h ⟨.act hacts, .inr (Interleaving.spared_over hne)⟩

theorem placing {r : Row} (h : RunWhere lapse reply now ⟨d, []⟩) (hr : claim d.now d.row = some r) :
    RunWhere lapse reply now ⟨{ d with row := some r }, [⟨r.attempts, .posting 7⟩]⟩ :=
  (h.start (.claim r hr)).act (.place _ (some customer) (Option.some_ne_none _))

end

end Inbound
end Armature
