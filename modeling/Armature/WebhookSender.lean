import Armature.GoTime
import Armature.GoUnicode
import Armature.Interleaving
import Armature.KeyedRows
/-!
# WebhookSender — an event is tried until its endpoint takes it (`webhook/send.go`, `webhook/webhook.go`)

Each attempt is a row.  A pass reads which rows are due and posts them, a few at a time and nobody else kept from them; a
failed attempt leaves the next one as a row of its own, unless one of that number is there.  What an endpoint answers, and
what the clocks say, is left open.
-/
namespace Armature
namespace Webhook

open List
open Go (Text)

def maxAttempts : Nat := 6
def maxInFlightPerEndpoint : Nat := 2
def timeoutsBeforePause : Nat := 3
def endpointPause : Int := 5 * Go.minute
def sendBatch : Nat := 200
def notInTime : Text := "the endpoint did not answer in time".toList

def backoff : List Int := [1, 5, 30, 2 * 60, 12 * 60].map (· * Go.minute)

structure Endpoint where
  id : Nat
  version : Nat

/-- A row of `webhook_delivery`. -/
structure Delivery where
  id : Nat
  endpointID : Nat
  eventID : Nat
  topic : Text
  attempt : Nat
  status : Option Nat
  error : Text
  requestBody : Text
  version : Nat
  nextAttemptAt : Option Int
  deliveredAt : Option Int
  deriving DecidableEq

def Delivery.key (r : Delivery) : Nat × Nat × Nat := (r.endpointID, r.eventID, r.attempt)

def Delivery.Of (endpoint event : Nat) (r : Delivery) : Prop := r.endpointID = endpoint ∧ r.eventID = event

instance (endpoint event : Nat) (r : Delivery) : Decidable (r.Of endpoint event) := inferInstanceAs (Decidable (_ ∧ _))

inductive Poster where
  | sendDue | redeliver
  deriving DecidableEq

structure Post where
  by_ : Poster
  endpointID : Nat
  eventID : Nat
  deriving DecidableEq

/-- The last two lists are of what was done: the events enqueued, for which endpoint, and the requests made. -/
structure Data where
  endpoints : List Endpoint
  deliveries : List Delivery
  enqueued : List (Nat × Nat)
  posts : List Post

/-! ## One attempt -/

inductive SendError where
  | blocked | timeout | unreachable
  deriving DecidableEq

def SendError.why : SendError → Text
  | .blocked => "that address is not one this server may reach".toList
  | .timeout => notInTime
  | .unreachable => "the endpoint could not be reached".toList

abbrev Answer := Except SendError Nat

def Answer.delivered : Answer → Bool
  | .ok status => decide (200 ≤ status ∧ status < 300)
  | .error _ => false

def Answer.status : Answer → Option Nat
  | .ok status => some status
  | .error _ => none

def Answer.errText (a : Answer) : Text :=
  match a with
  | .error e => e.why
  | .ok status => if Answer.delivered a then [] else "the endpoint answered ".toList ++ Go.itoa status

def Answer.timedOut (a : Answer) : Bool := decide (Answer.errText a = notInTime)

def insertOnce (r : Delivery) (rows : List Delivery) : List Delivery :=
  if r.key ∈ rows.map Delivery.key then rows else rows ++ [r]

def retry (id : Nat) (now : Int) (r : Delivery) : Delivery where
  id := id
  endpointID := r.endpointID
  eventID := r.eventID
  topic := r.topic
  attempt := r.attempt + 1
  status := none
  error := []
  requestBody := r.requestBody
  version := r.version
  nextAttemptAt := some (now + backoff.getD (min (r.attempt - 1) (backoff.length - 1)) 0)
  deliveredAt := none

def markDelivered (a : Answer) (now : Int) (x : Delivery) : Delivery :=
  { x with status := Answer.status a, error := [], nextAttemptAt := none, deliveredAt := some now }

def markFailed (a : Answer) (x : Delivery) : Delivery :=
  { x with status := Answer.status a, error := Answer.errText a, nextAttemptAt := none }

def recordOutcome (r : Delivery) (a : Answer) (now : Int) (id : Nat) (rows : List Delivery) : List Delivery :=
  if Answer.delivered a then Rows.update Delivery.id r.id (markDelivered a now) rows
  else
    let failed := Rows.update Delivery.id r.id (markFailed a) rows
    if r.attempt < maxAttempts then insertOnce (retry id now r) failed else failed

inductive Send where
  | reading (id : Nat)
  | posting (r : Delivery)
  | recording (r : Delivery) (a : Answer)

def Send.id : Send → Nat
  | .reading id => id
  | .posting r => r.id
  | .recording r _ => r.id

/-- It goes on, or it is over and says whether the endpoint timed out. -/
inductive After where
  | goesOn (s : Send)
  | ends (timedOut : Bool)

def Fresh (d : Data) (id : Nat) : Prop := ∀ r ∈ d.deliveries, r.id ≠ id

inductive Try (poster : Poster) (d : Data) : Send → Data → After → Prop where
  | found (r : Delivery) : r ∈ d.deliveries → Try poster d (.reading r.id) d (.goesOn (.posting r))
  /-- There is no such row, or it could not be read. -/
  | unread (id : Nat) : Try poster d (.reading id) d (.ends false)
  | post (r : Delivery) (a : Answer) :
      Try poster d (.posting r) { d with posts := ⟨poster, r.endpointID, r.eventID⟩ :: d.posts } (.goesOn (.recording r a))
  | record (r : Delivery) (a : Answer) (now : Int) (id : Nat) : Fresh d id →
      Try poster d (.recording r a) { d with deliveries := recordOutcome r a now id d.deliveries }
        (.ends (Answer.timedOut a))
  | unrecorded (r : Delivery) (a : Answer) : Try poster d (.recording r a) d (.ends (Answer.timedOut a))

/-! ## A pass -/

structure Lane where
  endpointID : Nat
  queue : List Nat
  flying : List Send
  timeouts : Nat
  paused : Bool

def Lane.record (l : Lane) (timedOut : Bool) : Lane :=
  if timedOut then
    { l with timeouts := l.timeouts + 1, paused := l.paused || decide (timeoutsBeforePause ≤ l.timeouts + 1) }
  else { l with timeouts := 0 }

def lined (endpoint id : Nat) : List Lane → List Lane
  | [] => [⟨endpoint, [id], [], 0, false⟩]
  | l :: ls => if l.endpointID = endpoint then { l with queue := l.queue ++ [id] } :: ls else l :: lined endpoint id ls

def spread (found : List Delivery) : List Lane := found.foldl (fun ls r => lined r.endpointID r.id ls) []

def Delivery.Waiting (r : Delivery) : Prop := r.deliveredAt = none ∧ r.nextAttemptAt ≠ none

def Delivery.isDue (now : Int) (r : Delivery) : Bool := r.deliveredAt.isNone && r.nextAttemptAt.any fun t => decide (t ≤ now)

def Due (d : Data) (now : Int) (found : List Delivery) : Prop :=
  ∃ rows : List Delivery, rows.Perm (d.deliveries.filter (Delivery.isDue now)) ∧
    rows.Pairwise (fun r s => ∀ t ∈ r.nextAttemptAt, ∀ t' ∈ s.nextAttemptAt, t ≤ t') ∧ found = rows.take sendBatch

def pause (endpoint : Nat) (until_ : Int) (rows : List Delivery) : List Delivery := rows.map fun r =>
  if r.endpointID = endpoint ∧ r.deliveredAt = none ∧ r.nextAttemptAt.any (fun t => decide (t < until_)) then
    { r with nextAttemptAt := some until_ }
  else r

inductive Process where
  /-- `Redeliver`, after its row is there. -/
  | sending (s : Send)
  /-- `SendDue`, and whether its batch was full. -/
  | passing (lanes : List Lane) (full : Bool)

inductive Act (concurrency : Nat) (d : Data) : Process → Data → Option Process → Prop where
  | goOn (s s' : Send) (d' : Data) : Try .redeliver d s d' (.goesOn s') →
      Act concurrency d (.sending s) d' (some (.sending s'))
  | sent (s : Send) (d' : Data) (t : Bool) : Try .redeliver d s d' (.ends t) → Act concurrency d (.sending s) d' none
  | take (a b : List Lane) (l : Lane) (id : Nat) (queue : List Nat) (full : Bool) : l.paused = false →
      l.queue = id :: queue →
      l.flying.length < maxInFlightPerEndpoint → ((a ++ l :: b).flatMap Lane.flying).length < max concurrency 1 →
      Act concurrency d (.passing (a ++ l :: b) full) d
        (some (.passing (a ++ { l with queue := queue, flying := .reading id :: l.flying } :: b) full))
  | fly (a b : List Lane) (l : Lane) (f g : List Send) (s s' : Send) (d' : Data) (full : Bool) : l.flying = f ++ s :: g →
      Try .sendDue d s d' (.goesOn s') →
      Act concurrency d (.passing (a ++ l :: b) full) d' (some (.passing (a ++ { l with flying := f ++ s' :: g } :: b) full))
  | land (a b : List Lane) (l : Lane) (f g : List Send) (s : Send) (t : Bool) (d' : Data) (full : Bool) :
      l.flying = f ++ s :: g → Try .sendDue d s d' (.ends t) →
      Act concurrency d (.passing (a ++ l :: b) full) d'
        (some (.passing (a ++ { l with flying := f ++ g }.record t :: b) full))
  /-- Nothing of the lane is in flight, and it is put off. -/
  | pause (a b : List Lane) (l : Lane) (now : Int) (full : Bool) : l.flying = [] → l.paused = true →
      Act concurrency d (.passing (a ++ l :: b) full)
        { d with deliveries := Webhook.pause l.endpointID (now + endpointPause) d.deliveries }
          (some (.passing (a ++ b) full))
  /-- It could not be put off; or nothing is left of it, or the pass is told to end. -/
  | leave (a b : List Lane) (l : Lane) (full : Bool) : l.flying = [] →
      Act concurrency d (.passing (a ++ l :: b) full) d (some (.passing (a ++ b) full))
  | again (now : Int) (found : List Delivery) : Due d now found →
      Act concurrency d (.passing [] true) d (some (.passing (spread found) (decide (found.length = sendBatch))))
  | done (full : Bool) : Act concurrency d (.passing [] full) d none

/-! ## What starts -/

def firstAttempt (id : Nat) (e : Endpoint) (event : Nat) (topic body : Text) (now : Int) : Delivery where
  id := id
  endpointID := e.id
  eventID := event
  topic := topic
  attempt := 1
  status := none
  error := []
  requestBody := body
  version := e.version
  nextAttemptAt := some now
  deliveredAt := none

def enqueue (d : Data) (e : Endpoint) (event : Nat) (r : Delivery) : Data :=
  { d with deliveries := insertOnce r d.deliveries, enqueued := (e.id, event) :: d.enqueued }

def lastAttempt (rows : List Delivery) (r : Delivery) : Nat :=
  ((rows.filter fun x => decide (x.Of r.endpointID r.eventID)).map Delivery.attempt).foldl max 0

def redelivery (id : Nat) (now : Int) (rows : List Delivery) (r : Delivery) : Delivery :=
  { retry id now r with attempt := lastAttempt rows r + 1, nextAttemptAt := some now }

/-- An event is enqueued, a pass begins, or somebody redelivers what may be (`redelivers`). -/
inductive Start (redelivers : Nat → Nat → Prop) (d : Data) : Data → Option Process → Prop where
  | enqueue (e : Endpoint) (event id : Nat) (topic body : Text) (now : Int) : e ∈ d.endpoints → Fresh d id →
      Start redelivers d (enqueue d e event (firstAttempt id e event topic body now)) none
  | pass (now : Int) (found : List Delivery) : Due d now found →
      Start redelivers d d (some (.passing (spread found) (decide (found.length = sendBatch))))
  | redeliver (r : Delivery) (id : Nat) (now : Int) : r ∈ d.deliveries → Fresh d id → redelivers r.endpointID r.eventID →
      Start redelivers d { d with deliveries := d.deliveries ++ [redelivery id now d.deliveries r] }
        (some (.sending (.reading id)))

abbrev Sys := Interleaving.System Data Process

def Steps (concurrency : Nat) (redelivers : Nat → Nat → Prop) : Sys → Sys → Prop :=
  Relation.ReflTransGen (Interleaving.Step (fun d _ d' p => Start redelivers d d' p)
    fun d _ p d' p' => Act concurrency d p d' p')

def empty (endpoints : List Endpoint) : Data := ⟨endpoints, [], [], []⟩

def Run (concurrency : Nat) (endpoints : List Endpoint) (sys : Sys) : Prop :=
  Steps concurrency (fun _ _ => True) ⟨empty endpoints, []⟩ sys

/-! ## Rows -/

section
variable {d d' : Data} {rows : List Delivery} {r x : Delivery} {id : Nat} {a : Answer} {now : Int}

def Delivery.SameAttempt (x y : Delivery) : Prop := y.id = x.id ∧ y.key = x.key

def Grown (d d' : Data) : Prop := ∀ x ∈ d.deliveries, ∃ y ∈ d'.deliveries, x.SameAttempt y

theorem Grown.refl (d : Data) : Grown d d := fun x hx => ⟨x, hx, rfl, rfl⟩

theorem key_eq {x y : Delivery} (h : y.key = x.key) :
    y.endpointID = x.endpointID ∧ y.eventID = x.eventID ∧ y.attempt = x.attempt := by
  simpa [Delivery.key] using h

theorem Grown.keys (h : Grown d d') {k : Nat × Nat × Nat} (hk : k ∈ d.deliveries.map Delivery.key) :
    k ∈ d'.deliveries.map Delivery.key := by
  obtain ⟨x, hx, rfl⟩ := mem_map.1 hk
  obtain ⟨y, hy, _, hkey⟩ := h x hx
  rw [← hkey]
  exact mem_map_of_mem hy

theorem subset_insertOnce (r : Delivery) (rows : List Delivery) : rows ⊆ insertOnce r rows := by
  unfold insertOnce
  split
  · exact List.Subset.refl _
  · exact subset_append_left _ _

theorem mem_insertOnce (h : x ∈ insertOnce r rows) : x ∈ rows ∨ x = r ∧ r.key ∉ rows.map Delivery.key := by
  unfold insertOnce at h
  split at h
  · exact .inl h
  · rename_i hnew
    exact (mem_append.1 h).imp_right fun h => ⟨mem_singleton.1 h, hnew⟩

theorem key_insertOnce (r : Delivery) (rows : List Delivery) : r.key ∈ (insertOnce r rows).map Delivery.key := by
  unfold insertOnce
  split
  · assumption
  · exact mem_map_of_mem (mem_append_right _ (mem_singleton_self r))

theorem nodup_append_fresh (h : (rows.map Delivery.id).Nodup) (hid : ∀ x ∈ rows, x.id ≠ r.id) :
    ((rows ++ [r]).map Delivery.id).Nodup := by
  rw [map_append, nodup_append]
  refine ⟨h, nodup_singleton _, fun i hi j hj he => ?_⟩
  obtain ⟨x, hx, rfl⟩ := mem_map.1 hi
  exact hid x hx (he.trans (mem_singleton.1 hj))

theorem nodup_insertOnce (h : (rows.map Delivery.id).Nodup) (hid : ∀ x ∈ rows, x.id ≠ r.id) :
    ((insertOnce r rows).map Delivery.id).Nodup := by
  unfold insertOnce
  split
  · exact h
  · exact nodup_append_fresh h hid

theorem of_id (h : (rows.map Delivery.id).Nodup) {x y : Delivery} (hx : x ∈ rows) (hy : y ∈ rows) (he : x.id = y.id) :
    x = y :=
  inj_on_of_nodup_map h hx hy he

/-! ## What every step keeps -/

/-- The events that `Q` leaves out have been enqueued, and nothing of them waits. -/
structure Kept (Q : Nat → Nat → Prop) (d : Data) : Prop where
  ids : (d.deliveries.map Delivery.id).Nodup
  first : ∀ r ∈ d.deliveries, (r.endpointID, r.eventID, 1) ∈ d.deliveries.map Delivery.key
  next : ∀ r ∈ d.deliveries, r.deliveredAt = none → r.nextAttemptAt = none →
    r.error ≠ [] ∧ (r.attempt < maxAttempts → (r.endpointID, r.eventID, r.attempt + 1) ∈ d.deliveries.map Delivery.key)
  enqueued : ∀ x ∈ d.enqueued, (x.1, x.2, 1) ∈ d.deliveries.map Delivery.key
  waiting : ∀ r ∈ d.deliveries, r.Waiting → Q r.endpointID r.eventID
  sent : ∀ endpoint event, ¬ Q endpoint event → (endpoint, event, 1) ∈ d.deliveries.map Delivery.key

/-- How a step changes the data, where it is at none of the events that `Q` leaves out. -/
inductive Change (Q : Nat → Nat → Prop) (d : Data) : Data → Prop where
  | same : Change Q d d
  | posted (p : Post) : Q p.endpointID p.eventID → Change Q d { d with posts := p :: d.posts }
  | recorded (x r : Delivery) (a : Answer) (now : Int) (id : Nat) : x ∈ d.deliveries → r.SameAttempt x →
      Q r.endpointID r.eventID → Fresh d id → Change Q d { d with deliveries := recordOutcome r a now id d.deliveries }
  | paused (endpoint : Nat) (until_ : Int) : Change Q d { d with deliveries := pause endpoint until_ d.deliveries }
  | enqueued (e : Endpoint) (event id : Nat) (topic body : Text) (now : Int) : Fresh d id →
      Change Q d (enqueue d e event (firstAttempt id e event topic body now))
  | redelivered (r : Delivery) (id : Nat) (now : Int) : r ∈ d.deliveries → Fresh d id → Q r.endpointID r.eventID →
      Change Q d { d with deliveries := d.deliveries ++ [redelivery id now d.deliveries r] }

def postsOf (endpoint event : Nat) (d : Data) : List Post :=
  d.posts.filter fun p => decide (p.endpointID = endpoint ∧ p.eventID = event)

structure Frame (Q : Nat → Nat → Prop) (d d' : Data) : Prop where
  grown : Grown d d'
  posts : ∀ endpoint event, ¬ Q endpoint event → postsOf endpoint event d' = postsOf endpoint event d

theorem SendError.why_ne (e : SendError) : e.why ≠ [] := by cases e <;> decide

theorem errText_ne (h : Answer.delivered a = false) : Answer.errText a ≠ [] := by
  unfold Answer.errText
  cases a with
  | error e => exact e.why_ne
  | ok => simp [h]

theorem mem_recordOutcome (h : x ∈ recordOutcome r a now id rows) :
    (x ∈ rows ∧ x.id ≠ r.id) ∨ (∃ y ∈ rows, y.id = r.id ∧ (Answer.delivered a = true ∧ x = markDelivered a now y ∨
      Answer.delivered a = false ∧ x = markFailed a y)) ∨ x = retry id now r := by
  have hupdate : ∀ {f : Delivery → Delivery}, x ∈ Rows.update Delivery.id r.id f rows →
      (x ∈ rows ∧ x.id ≠ r.id) ∨ ∃ y ∈ rows, y.id = r.id ∧ x = f y := by
    intro f h
    obtain ⟨y, hy, ⟨hid, rfl⟩ | ⟨hid, rfl⟩⟩ := Rows.mem_update.1 h
    · exact .inr ⟨y, hy, hid, rfl⟩
    · exact .inl ⟨hy, hid⟩
  unfold recordOutcome at h
  cases hd : Answer.delivered a with
  | true =>
    rw [if_pos hd] at h
    rcases hupdate h with h | ⟨y, hy, hid, rfl⟩
    · exact .inl h
    · exact .inr (.inl ⟨y, hy, hid, .inl ⟨rfl, rfl⟩⟩)
  | false =>
    rw [if_neg (by simp [hd])] at h
    have hfailed : x ∈ Rows.update Delivery.id r.id (markFailed a) rows ∨ x = retry id now r := by
      dsimp only at h
      split at h
      · exact (mem_insertOnce h).imp_right And.left
      · exact .inl h
    rcases hfailed with h | h
    · rcases hupdate h with h | ⟨y, hy, hid, rfl⟩
      · exact .inl h
      · exact .inr (.inl ⟨y, hy, hid, .inr ⟨rfl, rfl⟩⟩)
    · exact .inr (.inr h)

theorem update_same {f : Delivery → Delivery} (hf : ∀ y : Delivery, y.SameAttempt (f y)) (hx : x ∈ rows) :
    ∃ y ∈ Rows.update Delivery.id id f rows, x.SameAttempt y := by
  by_cases hid : x.id = id
  · exact ⟨f x, Rows.mem_update.2 ⟨x, hx, .inl ⟨hid, rfl⟩⟩, hf x⟩
  · exact ⟨x, Rows.mem_update.2 ⟨x, hx, .inr ⟨hid, rfl⟩⟩, rfl, rfl⟩

theorem record_grown (hx : x ∈ rows) : ∃ y ∈ recordOutcome r a now id rows, x.SameAttempt y := by
  unfold recordOutcome
  split
  · exact update_same (fun _ => ⟨rfl, rfl⟩) hx
  · obtain ⟨y, hy, hsame⟩ := @update_same _ _ r.id (markFailed a) (fun _ => ⟨rfl, rfl⟩) hx
    dsimp only
    split
    · exact ⟨y, subset_insertOnce _ _ hy, hsame⟩
    · exact ⟨y, hy, hsame⟩

theorem record_ids (h : (rows.map Delivery.id).Nodup) (hid : ∀ x ∈ rows, x.id ≠ id) :
    ((recordOutcome r a now id rows).map Delivery.id).Nodup := by
  have hupdate : ∀ {f : Delivery → Delivery}, (∀ y, (f y).id = y.id) →
    ((Rows.update Delivery.id r.id f rows).map Delivery.id).Nodup := by
    intro f hf
    rw [Rows.keys_update hf]
    exact h
  unfold recordOutcome
  split
  · exact hupdate fun _ => rfl
  · dsimp only
    split
    · refine nodup_insertOnce (hupdate fun _ => rfl) fun x hx => ?_
      obtain ⟨y, hy, ⟨_, rfl⟩ | ⟨_, rfl⟩⟩ := Rows.mem_update.1 hx
      · exact hid y hy
      · exact hid x hy
    · exact hupdate fun _ => rfl

theorem record_next (hd : Answer.delivered a = false) (hlt : r.attempt < maxAttempts) :
    (r.endpointID, r.eventID, r.attempt + 1) ∈ (recordOutcome r a now id rows).map Delivery.key := by
  unfold recordOutcome
  rw [if_neg (by simp [hd])]
  dsimp only
  rw [if_pos hlt]
  exact key_insertOnce (retry id now r) _

variable {endpoint c : Nat} {until_ : Int} {s : Send} {found : List Delivery} {full : Bool} {b : List Lane} {l : Lane}

theorem mem_pause (h : x ∈ pause endpoint until_ rows) :
    ∃ y ∈ rows, y.SameAttempt x ∧ x.error = y.error ∧ x.deliveredAt = y.deliveredAt ∧
      (x.nextAttemptAt = none ↔ y.nextAttemptAt = none) := by
  obtain ⟨y, hy, rfl⟩ := mem_map.1 h
  refine ⟨y, hy, ?_⟩
  split
  · rename_i hput
    have hsome : y.nextAttemptAt ≠ none := by
      intro hnone
      simp [hnone] at hput
    exact ⟨⟨rfl, rfl⟩, rfl, rfl, ⟨fun h => (by cases h), fun h => absurd h hsome⟩⟩
  · exact ⟨⟨rfl, rfl⟩, rfl, rfl, Iff.rfl⟩

theorem pause_grown (hx : x ∈ rows) : ∃ y ∈ pause endpoint until_ rows, x.SameAttempt y := by
  refine ⟨_, mem_map_of_mem hx, ?_⟩
  split
  · exact ⟨rfl, rfl⟩
  · exact ⟨rfl, rfl⟩

theorem pause_ids : (pause endpoint until_ rows).map Delivery.id = rows.map Delivery.id := by
  unfold pause
  rw [map_map]
  refine map_congr_left fun y _ => ?_
  dsimp only [Function.comp]
  split
  · rfl
  · rfl

theorem Kept.append {Q : Nat → Nat → Prop} (h : Kept Q d) (hid : ∀ x ∈ d.deliveries, x.id ≠ r.id)
    (hfirst : (r.endpointID, r.eventID, 1) ∈ (d.deliveries ++ [r]).map Delivery.key) (hwaits : r.nextAttemptAt ≠ none)
    (hq : Q r.endpointID r.eventID) : Kept Q { d with deliveries := d.deliveries ++ [r] } := by
  have hsub : ∀ {k}, k ∈ d.deliveries.map Delivery.key → k ∈ (d.deliveries ++ [r]).map Delivery.key := by
    intro k hk
    rw [map_append]
    exact mem_append_left _ hk
  refine ⟨nodup_append_fresh h.ids hid, fun x hx => ?_, fun x hx hd hn => ?_, fun x hx => hsub (h.enqueued x hx),
    fun x hx hw => ?_, fun endpoint event hq => hsub (h.sent endpoint event hq)⟩
  · rcases mem_append.1 hx with hx | hx
    · exact hsub (h.first x hx)
    · rw [mem_singleton.1 hx]
      exact hfirst
  · rcases mem_append.1 hx with hx | hx
    · obtain ⟨herror, hnext⟩ := h.next x hx hd hn
      exact ⟨herror, fun hlt => hsub (hnext hlt)⟩
    · rw [mem_singleton.1 hx] at hn
      exact absurd hn hwaits
  · rcases mem_append.1 hx with hx | hx
    · exact h.waiting x hx hw
    · rw [mem_singleton.1 hx]
      exact hq

theorem append_grown (d : Data) (r : Delivery) : Grown d { d with deliveries := d.deliveries ++ [r] } :=
  fun x hx => ⟨x, mem_append_left _ hx, rfl, rfl⟩

variable {Q : Nat → Nat → Prop}

theorem Kept.record (h : Kept Q d) (hx : x ∈ d.deliveries) (hsame : r.SameAttempt x) (hq : Q r.endpointID r.eventID)
    (hid : Fresh d id) : Kept Q { d with deliveries := recordOutcome r a now id d.deliveries } := by
  have hgrown : Grown d { d with deliveries := recordOutcome r a now id d.deliveries } := fun y hy => record_grown hy
  have hfirst : ∀ y ∈ d.deliveries, ∀ z : Delivery, z.key = y.key →
      (z.endpointID, z.eventID, 1) ∈ (recordOutcome r a now id d.deliveries).map Delivery.key := by
    intro y hy z hz
    rw [(key_eq hz).1, (key_eq hz).2.1]
    exact hgrown.keys (h.first y hy)
  refine ⟨record_ids h.ids hid, fun z hz => ?_, fun z hz hd hn => ?_, fun z hz => hgrown.keys (h.enqueued z hz),
    fun z hz hw => ?_, fun endpoint event hq => hgrown.keys (h.sent endpoint event hq)⟩
  · rcases mem_recordOutcome hz with ⟨hz, _⟩ | ⟨y, hy, _, ⟨_, rfl⟩ | ⟨_, rfl⟩⟩ | rfl
    · exact hfirst z hz z rfl
    · exact hfirst y hy _ rfl
    · exact hfirst y hy _ rfl
    · exact hfirst x hx r hsame.2.symm
  · rcases mem_recordOutcome hz with ⟨hz, _⟩ | ⟨y, hy, hyid, ⟨_, rfl⟩ | ⟨hfailed, rfl⟩⟩ | rfl
    · obtain ⟨herror, hnext⟩ := h.next z hz hd hn
      exact ⟨herror, fun hlt => hgrown.keys (hnext hlt)⟩
    · cases hd
    · refine ⟨errText_ne hfailed, fun hlt => ?_⟩
      have hyx : y = x := of_id h.ids hy hx (hyid.trans hsame.1.symm)
      obtain ⟨hendpoint, hevent, hattempt⟩ := key_eq hsame.2
      have hkey : y.endpointID = r.endpointID ∧ y.eventID = r.eventID ∧ y.attempt = r.attempt :=
        hyx ▸ ⟨hendpoint, hevent, hattempt⟩
      change y.attempt < maxAttempts at hlt
      change (y.endpointID, y.eventID, y.attempt + 1) ∈ _
      rw [hkey.2.2] at hlt
      rw [hkey.1, hkey.2.1, hkey.2.2]
      exact record_next hfailed hlt
    · cases hn
  · rcases mem_recordOutcome hz with ⟨hz, _⟩ | ⟨y, hy, _, ⟨_, rfl⟩ | ⟨_, rfl⟩⟩ | rfl
    · exact h.waiting z hz hw
    · exact absurd rfl hw.2
    · exact absurd rfl hw.2
    · exact hq

theorem Kept.paused (h : Kept Q d) (endpoint : Nat) (until_ : Int) :
    Kept Q { d with deliveries := pause endpoint until_ d.deliveries } := by
  have hgrown : Grown d { d with deliveries := pause endpoint until_ d.deliveries } := fun y hy => pause_grown hy
  refine ⟨by rw [pause_ids]; exact h.ids, fun z hz => ?_, fun z hz hd hn => ?_, fun z hz => hgrown.keys (h.enqueued z hz),
    fun z hz hw => ?_, fun endpoint event hq => hgrown.keys (h.sent endpoint event hq)⟩
  all_goals
    obtain ⟨y, hy, hsame, herror, hdelivered, hnext⟩ := mem_pause hz
    obtain ⟨hendpoint, hevent, hattempt⟩ := key_eq hsame.2
    rw [hendpoint, hevent]
  · exact hgrown.keys (h.first y hy)
  · rw [herror, hattempt]
    obtain ⟨hne, hlater⟩ := h.next y hy (hdelivered ▸ hd) (hnext.1 hn)
    exact ⟨hne, fun hlt => hgrown.keys (hlater hlt)⟩
  · exact h.waiting y hy ⟨hdelivered ▸ hw.1, fun hn => hw.2 (hnext.2 hn)⟩

theorem Kept.enqueue (h : Kept Q d) (e : Endpoint) (event : Nat) (topic body : Text) (hid : Fresh d id) :
    Kept Q (enqueue d e event (firstAttempt id e event topic body now)) := by
  have hin : (e.id, event, 1) ∈ (insertOnce (firstAttempt id e event topic body now) d.deliveries).map Delivery.key :=
    key_insertOnce (firstAttempt id e event topic body now) d.deliveries
  have hrows : Kept Q { d with deliveries := insertOnce (firstAttempt id e event topic body now) d.deliveries } := by
    unfold insertOnce
    split
    · exact h
    · rename_i hnew
      refine h.append hid ?_ (fun hn => (by cases hn)) (Classical.by_contradiction fun hq => hnew (h.sent _ _ hq))
      rw [map_append]
      exact mem_append_right _ (mem_singleton_self _)
  refine ⟨hrows.ids, hrows.first, hrows.next, fun x hx => ?_, hrows.waiting, hrows.sent⟩
  rcases mem_cons.1 hx with rfl | hx
  · exact hin
  · exact hrows.enqueued x hx

theorem Change.keeps (hc : Change Q d d') (h : Kept Q d) : Kept Q d' ∧ Frame Q d d' := by
  cases hc with
  | same => exact ⟨h, Grown.refl d, fun _ _ _ => rfl⟩
  | posted p hq =>
    refine ⟨⟨h.ids, h.first, h.next, h.enqueued, h.waiting, h.sent⟩, Grown.refl d, fun endpoint event hnot => ?_⟩
    have hother : ¬ (p.endpointID = endpoint ∧ p.eventID = event) := fun he => hnot (he.1 ▸ he.2 ▸ hq)
    exact filter_cons_of_neg (by simpa using hother)
  | recorded x r a now id hx hsame hq hid => exact ⟨h.record hx hsame hq hid, fun _ hy => record_grown hy, fun _ _ _ => rfl⟩
  | paused endpoint until_ => exact ⟨h.paused endpoint until_, fun _ hy => pause_grown hy, fun _ _ _ => rfl⟩
  | enqueued e event id topic body now hid =>
    exact ⟨h.enqueue e event topic body hid, fun x hx => ⟨x, subset_insertOnce _ _ hx, rfl, rfl⟩, fun _ _ _ => rfl⟩
  | redelivered r id now hr hid hq =>
    refine ⟨h.append hid ?_ (fun hn => (by cases hn)) hq, append_grown d _, fun _ _ _ => rfl⟩
    rw [map_append]
    exact mem_append_left _ (h.first r hr)

/-! ## What the processes are at -/

def Send.At : Send → Delivery → Prop
  | .reading id, x => x.id = id
  | .posting r, x => r.SameAttempt x
  | .recording r _, x => r.SameAttempt x

def Send.Knows (Q : Nat → Nat → Prop) (d : Data) (s : Send) : Prop := ∃ x ∈ d.deliveries, s.At x ∧ Q x.endpointID x.eventID

def Lane.sends (l : Lane) : List Send := l.queue.map Send.reading ++ l.flying

def Process.sends : Process → List Send
  | .sending s => [s]
  | .passing lanes _ => lanes.flatMap Lane.sends

def Process.Knows (Q : Nat → Nat → Prop) (d : Data) (p : Process) : Prop := ∀ s ∈ p.sends, s.Knows Q d

theorem Send.Knows.stable (h : s.Knows Q d) (hg : Grown d d') : s.Knows Q d' := by
  obtain ⟨x, hx, hat, hq⟩ := h
  obtain ⟨y, hy, hid, hkey⟩ := hg x hx
  obtain ⟨hendpoint, hevent, _⟩ := key_eq hkey
  refine ⟨y, hy, ?_, hendpoint ▸ hevent ▸ hq⟩
  cases s with
  | reading => exact hid.trans hat
  | posting => exact ⟨hid.trans hat.1, hkey.trans hat.2⟩
  | recording => exact ⟨hid.trans hat.1, hkey.trans hat.2⟩

theorem Try.change {poster : Poster} {after : After} (ht : Try poster d s d' after) (h : Kept Q d)
    (hk : s.Knows Q d) :
    Change Q d d' ∧ ∀ s', after = .goesOn s' → s'.Knows Q d' := by
  obtain ⟨x, hx, hat, hq⟩ := hk
  cases ht with
  | found r hr =>
    have hxr : x = r := of_id h.ids hx hr hat
    exact ⟨.same, fun s' hs => by cases hs; exact ⟨r, hr, ⟨rfl, rfl⟩, hxr ▸ hq⟩⟩
  | unread => exact ⟨.same, fun s' hs => by cases hs⟩
  | post =>
    obtain ⟨hendpoint, hevent, _⟩ := key_eq hat.2
    exact ⟨.posted _ (hendpoint ▸ hevent ▸ hq), fun s' hs => by cases hs; exact ⟨x, hx, hat, hq⟩⟩
  | record r a now id hid =>
    obtain ⟨hendpoint, hevent, _⟩ := key_eq hat.2
    exact ⟨.recorded x r a now id hx hat (hendpoint ▸ hevent ▸ hq) hid, fun s' hs => by cases hs⟩
  | unrecorded => exact ⟨.same, fun s' hs => by cases hs⟩

/-! ## A pass -/

theorem mem_lined {endpoint : Nat} {t : Send} : ∀ {ls : List Lane}, t ∈ (lined endpoint id ls).flatMap Lane.sends →
    t = .reading id ∨ t ∈ ls.flatMap Lane.sends
  | [], ht => by
    have hone : t ∈ [Send.reading id] := ht
    exact .inl (mem_singleton.1 hone)
  | l :: ls, ht => by
    rw [lined] at ht
    split at ht
    · rw [flatMap_cons] at ht ⊢
      rcases mem_append.1 ht with ht | ht
      · have hsplit : Lane.sends { l with queue := l.queue ++ [id] } =
            l.queue.map Send.reading ++ [.reading id] ++ l.flying := by
          simp [Lane.sends]
        rw [hsplit] at ht
        rcases mem_append.1 ht with ht | ht
        · rcases mem_append.1 ht with ht | ht
          · exact .inr (mem_append_left _ (mem_append_left _ ht))
          · exact .inl (mem_singleton.1 ht)
        · exact .inr (mem_append_left _ (mem_append_right _ ht))
      · exact .inr (mem_append_right _ ht)
    · rw [flatMap_cons] at ht ⊢
      rcases mem_append.1 ht with ht | ht
      · exact .inr (mem_append_left _ ht)
      · exact (mem_lined ht).imp_right (mem_append_right _)

theorem mem_spread {t : Send} (ht : t ∈ (spread found).flatMap Lane.sends) :
    ∃ r ∈ found, t = .reading r.id := by
  have hfold : ∀ (found : List Delivery) (ls : List Lane),
      t ∈ (found.foldl (fun ls r => lined r.endpointID r.id ls) ls).flatMap Lane.sends →
        (∃ r ∈ found, t = .reading r.id) ∨ t ∈ ls.flatMap Lane.sends := by
    intro found
    induction found with
    | nil => exact fun ls ht => .inr ht
    | cons r found ih =>
      intro ls ht
      rcases ih _ ht with ⟨x, hx, hxt⟩ | ht
      · exact .inl ⟨x, mem_cons_of_mem r hx, hxt⟩
      · rcases mem_lined ht with ht | ht
        · exact .inl ⟨r, mem_cons_self, ht⟩
        · exact .inr ht
  exact (hfold found [] ht).resolve_right not_mem_nil

theorem Due.waiting (hdue : Due d now found) {r : Delivery} (hr : r ∈ found) :
    r ∈ d.deliveries ∧ r.Waiting := by
  obtain ⟨rows, hperm, _, rfl⟩ := hdue
  obtain ⟨hmem, hdue⟩ := mem_filter.1 (hperm.mem_iff.1 (mem_of_mem_take hr))
  unfold Delivery.isDue at hdue
  refine ⟨hmem, ?_, fun hn => ?_⟩
  · exact Option.isNone_iff_eq_none.1 (Bool.and_eq_true_iff.1 hdue).1
  · simp [hn] at hdue

theorem Due.knows (hdue : Due d now found) (h : Kept Q d) :
    (Process.passing (spread found) full).Knows Q d := by
  intro s hs
  obtain ⟨r, hr, rfl⟩ := mem_spread hs
  obtain ⟨hmem, hwaits⟩ := hdue.waiting hr
  exact ⟨r, hmem, rfl, h.waiting r hmem hwaits⟩

theorem knows_lane {a : List Lane} {l' : Lane} (hk : (Process.passing (a ++ l :: b) full).Knows Q d)
    (hl : ∀ s ∈ l'.sends, s ∈ l.sends ∨ s.Knows Q d) : (Process.passing (a ++ l' :: b) full).Knows Q d := by
  intro s hs
  simp only [Process.sends, flatMap_append, flatMap_cons, mem_append] at hs
  have hin : ∀ {t}, t ∈ a.flatMap Lane.sends ∨ t ∈ l.sends ∨ t ∈ b.flatMap Lane.sends → t.Knows Q d := by
    intro t ht
    refine hk t ?_
    simp only [Process.sends, flatMap_append, flatMap_cons, mem_append]
    exact ht
  rcases hs with hs | hs | hs
  · exact hin (.inl hs)
  · exact (hl s hs).elim (fun h => hin (.inr (.inl h))) id
  · exact hin (.inr (.inr hs))

theorem knows_without {a : List Lane} (hk : (Process.passing (a ++ l :: b) full).Knows Q d) :
    (Process.passing (a ++ b) full).Knows Q d := by
  intro s hs
  refine hk s ?_
  simp only [Process.sends, flatMap_append, flatMap_cons, mem_append] at hs ⊢
  exact hs.imp_right .inr

theorem Lane.knows_flying {a : List Lane} {f g : List Send}
    (hl : l.flying = f ++ s :: g)
    (hk : (Process.passing (a ++ l :: b) full).Knows Q d) : s.Knows Q d := by
  refine hk s ?_
  simp [Process.sends, Lane.sends, hl]

theorem Process.Knows.stable {p : Process} (h : p.Knows Q d) (hg : Grown d d') : p.Knows Q d' :=
  fun s hs => (h s hs).stable hg

theorem Act.change {p : Process} {p' : Option Process} (ha : Act c d p d' p') (h : Kept Q d) (hk : p.Knows Q d) :
    Change Q d d' ∧ ∀ q ∈ p', q.Knows Q d' := by
  cases ha with
  | goOn s s' _ ht =>
    obtain ⟨hc, hs'⟩ := ht.change h (hk s (mem_singleton_self s))
    refine ⟨hc, fun q hq t hmem => ?_⟩
    cases hq
    rw [mem_singleton.1 hmem]
    exact hs' s' rfl
  | sent s _ t ht => exact ⟨(ht.change h (hk s (mem_singleton_self s))).1, fun q hq => by cases hq⟩
  | take a b l id queue full _ hqueue =>
    refine ⟨.same, fun q hq => ?_⟩
    cases hq
    refine knows_lane hk fun t ht => .inl ?_
    simp only [Lane.sends, hqueue, map_cons, mem_append, mem_cons] at ht ⊢
    rcases ht with ht | ht | ht
    · exact .inl (.inr ht)
    · exact .inl (.inl ht)
    · exact .inr ht
  | fly a b l f g s s' _ full hl ht =>
    obtain ⟨hc, hs'⟩ := ht.change h (Lane.knows_flying hl hk)
    refine ⟨hc, fun q hq => ?_⟩
    cases hq
    refine knows_lane (hk.stable (hc.keeps h).2.grown) fun t ht => ?_
    simp only [Lane.sends, hl, mem_append, mem_cons] at ht ⊢
    rcases ht with ht | ht | rfl | ht
    · exact .inl (.inl ht)
    · exact .inl (.inr (.inl ht))
    · exact .inr (hs' _ rfl)
    · exact .inl (.inr (.inr (.inr ht)))
  | land a b l f g s t _ full hl ht =>
    obtain ⟨hc, _⟩ := ht.change h (Lane.knows_flying hl hk)
    refine ⟨hc, fun q hq => ?_⟩
    cases hq
    refine knows_lane (hk.stable (hc.keeps h).2.grown) fun u hu => .inl ?_
    have hsends : (Lane.record { l with flying := f ++ g } t).sends = l.queue.map Send.reading ++ (f ++ g) := by
      unfold Lane.record
      split <;> rfl
    rw [hsends] at hu
    simp only [Lane.sends, hl, mem_append, mem_cons] at hu ⊢
    rcases hu with hu | hu | hu
    · exact .inl hu
    · exact .inr (.inl hu)
    · exact .inr (.inr (.inr hu))
  | pause a b l now full =>
    have hc : Change Q d { d with deliveries := Webhook.pause l.endpointID (now + endpointPause) d.deliveries } :=
      .paused _ _
    refine ⟨hc, fun q hq => ?_⟩
    cases hq
    exact (knows_without hk).stable (hc.keeps h).2.grown
  | leave =>
    refine ⟨.same, fun q hq => ?_⟩
    cases hq
    exact knows_without hk
  | again now found hdue =>
    refine ⟨.same, fun q hq => ?_⟩
    cases hq
    exact hdue.knows h
  | done => exact ⟨.same, fun q hq => by cases hq⟩

theorem Start.change {p : Option Process} (hs : Start Q d d' p) (h : Kept Q d) : Change Q d d' ∧ ∀ q ∈ p, q.Knows Q d' := by
  cases hs with
  | enqueue e event id topic body now _ hid => exact ⟨.enqueued e event id topic body now hid, fun q hq => by cases hq⟩
  | pass now found hdue =>
    refine ⟨.same, fun q hq => ?_⟩
    cases hq
    exact hdue.knows h
  | redeliver r id now hr hid hq =>
    refine ⟨.redelivered r id now hr hid hq, fun q hp s hs => ?_⟩
    cases hp
    rw [mem_singleton.1 hs]
    exact ⟨_, mem_append_right _ (mem_singleton_self _), rfl, hq⟩

theorem steps_keep {sys sys' : Sys} (hsteps : Steps c Q sys sys') (h : Kept Q sys.shared)
    (hk : ∀ p ∈ sys.running, p.Knows Q sys.shared) : (Kept Q sys'.shared ∧ ∀ p ∈ sys'.running, p.Knows Q sys'.shared) ∧
      ∀ endpoint event, ¬ Q endpoint event → postsOf endpoint event sys'.shared = postsOf endpoint event sys.shared := by
  have hrun := Interleaving.rely_on (C := Frame Q) (L := fun d p => p.Knows Q d)
    (I := fun d => Kept Q d ∧ ∀ endpoint event, ¬ Q endpoint event →
      postsOf endpoint event d = postsOf endpoint event sys.shared)
    (fun d d' p hf hp => hp.stable hf.grown)
    (fun d running d' p hi hs => by
      obtain ⟨hc, hp⟩ := hs.change hi.1
      obtain ⟨hkept, hframe⟩ := hc.keeps hi.1
      exact ⟨⟨hkept, fun endpoint event hq => (hframe.posts endpoint event hq).trans (hi.2 endpoint event hq)⟩, hframe, hp⟩)
    (fun d others p d' p' hi hp ha => by
      obtain ⟨hc, hp'⟩ := ha.change hi.1 hp
      obtain ⟨hkept, hframe⟩ := hc.keeps hi.1
      exact ⟨⟨hkept, fun endpoint event hq => (hframe.posts endpoint event hq).trans (hi.2 endpoint event hq)⟩, hframe, hp'⟩)
    ⟨⟨h, fun _ _ _ => rfl⟩, hk⟩ hsteps
  exact ⟨⟨hrun.1.1, hrun.2⟩, hrun.1.2⟩

theorem kept_empty (endpoints : List Endpoint) : Kept (fun _ _ => True) (empty endpoints) where
  ids := nodup_nil
  first := nofun
  next := nofun
  enqueued := nofun
  waiting := fun _ _ _ => trivial
  sent := fun _ _ hq => absurd trivial hq

theorem run_kept {endpoints : List Endpoint} {sys : Sys} (hrun : Run c endpoints sys) :
    Kept (fun _ _ => True) sys.shared ∧ ∀ p ∈ sys.running, p.Knows (fun _ _ => True) sys.shared :=
  (steps_keep hrun (kept_empty endpoints) nofun).1

end

end Webhook
end Armature
