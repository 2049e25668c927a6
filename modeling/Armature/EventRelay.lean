import Armature.GoText
import Armature.GroupStream
import Armature.Interleaving
import Mathlib.Data.Prod.Lex
/-!
# EventRelay — the outbox, the stream and its consumers (`events/relay.go`, `events/backlog.go`, `events/consumer.go`)

A relay reads the stream's groups one after another, trims below what they need, measures what is left, and moves as many
committed events from the outbox to the stream as there is room for.  A consumer reads or claims entries for its group,
handles them in order and acknowledges each that was handled or set aside.  Each command to Redis and each transaction is
one step; what only logs or measures is left out, and so are the waits between the steps.
-/
namespace Armature
namespace Events

open Go (Text)
open GroupStream (Stream)

structure Event where
  id : Nat
  topic : Text
  payload : Text
  trace : Text
  deriving DecidableEq

abbrev StreamID := Nat ×ₗ Nat

def compareIDs (a b : StreamID) : Ordering := (compare (ofLex a).1 (ofLex b).1).then (compare (ofLex a).2 (ofLex b).2)

/-! ## Trimming -/

structure GroupState where
  lastDelivered : StreamID
  pending : Nat
  oldestPending : Option StreamID

def needed (g : GroupState) : StreamID :=
  match g.oldestPending with
  | some oldest => if 0 < g.pending ∧ compareIDs oldest g.lastDelivered = .lt then oldest else g.lastDelivered
  | none => g.lastDelivered

def lower (floor : Option StreamID) (g : GroupState) : Option StreamID :=
  match floor with
  | none => some (needed g)
  | some f => if compareIDs (needed g) f = .lt then some (needed g) else some f

def oldestNeeded (groups : List GroupState) : Option StreamID := groups.foldl lower none

def room (backlog capacity batch : Nat) : Nat := if capacity ≤ backlog then 0 else min (capacity - backlog) batch

structure Relay where
  /-- The groups it waits for; all there are, where it has no list. -/
  groups : Option (List Text)
  batch : Nat
  maxLen : Nat

def Groups : List Text := ["audit", "automation", "desk-mail", "git-sync", "notify", "webhooks"].map String.toList

def newRelay : Relay := ⟨some Groups, 100, 10000⟩

def Relay.waitsFor (r : Relay) (g : Text) : Bool :=
  match r.groups with
  | none => true
  | some names => names.contains g

structure Info where
  name : Text
  lastDelivered : StreamID
  pending : Nat

inductive Pass where
  /-- To ask what the next group has pending, the groups read already. -/
  | reading (todo : List Info) (done : List GroupState)
  | trimming (floor : Option StreamID)
  | measuring
  /-- To claim up to a limit of events. -/
  | ready (limit : Nat)
  /-- To publish, in the transaction that claimed them; what it has published, and what it could not. -/
  | publishing (todo published : List Event) (failed : List (Event × Text))

/-! ## Consuming -/

abbrev Message := StreamID × Event

/-- What a consumer is about to do with the messages of one batch. -/
inductive Batch where
  | handling (group : Text) (msgs : List Message)
  /-- The handler gave up on the message, or failed. -/
  | failed (group : Text) (msg : Message) (isPermanent : Bool) (rest : List Message)
  | settingAside (group : Text) (msg : Message) (rest : List Message)
  | acking (group : Text) (msg : Message) (rest : List Message)

def afterFailure (maxDeliveries : Nat) (group : Text) (msg : Message) (isPermanent ended : Bool) (attempts : Option Nat)
    (rest : List Message) : Batch :=
  match attempts with
  | none => .handling group rest
  | some n =>
    if isPermanent || (maxDeliveries ≤ n && !ended) then .settingAside group msg rest else .handling group rest

/-! ## The data -/

structure Row where
  event : Event
  published : Bool
  attempts : Nat
  lastError : Option Text

structure Data where
  outbox : List Row
  stream : Stream StreamID Text Event
  /-- The dead letters: the group and the event's id. -/
  auditLog : List (Text × Nat)
  /-- What was ever put on the stream. -/
  appended : List Message
  /-- For which group the handler ever returned no error, and for which event. -/
  handled : List (Text × Event)

def mark (published : List Event) (failed : List (Event × Text)) (row : Row) : Row :=
  if row.event.id ∈ published.map Event.id then { row with published := true }
  else
    match failed.find? fun f => f.1.id = row.event.id with
    | some f => { row with attempts := row.attempts + 1, lastError := some f.2 }
    | none => row

def deadLetter (auditLog : List (Text × Nat)) (group : Text) (e : Event) : List (Text × Nat) :=
  if (group, e.id) ∈ auditLog then auditLog else auditLog ++ [(group, e.id)]

def infos (names : List Text) (s : Stream StreamID Text Event) : List Info :=
  names.map fun g => ⟨g, (s.groups g).lastDelivered, (s.groups g).pending.length⟩

inductive Process where
  | relay (p : Pass)
  | consumer (b : Batch)

def locked : List Process → List Event
  | [] => []
  | .relay (.publishing todo published failed) :: ps => todo ++ published ++ failed.map Prod.fst ++ locked ps
  | _ :: ps => locked ps

section
variable (relay : Relay) (names : List Text) (maxDeliveries : Nat)

/-- What starts: an event is committed, a relay reads the groups, a consumer reads or claims messages. -/
inductive Start (d : Data) : Data → Option Process → Prop where
  | emit (e : Event) : (∀ row ∈ d.outbox, row.event.id ≠ e.id) →
      Start d { d with outbox := d.outbox ++ [⟨e, false, 0, none⟩] } none
  | trim : Start d d (some (.relay (.reading (infos names d.stream) [])))
  | read (g : Text) (count : Nat) : g ∈ names →
      Start d { d with stream := (d.stream.read g count).2 } (some (.consumer (.handling g (d.stream.read g count).1)))
  | claim (g : Text) (idle : List StreamID) : g ∈ names →
      Start d { d with stream := (d.stream.claim g idle).2 } (some (.consumer (.handling g (d.stream.claim g idle).1)))

inductive RelayStep (d : Data) (others : List Process) : Pass → Data → Option Pass → Prop where
  | skip (info : Info) (todo : List Info) (done : List GroupState) : relay.waitsFor info.name = false →
      RelayStep d others (.reading (info :: todo) done) d (some (.reading todo done))
  | idle (info : Info) (todo : List Info) (done : List GroupState) : relay.waitsFor info.name = true → info.pending = 0 →
      RelayStep d others (.reading (info :: todo) done) d (some (.reading todo (done ++ [⟨info.lastDelivered, 0, none⟩])))
  /-- `XPENDING`. -/
  | ask (info : Info) (todo : List Info) (done : List GroupState) : relay.waitsFor info.name = true → info.pending ≠ 0 →
      RelayStep d others (.reading (info :: todo) done) d (some (.reading todo (done ++
        [⟨info.lastDelivered, (d.stream.groups info.name).pending.length, d.stream.oldestPending info.name⟩])))
  | read (done : List GroupState) : RelayStep d others (.reading [] done) d (some (.trimming (oldestNeeded done)))
  /-- `XTRIM MAXLEN ~`: where no group reads, the oldest beyond the cap may go. -/
  | cap (n : Nat) : n ≤ d.stream.entries.length - relay.maxLen →
      RelayStep d others (.trimming none) { d with stream := d.stream.trimOldest n } (some (.ready (room 0 relay.maxLen relay.batch)))
  | trim (floor : StreamID) :
      RelayStep d others (.trimming (some floor)) { d with stream := d.stream.trimMinID floor } (some .measuring)
  | measure :
      RelayStep d others .measuring d (some (.ready (room d.stream.entries.length relay.maxLen relay.batch)))
  /-- A command failed, before or after Redis carried it out. -/
  | notTrimmed (p : Pass) (d' : Data) :
      (∀ todo published failed, p ≠ .publishing todo published failed) →
      (d' = d ∨ (∃ floor, p = .trimming (some floor) ∧ d' = { d with stream := d.stream.trimMinID floor }) ∨
        ∃ n ≤ d.stream.entries.length - relay.maxLen, p = .trimming none ∧ d' = { d with stream := d.stream.trimOldest n }) →
      RelayStep d others p d' (some (.ready relay.batch))
  /-- `FOR UPDATE SKIP LOCKED`. -/
  | lock (limit : Nat) (events : List Event) : events.length ≤ limit → events.Nodup →
      (∀ e ∈ events, e ∉ locked others ∧ ∃ row ∈ d.outbox, row.event = e ∧ row.published = false) →
      RelayStep d others (.ready limit) d (some (.publishing events [] []))
  /-- `XADD`, under an id that Redis makes up. -/
  | publish (id : StreamID) (e : Event) (todo published : List Event) (failed : List (Event × Text)) : d.stream.lastID < id →
      RelayStep d others (.publishing (e :: todo) published failed)
        { d with stream := d.stream.add id e, appended := d.appended ++ [(id, e)] }
        (some (.publishing todo (published ++ [e]) failed))
  /-- It failed, before or after Redis carried it out. -/
  | notPublished (error : Text) (e : Event) (todo published : List Event) (failed : List (Event × Text)) (d' : Data) :
      (d' = d ∨ ∃ id, d.stream.lastID < id ∧
        d' = { d with stream := d.stream.add id e, appended := d.appended ++ [(id, e)] }) →
      RelayStep d others (.publishing (e :: todo) published failed) d' (some (.publishing todo published (failed ++ [(e, error)])))
  /-- The transaction commits, and the pass is over. -/
  | commit (published : List Event) (failed : List (Event × Text)) :
      RelayStep d others (.publishing [] published failed) { d with outbox := d.outbox.map (mark published failed) } none

inductive ConsumerStep (d : Data) : Batch → Data → Batch → Prop where
  | succeed (g : Text) (m : Message) (rest : List Message) :
      ConsumerStep d (.handling g (m :: rest)) { d with handled := d.handled ++ [(g, m.2)] } (.acking g m rest)
  | fail (g : Text) (m : Message) (isPermanent : Bool) (rest : List Message) :
      ConsumerStep d (.handling g (m :: rest)) d (.failed g m isPermanent rest)
  | deliveries (g : Text) (m : Message) (isPermanent ended : Bool) (rest : List Message) :
      ConsumerStep d (.failed g m isPermanent rest) d
        (afterFailure maxDeliveries g m isPermanent ended (d.stream.deliveries g m.1) rest)
  | notCounted (g : Text) (m : Message) (isPermanent ended : Bool) (rest : List Message) :
      ConsumerStep d (.failed g m isPermanent rest) d (afterFailure maxDeliveries g m isPermanent ended none rest)
  | setAside (g : Text) (m : Message) (rest : List Message) :
      ConsumerStep d (.settingAside g m rest) { d with auditLog := deadLetter d.auditLog g m.2 } (.acking g m rest)
  /-- The record failed, before or after it was committed. -/
  | notRecorded (g : Text) (m : Message) (rest : List Message) (d' : Data) :
      (d' = d ∨ d' = { d with auditLog := deadLetter d.auditLog g m.2 }) →
      ConsumerStep d (.settingAside g m rest) d' (.handling g rest)
  | ack (g : Text) (m : Message) (rest : List Message) :
      ConsumerStep d (.acking g m rest) { d with stream := d.stream.ack g m.1 } (.handling g rest)
  | notAcked (g : Text) (m : Message) (rest : List Message) : ConsumerStep d (.acking g m rest) d (.handling g rest)

inductive Act (d : Data) (others : List Process) : Process → Data → Option Process → Prop where
  | relay {p : Pass} {p' : Option Pass} {d' : Data} : RelayStep relay d others p d' p' →
      Act d others (.relay p) d' (p'.map Process.relay)
  | consumer {b b' : Batch} {d' : Data} : ConsumerStep maxDeliveries d b d' b' →
      Act d others (.consumer b) d' (some (.consumer b'))

end

def nothing : Data where
  outbox := []
  stream := ⟨[], toLex (0, 0), fun _ => ⟨toLex (0, 0), []⟩⟩
  auditLog := []
  appended := []
  handled := []

def Run (relay : Relay) (names : List Text) (maxDeliveries : Nat) : Interleaving.System Data Process → Prop :=
  Interleaving.Run (fun d _ d' p => Start names d d' p) (Act relay maxDeliveries) nothing

end Events
end Armature
