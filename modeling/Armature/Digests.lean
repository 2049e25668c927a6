import Armature.FanOut
import Armature.Locking
import Armature.Subscriptions
/-!
# Digests — a bundle loses and repeats nothing (`notify/digest.go`, `notify/fanout.go`)

A pass reads the clock once and then sends each person's bundle: it reads what is queued, and in a transaction moves the
record of the last bundle on where that is what it had read, takes the listed rows out of the queue and mails them.  Where
there is a mailer and nobody who turned the digest off is sent a bundle on a reading no later than the record, bundles lose
and repeat nothing (`bundles_apart`).
-/
namespace Armature
namespace Digests

open List
open Notify (Id Kind Preferences Digest)
open Subscriptions (Location hourLen scheduled stored le_stored)
open Interleaving (Unlocked)

theorem dailyDigestHour_lt : 8 < 24 := by decide

def dailyDigestHour : Subscriptions.Schedule := ⟨⟨8, dailyDigestHour_lt⟩, none⟩

def zeroTime : Int := 0

def today (z : Location) (now : Int) : Int := scheduled z dailyDigestHour (z.zone.dayOf now)

def due (z : Location) (digest : Digest) (last now : Int) : Bool :=
  match digest with
  | .hourly => decide (hourLen ≤ now - last)
  | .daily => decide (today z now ≤ now) && decide (last < today z now)
  | .off => true

abbrev Note := Id × Kind

structure Bundle where
  time : Int
  digest : Digest
  items : List Note

structure Person where
  preferences : Preferences
  /-- `notification`. -/
  rows : List Note
  /-- `notification_digest`. -/
  queue : List Note
  /-- `last_sent_at`. -/
  lastSent : Option Int
  /-- What was ever queued, and the bundles.  The code keeps neither. -/
  queued : List Note
  bundles : List Bundle

abbrev Data := Id → Person

def signedUp (prefs : Id → Preferences) : Data := fun u => ⟨prefs u, [], [], none, [], []⟩

def deliver (mailer : Bool) (eventID : Id) (kind : Kind) (byDesk : Bool) (prefs : Preferences) (p : Person) : Person :=
  let mails := prefs.mails kind && !byDesk && mailer
  if !prefs.shows kind && !mails then p
  else if (eventID, kind) ∈ p.rows then p
  else
    let p := { p with rows := (eventID, kind) :: p.rows }
    if mails && prefs.digest ≠ .off then
      { p with queue := p.queue ++ [(eventID, kind)], queued := (eventID, kind) :: p.queued }
    else p

/-! ## Passes -/

/-- A worker's pass: where and when it reads the clock, and whom it still sends to. -/
structure Pass where
  /-- Whether the worker has a mailer. -/
  mailer : Bool
  zone : Location
  now : Int
  left : List Id

/-- What `send` reads of a person. -/
structure Read where
  user : Id
  digest : Digest
  last : Option Int
  items : List Note

inductive Work where
  /-- A delivery that has read the preferences. -/
  | telling (mailer : Bool) (user eventID : Id) (kind : Kind) (byDesk : Bool) (prefs : Preferences)
  /-- A pass that has found whom to send to. -/
  | found (mailer : Bool) (zone : Location) (users : List Id)
  | next (b : Pass)
  | prefers (b : Pass) (user : Id) (digest : Digest)
  | recorded (b : Pass) (user : Id) (digest : Digest) (last : Option Int)
  | due (b : Pass) (r : Read)
  /-- The record is moved on, and its row locked. -/
  | claimed (b : Pass) (r : Read)
  | mailed (b : Pass) (r : Read)

def holds : Work → Id → Prop
  | .claimed _ r, u => r.user = u
  | .mailed _ r, u => r.user = u
  | _, _ => False

def Person.without (p : Person) (items : List Note) : List Note := p.queue.filter fun n => decide (n ∉ items)

def Person.sent (p : Person) (b : Pass) (r : Read) : Person :=
  { p with lastSent := some (stored b.now), queue := p.without r.items }

def Person.bundled (p : Person) (b : Pass) (r : Read) : Person :=
  { p.sent b r with bundles := ⟨stored b.now, r.digest, r.items⟩ :: p.bundles }

/-- `workers` says which workers make passes: those with a mailer, those without. -/
inductive Start (workers : Bool → Prop) : Data → List Work → Data → Option Work → Prop where
  /-- `SavePreferences`. -/
  | prefer (d : Data) (running : List Work) (user : Id) (prefs : Preferences) :
      Start workers d running (Function.update d user { d user with preferences := prefs }) none
  | deliver (d : Data) (running : List Work) (mailer : Bool) (user eventID : Id) (kind : Kind) (byDesk : Bool) :
      Start workers d running d (some (.telling mailer user eventID kind byDesk (d user).preferences))
  | pass {d : Data} {running : List Work} (mailer : Bool) (zone : Location) (users : List Id) : workers mailer → users.Nodup →
      (∀ u, u ∈ users ↔ (d u).queue ≠ []) → Start workers d running d (some (.found mailer zone users))

/-- `late` says on which records and readings a bundle is due to somebody whose digest is off. -/
inductive Act (late : Option Int → Int → Prop) : Data → List Work → Work → Data → Option Work → Prop where
  | tell {d : Data} {others : List Work} {mailer : Bool} {user eventID : Id} {kind : Kind} {byDesk : Bool} {prefs : Preferences} :
      Act late d others (.telling mailer user eventID kind byDesk prefs)
        (Function.update d user (deliver mailer eventID kind byDesk prefs (d user))) none
  | clock {d : Data} {others : List Work} {mailer : Bool} {zone : Location} {users : List Id} (now : Int) :
      Act late d others (.found mailer zone users) d (some (.next ⟨mailer, zone, now, users⟩))
  | finish {d : Data} {others : List Work} {mailer : Bool} {zone : Location} {now : Int} :
      Act late d others (.next ⟨mailer, zone, now, []⟩) d none
  | prefers {d : Data} {others : List Work} {mailer : Bool} {zone : Location} {now : Int} {user : Id} {users : List Id} :
      Act late d others (.next ⟨mailer, zone, now, user :: users⟩) d
        (some (.prefers ⟨mailer, zone, now, users⟩ user (d user).preferences.digest))
  | recorded {d : Data} {others : List Work} {b : Pass} {user : Id} {digest : Digest} :
      Act late d others (.prefers b user digest) d (some (.recorded b user digest (d user).lastSent))
  | due {d : Data} {others : List Work} {b : Pass} {user : Id} {digest : Digest} {last : Option Int} :
      (d user).queue ≠ [] → due b.zone digest (last.getD zeroTime) b.now = true → (digest = .off → late last b.now) →
      Act late d others (.recorded b user digest last) d (some (.due b ⟨user, digest, last, (d user).queue⟩))
  | notDue {d : Data} {others : List Work} {b : Pass} {user : Id} {digest : Digest} {last : Option Int} :
      (d user).queue = [] ∨ due b.zone digest (last.getD zeroTime) b.now = false →
      Act late d others (.recorded b user digest last) d (some (.next b))
  /-- The record is free, and is not there or says what was read. -/
  | claim {d : Data} {others : List Work} {b : Pass} {r : Read} : Unlocked holds others r.user →
      (d r.user).lastSent = none ∨ (d r.user).lastSent = r.last → Act late d others (.due b r) d (some (.claimed b r))
  | unclaimed {d : Data} {others : List Work} {b : Pass} {r : Read} : Unlocked holds others r.user →
      (d r.user).lastSent ≠ none → (d r.user).lastSent ≠ r.last → Act late d others (.due b r) d (some (.next b))
  | accepted {d : Data} {others : List Work} {b : Pass} {r : Read} : b.mailer = true →
      Act late d others (.claimed b r) d (some (.mailed b r))
  | commit {d : Data} {others : List Work} {b : Pass} {r : Read} :
      Act late d others (.mailed b r) (Function.update d r.user ((d r.user).bundled b r)) (some (.next b))
  /-- Without a mailer the rows are taken out all the same. -/
  | unmailed {d : Data} {others : List Work} {b : Pass} {r : Read} : b.mailer = false →
      Act late d others (.claimed b r) (Function.update d r.user ((d r.user).sent b r)) (some (.next b))
  /-- An error, a mail refused or a commit that fails among them: the pass goes on to the next person. -/
  | failedPreferences {d : Data} {others : List Work} {mailer : Bool} {zone : Location} {now : Int} {user : Id} {users : List Id} :
      Act late d others (.next ⟨mailer, zone, now, user :: users⟩) d (some (.next ⟨mailer, zone, now, users⟩))
  | failedRecord {d : Data} {others : List Work} {b : Pass} {user : Id} {digest : Digest} :
      Act late d others (.prefers b user digest) d (some (.next b))
  | failedItems {d : Data} {others : List Work} {b : Pass} {user : Id} {digest : Digest} {last : Option Int} :
      Act late d others (.recorded b user digest last) d (some (.next b))
  | failedClaim {d : Data} {others : List Work} {b : Pass} {r : Read} : Act late d others (.due b r) d (some (.next b))
  | refused {d : Data} {others : List Work} {b : Pass} {r : Read} : Act late d others (.claimed b r) d (some (.next b))
  | failedCommit {d : Data} {others : List Work} {b : Pass} {r : Read} : Act late d others (.mailed b r) d (some (.next b))

abbrev RunWhere (workers : Bool → Prop) (late : Option Int → Int → Prop) (prefs : Id → Preferences)
    (sys : Interleaving.System Data Work) : Prop :=
  Interleaving.Run (Start workers) (Act late) (signedUp prefs) sys

abbrev Run (prefs : Id → Preferences) (sys : Interleaving.System Data Work) : Prop :=
  RunWhere (fun _ => True) (fun _ _ => True) prefs sys

abbrev Mails (mailer : Bool) : Prop := mailer = true

def Later (last : Option Int) (now : Int) : Prop := ∀ l ∈ last, l < stored now

/-- Nothing queued is lost, nothing is listed twice, and hourly bundles are an hour apart. -/
structure Person.Served (p : Person) : Prop where
  reached : ∀ n ∈ p.queued, n ∈ p.queue ∨ ∃ b ∈ p.bundles, n ∈ b.items
  once : p.bundles.Pairwise fun a b => ∀ n ∈ a.items, n ∉ b.items
  apart : p.bundles.Pairwise fun a b => a.digest = .hourly → b.digest = .hourly → hourLen ≤ |a.time - b.time|

/-! ## Times -/

theorem stored_stored (t : Int) : stored (stored t) = stored t := by
  unfold stored
  omega

theorem le_stored_of_le {l t : Int} (hl : stored l = l) (h : l ≤ t) : l ≤ stored t := by
  unfold stored at hl ⊢
  omega

variable {z : Location} {now : Int} {last : Option Int} {mine : Id → Prop} {d d' : Data} {u : Id} {p : Person}
  {items : List Note}

theorem today_le_stored (h : today z now ≤ now) : today z now ≤ stored now := le_stored.1 h

theorem later_of_due {digest : Digest} (hmicro : ∀ l ∈ last, stored l = l)
    (hdue : due z digest (last.getD zeroTime) now = true) (hlate : digest = .off → Later last now) : Later last now := by
  intro l hl
  obtain rfl := Option.mem_def.1 hl
  cases digest with
  | off => exact hlate rfl l rfl
  | hourly =>
    have hhour : hourLen ≤ now - l := of_decide_eq_true hdue
    have hpos : 0 < hourLen := by decide
    have hmicros : (1000 : Int) ∣ hourLen := by decide
    have hwhole : stored (l + hourLen) = l + hourLen := by
      have := hmicro l rfl
      unfold stored at this ⊢
      omega
    have := le_stored_of_le hwhole (t := now) (by omega)
    omega
  | daily =>
    obtain ⟨hcome, hbefore⟩ := Bool.and_eq_true_iff.1 hdue
    exact lt_of_lt_of_le (of_decide_eq_true hbefore) (today_le_stored (of_decide_eq_true hcome))

theorem hour_of_due (hmicro : ∀ l ∈ last, stored l = l)
    (hdue : due z .hourly (last.getD zeroTime) now = true) : ∀ l ∈ last, l + hourLen ≤ stored now := by
  intro l hl
  obtain rfl := Option.mem_def.1 hl
  have hhour : hourLen ≤ now - l := of_decide_eq_true hdue
  refine le_stored_of_le ?_ (by omega)
  have hmicros : (1000 : Int) ∣ hourLen := by decide
  have := hmicro l rfl
  unfold stored at this ⊢
  omega

/-! ## What is kept -/

structure Person.Kept (p : Person) : Prop extends p.Served where
  queueRows : p.queue ⊆ p.rows
  bundleRows : ∀ b ∈ p.bundles, b.items ⊆ p.rows
  gone : ∀ b ∈ p.bundles, ∀ n ∈ b.items, n ∉ p.queue
  onRecord : ∀ b ∈ p.bundles, ∃ l ∈ p.lastSent, b.time ≤ l
  micro : ∀ l ∈ p.lastSent, stored l = l

theorem kept_new (prefs : Preferences) : Person.Kept ⟨prefs, [], [], none, [], []⟩ where
  reached _ hn := absurd hn not_mem_nil
  once := List.Pairwise.nil
  apart := List.Pairwise.nil
  queueRows := List.Subset.refl _
  bundleRows _ hb := absurd hb not_mem_nil
  gone _ hb := absurd hb not_mem_nil
  onRecord _ hb := absurd hb not_mem_nil
  micro _ hl := absurd hl (Option.not_mem_none _)

def Upto (last last' : Option Int) : Prop := ∀ l ∈ last, ∃ l' ∈ last', l ≤ l'

def Moves (p p' : Person) : Prop := (∀ l ∈ p.lastSent, ∃ l' ∈ p'.lastSent, l < l') ∧ p'.lastSent ≠ none

def Stays (p p' : Person) : Prop := p'.lastSent = p.lastSent ∧ p.queue ⊆ p'.queue

def Changes (mine : Id → Prop) (d d' : Data) : Prop := ∀ u, Stays (d u) (d' u) ∨ (mine u ∧ Moves (d u) (d' u))

theorem changes_refl (mine : Id → Prop) (d : Data) : Changes mine d d := fun _ => .inl ⟨rfl, List.Subset.refl _⟩

theorem changes_update (h : Stays (d u) p ∨ (mine u ∧ Moves (d u) p)) :
    Changes mine d (Function.update d u p) := by
  intro v
  by_cases hv : v = u
  · subst hv
    rwa [Function.update_self]
  · rw [Function.update_of_ne hv]
    exact changes_refl mine d v

theorem kept_update (h : ∀ v, (d v).Kept) (hp : p.Kept) (v : Id) :
    (Function.update d u p v).Kept := by
  by_cases hv : v = u
  · subst hv
    rwa [Function.update_self]
  · rw [Function.update_of_ne hv]
    exact h v

structure Known (p : Person) (last : Option Int) (items : List Note) : Prop where
  upto : Upto last p.lastSent
  micro : ∀ l ∈ last, stored l = l
  /-- Where the record is still the same, so is what was listed. -/
  there : p.lastSent = last → items ⊆ p.queue

structure Timely (now : Int) (r : Read) : Prop where
  later : Later r.last now
  hour : r.digest = .hourly → ∀ l ∈ r.last, l + hourLen ≤ stored now

def Mailing : Work → Prop
  | .telling .. => True
  | .found mailer _ _ => Mails mailer
  | .next b | .prefers b _ _ | .recorded b _ _ _ | .due b _ | .claimed b _ | .mailed b _ => Mails b.mailer

def Informed (d : Data) : Work → Prop
  | .recorded _ u _ last => Known (d u) last []
  | .due b r => Known (d r.user) r.last r.items ∧ Timely b.now r
  | .claimed b r | .mailed b r => (d r.user).lastSent = r.last ∧ r.items ⊆ (d r.user).queue ∧ Timely b.now r
  | _ => True

def Relies (d : Data) (w : Work) : Prop := Mailing w ∧ Informed d w

theorem Known.stays {p' : Person} (h : Known p last items) (hs : Stays p p') :
    Known p' last items where
  upto l hl := by
    obtain ⟨l', hl', hle⟩ := h.upto l hl
    exact ⟨l', hs.1 ▸ hl', hle⟩
  micro := h.micro
  there he := List.Subset.trans (h.there (hs.1 ▸ he)) hs.2

theorem Known.moves {p' : Person} (h : Known p last items) (hm : Moves p p') :
    Known p' last items where
  upto l hl := by
    obtain ⟨l', hl', hle⟩ := h.upto l hl
    obtain ⟨l'', hl'', hlt⟩ := hm.1 l' hl'
    exact ⟨l'', hl'', hle.trans hlt.le⟩
  micro := h.micro
  there he := by
    obtain ⟨l, hl⟩ := Option.ne_none_iff_exists'.1 hm.2
    obtain ⟨l', hl', hle⟩ := h.upto l (he ▸ hl)
    obtain ⟨l'', hl'', hlt⟩ := hm.1 l' hl'
    rw [hl] at hl''
    obtain rfl := Option.some.inj hl''
    omega

theorem Known.changes
    (h : Known (d u) last items) (hc : Changes mine d d') : Known (d' u) last items := by
  rcases hc u with hs | ⟨-, hm⟩
  · exact h.stays hs
  · exact h.moves hm

theorem Informed.stable {w : Work} (hc : Changes mine d d')
    (hfree : ∀ u, holds w u → ¬ mine u) (h : Informed d w) : Informed d' w := by
  have hlocked : ∀ {b : Pass} {r : Read}, ¬ mine r.user →
      (d r.user).lastSent = r.last ∧ r.items ⊆ (d r.user).queue ∧ Timely b.now r →
      (d' r.user).lastSent = r.last ∧ r.items ⊆ (d' r.user).queue ∧ Timely b.now r := by
    rintro b r hmine ⟨hlast, hitems, htimely⟩
    rcases hc r.user with hs | ⟨hm, -⟩
    · exact ⟨hs.1.trans hlast, List.Subset.trans hitems hs.2, htimely⟩
    · exact absurd hm hmine
  cases w with
  | recorded => exact h.changes hc
  | due => exact ⟨h.1.changes hc, h.2⟩
  | claimed b r => exact hlocked (hfree r.user rfl) h
  | mailed b r => exact hlocked (hfree r.user rfl) h
  | telling | found | next | prefers => trivial

theorem Person.Kept.deliver (h : p.Kept) (mailer : Bool) (eventID : Id) (kind : Kind) (byDesk : Bool)
    (prefs : Preferences) :
    (deliver mailer eventID kind byDesk prefs p).Kept ∧ Stays p (deliver mailer eventID kind byDesk prefs p) := by
  unfold Digests.deliver
  dsimp only
  split
  · exact ⟨h, rfl, List.Subset.refl _⟩
  · split
    · exact ⟨h, rfl, List.Subset.refl _⟩
    · rename_i hnew
      have hbundles : ∀ b ∈ p.bundles, b.items ⊆ (eventID, kind) :: p.rows := fun b hb =>
        subset_cons_of_subset _ (h.bundleRows b hb)
      split
      · refine ⟨⟨⟨fun n hn => ?_, h.once, h.apart⟩, ?_, hbundles, fun b hb n hn hq => ?_, h.onRecord, h.micro⟩,
          rfl, subset_append_left _ _⟩
        · rcases mem_cons.1 hn with rfl | hn
          · exact .inl (mem_append_right _ (mem_singleton_self _))
          · exact (h.reached n hn).imp (mem_append_left _) id
        · exact append_subset.2 ⟨subset_cons_of_subset _ h.queueRows,
            cons_subset.2 ⟨mem_cons_self, nil_subset _⟩⟩
        · rcases mem_append.1 hq with hq | hq
          · exact h.gone b hb n hn hq
          · exact hnew (mem_singleton.1 hq ▸ h.bundleRows b hb hn)
      · exact ⟨⟨⟨h.reached, h.once, h.apart⟩, subset_cons_of_subset _ h.queueRows, hbundles, h.gone, h.onRecord,
          h.micro⟩, rfl, List.Subset.refl _⟩

theorem Person.Kept.bundled (h : p.Kept) {b : Pass} {r : Read} (hlast : p.lastSent = r.last)
    (hitems : r.items ⊆ p.queue) (ht : Timely b.now r) : (p.bundled b r).Kept ∧ Moves p (p.bundled b r) := by
  have hlater : ∀ c ∈ p.bundles, c.time < stored b.now := fun c hc => by
    obtain ⟨l, hl, hle⟩ := h.onRecord c hc
    exact lt_of_le_of_lt hle (ht.later l (hlast ▸ hl))
  have hleft : ∀ {n}, n ∈ p.without r.items ↔ n ∈ p.queue ∧ n ∉ r.items := fun {n} => by
    unfold Person.without
    rw [mem_filter, decide_eq_true_iff]
  refine ⟨⟨⟨fun n hn => ?_, ?_, ?_⟩, fun n hn => ?_, fun c hc => ?_, fun c hc n hn hq => ?_, fun c hc => ?_, fun l hl => ?_⟩,
    fun l hl => ⟨_, rfl, ht.later l (hlast ▸ hl)⟩, Option.some_ne_none _⟩
  · rcases h.reached n hn with hq | ⟨c, hc, hin⟩
    · by_cases hr : n ∈ r.items
      · exact .inr ⟨_, mem_cons_self, hr⟩
      · exact .inl (hleft.2 ⟨hq, hr⟩)
    · exact .inr ⟨c, mem_cons_of_mem _ hc, hin⟩
  · exact pairwise_cons.2 ⟨fun c hc n hn hin => h.gone c hc n hin (hitems hn), h.once⟩
  · refine pairwise_cons.2 ⟨fun c hc hhour _ => ?_, h.apart⟩
    obtain ⟨l, hl, hle⟩ := h.onRecord c hc
    have := ht.hour hhour l (hlast ▸ hl)
    exact le_abs.2 (.inl (by dsimp only; omega))
  · exact h.queueRows (hleft.1 hn).1
  · rcases mem_cons.1 hc with rfl | hc
    · exact List.Subset.trans hitems h.queueRows
    · exact h.bundleRows c hc
  · rcases mem_cons.1 hc with rfl | hc
    · exact (hleft.1 hq).2 hn
    · exact h.gone c hc n hn (hleft.1 hq).1
  · refine ⟨_, rfl, ?_⟩
    rcases mem_cons.1 hc with rfl | hc
    · exact le_rfl
    · exact (hlater c hc).le
  · obtain rfl := Option.some.inj hl
    exact stored_stored _

theorem act_keeps {others : List Work} {w : Work} {w' : Option Work} (h : ∀ u, (d u).Kept) (hw : Relies d w)
    (ha : Act Later d others w d' w') :
    (∀ u, (d' u).Kept) ∧ Changes (holds w) d d' ∧
      ∀ q ∈ w', Relies d' q ∧ ∀ u, holds q u → holds w u ∨ Unlocked holds others u := by
  have hsame : ∀ {q : Work}, Mailing q → Informed d q → (∀ u, holds q u → holds w u ∨ Unlocked holds others u) →
      (∀ u, (d u).Kept) ∧ Changes (holds w) d d ∧
        ∀ q' ∈ some q, Relies d q' ∧ ∀ u, holds q' u → holds w u ∨ Unlocked holds others u := by
    intro q hmails hq hheld
    refine ⟨h, changes_refl _ d, fun q' hq' => ?_⟩
    obtain rfl := Option.some.inj hq'
    exact ⟨⟨hmails, hq⟩, hheld⟩
  obtain ⟨hmails, hw⟩ := hw
  cases ha with
  | @tell mailer user eventID kind byDesk prefs =>
    obtain ⟨hkept, hstays⟩ := (h user).deliver mailer eventID kind byDesk prefs
    exact ⟨kept_update h hkept, changes_update (.inl hstays), nofun⟩
  | clock => exact hsame hmails trivial fun u hu => absurd hu id
  | finish => exact ⟨h, changes_refl _ d, nofun⟩
  | prefers => exact hsame hmails trivial fun u hu => absurd hu id
  | @recorded b user digest =>
    exact hsame hmails ⟨fun l hl => ⟨l, hl, le_rfl⟩, (h user).micro, fun _ => nil_subset _⟩ fun u hu => absurd hu id
  | @due b user digest last hqueue hdue hlate =>
    have hk : Known (d user) last [] := hw
    refine hsame hmails ⟨⟨hk.upto, hk.micro, fun _ => List.Subset.refl _⟩, later_of_due hk.micro hdue hlate, fun hhour => ?_⟩
      fun u hu => absurd hu id
    dsimp only at hhour
    subst hhour
    exact hour_of_due hk.micro hdue
  | notDue => exact hsame hmails trivial fun u hu => absurd hu id
  | @claim b r hfree hrecord =>
    obtain ⟨hk, ht⟩ := hw
    have hlast : (d r.user).lastSent = r.last := by
      refine hrecord.elim (fun hnone => ?_) id
      rw [hnone]
      refine (Option.eq_none_iff_forall_not_mem.2 fun l hl => ?_).symm
      obtain ⟨l', hl', -⟩ := hk.upto l hl
      rw [hnone] at hl'
      exact Option.not_mem_none _ hl'
    refine hsame hmails ⟨hlast, hk.there hlast, ht⟩ fun u hu => .inr ?_
    obtain rfl : r.user = u := hu
    exact hfree
  | unclaimed => exact hsame hmails trivial fun u hu => absurd hu id
  | accepted => exact hsame hmails hw fun u hu => .inl hu
  | @commit b r =>
    obtain ⟨hlast, hitems, ht⟩ := hw
    obtain ⟨hkept, hmoves⟩ := (h r.user).bundled hlast hitems ht
    refine ⟨kept_update h hkept, changes_update (.inr ⟨rfl, hmoves⟩), fun q hq => ?_⟩
    obtain rfl := Option.some.inj hq
    exact ⟨⟨hmails, trivial⟩, fun u hu => absurd hu id⟩
  | unmailed hno => exact absurd hmails (by rw [Mailing, hno]; exact Bool.false_ne_true)
  | failedPreferences | failedRecord | failedItems | failedClaim | refused | failedCommit =>
    exact hsame hmails trivial fun u hu => absurd hu id

/-- **A digest loses and repeats nothing** where every pass has a mailer and finds its bundles due on a reading later than
the record. -/
theorem bundles_apart {prefs : Id → Preferences} {sys : Interleaving.System Data Work} (h : RunWhere Mails Later prefs sys)
    (u : Id) : (sys.shared u).Served := by
  have hstable : ∀ (mine : Id → Prop) (d d' : Data) (w : Work), Changes mine d d' → (∀ row, holds w row → ¬ mine row) →
      Relies d w → Relies d' w := fun mine d d' w hc hfree hl => ⟨hl.1, hl.2.stable hc hfree⟩
  refine ((Interleaving.Run.locked (I := fun d : Data => ∀ u, (d u).Kept) hstable ?_ (fun d l r w d' w' _ hi hl ha =>
      act_keeps hi (hl w (mem_append_right _ mem_cons_self)) ha) (fun u => kept_new _) h).1 u).toServed
  intro d running d' w hi hs
  cases hs with
  | prefer user prefs =>
    have hkept : Person.Kept { d user with preferences := prefs } := by
      have hu := hi user
      exact ⟨⟨hu.reached, hu.once, hu.apart⟩, hu.queueRows, hu.bundleRows, hu.gone, hu.onRecord, hu.micro⟩
    exact ⟨kept_update hi hkept, changes_update (.inl ⟨rfl, List.Subset.refl _⟩), nofun⟩
  | deliver =>
    refine ⟨hi, changes_refl _ d, fun q hq => ?_⟩
    obtain rfl := Option.some.inj hq
    exact ⟨⟨trivial, trivial⟩, fun u hu => hu⟩
  | pass mailer zone users hworker =>
    refine ⟨hi, changes_refl _ d, fun q hq => ?_⟩
    obtain rfl := Option.some.inj hq
    exact ⟨⟨hworker, trivial⟩, fun u hu => hu⟩

/-! ## A person's runs -/

def hourly : Preferences := { Notify.defaultPreferences with digest := .hourly }

def one (p : Person) : Data := Function.update (signedUp fun _ => hourly) 1 p

def person : Person := signedUp (fun _ => hourly) 1

theorem one_update (p q : Person) : Function.update (one p) 1 q = one q := Function.update_idem _ _ _

theorem one_self (p : Person) : one p 1 = p := Function.update_self _ _ _

section
variable {workers : Bool → Prop} {late : Option Int → Int → Prop} {p : Person} {others : List Work}

theorem signed_run : RunWhere workers late (fun _ => hourly) ⟨one person, []⟩ := by
  have h : one person = signedUp fun _ => hourly := Function.update_eq_self _ _
  rw [h]
  exact Interleaving.Run.begin _

theorem told_run (eventID : Id) (kind : Kind) (h : RunWhere workers late (fun _ => hourly) ⟨one p, others⟩) :
    RunWhere workers late (fun _ => hourly) ⟨one (deliver true eventID kind false p.preferences p), others⟩ := by
  have h₁ := h.start _ (.deliver _ _ true 1 eventID kind false)
  have h₂ := h₁.act [] _ .tell
  rwa [one_self, one_update] at h₂

theorem prefer_run (digest : Digest) (h : RunWhere workers late (fun _ => hourly) ⟨one p, others⟩) :
    RunWhere workers late (fun _ => hourly) ⟨one { p with preferences := { hourly with digest := digest } }, others⟩ := by
  have h₁ := h.start _ (.prefer _ _ 1 { hourly with digest := digest })
  rwa [one_self, one_update] at h₁

theorem found_run (mailer : Bool) (now : Int) (hworker : workers mailer) (hqueue : p.queue ≠ [])
    (h : RunWhere workers late (fun _ => hourly) ⟨one p, others⟩) :
    RunWhere workers late (fun _ => hourly) ⟨one p, .next ⟨mailer, Subscriptions.utc, now, [1]⟩ :: others⟩ := by
  have hfound : ∀ u, u ∈ [1] ↔ (one p u).queue ≠ [] := fun u => by
    by_cases hu : u = 1
    · subst hu
      rw [one_self]
      exact iff_of_true (mem_singleton_self _) hqueue
    · unfold one
      rw [Function.update_of_ne hu]
      exact iff_of_false (fun hin => hu (mem_singleton.1 hin)) fun hne => hne rfl
  exact (h.start _ (.pass mailer Subscriptions.utc [1] hworker (nodup_singleton 1) hfound)).act [] _ (.clock now)

theorem claimed_run {b : Pass} {users : List Id} (hleft : b.left = 1 :: users) (hqueue : p.queue ≠ [])
    (hdue : due b.zone p.preferences.digest (p.lastSent.getD zeroTime) b.now = true)
    (hlate : p.preferences.digest = .off → late p.lastSent b.now) (hfree : Unlocked holds others 1)
    (h : RunWhere workers late (fun _ => hourly) ⟨one p, .next b :: others⟩) :
    RunWhere workers late (fun _ => hourly)
      ⟨one p, .claimed { b with left := users } ⟨1, p.preferences.digest, p.lastSent, p.queue⟩ :: others⟩ := by
  obtain ⟨mailer, zone, now, left⟩ := b
  dsimp only at hleft
  subst hleft
  have h₁ := h.act [] _ .prefers
  have h₂ := h₁.act [] _ .recorded
  rw [one_self] at h₂
  have h₃ := h₂.act [] _ (.due (by rwa [one_self]) hdue hlate)
  rw [one_self] at h₃
  exact h₃.act [] _ (.claim hfree (by rw [one_self]; exact .inr rfl))

theorem sent_run {b : Pass} {users : List Id} (hleft : b.left = 1 :: users) (hmailer : b.mailer = true) (hqueue : p.queue ≠ [])
    (hdue : due b.zone p.preferences.digest (p.lastSent.getD zeroTime) b.now = true)
    (hlate : p.preferences.digest = .off → late p.lastSent b.now) (hfree : Unlocked holds others 1)
    (h : RunWhere workers late (fun _ => hourly) ⟨one p, .next b :: others⟩) :
    RunWhere workers late (fun _ => hourly)
      ⟨one (p.bundled b ⟨1, p.preferences.digest, p.lastSent, p.queue⟩), .next { b with left := users } :: others⟩ := by
  have h₁ := claimed_run hleft hqueue hdue hlate hfree h
  have h₂ := (h₁.act [] _ (.accepted hmailer)).act [] _ .commit
  rwa [one_self, one_update] at h₂

end

def eight : Int := 8 * hourLen

def told : Person := deliver true 1 .assigned false hourly person

theorem told_once_run : RunWhere Mails Later (fun _ => hourly) ⟨one told, []⟩ := told_run 1 .assigned signed_run

def sentAtEight : Person := told.bundled ⟨true, Subscriptions.utc, eight, [1]⟩ ⟨1, .hourly, none, told.queue⟩

def toldAgain : Person := deliver true 2 .assigned false sentAtEight.preferences sentAtEight

def nine : Int := 9 * hourLen

def sentAtNine : Person := toldAgain.bundled ⟨true, Subscriptions.utc, nine, [1]⟩ ⟨1, .hourly, some eight, toldAgain.queue⟩

theorem served_at_nine : sentAtNine.bundles = [⟨nine, .hourly, [(2, .assigned)]⟩, ⟨eight, .hourly, [(1, .assigned)]⟩] ∧
    (one sentAtNine 1).Served := by
  have hfree : Unlocked holds [] 1 := nofun
  have h₁ : RunWhere Mails Later (fun _ => hourly) ⟨one sentAtEight, [.next ⟨true, Subscriptions.utc, eight, []⟩]⟩ :=
    sent_run rfl rfl (by decide) (by decide) (fun h => absurd h (by decide)) hfree (found_run true eight rfl (by decide) told_once_run)
  have h₂ := told_run 2 .assigned (h₁.act [] _ .finish)
  have h₃ : RunWhere Mails Later (fun _ => hourly) ⟨one sentAtNine, [.next ⟨true, Subscriptions.utc, nine, []⟩]⟩ :=
    sent_run rfl rfl (by decide) (by decide) (fun h => absurd h (by decide)) hfree (found_run true nine rfl (by decide) h₂)
  exact ⟨rfl, bundles_apart h₃ 1⟩

/-! ## A pass that is late -/

def atQuarter : Person :=
  told.bundled ⟨true, Subscriptions.utc, eight + 15 * Go.minute, [1]⟩ ⟨1, .hourly, none, told.queue⟩

def turnedOff : Person :=
  { deliver true 2 .assigned false atQuarter.preferences atQuarter with preferences := { hourly with digest := .off } }

def atEight : Person :=
  turnedOff.bundled ⟨true, Subscriptions.utc, eight, [1]⟩ ⟨1, .off, turnedOff.lastSent, turnedOff.queue⟩

def turnedOn : Person :=
  deliver true 3 .assigned false hourly { atEight with preferences := { hourly with digest := .hourly } }

def atNine : Person :=
  turnedOn.bundled ⟨true, Subscriptions.utc, eight + hourLen, [1]⟩ ⟨1, .hourly, turnedOn.lastSent, turnedOn.queue⟩

theorem free_nil : Unlocked holds [] 1 := nofun

/-- The bundle of the pass that reads the clock at eight moves the record back from a quarter past, and at nine there is an
hourly bundle again, 45 minutes after the last one. -/
theorem hourly_too_soon : ¬ ∀ (prefs : Id → Preferences) (sys : Interleaving.System Data Work), Run prefs sys →
    ∀ u, (sys.shared u).Served := by
  intro h
  have h₁ : Run (fun _ => hourly) ⟨one told, []⟩ := told_run 1 .assigned signed_run
  have h₂ := found_run true eight trivial (by decide) h₁
  have h₃ := found_run true (eight + 15 * Go.minute) trivial (by decide) h₂
  have hfree : Unlocked holds [Work.next ⟨true, Subscriptions.utc, eight, [1]⟩] 1 := fun _ hw hheld => by
    obtain rfl := mem_singleton.1 hw
    exact hheld
  have h₄ : Run (fun _ => hourly) ⟨one atQuarter, _⟩ := sent_run rfl rfl (by decide) (by decide) (fun _ => trivial) hfree h₃
  have h₅ := prefer_run .off (told_run 2 .assigned (h₄.act [] _ .finish))
  have h₆ : Run (fun _ => hourly) ⟨one atEight, _⟩ := sent_run rfl rfl (by decide) (by decide) (fun _ => trivial) free_nil h₅
  have h₇ := told_run 3 .assigned (prefer_run .hourly (h₆.act [] _ .finish))
  have h₈ := found_run true (eight + hourLen) trivial (by decide) h₇
  have h₉ : Run (fun _ => hourly) ⟨one atNine, _⟩ := sent_run rfl rfl (by decide) (by decide) (fun _ => trivial) free_nil h₈
  have hserved := h _ _ h₉ 1
  dsimp only at hserved
  rw [one_self] at hserved
  have happart := (pairwise_cons.1 hserved.apart).1 ⟨stored (eight + 15 * Go.minute), .hourly, told.queue⟩
    (mem_cons_of_mem _ mem_cons_self) rfl rfl
  exact absurd happart (by decide)

theorem unmailed_lost : ∃ sys, RunWhere (fun _ => True) Later (fun _ => hourly) sys ∧ ¬ (sys.shared 1).Served := by
  have h₁ : RunWhere (fun _ => True) Later (fun _ => hourly) ⟨one told, []⟩ := told_run 1 .assigned signed_run
  have h₂ := claimed_run rfl (by decide) (by decide) (fun h => absurd h (by decide)) free_nil
    (found_run false eight trivial (by decide) h₁)
  have h₃ := h₂.act [] _ (.unmailed rfl)
  rw [one_self, one_update] at h₃
  refine ⟨_, h₃, fun hserved => ?_⟩
  dsimp only at hserved
  rw [one_self] at hserved
  rcases hserved.reached (1, .assigned) mem_cons_self with hq | ⟨b, hb, -⟩
  · exact absurd hq (by decide)
  · cases hb

end Digests
end Armature
