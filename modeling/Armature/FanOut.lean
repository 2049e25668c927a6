import Armature.GoText
import Mathlib.Data.List.Nodup
/-!
# FanOut — an event handled with success has told everybody (`notify/fanout.go`, `notify/fanout_absence.go`,
`notify/fanout_access.go`, `notify/notify.go`)

An attempt at an event asks the database and the mailer, and stops at the first error; what they answer is the attempt's
input, an error after a commit or after a mail was accepted among it.  A row is committed before its mail is sent and keeps
the next attempt from sending it, so a mail refused once is never sent (`told_nobody`), and where no attempt lost a mail that
it was to send an attempt without error has told everybody (`told_of_careful`).
-/
namespace Armature
namespace Notify

open List
open Go (Text trimSpace)

abbrev Id := Nat

inductive Topic where
  | issueCreated
  | issueUpdated
  | issueTransitioned
  | issueDeleted
  | commentAdded
  | requestStaysDone
  | watcherAdded
  | slaBreached
  | absenceRecorded
  | absenceChanged
  | absenceRemoved
  | accessRequested
  | other
  deriving DecidableEq

inductive Kind where
  | assigned
  | mentioned
  | commented
  | transitioned
  | watching
  | slaBreached
  | absence
  | accessRequested
  deriving DecidableEq

structure Payload where
  key : Text
  issueKey : Text
  actorID : Id
  userID : Id
  /-- The request's id as it is written, `none` for the nil one. -/
  request : Option Text
  isInternal : Bool
  mentions : List Id
  toStatus : Text
  status : Text
  metric : Text
  imported : Bool
  /-- The field of each change. -/
  changes : List Text

/-- The payload is `none` where it does not decode. -/
structure Event where
  id : Id
  topic : Topic
  payload : Option Payload

/-- The issue an event is about, as `lookup` reads it. -/
structure Subject where
  id : Id
  key : Text
  summary : Text
  assignee : Option Id
  reporter : Option Id
  isRequest : Bool
  actor : Text
  watchers : List Id
  comment : Text
  watchOwnOff : List Id
  resolver : Option Id

structure Tell where
  user : Id
  kind : Kind
  title : Text
  body : Text
  deriving DecidableEq

/-! ## Who hears what -/

def addNew (seen : List Id) : List Id → List Id → List Id
  | out, [] => out
  | out, id :: ids => addNew seen (if id ∈ seen ∨ id ∈ out then out else out ++ [id]) ids

def participants (p : Payload) (s : Subject) (except : List Id) : List Id :=
  let own := fun id : Option Id => id.toList.filter fun id => decide (id ∉ s.watchOwnOff)
  addNew (p.actorID :: except) [] (own s.assignee ++ own s.reporter ++ s.watchers)

def toldAssigned (p : Payload) (s : Subject) : List Tell :=
  (s.assignee.toList.filter fun id => decide (id ≠ p.actorID)).map fun id =>
    ⟨id, .assigned, s.actor ++ " assigned ".toList ++ s.key ++ " to you".toList, s.summary⟩

def tellsFor (topic : Topic) (p : Payload) (s : Subject) : List Tell :=
  let link := s.key
  match topic with
  | .issueCreated =>
    toldAssigned p s ++ (participants p s [s.assignee.getD 0]).map fun id =>
      ⟨id, .watching, s.actor ++ " filed ".toList ++ link, s.summary⟩
  | .issueUpdated =>
    if p.changes = [] then []
    else
      let assigned := "assignee".toList ∈ p.changes
      let title := s.actor ++ " changed ".toList ++ List.intercalate ", ".toList p.changes ++ " on ".toList ++ link
      (if assigned then toldAssigned p s else []) ++
        (participants p s [if assigned then s.assignee.getD 0 else 0]).map fun id => ⟨id, .watching, title, s.summary⟩
  | .issueTransitioned =>
    let title := s.actor ++ " moved ".toList ++ link ++ " to ".toList ++ p.toStatus
    (participants p s []).map fun id => ⟨id, .transitioned, title, s.summary⟩
  | .commentAdded =>
    let title := s.actor ++ (if p.isInternal then " left a note on ".toList else " commented on ".toList) ++ link
    ((addNew [p.actorID] [] p.mentions).map fun id =>
        ⟨id, .mentioned, s.actor ++ " mentioned you on ".toList ++ link, s.comment⟩) ++
      (participants p s p.mentions).map fun id => ⟨id, .commented, title, s.comment⟩
  | .requestStaysDone =>
    let title := s.actor ++ " replied to ".toList ++ link ++ ", which stays ".toList ++ p.status
    let body := trimSpace (s.comment ++ "\n\nIts workflow has no way back out of ".toList ++ p.status ++
      ". Move it by hand if it needs more work.".toList)
    let told := participants p s []
    (if told = [] then s.resolver.toList.filter fun id => decide (id ≠ p.actorID) else told).map fun id =>
      ⟨id, .commented, title, body⟩
  | .watcherAdded =>
    if p.userID ≠ 0 ∧ p.userID ≠ p.actorID then
      [⟨p.userID, .watching, s.actor ++ " added you to watch ".toList ++ link, s.summary⟩]
    else []
  | .slaBreached =>
    let title := link ++ " missed its ".toList ++ p.metric.map (fun c => if c = '_' then ' ' else c) ++ " goal".toList
    (participants p s []).map fun id => ⟨id, .slaBreached, title, s.summary⟩
  | _ => []

theorem mem_addNew {seen : List Id} {i : Id} : ∀ {ids out : List Id}, i ∈ addNew seen out ids →
    i ∈ out ∨ (i ∈ ids ∧ i ∉ seen)
  | [], out, h => Or.inl h
  | id :: ids, out, h => by
    unfold addNew at h
    rcases mem_addNew h with h | ⟨h, hseen⟩
    · split at h
      · exact Or.inl h
      · rename_i hnew
        rcases mem_append.1 h with h | h
        · exact Or.inl h
        · obtain rfl := mem_singleton.1 h
          exact Or.inr ⟨mem_cons_self, fun hs => hnew (Or.inl hs)⟩
    · exact Or.inr ⟨mem_cons_of_mem _ h, hseen⟩

theorem nodup_addNew {seen : List Id} : ∀ {ids out : List Id}, out.Nodup → (addNew seen out ids).Nodup
  | [], _, h => h
  | id :: ids, out, h => by
    unfold addNew
    refine nodup_addNew ?_
    split
    · exact h
    · rename_i hnew
      rw [not_or] at hnew
      refine List.Nodup.append h (nodup_singleton id) fun i hi hi' => ?_
      exact hnew.2 (mem_singleton.1 hi' ▸ hi)

variable {p : Payload} {s : Subject} {t : Tell}

theorem mem_participants {except : List Id} {i : Id} (h : i ∈ participants p s except) :
    i ≠ p.actorID ∧ i ∉ except := by
  obtain h | ⟨-, h⟩ := mem_addNew h
  · cases h
  · exact ⟨fun he => h (he ▸ mem_cons_self), fun he => h (mem_cons_of_mem _ he)⟩

theorem mem_toldAssigned (h : t ∈ toldAssigned p s) :
    s.assignee = some t.user ∧ t.user ≠ p.actorID ∧ t.kind = .assigned := by
  obtain ⟨id, hid, rfl⟩ := mem_map.1 h
  obtain ⟨hmem, hne⟩ := mem_filter.1 hid
  exact ⟨Option.mem_toList.1 hmem, of_decide_eq_true hne, rfl⟩

def Tell.slot (t : Tell) : Id × Kind := (t.user, t.kind)

theorem kind_map {ids : List Id} {kind : Kind} {title body : Text}
    (h : t ∈ ids.map fun id => (⟨id, kind, title, body⟩ : Tell)) : t.user ∈ ids ∧ t.kind = kind := by
  obtain ⟨id, hid, rfl⟩ := mem_map.1 h
  exact ⟨hid, rfl⟩

theorem tellsFor_actor {topic : Topic} (h : t ∈ tellsFor topic p s) : t.user ≠ p.actorID := by
  have hassigned : t ∈ toldAssigned p s → t.user ≠ p.actorID := fun ht => (mem_toldAssigned ht).2.1
  have hparts : ∀ {except kind title body},
      t ∈ (participants p s except).map (fun id => (⟨id, kind, title, body⟩ : Tell)) → t.user ≠ p.actorID :=
    fun ht => (mem_participants (kind_map ht).1).1
  cases topic with
  | issueCreated => exact (mem_append.1 h).elim hassigned hparts
  | issueUpdated =>
    unfold tellsFor at h
    dsimp only at h
    split at h
    · cases h
    · refine (mem_append.1 h).elim (fun ht => ?_) hparts
      split at ht
      · exact hassigned ht
      · cases ht
  | issueTransitioned => exact hparts h
  | commentAdded =>
    refine (mem_append.1 h).elim (fun ht => ?_) hparts
    obtain hm | ⟨-, hm⟩ := mem_addNew (kind_map ht).1
    · cases hm
    · exact fun he => hm (he ▸ mem_cons_self)
  | requestStaysDone =>
    have hm := (kind_map h).1
    split at hm
    · exact of_decide_eq_true (mem_filter.1 hm).2
    · exact (mem_participants hm).1
  | watcherAdded =>
    unfold tellsFor at h
    dsimp only at h
    split at h
    · rename_i hw
      rw [mem_singleton.1 h]
      exact hw.2
    · cases h
  | slaBreached => exact hparts h
  | _ => exact absurd h not_mem_nil

/-! ## How a person hears -/

inductive Digest where
  | off
  | hourly
  | daily
  deriving DecidableEq

structure Preferences where
  mail : Kind → Option Bool
  inApp : Kind → Option Bool
  digest : Digest

def defaultPreferences : Preferences := ⟨fun _ => none, fun _ => none, .off⟩

def Preferences.mails (p : Preferences) (kind : Kind) : Bool := (p.mail kind).getD true

def Preferences.shows (p : Preferences) (kind : Kind) : Bool := (p.inApp kind).getD true

/-- What a row points at; a request's people are mailed by the desk instead. -/
structure Place where
  issueID : Option Id
  link : Text
  tag : Text
  byDesk : Bool

/-- A row of `notification`. -/
structure Row where
  user : Id
  eventID : Id
  kind : Kind
  issueID : Option Id
  title : Text
  body : Text
  link : Text
  hidden : Bool

structure Mail where
  recipient : Text
  subject : Text
  body : Text

structure Data where
  rows : List Row
  /-- `notification_digest`, by the keys of the rows. -/
  digest : List (Id × Id × Kind)
  /-- The mails the mailer accepted, with whom and what they were for. -/
  accepted : List ((Id × Kind) × Mail)

abbrev Address := { to_ : Text // to_ ≠ [] }

inductive Written where
  | failed
  /-- It is committed, and an error comes back: the answer was lost, or the log's position could not be read after it. -/
  | unanswered
  | done
  deriving DecidableEq

inductive Sent where
  | refused
  /-- The mailer has accepted the mail, and an error comes back. -/
  | unanswered
  | accepted
  deriving DecidableEq

/-- What an attempt is answered; `none` for a read that failed. -/
structure Answers where
  /-- No issue of that key, or the issue. -/
  lookup : Option (Option Subject)
  /-- Who recorded the absence, and whether the person still works here. -/
  absent : Option (Text × Bool)
  /-- No request, or its administrators, who asks, the issue's key and the message. -/
  asked : Option (Option (List Id × Text × Text × Text))
  reads : Id → Option Bool
  preferences : Id → Kind → Preferences
  email : Id → Address
  written : Id → Kind → Written
  sent : Id → Kind → Sent
  newID : Id

structure FanOut where
  /-- Whether there is a mailer. -/
  mailer : Bool
  appURL : Text

section
variable (f : FanOut) (a : Answers)

def wantsMail (place : Place) (user : Id) (kind : Kind) : Bool :=
  (a.preferences user kind).mails kind && !place.byDesk && f.mailer

def shows (user : Id) (kind : Kind) : Bool := (a.preferences user kind).shows kind

def deliver (eventID : Id) (place : Place) (t : Tell) (d : Data) : Data × Bool :=
  let mails := wantsMail f a place t.user t.kind
  let written := a.written t.user t.kind
  if written = .failed then (d, false)
  else if !shows a t.user t.kind && !mails then (d, written == .done)
  else if d.rows.any fun r => decide (r.user = t.user ∧ r.eventID = eventID ∧ r.kind = t.kind) then (d, written == .done)
  else
    let row : Row := ⟨t.user, eventID, t.kind, place.issueID, t.title, t.body, place.link, !shows a t.user t.kind⟩
    let d := { d with rows := row :: d.rows }
    if !mails then (d, written == .done)
    else if (a.preferences t.user t.kind).digest ≠ .off then
      ({ d with digest := (t.user, eventID, t.kind) :: d.digest }, written == .done)
    else if written ≠ .done then (d, false)
    else
      let mail : Mail := ⟨(a.email t.user).1, place.tag ++ t.title,
        t.title ++ "\n\n".toList ++ t.body ++ "\n\nOpen it at ".toList ++ place.link ++ "\n".toList⟩
      match a.sent t.user t.kind with
      | .refused => (d, false)
      | .unanswered => ({ d with accepted := (t.slot, mail) :: d.accepted }, false)
      | .accepted => ({ d with accepted := (t.slot, mail) :: d.accepted }, true)

structure Occasion where
  place : Place
  tells : List Tell
  reads : Id → Option Bool

def absenceBody : Text := "Your profile lists the days you are away.".toList

def absenceTell (topic : Topic) (p : Payload) (actor : Text) : Option Tell :=
  if p.userID = 0 ∨ p.userID = p.actorID then none
  else
    match topic with
    | .absenceRecorded => some ⟨p.userID, .absence, actor ++ " recorded an absence for you".toList, absenceBody⟩
    | .absenceChanged => some ⟨p.userID, .absence, actor ++ " changed one of your absences".toList, absenceBody⟩
    | .absenceRemoved => some ⟨p.userID, .absence, actor ++ " removed one of your absences".toList, absenceBody⟩
    | _ => none

def handleAbsence (topic : Topic) (p : Payload) : Option (Option Occasion) :=
  if (absenceTell topic p []).isNone then some none
  else
    a.absent.map fun answer =>
      if !answer.2 then none
      else (absenceTell topic p answer.1).map fun t =>
        ⟨⟨none, f.appURL ++ "/settings/profile".toList, [], false⟩, [t], fun _ => some true⟩

def accessTell (user : Id) (who key message : Text) : Tell :=
  let body := if message ≠ [] then "Their message: ".toList ++ message else "They left no message.".toList
  ⟨user, .accessRequested, who ++ " asks for access to ".toList ++ key, body⟩

def handleAccess (p : Payload) : Option (Option Occasion) :=
  match p.request with
  | none => some none
  | some request =>
    a.asked.map fun answer => answer.map fun asked =>
      ⟨⟨none, f.appURL ++ "/access-requests/".toList ++ request, [], false⟩,
        asked.1.map fun user => accessTell user asked.2.1 asked.2.2.1 asked.2.2.2, fun _ => some true⟩

def Payload.anyKey (p : Payload) : Text := if p.key ≠ [] then p.key else p.issueKey

def occasion (e : Event) : Option (Option Occasion) :=
  match e.payload with
  | none => some none
  | some p =>
    if p.imported then some none
    else if e.topic = .absenceRecorded ∨ e.topic = .absenceChanged ∨ e.topic = .absenceRemoved then handleAbsence f a e.topic p
    else if e.topic = .accessRequested then handleAccess f a p
    else if p.anyKey = [] then some none
    else if e.topic = .issueDeleted then some none
    else
      a.lookup.map fun found => found.map fun s =>
        ⟨⟨some s.id, f.appURL ++ "/issues/".toList ++ s.key, '[' :: s.key ++ "] ".toList, s.isRequest⟩, tellsFor e.topic p s, a.reads⟩

def rowID (e : Event) : Id := if e.id = 0 then a.newID else e.id

def tellAll (eventID : Id) (place : Place) (reads : Id → Option Bool) : List Tell → Data → Data × Bool
  | [], d => (d, true)
  | t :: ts, d =>
    match reads t.user with
    | none => (d, false)
    | some false => tellAll eventID place reads ts d
    | some true =>
      let told := deliver f a eventID place t d
      if told.2 then tellAll eventID place reads ts told.1 else told

def handle (e : Event) (d : Data) : Data × Bool :=
  match occasion f a e with
  | none => (d, false)
  | some none => (d, true)
  | some (some o) => tellAll f a (rowID a e) o.place o.reads o.tells d

end

def attempts (f : FanOut) (e : Event) : List Answers → Data → Data
  | [], d => d
  | a :: l, d => attempts f e l (handle f a e d).1

/-! ## What one attempt does for one person -/

def Data.at_ (d : Data) (eventID : Id) (slot : Id × Kind) : List Row :=
  d.rows.filter fun r => decide (r.user = slot.1 ∧ r.eventID = eventID ∧ r.kind = slot.2)

def Data.got (d : Data) (slot : Id × Kind) : Nat := d.accepted.countP fun m => decide (m.1 = slot)

section
variable (f : FanOut) (a : Answers) (place : Place) (slot : Id × Kind)

def Wanted : Prop := shows a slot.1 slot.2 = true ∨ wantsMail f a place slot.1 slot.2 = true

def Now : Prop := wantsMail f a place slot.1 slot.2 = true ∧ (a.preferences slot.1 slot.2).digest = .off

instance : Decidable (Wanted f a place slot) := inferInstanceAs (Decidable (_ ∨ _))

instance : Decidable (Now f a place slot) := inferInstanceAs (Decidable (_ ∧ _))

def Same (eventID : Id) (d d' : Data) : Prop := d'.at_ eventID slot = d.at_ eventID slot ∧ d'.got slot = d.got slot

def Reached (eventID : Id) (d d' : Data) : Prop :=
  (∃ r, d'.at_ eventID slot = [r] ∧ r.hidden = !shows a slot.1 slot.2) ∧
    d'.got slot = d.got slot + if Now f a place slot then 1 else 0

def Passed (eventID : Id) (d d' : Data) : Prop :=
  if Wanted f a place slot ∧ d.at_ eventID slot = [] then Reached f a place slot eventID d d' else Same slot eventID d d'

end

section
variable {f : FanOut} {a : Answers} {place : Place} {eventID : Id}

variable {d d' d'' : Data} {t : Tell}

theorem at_cons {r : Row} {slot : Id × Kind} {q : List (Id × Id × Kind)} {m : List ((Id × Kind) × Mail)} :
    Data.at_ ⟨r :: d.rows, q, m⟩ eventID slot =
      if r.user = slot.1 ∧ r.eventID = eventID ∧ r.kind = slot.2 then r :: d.at_ eventID slot else d.at_ eventID slot := by
  unfold Data.at_
  rw [filter_cons]
  simp only [decide_eq_true_eq]

theorem at_eq_nil : d.at_ eventID t.slot = [] ↔
    (d.rows.any fun r => decide (r.user = t.user ∧ r.eventID = eventID ∧ r.kind = t.kind)) = false := by
  unfold Data.at_ Tell.slot
  rw [filter_eq_nil_iff, any_eq_false]

theorem deliver_other {slot : Id × Kind} (h : slot ≠ t.slot) :
    Same slot eventID d (deliver f a eventID place t d).1 := by
  have hrow : ∀ (p l : Text) (i : Option Id) (b : Bool) (q : List (Id × Id × Kind)) (m : List ((Id × Kind) × Mail)),
      Data.at_ ⟨⟨t.user, eventID, t.kind, i, p, t.body, l, b⟩ :: d.rows, q, m⟩ eventID slot = d.at_ eventID slot := by
    intro p l i b q m
    rw [at_cons, if_neg]
    rintro ⟨hu, -, hk⟩
    exact h (Prod.ext hu.symm hk.symm)
  have hmail : ∀ (mail : Mail) (rows : List Row) (q : List (Id × Id × Kind)),
      Data.got ⟨rows, q, (t.slot, mail) :: d.accepted⟩ slot = d.got slot := by
    intro mail rows q
    unfold Data.got
    rw [countP_cons_of_neg]
    simpa using h.symm
  unfold deliver
  dsimp only
  split_ifs
  · exact ⟨rfl, rfl⟩
  · exact ⟨rfl, rfl⟩
  · exact ⟨rfl, rfl⟩
  · exact ⟨hrow _ _ _ _ _ _, rfl⟩
  · exact ⟨hrow _ _ _ _ _ _, rfl⟩
  · exact ⟨hrow _ _ _ _ _ _, rfl⟩
  · cases a.sent t.user t.kind with
    | refused => exact ⟨hrow _ _ _ _ _ _, rfl⟩
    | unanswered => exact ⟨hrow _ _ _ _ _ _, hmail _ _ _⟩
    | accepted => exact ⟨hrow _ _ _ _ _ _, hmail _ _ _⟩

theorem not_asked : (!shows a t.user t.kind && !wantsMail f a place t.user t.kind) = true ↔ ¬ Wanted f a place t.slot := by
  simp [Wanted, not_or, Tell.slot]

theorem deliver_skips
    (h : a.written t.user t.kind = .failed ∨ ¬ (Wanted f a place t.slot ∧ d.at_ eventID t.slot = [])) :
    (deliver f a eventID place t d).1 = d := by
  unfold deliver
  dsimp only
  by_cases hfailed : a.written t.user t.kind = .failed
  · rw [if_pos hfailed]
  · rw [if_neg hfailed]
    by_cases hask : (!shows a t.user t.kind && !wantsMail f a place t.user t.kind) = true
    · rw [if_pos hask]
    · rw [if_neg hask]
      have hrow : d.at_ eventID t.slot ≠ [] := fun hnil => (h.resolve_left hfailed) ⟨not_not.1 (mt not_asked.2 hask), hnil⟩
      rw [if_pos (Bool.not_eq_false _ ▸ mt at_eq_nil.2 hrow)]

theorem deliver_reaches (hwritten : a.written t.user t.kind ≠ .failed) (hwanted : Wanted f a place t.slot)
    (hnil : d.at_ eventID t.slot = [])
    (hsent : Now f a place t.slot → a.written t.user t.kind = .done ∧ a.sent t.user t.kind ≠ .refused) :
    Reached f a place t.slot eventID d (deliver f a eventID place t d).1 := by
  have hrow : ∀ (i : Option Id) (p l : Text) (b : Bool) (q : List (Id × Id × Kind)) (m : List ((Id × Kind) × Mail)),
      Data.at_ ⟨⟨t.user, eventID, t.kind, i, p, t.body, l, b⟩ :: d.rows, q, m⟩ eventID t.slot =
        [⟨t.user, eventID, t.kind, i, p, t.body, l, b⟩] := by
    intro i p l b q m
    rw [at_cons, if_pos ⟨rfl, rfl, rfl⟩, hnil]
  have hmail : ∀ (mail : Mail) (rows : List Row) (q : List (Id × Id × Kind)),
      Data.got ⟨rows, q, (t.slot, mail) :: d.accepted⟩ t.slot = d.got t.slot + 1 := by
    intro mail rows q
    unfold Data.got
    rw [countP_cons_of_pos]
    exact decide_eq_true rfl
  unfold deliver
  dsimp only
  rw [if_neg hwritten, if_neg (mt not_asked.1 (not_not.2 hwanted)), at_eq_nil.1 hnil, if_neg Bool.false_ne_true]
  by_cases hmails : wantsMail f a place t.user t.kind = true
  · rw [hmails, if_neg (by decide)]
    by_cases hdigest : (a.preferences t.user t.kind).digest = .off
    · have hnow : Now f a place t.slot := ⟨hmails, hdigest⟩
      obtain ⟨hdone, htaken⟩ := hsent hnow
      rw [if_neg (not_not.2 hdigest), if_neg (not_not.2 hdone)]
      unfold Reached
      rw [if_pos hnow]
      cases hs : a.sent t.user t.kind with
      | refused => exact absurd hs htaken
      | unanswered => exact ⟨⟨_, hrow _ _ _ _ _ _, rfl⟩, hmail _ _ _⟩
      | accepted => exact ⟨⟨_, hrow _ _ _ _ _ _, rfl⟩, hmail _ _ _⟩
    · rw [if_pos hdigest]
      exact ⟨⟨_, hrow _ _ _ _ _ _, rfl⟩, by rw [if_neg fun hn => hdigest hn.2]; rfl⟩
  · rw [if_pos (by simpa using hmails)]
    exact ⟨⟨_, hrow _ _ _ _ _ _, rfl⟩, by rw [if_neg fun hn => hmails hn.1]; rfl⟩

theorem deliver_ok (h : (deliver f a eventID place t d).2 = true) :
    a.written t.user t.kind ≠ .failed ∧ (Wanted f a place t.slot → d.at_ eventID t.slot = [] → Now f a place t.slot →
      a.written t.user t.kind = .done ∧ a.sent t.user t.kind ≠ .refused) := by
  unfold deliver at h
  dsimp only at h
  by_cases hfailed : a.written t.user t.kind = .failed
  · simp [hfailed] at h
  · refine ⟨hfailed, fun hwanted hnil hnow => ?_⟩
    have hmails : wantsMail f a place t.user t.kind = true := hnow.1
    have hdigest : (a.preferences t.user t.kind).digest = .off := hnow.2
    rw [if_neg hfailed, if_neg (mt not_asked.1 (not_not.2 hwanted)), at_eq_nil.1 hnil, if_neg Bool.false_ne_true, hmails,
      if_neg (by decide), if_neg (not_not.2 hdigest)] at h
    by_cases hdone : a.written t.user t.kind = .done
    · refine ⟨hdone, fun hrefused => ?_⟩
      simp [hdone, hrefused] at h
    · simp [hdone] at h

theorem deliver_passes (hwritten : a.written t.user t.kind ≠ .failed)
    (hsent : Wanted f a place t.slot → d.at_ eventID t.slot = [] → Now f a place t.slot →
      a.written t.user t.kind = .done ∧ a.sent t.user t.kind ≠ .refused) :
    Passed f a place t.slot eventID d (deliver f a eventID place t d).1 := by
  unfold Passed
  split
  · rename_i h
    exact deliver_reaches hwritten h.1 h.2 (hsent h.1 h.2)
  · rename_i h
    rw [deliver_skips (Or.inr h)]
    exact ⟨rfl, rfl⟩

theorem deliver_told (h : (deliver f a eventID place t d).2 = true) :
    Passed f a place t.slot eventID d (deliver f a eventID place t d).1 :=
  deliver_passes (deliver_ok h).1 (deliver_ok h).2

theorem Same.trans {slot : Id × Kind} (h : Same slot eventID d d') (h' : Same slot eventID d' d'') :
    Same slot eventID d d'' :=
  ⟨h'.1.trans h.1, h'.2.trans h.2⟩

theorem Passed.then_same {slot : Id × Kind} (h : Passed f a place slot eventID d d')
    (h' : Same slot eventID d' d'') : Passed f a place slot eventID d d'' := by
  unfold Passed at h ⊢
  split_ifs at h ⊢
  · obtain ⟨⟨r, hrow, hhidden⟩, hgot⟩ := h
    exact ⟨⟨r, h'.1.trans hrow, hhidden⟩, h'.2.trans hgot⟩
  · exact h.trans h'

theorem Same.then_passed {slot : Id × Kind} (h : Same slot eventID d d')
    (h' : Passed f a place slot eventID d' d'') : Passed f a place slot eventID d d'' := by
  unfold Passed Reached Same at h' ⊢
  rw [h.1, h.2] at h'
  exact h'

theorem Passed.twice {slot : Id × Kind} (h : Passed f a place slot eventID d d')
    (h' : Passed f a place slot eventID d' d'') : Same slot eventID d' d'' := by
  have hnot : ¬ (Wanted f a place slot ∧ d'.at_ eventID slot = []) := by
    rintro ⟨hw, hnil⟩
    unfold Passed at h
    split_ifs at h with hd
    · obtain ⟨⟨r, hrow, -⟩, -⟩ := h
      exact cons_ne_nil r [] (hrow.symm.trans hnil)
    · exact hd ⟨hw, h.1.symm.trans hnil⟩
  unfold Passed at h'
  rw [if_neg hnot] at h'
  exact h'

theorem tellAll_other {reads : Id → Option Bool} {slot : Id × Kind} : ∀ {ts : List Tell} {d : Data},
    (∀ t ∈ ts, reads t.user = some true → slot ≠ t.slot) → Same slot eventID d (tellAll f a eventID place reads ts d).1
  | [], d, _ => ⟨rfl, rfl⟩
  | t :: ts, d, h => by
    have hrest : ∀ d, Same slot eventID d (tellAll f a eventID place reads ts d).1 :=
      fun d => tellAll_other fun t' ht' => h t' (mem_cons_of_mem _ ht')
    unfold tellAll
    split
    · exact ⟨rfl, rfl⟩
    · exact hrest d
    · rename_i hr
      have hone : Same slot eventID d (deliver f a eventID place t d).1 := deliver_other (h t mem_cons_self hr)
      dsimp only
      split
      · exact hone.trans (hrest _)
      · exact hone

theorem tellAll_told {reads : Id → Option Bool} : ∀ {ts : List Tell} {d : Data},
    (tellAll f a eventID place reads ts d).2 = true → ∀ t ∈ ts, reads t.user = some true →
      Passed f a place t.slot eventID d (tellAll f a eventID place reads ts d).1
  | [], _, _, t, ht, _ => absurd ht not_mem_nil
  | t' :: ts, d, h, t, ht, hr => by
    have hin : t.slot ≠ t'.slot → t ∈ ts := fun hne => (mem_cons.1 ht).resolve_left fun he => hne (he ▸ rfl)
    unfold tellAll at h ⊢
    cases hr' : reads t'.user with
    | none => simp [hr'] at h
    | some may =>
      cases may with
      | false =>
        simp only [hr'] at h ⊢
        have hne : t.slot ≠ t'.slot := fun he => by
          have hu : t.user = t'.user := congrArg Prod.fst he
          simp [hu, hr'] at hr
        exact tellAll_told h t (hin hne) hr
      | true =>
        simp only [hr'] at h ⊢
        by_cases hok : (deliver f a eventID place t' d).2 = true
        · simp only [hok, if_true] at h ⊢
          have hfirst := deliver_told hok
          by_cases he : t.slot = t'.slot
          · rw [← he] at hfirst
            refine hfirst.then_same ?_
            by_cases hagain : ∃ t'' ∈ ts, reads t''.user = some true ∧ t.slot = t''.slot
            · obtain ⟨t'', ht'', hr'', he''⟩ := hagain
              exact hfirst.twice (he'' ▸ tellAll_told h t'' ht'' hr'')
            · exact tellAll_other fun t'' ht'' hr'' he'' => hagain ⟨t'', ht'', hr'', he''⟩
          · have hother : Same t.slot eventID d (deliver f a eventID place t' d).1 := deliver_other he
            exact hother.then_passed (tellAll_told h t (hin he) hr)
        · simp [hok] at h

end

/-! ## What an attempt without error has told -/

section
variable (f : FanOut) (e : Event) (a : Answers)

def Told (d : Data) : Prop :=
  ∀ o, occasion f a e = some (some o) → ∀ t ∈ o.tells, o.reads t.user = some true →
    (Wanted f a o.place t.slot → ∃ r, d.at_ (rowID a e) t.slot = [r] ∧ r.hidden = !shows a t.user t.kind) ∧
      (Now f a o.place t.slot → d.got t.slot = 1)

def LeftRight (place : Place) (slot : Id × Kind) (d : Data) : Prop :=
  (d.at_ (rowID a e) slot = [] ∧ d.got slot = 0) ∨
    ((∃ r, d.at_ (rowID a e) slot = [r] ∧ r.hidden = !shows a slot.1 slot.2) ∧ d.got slot = if Now f a place slot then 1 else 0)

structure Careful (b : Answers) : Prop where
  preferences : ∀ user kind, b.preferences user kind = a.preferences user kind
  byDesk : ∀ o o', occasion f b e = some (some o) → occasion f a e = some (some o') → o.place.byDesk = o'.place.byDesk
  mailed : ∀ o, occasion f b e = some (some o) → ∀ t ∈ o.tells, o.reads t.user = some true → Now f b o.place t.slot →
    b.written t.user t.kind ≠ .unanswered ∧ b.sent t.user t.kind ≠ .refused

end

section
variable {f : FanOut} {e : Event} {a b : Answers}

theorem LeftRight.passes {place : Place} {slot : Id × Kind} {d d' : Data} (h : LeftRight f e a place slot d)
    (hp : Passed f a place slot (rowID a e) d d') : LeftRight f e a place slot d' := by
  unfold Passed at hp
  split at hp
  · rename_i hnew
    obtain ⟨hrow, hgot⟩ := hp
    have hnone : d.got slot = 0 := by
      rcases h with ⟨-, hzero⟩ | ⟨⟨r, hr, -⟩, -⟩
      · exact hzero
      · exact absurd (hr.symm.trans hnew.2) (cons_ne_nil r [])
    rw [hnone, Nat.zero_add] at hgot
    exact .inr ⟨hrow, hgot⟩
  · unfold LeftRight
    rw [hp.1, hp.2]
    exact h

theorem LeftRight.of_same {place : Place} {slot : Id × Kind} {d d' : Data} (h : LeftRight f e a place slot d)
    (hs : Same slot (rowID a e) d d') : LeftRight f e a place slot d' := by
  unfold LeftRight
  rw [hs.1, hs.2]
  exact h

theorem Careful.wantsMail (h : Careful f e a b) {o o' : Occasion} (ho : occasion f b e = some (some o))
    (ho' : occasion f a e = some (some o')) (user : Id) (kind : Kind) :
    wantsMail f b o.place user kind = wantsMail f a o'.place user kind := by
  unfold Notify.wantsMail
  rw [h.preferences, h.byDesk o o' ho ho']

theorem Careful.passed (h : Careful f e a b) {o o' : Occasion} (ho : occasion f b e = some (some o))
    (ho' : occasion f a e = some (some o')) {slot : Id × Kind} {id : Id} {d d' : Data} :
    Passed f b o.place slot id d d' ↔ Passed f a o'.place slot id d d' := by
  have hshows : shows b slot.1 slot.2 = shows a slot.1 slot.2 := by
    unfold shows
    rw [h.preferences]
  have hwanted : Wanted f b o.place slot ↔ Wanted f a o'.place slot := by
    unfold Wanted
    rw [hshows, h.wantsMail ho ho']
  have hnow : Now f b o.place slot ↔ Now f a o'.place slot := by
    unfold Now
    rw [h.wantsMail ho ho', h.preferences]
  unfold Passed Reached
  simp only [hwanted, hnow, hshows]

theorem Careful.deliver (h : Careful f e a b) {o o' : Occasion} (ho : occasion f b e = some (some o))
    (ho' : occasion f a e = some (some o')) {slot : Id × Kind} {d : Data} (hd : LeftRight f e a o'.place slot d) {t : Tell}
    (ht : t ∈ o.tells) (hr : o.reads t.user = some true) :
    LeftRight f e a o'.place slot (deliver f b (rowID a e) o.place t d).1 := by
  by_cases hslot : slot = t.slot
  · subst hslot
    by_cases hfailed : b.written t.user t.kind = .failed
    · rw [deliver_skips (Or.inl hfailed)]
      exact hd
    · refine hd.passes ((h.passed ho ho').1 (deliver_passes hfailed fun _ _ hnow => ?_))
      obtain ⟨hanswered, htaken⟩ := h.mailed o ho t ht hr hnow
      refine ⟨?_, htaken⟩
      cases hw : b.written t.user t.kind with
      | failed => exact absurd hw hfailed
      | unanswered => exact absurd hw hanswered
      | done => rfl
  · exact hd.of_same (deliver_other hslot)

theorem Careful.tellAll (h : Careful f e a b) {o o' : Occasion} (ho : occasion f b e = some (some o))
    (ho' : occasion f a e = some (some o')) {slot : Id × Kind} : ∀ (ts : List Tell) {d : Data}, ts ⊆ o.tells →
    LeftRight f e a o'.place slot d → LeftRight f e a o'.place slot (tellAll f b (rowID a e) o.place o.reads ts d).1
  | [], d, _, hd => hd
  | t :: ts, d, hsub, hd => by
    obtain ⟨ht, hts⟩ := cons_subset.1 hsub
    unfold Notify.tellAll
    split
    · exact hd
    · exact h.tellAll ho ho' ts hts hd
    · rename_i hr
      have hone := h.deliver ho ho' hd ht hr
      dsimp only
      split
      · exact h.tellAll ho ho' ts hts hone
      · exact hone

theorem attempts_left_right (he : e.id ≠ 0) {o : Occasion} (ho : occasion f a e = some (some o)) (slot : Id × Kind) :
    ∀ (before : List Answers) (d : Data), (∀ b ∈ before, Careful f e a b) → LeftRight f e a o.place slot d →
      LeftRight f e a o.place slot (attempts f e before d)
  | [], _, _, hd => hd
  | b :: l, d, hl, hd => by
    refine attempts_left_right he ho slot l _ (fun b' hb' => hl b' (mem_cons_of_mem _ hb')) ?_
    have hid : rowID b e = rowID a e := by simp [rowID, he]
    unfold handle
    cases hob : occasion f b e with
    | none => exact hd
    | some found =>
      cases found with
      | none => exact hd
      | some ob =>
        dsimp only
        rw [hid]
        exact (hl b mem_cons_self).tellAll hob ho ob.tells (List.Subset.refl _) hd

theorem left_right_nothing (place : Place) (slot : Id × Kind) : LeftRight f e a place slot ⟨[], [], []⟩ := .inl ⟨rfl, rfl⟩

/-- **Where the attempts before lost no mail**, and read the preferences that are read now, all they left anybody is right,
however often they failed. -/
theorem left_right_of_careful (he : e.id ≠ 0) {before : List Answers} (h : ∀ b ∈ before, Careful f e a b) {o : Occasion}
    (ho : occasion f a e = some (some o)) (slot : Id × Kind) :
    LeftRight f e a o.place slot (attempts f e before ⟨[], [], []⟩) :=
  attempts_left_right he ho slot before _ h (left_right_nothing _ _)

/-- **An event handled with success has told everybody**, where the attempts before lost no mail they were to send at once and
read the preferences that are read now. -/
theorem told_of_careful (he : e.id ≠ 0) {before : List Answers} (hb : ∀ b ∈ before, Careful f e a b)
    (h : (handle f a e (attempts f e before ⟨[], [], []⟩)).2 = true) :
    Told f e a (handle f a e (attempts f e before ⟨[], [], []⟩)).1 := by
  intro o ho t ht hr
  have hbefore := attempts_left_right he ho t.slot before ⟨[], [], []⟩ hb (left_right_nothing _ _)
  have hpassed : Passed f a o.place t.slot (rowID a e) (attempts f e before ⟨[], [], []⟩)
      (handle f a e (attempts f e before ⟨[], [], []⟩)).1 := by
    unfold handle at h ⊢
    rw [ho] at h ⊢
    exact tellAll_told h t ht hr
  have hthere : Wanted f a o.place t.slot → (handle f a e (attempts f e before ⟨[], [], []⟩)).1.at_ (rowID a e) t.slot ≠ [] := by
    intro hwanted hnil
    unfold Passed at hpassed
    split at hpassed
    · obtain ⟨⟨r, hrow, -⟩, -⟩ := hpassed
      exact cons_ne_nil r [] (hrow.symm.trans hnil)
    · rename_i hnot
      exact hnot ⟨hwanted, hpassed.1.symm.trans hnil⟩
  rcases hbefore.passes hpassed with ⟨hnil, -⟩ | ⟨hrow, hgot⟩
  · exact ⟨fun hwanted => absurd hnil (hthere hwanted), fun hnow => absurd hnil (hthere (Or.inr hnow.1))⟩
  · exact ⟨fun _ => hrow, fun hnow => by rw [hgot, if_pos hnow]⟩

end

/-! ## A mail that is refused once -/

def alice : Id := 1

def bob : Id := 2

def assigning : Payload :=
  ⟨"CP-1".toList, [], alice, 0, none, false, [], [], [], [], false, ["assignee".toList]⟩

def bobs : Subject := ⟨9, "CP-1".toList, "Fix the door".toList, some bob, none, false, "Alice".toList, [], [], [], none⟩

def answered (sent : Sent) : Answers where
  lookup := some (some bobs)
  absent := none
  asked := none
  reads _ := some true
  preferences _ _ := defaultPreferences
  email _ := ⟨"bob@x".toList, by decide⟩
  written _ _ := .done
  sent _ _ := sent
  newID := 7

def app : FanOut := ⟨true, "http://app.test".toList⟩

def assignedToBob : Event := ⟨5, .issueUpdated, some assigning⟩

def failedTwice : List Answers :=
  [{ answered .accepted with lookup := none }, { answered .accepted with written := fun _ _ => .failed }]

theorem failedTwice_careful : ∀ b ∈ failedTwice, Careful app assignedToBob (answered .accepted) b := by
  intro b hb
  rcases mem_cons.1 hb with rfl | hb
  · exact ⟨fun _ _ => rfl, fun o o' h _ => (by cases h), fun o h => (by cases h)⟩
  · rw [mem_singleton.1 hb]
    refine ⟨fun _ _ => rfl, fun o o' h h' => ?_, fun o _ t _ _ _ => ⟨nofun, nofun⟩⟩
    have he : some (some o) = some (some o') := h.symm.trans h'
    cases he
    rfl

theorem bob_left_right : ∃ o, occasion app (answered .accepted) assignedToBob = some (some o) ∧
    LeftRight app assignedToBob (answered .accepted) o.place (bob, .assigned) (attempts app assignedToBob failedTwice ⟨[], [], []⟩) :=
  ⟨_, rfl, left_right_of_careful (by decide) failedTwice_careful rfl (bob, .assigned)⟩

/-- The third attempt tells Bob. -/
theorem told_at_last : Told app assignedToBob (answered .accepted)
    (handle app (answered .accepted) assignedToBob (attempts app assignedToBob failedTwice ⟨[], [], []⟩)).1 :=
  told_of_careful (by decide) failedTwice_careful (by decide +kernel)

/-- The mailer refuses Bob's mail, the event is tried again, and that goes without error. -/
theorem told_nobody : ¬ ∀ (f : FanOut) (e : Event) (a : Answers) (before : List Answers),
    (handle f a e (attempts f e before ⟨[], [], []⟩)).2 = true → Told f e a (handle f a e (attempts f e before ⟨[], [], []⟩)).1 := by
  intro h
  have hok : (handle app (answered .accepted) assignedToBob (attempts app assignedToBob [answered .refused] ⟨[], [], []⟩)).2 = true := by
    decide +kernel
  have htold := h app assignedToBob (answered .accepted) [answered .refused] hok
  have hbob := (htold _ rfl ⟨bob, .assigned, "Alice assigned CP-1 to you".toList, "Fix the door".toList⟩ (by decide +kernel) rfl).2
    (by decide +kernel)
  revert hbob
  decide +kernel

end Notify
end Armature
