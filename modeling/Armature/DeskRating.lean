import Armature.GoText
import Armature.Locking
/-!
# DeskRating — the one chance to rate a request (`desk/mail.go`, `desk/extras.go`, `events/consumer.go`)

The mail that a request is resolved carries a token to its reporter, which is made once and kept as a digest alone.  An
attempt at an event makes it in a transaction of its own and mails it afterwards; an attempt that fails is repeated, and one
that mailed anybody is set aside.  What the mails say besides is left out.
-/
namespace Armature
namespace Rating

open List
open Go (Text)

structure User where
  id : Nat
  email : Text
  isActive : Bool

structure Request where
  reporter : Nat
  users : List User

/-- `issue.transitioned`. -/
structure Event where
  id : Nat
  actorID : Nat
  toStatus : Text
  deriving DecidableEq

inductive Letter where
  | resolved (toStatus : Text)
  | rate (toStatus : Text) (token : Nat)

def Letter.token : Letter → Option Nat
  | .resolved _ => none
  | .rate _ t => some t

structure Mail where
  to_ : Text
  letter : Letter

structure Recipient where
  email : Text
  reporter : Bool
  deriving DecidableEq

structure Data where
  done : Bool
  watchers : List Nat
  pending : List Event
  digest : Option Nat
  made : List Nat
  handed : List Mail
  accepted : List Mail
  ended : List (List Nat × List Mail)

def recipients (req : Request) (d : Data) (except_ : Nat) : List Recipient :=
  ((req.users.filter fun u => u.isActive && decide (u.id ≠ except_ ∧ (u.id = req.reporter ∨ u.id ∈ d.watchers))).map
    fun u => ⟨u.email, decide (u.id = req.reporter)⟩).eraseDups

inductive Stage where
  /-- The request is looked up, and then whether it is done. -/
  | looking | asking | minting
  | addressing (token : Option Nat)
  /-- Who is still to be mailed, how many were, and whether a mail was refused. -/
  | mailing (token : Option Nat) (to_ : List Recipient) (sent : Nat) (refused : Bool)
  | acking | settingAside

structure Attempt where
  event : Event
  stage : Stage

def letterFor (e : Event) (token : Option Nat) (r : Recipient) : Letter :=
  match token with
  | none => .resolved e.toStatus
  | some t => if r.reporter then .rate e.toStatus t else .resolved e.toStatus

def Attempt.Holds (p : Attempt) (t : Nat) : Prop :=
  match p.stage with
  | .addressing token => token = some t
  | .mailing token to_ _ _ => token = some t ∧ ∃ r ∈ to_, r.reporter = true
  | _ => False

def Data.succeed (d : Data) : Data := { d with ended := (d.made, d.accepted) :: d.ended }
def Data.mint (d : Data) (t : Nat) : Data := { d with digest := some t, made := t :: d.made }
def Data.hand (d : Data) (m : Mail) : Data := { d with handed := m :: d.handed }

inductive Start (d : Data) : Data → Option Attempt → Prop where
  | transition (e : Event) (done : Bool) : Start d { d with done := done, pending := d.pending ++ [e] } none
  | watch (watchers : List Nat) : Start d { d with watchers := watchers } none
  | handle (e : Event) : e ∈ d.pending → Start d d (some ⟨e, .looking⟩)

def Failed (e : Event) (p : Option Attempt) : Prop := p = none ∨ p = some ⟨e, .settingAside⟩

/-- The steps of an attempt.  What loses a token that was made, or may, happens where `lapse` holds. -/
inductive Act (lapse : Prop) (req : Request) (d : Data) (others : List Attempt) :
  Attempt → Data → Option Attempt → Prop where
  | found (e : Event) : Act lapse req d others ⟨e, .looking⟩ d (some ⟨e, .asking⟩)
  | isDone (e : Event) : d.done = true → Act lapse req d others ⟨e, .asking⟩ d (some ⟨e, .minting⟩)
  | notDone (e : Event) : d.done = false → (lapse ∨ ∀ q ∈ others, ∀ t, ¬ q.Holds t) →
      Act lapse req d others ⟨e, .asking⟩ d.succeed (some ⟨e, .acking⟩)
  | unread (e : Event) (s : Stage) (p : Option Attempt) : s = .looking ∨ s = .asking ∨ s = .minting → Failed e p →
      Act lapse req d others ⟨e, s⟩ d p
  | mint (e : Event) (t : Nat) : d.digest = none → t ∉ d.made → (lapse ∨ e.actorID ≠ req.reporter) →
      Act lapse req d others ⟨e, .minting⟩ (d.mint t) (some ⟨e, .addressing (some t)⟩)
  /-- The token was made, and the transaction is reported as failed. -/
  | mintUnheard (e : Event) (t : Nat) (p : Option Attempt) : d.digest = none → t ∉ d.made → lapse → Failed e p →
      Act lapse req d others ⟨e, .minting⟩ (d.mint t) p
  | minted (e : Event) : d.digest ≠ none → Act lapse req d others ⟨e, .minting⟩ d (some ⟨e, .addressing none⟩)
  | address (e : Event) (token : Option Nat) (to_ : List Recipient) : to_.Perm (recipients req d e.actorID) →
      Act lapse req d others ⟨e, .addressing token⟩ d (some ⟨e, .mailing token to_ 0 false⟩)
  | notAddressed (e : Event) (token : Option Nat) (p : Option Attempt) : (lapse ∨ token = none) → Failed e p →
      Act lapse req d others ⟨e, .addressing token⟩ d p
  | accept (e : Event) (token : Option Nat) (r : Recipient) (to_ : List Recipient) (sent : Nat) (refused : Bool) :
      Act lapse req d others ⟨e, .mailing token (r :: to_) sent refused⟩
        { d.hand ⟨r.email, letterFor e token r⟩ with accepted := ⟨r.email, letterFor e token r⟩ :: d.accepted }
        (some ⟨e, .mailing token to_ (sent + 1) refused⟩)
  | refuse (e : Event) (token : Option Nat) (r : Recipient) (to_ : List Recipient) (sent : Nat) (refused : Bool) :
      (lapse ∨ (letterFor e token r).token = none) →
      Act lapse req d others ⟨e, .mailing token (r :: to_) sent refused⟩ (d.hand ⟨r.email, letterFor e token r⟩)
        (some ⟨e, .mailing token to_ sent true⟩)
  | succeed (e : Event) (token : Option Nat) (sent : Nat) : (lapse ∨ ∀ q ∈ others, ∀ t, ¬ q.Holds t) →
      Act lapse req d others ⟨e, .mailing token [] sent false⟩ d.succeed (some ⟨e, .acking⟩)
  /-- Nobody was mailed. -/
  | retry (e : Event) (token : Option Nat) (p : Option Attempt) : Failed e p →
      Act lapse req d others ⟨e, .mailing token [] 0 true⟩ d p
  /-- Somebody was, who would be mailed twice. -/
  | permanent (e : Event) (token : Option Nat) (sent : Nat) :
      Act lapse req d others ⟨e, .mailing token [] (sent + 1) true⟩ d (some ⟨e, .settingAside⟩)
  | ack (e : Event) (s : Stage) : s = .acking ∨ s = .settingAside →
      Act lapse req d others ⟨e, s⟩ { d with pending := d.pending.filter (· ≠ e) } none
  | notAcked (e : Event) (s : Stage) : s = .acking ∨ s = .settingAside → Act lapse req d others ⟨e, s⟩ d none

def Spared (s s' : Interleaving.System Data Attempt) :
    Prop := ∀ d l r p, s = ⟨d, l ++ p :: r⟩ → s' = ⟨d, l ++ r⟩ → ∀ t, ¬ p.Holds t

def fresh (done : Bool) (watchers : List Nat) : Data := ⟨done, watchers, [], none, [], [], [], []⟩

def RunWhere (lapse : Prop) (req : Request) (done : Bool) (watchers : List Nat) : Interleaving.System Data Attempt → Prop :=
  Relation.ReflTransGen (fun s s' => Interleaving.Step (fun d _ d' p => Start d d' p) (Act lapse req) s s' ∧
    (lapse ∨ Spared s s'))
    ⟨fresh done watchers, []⟩

abbrev Run (req : Request) (done : Bool) (watchers : List Nat) : Interleaving.System Data Attempt → Prop :=
  RunWhere True req done watchers

abbrev CarefulRun (req : Request) (done : Bool) (watchers : List Nat) : Interleaving.System Data Attempt → Prop :=
  RunWhere False req done watchers

/-! ## One token, and one reader -/

section
variable {lapse : Prop} {req : Request} {d d' : Data} {others : List Attempt} {p : Attempt} {p' : Option Attempt}

def ToReporter (req : Request) (email : Text) : Prop := ∃ u ∈ req.users, u.id = req.reporter ∧ u.email = email

def Heard (req : Request) (accepted : List Mail) (t : Nat) :
    Prop := ∃ m ∈ accepted, m.letter.token = some t ∧ ToReporter req m.to_

/-- The tokens made are the row's, and no mail carries one to anybody but the reporter. -/
structure Sane (req : Request) (d : Data) : Prop where
  made : d.made = d.digest.toList
  letters : ∀ m ∈ d.handed, ∀ t, m.letter.token = some t → ToReporter req m.to_

def Attempt.Marked (req : Request) (p : Attempt) : Prop :=
  match p.stage with
  | .mailing _ to_ _ _ => ∀ r ∈ to_, r.reporter = true → ToReporter req r.email
  | _ => True

theorem letterFor_token {e : Event} {token : Option Nat} {r : Recipient} {t : Nat} :
    (letterFor e token r).token = some t ↔ token = some t ∧ r.reporter = true := by
  unfold letterFor
  cases token with
  | none => simp [Letter.token]
  | some =>
    cases hr : r.reporter
    · simp [Letter.token]
    · simp [Letter.token]

theorem recipients_marked {except_ : Nat} : ∀ r ∈ recipients req d except_, r.reporter = true → ToReporter req r.email := by
  intro r hr hreporter
  obtain ⟨u, hu, rfl⟩ := mem_map.1 (mem_eraseDups.1 hr)
  exact ⟨u, (mem_filter.1 hu).1, of_decide_eq_true hreporter, rfl⟩

theorem reporter_hears {except_ : Nat} (hactive : ∃ u ∈ req.users, u.id = req.reporter ∧ u.isActive = true)
    (hne : except_ ≠ req.reporter) : ∃ r ∈ recipients req d except_, r.reporter = true := by
  obtain ⟨u, hu, hid, hactive⟩ := hactive
  refine ⟨⟨u.email, decide (u.id = req.reporter)⟩, mem_eraseDups.2 (mem_map_of_mem (mem_filter.2 ⟨hu, ?_⟩)),
    decide_eq_true hid⟩
  simp [hactive, hid, hne.symm]

theorem Failed.marked {e : Event} (h : Failed e p') : ∀ q ∈ p', q.Marked req := by
  rcases h with rfl | rfl
  · exact fun q hq => by cases hq
  · exact fun q hq => by cases hq; trivial

theorem Sane.hand (h : Sane req d) {e : Event} {token : Option Nat} {r : Recipient}
    (hr : r.reporter = true → ToReporter req r.email) :
    ∀ m ∈ (d.hand ⟨r.email, letterFor e token r⟩).handed, ∀ t, m.letter.token = some t → ToReporter req m.to_ := by
  intro m hm t ht
  rcases mem_cons.1 hm with rfl | hm
  · exact hr (letterFor_token.1 ht).2
  · exact h.letters m hm t ht

theorem Sane.mint (h : Sane req d) {t : Nat} (hnone : d.digest = none) : Sane req (d.mint t) := by
  refine ⟨?_, h.letters⟩
  have hmade : d.made = [] := by rw [h.made, hnone]; rfl
  change t :: d.made = [t]
  rw [hmade]

theorem Act.sane (ha : Act lapse req d others p d' p') (h : Sane req d) (hp : p.Marked req) :
    Sane req d' ∧ ∀ q ∈ p', q.Marked req := by
  have hnext : ∀ {e : Event} {s : Stage}, (Attempt.mk e s).Marked req → ∀ q ∈ some (Attempt.mk e s), q.Marked req := by
    intro e s hq q hmem
    cases hmem
    exact hq
  cases ha with
  | found => exact ⟨h, hnext trivial⟩
  | isDone => exact ⟨h, hnext trivial⟩
  | notDone => exact ⟨⟨h.made, h.letters⟩, hnext trivial⟩
  | unread e s _ _ hf => exact ⟨h, hf.marked⟩
  | mint e t hnone _ _ => exact ⟨h.mint hnone, hnext trivial⟩
  | mintUnheard e t _ hnone _ _ hf => exact ⟨h.mint hnone, hf.marked⟩
  | minted => exact ⟨h, hnext trivial⟩
  | address e token to_ hperm => exact ⟨h, hnext fun r hr => recipients_marked r (hperm.mem_iff.1 hr)⟩
  | notAddressed e token _ _ hf => exact ⟨h, hf.marked⟩
  | accept e token r to_ sent refused =>
    exact ⟨⟨h.made, h.hand (hp r mem_cons_self)⟩, hnext fun s hs => hp s (mem_cons_of_mem r hs)⟩
  | refuse e token r to_ sent refused _ =>
    exact ⟨⟨h.made, h.hand (hp r mem_cons_self)⟩, hnext fun s hs => hp s (mem_cons_of_mem r hs)⟩
  | succeed => exact ⟨⟨h.made, h.letters⟩, hnext trivial⟩
  | retry e token _ hf => exact ⟨h, hf.marked⟩
  | permanent => exact ⟨h, hnext trivial⟩
  | ack => exact ⟨⟨h.made, h.letters⟩, fun q hq => by cases hq⟩
  | notAcked => exact ⟨h, fun q hq => by cases hq⟩

theorem Start.sane (hs : Start d d' p') (h : Sane req d) : Sane req d' ∧ ∀ q ∈ p', q.Marked req := by
  cases hs with
  | transition => exact ⟨⟨h.made, h.letters⟩, fun q hq => by cases hq⟩
  | watch => exact ⟨⟨h.made, h.letters⟩, fun q hq => by cases hq⟩
  | handle => exact ⟨h, fun q hq => by cases hq; trivial⟩

/-! ## The token is mailed -/

def Attempt.ByOthers (req : Request) (p : Attempt) : Prop :=
  match p.stage with
  | .addressing token => token ≠ none → p.event.actorID ≠ req.reporter
  | _ => True

theorem Failed.byOthers {e : Event} (h : Failed e p') : ∀ q ∈ p', q.ByOthers req := by
  rcases h with rfl | rfl
  · exact fun q hq => by cases hq
  · exact fun q hq => by cases hq; trivial

structure Owes (req : Request) (d : Data) (others : List Attempt) (p : Attempt) (d' : Data) (p' : Option Attempt) :
  Prop where
  accepted : d.accepted ⊆ d'.accepted
  holds : ∀ t, p.Holds t → Heard req d'.accepted t ∨ ∃ q ∈ p', q.Holds t
  made : ∀ t ∈ d'.made, t ∈ d.made ∨ ∃ q ∈ p', q.Holds t
  mover : ∀ q ∈ p', q.ByOthers req
  ended : d'.ended = d.ended ∨ d' = d.succeed ∧ (∀ q ∈ others, ∀ t, ¬ q.Holds t) ∧ ∀ t, ¬ p.Holds t

theorem Owes.idle (hp : ∀ t, ¬ p.Holds t) (hq : ∀ q ∈ p', q.ByOthers req) : Owes req d others p d p' :=
  ⟨List.Subset.refl _, fun t ht => absurd ht (hp t), fun _ ht => .inl ht, hq, .inl rfl⟩

theorem Act.owes (hactive : ∃ u ∈ req.users, u.id = req.reporter ∧ u.isActive = true) (ha : Act False req d others p d' p')
    (hmarked : p.Marked req) (hothers : p.ByOthers req) : Owes req d others p d' p' := by
  have hnext : ∀ {e : Event} {s : Stage}, (Attempt.mk e s).ByOthers req → ∀ q ∈ some (Attempt.mk e s), q.ByOthers req := by
    intro e s hq q hmem
    cases hmem
    exact hq
  cases ha with
  | found => exact .idle (fun _ => id) (hnext trivial)
  | isDone => exact .idle (fun _ => id) (hnext trivial)
  | notDone e _ hfree =>
    exact ⟨List.Subset.refl _, fun _ ht => ht.elim, fun _ ht => .inl ht, hnext trivial,
      .inr ⟨rfl, hfree.resolve_left id, fun _ => id⟩⟩
  | unread e s _ hs hf =>
    refine .idle (fun t ht => ?_) hf.byOthers
    rcases hs with rfl | rfl | rfl
    · exact ht
    · exact ht
    · exact ht
  | mint e t _ _ hactor =>
    refine ⟨List.Subset.refl _, fun _ ht => ht.elim, fun s hs => ?_, hnext fun _ => hactor.resolve_left id, .inl rfl⟩
    rcases mem_cons.1 hs with rfl | hs
    · exact .inr ⟨_, rfl, rfl⟩
    · exact .inl hs
  | mintUnheard e t _ _ _ hlapse _ => exact hlapse.elim
  | minted => exact .idle (fun _ => id) (hnext fun hne => absurd rfl hne)
  | address e token to_ hperm =>
    refine ⟨List.Subset.refl _, fun t ht => .inr ⟨_, rfl, ht, ?_⟩, fun _ ht => .inl ht, hnext trivial, .inl rfl⟩
    have htoken : token = some t := ht
    obtain ⟨r, hr, hreporter⟩ := reporter_hears (d := d) hactive (hothers (by rw [htoken]; exact Option.some_ne_none t))
    exact ⟨r, hperm.mem_iff.2 hr, hreporter⟩
  | notAddressed e token _ htoken hf =>
    refine .idle (fun t ht => ?_) hf.byOthers
    have hsome : token = some t := ht
    rw [htoken.resolve_left id] at hsome
    cases hsome
  | accept =>
    refine ⟨subset_cons_self _ _, fun t ht => ?_, fun _ ht => .inl ht, hnext trivial, .inl rfl⟩
    obtain ⟨htoken, x, hx, hreporter⟩ := ht
    rcases mem_cons.1 hx with rfl | hx
    · exact .inl ⟨_, mem_cons_self, letterFor_token.2 ⟨htoken, hreporter⟩, hmarked x mem_cons_self hreporter⟩
    · exact .inr ⟨_, rfl, htoken, x, hx, hreporter⟩
  | refuse e token r to_ sent refused hnone =>
    refine ⟨List.Subset.refl _, fun t ht => ?_, fun _ ht => .inl ht, hnext trivial, .inl rfl⟩
    obtain ⟨htoken, x, hx, hreporter⟩ := ht
    rcases mem_cons.1 hx with rfl | hx
    · have hsome := letterFor_token (e := e) |>.2 ⟨htoken, hreporter⟩
      rw [hnone.resolve_left id] at hsome
      cases hsome
    · exact .inr ⟨_, rfl, htoken, x, hx, hreporter⟩
  | succeed e token sent hfree =>
    have hdone : ∀ t, ¬ (Attempt.mk e (.mailing token [] sent false)).Holds t := fun t ⟨_, r, hr, _⟩ => not_mem_nil hr
    exact ⟨List.Subset.refl _, fun t ht => absurd ht (hdone t), fun _ ht => .inl ht, hnext trivial,
      .inr ⟨rfl, hfree.resolve_left id, hdone⟩⟩
  | retry e token _ hf => exact .idle (fun t ⟨_, r, hr, _⟩ => not_mem_nil hr) hf.byOthers
  | permanent => exact .idle (fun t ⟨_, r, hr, _⟩ => not_mem_nil hr) (hnext trivial)
  | ack e s hs =>
    refine ⟨List.Subset.refl _, fun t ht => ?_, fun _ ht => .inl ht, fun q hq => (by cases hq), .inl rfl⟩
    rcases hs with rfl | rfl
    · exact ht.elim
    · exact ht.elim
  | notAcked e s hs =>
    refine .idle (fun t ht => ?_) fun q hq => by cases hq
    rcases hs with rfl | rfl
    · exact ht
    · exact ht

end

/-! ## A run -/

section
variable {lapse : Prop} {req : Request} {done : Bool} {watchers : List Nat} {sys : Interleaving.System Data Attempt}

theorem run_sane (hrun : RunWhere lapse req done watchers sys) :
    Sane req sys.shared ∧ ∀ p ∈ sys.running, p.Marked req := by
  refine Interleaving.holds_where (I := fun d ps => Sane req d ∧ ∀ p ∈ ps, p.Marked req) ?_ ?_ ?_ ?_ hrun
  · rintro d running d' p ⟨h, hp⟩ hs
    obtain ⟨h', hq⟩ := hs.sane h
    exact ⟨h', fun q hmem => (mem_append.1 hmem).elim (fun hq' => hq q (Option.mem_toList.1 hq')) (hp q)⟩
  · rintro d l r p d' p' ⟨h, hp⟩ ha
    obtain ⟨h', hq⟩ := ha.sane h (hp p (mem_append_right _ mem_cons_self))
    refine ⟨h', fun q hmem => ?_⟩
    rcases mem_append.1 hmem with hmem | hmem
    · rcases mem_append.1 hmem with hmem | hmem
      · exact hp q (mem_append_left _ hmem)
      · exact hq q (Option.mem_toList.1 hmem)
    · exact hp q (mem_append_right _ (mem_cons_of_mem p hmem))
  · rintro d l r p - ⟨h, hp⟩
    refine ⟨h, fun q hmem => hp q ?_⟩
    exact (mem_append.1 hmem).elim (mem_append_left _) fun hr => mem_append_right _
      (mem_cons_of_mem p hr)
  · exact ⟨⟨rfl, nofun⟩, nofun⟩

/-- The tokens made have been mailed or are about to be, and were mailed whenever an attempt ended with success. -/
structure Owed (req : Request) (d : Data) (ps : List Attempt) : Prop where
  made : ∀ t ∈ d.made, Heard req d.accepted t ∨ ∃ p ∈ ps, p.Holds t
  byOthers : ∀ p ∈ ps, p.ByOthers req
  ended : ∀ x ∈ d.ended, ∀ t ∈ x.1, Heard req x.2 t

theorem Heard.mono {accepted accepted' : List Mail} {t : Nat} (h : Heard req accepted t) (hsub : accepted ⊆ accepted') :
    Heard req accepted' t := by
  obtain ⟨m, hm, ht⟩ := h
  exact ⟨m, hsub hm, ht⟩

theorem Owed.act {d d' : Data} {l r : List Attempt} {p : Attempt} {p' : Option Attempt} (h : Owed req d (l ++ p :: r))
    (ho : Owes req d (l ++ r) p d' p') : Owed req d' (l ++ p'.toList ++ r) := by
  have hafter : ∀ {q}, q ∈ p' → q ∈ l ++ p'.toList ++ r := fun hq =>
    mem_append_left _ (mem_append_right _ (Option.mem_toList.2 hq))
  have hnew : ∀ {t}, (∃ q ∈ p', q.Holds t) → ∃ q ∈ l ++ p'.toList ++ r, q.Holds t := fun ⟨q, hq, ht⟩ => ⟨q, hafter hq, ht⟩
  refine ⟨fun t ht => ?_, fun q hq => ?_, fun x hx => ?_⟩
  · rcases ho.made t ht with hold | hq
    · rcases h.made t hold with hheard | ⟨q, hq, hholds⟩
      · exact .inl (hheard.mono ho.accepted)
      · rcases mem_append.1 hq with hq | hq
        · exact .inr ⟨q, mem_append_left _ (mem_append_left _ hq), hholds⟩
        · rcases mem_cons.1 hq with rfl | hq
          · exact (ho.holds t hholds).imp_right hnew
          · exact .inr ⟨q, mem_append_right _ hq, hholds⟩
    · exact .inr (hnew hq)
  · rcases mem_append.1 hq with hq | hq
    · rcases mem_append.1 hq with hq | hq
      · exact h.byOthers q (mem_append_left _ hq)
      · exact ho.mover q (Option.mem_toList.1 hq)
    · exact h.byOthers q (mem_append_right _ (mem_cons_of_mem p hq))
  · rcases ho.ended with he | ⟨rfl, hfree, hp⟩
    · exact h.ended x (he ▸ hx)
    · rcases mem_cons.1 hx with rfl | hx
      · intro t ht
        refine (h.made t ht).resolve_right ?_
        rintro ⟨q, hq, hholds⟩
        rcases mem_append.1 hq with hq | hq
        · exact hfree q (mem_append_left _ hq) t hholds
        · rcases mem_cons.1 hq with rfl | hq
          · exact hp t hholds
          · exact hfree q (mem_append_right _ hq) t hholds
      · exact h.ended x hx

theorem Owed.die {d : Data} {l r : List Attempt} {p : Attempt} (h : Owed req d (l ++ p :: r)) (hp : ∀ t, ¬ p.Holds t) :
    Owed req d (l ++ r) := by
  refine ⟨fun t ht => (h.made t ht).imp_right ?_, fun q hq => h.byOthers q (Interleaving.mem_between hq), h.ended⟩
  rintro ⟨q, hq, hholds⟩
  rcases mem_append.1 hq with hq | hq
  · exact ⟨q, mem_append_left _ hq, hholds⟩
  · rcases mem_cons.1 hq with rfl | hq
    · exact absurd hholds (hp t)
    · exact ⟨q, mem_append_right _ hq, hholds⟩

theorem run_owed (hactive : ∃ u ∈ req.users, u.id = req.reporter ∧ u.isActive = true)
    (hrun : CarefulRun req done watchers sys) :
    Owed req sys.shared sys.running := by
  refine (Interleaving.holds_where (I := fun d ps => Owed req d ps ∧ Sane req d ∧ ∀ p ∈ ps, p.Marked req) ?_ ?_ ?_ ?_ hrun).1
  · rintro d running d' p ⟨h, hsane, hp⟩ hs
    obtain ⟨hsane', hmarked⟩ := Start.sane hs hsane
    refine ⟨?_, hsane', fun q hq => (mem_append.1 hq).elim (fun hq' => hmarked q (Option.mem_toList.1 hq')) (hp q)⟩
    cases hs with
    | transition => exact ⟨h.made, h.byOthers, h.ended⟩
    | watch => exact ⟨h.made, h.byOthers, h.ended⟩
    | handle =>
      refine ⟨fun t ht => (h.made t ht).imp_right fun ⟨q, hq, hholds⟩ => ⟨q, mem_cons_of_mem _ hq, hholds⟩, ?_, h.ended⟩
      exact forall_mem_cons.2 ⟨trivial, h.byOthers⟩
  · rintro d l r p d' p' ⟨h, hsane, hp⟩ ha
    have hin : p ∈ l ++ p :: r := mem_append_right _ mem_cons_self
    obtain ⟨hsane', hmarked⟩ := ha.sane hsane (hp p hin)
    refine ⟨h.act (ha.owes hactive (hp p hin) (h.byOthers p hin)), hsane', fun q hq => ?_⟩
    rcases mem_append.1 hq with hq | hq
    · rcases mem_append.1 hq with hq | hq
      · exact hp q (mem_append_left _ hq)
      · exact hmarked q (Option.mem_toList.1 hq)
    · exact hp q (mem_append_right _ (mem_cons_of_mem p hq))
  · rintro d l r p hspared ⟨h, hsane, hp⟩
    exact ⟨h.die (hspared.resolve_left id d l r p rfl rfl), hsane, fun q hq => hp q (Interleaving.mem_between hq)⟩
  · exact ⟨⟨nofun, nofun,
      nofun⟩, ⟨rfl, nofun⟩,
        nofun⟩

theorem one_token_one_reader (hrun : RunWhere lapse req done watchers sys) :
    sys.shared.made.length ≤ 1 ∧ ∀ m ∈ sys.shared.handed, ∀ t, m.letter.token = some t → ToReporter req m.to_ := by
  obtain ⟨hsane, _⟩ := run_sane hrun
  refine ⟨?_, hsane.letters⟩
  rw [hsane.made]
  cases sys.shared.digest <;> simp

/-- **The chance to rate is kept** in every careful run. -/
theorem chance_kept (hactive : ∃ u ∈ req.users, u.id = req.reporter ∧ u.isActive = true)
    (hrun : CarefulRun req done watchers sys) :
    sys.shared.made.length ≤ 1 ∧ (∀ m ∈ sys.shared.handed, ∀ t, m.letter.token = some t → ToReporter req m.to_) ∧
      ∀ x ∈ sys.shared.ended, ∀ t ∈ x.1, Heard req x.2 t :=
  ⟨(one_token_one_reader hrun).1, (one_token_one_reader hrun).2, (run_owed hactive hrun).ended⟩

end

/-! ## A mail refused, and the next one without the token -/

def customer : User := ⟨1, "ada@customer.example".toList, true⟩

def request : Request := ⟨1, [customer]⟩

def resolved : Event := ⟨1, 2, "Done".toList⟩

section
variable {lapse : Prop} {req : Request} {done : Bool} {watchers : List Nat} {d d' : Data}

theorem RunWhere.start {p : Option Attempt} (h : RunWhere lapse req done watchers ⟨d, []⟩) (hs : Start d d' p) :
    RunWhere lapse req done watchers ⟨d', p.toList⟩ := by
  have hspared : Spared ⟨d, []⟩ ⟨d', p.toList ++ []⟩ := Interleaving.spared_start
  have hlast := Relation.ReflTransGen.tail h ⟨.start hs, .inr hspared⟩
  rwa [append_nil] at hlast

theorem RunWhere.act {p : Attempt} {p' : Option Attempt} (h : RunWhere lapse req done watchers ⟨d, [p]⟩)
    (ha : Act lapse req d [] p d' p') (hgoes : lapse ∨ p' ≠ none) : RunWhere lapse req done watchers ⟨d', p'.toList⟩ := by
  have hspared : p' ≠ none → Spared ⟨d, [] ++ p :: []⟩ ⟨d', [] ++ p'.toList ++ []⟩ := by
    intro hne
    obtain ⟨x, rfl⟩ := Option.ne_none_iff_exists'.1 hne
    exact Interleaving.spared_act
  have hlast := Relation.ReflTransGen.tail h ⟨.act (l := []) (r := []) ha, hgoes.imp_right hspared⟩
  rwa [append_nil] at hlast

theorem token_made : RunWhere lapse request false [] ⟨(⟨true, [], [resolved], none, [], [], [], []⟩ : Data).mint 7,
    [⟨resolved, .addressing (some 7)⟩]⟩ := by
  have hbegin : RunWhere lapse request false [] ⟨fresh false [], []⟩ := Relation.ReflTransGen.refl
  have htaken := (hbegin.start (.transition resolved true)).start (.handle resolved mem_cons_self)
  have hdone := (htaken.act (.found resolved) (.inr (Option.some_ne_none _))).act (.isDone resolved rfl)
    (.inr (Option.some_ne_none _))
  exact hdone.act (.mint resolved 7 rfl not_mem_nil (.inr (by decide))) (.inr (Option.some_ne_none _))

end

def reporterOnly : List Recipient := [⟨"ada@customer.example".toList, true⟩]

/-- The mailer takes the mail at once. -/
theorem taken_at_once : ∃ sys, CarefulRun request false [] sys ∧ sys.shared.made = [7] ∧
    ∃ x ∈ sys.shared.ended, 7 ∈ x.1 ∧ Heard request x.2 7 := by
  have haddressed := (@token_made False).act (.address resolved (some 7) reporterOnly (by decide))
    (.inr (Option.some_ne_none _))
  have hmailed := haddressed.act (.accept resolved (some 7) _ [] 0 false) (.inr (Option.some_ne_none _))
  have hended := hmailed.act (.succeed resolved (some 7) 1 (.inr nofun))
    (.inr (Option.some_ne_none _))
  have hkept := chance_kept ⟨customer, mem_cons_self, rfl, rfl⟩ hended
  exact ⟨_, hended, rfl, _, mem_cons_self, mem_cons_self, hkept.2.2 _ mem_cons_self 7 mem_cons_self⟩

/-- **The mailer refuses the mail, and the attempt after it succeeds without the token.** -/
theorem refused_and_lost : (∃ u ∈ request.users, u.id = request.reporter ∧ u.isActive = true) ∧
    ∃ sys, Run request false [] sys ∧ ∃ x ∈ sys.shared.ended, 7 ∈ x.1 ∧ ¬ Heard request x.2 7 := by
  refine ⟨⟨customer, mem_cons_self, rfl, rfl⟩, ?_⟩
  have hevent : resolved ∈ [resolved] := mem_cons_self
  have haddressed := (@token_made True).act (.address resolved (some 7) reporterOnly (by decide)) (.inl trivial)
  have hrefused := haddressed.act (.refuse resolved (some 7) _ [] 0 false (.inl trivial)) (.inl trivial)
  have hagain := (hrefused.act (.retry resolved (some 7) none (.inl rfl)) (.inl trivial)).start (.handle resolved hevent)
  have hdone := (hagain.act (.found resolved) (.inl trivial)).act (.isDone resolved rfl) (.inl trivial)
  have hminted := hdone.act (.minted resolved (Option.some_ne_none 7)) (.inl trivial)
  have haddressed' := hminted.act (.address resolved none reporterOnly (by decide)) (.inl trivial)
  have hmailed := haddressed'.act (.accept resolved none _ [] 0 false) (.inl trivial)
  have hended := hmailed.act (.succeed resolved none 1 (.inl trivial)) (.inl trivial)
  refine ⟨_, hended, _, mem_cons_self, mem_cons_self, ?_⟩
  rintro ⟨m, hm, htoken, _⟩
  rcases mem_cons.1 hm with rfl | hm
  · cases htoken
  · exact not_mem_nil hm

end Rating
end Armature
