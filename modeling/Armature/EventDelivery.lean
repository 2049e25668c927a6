import Armature.EventRelay
import Mathlib.Data.List.Nodup
/-!
# EventDelivery — no committed event is lost (`events/relay.go`, `events/backlog.go`, `events/consumer.go`)

A floor is computed from what the groups needed at different moments; it is safe to trim at since a group that is past an
entry stays past it.  Each process relies on such facts only, so each step is judged by itself (`stream_loses_nothing`).
-/
namespace Armature
namespace Events

open List
open Go (Text)
open GroupStream (Stream Passed Keeps Below Onward)

/-! ## Floors -/

theorem compareIDs_lt {a b : StreamID} : compareIDs a b = .lt ↔ a < b := by
  unfold compareIDs
  rw [Ordering.then_eq_lt, Nat.compare_eq_lt, Nat.compare_eq_eq, Nat.compare_eq_lt, Prod.Lex.lt_iff]

theorem needed_le_last (g : GroupState) : needed g ≤ g.lastDelivered := by
  unfold needed
  split
  · split_ifs with h
    · exact (compareIDs_lt.1 h.2).le
    · exact le_rfl
  · exact le_rfl

theorem needed_le_oldest {g : GroupState} {oldest : StreamID} (h : g.oldestPending = some oldest) (hp : 0 < g.pending) :
    needed g ≤ oldest := by
  unfold needed
  rw [h]
  dsimp only
  split_ifs with hlt
  · exact le_rfl
  · exact not_lt.1 fun hn => hlt ⟨hp, compareIDs_lt.2 hn⟩

theorem lower_le (start : Option StreamID) (g : GroupState) :
    ∃ floor, lower start g = some floor ∧ floor ≤ needed g ∧ ∀ f ∈ start, floor ≤ f := by
  cases start with
  | none => exact ⟨needed g, rfl, le_rfl, nofun⟩
  | some f =>
    by_cases hlt : compareIDs (needed g) f = .lt
    · refine ⟨needed g, if_pos hlt, le_rfl, fun f' hf => ?_⟩
      rw [← Option.mem_some_iff.1 hf]
      exact (compareIDs_lt.1 hlt).le
    · refine ⟨f, if_neg hlt, not_lt.1 fun hn => hlt (compareIDs_lt.2 hn), fun f' hf => ?_⟩
      exact (Option.mem_some_iff.1 hf).le

theorem foldl_lower : ∀ (groups : List GroupState) (start : Option StreamID),
    (∀ floor ∈ groups.foldl lower start, (∀ f ∈ start, floor ≤ f) ∧ ∀ g ∈ groups, floor ≤ needed g) ∧
      (groups.foldl lower start = none → groups = [])
  | [], start => by
    refine ⟨fun floor hfloor => ⟨fun f hf => ?_, nofun⟩, fun _ => rfl⟩
    exact (Option.mem_unique hfloor hf).le
  | g :: groups, start => by
    obtain ⟨floor₁, hl, hg, hstart⟩ := lower_le start g
    obtain ⟨hsome, hnone⟩ := foldl_lower groups (lower start g)
    rw [foldl_cons]
    constructor
    · intro floor hfloor
      obtain ⟨hle, hall⟩ := hsome floor hfloor
      have hle₁ : floor ≤ floor₁ := hle floor₁ hl
      exact ⟨fun f hf => hle₁.trans (hstart f hf), forall_mem_cons.2 ⟨hle₁.trans hg, hall⟩⟩
    · intro h
      have hgroups := hnone h
      rw [hgroups, hl] at h
      cases h

theorem oldestNeeded_le {groups : List GroupState} {floor : StreamID} (h : oldestNeeded groups = some floor) :
    ∀ g ∈ groups, floor ≤ needed g := ((foldl_lower groups none).1 floor h).2

theorem oldestNeeded_none {groups : List GroupState} (h : oldestNeeded groups = none) : groups = [] :=
  (foldl_lower groups none).2 h

/-! ## What holds in between -/

def Waited (relay : Relay) (names : List Text) (g : Text) : Prop := g ∈ names ∧ relay.waitsFor g = true

def Settled (d : Data) (g : Text) (e : Event) : Prop := (g, e) ∈ d.handled ∨ (g, e.id) ∈ d.auditLog

def Appended (d : Data) (e : Event) : Prop := ∃ m ∈ d.appended, m.2 = e

structure Kept (relay : Relay) (names : List Text) (d : Data) : Prop where
  keeps : Keeps (Waited relay names) d.appended d.stream
  settled : ∀ g, Waited relay names g → ∀ m ∈ d.appended, Passed d.stream g m.1 → Settled d g m.2
  appended : ∀ row ∈ d.outbox, row.published = true → Appended d row.event
  ids : (d.outbox.map fun row => row.event.id).Nodup

structure Told (d : Data) (info : Info) : Prop where
  last_le : info.lastDelivered ≤ (d.stream.groups info.name).lastDelivered
  idle : info.pending = 0 → Below d.appended d.stream info.name info.lastDelivered

def Relies (relay : Relay) (names : List Text) (d : Data) : Process → Prop
  | .relay (.reading todo done) => (∀ info ∈ todo, relay.waitsFor info.name = true → info.name ∈ names ∧ Told d info) ∧
      ∀ g, Waited relay names g → (∃ info ∈ todo, info.name = g) ∨ ∃ st ∈ done, Below d.appended d.stream g (needed st)
  | .relay (.trimming (some floor)) => ∀ g, Waited relay names g → Below d.appended d.stream g floor
  | .relay (.trimming none) => ∀ g, ¬ Waited relay names g
  | .relay .measuring | .relay (.ready _) => True
  | .relay (.publishing todo published _) =>
      (∀ e ∈ todo ++ published, ∃ row ∈ d.outbox, row.event = e) ∧ ∀ e ∈ published, Appended d e
  | .consumer (.handling _ msgs) => ∀ m ∈ msgs, m ∈ d.appended
  | .consumer (.failed _ msg _ rest) | .consumer (.settingAside _ msg rest) => msg ∈ d.appended ∧ ∀ m ∈ rest, m ∈ d.appended
  | .consumer (.acking g msg rest) => msg ∈ d.appended ∧ Settled d g msg.2 ∧ ∀ m ∈ rest, m ∈ d.appended

structure GoesOn (relay : Relay) (names : List Text) (d d' : Data) : Prop where
  onward : Onward (Waited relay names) d.appended d'.appended d.stream d'.stream
  settled : ∀ g e, Settled d g e → Settled d' g e
  rows : ∀ e, (∃ row ∈ d.outbox, row.event = e) → ∃ row ∈ d'.outbox, row.event = e

section
variable {relay : Relay} {names : List Text} {maxDeliveries : Nat} {d d' : Data}

theorem Appended.goesOn {e : Event} (h : Appended d e) (hc : GoesOn relay names d d') : Appended d' e := by
  obtain ⟨m, hm, rfl⟩ := h
  exact ⟨m, hc.onward.kept m hm, rfl⟩

theorem Relies.goesOn (hc : GoesOn relay names d d') : ∀ {p : Process}, Relies relay names d p → Relies relay names d' p
  | .relay (.reading todo done), ⟨hinfo, hall⟩ => by
    refine ⟨fun info hi hw => ?_, fun g hg => ?_⟩
    · obtain ⟨hname, htold⟩ := hinfo info hi hw
      exact ⟨hname, htold.last_le.trans (hc.onward.delivered_le _), fun hp => (htold.idle hp).onward ⟨hname, hw⟩ hc.onward⟩
    · exact (hall g hg).imp id fun ⟨st, hst, hb⟩ => ⟨st, hst, hb.onward hg hc.onward⟩
  | .relay (.trimming (some floor)), h => fun g hg => (h g hg).onward hg hc.onward
  | .relay (.trimming none), h => h
  | .relay .measuring, h => h
  | .relay (.ready _), h => h
  | .relay (.publishing todo published failed), ⟨hrows, happ⟩ =>
    ⟨fun e he => hc.rows e (hrows e he), fun e he => (happ e he).goesOn hc⟩
  | .consumer (.handling _ msgs), h => fun m hm => hc.onward.kept m (h m hm)
  | .consumer (.failed _ msg _ rest), ⟨hm, h⟩ => ⟨hc.onward.kept msg hm, fun m hm => hc.onward.kept m (h m hm)⟩
  | .consumer (.settingAside _ msg rest), ⟨hm, h⟩ => ⟨hc.onward.kept msg hm, fun m hm => hc.onward.kept m (h m hm)⟩
  | .consumer (.acking g msg rest), ⟨hm, hs, h⟩ =>
    ⟨hc.onward.kept msg hm, hc.settled g msg.2 hs, fun m hm => hc.onward.kept m (h m hm)⟩

theorem GoesOn.refl (d : Data) : GoesOn relay names d d := ⟨Onward.refl _ _ _, fun _ _ h => h, fun _ h => h⟩

theorem GoesOn.of_onward {s : Stream StreamID Text Event}
    (ho : Onward (Waited relay names) d.appended d.appended d.stream s) : GoesOn relay names d { d with stream := s } :=
  ⟨ho, fun _ _ h => h, fun _ h => h⟩

theorem Kept.of_stream (h : Kept relay names d) {s : Stream StreamID Text Event} (hk : Keeps (Waited relay names) d.appended s)
    (hp : ∀ g, Waited relay names g → ∀ m ∈ d.appended, Passed s g m.1 → Passed d.stream g m.1 ∨ Settled d g m.2) :
    Kept relay names { d with stream := s } :=
  ⟨hk, fun g hg m hm hpassed => (hp g hg m hm hpassed).elim (h.settled g hg m hm) id, h.appended, h.ids⟩

theorem Kept.settle (h : Kept relay names d) {handled : List (Text × Event)} {auditLog : List (Text × Nat)}
    (hs : ∀ g e, Settled d g e → Settled { d with handled := handled, auditLog := auditLog } g e) :
    Kept relay names { d with handled := handled, auditLog := auditLog } ∧
      GoesOn relay names d { d with handled := handled, auditLog := auditLog } :=
  ⟨⟨h.keeps, fun g hg m hm hp => hs g m.2 (h.settled g hg m hm hp), h.appended, h.ids⟩,
    ⟨Onward.refl _ _ _, hs, fun _ he => he⟩⟩

theorem Kept.trim (h : Kept relay names d) {s : Stream StreamID Text Event} (hk : Keeps (Waited relay names) d.appended s)
    (hlast : s.lastID = d.stream.lastID) (hgroups : s.groups = d.stream.groups) :
    Kept relay names { d with stream := s } ∧ GoesOn relay names d { d with stream := s } :=
  ⟨h.of_stream hk fun _ _ _ _ hp => Or.inl ((GroupStream.passed_congr (congrFun hgroups _)).1 hp),
    GoesOn.of_onward (Onward.of_groups hlast hgroups)⟩

theorem Kept.append (h : Kept relay names d) {id : StreamID} (hid : d.stream.lastID < id) (e : Event) :
    Kept relay names { d with stream := d.stream.add id e, appended := d.appended ++ [(id, e)] } ∧
      GoesOn relay names d { d with stream := d.stream.add id e, appended := d.appended ++ [(id, e)] } := by
  have hgo : GoesOn relay names d { d with stream := d.stream.add id e, appended := d.appended ++ [(id, e)] } :=
    ⟨Onward.add hid, fun _ _ hs => hs, fun _ he => he⟩
  refine ⟨⟨h.keeps.add hid, fun g hg m hm hp => ?_, fun row hr hpub => (h.appended row hr hpub).goesOn hgo, h.ids⟩, hgo⟩
  rcases mem_append.1 hm with hm | hm
  · exact h.settled g hg m hm hp
  · obtain rfl := mem_singleton.1 hm
    exact absurd hp (h.keeps.not_passed hid)

/-! ## What starts -/

theorem told_infos (h : Kept relay names d) {info : Info} (hi : info ∈ infos names d.stream) :
    info.name ∈ names ∧ Told d info := by
  obtain ⟨g, hg, rfl⟩ := mem_map.1 hi
  refine ⟨hg, le_rfl, fun hp => h.keeps.below le_rfl fun p hold => ?_⟩
  have hnone : d.stream.oldestPending g = none := GroupStream.oldestPending_eq_none.2 (length_eq_zero_iff.1 hp)
  rw [hnone] at hold
  cases hold

theorem start_keeps (h : Kept relay names d) {p : Option Process} (hs : Start names d d' p) :
    Kept relay names d' ∧ GoesOn relay names d d' ∧ ∀ q ∈ p, Relies relay names d' q := by
  cases hs with
  | emit e hfresh =>
    refine ⟨⟨h.keeps, h.settled, fun row hr hpub => ?_, ?_⟩, ⟨Onward.refl _ _ _, fun _ _ hs => hs, ?_⟩,
      nofun⟩
    · rcases mem_append.1 hr with hr | hr
      · exact h.appended row hr hpub
      · obtain rfl := mem_singleton.1 hr
        cases hpub
    · rw [map_append]
      refine nodup_append.2 ⟨h.ids, nodup_singleton _, fun id hid new hnew heq => ?_⟩
      obtain ⟨row, hr, rfl⟩ := mem_map.1 hid
      exact hfresh row hr (heq.trans (mem_singleton.1 hnew))
    · rintro e' ⟨row, hr, he⟩
      exact ⟨row, mem_append_left _ hr, he⟩
  | trim =>
    refine ⟨h, GoesOn.refl d, fun q hq => ?_⟩
    obtain rfl := Option.mem_some_iff.1 hq
    exact ⟨fun info hi _ => told_infos h hi, fun g hg => Or.inl ⟨_, mem_map_of_mem hg.1, rfl⟩⟩
  | read g count hg =>
    refine ⟨h.of_stream (h.keeps.read g count)
      fun g' hg' m hm hp => Or.inl ((GroupStream.passed_read h.keeps hg' count hm).1 hp), GoesOn.of_onward (Onward.read h.keeps g count), fun q hq => ?_⟩
    obtain rfl := Option.mem_some_iff.1 hq
    intro m hm
    exact h.keeps.sublist.subset (mem_filter.1 (mem_of_mem_take hm)).1
  | claim g idle hg =>
    refine ⟨h.of_stream (h.keeps.claim g idle)
      fun g' hg' m hm hp => Or.inl ((GroupStream.passed_claim h.keeps hg' idle hm).1 hp), GoesOn.of_onward (Onward.claim h.keeps g idle), fun q hq => ?_⟩
    obtain rfl := Option.mem_some_iff.1 hq
    intro m hm
    exact h.keeps.sublist.subset (mem_filter.1 hm).1

/-! ## A relay's steps -/

theorem mark_event (published : List Event) (failed : List (Event × Text)) (row : Row) :
    (mark published failed row).event = row.event := by
  unfold mark
  split
  · rfl
  · split <;> rfl

theorem mark_published {published : List Event} {failed : List (Event × Text)} {row : Row}
    (h : (mark published failed row).published = true) : row.published = true ∨ row.event.id ∈ published.map Event.id := by
  unfold mark at h
  split at h
  · rename_i hmem
    exact Or.inr hmem
  · split at h
    · exact Or.inl h
    · exact Or.inl h

theorem Kept.commit (h : Kept relay names d) {published : List Event} (failed : List (Event × Text))
    (hrows : ∀ e ∈ published, ∃ row ∈ d.outbox, row.event = e) (happ : ∀ e ∈ published, Appended d e) :
    Kept relay names { d with outbox := d.outbox.map (mark published failed) } ∧
      GoesOn relay names d { d with outbox := d.outbox.map (mark published failed) } := by
  refine ⟨⟨h.keeps, h.settled, fun row hr hpub => ?_, ?_⟩, ⟨Onward.refl _ _ _, fun _ _ hs => hs, ?_⟩⟩
  · obtain ⟨old, hold, rfl⟩ := mem_map.1 hr
    rw [mark_event]
    rcases mark_published hpub with hpub | hid
    · exact h.appended old hold hpub
    · obtain ⟨e, he, hid⟩ := mem_map.1 hid
      obtain ⟨row', hr', rfl⟩ := hrows e he
      rw [← inj_on_of_nodup_map h.ids hr' hold hid]
      exact happ _ he
  · rw [map_map]
    have hsame : (fun row => row.event.id) ∘ mark published failed = fun row => row.event.id :=
      funext fun row => congrArg Event.id (mark_event published failed row)
    rw [hsame]
    exact h.ids
  · rintro e ⟨row, hr, rfl⟩
    exact ⟨mark published failed row, mem_map_of_mem hr, mark_event published failed row⟩

theorem relay_keeps (h : Kept relay names d) {others : List Process} {p : Pass} {p' : Option Pass}
    (hrel : Relies relay names d (.relay p)) (hs : RelayStep relay d others p d' p') :
    Kept relay names d' ∧ GoesOn relay names d d' ∧ ∀ q ∈ p', Relies relay names d' (.relay q) := by
  have hstay : ∀ {q : Pass}, Relies relay names d (.relay q) →
      Kept relay names d ∧ GoesOn relay names d d ∧ ∀ q' ∈ some q, Relies relay names d (.relay q') := by
    intro q hq
    refine ⟨h, GoesOn.refl d, fun q' hq' => ?_⟩
    obtain rfl := Option.mem_some_iff.1 hq'
    exact hq
  cases hs with
  | skip info todo done hnot =>
    refine hstay ⟨fun info' hi => hrel.1 info' (mem_cons_of_mem _ hi), fun g hg => ?_⟩
    refine (hrel.2 g hg).imp ?_ id
    rintro ⟨info', hi, rfl⟩
    rcases mem_cons.1 hi with rfl | hi
    · exact absurd hg.2 (by rw [hnot]; decide)
    · exact ⟨info', hi, rfl⟩
  | idle info todo done hw hidle =>
    refine hstay ⟨fun info' hi => hrel.1 info' (mem_cons_of_mem _ hi), fun g hg => ?_⟩
    rcases hrel.2 g hg with ⟨info', hi, rfl⟩ | ⟨st, hst, hb⟩
    · rcases mem_cons.1 hi with rfl | hi
      · exact Or.inr ⟨_, mem_append_right _ mem_cons_self, ((hrel.1 _ mem_cons_self hw).2.idle hidle)⟩
      · exact Or.inl ⟨info', hi, rfl⟩
    · exact Or.inr ⟨st, mem_append_left _ hst, hb⟩
  | ask info todo done hw hpend =>
    refine hstay ⟨fun info' hi => hrel.1 info' (mem_cons_of_mem _ hi), fun g hg => ?_⟩
    rcases hrel.2 g hg with ⟨info', hi, rfl⟩ | ⟨st, hst, hb⟩
    · rcases mem_cons.1 hi with rfl | hi
      · refine Or.inr ⟨_, mem_append_right _ mem_cons_self, h.keeps.below ?_ fun oldest hold => ?_⟩
        · exact (needed_le_last _).trans (hrel.1 _ mem_cons_self hw).2.last_le
        · refine needed_le_oldest hold (length_pos_iff.2 fun hnil => ?_)
          rw [GroupStream.oldestPending_eq_none.2 hnil] at hold
          cases hold
      · exact Or.inl ⟨info', hi, rfl⟩
    · exact Or.inr ⟨st, mem_append_left _ hst, hb⟩
  | read done =>
    refine hstay ?_
    have hdone : ∀ g, Waited relay names g → ∃ st ∈ done, Below d.appended d.stream g (needed st) := fun g hg =>
      (hrel.2 g hg).resolve_left fun ⟨_, hi, _⟩ => absurd hi not_mem_nil
    cases hfloor : oldestNeeded done with
    | none =>
      intro g hg
      obtain ⟨st, hst, -⟩ := hdone g hg
      rw [oldestNeeded_none hfloor] at hst
      cases hst
    | some =>
      intro g hg
      obtain ⟨st, hst, hb⟩ := hdone g hg
      exact hb.of_le (oldestNeeded_le hfloor st hst)
  | cap n _ =>
    obtain ⟨hk, hgo⟩ := h.trim (h.keeps.trimOldest hrel n) rfl rfl
    exact ⟨hk, hgo, fun q hq => Option.mem_some_iff.1 hq ▸ trivial⟩
  | trim =>
    obtain ⟨hk, hgo⟩ := h.trim (h.keeps.trimMinID hrel) rfl rfl
    exact ⟨hk, hgo, fun q hq => Option.mem_some_iff.1 hq ▸ trivial⟩
  | measure => exact hstay trivial
  | notTrimmed p d' _ hd =>
    rcases hd with rfl | ⟨floor, rfl, rfl⟩ | ⟨n, _, rfl, rfl⟩
    · exact hstay trivial
    · obtain ⟨hk, hgo⟩ := h.trim (h.keeps.trimMinID hrel) rfl rfl
      exact ⟨hk, hgo, fun q hq => Option.mem_some_iff.1 hq ▸ trivial⟩
    · obtain ⟨hk, hgo⟩ := h.trim (h.keeps.trimOldest hrel n) rfl rfl
      exact ⟨hk, hgo, fun q hq => Option.mem_some_iff.1 hq ▸ trivial⟩
  | lock limit events _ _ hlock =>
    refine hstay ⟨fun e he => ?_, nofun⟩
    rw [append_nil] at he
    obtain ⟨-, row, hr, heq, -⟩ := hlock e he
    exact ⟨row, hr, heq⟩
  | publish id e todo published failed hid =>
    obtain ⟨hk, hgo⟩ := h.append hid e
    refine ⟨hk, hgo, fun q hq => ?_⟩
    obtain rfl := Option.mem_some_iff.1 hq
    refine ⟨fun e' he' => hrel.1 e' ?_, fun e' he' => ?_⟩
    · simp only [mem_append, mem_cons] at he' ⊢
      tauto
    · rcases mem_append.1 he' with he' | he'
      · exact (hrel.2 e' he').goesOn hgo
      · obtain rfl := mem_singleton.1 he'
        exact ⟨(id, e'), mem_append_right _ mem_cons_self, rfl⟩
  | notPublished error e todo published failed d' hd =>
    have hrest : Relies relay names d (.relay (.publishing todo published (failed ++ [(e, error)]))) := by
      refine ⟨fun e' he' => hrel.1 e' ?_, hrel.2⟩
      exact mem_cons_of_mem _ he'
    rcases hd with rfl | ⟨id, hid, rfl⟩
    · exact hstay hrest
    · obtain ⟨hk, hgo⟩ := h.append hid e
      refine ⟨hk, hgo, fun q hq => ?_⟩
      obtain rfl := Option.mem_some_iff.1 hq
      exact hrest.goesOn hgo
  | commit published failed =>
    obtain ⟨hk, hgo⟩ := h.commit failed hrel.1 hrel.2
    exact ⟨hk, hgo, nofun⟩

/-! ## A consumer's steps -/

theorem relies_afterFailure {g : Text} {m : Message} {rest : List Message} (hm : m ∈ d.appended)
    (hrest : ∀ m ∈ rest, m ∈ d.appended) (isPermanent ended : Bool) (attempts : Option Nat) :
    Relies relay names d (.consumer (afterFailure maxDeliveries g m isPermanent ended attempts rest)) := by
  unfold afterFailure
  cases attempts with
  | none => exact hrest
  | some =>
    dsimp only
    split
    · exact ⟨hm, hrest⟩
    · exact hrest

theorem deadLetter_mem (auditLog : List (Text × Nat)) (g : Text) (e : Event) : (g, e.id) ∈ deadLetter auditLog g e := by
  unfold deadLetter
  split
  · assumption
  · exact mem_append_right _ mem_cons_self

theorem settled_deadLetter (g : Text) (e : Event) (g' : Text) (e' : Event) (h : Settled d g' e') :
    Settled { d with auditLog := deadLetter d.auditLog g e } g' e' := by
  refine h.imp id fun hx => ?_
  show (g', e'.id) ∈ deadLetter d.auditLog g e
  unfold deadLetter
  split
  · exact hx
  · exact mem_append_left _ hx

theorem consumer_keeps (h : Kept relay names d) {b b' : Batch} (hrel : Relies relay names d (.consumer b))
    (hs : ConsumerStep maxDeliveries d b d' b') :
    Kept relay names d' ∧ GoesOn relay names d d' ∧ Relies relay names d' (.consumer b') := by
  cases hs with
  | succeed g m rest =>
    have hs : ∀ g' e, Settled d g' e → Settled { d with handled := d.handled ++ [(g, m.2)] } g' e :=
      fun _ _ hs => hs.imp (mem_append_left _) id
    obtain ⟨hk, hgo⟩ := h.settle hs
    exact ⟨hk, hgo, hrel m mem_cons_self, Or.inl (mem_append_right _ mem_cons_self),
      fun m hm => hrel m (mem_cons_of_mem _ hm)⟩
  | fail g m isPermanent rest =>
    exact ⟨h, GoesOn.refl d, hrel m mem_cons_self, fun m hm => hrel m (mem_cons_of_mem _ hm)⟩
  | deliveries => exact ⟨h, GoesOn.refl d, relies_afterFailure hrel.1 hrel.2 _ _ _⟩
  | notCounted => exact ⟨h, GoesOn.refl d, relies_afterFailure hrel.1 hrel.2 _ _ _⟩
  | setAside g m rest =>
    obtain ⟨hk, hgo⟩ := h.settle (settled_deadLetter g m.2)
    exact ⟨hk, hgo, hrel.1, Or.inr (deadLetter_mem _ _ _), hrel.2⟩
  | notRecorded g m rest d' hd =>
    rcases hd with rfl | rfl
    · exact ⟨h, GoesOn.refl _, hrel.2⟩
    · obtain ⟨hk, hgo⟩ := h.settle (settled_deadLetter g m.2)
      exact ⟨hk, hgo, hrel.2⟩
  | ack g m rest =>
    refine ⟨h.of_stream (h.keeps.ack g m.1) fun g' hg' m' hm' hp => ?_, GoesOn.of_onward (Onward.ack g m.1), hrel.2.2⟩
    rcases GroupStream.passed_ack.1 hp with hp | ⟨rfl, hid, -⟩
    · exact Or.inl hp
    · rw [h.keeps.eq_of_id hm' hrel.1 hid]
      exact Or.inr hrel.2.1
  | notAcked => exact ⟨h, GoesOn.refl d, hrel.2.2⟩

/-! ## Every run -/

theorem kept_nothing : Kept relay names nothing where
  keeps := ⟨List.Pairwise.nil, nofun, fun _ => le_rfl, List.Sublist.refl _,
    nofun⟩
  settled _ _ _ hm := absurd hm not_mem_nil
  appended _ hr := absurd hr not_mem_nil
  ids := nodup_nil

theorem run_keeps {sys : Interleaving.System Data Process} (h : Run relay names maxDeliveries sys) :
    Kept relay names sys.shared := by
  refine (Interleaving.Run.rely (L := Relies relay names) (C := GoesOn relay names) (fun _ _ _ hc hl => hl.goesOn hc)
    (fun _ _ _ _ hk hs => start_keeps hk hs) (fun _ _ _ _ _ hk hl ha => ?_) kept_nothing h).1
  cases ha with
  | relay hs =>
    obtain ⟨hk', hgo, hl'⟩ := relay_keeps hk hl hs
    refine ⟨hk', hgo, fun q hq => ?_⟩
    obtain ⟨pass, hpass, rfl⟩ := Option.map_eq_some_iff.1 hq
    exact hl' pass hpass
  | consumer hs =>
    obtain ⟨hk', hgo, hl'⟩ := consumer_keeps hk hl hs
    refine ⟨hk', hgo, fun q hq => ?_⟩
    obtain rfl := Option.mem_some_iff.1 hq
    exact hl'

end

def ToCome (d : Data) (g : Text) (e : Event) : Prop :=
  ∃ m ∈ d.stream.entries, m.2 = e ∧ ((d.stream.groups g).lastDelivered < m.1 ∨ m.1 ∈ d.stream.pendingIDs g)

/-- **The event stream loses nothing**: in every run each committed event is unpublished, or for every group that the relays
wait for it is still to come, or its handler succeeded, or it was recorded as a dead letter. -/
theorem stream_loses_nothing (relay : Relay) (names : List Text) (maxDeliveries : Nat) (sys : Interleaving.System Data Process)
    (h : Run relay names maxDeliveries sys) :
    ∀ row ∈ sys.shared.outbox, row.published = false ∨
      ∀ g ∈ names, relay.waitsFor g = true → ToCome sys.shared g row.event ∨ (g, row.event) ∈ sys.shared.handled ∨
        (g, row.event.id) ∈ sys.shared.auditLog := by
  have hk := run_keeps h
  intro row hr
  cases hpub : row.published with
  | false => exact Or.inl rfl
  | true =>
    obtain ⟨m, hm, heq⟩ := hk.appended row hr hpub
    refine Or.inr fun g hg hw => ?_
    by_cases hpassed : Passed sys.shared.stream g m.1
    · exact Or.inr (heq ▸ hk.settled g ⟨hg, hw⟩ m hm hpassed)
    · refine Or.inl ⟨m, ?_, heq, ?_⟩
      · by_contra hgone
        exact hpassed (hk.keeps.passed m hm hgone g ⟨hg, hw⟩)
      · by_contra hneither
        obtain ⟨hdelivered, hpending⟩ := not_or.1 hneither
        exact hpassed ⟨not_lt.1 hdelivered, hpending⟩

def hello : Event := ⟨1, "issue.created".toList, "{}".toList, []⟩

def helloPublished : Data where
  outbox := [⟨hello, true, 0, none⟩]
  stream := nothing.stream.add (toLex (1, 0)) hello
  auditLog := []
  appended := [(toLex (1, 0), hello)]
  handled := []

theorem hello_run : Run newRelay Groups 5 ⟨helloPublished, []⟩ := by
  have h₀ : Run newRelay Groups 5 ⟨nothing, []⟩ := Interleaving.Run.begin _
  have h₁ : Run newRelay Groups 5 ⟨{ nothing with outbox := [⟨hello, false, 0, none⟩] }, []⟩ :=
    h₀.start none (.emit hello nofun)
  have h₂ := h₁.start _ .trim
  have h₃ := h₂.act [] _ (.relay (.notTrimmed _ _ (fun _ _ _ h => by cases h) (Or.inl rfl)))
  have h₄ := h₃.act [] _ (.relay (.lock 100 [hello] (by decide) (by decide) fun e he => by
    obtain rfl := mem_singleton.1 he
    exact ⟨not_mem_nil, _, mem_cons_self, rfl, rfl⟩))
  have h₅ := h₄.act [] _ (.relay (.publish (toLex (1, 0)) hello [] [] [] (by decide)))
  exact h₅.act [] _ (.relay (.commit [hello] []))

/-- It is still to come for the group of the notifier. -/
theorem hello_to_come : ToCome helloPublished "notify".toList hello := by
  have hrow := stream_loses_nothing newRelay Groups 5 ⟨helloPublished, []⟩ hello_run _ mem_cons_self
  have hgroup : ("notify".toList ∈ Groups) ∧ newRelay.waitsFor "notify".toList = true := by decide
  rcases hrow with hpub | hall
  · exact absurd hpub (by decide)
  · rcases hall _ hgroup.1 hgroup.2 with hcome | hdone | hdead
    · exact hcome
    · cases hdone
    · cases hdead

end Events
end Armature
