import Armature.WebhookSender
/-!
# WebhookTried — an event is tried until it is delivered, and not after (`webhook/send.go`, `webhook/webhook.go`)

A failed attempt leaves the next as a row that waits, and a delivered one leaves none.  Where nobody redelivers an event and
no two attempts of it are under way at once, one row of it waits at most, and whoever is at an attempt is at that row: so a
success leaves nothing that a pass could post.
-/
namespace Armature
namespace Webhook

open List

section
variable {c : Nat} {endpoints : List Endpoint} {sys sys' : Sys} {endpoint event : Nat}

def Delivered (d : Data) (endpoint event : Nat) : Prop := ∃ r ∈ d.deliveries, r.Of endpoint event ∧ r.deliveredAt ≠ none

def Waits (d : Data) (endpoint event : Nat) : Prop := ∃ r ∈ d.deliveries, r.Of endpoint event ∧ r.Waiting

def failed (d : Data) (endpoint event : Nat) : List Delivery := d.deliveries.filter fun r =>
  decide (r.Of endpoint event ∧ r.deliveredAt = none ∧ r.nextAttemptAt = none ∧ r.error ≠ [])

def Settled (sys : Sys) (endpoint event : Nat) : Prop :=
  Delivered sys.shared endpoint event ∧ ¬ Waits sys.shared endpoint event ∧
    ∀ p ∈ sys.running, ∀ s ∈ p.sends, ∀ r ∈ sys.shared.deliveries, r.id = s.id → ¬ r.Of endpoint event

theorem Send.At.id {s : Send} {x : Delivery} (h : s.At x) : x.id = s.id := by
  cases s with
  | reading => exact h
  | posting => exact h.1
  | recording => exact h.1

theorem attempts_failed (hrun : Run c endpoints sys) (hin : (endpoint, event) ∈ sys.shared.enqueued)
    (hdelivered : ¬ Delivered sys.shared endpoint event) (hwaits : ¬ Waits sys.shared endpoint event) :
    ∀ n, n < maxAttempts → n + 1 ∈ (failed sys.shared endpoint event).map Delivery.attempt := by
  have hkept := (run_kept hrun).1
  have hfailed : ∀ n, (endpoint, event, n) ∈ sys.shared.deliveries.map Delivery.key →
      ∃ r ∈ failed sys.shared endpoint event, r.key = (endpoint, event, n) := by
    intro n hn
    obtain ⟨r, hr, hkey⟩ := mem_map.1 hn
    have hof : r.Of endpoint event := ⟨congrArg Prod.fst hkey, congrArg (fun k => k.2.1) hkey⟩
    have hnone : r.deliveredAt = none := Classical.by_contradiction fun h => hdelivered ⟨r, hr, hof, h⟩
    have hnext : r.nextAttemptAt = none := Classical.by_contradiction fun h => hwaits ⟨r, hr, hof, hnone, h⟩
    exact ⟨r, mem_filter.2 ⟨hr, decide_eq_true ⟨hof, hnone, hnext, (hkept.next r hr hnone hnext).1⟩⟩, hkey⟩
  have hall : ∀ n, n < maxAttempts → (endpoint, event, n + 1) ∈ sys.shared.deliveries.map Delivery.key := by
    intro n
    induction n with
    | zero => exact fun _ => hkept.enqueued _ hin
    | succ n ih =>
      intro hlt
      obtain ⟨r, hr, hkey⟩ := hfailed (n + 1) (ih (Nat.lt_of_succ_lt hlt))
      obtain ⟨hmem, hof⟩ := mem_filter.1 hr
      obtain ⟨hof, hnone, hnext, _⟩ := of_decide_eq_true hof
      have hattempt : r.attempt = n + 1 := congrArg (fun k => k.2.2) hkey
      have hlater := (hkept.next r hmem hnone hnext).2 (hattempt ▸ hlt)
      rwa [hattempt, hof.1, hof.2] at hlater
  intro n hn
  obtain ⟨r, hr, hkey⟩ := hfailed (n + 1) (hall n hn)
  exact mem_map.2 ⟨r, hr, congrArg (fun k => k.2.2) hkey⟩

theorem given_up (h : ∀ n, n < maxAttempts → n + 1 ∈ (failed sys.shared endpoint event).map Delivery.attempt) :
    maxAttempts ≤ (failed sys.shared endpoint event).length := by
  have hsub : List.range' 1 maxAttempts ⊆ (failed sys.shared endpoint event).map Delivery.attempt := by
    intro n hn
    obtain ⟨hge, hlt⟩ := mem_range'_1.1 hn
    have hback : n - 1 + 1 = n := Nat.sub_add_cancel hge
    rw [← hback]
    exact h (n - 1) (by omega)
  have hlen := (subperm_of_subset (nodup_range' 1) hsub).length_le
  rwa [length_range', length_map] at hlen

theorem settled_stays (hrun : Run c endpoints sys) (h : Settled sys endpoint event)
    (hsteps : Steps c (fun e v => ¬ (e = endpoint ∧ v = event)) sys sys') :
    postsOf endpoint event sys'.shared = postsOf endpoint event sys.shared := by
  obtain ⟨hdelivered, hwaits, hnobody⟩ := h
  obtain ⟨hkept, hknows⟩ := run_kept hrun
  have hfirst : (endpoint, event, 1) ∈ sys.shared.deliveries.map Delivery.key := by
    obtain ⟨r, hr, hof, _⟩ := hdelivered
    have hone := hkept.first r hr
    rwa [hof.1, hof.2] at hone
  have hover : Kept (fun e v => ¬ (e = endpoint ∧ v = event)) sys.shared := by
    refine ⟨hkept.ids, hkept.first, hkept.next, hkept.enqueued, fun r hr hw hof => hwaits ⟨r, hr, hof, hw⟩, ?_⟩
    intro e v hev
    obtain ⟨rfl, rfl⟩ := not_not.1 hev
    exact hfirst
  refine (steps_keep hsteps hover fun p hp s hs => ?_).2 endpoint event fun hne => hne ⟨rfl, rfl⟩
  obtain ⟨x, hx, hat, _⟩ := hknows p hp s hs
  exact ⟨x, hx, hat, hnobody p hp s hs x hx hat.id⟩

end

/-! ## One attempt at a time -/

section
variable {c : Nat} {endpoints : List Endpoint} {sys sys' : Sys} {endpoint event : Nat} {d d' : Data} {ps ps' : List Process}

def Send.Of (d : Data) (endpoint event : Nat) (s : Send) : Prop := ∃ r ∈ d.deliveries, r.id = s.id ∧ r.Of endpoint event

instance (d : Data) (endpoint event : Nat) (s : Send) : Decidable (s.Of d endpoint event) :=
  inferInstanceAs (Decidable (∃ r ∈ d.deliveries, r.id = s.id ∧ r.Of endpoint event))

def Apart (endpoint event : Nat) (sys : Sys) : Prop :=
  ((sys.running.flatMap Process.sends).filter fun s => decide (s.Of sys.shared endpoint event)).length ≤ 1

def Undisturbed (concurrency : Nat) (endpoints : List Endpoint) (endpoint event : Nat) (sys : Sys) : Prop :=
  Relation.ReflTransGen (fun a b => Apart endpoint event a ∧
    Interleaving.Step (fun d _ d' p => Start (fun e v => ¬ (e = endpoint ∧ v = event)) d d' p)
      (fun d _ p d' p' => Act concurrency d p d' p') a b) ⟨empty endpoints, []⟩ sys

theorem Start.mono {Q Q' : Nat → Nat → Prop} (h : ∀ e v, Q e v → Q' e v) {p : Option Process} (hs : Start Q d d' p) :
    Start Q' d d' p := by
  cases hs with
  | enqueue e event id topic body now he hid => exact .enqueue e event id topic body now he hid
  | pass now found hdue => exact .pass now found hdue
  | redeliver r id now hr hid hq => exact .redeliver r id now hr hid (h _ _ hq)

theorem Undisturbed.run (h : Undisturbed c endpoints endpoint event sys) : Run c endpoints sys := by
  refine h.lift id fun a b hab => ?_
  cases hab.2 with
  | start hs => exact .start (hs.mono fun _ _ _ => trivial)
  | act ha => exact .act ha
  | die => exact .die

/-- One row of the event waits at most, none once it is delivered, and who is at one of its rows is at that one. -/
structure Single (endpoint event : Nat) (d : Data) (ps : List Process) : Prop where
  one : ∀ r ∈ d.deliveries, ∀ x ∈ d.deliveries, r.Of endpoint event → x.Of endpoint event → r.Waiting → x.Waiting → r.id = x.id
  done : ∀ r ∈ d.deliveries, ∀ x ∈ d.deliveries, r.Of endpoint event → x.Of endpoint event → r.deliveredAt ≠ none → ¬ x.Waiting
  at_ : ∀ p ∈ ps, ∀ s ∈ p.sends, ∀ r ∈ d.deliveries, r.id = s.id → r.Of endpoint event → r.Waiting

def Still (endpoint event : Nat) (d d' : Data) : Prop := ∀ x ∈ d'.deliveries, x.Of endpoint event →
  ∃ y ∈ d.deliveries, y.Of endpoint event ∧ y.id = x.id ∧ x.deliveredAt = y.deliveredAt ∧ (x.Waiting ↔ y.Waiting)

theorem still_of_eq (h : d'.deliveries = d.deliveries) : Still endpoint event d d' :=
  fun x hx hof => ⟨x, h ▸ hx, hof, rfl, rfl, Iff.rfl⟩

theorem Single.still (h : Single endpoint event d ps) (hstill : Still endpoint event d d')
    (hps : ∀ q ∈ ps', ∀ t ∈ q.sends, (∃ p ∈ ps, ∃ s ∈ p.sends, s.id = t.id) ∨
      ∀ r ∈ d.deliveries, r.id = t.id → r.Of endpoint event → r.Waiting) : Single endpoint event d' ps' := by
  constructor
  · intro r hr x hx hrof hxof hrw hxw
    obtain ⟨r', hr', hrof', hrid, -, hrw'⟩ := hstill r hr hrof
    obtain ⟨x', hx', hxof', hxid, -, hxw'⟩ := hstill x hx hxof
    rw [← hrid, ← hxid]
    exact h.one r' hr' x' hx' hrof' hxof' (hrw'.1 hrw) (hxw'.1 hxw)
  · intro r hr x hx hrof hxof hd hxw
    obtain ⟨r', hr', hrof', -, hrd, -⟩ := hstill r hr hrof
    obtain ⟨x', hx', hxof', -, -, hxw'⟩ := hstill x hx hxof
    exact h.done r' hr' x' hx' hrof' hxof' (hrd ▸ hd) (hxw'.1 hxw)
  · intro q hq t ht r hr hid hof
    obtain ⟨y, hy, hyof, hyid, -, hw⟩ := hstill r hr hof
    refine hw.2 ?_
    rcases hps q hq t ht with ⟨p, hp, s, hs, hst⟩ | hwaits
    · exact h.at_ p hp s hs y hy (hyid.trans (hid.trans hst.symm)) hyof
    · exact hwaits y hy (hyid.trans hid) hyof

variable {r x : Delivery} {a : Answer} {now : Int} {id : Nat}

theorem mem_delivered (ha : Answer.delivered a = true) {rows : List Delivery} (h : x ∈ recordOutcome r a now id rows)
    (hw : x.Waiting) : x ∈ rows ∧ x.id ≠ r.id := by
  unfold recordOutcome at h
  rw [if_pos ha] at h
  obtain ⟨y, hy, ⟨-, rfl⟩ | ⟨hid, rfl⟩⟩ := Rows.mem_update.1 h
  · exact absurd rfl hw.2
  · exact ⟨hy, hid⟩

theorem Single.record (h : Single endpoint event d ps) (hids : (d.deliveries.map Delivery.id).Nodup) (hx : x ∈ d.deliveries)
    (hsame : r.SameAttempt x) (hof : x.Of endpoint event) (hwaits : x.Waiting) (hid : Fresh d id)
    (hps : ∀ q ∈ ps', ∀ t ∈ q.sends, ∃ y ∈ d.deliveries, y.id = t.id ∧ ¬ y.Of endpoint event) :
    Single endpoint event { d with deliveries := recordOutcome r a now id d.deliveries } ps' := by
  have hxid : x.id = r.id := hsame.1
  have hthis : ∀ y ∈ d.deliveries, y.id = r.id → y = x := fun y hy he => of_id hids hy hx (he.trans hxid.symm)
  -- what waits now is the row of the next attempt
  have hnext : ∀ z ∈ recordOutcome r a now id d.deliveries, z.Of endpoint event → z.Waiting → z.id = id := by
    intro z hz hzof hzw
    rcases mem_recordOutcome hz with ⟨hz, hne⟩ | ⟨y, -, -, ⟨-, rfl⟩ | ⟨-, rfl⟩⟩ | rfl
    · exact absurd ((h.one z hz x hx hzof hof hzw hwaits).trans hxid) hne
    · exact absurd rfl hzw.2
    · exact absurd rfl hzw.2
    · rfl
  constructor
  · intro z hz w hw hzof hwof hzw hww
    rw [hnext z hz hzof hzw, hnext w hw hwof hww]
  · intro z hz w hw hzof hwof hzd hww
    rcases mem_recordOutcome hz with ⟨hz, -⟩ | ⟨y, hy, hyid, ⟨ha, rfl⟩ | ⟨-, rfl⟩⟩ | rfl
    · exact h.done z hz x hx hzof hof hzd hwaits
    · obtain ⟨hw, hne⟩ := mem_delivered ha hw hww
      exact hne ((h.one w hw x hx hwof hof hww hwaits).trans hxid)
    · rw [hthis y hy hyid] at hzd
      exact hzd hwaits.1
    · exact hzd rfl
  · intro q hq t ht z hz hzt hzof
    obtain ⟨y, hy, hyt, hynot⟩ := hps q hq t ht
    have hzy : z.id = y.id := hzt.trans hyt.symm
    rcases mem_recordOutcome hz with ⟨hz, -⟩ | ⟨w, hw, hwid, ⟨-, rfl⟩ | ⟨-, rfl⟩⟩ | rfl
    · exact absurd (of_id hids hz hy hzy ▸ hzof) hynot
    · exact absurd (of_id hids hw hy hzy ▸ (hthis w hw hwid ▸ hof)) hynot
    · exact absurd (of_id hids hw hy hzy ▸ (hthis w hw hwid ▸ hof)) hynot
    · exact absurd hzy.symm (hid y hy)

theorem Try.shift {poster : Poster} {s : Send} {after : After} (ht : Try poster d s d' after) :
    (∃ r a now id, s = .recording r a ∧ Fresh d id ∧ d' = { d with deliveries := recordOutcome r a now id d.deliveries } ∧
      ∃ t, after = .ends t) ∨ (d'.deliveries = d.deliveries ∧ ∀ s', after = .goesOn s' → s'.id = s.id) := by
  cases ht with
  | found => exact .inr ⟨rfl, fun s' hs => by cases hs; rfl⟩
  | unread => exact .inr ⟨rfl, fun s' hs => by cases hs⟩
  | post => exact .inr ⟨rfl, fun s' hs => by cases hs; rfl⟩
  | record r a now id hid => exact .inl ⟨r, a, now, id, rfl, hid, rfl, _, rfl⟩
  | unrecorded => exact .inr ⟨rfl, fun s' hs => by cases hs⟩

theorem still_pause (e : Nat) (until_ : Int) : Still endpoint event d { d with deliveries := pause e until_ d.deliveries } := by
  intro z hz hof
  obtain ⟨y, hy, ⟨hid, hkey⟩, -, hd, hn⟩ := mem_pause hz
  obtain ⟨hendpoint, hevent, -⟩ := key_eq hkey
  refine ⟨y, hy, ⟨hendpoint.symm.trans hof.1, hevent.symm.trans hof.2⟩, hid.symm, hd, ?_⟩
  unfold Delivery.Waiting
  rw [hd]
  exact and_congr_right fun _ => not_congr hn

theorem Act.shift {p : Process} {p' : Option Process} (ha : Act c d p d' p') :
    (∃ r a now id rest, Fresh d id ∧ p.sends.Perm (.recording r a :: rest) ∧
      d' = { d with deliveries := recordOutcome r a now id d.deliveries } ∧ ∀ q ∈ p', ∀ t ∈ q.sends, t ∈ rest) ∨
    ((∀ endpoint event, Still endpoint event d d') ∧ ∀ q ∈ p', ∀ t ∈ q.sends, (∃ s ∈ p.sends, s.id = t.id) ∨
      ∃ r ∈ d.deliveries, r.Waiting ∧ r.id = t.id) := by
  cases ha with
  | goOn s s' _ ht =>
    rcases ht.shift with ⟨_, _, _, _, _, _, _, _, hends⟩ | ⟨hrows, hid⟩
    · cases hends
    · refine .inr ⟨fun _ _ => still_of_eq hrows, fun q hq t ht => .inl ?_⟩
      cases hq
      rw [mem_singleton.1 ht]
      exact ⟨s, mem_singleton_self s, (hid s' rfl).symm⟩
  | sent s _ t ht =>
    rcases ht.shift with ⟨r, a, now, id, rfl, hid, hd, _⟩ | ⟨hrows, _⟩
    · exact .inl ⟨r, a, now, id, [], hid, List.Perm.refl _, hd, fun q hq => by cases hq⟩
    · exact .inr ⟨fun _ _ => still_of_eq hrows, fun q hq => by cases hq⟩
  | take a b l id queue full _ hqueue =>
    refine .inr ⟨fun _ _ => still_of_eq rfl, fun q hq t ht => .inl ⟨t, ?_, rfl⟩⟩
    cases hq
    simp only [Process.sends, flatMap_append, flatMap_cons, mem_append, Lane.sends, hqueue, map_cons,
      mem_cons] at ht ⊢
    tauto
  | fly a b l f g s s' _ full hl ht =>
    rcases ht.shift with ⟨_, _, _, _, _, _, _, _, hends⟩ | ⟨hrows, hid⟩
    · cases hends
    · refine .inr ⟨fun _ _ => still_of_eq hrows, fun q hq t ht => .inl ?_⟩
      cases hq
      simp only [Process.sends, flatMap_append, flatMap_cons, mem_append, Lane.sends, hl, mem_cons] at ht ⊢
      by_cases hts : t = s'
      · exact ⟨s, by tauto, by rw [hts, hid s' rfl]⟩
      · exact ⟨t, by tauto, rfl⟩
  | land a b l f g s t _ full hl ht =>
    have hsends : (Process.passing (a ++ l :: b) full).sends.Perm
        (s :: (Process.passing (a ++ (Lane.record { l with flying := f ++ g } t) :: b) full).sends) := by
      have hrecord : (Lane.record { l with flying := f ++ g } t).sends = l.queue.map Send.reading ++ (f ++ g) := by
        unfold Lane.record
        split <;> rfl
      have hlane : l.sends.Perm (s :: (Lane.record { l with flying := f ++ g } t).sends) := by
        rw [hrecord, Lane.sends, hl]
        exact (List.Perm.append_left _ perm_middle).trans perm_middle
      simp only [Process.sends, flatMap_append, flatMap_cons]
      exact (List.Perm.append_left _ (hlane.append_right _)).trans perm_middle
    rcases ht.shift with ⟨r, a', now, id, rfl, hid, hd, _⟩ | ⟨hrows, _⟩
    · refine .inl ⟨r, a', now, id, _, hid, hsends, hd, fun q hq u hu => ?_⟩
      cases hq
      exact hu
    · refine .inr ⟨fun _ _ => still_of_eq hrows, fun q hq u hu => .inl ⟨u, ?_, rfl⟩⟩
      cases hq
      exact hsends.mem_iff.2 (mem_cons_of_mem _ hu)
  | pause a b l now full =>
    refine .inr ⟨fun _ _ => still_pause _ _, fun q hq t ht => .inl ⟨t, ?_, rfl⟩⟩
    cases hq
    simp only [Process.sends, flatMap_append, flatMap_cons, mem_append] at ht ⊢
    tauto
  | leave a b l full =>
    refine .inr ⟨fun _ _ => still_of_eq rfl, fun q hq t ht => .inl ⟨t, ?_, rfl⟩⟩
    cases hq
    simp only [Process.sends, flatMap_append, flatMap_cons, mem_append] at ht ⊢
    tauto
  | again now found hdue =>
    refine .inr ⟨fun _ _ => still_of_eq rfl, fun q hq t ht => .inr ?_⟩
    cases hq
    obtain ⟨r, hr, rfl⟩ := mem_spread ht
    exact ⟨r, (hdue.waiting hr).1, (hdue.waiting hr).2, rfl⟩
  | done => exact .inr ⟨fun _ _ => still_of_eq rfl, fun q hq => by cases hq⟩

theorem Start.single {p : Option Process} (hs : Start (fun e v => ¬ (e = endpoint ∧ v = event)) d d' p)
    (hkept : Kept (fun _ _ => True) d) (h : Single endpoint event d ps) :
    Single endpoint event d' (p.toList ++ ps) := by
  have hold : ∀ {t : Send}, (∃ p ∈ ps, t ∈ p.sends) → (∃ p ∈ ps, ∃ s ∈ p.sends, s.id = t.id) ∨
      ∀ r ∈ d.deliveries, r.id = t.id → r.Of endpoint event → r.Waiting := fun ⟨p, hp, ht⟩ => .inl ⟨p, hp, _, ht, rfl⟩
  cases hs with
  | enqueue e v id topic body now he hid =>
    by_cases hnew : (firstAttempt id e v topic body now).key ∈ d.deliveries.map Delivery.key
    · refine h.still (still_of_eq (if_pos hnew)) fun q hq t ht => hold ⟨q, by simpa using hq, ht⟩
    by_cases hev : e.id = endpoint ∧ v = event
    · obtain ⟨rfl, rfl⟩ := hev
      -- no row of the event was there
      have hnone : ∀ r ∈ d.deliveries, ¬ r.Of e.id v := by
        intro r hr hof
        have hfirst := hkept.first r hr
        rw [hof.1, hof.2] at hfirst
        exact hnew hfirst
      have hrows : insertOnce (firstAttempt id e v topic body now) d.deliveries =
          d.deliveries ++ [firstAttempt id e v topic body now] := if_neg hnew
      have honly : ∀ r ∈ insertOnce (firstAttempt id e v topic body now) d.deliveries, r.Of e.id v →
          r = firstAttempt id e v topic body now := by
        intro r hr hof
        rw [hrows] at hr
        rcases mem_append.1 hr with hr | hr
        · exact absurd hof (hnone r hr)
        · exact mem_singleton.1 hr
      refine ⟨fun r hr x hx hrof hxof _ _ => ?_, fun r hr x hx hrof _ hd => ?_, fun q hq t ht r hr hid' hof => ?_⟩
      · rw [honly r hr hrof, honly x hx hxof]
      · rw [honly r hr hrof] at hd
        exact absurd rfl hd
      · rw [honly r hr hof]
        exact ⟨rfl, fun h => by cases h⟩
    · refine h.still (fun x hx hof => ?_) fun q hq t ht => hold ⟨q, by simpa using hq, ht⟩
      rcases mem_insertOnce hx with hx | ⟨rfl, -⟩
      · exact ⟨x, hx, hof, rfl, rfl, Iff.rfl⟩
      · exact absurd hof hev
  | pass now found hdue =>
    refine h.still (still_of_eq rfl) fun q hq t ht => ?_
    rcases mem_append.1 hq with hq | hq
    · cases mem_singleton.1 hq
      obtain ⟨r, hr, rfl⟩ := mem_spread ht
      obtain ⟨hmem, hwaits⟩ := hdue.waiting hr
      exact .inr fun x hx hid _ => of_id hkept.ids hx hmem hid ▸ hwaits
    · exact hold ⟨q, hq, ht⟩
  | redeliver r id now hr hid hev =>
    refine h.still (fun x hx hof => ?_) fun q hq t ht => ?_
    · rcases mem_append.1 hx with hx | hx
      · exact ⟨x, hx, hof, rfl, rfl, Iff.rfl⟩
      · rw [mem_singleton.1 hx] at hof
        exact absurd hof hev
    · rcases mem_append.1 hq with hq | hq
      · cases mem_singleton.1 hq
        rw [mem_singleton.1 ht]
        exact .inr fun x hx he _ => absurd he (hid x hx)
      · exact hold ⟨q, hq, ht⟩

theorem Act.single {l s : List Process} {p : Process} {p' : Option Process} (ha : Act c d p d' p')
    (hkept : Kept (fun _ _ => True) d) (hknows : ∀ q ∈ l ++ p :: s, q.Knows (fun _ _ => True) d)
    (hapart : Apart endpoint event ⟨d, l ++ p :: s⟩) (h : Single endpoint event d (l ++ p :: s)) :
    Single endpoint event d' (l ++ p'.toList ++ s) := by
  have hp : p ∈ l ++ p :: s := mem_append_right _ mem_cons_self
  have hothers : ∀ q ∈ l ++ p'.toList ++ s, q ∈ l ++ s ∨ q ∈ p' := by
    intro q hq
    simp only [mem_append, Option.mem_toList] at hq ⊢
    tauto
  have hin : ∀ {q}, q ∈ l ++ s → q ∈ l ++ p :: s := by
    intro q hq
    simp only [mem_append, mem_cons] at hq ⊢
    tauto
  rcases ha.shift with ⟨r, a, now, id, rest, hid, hperm, rfl, hrest⟩ | ⟨hstill, hsends⟩
  · have hmem : Send.recording r a ∈ p.sends := hperm.mem_iff.2 mem_cons_self
    obtain ⟨x, hx, hsame, -⟩ := hknows p hp _ hmem
    obtain ⟨hendpoint, hevent, -⟩ := key_eq hsame.2
    by_cases hof : x.Of endpoint event
    · refine h.record hkept.ids hx hsame hof (h.at_ p hp _ hmem x hx hsame.1 hof) hid fun q hq t ht => ?_
      -- the attempt that is recorded is the only one of the event
      have hall : ((l ++ p :: s).flatMap Process.sends).Perm (.recording r a :: (rest ++ (l ++ s).flatMap Process.sends)) := by
        simp only [flatMap_append, flatMap_cons]
        refine perm_append_comm_assoc .. |>.trans ?_
        exact hperm.append_right _
      have hone : (((l ++ p :: s).flatMap Process.sends).filter fun t => decide (t.Of d endpoint event)).length ≤ 1 := hapart
      rw [(hall.filter _).length_eq, filter_cons_of_pos (by simpa using ⟨x, hx, hsame.1, hof⟩), length_cons] at hone
      have hnone : (rest ++ (l ++ s).flatMap Process.sends).filter (fun t => decide (t.Of d endpoint event)) = [] :=
        eq_nil_of_length_eq_zero (by omega)
      have htin : t ∈ rest ++ (l ++ s).flatMap Process.sends := by
        rcases hothers q hq with hq | hq
        · exact mem_append_right _ (mem_flatMap.2 ⟨q, hq, ht⟩)
        · exact mem_append_left _ (hrest q hq t ht)
      have htknows : t.Knows (fun _ _ => True) d := by
        rcases hothers q hq with hq | hq
        · exact hknows q (hin hq) t ht
        · exact hknows p hp t (hperm.mem_iff.2 (mem_cons_of_mem _ (hrest q hq t ht)))
      obtain ⟨y, hy, hat, -⟩ := htknows
      refine ⟨y, hy, hat.id, fun hyof => ?_⟩
      have := filter_eq_nil_iff.1 hnone t htin
      exact this (decide_eq_true ⟨y, hy, hat.id, hyof⟩)
    · refine h.still (fun z hz hzof => ?_) fun q hq t ht => .inl ?_
      · rcases mem_recordOutcome hz with ⟨hz, -⟩ | ⟨y, hy, hyid, ⟨-, rfl⟩ | ⟨-, rfl⟩⟩ | rfl
        · exact ⟨z, hz, hzof, rfl, rfl, Iff.rfl⟩
        · exact absurd (of_id hkept.ids hy hx (hyid.trans hsame.1.symm) ▸ hzof) hof
        · exact absurd (of_id hkept.ids hy hx (hyid.trans hsame.1.symm) ▸ hzof) hof
        · exact absurd ⟨hendpoint.trans hzof.1, hevent.trans hzof.2⟩ hof
      · rcases hothers q hq with hq | hq
        · exact ⟨q, hin hq, t, ht, rfl⟩
        · exact ⟨p, hp, t, hperm.mem_iff.2 (mem_cons_of_mem _ (hrest q hq t ht)), rfl⟩
  · refine h.still (hstill _ _) fun q hq t ht => ?_
    rcases hothers q hq with hq | hq
    · exact .inl ⟨q, hin hq, t, ht, rfl⟩
    · rcases hsends q hq t ht with ⟨u, hu, he⟩ | ⟨r, hr, hwaits, hid⟩
      · exact .inl ⟨p, hp, u, hu, he⟩
      · exact .inr fun x hx he _ => of_id hkept.ids hx hr (he.trans hid.symm) ▸ hwaits

theorem undisturbed_single (h : Undisturbed c endpoints endpoint event sys) : Single endpoint event sys.shared sys.running := by
  induction h with
  | refl =>
    exact ⟨nofun, nofun, nofun⟩
  | tail hbefore hlast ih =>
    obtain ⟨hkept, hknows⟩ := run_kept (Undisturbed.run hbefore)
    obtain ⟨hapart, hstep⟩ := hlast
    cases hstep with
    | start hs => exact hs.single hkept ih
    | act ha => exact ha.single hkept hknows hapart ih
    | die =>
      refine ⟨ih.one, ih.done, fun q hq => ih.at_ q ?_⟩
      rcases mem_append.1 hq with hq | hq
      · exact mem_append_left _ hq
      · exact mem_append_right _ (mem_cons_of_mem _ hq)

theorem Undisturbed.settled (h : Undisturbed c endpoints endpoint event sys) (hdelivered : Delivered sys.shared endpoint event) :
    Settled sys endpoint event := by
  have hsingle := undisturbed_single h
  obtain ⟨r, hr, hof, hd⟩ := hdelivered
  refine ⟨⟨r, hr, hof, hd⟩, fun ⟨x, hx, hxof, hw⟩ => hsingle.done r hr x hx hof hxof hd hw, fun p hp s hs x hx he hxof => ?_⟩
  exact hsingle.done r hr x hx hof hxof hd (hsingle.at_ p hp s hs x hx he hxof)

end

section
variable {c : Nat} {endpoints : List Endpoint} {sys : Sys}

/-- **An event is tried until it is delivered,** at least six times; and where nobody redelivers it and no two attempts of it
overlap, it is not posted again once it was delivered. -/
theorem tried_until_delivered (hrun : Run c endpoints sys) :
    (∀ x ∈ sys.shared.enqueued, Delivered sys.shared x.1 x.2 ∨ Waits sys.shared x.1 x.2 ∨
      maxAttempts ≤ (failed sys.shared x.1 x.2).length) ∧
    ∀ endpoint event, Undisturbed c endpoints endpoint event sys → Delivered sys.shared endpoint event →
      ∀ sys', Steps c (fun e v => ¬ (e = endpoint ∧ v = event)) sys sys' →
        postsOf endpoint event sys'.shared = postsOf endpoint event sys.shared := by
  constructor
  · intro x hx
    by_cases hdelivered : Delivered sys.shared x.1 x.2
    · exact .inl hdelivered
    by_cases hwaits : Waits sys.shared x.1 x.2
    · exact .inr (.inl hwaits)
    exact .inr (.inr (given_up (attempts_failed hrun hx hdelivered hwaits)))
  · exact fun endpoint event h hdelivered sys' hsteps => settled_stays hrun (h.settled hdelivered) hsteps

end

/-! ## Delivered, redelivered, and tried again -/

section
variable {c : Nat} {Q : Nat → Nat → Prop} {d d' : Data}

def lane (r : Delivery) (flying : List Send) : Lane := ⟨r.endpointID, [], flying, 0, false⟩

variable {sys : Sys}

theorem Steps.start {p : Option Process} (h : Steps c Q sys ⟨d, []⟩) (hs : Start Q d d' p) :
    Steps c Q sys ⟨d', p.toList⟩ := by
  have hlast := Relation.ReflTransGen.tail h (.start hs)
  rwa [append_nil] at hlast

theorem Steps.act {p : Process} {p' : Option Process} (h : Steps c Q sys ⟨d, [p]⟩) (ha : Act c d p d' p') :
    Steps c Q sys ⟨d', p'.toList⟩ := by
  have hlast := Relation.ReflTransGen.tail h (.act (l := []) (r := []) ha)
  rwa [append_nil] at hlast

theorem pass_posts (r : Delivery) (now : Int) (a : Answer) (h : Steps c Q sys ⟨d, []⟩) (hr : r ∈ d.deliveries)
    (hdue : Due d now [r]) : Steps c Q sys ⟨{ d with posts := ⟨.sendDue, r.endpointID, r.eventID⟩ :: d.posts },
      [.passing [lane r [.recording r a]] false]⟩ := by
  have htake := (h.start (.pass now [r] hdue)).act (.take [] [] ⟨r.endpointID, [r.id], [], 0, false⟩ r.id [] _ rfl rfl
    (Nat.zero_lt_succ 1) (Nat.lt_of_lt_of_le Nat.zero_lt_one (Nat.le_max_right c 1)))
  have hread := htake.act (.fly [] [] _ [] [] _ _ d _ rfl (.found r hr))
  exact hread.act (.fly [] [] _ [] [] _ _ _ _ rfl (.post r a))

variable {endpoints : List Endpoint} {endpoint event : Nat}

theorem Undisturbed.start {p : Option Process} (h : Undisturbed c endpoints endpoint event ⟨d, []⟩)
    (hs : Start (fun e v => ¬ (e = endpoint ∧ v = event)) d d' p) : Undisturbed c endpoints endpoint event ⟨d', p.toList⟩ := by
  have hlast := Relation.ReflTransGen.tail h ⟨Nat.zero_le 1, .start hs⟩
  rwa [append_nil] at hlast

theorem Undisturbed.act {p : Process} {p' : Option Process} (h : Undisturbed c endpoints endpoint event ⟨d, [p]⟩)
    (hone : p.sends.length ≤ 1) (ha : Act c d p d' p') : Undisturbed c endpoints endpoint event ⟨d', p'.toList⟩ := by
  have hapart : Apart endpoint event ⟨d, [p]⟩ :=
    (length_filter_le _ _).trans (by rwa [flatMap_singleton])
  have hlast := Relation.ReflTransGen.tail h ⟨hapart, .act (l := []) (r := []) ha⟩
  rwa [append_nil] at hlast

theorem Undisturbed.pass (r : Delivery) (now : Int) (a : Answer) (at_ : Int) (id : Nat)
    (h : Undisturbed c endpoints endpoint event ⟨d, []⟩) (hr : r ∈ d.deliveries) (hdue : Due d now [r]) (hid : Fresh d id) :
    Undisturbed c endpoints endpoint event ⟨⟨d.endpoints, recordOutcome r a at_ id d.deliveries, d.enqueued,
      ⟨.sendDue, r.endpointID, r.eventID⟩ :: d.posts⟩, []⟩ := by
  have htake := (h.start (.pass now [r] hdue)).act (Nat.le_refl 1) (.take [] [] ⟨r.endpointID, [r.id], [], 0, false⟩ r.id [] _
    rfl rfl (Nat.zero_lt_succ 1) (Nat.lt_of_lt_of_le Nat.zero_lt_one (Nat.le_max_right c 1)))
  have hread := htake.act (Nat.le_refl 1) (.fly [] [] _ [] [] _ _ d _ rfl (.found r hr))
  have hpost := hread.act (Nat.le_refl 1) (.fly [] [] _ [] [] _ _ _ _ rfl (.post r a))
  have hland := hpost.act (Nat.le_refl 1) (.land [] [] _ [] [] _ _ _ _ rfl (.record r a at_ id hid))
  have hlane : (Lane.record (lane r []) (Answer.timedOut a)).flying = [] ∧
      (Lane.record (lane r []) (Answer.timedOut a)).sends = [] := by
    unfold Lane.record
    split <;> exact ⟨rfl, rfl⟩
  have hnone : (Process.passing ([] ++ (Lane.record (lane r []) (Answer.timedOut a)) :: [])
      (decide ([r].length = sendBatch))).sends.length ≤ 1 := by
    rw [Process.sends, nil_append, flatMap_singleton, hlane.2]
    exact Nat.zero_le 1
  exact (hland.act hnone (.leave [] [] _ _ hlane.1)).act (Nat.zero_le 1) (.done _)

theorem redeliver_alone (r : Delivery) (now : Int) (id : Nat) (a : Answer) (at_ : Int) (id' : Nat)
    (h : Steps c Q sys ⟨d, []⟩) (hr : r ∈ d.deliveries) (hid : Fresh d id) (hq : Q r.endpointID r.eventID)
    (hid' : Fresh { d with deliveries := d.deliveries ++ [redelivery id now d.deliveries r] } id') :
    Steps c Q sys ⟨⟨d.endpoints, recordOutcome (redelivery id now d.deliveries r) a at_ id'
      (d.deliveries ++ [redelivery id now d.deliveries r]), d.enqueued,
        ⟨.redeliver, r.endpointID, r.eventID⟩ :: d.posts⟩, []⟩ := by
  have hread := (h.start (.redeliver r id now hr hid hq)).act
    (.goOn _ _ _ (.found (redelivery id now d.deliveries r) (mem_append_right _ (mem_singleton_self _))))
  exact (hread.act (.goOn _ _ _ (.post _ a))).act (.sent _ _ _ (.record _ a at_ id' hid'))

end

def pager : Endpoint := ⟨1, 1⟩

def opened : Delivery := firstAttempt 1 pager 7 "issue.created".toList "\x7b\x7d".toList 0

def onceDelivered : Data := ⟨[pager], recordOutcome opened (.ok 200) 1 2 [opened], [(1, 7)], [⟨.sendDue, 1, 7⟩]⟩

def onceRedelivered : Data := ⟨[pager], recordOutcome
    (redelivery 2 2 onceDelivered.deliveries (markDelivered (.ok 200) 1 opened))
  (.ok 500) 3 3 (onceDelivered.deliveries ++ [redelivery 2 2 onceDelivered.deliveries (markDelivered (.ok 200) 1 opened)]),
  [(1, 7)], [⟨.redeliver, 1, 7⟩, ⟨.sendDue, 1, 7⟩]⟩

def third : Delivery := retry 3 3 (redelivery 2 2 onceDelivered.deliveries (markDelivered (.ok 200) 1 opened))

instance (d : Data) (id : Nat) : Decidable (Fresh d id) := inferInstanceAs (Decidable (∀ r ∈ d.deliveries, r.id ≠ id))

theorem due_one {d : Data} {now : Int} {r : Delivery} (h : d.deliveries.filter (Delivery.isDue now) = [r]) : Due d now [r] :=
  ⟨[r], by rw [h], pairwise_singleton _ _, rfl⟩

theorem opened_undisturbed :
    Undisturbed 1 [pager] 1 7 ⟨enqueue (empty [pager]) pager 7 opened, []⟩ := by
  have hbegin : Undisturbed 1 [pager] 1 7 ⟨empty [pager], []⟩ := Relation.ReflTransGen.refl
  exact hbegin.start (.enqueue pager 7 1 "issue.created".toList "\x7b\x7d".toList 0 mem_cons_self (by decide))

theorem delivered_run : Run 1 [pager] ⟨onceDelivered, []⟩ :=
  (opened_undisturbed.pass opened 0 (.ok 200) 1 2 (mem_singleton_self opened) (due_one (by decide)) (by decide)).run

def refusedOnce : Data := ⟨[pager], recordOutcome opened (.ok 500) 1 2 [opened], [(1, 7)], [⟨.sendDue, 1, 7⟩]⟩

def second : Delivery := retry 2 1 opened

def takenThen : Data := ⟨[pager], recordOutcome second (.ok 200) (2 * Go.minute) 3 refusedOnce.deliveries, [(1, 7)],
  [⟨.sendDue, 1, 7⟩, ⟨.sendDue, 1, 7⟩]⟩

theorem taken_undisturbed : Undisturbed 1 [pager] 1 7 ⟨takenThen, []⟩ := by
  have hrefused : Undisturbed 1 [pager] 1 7 ⟨refusedOnce, []⟩ :=
    opened_undisturbed.pass opened 0 (.ok 500) 1 2 (mem_singleton_self opened) (due_one (by decide)) (by decide)
  exact hrefused.pass second (2 * Go.minute) (.ok 200) (2 * Go.minute) 3 (by decide) (due_one (by decide)) (by decide)

def following : Delivery := firstAttempt 4 pager 8 "issue.updated".toList "\x7b\x7d".toList (3 * Go.minute)

theorem delivered_settled : ∃ sys', Steps 1 (fun e v => ¬ (e = 1 ∧ v = 7)) ⟨takenThen, []⟩ sys' ∧
    postsOf 1 8 sys'.shared = [⟨.sendDue, 1, 8⟩] ∧ postsOf 1 7 sys'.shared = [⟨.sendDue, 1, 7⟩, ⟨.sendDue, 1, 7⟩] := by
  have henqueued : Steps 1 (fun e v => ¬ (e = 1 ∧ v = 7)) ⟨takenThen, []⟩ ⟨enqueue takenThen pager 8 following, []⟩ :=
    Steps.start Relation.ReflTransGen.refl
      (.enqueue pager 8 4 "issue.updated".toList "\x7b\x7d".toList (3 * Go.minute) mem_cons_self (by decide))
  have hpass := pass_posts following (3 * Go.minute) (.ok 200) henqueued (by decide) (due_one (by decide))
  exact ⟨_, hpass, by decide, (tried_until_delivered taken_undisturbed.run).2 1 7 taken_undisturbed
    ⟨markDelivered (.ok 200) (2 * Go.minute) second, by decide, by decide, by decide⟩ _ hpass⟩

/-- **A delivered event that is redelivered is tried again by a pass,** since a redelivery is a first attempt. -/
theorem redelivered_is_tried : Run 1 [pager] ⟨onceDelivered, []⟩ ∧ Delivered onceDelivered 1 7 ∧
    ∃ sys, Steps 1 (fun _ _ => True) ⟨onceDelivered, []⟩ sys ∧
      (postsOf 1 7 onceDelivered).count ⟨.sendDue, 1, 7⟩ < (postsOf 1 7 sys.shared).count ⟨.sendDue, 1, 7⟩ := by
  refine ⟨delivered_run, ⟨markDelivered (.ok 200) 1 opened, by decide, by decide, by decide⟩, ?_⟩
  have hredelivered : Steps 1 (fun _ _ => True) ⟨onceDelivered, []⟩ ⟨onceRedelivered, []⟩ :=
    redeliver_alone (markDelivered (.ok 200) 1 opened) 2 2 (.ok 500) 3 3 Relation.ReflTransGen.refl (by decide) (by decide)
      trivial (by decide)
  have hpass := pass_posts third (4 + 5 * Go.minute) (.ok 500) hredelivered (by decide) (due_one (by decide))
  exact ⟨_, hpass, by decide⟩

end Webhook
end Armature
