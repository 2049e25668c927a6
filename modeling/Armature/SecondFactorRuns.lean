import Armature.SecondFactor
/-!
# SecondFactorRuns — every code is used once (`auth/secondfactor.go`)

What a transaction reads of a row that it holds stays so until it commits (`Interleaving.Run.locked`); what it writes then
keeps the tables and what was done with them in step (`Kept`).
-/
namespace Armature
namespace SecondFactor

open List hiding set
open Go (Text Bytes)

def acceptedSteps (d : Data) (user : Nat) : List Int := (d.steps.filter fun e => e.1 = user).map fun e => e.2.1

def Near (step now : Int) : Prop := totpStep now - 1 ≤ step ∧ step ≤ totpStep now + 1

structure Kept (d : Data) : Prop where
  rising : ∀ u, (acceptedSteps d u).Pairwise (· > ·)
  past : ∀ u f, d.factor u = some f → ∀ step ∈ acceptedSteps d u, step ≤ f.lastStep
  near : ∀ e ∈ d.steps, Near e.2.1 e.2.2
  once : d.spent.Nodup
  used : ∀ e ∈ d.spent, ∀ c ∈ d.codes e.1, c.set = e.2.1 → c.digest = e.2.2 → c.used = true
  setOf : ∀ u, ∀ c ∈ d.codes u, c.set < d.sets
  spentOf : ∀ e ∈ d.spent, e.2.1 < d.sets
  waiting : ∀ u c, d.challenge u = some c → c.number < d.issued ∧ c.attempts = d.judged.count c.number ∧
    c.attempts < challengeAttempts ∧ c.number ∉ d.sessions
  own : ∀ u v c c', d.challenge u = some c → d.challenge v = some c' → c.number = c'.number → u = v
  judged : ∀ n, d.judged.count n ≤ challengeAttempts
  sessions : ∀ n, d.sessions.count n ≤ 1
  issued : ∀ n, n ∈ d.judged ∨ n ∈ d.sessions → n < d.issued

def Spendable (d : Data) (user : Nat) (locked : List Row) : Spent → Prop
  | .step step now => .factor user ∈ locked ∧ (∃ f, d.factor user = some f ∧ f.lastStep < step) ∧ Near step now
  | .code set digest =>
    .code user digest ∈ locked ∧ ∃ row ∈ d.codes user, row.set = set ∧ row.digest = digest ∧ row.used = false

def Stage.holds : Stage → Option (Spent × List Code)
  | .accepted how | .dropping how => some (how, [])
  | .renewing how old | .removing how old => some (how, old)
  | _ => none

structure Knows (d : Data) (t : Tx) : Prop where
  challenge : ∀ c, t.challenge = some c → .challenge t.user ∈ t.locked ∧ d.challenge t.user = some c
  spendable : ∀ h, t.stage.holds = some h → Spendable d t.user t.locked h.1
  deletes : ∀ h, t.stage.holds = some h → ∀ r ∈ codeRows t.user h.2, r ∈ t.locked
  drops : ∀ how, t.stage = .dropping how ∨ (t.call = .removeSecondFactor ∧ ∃ old, t.stage = .removing how old) →
    .factor t.user ∈ t.locked

structure Only (mine : Row → Prop) (d d' : Data) : Prop where
  challenge : ∀ u, ¬ mine (.challenge u) → d'.challenge u = d.challenge u
  factor : ∀ u, ¬ mine (.factor u) → d'.factor u = d.factor u
  code : ∀ u, ∀ row ∈ d.codes u, ¬ mine (.code u row.digest) → row ∈ d'.codes u

section
variable {k : Crypto} {d d' : Data} {user : Nat} {mine : Row → Prop} {locked : List Row}

theorem matchTOTP_some {secret : Bytes} {code : Text} {now last step : Int} (h : matchTOTP k secret code now last = some step) :
    last < step ∧ Near step now := by
  unfold matchTOTP at h
  dsimp only at h
  split at h
  · cases h
  · have hmem := mem_of_find?_eq_some h
    have hp := List.find?_some h
    rw [decide_eq_true_eq] at hp
    refine ⟨hp.2, ?_⟩
    unfold Near
    simp only [totpSkewSteps, mem_cons, not_mem_nil, or_false] at hmem
    omega

theorem Only.refl (mine : Row → Prop) (d : Data) : Only mine d d := ⟨fun _ _ => rfl, fun _ _ => rfl, fun _ _ h _ => h⟩

theorem Only.trans {d'' : Data} (h : Only mine d d') (h' : Only mine d' d'') : Only mine d d'' :=
  ⟨fun u hu => (h'.challenge u hu).trans (h.challenge u hu), fun u hu => (h'.factor u hu).trans (h.factor u hu),
    fun u row hrow hu => h'.code u row (h.code u row hrow hu) hu⟩

variable {t : Tx} {how : Spent} {old : List Code} {c : Challenge} {others : List Tx}

theorem Knows.stable (hc : Only mine d d') (hmine : ∀ r, t.locks r → ¬ mine r) (h : Knows d t) : Knows d' t := by
  refine ⟨fun c hchal => ?_, fun held hs => ?_, h.deletes, h.drops⟩
  · obtain ⟨hlock, hrow⟩ := h.challenge c hchal
    exact ⟨hlock, (hc.challenge _ (hmine _ hlock)).trans hrow⟩
  · have hsp := h.spendable held hs
    cases hhow : held.1 with
    | step =>
      rw [hhow] at hsp
      obtain ⟨hlock, ⟨f, hf, hlt⟩, hnear⟩ := hsp
      exact ⟨hlock, ⟨f, (hc.factor _ (hmine _ hlock)).trans hf, hlt⟩, hnear⟩
    | code =>
      rw [hhow] at hsp
      obtain ⟨hlock, row, hrow, hset, rfl, hused⟩ := hsp
      exact ⟨hlock, row, hc.code _ row hrow (hmine _ hlock), hset, rfl, hused⟩

/-! ## What a transaction changes -/

theorem only_spend (hs : Spendable d user locked how) : Only (· ∈ locked) d (d.spend user how) := by
  cases how with
  | step =>
    refine ⟨fun _ _ => rfl, fun u hu => ?_, fun _ _ h _ => h⟩
    exact Function.update_of_ne (fun he : u = user => hu (he ▸ hs.1)) _ _
  | code set digest =>
    refine ⟨fun _ _ => rfl, fun _ _ => rfl, fun u row hrow hu => ?_⟩
    by_cases hus : u = user
    · subst hus
      have hne : row.digest ≠ digest := fun he => hu (he ▸ hs.1)
      show row ∈ Function.update d.codes u _ u
      rw [Function.update_self]
      exact mem_map.2 ⟨row, hrow, if_neg hne⟩
    · show row ∈ Function.update d.codes user _ u
      rwa [Function.update_of_ne hus]

theorem only_dropChallenge (h : mine (.challenge user)) : Only mine d (d.dropChallenge user) :=
  ⟨fun u hu => Function.update_of_ne (fun he : u = user => hu (he ▸ h)) _ _, fun _ _ => rfl, fun _ _ h _ => h⟩

theorem only_countWrong (h : mine (.challenge user)) (c : Challenge) : Only mine d (d.countWrong user c) :=
  ⟨fun u hu => Function.update_of_ne (fun he : u = user => hu (he ▸ h)) _ _, fun _ _ => rfl, fun _ _ h _ => h⟩

theorem kept_code (hold : ∀ r ∈ codeRows user old, mine r) {u : Nat} {row : Code} (hrow : row ∈ d.codes u)
    (hu : ¬ mine (.code u row.digest)) (hus : u = user) : row ∈ (d.codes user).filter fun c => c.digest ∉ old.map Code.digest := by
  subst hus
  refine mem_filter.2 ⟨hrow, decide_eq_true fun hmem => hu ?_⟩
  obtain ⟨c, hc, he⟩ := mem_map.1 hmem
  exact he ▸ hold _ (mem_map_of_mem hc)

theorem only_replaceCodes (hold : ∀ r ∈ codeRows user old, mine r) (digests : List Text) :
    Only mine d (d.replaceCodes user old digests) := by
  refine ⟨fun _ _ => rfl, fun _ _ => rfl, fun u row hrow hu => ?_⟩
  show row ∈ Function.update d.codes user _ u
  by_cases hus : u = user
  · rw [hus, Function.update_self]
    exact mem_append_left _ (kept_code hold hrow hu hus)
  · rwa [Function.update_of_ne hus]

theorem only_dropFactor (hfactor : mine (.factor user)) (hold : ∀ r ∈ codeRows user old, mine r) :
    Only mine d (d.dropFactor user old) := by
  refine ⟨fun _ _ => rfl, fun u hu => Function.update_of_ne (fun he : u = user => hu (he ▸ hfactor)) _ _, fun u row hrow hu => ?_⟩
  show row ∈ Function.update d.codes user _ u
  by_cases hus : u = user
  · rw [hus, Function.update_self]
    exact kept_code hold hrow hu hus
  · rwa [Function.update_of_ne hus]

/-! ## What was done, and the tables -/

theorem acceptedSteps_step (u : Nat) (step now : Int) :
    acceptedSteps (d.spend user (.step step now)) u = if user = u then step :: acceptedSteps d u else acceptedSteps d u := by
  show (((user, step, now) :: d.steps).filter _).map _ = _
  rw [filter_cons]
  simp only [decide_eq_true_eq]
  split <;> rfl

theorem Kept.spendStep (hk : Kept d) {step now : Int} (hs : Spendable d user locked (.step step now)) :
    Kept (d.spend user (.step step now)) := by
  obtain ⟨-, ⟨f, hf, hlt⟩, hnear⟩ := hs
  refine ⟨fun u => ?_, fun u f' hf' s hmem => ?_, fun e he => ?_, hk.once, hk.used, hk.setOf, hk.spentOf, hk.waiting, hk.own,
    hk.judged, hk.sessions, hk.issued⟩
  · rw [acceptedSteps_step]
    split
    · rename_i hu
      subst hu
      exact pairwise_cons.2 ⟨fun s hmem => lt_of_le_of_lt (hk.past user f hf s hmem) hlt, hk.rising user⟩
    · exact hk.rising u
  · rw [acceptedSteps_step] at hmem
    replace hf' : Function.update d.factor user ((d.factor user).map fun f => { f with lastStep := step }) u = some f' := hf'
    split at hmem
    · rename_i hu
      subst hu
      rw [Function.update_self, hf, Option.map_some, Option.some_inj] at hf'
      rw [← hf']
      rcases mem_cons.1 hmem with rfl | hmem
      · exact le_rfl
      · exact le_trans (hk.past user f hf s hmem) hlt.le
    · rename_i hu
      rw [Function.update_of_ne (Ne.symm hu)] at hf'
      exact hk.past u f' hf' s hmem
  · rcases mem_cons.1 he with rfl | he
    · exact hnear
    · exact hk.near e he

theorem mem_useCode {digest : Text} {c : Code} {cs : List Code}
    (h : c ∈ cs.map fun c => if c.digest = digest then { c with used := true } else c) :
    (∃ c₀ ∈ cs, c₀.set = c.set ∧ c₀.digest = c.digest ∧ (c₀.used = true → c.used = true)) ∧ (c.digest = digest → c.used = true) := by
  obtain ⟨c₀, hmem, rfl⟩ := mem_map.1 h
  split
  · exact ⟨⟨c₀, hmem, rfl, rfl, fun _ => rfl⟩, fun _ => rfl⟩
  · rename_i hne
    exact ⟨⟨c₀, hmem, rfl, rfl, id⟩, fun he => absurd he hne⟩

theorem Kept.spendCode (hk : Kept d) {set : Nat} {digest : Text} (hs : Spendable d user locked (.code set digest)) :
    Kept (d.spend user (.code set digest)) := by
  obtain ⟨-, row, hrow, hset, hdigest, hunused⟩ := hs
  have hcodes : ∀ u, ∀ c ∈ (d.spend user (.code set digest)).codes u,
      (∃ c₀ ∈ d.codes u, c₀.set = c.set ∧ c₀.digest = c.digest ∧ (c₀.used = true → c.used = true)) ∧
        (u = user → c.digest = digest → c.used = true) := by
    intro u c hc
    replace hc : c ∈ Function.update d.codes user _ u := hc
    by_cases hu : u = user
    · subst hu
      rw [Function.update_self] at hc
      exact ⟨(mem_useCode hc).1, fun _ => (mem_useCode hc).2⟩
    · rw [Function.update_of_ne hu] at hc
      exact ⟨⟨c, hc, rfl, rfl, id⟩, fun he => absurd he hu⟩
  refine ⟨hk.rising, hk.past, hk.near, ?_, fun e he c hc hse hde => ?_, fun u c hc => ?_, fun e he => ?_, hk.waiting, hk.own,
    hk.judged, hk.sessions, hk.issued⟩
  · refine nodup_cons.2 ⟨fun hmem => ?_, hk.once⟩
    have hused := hk.used _ hmem row hrow hset hdigest
    rw [hunused] at hused
    cases hused
  · obtain ⟨⟨c₀, hmem, hset₀, hdigest₀, himp⟩, hspent⟩ := hcodes _ c hc
    rcases mem_cons.1 he with rfl | he
    · exact hspent rfl hde
    · exact himp (hk.used e he c₀ hmem (hset₀.trans hse) (hdigest₀.trans hde))
  · obtain ⟨⟨c₀, hmem, hset₀, -⟩, -⟩ := hcodes u c hc
    exact hset₀ ▸ hk.setOf u c₀ hmem
  · rcases mem_cons.1 he with rfl | he
    · exact hset ▸ hk.setOf user row hrow
    · exact hk.spentOf e he

theorem Kept.spend (hk : Kept d) (hs : Spendable d user locked how) : Kept (d.spend user how) := by
  cases how with
  | step => exact hk.spendStep hs
  | code => exact hk.spendCode hs

theorem spend_challenge (d : Data) (user : Nat) (how : Spent) : (d.spend user how).challenge = d.challenge := by
  cases how <;> rfl

theorem update_challenge {u v : Nat} {new : Option Challenge}
    (h : Function.update d.challenge u new v = some c) : (v = u ∧ new = some c) ∨ (v ≠ u ∧ d.challenge v = some c) := by
  by_cases hv : v = u
  · subst hv
    rw [Function.update_self] at h
    exact Or.inl ⟨rfl, h⟩
  · rw [Function.update_of_ne hv] at h
    exact Or.inr ⟨hv, h⟩

theorem Kept.dropChallenge (hk : Kept d) (user : Nat) : Kept (d.dropChallenge user) := by
  have hthere : ∀ v c, (d.dropChallenge user).challenge v = some c → d.challenge v = some c := by
    intro v c hc
    rcases update_challenge hc with ⟨-, hnone⟩ | ⟨-, hc⟩
    · cases hnone
    · exact hc
  exact ⟨hk.rising, hk.past, hk.near, hk.once, hk.used, hk.setOf, hk.spentOf, fun v c hc => hk.waiting v c (hthere v c hc),
    fun u v c c' hc hc' => hk.own u v c c' (hthere u c hc) (hthere v c' hc'), hk.judged, hk.sessions, hk.issued⟩

theorem Kept.count_other (hk : Kept d) {c' : Challenge} {v : Nat} (hc : d.challenge user = some c) (hv : v ≠ user)
    (hc' : d.challenge v = some c') : (c.number :: d.judged).count c'.number = d.judged.count c'.number :=
  count_cons_of_ne fun he => hv (hk.own v user c' c hc' hc he.symm)

theorem Kept.count_le (hk : Kept d) (hc : d.challenge user = some c) (n : Nat) :
    (c.number :: d.judged).count n ≤ challengeAttempts := by
  by_cases hn : c.number = n
  · obtain ⟨-, hattempts, hlt, -⟩ := hk.waiting user c hc
    rw [hn, count_cons_self, ← hn, ← hattempts]
    exact hlt
  · rw [count_cons_of_ne hn]
    exact hk.judged n

theorem Kept.countWrong (hk : Kept d) (hc : d.challenge user = some c) : Kept (d.countWrong user c) := by
  have hthere : ∀ v c', (d.countWrong user c).challenge v = some c' →
      (v = user ∧ c' = { c with attempts := c.attempts + 1 } ∧ c.attempts + 1 < challengeAttempts) ∨
        (v ≠ user ∧ d.challenge v = some c') := by
    intro v c' hc'
    rcases update_challenge hc' with ⟨rfl, hnew⟩ | hother
    · split_ifs at hnew with hlast
      rw [hc, Option.map_some, Option.some_inj] at hnew
      exact Or.inl ⟨rfl, hnew.symm, Nat.lt_of_not_le hlast⟩
    · exact Or.inr hother
  have hnumber : ∀ v c', (d.countWrong user c).challenge v = some c' → ∃ c₀, d.challenge v = some c₀ ∧ c₀.number = c'.number := by
    intro v c' hc'
    rcases hthere v c' hc' with ⟨rfl, rfl, -⟩ | ⟨-, hc'⟩
    · exact ⟨c, hc, rfl⟩
    · exact ⟨c', hc', rfl⟩
  refine ⟨hk.rising, hk.past, hk.near, hk.once, hk.used, hk.setOf, hk.spentOf, fun v c' hc' => ?_, fun u v c₁ c₂ h₁ h₂ he => ?_,
    hk.count_le hc, hk.sessions, fun n hn => ?_⟩
  · rcases hthere v c' hc' with ⟨rfl, rfl, hlt⟩ | ⟨hv, hc'⟩
    · obtain ⟨hissued, hattempts, -, hopen⟩ := hk.waiting v c hc
      refine ⟨hissued, ?_, hlt, hopen⟩
      show c.attempts + 1 = (c.number :: d.judged).count c.number
      rw [count_cons_self, hattempts]
    · obtain ⟨hissued, hattempts, hlt, hopen⟩ := hk.waiting v c' hc'
      exact ⟨hissued, hattempts.trans (hk.count_other hc hv hc').symm, hlt, hopen⟩
  · obtain ⟨a, ha, hna⟩ := hnumber u c₁ h₁
    obtain ⟨b, hb, hnb⟩ := hnumber v c₂ h₂
    exact hk.own u v a b ha hb (hna.trans (he.trans hnb.symm))
  · rcases hn with hn | hn
    · rcases mem_cons.1 hn with rfl | hn
      · exact (hk.waiting user c hc).1
      · exact hk.issued n (Or.inl hn)
    · exact hk.issued n (Or.inr hn)

theorem Kept.openSession (hk : Kept d) (hc : d.challenge user = some c) :
    Kept ((d.dropChallenge user).openSession c) := by
  have hk' := hk.dropChallenge user
  obtain ⟨hissued, -, -, hopen⟩ := hk.waiting user c hc
  have hthere : ∀ v c', (d.dropChallenge user).challenge v = some c' → v ≠ user ∧ d.challenge v = some c' := by
    intro v c' hc'
    rcases update_challenge hc' with ⟨-, hnone⟩ | hother
    · cases hnone
    · exact hother
  refine ⟨hk.rising, hk.past, hk.near, hk.once, hk.used, hk.setOf, hk.spentOf, fun v c' hc' => ?_, hk'.own, hk.count_le hc,
    fun n => ?_, fun n hn => ?_⟩
  · obtain ⟨hv, hc₀⟩ := hthere v c' hc'
    obtain ⟨hissued', hattempts, hlt, hopen'⟩ := hk.waiting v c' hc₀
    refine ⟨hissued', hattempts.trans (hk.count_other hc hv hc₀).symm, hlt, fun hmem => ?_⟩
    rcases mem_cons.1 hmem with he | hmem
    · exact hv (hk.own v user c' c hc₀ hc he)
    · exact hopen' hmem
  · by_cases hn : c.number = n
    · subst hn
      show (c.number :: d.sessions).count c.number ≤ 1
      rw [count_cons_self, count_eq_zero_of_not_mem hopen]
    · show (c.number :: d.sessions).count n ≤ 1
      rw [count_cons_of_ne hn]
      exact hk.sessions n
  · have hmem : n = c.number ∨ n ∈ d.judged ∨ n ∈ d.sessions := by
      rcases hn with hn | hn
      · exact (mem_cons.1 hn).imp_right Or.inl
      · exact (mem_cons.1 hn).imp_right Or.inr
    rcases hmem with rfl | hmem
    · exact hissued
    · exact hk.issued n hmem

theorem Kept.replaceCodes (hk : Kept d) (user : Nat) (old : List Code) (digests : List Text) :
    Kept (d.replaceCodes user old digests) := by
  have hcodes : ∀ u, ∀ c ∈ (d.replaceCodes user old digests).codes u, c ∈ d.codes u ∨ c.set = d.sets := by
    intro u c hc
    replace hc : c ∈ Function.update d.codes user _ u := hc
    by_cases hu : u = user
    · subst hu
      rw [Function.update_self] at hc
      rcases mem_append.1 hc with hc | hc
      · exact Or.inl (mem_filter.1 hc).1
      · obtain ⟨g, -, rfl⟩ := mem_map.1 hc
        exact Or.inr rfl
    · rw [Function.update_of_ne hu] at hc
      exact Or.inl hc
  refine ⟨hk.rising, hk.past, hk.near, hk.once, fun e he c hc hset hdigest => ?_, fun u c hc => ?_, fun e he => ?_, hk.waiting,
    hk.own, hk.judged, hk.sessions, hk.issued⟩
  · rcases hcodes _ c hc with hc | hnew
    · exact hk.used e he c hc hset hdigest
    · exact absurd (hset.symm.trans hnew) (hk.spentOf e he).ne
  · rcases hcodes u c hc with hc | hnew
    · exact Nat.lt_succ_of_lt (hk.setOf u c hc)
    · exact Nat.lt_succ_of_le hnew.le
  · exact Nat.lt_succ_of_lt (hk.spentOf e he)

theorem Kept.dropFactor (hk : Kept d) (user : Nat) (old : List Code) : Kept (d.dropFactor user old) := by
  have hcodes : ∀ u, ∀ c ∈ (d.dropFactor user old).codes u, c ∈ d.codes u := by
    intro u c hc
    replace hc : c ∈ Function.update d.codes user _ u := hc
    by_cases hu : u = user
    · subst hu
      rw [Function.update_self] at hc
      exact (mem_filter.1 hc).1
    · rwa [Function.update_of_ne hu] at hc
  refine ⟨hk.rising, fun u f hf => ?_, hk.near, hk.once, fun e he c hc => hk.used e he c (hcodes _ c hc),
    fun u c hc => hk.setOf u c (hcodes u c hc), hk.spentOf, hk.waiting, hk.own, hk.judged, hk.sessions, hk.issued⟩
  replace hf : Function.update d.factor user none u = some f := hf
  by_cases hu : u = user
  · subst hu
    rw [Function.update_self] at hf
    cases hf
  · rw [Function.update_of_ne hu] at hf
    exact hk.past u f hf

theorem Kept.issueChallenge (hk : Kept d) (user : Nat) (tokenHash : Text) (expiresAt : Int) :
    Kept { d with challenge := Function.update d.challenge user (some ⟨d.issued, tokenHash, expiresAt, 0⟩), issued := d.issued + 1 } := by
  have hfresh : ∀ {v c'}, d.challenge v = some c' → c'.number ≠ d.issued := fun hc' => (hk.waiting _ _ hc').1.ne
  refine ⟨hk.rising, hk.past, hk.near, hk.once, hk.used, hk.setOf, hk.spentOf, fun v c' hc' => ?_, fun u v c₁ c₂ h₁ h₂ he => ?_,
    hk.judged, hk.sessions, fun n hn => Nat.lt_succ_of_lt (hk.issued n hn)⟩
  · rcases update_challenge hc' with ⟨rfl, hnew⟩ | ⟨-, hc'⟩
    · obtain rfl := Option.some_inj.1 hnew
      refine ⟨Nat.lt_succ_self _, ?_, Nat.succ_pos 4, fun hmem => absurd (hk.issued _ (Or.inr hmem)) (lt_irrefl _)⟩
      exact (count_eq_zero_of_not_mem fun hmem => absurd (hk.issued _ (Or.inl hmem)) (lt_irrefl _)).symm
    · obtain ⟨hissued, hrest⟩ := hk.waiting v c' hc'
      exact ⟨Nat.lt_succ_of_lt hissued, hrest⟩
  · rcases update_challenge h₁ with ⟨rfl, hnew₁⟩ | ⟨-, hold₁⟩ <;> rcases update_challenge h₂ with ⟨rfl, hnew₂⟩ | ⟨-, hold₂⟩
    · rfl
    · exact absurd (he.symm.trans (congrArg Challenge.number (Option.some_inj.1 hnew₁).symm)) (hfresh hold₂)
    · exact absurd (he.trans (congrArg Challenge.number (Option.some_inj.1 hnew₂).symm)) (hfresh hold₁)
    · exact hk.own u v c₁ c₂ hold₁ hold₂ he

/-! ## The steps of a transaction -/

theorem Knows.unaccepted (hchallenge : ∀ c, t.challenge = some c → .challenge t.user ∈ t.locked ∧ d.challenge t.user = some c)
    (hnone : t.stage.holds = none) : Knows d t := by
  have hnot : ∀ h, t.stage.holds ≠ some h := fun h he => Option.some_ne_none h (he.symm.trans hnone)
  refine ⟨hchallenge, fun h he => absurd he (hnot h), fun h he => absurd he (hnot h), fun how he => ?_⟩
  rcases he with he | ⟨-, old, he⟩
  · exact absurd (congrArg Stage.holds he) (hnot _)
  · exact absurd (congrArg Stage.holds he) (hnot _)

theorem Knows.challenge_cons (h : Knows d t) (r : Row) (c : Challenge) (hc : t.challenge = some c) :
    .challenge t.user ∈ r :: t.locked ∧ d.challenge t.user = some c :=
  ⟨mem_cons_of_mem r (h.challenge c hc).1, (h.challenge c hc).2⟩

theorem locks_cons {r : Row} (hfree : Interleaving.Unlocked Tx.locks others r) :
    ∀ row ∈ r :: locked, row ∈ locked ∨ Interleaving.Unlocked Tx.locks others row := by
  intro row hrow
  rcases mem_cons.1 hrow with rfl | hrow
  · exact Or.inr hfree
  · exact Or.inl hrow

theorem locks_codes {cs : List Code}
    (hfree : ∀ r ∈ codeRows user cs, Interleaving.Unlocked Tx.locks others r) :
    ∀ row ∈ codeRows user cs ++ locked, row ∈ locked ∨ Interleaving.Unlocked Tx.locks others row := by
  intro row hrow
  rcases mem_append.1 hrow with hrow | hrow
  · exact Or.inr (hfree row hrow)
  · exact Or.inl hrow

theorem Spendable.mono {more : List Row} (h : Spendable d user locked how) (hsub : ∀ r ∈ locked, r ∈ more) :
    Spendable d user more how := by
  cases how with
  | step => exact ⟨hsub _ h.1, h.2⟩
  | code => exact ⟨hsub _ h.1, h.2⟩

theorem act_keeps {t' : Option Tx} (hk : Kept d) (hl : Knows d t) (ha : Act k d others t d' t') :
    Kept d' ∧ Only t.locks d d' ∧ ∀ q ∈ t', Knows d' q ∧
      ∀ row, q.locks row → t.locks row ∨ Interleaving.Unlocked Tx.locks others row := by
  have hstays : ∀ {q : Tx}, Knows d q → (∀ row ∈ q.locked, row ∈ t.locked ∨ Interleaving.Unlocked Tx.locks others row) →
      Kept d ∧ Only t.locks d d ∧ ∀ q' ∈ some q, Knows d q' ∧
        ∀ row, q'.locks row → t.locks row ∨ Interleaving.Unlocked Tx.locks others row := by
    intro q hq hrows
    refine ⟨hk, Only.refl _ d, fun q' hq' => ?_⟩
    obtain rfl := Option.mem_some_iff.1 hq'
    exact ⟨hq, hrows⟩
  have hends : ∀ {d'' : Data}, Kept d'' → Only t.locks d d'' → Kept d'' ∧ Only t.locks d d'' ∧ ∀ q' ∈ (none : Option Tx),
      Knows d'' q' ∧ ∀ row, q'.locks row → t.locks row ∨ Interleaving.Unlocked Tx.locks others row :=
    fun hk'' honly => ⟨hk'', honly, nofun⟩
  cases ha with
  | find token code u user c now hrow hhash hopen hactive hfree =>
    refine hstays (Knows.unaccepted (fun c' hc' => ?_) rfl) (locks_cons hfree)
    obtain rfl := Option.some_inj.1 hc'
    exact ⟨mem_cons_self, hrow⟩
  | noFactor => exact hstays (Knows.unaccepted hl.challenge rfl) fun _ => Or.inl
  | stepAccepted call code user c locked f secret now step htotp hf hconfirmed hfree hsecret hmatch =>
    obtain ⟨hlast, hnear⟩ := matchTOTP_some hmatch
    refine hstays ⟨hl.challenge_cons _, fun h he => ?_, fun h he r hr => ?_, fun how he => ?_⟩ (locks_cons hfree)
    · obtain rfl := Option.some_inj.1 he
      exact ⟨mem_cons_self, ⟨f, hf, hlast⟩, hnear⟩
    · obtain rfl := Option.some_inj.1 he
      cases hr
    · rcases he with he | ⟨-, old, he⟩ <;> cases he
  | stepRefused call code user c locked f secret now htotp hf hconfirmed hfree hsecret hmatch =>
    exact hstays (Knows.unaccepted (hl.challenge_cons _) rfl) (locks_cons hfree)
  | has => exact hstays (Knows.unaccepted hl.challenge rfl) fun _ => Or.inl
  | codeAccepted call code user c locked row hrow hdigest hunused hfree =>
    refine hstays ⟨hl.challenge_cons _, fun h he => ?_, fun h he r hr => ?_, fun how he => ?_⟩ (locks_cons hfree)
    · obtain rfl := Option.some_inj.1 he
      exact ⟨mem_cons_self, row, hrow, rfl, rfl, hunused⟩
    · obtain rfl := Option.some_inj.1 he
      cases hr
    · rcases he with he | ⟨-, old, he⟩ <;> cases he
  | codeRefused => exact hstays (Knows.unaccepted hl.challenge rfl) fun _ => Or.inl
  | loginRefused token code user c locked =>
    obtain ⟨hlock, hrow⟩ := hl.challenge c rfl
    exact hends (hk.countWrong hrow) (only_countWrong hlock c)
  | loginEnded token code user c locked => exact hends (hk.dropChallenge user) (only_dropChallenge (hl.challenge c rfl).1)
  | login token code user c locked how =>
    obtain ⟨hlock, hrow⟩ := hl.challenge c rfl
    have hs := hl.spendable (how, []) rfl
    rw [← spend_challenge d user how] at hrow
    refine hends ((hk.spend hs).openSession hrow) ((only_spend hs).trans ?_)
    have hdrop : Only (· ∈ locked) (d.spend user how) ((d.spend user how).dropChallenge user) := only_dropChallenge hlock
    exact ⟨hdrop.challenge, hdrop.factor, hdrop.code⟩
  | deleteCodes code user locked how hfree =>
    refine hstays ⟨fun c hc => absurd hc.symm (Option.some_ne_none c), fun h he => ?_, fun h he r hr => ?_, fun how he => ?_⟩ (locks_codes hfree)
    · obtain rfl := Option.some_inj.1 he
      exact (hl.spendable (how, []) rfl).mono fun _ => mem_append_right _
    · obtain rfl := Option.some_inj.1 he
      exact mem_append_left _ hr
    · rcases he with he | ⟨he, -⟩ <;> cases he
  | renew code user locked how old digests hcount hnodup hnew =>
    have hs := hl.spendable (how, old) rfl
    exact hends ((hk.spend hs).replaceCodes user old digests)
      ((only_spend hs).trans (only_replaceCodes (hl.deletes (how, old) rfl) digests))
  | deleteFactor code user locked how hfree =>
    refine hstays ⟨fun c hc => absurd hc.symm (Option.some_ne_none c), fun h he => ?_, fun h he r hr => ?_, fun how he => mem_cons_self⟩ (locks_cons hfree)
    · obtain rfl := Option.some_inj.1 he
      exact (hl.spendable (how, []) rfl).mono fun _ => mem_cons_of_mem _
    · obtain rfl := Option.some_inj.1 he
      cases hr
  | deleteItsCodes code user locked how hfree =>
    refine hstays ⟨fun c hc => absurd hc.symm (Option.some_ne_none c), fun h he => ?_, fun h he r hr => ?_, fun _ _ => ?_⟩ (locks_codes hfree)
    · obtain rfl := Option.some_inj.1 he
      exact (hl.spendable (how, []) rfl).mono fun _ => mem_append_right _
    · obtain rfl := Option.some_inj.1 he
      exact mem_append_left _ hr
    · exact mem_append_right _ (hl.drops how (Or.inl rfl))
  | deleteChallenge code user locked how old hfree hnot =>
    refine hstays ⟨fun c hc => absurd hc.symm (Option.some_ne_none c), fun h he => ?_, fun h he r hr => ?_, fun _ _ => ?_⟩ (locks_cons hfree)
    · obtain rfl := Option.some_inj.1 he
      exact (hl.spendable (how, old) rfl).mono fun _ => mem_cons_of_mem _
    · obtain rfl := Option.some_inj.1 he
      exact mem_cons_of_mem _ (hl.deletes (how, old) rfl r hr)
    · exact mem_cons_of_mem _ (hl.drops how (Or.inr ⟨rfl, old, rfl⟩))
  | remove code user locked how old hlock =>
    have hs := hl.spendable (how, old) rfl
    have hdrop : Only (· ∈ locked) (d.spend user how) ((d.spend user how).dropFactor user old) :=
      only_dropFactor (hl.drops how (Or.inr ⟨rfl, old, rfl⟩)) (hl.deletes (how, old) rfl)
    exact hends (((hk.spend hs).dropFactor user old).dropChallenge user)
      (((only_spend hs).trans hdrop).trans (only_dropChallenge hlock))

theorem start_keeps {running : List Tx} {t : Option Tx} (hk : Kept d) (hs : Start d running d' t) :
    Kept d' ∧ Only (Interleaving.Unlocked Tx.locks running) d d' ∧ ∀ q ∈ t, Knows d' q ∧ ∀ row, ¬ q.locks row := by
  have hcall : ∀ {q : Tx}, q.challenge = none → q.stage.holds = none → q.locked = [] → ∀ q' ∈ some q, Knows d q' ∧ ∀ row, ¬ q'.locks row := by
    intro q hnone hholds hlocked q' hq'
    obtain rfl := Option.mem_some_iff.1 hq'
    refine ⟨Knows.unaccepted (fun c hc => absurd (hc.symm.trans hnone) (Option.some_ne_none c)) hholds, fun row hrow => ?_⟩
    unfold Tx.locks at hrow
    rw [hlocked] at hrow
    cases hrow
  cases hs with
  | completeLogin => exact ⟨hk, Only.refl _ d, hcall rfl rfl rfl⟩
  | renewRecoveryCodes => exact ⟨hk, Only.refl _ d, hcall rfl rfl rfl⟩
  | removeSecondFactor => exact ⟨hk, Only.refl _ d, hcall rfl rfl rfl⟩
  | issueChallenge user tokenHash expiresAt hfree hunique =>
    refine ⟨hk.issueChallenge user tokenHash expiresAt, ⟨fun u hu => ?_, fun _ _ => rfl, fun _ _ h _ => h⟩,
      nofun⟩
    exact Function.update_of_ne (fun he : u = user => hu (he ▸ hfree)) _ _
  | account =>
    exact ⟨⟨hk.rising, hk.past, hk.near, hk.once, hk.used, hk.setOf, hk.spentOf, hk.waiting, hk.own, hk.judged, hk.sessions, hk.issued⟩,
      ⟨fun _ _ => rfl, fun _ _ => rfl, fun _ _ h _ => h⟩, nofun⟩

variable {active : Nat → Bool} {factor : Nat → Option Factor} {codes : Nat → List (Text × Bool)}

theorem fresh_kept : Kept (fresh active factor codes) where
  rising _ := List.Pairwise.nil
  past _ _ _ _ h := absurd h not_mem_nil
  near _ h := absurd h not_mem_nil
  once := nodup_nil
  used _ h := absurd h not_mem_nil
  setOf u c h := by
    obtain ⟨c₀, -, rfl⟩ := mem_map.1 h
    exact Nat.zero_lt_one
  spentOf _ h := absurd h not_mem_nil
  waiting _ _ h := absurd h.symm (Option.some_ne_none _)
  own _ _ _ _ h := absurd h.symm (Option.some_ne_none _)
  judged _ := Nat.zero_le _
  sessions _ := Nat.zero_le _
  issued _ h := h.elim (absurd · not_mem_nil) (absurd · not_mem_nil)

theorem run_kept {sys : Interleaving.System Data Tx} (h : Run k active factor codes sys) : Kept sys.shared := by
  have hstable : ∀ (mine : Row → Prop) (d d' : Data) (t : Tx), Only mine d d' → (∀ row, t.locks row → ¬ mine row) →
      Knows d t → Knows d' t := fun _ _ _ _ hc hmine hl => hl.stable hc hmine
  exact (Interleaving.Run.locked hstable (fun _ _ _ _ hk hs => start_keeps hk hs)
    (fun _ _ _ _ _ _ _ hk hl ha => act_keeps hk (hl _ (mem_append_right _ mem_cons_self)) ha) fresh_kept h).1

/-- **Codes are single use, and guesses are bounded.** -/
theorem codes_used_once {sys : Interleaving.System Data Tx} (h : Run k active factor codes sys) :
    (∀ user, (acceptedSteps sys.shared user).Pairwise (· > ·)) ∧ (∀ e ∈ sys.shared.steps, Near e.2.1 e.2.2) ∧
      sys.shared.spent.Nodup ∧
      ∀ n, sys.shared.judged.count n ≤ challengeAttempts ∧ sys.shared.sessions.count n ≤ 1 :=
  have hk := run_kept h
  ⟨hk.rising, hk.near, hk.once, fun n => ⟨hk.judged n, hk.sessions n⟩⟩

end

/-! ## A sign-in -/

def hex (ds : String) : Bytes :=
  (ds.toList.toChunks 2).map fun d => UInt8.ofNat (d.foldl (fun n c => n * 16 + (Go.hexDigit (UInt8.ofNat c.toNat)).getD 0) 0)

def testKey : Bytes := Go.bytes "12345678901234567890"

def testCrypto : Crypto where
  mac _ message := match message.getLastD 0 with
    | 0 => hex "cc93cf18508d94934c64b65d8ba7667fb7cde4b0"
    | 1 => hex "75a48a19d4cbe100644e8ac1397eea747a2d33ab"
    | _ => hex "0bacb7fa082fef30782211938bc1c5e70416ff44"
  hashToken _ := "ba7816bf8f01cfea414140de5dae2223b00361a396177a9cb410ff61f20015ad".toList
  openSecret sealed_ _ := some sealed_
  uuid _ := "6ba7b810-9dad-11d1-80b4-00c04fd430c8".toList

def enrolled (user : Nat) : Option Factor := if user = 1 then some ⟨testKey, true, 0⟩ else none

theorem signIn_run : ∃ d, Run testCrypto (fun _ => true) enrolled (fun _ => []) ⟨d, []⟩ ∧ d.steps = [(1, 1, 59000000000)] ∧
    d.judged = [0] ∧ d.sessions = [0] := by
  have h₀ : Run testCrypto (fun _ => true) enrolled (fun _ => []) ⟨fresh (fun _ => true) enrolled fun _ => [], []⟩ :=
    Interleaving.Run.begin _
  have h₁ := h₀.start _ (.issueChallenge 1 (testCrypto.hashToken "abc".toList) 300000000000
    nofun nofun)
  have h₂ := h₁.start _ (.completeLogin "abc".toList "287 082".toList 0)
  have h₃ := h₂.act [] _ (.find "abc".toList "287 082".toList 0 1 _ 59000000000 rfl rfl (by decide) rfl
    nofun)
  have hmatch : matchTOTP testCrypto testKey "287 082".toList 59000000000 0 = some 1 := by decide +kernel
  have h₄ := h₃.act [] _ (.stepAccepted _ "287 082".toList 1 _ _ ⟨testKey, true, 0⟩ testKey 59000000000 1
    (by decide +kernel) rfl rfl nofun rfl hmatch)
  have h₅ := h₄.act [] _ (.login "abc".toList "287 082".toList 1 _ _ (.step 1 59000000000))
  exact ⟨_, h₅, rfl, rfl, rfl⟩

theorem signIn_once : ∃ d : Data, d.sessions = [0] ∧ (∀ user, (acceptedSteps d user).Pairwise (· > ·)) ∧
    (∀ e ∈ d.steps, Near e.2.1 e.2.2) ∧ d.spent.Nodup ∧
      ∀ n, d.judged.count n ≤ challengeAttempts ∧ d.sessions.count n ≤ 1 := by
  obtain ⟨d, hrun, -, -, hsessions⟩ := signIn_run
  exact ⟨d, hsessions, codes_used_once hrun⟩

end SecondFactor
end Armature
