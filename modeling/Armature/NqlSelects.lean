import Armature.NqlMeaning
/-!
# NqlSelects — the SQL selects what the query asks for

What a step of the compiler returns is said under any arguments that go on from the ones it leaves (`Spec`), as later steps
only add to them.  One lemma for each leaf says what its condition selects; a negation is the complement because
`negate` and the emptiness tests are never missing.
-/
namespace Armature
namespace Nql

open List
open Go (Text Tables toUpper toLower equalFold trimSpace)
open Sql (Term Cond Bound within)

/-! ## Steps of the compiler -/

def Spec {α : Type} (m : C α) (Q : List Arg → α → Prop) : Prop :=
  ∀ args x args', m args = .ok (x, args') → args <+: args' ∧ ∀ final, args' <+: final → Q final x

section
variable {α β : Type}

variable {Q : List Arg → α → Prop} {m : C α}

theorem Spec.pure {x : α} (h : ∀ final, Q final x) : Spec (pure x) Q := by
  intro args y args' hy
  cases hy
  exact ⟨prefix_refl _, fun final _ => h final⟩

theorem Spec.fail {pos : Nat} {msg : Text} : Spec (Compiler.fail pos msg) Q := by
  intro args y args' hy
  cases hy

theorem Spec.weaken {P : List Arg → α → Prop} (h : Spec m P) (hPQ : ∀ final x, P final x → Q final x) :
    Spec m Q := by
  intro args x args' hx
  exact ⟨(h args x args' hx).1, fun final hf => hPQ final x ((h args x args' hx).2 final hf)⟩

theorem bind_ok {k : α → C β} {args args' : List Arg} {y : β} (h : (m >>= k) args = .ok (y, args')) :
    ∃ x mid, m args = .ok (x, mid) ∧ k x mid = .ok (y, args') := by
  change (m args >>= fun p => k p.1 p.2) = .ok (y, args') at h
  cases hm : m args with
  | error => rw [hm] at h; cases h
  | ok p =>
    rw [hm] at h
    exact ⟨p.1, p.2, rfl, h⟩

theorem Spec.bind {k : α → C β} {P : List Arg → α → Prop} {Q : List Arg → β → Prop} (h : Spec m P)
    (hk : ∀ x, Spec (k x) (fun final y => P final x → Q final y)) : Spec (m >>= k) Q := by
  intro args y args' hy
  obtain ⟨x, mid, hx, hy⟩ := bind_ok hy
  obtain ⟨h1, hP⟩ := h args x mid hx
  obtain ⟨h2, hQ⟩ := hk x mid y args' hy
  exact ⟨h1.trans h2, fun final hf => hQ final hf (hP final (h2.trans hf))⟩

theorem Spec.map {f : α → β} {P : List Arg → α → Prop} {Q : List Arg → β → Prop} (h : Spec m P)
    (hf : ∀ final x, P final x → Q final (f x)) : Spec (m >>= fun x => Pure.pure (f x)) Q :=
  h.bind fun x => .pure fun final => hf final x

theorem Spec.lift {r : P α} (h : ∀ final x, r = .ok x → Q final x) : Spec (liftM r : C α) Q := by
  intro args x args' hx
  cases r with
  | error => cases hx
  | ok =>
    cases hx
    exact ⟨prefix_refl _, fun final _ => h final _ rfl⟩

theorem Spec.arg (v : Arg) : Spec (Compiler.bind v) (fun final n => final[n]? = some v) := by
  intro args n args' hn
  cases hn
  refine ⟨prefix_append _ _, fun final hf => ?_⟩
  obtain ⟨more, rfl⟩ := hf
  simp

theorem Spec.mapM {f : α → C β} {R : α → List Arg → β → Prop} (h : ∀ v, Spec (f v) (R v)) : ∀ vs : List α,
    Spec (vs.mapM f) (fun final xs => List.Forall₂ (fun v x => R v final x) vs xs)
  | [] => .pure fun _ => .nil
  | v :: vs => by
    rw [mapM_cons]
    refine (h v).bind fun x => (Spec.mapM h vs).map fun final xs hxs hx => .cons hx hxs

theorem exists_forall₂ {R : α → β → Prop} {A : α → Prop} {B : β → Prop} : ∀ {vs : List α} {xs : List β},
    List.Forall₂ R vs xs → (∀ v x, R v x → (B x ↔ A v)) → ((∃ x ∈ xs, B x) ↔ ∃ v ∈ vs, A v)
  | _, _, .nil, _ => by simp
  | _, _, .cons hvx h, hR => by
    rw [exists_mem_cons_iff, exists_mem_cons_iff, hR _ _ hvx, exists_forall₂ h hR]

end

/-! ## Conditions over the bound arguments -/

section
variable {D : Type} (db : Store D)

def Means (final : List Arg) (c : Cond) (A : Row D → Prop) : Prop :=
  ∀ s, c.Selects db.toData (final.map (Bound.map db.value)) s ↔ A s

end

section
variable {D : Type} {db : Store D} {final : List Arg}

variable {n : Nat} {x : Row D → Option D} {t : Term} {c : Cond} {A : Row D → Prop} {source : Text}

theorem param_eval {v : Scalar} (h : final[n]? = some (.one v)) (s : Row D) :
    (Term.param n).eval db.toData (final.map (Bound.map db.value)) s = some (db.value v) := by
  simp [Term.eval, h, Bound.map]

theorem items_eval {vs : List Scalar} (h : final[n]? = some (.many vs)) :
    Sql.items (final.map (Bound.map db.value)) n = vs.map db.value := by
  simp [Sql.items, h, Bound.map]

theorem cmp_means {l r : Term} {op : Text} {y : Row D → D}
    (hl : ∀ s, l.eval db.toData (final.map (Bound.map db.value)) s = x s)
    (hr : ∀ s, r.eval db.toData (final.map (Bound.map db.value)) s = some (y s)) :
    Means db final (.cmp l op r) (fun s => Compares db op (x s) (y s)) := by
  intro s
  rw [Sql.cmp_selects, hl, hr]
  simp [Compares]

theorem same_means {l r : Term} {y : Row D → Option D}
    (hl : ∀ s, l.eval db.toData (final.map (Bound.map db.value)) s = x s)
    (hr : ∀ s, r.eval db.toData (final.map (Bound.map db.value)) s = y s) :
    Means db final (equals l r) (fun s => Same db (x s) (y s)) := by
  intro s
  unfold equals
  rw [Sql.cmp_selects, hl, hr]
  constructor
  · rintro ⟨a, ha, b, hb, h⟩
    exact ⟨b, hb, a, ha, h⟩
  · rintro ⟨b, hb, a, ha, h⟩
    exact ⟨a, ha, b, hb, h⟩

theorem lower_eval (args : List (Bound D)) (t : Term) (s : Row D) :
    (lower t).eval db.toData args s = lowered db (t.eval db.toData args s) := rfl

theorem any_means {α : Type} {type : Text} {xs : List α} {f : α → Scalar}
    (hx : ∀ s, t.eval db.toData (final.map (Bound.map db.value)) s = x s)
    (hn : final[n]? = some (.many (xs.map f))) :
    Means db final (.any t n type) (fun s => ∃ a ∈ xs, Is db (x s) (db.cast type (db.value (f a)))) := by
  intro s
  rw [Sql.any_selects, hx, items_eval hn]
  simp only [map_map, mem_map, Function.comp_apply, exists_exists_and_eq_and]
  constructor
  · rintro ⟨a, ha, v, hv, h⟩
    exact ⟨v, hv, a, ha, h⟩
  · rintro ⟨v, hv, a, ha, h⟩
    exact ⟨a, ha, v, hv, h⟩

theorem any_text_means {ts : List Text}
    (hx : ∀ s, t.eval db.toData (final.map (Bound.map db.value)) s = x s) (hn : final[n]? = some (textsArg ts)) :
    Means db final (.any t n []) (fun s => ∃ w ∈ ts, Is db (x s) (textOf db w)) := any_means hx hn

theorem and_means {c' : Cond} {A' : Row D → Prop} (h : Means db final c A) (h' : Means db final c' A') :
    Means db final (.and c c') (fun s => A s ∧ A' s) := fun s => Sql.and_selects.trans (and_congr (h s) (h' s))

theorem or_means {c' : Cond} {A' : Row D → Prop} (h : Means db final c A) (h' : Means db final c' A') :
    Means db final (.or c c') (fun s => A s ∨ A' s) := fun s => Sql.or_selects.trans (or_congr (h s) (h' s))

theorem negate_means (h : Means db final c A) :
    Means db final (negate c) (fun s => ¬ A s) := fun s => Sql.not_orFalse_selects.trans (not_congr (h s))

theorem exists_means (h : Means db final c A) :
    Means db final (.exists_ source c) (fun s => AnyRow db source s A) := fun s =>
  Sql.exists_selects.trans (exists_congr fun r => and_congr_right fun _ => h (within s r))

theorem not_exists_means (h : Means db final c A) :
    Means db final (.not (.exists_ source c)) (fun s => ¬ AnyRow db source s A) := fun s =>
  (Sql.not_selects (by simp [Cond.eval])).trans (not_congr (exists_means h s))

theorem inRows_means {c : Text} {w : Cond}
    (hx : ∀ s, t.eval db.toData (final.map (Bound.map db.value)) s = x s) (h : Means db final w A) :
    Means db final (.inRows t c source w) (fun s => AnyRow db source s fun r => Same db (x s) (r c) ∧ A r) := by
  intro s
  rw [Sql.inRows_selects, hx]
  constructor
  · rintro ⟨a, ha, r, hr, hw, b, hb, hab⟩
    exact ⟨r, hr, ⟨b, hb, a, ha, hab⟩, (h _).1 hw⟩
  · rintro ⟨r, hr, ⟨b, hb, a, ha, hab⟩, hA⟩
    exact ⟨a, ha, r, hr, (h _).2 hA, b, hb, hab⟩

theorem orAll_selects {args : List (Bound D)} {s : Row D} : ∀ cs : List Cond,
    (orAll cs).Selects db.toData args s ↔ ∃ c ∈ cs, c.Selects db.toData args s
  | [] => by simp [orAll, Sql.nothing_selects]
  | [c] => by simp [orAll]
  | c :: c' :: cs => by
    rw [orAll, Sql.or_selects, orAll_selects (c' :: cs)]
    · exact (exists_mem_cons_iff (fun c => c.Selects db.toData args s) c (c' :: cs)).symm
    · exact cons_ne_nil c' cs

theorem anyOf_selects {args : List (Bound D)} {s : Row D} (cs : List Cond) :
    (anyOf cs).Selects db.toData args s ↔ ∃ c ∈ cs, c.Selects db.toData args s := by
  unfold anyOf
  split
  · simp
  · rw [Sql.paren_selects, orAll_selects]

theorem anyOf_means {α : Type} {vs : List α} {cs : List Cond} {A : α → Row D → Prop}
    (h : List.Forall₂ (fun v c => Means db final c (A v)) vs cs) :
    Means db final (anyOf cs) (fun s => ∃ v ∈ vs, A v s) := fun s =>
  (anyOf_selects cs).trans (exists_forall₂ h fun _ _ hc => hc s)

end

/-! ## Values -/

section
variable {u : Tables}

theorem plainText_ok {def_ : FieldDef} {v : Value} {t : Text} (h : Compiler.plainText u def_ v = .ok t) : t = v.text := by
  unfold Compiler.plainText at h
  split at h
  · cases h; rfl
  · cases h; rfl
  · cases h; rfl
  · cases h
  · cases h

theorem number_ok {def_ : FieldDef} {v : Value} {t : Text} (h : Compiler.number u def_ v = .ok t) : t = v.text := by
  unfold Compiler.number at h
  by_cases hk : v.kind ≠ .number
  · rw [if_pos hk] at h
    cases h
  · rw [if_neg hk] at h
    split at h
    · cases h; rfl
    · cases h

theorem map_of_forall₂ {α β : Type} {f : α → β} : ∀ {vs : List α} {xs : List β},
    List.Forall₂ (fun v x => x = f v) vs xs → xs = vs.map f
  | _, _, .nil => rfl
  | _, _, .cons h hs => by rw [h, map_of_forall₂ hs, map_cons]

theorem texts_spec (def_ : FieldDef) (values : List Value) (normalize : Text → Text) :
    Spec (Compiler.texts u def_ values normalize) (fun _ ts => ts = values.map (fun v => normalize v.text)) := by
  refine (Spec.mapM (R := fun v _ t => t = normalize v.text) (fun v => ?_) values).weaken fun _ _ => map_of_forall₂
  refine (Spec.lift (Q := fun _ t => t = v.text) fun _ t ht => plainText_ok ht).map fun _ t ht => ?_
  rw [ht]

theorem sorted_spec {α : Type} {call : Value → C α} {R : Value → List Arg → α → Prop} (def_ : FieldDef)
    (h : ∀ v, v.kind = .function → Spec (call v) (R v)) : ∀ values : List Value,
    Spec (Compiler.sorted u def_ call values) (fun final p =>
      List.Forall₂ (fun v x => R v final x) (values.filter (·.kind = .function)) p.1 ∧
      p.2 = (values.filter (¬ ·.kind = .function)).map (fun v => toLower u v.text))
  | [] => .pure fun _ => ⟨.nil, rfl⟩
  | v :: vs => by
    unfold Compiler.sorted
    by_cases hk : v.kind = .function
    · simp only [if_pos hk]
      refine (h v hk).bind fun x => (sorted_spec def_ h vs).map fun final p hp hx => ?_
      simp only [filter_cons, hk, decide_true, if_true, not_true_eq_false, decide_false, Bool.false_eq_true, if_false]
      exact ⟨.cons hx hp.1, hp.2⟩
    · simp only [if_neg hk]
      refine (Spec.lift (Q := fun _ t => t = v.text) fun _ t ht => plainText_ok ht).bind fun t =>
        (sorted_spec def_ h vs).map fun final p hp ht => ?_
      simp only [filter_cons, hk, decide_false, Bool.false_eq_true, if_false, not_false_eq_true, decide_true, if_true]
      exact ⟨hp.1, by rw [map_cons, ht, hp.2]⟩

theorem exists_sorted {p : Value → Prop} [DecidablePred p] {A B : Value → Prop} (vs : List Value) :
    ((∃ v ∈ vs.filter (p ·), A v) ∨ ∃ v ∈ vs.filter (¬ p ·), B v) ↔ ∃ v ∈ vs, if p v then A v else B v := by
  constructor
  · rintro (⟨v, hv, h⟩ | ⟨v, hv, h⟩)
    · obtain ⟨hv, hp⟩ := mem_filter.1 hv
      exact ⟨v, hv, by rwa [if_pos (by simpa using hp)]⟩
    · obtain ⟨hv, hp⟩ := mem_filter.1 hv
      exact ⟨v, hv, by rwa [if_neg (by simpa using hp)]⟩
  · rintro ⟨v, hv, h⟩
    by_cases hp : p v
    · rw [if_pos hp] at h
      exact .inl ⟨v, mem_filter.2 ⟨hv, by simpa using hp⟩, h⟩
    · rw [if_neg hp] at h
      exact .inr ⟨v, mem_filter.2 ⟨hv, by simpa using hp⟩, h⟩

end

section
variable {D : Type} {db : Store D}

def Clauses (db : Store D) (final : List Arg) (cs : List Cond) (A : Row D → Prop) : Prop :=
  ∀ s, (∃ c ∈ cs, c.Selects db.toData (final.map (Bound.map db.value)) s) ↔ A s

variable (db) in
theorem clause_spec {α : Type} {xs : List α} {m : C Cond} {A : α → Row D → Prop}
    (h : Spec m (fun final c => Means db final c (fun s => ∃ x ∈ xs, A x s))) :
    Spec (Compiler.clause xs m) (fun final cs => Clauses db final cs (fun s => ∃ x ∈ xs, A x s)) := by
  unfold Compiler.clause
  by_cases hx : xs.isEmpty = true
  · rw [if_pos hx]
    refine .pure fun final s => ?_
    simp [List.isEmpty_iff.1 hx]
  · rw [if_neg hx]
    refine h.map fun final c hc s => ?_
    simpa using hc s

theorem append_clauses {final : List Arg} {cs cs' : List Cond} {A A' : Row D → Prop} (h : Clauses db final cs A)
    (h' : Clauses db final cs' A') : Means db final (anyOf (cs ++ cs')) (fun s => A s ∨ A' s) := by
  intro s
  refine (anyOf_selects _).trans (Iff.trans ?_ (or_congr (h s) (h' s)))
  simp only [mem_append, or_and_right, exists_or]

theorem clauses_of_forall₂ {α : Type} {final : List Arg} {vs : List α} {cs : List Cond} {A : α → Row D → Prop}
    (h : List.Forall₂ (fun v c => Means db final c (A v)) vs cs) : Clauses db final cs (fun s => ∃ v ∈ vs, A v s) :=
  fun s => exists_forall₂ h fun _ _ hc => hc s

end

/-! ## Leaves -/

section
variable {D : Type} {db : Store D} {u : Tables} {env : Env}

theorem bound_spec {v : Arg} {f : Nat → Cond} {A : Row D → Prop}
    (h : ∀ (final : List Arg) (n : Nat), final[n]? = some v → Means db final (f n) A) :
    Spec (Compiler.bind v >>= fun n => pure (f n)) (fun final c => Means db final c A) :=
  (Spec.arg v).map fun final n hn => h final n hn

theorem mem_texts {values : List Value} {f : Text → Text} {A : Text → Prop} :
    (∃ t ∈ values.map (fun v => f v.text), A t) ↔ ∃ v ∈ values, A (f v.text) := by
  simp

variable (db) in
theorem users_spec (def_ : FieldDef) (values : List Value) :
    Spec (Compiler.users u env def_ values) (fun final c =>
      Means db final c (fun s => ∃ v ∈ values, Person db u env (fun t => t def_.column) v s)) := by
  unfold Compiler.users
  refine (sorted_spec (R := fun _ _ x => x = Scalar.uuid env.userID) def_ (fun v _ => ?_) values).bind fun p => ?_
  · split
    · exact .pure fun _ => rfl
    · exact .fail
  obtain ⟨ids, names⟩ := p
  dsimp only
  refine (clause_spec db (A := fun i s => Is db (s def_.column) (db.cast (str "uuid") (db.value i)))
    (bound_spec fun final n hn => ?_)).bind fun mine => ?_
  · have hids : final[n]? = some (.many (ids.map id)) := by rw [map_id]; exact hn
    exact any_means (fun _ => rfl) hids
  refine (clause_spec db (A := fun t s => AnyRow db (str "app_user") s fun r => Same db (s def_.column) (r (str "id")) ∧
      (Is db (lowered db (r (str "email::text"))) (textOf db t) ∨ Is db (lowered db (r (str "name"))) (textOf db t)))
    (bound_spec fun final n hn s => ?_)).map fun final named hnamed hmine hp => ?_
  · refine (inRows_means (fun _ => rfl) (or_means (any_text_means (fun _ => rfl) hn) (any_text_means (fun _ => rfl) hn)) s).trans ?_
    constructor
    · rintro ⟨r, hr, hs, ⟨t, ht, h⟩ | ⟨t, ht, h⟩⟩
      · exact ⟨t, ht, r, hr, hs, .inl h⟩
      · exact ⟨t, ht, r, hr, hs, .inr h⟩
    · rintro ⟨t, ht, r, hr, hs, h | h⟩
      · exact ⟨r, hr, hs, .inl ⟨t, ht, h⟩⟩
      · exact ⟨r, hr, hs, .inr ⟨t, ht, h⟩⟩
  obtain ⟨hids, rfl⟩ := hp
  intro s
  refine (append_clauses hmine hnamed s).trans ((or_congr ?_ mem_texts).trans (exists_sorted values))
  exact exists_forall₂ hids fun v x hx => by rw [hx]

theorem lookups_spec (def_ : FieldDef) (values : List Value) :
    Spec (Compiler.lookups u def_ values) (fun final c =>
      Means db final c (fun s => ∃ v ∈ values, InLookup db u def_ v s)) := by
  unfold Compiler.lookups
  refine (sorted_spec (R := fun _ final c => Means db final c (fun s => AnyRow db (str "sprint") s fun r =>
      Same db (s def_.column) (r (str "id")) ∧ Is db (r (str "state")) (db.const (str "'active'"))))
    def_ (fun v _ => ?_) values).bind fun p => ?_
  · split
    · exact .pure fun _ => inRows_means (fun _ => rfl) (cmp_means (fun _ => rfl) (fun _ => rfl))
    · exact .fail
  obtain ⟨parts, names⟩ := p
  dsimp only
  refine (clause_spec db (A := fun t s => AnyRow db def_.table s fun r => Same db (s def_.column) (r (str "id")) ∧
      Is db (lowered db (r (str "name"))) (textOf db t))
    (bound_spec fun final n hn s => ?_)).map fun final named hnamed hp => ?_
  · refine (inRows_means (fun _ => rfl) (any_text_means (fun _ => rfl) hn) s).trans ?_
    constructor
    · rintro ⟨r, hr, hs, t, ht, h⟩
      exact ⟨t, ht, r, hr, hs, h⟩
    · rintro ⟨t, ht, r, hr, hs, h⟩
      exact ⟨r, hr, hs, t, ht, h⟩
  obtain ⟨hparts, rfl⟩ := hp
  intro s
  exact (append_clauses (clauses_of_forall₂ hparts) hnamed s).trans ((or_congr Iff.rfl mem_texts).trans (exists_sorted values))

variable {final : List Arg} {n : Nat}

theorem ofVersion_means {role : Text} (hn : final[n]? = some (textArg role)) :
    Means db final (Compiler.ofVersion n) (fun s => Same db (s (str "iv.issue_id")) (s (str "i.id")) ∧
      Is db (s (str "iv.role")) (textOf db role)) :=
  and_means (same_means (fun _ => rfl) (fun _ => rfl)) (cmp_means (fun _ => rfl) (param_eval hn))

theorem isNull_means {t : Term} {x : Row D → Option D}
    (hx : ∀ s, t.eval db.toData (final.map (Bound.map db.value)) s = x s) :
    Means db final (.isNull t) (fun s => x s = none) := fun s => by rw [Sql.isNull_selects, hx]

theorem versionState_means {name : Text} {state : Cond} (h : Compiler.versionState name = some state) :
    Means db final state (fun s => if equalFold name (str "releasedVersions") then s (str "ver.released_at") ≠ none
      else s (str "ver.released_at") = none ∧ s (str "ver.archived_at") = none) := by
  unfold Compiler.versionState at h
  by_cases hr : equalFold name (str "releasedVersions") = true
  · rw [if_pos hr] at h
    cases h
    intro s
    dsimp only
    rw [Sql.isNotNull_selects, if_pos hr]
    exact Option.ne_none_iff_exists'.symm
  · rw [if_neg hr] at h
    split at h
    · cases h
      intro s
      dsimp only
      rw [if_neg hr]
      exact and_means (isNull_means fun _ => rfl) (isNull_means fun _ => rfl) s
    · cases h

theorem versions_spec (def_ : FieldDef) (values : List Value) :
    Spec (Compiler.versions u def_ values) (fun final c =>
      Means db final c (fun s => ∃ v ∈ values, HasVersion db u def_ v s)) := by
  unfold Compiler.versions
  refine (sorted_spec (R := fun v final c => Means db final c (fun s => AnyRow db Compiler.versionRows s fun r =>
      (Same db (r (str "iv.issue_id")) (r (str "i.id")) ∧ Is db (r (str "iv.role")) (textOf db def_.role)) ∧
      if equalFold v.text (str "releasedVersions") then r (str "ver.released_at") ≠ none
      else r (str "ver.released_at") = none ∧ r (str "ver.archived_at") = none))
    def_ (fun v _ => ?_) values).bind fun p => ?_
  · split
    · rename_i state hstate
      exact bound_spec fun final n hn => exists_means (and_means (ofVersion_means hn) (versionState_means hstate))
    · exact .fail
  obtain ⟨parts, names⟩ := p
  dsimp only
  refine (clause_spec db (A := fun t s => AnyRow db Compiler.versionRows s fun r =>
      (Same db (r (str "iv.issue_id")) (r (str "i.id")) ∧ Is db (r (str "iv.role")) (textOf db def_.role)) ∧
      Is db (lowered db (r (str "ver.name"))) (textOf db t))
    ((Spec.arg _).bind fun role => (Spec.arg _).map fun final n hn hrole s => ?_)).map fun final named hnamed hp => ?_
  · refine (exists_means (and_means (ofVersion_means hrole) (any_text_means (fun _ => rfl) hn)) s).trans ?_
    constructor
    · rintro ⟨r, hr, hs, t, ht, h⟩
      exact ⟨t, ht, r, hr, hs, h⟩
    · rintro ⟨t, ht, r, hr, hs, h⟩
      exact ⟨r, hr, hs, t, ht, h⟩
  obtain ⟨hparts, rfl⟩ := hp
  intro s
  refine (append_clauses (clauses_of_forall₂ hparts) hnamed s).trans
    ((or_congr Iff.rfl mem_texts).trans ((exists_sorted values).trans ?_))
  refine exists_congr fun v => and_congr_right fun _ => ?_
  unfold HasVersion
  by_cases hk : v.kind = .function
  · simp only [if_pos hk]
  · simp only [if_neg hk]

theorem related_means {ts : List Text} (source : Text) (issue name : String)
    (hn : final[n]? = some (textsArg ts)) :
    Means db final (Compiler.related source issue name n) (fun s => ∃ t ∈ ts, AnyRow db source s fun r =>
      Same db (r (str issue)) (r (str "i.id")) ∧ Is db (lowered db (r (str name))) (textOf db t)) := by
  intro s
  refine (exists_means (and_means (same_means (fun _ => rfl) (fun _ => rfl)) (any_text_means (fun _ => rfl) hn)) s).trans ?_
  constructor
  · rintro ⟨r, hr, hs, t, ht, h⟩
    exact ⟨t, ht, r, hr, hs, h⟩
  · rintro ⟨t, ht, r, hr, hs, h⟩
    exact ⟨r, hr, hs, t, ht, h⟩

theorem keys_spec {template : Nat → Nat → Cond} {A : Text × Nat → Row D → Prop} (values : List Value)
    (h : ∀ (final : List Arg) k p n, final[p]? = some (textArg k.1) → final[n]? = some (.one (.int k.2)) →
      Means db final (template p n) (A k)) :
    Spec (Compiler.keys u values template) (fun final c =>
      Means db final c (fun s => ∃ v ∈ values, ∃ k, Compiler.key u v = .ok k ∧ A k s)) := by
  unfold Compiler.keys
  refine (Spec.mapM (R := fun v final c => Means db final c (fun s => ∃ k, Compiler.key u v = .ok k ∧ A k s))
    (fun v => ?_) values).map fun final parts hparts => anyOf_means hparts
  refine (Spec.lift (Q := fun _ k => Compiler.key u v = .ok k) fun _ _ hk => hk).bind fun k => ?_
  refine (Spec.arg _).bind fun p => (Spec.arg _).map fun final n hn hp hk s => ?_
  refine (h final k p n hp hn s).trans ⟨fun hA => ⟨k, hk, hA⟩, ?_⟩
  rintro ⟨k', hk', hA⟩
  rw [hk] at hk'
  cases hk'
  exact hA

theorem text_eval {t : Text} (hn : final[n]? = some (textArg t)) (before after : Text) (s : Row D) :
    (Term.fn before (.param n) after).eval db.toData (final.map (Bound.map db.value)) s =
      some (db.apply before after (textOf db t)) := by
  unfold Term.eval
  rw [param_eval hn]
  rfl

theorem instant_unique {v : Value} {at_ : Int} {wholeDay : Bool} (h : instant u env v = .ok (at_, wholeDay))
    {A : Int → Bool → Prop} : (∃ a w, instant u env v = .ok (a, w) ∧ A a w) ↔ A at_ wholeDay := by
  constructor
  · rintro ⟨a, w, h', hA⟩
    rw [h] at h'
    cases h'
    exact hA
  · exact fun hA => ⟨at_, wholeDay, h, hA⟩

theorem ofField_means {name : Text} (hn : final[n]? = some (textArg name)) :
    Means db final (Compiler.ofField n) (fun s => Same db (s (str "v.issue_id")) (s (str "i.id")) ∧
      Same db (lowered db (s (str "f.name"))) (lowered db (some (textOf db name)))) :=
  and_means (same_means (fun _ => rfl) (fun _ => rfl)) (same_means (fun _ => rfl) fun s => by
    rw [lower_eval, param_eval hn]
    rfl)

variable (db) in
theorem customTest_spec (op : Op) (v : Value) :
    Spec (Compiler.customTest u env op v) (fun final c => Means db final c (fun s => CustomTest db u env op v s)) := by
  unfold Compiler.customTest CustomTest
  by_cases h1 : op = .like
  · simp only [if_pos h1]
    exact bound_spec fun final n hn => cmp_means (fun _ => rfl) (text_eval hn _ _)
  · simp only [if_neg h1]
    by_cases h2 : v.kind = .number
    · simp only [if_pos h2]
      exact bound_spec fun final n hn => cmp_means (fun _ => rfl) (param_eval hn)
    · simp only [if_neg h2]
      by_cases h3 : v.kind = .date ∨ v.kind = .duration ∨ v.kind = .function
      · simp only [if_pos h3]
        refine (Spec.lift (Q := fun _ p => instant u env v = .ok p) fun _ _ hp => hp).bind fun p => ?_
        refine (Spec.arg _).map fun final n hn hp s => ?_
        refine Iff.trans ?_ (instant_unique hp).symm
        exact cmp_means (fun _ => rfl) (text_eval hn _ _) s
      · simp only [if_neg h3]
        by_cases h4 : op = .eq
        · simp only [if_pos h4]
          refine bound_spec fun final n hn => same_means (fun _ => rfl) fun s => ?_
          rw [lower_eval, param_eval hn]
          rfl
        · simp only [if_neg h4]
          exact bound_spec fun final n hn => cmp_means (fun _ => rfl) (param_eval hn)

theorem custom_spec (def_ : FieldDef) (op : Op) (v : Value) :
    Spec (Compiler.custom u env def_ op v) (fun final c =>
      Means db final c (fun s => HasCustom db u env def_ op v s)) := by
  unfold Compiler.custom
  refine (customTest_spec db op v).bind fun test => (Spec.arg (textArg def_.name)).map fun final n hn htest => ?_
  exact exists_means (and_means (ofField_means hn) htest)

variable (db) in
theorem orderedInstant_spec (column : Text) (op : Op) (at_ : Int) (wholeDay : Bool) :
    Spec (Compiler.orderedInstant env (.col column) op at_ wholeDay) (fun final c =>
      Means db final c (fun s => InTime db env (s column) op at_ wholeDay)) := by
  unfold Compiler.orderedInstant InTime
  cases wholeDay with
  | false => exact bound_spec fun final n hn => cmp_means (fun _ => rfl) (param_eval hn)
  | true =>
    cases op with
    | ge | gt | lt | le => exact bound_spec fun final n hn => cmp_means (fun _ => rfl) (param_eval hn)
    | eq | ne | like | notLike =>
      refine (Spec.arg _).bind fun n => (Spec.arg _).map fun final m hm hn => ?_
      exact and_means (cmp_means (fun _ => rfl) (param_eval hn)) (cmp_means (fun _ => rfl) (param_eval hm))

theorem ordered_spec (def_ : FieldDef) (f : Field) (op : Op) (v : Value) :
    Spec (Compiler.ordered u env def_ f op v) (fun final c => Means db final c (fun s => Ordered db u env def_ op v s)) := by
  unfold Compiler.ordered Ordered
  cases hk : def_.kind with
  | priority =>
    refine (Spec.lift (Q := fun _ t => t = v.text) fun _ t ht => plainText_ok ht).bind fun t => ?_
    dsimp only
    split
    · exact .fail
    · refine (Spec.arg _).map fun final n hn ht => ?_
      rw [ht] at hn
      exact cmp_means (fun _ => rfl) (text_eval hn _ _)
  | number =>
    refine (Spec.lift (Q := fun _ t => t = v.text) fun _ t ht => number_ok ht).bind fun t => ?_
    refine (Spec.arg _).map fun final n hn ht => ?_
    rw [ht] at hn
    exact cmp_means (fun _ => rfl) (param_eval hn)
  | timestamp =>
    refine (Spec.lift (Q := fun _ p => instant u env v = .ok p) fun _ _ hp => hp).bind fun p => ?_
    exact (orderedInstant_spec db def_.column op p.1 p.2).weaken fun final c hc hp s =>
      (hc s).trans (instant_unique hp).symm
  | date =>
    refine (Spec.lift (Q := fun _ p => instant u env v = .ok p) fun _ _ hp => hp).bind fun p => ?_
    refine (Spec.arg _).map fun final n hn hp s => ?_
    refine Iff.trans ?_ (instant_unique hp).symm
    exact cmp_means (fun _ => rfl) (text_eval hn _ _) s
  | custom => exact custom_spec def_ op v
  | _ => exact .fail

theorem texts_bound {def_ : FieldDef} {values : List Value} {normalize : Text → Text} {f : Nat → Cond}
    {A : Text → Row D → Prop} (h : ∀ (final : List Arg) (n : Nat) (ts : List Text), final[n]? = some (textsArg ts) →
      Means db final (f n) (fun s => ∃ t ∈ ts, A t s)) :
    Spec (Compiler.texts u def_ values normalize >>= fun ts => Compiler.bind (textsArg ts) >>= fun n => pure (f n))
      (fun final c => Means db final c (fun s => ∃ v ∈ values, A (normalize v.text) s)) := by
  refine (texts_spec def_ values normalize).bind fun ts => (Spec.arg _).map fun final n hn hts s => ?_
  subst hts
  exact (h final n _ hn s).trans mem_texts

theorem match_spec (def_ : FieldDef) (f : Field) (values : List Value) :
    Spec (Compiler.match_ u env def_ f values) (fun final c =>
      Means db final c (fun s => ∃ v ∈ values, Matches db u env def_ v s)) := by
  unfold Compiler.match_ Matches
  cases hk : def_.kind with
  | project =>
    exact texts_bound (A := fun t s => Is db (s (str "p.key")) (textOf db t))
      fun final n ts hn => any_text_means (fun _ => rfl) hn
  | key =>
    exact keys_spec values fun final k p n hp hn =>
      and_means (cmp_means (fun _ => rfl) (param_eval hp)) (cmp_means (fun _ => rfl) (param_eval hn))
  | parent =>
    exact keys_spec values fun final k p n hp hn => inRows_means (fun _ => rfl)
      (and_means (cmp_means (fun _ => rfl) (param_eval hp)) (cmp_means (fun _ => rfl) (param_eval hn)))
  | summary | name =>
    exact texts_bound (A := fun t s => Is db (lowered db (s def_.column)) (textOf db t))
      fun final n ts hn => any_text_means (fun _ => rfl) hn
  | enum | priority =>
    refine (texts_spec def_ values (toLower u)).bind fun members => ?_
    dsimp only
    split
    · exact .fail
    · refine (Spec.arg _).map fun final n hn hmembers s => ?_
      subst hmembers
      exact (any_means (fun _ => rfl) hn s).trans mem_texts
  | user => exact users_spec db def_ values
  | watcher =>
    refine (users_spec db _ values).map fun final test htest s => ?_
    refine (exists_means (and_means (same_means (fun _ => rfl) (fun _ => rfl)) htest) s).trans ?_
    constructor
    · rintro ⟨r, hr, hs, v, hv, h⟩
      exact ⟨v, hv, r, hr, hs, h⟩
    · rintro ⟨v, hv, r, hr, hs, h⟩
      exact ⟨r, hr, hs, v, hv, h⟩
  | lookup => exact lookups_spec def_ values
  | labels => exact texts_bound fun final n ts hn => related_means _ _ _ hn
  | version => exact versions_spec def_ values
  | component => exact texts_bound fun final n ts hn => related_means _ _ _ hn
  | number =>
    refine (Spec.mapM (R := fun v _ t => t = v.text) (fun v => Spec.lift fun _ t ht => number_ok ht) values).bind
      fun numbers => (Spec.arg _).map fun final n hn hnumbers s => ?_
    obtain rfl := map_of_forall₂ (f := Value.text) hnumbers
    exact (any_means (fun _ => rfl) hn s).trans (mem_texts (f := id))
  | timestamp | date =>
    refine (Spec.mapM (R := fun v final c => Means db final c (fun s => Ordered db u env def_ .eq v s))
      (fun v => ordered_spec def_ f .eq v) values).map fun final parts hparts => anyOf_means hparts
  | custom =>
    refine (Spec.mapM (R := fun v final c => Means db final c (fun s => HasCustom db u env def_ .eq v s))
      (fun v => custom_spec def_ .eq v) values).map fun final parts hparts => anyOf_means hparts
  | description | anyText => exact .fail

variable (db) in
theorem description_spec (t : Text) :
    Spec (Compiler.description u t) (fun final c => Means db final c (fun s => InDescription db u t s)) := by
  unfold Compiler.description
  cases hw : t.any (Compiler.isWordRune u) with
  | false =>
    refine .pure fun final s => ?_
    simp [Sql.never_selects, InDescription, hw]
  | true =>
    refine bound_spec fun final n hn s => ?_
    rw [Sql.paren_selects, Sql.cmp_selects]
    have hq : (Compiler.startsOfWords n).eval db.toData (final.map (Bound.map db.value)) s =
        db.pick Compiler.startsBefore Compiler.startsAfter (textOf db t) := by
      unfold Compiler.startsOfWords Term.eval
      rw [param_eval hn]
      rfl
    rw [hq]
    constructor
    · rintro ⟨a, ha, b, hb, h⟩
      exact ⟨hw, b, hb, a, ha, h⟩
    · rintro ⟨_, b, hb, a, ha, h⟩
      exact ⟨a, ha, b, hb, h⟩

variable (db) in
theorem summary_spec (t : Text) : Spec (Compiler.summary t) (fun final c =>
    Means db final c (fun s => Compares db (str "ILIKE") (s (str "i.summary")) (likeValue db t))) :=
  bound_spec fun _ _ hn => cmp_means (fun _ => rfl) (text_eval hn _ _)

theorem searchText_spec (def_ : FieldDef) (v : Value) :
    Spec (Compiler.searchText u def_ v) (fun _ t => t = v.text) := by
  unfold Compiler.searchText
  split
  · exact .pure fun _ => rfl
  · exact .lift fun _ t ht => plainText_ok ht

theorem contains_spec (def_ : FieldDef) (f : Field) (v : Value) :
    Spec (Compiler.contains u env def_ f v) (fun final c => Means db final c (fun s => Contains db u env def_ v s)) := by
  unfold Compiler.contains
  refine (searchText_spec def_ v).bind fun t => ?_
  by_cases hblank : trimSpace t = []
  · rw [if_pos hblank]
    exact .fail
  rw [if_neg hblank]
  refine Spec.weaken (P := fun final c => t = v.text → Means db final c (fun s => Contains db u env def_ v s)) ?_
    fun _ _ h => h
  unfold Contains
  cases hk : def_.kind with
  | summary => exact (summary_spec db t).weaken fun final c hc ht => ht ▸ hc
  | description => exact (description_spec db t).weaken fun final c hc ht => ht ▸ hc
  | anyText =>
    refine (summary_spec db t).bind fun c => (description_spec db t).map fun final d hd hc ht => ?_
    subst ht
    exact or_means hc hd
  | custom => exact (custom_spec def_ .like v).weaken fun final c hc _ => hc
  | _ => exact .fail

/-! ## The tree -/

theorem emptiness_spec (def_ : FieldDef) :
    Spec (Compiler.emptiness def_) (fun final c => Means db final c (fun s => Nothing db def_ s) ∧
      Means db final (.not c) (fun s => ¬ Nothing db def_ s)) := by
  have definite : ∀ {final : List Arg} {c : Cond} {A : Row D → Prop}, Means db final c A →
      (∀ s, c.eval db.toData (final.map (Bound.map db.value)) s ≠ none) →
      Means db final c A ∧ Means db final (.not c) (fun s => ¬ A s) := fun h hdef =>
    ⟨h, fun s => (Sql.not_selects (hdef s)).trans (not_congr (h s))⟩
  unfold Compiler.emptiness Nothing
  cases hk : def_.kind with
  | labels | component | watcher =>
    refine .pure fun final => definite (not_exists_means (same_means (fun _ => rfl) (fun _ => rfl))) fun s => ?_
    simp [Cond.eval]
  | version =>
    refine (Spec.arg _).map fun final n hn => definite (not_exists_means (ofVersion_means hn)) fun s => ?_
    simp [Cond.eval]
  | custom =>
    refine (Spec.arg _).map fun final n hn => definite (not_exists_means (ofField_means hn)) fun s => ?_
    simp [Cond.eval]
  | description =>
    refine .pure fun final => definite (or_means (isNull_means fun _ => rfl) (cmp_means (fun _ => rfl) (fun _ => rfl)))
      fun s => ?_
    -- with a description there are words, so the right side is there wherever the left is false
    cases hd : s (str "i.description") with
    | none => simp [Cond.eval, Term.eval, col, hd, Sql.or3]
    | some d =>
      simp only [Cond.eval, Term.eval, col, hd, equals, Compiler.descriptionWords, Option.isNone_some, Option.map_some,
        Option.bind_some]
      cases db.compare ['='] (db.apply Compiler.wordsBefore Compiler.wordsAfter d) (db.const (str "''::tsvector")) <;>
        simp [Sql.or3]
  | _ =>
    refine .pure fun final => definite (isNull_means fun _ => rfl) fun s => ?_
    simp [Cond.eval]

theorem ofField_found {f : Field} {m : FieldDef → C Cond} {A : FieldDef → Row D → Prop}
    (h : ∀ def_, Spec (m def_) (fun final c => Means db final c (A def_))) :
    Spec ((liftM (lookup u f) : C FieldDef) >>= m) (fun final c =>
      Means db final c (fun s => OfField u f fun def_ => A def_ s)) := by
  refine (Spec.lift (Q := fun _ def_ => lookup u f = .ok def_) fun _ _ hf => hf).bind fun def_ =>
    (h def_).weaken fun final c hc hf s => ?_
  unfold OfField
  rw [hf]
  exact hc s

theorem compare_spec (f : Field) (op : Op) (v : Value) :
    Spec (Compiler.compare u env f op v) (fun final c =>
      Means db final c (fun s => (Expr.compare f op v).Holds db u env s)) := by
  unfold Compiler.compare Expr.Holds
  refine ofField_found fun def_ => ?_
  split
  · exact .fail
  · have hmatch : Spec (Compiler.match_ u env def_ f [v]) (fun final c =>
        Means db final c (fun s => Matches db u env def_ v s)) :=
      (match_spec def_ f [v]).weaken fun final c hc s => (hc s).trans (by simp)
    cases op with
    | eq => exact hmatch
    | ne => exact hmatch.map fun final c hc => negate_means hc
    | like => exact contains_spec def_ f v
    | notLike => exact (contains_spec def_ f v).map fun final c hc => negate_means hc
    | lt | le | gt | ge => exact ordered_spec def_ f _ v

theorem in_spec (f : Field) (v : Value) (vs : List Value) (not_ : Bool) :
    Spec (Compiler.in_ u env f (v :: vs) not_) (fun final c =>
      Means db final c (fun s => (Expr.in_ f v vs not_).Holds db u env s)) := by
  unfold Compiler.in_ Expr.Holds
  refine ofField_found fun def_ => ?_
  split
  · exact .fail
  · cases not_ with
    | false => exact (match_spec def_ f (v :: vs)).map fun final c hc => hc
    | true => exact (match_spec def_ f (v :: vs)).map fun final c hc => negate_means hc

theorem empty_spec (f : Field) (not_ : Bool) :
    Spec (Compiler.empty u f not_) (fun final c =>
      Means db final c (fun s => (Expr.empty f not_).Holds db u env s)) := by
  unfold Compiler.empty Expr.Holds
  refine ofField_found fun def_ => ?_
  split
  · exact .fail
  · cases not_ with
    | false => exact (emptiness_spec def_).map fun final c hc => hc.1
    | true => exact (emptiness_spec def_).map fun final c hc => hc.2

theorem expr_spec : ∀ e : Expr, Spec (Compiler.expr u env e) (fun final c =>
    Means db final c (fun s => e.Holds db u env s))
  | .and l r => by
    unfold Compiler.expr
    exact (expr_spec l).bind fun c => (expr_spec r).map fun final d hd hc => and_means hc hd
  | .or l r => by
    unfold Compiler.expr
    exact (expr_spec l).bind fun c => (expr_spec r).map fun final d hd hc => or_means hc hd
  | .not e => by
    unfold Compiler.expr
    exact (expr_spec e).map fun final c hc => negate_means hc
  | .compare f op v => by
    unfold Compiler.expr
    exact compare_spec f op v
  | .in_ f v vs not_ => by
    unfold Compiler.expr
    exact in_spec f v vs not_
  | .empty f not_ => by
    unfold Compiler.expr
    exact empty_spec f not_

end

def Selected {D : Type} (db : Store D) (c : Cond) (args : List Arg) (s : Row D) : Prop :=
  c.Selects db.toData (args.map (Bound.map db.value)) s

inductive Negation : Expr → Expr → Prop where
  | not (e : Expr) : Negation e (.not e)
  | ne (f : Field) (v : Value) : Negation (.compare f .eq v) (.compare f .ne v)
  | notLike (f : Field) (v : Value) : Negation (.compare f .like v) (.compare f .notLike v)
  | notIn (f : Field) (v : Value) (vs : List Value) : Negation (.in_ f v vs false) (.in_ f v vs true)
  | notEmpty (f : Field) : Negation (.empty f false) (.empty f true)

section
variable {D : Type} {db : Store D} {u : Tables} {env : Env}

variable {c : Cond} {args : List Arg}

theorem selected_iff {e : Expr} (h : Compiler.expr u env e [] = .ok (c, args)) (s : Row D) :
    Selected db c args s ↔ e.Holds db u env s :=
  ((expr_spec e [] c args h).2 args (prefix_refl _)) s

theorem ofField_of_ok {f : Field} {m : FieldDef → C Cond}
    (h : ((liftM (lookup u f) : C FieldDef) >>= m) [] = .ok (c, args)) : ∃ def_, lookup u f = .ok def_ := by
  cases hf : lookup u f with
  | error => rw [hf] at h; cases h
  | ok def_ => exact ⟨def_, rfl⟩

theorem negation_holds {e e' : Expr} (hn : Negation e e')
    (h : Compiler.expr u env e [] = .ok (c, args)) (s : Row D) :
    e'.Holds db u env s ↔ ¬ e.Holds db u env s := by
  cases hn with
  | not => exact Iff.rfl
  | ne f v | notLike f v | notIn f v vs | notEmpty f =>
    unfold Compiler.expr at h
    obtain ⟨def_, hf⟩ := ofField_of_ok h
    simp [Expr.Holds, OfField, hf]

end

/-- **Compiled, a query has two-valued meaning under three-valued logic**: a condition selects exactly the rows its
expression is true of, and every negation selects exactly the rows its positive form does not. -/
theorem compiled_meaning {D : Type} (db : Store D) (u : Tables) (env : Env) :
    (∀ (e : Expr) (c : Cond) (args : List Arg), Compiler.expr u env e [] = .ok (c, args) →
      ∀ s : Row D, Selected db c args s ↔ e.Holds db u env s) ∧
    ∀ (e e' : Expr), Negation e e' → ∀ (c c' : Cond) (args args' : List Arg),
      Compiler.expr u env e [] = .ok (c, args) → Compiler.expr u env e' [] = .ok (c', args') →
      ∀ s : Row D, Selected db c' args' s ↔ ¬ Selected db c args s := by
  refine ⟨fun e c args h s => selected_iff h s, fun e e' hn c c' args args' h h' s => ?_⟩
  rw [selected_iff h', selected_iff h, negation_holds hn h]

/-- `NOT assignee IS EMPTY` in the text the compiler writes. -/
example : (Compiler.expr Tables.ascii ⟨0, 0, Go.Zone.utc⟩ (.not (.empty ⟨str "assignee", false, 5⟩ false)) []).toOption.map
    (fun p => Sql.render (fun _ => []) p.1.pieces) = some (str "NOT COALESCE((i.assignee_id IS NULL), false)") := rfl

end Nql
end Armature
