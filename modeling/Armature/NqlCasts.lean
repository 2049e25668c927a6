import Armature.NqlTrichotomy
/-!
# NqlCasts — the dates a query hands to the database (`nql/compile.go`, `nql/dates.go`)

What a condition casts to a date are the days of the values its expression compares by day, one argument each
(`expr_casts`).  Years before the first are days to the compiler and not to the database, and a duration that does not fit its
64 bits wraps.
-/
namespace Armature

open List

namespace Sql

open Go (Text)

def timeCasts : List Text := ["::date".toList, "::timestamptz".toList]

def Term.casts : Term → List Nat
  | .fn _ (.param n) after => if after ∈ timeCasts then [n] else []
  | .fn _ t _ | .pick _ t _ | .when _ _ t => t.casts
  | .col _ | .const _ | .param _ => []

def Cond.casts : Cond → List Nat
  | .never | .nothing => []
  | .cmp l _ r => l.casts ++ r.casts
  | .any t n type => t.casts ++ if ':' :: ':' :: type ∈ timeCasts then [n] else []
  | .isNull t | .isNotNull t => t.casts
  | .inRows t _ _ w => t.casts ++ w.casts
  | .exists_ _ w => w.casts
  | .and l r | .or l r => l.casts ++ r.casts
  | .not c | .paren c | .orFalse c => c.casts

end Sql

namespace Nql

open Go (Text Tables Zone atoi second toLower)
open Sql (Cond Term)

/-! ## Durations -/

def countOf (text : Text) : Int :=
  if text.dropLast.head? = some '-' then -(atoi (dropSign text.dropLast) : Int) else atoi (dropSign text.dropLast)

def unitOf (text : Text) : Int :=
  3600 * second * if text.getLast? = some 'h' then 1 else if text.getLast? = some 'd' then 24 else 7 * 24

def Fits (text : Text) : Prop := -2 ^ 63 ≤ countOf text * unitOf text ∧ countOf text * unitOf text < 2 ^ 63

instance (text : Text) : Decidable (Fits text) := inferInstanceAs (Decidable (_ ∧ _))

theorem wrap64_eq_iff (n : Int) : wrap64 n = n ↔ -2 ^ 63 ≤ n ∧ n < 2 ^ 63 := by
  unfold wrap64
  omega

def Value.durations (v : Value) : List (Text × Nat) :=
  match v.kind with
  | .duration => [(v.text, v.pos)]
  | .function => v.arg.toList
  | _ => []

section
variable {u : Tables} {env : Env}

theorem atoi64_some {w : Text} {n : Int} (h : atoi64 w = some n) :
    n = if w.head? = some '-' then -(atoi (dropSign w) : Int) else atoi (dropSign w) := by
  unfold atoi64 at h
  obtain ⟨-, h⟩ := Option.ite_none_right_eq_some.1 h
  exact (Option.some_inj.1 h).symm

theorem duration_ok {text : Text} {pos : Nat} {d : Int} (h : duration u text pos = .ok d) :
    d = wrap64 (countOf text * unitOf text) := by
  unfold duration at h
  split at h
  · cases h
  · rename_i unit hunit
    split at h
    · cases h
    · rename_i n hn
      cases h
      obtain ⟨-, hn⟩ := Option.ite_none_right_eq_some.1 hn
      rw [atoi64_some hn]
      simp only [countOf, unitOf, hunit, Option.some_inj]

def moment (u : Tables) (env : Env) (w : Text × Nat) : P Int := (duration u w.1 w.2).map (env.now + ·)

theorem moment_exact {w : Text × Nat} {t : Int} (h : moment u env w = .ok t) :
    t = env.now + countOf w.1 * unitOf w.1 ↔ Fits w.1 := by
  unfold moment at h
  cases hd : duration u w.1 w.2 with
  | error => rw [hd] at h; cases h
  | ok d =>
    rw [hd] at h
    cases h
    have hwrap := wrap64_eq_iff (countOf w.1 * unitOf w.1)
    rw [Int.add_right_inj, duration_ok hd]
    exact hwrap

theorem moment_read {v : Value} {p : Int × Bool} (h : instant u env v = .ok p) :
    ∀ w ∈ v.durations, ∃ t, moment u env w = .ok t := by
  intro w hw
  have hread : ∀ {d}, duration u w.1 w.2 = .ok d → ∃ t, moment u env w = .ok t := fun hd => ⟨_, by rw [moment, hd]; rfl⟩
  unfold Value.durations at hw
  split at hw
  · rename_i hk
    rw [mem_singleton] at hw
    subst hw
    simp only [instant, hk] at h
    cases hd : duration u v.text v.pos with
    | error => rw [hd] at h; cases h
    | ok => exact hread hd
  · rename_i hk
    rw [Option.mem_toList] at hw
    simp only [instant, hk, hw] at h
    cases hd : duration u w.1 w.2 with
    | error => rw [hd] at h; cases h
    | ok => exact hread hd
  · cases hw

end

/-! ## What an expression asks of dates -/

def Asks (def_ : FieldDef) (op : Op) (v : Value) : Bool :=
  def_.kind == .timestamp || def_.kind == .date ||
    (def_.kind == .custom && !(op == .like || op == .notLike) && (v.kind == .date || v.kind == .duration || v.kind == .function))

def Expr.asked (u : Tables) : Expr → List (FieldDef × Value)
  | .and l r | .or l r => l.asked u ++ r.asked u
  | .not e => e.asked u
  | .compare f op v => match lookup u f with
    | .ok def_ => if Asks def_ op v then [(def_, v)] else []
    | .error _ => []
  | .in_ f v vs _ => match lookup u f with
    | .ok def_ => ((v :: vs).filter (Asks def_ .eq)).map fun w => (def_, w)
    | .error _ => []
  | .empty _ _ => []

def dayOfValue (u : Tables) (env : Env) (v : Value) : List Int :=
  match instant u env v with
  | .ok p => [env.location.dayOf p.1]
  | .error _ => []

def daysOf (u : Tables) (env : Env) (asked : List (FieldDef × Value)) : List Int :=
  (asked.filter fun p => p.1.kind != .timestamp).flatMap fun p => dayOfValue u env p.2

/-! ## What the condition casts -/

def CastsDays (final : List Arg) (c : Cond) (days : List Int) : Prop :=
  c.casts.map (fun n => final[n]?) = days.map fun d => some (textArg (dateText d))

section
variable {final : List Arg}

theorem CastsDays.append {c c' d : Cond} {xs ys : List Int} (hd : d.casts = c.casts ++ c'.casts) (h : CastsDays final c xs)
    (h' : CastsDays final c' ys) : CastsDays final d (xs ++ ys) := by
  rw [CastsDays, hd, map_append, map_append, h, h']

theorem CastsDays.bare {c : Cond} (h : c.casts = []) : CastsDays final c [] := by
  rw [CastsDays, h]
  rfl

theorem orAll_casts : ∀ cs : List Cond, (orAll cs).casts = cs.flatMap Cond.casts
  | [] => rfl
  | [c] => by simp [orAll]
  | c :: c' :: cs => by
    rw [orAll]
    · rw [Cond.casts, orAll_casts (c' :: cs), flatMap_cons (x := c)]
    · exact cons_ne_nil c' cs

theorem anyOf_casts (cs : List Cond) : (anyOf cs).casts = cs.flatMap Cond.casts := by
  unfold anyOf
  split
  · simp
  · exact orAll_casts cs

theorem anyOf_bare {cs : List Cond} (h : ∀ c ∈ cs, c.casts = []) : (anyOf cs).casts = [] := by
  rw [anyOf_casts, flatMap_eq_nil_iff]
  exact h

theorem anyOf_castsDays {α : Type} {days : α → List Int} : ∀ {vs : List α} {cs : List Cond},
    List.Forall₂ (fun v c => CastsDays final c (days v)) vs cs → CastsDays final (anyOf cs) (vs.flatMap days) := by
  intro vs cs h
  rw [CastsDays, anyOf_casts]
  induction h with
  | nil => rfl
  | cons hvc _ ih =>
    rw [flatMap_cons, flatMap_cons, map_append, map_append, ih, hvc]

end

def Returns {α : Type} (m : C α) (p : α → Prop) : Prop := ∀ args x args', m args = .ok (x, args') → p x

section
variable {α β : Type}

variable {p : α → Prop} {m : C α}

theorem Returns.pure {x : α} (h : p x) : Returns (pure x) p := by
  intro args y args' hy
  cases hy
  exact h

theorem Returns.fail {pos : Nat} {msg : Text} : Returns (Compiler.fail pos msg) p := by
  intro args y args' hy
  cases hy

theorem Returns.bind {k : α → C β} {q : α → Prop} {p : β → Prop} (h : Returns m q) (hk : ∀ x, q x → Returns (k x) p) :
    Returns (m >>= k) p := by
  intro args y args' hy
  obtain ⟨x, mid, hx, hy⟩ := bind_ok hy
  exact hk x (h args x mid hx) mid y args' hy

theorem Returns.last {k : α → C β} {p : β → Prop} (hk : ∀ x, Returns (k x) p) : Returns (m >>= k) p :=
  Returns.bind (q := fun _ => True) (fun _ _ _ _ => trivial) fun x _ => hk x

theorem Returns.mapM {f : α → C β} {p : β → Prop} (h : ∀ v, Returns (f v) p) : ∀ vs : List α,
    Returns (vs.mapM f) fun xs => ∀ x ∈ xs, p x
  | [] => .pure (by simp)
  | v :: vs => by
    rw [mapM_cons]
    exact (h v).bind fun x hx => (Returns.mapM h vs).bind fun xs hxs => .pure (by simpa [hx] using hxs)

theorem Spec.returns {P : List Arg → α → Prop} (h : Spec m P) (hp : Returns m p) :
    Spec m fun _ x => p x := by
  intro args x args' hx
  exact ⟨(h args x args' hx).1, fun _ _ => hp args x args' hx⟩

end

/-! ## Leaves that cast nothing -/

def Bare (m : C Cond) : Prop := Returns m fun c => c.casts = []

section
variable {u : Tables} {env : Env}

theorem sorted_returns {α : Type} {call : Value → C α} {p : α → Prop} (def_ : FieldDef) (h : ∀ v, Returns (call v) p) :
    ∀ vs : List Value, Returns (Compiler.sorted u def_ call vs) fun r => ∀ x ∈ r.1, p x
  | [] => .pure (by simp)
  | v :: vs => by
    unfold Compiler.sorted
    split
    · exact (h v).bind fun x hx => (sorted_returns def_ h vs).bind fun r hr => .pure (by simpa [hx] using hr)
    · exact .last fun t => (sorted_returns def_ h vs).bind fun r hr => .pure hr

theorem clause_bare {α : Type} {xs : List α} {m : C Cond} (h : Bare m) :
    Returns (Compiler.clause xs m) fun cs => ∀ c ∈ cs, c.casts = [] := by
  unfold Compiler.clause
  split
  · exact .pure (by simp)
  · exact h.bind fun c hc => .pure (by simpa using hc)

theorem clauses_bare {m m' : C (List Cond)} (h : Returns m fun cs => ∀ c ∈ cs, c.casts = [])
    (h' : Returns m' fun cs => ∀ c ∈ cs, c.casts = []) : Bare (m >>= fun cs => m' >>= fun ds => pure (anyOf (cs ++ ds))) :=
  h.bind fun _ hcs => h'.bind fun _ hds => .pure (anyOf_bare fun c hc => (mem_append.1 hc).elim (hcs c) (hds c))

theorem users_bare (def_ : FieldDef) (vs : List Value) : Bare (Compiler.users u env def_ vs) := by
  unfold Compiler.users
  refine .last fun r => clauses_bare (clause_bare (.last fun n => .pure ?_)) (clause_bare (.last fun n => .pure ?_))
  · simp [Cond.casts, Term.casts, Sql.timeCasts, str]
  · simp [Cond.casts, Term.casts, lower, col, Sql.timeCasts, str]

theorem lookups_bare (def_ : FieldDef) (vs : List Value) : Bare (Compiler.lookups u def_ vs) := by
  unfold Compiler.lookups
  refine (sorted_returns (p := fun c : Cond => c.casts = []) def_ (fun v => ?_) vs).bind fun r hr =>
    (clause_bare (.last fun n => .pure ?_)).bind fun named hnamed =>
      .pure (anyOf_bare fun c hc => (mem_append.1 hc).elim (hr c) (hnamed c))
  · split
    · exact .pure rfl
    · exact .fail
  · simp [Cond.casts, Term.casts, lower, col, Sql.timeCasts, str]

theorem versionState_casts {name : Text} {state : Cond} (h : Compiler.versionState name = some state) : state.casts = [] := by
  unfold Compiler.versionState at h
  split at h
  · cases h
    rfl
  · split at h
    · cases h
      rfl
    · cases h

theorem versions_bare (def_ : FieldDef) (vs : List Value) : Bare (Compiler.versions u def_ vs) := by
  unfold Compiler.versions
  refine (sorted_returns (p := fun c : Cond => c.casts = []) def_ (fun v => ?_) vs).bind fun r hr =>
    (clause_bare (.last fun role => .last fun n => .pure ?_)).bind fun named hnamed =>
      .pure (anyOf_bare fun c hc => (mem_append.1 hc).elim (hr c) (hnamed c))
  · split
    · rename_i state hstate
      exact .last fun role => .pure (by simp [Cond.casts, Compiler.ofVersion, equals, col, Term.casts, versionState_casts hstate])
    · exact .fail
  · simp [Cond.casts, Term.casts, Compiler.ofVersion, equals, lower, col, Sql.timeCasts, str]

theorem keys_bare {template : Nat → Nat → Cond} (h : ∀ p n, (template p n).casts = []) (vs : List Value) :
    Bare (Compiler.keys u vs template) := by
  unfold Compiler.keys
  exact (Returns.mapM (fun v => .last fun k => .last fun p => .last fun n => .pure (h p n)) vs).bind fun cs hcs =>
    .pure (anyOf_bare hcs)

theorem description_bare (t : Text) : Bare (Compiler.description u t) := by
  unfold Compiler.description
  split
  · exact .pure rfl
  · exact .last fun n => .pure rfl

theorem summary_bare (t : Text) : Bare (Compiler.summary t) := by
  unfold Compiler.summary
  exact .last fun n => .pure (by simp [Cond.casts, Term.casts, col, Compiler.likePattern, Sql.timeCasts, str])

/-! ## Leaves that compare with a day -/

def FieldDef.Timeless (def_ : FieldDef) : Prop := ':' :: ':' :: def_.enumType ∉ Sql.timeCasts

variable {def_ : FieldDef} {op : Op}

theorem lookup_timeless {f : Field} (h : lookup u f = .ok def_) : def_.Timeless := by
  have hcatalog : ∀ d ∈ catalog, ':' :: ':' :: d.enumType ∉ Sql.timeCasts := by decide +kernel
  rcases lookup_cases u h with ⟨_, rfl⟩ | ⟨_, hd, _⟩
  · change ':' :: ':' :: ([] : Text) ∉ Sql.timeCasts
    decide
  · exact hcatalog def_ hd

def daysFor (u : Tables) (env : Env) (def_ : FieldDef) (op : Op) (v : Value) : List Int :=
  if Asks def_ op v = true ∧ def_.kind ≠ .timestamp then dayOfValue u env v else []

theorem dayOfValue_ok {v : Value} {p : Int × Bool} (h : instant u env v = .ok p) :
    dayOfValue u env v = [env.location.dayOf p.1] := by
  rw [dayOfValue, h]

theorem day_spec (v : Value) (l : Term) (op : Text) (hl : l.casts = []) :
    Spec ((liftM (instant u env v) : C (Int × Bool)) >>= fun p =>
        Compiler.bind (textArg (dateText (env.location.dayOf p.1))) >>= fun n =>
          pure (.cmp l op (.fn [] (.param n) (str "::date"))))
      fun final c => CastsDays final c (dayOfValue u env v) := by
  refine (Spec.lift (Q := fun _ p => instant u env v = .ok p) fun _ _ hp => hp).bind fun p =>
    (Spec.arg _).map fun final n hn hp => ?_
  simp [CastsDays, Cond.casts, Term.casts, hl, Sql.timeCasts, str, dayOfValue_ok hp, hn]

theorem customTest_days (op : Op) (v : Value) : Spec (Compiler.customTest u env op v) fun final c =>
    CastsDays final c
      (if op ≠ .like ∧ (v.kind = .date ∨ v.kind = .duration ∨ v.kind = .function) then dayOfValue u env v else []) := by
  unfold Compiler.customTest
  by_cases h1 : op = .like
  · rw [if_pos h1, if_neg fun h => h.1 h1]
    exact (Spec.arg _).map fun final n hn => .bare (by
      simp [Cond.casts, Term.casts, Compiler.jsonText, col, Compiler.likePattern, Sql.timeCasts, str])
  rw [if_neg h1]
  by_cases h2 : v.kind = .number
  · rw [if_pos h2, if_neg (by simp [h2])]
    exact (Spec.arg _).map fun final n hn => .bare rfl
  rw [if_neg h2]
  by_cases h3 : v.kind = .date ∨ v.kind = .duration ∨ v.kind = .function
  · rw [if_pos h3, if_pos ⟨h1, h3⟩]
    exact day_spec v _ op.text rfl
  rw [if_neg h3, if_neg fun h : _ ∧ _ => h3 h.2]
  by_cases h4 : op = .eq
  · rw [if_pos h4]
    exact (Spec.arg _).map fun final n hn => .bare (by
      simp [Cond.casts, Term.casts, equals, lower, Compiler.jsonText, col, Sql.timeCasts, str])
  · rw [if_neg h4]
    exact (Spec.arg _).map fun final n hn => .bare rfl

theorem custom_days (def_ : FieldDef) (op : Op) (v : Value) : Spec (Compiler.custom u env def_ op v) fun final c =>
    CastsDays final c
      (if op ≠ .like ∧ (v.kind = .date ∨ v.kind = .duration ∨ v.kind = .function) then dayOfValue u env v else []) := by
  unfold Compiler.custom
  refine (customTest_days op v).bind fun test => (Spec.arg (textArg def_.name)).map fun final n hn htest => ?_
  have hfield : (Compiler.ofField n).casts = [] := by
    simp [Compiler.ofField, Cond.casts, Term.casts, equals, lower, col, Sql.timeCasts, str]
  rw [CastsDays, Cond.casts, Cond.casts, hfield]
  exact htest

theorem daysFor_custom (hk : def_.kind = .custom) (hop : op ≠ .notLike) (v : Value) :
    daysFor u env def_ op v =
      if op ≠ .like ∧ (v.kind = .date ∨ v.kind = .duration ∨ v.kind = .function) then dayOfValue u env v else [] := by
  simp [daysFor, Asks, hk, hop, or_assoc]

theorem orderedInstant_days (column : Text) (op : Op) (at_ : Int) (wholeDay : Bool) :
    Spec (Compiler.orderedInstant env (.col column) op at_ wholeDay) fun final c => CastsDays final c [] := by
  have hbare : Bare (Compiler.orderedInstant env (.col column) op at_ wholeDay) := by
    unfold Compiler.orderedInstant
    split
    · exact .last fun n => .pure rfl
    · dsimp only
      split
      · exact .last fun n => .pure rfl
      · exact .last fun n => .pure rfl
      · exact .last fun n => .pure rfl
      · exact .last fun n => .pure rfl
      · exact .last fun n => .last fun m => .pure rfl
  exact ((orderedInstant_spec calendar column op at_ wholeDay).returns hbare).weaken fun _ _ => .bare

theorem ordered_days (hd : def_.Timeless) (f : Field) (hop : op ≠ .notLike) (v : Value) :
    Spec (Compiler.ordered u env def_ f op v) fun final c => CastsDays final c (daysFor u env def_ op v) := by
  have hnone : def_.kind ≠ .date → def_.kind ≠ .custom → daysFor u env def_ op v = [] := fun h1 h2 => by
    rw [daysFor, if_neg]
    rintro ⟨hasks, hinstant⟩
    simp [Asks, h1, h2] at hasks
    exact hinstant hasks
  unfold Compiler.ordered
  cases hk : def_.kind with
  | priority =>
    rw [hnone (by simp [hk]) (by simp [hk])]
    refine (Spec.lift (Q := fun _ _ => True) fun _ _ _ => trivial).bind fun t => ?_
    dsimp only
    split
    · exact .fail
    · refine (Spec.arg _).map fun final n hn _ => .bare ?_
      have hcast : str "::" ++ def_.enumType ∉ Sql.timeCasts := hd
      simp [Cond.casts, Term.casts, hcast]
  | number =>
    rw [hnone (by simp [hk]) (by simp [hk])]
    refine (Spec.lift (Q := fun _ _ => True) fun _ _ _ => trivial).bind fun t => ?_
    exact (Spec.arg _).map fun final n hn _ => .bare rfl
  | timestamp =>
    rw [hnone (by simp [hk]) (by simp [hk])]
    refine (Spec.lift (Q := fun _ _ => True) fun _ _ _ => trivial).bind fun p => ?_
    exact (orderedInstant_days def_.column op p.1 p.2).weaken fun _ _ h _ => h
  | date =>
    have hdays : daysFor u env def_ op v = dayOfValue u env v := by simp [daysFor, Asks, hk]
    rw [hdays]
    refine (Spec.lift (Q := fun _ p => instant u env v = .ok p) fun _ _ hp => hp).bind fun p =>
      (Spec.arg _).map fun final n hn hp => ?_
    simp [CastsDays, Cond.casts, Term.casts, Sql.timeCasts, str, dayOfValue_ok hp, hn]
  | custom =>
    rw [daysFor_custom hk hop]
    exact custom_days def_ op v
  | _ => exact .fail

theorem texts_last {vs : List Value} {normalize : Text → Text} {f : Nat → Cond} (h : ∀ n, (f n).casts = []) :
    Bare (Compiler.texts u def_ vs normalize >>= fun ts => Compiler.bind (textsArg ts) >>= fun n => pure (f n)) :=
  .last fun _ => .last fun n => .pure (h n)

theorem match_bare (hd : def_.Timeless) (hk : ¬ def_.Timed) (f : Field) (vs : List Value) :
    Bare (Compiler.match_ u env def_ f vs) := by
  have harray : ':' :: ':' :: def_.enumType ∉ Sql.timeCasts := hd
  unfold Compiler.match_
  cases hkind : def_.kind with
  | project => exact texts_last fun n => by simp [Cond.casts, Term.casts, col, Sql.timeCasts, str]
  | key => exact keys_bare (fun p n => rfl) vs
  | parent => exact keys_bare (fun p n => rfl) vs
  | summary | name => exact texts_last fun n => by simp [Cond.casts, Term.casts, lower, Sql.timeCasts, str]
  | enum | priority =>
    refine .last fun members => ?_
    split
    · exact .fail
    · exact .last fun n => .pure (by simp [Cond.casts, Term.casts, harray])
  | user => exact users_bare def_ vs
  | watcher =>
    refine (users_bare _ vs).bind fun test htest => .pure ?_
    simp [Cond.casts, Term.casts, equals, col, htest]
  | lookup => exact lookups_bare def_ vs
  | labels =>
    exact texts_last fun n => by
      simp [Compiler.related, Cond.casts, Term.casts, equals, lower, col, Sql.timeCasts, str]
  | version => exact versions_bare def_ vs
  | component =>
    exact texts_last fun n => by
      simp [Compiler.related, Cond.casts, Term.casts, equals, lower, col, Sql.timeCasts, str]
  | number => exact .last fun ts => .last fun n => .pure (by simp [Cond.casts, Term.casts, Sql.timeCasts, str])
  | timestamp | date | custom => exact absurd (by simp [FieldDef.Timed, hkind]) hk
  | description | anyText => exact .fail

theorem match_days (hd : def_.Timeless) (f : Field) (vs : List Value) :
    Spec (Compiler.match_ u env def_ f vs) fun final c => CastsDays final c (vs.flatMap (daysFor u env def_ .eq)) := by
  by_cases hk : def_.Timed
  · rcases hk with hk | hk | hk
    all_goals
      unfold Compiler.match_
      simp only [hk]
    · exact (Spec.mapM (fun v => ordered_days hd f (by decide) v) vs).map fun final cs hcs => anyOf_castsDays hcs
    · exact (Spec.mapM (fun v => ordered_days hd f (by decide) v) vs).map fun final cs hcs => anyOf_castsDays hcs
    · refine (Spec.mapM (fun v => custom_days def_ .eq v) vs).map fun final cs hcs => ?_
      have hdays := anyOf_castsDays hcs
      rwa [flatMap_congr fun v _ => (daysFor_custom hk (by decide) v).symm] at hdays
  · have hnone : vs.flatMap (daysFor u env def_ .eq) = [] := by
      refine flatMap_eq_nil_iff.2 fun v _ => ?_
      have hasks : Asks def_ .eq v = false := by
        simp only [FieldDef.Timed, not_or] at hk
        simp [Asks, hk.1, hk.2.1, hk.2.2]
      rw [daysFor, hasks, if_neg (by simp)]
    rw [hnone]
    have hspec : Spec (Compiler.match_ u env def_ f vs) fun final c =>
        Means calendar final c fun s => ∃ v ∈ vs, Matches calendar u env def_ v s := match_spec def_ f vs
    exact (hspec.returns (match_bare hd hk f vs)).weaken fun _ _ => .bare

theorem contains_days (f : Field) (hop : op = .like ∨ op = .notLike) (v : Value) :
    Spec (Compiler.contains u env def_ f v) fun final c => CastsDays final c (daysFor u env def_ op v) := by
  have hnone : def_.kind ≠ .timestamp → def_.kind ≠ .date → daysFor u env def_ op v = [] := fun h1 h2 => by
    rw [daysFor, if_neg]
    rintro ⟨hasks, -⟩
    rcases hop with rfl | rfl <;> simp [Asks, h1, h2] at hasks
  have hspec : Spec (Compiler.contains u env def_ f v) fun final c =>
      Means calendar final c fun s => Contains calendar u env def_ v s := contains_spec def_ f v
  by_cases hk : def_.kind = .custom
  · rw [hnone (by simp [hk]) (by simp [hk])]
    unfold Compiler.contains
    refine (searchText_spec def_ v).bind fun t => ?_
    split
    · exact .fail
    · rw [hk]
      exact (custom_days def_ .like v).weaken fun final c h _ => h
  · by_cases htimed : def_.kind = .timestamp ∨ def_.kind = .date
    · unfold Compiler.contains
      refine (searchText_spec def_ v).bind fun t => ?_
      split
      · exact .fail
      · rcases htimed with h | h <;> rw [h] <;> exact .fail
    · rw [hnone (fun h => htimed (.inl h)) fun h => htimed (.inr h)]
      refine (hspec.returns (p := fun c => c.casts = []) ?_).weaken fun _ _ => .bare
      unfold Compiler.contains
      refine .last fun t => ?_
      split
      · exact .fail
      · split
        · exact summary_bare t
        · exact description_bare t
        · refine (summary_bare t).bind fun c hc => (description_bare t).bind fun d hd => .pure ?_
          rw [Cond.casts, Cond.casts, hc, hd]
          rfl
        · exact absurd (by assumption) hk
        · exact .fail

theorem emptiness_bare (def_ : FieldDef) : Bare (Compiler.emptiness def_) := by
  unfold Compiler.emptiness
  split
  · exact .pure rfl
  · exact .last fun role => .pure rfl
  · exact .pure rfl
  · exact .pure rfl
  · exact .pure rfl
  · exact .last fun name => .pure (by simp [Compiler.ofField, Cond.casts, Term.casts, equals, lower, col, Sql.timeCasts, str])
  · exact .pure rfl

/-! ## The tree -/

theorem found_days {f : Field} {m : FieldDef → C Cond} (days : FieldDef → List Int) {asked : List (FieldDef × Value)}
    (hasked : ∀ def_, lookup u f = .ok def_ → daysOf u env asked = days def_)
    (h : ∀ def_, def_.Timeless → Spec (m def_) fun final c => CastsDays final c (days def_)) :
    Spec ((liftM (lookup u f) : C FieldDef) >>= m) fun final c => CastsDays final c (daysOf u env asked) := by
  cases hf : lookup u f with
  | error =>
    intro args c args' hc
    cases hc
  | ok def_ => exact hasked def_ hf ▸ h def_ (lookup_timeless hf)

variable (u env) in
theorem daysOf_one (def_ : FieldDef) (op : Op) (v : Value) :
    daysOf u env (if Asks def_ op v then [(def_, v)] else []) = daysFor u env def_ op v := by
  by_cases hasks : Asks def_ op v = true
  · by_cases hk : def_.kind = .timestamp <;> simp [daysOf, daysFor, hasks, hk]
  · simp [daysOf, daysFor, hasks]

theorem daysOf_many (def_ : FieldDef) (vs : List Value) :
    daysOf u env ((vs.filter (Asks def_ .eq)).map fun w => (def_, w)) = vs.flatMap (daysFor u env def_ .eq) := by
  induction vs with
  | nil => rfl
  | cons v vs ih =>
    have hone := daysOf_one u env def_ .eq v
    have happend : ∀ xs ys, daysOf u env (xs ++ ys) = daysOf u env xs ++ daysOf u env ys := fun xs ys => by
      simp [daysOf]
    rw [flatMap_cons, ← ih, ← hone, ← happend]
    congr 1
    by_cases hasks : Asks def_ .eq v = true <;> simp [hasks]

theorem compare_days (f : Field) (op : Op) (v : Value) : Spec (Compiler.compare u env f op v) fun final c =>
    CastsDays final c (daysOf u env ((Expr.compare f op v).asked u)) := by
  unfold Compiler.compare
  refine found_days (fun def_ => daysFor u env def_ op v) (fun def_ hf => ?_) fun def_ hd => ?_
  · rw [Expr.asked, hf]
    exact daysOf_one u env def_ op v
  · split
    · exact .fail
    · have hmatch : Spec (Compiler.match_ u env def_ f [v]) fun final c => CastsDays final c (daysFor u env def_ .eq v) :=
        (match_days hd f [v]).weaken fun final c h => by simpa using h
      cases op with
      | eq => exact hmatch
      | ne =>
        refine hmatch.map fun final c h => ?_
        exact h
      | like => exact contains_days f (.inl rfl) v
      | notLike => exact (contains_days f (.inr rfl) v).map fun final c h => h
      | lt | le | gt | ge => exact ordered_days hd f (by decide) v

theorem in_days (f : Field) (v : Value) (vs : List Value) (not_ : Bool) :
    Spec (Compiler.in_ u env f (v :: vs) not_) fun final c =>
    CastsDays final c (daysOf u env ((Expr.in_ f v vs not_).asked u)) := by
  unfold Compiler.in_
  refine found_days (fun def_ => (v :: vs).flatMap (daysFor u env def_ .eq)) (fun def_ hf => ?_) fun def_ hd => ?_
  · rw [Expr.asked, hf]
    exact daysOf_many def_ (v :: vs)
  · split
    · exact .fail
    · refine (match_days hd f (v :: vs)).map fun final c h => ?_
      cases not_ <;> exact h

theorem empty_days (f : Field) (not_ : Bool) : Spec (Compiler.empty u f not_) fun final c => CastsDays final c [] := by
  unfold Compiler.empty
  refine (Spec.lift (Q := fun _ _ => True) fun _ _ _ => trivial).bind fun def_ => ?_
  split
  · exact .fail
  · have hspec : Spec (Compiler.emptiness def_) fun final c => Means calendar final c (fun s => Nothing calendar def_ s) ∧
        Means calendar final (.not c) (fun s => ¬ Nothing calendar def_ s) := emptiness_spec def_
    refine (hspec.returns (emptiness_bare def_)).map fun final c h _ => ?_
    cases not_ <;> exact .bare h

theorem expr_casts : ∀ e : Expr, Spec (Compiler.expr u env e) fun final c => CastsDays final c (daysOf u env (e.asked u))
  | .and l r => by
    unfold Compiler.expr
    refine (expr_casts l).bind fun c => (expr_casts r).map fun final d hd hc => ?_
    have happend := CastsDays.append (d := .paren (.and c d)) rfl hc hd
    simpa [daysOf, Expr.asked] using happend
  | .or l r => by
    unfold Compiler.expr
    refine (expr_casts l).bind fun c => (expr_casts r).map fun final d hd hc => ?_
    have happend := CastsDays.append (d := .paren (.or c d)) rfl hc hd
    simpa [daysOf, Expr.asked] using happend
  | .not e => by
    unfold Compiler.expr
    exact (expr_casts e).map fun final c h => h
  | .compare f op v => by
    unfold Compiler.expr
    exact compare_days f op v
  | .in_ f v vs not_ => by
    unfold Compiler.expr
    exact in_days f v vs not_
  | .empty f not_ => by
    unfold Compiler.expr
    exact empty_days f not_

end

/-! ## What is asked for is read -/

section
variable {u : Tables} {env : Env}

def Read (u : Tables) (env : Env) (v : Value) : Prop := ∃ p, instant u env v = .ok p

theorem Returns.read {β : Type} {v : Value} {k : Int × Bool → C β} :
    Returns ((liftM (instant u env v) : C (Int × Bool)) >>= k) fun _ => Read u env v := by
  cases hv : instant u env v with
  | error =>
    intro args y args' hy
    cases hy
  | ok p => exact fun _ _ _ _ => ⟨p, hv⟩

theorem Returns.each {α β : Type} {f : α → C β} {q : α → Prop} (h : ∀ v, Returns (f v) fun _ => q v) : ∀ vs : List α,
    Returns (vs.mapM f) fun _ => ∀ v ∈ vs, q v
  | [] => .pure (by simp)
  | v :: vs => by
    rw [mapM_cons]
    exact (h v).bind fun x hx => (Returns.each h vs).bind fun xs hxs => .pure (by simpa [hx] using hxs)

theorem Returns.weaken {α : Type} {m : C α} {p q : α → Prop} (h : Returns m p) (hpq : ∀ x, p x → q x) : Returns m q :=
  fun args x args' hx => hpq x (h args x args' hx)

variable {op : Op}

theorem custom_read {def_ : FieldDef} (hop : op ≠ .notLike) (hk : def_.kind = .custom) (v : Value) :
    Returns (Compiler.custom u env def_ op v) fun _ => Asks def_ op v = true → Read u env v := by
  unfold Compiler.custom
  refine Returns.bind (q := fun _ => Asks def_ op v = true → Read u env v) ?_ fun test h => .last fun name => .pure h
  by_cases hasks : Asks def_ op v = true
  · obtain ⟨hlike, hkind⟩ : op ≠ .like ∧ (v.kind = .date ∨ v.kind = .duration ∨ v.kind = .function) := by
      simpa [Asks, hk, hop, or_assoc] using hasks
    have hnumber : v.kind ≠ .number := by rintro hn; rw [hn] at hkind; simp at hkind
    unfold Compiler.customTest
    rw [if_neg hlike, if_neg hnumber, if_pos hkind]
    exact Returns.read.weaken fun _ h _ => h
  · exact fun _ _ _ _ h => absurd h hasks

theorem ordered_read {def_ : FieldDef} (f : Field) (hop : op ≠ .notLike) (v : Value) :
    Returns (Compiler.ordered u env def_ f op v) fun _ => Asks def_ op v = true → Read u env v := by
  unfold Compiler.ordered
  cases hk : def_.kind with
  | timestamp | date => exact Returns.read.weaken fun _ h _ => h
  | custom => exact custom_read hop hk v
  | _ => exact fun _ _ _ _ h => by simp [Asks, hk] at h

theorem match_read (def_ : FieldDef) (f : Field) (vs : List Value) :
    Returns (Compiler.match_ u env def_ f vs) fun _ => ∀ v ∈ vs, Asks def_ .eq v = true → Read u env v := by
  unfold Compiler.match_
  cases hk : def_.kind with
  | timestamp | date => exact (Returns.each (fun v => ordered_read f (by decide) v) vs).bind fun cs h => .pure h
  | custom => exact (Returns.each (fun v => custom_read (by decide) hk v) vs).bind fun cs h => .pure h
  | _ => exact fun _ _ _ _ v _ h => by simp [Asks, hk] at h

theorem contains_read (def_ : FieldDef) (f : Field) (hop : op = .like ∨ op = .notLike) (v : Value) :
    Returns (Compiler.contains u env def_ f v) fun _ => Asks def_ op v = true → Read u env v := by
  by_cases htimed : def_.kind = .timestamp ∨ def_.kind = .date
  · unfold Compiler.contains
    refine .last fun t => ?_
    split
    · exact .fail
    · rcases htimed with h | h <;> rw [h] <;> exact .fail
  · refine fun _ _ _ _ h => ?_
    rw [not_or] at htimed
    rcases hop with rfl | rfl <;> simp [Asks, htimed.1, htimed.2] at h

theorem found_read {f : Field} {m : FieldDef → C Cond} {p : FieldDef → Prop} {q : Prop}
    (hq : ∀ def_, lookup u f = .ok def_ → p def_ → q)
    (h : ∀ def_, Returns (m def_) fun _ => p def_) : Returns ((liftM (lookup u f) : C FieldDef) >>= m) fun _ => q := by
  cases hf : lookup u f with
  | error =>
    intro args c args' hc
    cases hc
  | ok def_ => exact (h def_).weaken fun _ => hq def_ hf

theorem compare_read (f : Field) (op : Op) (v : Value) :
    Returns (Compiler.compare u env f op v) fun _ => ∀ p ∈ (Expr.compare f op v).asked u, Read u env p.2 := by
  unfold Compiler.compare
  refine found_read (p := fun def_ => Asks def_ op v = true → Read u env v) (fun def_ hf h p hp => ?_) fun def_ => ?_
  · rw [Expr.asked, hf] at hp
    dsimp only at hp
    split at hp
    · rw [mem_singleton.1 hp]
      exact h (by assumption)
    · cases hp
  · split
    · exact .fail
    · have hmatch : Returns (Compiler.match_ u env def_ f [v]) fun _ => Asks def_ .eq v = true → Read u env v :=
        (match_read def_ f [v]).weaken fun _ h => h v (mem_singleton_self v)
      cases op with
      | eq => exact hmatch
      | ne => exact hmatch.bind fun c h => .pure h
      | like => exact contains_read def_ f (.inl rfl) v
      | notLike => exact (contains_read def_ f (.inr rfl) v).bind fun c h => .pure h
      | lt | le | gt | ge => exact ordered_read f (by decide) v

theorem in_read (f : Field) (v : Value) (vs : List Value) (not_ : Bool) : Returns (Compiler.in_ u env f (v :: vs) not_) fun _ =>
    ∀ p ∈ (Expr.in_ f v vs not_).asked u, Read u env p.2 := by
  unfold Compiler.in_
  refine found_read (p := fun def_ => ∀ w ∈ v :: vs, Asks def_ .eq w = true → Read u env w)
    (fun def_ hf h p hp => ?_) fun def_ => ?_
  · rw [Expr.asked, hf] at hp
    obtain ⟨w, hw, rfl⟩ := mem_map.1 hp
    obtain ⟨hw, hasks⟩ := mem_filter.1 hw
    exact h w hw hasks
  · split
    · exact .fail
    · exact (match_read def_ f (v :: vs)).bind fun c h => .pure h

theorem expr_read : ∀ e : Expr, Returns (Compiler.expr u env e) fun _ => ∀ p ∈ e.asked u, Read u env p.2
  | .and l r | .or l r => by
    unfold Compiler.expr
    refine (expr_read l).bind fun c hl => (expr_read r).bind fun d hr => .pure fun p hp => ?_
    exact (mem_append.1 hp).elim (hl p) (hr p)
  | .not e => by
    unfold Compiler.expr
    exact (expr_read e).bind fun c h => .pure h
  | .compare f op v => by
    unfold Compiler.expr
    exact compare_read f op v
  | .in_ f v vs not_ => by
    unfold Compiler.expr
    exact in_read f v vs not_
  | .empty f not_ => fun _ _ _ _ p hp => by cases hp

end

/-! ## Queries -/

def Query.asked (u : Tables) (q : Query) : List (FieldDef × Value) :=
  match q.where_ with
  | some e => e.asked u
  | none => []

structure DatesRead (u : Tables) (env : Env) (q : Query) (compiled : Compiled) : Prop where
  casts : ∀ c, compiled.where_ = some c → ∀ n ∈ c.casts, ∃ t d, compiled.args[n]? = some (textArg t) ∧ readDate t = some d
  moments : ∀ p ∈ q.asked u, ∀ w ∈ p.2.durations, moment u env w = .ok (env.now + countOf w.1 * unitOf w.1)

section
variable {u : Tables} {env : Env}

theorem casts_read {final : List Arg} {c : Cond} {days : List Int} (h : CastsDays final c days) :
    (∀ n ∈ c.casts, ∃ t d, final[n]? = some (textArg t) ∧ readDate t = some d) ↔ ∀ d ∈ days, InEra d := by
  have hread : ∀ d, (∃ t d', some (textArg (dateText d)) = some (textArg t) ∧ readDate t = some d') ↔ InEra d := fun d => by
    constructor
    · rintro ⟨t, d', ht, hread⟩
      simp only [textArg, Option.some_inj, Sql.Bound.one.injEq, Scalar.text.injEq] at ht
      rw [← ht, readDate_dateText] at hread
      by_contra hera
      rw [if_neg hera] at hread
      cases hread
    · exact fun hera => ⟨dateText d, d, rfl, by rw [readDate_dateText, if_pos hera]⟩
  have hmap : ∀ P : Option Arg → Prop, (∀ n ∈ c.casts, P final[n]?) ↔ ∀ d ∈ days, P (some (textArg (dateText d))) := fun P => by
    rw [← forall_mem_map (l := c.casts), ← forall_mem_map (l := days), h]
  rw [hmap fun a => ∃ t d, a = some (textArg t) ∧ readDate t = some d]
  exact forall₂_congr fun d _ => hread d

theorem moments_exact {asked : List (FieldDef × Value)} (h : ∀ p ∈ asked, Read u env p.2) :
    (∀ p ∈ asked, ∀ w ∈ p.2.durations, moment u env w = .ok (env.now + countOf w.1 * unitOf w.1)) ↔
      ∀ p ∈ asked, ∀ w ∈ p.2.durations, Fits w.1 := by
  refine forall₂_congr fun p hp => forall₂_congr fun w hw => ?_
  obtain ⟨r, hr⟩ := h p hp
  obtain ⟨t, ht⟩ := moment_read hr w hw
  rw [← moment_exact ht, ht]
  simp

theorem compile_parts {q : Query} {compiled : Compiled} (h : q.compile u env = .ok compiled) :
    (q.where_ = none ∧ compiled.where_ = none) ∨
      ∃ e c, q.where_ = some e ∧ compiled.where_ = some c ∧ Compiler.expr u env e [] = .ok (c, compiled.args) := by
  unfold Query.compile at h
  cases hw : q.where_ with
  | none =>
    rw [hw] at h
    cases hq : q.order.mapM (orderKey u) with
    | error => simp only [hq] at h; cases h
    | ok => simp only [hq] at h; cases h; exact .inl ⟨rfl, rfl⟩
  | some e =>
    rw [hw] at h
    cases he : Compiler.expr u env e [] with
    | error => simp only [StateT.run, he] at h; cases h
    | ok r =>
      cases hq : q.order.mapM (orderKey u) with
      | error => simp only [StateT.run, he, hq] at h; cases h
      | ok =>
        simp only [StateT.run, he, hq] at h
        cases h
        exact .inr ⟨e, r.1, rfl, rfl, he⟩

/-- **When a compiled query does not fail on a date**: when its durations fit in 64 bits of nanoseconds, and every value it
compares by day names one in year 1 or later. -/
theorem compiled_dates_read (u : Tables) (env : Env) {q : Query} {compiled : Compiled} (h : q.compile u env = .ok compiled) :
    DatesRead u env q compiled ↔
      (∀ p ∈ q.asked u, ∀ w ∈ p.2.durations, Fits w.1) ∧ ∀ d ∈ daysOf u env (q.asked u), InEra d := by
  rcases compile_parts h with ⟨hwhere, hnone⟩ | ⟨e, c, hwhere, hsome, he⟩
  · have hasked : q.asked u = [] := by rw [Query.asked, hwhere]
    rw [hasked]
    refine ⟨fun _ => ⟨by simp, by simp [daysOf]⟩, fun _ => ⟨fun c hc => ?_, fun p hp => ?_⟩⟩
    · rw [hnone] at hc
      cases hc
    · rw [hasked] at hp
      cases hp
  · have hasked : q.asked u = e.asked u := by rw [Query.asked, hwhere]
    obtain ⟨-, hcasts⟩ := expr_casts e [] c compiled.args he
    have hread := expr_read e [] c compiled.args he
    rw [hasked, ← moments_exact hread, ← casts_read (hcasts compiled.args (prefix_refl _))]
    constructor
    · exact fun hdates => ⟨fun p hp => hdates.moments p (hasked ▸ hp), hdates.casts c hsome⟩
    · rintro ⟨hmoments, hdays⟩
      refine ⟨fun c' hc' => ?_, fun p hp => hmoments p (hasked ▸ hp)⟩
      rw [hsome, Option.some_inj] at hc'
      exact hc' ▸ hdays

def dueField : Field := ⟨str "due", false, 0⟩

def dueCompiled (op : Op) (day_ : String) : Compiled where
  where_ := some (.paren (.cmp (.col (str "i.due_date")) op.text (.fn [] (.param 0) (str "::date"))))
  args := [textArg (str day_)]
  order := []

def yearZero : Query := ⟨some (.compare dueField .eq ⟨.date, str "0000-01-01", 6, none⟩), []⟩

theorem yearZero_compiles : yearZero.compile Tables.ascii ⟨0, 0, Zone.utc⟩ = .ok (dueCompiled .eq "0000-01-01") := by rfl

/-- **The year 0 compiles, and is no date to the database.** -/
theorem yearZero_fails : ¬ ∀ (u : Tables) (env : Env) (q : Query) (compiled : Compiled), q.compile u env = .ok compiled →
    DatesRead u env q compiled := by
  intro h
  obtain ⟨t, d, ht, hread⟩ := (h _ _ _ _ yearZero_compiles).casts _ rfl 0 (by decide)
  cases ht
  have hnone : readDate (str "0000-01-01") = none := by decide
  rw [hnone] at hread
  cases hread

def sinceLastWeek : Query := ⟨some (.compare dueField .ge ⟨.function, str "startOfDay", 7, some (str "-7d", 18)⟩), []⟩

theorem sinceLastWeek_compiles : sinceLastWeek.compile Tables.ascii ⟨0, 739862 * Go.day, Zone.utc⟩ =
    .ok (dueCompiled .ge "2026-08-28") := by rfl

theorem sinceLastWeek_reads :
    DatesRead Tables.ascii ⟨0, 739862 * Go.day, Zone.utc⟩ sinceLastWeek (dueCompiled .ge "2026-08-28") :=
  (compiled_dates_read Tables.ascii ⟨0, 739862 * Go.day, Zone.utc⟩ sinceLastWeek_compiles).2 ⟨by decide, by decide⟩

end

end Nql
end Armature
