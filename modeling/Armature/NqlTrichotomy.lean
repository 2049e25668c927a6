import Armature.NqlShape
import Armature.NqlStored
/-!
# NqlTrichotomy — what a comparison with a date selects (`nql/compile.go`, `nql/dates.go`)

A day named without a time is compared by two instants, its midnight and that midnight a day later on the clock.  These are the
first instants of the day and of the next where the zone's clock shows both midnights once; where it skips one, or shows it
twice, they need not be, and the comparison is with a range that is not the day.  A date column is compared with a day that
the database has to read, and it reads none of a year before the first (`due_comparisons`).
-/
namespace Armature
namespace Nql

open Go (Text Tables Zone day second minute dayOfCivil)
open Sql (Cond within)

/-! ## Comparisons compile -/

def Compiles {α : Type} (m : C α) : Prop := ∀ args, ∃ x args', m args = .ok (x, args')

section
variable {α β : Type}

theorem Compiles.pure (x : α) : Compiles (pure x : C α) := fun args => ⟨x, args, rfl⟩

theorem Compiles.arg (v : Arg) : Compiles (Compiler.bind v) := fun args => ⟨args.length, args ++ [v], rfl⟩

theorem Compiles.bind {m : C α} {k : α → C β} (h : Compiles m) (hk : ∀ x, Compiles (k x)) : Compiles (m >>= k) := fun args => by
  obtain ⟨x, mid, hx⟩ := h args
  obtain ⟨y, args', hy⟩ := hk x mid
  refine ⟨y, args', ?_⟩
  change (m args >>= fun p => k p.1 p.2) = _
  rw [hx]
  exact hy

theorem Compiles.lift {r : P α} {x : α} {k : α → C β} (hr : r = .ok x) (h : Compiles (k x)) :
    Compiles ((liftM r : C α) >>= k) := by
  subst hr
  exact h

theorem Compiles.one {f : α → C β} {v : α} {k : List β → C Cond} (h : Compiles (f v)) (hk : ∀ xs, Compiles (k xs)) :
    Compiles ([v].mapM f >>= k) := by
  rw [List.mapM_cons, List.mapM_nil]
  exact (h.bind fun x => (Compiles.pure []).bind fun xs => Compiles.pure (x :: xs)).bind hk

end

def FieldDef.Timed (def_ : FieldDef) : Prop := def_.kind = .timestamp ∨ def_.kind = .date ∨ def_.kind = .custom

section
variable {u : Tables} {env : Env} {f : Field} {def_ : FieldDef} {v : Value} {at_ : Int} {wholeDay : Bool}

theorem instant_kind (hv : instant u env v = .ok (at_, wholeDay)) : v.kind = .date ∨ v.kind = .duration ∨ v.kind = .function := by
  cases hk : v.kind with
  | date | duration | function => simp
  | word | string | number =>
    simp only [instant, hk] at hv
    cases hv

variable {op : Op}

theorem custom_compiles (hv : instant u env v = .ok (at_, wholeDay)) (hop : op ≠ .like) :
    Compiles (Compiler.custom u env def_ op v) := by
  have hkind := instant_kind hv
  have hnumber : v.kind ≠ .number := by rintro hn; rw [hn] at hkind; simp at hkind
  have htest : Compiles (Compiler.customTest u env op v) := by
    unfold Compiler.customTest
    rw [if_neg hop, if_neg hnumber, if_pos hkind]
    exact .lift hv ((Compiles.arg _).bind fun n => .pure _)
  exact htest.bind fun test => (Compiles.arg _).bind fun name => .pure _

theorem orderedInstant_compiles (column : Sql.Term) (op : Op) :
    Compiles (Compiler.orderedInstant env column op at_ wholeDay) := by
  unfold Compiler.orderedInstant
  split
  · exact (Compiles.arg _).bind fun n => .pure _
  · dsimp only
    split
    · exact (Compiles.arg _).bind fun n => .pure _
    · exact (Compiles.arg _).bind fun n => .pure _
    · exact (Compiles.arg _).bind fun n => .pure _
    · exact (Compiles.arg _).bind fun n => .pure _
    · exact (Compiles.arg _).bind fun n => (Compiles.arg _).bind fun m => .pure _

theorem ordered_compiles (hk : def_.Timed) (hv : instant u env v = .ok (at_, wholeDay)) (hop : op ≠ .like) :
    Compiles (Compiler.ordered u env def_ f op v) := by
  unfold Compiler.ordered
  rcases hk with hk | hk | hk
  · simp only [hk]
    exact .lift hv (orderedInstant_compiles _ op)
  · simp only [hk]
    exact .lift hv ((Compiles.arg _).bind fun n => .pure _)
  · simp only [hk]
    exact custom_compiles hv hop

theorem match_compiles (hk : def_.Timed) (hv : instant u env v = .ok (at_, wholeDay)) :
    Compiles (Compiler.match_ u env def_ f [v]) := by
  unfold Compiler.match_
  rcases hk with hk | hk | hk
  · simp only [hk]
    exact .one (ordered_compiles (.inl hk) hv (by decide)) fun xs => .pure _
  · simp only [hk]
    exact .one (ordered_compiles (.inr (.inl hk)) hv (by decide)) fun xs => .pure _
  · simp only [hk]
    exact .one (custom_compiles hv (by decide)) fun xs => .pure _

theorem mem_orders : op ∈ orders ↔ op = .eq ∨ op = .lt ∨ op = .le ∨ op = .gt ∨ op = .ge := by
  simp [orders]

theorem compare_compiles (hf : lookup u f = .ok def_) (hk : def_.Timed) (hv : instant u env v = .ok (at_, wholeDay))
    (hop : op ∈ orders) : Compiles (Compiler.expr u env (.compare f op v)) := by
  have hallows : allows def_.kind op.text = true := by
    rcases hk with hk | hk | hk <;> rcases mem_orders.1 hop with rfl | rfl | rfl | rfl | rfl <;> rw [hk] <;> decide
  unfold Compiler.expr Compiler.compare
  refine .lift hf ?_
  rw [hallows, Bool.not_true, if_neg (by decide)]
  rcases mem_orders.1 hop with rfl | rfl | rfl | rfl | rfl
  · exact match_compiles hk hv
  all_goals exact ordered_compiles hk hv (by decide)

/-! ## What they select -/

variable {D : Type} {db : Store D} {instantOf dateOf : Int → D} {s : Row D}

def Chosen (db : Store D) (u : Tables) (env : Env) (f : Field) (v : Value) (s : Row D) (op : Op) : Prop :=
  ∃ c args, Compiler.expr u env (.compare f op v) [] = .ok (c, args) ∧ Selected db c args s

theorem chosen_iff (hf : lookup u f = .ok def_) (hk : def_.Timed) (hv : instant u env v = .ok (at_, wholeDay))
    (hop : op ∈ orders) : Chosen db u env f v s op ↔ Ordered db u env def_ op v s := by
  have hholds : (Expr.compare f op v).Holds db u env s ↔ Ordered db u env def_ op v s := by
    simp only [Expr.Holds, OfField, hf]
    rcases mem_orders.1 hop with rfl | rfl | rfl | rfl | rfl
    · rcases hk with hk | hk | hk <;> simp [Matches, Ordered, hk]
    all_goals exact Iff.rfl
  obtain ⟨c, args, hc⟩ := compare_compiles hf hk hv hop []
  rw [← hholds]
  constructor
  · rintro ⟨c', args', hc', hsel⟩
    exact (selected_iff hc' s).1 hsel
  · exact fun h => ⟨c, args, hc, (selected_iff hc s).2 h⟩

def HasValue (db : Store D) (def_ : FieldDef) (y : D) (s : Row D) : Prop :=
  match def_.kind with
  | .custom => (∃ r ∈ db.rows Compiler.fieldRows, IsField db def_ (within s r)) ∧
      ∀ r ∈ db.rows Compiler.fieldRows, IsField db def_ (within s r) → kindCast db "date" "date" (within s r) = some y
  | _ => s def_.column = some y

theorem ordered_day (hdb : HasTimes db instantOf dateOf) (hk : def_.kind = .date ∨ def_.kind = .custom)
    (hv : instant u env v = .ok (at_, wholeDay)) (hop : op ∈ orders) {x : Int} (hs : HasValue db def_ (dateOf x) s) :
    Ordered db u env def_ op v s ↔ InEra (env.location.dayOf at_) ∧ op.Orders x (env.location.dayOf at_) := by
  have hday := compares_day hdb hop x (env.location.dayOf at_)
  rcases hk with hk | hk
  · simp only [HasValue, hk] at hs
    simp only [Ordered, hk, hs]
    exact (instant_unique hv).trans hday
  · have hkind := instant_kind hv
    have hnumber : v.kind ≠ .number := by rintro hn; rw [hn] at hkind; simp at hkind
    have hlike : op ≠ .like := by rintro rfl; simp [orders] at hop
    simp only [HasValue, hk] at hs
    obtain ⟨⟨r, hr, hfield⟩, hall⟩ := hs
    have htest : ∀ r ∈ db.rows Compiler.fieldRows, IsField db def_ (within s r) →
        (CustomTest db u env op v (within s r) ↔ InEra (env.location.dayOf at_) ∧ op.Orders x (env.location.dayOf at_)) := by
      intro r hr hfield
      simp only [CustomTest, hlike, hnumber, hkind, if_false, if_true, hall r hr hfield]
      exact (instant_unique hv).trans hday
    simp only [Ordered, hk, HasCustom, AnyRow]
    constructor
    · rintro ⟨r, hr, hfield, h⟩
      exact (htest r hr hfield).1 h
    · exact fun h => ⟨r, hr, hfield, (htest r hr hfield).2 h⟩

def Op.OrdersDay (x at_ next : Int) : Op → Prop
  | .eq => at_ ≤ x ∧ x < next
  | .lt => x < at_
  | .le => x < next
  | .gt => next ≤ x
  | .ge => at_ ≤ x
  | _ => False

theorem ordered_instant (hdb : HasTimes db instantOf dateOf) (hk : def_.kind = .timestamp)
    (hv : instant u env v = .ok (at_, wholeDay)) (hop : op ∈ orders) {x : Int} (hs : HasValue db def_ (instantOf x) s) :
    Ordered db u env def_ op v s ↔
      if wholeDay then op.OrdersDay x at_ (env.location.addDate at_ 0 0 1) else op.Orders x at_ := by
  simp only [HasValue, hk] at hs
  simp only [Ordered, hk, hs]
  rw [instant_unique hv]
  have hge := fun t => compares_instant hdb (show Op.ge ∈ orders by decide) x t
  have hlt := fun t => compares_instant hdb (show Op.lt ∈ orders by decide) x t
  simp only [Op.text, Op.Orders] at hge hlt
  cases wholeDay with
  | false => exact compares_instant hdb hop x at_
  | true => rcases mem_orders.1 hop with rfl | rfl | rfl | rfl | rfl <;> simp [InTime, Op.OrdersDay, str, hge, hlt]

end

/-! ## One of three -/

/-- Exactly one of `<`, `=` and `>` selects, and `<=` and `>=` are with `=` what `<` and `>` are without. -/
structure Trichotomy (chosen : Op → Prop) : Prop where
  one : chosen .lt ∧ ¬ chosen .eq ∧ ¬ chosen .gt ∨ ¬ chosen .lt ∧ chosen .eq ∧ ¬ chosen .gt ∨
    ¬ chosen .lt ∧ ¬ chosen .eq ∧ chosen .gt
  le : chosen .le ↔ chosen .lt ∨ chosen .eq
  ge : chosen .ge ↔ chosen .gt ∨ chosen .eq

theorem Trichotomy.congr {chosen chosen' : Op → Prop} (h : ∀ op ∈ orders, chosen op ↔ chosen' op) :
    Trichotomy chosen ↔ Trichotomy chosen' := by
  have heq := h .eq (by decide)
  have hlt := h .lt (by decide)
  have hle := h .le (by decide)
  have hgt := h .gt (by decide)
  have hge := h .ge (by decide)
  constructor
  · rintro ⟨h1, h2, h3⟩
    exact ⟨by rwa [heq, hlt, hgt] at h1, by rwa [hle, hlt, heq] at h2, by rwa [hge, hgt, heq] at h3⟩
  · rintro ⟨h1, h2, h3⟩
    exact ⟨by rwa [heq, hlt, hgt], by rwa [hle, hlt, heq], by rwa [hge, hgt, heq]⟩

theorem trichotomy_orders (x a : Int) : Trichotomy fun op => op.Orders x a where
  one := by simp only [Op.Orders]; omega
  le := by simp only [Op.Orders]; omega
  ge := by simp only [Op.Orders]; omega

variable {a d t : Int} {z : Zone}

theorem trichotomy_ordersDay {x b : Int} (h : a ≤ b) : Trichotomy fun op => op.OrdersDay x a b where
  one := by simp only [Op.OrdersDay]; omega
  le := by simp only [Op.OrdersDay]; omega
  ge := by simp only [Op.OrdersDay]; omega

theorem trichotomy_and {p : Prop} {x : Int} : (Trichotomy fun op => p ∧ op.Orders x a) ↔ p := by
  constructor
  · rintro ⟨h, -, -⟩
    tauto
  · intro hp
    simpa [hp] using trichotomy_orders x a

/-! ## A whole day -/

def Begins (z : Zone) (d t : Int) : Prop := ∀ x, t ≤ x ↔ d ≤ z.dayOf x

def DayKept (z : Zone) (d : Int) : Prop :=
  Begins z d (z.midnight d) ∧ Begins z (d + 1) (z.addDate (z.midnight d) 0 0 1)

def Value.dayNamed (v : Value) : Option Int := if v.kind = .date ∧ namesTime v.text = false then literalDay v.text else none

structure OnDay (y d : Int) (chosen : Op → Prop) : Prop where
  lt : chosen .lt ↔ y < d
  eq : chosen .eq ↔ y = d
  gt : chosen .gt ↔ d < y

theorem onDay_iff {at_ next : Int} :
    (∀ x, OnDay (z.dayOf x) d fun op => op.OrdersDay x at_ next) ↔ Begins z d at_ ∧ Begins z (d + 1) next := by
  constructor
  · intro h
    refine ⟨fun x => ?_, fun x => ?_⟩
    · have hlt := (h x).lt
      simp only [Op.OrdersDay] at hlt
      omega
    · have hgt := (h x).gt
      simp only [Op.OrdersDay] at hgt
      omega
  · rintro ⟨hat, hnext⟩ x
    have h1 := hat x
    have h2 := hnext x
    exact ⟨by simp only [Op.OrdersDay]; omega, by simp only [Op.OrdersDay]; omega, by simp only [Op.OrdersDay]; omega⟩

theorem Begins.le {b : Int} (ha : Begins z d a) (hb : Begins z (d + 1) b) : a ≤ b :=
  (ha b).2 (by have := (hb b).1 (Int.le_refl b); omega)

theorem shaped_length : ∀ {p w : Text}, shaped p w = true → w.length = p.length
  | [], [], _ => rfl
  | p :: ps, c :: cs, h => by
    rw [shaped, Bool.and_eq_true] at h
    rw [List.length_cons, List.length_cons, shaped_length h.2]

theorem instant_midnight {u : Tables} {env : Env} {v : Value} (hv : instant u env v = .ok (t, true)) :
    ∃ d, v.dayNamed = some d ∧ t = env.location.midnight d := by
  have hwhole := instant_wholeDay hv
  obtain ⟨hk, htime⟩ : v.kind = .date ∧ namesTime v.text = false := by simpa using hwhole.symm
  simp only [instant, hk] at hv
  split at hv
  · cases hv
  · cases hv
  · rename_i t' _ _ hp
    cases hv
    unfold parseInLocation at hp
    split at hp
    · rename_i hshaped
      have hlen : v.text.length = 10 := shaped_length hshaped
      have hclock : literalClock v.text = some 0 := by
        have hdrop : ∀ n, 10 ≤ n → v.text.drop n = [] := fun n hn => List.drop_of_length_le (by omega)
        rw [literalClock, hdrop 11 (by decide), hdrop 14 (by decide), hdrop 17 (by decide)]
        rfl
      rw [hclock] at hp
      cases hd : literalDay v.text with
      | none => rw [hd] at hp; cases hp
      | some d =>
        rw [hd] at hp
        cases hp
        exact ⟨d, by rw [Value.dayNamed, if_pos ⟨hk, htime⟩, hd], by rw [Int.add_zero]; rfl⟩
    · cases hp
  · cases hv

theorem wholeDay_of_dayNamed {u : Tables} {env : Env} {v : Value} {wholeDay : Bool}
    (hv : instant u env v = .ok (t, wholeDay)) (hd : v.dayNamed = some d) : wholeDay = true := by
  unfold Value.dayNamed at hd
  split at hd
  · rename_i h
    rw [instant_wholeDay hv, h.1, h.2]
    rfl
  · cases hd

/-! ## The comparisons -/

/-- **When date comparisons are a trichotomy, with a day literal meaning the whole day.**  Against an instant: when the day the
literal names, if it names one, is kept.  Against a day: when the day the value names is one the database has. -/
theorem date_comparisons {D : Type} {db : Store D} {instantOf dateOf : Int → D} (hdb : HasTimes db instantOf dateOf) (u : Tables)
    (env : Env) {f : Field} {def_ : FieldDef} {v : Value} {at_ : Int} {wholeDay : Bool} (hf : lookup u f = .ok def_)
    (hv : instant u env v = .ok (at_, wholeDay)) :
    (def_.kind = .timestamp →
      ((∀ x s, HasValue db def_ (instantOf x) s → Trichotomy (Chosen db u env f v s) ∧
          ∀ d, v.dayNamed = some d → OnDay (env.location.dayOf x) d (Chosen db u env f v s)) ↔
        ∀ d, v.dayNamed = some d → DayKept env.location d)) ∧
    (def_.kind = .date ∨ def_.kind = .custom →
      ∀ x s, HasValue db def_ (dateOf x) s →
        (Trichotomy (Chosen db u env f v s) ↔ InEra (env.location.dayOf at_))) := by
  refine ⟨fun hk => ?_, fun hk x s hs => ?_⟩
  · have hchosen : ∀ x s, HasValue db def_ (instantOf x) s → ∀ op ∈ orders, Chosen db u env f v s op ↔
        if wholeDay then op.OrdersDay x at_ (env.location.addDate at_ 0 0 1) else op.Orders x at_ :=
      fun x s hs op hop => (chosen_iff hf (.inl hk) hv hop).trans (ordered_instant hdb hk hv hop hs)
    cases wholeDay with
    | false =>
      have hnone : ∀ d, v.dayNamed ≠ some d := fun d hd => Bool.noConfusion (wholeDay_of_dayNamed hv hd)
      refine ⟨fun _ d hd => absurd hd (hnone d), fun _ x s hs => ⟨?_, fun d hd => absurd hd (hnone d)⟩⟩
      exact (Trichotomy.congr (hchosen x s hs)).2 (trichotomy_orders x at_)
    | true =>
      obtain ⟨d, hd, rfl⟩ := instant_midnight hv
      have hone : ∀ {P : Int → Prop}, (∀ d', v.dayNamed = some d' → P d') ↔ P d := by
        intro P
        rw [hd]
        simp
      rw [hone, DayKept, ← onDay_iff]
      constructor
      · intro h x
        obtain ⟨-, hon⟩ := h x (fun _ => some (instantOf x)) (by simp [HasValue, hk])
        have hsel := hchosen x (fun _ => some (instantOf x)) (by simp [HasValue, hk])
        obtain ⟨hlt, heq, hgt⟩ := hon d hd
        exact ⟨(hsel .lt (by decide)).symm.trans hlt, (hsel .eq (by decide)).symm.trans heq,
          (hsel .gt (by decide)).symm.trans hgt⟩
      · intro h x s hs
        have hsel := hchosen x s hs
        obtain ⟨hbegin, hend⟩ := onDay_iff.1 h
        refine ⟨(Trichotomy.congr hsel).2 (trichotomy_ordersDay (hbegin.le hend)), hone.2 ?_⟩
        obtain ⟨hlt, heq, hgt⟩ := h x
        exact ⟨(hsel .lt (by decide)).trans hlt, (hsel .eq (by decide)).trans heq, (hsel .gt (by decide)).trans hgt⟩
  · have htimed : def_.Timed := .inr hk
    rw [Trichotomy.congr fun op hop => (chosen_iff hf htimed hv hop).trans (ordered_day hdb hk hv hop hs)]
    exact trichotomy_and

theorem dayKept_of_shown {t' : Int} (ht : Begins z d t) (hread : z.read t = d * day)
    (honce : ∀ x, z.read x = d * day → x = t) (ht' : Begins z (d + 1) t') (hread' : z.read t' = (d + 1) * day)
    (honce' : ∀ x, z.read x = (d + 1) * day → x = t') : DayKept z d := by
  have hmidnight : z.midnight d = t := honce _ (by
    rw [Zone.midnight, ← hread]
    exact z.date_shown t)
  have hlater : d * day + 1 * day = z.read t' := by rw [hread', Int.add_mul]
  have hnext : z.addDate t 0 0 1 = t' := by
    rw [Zone.addDate_days, hread, hlater]
    exact honce' _ ((z.date_shown t').trans hread')
  exact ⟨hmidnight ▸ ht, by rw [hmidnight, hnext]; exact ht'⟩

theorem dayKept_of_fixed (h : z.Fixed) (d : Int) : DayKept z d := by
  obtain ⟨o, ho⟩ := h
  have hread : ∀ x, z.read x = x + o := fun x => by rw [Zone.read, ho]
  have hbegins : ∀ d, Begins z d (d * day - o) := fun d x => by
    rw [Zone.dayOf, hread, Int.le_ediv_iff_mul_le Go.day_pos]
    omega
  have honce : ∀ d x, z.read x = d * day → x = d * day - o := fun d x hx => by
    rw [hread] at hx
    omega
  exact dayKept_of_shown (hbegins d) (by rw [hread]; omega) (honce d) (hbegins (d + 1)) (by rw [hread]; omega) (honce (d + 1))

/-! ## A day the database does not have -/

def yearNought : Value := ⟨.date, str "0000-12-31", 0, none⟩

def dueDef : FieldDef := { name := str "due", kind := .date, column := str "i.due_date", order := str "i.due_date" }

theorem due_lookup : lookup Tables.ascii ⟨str "due", false, 0⟩ = .ok dueDef := by rfl

/-- **A day of the year before the first is compared with nothing**: no due date is before it, on it or after it. -/
theorem due_comparisons : ¬ ∀ (D : Type) (db : Store D) (instantOf dateOf : Int → D), HasTimes db instantOf dateOf →
    ∀ (u : Tables) (env : Env) (f : Field) (def_ : FieldDef) (v : Value) (at_ : Int) (wholeDay : Bool), lookup u f = .ok def_ →
      instant u env v = .ok (at_, wholeDay) → def_.kind = .date → ∀ x s, HasValue db def_ (dateOf x) s →
        Trichotomy (Chosen db u env f v s) := by
  intro h
  have hv : instant Tables.ascii ⟨0, 0, Zone.utc⟩ yearNought = .ok (-1 * day, true) := by rfl
  have hs : HasValue calendar dueDef (.date 738408) (fun _ => some (.date 738408)) := rfl
  have hsplit := h Stored calendar .instant .date calendar_times Tables.ascii ⟨0, 0, Zone.utc⟩ _ dueDef yearNought _ true
    due_lookup hv rfl 738408 _ hs
  rw [Trichotomy.congr fun op hop => (chosen_iff due_lookup (.inr (.inl rfl)) hv hop).trans
    (ordered_day calendar_times (.inl rfl) hv hop hs)] at hsplit
  exact absurd (trichotomy_and.1 hsplit) (by decide)

/-! ## A day without changes of the clock -/

def createdField : Field := ⟨str "created", false, 0⟩

def createdDef : FieldDef :=
  { name := str "created", kind := .timestamp, column := str "i.created_at", order := str "i.created_at" }

theorem created_lookup : lookup Tables.ascii createdField = .ok createdDef := by rfl

def springDay : Value := ⟨.date, str "2022-09-11", 0, none⟩

theorem springDay_utc : instant Tables.ascii ⟨0, 0, Zone.utc⟩ springDay = .ok (738408 * day, true) := by rfl

theorem date_comparisons_utc :
    Trichotomy (Chosen calendar Tables.ascii ⟨0, 0, Zone.utc⟩ createdField springDay fun _ => some (.instant 0)) ∧
      ∀ d, springDay.dayNamed = some d → OnDay (Zone.utc.dayOf 0) d
        (Chosen calendar Tables.ascii ⟨0, 0, Zone.utc⟩ createdField springDay fun _ => some (.instant 0)) :=
  ((date_comparisons calendar_times Tables.ascii ⟨0, 0, Zone.utc⟩ created_lookup springDay_utc).1 rfl).2
    (fun d _ => dayKept_of_fixed ⟨0, fun _ => rfl⟩ d) 0 (fun _ => some (.instant 0)) rfl

end Nql
end Armature
