import Armature.NqlShape
/-!
# NqlPlaceholders — every argument has its place in the SQL

A step of the compiler uses exactly the arguments it binds, and what it writes of its own is plain: no mark and nothing
that could run on into a number (`Fills`).  So the marks of the text number the arguments, the renumbered text has one
placeholder for each, and no mark is left.
-/
namespace Armature
namespace Nql

open List
open Go (Text Tables toUpper toLower equalFold trimSpace isAsciiDigit itoa atoi)
open Sql (Term Cond Bound Piece render)

/-! ## Reading numbers back out of a text -/

def number? (ds : Text) : List Nat := if ds = [] then [] else [atoi ds]

def numbersAfter (mark : Char) : Option Text → Text → List Nat
  | none, [] => []
  | some ds, [] => number? ds
  | none, c :: s => if c = mark then numbersAfter mark (some []) s else numbersAfter mark none s
  | some ds, c :: s =>
    if isAsciiDigit c then numbersAfter mark (some (ds ++ [c])) s
    else number? ds ++ if c = mark then numbersAfter mark (some []) s else numbersAfter mark none s

def Starts (s : Text) : Prop := ∀ c ∈ s.head?, isAsciiDigit c = false

def noNumber : Text → Bool
  | c :: s => !(c == '$' && s.head?.any isAsciiDigit) && noNumber s
  | [] => true

def plain (t : Text) : Bool := !t.head?.any isAsciiDigit && !t.contains '?' && noNumber t

variable {s : Text} {ps : List Piece} {env : Env} {q : Query} {k : Compiled}

attribute [local simp] renumber numbersAfter

theorem plain_starts {t : Text} (h : plain t = true) (hs : Starts s) : Starts (t ++ s) := by
  unfold plain at h
  cases t with
  | nil => exact hs
  | cons c t =>
    intro d hd
    cases hd
    simpa using (Bool.and_eq_true_iff.1 (Bool.and_eq_true_iff.1 h).1).1

theorem plain_unmarked {t : Text} (h : plain t = true) : '?' ∉ t := by
  unfold plain at h
  simpa using (Bool.and_eq_true_iff.1 (Bool.and_eq_true_iff.1 h).1).2

theorem renumber_flush (first : Nat) (ds : Text) (hs : Starts s) :
    renumber first (some ds) s = numbered first ds ++ renumber first none s := by
  cases s with
  | nil => rw [renumber, renumber, append_nil]
  | cons c s =>
    rw [renumber, renumber, if_neg (by rw [hs c rfl]; exact Bool.false_ne_true)]

theorem renumber_plain (first : Nat) (s : Text) : ∀ {t : Text}, '?' ∉ t →
    renumber first none (t ++ s) = t ++ renumber first none s
  | [], _ => rfl
  | c :: t, h => by
    have hc : c ≠ '?' := fun he => h (he ▸ mem_cons_self)
    rw [cons_append, renumber, if_neg hc, renumber_plain first s (fun ht => h (mem_cons_of_mem _ ht))]
    rfl

theorem renumber_digits (first : Nat) (s : Text) : ∀ {es ds : Text}, (∀ c ∈ es, isAsciiDigit c = true) →
    renumber first (some ds) (es ++ s) = renumber first (some (ds ++ es)) s
  | [], ds, _ => by rw [nil_append, append_nil]
  | c :: es, ds, h => by
    rw [cons_append, renumber, if_pos (h c mem_cons_self),
      renumber_digits first s (fun d hd => h d (mem_cons_of_mem _ hd)), append_assoc]
    rfl

theorem renumber_mark (first n : Nat) (hs : Starts s) :
    renumber first none ('?' :: itoa n ++ s) = '$' :: itoa (first + n) ++ renumber first none s := by
  rw [cons_append, renumber, if_pos rfl, renumber_digits first s (Go.itoa_digits n), nil_append,
    renumber_flush first _ hs]
  unfold numbered
  rw [if_neg (Go.itoa_ne_nil n), Go.atoi_itoa]

theorem numbersAfter_flush (mark : Char) (ds : Text) (hs : Starts s) :
    numbersAfter mark (some ds) s = number? ds ++ numbersAfter mark none s := by
  cases s with
  | nil => rw [numbersAfter, numbersAfter, append_nil]
  | cons c s => rw [numbersAfter, numbersAfter, if_neg (by rw [hs c rfl]; exact Bool.false_ne_true)]

theorem numbersAfter_digits (mark : Char) (s : Text) : ∀ {es ds : Text}, (∀ c ∈ es, isAsciiDigit c = true) →
    numbersAfter mark (some ds) (es ++ s) = numbersAfter mark (some (ds ++ es)) s
  | [], ds, _ => by rw [nil_append, append_nil]
  | c :: es, ds, h => by
    rw [cons_append, numbersAfter, if_pos (h c mem_cons_self),
      numbersAfter_digits mark s (fun d hd => h d (mem_cons_of_mem _ hd)), append_assoc]
    rfl

theorem numbersAfter_placeholder (n : Nat) (hs : Starts s) :
    numbersAfter '$' none ('$' :: itoa n ++ s) = n :: numbersAfter '$' none s := by
  rw [cons_append, numbersAfter, if_pos rfl, numbersAfter_digits '$' s (Go.itoa_digits n), nil_append,
    numbersAfter_flush '$' _ hs]
  unfold number?
  rw [if_neg (Go.itoa_ne_nil n), Go.atoi_itoa]
  rfl

theorem numbersAfter_plain {s : Text} (hs : Starts s) : ∀ {t : Text}, noNumber t = true →
    numbersAfter '$' none (t ++ s) = numbersAfter '$' none s
  | [], _ => rfl
  | c :: t, h => by
    rw [noNumber, Bool.and_eq_true] at h
    rw [cons_append, numbersAfter]
    by_cases hc : c = '$'
    · have hstart : Starts (t ++ s) := by
        cases t with
        | nil => exact hs
        | cons =>
          intro e he
          cases he
          simpa [hc] using h.1
      rw [if_pos hc, numbersAfter_flush '$' [] hstart, numbersAfter_plain hs h.2]
      rfl
    · rw [if_neg hc, numbersAfter_plain hs h.2]

/-! ## Texts of plain pieces -/

def argsOf (ps : List Piece) : List Nat :=
  ps.filterMap (fun
    | .arg n => some n
    | .lit _ => none)

theorem mem_argsOf {n : Nat} : n ∈ argsOf ps ↔ .arg n ∈ ps := by
  unfold argsOf
  rw [mem_filterMap]
  constructor
  · rintro ⟨p, hp, h⟩
    cases p with
    | lit => cases h
    | arg =>
      cases h
      exact hp
  · exact fun h => ⟨_, h, rfl⟩

def PlainPieces (ps : List Piece) : Prop := ∀ t, .lit t ∈ ps → plain t = true

theorem PlainPieces.tail {p : Piece} (h : PlainPieces (p :: ps)) : PlainPieces ps :=
  fun t ht => h t (mem_cons_of_mem _ ht)

theorem render_lit (write : Nat → Text) (t : Text) (ps : List Piece) :
    render write (.lit t :: ps) = t ++ render write ps := flatMap_cons

theorem render_arg (write : Nat → Text) (n : Nat) (ps : List Piece) :
    render write (.arg n :: ps) = write n ++ render write ps := flatMap_cons

theorem render_starts {mark : Char} (hm : isAsciiDigit mark = false) (k : Nat → Nat) : ∀ {ps : List Piece}, PlainPieces ps →
    Starts (render (fun n => mark :: itoa (k n)) ps)
  | [], _ => fun c h => by cases h
  | .lit t :: ps, h => plain_starts (h t mem_cons_self) (render_starts hm k h.tail)
  | .arg n :: ps, _ => fun c h => by
    cases h
    exact hm

theorem renumber_render (first : Nat) : ∀ {ps : List Piece}, PlainPieces ps →
    renumber first none (render (fun n => '?' :: itoa n) ps) = render (fun n => '$' :: itoa (first + n)) ps
  | [], _ => rfl
  | .lit t :: ps, h => by
    rw [render_lit, render_lit, renumber_plain first _ (plain_unmarked (h t mem_cons_self)), renumber_render first h.tail]
  | .arg n :: ps, h => by
    have hs : Starts (render (fun n => '?' :: itoa n) ps) := render_starts (by decide) id h.tail
    rw [render_arg, render_arg, renumber_mark first n hs, renumber_render first h.tail]

theorem numbersAfter_render (first : Nat) : ∀ {ps : List Piece}, PlainPieces ps →
    numbersAfter '$' none (render (fun n => '$' :: itoa (first + n)) ps) = (argsOf ps).map (first + ·)
  | [], _ => rfl
  | .lit t :: ps, h => by
    have hs : Starts (render (fun n => '$' :: itoa (first + n)) ps) := render_starts (by decide) (first + ·) h.tail
    have ht := h t mem_cons_self
    unfold plain at ht
    rw [render_lit, numbersAfter_plain hs (Bool.and_eq_true_iff.1 ht).2, numbersAfter_render first h.tail]
    rfl
  | .arg n :: ps, h => by
    have hs : Starts (render (fun n => '$' :: itoa (first + n)) ps) := render_starts (by decide) (first + ·) h.tail
    rw [render_arg, numbersAfter_placeholder _ hs, numbersAfter_render first h.tail]
    rfl

theorem render_unmarked (first : Nat) (h : PlainPieces ps) :
    '?' ∉ render (fun n => '$' :: itoa (first + n)) ps := by
  unfold render
  rw [mem_flatMap]
  rintro ⟨p, hp, hmem⟩
  cases p with
  | lit t => exact plain_unmarked (h t hp) hmem
  | arg =>
    rcases mem_cons.1 hmem with hd | hd
    · cases hd
    · exact absurd (Go.itoa_digits _ _ hd) (by decide)

theorem joints_plain : ∀ t ∈ Sql.joints, plain t = true := by decide

theorem plainPieces_of_names {c : Cond} (h : ∀ t ∈ c.names, plain t = true) : PlainPieces c.pieces := by
  intro t ht
  rcases Sql.Cond.lit_mem ht with hj | hn
  · exact joints_plain t hj
  · exact h t hn

/-! ## Steps that use what they bind -/

def Placed (lo hi : Nat) (c : Cond) : Prop :=
  (∀ n, n ∈ c.params ↔ lo ≤ n ∧ n < hi) ∧ ∀ t ∈ c.names, plain t = true

def PlacedAll (lo hi : Nat) (cs : List Cond) : Prop :=
  (∀ n, (∃ c ∈ cs, n ∈ c.params) ↔ lo ≤ n ∧ n < hi) ∧ ∀ c ∈ cs, ∀ t ∈ c.names, plain t = true

def Fills {α : Type} (m : C α) (Q : Nat → Nat → α → Prop) : Prop :=
  ∀ args x args', m args = .ok (x, args') → args.length ≤ args'.length ∧ Q args.length args'.length x

section
variable {α β : Type}

variable {Q : Nat → Nat → α → Prop} {m : C α}

theorem Fills.pure {x : α} (h : ∀ n, Q n n x) : Fills (pure x) Q := by
  intro args y args' hy
  cases hy
  exact ⟨Nat.le_refl _, h _⟩

theorem Fills.fail {pos : Nat} {msg : Text} : Fills (Compiler.fail pos msg) Q := by
  intro args y args' hy
  cases hy

theorem Fills.weaken {P : Nat → Nat → α → Prop} (h : Fills m P) (hPQ : ∀ lo hi x, P lo hi x → Q lo hi x) :
    Fills m Q := by
  intro args x args' hx
  exact ⟨(h args x args' hx).1, hPQ _ _ x (h args x args' hx).2⟩

theorem Fills.bind {k : α → C β} {P : Nat → Nat → α → Prop} {Q : Nat → Nat → β → Prop} (h : Fills m P)
    (hk : ∀ x, Fills (k x) (fun mid hi y => ∀ lo, lo ≤ mid → mid ≤ hi → P lo mid x → Q lo hi y)) : Fills (m >>= k) Q := by
  intro args y args' hy
  obtain ⟨x, mid, hx, hy⟩ := bind_ok hy
  obtain ⟨h1, hP⟩ := h args x mid hx
  obtain ⟨h2, hQ⟩ := hk x mid y args' hy
  exact ⟨Nat.le_trans h1 h2, hQ _ h1 h2 hP⟩

theorem Fills.map {f : α → β} {P : Nat → Nat → α → Prop} {Q : Nat → Nat → β → Prop} (h : Fills m P)
    (hf : ∀ lo hi x, P lo hi x → Q lo hi (f x)) : Fills (m >>= fun x => Pure.pure (f x)) Q :=
  h.bind fun x => .pure fun n lo _ _ hP => hf lo n x hP

theorem Fills.lift (r : P α) : Fills (liftM r : C α) (fun lo hi x => hi = lo ∧ r = .ok x) := by
  intro args x args' hx
  cases r with
  | error => cases hx
  | ok =>
    cases hx
    exact ⟨Nat.le_refl _, rfl, rfl⟩

theorem Fills.arg (v : Arg) : Fills (Compiler.bind v) (fun lo hi n => n = lo ∧ hi = lo + 1) := by
  intro args n args' hn
  cases hn
  simp

theorem PlacedAll.cons {lo mid hi : Nat} {c : Cond} {cs : List Cond} (hlo : lo ≤ mid) (hhi : mid ≤ hi)
    (h : Placed lo mid c) (hs : PlacedAll mid hi cs) : PlacedAll lo hi (c :: cs) := by
  refine ⟨fun n => ?_, fun d hd => ?_⟩
  · rw [exists_mem_cons_iff, h.1, hs.1]
    omega
  · rcases mem_cons.1 hd with rfl | hd
    · exact h.2
    · exact hs.2 d hd

theorem PlacedAll.nil (n : Nat) : PlacedAll n n [] :=
  ⟨fun m => ⟨fun h => by simp at h, fun h => by omega⟩, nofun⟩

theorem PlacedAll.append {lo mid hi : Nat} {cs ds : List Cond} (hlo : lo ≤ mid) (hhi : mid ≤ hi) (h : PlacedAll lo mid cs)
    (hs : PlacedAll mid hi ds) : PlacedAll lo hi (cs ++ ds) := by
  refine ⟨fun n => ?_, fun d hd => ?_⟩
  · have hor : (∃ c ∈ cs ++ ds, n ∈ c.params) ↔ (∃ c ∈ cs, n ∈ c.params) ∨ ∃ c ∈ ds, n ∈ c.params := by
      simp only [mem_append, or_and_right, exists_or]
    rw [hor, h.1, hs.1]
    omega
  · rcases mem_append.1 hd with hd | hd
    · exact h.2 d hd
    · exact hs.2 d hd

theorem Fills.mapM {f : α → C β} {R : Nat → Nat → β → Prop} {S : Nat → Nat → List β → Prop} (hnil : ∀ n, S n n [])
    (hcons : ∀ lo mid hi x xs, lo ≤ mid → mid ≤ hi → R lo mid x → S mid hi xs → S lo hi (x :: xs))
    (h : ∀ v, Fills (f v) R) : ∀ vs : List α, Fills (vs.mapM f) S
  | [] => .pure hnil
  | v :: vs => by
    rw [mapM_cons]
    refine (h v).bind fun _ => (Fills.mapM hnil hcons h vs).bind fun _ => .pure fun _ _ h1 _ hxs _ h3 _ hx => ?_
    exact hcons _ _ _ _ _ h3 h1 hx hxs

def Keeps (m : C α) : Prop := Fills m (fun lo hi _ => hi = lo)

theorem Keeps.mapM {f : α → C β} (h : ∀ v, Keeps (f v)) (vs : List α) : Keeps (vs.mapM f) :=
  Fills.mapM (fun _ => rfl) (fun _ _ _ _ _ _ _ h h' => h'.trans h) h vs

theorem Keeps.bind {k : α → C β} {Q : Nat → Nat → β → Prop} (h : Keeps m) (hk : ∀ x, Fills (k x) Q) :
    Fills (m >>= k) Q :=
  Fills.bind h fun x => (hk x).weaken fun _ _ _ hy _ _ _ hmid => hmid ▸ hy

theorem Keeps.lift (r : P α) : Keeps (liftM r : C α) := (Fills.lift r).weaken fun _ _ _ h => h.1

theorem placed_mapM {f : α → C Cond} (h : ∀ v, Fills (f v) Placed) (vs : List α) : Fills (vs.mapM f) PlacedAll :=
  Fills.mapM PlacedAll.nil (fun _ _ _ _ _ h1 h2 h3 h4 => .cons h1 h2 h3 h4) h vs

end

theorem orAll_params {n : Nat} : ∀ cs : List Cond, n ∈ (orAll cs).params ↔ ∃ c ∈ cs, n ∈ c.params
  | [] => by simp [orAll, Cond.params]
  | [c] => by simp [orAll]
  | c :: c' :: cs => by
    rw [orAll]
    · rw [Cond.params, mem_append, orAll_params (c' :: cs)]
      exact (exists_mem_cons_iff (fun c => n ∈ c.params) c (c' :: cs)).symm
    · exact cons_ne_nil c' cs

theorem orAll_names {t : Text} : ∀ cs : List Cond, t ∈ (orAll cs).names → ∃ c ∈ cs, t ∈ c.names
  | [], h => by simp [orAll, Cond.names] at h
  | [c], h => ⟨c, mem_cons_self, h⟩
  | c :: c' :: cs, h => by
    rw [orAll, Cond.names, mem_append] at h
    · rcases h with h | h
      · exact ⟨c, mem_cons_self, h⟩
      · obtain ⟨d, hd, ht⟩ := orAll_names (c' :: cs) h
        exact ⟨d, mem_cons_of_mem _ hd, ht⟩
    · exact cons_ne_nil c' cs

theorem anyOf_placed {lo hi : Nat} {cs : List Cond} (h : PlacedAll lo hi cs) : Placed lo hi (anyOf cs) := by
  have hparams : ∀ n, n ∈ (anyOf cs).params ↔ ∃ c ∈ cs, n ∈ c.params := by
    intro n
    unfold anyOf
    split
    · simp
    · exact orAll_params cs
  have hnames : ∀ t ∈ (anyOf cs).names, ∃ c ∈ cs, t ∈ c.names := by
    intro t ht
    unfold anyOf at ht
    split at ht
    · exact ⟨_, mem_singleton_self _, ht⟩
    · exact orAll_names cs ht
  refine ⟨fun n => (hparams n).trans (h.1 n), fun t ht => ?_⟩
  obtain ⟨c, hc, htc⟩ := hnames t ht
  exact h.2 c hc t htc

theorem bound_fills {v : Arg} {f : Nat → Cond} (hparams : ∀ n m, m ∈ (f n).params ↔ m = n)
    (hnames : ∀ n, ∀ t ∈ (f n).names, plain t = true) : Fills (Compiler.bind v >>= fun n => pure (f n)) Placed := by
  refine (Fills.arg v).map fun lo hi n hn => ⟨fun m => ?_, hnames n⟩
  rw [hparams]
  omega

/-! ## Leaves -/

section
variable {u : Tables} {env : Env}

structure PlainDef (d : FieldDef) : Prop where
  column : plain d.column = true
  table : plain d.table = true
  array : plain (Sql.arrayCast d.enumType) = true
  cast : plain (str "::" ++ d.enumType) = true

theorem catalog_plain : ∀ d ∈ catalog, PlainDef d := by
  have hall : ∀ d ∈ catalog, plain d.column = true ∧ plain d.table = true ∧ plain (Sql.arrayCast d.enumType) = true ∧
      plain (str "::" ++ d.enumType) = true := by decide +kernel
  exact fun d hd => ⟨(hall d hd).1, (hall d hd).2.1, (hall d hd).2.2.1, (hall d hd).2.2.2⟩

variable {d : FieldDef}

theorem lookup_plain {f : Field} (h : lookup u f = .ok d) : PlainDef d := by
  rcases lookup_cases u h with ⟨_, rfl⟩ | ⟨_, hd, _⟩
  · exact ⟨rfl, rfl, rfl, rfl⟩
  · exact catalog_plain d hd

theorem op_plain (o : Op) : plain o.text = true := by cases o <;> decide

theorem texts_keeps (d : FieldDef) (vs : List Value) (f : Text → Text) : Keeps (Compiler.texts u d vs f) :=
  .mapM (fun _ => (Keeps.lift _).bind fun _ => .pure fun _ => rfl) vs

theorem texts_fills (d : FieldDef) (vs : List Value) (f : Text → Text) {g : Nat → Cond}
    (hparams : ∀ n m, m ∈ (g n).params ↔ m = n) (hnames : ∀ n, ∀ t ∈ (g n).names, plain t = true) :
    Fills (Compiler.texts u d vs f >>= fun ts => Compiler.bind (textsArg ts) >>= fun n => pure (g n)) Placed :=
  (texts_keeps d vs f).bind fun _ => bound_fills hparams hnames

theorem sorted_fills {α : Type} {call : Value → C α} {R : Nat → Nat → α → Prop} {S : Nat → Nat → List α → Prop}
    (hnil : ∀ n, S n n [])
    (hcons : ∀ lo mid hi x xs, lo ≤ mid → mid ≤ hi → R lo mid x → S mid hi xs → S lo hi (x :: xs)) (d : FieldDef)
    (h : ∀ v, Fills (call v) R) : ∀ vs : List Value, Fills (Compiler.sorted u d call vs) (fun lo hi p => S lo hi p.1)
  | [] => .pure hnil
  | v :: vs => by
    unfold Compiler.sorted
    by_cases hk : v.kind = .function
    · simp only [if_pos hk]
      refine (h v).bind fun _ => (sorted_fills hnil hcons d h vs).bind fun _ => .pure fun _ _ h1 _ hp _ h3 _ hx => ?_
      exact hcons _ _ _ _ _ h3 h1 hx hp
    · simp only [if_neg hk]
      exact (Keeps.lift _).bind fun _ => (sorted_fills hnil hcons d h vs).map fun _ _ p hp => hp

theorem clause_fills {α : Type} {xs : List α} {m : C Cond} (h : Fills m Placed) :
    Fills (Compiler.clause xs m) PlacedAll := by
  unfold Compiler.clause
  split
  · exact .pure PlacedAll.nil
  · exact h.bind fun _ => .pure fun hi _ h1 _ hc => .cons h1 (Nat.le_refl _) hc (.nil hi)

theorem clauses_fill {m m' : C (List Cond)} (h : Fills m PlacedAll) (h' : Fills m' PlacedAll) :
    Fills (m >>= fun cs => m' >>= fun ds => pure (anyOf (cs ++ ds))) Placed :=
  h.bind fun _ => h'.bind fun _ => .pure fun _ _ h1 _ hds _ h3 _ hcs => anyOf_placed (.append h3 h1 hcs hds)

theorem users_fills (hd : plain d.column = true) (vs : List Value) :
    Fills (Compiler.users u env d vs) Placed := by
  unfold Compiler.users
  refine Fills.bind (P := fun lo hi _ => hi = lo)
    (sorted_fills (R := fun lo hi _ => hi = lo) (S := fun lo hi _ => hi = lo) (fun _ => rfl)
      (fun _ _ _ _ _ _ _ h h' => h'.trans h) d (fun v => ?_) vs) fun p => ?_
  · split
    · exact .pure fun _ => rfl
    · exact .fail
  · refine (clauses_fill (clause_fills (bound_fills ?_ ?_)) (clause_fills (bound_fills ?_ ?_))).weaken
      fun mid hi c hc lo _ _ hmid => hmid ▸ hc
    · simp [Cond.params, Term.params]
    · simp +decide [Cond.names, Term.names, hd]
    · simp [Cond.params, Term.params, lower, col]
    · simp +decide [Cond.names, Term.names, lower, col, hd]

theorem lookups_fills (hd : PlainDef d) (vs : List Value) : Fills (Compiler.lookups u d vs) Placed := by
  unfold Compiler.lookups
  refine Fills.bind (sorted_fills (R := Placed) PlacedAll.nil (fun _ _ _ _ _ h1 h2 h3 h4 => .cons h1 h2 h3 h4) d
    (fun v => ?_) vs) fun p => ?_
  · split
    · refine .pure fun n => ⟨fun m => ?_, ?_⟩
      · simp [Cond.params, Term.params, equals, col]
      · simp +decide [Cond.names, Term.names, equals, col, hd.column]
    · exact .fail
  · refine (clause_fills (bound_fills ?_ ?_)).bind fun named => .pure fun hi mid h1 _ hnamed lo h3 _ hp =>
      anyOf_placed (.append h3 h1 hp hnamed)
    · simp [Cond.params, Term.params, lower, col]
    · simp +decide [Cond.names, Term.names, lower, col, hd.column, hd.table]

theorem versionState_placed {name : Text} {state : Cond} (h : Compiler.versionState name = some state) :
    state.params = [] ∧ ∀ t ∈ state.names, plain t = true := by
  unfold Compiler.versionState at h
  split at h
  · cases h
    exact ⟨rfl, by decide⟩
  · split at h
    · cases h
      exact ⟨rfl, by decide⟩
    · cases h

theorem versions_fills (d : FieldDef) (vs : List Value) : Fills (Compiler.versions u d vs) Placed := by
  unfold Compiler.versions
  refine Fills.bind (sorted_fills (R := Placed) PlacedAll.nil (fun _ _ _ _ _ h1 h2 h3 h4 => .cons h1 h2 h3 h4) d
    (fun v => ?_) vs) fun p => ?_
  · split
    · rename_i state hstate
      obtain ⟨hparams, hnames⟩ := versionState_placed hstate
      refine bound_fills ?_ ?_
      · simp [Cond.params, Term.params, Compiler.ofVersion, equals, col, hparams]
      · simp +decide [Cond.names, Term.names, Compiler.ofVersion, equals, col]
        exact hnames
    · exact .fail
  · refine (clause_fills ((Fills.arg _).bind fun role => (Fills.arg _).map fun lo hi n hn lo' _ _ hrole =>
      ⟨fun m => ?_, ?_⟩)).bind fun named => .pure fun hi mid h1 _ hnamed lo h3 _ hp =>
        anyOf_placed (.append h3 h1 hp hnamed)
    · simp [Cond.params, Term.params, Compiler.ofVersion, equals, lower, col]
      omega
    · simp +decide [Cond.names, Term.names, Compiler.ofVersion, equals, lower, col]

theorem keys_fills {template : Nat → Nat → Cond} (hparams : ∀ p n m, m ∈ (template p n).params ↔ m = p ∨ m = n)
    (hnames : ∀ p n, ∀ t ∈ (template p n).names, plain t = true) (vs : List Value) :
    Fills (Compiler.keys u vs template) Placed := by
  unfold Compiler.keys
  refine (placed_mapM (fun v => ?_) vs).map fun _ _ _ h => anyOf_placed h
  refine (Keeps.lift _).bind fun k => (Fills.arg _).bind fun p => (Fills.arg _).map fun lo hi n hn lo' _ _ hp =>
    ⟨fun m => ?_, hnames p n⟩
  rw [hparams]
  omega

theorem customTest_fills (op : Op) (v : Value) : Fills (Compiler.customTest u env op v) Placed := by
  unfold Compiler.customTest
  have hop := op_plain op
  split
  · exact bound_fills (by simp [Cond.params, Term.params, Compiler.jsonText, Compiler.likePattern, col])
      (by simp +decide [Cond.names, Term.names, Compiler.jsonText, Compiler.likePattern, col])
  · split
    · exact bound_fills (by simp [Cond.params, Term.params, Compiler.kindCast, Compiler.jsonText, col])
        (by simp +decide [Cond.names, Term.names, Compiler.kindCast, Compiler.jsonText, col, hop])
    · split
      · exact (Keeps.lift _).bind fun _ => bound_fills
          (by simp [Cond.params, Term.params, Compiler.kindCast, Compiler.jsonText, col])
          (by simp +decide [Cond.names, Term.names, Compiler.kindCast, Compiler.jsonText, col, hop])
      · split
        · exact bound_fills (by simp [Cond.params, Term.params, Compiler.jsonText, equals, lower, col])
            (by simp +decide [Cond.names, Term.names, Compiler.jsonText, equals, lower, col])
        · exact bound_fills (by simp [Cond.params, Term.params, Compiler.jsonText, col])
            (by simp +decide [Cond.names, Term.names, Compiler.jsonText, col, hop])

theorem custom_fills (d : FieldDef) (op : Op) (v : Value) : Fills (Compiler.custom u env d op v) Placed := by
  unfold Compiler.custom
  refine (customTest_fills op v).bind fun test => (Fills.arg _).map fun lo hi name hname lo' _ _ htest =>
    ⟨fun m => ?_, ?_⟩
  · simp [Cond.params, Term.params, Compiler.ofField, equals, lower, col, htest.1]
    omega
  · simp +decide [Cond.names, Term.names, Compiler.ofField, equals, lower, col]
    exact htest.2

theorem orderedInstant_fills {column : Term} (hparams : column.params = []) (hnames : ∀ t ∈ column.names, plain t = true)
    (op : Op) (at_ : Int) (wholeDay : Bool) : Fills (Compiler.orderedInstant env column op at_ wholeDay) Placed := by
  unfold Compiler.orderedInstant
  have hone : ∀ (v : Arg) (w : Text), plain w = true →
      Fills (Compiler.bind v >>= fun n => pure (Cond.paren (.cmp column w (.param n)))) Placed := fun v w hw =>
    bound_fills (by simp [Cond.params, Term.params, hparams])
      (by simpa [Cond.names, Term.names, or_imp, forall_and, hw] using hnames)
  split
  · exact hone _ _ (op_plain op)
  · split
    · exact hone _ _ (by decide)
    · exact hone _ _ (by decide)
    · exact hone _ _ (by decide)
    · exact hone _ _ (by decide)
    · refine (Fills.arg _).bind fun n => (Fills.arg _).map fun lo hi m hm lo' _ _ hn => ⟨fun k => ?_, ?_⟩
      · simp [Cond.params, Term.params, hparams]
        omega
      · simpa +decide [Cond.names, Term.names, or_imp, forall_and] using hnames

theorem ordered_fills (hd : PlainDef d) (f : Field) (op : Op) (v : Value) :
    Fills (Compiler.ordered u env d f op v) Placed := by
  unfold Compiler.ordered
  have hop := op_plain op
  split
  · refine (Keeps.lift _).bind fun t => ?_
    dsimp only
    split
    · exact .fail
    · exact bound_fills (by simp [Cond.params, Term.params])
        (by simp +decide [Cond.names, Term.names, hd.column, hop, hd.cast])
  · exact (Keeps.lift _).bind fun t => bound_fills (by simp [Cond.params, Term.params])
      (by simp [Cond.names, Term.names, hd.column, hop])
  · exact (Keeps.lift _).bind fun p => orderedInstant_fills rfl (by simp [Term.names, hd.column]) op p.1 p.2
  · exact (Keeps.lift _).bind fun p => bound_fills (by simp [Cond.params, Term.params])
      (by simp +decide [Cond.names, Term.names, hd.column, hop])
  · exact custom_fills d op v
  · exact .fail

theorem related_fills {v : Arg} {source : Text} {issue name : String} (hsource : plain source = true)
    (hissue : plain (str issue) = true) (hname : plain (str name) = true) :
    Fills (Compiler.bind v >>= fun n => pure (Compiler.related source issue name n)) Placed :=
  bound_fills (by simp [Cond.params, Term.params, Compiler.related, equals, lower, col])
    (by simp +decide [Cond.names, Term.names, Compiler.related, equals, lower, col, hsource, hissue, hname])

theorem match_fills (hd : PlainDef d) (f : Field) (vs : List Value) :
    Fills (Compiler.match_ u env d f vs) Placed := by
  unfold Compiler.match_
  split
  · exact texts_fills d vs _ (by simp [Cond.params, Term.params, col]) (by simp +decide [Cond.names, Term.names, col])
  · exact keys_fills (by simp [Cond.params, Term.params, equals, col]) (by simp +decide [Cond.names, Term.names, equals, col]) vs
  · exact keys_fills (by simp [Cond.params, Term.params, equals, col]) (by simp +decide [Cond.names, Term.names, equals, col]) vs
  · exact texts_fills d vs _ (by simp [Cond.params, Term.params, lower])
      (by simp +decide [Cond.names, Term.names, lower, hd.column])
  · exact texts_fills d vs _ (by simp [Cond.params, Term.params, lower])
      (by simp +decide [Cond.names, Term.names, lower, hd.column])
  · refine (texts_keeps d vs _).bind fun ts => ?_
    split
    · exact .fail
    · exact bound_fills (by simp [Cond.params, Term.params]) (by simp [Cond.names, Term.names, hd.column, hd.array])
  · refine (texts_keeps d vs _).bind fun ts => ?_
    split
    · exact .fail
    · exact bound_fills (by simp [Cond.params, Term.params]) (by simp [Cond.names, Term.names, hd.column, hd.array])
  · exact users_fills hd.column vs
  · refine (users_fills rfl vs).map fun lo hi test h => ⟨fun m => ?_, ?_⟩
    · simpa [Cond.params, Term.params, equals, col] using h.1 m
    · simpa +decide [Cond.names, Term.names, equals, col] using h.2
  · exact lookups_fills hd vs
  · exact (texts_keeps d vs _).bind fun _ => related_fills (by decide) (by decide) (by decide)
  · exact versions_fills d vs
  · exact (texts_keeps d vs _).bind fun _ => related_fills (by decide) (by decide) (by decide)
  · exact (Keeps.mapM (fun v => Keeps.lift _) vs).bind fun ns => bound_fills (by simp [Cond.params, Term.params])
      (by simp +decide [Cond.names, Term.names, hd.column])
  · exact (placed_mapM (fun v => ordered_fills hd f .eq v) vs).map fun _ _ _ h => anyOf_placed h
  · exact (placed_mapM (fun v => ordered_fills hd f .eq v) vs).map fun _ _ _ h => anyOf_placed h
  · exact (placed_mapM (fun v => custom_fills d .eq v) vs).map fun _ _ _ h => anyOf_placed h
  · exact .fail

theorem searchText_keeps (d : FieldDef) (v : Value) : Keeps (Compiler.searchText u d v) := by
  unfold Compiler.searchText
  split
  · exact .pure fun _ => rfl
  · exact .lift _

theorem summary_fills (text : Text) : Fills (Compiler.summary text) Placed :=
  bound_fills (by simp [Cond.params, Term.params, Compiler.likePattern, col])
    (by simp +decide [Cond.names, Term.names, Compiler.likePattern, col])

theorem description_plain (n : Nat) :
    ∀ t ∈ (Cond.paren (.cmp Compiler.descriptionWords (str "@@") (Compiler.startsOfWords n))).names, plain t = true := by
  change ∀ t ∈ [str "@@", Compiler.wordsBefore, Compiler.wordsAfter, str "i.description", Compiler.startsBefore,
    Compiler.startsAfter], plain t = true
  unfold Compiler.wordsBefore Compiler.wordsAfter Compiler.startsBefore Compiler.startsAfter str
  -- the runes of a literal are read off it, where a decision would decode its bytes
  rw [String.toList_ofList, String.toList_ofList, String.toList_ofList, String.toList_ofList, String.toList_ofList,
    String.toList_ofList]
  decide +kernel

theorem description_fills (text : Text) : Fills (Compiler.description u text) Placed := by
  unfold Compiler.description
  split
  · exact .pure fun n => ⟨fun m => by simp [Cond.params], by simp [Cond.names]⟩
  · exact bound_fills (by simp [Cond.params, Term.params, Compiler.descriptionWords, Compiler.startsOfWords, col])
      (fun n => description_plain n)

theorem contains_fills (f : Field) (v : Value) : Fills (Compiler.contains u env d f v) Placed := by
  unfold Compiler.contains
  refine (searchText_keeps d v).bind fun text => ?_
  split
  · exact .fail
  · split
    · exact summary_fills text
    · exact description_fills text
    · refine (summary_fills text).bind fun s => (description_fills text).map fun lo hi c hc lo' _ _ hs =>
        ⟨fun m => ?_, fun t ht => ?_⟩
      · simp only [Cond.params, mem_append, hs.1, hc.1]
        omega
      · simp only [Cond.names, mem_append] at ht
        exact ht.elim (hs.2 t) (hc.2 t)
    · exact custom_fills d .like v
    · exact .fail

theorem negate_placed {lo hi : Nat} {c : Cond} (h : Placed lo hi c) : Placed lo hi (negate c) := h

theorem found_fills {f : Field} {m : FieldDef → C Cond} (h : ∀ d, PlainDef d → Fills (m d) Placed) :
    Fills ((liftM (lookup u f) : C FieldDef) >>= m) Placed := by
  cases hlook : lookup u f with
  | error =>
    intro args c args' hc
    cases hc
  | ok d => exact h d (lookup_plain hlook)

theorem compare_fills (f : Field) (op : Op) (v : Value) : Fills (Compiler.compare u env f op v) Placed := by
  unfold Compiler.compare
  refine found_fills fun d hd => ?_
  split
  · exact .fail
  · cases op with
    | eq => exact match_fills hd f [v]
    | ne => exact (match_fills hd f [v]).map fun _ _ _ h => negate_placed h
    | like => exact contains_fills f v
    | notLike => exact (contains_fills f v).map fun _ _ _ h => negate_placed h
    | lt | le | gt | ge => exact ordered_fills hd f _ v

theorem in_fills (f : Field) (vs : List Value) (not_ : Bool) : Fills (Compiler.in_ u env f vs not_) Placed := by
  unfold Compiler.in_
  refine found_fills fun d hd => ?_
  split
  · exact .fail
  · refine (match_fills hd f vs).map fun _ _ c h => ?_
    cases not_ with
    | true => exact negate_placed h
    | false => exact h

theorem emptiness_fills (hd : PlainDef d) : Fills (Compiler.emptiness d) Placed := by
  have hconst : ∀ c : Cond, c.params = [] → (∀ t ∈ c.names, plain t = true) → Fills (pure c : C Cond) Placed :=
    fun c hparams hnames => .pure fun n => ⟨fun m => by simp [hparams], hnames⟩
  unfold Compiler.emptiness
  split
  · exact hconst _ rfl (by decide)
  · exact bound_fills (by simp [Cond.params, Term.params, Compiler.ofVersion, equals, col])
      (by simp +decide [Cond.names, Term.names, Compiler.ofVersion, equals, col])
  · exact hconst _ rfl (by decide)
  · exact hconst _ rfl (by decide)
  · exact hconst _ rfl (by decide +kernel)
  · exact bound_fills (by simp [Cond.params, Term.params, Compiler.ofField, equals, lower, col])
      (by simp +decide [Cond.names, Term.names, Compiler.ofField, equals, lower, col])
  · exact hconst _ rfl (by simp [Cond.names, Term.names, hd.column])

theorem empty_fills (f : Field) (not_ : Bool) : Fills (Compiler.empty u f not_) Placed := by
  unfold Compiler.empty
  refine found_fills fun d hd => ?_
  split
  · exact .fail
  · refine (emptiness_fills hd).map fun _ _ c h => ?_
    cases not_ with
    | true => exact h
    | false => exact h

theorem placed_append {lo mid hi : Nat} {c d e : Cond} (hlo : lo ≤ mid) (hhi : mid ≤ hi) (hc : Placed lo mid c)
    (hd : Placed mid hi d) (hparams : e.params = c.params ++ d.params) (hnames : e.names = c.names ++ d.names) :
    Placed lo hi e := by
  refine ⟨fun n => ?_, fun t ht => ?_⟩
  · rw [hparams, mem_append, hc.1, hd.1]
    omega
  · rw [hnames, mem_append] at ht
    exact ht.elim (hc.2 t) (hd.2 t)

theorem expr_fills : ∀ e : Expr, Fills (Compiler.expr u env e) Placed
  | .and l r | .or l r => by
    unfold Compiler.expr
    exact (expr_fills l).bind fun _ => (expr_fills r).map fun _ _ _ hr _ hlo hhi hl =>
      placed_append hlo hhi hl hr rfl rfl
  | .not e => by
    unfold Compiler.expr
    exact (expr_fills e).map fun _ _ _ h => negate_placed h
  | .compare f op v => by
    unfold Compiler.expr
    exact compare_fills f op v
  | .in_ f v vs not_ => by
    unfold Compiler.expr
    exact in_fills f (v :: vs) not_
  | .empty f not_ => by
    unfold Compiler.expr
    exact empty_fills f not_

end

/-! ## Queries -/

variable {u : Tables}

theorem compile_some {e : Expr} (hq : q.where_ = some e)
    (h : q.compile u env = .ok k) : ∃ c, k.where_ = some c ∧ Compiler.expr u env e [] = .ok (c, k.args) ∧
      q.order.mapM (orderKey u) = .ok k.order := by
  unfold Query.compile at h
  rw [hq] at h
  cases hc : (Compiler.expr u env e).run [] with
  | error =>
    simp only [hc] at h
    cases h
  | ok p =>
    simp only [hc] at h
    cases ho : q.order.mapM (orderKey u) with
    | error =>
      simp only [ho] at h
      cases h
    | ok =>
      simp only [ho] at h
      cases h
      exact ⟨p.1, rfl, hc, rfl⟩

theorem compile_none (hq : q.where_ = none) (h : q.compile u env = .ok k) :
    k.where_ = none ∧ k.args = [] ∧ q.order.mapM (orderKey u) = .ok k.order := by
  unfold Query.compile at h
  rw [hq] at h
  cases ho : q.order.mapM (orderKey u) with
  | error =>
    simp only [ho] at h
    cases h
  | ok =>
    simp only [ho] at h
    cases h
    exact ⟨rfl, rfl, rfl⟩

theorem sql_none (h : k.where_ = none) (first : Nat) : k.sql first = ([], []) := by
  unfold Compiled.sql Compiled.text
  rw [h]
  rfl

theorem sql_some {c : Cond} (h : k.where_ = some c) (hplain : PlainPieces c.pieces) (first : Nat) :
    k.sql first = ([], []) ∨ k.sql first = (render (fun n => '$' :: Go.itoa (first + n)) c.pieces, k.args) := by
  have htext : k.text = render (fun n => '?' :: Go.itoa n) c.pieces := by
    unfold Compiled.text
    rw [h]
  unfold Compiled.sql
  split
  · exact .inl rfl
  · right
    rw [htext, renumber_render first hplain]

theorem orderKey_ok {o : OrderBy} {x : Text × Bool} (h : orderKey u o = .ok x) :
    ∃ d, lookup u o.field = .ok d ∧ d.kind ≠ .custom ∧ x = (d.order, o.desc) := by
  unfold orderKey at h
  cases hd : lookup u o.field with
  | error =>
    rw [hd] at h
    cases h
  | ok d =>
    rw [hd] at h
    dsimp only [Except.bind, bind] at h
    split at h
    · cases h
    · split at h
      · cases h
      · cases h
        exact ⟨d, rfl, ‹_›, rfl⟩

theorem orderKey_shape {o p : OrderBy} (h : SameField o.field p.field ∧ o.desc = p.desc) {x y : Text × Bool}
    (hx : orderKey u o = .ok x) (hy : orderKey u p = .ok y) : x = y := by
  obtain ⟨d, hd, hk, rfl⟩ := orderKey_ok hx
  obtain ⟨d', hd', _, rfl⟩ := orderKey_ok hy
  rcases lookup_alike h.1 hd hd' with rfl | ⟨hcustom, _⟩
  · rw [h.2]
  · exact absurd hcustom hk

theorem order_shape : ∀ {os ps : List OrderBy},
    List.Forall₂ (fun o p => SameField o.field p.field ∧ o.desc = p.desc) os ps → ∀ {xs ys : List (Text × Bool)},
      os.mapM (orderKey u) = .ok xs → ps.mapM (orderKey u) = .ok ys → xs = ys
  | _, _, .nil, xs, ys, hx, hy => by
    cases hx
    cases hy
    rfl
  | o :: os, p :: ps, .cons hop h, xs, ys, hx, hy => by
    rw [mapM_cons] at hx hy
    cases hx₁ : orderKey u o with
    | error => rw [hx₁] at hx; cases hx
    | ok =>
      cases hx₂ : os.mapM (orderKey u) with
      | error => rw [hx₁, hx₂] at hx; cases hx
      | ok =>
        cases hy₁ : orderKey u p with
        | error => rw [hy₁] at hy; cases hy
        | ok =>
          cases hy₂ : ps.mapM (orderKey u) with
          | error => rw [hy₁, hy₂] at hy; cases hy
          | ok =>
            rw [hx₁, hx₂] at hx
            rw [hy₁, hy₂] at hy
            cases hx
            cases hy
            rw [orderKey_shape hop hx₁ hy₁, order_shape h hx₂ hy₂]

theorem sql_text {k' : Compiled} (h : k.where_ = k'.where_) (first : Nat) : (k.sql first).1 = (k'.sql first).1 := by
  have htext : k.text = k'.text := by
    unfold Compiled.text
    rw [h]
  unfold Compiled.sql
  rw [htext]
  split
  · rfl
  · rfl

theorem compile_shape {env' : Env} {q' : Query} {k' : Compiled} (hshape : q.SameShape q')
    (hagree : q.Agrees u q') (hk : q.compile u env = .ok k) (hk' : q'.compile u env' = .ok k') :
    k.where_ = k'.where_ ∧ k.order = k'.order := by
  obtain ⟨hsome, hnone, horder⟩ := hshape
  cases hq : q.where_ with
  | none =>
    obtain ⟨hw, _, ho⟩ := compile_none hq hk
    obtain ⟨hw', _, ho'⟩ := compile_none (hnone hq) hk'
    exact ⟨hw.trans hw'.symm, order_shape horder ho ho'⟩
  | some e =>
    obtain ⟨e', hq', he⟩ := hsome e hq
    obtain ⟨c, hw, hrun, ho⟩ := compile_some hq hk
    obtain ⟨c', hw', hrun', ho'⟩ := compile_some hq' hk'
    obtain ⟨_, hcc⟩ := expr_alike he (hagree e e' hq hq') [] [] c c' k.args k'.args rfl hrun hrun'
    rw [hw, hw', hcc]
    exact ⟨rfl, order_shape horder ho ho'⟩

theorem compile_placed (hk : q.compile u env = .ok k) (first : Nat) :
    (∀ n, n ∈ numbersAfter '$' none (k.sql first).1 ↔ first ≤ n ∧ n < first + (k.sql first).2.length) ∧
      '?' ∉ (k.sql first).1 := by
  have hempty : k.sql first = ([], []) → (∀ n, n ∈ numbersAfter '$' none (k.sql first).1 ↔
      first ≤ n ∧ n < first + (k.sql first).2.length) ∧ '?' ∉ (k.sql first).1 := by
    intro h
    rw [h]
    refine ⟨fun n => ⟨fun hn => absurd hn not_mem_nil, fun hn => ?_⟩, not_mem_nil⟩
    rw [length_nil] at hn
    omega
  cases hq : q.where_ with
  | none => exact hempty (sql_none (compile_none hq hk).1 first)
  | some e =>
    obtain ⟨c, hc, hrun, _⟩ := compile_some hq hk
    obtain ⟨_, hparams, hnames⟩ := expr_fills e [] c k.args hrun
    have hplain := plainPieces_of_names hnames
    have hmem : ∀ n, n ∈ argsOf c.pieces ↔ n < k.args.length := by
      intro n
      rw [mem_argsOf, Sql.Cond.arg_mem, hparams, length_nil, and_iff_right (Nat.zero_le n)]
    rcases sql_some hc hplain first with hsql | hsql
    · exact hempty hsql
    · rw [hsql]
      refine ⟨fun n => ?_, render_unmarked first hplain⟩
      rw [numbersAfter_render first hplain, mem_map]
      constructor
      · rintro ⟨m, hm, rfl⟩
        exact ⟨Nat.le_add_right first m, Nat.add_lt_add_left ((hmem m).1 hm) first⟩
      · rintro ⟨hlo, hhi⟩
        exact ⟨n - first, (hmem _).2 (Nat.sub_lt_left_of_lt_add hlo hhi), Nat.add_sub_cancel' hlo⟩

/-- **The SQL is a function of the query's shape, and has a placeholder for each of its arguments and no other.** -/
theorem sql_of_shape (u : Tables) :
    (∀ (env env' : Env) (q q' : Query) (k k' : Compiled), q.SameShape q' → q.Agrees u q' → q.compile u env = .ok k →
      q'.compile u env' = .ok k' → k.order = k'.order ∧ ∀ first, (k.sql first).1 = (k'.sql first).1) ∧
    ∀ (env : Env) (q : Query) (k : Compiled), q.compile u env = .ok k → ∀ first,
      (∀ n, n ∈ numbersAfter '$' none (k.sql first).1 ↔ first ≤ n ∧ n < first + (k.sql first).2.length) ∧
      '?' ∉ (k.sql first).1 := by
  constructor
  · intro env env' q q' k k' hshape hagree hk hk'
    obtain ⟨hw, ho⟩ := compile_shape hshape hagree hk hk'
    exact ⟨ho, fun first => sql_text hw first⟩
  · exact fun env q k hk first => compile_placed hk first

/-- `description ~ "!!"` has no word to look for, and is the SQL `FALSE`. -/
theorem wordless_description_differs : ¬ ∀ (u : Tables) (env : Env) (q q' : Query) (k k' : Compiled), q.SameShape q' →
    q.compile u env = .ok k → q'.compile u env = .ok k' → ∀ first, (k.sql first).1 = (k'.sql first).1 := by
  intro h
  let looksFor (w : Text) : Query :=
    ⟨some (.compare ⟨str "description", false, 1⟩ .like ⟨.string, w, 15, none⟩), []⟩
  let env : Env := ⟨0, 0, Go.Zone.utc⟩
  let found : Cond := .paren (.cmp Compiler.descriptionWords (str "@@") (Compiler.startsOfWords 0))
  have hshape : (looksFor (str "!!")).SameShape (looksFor (str "abc")) := by
    refine ⟨?_, nofun, .nil⟩
    rintro e ⟨⟩
    exact ⟨_, rfl, ⟨rfl, fun _ => rfl⟩, rfl, rfl, nofun⟩
  have hwordless : (looksFor (str "!!")).compile Tables.ascii env = .ok ⟨some .never, [], []⟩ := rfl
  have hword : (looksFor (str "abc")).compile Tables.ascii env = .ok ⟨some found, [textArg (str "abc")], []⟩ := rfl
  have hsame := h Tables.ascii env _ _ _ _ hshape hwordless hword 1
  exact absurd hsame (by decide +kernel)

end Nql
end Armature
