import Armature.GoText
/-!
# SqlLogic — conditions as SQL evaluates them

A fragment of SQL's conditions over a row of nullable columns, with the text each is written as.  A comparison with what
is missing is neither true nor false, and a condition selects a row where it is true.  Functions, operators, constants and
tables are read by their spelling from a `Data`, whatever it says of them.
-/
namespace Armature
namespace Sql

open List
open Go (Text)

/-! ## Conditions -/

inductive Term where
  /-- An expression over the row's columns alone. -/
  | col (c : Text)
  | const (c : Text)
  | param (n : Nat)
  /-- A function that gives nothing for nothing only, spelled around its argument. -/
  | fn (before : Text) (t : Term) (after : Text)
  /-- A function that may give nothing for something. -/
  | pick (before : Text) (t : Term) (after : Text)
  /-- `CASE WHEN c = k THEN t END`. -/
  | when (c k : Text) (t : Term)
  deriving DecidableEq

inductive Cond where
  | never
  /-- No text at all: the alternatives of an empty list. -/
  | nothing
  | cmp (l : Term) (op : Text) (r : Term)
  /-- `t = ANY(?n::type[])`, without the cast when there is no type. -/
  | any (t : Term) (n : Nat) (type : Text)
  | isNull (t : Term)
  | isNotNull (t : Term)
  /-- `t IN (SELECT c FROM source WHERE w)`. -/
  | inRows (t : Term) (c source : Text) (w : Cond)
  | exists_ (source : Text) (w : Cond)
  | and (l r : Cond)
  | or (l r : Cond)
  | not (c : Cond)
  | paren (c : Cond)
  /-- `COALESCE(c, false)`. -/
  | orFalse (c : Cond)
  deriving DecidableEq

/-- What is bound to a placeholder. -/
inductive Bound (D : Type) where
  | one (d : D)
  | many (ds : List D)
  deriving DecidableEq

def Bound.map {D E : Type} (f : D → E) : Bound D → Bound E
  | .one d => .one (f d)
  | .many ds => .many (ds.map f)

/-- A database: what spellings mean, and the rows of each source, which give what columns they have. -/
structure Data (D : Type) where
  const : Text → D
  apply : Text → Text → D → D
  pick : Text → Text → D → Option D
  compare : Text → D → D → Bool
  rows : Text → List (Text → Option (Option D))

def Data.cast {D : Type} (db : Data D) (type : Text) (d : D) : D :=
  if type = [] then d else db.apply [] (':' :: ':' :: type) d

def within {D : Type} (s : Text → Option D) (r : Text → Option (Option D)) : Text → Option D := fun c => (r c).getD (s c)

/-! ## Evaluation -/

section
variable {D : Type} (db : Data D) (args : List (Bound D))

def Term.eval (s : Text → Option D) : Term → Option D
  | .col c => s c
  | .const c => some (db.const c)
  | .param n => match args[n]? with
    | some (.one d) => some d
    | _ => none
  | .fn b t a => (t.eval s).map (db.apply b a)
  | .pick b t a => (t.eval s).bind (db.pick b a)
  | .when c k t => match s c with
    | some d => if db.compare ['='] d (db.const k) then t.eval s else none
    | none => none

def items (n : Nat) : List D :=
  match args[n]? with
  | some (.many ds) => ds
  | _ => []

def and3 : Option Bool → Option Bool → Option Bool
  | some false, _ => some false
  | _, some false => some false
  | some true, some true => some true
  | _, _ => none

def or3 : Option Bool → Option Bool → Option Bool
  | some true, _ => some true
  | _, some true => some true
  | some false, some false => some false
  | _, _ => none

def inValues (a : Option D) (bs : List (Option D)) : Option Bool :=
  if bs.isEmpty then some false
  else match a with
    | none => none
    | some a =>
      if bs.any (fun b => b.any (db.compare ['='] a)) then some true
      else if bs.any Option.isNone then none
      else some false

def Cond.eval : Cond → (Text → Option D) → Option Bool
  | .never, _ => some false
  | .nothing, _ => some false
  | .cmp l op r, s => (l.eval db args s).bind (fun a => (r.eval db args s).map (db.compare op a))
  | .any t n type, s => inValues db (t.eval db args s) ((items args n).map (fun d => some (db.cast type d)))
  | .isNull t, s => some (t.eval db args s).isNone
  | .isNotNull t, s => some (t.eval db args s).isSome
  | .inRows t c source w, s => inValues db (t.eval db args s)
      (((db.rows source).filter (fun r => w.eval (within s r) == some true)).map (fun r => within s r c))
  | .exists_ source w, s => some ((db.rows source).any (fun r => w.eval (within s r) == some true))
  | .and l r, s => and3 (l.eval s) (r.eval s)
  | .or l r, s => or3 (l.eval s) (r.eval s)
  | .not c, s => (c.eval s).map (fun b => !b)
  | .paren c, s => c.eval s
  | .orFalse c, s => some ((c.eval s).getD false)

def Cond.Selects (c : Cond) (s : Text → Option D) : Prop := c.eval db args s = some true

end

/-! ## What is selected -/

section
variable {D : Type} {db : Data D} {args : List (Bound D)} {s : Text → Option D}

attribute [local simp] Cond.Selects Cond.eval

theorem and3_true {a b : Option Bool} : and3 a b = some true ↔ a = some true ∧ b = some true := by
  rcases a with _ | _ | _ <;> rcases b with _ | _ | _ <;> simp [and3]

theorem or3_true {a b : Option Bool} : or3 a b = some true ↔ a = some true ∨ b = some true := by
  rcases a with _ | _ | _ <;> rcases b with _ | _ | _ <;> simp [or3]

theorem inValues_true {a : Option D} {bs : List (Option D)} :
    inValues db a bs = some true ↔ ∃ x, a = some x ∧ ∃ y, some y ∈ bs ∧ db.compare ['='] x y = true := by
  unfold inValues
  by_cases hbs : bs.isEmpty = true
  · simp [List.isEmpty_iff.1 hbs]
  · rw [if_neg hbs]
    cases a with
    | none => simp
    | some x =>
      have hany : (bs.any (fun b => b.any (db.compare ['='] x))) = true ↔
          ∃ y, some y ∈ bs ∧ db.compare ['='] x y = true := by
        simp only [any_eq_true, Option.any_eq_true]
        constructor
        · rintro ⟨b, hb, y, rfl, hy⟩
          exact ⟨y, hb, hy⟩
        · rintro ⟨y, hy, hxy⟩
          exact ⟨some y, hy, y, rfl, hxy⟩
      by_cases hx : (bs.any (fun b => b.any (db.compare ['='] x))) = true
      · simp only [if_pos hx, true_iff]
        exact ⟨x, rfl, hany.1 hx⟩
      · simp only [if_neg hx]
        constructor
        · intro h
          split at h <;> cases h
        · rintro ⟨x', hx', hy⟩
          cases hx'
          exact absurd (hany.2 hy) hx

theorem never_selects : ¬ Cond.never.Selects db args s := by simp

theorem nothing_selects : ¬ Cond.nothing.Selects db args s := by simp

theorem cmp_selects {l r : Term} {op : Text} : (Cond.cmp l op r).Selects db args s ↔
    ∃ a, l.eval db args s = some a ∧ ∃ b, r.eval db args s = some b ∧ db.compare op a b = true := by
  simp only [Cond.Selects, Cond.eval, Option.bind_eq_some_iff, Option.map_eq_some_iff]

theorem any_selects {t : Term} {n : Nat} {type : Text} : (Cond.any t n type).Selects db args s ↔
    ∃ a, t.eval db args s = some a ∧ ∃ d ∈ items args n, db.compare ['='] a (db.cast type d) = true := by
  unfold Cond.Selects
  rw [Cond.eval, inValues_true]
  refine exists_congr fun a => and_congr_right fun _ => ?_
  constructor
  · rintro ⟨y, hy, h⟩
    obtain ⟨d, hd, hyd⟩ := mem_map.1 hy
    cases hyd
    exact ⟨d, hd, h⟩
  · rintro ⟨d, hd, h⟩
    exact ⟨_, mem_map.2 ⟨d, hd, rfl⟩, h⟩

theorem isNull_selects {t : Term} : (Cond.isNull t).Selects db args s ↔ t.eval db args s = none := by
  simp

theorem isNotNull_selects {t : Term} : (Cond.isNotNull t).Selects db args s ↔ ∃ a, t.eval db args s = some a := by
  simp [Option.isSome_iff_exists]

theorem exists_selects {source : Text} {w : Cond} : (Cond.exists_ source w).Selects db args s ↔
    ∃ r ∈ db.rows source, w.Selects db args (within s r) := by
  simp

theorem inRows_selects {t : Term} {c source : Text} {w : Cond} : (Cond.inRows t c source w).Selects db args s ↔
    ∃ a, t.eval db args s = some a ∧ ∃ r ∈ db.rows source, w.Selects db args (within s r) ∧
      ∃ b, within s r c = some b ∧ db.compare ['='] a b = true := by
  unfold Cond.Selects
  rw [Cond.eval, inValues_true]
  refine exists_congr fun a => and_congr_right fun _ => ?_
  simp only [mem_map, mem_filter, beq_iff_eq]
  constructor
  · rintro ⟨b, ⟨r, ⟨hr, hw⟩, hb⟩, h⟩
    exact ⟨r, hr, hw, b, hb, h⟩
  · rintro ⟨r, hr, hw, b, hb, h⟩
    exact ⟨b, ⟨r, ⟨hr, hw⟩, hb⟩, h⟩

theorem and_selects {l r : Cond} :
    (Cond.and l r).Selects db args s ↔ l.Selects db args s ∧ r.Selects db args s := and3_true

theorem or_selects {l r : Cond} :
    (Cond.or l r).Selects db args s ↔ l.Selects db args s ∨ r.Selects db args s := or3_true

theorem paren_selects {c : Cond} : (Cond.paren c).Selects db args s ↔ c.Selects db args s := Iff.rfl

theorem not_orFalse_selects {c : Cond} : (Cond.not (.orFalse c)).Selects db args s ↔ ¬ c.Selects db args s := by
  unfold Cond.Selects
  rw [Cond.eval, Cond.eval]
  rcases c.eval db args s with _ | _ | _ <;> simp

theorem not_selects {c : Cond} (h : c.eval db args s ≠ none) :
    (Cond.not c).Selects db args s ↔ ¬ c.Selects db args s := by
  unfold Cond.Selects
  rw [Cond.eval]
  rcases hc : c.eval db args s with _ | _ | _
  · exact absurd hc h
  · simp
  · simp

end

/-! ## Text -/

/-- A condition's text, with the places its arguments go. -/
inductive Piece where
  | lit (t : Text)
  | arg (n : Nat)
  deriving DecidableEq

def lit (s : String) : Piece := .lit s.toList

def arrayCast (type : Text) : Text := if type = [] then [] else ':' :: ':' :: type ++ ['[', ']']

def Term.pieces : Term → List Piece
  | .col c => [.lit c]
  | .const c => [.lit c]
  | .param n => [.arg n]
  | .fn b t a => .lit b :: t.pieces ++ [.lit a]
  | .pick b t a => .lit b :: t.pieces ++ [.lit a]
  | .when c k t => lit "CASE WHEN " :: .lit c :: lit " = " :: .lit k :: lit " THEN " :: t.pieces ++ [lit " END"]

def Cond.pieces : Cond → List Piece
  | .never => [lit "FALSE"]
  | .nothing => []
  | .cmp l op r => l.pieces ++ lit " " :: .lit op :: lit " " :: r.pieces
  | .any t n type => t.pieces ++ [lit " = ANY(", .arg n, .lit (arrayCast type), lit ")"]
  | .isNull t => t.pieces ++ [lit " IS NULL"]
  | .isNotNull t => t.pieces ++ [lit " IS NOT NULL"]
  | .inRows t c source w =>
      t.pieces ++ lit " IN (SELECT " :: .lit c :: lit " FROM " :: .lit source :: lit " WHERE " :: w.pieces ++ [lit ")"]
  | .exists_ source w => lit "EXISTS (SELECT 1 FROM " :: .lit source :: lit " WHERE " :: w.pieces ++ [lit ")"]
  | .and l r => l.pieces ++ lit " AND " :: r.pieces
  | .or l r => l.pieces ++ lit " OR " :: r.pieces
  | .not c => lit "NOT " :: c.pieces
  | .paren c => lit "(" :: c.pieces ++ [lit ")"]
  | .orFalse c => lit "COALESCE(" :: c.pieces ++ [lit ", false)"]

def render (write : Nat → Text) (ps : List Piece) : Text :=
  ps.flatMap (fun
    | .lit t => t
    | .arg n => write n)

/-! ## What a text is made of -/

def Term.params : Term → List Nat
  | .col _ | .const _ => []
  | .param n => [n]
  | .fn _ t _ | .pick _ t _ | .when _ _ t => t.params

def Cond.params : Cond → List Nat
  | .never | .nothing => []
  | .cmp l _ r => l.params ++ r.params
  | .any t n _ => t.params ++ [n]
  | .isNull t | .isNotNull t => t.params
  | .inRows t _ _ w => t.params ++ w.params
  | .exists_ _ w => w.params
  | .and l r | .or l r => l.params ++ r.params
  | .not c | .paren c | .orFalse c => c.params

def Term.names : Term → List Text
  | .col c | .const c => [c]
  | .param _ => []
  | .fn b t a | .pick b t a => b :: a :: t.names
  | .when c k t => c :: k :: t.names

def Cond.names : Cond → List Text
  | .never | .nothing => []
  | .cmp l op r => op :: (l.names ++ r.names)
  | .any t _ type => arrayCast type :: t.names
  | .isNull t | .isNotNull t => t.names
  | .inRows t c source w => c :: source :: (t.names ++ w.names)
  | .exists_ source w => source :: w.names
  | .and l r | .or l r => l.names ++ r.names
  | .not c | .paren c | .orFalse c => c.names

def joints : List Text :=
  ["CASE WHEN ", " = ", " THEN ", " END", "FALSE", " ", " = ANY(", ")", " IS NULL", " IS NOT NULL", " IN (SELECT ",
    " FROM ", " WHERE ", "EXISTS (SELECT 1 FROM ", " AND ", " OR ", "NOT ", "(", "COALESCE(", ", false)"].map String.toList

theorem Term.arg_mem {n : Nat} : ∀ t : Term, .arg n ∈ t.pieces ↔ n ∈ t.params
  | .col _ | .const _ => by simp [Term.pieces, Term.params]
  | .param m => by simp [Term.pieces, Term.params]
  | .fn b t a | .pick b t a => by simp [Term.pieces, Term.params, Term.arg_mem t]
  | .when c k t => by simp [Term.pieces, Term.params, lit, Term.arg_mem t]

theorem Cond.arg_mem {n : Nat} : ∀ c : Cond, .arg n ∈ c.pieces ↔ n ∈ c.params
  | .never | .nothing => by simp [Cond.pieces, Cond.params, lit]
  | .cmp l op r => by simp [Cond.pieces, Cond.params, lit, Term.arg_mem]
  | .any t m type => by simp [Cond.pieces, Cond.params, lit, Term.arg_mem]
  | .isNull t | .isNotNull t => by simp [Cond.pieces, Cond.params, lit, Term.arg_mem]
  | .inRows t c source w => by simp [Cond.pieces, Cond.params, lit, Term.arg_mem, Cond.arg_mem w]
  | .exists_ source w => by simp [Cond.pieces, Cond.params, lit, Cond.arg_mem w]
  | .and l r | .or l r => by simp [Cond.pieces, Cond.params, lit, Cond.arg_mem l, Cond.arg_mem r]
  | .not c | .paren c | .orFalse c => by simp [Cond.pieces, Cond.params, lit, Cond.arg_mem c]

theorem Term.lit_mem {w : Text} : ∀ {t : Term}, .lit w ∈ t.pieces → w ∈ joints ∨ w ∈ t.names
  | .col _, h | .const _, h => by
    rw [Term.pieces, mem_singleton, Piece.lit.injEq] at h
    exact .inr (mem_singleton.2 h)
  | .param _, h => by simp [Term.pieces] at h
  | .fn b t a, h | .pick b t a, h => by
    simp only [Term.pieces, cons_append, mem_cons, mem_append, Piece.lit.injEq, not_mem_nil, or_false] at h
    simp only [Term.names, mem_cons]
    rcases h with h | h | h
    · exact .inr (.inl h)
    · exact (Term.lit_mem h).imp id fun h => .inr (.inr h)
    · exact .inr (.inr (.inl h))
  | .when c k t, h => by
    simp only [Term.pieces, lit, cons_append, mem_cons, mem_append, Piece.lit.injEq, not_mem_nil,
      or_false] at h
    simp only [Term.names, mem_cons]
    rcases h with h | h | h | h | h | h | h
    · exact .inl (h ▸ by decide)
    · exact .inr (.inl h)
    · exact .inl (h ▸ by decide)
    · exact .inr (.inr (.inl h))
    · exact .inl (h ▸ by decide)
    · exact (Term.lit_mem h).imp id fun h => .inr (.inr h)
    · exact .inl (h ▸ by decide)

theorem Cond.lit_mem {w : Text} : ∀ {c : Cond}, .lit w ∈ c.pieces → w ∈ joints ∨ w ∈ c.names
  | .never, h => by
    rw [Cond.pieces, mem_singleton, lit, Piece.lit.injEq] at h
    exact .inl (h ▸ by decide)
  | .nothing, h => by simp [Cond.pieces] at h
  | .cmp l op r, h => by
    simp only [Cond.pieces, lit, mem_cons, mem_append, Piece.lit.injEq] at h
    simp only [Cond.names, mem_cons, mem_append]
    rcases h with h | h | h | h | h
    · exact (Term.lit_mem h).imp id fun h => .inr (.inl h)
    · exact .inl (h ▸ by decide)
    · exact .inr (.inl h)
    · exact .inl (h ▸ by decide)
    · exact (Term.lit_mem h).imp id fun h => .inr (.inr h)
  | .any t m type, h => by
    simp only [Cond.pieces, lit, mem_cons, mem_append, Piece.lit.injEq, reduceCtorEq, not_mem_nil, or_false,
      false_or] at h
    simp only [Cond.names, mem_cons]
    rcases h with h | h | h | h
    · exact (Term.lit_mem h).imp id .inr
    · exact .inl (h ▸ by decide)
    · exact .inr (.inl h)
    · exact .inl (h ▸ by decide)
  | .isNull t, h | .isNotNull t, h => by
    simp only [Cond.pieces, lit, mem_append, mem_singleton, Piece.lit.injEq] at h
    rcases h with h | h
    · exact Term.lit_mem h
    · exact .inl (h ▸ by decide)
  | .inRows t c source w', h => by
    simp only [Cond.pieces, lit, mem_cons, mem_append, Piece.lit.injEq, not_mem_nil,
      or_false] at h
    simp only [Cond.names, mem_cons, mem_append]
    rcases h with (h | h | h | h | h | h | h) | h
    · exact (Term.lit_mem h).imp id fun h => .inr (.inr (.inl h))
    · exact .inl (h ▸ by decide)
    · exact .inr (.inl h)
    · exact .inl (h ▸ by decide)
    · exact .inr (.inr (.inl h))
    · exact .inl (h ▸ by decide)
    · exact (Cond.lit_mem h).imp id fun h => .inr (.inr (.inr h))
    · exact .inl (h ▸ by decide)
  | .exists_ source w', h => by
    simp only [Cond.pieces, lit, cons_append, mem_cons, mem_append, Piece.lit.injEq, not_mem_nil,
      or_false] at h
    simp only [Cond.names, mem_cons]
    rcases h with h | h | h | h | h
    · exact .inl (h ▸ by decide)
    · exact .inr (.inl h)
    · exact .inl (h ▸ by decide)
    · exact (Cond.lit_mem h).imp id .inr
    · exact .inl (h ▸ by decide)
  | .and l r, h | .or l r, h => by
    simp only [Cond.pieces, lit, mem_cons, mem_append, Piece.lit.injEq] at h
    simp only [Cond.names, mem_append]
    rcases h with h | h | h
    · exact (Cond.lit_mem h).imp id .inl
    · exact .inl (h ▸ by decide)
    · exact (Cond.lit_mem h).imp id .inr
  | .not c, h => by
    simp only [Cond.pieces, lit, mem_cons, Piece.lit.injEq] at h
    rcases h with h | h
    · exact .inl (h ▸ by decide)
    · exact Cond.lit_mem (c := c) h
  | .paren c, h | .orFalse c, h => by
    simp only [Cond.pieces, lit, cons_append, mem_cons, mem_append, Piece.lit.injEq, not_mem_nil,
      or_false] at h
    rcases h with h | h | h
    · exact .inl (h ▸ by decide)
    · exact Cond.lit_mem (c := c) h
    · exact .inl (h ▸ by decide)

end Sql
end Armature
