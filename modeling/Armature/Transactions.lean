import Mathlib.Data.List.Pairwise
import Mathlib.Logic.Relation
/-!
# Transactions — committed data, and what running transactions have written to it

A transaction's statements run against what is committed, once the locks they wait for are free; what they wrote is seen by
nobody until the transaction commits, or never if it rolls back.  `may` says which effects a transaction can have written at
a moment, beside those that are running; `ok`, which commits the runs under discussion have, beside the others running.
-/
namespace Armature
namespace Transactions

open List

variable {D E : Type}

structure Active (D E : Type) where
  db : D
  /-- What the running transactions have written. -/
  running : List E

inductive Step (apply : E → D → D) (may : D → List E → E → Prop) (ok : D → List E → E → Prop) : Active D E → Active D E → Prop where
  | write {db : D} {running : List E} {e : E} : may db running e → Step apply may ok ⟨db, running⟩ ⟨db, e :: running⟩
  | commit {db : D} {l r : List E} {e : E} : ok db (l ++ r) e → Step apply may ok ⟨db, l ++ e :: r⟩ ⟨apply e db, l ++ r⟩
  | rollback {db : D} {l r : List E} {e : E} : Step apply may ok ⟨db, l ++ e :: r⟩ ⟨db, l ++ r⟩

def RunWhere (apply : E → D → D) (may : D → List E → E → Prop) (ok : D → List E → E → Prop) (db : D) (s : Active D E) : Prop :=
  Relation.ReflTransGen (Step apply may ok) ⟨db, []⟩ s

abbrev Run (apply : E → D → D) (may : D → List E → E → Prop) (db : D) (s : Active D E) : Prop :=
  RunWhere apply may (fun _ _ _ => True) db s

section
variable {apply : E → D → D} {may : D → List E → E → Prop} {ok : D → List E → E → Prop}

theorem RunWhere.start (db : D) : RunWhere apply may ok db ⟨db, []⟩ := Relation.ReflTransGen.refl

theorem RunWhere.write {db d : D} {running : List E} {e : E} (h : RunWhere apply may ok db ⟨d, running⟩)
    (hm : may d running e) : RunWhere apply may ok db ⟨d, e :: running⟩ :=
  Relation.ReflTransGen.tail h (.write hm)

theorem RunWhere.commit {db d : D} (l : List E) {r : List E} {e : E} (h : RunWhere apply may ok db ⟨d, l ++ e :: r⟩)
    (ho : ok d (l ++ r) e) : RunWhere apply may ok db ⟨apply e d, l ++ r⟩ :=
  Relation.ReflTransGen.tail h (.commit ho)

theorem holds_on {I : D → List E → Prop} (hwrite : ∀ db running e, I db running → may db running e → I db (e :: running))
    (hcommit : ∀ db l r e, I db (l ++ e :: r) → ok db (l ++ r) e → I (apply e db) (l ++ r))
    (hrollback : ∀ db l r e, I db (l ++ e :: r) → I db (l ++ r)) {s s' : Active D E} (h₀ : I s.db s.running)
    (h : Relation.ReflTransGen (Step apply may ok) s s') : I s'.db s'.running := by
  induction h with
  | refl => exact h₀
  | tail _ hs ih =>
    cases hs with
    | write hw => exact hwrite _ _ _ ih hw
    | commit ho => exact hcommit _ _ _ _ ih ho
    | rollback => exact hrollback _ _ _ _ ih

theorem RunWhere.holds {I : D → List E → Prop} (hwrite : ∀ db running e, I db running → may db running e → I db (e :: running))
    (hcommit : ∀ db l r e, I db (l ++ e :: r) → ok db (l ++ r) e → I (apply e db) (l ++ r))
    (hrollback : ∀ db l r e, I db (l ++ e :: r) → I db (l ++ r)) {db : D} {s : Active D E} (h₀ : I db [])
    (h : RunWhere apply may ok db s) : I s.db s.running :=
  holds_on hwrite hcommit hrollback h₀ h

theorem RunWhere.invariant {P : D → Prop} (hcommit : ∀ db others e, P db → ok db others e → P (apply e db)) {db : D} {s : Active D E}
    (h₀ : P db) (h : RunWhere apply may ok db s) : P s.db :=
  RunWhere.holds (I := fun d _ => P d) (fun _ _ _ hp _ => hp) (fun _ _ _ _ hp ho => hcommit _ _ _ hp ho)
    (fun _ _ _ _ hp => hp) h₀ h

def Relied (P : D → Prop) (G : D → E → Prop) (R : E → E → Prop) (db : D) (running : List E) : Prop :=
  P db ∧ (∀ e ∈ running, G db e) ∧ running.Pairwise R

theorem relied_on {P : D → Prop} {G : D → E → Prop} {R : E → E → Prop} (hsymm : ∀ e t, R e t → R t e)
    (hmay : ∀ db running e, P db → may db running e → G db e ∧ ∀ t ∈ running, R e t)
    (hcommit : ∀ db e, P db → G db e → P (apply e db))
    (hstable : ∀ db e t, P db → G db e → G db t → R e t → G (apply e db) t)
    {s s' : Active D E} (h₀ : Relied P G R s.db s.running) (h : Relation.ReflTransGen (Step apply may ok) s s') :
    Relied P G R s'.db s'.running := by
  refine holds_on (I := Relied P G R) ?_ ?_ ?_ h₀ h
  · rintro db running e ⟨hp, hg, hr⟩ hw
    obtain ⟨hge, hre⟩ := hmay _ _ _ hp hw
    exact ⟨hp, forall_mem_cons.2 ⟨hge, hg⟩, pairwise_cons.2 ⟨hre, hr⟩⟩
  · rintro db l r e ⟨hp, hg, hr⟩ -
    have hge := hg e (mem_append_right _ mem_cons_self)
    obtain ⟨hl, her, hcross⟩ := pairwise_append.1 hr
    obtain ⟨hre, hr'⟩ := pairwise_cons.1 her
    refine ⟨hcommit _ _ hp hge, fun t ht => ?_, pairwise_append.2 ⟨hl, hr', fun a ha b hb =>
      hcross a ha b (mem_cons_of_mem _ hb)⟩⟩
    rcases mem_append.1 ht with ht | ht
    · exact hstable _ _ _ hp hge (hg t (mem_append_left _ ht)) (hsymm _ _ (hcross t ht e mem_cons_self))
    · exact hstable _ _ _ hp hge (hg t (mem_append_right _ (mem_cons_of_mem _ ht))) (hre t ht)
  · rintro db l r e ⟨hp, hg, hr⟩
    have hsub : (l ++ r).Sublist (l ++ e :: r) := (List.Sublist.refl l).append (sublist_cons_self e r)
    exact ⟨hp, fun t ht => hg t (hsub.subset ht), hr.sublist hsub⟩

end
end Transactions
end Armature
