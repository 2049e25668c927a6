import Armature.DependencyLayers
import Mathlib.Data.List.Perm.Basic
/-!
# DependencyRows — every key of a column gets a row of its own

The sweeps reorder the columns and nothing else (`order_placed`), and the places do not depend on the order in which the keys
and the edges come (`order_perm`).
-/
namespace Armature
namespace DependencyGraph

open List hiding get set get_of_mem
open Go (Text)
open InsertionMap (get set setAll pushAll get_set get_isSome get_of_mem mem_of_get get_pushAll keys_pushAll keys_set mem_keys_set)

/-! ## Sorting -/

variable {α : Type} {s : Rows} {column : Nat × List Text} {key : Text}

theorem sort_perm (order : α → α → Ordering) (l : List α) : (sort order l).Perm l := mergeSort_perm l _

theorem sort_eq {order : α → α → Ordering} [Std.TransCmp order] {l l' : List α} (hperm : l.Perm l')
    (htold : ∀ x ∈ l, ∀ y ∈ l, order x y = .eq → x = y) : sort order l = sort order l' := by
  have hswap : ∀ x y, order y x = (order x y).swap := fun x y => Std.OrientedCmp.eq_swap
  have hsorted : ∀ l : List α, (sort order l).Pairwise fun x y => (order x y).isLE = true := by
    refine fun l => pairwise_mergeSort (fun x y z => Std.TransCmp.isLE_trans) (fun x y => ?_) l
    rw [hswap x y]
    cases order x y <;> rfl
  have hboth := (sort_perm order l).trans (hperm.trans (sort_perm order l').symm)
  refine hboth.eq_of_pairwise (fun x y hx hy hxy hyx => ?_) (hsorted l) (hsorted l')
  refine htold x ((sort_perm order l).mem_iff.1 hx) y (hperm.mem_iff.2 ((sort_perm order l').mem_iff.1 hy)) ?_
  rw [hswap x y] at hyx
  cases hcmp : order x y with
  | eq => rfl
  | lt =>
    rw [hcmp] at hyx
    cases hyx
  | gt =>
    rw [hcmp] at hxy
    cases hxy

/-! ## Columns -/

structure Filled (layer : List (Text × Nat)) (columns : List (Nat × List Text)) : Prop where
  keys : (columns.map Prod.fst).Nodup
  rows : ∀ c list, get columns c = some list → list.Perm ((layer.filter fun p => p.2 = c).map Prod.fst)
  all : ∀ c, c ∈ columns.map Prod.fst ↔ c ∈ layer.map Prod.snd

theorem get_map {α β γ : Type} [DecidableEq α] (f : β → γ) (k : α) : ∀ m : List (α × β),
    get (m.map fun p => (p.1, f p.2)) k = (get m k).map f
  | [] => rfl
  | (j, v) :: m => by
    rw [map_cons, InsertionMap.get, InsertionMap.get, get_map f k m]
    split <;> rfl

theorem get_columnsOf (b : Builtins) (layer : List (Text × Nat)) (c : Nat) : get (columnsOf b layer) c =
    if c ∈ layer.map Prod.snd then some (sort (keyOrder b) ((layer.filter fun p => p.2 = c).map Prod.fst)) else none := by
  have hlist := get_pushAll (Prod.snd : Text × Nat → Nat) Prod.fst c layer []
  have hmem := (keys_pushAll (Prod.snd : Text × Nat → Nat) Prod.fst layer (m := []) nodup_nil).2 c
  rw [← get_isSome, map_nil, or_iff_right not_mem_nil] at hmem
  unfold columnsOf
  rw [get_map]
  cases hget : get (pushAll Prod.snd Prod.fst [] layer) c with
  | none =>
    rw [hget] at hmem
    rw [if_neg fun h => nomatch hmem.2 h]
    rfl
  | some =>
    rw [hget] at hlist hmem
    rw [if_pos (hmem.1 rfl), Option.map_some]
    exact congrArg (fun l => some (sort (keyOrder b) l)) hlist

theorem keys_columnsOf (b : Builtins) (layer : List (Text × Nat)) : ((columnsOf b layer).map Prod.fst).Nodup := by
  have hkeys := (keys_pushAll (Prod.snd : Text × Nat → Nat) Prod.fst layer (m := []) nodup_nil).1
  unfold columnsOf
  rw [map_map]
  exact hkeys

theorem columnsOf_filled (b : Builtins) (layer : List (Text × Nat)) : Filled layer (columnsOf b layer) := by
  refine ⟨keys_columnsOf b layer, fun c list h => ?_, fun c => ?_⟩
  · rw [get_columnsOf] at h
    split at h
    · obtain rfl := Option.some.inj h
      exact sort_perm _ _
    · cases h
  · rw [← get_isSome, get_columnsOf]
    split
    · exact iff_of_true rfl ‹_›
    · exact iff_of_false nofun ‹_›

theorem Filled.pull {layer : List (Text × Nat)} (h : Filled layer s.columns) (b : Builtins)
    (preds : List (Text × List Text)) (c : Nat) : Filled layer (pull b preds s c).columns := by
  unfold DependencyGraph.pull
  cases hget : get s.columns c with
  | none => exact h
  | some list =>
    have hc : c ∈ s.columns.map Prod.fst := get_isSome.1 (hget ▸ rfl)
    dsimp only
    refine ⟨?_, fun d list' hd => ?_, fun d => ?_⟩
    · rw [keys_set, if_pos hc]
      exact h.keys
    · rw [get_set] at hd
      split at hd
      · rename_i hcd
        obtain rfl := Option.some.inj hd
        exact hcd ▸ (sort_perm _ _).trans (h.rows c list hget)
      · exact h.rows d list' hd
    · rw [keys_set, if_pos hc]
      exact h.all d

theorem Filled.foldl_pull {layer : List (Text × Nat)} (b : Builtins) (preds : List (Text × List Text)) :
    ∀ (cs : List Nat) {s : Rows}, Filled layer s.columns → Filled layer (cs.foldl (DependencyGraph.pull b preds) s).columns
  | [], _, h => h
  | c :: cs, _, h => Filled.foldl_pull b preds cs (h.pull b preds c)

theorem Filled.sweeps {layer : List (Text × Nat)} (h : Filled layer s.columns) (b : Builtins)
    (preds : List (Text × List Text)) : Filled layer (sweeps b preds s).columns :=
  Filled.foldl_pull b preds _ (Filled.foldl_pull b preds _ h)

/-! ## Places -/

/-- Every key has one place, in its own column, and no two keys have the same. -/
structure Placed (layer : List (Text × Nat)) (rows : List (Text × Place)) : Prop where
  keys : (rows.map Prod.fst).Nodup
  all : ∀ key, key ∈ rows.map Prod.fst ↔ key ∈ layer.map Prod.fst
  column : ∀ key place, (key, place) ∈ rows → (key, place.column) ∈ layer
  apart : ∀ key key' place, (key, place) ∈ rows → (key', place) ∈ rows → key = key'

theorem placesOf_keys (column : Nat × List Text) : (placesOf column).map Prod.fst = column.2 := by
  unfold placesOf
  rw [map_map]
  exact zipIdx_map_fst 0 column.2

theorem mem_placesOf {place : Place} :
    (key, place) ∈ placesOf column ↔ column.1 = place.column ∧ column.2[place.row]? = some key := by
  unfold placesOf
  rw [mem_map]
  constructor
  · rintro ⟨⟨k, row⟩, hmem, heq⟩
    obtain ⟨rfl, rfl⟩ := Prod.mk.inj heq
    exact ⟨rfl, mem_zipIdx_iff_getElem?.1 hmem⟩
  · rintro ⟨hcolumn, hrow⟩
    refine ⟨(key, place.row), mem_zipIdx_iff_getElem?.2 hrow, ?_⟩
    rw [hcolumn]

variable {layer : List (Text × Nat)} {columns : List (Nat × List Text)}

theorem Filled.mem_list (h : Filled layer columns) (hc : column ∈ columns) :
    key ∈ column.2 ↔ (key, column.1) ∈ layer := by
  have hperm := h.rows column.1 column.2 (get_of_mem h.keys hc)
  rw [hperm.mem_iff, mem_map]
  constructor
  · rintro ⟨⟨k, c⟩, hmem, rfl⟩
    obtain ⟨hmem, heq⟩ := mem_filter.1 hmem
    obtain rfl := of_decide_eq_true heq
    exact hmem
  · exact fun hmem => ⟨(key, column.1), mem_filter.2 ⟨hmem, decide_eq_true rfl⟩, rfl⟩

theorem Filled.nodup_list (h : Filled layer columns) (hlayer : (layer.map Prod.fst).Nodup)
    (hc : column ∈ columns) : column.2.Nodup := by
  have hperm := h.rows column.1 column.2 (get_of_mem h.keys hc)
  exact hperm.nodup_iff.2 (hlayer.sublist (filter_sublist.map _))

theorem Filled.disjoint (h : Filled layer columns) (hlayer : (layer.map Prod.fst).Nodup) {c d : Nat × List Text}
    (hc : c ∈ columns) (hd : d ∈ columns) (hkc : key ∈ c.2) (hkd : key ∈ d.2) : c = d := by
  have heq : c.1 = d.1 := congrArg Prod.snd
    (inj_on_of_nodup_map hlayer ((h.mem_list hc).1 hkc) ((h.mem_list hd).1 hkd) rfl)
  exact inj_on_of_nodup_map h.keys hc hd heq

theorem Filled.places (h : Filled layer columns) (hlayer : (layer.map Prod.fst).Nodup) :
    Placed layer (columns.flatMap placesOf) := by
  have hkeys : (columns.flatMap placesOf).map Prod.fst = columns.flatMap Prod.snd := by
    rw [map_flatMap]
    exact flatMap_congr fun column _ => placesOf_keys column
  have hplace : ∀ {key : Text} {place : Place}, (key, place) ∈ columns.flatMap placesOf →
      ∃ column ∈ columns, column.1 = place.column ∧ column.2[place.row]? = some key := by
    intro key place hmem
    obtain ⟨column, hc, hmem⟩ := mem_flatMap.1 hmem
    exact ⟨column, hc, mem_placesOf.1 hmem⟩
  refine ⟨?_, fun key => ?_, fun key place hmem => ?_, fun key key' place hmem hmem' => ?_⟩
  · rw [hkeys, nodup_flatMap]
    refine ⟨fun column hc => h.nodup_list hlayer hc, ?_⟩
    refine h.keys.of_map.imp_of_mem fun hc hd hne => ?_
    intro key hkc hkd
    exact hne (h.disjoint hlayer hc hd hkc hkd)
  · rw [hkeys, mem_flatMap]
    constructor
    · rintro ⟨column, hc, hkey⟩
      exact mem_map_of_mem ((h.mem_list hc).1 hkey)
    · intro hkey
      obtain ⟨⟨k, c⟩, hmem, rfl⟩ := mem_map.1 hkey
      obtain ⟨column, hc, hcc⟩ := mem_map.1 ((h.all c).2 (mem_map_of_mem hmem))
      exact ⟨column, hc, (h.mem_list hc).2 (by rw [hcc]; exact hmem)⟩
  · obtain ⟨column, hc, hcolumn, hrow⟩ := hplace hmem
    rw [← hcolumn]
    exact (h.mem_list hc).1 (mem_of_getElem? hrow)
  · obtain ⟨column, hc, hcolumn, hrow⟩ := hplace hmem
    obtain ⟨column', hc', hcolumn', hrow'⟩ := hplace hmem'
    obtain rfl := inj_on_of_nodup_map h.keys hc hc' (hcolumn.trans hcolumn'.symm)
    exact Option.some.inj (hrow.symm.trans hrow')

theorem setAll_flatMap {β γ : Type} [DecidableEq α] (f : γ → List (α × β)) {l : List γ}
    (h : ((l.flatMap f).map Prod.fst).Nodup) : l.foldl (fun out x => setAll out (f x)) [] = l.flatMap f := by
  have hall : setAll [] (l.flatMap f) = l.flatMap f := InsertionMap.setAll_eq (l.flatMap f) h
  rw [← hall]
  unfold setAll
  rw [foldl_flatMap]

theorem order_eq (hlayer : (layer.map Prod.fst).Nodup) (b : Builtins) (forward : List GraphEdge) : order b layer forward =
    (sweeps b (predsOf forward) ⟨columnsOf b layer, settle (columnsOf b layer) fun _ => none⟩).columns.flatMap placesOf :=
  setAll_flatMap placesOf (((columnsOf_filled b layer).sweeps b (predsOf forward)).places hlayer).keys

theorem order_placed (hlayer : (layer.map Prod.fst).Nodup) (b : Builtins) (forward : List GraphEdge) :
    Placed layer (order b layer forward) := by
  rw [order_eq hlayer]
  exact ((columnsOf_filled b layer).sweeps b (predsOf forward)).places hlayer

/-! ## The order things come in -/

theorem settleColumn_apply (key : Text) : ∀ (list : List Text) (n : Nat) (rowOf : Text → Option Nat), list.Nodup →
    (list.zipIdx n).foldl (fun rowOf (key, row) => Function.update rowOf key (some row)) rowOf key =
      if key ∈ list then some (n + list.idxOf key) else rowOf key
  | [], _, _, _ => rfl
  | k :: list, n, rowOf, h => by
    obtain ⟨hk, hlist⟩ := nodup_cons.1 h
    rw [zipIdx_cons, foldl_cons, settleColumn_apply key list (n + 1) _ hlist]
    dsimp only
    by_cases hkey : key = k
    · subst hkey
      rw [if_neg hk, if_pos mem_cons_self, Function.update_self, idxOf_cons_self]
      rfl
    · rw [Function.update_of_ne hkey, idxOf_cons_ne _ (Ne.symm hkey)]
      by_cases hmem : key ∈ list
      · rw [if_pos hmem, if_pos (mem_cons_of_mem _ hmem)]
        congr 1
        omega
      · rw [if_neg hmem, if_neg fun h => hmem ((mem_cons.1 h).resolve_left hkey)]

theorem settle_perm (h : Filled layer columns) (hlayer : (layer.map Prod.fst).Nodup) {columns' : List (Nat × List Text)}
    (hperm : columns.Perm columns') (rowOf : Text → Option Nat) : settle columns rowOf = settle columns' rowOf := by
  refine hperm.foldl_eq' (fun c hc d hd rowOf => ?_) rowOf
  funext key
  unfold settleColumn
  simp only [settleColumn_apply key _ 0 _ (h.nodup_list hlayer hc), settleColumn_apply key _ 0 _ (h.nodup_list hlayer hd)]
  by_cases hkc : key ∈ c.2
  · by_cases hkd : key ∈ d.2
    · rw [h.disjoint hlayer hc hd hkc hkd]
    · rw [if_neg hkd, if_neg hkd]
  · rw [if_neg hkc, if_neg hkc]

/-- Rows that are the same, whichever order the columns were met in. -/
structure Same (s s' : Rows) : Prop where
  columns : ∀ c, get s.columns c = get s'.columns c
  rowOf : s.rowOf = s'.rowOf

variable {b : Builtins} {preds preds' : List (Text × List Text)}

theorem centre_perm (hpreds : ∀ key, ((get preds key).getD []).Perm ((get preds' key).getD [])) (rowOf : Text → Option Nat)
    (key : Text) : centre b preds rowOf key = centre b preds' rowOf key := by
  unfold centre
  dsimp only
  rw [(hpreds key).length_eq, ((hpreds key).map fun p => (rowOf p).getD 0).sum_eq]

theorem Same.pull {s' : Rows} (h : Same s s') (hpreds : ∀ key, ((get preds key).getD []).Perm ((get preds' key).getD []))
    (c : Nat) : Same (pull b preds s c) (pull b preds' s' c) := by
  unfold DependencyGraph.pull
  simp only [centre_perm hpreds, ← h.columns, ← h.rowOf]
  cases get s.columns c with
  | none => exact h
  | some =>
    refine ⟨fun d => ?_, rfl⟩
    dsimp only
    rw [get_set, get_set, h.columns]

theorem Same.foldl_pull (hpreds : ∀ key, ((get preds key).getD []).Perm ((get preds' key).getD [])) : ∀ (cs : List Nat)
    {s s' : Rows}, Same s s' → Same (cs.foldl (DependencyGraph.pull b preds) s) (cs.foldl (DependencyGraph.pull b preds') s')
  | [], _, _, h => h
  | c :: cs, _, _, h => Same.foldl_pull hpreds cs (h.pull hpreds c)

theorem Same.sweeps {s' : Rows} (h : Same s s') (hperm : s.columns.Perm s'.columns)
    (hpreds : ∀ key, ((get preds key).getD []).Perm ((get preds' key).getD [])) :
    Same (sweeps b preds s) (sweeps b preds' s') := by
  have hdepth : (s.columns.map Prod.fst).foldl max 0 = (s'.columns.map Prod.fst).foldl max 0 :=
    (hperm.map Prod.fst).foldl_eq' (fun x _ y _ z => Nat.max_right_comm z x y) 0
  unfold DependencyGraph.sweeps
  rw [hdepth]
  exact Same.foldl_pull hpreds _ (Same.foldl_pull hpreds _ h)

theorem predsOf_perm {forward forward' : List GraphEdge} (hperm : forward.Perm forward') (key : Text) :
    ((get (predsOf forward) key).getD []).Perm ((get (predsOf forward') key).getD []) := by
  unfold predsOf
  rw [get_pushAll, get_pushAll]
  exact (hperm.filter _).map GraphEdge.from_

theorem order_perm [Std.TransCmp (keyOrder b)] {layer' : List (Text × Nat)} {forward forward' : List GraphEdge}
    (hlayer : (layer.map Prod.fst).Nodup) (hperm : layer.Perm layer') (hforward : forward.Perm forward')
    (htold : ∀ x ∈ layer.map Prod.fst, ∀ y ∈ layer.map Prod.fst, keyOrder b x y = .eq → x = y) :
    (order b layer forward).Perm (order b layer' forward') := by
  have hlayer' : (layer'.map Prod.fst).Nodup := ((hperm.map Prod.fst).nodup_iff).1 hlayer
  have hget : ∀ c, get (columnsOf b layer) c = get (columnsOf b layer') c := by
    intro c
    have hin : ∀ x ∈ (layer.filter fun p => p.2 = c).map Prod.fst, x ∈ layer.map Prod.fst := fun x hx =>
      (filter_sublist.map Prod.fst).subset hx
    have hsort : sort (keyOrder b) ((layer.filter fun p => p.2 = c).map Prod.fst) =
        sort (keyOrder b) ((layer'.filter fun p => p.2 = c).map Prod.fst) :=
      sort_eq ((hperm.filter _).map Prod.fst) fun x hx y hy => htold x (hin x hx) y (hin y hy)
    rw [get_columnsOf, get_columnsOf, hsort]
    simp only [(hperm.map Prod.snd).mem_iff]
  have hcolumns := InsertionMap.perm_of_get (keys_columnsOf b layer) (keys_columnsOf b layer') hget
  have hstart : Same ⟨columnsOf b layer, settle (columnsOf b layer) fun _ => none⟩
      ⟨columnsOf b layer', settle (columnsOf b layer') fun _ => none⟩ :=
    ⟨hget, settle_perm (columnsOf_filled b layer) hlayer hcolumns _⟩
  have hsame := hstart.sweeps (b := b) hcolumns (predsOf_perm hforward)
  rw [order_eq hlayer, order_eq hlayer']
  refine List.Perm.flatMap_right placesOf (InsertionMap.perm_of_get ?_ ?_ hsame.columns)
  · exact ((columnsOf_filled b layer).sweeps b (predsOf forward)).keys
  · exact ((columnsOf_filled b layer').sweeps b (predsOf forward')).keys

end DependencyGraph
end Armature
