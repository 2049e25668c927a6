import Armature.GoCsv
import Armature.GoJson
/-!
# CsvImport — issues out as CSV and in again (`csvio/csvio.go`, `csvio/mapping.go`)

An export writes the issues' values in the columns asked for; an import reads the file and guesses from its headers which
columns fill what.  The times and the estimate of an issue are texts here, as `Format` writes them.
-/
namespace Armature
namespace Csvio

open List
open Go (Text Tables isAscii isSpace toLower trimSpace quote itoa)

def maxImportRows : Nat := 5000
def maxImportBytes : Nat := 8 * 2 ^ 20
def exportRows : Nat := 5000

def texts (ss : List String) : List Text := ss.map String.toList

def columns : List Text :=
  texts ["key", "summary", "type", "status", "statusCategory", "priority", "assignee", "reporter", "labels", "sprint", "milestone",
    "fixVersions", "components", "estimate", "created", "updated", "resolved", "due", "start", "parent"]

def defaultColumns : List Text := texts ["key", "summary", "type", "status", "priority", "assignee", "created"]

structure Issue where
  key : Text
  summary : Text
  type : Text
  status : Text
  statusCategory : Text
  priority : Text
  assignee : Option Text
  reporter : Option Text
  labels : List Text
  sprint : Option Text
  milestone : Option Text
  fixVersions : List Text
  components : List Text
  estimate : Option Text
  created : Text
  updated : Text
  resolved : Option Text
  due : Option Text
  start : Option Text
  parent : Text
  summary_ne : summary ≠ []

def formula : Text := ['=', '+', '-', '@', '\t', '\r']

def cell (s : Text) : Text := if s.head?.any (formula.contains ·) then '\'' :: s else s

def joined (names : List Text) : Text := List.intercalate "; ".toList names

def issueCell (i : Issue) (column : Text) : Text :=
  if column = "key".toList then i.key
  else if column = "summary".toList then i.summary
  else if column = "type".toList then i.type
  else if column = "status".toList then i.status
  else if column = "statusCategory".toList then i.statusCategory
  else if column = "priority".toList then i.priority
  else if column = "assignee".toList then i.assignee.getD []
  else if column = "reporter".toList then i.reporter.getD []
  else if column = "labels".toList then joined i.labels
  else if column = "sprint".toList then i.sprint.getD []
  else if column = "milestone".toList then i.milestone.getD []
  else if column = "fixVersions".toList then joined i.fixVersions
  else if column = "components".toList then joined i.components
  else if column = "estimate".toList then i.estimate.getD []
  else if column = "created".toList then i.created
  else if column = "updated".toList then i.updated
  else if column = "resolved".toList then i.resolved.getD []
  else if column = "due".toList then i.due.getD []
  else if column = "start".toList then i.start.getD []
  else if column = "parent".toList then i.parent
  else []

def rowOf (columns : List Text) (i : Issue) : List Text := columns.map fun c => cell (issueCell i c)

/-! ## The export -/

structure Exported where
  rows : Nat
  matched : Nat

def Exported.truncated (e : Exported) : Bool := decide (e.rows < e.matched)

def truncationNote (rows matched : Nat) : Text :=
  "This file holds the first ".toList ++ itoa rows ++ " of the ".toList ++ itoa matched ++
    " issues the query matches; narrow the query to export the rest.".toList

def columnsOf (chosen : List Text) : List Text := if chosen = [] then defaultColumns else chosen

def note (done : Exported) : List (List Text) := if done.truncated then [[truncationNote done.rows done.matched]] else []

def exportCsv (u : Tables) (chosen : List Text) (issues : List Issue) (total : Nat) : Except Text (Text × Exported) :=
  match (columnsOf chosen).find? fun c => !columns.contains c with
  | some c =>
    .error (quote u c ++ " is not a column; the columns are ".toList ++ List.intercalate ", ".toList columns)
  | none =>
    let done : Exported := ⟨issues.length, total⟩
    .ok (Go.Csv.write (columnsOf chosen :: issues.map (rowOf (columnsOf chosen)) ++ note done), done)

/-! ## The import -/

inductive ReadErr where
  | tooBig | notCsv | tooManyRows | empty
  deriving DecidableEq

def byteLen (s : Text) : Nat := (s.map Go.Json.utf8Len).sum

def byteOrderMark : Char := Char.ofNat 0xFEFF

def trimMark (data : Text) : Text := if data.head? = some byteOrderMark then data.tail else data

def read (data : Text) : Except ReadErr (List Text × List Go.Csv.Record) :=
  if maxImportBytes < byteLen data then .error .tooBig
  else
    let found := Go.Csv.read (trimMark data)
    if maxImportRows + 1 < found.1.length then .error .tooManyRows
    else if !found.2 then .error .notCsv
    else
      match found.1 with
      | [] => .error .empty
      | header :: rows => .ok (header.cells.map trimSpace, rows)

def manyValued : List Text :=
  texts ["labels", "sprint", "comments", "worklogs", "fixVersions", "affectsVersions", "components", "links:blocks",
    "links:blockedBy", "links:relates", "links:duplicates", "links:duplicatedBy"]

def aliases : List (Text × Text) :=
  List.map (fun p : String × String => (p.1.toList, p.2.toList))
    [("key", "key"), ("issue key", "key"), ("summary", "summary"), ("title", "summary"), ("name", "summary"),
    ("description", "description"), ("type", "type"), ("issue type", "type"), ("issuetype", "type"),
    ("status", "status"), ("priority", "priority"), ("assignee", "assignee"), ("reporter", "reporter"),
    ("parent", "parent"), ("parent key", "parent"), ("created", "created"), ("created date", "created"),
    ("updated", "updated"), ("updated date", "updated"), ("resolved", "resolved"), ("resolution date", "resolved"),
    ("due", "due"), ("due date", "due"), ("duedate", "due"), ("start", "start"), ("start date", "start"),
    ("custom field (target start)", "start"), ("estimate", "estimate"), ("story points", "estimate"),
    ("points", "estimate"), ("custom field (story points)", "estimate"), ("original estimate", "timeEstimate"),
    ("remaining estimate", "timeRemaining"), ("labels", "labels"), ("label", "labels"), ("tags", "labels"),
    ("custom field (epic link)", "epic"), ("custom field (parent link)", "epic"), ("sprint", "sprint"),
    ("custom field (team)", "team"), ("fix version/s", "fixVersions"), ("affects version/s", "affectsVersions"),
    ("component/s", "components"), ("comment", "comments"), ("log work", "worklogs"),
    ("outward issue link (blocks)", "links:blocks"), ("inward issue link (blocks)", "links:blockedBy"),
    ("outward issue link (relates)", "links:relates"), ("inward issue link (relates)", "links:relates"),
    ("outward issue link (duplicate)", "links:duplicates"), ("inward issue link (duplicate)", "links:duplicatedBy")]

abbrev Mapping := Text → List Nat

def targetOf (u : Tables) (header : Text) : Option Text := aliases.lookup (toLower u (trimSpace header))

def Mapping.add (m : Mapping) (at_ : Nat) (target : Text) : Mapping :=
  if m target ≠ [] ∧ target ∉ manyValued then m else fun t => if t = target then m t ++ [at_] else m t

def guessFrom (u : Tables) (m : Mapping) (at_ : Nat) : List Text → Mapping
  | [] => m
  | h :: hs => guessFrom u ((targetOf u h).elim m (m.add at_)) (at_ + 1) hs

def guess (u : Tables) (headers : List Text) : Mapping := guessFrom u (fun _ => []) 0 headers

def values (row : Go.Csv.Record) (m : Mapping) (target : Text) : List Text :=
  ((m target).filterMap fun at_ => row.cells[at_]?.map trimSpace).filter (· ≠ [])

def value (row : Go.Csv.Record) (m : Mapping) (target : Text) : Text := (values row m target).headD []

/-! ## The file of an export -/

section
variable {u : Tables}

theorem cell_no_formula (s : Text) : ∀ c ∈ (cell s).head?, c ∉ formula := by
  unfold cell
  split
  · intro c hc
    obtain rfl := Option.some_inj.1 hc
    decide
  · rename_i hnot
    intro c hc hmem
    rw [hc] at hnot
    exact hnot (contains_iff_mem.2 hmem)

theorem cell_ne_nil {s : Text} (h : s ≠ []) : cell s ≠ [] := by
  unfold cell
  split
  · exact cons_ne_nil _ _
  · exact h

structure Name (c : Text) : Prop where
  ne : c ≠ []
  head : ∀ r ∈ c.head?, r ≠ byteOrderMark ∧ r ∉ formula
  written : Go.Csv.writeField c = c
  unix : Go.Csv.unix c = c
  trimmed : trimSpace c = c
  ascii : ∀ r ∈ c, isAscii r = true

def isName (c : Text) : Bool :=
  !c.isEmpty && c.head?.all (fun r => r != byteOrderMark && !formula.contains r) && Go.Csv.writeField c == c && Go.Csv.unix c == c &&
    trimSpace c == c && c.all isAscii

theorem columns_isName : columns.all isName = true := by decide +kernel

variable {c t : Text} {m : Mapping} {row : Go.Csv.Record}

theorem columns_name (hc : c ∈ columns) : Name c := by
  have h := all_eq_true.1 columns_isName c hc
  simp only [isName, Bool.and_eq_true, Bool.not_eq_true', beq_iff_eq] at h
  obtain ⟨⟨⟨⟨⟨hne, hhead⟩, hwritten⟩, hunix⟩, htrim⟩, hascii⟩ := h
  refine ⟨isEmpty_eq_false_iff.1 hne, fun r hr => ?_, hwritten, hunix, htrim, fun r hr => all_eq_true.1 hascii r hr⟩
  rw [hr] at hhead
  obtain ⟨hmark, hform⟩ := Bool.and_eq_true_iff.1 hhead
  rw [bne_iff_ne] at hmark
  rw [Bool.not_eq_true', ← Bool.not_eq_true, contains_iff_mem] at hform
  exact ⟨hmark, hform⟩

theorem exported {chosen : List Text} {issues : List Issue} {total : Nat} {file : Text} {done : Exported}
    (h : exportCsv u chosen issues total = .ok (file, done)) :
    (∀ c ∈ columnsOf chosen, c ∈ columns) ∧ done = ⟨issues.length, total⟩ ∧
      file = Go.Csv.write (columnsOf chosen :: issues.map (rowOf (columnsOf chosen)) ++ note done) := by
  unfold exportCsv at h
  split at h
  · cases h
  · rename_i hnone
    obtain ⟨rfl, rfl⟩ := Prod.mk.inj (Except.ok.inj h)
    refine ⟨fun c hc => ?_, rfl, rfl⟩
    have hin := List.find?_eq_none.1 hnone c hc
    rw [Bool.not_eq_true, Bool.not_eq_false'] at hin
    exact contains_iff_mem.1 hin

theorem writeRecord_head : ∀ {fs : List Text} {f : Text}, Go.Csv.writeField f ≠ [] →
    (Go.Csv.writeRecord (f :: fs)).head? = (Go.Csv.writeField f).head?
  | [], _, h => List.head?_append_of_ne_nil _ h
  | _ :: _, _, h => List.head?_append_of_ne_nil _ h

theorem trimMark_write {cs : List Text} (hc : c ∈ columns) (records : List (List Text)) :
    trimMark (Go.Csv.write ((c :: cs) :: records)) = Go.Csv.write ((c :: cs) :: records) := by
  have hname := columns_name hc
  have hne : Go.Csv.writeField c ≠ [] := hname.written.symm ▸ hname.ne
  have hhead : (Go.Csv.write ((c :: cs) :: records)).head? = c.head? := by
    have hrecord : Go.Csv.writeRecord (c :: cs) ≠ [] := fun he => by
      have h : (Go.Csv.writeRecord (c :: cs)).head? = (Go.Csv.writeField c).head? := writeRecord_head hne
      rw [he, List.head?_nil, eq_comm, List.head?_eq_none_iff] at h
      exact hne h
    unfold Go.Csv.write
    rw [flatMap_cons, List.head?_append_of_ne_nil _ hrecord, writeRecord_head hne, hname.written]
  refine if_neg fun hmark => ?_
  rw [hhead] at hmark
  exact (hname.head _ hmark).1 rfl

/-! ## What is guessed of the headers -/

theorem add_mem {at_ n : Nat} {target : Text} (h : n ∈ m.add at_ target t) :
    n ∈ m t ∨ (t = target ∧ n = at_) := by
  unfold Mapping.add at h
  split at h
  · exact Or.inl h
  · dsimp only at h
    split at h
    · rename_i ht
      exact (mem_append.1 h).imp_right fun hn => ⟨ht, mem_singleton.1 hn⟩
    · exact Or.inl h

theorem add_ne (h : m t ≠ []) (at_ : Nat) (target : Text) : m.add at_ target t ≠ [] := by
  unfold Mapping.add
  split
  · exact h
  · dsimp only
    split
    · exact append_ne_nil_of_left_ne_nil h _
    · exact h

theorem add_self (m : Mapping) (at_ : Nat) (t : Text) : m.add at_ t t ≠ [] := by
  unfold Mapping.add
  split
  · rename_i hfull
    exact hfull.1
  · dsimp only
    rw [if_pos rfl]
    exact append_ne_nil_of_right_ne_nil _ (cons_ne_nil _ _)

theorem guessFrom_sound (headers : List Text) : ∀ (hs : List Text) (m : Mapping) (at_ : Nat), headers.drop at_ = hs →
    (∀ t, ∀ n ∈ m t, ∃ h, headers[n]? = some h ∧ targetOf u h = some t) →
    ∀ t, ∀ n ∈ guessFrom u m at_ hs t, ∃ h, headers[n]? = some h ∧ targetOf u h = some t
  | [], _, _, _, hm => hm
  | h :: hs, m, at_, hdrop, hm => by
    have hat : headers[at_]? = some h := by
      rw [← List.head?_drop, hdrop]
      rfl
    have hdrop' : headers.drop (at_ + 1) = hs := by
      rw [← tail_drop, hdrop]
      rfl
    refine guessFrom_sound headers hs _ (at_ + 1) hdrop' fun t n hn => ?_
    cases htarget : targetOf u h with
    | none =>
      rw [htarget] at hn
      exact hm t n hn
    | some =>
      rw [htarget] at hn
      rcases add_mem hn with hn | ⟨rfl, rfl⟩
      · exact hm t n hn
      · exact ⟨h, hat, htarget⟩

theorem guessFrom_keeps : ∀ (hs : List Text) (m : Mapping) (at_ : Nat) (t : Text), m t ≠ [] → guessFrom u m at_ hs t ≠ []
  | [], _, _, _, h => h
  | k :: hs, m, at_, t, h => by
    refine guessFrom_keeps hs _ (at_ + 1) t ?_
    cases targetOf u k with
    | none => exact h
    | some target => exact add_ne h at_ target

theorem guessFrom_finds : ∀ (hs : List Text) (m : Mapping) (at_ : Nat) {h t : Text}, h ∈ hs → targetOf u h = some t →
    guessFrom u m at_ hs t ≠ []
  | _ :: hs, m, at_, h, t, hmem, ht => by
    rcases mem_cons.1 hmem with rfl | hmem
    · refine guessFrom_keeps hs _ (at_ + 1) t ?_
      rw [ht]
      exact add_self m at_ t
    · exact guessFrom_finds hs _ (at_ + 1) hmem ht

theorem toLower_ascii {s : Text} (h : ∀ r ∈ s, isAscii r = true) : toLower u s = toLower Tables.ascii s := by
  refine map_congr_left fun r hr => ?_
  unfold Go.lowerRune
  rw [if_pos (h r hr), if_pos (h r hr)]

theorem columns_targeted : columns.all (fun c => (targetOf Tables.ascii c).all (· == c)) = true := by
  unfold columns targetOf aliases texts
  simp only [List.map]
  -- the runes of each literal are read off it, where a decision would decode its bytes
  repeat rw [String.toList_ofList]
  decide +kernel

theorem targetOf_column (hc : c ∈ columns) (hct : targetOf u c = some t) : t = c := by
  have hname := columns_name hc
  have h := all_eq_true.1 columns_targeted c hc
  unfold targetOf at h hct
  rw [hname.trimmed, toLower_ascii hname.ascii] at hct
  rw [hname.trimmed, hct] at h
  simpa using h

theorem targetOf_inj {d : Text} (hc : c ∈ columns) (hd : d ∈ columns) (hct : targetOf u c = some t)
    (hdt : targetOf u d = some t) : c = d :=
  (targetOf_column hc hct).symm.trans (targetOf_column hd hdt)

/-! ## What is read of a row -/

theorem values_of {v : Text} (h : ∀ n ∈ m t, row.cells[n]? = some v) :
    ∀ w ∈ values row m t, w = trimSpace v := by
  intro w hw
  obtain ⟨n, hn, he⟩ := mem_filterMap.1 (mem_filter.1 hw).1
  rw [h n hn] at he
  exact (Option.some_inj.1 he).symm

theorem value_of {v : Text} (hne : m t ≠ []) (h : ∀ n ∈ m t, row.cells[n]? = some v) :
    value row m t = trimSpace v := by
  unfold value
  cases hv : values row m t with
  | cons w ws =>
    have hmem : w ∈ values row m t := hv ▸ mem_cons_self
    exact values_of h w hmem
  | nil =>
    obtain ⟨n, ns, hm⟩ := exists_cons_of_ne_nil hne
    have hn : n ∈ m t := hm ▸ mem_cons_self
    by_contra hnot
    have hmem : trimSpace v ∈ values row m t :=
      mem_filter.2 ⟨mem_filterMap.2 ⟨n, hn, by rw [h n hn]; rfl⟩, decide_eq_true fun he => hnot he.symm⟩
    rw [hv] at hmem
    cases hmem

theorem value_guess {cols : List Text} {f : Text → Text} (hcols : ∀ c ∈ cols, c ∈ columns)
    (hrow : row.cells = cols.map f) (hc : c ∈ cols) (ht : targetOf u c = some t) :
    value row (guess u cols) t = trimSpace (f c) := by
  refine value_of (guessFrom_finds cols _ 0 hc ht) fun n hn => ?_
  obtain ⟨d, hd, hdt⟩ := guessFrom_sound cols cols _ 0 rfl (fun _ _ hn => absurd hn not_mem_nil) t n hn
  obtain rfl := targetOf_inj (hcols d (mem_of_getElem? hd)) (hcols c hc) hdt ht
  rw [hrow, List.getElem?_map, hd]
  rfl

theorem rows_of {cols : List Text} (hcols : ∀ c ∈ cols, c ∈ columns) : ∀ {issues : List Issue} {rows : List Go.Csv.Record},
    rows.map Go.Csv.Record.cells = issues.map (fun i => (rowOf cols i).map Go.Csv.unix) →
    List.Forall₂ (fun i row => ∀ c ∈ cols, ∀ t, targetOf u c = some t →
      value row (guess u cols) t = trimSpace (Go.Csv.unix (cell (issueCell i c)))) issues rows
  | [], [], _ => .nil
  | i :: issues, row :: rows, h => by
    rw [map_cons, map_cons, List.cons.injEq] at h
    refine .cons (fun c hc t ht => ?_) (rows_of hcols h.2)
    refine value_guess (f := fun c => Go.Csv.unix (cell (issueCell i c))) hcols ?_ hc ht
    rw [h.1, rowOf, map_map]
    rfl
  | [], _ :: _, h => absurd h (cons_ne_nil _ _)
  | _ :: _, [], h => absurd h.symm (cons_ne_nil _ _)

/-- **What an export wrote is read back**: a row for each issue, with the values that the file shows. -/
theorem import_gives_back {chosen : List Text} {issues : List Issue} {total : Nat} {file : Text} {done : Exported}
    (h : exportCsv u chosen issues total = .ok (file, done)) (hfull : done.truncated = false)
    (hsummary : "summary".toList ∈ columnsOf chosen) (hrows : issues.length ≤ exportRows) (hsize : byteLen file ≤ maxImportBytes) :
    (∃ headers rows, read file = .ok (headers, rows) ∧
      List.Forall₂ (fun i row => ∀ c ∈ columnsOf chosen, ∀ t, targetOf u c = some t →
        value row (guess u headers) t = trimSpace (Go.Csv.unix (cell (issueCell i c)))) issues rows) ∧
      ∀ record ∈ columnsOf chosen :: issues.map (rowOf (columnsOf chosen)), ∀ f ∈ record, ∀ c ∈ f.head?, c ∉ formula := by
  obtain ⟨hcols, -, rfl⟩ := exported h
  rw [note, if_neg (by rw [hfull]; exact Bool.false_ne_true), append_nil] at hsize ⊢
  generalize columnsOf chosen = cols at hsummary hcols hsize ⊢
  refine ⟨?_, fun record hrecord f hf c hc => ?_⟩
  · obtain ⟨first, others, rfl⟩ := exists_cons_of_ne_nil (ne_nil_of_mem hsummary)
    have hshown : ∀ r ∈ (first :: others) :: issues.map (rowOf (first :: others)), r ≠ [] ∧ r ≠ [[]] := by
      intro r hr
      rcases mem_cons.1 hr with rfl | hr
      · refine ⟨cons_ne_nil _ _, fun he => ?_⟩
        exact (columns_name (hcols first mem_cons_self)).ne (List.cons.inj he).1
      · obtain ⟨i, -, rfl⟩ := mem_map.1 hr
        refine ⟨cons_ne_nil _ _, fun he => ?_⟩
        obtain ⟨hcell, hnil⟩ := List.cons.inj he
        obtain rfl := map_eq_nil_iff.1 hnil
        obtain rfl := mem_singleton.1 hsummary
        exact cell_ne_nil i.summary_ne hcell
    obtain ⟨hcells, hall⟩ := Go.Csv.read_write _ hshown
    rw [map_cons, map_map] at hcells
    unfold read
    rw [if_neg (Nat.not_lt.2 hsize), trimMark_write (hcols first mem_cons_self)]
    generalize Go.Csv.read (Go.Csv.write ((first :: others) :: issues.map (rowOf (first :: others)))) = found at hcells hall
    obtain ⟨records, whole⟩ := found
    cases records with
    | nil => cases hcells
    | cons header rows =>
      rw [map_cons, List.cons.injEq] at hcells
      have hlen : rows.length = issues.length := by
        have hl := congrArg List.length hcells.2
        rwa [length_map, length_map] at hl
      have hheader : header.cells.map trimSpace = first :: others := by
        rw [hcells.1, map_map]
        refine (map_congr_left fun c hc => ?_).trans (map_id _)
        have hname := columns_name (hcols c hc)
        show trimSpace (Go.Csv.unix c) = c
        rw [hname.unix, hname.trimmed]
      refine ⟨first :: others, rows, ?_, rows_of hcols hcells.2⟩
      dsimp only at hall ⊢
      rw [if_neg (by rw [length_cons, hlen]; exact Nat.not_lt.2 (Nat.succ_le_succ hrows)), hall, hheader]
      rfl
  · rcases mem_cons.1 hrecord with rfl | hrecord
    · exact ((columns_name (hcols f hf)).head c hc).2
    · obtain ⟨i, -, rfl⟩ := mem_map.1 hrecord
      obtain ⟨column, -, rfl⟩ := mem_map.1 hf
      exact cell_no_formula _ c hc

end

/-! ## A quoted summary, and a formula for one -/

def issueOf (key summary : String) (h : summary.toList ≠ []) : Issue where
  key := key.toList
  summary := summary.toList
  type := "Task".toList
  status := "To Do".toList
  statusCategory := "todo".toList
  priority := "medium".toList
  assignee := none
  reporter := none
  labels := []
  sprint := none
  milestone := none
  fixVersions := []
  components := []
  estimate := none
  created := "2026-01-01T00:00:00Z".toList
  updated := "2026-01-01T00:00:00Z".toList
  resolved := none
  due := none
  start := none
  parent := []
  summary_ne := h

def asked : Issue := issueOf "CP-1" "He asked, \"why?\"" (by decide)

def summed : Issue := issueOf "CP-2" "=1+1" (by decide)

def askedFile : Text := "summary,key\n\"He asked, \"\"why?\"\"\",CP-1\n'=1+1,CP-2\n".toList

theorem asked_exported : exportCsv Tables.ascii (texts ["summary", "key"]) [asked, summed] 2 = .ok (askedFile, ⟨2, 2⟩) := by
  have hfile : Go.Csv.write (texts ["summary", "key"] :: [asked, summed].map (rowOf (texts ["summary", "key"]))) = askedFile := by
    decide +kernel
  exact congrArg (fun file => Except.ok (file, Exported.mk 2 2)) hfile

theorem asked_read : (∃ headers rows, read askedFile = .ok (headers, rows) ∧
      List.Forall₂ (fun i row => ∀ c ∈ columnsOf (texts ["summary", "key"]), ∀ t, targetOf Tables.ascii c = some t →
        value row (guess Tables.ascii headers) t = trimSpace (Go.Csv.unix (cell (issueCell i c)))) [asked, summed] rows) ∧
      ∀ record ∈ columnsOf (texts ["summary", "key"]) :: [asked, summed].map (rowOf (columnsOf (texts ["summary", "key"]))),
        ∀ f ∈ record, ∀ c ∈ f.head?, c ∉ formula :=
  import_gives_back asked_exported rfl (by decide) (by decide) (by decide +kernel)

def summedFile : Text := "summary\n'=1+1\n".toList

/-- The apostrophe of the export stays in the summary. -/
theorem summed_kept : ¬ ∀ (u : Tables) (chosen : List Text) (issues : List Issue) (total : Nat) (file : Text) (done : Exported),
    exportCsv u chosen issues total = .ok (file, done) → done.truncated = false → "summary".toList ∈ columnsOf chosen →
    (∃ headers rows, read file = .ok (headers, rows) ∧
      List.Forall₂ (fun i row => ∀ c ∈ columnsOf chosen, ∀ t, targetOf u c = some t →
        value row (guess u headers) t = trimSpace (issueCell i c)) issues rows) ∧
      ∀ record ∈ columnsOf chosen :: issues.map (rowOf (columnsOf chosen)), ∀ f ∈ record, ∀ c ∈ f.head?, c ∉ formula := by
  intro hall
  have hfile : Go.Csv.write ([texts ["summary"], rowOf (texts ["summary"]) summed]) = summedFile := by decide +kernel
  have hexported : exportCsv Tables.ascii (texts ["summary"]) [summed] 1 = .ok (summedFile, ⟨1, 1⟩) :=
    congrArg (fun file => Except.ok (file, Exported.mk 1 1)) hfile
  obtain ⟨⟨headers, rows, hread, hrows⟩, -⟩ := hall _ _ _ _ _ _ hexported rfl (by decide)
  have hread' : read summedFile = .ok (texts ["summary"], [⟨["'=1+1".toList], 2⟩]) := by decide +kernel
  rw [hread'] at hread
  obtain ⟨rfl, rfl⟩ := Prod.mk.inj (Except.ok.inj hread)
  obtain ⟨hrow, -⟩ := forall₂_cons.1 hrows
  have hvalue := hrow "summary".toList (by decide) "summary".toList (by decide +kernel)
  exact absurd hvalue (by decide +kernel)

end Csvio
end Armature
