import Armature.IssueEdit
/-!
# AssigneeMail — the mail that somebody handles a request (`desk/mail.go`, `issue/update.go`, `bulk/bulk.go`)

The notifier reads the handler back from the changes that an edit announced, by their field's name, and mails the reporter
and the watchers as they are when it reads.  The ids that a mail is threaded by are left out.
-/
namespace Armature
namespace Editing

open List
open Go (Text Json)
open Wf (Uuid)
open Issues (Change Ref Issue Key Setup Statuses)

/-! ## The notifier -/

/-- An issue that was raised through the portal of a service project. -/
structure Request where
  id : Uuid
  key : Key
  summary : Text
  reporter : Option Uuid

structure User where
  id : Uuid
  email : Text
  isActive : Bool

structure Portal where
  requests : List Request
  users : List User
  watchers : Uuid → List Uuid
  /-- The order of texts. -/
  collate : Text → Text → Bool

structure Notifier where
  appURL : Text
  inbox : Text
  queryEscape : Text → Text

structure Message where
  subject : Text
  body : Text
  deriving DecidableEq

structure Mail where
  to_ : Text
  subject : Text
  body : Text
  replyTo : Text
  deriving DecidableEq

structure Recipient where
  email : Text
  reporter : Bool
  deriving DecidableEq

def keyText (key : Key) : Text := (Issues.formatKey key.projectKey key.num).toList

def assignedMessage (key summary who link : Text) : Message where
  subject := "[".toList ++ key ++ "] ".toList ++ who ++ " is handling your request".toList
  body := who ++ " is handling ".toList ++ key ++ ": ".toList ++ summary ++ "\n\nSee the request at ".toList ++ link ++ "\n".toList

section
variable (n : Notifier) (portal : Portal)

def lookup (key : Key) : Option Request := portal.requests.find? fun r => decide (r.key = key)

def recipients (a : Request) (except_ : Uuid) : List Recipient :=
  (((portal.users.filter fun u =>
      u.isActive && decide (u.id ≠ except_ ∧ (some u.id = a.reporter ∨ u.id ∈ portal.watchers a.id))).map
    fun u => (⟨u.email, decide (some u.id = a.reporter)⟩ : Recipient)).eraseDups).mergeSort fun r s => portal.collate r.email s.email

def link (key : Text) : Text :=
  (n.appURL.reverse.dropWhile (· == '/')).reverse ++ "/desk?next=".toList ++ n.queryEscape ("/portal/requests/".toList ++ key)

def mail (to_ : Text) (msg : Message) : Mail :=
  if n.inbox = [] then ⟨to_, msg.subject, msg.body, []⟩
  else ⟨to_, msg.subject, msg.body ++ "\nYou can answer this mail; your words are added to the request.\n".toList, n.inbox⟩

def tell (key : Key) (except_ : Uuid) (who : String) : List Mail :=
  match lookup portal key with
  | none => []
  | some a =>
    (recipients portal a except_).map fun r =>
      mail n r.email (assignedMessage (keyText key) a.summary who.toList (link n (keyText key)))

def heard (handler : String) (c : Change) : String := if c.field = "assignee" ∧ c.to_ ≠ "" then c.to_ else handler

def handler (changes : List Change) : String := changes.foldl heard ""

def handle (e : Event) : List Mail :=
  if handler e.changes = "" then [] else tell n portal e.key e.actorID (handler e.changes)

end

/-! ## The law of the mail, and where it holds -/

section
variable {S : Statuses} {b : IssueSets.Builtins} (w : Around S) (n : Notifier) (portal : Portal) (key : Key)

def assigneeAt (db : Issues.Db) : Option Ref := (Issues.atKey db key).toOption.bind Issue.assignee

def newAssignee (db db' : Issues.Db) : Option Ref :=
  if (assigneeAt key db').map Ref.id = (assigneeAt key db).map Ref.id then none else assigneeAt key db'

def Told (actorID : Uuid) (db db' : Issues.Db) (event : Option Event) : Prop :=
  (event.map (handle n portal)).getD [] = ((newAssignee key db db').map fun p => tell n portal key actorID p.name).getD []

def Silent (actorID : Uuid) : Prop := ∀ a, lookup portal key = some a → recipients portal a actorID = []

def Edit.assignee : Edit → Option (Option Uuid)
  | .update input => input.assignee
  | .bulk input => input.assignee

def Edit.answers : Edit → List (Uuid × Json)
  | .update _ => []
  | .bulk input => input.inOrder

def posing (st : State b) (e : Uuid × Json) : Option String :=
  match w.fields.find? fun f => decide (f.id = e.1) with
  | none => none
  | some f =>
    match normalize w.readers f e.2 with
    | .error _ => none
    | .ok (_, shown) =>
      if f.name = "assignee" ∧ shown ≠ [] ∧ ((st.answers e.1).map (display w.readers f)).getD [] ≠ shown then some (String.ofList shown)
      else none

def posed (st : State b) (input : Edit) : Option String := (input.answers.filterMap (posing w st)).getLast?

def Plainly (st : State b) (before : Issue) (input : Edit) : Prop :=
  match input.assignee with
  | none => posed w st input = none
  | some who =>
    if before.assignee.map Ref.id = who then posed w st input = none
    else
      match who with
      | none => False
      | some id => ∀ u, w.setup.users.find? (fun u => decide (u.id = id) && w.setup.member u.id) = some u →
          posed w st input = none ∧ u.name ≠ "" ∨ posed w st input = some u.name

end

/-! ## Mails -/

section
variable {n : Notifier} {portal : Portal} {key : Key} {actorID : Uuid}

theorem tell_silent (h : Silent portal key actorID) (who : String) : tell n portal key actorID who = [] := by
  unfold tell
  split
  · rfl
  · rename_i a ha
    rw [h a ha]
    rfl

theorem assignedMessage_inj {key summary who who' link : Text}
    (h : (assignedMessage key summary who link).subject = (assignedMessage key summary who' link).subject) : who = who' := by
  unfold assignedMessage at h
  exact append_cancel_left (append_cancel_right h)

theorem mail_subject (to_ : Text) (msg : Message) : (mail n to_ msg).subject = msg.subject := by
  unfold mail
  split <;> rfl

theorem tell_inj (h : ¬Silent portal key actorID) {who who' : String}
    (he : tell n portal key actorID who = tell n portal key actorID who') : who = who' := by
  unfold Silent at h
  push Not at h
  obtain ⟨a, ha, hne⟩ := h
  unfold tell at he
  rw [ha] at he
  obtain ⟨r, rest, hr⟩ := exists_cons_of_ne_nil hne
  simp only [hr, map_cons, List.cons.injEq] at he
  have hsubject := congrArg Mail.subject he.1
  rw [mail_subject, mail_subject] at hsubject
  exact String.toList_injective (assignedMessage_inj hsubject)

theorem tell_nil (h : ¬Silent portal key actorID) (who : String) : tell n portal key actorID who ≠ [] := by
  unfold Silent at h
  push Not at h
  obtain ⟨a, ha, hne⟩ := h
  unfold tell
  rw [ha]
  simpa using hne

theorem mails_iff (who : String) (p : Option Ref) :
    ((if who = "" then [] else tell n portal key actorID who) = (p.map fun p => tell n portal key actorID p.name).getD []) ↔
      Silent portal key actorID ∨ (p.elim (who = "") fun p => who ≠ "" ∧ who = p.name) := by
  by_cases hsilent : Silent portal key actorID
  · refine iff_of_true ?_ (.inl hsilent)
    simp only [tell_silent hsilent]
    cases p <;> simp
  · rw [or_iff_right hsilent]
    cases p with
    | none =>
      simp only [Option.map_none, Option.getD_none, Option.elim_none]
      split
      · rename_i h
        exact iff_of_true rfl h
      · rename_i h
        exact iff_of_false (tell_nil hsilent who) h
    | some p =>
      simp only [Option.map_some, Option.getD_some, Option.elim_some]
      split
      · rename_i h
        exact iff_of_false (Ne.symm (tell_nil hsilent p.name)) fun hand => hand.1 h
      · rename_i h
        rw [and_iff_right h]
        exact ⟨tell_inj hsilent, fun he => he ▸ rfl⟩

end

/-! ## Changes read back -/

theorem heard_other {changes : List Change} (h : ∀ c ∈ changes, c.field ≠ "assignee") (who : String) :
    changes.foldl heard who = who := by
  induction changes generalizing who with
  | nil => rfl
  | cons c changes ih =>
    rw [forall_mem_cons] at h
    have hone : heard who c = who := if_neg fun hc => h.1 hc.1
    rw [foldl_cons, hone, ih h.2]

section
variable {S : Statuses} {b : IssueSets.Builtins} {w : Around S} {now : Int} {key : Key}

/-! ## What a part of an edit does -/

theorem find?_rewritten {e : Issues.Edit} {p : Issue → Bool} (hafter : p e.after = true) : ∀ {issues : List Issue},
    issues.find? p = some e.before → (issues.map (Issues.rewritten [e])).find? p = some e.after
  | i :: issues, h => by
    have hrow : Issues.rewritten [e] i = if e.before.id = i.id then e.after else i := by
      unfold Issues.rewritten
      by_cases hid : e.before.id = i.id <;> simp [hid]
    rw [map_cons, hrow]
    by_cases hid : e.before.id = i.id
    · rw [if_pos hid, List.find?_cons_of_pos hafter]
    · rw [if_neg hid]
      by_cases hi : p i = true
      · rw [List.find?_cons_of_pos hi] at h
        cases h
        exact absurd rfl hid
      · rw [List.find?_cons_of_neg hi] at h ⊢
        exact find?_rewritten hafter h

variable {db : Issues.Db} {e : Issues.Edit} {st st' : State b} {changes : List Change} {id : Option Uuid}
  {field : String} {input : BulkInput} {before : Issue}

theorem atKey_put (h : Issues.atKey db key = .ok e.before) (hproject : e.after.project = e.before.project)
    (hnum : e.after.num = e.before.num) : Issues.atKey (put db e) key = .ok e.after := by
  have hfind := Issues.elim_ok.1 h
  have hat : e.before.project.key = key.projectKey ∧ e.before.num = key.num := by simpa using List.find?_some hfind
  refine Issues.elim_ok.2 (find?_rewritten ?_ hfind)
  rw [hproject, hnum]
  exact decide_eq_true hat

/-- A part that leaves the assignee and the answers, and tells of no assignee. -/
structure Quiet (key : Key) (st st' : State b) (changes : List Change) : Prop where
  others : ∀ c ∈ changes, c.field ≠ "assignee"
  kept : assigneeAt key st'.db = assigneeAt key st.db
  answers : st'.answers = st.answers

theorem assigneeAt_put (h : Issues.atKey db key = .ok e.before) (hproject : e.after.project = e.before.project)
    (hnum : e.after.num = e.before.num) : assigneeAt key (put db e) = e.after.assignee := by
  unfold assigneeAt
  rw [atKey_put h hproject hnum]
  rfl

theorem assigneeAt_eq {i : Issue} (h : Issues.atKey db key = .ok i) : assigneeAt key db = i.assignee := by
  unfold assigneeAt
  rw [h]
  rfl

theorem rewriting_quiet {call : Issues.Db → Except Issues.Refusal Issues.Edit}
    (hcall : ∀ {db e}, call db = .ok e → Issues.atKey db key = .ok e.before ∧ e.after.project = e.before.project ∧
      e.after.num = e.before.num ∧ e.after.assignee = e.before.assignee ∧ ∀ c ∈ e.changes, c.field ≠ "assignee") (h :
    rewriting call st = .ok (st', changes)) : Quiet key st st' changes := by
  obtain ⟨e, he, h⟩ := Go.bind_ok.1 h
  cases h
  obtain ⟨hat, hproject, hnum, hassignee, hothers⟩ := hcall (Issues.mapError_ok he)
  exact ⟨hothers, by rw [assigneeAt_put hat hproject hnum, assigneeAt_eq hat, hassignee], rfl⟩

theorem setTeamIn_at {setup : Setup S} (h : Issues.setTeamIn setup db key id = .ok e) :
    Issues.atKey db key = .ok e.before := by
  obtain ⟨before, hbefore, h⟩ := Go.bind_ok.1 h
  split at h
  · cases h
    exact hbefore
  · obtain ⟨to_, -, h⟩ := Go.bind_ok.1 h
    dsimp only at h
    split at h
    · cases h
      exact hbefore
    · obtain ⟨row, -, h⟩ := Go.bind_ok.1 h
      split at h <;> cases h <;> exact hbefore

theorem setSprintIn_at (h : Issues.setSprintIn db key id = .ok e) :
    Issues.atKey db key = .ok e.before := by
  obtain ⟨before, hbefore, h⟩ := Go.bind_ok.1 h
  split at h
  · cases h
    exact hbefore
  · obtain ⟨to_, -, h⟩ := Go.bind_ok.1 h
    cases h
    exact hbefore

theorem setTeam_quiet
    (h : rewriting (fun db => Issues.setTeamIn w.setup db key id) st = .ok (st', changes)) : Quiet key st st' changes := by
  refine rewriting_quiet (fun {db e} he => ?_) h
  have hat := setTeamIn_at he
  obtain ⟨-, ⟨hafter, hchanges⟩ | ⟨to_, ⟨hafter, hchanges⟩ | ⟨r, s, -, -, -, hafter, hchanges⟩⟩⟩ := Issues.setTeamIn_cases he
  all_goals
    rw [hafter, hchanges]
    exact ⟨hat, rfl, rfl, rfl, by simp⟩

theorem setSprint_quiet
    (h : rewriting (fun db => Issues.setSprintIn db key id) st = .ok (st', changes)) : Quiet key st st' changes := by
  refine rewriting_quiet (fun {db e} he => ?_) h
  have hat := setSprintIn_at he
  obtain ⟨-, ⟨hafter, hchanges⟩ | ⟨to_, -, hafter, hchanges⟩⟩ := Issues.setSprintIn_cases he
  all_goals
    rw [hafter, hchanges]
    exact ⟨hat, rfl, rfl, rfl, by simp⟩

theorem setMilestone_quiet
    (h : setMilestoneIn w key id st = .ok (st', changes)) : Quiet key st st' changes := by
  obtain ⟨before, hbefore, h⟩ := Go.bind_ok.1 h
  have hat := Issues.mapError_ok hbefore
  split at h
  · cases h
    exact ⟨by simp, rfl, rfl⟩
  · obtain ⟨to_, -, h⟩ := Go.bind_ok.1 h
    cases h
    refine ⟨by simp, ?_, rfl⟩
    rw [assigneeAt_eq hat]
    exact assigneeAt_put hat rfl rfl

theorem setting_quiet {call : IssueSets.State b → Except IssueSets.Refusal (IssueSets.State b × List Change)}
    (hcall : ∀ {s s' changes}, call s = .ok (s', changes) → ∀ c ∈ changes, c.field ≠ "assignee")
    (h : setting call st = .ok (st', changes)) : Quiet key st st' changes := by
  obtain ⟨⟨s, more⟩, hr, h⟩ := Go.bind_ok.1 h
  cases h
  exact ⟨hcall (Issues.mapError_ok hr), rfl, rfl⟩

theorem told_field {from_ to_ : Text} (h : field ≠ "assignee") :
    ∀ c ∈ IssueSets.told field from_ to_, c.field ≠ "assignee" := by
  intro c hc
  unfold IssueSets.told at hc
  split at hc
  · cases hc
  · rw [mem_singleton.1 hc]
    exact h

theorem middle_quiet {part : Part b} (hpart : part ∈ middleParts w key input) (h : part st = .ok (st', changes)) :
    Quiet key st st' changes := by
  unfold middleParts at hpart
  simp only [mem_append, Option.mem_toList, Option.map_eq_some_iff, mem_ite_nil_left,
    mem_singleton] at hpart
  obtain (((⟨id, -, rfl⟩ | ⟨id, -, rfl⟩) | ⟨id, -, rfl⟩) | ⟨-, rfl⟩) | ⟨-, rfl⟩ := hpart
  · exact setTeam_quiet h
  · exact setSprint_quiet h
  · exact setMilestone_quiet h
  · refine setting_quiet (fun {s s' changes} hset => ?_) h
    obtain ⟨rows, -, hset⟩ := Go.bind_ok.1 hset
    cases hset
    exact told_field (by decide)
  · refine setting_quiet (fun {s s' changes} hset => ?_) h
    obtain ⟨rows, -, hset⟩ := Go.bind_ok.1 hset
    cases hset
    exact told_field (by decide)

theorem label_quiet {part : Part b} (hpart : part ∈ labelParts input) (h : part st = .ok (st', changes)) :
    Quiet key st st' changes := by
  unfold labelParts at hpart
  rw [mem_ite_nil_left, mem_singleton] at hpart
  obtain ⟨-, rfl⟩ := hpart
  refine setting_quiet (fun {s s' changes} hset => ?_) h
  obtain ⟨-, -, -, -, -, -, -, -, -, rfl⟩ := IssueSets.labelIssue_ok hset
  exact told_field (by decide)

/-! ### Answers -/

theorem setIn_ok {e : Uuid × Json} (h : setIn w key e.1 e.2 st = .ok (st', changes)) :
    assigneeAt key st'.db = assigneeAt key st.db ∧ (∀ id, id ≠ e.1 → st'.answers id = st.answers id) ∧
      ∀ who, changes.foldl heard who = (posing w st e).getD who := by
  obtain ⟨before, -, h⟩ := Go.bind_ok.1 h
  split at h
  · cases h
  · rename_i f hf
    split at h
    · cases h
    · obtain ⟨⟨value, shown⟩, hvalue, h⟩ := Go.bind_ok.1 h
      cases h
      have hnormal := Issues.mapError_ok hvalue
      refine ⟨rfl, fun id hid => Function.update_of_ne hid _ _, fun who => ?_⟩
      unfold posing
      simp only [hf, hnormal]
      have hblank : String.ofList shown ≠ "" ↔ shown ≠ [] := by
        rw [ne_eq, ne_eq, not_iff_not]
        exact String.ofList_eq_empty_iff
      split
      · rename_i hsame
        rw [if_neg fun hc => hc.2.2 hsame]
        rfl
      · rename_i hdiffer
        simp only [foldl_cons, foldl_nil, heard, hblank]
        by_cases hname : f.name = "assignee" ∧ shown ≠ []
        · rw [if_pos hname, if_pos ⟨hname.1, hname.2, hdiffer⟩]
          rfl
        · rw [if_neg hname, if_neg fun hc => hname ⟨hc.1, hc.2.1⟩]
          rfl

theorem posing_congr {e : Uuid × Json} (h : st'.answers e.1 = st.answers e.1) : posing w st' e = posing w st e := by
  unfold posing
  rw [h]

theorem getLast?_cons_getD (o : Option String) (who : String) (l : List String) :
    (l.getLast?).getD (o.getD who) = ((o.toList ++ l).getLast?).getD who := by
  cases l using List.reverseRecOn with
  | nil => cases o <;> rfl
  | append_singleton => rw [← append_assoc, List.getLast?_concat, List.getLast?_concat]; rfl

theorem fieldParts_ok : ∀ {fields : List (Uuid × Json)} {st st' : State b} {changes : List Change}, (fields.map Prod.fst).Nodup →
    noting (fieldParts w key fields) st = .ok (st', changes) → assigneeAt key st'.db = assigneeAt key st.db ∧
      ∀ who, changes.foldl heard who = ((fields.filterMap (posing w st)).getLast?).getD who
  | [], st, st', changes, _, h => by
    cases h
    exact ⟨rfl, fun _ => rfl⟩
  | e :: fields, st, st', changes, hnodup, h => by
    obtain ⟨⟨st₁, first⟩, hone, h⟩ := Go.bind_ok.1 h
    obtain ⟨⟨st₂, more⟩, hrest, h⟩ := Go.bind_ok.1 h
    cases h
    rw [map_cons, nodup_cons] at hnodup
    obtain ⟨hkept, hanswers, hheard⟩ := setIn_ok hone
    obtain ⟨hkept', hheard'⟩ := fieldParts_ok hnodup.2 hrest
    refine ⟨hkept'.trans hkept, fun who => ?_⟩
    have hsame : fields.filterMap (posing w st₁) = fields.filterMap (posing w st) := by
      refine filterMap_congr fun x hx => posing_congr (hanswers x.1 fun he => hnodup.1 ?_)
      rw [← he]
      exact mem_map_of_mem hx
    rw [foldl_append, hheard, hheard', hsame, getLast?_cons_getD, filterMap_cons]
    cases posing w st e <;> rfl

/-! ### An edit of the issue's own fields -/

theorem applyAssignee_cases {given : Option (Option Uuid)} {a : Option Ref × List Change}
    (h : applyAssignee w before given = .ok a) :
    (given = none ∨ given = some (before.assignee.map Ref.id)) ∧ a = (before.assignee, []) ∨
      (∃ who, given = some who ∧ before.assignee.map Ref.id ≠ who ∧
        (who = none ∧ a.1 = none ∧ handler a.2 = "Unassigned" ∨
          ∃ u, w.setup.users.find? (fun u => decide (some u.id = who) && w.setup.member u.id) = some u ∧ who = some u.id ∧
            a.1 = some u ∧ handler a.2 = u.name)) := by
  cases given with
  | none =>
    cases h
    exact .inl ⟨.inl rfl, rfl⟩
  | some who =>
    have h := Issues.mapError_ok h
    unfold Issues.applyAssignee at h
    split at h
    · rename_i hsame
      cases h
      exact .inl ⟨.inr (by rw [hsame]), rfl⟩
    · rename_i hne
      obtain ⟨to_, hto, h⟩ := Go.bind_ok.1 h
      cases h
      refine .inr ⟨who, rfl, hne, ?_⟩
      cases who with
      | none =>
        cases hto
        exact .inl ⟨rfl, rfl, rfl⟩
      | some id =>
        simp only [Issues.memberAt] at hto
        split at hto
        · cases hto
        · rename_i u hu
          cases hto
          have hid : u.id = id := by
            have := List.find?_some hu
            simp only [Bool.and_eq_true, decide_eq_true_eq] at this
            exact this.1
          refine .inr ⟨u, ?_, by rw [hid], rfl, ?_⟩
          · simpa using hu
          · change heard "" _ = _
            unfold heard
            split
            · rfl
            · rename_i hc
              exact (not_not.1 fun hne => hc ⟨rfl, fun he => hne he.symm⟩)

def Apart (changes : List Change) : Prop := ∀ c ∈ changes, c.field ≠ "assignee"

theorem apart_nil : Apart [] := nofun

theorem apart_cons {from_ to_ : String} {cs : List Change} (h : field ≠ "assignee") (hcs : Apart cs) :
    Apart (⟨field, from_, to_⟩ :: cs) := forall_mem_cons.2 ⟨h, hcs⟩

theorem apart_one {from_ to_ : String} (h : field ≠ "assignee") : Apart [⟨field, from_, to_⟩] := apart_cons h apart_nil

theorem apart_append {cs ds : List Change} (h : Apart cs) (h' : Apart ds) : Apart (cs ++ ds) :=
  fun c hc => (mem_append.1 hc).elim (h c) (h' c)

theorem applySummary_apart {before : Text} {given : Option Text} {r : Text × List Change} (h : applySummary before given = .ok r) :
    Apart r.2 := by
  cases given with
  | none =>
    cases h
    exact apart_nil
  | some =>
    unfold applySummary at h
    dsimp only at h
    split at h
    · cases h
    split at h
    · cases h
    split at h <;> cases h
    · exact apart_nil
    · exact apart_one (by decide)

theorem applyDescription_apart {rd : Readers} {before : Option Json} {given : Option Body} {r : Option Json × List Change}
    (h : applyDescription rd before given = .ok r) : Apart r.2 := by
  cases given with
  | none =>
    cases h
    exact apart_nil
  | some =>
    unfold applyDescription at h
    dsimp only at h
    split at h
    · cases h
      dsimp only
      split
      · exact apart_one (by decide)
      · exact apart_nil
    · obtain ⟨-, -, h⟩ := Go.bind_ok.1 h
      split at h
      · cases h
        split
        · exact apart_nil
        · exact apart_one (by decide)
      · cases h
        exact apart_nil
      · cases h
        exact apart_one (by decide)

theorem applyPriority_apart {before : Desk.Priority} {given : Option Text} {r : Desk.Priority × List Change}
    (h : applyPriority before given = .ok r) : Apart r.2 := by
  cases given with
  | none =>
    cases h
    exact apart_nil
  | some =>
    unfold applyPriority at h
    dsimp only at h
    split at h
    · cases h
    · cases h
      dsimp only
      split
      · exact apart_nil
      · exact apart_one (by decide)

theorem applyDueDate_apart {start before : Option Int} {given : Option (Option Int)} {r : Option Int × List Change}
    (h : applyDueDate start before given = .ok r) : Apart r.2 := by
  cases given with
  | none =>
    cases h
    exact apart_nil
  | some =>
    unfold applyDueDate at h
    dsimp only at h
    split at h
    · cases h
      exact apart_nil
    split at h <;> cases h
    exact apart_one (by decide)

theorem applyMinutes_apart (hfield : field ≠ "assignee") {before : Option Int} {given : Option (Option Int)}
    {r : Option Int × List Change} (h : applyMinutes field before given = .ok r) : Apart r.2 := by
  cases given with
  | none =>
    cases h
    exact apart_nil
  | some =>
    unfold applyMinutes at h
    dsimp only at h
    split at h
    · cases h
    split at h <;> cases h
    · exact apart_nil
    · exact apart_one hfield

theorem applyReporter_apart {given : Option Uuid} {r : Uuid × List Change} (h : applyReporter w before given = .ok r) :
    Apart r.2 := by
  cases given with
  | none =>
    cases h
    exact apart_nil
  | some =>
    unfold applyReporter at h
    dsimp only at h
    split at h
    · cases h
      exact apart_nil
    split at h <;> cases h
    exact apart_one (by decide)

theorem applyType_before {setup : Setup S} {typeID : Uuid}
    (h : Issues.applyType setup db now before typeID = .ok e) : e.before = before := by
  unfold Issues.applyType at h
  split at h
  · cases h
  obtain ⟨t, -, h⟩ := Go.bind_ok.1 h
  obtain ⟨-, -, h⟩ := Go.bind_ok.1 h
  obtain ⟨wf, -, h⟩ := Go.bind_ok.1 h
  split at h
  · cases h
    rfl
  · obtain ⟨initial, -, h⟩ := Go.bind_ok.1 h
    cases h
    rfl

theorem applyType_ok (hat : Issues.atKey db key = .ok before) {given : Option Uuid}
    {r : Issue × List Change} (h : applyType w now db before given = .ok r) :
    r.1.project = before.project ∧ r.1.num = before.num ∧ Apart r.2 := by
  cases given with
  | none =>
    cases h
    exact ⟨rfl, rfl, apart_nil⟩
  | some typeID =>
    unfold applyType at h
    dsimp only at h
    split at h
    · cases h
      exact ⟨rfl, rfl, apart_nil⟩
    · rename_i hne
      obtain ⟨e, he, h⟩ := Go.bind_ok.1 h
      cases h
      have happly := Issues.mapError_ok he
      have hbefore := applyType_before happly
      have hupdate : Issues.updateType w.setup db now key typeID = .ok e := by
        unfold Issues.updateType
        rw [hat]
        exact (if_neg hne).trans happly
      obtain ⟨-, ⟨hafter, hchanges⟩ | ⟨t, ⟨hafter, hchanges⟩ | ⟨s, -, others, hafter, hchanges, hothers⟩⟩⟩ :=
        Issues.updateType_cases hupdate
      · rw [hafter, hchanges, hbefore]
        exact ⟨rfl, rfl, apart_nil⟩
      · rw [hafter, hchanges, hbefore]
        exact ⟨rfl, rfl, apart_one (by decide)⟩
      · rw [hafter, hchanges, hbefore]
        refine ⟨rfl, rfl, apart_cons (by decide) (apart_cons (by decide) fun c hc => ?_)⟩
        rw [hothers c hc]
        decide

theorem updateIn_ok {input : UpdateInput}
    (hat : Issues.atKey st.db key = .ok before) (h : updateIn w now key input st = .ok (st', changes)) :
    ∃ a, applyAssignee w before input.assignee = .ok a ∧ assigneeAt key st'.db = a.1 ∧ st'.answers = st.answers ∧
      handler changes = handler a.2 := by
  obtain ⟨row, hrow, h⟩ := Go.bind_ok.1 h
  have hsame : row = before := by
    have := Issues.mapError_ok hrow
    rw [hat] at this
    exact (Except.ok.inj this).symm
  subst hsame
  obtain ⟨-, -, h⟩ := Go.bind_ok.1 h
  obtain ⟨summary, hsummary, h⟩ := Go.bind_ok.1 h
  obtain ⟨description, hdescription, h⟩ := Go.bind_ok.1 h
  obtain ⟨priority, hpriority, h⟩ := Go.bind_ok.1 h
  obtain ⟨assignee, hassignee, h⟩ := Go.bind_ok.1 h
  obtain ⟨dueDate, hdueDate, h⟩ := Go.bind_ok.1 h
  obtain ⟨reporter, hreporter, h⟩ := Go.bind_ok.1 h
  obtain ⟨estimate, hestimate, h⟩ := Go.bind_ok.1 h
  obtain ⟨remaining, hremaining, h⟩ := Go.bind_ok.1 h
  obtain ⟨typed, htyped, h⟩ := Go.bind_ok.1 h
  cases h
  obtain ⟨hproject, hnum, htype⟩ := applyType_ok hat htyped
  refine ⟨assignee, hassignee, assigneeAt_put hat hproject hnum, rfl, ?_⟩
  have hfirst : Apart (summary.2 ++ description.2 ++ priority.2) :=
    apart_append (apart_append (applySummary_apart hsummary) (applyDescription_apart hdescription)) (applyPriority_apart hpriority)
  have hlast : Apart (dueDate.2 ++ reporter.2 ++ estimate.2 ++ remaining.2 ++ typed.2) :=
    apart_append (apart_append (apart_append (apart_append (applyDueDate_apart hdueDate) (applyReporter_apart hreporter))
      (applyMinutes_apart (by decide) hestimate)) (applyMinutes_apart (by decide) hremaining)) htype
  have hparts : summary.2 ++ description.2 ++ priority.2 ++ assignee.2 ++ dueDate.2 ++ reporter.2 ++ estimate.2 ++ remaining.2 ++
      typed.2 = (summary.2 ++ description.2 ++ priority.2) ++ (assignee.2 ++
        (dueDate.2 ++ reporter.2 ++ estimate.2 ++ remaining.2 ++ typed.2)) := by
    simp only [append_assoc]
  unfold handler
  rw [hparts, foldl_append, heard_other hfirst, foldl_append, heard_other hlast]

/-! ### A bulk edit -/

theorem noting_append {ps qs : List (Part b)} (h : noting (ps ++ qs) st = .ok (st', changes)) :
    ∃ mid first more, noting ps st = .ok (mid, first) ∧ noting qs mid = .ok (st', more) ∧ changes = first ++ more := by
  induction ps generalizing st changes with
  | nil => exact ⟨st, [], changes, rfl, h, rfl⟩
  | cons part ps ih =>
    obtain ⟨⟨st₁, one⟩, hone, h⟩ := Go.bind_ok.1 h
    obtain ⟨⟨st₂, rest⟩, hrest, h⟩ := Go.bind_ok.1 h
    cases h
    obtain ⟨mid, first, more, hfirst, hmore, rfl⟩ := ih hrest
    refine ⟨mid, one ++ first, more, ?_, hmore, (append_assoc _ _ _).symm⟩
    rw [noting, hone]
    change (noting ps st₁ >>= fun r => _) = _
    rw [hfirst]
    rfl

theorem noting_quiet {parts : List (Part b)}
    (hparts : ∀ part ∈ parts, ∀ {st st' : State b} {changes}, part st = .ok (st', changes) → Quiet key st st' changes) (h : noting parts st = .ok (st', changes)) : Quiet key st st' changes := by
  induction parts generalizing st changes with
  | nil =>
    cases h
    exact ⟨apart_nil, rfl, rfl⟩
  | cons part parts ih =>
    obtain ⟨⟨st₁, one⟩, hone, h⟩ := Go.bind_ok.1 h
    obtain ⟨⟨st₂, rest⟩, hrest, h⟩ := Go.bind_ok.1 h
    cases h
    rw [forall_mem_cons] at hparts
    have hq := hparts.1 hone
    have hqs := ih hparts.2 hrest
    exact ⟨apart_append hq.others hqs.others, hqs.kept.trans hq.kept, hqs.answers.trans hq.answers⟩

theorem firstParts_ok
    (hat : Issues.atKey st.db key = .ok before) (h : noting (firstParts w now key input) st = .ok (st', changes)) :
    ∃ a, applyAssignee w before input.assignee = .ok a ∧ assigneeAt key st'.db = a.1 ∧ st'.answers = st.answers ∧
      handler changes = handler a.2 := by
  unfold firstParts at h
  split at h
  · obtain ⟨⟨st₁, one⟩, hone, h⟩ := Go.bind_ok.1 h
    cases h
    rw [append_nil]
    exact updateIn_ok hat hone
  · rename_i hnone
    cases h
    have hgiven : input.assignee = none := by
      by_contra hne
      exact hnone (.inr (Option.isSome_iff_ne_none.2 hne))
    rw [hgiven]
    exact ⟨_, rfl, assigneeAt_eq hat, rfl, rfl⟩

theorem inOrder_once (input : BulkInput) : (input.inOrder.map Prod.fst).Nodup :=
  ((mergeSort_perm _ _).map Prod.fst).nodup_iff.2 input.fields_once

theorem editIn_ok {input : Edit}
    (hat : Issues.atKey st.db key = .ok before) (h : editIn w now key input st = .ok (st', changes)) :
    ∃ a, applyAssignee w before input.assignee = .ok a ∧ assigneeAt key st'.db = a.1 ∧
      handler changes = (posed w st input).getD (handler a.2) := by
  cases input with
  | update =>
    obtain ⟨a, ha, hnow, -, hheard⟩ := updateIn_ok hat h
    exact ⟨a, ha, hnow, hheard⟩
  | bulk input =>
    obtain ⟨st₃, changes₃, labels, h₃, hlabels, rfl⟩ := noting_append h
    obtain ⟨st₂, changes₂, answers, h₂, hanswers, rfl⟩ := noting_append h₃
    obtain ⟨st₁, first, middle, hfirst, hmiddle, rfl⟩ := noting_append h₂
    obtain ⟨a, ha, hnow, hkept, hheard⟩ := firstParts_ok hat hfirst
    have hmid := noting_quiet (fun part hpart {_ _ _} hok => middle_quiet hpart hok) hmiddle
    have hlast : Quiet key _ _ _ := noting_quiet (fun part hpart {_ _ _} hok => label_quiet hpart hok) hlabels
    obtain ⟨hfields, hposed⟩ := fieldParts_ok (inOrder_once input) hanswers
    refine ⟨a, ha, by rw [hlast.kept, hfields, hmid.kept, hnow], ?_⟩
    have hsame : posing w st₂ = posing w st := by
      funext e
      exact posing_congr (congrFun (hmid.answers.trans hkept) e.1)
    unfold handler
    rw [foldl_append, foldl_append, foldl_append, heard_other hlast.others, hposed, heard_other hmid.others, hsame]
    exact congrArg (posed w st (.bulk input)).getD hheard

theorem posed_ne (st : State b) (input : Edit) : posed w st input ≠ some "" := by
  intro h
  obtain ⟨e, -, he⟩ := mem_filterMap.1 (mem_of_getLast? h)
  unfold posing at he
  split at he
  · cases he
  split at he
  · cases he
  split at he
  · rename_i hc
    exact hc.2.1 (String.ofList_eq_empty_iff.1 (Option.some.inj he))
  · cases he

theorem named_iff {input : Edit} {a : Option Ref × List Change}
    (ha : applyAssignee w before input.assignee = .ok a) :
    (if a.1.map Ref.id = before.assignee.map Ref.id then none else a.1).elim ((posed w st input).getD (handler a.2) = "")
      (fun p => (posed w st input).getD (handler a.2) ≠ "" ∧ (posed w st input).getD (handler a.2) = p.name) ↔
      Plainly w st before input := by
  have hne := posed_ne (w := w) st input
  obtain ⟨hgiven, rfl⟩ | ⟨who, hgiven, hdiffers, ⟨rfl, hnone, hheard⟩ | ⟨u, hu, rfl, hsome, hheard⟩⟩ := applyAssignee_cases ha
  · -- Nobody was to take the other's place.
    have hplain : Plainly w st before input ↔ posed w st input = none := by
      unfold Plainly
      rcases hgiven with hgiven | hgiven
      · rw [hgiven]
      · rw [hgiven]
        exact iff_of_eq (if_pos rfl)
    rw [hplain, if_pos rfl, Option.elim_none]
    cases hposed : posed w st input with
    | none => exact iff_of_true rfl rfl
    | some =>
      rw [hposed] at hne
      exact iff_of_false (fun he => hne (congrArg some he)) (by simp)
  · -- The assignee was taken away.
    have hplain : ¬Plainly w st before input := by
      unfold Plainly
      rw [hgiven]
      exact fun h => (iff_of_eq (if_neg hdiffers)).1 h
    rw [hnone, if_neg fun he => hdiffers he.symm, Option.elim_none, hheard]
    refine iff_of_false (fun he => ?_) hplain
    cases hposed : posed w st input with
    | none =>
      rw [hposed] at he
      exact absurd he (by decide)
    | some =>
      rw [hposed] at he hne
      exact hne (congrArg some he)
  · have hplain : Plainly w st before input ↔
        (posed w st input = none ∧ u.name ≠ "" ∨ posed w st input = some u.name) := by
      unfold Plainly
      rw [hgiven]
      refine (iff_of_eq (if_neg hdiffers)).trans ⟨fun h => h u (by simpa using hu), fun h v hv => ?_⟩
      have hv : some u = some v := hu.symm.trans (by simpa using hv)
      cases hv
      exact h
    rw [hplain, hsome, if_neg fun he => hdiffers he.symm, Option.elim_some, hheard]
    cases hposed : posed w st input with
    | none => simp
    | some =>
      rw [hposed] at hne
      simp only [Option.getD_some, reduceCtorEq, false_and, false_or, Option.some.injEq]
      exact and_iff_right fun he => hne (congrArg some he)

/-- **A customer hears of a handler exactly when there is one where there is nobody to mail, or the edit is plain.** -/
theorem assignee_told_iff {n : Notifier} {portal : Portal} {actorID : Uuid} {input : Edit}
    {event : Option Event} (hat : Issues.atKey st.db key = .ok before) (h : edit w now key input actorID st = .ok (st', event)) :
    Told n portal key actorID st.db st'.db event ↔ Silent portal key actorID ∨ Plainly w st before input := by
  obtain ⟨row, hrow, h⟩ := Go.bind_ok.1 h
  obtain ⟨⟨mid, changes⟩, hedit, h⟩ := Go.bind_ok.1 h
  cases h
  obtain ⟨a, ha, hnow, hheard⟩ := editIn_ok hat hedit
  have hmails : ((if changes = [] then none else some (⟨key, changes, actorID⟩ : Event)).map (handle n portal)).getD [] =
      if handler changes = "" then [] else tell n portal key actorID (handler changes) := by
    split
    · rename_i hnone
      rw [hnone]
      rfl
    · rfl
  have hassignee : newAssignee key st.db mid.db = if a.1.map Ref.id = before.assignee.map Ref.id then none else a.1 := by
    unfold newAssignee
    rw [hnow, assigneeAt_eq hat]
  change (_ : Option (List Mail)).getD [] = ((newAssignee key st.db mid.db).map _).getD [] ↔ _
  rw [hmails, hassignee, mails_iff, hheard]
  exact or_congr_right (named_iff ha)

end

/-! ## A request that is given up -/

namespace Front

def readers : Readers where
  tables := Go.Tables.ascii
  isUuid _ := false
  parseFloat _ := none
  formatFloat _ := []
  webAddress _ := false
  jsonText _ := []
  same _ _ := false

def ann : Ref := ⟨5, "Ann"⟩
def bob : Ref := ⟨6, "Bob"⟩

def around : Around Issues.Small.statuses where
  setup := { Issues.Small.setup with users := [ann, bob], member := fun _ => true }
  milestones := []
  fields := []
  readers := readers

def key : Key := ⟨"OPS", 1⟩

def held : State IssueSets.ascii where
  db := ⟨[{ Issues.Small.row with assignee := some ann }], [], [], fun _ => 0⟩
  sheet := ⟨['I', 'n', 'k'], none, .medium, none, none, none, none, 0⟩
  sets := IssueSets.shipped
  answers _ := none

def notifier : Notifier := ⟨[], [], id⟩

def portal : Portal where
  requests := [⟨7, key, ['I', 'n', 'k'], some 9⟩]
  users := [⟨9, ['c', '@', 'd'], true⟩]
  watchers _ := []
  collate s t := decide (s ≤ t)

def gives (who : Option Uuid) : Edit := .update { UpdateInput.blank with assignee := some who }

theorem loud : ¬Silent portal key 5 := by
  intro h
  have hnone := h _ (rfl : lookup portal key = some ⟨7, key, ['I', 'n', 'k'], some 9⟩)
  have hlength := congrArg List.length hnone
  unfold recipients at hlength
  rw [length_mergeSort] at hlength
  exact absurd hlength (by decide)

theorem gives_up : ∃ st' event, edit around 1 key (gives none) 5 held = .ok (st', event) ∧
    ¬Told notifier portal key 5 held.db st'.db event :=
  ⟨_, _, rfl, fun h => tell_nil (n := notifier) loud "Unassigned" h⟩

theorem gives_bob : ∃ st' event, edit around 1 key (gives (some 6)) 5 held = .ok (st', event) ∧
    (Told notifier portal key 5 held.db st'.db event ↔
      Silent portal key 5 ∨ Plainly around held { Issues.Small.row with assignee := some ann } (gives (some 6))) :=
  ⟨_, _, rfl, assignee_told_iff rfl rfl⟩

end Front

end Editing
end Armature
