import Armature.GitPktline
/-!
# RefusalReport — the answer that refuses a push (`git/pktline.go`)

The report is cut to the side band that the client asked for; the lines of the summary are not, and a line of the report
itself may be longer than four digits say.  The client reads what was meant exactly when neither happens
(`refusalReport_framed_iff`).
-/
namespace Armature
namespace Git

open List
open Go (Bytes bytes)

def maxPkt : Nat := 65520

def smallBandPkt : Nat := 1000

def maxBandData : Nat := maxPkt - pktHeaderLen - 1

def maxSmallBandData : Nat := smallBandPkt - pktHeaderLen - 1

def flushPkt : Bytes := bytes "0000"

def bandData : UInt8 := 1

def bandProgress : UInt8 := 2

def oneLine (s : Bytes) : Bytes := Go.joinSpace (Go.fields s)

def PushRequest.reports (push : PushRequest) : Bool :=
  push.asked (bytes "report-status") || push.asked (bytes "report-status-v2")

def PushRequest.band (push : PushRequest) : Option Nat :=
  if push.asked (bytes "side-band-64k") then some maxBandData
  else if push.asked (bytes "side-band") then some maxSmallBandData
  else none

def unpackOk : Bytes := bytes "unpack ok\n"

section
variable (push : PushRequest) (reasons : Bytes → Bytes) (summary : Bytes)

def ngLine (u : RefUpdate) : Bytes := bytes "ng " ++ u.ref ++ 32 :: oneLine (reasons u.ref) ++ [10]

def statusLines : List Bytes := unpackOk :: push.updates.map (ngLine reasons)

def status : Bytes := ((statusLines push reasons).map pktLine).flatten ++ flushPkt

def progressPackets : List Bytes := (summary.splitOn 10).map fun line => bandProgress :: (line ++ [10])

def dataPackets (band : Nat) : Nat → Bytes → List Bytes
  | 0, _ => []
  | fuel + 1, report =>
    if report = [] then []
    else (bandData :: report.take (min band report.length)) :: dataPackets band fuel (report.drop (min band report.length))

def refusalReport : Option Bytes :=
  if !push.reports then none
  else
    match push.band with
    | none => some (status push reasons)
    | some band =>
      some (((progressPackets summary).map pktLine).flatten ++
        ((dataPackets band (status push reasons).length (status push reasons)).map pktLine).flatten ++ flushPkt)

end

/-! ## Reading to the end -/

/-- Reading one packet after another to the end gives these, `none` for a flush. -/
inductive Reads : Bytes → List (Option Bytes) → Prop where
  | nil : Reads [] []
  | cons {b rest pkt pkts} (h : readPkt b = .ok (pkt, rest)) (hrest : Reads rest pkts) : Reads b (pkt :: pkts)

variable {payload b rest : Bytes} {pkts : List (Option Bytes)}

theorem readPkt_pktLine (h : payload.length + pktHeaderLen < 65536) (rest : Bytes) :
    readPkt (pktLine payload ++ rest) = .ok (some payload, rest) := by
  obtain ⟨hlen, hparse⟩ := Go.parseHex_hex4 h
  have hheader : pktHeaderLen = (Go.hex4 (payload.length + pktHeaderLen)).length := hlen.symm
  have hall : pktLine payload ++ rest = Go.hex4 (payload.length + pktHeaderLen) ++ (payload ++ rest) := append_assoc _ _ _
  have htotal : payload.length + pktHeaderLen ≤ (pktLine payload ++ rest).length := by
    rw [hall, length_append, length_append, ← hheader]
    omega
  have htake : (pktLine payload ++ rest).take pktHeaderLen = Go.hex4 (payload.length + pktHeaderLen) := by
    rw [hall]
    exact take_left' hlen
  have hpkt : (pktLine payload ++ rest).take (payload.length + pktHeaderLen) = pktLine payload :=
    take_left' (by rw [pktLine, length_append, hlen]; exact Nat.add_comm _ _)
  have hrest : (pktLine payload ++ rest).drop (payload.length + pktHeaderLen) = rest :=
    drop_left' (by rw [pktLine, length_append, hlen]; exact Nat.add_comm _ _)
  unfold readPkt
  rw [if_neg (by unfold pktHeaderLen at *; omega), htake, hparse]
  dsimp only
  rw [if_neg (by unfold pktHeaderLen; omega), if_neg (by omega), hpkt, hrest]
  have hpayload : (pktLine payload).drop pktHeaderLen = payload := drop_left' hlen
  rw [hpayload]

theorem readPkt_flush (rest : Bytes) : readPkt (flushPkt ++ rest) = .ok (none, rest) := by
  have hflush : flushPkt = [48, 48, 48, 48] := by decide
  rw [hflush]
  unfold readPkt pktHeaderLen
  rw [if_neg (by simp)]
  rfl

theorem readPkt_payload (h : readPkt b = .ok (some payload, rest)) :
    payload.length + pktHeaderLen < 65536 := by
  unfold readPkt at h
  split_ifs at h with hlen
  split at h
  · cases h
  · rename_i n hparse
    have hn := Go.parseHex_lt hparse
    rw [length_take_of_le (not_lt.1 hlen)] at hn
    split_ifs at h with h0 hfit
    · cases h
    obtain ⟨hpayload, -⟩ := Prod.mk.inj (Except.ok.inj h)
    have hfour : 16 ^ pktHeaderLen = 65536 := rfl
    rw [← Option.some.inj hpayload, length_drop, length_take]
    unfold pktHeaderLen at *
    omega

theorem readPkt_long {rest' : Bytes} {pkt : Option Bytes} (hlong : 65536 ≤ payload.length + pktHeaderLen)
    (h : readPkt (pktLine payload ++ rest) = .ok (pkt, rest')) : ∃ q, pkt = some q ∧ ∃ d < 16, q.head? = some (Go.hexByte d) := by
  obtain ⟨k, x, y, z, d, more, hk, hk', hd, hhex⟩ := Go.hex4_long hlong
  have hb : pktLine payload ++ rest = Go.hexByte k :: x :: y :: z :: Go.hexByte d :: (more ++ payload ++ rest) := by
    unfold pktLine
    rw [hhex]
    simp
  rw [hb] at h
  unfold readPkt pktHeaderLen at h
  split_ifs at h with hlen
  split at h
  · cases h
  · rename_i n hparse
    have hn : k * 16 ^ 3 ≤ n := Go.le_parseHex hk' hparse
    split_ifs at h with h0 hfit
    · omega
    · obtain ⟨hpkt, -⟩ := Prod.mk.inj (Except.ok.inj h)
      obtain ⟨m, rfl⟩ : ∃ m, n = m + 5 := ⟨n - 5, by omega⟩
      exact ⟨_, hpkt.symm, d, hd, rfl⟩

theorem Reads.first (h : Reads b pkts) (hne : b ≠ []) :
    ∃ pkt rest pkts', readPkt b = .ok (pkt, rest) ∧ pkts = pkt :: pkts' ∧ Reads rest pkts' := by
  cases h with
  | nil => exact absurd rfl hne
  | cons hp hrest => exact ⟨_, _, _, hp, rfl, hrest⟩

theorem Reads.bound (h : Reads b pkts) :
    ∀ p, some p ∈ pkts → p.length + pktHeaderLen < 65536 := by
  induction h with
  | nil => exact nofun
  | cons hp hrest ih =>
    intro p hmem
    rcases mem_cons.1 hmem with rfl | hmem
    · exact readPkt_payload hp
    · exact ih p hmem

theorem reads_flush : Reads flushPkt [none] := by
  have hp := readPkt_flush []
  rw [append_nil] at hp
  exact Reads.cons hp Reads.nil

theorem Reads.lines (hrest : Reads rest pkts) : ∀ {payloads : List Bytes},
    (∀ p ∈ payloads, p.length + pktHeaderLen < 65536) → Reads ((payloads.map pktLine).flatten ++ rest) (payloads.map some ++ pkts)
  | [], _ => hrest
  | p :: payloads, h => by
    rw [map_cons, flatten_cons, append_assoc, map_cons, cons_append]
    exact Reads.cons (readPkt_pktLine (h p mem_cons_self) _) (hrest.lines fun q hq => h q (mem_cons_of_mem _ hq))

/-! ## The side bands -/

def joinBand (band : UInt8) (packets : List Bytes) : Bytes :=
  (packets.filterMap fun p => match p with
    | b :: data => if b = band then some data else none
    | [] => none).flatten

theorem joinBand_append (band : UInt8) (ps qs : List Bytes) : joinBand band (ps ++ qs) = joinBand band ps ++ joinBand band qs := by
  unfold joinBand
  rw [filterMap_append, flatten_append]

theorem joinBand_same (band : UInt8) (ds : List Bytes) : joinBand band (ds.map (band :: ·)) = ds.flatten := by
  unfold joinBand
  simp [filterMap_map]

theorem joinBand_other {band other : UInt8} (h : other ≠ band) (ds : List Bytes) : joinBand band (ds.map (other :: ·)) = [] := by
  unfold joinBand
  simp [filterMap_map, h]

theorem dataPackets_cut {band : Nat} (hband : 0 < band) : ∀ {fuel : Nat} {report : Bytes}, report.length ≤ fuel →
    ∃ ds : List Bytes, dataPackets band fuel report = ds.map (bandData :: ·) ∧ ds.flatten = report ∧ ∀ d ∈ ds, d.length ≤ band
  | 0, report, h => ⟨[], rfl, (length_eq_zero_iff.1 (Nat.le_zero.1 h)).symm, by simp⟩
  | fuel + 1, report, h => by
    unfold dataPackets
    split
    · rename_i hnil
      exact ⟨[], rfl, hnil.symm, by simp⟩
    · rename_i hne
      have hpos := length_pos_iff.2 hne
      have hless : (report.drop (min band report.length)).length ≤ fuel := by
        rw [length_drop]
        omega
      obtain ⟨ds, heq, hflat, hle⟩ := dataPackets_cut hband hless
      refine ⟨report.take (min band report.length) :: ds, by rw [heq]; rfl, ?_, fun d hd => ?_⟩
      · rw [flatten_cons, hflat, take_append_drop]
      · rcases mem_cons.1 hd with rfl | hd
        · rw [length_take]
          omega
        · exact hle d hd

def OnBand (band : Nat) (p : Bytes) : Prop :=
  (p.head? = some bandData ∨ p.head? = some bandProgress) ∧ p.length + pktHeaderLen ≤ band + 1 + pktHeaderLen

theorem hexByte_band {d : Nat} (h : d < 16) : Go.hexByte d ≠ bandData ∧ Go.hexByte d ≠ bandProgress := by
  revert d
  decide

theorem Reads.fit {band : Nat} (hband : band + 1 + pktHeaderLen < 65536) {rest : Bytes} : ∀ {lines packets : List Bytes},
    Reads ((lines.map pktLine).flatten ++ rest) (packets.map some ++ [none]) → (∀ p ∈ packets, OnBand band p) →
      ∀ l ∈ lines, l.length ≤ band + 1
  | [], _, _, _, _, hl => absurd hl not_mem_nil
  | line :: lines, packets, h, hon, l, hl => by
    rw [map_cons, flatten_cons, append_assoc] at h
    by_cases hfits : line.length + pktHeaderLen < 65536
    · have hnext := readPkt_pktLine hfits ((lines.map pktLine).flatten ++ rest)
      obtain ⟨pkt, rest', pkts', hp, heq, hrest⟩ := h.first fun hnil => by rw [hnil] at hnext; cases hnext
      rw [hnext] at hp
      cases hp
      cases packets with
      | nil => cases heq
      | cons =>
        obtain ⟨hline, rfl⟩ := List.cons.inj heq
        cases hline
        rcases mem_cons.1 hl with rfl | hl
        · exact Nat.le_of_add_le_add_right (hon _ mem_cons_self).2
        · exact Reads.fit hband hrest (fun q hq => hon q (mem_cons_of_mem _ hq)) l hl
    · -- more than four digits: the packet that is read is on the band of a digit
      have hlong : 65536 ≤ line.length + pktHeaderLen := not_lt.1 hfits
      have hne : pktLine line ++ ((lines.map pktLine).flatten ++ rest) ≠ [] := by
        obtain ⟨k, x, y, z, e, more, -, -, -, hhex⟩ := Go.hex4_long hlong
        unfold pktLine
        rw [hhex]
        exact cons_ne_nil _ _
      obtain ⟨pkt, rest', pkts', hp, heq, -⟩ := h.first hne
      obtain ⟨q, rfl, d, hd, hhead⟩ := readPkt_long hlong hp
      cases packets with
      | nil => cases heq
      | cons =>
        obtain ⟨hpq, -⟩ := List.cons.inj heq
        cases hpq
        rcases (hon _ mem_cons_self).1 with hb | hb
        · exact absurd (Option.some.inj (hhead.symm.trans hb)) (hexByte_band hd).1
        · exact absurd (Option.some.inj (hhead.symm.trans hb)) (hexByte_band hd).2

/-! ## The report -/

section
variable (push : PushRequest) (reasons : Bytes → Bytes) (summary : Bytes)

def statusPackets : List (Option Bytes) := (statusLines push reasons).map some ++ [none]

def ReadAsMeant (report : Bytes) : Prop :=
  match push.band with
  | none => Reads report (statusPackets push reasons)
  | some band => ∃ packets : List Bytes, Reads report (packets.map some ++ [none]) ∧ (∀ p ∈ packets, OnBand band p) ∧
      Reads (joinBand bandData packets) (statusPackets push reasons) ∧
      joinBand bandProgress packets = ((summary.splitOn 10).map (· ++ [10])).flatten

def Framed : Prop :=
  match refusalReport push reasons summary with
  | none => push.reports = false
  | some report => push.reports = true ∧ ReadAsMeant push reasons summary report

def Fits : Prop :=
  (∀ u ∈ push.updates, (ngLine reasons u).length + pktHeaderLen < 65536) ∧
    ∀ band, push.band = some band → ∀ line ∈ summary.splitOn 10, line.length + 1 ≤ band

end

section
variable {push : PushRequest} {reasons : Bytes → Bytes} {summary : Bytes}

theorem band_cases {band : Nat} (h : push.band = some band) : band = maxBandData ∨ band = maxSmallBandData := by
  unfold PushRequest.band at h
  split_ifs at h
  · exact Or.inl (Option.some.inj h).symm
  · exact Or.inr (Option.some.inj h).symm

theorem band_bounds {band : Nat} (h : push.band = some band) : 0 < band ∧ band + 1 + pktHeaderLen < 65536 := by
  rcases band_cases h with rfl | rfl <;> decide

theorem statusPackets_bound {b : Bytes} (h : Reads b (statusPackets push reasons)) :
    ∀ u ∈ push.updates, (ngLine reasons u).length + pktHeaderLen < 65536 := fun _ hu =>
  h.bound _ (mem_append_left _ (mem_map_of_mem (mem_cons_of_mem _ (mem_map_of_mem hu))))

theorem reads_status (h : ∀ u ∈ push.updates, (ngLine reasons u).length + pktHeaderLen < 65536) :
    Reads (status push reasons) (statusPackets push reasons) := by
  refine reads_flush.lines fun p hp => ?_
  rcases mem_cons.1 hp with rfl | hp
  · decide
  · obtain ⟨u, hu, rfl⟩ := mem_map.1 hp
    exact h u hu

theorem progressPackets_eq (summary : Bytes) :
    progressPackets summary = ((summary.splitOn 10).map (· ++ [10])).map (bandProgress :: ·) := by
  unfold progressPackets
  simp

theorem progress_length {band : Nat} : (∀ l ∈ progressPackets summary, l.length ≤ band + 1) ↔
    ∀ line ∈ summary.splitOn 10, line.length + 1 ≤ band := by
  unfold progressPackets
  simp only [forall_mem_map, length_cons, length_append, length_nil]
  exact forall₂_congr fun _ _ => by omega

theorem banded_iff {band : Nat} (hband : push.band = some band) {report : Bytes}
    (hreport : report = ((progressPackets summary).map pktLine).flatten ++
      ((dataPackets band (status push reasons).length (status push reasons)).map pktLine).flatten ++ flushPkt) :
    ReadAsMeant push reasons summary report ↔ Fits push reasons summary := by
  obtain ⟨hpos, hmax⟩ := band_bounds hband
  unfold ReadAsMeant Fits
  rw [hband, hreport]
  dsimp only
  constructor
  · rintro ⟨packets, hreads, hon, hdata, -⟩
    rw [append_assoc] at hreads
    refine ⟨statusPackets_bound hdata, fun band' hband' => ?_⟩
    cases hband'
    exact progress_length.1 (hreads.fit hmax hon)
  · rintro ⟨hstatus, hlines⟩
    have hlines := progress_length.2 (hlines band rfl)
    obtain ⟨ds, hcut, hflat, hle⟩ := dataPackets_cut hpos (le_refl (status push reasons).length)
    rw [hcut]
    have hon : ∀ p ∈ progressPackets summary ++ ds.map (bandData :: ·), OnBand band p := by
      intro p hp
      rcases mem_append.1 hp with hp | hp
      · have hlen := hlines p hp
        obtain ⟨line, -, rfl⟩ := mem_map.1 hp
        exact ⟨Or.inr rfl, Nat.add_le_add_right hlen _⟩
      · obtain ⟨d, hd, rfl⟩ := mem_map.1 hp
        exact ⟨Or.inl rfl, Nat.add_le_add_right (Nat.succ_le_succ (hle d hd)) _⟩
    have hreads := reads_flush.lines fun p hp => lt_of_le_of_lt (hon p hp).2 hmax
    rw [map_append, flatten_append] at hreads
    refine ⟨_, hreads, hon, ?_, ?_⟩
    · rw [joinBand_append, joinBand_same, hflat, progressPackets_eq, joinBand_other (by decide), nil_append]
      exact reads_status hstatus
    · rw [joinBand_append, progressPackets_eq, joinBand_same, joinBand_other (by decide), append_nil]

theorem read_iff (hasked : push.reports = true) : ∃ report, refusalReport push reasons summary = some report ∧
    (ReadAsMeant push reasons summary report ↔ Fits push reasons summary) := by
  unfold refusalReport
  rw [hasked]
  cases hband : push.band with
  | none =>
    refine ⟨_, rfl, ?_⟩
    unfold ReadAsMeant Fits
    rw [hband]
    exact ⟨fun h => ⟨statusPackets_bound h, fun _ h => nomatch h⟩, fun h => reads_status h.1⟩
  | some => exact ⟨_, rfl, banded_iff hband rfl⟩

theorem framed_iff_fits (hasked : push.reports = true) : Framed push reasons summary ↔ Fits push reasons summary := by
  obtain ⟨report, hreport, hiff⟩ := read_iff hasked
  unfold Framed
  rw [hreport]
  exact ⟨fun h => hiff.1 h.2, fun h => ⟨hasked, hiff.2 h⟩⟩

/-- **The client reads the report as it was meant**, exactly when it asked for none, or four digits say how long each status
is and the side band takes each line of the summary. -/
theorem refusalReport_framed_iff (push : PushRequest) (reasons : Bytes → Bytes) (summary : Bytes) :
    Framed push reasons summary ↔ (push.reports = true → Fits push reasons summary) := by
  cases hasked : push.reports with
  | false =>
    unfold Framed refusalReport
    simp [hasked]
  | true =>
    rw [framed_iff_fits hasked]
    exact ⟨fun h _ => h, fun h => h rfl⟩

end

/-! ## A summary that the small side band does not take -/

def deleting : Bytes :=
  pktLine (oidA ++ 32 :: List.replicate 40 48 ++ bytes " refs/heads/CP-1-fix" ++ 0 :: bytes "report-status side-band") ++ flushPkt

def deletingRead : PushRequest where
  updates := [⟨oidA, List.replicate 40 48, bytes "refs/heads/CP-1-fix"⟩]
  capabilities := [bytes "report-status", bytes "side-band"]
  certificate := false
  pack := []

/-- A sentence of 995 bytes makes a packet of 1001. -/
theorem long_summary_uncut : ¬ ∀ (body : Bytes) (push : PushRequest), parsePush body = .ok push →
    ∀ (reasons : Bytes → Bytes) (summary : Bytes), Framed push reasons summary := by
  intro h
  have hpush : parsePush deleting = .ok deletingRead := by decide +kernel
  have hband : deletingRead.band = some maxSmallBandData := by decide +kernel
  have hfits := (framed_iff_fits (by decide +kernel)).1 (h deleting deletingRead hpush (fun _ => bytes "No.") (List.replicate 995 97))
  have hsplit : (List.replicate 995 97 : Bytes).splitOn 10 = [List.replicate 995 97] := by
    unfold List.splitOn
    refine splitOnP_eq_singleton fun c hc => ?_
    rw [eq_of_mem_replicate hc]
    decide
  have hlong := hfits.2 _ hband (List.replicate 995 97) (by rw [hsplit]; exact mem_singleton_self _)
  rw [length_replicate] at hlong
  exact absurd hlong (by decide)

end Git
end Armature
