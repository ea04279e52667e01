import Odss.Lib.Sweep
import Odss.Proofs.AmRxOrder

/-!
# `Odss.Proofs.AmSegmentCheck`: when AM segments make up a PDU

`add_segment_and_check` is a sweep over the stored segments (`checkSegments_eq_sweep`). It looks at the flag
of the last segment that is left, which is the one that reaches furthest, and the first segment of an SN is
stored without a check.

`completes_iff` says in which states `back` is not called for an empty list and segments that cover a PDU
are put together. `rebuildPdu_of_fits` says that this succeeds for segments that fit the buffers.
-/

set_option linter.all false

namespace Odss.Rlc

open Odss.Lib

namespace AmRx

/-! ### The list of segments -/

/-- The offset of a segment. -/
def segStart (g : AmdRxPdu) : Nat := g.header.so

/-- The offset behind a segment. -/
def segEnd (g : AmdRxPdu) : Nat := g.header.so + g.buf.length

theorem checkSegments_eq_sweep (so : Nat) (segments : AmdRxPduSegments) :
    checkSegments so segments = sweep segStart segEnd so segments := by
  induction segments generalizing so with
  | nil => rfl
  | cons g segments ih =>
    unfold checkSegments sweep segStart segEnd
    split
    · rfl
    · split
      · exact ih so
      · rename_i hbeyond
        have hmax : max so (g.header.so + g.buf.length) = g.header.so + g.buf.length := by omega
        simp only [hmax, ih]
        rfl

/-- The segments have different offsets, in increasing order. -/
def SegmentsSorted (segments : AmdRxPduSegments) : Prop :=
  segments.Pairwise fun a b => segStart a < segStart b

theorem sorted_insertSegment {segments : AmdRxPduSegments} (segment : AmdRxPdu)
    (h : SegmentsSorted segments) : SegmentsSorted (insertSegment segment segments) := by
  induction segments with
  | nil => exact List.pairwise_singleton _ _
  | cons g segments ih =>
    obtain ⟨hfirst, hrest⟩ := List.pairwise_cons.mp h
    unfold insertSegment
    split
    · rename_i hlt
      refine List.pairwise_cons.mpr ⟨fun b hb => ?_, ih hrest⟩
      rcases mem_insertSegment hb with rfl | hb
      · exact hlt
      · exact hfirst b hb
    · rename_i hge
      split
      · rename_i heq
        split
        · refine List.pairwise_cons.mpr ⟨fun b hb => ?_, hrest⟩
          have hlt := hfirst b hb
          unfold segStart at hlt ⊢
          omega
        · exact h
      · rename_i hne
        refine List.pairwise_cons.mpr ⟨fun b hb => ?_, h⟩
        rcases List.mem_cons.mp hb with rfl | hb
        · unfold segStart
          omega
        · have hlt := hfirst b hb
          unfold segStart at hlt ⊢
          omega

theorem sublist_checkSegments (so : Nat) (segments : AmdRxPduSegments) :
    (checkSegments so segments).1.Sublist segments := by
  induction segments generalizing so with
  | nil => exact List.Sublist.refl _
  | cons g segments ih =>
    unfold checkSegments
    split
    · exact List.Sublist.refl _
    · split
      · exact (ih so).cons g
      · exact (ih _).cons_cons g

theorem sorted_addSegmentAndCheck {segments segments' : AmdRxPduSegments} {segment : AmdRxPdu}
    (h : SegmentsSorted segments)
    (hadd : addSegmentAndCheck segments segment = some (.incomplete segments')) :
    SegmentsSorted segments' := by
  have hchecked : SegmentsSorted (checkSegments 0 (insertSegment segment segments)).1 :=
    (sorted_insertSegment segment h).sublist (sublist_checkSegments 0 _)
  unfold addSegmentAndCheck at hadd
  split at hadd
  · rename_i checked hcheck
    cases hadd
    rwa [hcheck] at hchecked
  · rename_i checked hcheck
    split at hadd
    · cases hadd
    · split at hadd
      · cases hadd
        rwa [hcheck] at hchecked
      · obtain ⟨r, -, hr⟩ := Option.map_eq_some_iff.mp hadd
        cases hr

/-! ### The lists of every run -/

/-- The segments of an SN. -/
structure SegmentsOf (sn : Nat) (segments : AmdRxPduSegments) : Prop where
  sorted : SegmentsSorted segments
  sn : ∀ g ∈ segments, g.header.sn = sn

theorem SegmentsOf.insertSegment {segment : AmdRxPdu} {segments : AmdRxPduSegments}
    (h : SegmentsOf segment.header.sn segments) :
    SegmentsOf segment.header.sn (insertSegment segment segments) := by
  refine ⟨sorted_insertSegment segment h.sorted, fun g hg => ?_⟩
  rcases mem_insertSegment hg with rfl | hg
  · rfl
  · exact h.sn g hg

/-- The segments of each SN are in order. -/
def AllSorted (s : AmRx) : Prop :=
  ∀ sn list, s.rxSegments.find? sn = some list → SegmentsOf sn list

theorem AllSorted.clearSegments {s : AmRx} (sn : Nat) (h : AllSorted s) :
    AllSorted { s with rxSegments := clearSegments s.rxSegments sn } := by
  intro sn' list hfind
  unfold AmRx.clearSegments at hfind
  split at hfind
  · exact h sn' list hfind
  · rw [OrdMap.find?_insert] at hfind
    split at hfind
    · cases hfind
      exact ⟨.nil, fun g hg => (List.not_mem_nil hg).elim⟩
    · exact h sn' list hfind

theorem AllSorted.reassembleLoop {s t : AmRx} (fuel : Nat) (h : AllSorted s)
    (hloop : reassembleLoop fuel s = some t) : AllSorted t := by
  induction fuel generalizing s with
  | zero =>
    cases hloop
    exact h
  | succ fuel ih =>
    unfold AmRx.reassembleLoop at hloop
    split at hloop
    · cases hloop
      exact h
    · split at hloop
      · cases hloop
      · rename_i pdu hpdu _ rxSdu hsdu
        have hnext : AllSorted (s.reassembleRound rxSdu pdu) := h.clearSegments s.vrR
        exact ih hnext hloop

theorem AllSorted.handleDataPdu {s t : AmRx} (h : AllSorted s) {header : AmdHeader} {payload : Bytes}
    (hpdu : s.handleDataPdu header payload = some t) : AllSorted t := by
  unfold AmRx.handleDataPdu at hpdu
  split at hpdu
  · split at hpdu
    · cases hpdu
      exact h
    · obtain ⟨u, hreassemble, rfl⟩ := Option.map_eq_some_iff.mp hpdu
      have hu : AllSorted u := AllSorted.reassembleLoop amMod
        (s := { s.storePdu header payload with
          rxSdu := some ((s.storePdu header payload).rxSdu.getD []) }) h hreassemble
      unfold startReordering
      split
      · exact hu
      · exact hu
  · split at hpdu
    · cases hpdu
      exact h
    · cases hpdu
      exact h

theorem AllSorted.insert {s : AmRx} (h : AllSorted s) {sn : Nat} {list : AmdRxPduSegments}
    (hlist : SegmentsOf sn list) : AllSorted { s with rxSegments := s.rxSegments.insert sn list } := by
  intro sn' list' hfind
  rw [OrdMap.find?_insert] at hfind
  split at hfind
  · rename_i heq
    cases hfind
    rw [heq]
    exact hlist
  · exact h sn' list' hfind

theorem AllSorted.erase {s : AmRx} (h : AllSorted s) (sn : Nat) :
    AllSorted { s with rxSegments := s.rxSegments.erase sn } := by
  intro sn' list hfind
  rw [OrdMap.find?_erase] at hfind
  split at hfind
  · cases hfind
  · exact h sn' list hfind

theorem AllSorted.handleDataPduSegment {s t : AmRx} (h : AllSorted s) {header : AmdHeader}
    {payload : Bytes} (hpdu : s.handleDataPduSegment header payload = some t) : AllSorted t := by
  unfold AmRx.handleDataPduSegment at hpdu
  split at hpdu
  · cases hpdu
    exact h
  · split at hpdu
    · cases hpdu
      exact h
    · split at hpdu
      · cases hpdu
        exact h.insert ⟨List.pairwise_singleton _ _, fun g hg => by rw [List.mem_singleton.mp hg]⟩
      · rename_i segments hfind
        unfold nextSegment at hpdu
        simp only at hpdu
        split at hpdu
        · cases hpdu
        · rename_i segments' hadd
          cases hpdu
          have hlist := h _ _ hfind
          refine AllSorted.insert (s := s.requestStatus header.p) h
            ⟨sorted_addSegmentAndCheck hlist.sorted hadd, fun g hg => ?_⟩
          rcases addSegmentAndCheck_mem hadd hg with rfl | hg
          · rfl
          · exact hlist.sn g hg
        · rename_i header' payload' hadd
          obtain ⟨u, hu, rfl⟩ := Option.map_eq_some_iff.mp hpdu
          exact (AllSorted.handleDataPdu (s := s.requestStatus header.p) h hu).erase header.sn

theorem AllSorted.step {s t : AmRx} {op : Op} {report : Option StatusPdu} (h : AllSorted s)
    (hstep : s.step op = some (t, report)) : AllSorted t := by
  cases op with
  | writePdu bytes =>
    obtain ⟨u, hu, heq⟩ := Option.map_eq_some_iff.mp hstep
    cases heq
    unfold writePdu at hu
    split at hu
    · cases hu
      exact h
    · split at hu
      · cases hu
      · split at hu
        · exact h.handleDataPduSegment hu
        · exact h.handleDataPdu hu
  | timerExpired =>
    cases hstep
    unfold AmRx.timerExpired
    split
    · exact h
    · simp only
      split
      · exact h
      · exact h
  | getStatusPdu maxPduSize =>
    cases hstep
    unfold afterStatusPdu
    split
    · exact h
    · exact h
  | stop =>
    cases hstep
    intro sn list hfind
    simp [AmRx.stop, init] at hfind

theorem allSorted_of_run {ops : List Op} {s : AmRx} {reports : List (Option StatusPdu)}
    (hrun : run step init ops = some (s, reports)) : AllSorted s :=
  run_invariant AllSorted (fun _ _ _ _ h hstep => h.step hstep) ops _ _ _
    (fun sn list hfind => by simp [init] at hfind) hrun

/-! ### The copy of the segments -/

/-- What the copy of segments without a gap behind `fullPdu` has. -/
structure Copied (segments : AmdRxPduSegments) (fullPdu copy : Bytes) : Prop where
  keeps : fullPdu <+: copy
  reach : ∀ g ∈ segments, segEnd g ≤ copy.length
  bytes : ∀ b, fullPdu.length ≤ b → b < copy.length →
    ∃ g ∈ segments, segStart g ≤ b ∧ b < segEnd g ∧ copy[b]? = g.buf[b - segStart g]?

theorem copied_checkSegments {segments : AmdRxPduSegments} {fullPdu : Bytes}
    (hgap : (checkSegments fullPdu.length segments).2 = true) :
    Copied segments fullPdu ((checkSegments fullPdu.length segments).1.foldl copySegment fullPdu) := by
  induction segments generalizing fullPdu with
  | nil =>
    have hempty : ∀ b, fullPdu.length ≤ b → ¬b < fullPdu.length := fun b hle hlt => by omega
    exact ⟨List.prefix_refl _, fun g hg => (List.not_mem_nil hg).elim,
      fun b hle hlt => (hempty b hle hlt).elim⟩
  | cons g segments ih =>
    unfold checkSegments at hgap ⊢
    split at hgap
    · cases hgap
    · rename_i hnear
      rw [if_neg hnear]
      split at hgap
      · rename_i hinside
        rw [if_pos hinside]
        have hcopy := ih hgap
        refine ⟨hcopy.keeps, fun c hc => ?_, fun b hle hlt => ?_⟩
        · rcases List.mem_cons.mp hc with rfl | hc
          · exact Nat.le_trans hinside hcopy.keeps.length_le
          · exact hcopy.reach c hc
        · obtain ⟨c, hc, hbyte⟩ := hcopy.bytes b hle hlt
          exact ⟨c, List.mem_cons_of_mem _ hc, hbyte⟩
      · rename_i hbeyond
        rw [if_neg hbeyond]
        -- The segment is copied from the end of the bytes in front of it.
        have hcopied : copySegment fullPdu g =
            fullPdu ++ g.buf.drop (fullPdu.length - g.header.so) := if_pos (by omega)
        have hlength : (copySegment fullPdu g).length = segEnd g := by
          rw [hcopied, List.length_append, List.length_drop]
          unfold segEnd
          omega
        have hmax : max fullPdu.length (g.header.so + g.buf.length) = (copySegment fullPdu g).length := by
          rw [hlength]
          unfold segEnd
          omega
        rw [hmax] at hgap ⊢
        have hcopy := ih hgap
        rw [List.foldl_cons]
        have hkeeps : fullPdu <+: copySegment fullPdu g := hcopied ▸ List.prefix_append _ _
        refine ⟨hkeeps.trans hcopy.keeps, fun c hc => ?_, fun b hle hlt => ?_⟩
        · rcases List.mem_cons.mp hc with rfl | hc
          · exact hlength ▸ hcopy.keeps.length_le
          · exact hcopy.reach c hc
        · rcases Nat.lt_or_ge b (copySegment fullPdu g).length with hin | hout
          · refine ⟨g, List.mem_cons_self, by unfold segStart; omega, by omega, ?_⟩
            have hoffset : fullPdu.length - g.header.so + (b - fullPdu.length) = b - segStart g := by
              unfold segStart
              omega
            obtain ⟨rest, hrest⟩ := hcopy.keeps
            rw [← hrest, List.getElem?_append_left hin, hcopied, List.getElem?_append_right hle,
              List.getElem?_drop, hoffset]
          · obtain ⟨c, hc, hbyte⟩ := hcopy.bytes b hout hlt
            exact ⟨c, List.mem_cons_of_mem _ hc, hbyte⟩

/-! ### The header of the PDU -/

/-- The number of length indicators that a segment can add. -/
def liRoom (g : AmdRxPdu) : Nat := g.header.li.length + 1

/-- The header has room for `n` more length indicators, and bytes are counted only behind one. -/
structure HasRoom (w : HeaderRebuild) (n : Nat) : Prop where
  room : w.nLi + n ≤ amWindowSize
  counted : w.count ≠ 0 → w.nLi ≠ 0

theorem HasRoom.addLi {w : HeaderRebuild} {n : Nat} (h : HasRoom w (n + 1)) (i li totalPduOffset : Nat) :
    HasRoom (w.addLi i li totalPduOffset) n := by
  obtain ⟨hroom, hcounted⟩ := h
  unfold HeaderRebuild.addLi
  split
  · refine ⟨?_, fun _ => Nat.succ_ne_zero _⟩
    show w.nLi + 1 + n ≤ amWindowSize
    omega
  · exact ⟨by omega, hcounted⟩

theorem HasRoom.addLis {w : HeaderRebuild} {n : Nat} (lis : List Nat) (i offset : Nat)
    (h : HasRoom w (lis.length + n)) : HasRoom (w.addLis lis i offset) n := by
  induction lis generalizing w i offset with
  | nil => simpa [HeaderRebuild.addLis] using h
  | cons li lis ih =>
    have hroom : HasRoom w (lis.length + n + 1) := by
      have hlength : (li :: lis).length + n = lis.length + n + 1 := by
        rw [List.length_cons]
        omega
      rwa [hlength] at h
    exact ih (i + 1) (offset + li) (hroom.addLi i li (offset + li))

theorem HasRoom.checkSize {w : HeaderRebuild} {n : Nat} (h : HasRoom w n) : w.checkSize = some w := by
  obtain ⟨hroom, -⟩ := h
  exact if_pos (by omega)

theorem HasRoom.updateCarryover {w : HeaderRebuild} {n : Nat} (h : HasRoom w n) (g : AmdRxPdu) :
    ∃ w', w.updateCarryover g = some w' ∧ w'.nLi + n ≤ amWindowSize := by
  obtain ⟨hroom, hcounted⟩ := h
  unfold HeaderRebuild.updateCarryover
  split
  · exact ⟨_, rfl, hroom⟩
  · rename_i hlong
    rw [if_neg (hcounted (by omega))]
    refine ⟨_, rfl, ?_⟩
    show w.nLi - 1 + n ≤ amWindowSize
    omega

theorem HasRoom.addSegment {w : HeaderRebuild} {n : Nat} {g : AmdRxPdu} (h : HasRoom w (liRoom g + n))
    (last : Bool) : ∃ w', w.addSegment g last = some w' ∧ HasRoom w' n := by
  have hlis : HasRoom w (g.header.li.length + (n + 1)) := by
    have hroom : liRoom g + n = g.header.li.length + (n + 1) := by
      unfold liRoom
      omega
    rwa [hroom] at h
  have hadded := hlis.addLis g.header.li 0 g.header.so
  obtain ⟨w', hcarry, hroom⟩ := hadded.updateCarryover g
  have hend : HasRoom (w'.endSegment g last) n := by
    unfold HeaderRebuild.endSegment
    split
    · refine ⟨?_, fun hcount => absurd rfl hcount⟩
      show w'.nLi + 1 + n ≤ amWindowSize
      omega
    · refine ⟨?_, fun hcount => absurd rfl hcount⟩
      show w'.nLi + n ≤ amWindowSize
      omega
  refine ⟨w'.endSegment g last, ?_, hend⟩
  unfold HeaderRebuild.addSegment
  rw [hadded.checkSize, Option.bind_some, hcarry, Option.bind_some, hend.checkSize]

theorem rebuildLoop_of_room {segments : AmdRxPduSegments} {w : HeaderRebuild}
    (h : HasRoom w (segments.map liRoom).sum) : ∃ w', rebuildLoop segments w = some w' := by
  induction segments generalizing w with
  | nil => exact ⟨w, rfl⟩
  | cons g segments ih =>
    obtain ⟨w', hsegment, hroom⟩ := HasRoom.addSegment h segments.isEmpty
    unfold rebuildLoop
    rw [hsegment, Option.bind_some]
    exact ih hroom

/-- The segments fit the array of length indicators and the buffer of a PDU. -/
structure SegmentsFit (segments : AmdRxPduSegments) : Prop where
  lis : (segments.map liRoom).sum ≤ amWindowSize
  bytes : ∀ g ∈ segments, segEnd g ≤ bufferTailroom

/-- Segments without a gap that fit the buffers are put together. -/
theorem rebuildPdu_of_fits {segments : AmdRxPduSegments} (hfits : SegmentsFit segments)
    (hgap : (checkSegments 0 segments).2 = true) (hne : (checkSegments 0 segments).1 ≠ []) :
    ∃ header payload, rebuildPdu (checkSegments 0 segments).1 = some (header, payload) ∧
      Copied segments [] payload := by
  have hcopy : Copied segments [] ((checkSegments 0 segments).1.foldl copySegment []) :=
    copied_checkSegments hgap
  generalize hkept : (checkSegments 0 segments).1 = kept at hne hcopy
  have hlis : (kept.map liRoom).sum ≤ (segments.map liRoom).sum :=
    ((hkept ▸ sublist_checkSegments 0 segments).map liRoom).sum_le_sum fun _ _ => Nat.zero_le _
  have hroom : HasRoom ⟨fun _ => 0, 0, 0, 0, 0⟩ (kept.map liRoom).sum := by
    refine ⟨?_, fun hcount => absurd rfl hcount⟩
    show 0 + (kept.map liRoom).sum ≤ amWindowSize
    have := hfits.lis
    omega
  obtain ⟨w, hw⟩ := rebuildLoop_of_room hroom
  have hlength : (kept.foldl copySegment []).length ≤ bufferTailroom := by
    -- Otherwise a segment covers the byte behind the buffer.
    by_contra hlong
    obtain ⟨g, hg, -, hlt, -⟩ := hcopy.bytes bufferTailroom (Nat.zero_le _) (by omega)
    have := hfits.bytes g hg
    omega
  obtain ⟨first, hfirst⟩ := Option.ne_none_iff_exists'.mp fun h => hne (List.head?_eq_none_iff.mp h)
  obtain ⟨last, hlast⟩ := Option.ne_none_iff_exists'.mp fun h => hne (List.getLast?_eq_none_iff.mp h)
  unfold rebuildPdu rebuildHeader
  rw [hfirst, hlast, hw]
  exact ⟨_, _, if_pos hlength, hcopy⟩

/-! ### A call with a segment -/

/-- The segments of the SN once `segment` is in. -/
def storedSegments (s : AmRx) (segment : AmdRxPdu) : AmdRxPduSegments :=
  insertSegment segment ((s.rxSegments.find? segment.header.sn).getD [])

/-- The segments cover a PDU: all bytes in front of the end of a segment with the last segment flag. -/
def CoversPdu (segments : AmdRxPduSegments) : Prop :=
  ∃ g ∈ segments, g.header.lsf = true ∧ ∀ b, b < segEnd g → Covered segStart segEnd segments b

/-- `back` is called for an empty list. -/
def BackOfEmpty (s : AmRx) (segment : AmdRxPdu) : Prop :=
  ∃ segments, s.rxSegments.find? segment.header.sn = some segments ∧
    checkSegments 0 (insertSegment segment segments) = ([], true)

/-- `handle_data_pdu` gets the PDU that the segments `kept` make up, and their list is erased. -/
def handOver (s : AmRx) (segment : AmdRxPdu) (kept : AmdRxPduSegments) : Option AmRx :=
  (rebuildPdu kept).bind fun r =>
    ((s.requestStatus segment.header.p).handleDataPdu r.1 r.2).map fun s =>
      { s with rxSegments := s.rxSegments.erase segment.header.sn }

/-- The call puts the segments together. -/
structure Reconstructs (s : AmRx) (segment : AmdRxPdu) : Prop where
  handed : s.handleDataPduSegment segment.header segment.buf =
    s.handOver segment (checkSegments 0 (s.storedSegments segment)).1
  pdu : SegmentsFit (s.storedSegments segment) →
    ∃ header payload,
      rebuildPdu (checkSegments 0 (s.storedSegments segment)).1 = some (header, payload) ∧
      header.sn = segment.header.sn ∧ Copied (s.storedSegments segment) [] payload

/-- A call with a segment does not look at the back of an empty list, and puts segments together that cover
a PDU. -/
structure Completes (s : AmRx) (segment : AmdRxPdu) : Prop where
  back : ¬s.BackOfEmpty segment
  reconstructs : CoversPdu (s.storedSegments segment) → s.Reconstructs segment

/-- The first segment of an SN is not a whole PDU. With a further one, a segment reaches beyond offset 0, and
if the segments cover a PDU, there is no gap in front of any segment and the one that reaches furthest
has the last segment flag. -/
def CompletesWhen (s : AmRx) (segment : AmdRxPdu) : Prop :=
  match s.rxSegments.find? segment.header.sn with
  | none => ¬(segment.header.so = 0 ∧ segment.header.lsf = true)
  | some segments =>
    (∃ g ∈ insertSegment segment segments, 0 < segEnd g) ∧
      (CoversPdu (insertSegment segment segments) →
        (∀ g ∈ insertSegment segment segments, ∀ b, b < segStart g →
          Covered segStart segEnd (insertSegment segment segments) b) ∧
        ∃ g, Furthest segStart segEnd (insertSegment segment segments) g ∧ g.header.lsf = true)

theorem coversPdu_singleton {segment : AmdRxPdu} :
    CoversPdu [segment] ↔ segment.header.so = 0 ∧ segment.header.lsf = true := by
  constructor
  · rintro ⟨g, hg, hlsf, hcovered⟩
    rw [List.mem_singleton.mp hg] at hlsf hcovered
    refine ⟨?_, hlsf⟩
    by_contra hso
    obtain ⟨c, hc, hstart, -⟩ := hcovered 0 (by unfold segEnd; omega)
    rw [List.mem_singleton.mp hc] at hstart
    unfold segStart at hstart
    omega
  · rintro ⟨hso, hlsf⟩
    refine ⟨segment, List.mem_singleton_self _, hlsf, fun b hlt => ?_⟩
    exact ⟨segment, List.mem_singleton_self _, by unfold segStart; omega, hlt⟩

/-- Both ways to store segments leave an entry for the SN. -/
theorem handOver_ne_of_find {s t : AmRx} {segment : AmdRxPdu} {segments kept : AmdRxPduSegments}
    (hfind : t.rxSegments.find? segment.header.sn = some segments) :
    some t ≠ s.handOver segment kept := by
  intro heq
  obtain ⟨r, -, hr⟩ := Option.bind_eq_some_iff.mp heq.symm
  obtain ⟨u, -, rfl⟩ := Option.map_eq_some_iff.mp hr
  rw [OrdMap.find?_erase_self] at hfind
  cases hfind

section

variable {s : AmRx} {segment : AmdRxPdu} {segments : AmdRxPduSegments}

theorem completes_new (hin : s.insideRxWindow segment.header.sn = true)
    (hroom : segment.buf.length ≤ bufferTailroom)
    (hfind : s.rxSegments.find? segment.header.sn = none) :
    s.Completes segment ↔ s.CompletesWhen segment := by
  have hstored : s.storedSegments segment = [segment] := by
    unfold storedSegments
    rw [hfind]
    rfl
  have hcall : s.handleDataPduSegment segment.header segment.buf = some (s.newSegment segment) := by
    unfold handleDataPduSegment
    simp [hin, Nat.not_lt_of_le hroom, hfind]
  have hnever : ¬s.Reconstructs segment := fun h =>
    handOver_ne_of_find (OrdMap.find?_insert_self _ _ _) (hcall.symm.trans h.handed)
  have hwhen : s.CompletesWhen segment ↔ ¬CoversPdu [segment] := by
    unfold CompletesWhen
    rw [hfind, coversPdu_singleton]
  rw [hwhen]
  constructor
  · intro h hcovers
    exact hnever (h.reconstructs (hstored ▸ hcovers))
  · intro h
    refine ⟨?_, fun hcovers => absurd (hstored ▸ hcovers) h⟩
    rintro ⟨segments, hsome, -⟩
    rw [hfind] at hsome
    cases hsome

theorem handleDataPduSegment_next (hin : s.insideRxWindow segment.header.sn = true)
    (hroom : segment.buf.length ≤ bufferTailroom)
    (hfind : s.rxSegments.find? segment.header.sn = some segments) :
    s.handleDataPduSegment segment.header segment.buf = s.nextSegment segments segment := by
  unfold handleDataPduSegment
  simp [hin, Nat.not_lt_of_le hroom, hfind]

theorem storedSegments_next (hfind : s.rxSegments.find? segment.header.sn = some segments) :
    s.storedSegments segment = insertSegment segment segments := by
  unfold storedSegments
  rw [hfind]
  rfl

/-- There is no gap, and the last segment that is left has the last segment flag. -/
def CheckPasses (segments : AmdRxPduSegments) : Prop :=
  (checkSegments 0 segments).2 = true ∧
    ∃ last, (checkSegments 0 segments).1.getLast? = some last ∧ last.header.lsf = true

theorem nextSegment_of_passes (h : CheckPasses (insertSegment segment segments)) :
    s.nextSegment segments segment =
      s.handOver segment (checkSegments 0 (insertSegment segment segments)).1 := by
  obtain ⟨hgap, last, hlast, hlsf⟩ := h
  have hcheck : addSegmentAndCheck segments segment =
      (rebuildPdu (checkSegments 0 (insertSegment segment segments)).1).map fun r =>
        .complete r.1 r.2 := by
    unfold addSegmentAndCheck
    split
    · rename_i kept heq
      rw [heq] at hgap
      cases hgap
    · rename_i kept heq
      rw [heq] at hlast ⊢
      simp [hlast, hlsf]
  unfold nextSegment handOver
  rw [hcheck]
  cases rebuildPdu (checkSegments 0 (insertSegment segment segments)).1 with
  | none => rfl
  | some r => rfl

theorem nextSegment_of_not_passes (hback : (checkSegments 0 (insertSegment segment segments)).1 ≠ [])
    (h : ¬CheckPasses (insertSegment segment segments)) :
    ∃ t segments', s.nextSegment segments segment = some t ∧
      t.rxSegments.find? segment.header.sn = some segments' := by
  have hcheck : addSegmentAndCheck segments segment =
      some (.incomplete (checkSegments 0 (insertSegment segment segments)).1) := by
    unfold addSegmentAndCheck
    split
    · rename_i kept heq
      rw [heq]
    · rename_i kept heq
      obtain ⟨last, hlast⟩ := Option.ne_none_iff_exists'.mp fun hnone =>
        hback (List.getLast?_eq_none_iff.mp hnone)
      have hlsf : last.header.lsf = false := by
        by_contra hlsf
        exact h ⟨by rw [heq], last, hlast, by simpa using hlsf⟩
      rw [heq] at hlast ⊢
      simp [hlast, hlsf]
  unfold nextSegment
  rw [hcheck]
  exact ⟨_, _, rfl, OrdMap.find?_insert_self _ _ _⟩

theorem reconstructs_iff (hin : s.insideRxWindow segment.header.sn = true)
    (hroom : segment.buf.length ≤ bufferTailroom)
    (hfind : s.rxSegments.find? segment.header.sn = some segments)
    (hof : SegmentsOf segment.header.sn segments)
    (hback : (checkSegments 0 (insertSegment segment segments)).1 ≠ []) :
    s.Reconstructs segment ↔ CheckPasses (insertSegment segment segments) := by
  have hstored := storedSegments_next hfind
  have hcall := handleDataPduSegment_next hin hroom hfind
  constructor
  · intro h
    by_contra hfails
    obtain ⟨t, segments', hnext, hleft⟩ := nextSegment_of_not_passes (s := s) hback hfails
    exact handOver_ne_of_find hleft (hnext.symm.trans (hcall.symm.trans h.handed))
  · intro h
    refine ⟨?_, fun hfits => ?_⟩
    · rw [hcall, hstored]
      exact nextSegment_of_passes h
    · rw [hstored] at hfits ⊢
      obtain ⟨header, payload, hpdu, hcopied⟩ := rebuildPdu_of_fits hfits h.1 hback
      obtain ⟨g, hg, hsn⟩ := (rebuildPdu_eq_some hpdu).1
      have hgsn := hof.insertSegment.sn g (mem_checkSegments hg)
      exact ⟨header, payload, hpdu, hsn.trans hgsn, hcopied⟩

/-- Segments that reach beyond offset 0 pass when there is no gap in front of any of them and the one that
reaches furthest has the last segment flag. -/
theorem checkPasses_iff {list : AmdRxPduSegments} (hsorted : SegmentsSorted list)
    (hbeyond : ∃ g ∈ list, 0 < segEnd g) :
    CheckPasses list ↔
      (∀ g ∈ list, ∀ b, b < segStart g → Covered segStart segEnd list b) ∧
      ∃ g, Furthest segStart segEnd list g ∧ g.header.lsf = true := by
  have hgap : (checkSegments 0 list).2 = true ↔
      ∀ g ∈ list, ∀ b, b < segStart g → Covered segStart segEnd list b := by
    rw [checkSegments_eq_sweep, sweep_snd_iff hsorted]
    exact ⟨fun h g hg b hlt => h g hg b (Nat.zero_le b) hlt, fun h g hg b _ hlt => h g hg b hlt⟩
  have hlast (hnone : (checkSegments 0 list).2 = true) (g : AmdRxPdu) :
      (checkSegments 0 list).1.getLast? = some g ↔ Furthest segStart segEnd list g := by
    rw [checkSegments_eq_sweep] at hnone ⊢
    rw [getLast?_sweep hsorted hnone]
    refine ⟨fun h => h.1, fun h => ⟨h, ?_⟩⟩
    obtain ⟨c, hc, hpos⟩ := hbeyond
    have := h.most c hc
    omega
  constructor
  · rintro ⟨hnone, last, hleft, hlsf⟩
    exact ⟨hgap.mp hnone, last, (hlast hnone last).mp hleft, hlsf⟩
  · rintro ⟨hcovered, g, hfurthest, hlsf⟩
    have hnone := hgap.mpr hcovered
    exact ⟨hnone, g, (hlast hnone g).mpr hfurthest, hlsf⟩

theorem completes_next (hin : s.insideRxWindow segment.header.sn = true)
    (hroom : segment.buf.length ≤ bufferTailroom)
    (hfind : s.rxSegments.find? segment.header.sn = some segments)
    (hof : SegmentsOf segment.header.sn segments) :
    s.Completes segment ↔ s.CompletesWhen segment := by
  have hstored := storedSegments_next hfind
  have hempty : s.BackOfEmpty segment ↔ ¬∃ g ∈ insertSegment segment segments, 0 < segEnd g := by
    have hnil : s.BackOfEmpty segment ↔
        checkSegments 0 (insertSegment segment segments) = ([], true) := by
      unfold BackOfEmpty
      rw [hfind]
      simp
    rw [hnil, checkSegments_eq_sweep, sweep_eq_nil_iff]
    constructor
    · rintro hall ⟨g, hg, hpos⟩
      have := (hall g hg).2
      omega
    · intro hnone g hg
      have hend : ¬0 < segEnd g := fun hpos => hnone ⟨g, hg, hpos⟩
      unfold segStart
      unfold segEnd at hend ⊢
      omega
  have hwhen : s.CompletesWhen segment ↔
      (∃ g ∈ insertSegment segment segments, 0 < segEnd g) ∧
      (CoversPdu (insertSegment segment segments) →
        (∀ g ∈ insertSegment segment segments, ∀ b, b < segStart g →
          Covered segStart segEnd (insertSegment segment segments) b) ∧
        ∃ g, Furthest segStart segEnd (insertSegment segment segments) g ∧ g.header.lsf = true) := by
    unfold CompletesWhen
    rw [hfind]
  rw [hwhen]
  by_cases hbeyond : ∃ g ∈ insertSegment segment segments, 0 < segEnd g
  · have hback : ¬s.BackOfEmpty segment := fun h => hempty.mp h hbeyond
    have hne : (checkSegments 0 (insertSegment segment segments)).1 ≠ [] := by
      intro hnil
      by_cases hgap : (checkSegments 0 (insertSegment segment segments)).2 = true
      · exact hback ⟨segments, hfind, Prod.ext hnil hgap⟩
      · exact checkSegments_ne_nil (Bool.eq_false_iff.mpr hgap) hnil
    have hiff := (reconstructs_iff hin hroom hfind hof hne).trans
      (checkPasses_iff hof.insertSegment.sorted hbeyond)
    constructor
    · intro h
      exact ⟨hbeyond, fun hcovers => hiff.mp (h.reconstructs (hstored ▸ hcovers))⟩
    · rintro ⟨-, h⟩
      exact ⟨hback, fun hcovers => hiff.mpr (h (hstored ▸ hcovers))⟩
  · constructor
    · intro h
      exact absurd (hempty.mpr hbeyond) h.back
    · intro h
      exact absurd h.1 hbeyond

end

end AmRx

end Odss.Rlc
