import Odss.Proofs.AmRxWindow

/-!
# `Odss.Proofs.AmRxOrder`: the order of the RLC AM receive variables

`VarsOrdered` says `vr_r ≤ vr_ms ≤ vr_h ≤ vr_mr` in the distance from `vr_r`, with `vr_h` above each
SN of the window that has a PDU or a segment.

* `Held` is the invariant: `Settled` with the segments below `vr_h`.
* `held_handleDataPdu` and `held_handleDataPduSegment` are the steps of the two kinds of PDUs.
* Two paths store without an update of `vr_h`: `Overflows`, a payload that does not fit, and `Reuses`,
  a segment for an SN whose list was emptied. `varsOrdered_iff_within` says that no other step breaks
  the order.
-/

set_option linter.all false

namespace Odss.Rlc.AmRx

open Odss.Lib

/-- A PDU or a segment of the SN is stored. -/
def Stores (s : AmRx) (sn : Nat) : Prop :=
  s.rxWindow.contains sn = true ∨ ∃ list, s.rxSegments.find? sn = some list ∧ list ≠ []

/-- The order of the state variables. -/
structure VarsOrdered (s : AmRx) : Prop where
  le : s.rxModBase s.vrMs ≤ s.rxModBase s.vrH
  span : s.rxModBase s.vrH ≤ amWindowSize
  vrMr : s.vrMr = (s.vrR + amWindowSize) % amMod
  above : ∀ sn, sn < amMod → s.rxModBase sn < amWindowSize → s.Stores sn →
    s.rxModBase sn < s.rxModBase s.vrH

/-- A PDU takes its slot of the window and does not fit its buffer. -/
def Overflows (s : AmRx) (header : AmdHeader) (payload : Bytes) : Prop :=
  header.rf = false ∧ s.acceptsPdu header payload = true ∧ bufferTailroom < payload.length

/-- A segment goes into a list that reassembly has emptied, and is not the whole PDU. -/
def Reuses (s : AmRx) (header : AmdHeader) (payload : Bytes) : Prop :=
  header.rf = true ∧ s.insideRxWindow header.sn = true ∧ payload.length ≤ bufferTailroom ∧
    s.rxSegments.find? header.sn = some [] ∧ ¬ (header.so = 0 ∧ header.lsf = true)

/-- A PDU that is stored without an update of `vr_h` is below `vr_h`. -/
def KeepsOrder (s : AmRx) : Op → Prop
  | .writePdu bytes => ∀ r ∈ readDataPduHeader bytes,
      s.Overflows r.1 r.2 ∨ s.Reuses r.1 r.2 → s.rxModBase r.1.sn < s.rxModBase s.vrH
  | _ => True

/-! ### The invariant -/

/-- The segments are those of SNs below `vr_h`. -/
structure Held (s : AmRx) : Prop extends Settled s where
  held : ∀ sn list, s.rxSegments.find? sn = some list → sn < amMod ∧
    (∀ g ∈ list, g.header.sn = sn) ∧ (list ≠ [] → s.rxModBase sn < s.rxModBase s.vrH)

theorem held_init : Held init :=
  ⟨rxInv_init.settled, fun sn list h => by simp [init] at h⟩

theorem Held.varsOrdered {s : AmRx} (h : Held s) : VarsOrdered s := by
  refine ⟨h.le, h.span, h.vrMr, fun sn _ _ hstores => ?_⟩
  rcases hstores with hin | ⟨list, hfind, hne⟩
  · exact (h.inside sn hin).2
  · exact (h.held sn list hfind).2.2 hne

/-- The lists with segments stay below `vr_h`. -/
def SegmentsBelow (s : AmRx) : Prop :=
  ∀ sn list, s.rxSegments.find? sn = some list → sn < amMod ∧
    (∀ g ∈ list, g.header.sn = sn) ∧ (list ≠ [] → s.rxModBase sn < s.rxModBase s.vrH)

/-- A round empties the list of the SN that leaves the window. -/
theorem segmentsBelow_reassembleRound {s : AmRx} (h : Moving s) (hsegs : SegmentsBelow s)
    (pdu : AmdRxPdu) (rxSdu : Bytes) (hin : s.rxWindow.contains s.vrR = true) :
    SegmentsBelow (s.reassembleRound rxSdu pdu) := by
  have hless := (moving_reassembleRound h pdu rxSdu hin).2
  have hkept : ∀ sn list, sn ≠ s.vrR → s.rxSegments.find? sn = some list → sn < amMod ∧
      (∀ g ∈ list, g.header.sn = sn) ∧ (list ≠ [] →
        (s.reassembleRound rxSdu pdu).rxModBase sn <
          (s.reassembleRound rxSdu pdu).rxModBase s.vrH) := by
    intro sn list hne hfind
    obtain ⟨hsn, hkey, hbelow⟩ := hsegs sn list hfind
    refine ⟨hsn, hkey, fun hlist => ?_⟩
    have hlt := hbelow hlist
    have hshift : (s.reassembleRound rxSdu pdu).rxModBase sn = s.rxModBase sn - 1 :=
      cycDist_succ_base h.vrR hsn hne
    have hpos : s.rxModBase sn ≠ 0 := fun h0 => hne ((cycDist_eq_zero_iff h.vrR hsn).mp h0)
    omega
  intro sn list hfind
  show sn < amMod ∧ _ ∧ (list ≠ [] → _ < (s.reassembleRound rxSdu pdu).rxModBase s.vrH)
  simp only [reassembleRound, clearSegments] at hfind
  by_cases hR : sn = s.vrR
  · split at hfind
    · rename_i hnone
      rw [hR, hnone] at hfind
      cases hfind
    · rw [hR, OrdMap.find?_insert_self, Option.some.injEq] at hfind
      subst hfind
      exact ⟨hR ▸ h.vrR, fun g hg => absurd hg List.not_mem_nil, fun hne => absurd rfl hne⟩
  · split at hfind
    · exact hkept sn list hR hfind
    · rw [OrdMap.find?_insert_ne _ _ hR] at hfind
      exact hkept sn list hR hfind

theorem segmentsBelow_reassembleLoop {s t : AmRx} (fuel : Nat) (h : Moving s)
    (hsegs : SegmentsBelow s) (hloop : reassembleLoop fuel s = some t) : SegmentsBelow t := by
  induction fuel generalizing s with
  | zero =>
    cases hloop
    exact hsegs
  | succ fuel ih =>
    unfold reassembleLoop at hloop
    split at hloop
    · cases hloop
      exact hsegs
    · rename_i pdu hpdu
      split at hloop
      · cases hloop
      · have hin := CircularMap.contains_iff.mpr ⟨pdu, hpdu⟩
        exact ih (moving_reassembleRound h pdu _ hin).1
          (segmentsBelow_reassembleRound h hsegs pdu _ hin) hloop

theorem Held.of_eq {s t : AmRx} (h : Held s) (hR : t.vrR = s.vrR) (hMr : t.vrMr = s.vrMr)
    (hH : t.vrH = s.vrH) (hwindow : t.rxWindow = s.rxWindow) (hsegs : t.rxSegments = s.rxSegments)
    (hMs : t.vrMs < amMod) (hle : t.rxModBase t.vrMs ≤ t.rxModBase t.vrH)
    (habove : t.reorderingTimer = .running →
      t.vrX < amMod ∧ 0 < t.rxModBase t.vrX ∧ t.rxModBase t.vrX ≤ t.rxModBase t.vrH) : Held t := by
  have hbase : ∀ x, t.rxModBase x = s.rxModBase x := fun x => by rw [rxModBase, rxModBase, hR]
  refine ⟨⟨⟨hR ▸ h.vrR, hH ▸ h.vrH, by rw [hMr, hR]; exact h.vrMr, ?_, ?_⟩, hMs, hle, ?_, habove⟩, ?_⟩
  · rw [hbase, hH]
    exact h.span
  · intro k hk
    rw [hbase, hbase, hH]
    exact h.inside k (hwindow ▸ hk)
  · rw [hsegs]
    exact h.segments
  · intro sn list hfind
    rw [hbase, hbase, hH]
    exact h.held sn list (hsegs ▸ hfind)

/-- Only the status request, the poll bit or a part that the order does not speak of has changed. -/
theorem Held.requestStatus {s : AmRx} (h : Held s) (p : Bool) : Held (s.requestStatus p) :=
  h.of_eq rfl rfl rfl rfl rfl h.vrMs h.le h.above

/-! ### Data PDUs -/

theorem held_overwrite {s : AmRx} (h : Held s) {sn : Nat} (hsn : sn < amMod)
    (hbelow : s.rxModBase sn < s.rxModBase s.vrH) (pdu : AmdRxPdu) :
    Held { s with rxWindow := s.rxWindow.overwrite sn pdu } := by
  refine ⟨⟨⟨h.vrR, h.vrH, h.vrMr, h.span, fun k hk => ?_⟩, h.vrMs, h.le, h.segments, h.above⟩,
    h.held⟩
  rcases (CircularMap.contains_overwrite _ _ _ _).mp hk with rfl | ⟨-, hold⟩
  · exact ⟨hsn, hbelow⟩
  · exact h.inside k hold

theorem held_stored {s t : AmRx} (h : Held s) {header : AmdHeader} {payload : Bytes}
    (hsn : header.sn < amMod) (hin : s.rxModBase header.sn < amWindowSize)
    (hreassemble : (s.storePdu header payload).reassembleRxSdus = some t) :
    Held t.stopReordering.startReordering := by
  have hinv := rxInv_stored h.toSettled hsn hin hreassemble
  have hm := moving_storePdu h.toSettled payload hsn hin
  have hmoving : Moving { s.storePdu header payload with
      rxSdu := some ((s.storePdu header payload).rxSdu.getD []) } :=
    ⟨⟨hm.vrR, hm.vrH, hm.vrMr, hm.span, hm.inside⟩, hm.vrMs, hm.le, hm.status, hm.segments,
      hm.timer⟩
  have hraised := (updateVrH_spec h.toOrdered hsn hin).2.1
  have hsegs : SegmentsBelow t := by
    refine segmentsBelow_reassembleLoop amMod hmoving (fun sn list hfind => ?_) hreassemble
    obtain ⟨hlt, hkey, hbelow⟩ := h.held sn list hfind
    exact ⟨hlt, hkey, fun hne => Nat.lt_of_lt_of_le (hbelow hne) hraised⟩
  refine ⟨hinv.settled, ?_⟩
  unfold startReordering
  split <;> exact hsegs

theorem held_handleDataPdu {s t : AmRx} (h : Held s) {header : AmdHeader} {payload : Bytes}
    (hsn : header.sn < amMod)
    (hbelow : s.acceptsPdu header payload = true → bufferTailroom < payload.length →
      s.rxModBase header.sn < s.rxModBase s.vrH)
    (hpdu : s.handleDataPdu header payload = some t) : Held t := by
  unfold handleDataPdu at hpdu
  split at hpdu
  · rename_i haccepts
    split at hpdu
    · rename_i hroom
      cases hpdu
      exact held_overwrite h hsn (hbelow haccepts hroom) _
    · obtain ⟨t', hreassemble, rfl⟩ := Option.map_eq_some_iff.mp hpdu
      exact held_stored h hsn (acceptsPdu_inside h.toOrdered haccepts) hreassemble
  · split at hpdu
    · cases hpdu
      exact h.requestStatus header.p
    · cases hpdu
      exact h

/-- Without a guard the SN of a payload that does not fit lies at or above `vr_h`. -/
theorem below_of_overflows {s t : AmRx} (h : Held s) {header : AmdHeader} {payload : Bytes}
    (hsn : header.sn < amMod) (haccepts : s.acceptsPdu header payload = true)
    (hroom : bufferTailroom < payload.length) (hpdu : s.handleDataPdu header payload = some t)
    (ht : VarsOrdered t) : s.rxModBase header.sn < s.rxModBase s.vrH := by
  rw [handleDataPdu, if_pos haccepts, if_pos hroom] at hpdu
  cases hpdu
  exact ht.above header.sn hsn (acceptsPdu_inside h.toOrdered haccepts)
    (.inl ((CircularMap.contains_overwrite _ _ _ _).mpr (.inl rfl)))

/-! ### PDU segments -/

theorem checkSegments_ne_nil {so : Nat} {segments : AmdRxPduSegments}
    (h : (checkSegments so segments).2 = false) : (checkSegments so segments).1 ≠ [] := by
  induction segments generalizing so with
  | nil => cases h
  | cons s segments ih =>
    unfold checkSegments at h ⊢
    split at h
    · rename_i hgap
      rw [if_pos hgap]
      exact List.cons_ne_nil _ _
    · rename_i hgap
      rw [if_neg hgap]
      split at h
      · rename_i hinside
        rw [if_pos hinside]
        exact ih h
      · rename_i hinside
        rw [if_neg hinside]
        exact List.cons_ne_nil _ _

theorem Held.setSegments {s : AmRx} (h : Held s) {sn : Nat} {list : AmdRxPduSegments}
    (hsn : sn < amMod) (hkey : ∀ g ∈ list, g.header.sn = sn)
    (hbelow : s.rxModBase sn < s.rxModBase s.vrH) :
    Held { s with rxSegments := s.rxSegments.insert sn list } := by
  refine ⟨⟨⟨h.vrR, h.vrH, h.vrMr, h.span, h.inside⟩, h.vrMs, h.le, ?_, h.above⟩, ?_⟩
  · intro sn' list' hfind
    rw [OrdMap.find?_insert] at hfind
    split at hfind
    · cases hfind
      exact fun g hg => by rw [hkey g hg]; exact hsn
    · exact h.segments sn' list' hfind
  · intro sn' list' hfind
    rw [OrdMap.find?_insert] at hfind
    split at hfind
    · rename_i heq
      cases hfind
      subst heq
      exact ⟨hsn, hkey, fun _ => hbelow⟩
    · exact h.held sn' list' hfind

theorem Held.eraseSegments {s : AmRx} (h : Held s) (sn : Nat) :
    Held { s with rxSegments := s.rxSegments.erase sn } := by
  have hold : ∀ sn' list', (s.rxSegments.erase sn).find? sn' = some list' →
      s.rxSegments.find? sn' = some list' := by
    intro sn' list' hfind
    rw [OrdMap.find?_erase] at hfind
    split at hfind
    · cases hfind
    · exact hfind
  exact ⟨⟨⟨h.vrR, h.vrH, h.vrMr, h.span, h.inside⟩, h.vrMs, h.le,
    fun sn' list' hfind => h.segments sn' list' (hold sn' list' hfind), h.above⟩,
    fun sn' list' hfind => h.held sn' list' (hold sn' list' hfind)⟩

theorem Held.updateVrH {s : AmRx} (h : Held s) {sn : Nat} (hsn : sn < amMod)
    (hin : s.rxModBase sn < amWindowSize) : Held (s.updateVrH sn) := by
  obtain ⟨hH, hHle, -, hspan⟩ := updateVrH_spec h.toOrdered hsn hin
  refine ⟨⟨⟨h.vrR, hH, h.vrMr, hspan, fun k hk => ?_⟩, h.vrMs, Nat.le_trans h.le hHle, h.segments,
    fun hrun => ?_⟩, fun sn' list hfind => ?_⟩
  · obtain ⟨hbound, hlt⟩ := h.inside k hk
    exact ⟨hbound, Nat.lt_of_lt_of_le hlt hHle⟩
  · obtain ⟨hX, hpos, hle⟩ := h.above hrun
    exact ⟨hX, hpos, Nat.le_trans hle hHle⟩
  · obtain ⟨hlt, hkey, hbelow⟩ := h.held sn' list hfind
    exact ⟨hlt, hkey, fun hne => Nat.lt_of_lt_of_le (hbelow hne) hHle⟩

theorem held_newSegment {s : AmRx} (h : Held s) {segment : AmdRxPdu}
    (hsn : segment.header.sn < amMod) (hin : s.rxModBase segment.header.sn < amWindowSize) :
    Held (s.newSegment segment) := by
  have hraised := h.updateVrH hsn hin
  have hbelow := (updateVrH_spec h.toOrdered hsn hin).2.2.1
  have hset := hraised.setSegments hsn
    (fun g (hg : g ∈ [segment]) => by rw [List.mem_singleton.mp hg]) hbelow
  exact hset.of_eq rfl rfl rfl rfl rfl hset.vrMs hset.le hset.above

/-- What a further segment leads to keeps the SN. -/
theorem held_nextSegment {s t : AmRx} (h : Held s) {segment : AmdRxPdu}
    {segments : AmdRxPduSegments} (hsn : segment.header.sn < amMod)
    (hfind : s.rxSegments.find? segment.header.sn = some segments)
    (hbelow : ∀ segments', addSegmentAndCheck segments segment = some (.incomplete segments') →
      s.rxModBase segment.header.sn < s.rxModBase s.vrH)
    (hpdu : s.nextSegment segments segment = some t) : Held t := by
  have hkey := (h.held _ _ hfind).2.1
  have hreq := h.requestStatus segment.header.p
  unfold nextSegment at hpdu
  simp only at hpdu
  split at hpdu
  · cases hpdu
  · rename_i segments' hcheck
    cases hpdu
    refine hreq.setSegments hsn (fun g hg => ?_) (hbelow segments' hcheck)
    rcases addSegmentAndCheck_mem hcheck hg with rfl | hg
    · rfl
    · exact hkey g hg
  · rename_i header payload hcheck
    obtain ⟨⟨g, hg, hg'⟩, hfits⟩ := addSegmentAndCheck_complete hcheck
    obtain ⟨t', hdata, rfl⟩ := Option.map_eq_some_iff.mp hpdu
    have hheader : header.sn = segment.header.sn := by
      rw [hg']
      rcases hg with rfl | hg
      · rfl
      · exact hkey g hg
    refine (held_handleDataPdu hreq (hheader ▸ hsn) (fun _ hroom => ?_) hdata).eraseSegments _
    omega

/-- A single segment is the whole PDU, or it waits. -/
theorem addSegmentAndCheck_nil {segment : AmdRxPdu} {segments' : AmdRxPduSegments}
    (h : addSegmentAndCheck [] segment = some (.incomplete segments')) :
    ¬ (segment.header.so = 0 ∧ segment.header.lsf = true) := by
  rintro ⟨hso, hlsf⟩
  unfold addSegmentAndCheck at h
  by_cases hlen : segment.buf.length = 0
  · simp [insertSegment, checkSegments, hso, hlen] at h
  · simp [insertSegment, checkSegments, hso, hlen, hlsf] at h

theorem addSegmentAndCheck_nil_of_not {segment : AmdRxPdu} {check : SegmentCheck}
    (hnot : ¬ (segment.header.so = 0 ∧ segment.header.lsf = true))
    (h : addSegmentAndCheck [] segment = some check) : check = .incomplete [segment] := by
  unfold addSegmentAndCheck at h
  by_cases hso : segment.header.so = 0
  · have hlsf : segment.header.lsf = false := by
      rw [← Bool.not_eq_true]
      exact fun hlsf => hnot ⟨hso, hlsf⟩
    by_cases hlen : segment.buf.length = 0
    · simp [insertSegment, checkSegments, hso, hlen] at h
    · simp [insertSegment, checkSegments, hso, hlen, hlsf] at h
      exact h.symm
  · have hpos : 0 < segment.header.so := Nat.pos_of_ne_zero hso
    simp [insertSegment, checkSegments, hpos] at h
    exact h.symm

theorem held_handleDataPduSegment {s t : AmRx} (h : Held s) {header : AmdHeader} {payload : Bytes}
    (hrf : header.rf = true) (hsn : header.sn < amMod)
    (hbelow : s.Reuses header payload → s.rxModBase header.sn < s.rxModBase s.vrH)
    (hpdu : s.handleDataPduSegment header payload = some t) : Held t := by
  unfold handleDataPduSegment at hpdu
  split at hpdu
  · cases hpdu
    exact h.requestStatus header.p
  · rename_i hinside
    have hinside : s.insideRxWindow header.sn = true := by simpa using hinside
    split at hpdu
    · cases hpdu
      exact h
    · rename_i hfits
      split at hpdu
      · cases hpdu
        exact held_newSegment h hsn ((insideRxWindow_iff h.toOrdered _).mp hinside)
      · rename_i segments hfind
        refine held_nextSegment h hsn hfind (fun segments' hcheck => ?_) hpdu
        cases segments with
        | nil =>
          exact hbelow ⟨hrf, hinside, Nat.le_of_not_lt hfits, hfind, addSegmentAndCheck_nil hcheck⟩
        | cons g rest => exact (h.held _ _ hfind).2.2 (List.cons_ne_nil _ _)

/-- Without a guard the SN of a list that is used again lies at or above `vr_h`. -/
theorem below_of_reuses {s t : AmRx} (h : Held s) {header : AmdHeader} {payload : Bytes}
    (hsn : header.sn < amMod) (hreuses : s.Reuses header payload)
    (hpdu : s.handleDataPduSegment header payload = some t) (ht : VarsOrdered t) :
    s.rxModBase header.sn < s.rxModBase s.vrH := by
  obtain ⟨-, hinside, hfits, hfind, hnot⟩ := hreuses
  have hin := (insideRxWindow_iff h.toOrdered _).mp hinside
  unfold handleDataPduSegment at hpdu
  rw [if_neg (by simp [hinside]), if_neg (Nat.not_lt_of_le hfits), hfind] at hpdu
  simp only [nextSegment] at hpdu
  split at hpdu
  · cases hpdu
  · rename_i segments' hcheck
    cases hpdu
    cases addSegmentAndCheck_nil_of_not hnot hcheck
    exact ht.above header.sn hsn hin
      (.inr ⟨[⟨header, payload⟩], OrdMap.find?_insert_self _ _ _, List.cons_ne_nil _ _⟩)
  · rename_i full payload' hcheck
    cases addSegmentAndCheck_nil_of_not hnot hcheck

/-! ### Timer and runs -/

theorem held_timerExpired {s : AmRx} (h : Held s) : Held s.timerExpired := by
  unfold timerExpired
  split
  · exact h
  · rename_i hrunning
    have hrun : s.reorderingTimer = .running := by
      simpa [TimerState.isRunning] using hrunning
    obtain ⟨hX, hpos, hle⟩ := h.above hrun
    have hspan := h.span
    obtain ⟨hMs, -, -, hup⟩ := firstMissing_spec h.toOrdered amMod s.vrX hX hle
      (by simp only [amMod, amWindowSize] at *; omega)
    simp only
    split
    · rename_i hmore
      have hH : 0 < s.rxModBase s.vrH := Nat.lt_of_le_of_lt (Nat.zero_le _) hmore
      exact h.of_eq rfl rfl rfl rfl rfl hMs hup fun _ => ⟨h.vrH, hH, le_rfl⟩
    · exact h.of_eq rfl rfl rfl rfl rfl hMs hup fun hrun => by cases hrun

theorem held_step {s t : AmRx} {op : Op} {report : Option StatusPdu} (h : Held s)
    (hop : KeepsOrder s op) (hstep : s.step op = some (t, report)) : Held t := by
  cases op with
  | writePdu bytes =>
    obtain ⟨t', hwrite, ht⟩ := Option.map_eq_some_iff.mp hstep
    cases ht
    unfold writePdu at hwrite
    split at hwrite
    · cases hwrite
      exact h
    · rename_i header payload hread
      have hsn := sn_lt_of_readDataPduHeader hread
      have hbelow := hop _ hread
      split at hwrite
      · cases hwrite
      · split at hwrite
        · rename_i hrf
          exact held_handleDataPduSegment h hrf hsn (fun hr => hbelow (.inr hr)) hwrite
        · rename_i hrf
          exact held_handleDataPdu h hsn
            (fun haccepts hroom => hbelow (.inl ⟨by simpa using hrf, haccepts, hroom⟩)) hwrite
  | timerExpired =>
    cases hstep
    exact held_timerExpired h
  | getStatusPdu maxPduSize =>
    cases hstep
    unfold afterStatusPdu
    split
    · exact h.of_eq rfl rfl rfl rfl rfl h.vrMs h.le h.above
    · exact h
  | stop =>
    cases hstep
    have hstopped : s.reorderingTimer.stop ≠ .running := by
      cases s.reorderingTimer <;> decide
    exact held_init.of_eq rfl rfl rfl rfl rfl held_init.vrMs held_init.le
      fun hrun => absurd hrun hstopped

theorem keepsOrder_of_varsOrdered {s t : AmRx} {op : Op} {report : Option StatusPdu} (h : Held s)
    (hstep : s.step op = some (t, report)) (ht : VarsOrdered t) : KeepsOrder s op := by
  cases op with
  | writePdu bytes =>
    rintro ⟨header, payload⟩ hread hcase
    have hsn := sn_lt_of_readDataPduHeader hread
    obtain ⟨t', hwrite, ht'⟩ := Option.map_eq_some_iff.mp hstep
    cases ht'
    unfold writePdu at hwrite
    rw [hread] at hwrite
    simp only at hwrite
    split at hwrite
    · cases hwrite
    · rcases hcase with ⟨hrf, haccepts, hroom⟩ | hreuses
      · have hrf : header.rf = false := hrf
        rw [if_neg (by simp [hrf])] at hwrite
        exact below_of_overflows h hsn haccepts hroom hwrite ht
      · rw [if_pos hreuses.1] at hwrite
        exact below_of_reuses h hsn hreuses hwrite ht
  | timerExpired => trivial
  | getStatusPdu maxPduSize => trivial
  | stop => trivial

/-! ### PDUs in order -/

/-- The receiver between two PDUs when all PDUs before the SN `n` came in order. -/
def inOrder (n : Nat) (rxSegments : OrdMap Nat AmdRxPduSegments) (delivered : List Bytes) : AmRx :=
  { init with
    rxSdu := some []
    vrR := n
    vrMr := (n + amWindowSize) % amMod
    vrMs := n
    vrH := n
    rxSegments := rxSegments
    delivered := delivered }

/-- The header of a PDU with one SDU. -/
def wholeHeader (sn : Nat) : AmdHeader := { emptyHeader with sn := sn }

theorem firstMissing_single {n : Nat} (hn : n < amMod) (pdu : AmdRxPdu) :
    firstMissing ((∅ : CircularMap amWindowSize AmdRxPdu).overwrite n pdu) amMod n =
      (n + 1) % amMod := by
  have hin : ((∅ : CircularMap amWindowSize AmdRxPdu).overwrite n pdu).contains n = true :=
    (CircularMap.contains_overwrite _ _ _ _).mpr (.inl rfl)
  have hout : ((∅ : CircularMap amWindowSize AmdRxPdu).overwrite n pdu).contains
      ((n + 1) % amMod) = false := by
    rw [← Bool.not_eq_true]
    intro h
    rcases (CircularMap.contains_overwrite _ _ _ _).mp h with heq | ⟨-, h⟩
    · rcases succ_mod_cases hn with ⟨-, hmod⟩ | ⟨-, hmod⟩ <;> simp only [amMod] at * <;> omega
    · cases h
  rw [firstMissing, if_pos hin, firstMissing, hout]
  rfl

theorem reordering_of_empty {s : AmRx} (htimer : s.reorderingTimer = .stopped)
    (hH : s.vrH = s.vrR) : s.stopReordering.startReordering = s := by
  have hstop : s.stopReordering = s := by
    rw [stopReordering, htimer, if_neg (by simp [TimerState.isRunning])]
    cases s
    simp only at htimer
    rw [htimer]
  rw [hstop, startReordering, hH]
  simp

theorem handleDataPdu_inOrder {n : Nat} (hn : n < amMod)
    (rxSegments : OrdMap Nat AmdRxPduSegments) (delivered : List Bytes) {payload : Bytes}
    (hfits : payload.length ≤ bufferTailroom) :
    (inOrder n rxSegments delivered).handleDataPdu (wholeHeader n) payload =
      some (inOrder ((n + 1) % amMod) (clearSegments rxSegments n) (delivered ++ [payload])) := by
  let pdu : AmdRxPdu := ⟨wholeHeader n, payload⟩
  let stored : AmRx := { inOrder n rxSegments delivered with
    rxWindow := (∅ : CircularMap amWindowSize AmdRxPdu).overwrite n pdu
    vrMs := (n + 1) % amMod
    vrH := (n + 1) % amMod }
  have hzero : (inOrder n rxSegments delivered).rxModBase n = 0 := cycDist_self
  have haccepts : (inOrder n rxSegments delivered).acceptsPdu (wholeHeader n) payload = true := by
    have hin : (inOrder n rxSegments delivered).insideRxWindow n = true :=
      (insideRxWindow_iff_lt (s := inOrder n rxSegments delivered) hn rfl n).mpr
        (by rw [hzero]; decide)
    simp only [acceptsPdu, Bool.and_eq_true]
    exact ⟨⟨by simp [wholeHeader, emptyHeader], hin⟩, rfl⟩
  have hstored : (inOrder n rxSegments delivered).storePdu (wholeHeader n) payload = stored := by
    have hH : ((inOrder n rxSegments delivered).updateVrH n).vrH = (n + 1) % amMod :=
      if_pos (le_refl _)
    have hMs := firstMissing_single hn pdu
    show { stored with
      vrH := ((inOrder n rxSegments delivered).updateVrH n).vrH
      vrMs := firstMissing stored.rxWindow amMod n } = stored
    rw [hH, hMs]
  have hassemble : assemblePdu [] pdu = (some [], [payload]) := by
    rw [assemblePdu]
    show (if payload.length ≤ bufferTailroom - 0 then _ else _) = _
    rw [if_pos (by omega)]
    rfl
  have hfind : stored.rxWindow.find? n = some pdu := CircularMap.find?_overwrite_self _ _ _
  have herase : stored.rxWindow.erase n = ∅ := CircularMap.erase_overwrite rfl pdu
  have hround : stored.reassembleRound [] pdu =
      inOrder ((n + 1) % amMod) (clearSegments rxSegments n) (delivered ++ [payload]) := by
    have hMr : ((n + amWindowSize) % amMod + 1) % amMod =
        ((n + 1) % amMod + amWindowSize) % amMod := by
      simp only [amMod, amWindowSize]
      omega
    show { stored with
      rxSdu := (assemblePdu [] pdu).1
      delivered := delivered ++ (assemblePdu [] pdu).2
      rxSegments := clearSegments rxSegments n
      rxWindow := stored.rxWindow.erase n
      vrR := (n + 1) % amMod
      vrMr := ((n + amWindowSize) % amMod + 1) % amMod } = _
    rw [hassemble, herase, hMr]
    rfl
  have hreassemble : stored.reassembleRxSdus =
      some (inOrder ((n + 1) % amMod) (clearSegments rxSegments n) (delivered ++ [payload])) := by
    rw [reassembleRxSdus, reassembleLoop]
    have hnext : stored.rxWindow.find? stored.vrR = some pdu := hfind
    rw [hnext]
    show reassembleLoop _ (stored.reassembleRound [] pdu) = _
    rw [reassembleLoop, hround]
    rfl
  rw [handleDataPdu, if_pos haccepts, if_neg (by omega), hstored, hreassemble, Option.map_some]
  rw [reordering_of_empty rfl rfl]

theorem readDataPduHeader_whole {n : Nat} (hn : n < amMod) (payload : Bytes) :
    readDataPduHeader (UInt8.ofNat (128 + n / 256) :: UInt8.ofNat (n % 256) :: payload) =
      some (wholeHeader n, payload) := by
  simp only [amMod] at hn
  have hfirst : (UInt8.ofNat (128 + n / 256)).toNat = 128 + n / 256 :=
    toNat_ofNat_of_lt (by omega)
  have hsecond : (UInt8.ofNat (n % 256)).toNat = n % 256 := toNat_ofNat_of_lt (by omega)
  have hrf : (128 + n / 256) / 64 % 2 = 0 := by omega
  have hext : (128 + n / 256) / 4 % 2 = 0 := by omega
  have hp : (128 + n / 256) / 32 % 2 = 0 := by omega
  have hstart : (128 + n / 256) / 16 % 2 = 0 := by omega
  have hend : (128 + n / 256) / 8 % 2 = 0 := by omega
  have hsn : (128 + n / 256) % 4 * 256 + n % 256 = n := by omega
  have hlis : readLis false payload = some ([], payload) := by
    unfold readLis
    rfl
  unfold readDataPduHeader
  simp only [hfirst, hsecond, hrf, hext, hp, hstart, hend, hsn]
  have hoff : ((0 : Nat) == 1) = false := rfl
  simp only [hoff, Bool.false_eq_true, if_false, hlis]
  rfl

/-- PDUs that come in order leave nothing behind but the emptied lists. -/
theorem run_inOrder (k : Nat) : ∀ (n : Nat) (rxSegments : OrdMap Nat AmdRxPduSegments)
    (delivered : List Bytes), n + k ≤ 1023 → (∀ m, n ≤ m → rxSegments.find? m = none) →
    ∃ delivered' reports, run step (inOrder n rxSegments delivered)
      ((List.range' n k).map fun sn =>
        .writePdu [UInt8.ofNat (128 + sn / 256), UInt8.ofNat (sn % 256), 7]) =
      some (inOrder (n + k) rxSegments delivered', reports) := by
  induction k with
  | zero => exact fun n rxSegments delivered _ _ => ⟨delivered, [], rfl⟩
  | succ k ih =>
    intro n rxSegments delivered hk hnone
    have hn : n < amMod := by simp only [amMod]; omega
    have hstep : (inOrder n rxSegments delivered).step
        (.writePdu [UInt8.ofNat (128 + n / 256), UInt8.ofNat (n % 256), 7]) =
        some (inOrder (n + 1) rxSegments (delivered ++ [[7]]), none) := by
      have hclear : clearSegments rxSegments n = rxSegments := by
        rw [clearSegments, hnone n (le_refl _)]
      have hsucc : (n + 1) % amMod = n + 1 := Nat.mod_eq_of_lt (by simp only [amMod]; omega)
      have hfits : ([7] : Bytes).length ≤ bufferTailroom := by decide
      have hdata := handleDataPdu_inOrder hn rxSegments delivered hfits
      rw [hclear, hsucc] at hdata
      rw [step, writePdu, readDataPduHeader_whole hn]
      exact congrArg (Option.map fun t => (t, none)) hdata
    obtain ⟨delivered', reports, hrun⟩ := ih (n + 1) rxSegments (delivered ++ [[7]]) (by omega)
      fun m hm => hnone m (by omega)
    refine ⟨delivered', none :: reports, ?_⟩
    rw [List.range'_succ, List.map_cons, run_cons_eq_some]
    exact ⟨_, _, _, hstep, by rw [hrun, Nat.add_right_comm, Nat.add_assoc], rfl⟩

/-! ### The order along a run -/

/-- The variables are in order all along a run exactly when no PDU is stored at or above `vr_h`
without its update. -/
theorem varsOrdered_iff_within {ops : List Op} {s : AmRx} {reports : List (Option StatusPdu)}
    (hrun : run step init ops = some (s, reports)) :
    AlongRun step VarsOrdered init ops ↔ StepsWithin step KeepsOrder init ops :=
  alongRun_iff_within_of_inv Held VarsOrdered (fun _ hs => hs.varsOrdered)
    (fun _ _ _ _ hs hop hstep => held_step hs hop hstep)
    (fun _ _ _ _ hs hstep ht => keepsOrder_of_varsOrdered hs hstep ht) ops init s reports held_init
    hrun

/-- Two PDUs, one of which is missing. -/
theorem varsOrdered_gap :
    AlongRun step VarsOrdered init [.writePdu [128, 0, 7], .writePdu [128, 2, 7], .timerExpired] := by
  have hsome : (run step init
      [.writePdu [128, 0, 7], .writePdu [128, 2, 7], .timerExpired]).isSome = true := by
    decide
  obtain ⟨⟨s, reports⟩, hrun⟩ := Option.isSome_iff_exists.mp hsome
  refine (varsOrdered_iff_within hrun).mpr (stepsWithin_of_forall (fun op hop s => ?_) init)
  have hwhole : ∀ sn < amMod, KeepsOrder s
      (.writePdu [UInt8.ofNat (128 + sn / 256), UInt8.ofNat (sn % 256), 7]) := by
    intro sn hsn r hread hcase
    rw [readDataPduHeader_whole hsn, Option.mem_some_iff] at hread
    subst hread
    rcases hcase with ⟨-, -, hroom⟩ | ⟨hrf, -⟩
    · have hlen : bufferTailroom < 1 := hroom
      exact absurd hlen (by decide)
    · cases hrf
  simp only [List.mem_cons, List.not_mem_nil, or_false] at hop
  rcases hop with rfl | rfl | rfl
  · exact hwhole 0 (by decide)
  · exact hwhole 2 (by decide)
  · trivial

/-- The segment list of the SN 0 is emptied by the whole PDU. After the PDUs up to the SN 512, the
SN 0 is in the window again. -/
def reuseOps : List Op :=
  [.writePdu [192, 0, 0, 4, 7], .writePdu [128, 0, 7]] ++
    ((List.range' 1 512).map fun sn =>
      .writePdu [UInt8.ofNat (128 + sn / 256), UInt8.ofNat (sn % 256), 7]) ++
    [.writePdu [192, 0, 0, 4, 7]]

/-- A segment that comes when the list of its SN is empty. -/
private def segmentZero : AmdRxPdu := ⟨{ wholeHeader 0 with rf := true, so := 4 }, [7]⟩

set_option maxRecDepth 10000 in
theorem run_emptied : ∃ reports, run step init [.writePdu [192, 0, 0, 4, 7], .writePdu [128, 0, 7]] =
    some (inOrder 1 (OrdMap.insert ∅ 0 []) [[7]], reports) := ⟨_, rfl⟩

theorem step_reused (delivered : List Bytes) :
    (inOrder 513 (OrdMap.insert ∅ 0 []) delivered).step (.writePdu [192, 0, 0, 4, 7]) =
      some ({ inOrder 513 (OrdMap.insert ∅ 0 []) delivered with
        rxSegments := OrdMap.insert (OrdMap.insert ∅ 0 []) 0 [segmentZero] }, none) := by
  have hread : readDataPduHeader [192, 0, 0, 4, 7] = some (segmentZero.header, [7]) := rfl
  have hin : (inOrder 513 (OrdMap.insert ∅ 0 []) delivered).insideRxWindow 0 = true :=
    (insideRxWindow_iff_lt (s := inOrder 513 (OrdMap.insert ∅ 0 []) delivered)
      (by show 513 < 1024; decide) rfl 0).mpr (by show (511 : Nat) < 512; decide)
  have hsegment : (inOrder 513 (OrdMap.insert ∅ 0 []) delivered).handleDataPduSegment
      segmentZero.header [7] =
        (inOrder 513 (OrdMap.insert ∅ 0 []) delivered).nextSegment [] segmentZero := by
    rw [handleDataPduSegment]
    show (if !(inOrder 513 (OrdMap.insert ∅ 0 []) delivered).insideRxWindow 0 then _ else _) = _
    rw [hin]
    rfl
  rw [step, writePdu, hread]
  simp only
  rw [if_neg (by decide), if_pos (by decide), hsegment]
  rfl

/-- The new segment lies 511 SNs above `vr_h`. -/
theorem not_varsOrdered_reuse : ¬ AlongRun step VarsOrdered init reuseOps := by
  intro h
  obtain ⟨start, hstart⟩ := run_emptied
  obtain ⟨delivered, reports, hrun⟩ := run_inOrder 512 1 (OrdMap.insert ∅ 0 []) [[7]] (by decide)
    fun m hm => OrdMap.find?_insert_ne _ _ (by omega)
  have hall := run_append_eq_some.mpr ⟨_, _, _, run_append_eq_some.mpr ⟨_, _, _, hstart, hrun, rfl⟩,
    run_cons_eq_some.mpr ⟨_, _, _, step_reused delivered, run_nil _ _, rfl⟩, rfl⟩
  have hordered := h reuseOps [] (List.append_nil _).symm _ _ hall
  have hstores := hordered.above 0 (by decide)
  have hin : (0 + amMod - 513) % amMod < amWindowSize := by decide
  have hbelow := hstores hin
    (.inr ⟨[segmentZero], OrdMap.find?_insert_self _ _ _, List.cons_ne_nil _ _⟩)
  have hnot : ¬ (0 + amMod - 513) % amMod < (513 + amMod - 513) % amMod := by decide
  exact hnot hbelow

end Odss.Rlc.AmRx
