import Odss.Proofs.UmNrBuffer

/-!
# `Odss.Proofs.UmNrOrder`: the order of the SNs at the NR UM receiver

The SNs of a window are ordered by their distance from its lower edge, modulo the number of SNs. The
code compares some of them by this distance and others as numbers.

* `rank` is the distance. `Tracked` goes along a run with the SNs whose SDUs were delivered and that are
  still in the window.
* `Expires` and `Raises` say what the expiry of the reassembly timer and an SN above the window leave.
* `movesInOrder_iff` says in which states they hold.
-/

set_option linter.all false

namespace Odss.Rlc.UmNrRx

open Odss.Lib

/-! ### The order of the window -/

/-- The SN at the lower edge of the reassembly window. -/
def lowEdge (s : UmNrRx) : Nat := (s.rxNextHighest + s.mod - s.windowSize) % s.mod

/-- The distance of an SN from the lower edge. -/
def rank (s : UmNrRx) (sn : Nat) : Nat := cycDist s.mod s.lowEdge sn

theorem rxModNrBase_eq_rank {s : UmNrRx} (hle : s.rxNextHighest ≤ s.mod) {x : Nat} (hx : x ≤ s.mod) :
    s.rxModNrBase x = s.rank (x % s.mod) := by
  unfold rxModNrBase rank cycDist lowEdge
  unfold UmNrRx.mod UmNrRx.windowSize at *
  cases hsize : s.snSize <;> simp only [hsize, UmNrSnSize.mod, UmNrSnSize.windowSize] at * <;> omega

theorem rxModNrBase_eq_rank_of_lt {s : UmNrRx} (hle : s.rxNextHighest ≤ s.mod) {x : Nat}
    (hx : x < s.mod) : s.rxModNrBase x = s.rank x := by
  rw [rxModNrBase_eq_rank hle (Nat.le_of_lt hx), Nat.mod_eq_of_lt hx]

/-- `r` is the first SN from `lo` on that is not in `done`. -/
structure FirstMissing (s : UmNrRx) (done : List Nat) (lo r : Nat) : Prop where
  lt : r < s.mod
  missing : r ∉ done
  le : s.rank lo ≤ s.rank r
  before : ∀ k < s.mod, s.rank lo ≤ s.rank k → s.rank k < s.rank r → k ∈ done

/-! ### The SNs that were delivered -/

/-- A receiver, and the SNs of its window whose SDUs were delivered. -/
abbrev Tracked : Type := UmNrRx × List Nat

/-- The SN of the SDU that goes to PDCP when the PDU takes the receiver from `s` to `t`. -/
def deliveredSn (s t : UmNrRx) (bytes : Bytes) : Option Nat :=
  match readUmNrHeader s.snSize bytes with
  | none => none
  | some (header, _) =>
    if header.si ≠ .fullSdu ∧ s.delivered.length < t.delivered.length then some header.sn else none

/-- The SNs that were delivered, after a call that takes the receiver from `s` to `t`. -/
def nextDone (s t : UmNrRx) (done : List Nat) : Op → List Nat
  | .handleDataPdu bytes =>
    ((deliveredSn s t bytes).toList ++ done).filter fun k => decide (t.rank k < t.windowSize)
  | .timerExpired => done
  | .reset => []

/-- One call. -/
def trackedStep (r : Tracked) (op : Op) : Option (Tracked × Unit) :=
  (r.1.step op).map fun (t, u) => ((t, nextDone r.1 t r.2 op), u)

/-- The state between two calls. -/
structure TrackedInv (r : Tracked) : Prop where
  buffer : BufferInv r.1
  done : ∀ k ∈ r.2, k < r.1.mod ∧ r.1.rank k < r.1.windowSize

theorem snSize_updateWindow (s : UmNrRx) (sn : Nat) : (s.updateWindow sn).snSize = s.snSize := by
  unfold updateWindow
  split
  · rfl
  · obtain ⟨timer, trigger, hstart⟩ :=
      startTimer_eq (((s.updateHighest sn).updateReassembly).stopTimer sn) sn
    obtain ⟨timer', hstop⟩ := stopTimer_eq ((s.updateHighest sn).updateReassembly) sn
    rw [hstart, hstop]
    show (s.updateHighest sn).updateReassembly.snSize = _
    unfold updateReassembly
    split
    · rfl
    · split
      · rfl
      · rfl

theorem snSize_handleDataPdu {s t : UmNrRx} {bytes : Bytes} (h : s.handleDataPdu bytes = some t) :
    t.snSize = s.snSize := by
  obtain ⟨⟨header, consumed⟩, -, h⟩ := Option.bind_eq_some_iff.mp h
  unfold handlePdu at h
  split at h
  · obtain ⟨rxPdu, -, rfl⟩ := Option.map_eq_some_iff.mp h
    rfl
  · split at h
    · cases h
      rfl
    · obtain ⟨rxPdu, -, h⟩ := Option.bind_eq_some_iff.mp h
      unfold placePdu handleRxBufferUpdate at h
      split at h
      · cases h
      · cases h
        rfl
      · cases h
        exact snSize_updateWindow _ _

theorem TrackedInv.step {r r' : Tracked} {op : Op} {u : Unit} (h : TrackedInv r)
    (hstep : trackedStep r op = some (r', u)) : TrackedInv r' := by
  obtain ⟨⟨t, u'⟩, hcall, hr⟩ := Option.map_eq_some_iff.mp hstep
  cases hr
  refine ⟨h.buffer.step hcall, ?_⟩
  cases op with
  | handleDataPdu bytes =>
    obtain ⟨t', hpdu, ht⟩ := Option.map_eq_some_iff.mp hcall
    cases ht
    intro k hk
    obtain ⟨hmem, hrank⟩ := List.mem_filter.mp hk
    refine ⟨?_, of_decide_eq_true hrank⟩
    show k < t.snSize.mod
    rw [snSize_handleDataPdu hpdu]
    rcases List.mem_append.mp hmem with hnew | hold
    · have hsn := Option.mem_toList.mp hnew
      unfold deliveredSn at hsn
      split at hsn
      · cases hsn
      · rename_i header consumed hread
        split at hsn
        · cases hsn
          exact (sn_lt_of_readUmNrHeader hread).1
        · cases hsn
    · exact (h.done k hold).1
  | timerExpired =>
    cases hcall
    intro k hk
    have hfields : r.1.timerExpired.snSize = r.1.snSize ∧
        r.1.timerExpired.rxNextHighest = r.1.rxNextHighest := by
      unfold UmNrRx.timerExpired restartTimer
      split
      · exact ⟨rfl, rfl⟩
      · split
        · exact ⟨rfl, rfl⟩
        · exact ⟨rfl, rfl⟩
    show k < r.1.timerExpired.snSize.mod ∧ cycDist r.1.timerExpired.snSize.mod
      ((r.1.timerExpired.rxNextHighest + r.1.timerExpired.snSize.mod -
        r.1.timerExpired.snSize.windowSize) % r.1.timerExpired.snSize.mod) k <
          r.1.timerExpired.snSize.windowSize
    rw [hfields.1, hfields.2]
    exact h.done k hk
  | reset =>
    cases hcall
    intro k hk
    cases hk

theorem trackedInv_of_run {snSize : UmNrSnSize} {ops : List Op} {r : Tracked} {us : List Unit}
    (hrun : run trackedStep (init snSize, []) ops = some (r, us)) : TrackedInv r :=
  run_invariant TrackedInv (fun _ _ _ _ hs hstep => hs.step hstep) ops (init snSize, []) r us
    ⟨bufferInv_init snSize, fun k hk => by cases hk⟩ hrun

/-! ### Expiry of the reassembly timer -/

/-- The expiry of the timer takes the receiver from `s` to `t`: the SNs in front of the new
`RX_Next_Reassembly` are dropped and no others. -/
structure Expires (s t : UmNrRx) (done : List Nat) : Prop where
  dropped : ∀ k < s.mod, t.rxWindow.find? k =
    if t.rank k < t.rank t.rxNextReassembly then none else s.rxWindow.find? k
  next : FirstMissing t done (s.rxTimerTrigger % s.mod) t.rxNextReassembly
  highest : t.rxNextHighest < t.mod

/-- `RX_Next_Highest` is an SN, the SNs in the buffer are smaller numbers, and the SNs from the trigger
of the timer on were delivered. -/
structure ExpiresWhen (s : UmNrRx) (done : List Nat) : Prop where
  highest : s.rxNextHighest < s.mod
  below : ∀ k, s.rxWindow.contains k = true → k < s.rxNextHighest
  done : ∀ k < s.mod, s.rank (s.rxTimerTrigger % s.mod) ≤ s.rank k → s.rank k < s.windowSize → k ∈ done

theorem timerExpired_spec {s : UmNrRx} (hrunning : s.reassemblyTimer = .running) :
    s.timerExpired.snSize = s.snSize ∧ s.timerExpired.rxNextHighest = s.rxNextHighest ∧
      s.timerExpired.rxNextReassembly = s.advanceToHighest s.mod s.rxTimerTrigger ∧
      ∀ k, s.timerExpired.rxWindow.find? k =
        if k < s.advanceToHighest s.mod s.rxTimerTrigger then none else s.rxWindow.find? k := by
  have hruns : (!s.reassemblyTimer.isRunning) = false := by
    rw [hrunning]
    rfl
  rw [timerExpired, hruns, if_neg Bool.false_ne_true, restartTimer]
  split
  · exact ⟨rfl, rfl, rfl, find?_dropBelow _⟩
  · exact ⟨rfl, rfl, rfl, find?_dropBelow _⟩

theorem advanceToHighest_trigger {s : UmNrRx} (h : BufferInv s)
    (hrunning : s.reassemblyTimer = .running) (hlt : s.rxNextHighest < s.mod) :
    s.advanceToHighest s.mod s.rxTimerTrigger = s.rxNextHighest := by
  obtain ⟨htrigger, hle⟩ := h.trigger hrunning
  have hpos := h.started hrunning
  have hwindow := windowSize_lt_mod s
  have hbase := rxModNrBase_advanceToHighest h.highest s.mod htrigger (by omega)
  have hbound := advanceToHighest_le s s.mod hle
  generalize s.advanceToHighest s.mod s.rxTimerTrigger = x at hbase hbound
  unfold rxModNrBase at hbase
  unfold UmNrRx.mod UmNrRx.windowSize at *
  cases hsize : s.snSize <;> simp only [hsize, UmNrSnSize.mod, UmNrSnSize.windowSize] at * <;> omega

theorem rank_highest {s : UmNrRx} (hlt : s.rxNextHighest < s.mod) :
    s.rank s.rxNextHighest = s.windowSize := by
  rw [← rxModNrBase_eq_rank_of_lt (Nat.le_of_lt hlt) hlt, rxModNrBase_highest]

theorem rank_of_find? {s : UmNrRx} (h : BufferInv s) {k : Nat} {pdu : UmNrSegments}
    (hfind : s.rxWindow.find? k = some pdu) : k < s.mod ∧ s.rank k < s.windowSize := by
  obtain ⟨hk, hbase⟩ := h.inside k pdu hfind
  rw [rxModNrBase_eq_rank_of_lt h.highest hk] at hbase
  exact ⟨hk, hbase⟩

theorem expires_iff {s : UmNrRx} {done : List Nat} (h : TrackedInv (s, done))
    (hrunning : s.reassemblyTimer = .running) :
    Expires s s.timerExpired done ↔ ExpiresWhen s done := by
  obtain ⟨hsize, hhighest, hreassembly, hfind⟩ := timerExpired_spec hrunning
  have hmod : s.timerExpired.mod = s.mod := congrArg UmNrSnSize.mod hsize
  have hrank : ∀ x, s.timerExpired.rank x = s.rank x := by
    intro x
    unfold rank lowEdge UmNrRx.windowSize
    rw [hmod, hhighest, hsize]
  by_cases hlt : s.rxNextHighest < s.mod
  · have hnext := advanceToHighest_trigger h.buffer hrunning hlt
    rw [hnext] at hreassembly hfind
    have htop := rank_highest hlt
    constructor
    · rintro ⟨hdropped, hfirst, -⟩
      refine ⟨hlt, fun k hk => ?_, fun k hk hle hin => ?_⟩
      · obtain ⟨pdu, hpdu⟩ := (OrdMap.contains_iff _ _).mp hk
        obtain ⟨hkmod, hin⟩ := rank_of_find? h.buffer hpdu
        have hgone := hdropped k hkmod
        rw [hreassembly, hrank, hrank, htop, if_pos hin, hfind] at hgone
        by_contra hge
        rw [if_neg hge, hpdu] at hgone
        cases hgone
      · have hbefore := hfirst.before k (hmod ▸ hk)
        rw [hrank, hrank, hreassembly, hrank, htop] at hbefore
        exact hbefore hle hin
    · rintro ⟨-, hbelow, hdone⟩
      refine ⟨fun k _ => ?_, ⟨?_, fun hmem => ?_, ?_, fun k hk hle hin => ?_⟩, ?_⟩
      · rw [hfind, hreassembly, hrank, hrank, htop]
        cases hk : s.rxWindow.find? k with
        | none => rw [ite_self, ite_self]
        | some pdu =>
          have hin : s.rxWindow.contains k = true := (OrdMap.contains_iff _ _).mpr ⟨pdu, hk⟩
          rw [if_pos (hbelow k hin), if_pos (rank_of_find? h.buffer hk).2]
      · rw [hreassembly, hmod]
        exact hlt
      · rw [hreassembly] at hmem
        have hin : s.rank s.rxNextHighest < s.windowSize := (h.done _ hmem).2
        omega
      · obtain ⟨htrigger, hle⟩ := h.buffer.trigger hrunning
        rw [rxModNrBase_eq_rank h.buffer.highest hle] at htrigger
        rw [hreassembly, hrank, hrank, htop]
        exact htrigger
      · rw [hmod] at hk
        rw [hrank, hrank] at hle
        rw [hrank, hreassembly, hrank, htop] at hin
        exact hdone k hk hle hin
      · rw [hhighest, hmod]
        exact hlt
  · refine iff_of_false (fun hexpires => hlt ?_) fun hwhen => hlt hwhen.highest
    have hbound := hexpires.highest
    rwa [hhighest, hmod] at hbound

/-! ### An SN above the window -/

/-- The PDU has a segment of the SN `sn`, which is not in the window. -/
def AboveWindow (s : UmNrRx) (bytes : Bytes) (sn : Nat) : Prop :=
  ∃ header consumed rxPdu, readUmNrHeader s.snSize bytes = some (header, consumed) ∧
    header.si ≠ .fullSdu ∧ header.sn = sn ∧ s.windowSize ≤ s.rank sn ∧
    stripPduHeader header bytes = some rxPdu

/-- A segment of the SN `sn`, which was above the window, takes the receiver from `s` to `t`: the SNs
that fall out of the window are dropped and no others. -/
structure Raises (s t : UmNrRx) (done : List Nat) (sn : Nat) : Prop where
  dropped : ∀ k < s.mod, k ≠ sn → t.rxWindow.find? k =
    if t.rank k < t.windowSize then s.rxWindow.find? k else none
  stored : t.rxWindow.contains sn = true
  next : FirstMissing t done
    (if t.rank (s.rxNextReassembly % s.mod) < t.windowSize then s.rxNextReassembly % s.mod
      else t.lowEdge) t.rxNextReassembly
  highest : t.rxNextHighest < t.mod

/-- The SN `k` is in the buffer and in the window that ends with the SN `sn`. -/
def StaysBuffered (s : UmNrRx) (sn k : Nat) : Prop :=
  (k = sn ∨ s.rxWindow.contains k = true) ∧ (s.raised sn).rank k < s.windowSize

/-- `sn` is not the last SN. `RX_Next_Reassembly` stays in the window and was not delivered, or the
smallest number in the buffer was not delivered and all the SNs of the window in front of it were. -/
structure RaisesWhen (s : UmNrRx) (done : List Nat) (sn : Nat) : Prop where
  highest : sn + 1 < s.mod
  stays : (s.raised sn).rank (s.rxNextReassembly % s.mod) < s.windowSize →
    s.rxNextReassembly < s.mod ∧ s.rxNextReassembly ∉ done
  smallest : s.windowSize ≤ (s.raised sn).rank (s.rxNextReassembly % s.mod) →
    ∀ k, StaysBuffered s sn k → (∀ j, StaysBuffered s sn j → k ≤ j) →
      k ∉ done ∧ ∀ j < s.mod, (s.raised sn).rank j < (s.raised sn).rank k → j ∈ done

theorem assemble_single (rxPdu : UmNrPdu) :
    ∃ pdu, UmNrSegments.assemble (UmNrSegments.empty.place rxPdu).segments.values
      (UmNrSegments.empty.place rxPdu) = some (.incomplete pdu) := by
  have hvalues : (UmNrSegments.empty.place rxPdu).segments.values = [rxPdu] := rfl
  rw [hvalues, UmNrSegments.assemble]
  split
  · rw [show (UmNrSegments.empty.place rxPdu).sdu = none from rfl]
    exact ⟨_, if_pos rfl⟩
  · exact ⟨_, rfl⟩

theorem handleDataPdu_above {s : UmNrRx} (h : BufferInv s) {bytes : Bytes} {sn : Nat}
    (habove : s.AboveWindow bytes sn) :
    sn < s.mod ∧ ∃ t, s.handleDataPdu bytes = some t ∧ t.rxNextHighest = sn + 1 ∧
      t.delivered = s.delivered ∧
      (∀ k, k ≠ sn → t.rxWindow.find? k =
        if (s.raised sn).snInReassemblyWindow k then s.rxWindow.find? k else none) ∧
      t.rxWindow.contains sn = true ∧
      t.rxNextReassembly =
        if (s.raised sn).snInReassemblyWindow s.rxNextReassembly then s.rxNextReassembly
        else t.rxWindow.keys.head?.getD s.rxNextReassembly := by
  obtain ⟨header, consumed, rxPdu, hread, hsi, rfl, hrank, hstrip⟩ := habove
  have hsn : header.sn < s.mod := (sn_lt_of_readUmNrHeader hread).1
  have hheader := header_of_stripPduHeader hstrip
  subst hheader
  have hbase : s.windowSize ≤ s.rxModNrBase rxPdu.header.sn := by
    rw [rxModNrBase_eq_rank_of_lt h.highest hsn]
    exact hrank
  have hout : s.snInReassemblyWindow rxPdu.header.sn = false := by
    rw [← Bool.not_eq_true, snInReassemblyWindow_iff h.highest]
    omega
  have hvalid : s.snInvalidForRxBuffer rxPdu.header.sn = false := by
    have hreassembly := h.reassembly.1
    rw [← Bool.not_eq_true, snInvalidForRxBuffer_iff h.highest]
    omega
  have hfree : s.rxWindow.find? rxPdu.header.sn = none := by
    cases hfind : s.rxWindow.find? rxPdu.header.sn with
    | none => rfl
    | some pdu =>
      have hin := (h.inside _ _ hfind).2
      omega
  obtain ⟨pdu, hloop⟩ := assemble_single rxPdu
  have hstep : s.handleDataPdu bytes =
      some ((s.placed rxPdu.header.sn pdu).updateWindow rxPdu.header.sn) := by
    rw [handleDataPdu, hread, Option.bind_some, handlePdu, if_neg hsi, hvalid,
      if_neg Bool.false_ne_true, hstrip, Option.bind_some, placePdu, hfree, Option.getD_none,
      handleRxBufferUpdate, hloop]
    rfl
  have hclean := (UmNrSegments.clean_of_assemble (UmNrSegments.clean_empty.passing_place rxPdu) hloop).1
  obtain ⟨timer, trigger, heq, -⟩ := updateWindow_outside (s := s.placed rxPdu.header.sn pdu) hsn
    (fun hrun => (h.trigger hrun).2) hout
  refine ⟨hsn, _, hstep, ?_⟩
  rw [heq]
  refine ⟨rfl, rfl, fun k hk => ?_, ?_, ?_⟩
  · show ((s.placed rxPdu.header.sn pdu).updateHighest rxPdu.header.sn).rxWindow.find? k = _
    rw [find?_updateHighest, placed, OrdMap.find?_insert_ne _ _ hk]
    rfl
  · exact (OrdMap.contains_iff _ _).mpr ⟨pdu, (bufferInv_updateHighest h hsn hclean).2⟩
  · show ((s.placed rxPdu.header.sn pdu).updateHighest rxPdu.header.sn).updateReassembly.rxNextReassembly
      = _
    rw [updateReassembly_eq (s := (s.placed rxPdu.header.sn pdu).updateHighest rxPdu.header.sn) hsn]
    have hsame : ((s.placed rxPdu.header.sn pdu).updateHighest rxPdu.header.sn).snInReassemblyWindow
        ((s.placed rxPdu.header.sn pdu).updateHighest rxPdu.header.sn).rxNextReassembly =
        (s.raised rxPdu.header.sn).snInReassemblyWindow s.rxNextReassembly := rfl
    rw [hsame]
    split
    · rfl
    · rfl

/-- A segment of the SN `sn` above the window, by the window that ends with it: no SDU is delivered,
and what stays in the buffer and in the record is in that window. -/
structure AboveStep (s t : UmNrRx) (done done' : List Nat) (sn : Nat) : Prop where
  mod_eq : t.mod = s.mod
  window_eq : t.windowSize = s.windowSize
  highest_eq : t.rxNextHighest = sn + 1
  rank_eq : ∀ x, t.rank x = (s.raised sn).rank x
  done_iff : ∀ k, k ∈ done' ↔ k ∈ done ∧ (s.raised sn).rank k < s.windowSize
  kept : ∀ k < s.mod, k ≠ sn → t.rxWindow.find? k =
    if t.rank k < t.windowSize then s.rxWindow.find? k else none
  stored : t.rxWindow.contains sn = true
  buffered_iff : ∀ k, t.rxWindow.contains k = true ↔ StaysBuffered s sn k
  reassembly : t.rxNextReassembly =
    if (s.raised sn).rank (s.rxNextReassembly % s.mod) < s.windowSize then s.rxNextReassembly
    else t.rxWindow.keys.head?.getD s.rxNextReassembly

theorem aboveStep_handleDataPdu {s t : UmNrRx} {done : List Nat} (h : TrackedInv (s, done))
    {bytes : Bytes} {sn : Nat} (habove : s.AboveWindow bytes sn)
    (hstep : s.handleDataPdu bytes = some t) :
    AboveStep s t done (nextDone s t done (.handleDataPdu bytes)) sn := by
  obtain ⟨hsn, t', hstep', hhighest, hdelivered, hfind, hstored, hreassembly⟩ :=
    handleDataPdu_above h.buffer habove
  rw [hstep] at hstep'
  cases hstep'
  have hsize := snSize_handleDataPdu hstep
  have hmod : t.mod = s.mod := congrArg UmNrSnSize.mod hsize
  have hwindow : t.windowSize = s.windowSize := congrArg UmNrSnSize.windowSize hsize
  have hrank : ∀ x, t.rank x = (s.raised sn).rank x := by
    intro x
    unfold rank lowEdge
    rw [hmod, hwindow, hhighest]
    rfl
  have hle : (s.raised sn).rxNextHighest ≤ (s.raised sn).mod := hsn
  have hin : ∀ x ≤ s.mod, (s.raised sn).snInReassemblyWindow x = true ↔
      (s.raised sn).rank (x % s.mod) < s.windowSize := by
    intro x hx
    rw [snInReassemblyWindow_iff hle, rxModNrBase_eq_rank hle hx]
    exact Iff.rfl
  have hinlt : ∀ x < s.mod, (s.raised sn).snInReassemblyWindow x = true ↔
      (s.raised sn).rank x < s.windowSize := by
    intro x hx
    rw [hin x (Nat.le_of_lt hx), Nat.mod_eq_of_lt hx]
  refine ⟨hmod, hwindow, hhighest, hrank, fun k => ?_, fun k hk hne => ?_, hstored, fun k => ?_,
    hreassembly.trans (if_congr (hin _ h.buffer.reassembly.2) rfl rfl)⟩
  · have hnone : deliveredSn s t bytes = none := by
      unfold deliveredSn
      rw [hdelivered]
      split
      · rfl
      · exact if_neg fun hlt => Nat.lt_irrefl _ hlt.2
    rw [nextDone, hnone, List.mem_filter, decide_eq_true_eq, hrank, hwindow]
    exact Iff.rfl
  · rw [hfind k hne, hrank, hwindow]
    exact if_congr (hinlt k hk) rfl rfl
  · have htop := rxModNrBase_raised s sn
    rw [rxModNrBase_eq_rank_of_lt hle hsn] at htop
    rcases Nat.decEq k sn with hne | rfl
    · rw [OrdMap.contains_iff, hfind k hne, StaysBuffered, OrdMap.contains_iff]
      constructor
      · rintro ⟨v, hv⟩
        split at hv
        · rename_i hyes
          exact ⟨.inr ⟨v, hv⟩, (hinlt k (h.buffer.inside k v hv).1).mp hyes⟩
        · cases hv
      · rintro ⟨heq | ⟨v, hv⟩, hwin⟩
        · exact absurd heq hne
        · exact ⟨v, by rw [if_pos ((hinlt k (h.buffer.inside k v hv).1).mpr hwin)]; exact hv⟩
    · exact iff_of_true hstored ⟨.inl rfl, by omega⟩

/-- `RX_Next_Reassembly` stays in the window. -/
theorem AboveStep.raises_iff_of_stays {s t : UmNrRx} {done done' : List Nat} {sn : Nat}
    (h : AboveStep s t done done' sn)
    (hstays : (s.raised sn).rank (s.rxNextReassembly % s.mod) < s.windowSize) :
    Raises s t done' sn ↔ RaisesWhen s done sn := by
  have hreassembly := h.reassembly
  rw [if_pos hstays] at hreassembly
  constructor
  · rintro ⟨-, -, hnext, hbound⟩
    rw [hreassembly] at hnext
    rw [h.highest_eq, h.mod_eq] at hbound
    refine ⟨hbound, fun _ => ⟨h.mod_eq ▸ hnext.lt, fun hmem => hnext.missing ?_⟩, fun hout => ?_⟩
    · have hlt : s.rxNextReassembly < s.mod := h.mod_eq ▸ hnext.lt
      rw [Nat.mod_eq_of_lt hlt] at hstays
      exact (h.done_iff _).mpr ⟨hmem, hstays⟩
    · omega
  · rintro ⟨hbound, hmissing, -⟩
    obtain ⟨hlt, hnot⟩ := hmissing hstays
    refine ⟨h.kept, h.stored, ?_, by rw [h.highest_eq, h.mod_eq]; exact hbound⟩
    rw [h.rank_eq, h.window_eq, if_pos hstays, hreassembly, Nat.mod_eq_of_lt hlt]
    exact ⟨by rw [h.mod_eq]; exact hlt, fun hmem => hnot ((h.done_iff _).mp hmem).1, Nat.le_refl _,
      fun k _ hge hlt => absurd hge (Nat.not_le_of_lt hlt)⟩

/-- `RX_Next_Reassembly` falls out of the window, and becomes the smallest number in the buffer. -/
theorem AboveStep.raises_iff_of_falls {s t : UmNrRx} {done done' : List Nat} {sn : Nat}
    (h : AboveStep s t done done' sn) (hinv : TrackedInv (s, done)) (hsn : sn < s.mod)
    (hfalls : ¬ (s.raised sn).rank (s.rxNextReassembly % s.mod) < s.windowSize) :
    Raises s t done' sn ↔ RaisesWhen s done sn := by
  have hreassembly := h.reassembly
  rw [if_neg hfalls] at hreassembly
  obtain ⟨k, hk⟩ : ∃ k, t.rxWindow.keys.head? = some k := by
    obtain ⟨v, hv⟩ := (OrdMap.contains_iff _ _).mp h.stored
    have hmem : sn ∈ t.rxWindow.keys := (OrdMap.mem_keys_iff _ _).mpr ⟨v, hv⟩
    cases hkeys : t.rxWindow.keys with
    | nil =>
      rw [hkeys] at hmem
      cases hmem
    | cons k ks => exact ⟨k, rfl⟩
  have hsmallest := (OrdMap.head?_keys_eq_some_iff _ _).mp hk
  simp only [h.buffered_iff] at hsmallest
  have hkmod : k < s.mod := by
    rcases hsmallest.1.1 with rfl | hmem
    · exact hsn
    · obtain ⟨v, hv⟩ := (OrdMap.contains_iff _ _).mp hmem
      exact (hinv.buffer.inside k v hv).1
  have hlow : t.rank t.lowEdge = 0 := cycDist_self
  rw [hk, Option.getD_some] at hreassembly
  constructor
  · rintro ⟨-, -, hnext, hbound⟩
    rw [hreassembly, h.rank_eq (s.rxNextReassembly % s.mod), h.window_eq, if_neg hfalls] at hnext
    rw [h.highest_eq, h.mod_eq] at hbound
    refine ⟨hbound, fun hin => absurd hin hfalls, fun _ k' hk' hmin => ?_⟩
    have heq : k' = k := Nat.le_antisymm (hmin k hsmallest.1) (hsmallest.2 k' hk')
    subst heq
    refine ⟨fun hmem => hnext.missing ((h.done_iff _).mpr ⟨hmem, hk'.2⟩), fun j hj hlt => ?_⟩
    have hbefore := hnext.before j (by rw [h.mod_eq]; exact hj) (by rw [hlow]; exact Nat.zero_le _)
    rw [h.rank_eq, h.rank_eq] at hbefore
    exact ((h.done_iff j).mp (hbefore hlt)).1
  · rintro ⟨hbound, -, hfirst⟩
    obtain ⟨hnot, hbefore⟩ := hfirst (Nat.le_of_not_lt hfalls) k hsmallest.1 hsmallest.2
    refine ⟨h.kept, h.stored, ?_, by rw [h.highest_eq, h.mod_eq]; exact hbound⟩
    rw [h.rank_eq (s.rxNextReassembly % s.mod), h.window_eq, if_neg hfalls, hreassembly]
    refine ⟨by rw [h.mod_eq]; exact hkmod, fun hmem => hnot ((h.done_iff _).mp hmem).1,
      by rw [hlow]; exact Nat.zero_le _, fun j hj _ hlt => ?_⟩
    rw [h.rank_eq, h.rank_eq] at hlt
    exact (h.done_iff j).mpr ⟨hbefore j (h.mod_eq ▸ hj) hlt, Nat.lt_trans hlt hsmallest.1.2⟩

theorem raises_iff {s t : UmNrRx} {done : List Nat} (h : TrackedInv (s, done)) {bytes : Bytes}
    {sn : Nat} (habove : s.AboveWindow bytes sn) (hstep : s.handleDataPdu bytes = some t) :
    Raises s t (nextDone s t done (.handleDataPdu bytes)) sn ↔ RaisesWhen s done sn := by
  have habove' := aboveStep_handleDataPdu h habove hstep
  by_cases hstays : (s.raised sn).rank (s.rxNextReassembly % s.mod) < s.windowSize
  · exact habove'.raises_iff_of_stays hstays
  · exact habove'.raises_iff_of_falls h (handleDataPdu_above h.buffer habove).1 hstays

/-! ### The moves of the window -/

/-- The call moves the window in the order of the SNs. -/
def MovesInOrder (r : Tracked) : Op → Prop
  | .handleDataPdu bytes => ∀ sn, r.1.AboveWindow bytes sn →
    ∃ t done, trackedStep r (.handleDataPdu bytes) = some ((t, done), ()) ∧ Raises r.1 t done sn
  | .timerExpired => r.1.reassemblyTimer = .running →
    ∃ t done, trackedStep r .timerExpired = some ((t, done), ()) ∧ Expires r.1 t done
  | .reset => True

/-- The states in which it does. -/
def MovesWhen (r : Tracked) : Op → Prop
  | .handleDataPdu bytes => ∀ sn, r.1.AboveWindow bytes sn → RaisesWhen r.1 r.2 sn
  | .timerExpired => r.1.reassemblyTimer = .running → ExpiresWhen r.1 r.2
  | .reset => True

theorem TrackedInv.movesInOrder_iff_movesWhen {r : Tracked} (h : TrackedInv r) (op : Op) :
    MovesInOrder r op ↔ MovesWhen r op := by
  obtain ⟨s, done⟩ := r
  cases op with
  | handleDataPdu bytes =>
    refine forall_congr' fun sn => forall_congr' fun habove => ?_
    obtain ⟨-, t, hstep, -⟩ := handleDataPdu_above h.buffer habove
    have hcall : trackedStep (s, done) (.handleDataPdu bytes) =
        some ((t, nextDone s t done (.handleDataPdu bytes)), ()) := by
      rw [trackedStep, UmNrRx.step, hstep]
      rfl
    rw [hcall, ← raises_iff h habove hstep]
    constructor
    · rintro ⟨t', done', heq, hraises⟩
      cases heq
      exact hraises
    · exact fun hraises => ⟨t, _, rfl, hraises⟩
  | timerExpired =>
    refine forall_congr' fun hrunning => ?_
    rw [← expires_iff h hrunning]
    constructor
    · rintro ⟨t, done', heq, hexpires⟩
      cases heq
      exact hexpires
    · exact fun hexpires => ⟨_, _, rfl, hexpires⟩
  | reset => exact Iff.rfl

/-- In every state of every run. -/
theorem movesInOrder_iff {snSize : UmNrSnSize} {ops : List Op} {r : Tracked} {us : List Unit}
    (hrun : run trackedStep (init snSize, []) ops = some (r, us)) (op : Op) :
    MovesInOrder r op ↔ MovesWhen r op :=
  (trackedInv_of_run hrun).movesInOrder_iff_movesWhen op

/-- With a segment of SN 1 in the buffer, the timer expires or a segment of SN 2 arrives. -/
theorem movesInOrder_first : ∃ r us,
    run trackedStep (init .size6bits, []) [.handleDataPdu [0x41, 1]] = some (r, us) ∧
      MovesInOrder r .timerExpired ∧ MovesInOrder r (.handleDataPdu [0x42, 1]) := by
  have hrun : run trackedStep (init .size6bits, []) [.handleDataPdu [0x41, 1]] = some (_, _) := rfl
  refine ⟨_, _, hrun, (movesInOrder_iff hrun _).mpr fun _ => ?_,
    (movesInOrder_iff hrun _).mpr fun sn habove => ?_⟩
  · refine ⟨by decide, fun k hk => ?_, fun k hk hle hin => ?_⟩
    · have hmem := (OrdMap.mem_keys_iff _ _).mpr ((OrdMap.contains_iff _ _).mp hk)
      rw [List.mem_singleton.mp hmem]
      decide
    · have htrigger : (32 : Nat) ≤ _ := hle
      exact absurd hin (Nat.not_lt_of_le htrigger)
  · obtain ⟨header, consumed, rxPdu, hread, -, rfl, -⟩ := habove
    cases hread
    refine ⟨by decide, fun _ => ⟨by decide, List.not_mem_nil⟩, fun hout => ?_⟩
    exact absurd hout (by decide)

/-- Behind SN 63, `RX_Next_Highest` is 64. With SN 62 in the buffer, `RX_Next_Reassembly` becomes 2 when
SN 2 arrives, and 63 when the timer expires that was started for the SNs below 32. -/
theorem not_movesInOrder :
    (∃ r us, run trackedStep (init .size6bits, []) [.handleDataPdu [0x5F, 1]] = some (r, us) ∧
      ¬ MovesInOrder r (.handleDataPdu [0x7F, 1])) ∧
    ∃ r us, run trackedStep (init .size6bits, [])
        [.handleDataPdu [0x5F, 1], .handleDataPdu [0x7E, 1]] = some (r, us) ∧
      ¬ MovesInOrder r (.handleDataPdu [0x42, 1]) ∧ ¬ MovesInOrder r .timerExpired := by
  constructor
  · have hrun : run trackedStep (init .size6bits, []) [.handleDataPdu [0x5F, 1]] = some (_, _) := rfl
    refine ⟨_, _, hrun, fun hmoves => ?_⟩
    have hwhen := ((trackedInv_of_run hrun).movesInOrder_iff_movesWhen _).mp hmoves
    have hbound := (hwhen 63 ⟨⟨.firstSegment, .size6bits, 63, 0⟩, 1, _, rfl, by decide, rfl,
      by decide, rfl⟩).highest
    exact absurd hbound (by decide)
  · have hrun : run trackedStep (init .size6bits, [])
        [.handleDataPdu [0x5F, 1], .handleDataPdu [0x7E, 1]] = some (_, _) := rfl
    have hinv := trackedInv_of_run hrun
    refine ⟨_, _, hrun, fun hmoves => ?_, fun hmoves => ?_⟩
    · have hwhen := (hinv.movesInOrder_iff_movesWhen _).mp hmoves
      have hfirst := (hwhen 2 ⟨⟨.firstSegment, .size6bits, 2, 0⟩, 1, _, rfl, by decide, rfl,
        by decide, rfl⟩).smallest (by decide) 2 ⟨.inl rfl, by decide⟩
      have hdone := (hfirst fun j hj => ?_).2 35 (by decide) (by decide)
      · cases hdone
      · rcases hj.1 with rfl | hmem
        · exact Nat.le_refl 2
        · have hkeys : j ∈ [31, 62] :=
            (OrdMap.mem_keys_iff _ _).mpr ((OrdMap.contains_iff _ _).mp hmem)
          simp only [List.mem_cons, List.not_mem_nil, or_false] at hkeys
          omega
    · have hwhen := (hinv.movesInOrder_iff_movesWhen _).mp hmoves
      have hdone := (hwhen rfl).done 32 (by decide) (by decide) (by decide)
      cases hdone

end Odss.Rlc.UmNrRx
