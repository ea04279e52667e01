import Odss.Proofs.AmTxWindow

/-!
# `Odss.Proofs.AmSegment`: segments of a PDU that is sent again

* `SegmentInv`: in every round of the loop of `build_segment` the header and the data fit the grant, and the length
  indicators are those of the bytes before the current SDU.
* `buildSegment_spec`: a call sends nothing, or some bytes from the front of the range.
* `resend_tiles`: the segments of consecutive calls are the bytes of the range in order.
-/

set_option linter.all false

namespace Odss.Rlc.AmTx

theorem subU32_of_le {a b : Nat} (h : b ≤ a) : subU32 a b = a - b := if_pos h

/-! ### The loop -/

/-- The header and the data fit the grant. The length indicators cover the bytes up to the current SDU, if there
are others behind them. -/
structure SegmentInv (nofBytes soStart stop : Nat) (w : SegmentHeader) : Prop where
  edges : w.lower = w.upper
  start : soStart < w.soEnd
  stop : w.soEnd ≤ stop
  fits : segmentHeadLen w.li.length + (w.soEnd - soStart) ≤ nofBytes
  sum_le : w.li.sum ≤ w.soEnd - soStart
  sum : w.lower < w.soEnd → w.li.sum = w.lower - soStart

variable {nofBytes soStart stop : Nat} {w : SegmentHeader}

theorem cutSegment_of_fits {headLen soEnd : Nat} (hle : soStart ≤ soEnd)
    (hfits : headLen + (soEnd - soStart) ≤ nofBytes) :
    cutSegment nofBytes headLen soStart soEnd = soEnd := by
  rw [cutSegment, subU32_of_le (by omega), subU32_of_le hle, if_neg (by omega)]

theorem segmentLi_eq {soEnd lower upper : Nat} (hupper : soStart < upper) (hlower : lower < soEnd)
    (hle : lower ≤ upper) (hsmall : soEnd < 2 ^ 16) (hstart : soStart < soEnd) :
    segmentLi soStart soEnd lower upper = min upper soEnd - max lower soStart := by
  rw [segmentLi]
  by_cases hcut : upper > soEnd
  · rw [if_pos hcut, subU32_of_le (show upper - soEnd ≤ upper - lower by omega)]
    by_cases hfront : lower < soStart
    · rw [if_pos hfront, subU32_of_le (by omega), Nat.mod_eq_of_lt (by omega)]
      omega
    · rw [if_neg hfront, Nat.mod_eq_of_lt (by omega)]
      omega
  · rw [if_neg hcut]
    by_cases hfront : lower < soStart
    · rw [if_pos hfront, subU32_of_le (by omega), Nat.mod_eq_of_lt (by omega)]
      omega
    · rw [if_neg hfront, Nat.mod_eq_of_lt (by omega)]
      omega

theorem SegmentInv.step (h : SegmentInv nofBytes soStart stop w) (hstop : stop < 2 ^ 16)
    (hlower : w.lower < w.soEnd) (oldLi : Nat) :
    SegmentInv nofBytes soStart stop (segmentStep nofBytes soStart w oldLi) := by
  obtain ⟨hedges, hstart, hle, hfits, hsumLe, hsum⟩ := h
  have hsum := hsum hlower
  rw [segmentStep, cutSegment_of_fits (Nat.le_of_lt hstart) hfits]
  by_cases hneeded : w.upper + oldLi > soStart ∧ w.lower < w.soEnd
  · rw [if_pos hneeded, segmentLi_eq hneeded.1 hlower (by omega) (by omega) hstart, addSegmentLi]
    dsimp only
    by_cases hbehind : w.soEnd > w.upper + oldLi
    · rw [if_pos hbehind, subU32_of_le (Nat.le_of_lt hstart)]
      by_cases hroom : segmentHeadLen (w.li.length + 1) + (w.soEnd - soStart) ≤ nofBytes
      · -- another SDU goes behind the current one
        rw [if_pos hroom]
        have hadded : (w.li ++ [min (w.upper + oldLi) w.soEnd - max w.lower soStart]).sum =
            w.upper + oldLi - soStart := by
          rw [List.sum_append, List.sum_singleton]
          omega
        constructor <;> dsimp only
        · omega
        · exact hstart
        · exact hle
        · rw [List.length_append, List.length_singleton]
          exact hroom
        · omega
        · omega
      · -- the segment ends with the current SDU
        rw [if_neg hroom]
        constructor <;> dsimp only <;> omega
    · rw [if_neg hbehind]
      constructor <;> dsimp only <;> omega
  · rw [if_neg hneeded]
    constructor <;> dsimp only <;> omega

theorem segmentInv_loop (hstop : stop < 2 ^ 16) (oldLis : List Nat) :
    SegmentInv nofBytes soStart stop w →
    SegmentInv nofBytes soStart stop (segmentLoop nofBytes soStart oldLis w) := by
  induction oldLis generalizing w with
  | nil => exact id
  | cons oldLi oldLis ih =>
    intro h
    rw [segmentLoop]
    split
    · exact h
    · rename_i hlower
      exact ih (h.step hstop (Nat.lt_of_not_le hlower) oldLi)

/-- The header lengths that the rounds of the loop take off the grant -/
def roundHeads (nofBytes soStart : Nat) : List Nat → SegmentHeader → List Nat
  | [], _ => []
  | oldLi :: oldLis, w =>
    if w.lower ≥ w.soEnd then []
    else segmentHeadLen w.li.length ::
      roundHeads nofBytes soStart oldLis (segmentStep nofBytes soStart w oldLi)

theorem roundHeads_le (hstop : stop < 2 ^ 16) (oldLis : List Nat) :
    SegmentInv nofBytes soStart stop w → ∀ n ∈ roundHeads nofBytes soStart oldLis w, n ≤ nofBytes := by
  induction oldLis generalizing w with
  | nil => exact fun _ => nofun
  | cons oldLi oldLis ih =>
    intro h n hn
    rw [roundHeads] at hn
    split at hn
    · cases hn
    · rename_i hlower
      rcases List.mem_cons.mp hn with rfl | hn
      · exact Nat.le_trans (Nat.le_add_right _ _) h.fits
      · exact ih (h.step hstop (Nat.lt_of_not_le hlower) oldLi) n hn

/-- Before the loop the range is cut to what fits behind the header. -/
theorem segmentInv_init {oldHeader : AmdHeader} (hstart : soStart < stop)
    (hgrant : segmentMinHeadLen oldHeader < nofBytes) :
    SegmentInv nofBytes soStart stop (segmentInit oldHeader soStart
      (cutSegment nofBytes (segmentMinHeadLen oldHeader) soStart stop)) := by
  have hmin : segmentHeadLen 0 ≤ segmentMinHeadLen oldHeader := by
    rw [segmentMinHeadLen]
    exact Nat.le_add_right 4 _
  have hcut : soStart < cutSegment nofBytes (segmentMinHeadLen oldHeader) soStart stop ∧
      cutSegment nofBytes (segmentMinHeadLen oldHeader) soStart stop ≤ stop ∧
      segmentMinHeadLen oldHeader +
        (cutSegment nofBytes (segmentMinHeadLen oldHeader) soStart stop - soStart) ≤ nofBytes := by
    rw [cutSegment, subU32_of_le (Nat.le_of_lt hgrant), subU32_of_le (Nat.le_of_lt hstart)]
    split <;> omega
  refine ⟨rfl, hcut.1, hcut.2.1, ?_, Nat.zero_le _, fun _ => (Nat.zero_sub _).symm⟩
  exact Nat.le_trans (Nat.add_le_add_right hmin _) hcut.2.2

/-! ### A call -/

theorem length_writeLis (lis : List Nat) : (writeLis lis).length = (3 * lis.length + 1) / 2 := by
  match lis with
  | [] => rfl
  | [_] => simp [writeLis]
  | a :: b :: lis =>
    have ih := length_writeLis lis
    rw [writeLis, List.length_append, ih]
    simp only [List.length_cons, List.length_nil]
    omega

theorem length_writeDataPduHeader (header : AmdHeader) :
    (writeDataPduHeader header).length = header.packedLength := by
  rw [writeDataPduHeader, List.length_append, List.length_append, length_writeLis, AmdHeader.packedLength]
  split_ifs <;> simp

/-- The range of a PDU that an entry is for -/
structure RangeOf (pdu : AmdTxPdu) (retx : AmdRetx) (start stop : Nat) : Prop where
  starts : retxStart retx = start
  stops : retxStop retx pdu = stop
  soEnd : retx.soEnd = stop
  lt : start < stop
  le : stop ≤ pdu.buf.length

/-- The header lengths that the loop of a call takes off the grant -/
def segmentHeads (nofBytes : Nat) (retx : AmdRetx) (pdu : AmdTxPdu) : List Nat :=
  if nofBytes ≤ segmentMinHeadLen pdu.header then []
  else roundHeads nofBytes (retxStart retx) pdu.header.li (segmentInit pdu.header (retxStart retx)
    (cutSegment nofBytes (segmentMinHeadLen pdu.header) (retxStart retx) (retxStop retx pdu)))

/-- A segment of `len` bytes from `start` on, within a grant -/
structure SegmentOf (nofBytes : Nat) (pdu : AmdTxPdu) (start len : Nat) (bytes : Bytes) (header : AmdHeader) :
    Prop where
  written : bytes = writeDataPduHeader header ++ (pdu.buf.drop start).take len
  pos : 1 ≤ len
  payload : ((pdu.buf.drop start).take len).length = len
  grant : bytes.length ≤ nofBytes
  lis : header.li.sum ≤ len

variable {s : AmTx} {pdu : AmdTxPdu} {retx : AmdRetx} {rest : RetxQueue} {start : Nat}

/-- A call sends nothing and leaves the queue alone, or it sends bytes from the front of the range, and the entry
begins behind them. -/
theorem buildSegment_spec (nofBytes : Nat) (hqueue : s.retxQueue = retx :: rest)
    (h : RangeOf pdu retx start stop) (hbuf : pdu.buf.length ≤ bufferTailroom) :
    (∀ n ∈ segmentHeads nofBytes retx pdu, n ≤ nofBytes) ∧
    ((s.buildSegment nofBytes retx pdu).2 = [] ∧
        (s.buildSegment nofBytes retx pdu).1.retxQueue = s.retxQueue ∨
      ∃ len header, SegmentOf nofBytes pdu start len (s.buildSegment nofBytes retx pdu).2 header ∧
        start + len ≤ stop ∧
        (s.buildSegment nofBytes retx pdu).1.retxQueue =
          if start + len = stop then rest
          else { retx with isSegment := true, soStart := start + len } :: rest) := by
  have hsmall : stop < 2 ^ 16 := Nat.lt_of_le_of_lt (Nat.le_trans h.le hbuf) (by decide)
  rw [segmentHeads, buildSegment]
  by_cases hgrant : nofBytes ≤ segmentMinHeadLen pdu.header
  · rw [if_pos hgrant, if_pos hgrant]
    exact ⟨fun _ hmem => absurd hmem List.not_mem_nil, Or.inl ⟨rfl, retxQueue_afterPoll s _⟩⟩
  · rw [if_neg hgrant, if_neg hgrant, h.starts, h.stops]
    dsimp only
    have hinit := segmentInv_init h.lt (Nat.lt_of_not_le hgrant)
    have hloop : SegmentInv nofBytes start stop (segmentOf nofBytes pdu.header start stop) :=
      segmentInv_loop hsmall pdu.header.li hinit
    refine ⟨roundHeads_le hsmall pdu.header.li hinit, Or.inr ?_⟩
    generalize segmentOf nofBytes pdu.header start stop = w at hloop
    have hlt := hloop.start
    have hle := hloop.stop
    have hstop := h.le
    have hpayload : ((pdu.buf.drop start).take (w.soEnd - start)).length = w.soEnd - start := by
      rw [List.length_take, List.length_drop]
      omega
    refine ⟨w.soEnd - start, segmentPduHeader pdu start w (s.pollBit (pdu.buf.length + 2)), ⟨?_, by omega,
      hpayload, ?_, hloop.sum_le⟩, by omega, ?_⟩
    · show _ ++ (pdu.buf.drop start).take (subU32 w.soEnd start) = _
      rw [subU32_of_le (Nat.le_of_lt hlt)]
    · show (_ ++ (pdu.buf.drop start).take (subU32 w.soEnd start)).length ≤ _
      rw [subU32_of_le (Nat.le_of_lt hlt), List.length_append, length_writeDataPduHeader, hpayload]
      exact hloop.fits
    · show advanceRetx (s.afterPoll _).retxQueue pdu.buf.length w.soEnd = _
      rw [retxQueue_afterPoll, hqueue, advanceRetx, h.soEnd, Nat.add_sub_of_le (Nat.le_of_lt hlt)]
      by_cases hend : w.soEnd = stop
      · rw [if_pos (Or.inr hend.symm), if_pos hend]
      · rw [if_neg (by omega), if_neg hend]

/-- The entry that is left is for the rest of the range. -/
theorem RangeOf.advance (h : RangeOf pdu retx start stop) {len : Nat} (hle : start + len ≤ stop)
    (hne : start + len ≠ stop) :
    RangeOf pdu { retx with isSegment := true, soStart := start + len } (start + len) stop :=
  ⟨rfl, h.soEnd, h.soEnd, Nat.lt_of_le_of_ne hle hne, h.le⟩

/-! ### Consecutive calls -/

/-- Consecutive calls for the entry in front of `k` others, until it is done, with what they send -/
def resend (pdu : AmdTxPdu) (k : Nat) : List Nat → AmTx → AmTx × List Bytes
  | [], s => (s, [])
  | nofBytes :: grants, s =>
    match s.retxQueue with
    | [] => (s, [])
    | retx :: rest =>
      if rest.length < k then (s, [])
      else
        let r := s.buildSegment nofBytes retx pdu
        ((resend pdu k grants r.1).1, r.2 :: (resend pdu k grants r.1).2)

/-- What is sent are segments, whose payloads are these bytes in order. -/
inductive Tiles : List Bytes → Bytes → Prop where
  | nil : Tiles [] []
  | skip {sent : List Bytes} {payload : Bytes} : Tiles sent payload → Tiles ([] :: sent) payload
  | segment {sent : List Bytes} {payload : Bytes} (header : AmdHeader) (piece : Bytes) :
    Tiles sent payload → Tiles ((writeDataPduHeader header ++ piece) :: sent) (piece ++ payload)

/-- The segments of consecutive calls are the bytes of the range, without gap or overlap, up to where the entry
begins, or all of them when it is done. -/
theorem resend_tiles (hbuf : pdu.buf.length ≤ bufferTailroom) (grants : List Nat) :
    ∀ (s : AmTx) (retx : AmdRetx) (start : Nat), s.retxQueue = retx :: rest →
      RangeOf pdu retx start stop → ∃ len, start + len ≤ stop ∧
        Tiles (resend pdu rest.length grants s).2 ((pdu.buf.drop start).take len) ∧
        ((resend pdu rest.length grants s).1.retxQueue = rest ∧ start + len = stop ∨
          ∃ retx', (resend pdu rest.length grants s).1.retxQueue = retx' :: rest ∧
            RangeOf pdu retx' (start + len) stop) := by
  induction grants with
  | nil =>
    intro s retx start hqueue h
    exact ⟨0, Nat.le_of_lt h.lt, by rw [List.take_zero]; exact .nil, Or.inr ⟨retx, hqueue, h⟩⟩
  | cons nofBytes grants ih =>
    intro s retx start hqueue h
    have hround : resend pdu rest.length (nofBytes :: grants) s =
        ((resend pdu rest.length grants (s.buildSegment nofBytes retx pdu).1).1,
          (s.buildSegment nofBytes retx pdu).2 ::
            (resend pdu rest.length grants (s.buildSegment nofBytes retx pdu).1).2) := by
      rw [resend, hqueue]
      exact if_neg (Nat.lt_irrefl _)
    rw [hround]
    obtain ⟨hnone, hkeep⟩ | ⟨len, header, hsegment, hle, hqueue'⟩ :=
      (buildSegment_spec nofBytes hqueue h hbuf).2
    · obtain ⟨len, hle, htiles, hend⟩ := ih _ retx start (hkeep.trans hqueue) h
      rw [hnone]
      exact ⟨len, hle, htiles.skip, hend⟩
    · by_cases hdone : start + len = stop
      · -- the entry is gone, and no other call is made for it
        rw [if_pos hdone] at hqueue'
        have hstop : resend pdu rest.length grants (s.buildSegment nofBytes retx pdu).1 =
            ((s.buildSegment nofBytes retx pdu).1, []) := by
          cases grants with
          | nil => rfl
          | cons nofBytes' grants =>
            rw [resend, hqueue']
            cases rest with
            | nil => rfl
            | cons retx' rest => exact if_pos (Nat.lt_succ_self _)
        rw [hstop, hsegment.written]
        refine ⟨len, hle, ?_, Or.inl ⟨hqueue', hdone⟩⟩
        have htiles := Tiles.segment header ((pdu.buf.drop start).take len) .nil
        rw [List.append_nil] at htiles
        exact htiles
      · rw [if_neg hdone] at hqueue'
        obtain ⟨len', hle', htiles, hend⟩ := ih _ _ (start + len) hqueue' (h.advance hle hdone)
        rw [hsegment.written]
        refine ⟨len + len', by omega, ?_, ?_⟩
        · have htake : (pdu.buf.drop start).take (len + len') =
              (pdu.buf.drop start).take len ++ (pdu.buf.drop (start + len)).take len' := by
            rw [List.take_add, List.drop_drop]
          rw [htake]
          exact .segment header _ htiles
        · rw [← Nat.add_assoc]
          exact hend

/-- Every call for an entry stays within its grant, and consecutive calls send its range. -/
theorem segments_of_range (hqueue : s.retxQueue = retx :: rest) (h : RangeOf pdu retx start stop)
    (hbuf : pdu.buf.length ≤ bufferTailroom) :
    (∀ nofBytes, (∀ n ∈ segmentHeads nofBytes retx pdu, n ≤ nofBytes) ∧
      ((s.buildSegment nofBytes retx pdu).2 = [] ∧
          (s.buildSegment nofBytes retx pdu).1.retxQueue = s.retxQueue ∨
        ∃ len header, SegmentOf nofBytes pdu start len (s.buildSegment nofBytes retx pdu).2 header ∧
          start + len ≤ stop ∧
          (s.buildSegment nofBytes retx pdu).1.retxQueue =
            if start + len = stop then rest
            else { retx with isSegment := true, soStart := start + len } :: rest)) ∧
    ∀ grants, ∃ len, start + len ≤ stop ∧
      Tiles (resend pdu rest.length grants s).2 ((pdu.buf.drop start).take len) ∧
      ((resend pdu rest.length grants s).1.retxQueue = rest ∧ start + len = stop ∨
        ∃ retx', (resend pdu rest.length grants s).1.retxQueue = retx' :: rest ∧
          RangeOf pdu retx' (start + len) stop) :=
  ⟨fun nofBytes => buildSegment_spec nofBytes hqueue h hbuf,
    fun grants => resend_tiles hbuf grants s retx start hqueue h⟩

/-- A PDU with two SDUs, of which the bytes from the second one on are to be sent again -/
def twoSdus : AmdTxPdu where
  rlcSn := 0
  retxCount := 0
  header := ⟨false, false, .startAndEndAligned, 0, false, 0, [2]⟩
  buf := [1, 2, 3, 4, 5]
  segments := []

/-- The last four bytes of the PDU are sent in two calls, the first of which ends with the first SDU. -/
theorem segments_of_range_two :
    ∃ len, 1 + len ≤ 5 ∧ Tiles (resend twoSdus 0 [7, 9]
      { init ⟨-1, -1, 4, 0, 256⟩ with retxQueue := [⟨0, true, 1, 5⟩] }).2 ((twoSdus.buf.drop 1).take len) := by
  obtain ⟨-, htiles⟩ := segments_of_range
    (s := { init ⟨-1, -1, 4, 0, 256⟩ with retxQueue := [⟨0, true, 1, 5⟩] }) rfl
    (show RangeOf twoSdus ⟨0, true, 1, 5⟩ 1 5 from ⟨rfl, rfl, rfl, by decide, by decide⟩) (by decide)
  obtain ⟨len, hle, hsent, -⟩ := htiles [7, 9]
  exact ⟨len, hle, hsent⟩

end Odss.Rlc.AmTx
