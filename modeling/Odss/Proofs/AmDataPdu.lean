import Odss.Proofs.AmDataCodec
import Odss.Proofs.AmTxNacks
import Mathlib.Data.List.ReduceOption

/-!
# `Odss.Proofs.AmDataPdu`: the data PDUs that the transmitter builds can be read

* `queueReady_execOps`: the counter of the SDU queue is the number of SDUs in it, over runs.
* `pullSdus_spec`: the bytes that the loop of `build_data_pdu` moves, and the length indicators of more than 11 bits
  that it puts into the header.
* `readsBack_iff`: a PDU can be read if and only if no long piece is followed by another SDU.
-/

set_option linter.all false

namespace Odss.Rlc

/-! ### The queue of SDUs -/

namespace ByteBufferQueue

/-- The SDUs in the queue, without the entries that were emptied -/
def sdus (q : ByteBufferQueue) : List Sdu := q.queue.reduceOption

/-- The counter of SDUs is right. -/
def Counts (q : ByteBufferQueue) : Prop := q.nSdus = q.sdus.length

variable {q : ByteBufferQueue}

theorem counts_tryWrite (h : q.Counts) {sdu : Sdu} {q' : ByteBufferQueue} (hq : q.tryWrite sdu = some q') :
    q'.Counts := by
  rw [tryWrite] at hq
  split at hq
  · cases hq
  · cases hq
    rw [Counts, sdus, List.reduceOption_append, List.length_append]
    exact congrArg (· + 1) h

/-- The counter goes down by the SDUs that are popped. -/
theorem foldl_popCallback (entries : List (Option Sdu)) (q : ByteBufferQueue) :
    (entries.foldl popCallback q).queue = q.queue ∧
      (entries.foldl popCallback q).nSdus = q.nSdus - entries.reduceOption.length := by
  induction entries generalizing q with
  | nil => exact ⟨rfl, rfl⟩
  | cons entry entries ih =>
    obtain ⟨hqueue, hcount⟩ := ih (popCallback q entry)
    rw [List.foldl_cons, hqueue, hcount]
    cases entry with
    | none => exact ⟨rfl, rfl⟩
    | some sdu =>
      refine ⟨rfl, ?_⟩
      rw [List.reduceOption_cons_of_some, List.length_cons, Nat.add_comm, ← Nat.sub_sub]
      rfl

/-- The SDUs that a filter hits, and those that are left when it empties their entries -/
theorem length_sdus_hit (hit : Option Sdu → Bool) (hnone : hit none = false) (queue : List (Option Sdu)) :
    (queue.map fun entry => if hit entry then none else entry).reduceOption.length +
      (queue.filter hit).reduceOption.length = queue.reduceOption.length := by
  induction queue with
  | nil => rfl
  | cons entry queue ih =>
    cases entry with
    | none => simpa [hnone] using ih
    | some sdu =>
      cases hhit : hit (some sdu) with
      | true =>
        simp only [List.map_cons, hhit, if_true, List.filter_cons, List.reduceOption_cons_of_none,
          List.reduceOption_cons_of_some, List.length_cons]
        omega
      | false =>
        simp only [List.map_cons, hhit, Bool.false_eq_true, if_false, List.filter_cons,
          List.reduceOption_cons_of_some, List.length_cons]
        omega

theorem counts_discard (h : q.Counts) (pdcpSn : Nat) : (q.discard pdcpSn).Counts := by
  rw [discard]
  split
  · exact h
  · have hpop := (foldl_popCallback (q.queue.filter fun entry => entry.any fun sdu => sdu.pdcpSn == pdcpSn) q).2
    have hhit := length_sdus_hit (fun entry => entry.any fun sdu => sdu.pdcpSn == pdcpSn) rfl q.queue
    rw [Counts, sdus] at h ⊢
    have hleft : q.nSdus - (q.queue.filter fun entry => entry.any fun sdu => sdu.pdcpSn == pdcpSn).reduceOption.length =
        (q.queue.map fun entry =>
          if (entry.any fun sdu => sdu.pdcpSn == pdcpSn) then none else entry).reduceOption.length := by
      omega
    exact hpop.trans hleft

/-- An empty queue has no SDU to read, another one has its first. -/
theorem readSdu_spec (h : q.Counts) :
    (q.sdus = [] ∧ q.nSdus = 0) ∨
    ∃ sdu sdus q', q.sdus = sdu :: sdus ∧ 0 < q.nSdus ∧ q.readSdu = (some sdu, q') ∧ q'.sdus = sdus ∧
      q'.Counts ∧ q'.queue.length < q.queue.length := by
  rw [Counts, sdus] at h
  rw [sdus, readSdu]
  generalize q.queue = queue at h
  induction queue with
  | nil => exact Or.inl ⟨rfl, h⟩
  | cons entry rest ih =>
    cases entry with
    | none =>
      rw [List.reduceOption_cons_of_none] at h ⊢
      rw [List.dropWhile_cons_of_pos rfl]
      obtain hnone | ⟨sdu, sdus, q', hsdus, hpos, hread, hrest, hcounts, hlt⟩ := ih h
      · exact Or.inl hnone
      · exact Or.inr ⟨sdu, sdus, q', hsdus, hpos, hread, hrest, hcounts, Nat.lt_succ_of_lt hlt⟩
    | some sdu =>
      rw [List.reduceOption_cons_of_some, List.length_cons] at h
      refine Or.inr ⟨sdu, rest.reduceOption, popCallback { q with queue := rest } (some sdu),
        List.reduceOption_cons_of_some _ _, by omega, rfl, rfl, ?_, Nat.lt_succ_self _⟩
      rw [Counts, sdus]
      show q.nSdus - 1 = (rest.reduceOption).length
      omega

end ByteBufferQueue

namespace AmTx

open Odss.Lib

/-! ### The queue over runs -/

theorem txSduQueue_countRetx (s : AmTx) (sn : Nat) : (s.countRetx sn).txSduQueue = s.txSduQueue := by
  obtain ⟨window, events, heq⟩ := countRetx_eq s sn
  rw [heq]

theorem txSduQueue_retransmitPdu (s : AmTx) (sn : Nat) : (s.retransmitPdu sn).txSduQueue = s.txSduQueue := by
  unfold retransmitPdu
  split
  · rfl
  · exact txSduQueue_countRetx s sn

theorem txSduQueue_afterPoll (s : AmTx) (n : Nat) : (s.afterPoll n).txSduQueue = s.txSduQueue := by
  obtain ⟨pdus, bytes, timer, heq⟩ := afterPoll_eq s n
  rw [heq]

theorem txSduQueue_dropStaleRetx (fuel : Nat) (s : AmTx) :
    (dropStaleRetx fuel s).1.txSduQueue = s.txSduQueue := by
  induction fuel generalizing s with
  | zero => rfl
  | succ fuel ih =>
    unfold dropStaleRetx
    split
    · rfl
    · split
      · rfl
      · dsimp only
        split
        · exact ih _
        · split
          · exact (ih _).trans (txSduQueue_retransmitPdu _ _)
          · rfl

/-- Retransmissions do not touch the queue of SDUs. -/
theorem txSduQueue_readRetxPdu (s : AmTx) (nofBytes : Nat) :
    (s.readRetxPdu nofBytes).1.txSduQueue = s.txSduQueue := by
  have hfull : s.retransmitIfFull.txSduQueue = s.txSduQueue := by
    unfold retransmitIfFull
    split
    · exact txSduQueue_retransmitPdu s s.vtA
    · rfl
  have hbuild : ∀ t : AmTx, (t.buildRetxPdu nofBytes).1.txSduQueue = t.txSduQueue := by
    intro t
    have hdrop := txSduQueue_dropStaleRetx (t.retxQueue.length + 1) t
    unfold buildRetxPdu
    generalize dropStaleRetx (t.retxQueue.length + 1) t = r at hdrop
    obtain ⟨t', _ | retx⟩ := r
    · exact hdrop
    · dsimp only
      split
      · exact hdrop
      · split
        · exact hdrop
        · split
          · unfold buildSegment
            split <;> exact (txSduQueue_afterPoll t' _).trans hdrop
          · exact (txSduQueue_afterPoll t' _).trans hdrop
  unfold readRetxPdu
  split
  · exact hfull
  · exact (hbuild _).trans hfull

theorem txSduQueue_handleNacks (s : AmTx) (i : Nat) (nacks : List StatusNack) :
    (s.handleNacks i nacks).txSduQueue = s.txSduQueue := by
  have hone : ∀ (t : AmTx) (nack : StatusNack), (t.handleNack i nack).txSduQueue = t.txSduQueue := by
    intro t nack
    unfold handleNack
    split
    · rfl
    · split
      · rfl
      · exact txSduQueue_countRetx t i
  unfold handleNacks
  induction nacks generalizing s with
  | nil => rfl
  | cons nack nacks ih =>
    rw [List.foldl_cons, ih]
    split
    · exact hone s nack
    · rfl

theorem txSduQueue_handleAck (s : AmTx) (i : Nat) (updateVtA : Bool) :
    (s.handleAck i updateVtA).txSduQueue = s.txSduQueue := by
  have hack : (s.ackPdu i).txSduQueue = s.txSduQueue := by
    obtain ⟨notify, info, heq⟩ := updateNotificationAckInfo_eq s i
    unfold ackPdu removePdu
    split
    · rw [heq]
      split <;> rfl
    · rfl
  unfold handleAck
  split
  · exact hack
  · exact hack

/-- The counter of the queue is right, and the next SN is one. -/
structure QueueReady (s : AmTx) : Prop where
  counts : s.txSduQueue.Counts
  vtS : s.vtS < amMod

theorem QueueReady.of_same {s s' : AmTx} (h : QueueReady s) (hqueue : s'.txSduQueue = s.txSduQueue)
    (hvtS : s'.vtS = s.vtS) : QueueReady s' :=
  ⟨hqueue ▸ h.counts, hvtS ▸ h.vtS⟩

theorem queueReady_readRetxPdu {s : AmTx} (h : QueueReady s) (nofBytes : Nat) :
    QueueReady (s.readRetxPdu nofBytes).1 :=
  h.of_same (txSduQueue_readRetxPdu s nofBytes) (sameWindow_readRetxPdu s nofBytes).vtS

theorem queueReady_handleControlPdu {s : AmTx} (h : QueueReady s) (status : StatusPdu) :
    QueueReady (s.handleControlPdu status) := by
  have hack : ∀ (t : AmTx) (i : Nat) (updateVtA : Bool), (t.handleAck i updateVtA).vtS = t.vtS := by
    intro t i updateVtA
    unfold handleAck
    split
    · exact (ackPdu_window t i).2.2.1
    · exact (ackPdu_window t i).2.2.1
  have hloop : ∀ (fuel : Nat) (t : AmTx) (i : Nat) (updateVtA : Bool), QueueReady t →
      QueueReady (ackLoop status s.vtS fuel t i updateVtA) := by
    intro fuel
    induction fuel with
    | zero => exact fun _ _ _ h => h
    | succ fuel ih =>
      intro t i updateVtA h
      unfold ackLoop
      split
      · split
        · exact ih _ _ _ (h.of_same (txSduQueue_handleNacks t i status.nacks)
            (sameWindow_handleNacks t i status.nacks).vtS)
        · exact ih _ _ _ (h.of_same (txSduQueue_handleAck t i updateVtA) (hack t i updateVtA))
      · exact h
  unfold handleControlPdu
  split
  · exact (hloop amMod (s.startStatus status) s.vtA true (h.of_same rfl rfl)).of_same rfl rfl
  · exact h

theorem counts_emptyQueue {s : AmTx} (h : s.txSduQueue.Counts) : s.emptyQueue.txSduQueue.Counts := by
  show (s.txSduQueue.queue.foldl ByteBufferQueue.popCallback s.txSduQueue).nSdus = 0
  rw [(ByteBufferQueue.foldl_popCallback s.txSduQueue.queue s.txSduQueue).2]
  rw [ByteBufferQueue.Counts, ByteBufferQueue.sdus] at h
  omega

/-! ### What a PDU takes from the queue -/

/-- The lengths of SDUs -/
def sizes (sdus : List Sdu) : List Nat := sdus.map fun sdu => sdu.bytes.length

/-- The length indicators for pieces of these lengths. There is none for an empty piece. -/
def nofLis (lens : List Nat) : Nat := lens.countP fun len => decide (0 < len)

/-- The information on an SDU that is read from the queue -/
def noteSdu (i : SduInfo) (pdcpSn : Nat) : SduInfo :=
  if i.infos.hasPdcpSn pdcpSn then i else i.addPdcpSdu pdcpSn

/-- The information after the SDUs `sdus` were put into the PDU `rlcSn` -/
def infoAfter (rlcSn : Nat) : SduInfo → List Sdu → SduInfo
  | i, [] => i
  | i, sdu :: sdus => infoAfter rlcSn (addSegment (noteSdu i sdu.pdcpSn) rlcSn sdu.pdcpSn true).1 sdus

/-- A PDU in the making: its SN, the length indicators in its header, the length of the piece that was put into it
last, the space for header and data, and the segment resources -/
structure PduRoom where
  rlcSn : Nat
  nofLi : Nat
  lastLi : Nat
  space : Nat
  info : SduInfo

/-- The SDUs `sdus` go into the PDU, and there is room for another one behind them. -/
structure PduRoom.Takes (r : PduRoom) (sdus : List Sdu) : Prop where
  space : (sizes sdus).sum + dataHeadLen (r.nofLi + nofLis (r.lastLi :: sizes sdus)) < r.space
  lis : r.nofLi + nofLis (r.lastLi :: sizes sdus).dropLast < maxSdusPerPdu
  segments : ∀ k ≤ sdus.length, (infoAfter r.rlcSn r.info (sdus.take k)).pool.hasSegments = true

/-- Of the SDUs `sdus` in the queue, one goes into the PDU behind a piece of 2048 bytes or more. -/
def PduRoom.LongFollowed (r : PduRoom) (sdus : List Sdu) : Prop :=
  ∃ (taken : List Sdu) (next : Sdu) (rest : List Sdu), sdus = taken ++ next :: rest ∧ r.Takes taken ∧
    2048 ≤ (r.lastLi :: sizes taken).getLast (List.cons_ne_nil _ _)

/-- The room of a PDU after a piece of `n` bytes of an SDU was put into it -/
def PduRoom.put (r : PduRoom) (n : Nat) (info : SduInfo) : PduRoom where
  rlcSn := r.rlcSn
  nofLi := r.nofLi + nofLis [r.lastLi]
  lastLi := n
  space := r.space - n
  info := info

theorem nofLis_cons (len : Nat) (lens : List Nat) : nofLis (len :: lens) = nofLis [len] + nofLis lens := by
  rw [← List.singleton_append, nofLis, List.countP_append]
  rfl

theorem dataHeadLen_mono {m n : Nat} (h : m ≤ n) : dataHeadLen m ≤ dataHeadLen n := by
  unfold dataHeadLen
  omega

variable {r : PduRoom}

/-- Behind a whole SDU -/
theorem PduRoom.takes_cons (sdu : Sdu) (sdus : List Sdu) :
    r.Takes (sdu :: sdus) ↔ r.Takes [] ∧
      sdu.bytes.length ≤ r.space - dataHeadLen (r.nofLi + nofLis [r.lastLi]) ∧
      (r.put sdu.bytes.length (addSegment (noteSdu r.info sdu.pdcpSn) r.rlcSn sdu.pdcpSn true).1).Takes sdus := by
  have hlis : (r.lastLi :: sizes (sdu :: sdus)).dropLast = r.lastLi :: (sizes (sdu :: sdus)).dropLast := rfl
  have hsum : (sizes (sdu :: sdus)).sum = sdu.bytes.length + (sizes sdus).sum := List.sum_cons
  have hmono : dataHeadLen (r.nofLi + nofLis [r.lastLi]) ≤
      dataHeadLen (r.nofLi + (nofLis [r.lastLi] + nofLis (sizes (sdu :: sdus)))) :=
    dataHeadLen_mono (by omega)
  constructor
  · rintro ⟨hspace, hcount, hsegments⟩
    rw [nofLis_cons, hsum] at hspace
    rw [hlis, nofLis_cons] at hcount
    have hfirst : r.Takes [] := by
      refine ⟨?_, ?_, ?_⟩
      · show 0 + dataHeadLen (r.nofLi + nofLis [r.lastLi]) < _
        omega
      · show r.nofLi + 0 < _
        omega
      · intro k hk
        rw [List.take_nil]
        exact hsegments 0 (Nat.zero_le _)
    refine ⟨hfirst, by omega, ?_, ?_, ?_⟩
    · show (sizes sdus).sum + dataHeadLen (r.nofLi + nofLis [r.lastLi] + nofLis (sizes (sdu :: sdus))) < _ - _
      rw [Nat.add_assoc r.nofLi]
      omega
    · show r.nofLi + nofLis [r.lastLi] + nofLis (sizes (sdu :: sdus)).dropLast < _
      omega
    · exact fun k hk => hsegments (k + 1) (Nat.succ_le_succ hk)
  · rintro ⟨hfirst, hfits, hspace, hcount, hsegments⟩
    replace hspace : (sizes sdus).sum +
        dataHeadLen (r.nofLi + nofLis [r.lastLi] + nofLis (sizes (sdu :: sdus))) < r.space - sdu.bytes.length :=
      hspace
    rw [Nat.add_assoc r.nofLi] at hspace
    replace hcount : r.nofLi + nofLis [r.lastLi] + nofLis (sizes (sdu :: sdus)).dropLast < maxSdusPerPdu := hcount
    refine ⟨?_, ?_, ?_⟩
    · rw [nofLis_cons, hsum]
      omega
    · rw [hlis, nofLis_cons]
      omega
    · intro k hk
      cases k with
      | zero => exact hfirst.segments 0 (Nat.zero_le _)
      | succ k => exact hsegments k (Nat.le_of_succ_le_succ hk)

/-- A long piece is followed by the next SDU, or one behind it is followed by another. -/
theorem PduRoom.longFollowed_cons (sdu : Sdu) (sdus : List Sdu) :
    r.LongFollowed (sdu :: sdus) ↔ r.Takes [] ∧ (2048 ≤ r.lastLi ∨
      sdu.bytes.length ≤ r.space - dataHeadLen (r.nofLi + nofLis [r.lastLi]) ∧
      (r.put sdu.bytes.length (addSegment (noteSdu r.info sdu.pdcpSn) r.rlcSn sdu.pdcpSn true).1).LongFollowed
        sdus) := by
  constructor
  · rintro ⟨taken, next, rest, hsdus, htakes, hlong⟩
    cases taken with
    | nil => exact ⟨htakes, Or.inl hlong⟩
    | cons first taken =>
      cases hsdus
      obtain ⟨hfirst, hfits, htakes⟩ := (takes_cons _ _).mp htakes
      exact ⟨hfirst, Or.inr ⟨hfits, taken, next, rest, rfl, htakes, hlong⟩⟩
  · rintro ⟨hfirst, hlong | ⟨hfits, taken, next, rest, rfl, htakes, hlong⟩⟩
    · exact ⟨[], sdu, sdus, rfl, hfirst, hlong⟩
    · exact ⟨sdu :: taken, next, rest, rfl, (takes_cons _ _).mpr ⟨hfirst, hfits, htakes⟩, hlong⟩

theorem PduRoom.not_longFollowed (h : r.space ≤ dataHeadLen r.nofLi) (sdus : List Sdu) : ¬r.LongFollowed sdus := by
  rintro ⟨taken, next, rest, -, ⟨hspace, -, -⟩, -⟩
  have hmono := dataHeadLen_mono (Nat.le_add_right r.nofLi (nofLis (r.lastLi :: sizes taken)))
  omega

/-! ### The loop -/

/-- The room of the PDU at the start of a round -/
def DataBuild.room (b : DataBuild) : PduRoom := ⟨b.pdu.rlcSn, b.li.length, b.lastLi, b.pduSpace, b.tx.sduInfo⟩

/-- The bytes that are still to be sent: the rest of the SDU in transmission, and the SDUs in the queue -/
def pendingBytes (s : AmTx) : Bytes :=
  (s.txSdu.map (·.bytes)).getD [] ++ s.txSduQueue.sdus.flatMap (·.bytes)

/-- What the rounds of the loop keep. An SDU that is not at its end leaves no space, or it is a long one. -/
structure BuildInv (b : DataBuild) : Prop where
  counts : b.tx.txSduQueue.Counts
  headLen : b.headLen = dataHeadLen b.li.length
  unfinished : b.tx.txSdu.isSome = true → b.pduSpace ≤ dataHeadLen b.li.length ∨ 2048 ≤ b.lastLi

variable {b : DataBuild}

/-- The length indicator of the last piece is in the header, if the piece is not empty. -/
theorem length_li_pushLastLi (b : DataBuild) : (pushLastLi b).li.length = b.li.length + nofLis [b.lastLi] := by
  rw [nofLis, List.countP_singleton]
  show (if b.lastLi > 0 then b.li ++ [b.lastLi] else b.li).length = _
  by_cases h : b.lastLi > 0
  · rw [if_pos h, if_pos (decide_eq_true h), List.length_append, List.length_singleton]
  · rw [if_neg h, if_neg (by rw [decide_eq_true_eq]; exact h)]
    rfl

theorem headLen_pushLastLi (b : DataBuild) :
    (pushLastLi b).headLen = dataHeadLen (b.li.length + nofLis [b.lastLi]) :=
  congrArg dataHeadLen (length_li_pushLastLi b)

/-- A round ends the loop and leaves the header and the data, or it puts the next SDU into the PDU. -/
theorem pullRound_spec (h : BuildInv b) :
    ((b.tx.txSduQueue.sdus = [] ∨ ¬b.room.Takes []) ∧
      ((∃ b', pullRound b = .done b' ∧ b'.li = b.li ∧ b'.pdu = b.pdu ∧ b'.tx = b.tx) ∨
        pullRound b = .noSegments b)) ∨
    ∃ sdu sdus q, b.tx.txSduQueue.sdus = sdu :: sdus ∧ b.room.Takes [] ∧
      pullRound b = .again (pullSdu (pushLastLi b) sdu q) ∧ q.sdus = sdus ∧ q.Counts ∧
      q.queue.length < b.tx.txSduQueue.queue.length := by
  have htakes : b.room.Takes [] ↔ dataHeadLen (b.li.length + nofLis [b.lastLi]) < b.pduSpace ∧
      b.li.length < maxSdusPerPdu ∧ b.tx.sduInfo.pool.hasSegments = true := by
    constructor
    · rintro ⟨hspace, hlis, hsegments⟩
      exact ⟨Nat.lt_of_le_of_lt (Nat.le_add_left _ _) hspace, hlis, hsegments 0 (Nat.le_refl 0)⟩
    · rintro ⟨hspace, hlis, hsegments⟩
      refine ⟨?_, hlis, ?_⟩
      · show 0 + _ < _
        rw [Nat.zero_add]
        exact hspace
      · intro k hk
        rw [List.take_nil]
        exact hsegments
  have hmono : b.headLen ≤ dataHeadLen (b.li.length + nofLis [b.lastLi]) := by
    rw [h.headLen]
    exact dataHeadLen_mono (Nat.le_add_right _ _)
  rw [pullRound]
  obtain ⟨hempty, hzero⟩ | ⟨sdu, sdus, q, hsdus, hpos, hread, hrest, hcounts, hlt⟩ :=
    ByteBufferQueue.readSdu_spec h.counts
  · rw [if_neg (by omega)]
    exact Or.inl ⟨Or.inl hempty, Or.inl ⟨b, rfl, rfl, rfl, rfl⟩⟩
  · by_cases hguard : b.pduSpace > b.headLen ∧ b.tx.txSduQueue.nSdus > 0 ∧ b.li.length < maxSdusPerPdu
    · rw [if_pos hguard]
      cases hsegments : b.tx.sduInfo.pool.hasSegments with
      | false =>
        have hnot : ¬b.room.Takes [] := by
          rw [htakes, hsegments]
          exact fun h => Bool.false_ne_true h.2.2
        rw [if_neg Bool.false_ne_true]
        split
        · exact Or.inl ⟨Or.inr hnot, Or.inr rfl⟩
        · exact Or.inl ⟨Or.inr hnot, Or.inl ⟨b, rfl, rfl, rfl, rfl⟩⟩
      | true =>
        rw [if_pos rfl, pullNext, headLen_pushLastLi, show (pushLastLi b).pduSpace = b.pduSpace from rfl,
          show (pushLastLi b).tx = b.tx from rfl]
        by_cases hspace : dataHeadLen (b.li.length + nofLis [b.lastLi]) < b.pduSpace
        · rw [if_neg (Nat.not_le_of_lt hspace), hread]
          exact Or.inr ⟨sdu, sdus, q, hsdus, htakes.mpr ⟨hspace, hguard.2.2, hsegments⟩, rfl, hrest, hcounts, hlt⟩
        · -- the length indicator that needs the space leaves the header
          have hlast : b.lastLi > 0 := by
            rcases Nat.eq_zero_or_pos b.lastLi with hzero | hpos
            · rw [hzero] at hspace
              have hguard := hguard.1
              rw [h.headLen] at hguard
              exact absurd hguard hspace
            · exact hpos
          rw [if_pos (Nat.le_of_not_lt hspace)]
          refine Or.inl ⟨Or.inr fun htake => hspace (htakes.mp htake).1, Or.inl ⟨_, rfl, ?_, rfl, rfl⟩⟩
          show (if b.lastLi > 0 then b.li ++ [b.lastLi] else b.li).dropLast = b.li
          rw [if_pos hlast, List.dropLast_concat]
    · rw [if_neg hguard]
      refine Or.inl ⟨Or.inr fun htake => hguard ?_, Or.inl ⟨b, rfl, rfl, rfl, rfl⟩⟩
      obtain ⟨hspace, hlis, -⟩ := htakes.mp htake
      exact ⟨Nat.lt_of_le_of_lt hmono hspace, hpos, hlis⟩

/-- The bytes of an SDU are those that were moved and those that are left. -/
theorem take_restOf (sdu : Sdu) (n : Nat) :
    sdu.bytes.take n ++ ((restOf sdu n).map (·.bytes)).getD [] = sdu.bytes := by
  rw [restOf]
  split
  · rename_i hempty
    have hnil : sdu.bytes.drop n = [] := List.isEmpty_iff.mp hempty
    calc sdu.bytes.take n ++ [] = sdu.bytes.take n ++ sdu.bytes.drop n := by rw [hnil]
      _ = sdu.bytes := List.take_append_drop n sdu.bytes
  · exact List.take_append_drop n sdu.bytes

theorem restOf_length (sdu : Sdu) : restOf sdu sdu.bytes.length = none := by
  rw [restOf, List.drop_length]
  rfl

/-- The next SDU goes into the PDU. If it does so as a whole, another one can follow it. -/
theorem pullSdu_spec (hroom : b.room.Takes []) (sdu : Sdu) {q : ByteBufferQueue} (hq : q.Counts)
    (sdus : List Sdu) :
    BuildInv (pullSdu (pushLastLi b) sdu q) ∧
    ((pullSdu (pushLastLi b) sdu q).room.LongFollowed sdus ↔
      sdu.bytes.length ≤ b.room.space - dataHeadLen (b.room.nofLi + nofLis [b.room.lastLi]) ∧
      (b.room.put sdu.bytes.length (addSegment (noteSdu b.room.info sdu.pdcpSn) b.room.rlcSn sdu.pdcpSn
        true).1).LongFollowed sdus) := by
  have hspace : 0 + dataHeadLen (b.li.length + nofLis [b.lastLi]) < b.pduSpace := hroom.space
  have hmove : toMove (pushLastLi b) sdu =
      min (b.pduSpace - dataHeadLen (b.li.length + nofLis [b.lastLi])) sdu.bytes.length := by
    rw [toMove, headLen_pushLastLi]
    rfl
  have hnext : ∀ n, toMove (pushLastLi b) sdu = n → (pullSdu (pushLastLi b) sdu q).room =
      ⟨b.pdu.rlcSn, b.li.length + nofLis [b.lastLi], n, b.pduSpace - n,
        (addSegment (noteSdu b.tx.sduInfo sdu.pdcpSn) b.pdu.rlcSn sdu.pdcpSn (restOf sdu n).isNone).1⟩ := by
    rintro _ rfl
    rw [← length_li_pushLastLi]
    rfl
  have hhead : (pullSdu (pushLastLi b) sdu q).headLen = dataHeadLen (pullSdu (pushLastLi b) sdu q).li.length := rfl
  by_cases hfits : sdu.bytes.length ≤ b.pduSpace - dataHeadLen (b.li.length + nofLis [b.lastLi])
  · have hwhole := hmove.trans (Nat.min_eq_right hfits)
    refine ⟨⟨hq, hhead, fun hrest => ?_⟩, ?_⟩
    · have hnone : (pullSdu (pushLastLi b) sdu q).tx.txSdu = none := by
        show restOf sdu (toMove (pushLastLi b) sdu) = none
        rw [hwhole, restOf_length]
      rw [hnone] at hrest
      cases hrest
    · rw [hnext _ hwhole, restOf_length]
      exact ⟨fun hlong => ⟨hfits, hlong⟩, fun hlong => hlong.2⟩
  · -- the SDU fills the PDU
    have hcut := hmove.trans (Nat.min_eq_left (Nat.le_of_not_le hfits))
    have hfull : (pullSdu (pushLastLi b) sdu q).room.space ≤
        dataHeadLen (pullSdu (pushLastLi b) sdu q).room.nofLi := by
      rw [hnext _ hcut]
      show b.pduSpace - (b.pduSpace - dataHeadLen (b.li.length + nofLis [b.lastLi])) ≤
        dataHeadLen (b.li.length + nofLis [b.lastLi])
      omega
    refine ⟨⟨hq, hhead, fun _ => Or.inl hfull⟩, ?_⟩
    exact ⟨fun hlong => absurd hlong (PduRoom.not_longFollowed hfull sdus), fun hlong => absurd hlong.1 hfits⟩

/-- The bytes that the next SDU leaves to be sent, if no other SDU is in transmission -/
theorem pendingBytes_pullSdu (hnone : b.tx.txSdu = none) {sdu : Sdu} {sdus : List Sdu} {q : ByteBufferQueue}
    (hsdus : b.tx.txSduQueue.sdus = sdu :: sdus) (hrest : q.sdus = sdus) :
    (pullSdu (pushLastLi b) sdu q).pdu.buf ++ pendingBytes (pullSdu (pushLastLi b) sdu q).tx =
      b.pdu.buf ++ pendingBytes b.tx := by
  have hsent := take_restOf sdu (toMove (pushLastLi b) sdu)
  rw [pendingBytes, pendingBytes, hnone, hsdus]
  show b.pdu.buf ++ sdu.bytes.take (toMove (pushLastLi b) sdu) ++
    (((restOf sdu (toMove (pushLastLi b) sdu)).map (·.bytes)).getD [] ++ q.sdus.flatMap (·.bytes)) = _
  rw [hrest, List.append_assoc, ← List.append_assoc (sdu.bytes.take _), hsent]
  rfl

/-- What the rest of the loop makes of a PDU: the header stays, no length indicator is zero, one has more than 11 bits
if and only if a long piece is followed, and otherwise the bytes are moved in order. -/
structure Filled (b b' : DataBuild) : Prop where
  counts : b'.tx.txSduQueue.Counts
  header : b'.pdu.header = b.pdu.header
  pos : (∀ li ∈ b.li, 0 < li) → ∀ li ∈ b'.li, 0 < li
  long : (∃ li ∈ b'.li, 2048 ≤ li) ↔ (∃ li ∈ b.li, 2048 ≤ li) ∨ b.room.LongFollowed b.tx.txSduQueue.sdus
  moved : ¬b.room.LongFollowed b.tx.txSduQueue.sdus →
    b'.pdu.buf ++ pendingBytes b'.tx = b.pdu.buf ++ pendingBytes b.tx

/-- The loop ends with such a PDU, or with none. -/
theorem pullSdus_spec {fuel : Nat} (h : BuildInv b) (hfuel : b.tx.txSduQueue.queue.length ≤ fuel) :
    (∃ b', pullSdus fuel b = .done b' ∧ Filled b b') ∨
      ∃ b', pullSdus fuel b = .noSegments b' ∧ b'.tx.txSduQueue.Counts := by
  induction fuel generalizing b with
  | zero =>
    have hnil : b.tx.txSduQueue.sdus = [] := by
      rw [ByteBufferQueue.sdus, List.eq_nil_of_length_eq_zero (Nat.le_zero.mp hfuel)]
      rfl
    refine Or.inl ⟨b, rfl, h.counts, rfl, id, ?_, fun _ => rfl⟩
    rw [hnil]
    refine ⟨Or.inl, fun hlong => hlong.resolve_right ?_⟩
    rintro ⟨taken, next, rest, hsdus, -⟩
    exact List.append_ne_nil_of_right_ne_nil taken (List.cons_ne_nil next rest) hsdus.symm
  | succ fuel ih =>
    rw [pullSdus]
    obtain ⟨hends, ⟨b', hdone, hli, hpdu, htx⟩ | hnone⟩ |
      ⟨sdu, sdus, q, hsdus, hroom, hagain, hrest, hcounts, hlt⟩ := pullRound_spec h
    · -- no other SDU goes into the PDU
      have hnot : ¬b.room.LongFollowed b.tx.txSduQueue.sdus := by
        intro hlong
        cases hqueue : b.tx.txSduQueue.sdus with
        | nil =>
          obtain ⟨taken, next, rest, hsplit, -⟩ := hqueue ▸ hlong
          exact List.append_ne_nil_of_right_ne_nil taken (List.cons_ne_nil next rest) hsplit.symm
        | cons sdu sdus =>
          rw [hqueue] at hlong hends
          exact hends.elim (List.cons_ne_nil sdu sdus) fun hroom =>
            hroom ((PduRoom.longFollowed_cons sdu sdus).mp hlong).1
      rw [hdone]
      refine Or.inl ⟨b', rfl, by rw [htx]; exact h.counts, by rw [hpdu], by rw [hli]; exact id, ?_,
        fun _ => by rw [hpdu, htx]⟩
      rw [hli]
      exact ⟨Or.inl, fun hlong => hlong.resolve_right hnot⟩
    · rw [hnone]
      exact Or.inr ⟨b, rfl, h.counts⟩
    · rw [hagain]
      obtain ⟨hinv, hlong⟩ := pullSdu_spec hroom sdu hcounts sdus
      obtain ⟨b', hdone, hcounts', hheader, hpos, hlong', hmoved⟩ | hnone :=
        ih hinv (Nat.le_of_lt_succ (Nat.lt_of_lt_of_le hlt hfuel))
      · have hpushed : ∀ li, li ∈ (pullSdu (pushLastLi b) sdu q).li ↔ li ∈ b.li ∨ (0 < b.lastLi ∧ li = b.lastLi) := by
          intro li
          show li ∈ (if b.lastLi > 0 then b.li ++ [b.lastLi] else b.li) ↔ _
          by_cases hlast : b.lastLi > 0
          · rw [if_pos hlast, List.mem_append, List.mem_singleton]
            exact ⟨Or.imp_right fun heq => ⟨hlast, heq⟩, Or.imp_right And.right⟩
          · rw [if_neg hlast]
            exact ⟨Or.inl, fun hli => hli.resolve_right fun h => hlast h.1⟩
        have hfollowed : b.room.LongFollowed b.tx.txSduQueue.sdus ↔ 2048 ≤ b.lastLi ∨
            (pullSdu (pushLastLi b) sdu q).room.LongFollowed q.sdus := by
          rw [hsdus, PduRoom.longFollowed_cons, hrest, hlong]
          exact and_iff_right hroom
        refine Or.inl ⟨b', hdone, hcounts', hheader, fun hli => hpos fun li hmem => ?_, ?_, fun hnot => ?_⟩
        · obtain hold | ⟨hlast, rfl⟩ := (hpushed li).mp hmem
          · exact hli li hold
          · exact hlast
        · rw [hlong', hfollowed, ← or_assoc]
          refine or_congr_left ⟨?_, ?_⟩
          · rintro ⟨li, hmem, hle⟩
            obtain hold | ⟨-, rfl⟩ := (hpushed li).mp hmem
            · exact Or.inl ⟨li, hold, hle⟩
            · exact Or.inr hle
          · rintro (⟨li, hold, hle⟩ | hle)
            · exact ⟨li, (hpushed li).mpr (Or.inl hold), hle⟩
            · exact ⟨b.lastLi, (hpushed b.lastLi).mpr (Or.inr ⟨by omega, rfl⟩), hle⟩
        · rw [hfollowed, not_or] at hnot
          -- an SDU that is not at its end has no other behind it
          have hnone : b.tx.txSdu = none := by
            rw [← Option.not_isSome_iff_eq_none]
            intro hsome
            obtain hfull | hle := h.unfinished hsome
            · have hspace : 0 + dataHeadLen (b.li.length + nofLis [b.lastLi]) < b.pduSpace := hroom.space
              have hmono := dataHeadLen_mono (Nat.le_add_right b.li.length (nofLis [b.lastLi]))
              omega
            · exact hnot.1 hle
          exact (hmoved hnot.2).trans (pendingBytes_pullSdu hnone hsdus hrest)
      · exact Or.inr hnone

/-! ### The start of the PDU -/

/-- The bytes of the SDU in transmission that go into the PDU of a grant -/
def firstMove (s : AmTx) (nofBytes : Nat) : Nat :=
  match s.txSdu with
  | none => 0
  | some sdu => min (min nofBytes bufferTailroom - dataHeadLen 0) sdu.bytes.length

/-- The room of the PDU of a grant behind the SDU in transmission. The space goes down by the bytes of that SDU, but
not by more than the buffer has left behind them. -/
def firstRoom (s : AmTx) (nofBytes : Nat) : PduRoom where
  rlcSn := s.vtS
  nofLi := 0
  lastLi := s.firstMove nofBytes
  space := min nofBytes bufferTailroom - min (s.firstMove nofBytes) (bufferTailroom - s.firstMove nofBytes)
  info :=
    match s.txSdu with
    | none => (s.addPdu (newTxPdu s.vtS)).sduInfo
    | some sdu => (addSegment (s.addPdu (newTxPdu s.vtS)).sduInfo s.vtS sdu.pdcpSn
        (decide (sdu.bytes.length ≤ s.firstMove nofBytes))).1

/-- A piece of 2048 bytes or more is followed by another SDU in the PDU of a grant. -/
def LongPieceFollowed (s : AmTx) (nofBytes : Nat) : Prop :=
  (s.firstRoom nofBytes).LongFollowed s.txSduQueue.sdus

theorem restOf_isNone (sdu : Sdu) (n : Nat) : (restOf sdu n).isNone = decide (sdu.bytes.length ≤ n) := by
  have hempty : (sdu.bytes.drop n).isEmpty = decide (sdu.bytes.length ≤ n) := by
    rw [Bool.eq_iff_iff, List.isEmpty_iff, List.drop_eq_nil_iff, decide_eq_true_eq]
  rw [restOf, ← hempty]
  cases (sdu.bytes.drop n).isEmpty <;> rfl

theorem moveTxSdu_eq {sdu : Sdu} (hbuf : b.pdu.buf = []) (hlt : toMove b sdu < b.pduSpace) :
    moveTxSdu b sdu = { moveSdu b sdu (toMove b sdu) with
      pduSpace := b.pduSpace - min (toMove b sdu) (bufferTailroom - toMove b sdu) } := by
  have hlen : (b.pdu.buf ++ sdu.bytes.take (toMove b sdu)).length = toMove b sdu := by
    rw [hbuf, List.nil_append, List.length_take]
    exact Nat.min_eq_left (Nat.min_le_right _ _)
  have hspace : (if b.pduSpace > toMove b sdu then
      b.pduSpace - min (toMove b sdu) (bufferTailroom - (b.pdu.buf ++ sdu.bytes.take (toMove b sdu)).length)
      else 0) = b.pduSpace - min (toMove b sdu) (bufferTailroom - toMove b sdu) := by
    rw [if_pos hlt, hlen]
  rw [← hspace]
  rfl

variable {s : AmTx} {nofBytes : Nat}

/-- The PDU before the loop -/
structure Started (s : AmTx) (nofBytes : Nat) (b : DataBuild) : Prop where
  inv : BuildInv b
  room : b.room = s.firstRoom nofBytes
  li : b.li = []
  header : b.pdu.header = (newTxPdu s.vtS).header
  queue : b.tx.txSduQueue = s.txSduQueue
  moved : b.pdu.buf ++ pendingBytes b.tx = pendingBytes s

theorem started_startDataPdu (hcounts : s.txSduQueue.Counts) (hgrant : amMinDataPduSize ≤ nofBytes) :
    Started s nofBytes (s.startDataPdu nofBytes) := by
  have hgrant : 3 ≤ nofBytes := hgrant
  have htailroom : bufferTailroom = 12237 := rfl
  rw [startDataPdu]
  cases htx : s.txSdu with
  | none =>
    have hroom : s.firstRoom nofBytes =
        ⟨s.vtS, 0, 0, min nofBytes bufferTailroom - 0, (s.addPdu (newTxPdu s.vtS)).sduInfo⟩ := by
      rw [firstRoom, firstMove, htx]
      simp only [Nat.zero_min]
    refine ⟨⟨hcounts, rfl, fun hsome => ?_⟩, hroom.symm, rfl, rfl, rfl, rfl⟩
    rw [show (s.addPdu (newTxPdu s.vtS)).txSdu = s.txSdu from rfl, htx] at hsome
    cases hsome
  | some sdu =>
    dsimp only
    have hfirst : ∀ b : DataBuild, b.pduSpace = min nofBytes bufferTailroom → b.headLen = dataHeadLen 0 →
        toMove b sdu = s.firstMove nofBytes := by
      intro b hspace hhead
      rw [toMove, firstMove, htx, hspace, hhead]
    have hmove : s.firstMove nofBytes = min (min nofBytes bufferTailroom - 2) sdu.bytes.length := by
      rw [firstMove, htx]
      rfl
    rw [moveTxSdu_eq rfl (by rw [hfirst _ rfl rfl, hmove]; show _ < min nofBytes bufferTailroom; omega),
      hfirst _ rfl rfl]
    refine ⟨⟨hcounts, rfl, fun hsome => ?_⟩, ?_, rfl, rfl, rfl, ?_⟩
    · replace hsome : (restOf sdu (s.firstMove nofBytes)).isSome = true := hsome
      have hcut : s.firstMove nofBytes < sdu.bytes.length := by
        refine Nat.lt_of_not_le fun hle => ?_
        have hnone := (restOf_isNone sdu (s.firstMove nofBytes)).trans (decide_eq_true hle)
        rw [Option.isNone_iff_eq_none.mp hnone] at hsome
        cases hsome
      have hhead : dataHeadLen 0 = 2 := rfl
      show min nofBytes bufferTailroom - min (s.firstMove nofBytes) (bufferTailroom - s.firstMove nofBytes) ≤
        dataHeadLen 0 ∨ 2048 ≤ s.firstMove nofBytes
      omega
    · rw [firstRoom, htx]
      dsimp only
      rw [← restOf_isNone]
      rfl
    · have hsent := take_restOf sdu (s.firstMove nofBytes)
      rw [pendingBytes, pendingBytes, htx]
      show [] ++ sdu.bytes.take (s.firstMove nofBytes) ++
        (((restOf sdu (s.firstMove nofBytes)).map (·.bytes)).getD [] ++ _) = _
      rw [List.nil_append, ← List.append_assoc, hsent]
      rfl

/-! ### The call -/

/-- What a call makes of the PDU, or that it takes it out of the window again -/
theorem buildDataPdu_spec (hcounts : s.txSduQueue.Counts) (hadds : s.addsDataPdu nofBytes = true) :
    (∃ b, s.buildDataPdu nofBytes = finishDataPdu s.txSdu.isSome b ∧ Filled (s.startDataPdu nofBytes) b ∧
      b.pdu.rlcSn = s.vtS ∧ SameWindow (s.addPdu (newTxPdu s.vtS)) b.tx) ∨
    ∃ b, s.buildDataPdu nofBytes = (abandonDataPdu b, []) ∧ b.tx.txSduQueue.Counts ∧ b.tx.vtS = s.vtS := by
  have hgrant : amMinDataPduSize ≤ nofBytes := by
    simp only [addsDataPdu, Bool.and_eq_true, decide_eq_true_eq] at hadds
    exact hadds.1.2
  have hstart := started_startDataPdu hcounts hgrant
  have hsame := sameBuild_pullSdus s.txSduQueue.queue.length (s.startDataPdu nofBytes)
  have hwin := (sameWindow_startDataPdu s nofBytes).trans hsame.tx
  have hsn := hsame.rlcSn.trans (startDataPdu_rlcSn s nofBytes)
  rw [buildDataPdu, if_pos hadds]
  obtain ⟨b, hdone, hfilled⟩ | ⟨b, hnone, hcounts'⟩ :=
    pullSdus_spec hstart.inv (Nat.le_of_eq (by rw [hstart.queue]) :
      _ ≤ s.txSduQueue.queue.length)
  · rw [hdone] at hwin hsn ⊢
    exact Or.inl ⟨b, rfl, hfilled, hsn, hwin⟩
  · rw [hnone] at hwin ⊢
    exact Or.inr ⟨b, rfl, hcounts', hwin.vtS⟩

theorem queueReady_buildDataPdu (h : QueueReady s) (nofBytes : Nat) :
    QueueReady (s.buildDataPdu nofBytes).1 := by
  cases hadds : s.addsDataPdu nofBytes with
  | false =>
    rw [buildDataPdu, hadds]
    exact h
  | true =>
    obtain ⟨b, heq, hfilled, -, -⟩ | ⟨b, heq, hcounts, hvtS⟩ := buildDataPdu_spec h.counts hadds
    · rw [heq]
      refine ⟨?_, Nat.mod_lt _ (by decide)⟩
      show (b.tx.afterPoll _).txSduQueue.Counts
      rw [txSduQueue_afterPoll]
      exact hfilled.counts
    · rw [heq]
      refine ⟨hcounts, ?_⟩
      show b.tx.vtS < amMod
      rw [hvtS]
      exact h.vtS

/-- A call that sends bytes sends the header and the data of the PDU that it puts into the window. -/
theorem buildDataPdu_sent (h : QueueReady s) (hsent : (s.buildDataPdu nofBytes).2 ≠ []) :
    ∃ pdu, (s.buildDataPdu nofBytes).1.txWindow.find? s.vtS = some pdu ∧
      (s.buildDataPdu nofBytes).2 = writeDataPduHeader pdu.header ++ pdu.buf ∧
      pdu.header.rf = false ∧ pdu.header.lsf = false ∧ pdu.header.so = 0 ∧ pdu.header.sn = s.vtS ∧
      (∀ li ∈ pdu.header.li, 0 < li) ∧
      ((∃ li ∈ pdu.header.li, 2048 ≤ li) ↔ s.LongPieceFollowed nofBytes) ∧
      (¬s.LongPieceFollowed nofBytes →
        pdu.buf ++ pendingBytes (s.buildDataPdu nofBytes).1 = pendingBytes s) := by
  have hadds : s.addsDataPdu nofBytes = true := by
    rw [← Bool.not_eq_false]
    intro hadds
    rw [buildDataPdu, hadds] at hsent
    exact hsent rfl
  have hgrant : amMinDataPduSize ≤ nofBytes := by
    simp only [addsDataPdu, Bool.and_eq_true, decide_eq_true_eq] at hadds
    exact hadds.1.2
  have hstart := started_startDataPdu h.counts hgrant
  obtain ⟨b, heq, hfilled, hsn, hwin⟩ | ⟨b, heq, -, -⟩ := buildDataPdu_spec h.counts hadds
  · rw [heq]
    have hheader := hfilled.header.trans hstart.header
    have hpos := hfilled.pos (by rw [hstart.li]; exact fun _ hmem => absurd hmem List.not_mem_nil)
    have hlong := hfilled.long
    have hmoved := hfilled.moved
    rw [hstart.li, hstart.room, hstart.queue] at hlong
    rw [hstart.room, hstart.queue, hstart.moved] at hmoved
    have hin : b.tx.txWindow.contains s.vtS = true := by
      rw [hwin.contains]
      exact CircularMap.contains_iff.mpr ⟨_, CircularMap.find?_overwrite_self _ _ _⟩
    obtain ⟨old, hold⟩ := CircularMap.contains_iff.mp hin
    refine ⟨finalPdu s.txSdu.isSome b (b.tx.pollBit (b.pdu.buf.length + b.headLen)), ?_, rfl, ?_, ?_, ?_, ?_, hpos,
      ?_, ?_⟩
    · show (b.tx.txWindow.modify b.pdu.rlcSn _).find? s.vtS = _
      rw [hsn, CircularMap.find?_modify, if_pos rfl, hold]
      rfl
    · exact congrArg (·.rf) hheader
    · exact congrArg (·.lsf) hheader
    · exact congrArg (·.so) hheader
    · exact congrArg (·.sn) hheader
    · refine hlong.trans ⟨fun hor => hor.resolve_left ?_, Or.inr⟩
      rintro ⟨li, hnil, -⟩
      cases hnil
    · intro hnot
      have hpending : pendingBytes (finishDataPdu s.txSdu.isSome b).1 = pendingBytes b.tx := by
        obtain ⟨pdus, bytes, timer, hpoll⟩ := afterPoll_eq b.tx (b.pdu.buf.length + b.headLen)
        rw [finishDataPdu, hpoll]
        rfl
      rw [hpending]
      exact hmoved hnot
  · rw [heq] at hsent
    exact absurd rfl hsent

theorem queueReady_stop (h : QueueReady s) : QueueReady s.stop := by
  have hqueue := counts_emptyQueue h.counts
  rw [stop]
  dsimp only [clearWindow, resetVariables]
  constructor
  · exact hqueue
  · show 0 < amMod
    decide

theorem queueReady_step {op : Op} (h : QueueReady s) : QueueReady (s.step op).1 := by
  cases op with
  | writeSdu sdu =>
    simp only [step, writeSdu]
    split
    · exact h
    · split
      · exact h
      · rename_i q hq
        exact ⟨ByteBufferQueue.counts_tryWrite h.counts hq, h.vtS⟩
  | readPdu nofBytes rx =>
    simp only [step, readPdu]
    split
    · exact h
    · split
      · unfold buildStatusPdu
        split
        · exact h
        · split
          · exact h.of_same rfl rfl
          · exact h
      · split
        · exact queueReady_buildDataPdu (queueReady_readRetxPdu h nofBytes) nofBytes
        · exact queueReady_readRetxPdu h nofBytes
  | handleControlPdu status => exact queueReady_handleControlPdu h status
  | pollRetxExpired =>
    simp only [step, AmTx.pollRetxExpired]
    split
    · exact h
    · split
      · exact h.of_same (txSduQueue_retransmitPdu _ _) (sameWindow_retransmitPdu _ _).vtS
      · exact h.of_same rfl rfl
  | statusProhibitExpired =>
    simp only [step, AmTx.statusProhibitExpired]
    split
    · exact h
    · exact h.of_same rfl rfl
  | discardSdu discardSn =>
    simp only [step, discardSdu]
    split
    · exact h
    · exact ⟨ByteBufferQueue.counts_discard h.counts discardSn, h.vtS⟩
  | emptyQueue => exact ⟨counts_emptyQueue h.counts, h.vtS⟩
  | stop => exact queueReady_stop h
  | reestablish => exact (queueReady_stop h).of_same rfl rfl

theorem queueReady_execOps (cfg : AmConfig) (ops : List Op) : QueueReady ((init cfg).execOps ops) :=
  exec_invariant QueueReady (fun _ _ h => queueReady_step h) ops _ ⟨rfl, Nat.zero_lt_succ 1023⟩

/-- The state in which `read_pdu` comes to `build_data_pdu`, after the calls `ops` -/
def beforeData (cfg : AmConfig) (ops : List Op) (nofBytes : Nat) : AmTx :=
  (((init cfg).execOps ops).readRetxPdu nofBytes).1

/-- The PDU of a grant can be read: the header and the data that come out are those of the PDU in the window, the
header has its length, the data are the next bytes to be sent, and the length indicators are in range. -/
def ReadsBack (s : AmTx) (nofBytes : Nat) : Prop :=
  ∃ pdu, (s.buildDataPdu nofBytes).1.txWindow.find? s.vtS = some pdu ∧
    isControlPdu (s.buildDataPdu nofBytes).2 = false ∧
    readDataPduHeader (s.buildDataPdu nofBytes).2 = some (pdu.header, pdu.buf) ∧
    (s.buildDataPdu nofBytes).2.length = pdu.header.packedLength + pdu.buf.length ∧
    pdu.buf ++ pendingBytes (s.buildDataPdu nofBytes).1 = pendingBytes s ∧
    ∀ li ∈ pdu.header.li, 1 ≤ li ∧ li ≤ 2047

theorem readsBack_iff_of_ready (h : QueueReady s) (hsent : (s.buildDataPdu nofBytes).2 ≠ []) :
    s.ReadsBack nofBytes ↔ ¬s.LongPieceFollowed nofBytes := by
  obtain ⟨pdu, hfind, hbytes, hrf, hlsf, hso, hsn, hpos, hlong, hmoved⟩ := buildDataPdu_sent h hsent
  constructor
  · rintro ⟨pdu', hfind', -, -, -, -, hrange⟩ hfollowed
    rw [hfind, Option.some.injEq] at hfind'
    subst hfind'
    obtain ⟨li, hli, hle⟩ := hlong.mpr hfollowed
    have hlt := (hrange li hli).2
    omega
  · intro hnot
    have hrange : ∀ li ∈ pdu.header.li, li < 2048 := fun li hli =>
      Nat.lt_of_not_le fun hle => hnot (hlong.mp ⟨li, hli, hle⟩)
    have hheader : pdu.header.InRange := by
      refine ⟨?_, ?_, hrange, fun _ => ⟨hlsf, hso⟩⟩
      · rw [hsn]
        exact h.vtS
      · rw [hso]
        decide
    refine ⟨pdu, hfind, ?_, ?_, ?_, hmoved hnot, fun li hli => ⟨hpos li hli, Nat.le_of_lt_succ (hrange li hli)⟩⟩
    · rw [hbytes, isControlPdu_writeDataPduHeader]
    · rw [hbytes, readDataPduHeader_writeDataPduHeader hheader]
    · rw [hbytes, List.length_append, length_writeDataPduHeader]

/-- Over all runs: a PDU can be read if and only if no piece of 2048 bytes or more is followed in it. -/
theorem readsBack_iff (cfg : AmConfig) (ops : List Op) (nofBytes : Nat)
    (hsent : ((beforeData cfg ops nofBytes).buildDataPdu nofBytes).2 ≠ []) :
    (beforeData cfg ops nofBytes).ReadsBack nofBytes ↔
      ¬(beforeData cfg ops nofBytes).LongPieceFollowed nofBytes :=
  readsBack_iff_of_ready (queueReady_readRetxPdu (queueReady_execOps cfg ops) nofBytes) hsent

/-- Two short SDUs in one PDU -/
theorem readsBack_iff_two :
    (beforeData ⟨-1, -1, 4, 0, 256⟩ [.writeSdu ⟨0, [1, 2, 3]⟩, .writeSdu ⟨1, [4, 5]⟩] 20).ReadsBack 20 ↔
      ¬(beforeData ⟨-1, -1, 4, 0, 256⟩ [.writeSdu ⟨0, [1, 2, 3]⟩, .writeSdu ⟨1, [4, 5]⟩] 20).LongPieceFollowed 20 :=
  readsBack_iff _ _ _ (by decide)

/-- Two SDUs, the first of 3000 bytes -/
def longAndShort : List Op := [.writeSdu ⟨0, List.replicate 3000 0⟩, .writeSdu ⟨1, List.replicate 10 0⟩]

/-- The length indicator of the first SDU does not have room in the header. -/
theorem not_readsBack_longAndShort :
    ((beforeData ⟨-1, -1, 4, 0, 256⟩ longAndShort 4000).buildDataPdu 4000).2 ≠ [] ∧
      ¬(beforeData ⟨-1, -1, 4, 0, 256⟩ longAndShort 4000).ReadsBack 4000 := by
  have hready : QueueReady (beforeData ⟨-1, -1, 4, 0, 256⟩ longAndShort 4000) :=
    queueReady_readRetxPdu (queueReady_execOps _ _) 4000
  have hsent : ((beforeData ⟨-1, -1, 4, 0, 256⟩ longAndShort 4000).buildDataPdu 4000).2 ≠ [] := by
    decide +kernel
  refine ⟨hsent, fun hread => (readsBack_iff_of_ready hready hsent).mp hread ?_⟩
  refine ⟨[⟨0, List.replicate 3000 0⟩], ⟨1, List.replicate 10 0⟩, [], rfl, ⟨?_, ?_, ?_⟩, ?_⟩
  · decide +kernel
  · decide
  · intro k hk
    have hk : k = 0 ∨ k = 1 := Nat.le_one_iff_eq_zero_or_eq_one.mp hk
    obtain rfl | rfl := hk
    · decide
    · decide
  · decide +kernel

end AmTx

end Odss.Rlc
