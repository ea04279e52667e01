import Odss.Lib.Run
import Odss.Pdcp.EntityNr

/-!
# `Odss.Proofs.PdcpNrRx`: the order of delivery of the NR PDCP entity

* `InOrder` says of a call that the COUNT values of the delivered SDUs increase, that an expiry
  of t-Reordering moves `RX_DELIV` over all of them, and that a PDU which comes too late is
  dropped.
* `RxInv` is the invariant of the runs in which t-Reordering does not expire.
* `not_inOrder_expire` says that each expiry leaves `RX_DELIV` behind.
* `inOrder_iff` puts both together for every run.
-/

set_option linter.all false

namespace Odss.Pdcp.PdcpNr

open Odss.Lib Odss.Rlc

/-! ### What the entity promises -/

/-- The COUNT values of the delivered SDUs. -/
def deliveredCounts (s : PdcpNr) : List Nat := s.delivered.map Prod.fst

/-- An SDU with the COUNT or a later one was delivered. -/
def Passed (s : PdcpNr) (count : Nat) : Prop := ∃ d ∈ s.deliveredCounts, count ≤ d

/-- What a call may do: the COUNT values of the delivered SDUs increase. After an expiry of
t-Reordering `RX_DELIV` is above all of them. A PDU whose COUNT was delivered or skipped gives
no SDU. -/
def InOrder (sec : Security) (s : PdcpNr) (op : RxOp) : Prop :=
  (s.rxStep sec op).deliveredCounts.Pairwise (· < ·) ∧
    match op with
    | .expire => s.canExpire = true → ∀ d ∈ s.expire.deliveredCounts, d < s.expire.rxDeliv
    | .writePdu pdu =>
      s.Passed (s.rcvdCount pdu) → (s.writePdu sec pdu).delivered = s.delivered

/-- t-Reordering does not expire in the call. -/
def NoExpiry (s : PdcpNr) (op : RxOp) : Prop := op = .expire → s.canExpire = false

/-! ### The invariant -/

/-- The PDU before the COUNT `count` waits in the queue, when it was not delivered. -/
def Waiting (s : PdcpNr) (count : Nat) : Prop :=
  s.rxOverflow = false → s.rxDeliv < count → ∃ sdu, s.reorderQueue.find? (count - 1) = some sdu

/-- What delivery in sequence keeps. `RX_DELIV` is behind what was delivered, until it
overflows. -/
structure Sequenced (s : PdcpNr) : Prop where
  delivLt : s.rxDeliv < 2 ^ 32
  sorted : s.deliveredCounts.Pairwise (· < ·)
  below : s.rxOverflow = false → ∀ d ∈ s.deliveredCounts, d < s.rxDeliv
  wrapped : s.rxOverflow = true → s.rxDeliv = 0 ∧ s.deliveredCounts ≠ []

/-- The invariant between two calls, as long as t-Reordering has not expired. -/
structure RxInv (s : PdcpNr) : Prop where
  sequenced : Sequenced s
  next : Waiting s s.rxNext
  reord : s.reorderingTimer = .running →
    (s.rxOverflow = false → s.rxDeliv < s.rxReord) ∧ Waiting s s.rxReord

theorem rxInv_init (snLen : SnLen) (rbType : RbType) (tReordering : Nat) :
    RxInv (init snLen rbType tReordering) where
  sequenced := ⟨Nat.two_pow_pos 32, .nil, nofun, nofun⟩
  next := nofun
  reord := nofun

/-! ### Delivery in sequence -/

theorem deliveredCounts_deliverOne (s : PdcpNr) (count : Nat) (sdu : Bytes) :
    (s.deliverOne count sdu).deliveredCounts = s.deliveredCounts ++ [count] := by
  unfold deliverOne deliveredCounts
  split <;> exact List.map_append

theorem rxDeliv_deliverOne (s : PdcpNr) (count : Nat) (sdu : Bytes) :
    (s.deliverOne count sdu).rxDeliv = (s.rxDeliv + 1) % 2 ^ 32 := by
  unfold deliverOne
  split <;> rfl

theorem rxOverflow_deliverOne {s : PdcpNr} (h : s.rxOverflow = false) (count : Nat) (sdu : Bytes) :
    (s.deliverOne count sdu).rxOverflow = decide ((s.rxDeliv + 1) % 2 ^ 32 = 0) := by
  unfold deliverOne
  split
  · exact (decide_eq_true ‹_›).symm
  · exact h.trans (decide_eq_false ‹_›).symm

theorem reorderQueue_deliverOne (s : PdcpNr) (count : Nat) (sdu : Bytes) :
    (s.deliverOne count sdu).reorderQueue = s.reorderQueue.erase count := by
  unfold deliverOne
  split <;> rfl

theorem Sequenced.deliverOne {s : PdcpNr} (h : Sequenced s) (hover : s.rxOverflow = false)
    (sdu : Bytes) : Sequenced (s.deliverOne s.rxDeliv sdu) where
  delivLt := by
    rw [rxDeliv_deliverOne]
    exact Nat.mod_lt _ (Nat.two_pow_pos 32)
  sorted := by
    rw [deliveredCounts_deliverOne]
    refine List.pairwise_append.mpr ⟨h.sorted, List.pairwise_singleton _ _, fun d hd d' hd' => ?_⟩
    rw [List.mem_singleton.mp hd']
    exact h.below hover d hd
  below := by
    intro hover' d hd
    have hdeliv := h.delivLt
    rw [rxOverflow_deliverOne hover, decide_eq_false_iff_not] at hover'
    have hnext : (s.rxDeliv + 1) % 2 ^ 32 = s.rxDeliv + 1 := by omega
    rw [rxDeliv_deliverOne, hnext]
    rw [deliveredCounts_deliverOne] at hd
    rcases List.mem_append.mp hd with hd | hd
    · exact Nat.lt_succ_of_lt (h.below hover d hd)
    · rw [List.mem_singleton.mp hd]
      exact Nat.lt_succ_self _
  wrapped := by
    intro hover'
    rw [rxOverflow_deliverOne hover, decide_eq_true_eq] at hover'
    rw [rxDeliv_deliverOne, deliveredCounts_deliverOne]
    exact ⟨hover', List.append_ne_nil_of_right_ne_nil _ (List.cons_ne_nil _ _)⟩

/-- A delivery takes no PDU out of the queue that is still waited for. -/
theorem Waiting.deliverOne {s : PdcpNr} {count : Nat} (h : Waiting s count)
    (hlt : s.rxDeliv < 2 ^ 32) (hover : s.rxOverflow = false) (sdu : Bytes) :
    Waiting (s.deliverOne s.rxDeliv sdu) count := by
  intro hover' hdeliv
  rw [rxOverflow_deliverOne hover, decide_eq_false_iff_not] at hover'
  have hnext : (s.rxDeliv + 1) % 2 ^ 32 = s.rxDeliv + 1 := by omega
  rw [rxDeliv_deliverOne, hnext] at hdeliv
  rw [reorderQueue_deliverOne, OrdMap.find?_erase_ne _ (by omega)]
  exact h hover (by omega)

/-- Nothing is delivered in sequence behind an overflow. -/
theorem deliverConsecutive_of_overflow {s : PdcpNr} (h : s.rxOverflow = true)
    (es : List (Nat × Bytes)) : deliverConsecutive es s = s := by
  cases es with
  | nil => rfl
  | cons e rest =>
    unfold deliverConsecutive
    rw [if_pos h, ite_self]

/-- The fields that delivery in sequence leaves alone. -/
structure SameTimer (s s' : PdcpNr) : Prop where
  rxNext : s'.rxNext = s.rxNext
  rxReord : s'.rxReord = s.rxReord
  reorderingTimer : s'.reorderingTimer = s.reorderingTimer

theorem sameTimer_deliverOne (s : PdcpNr) (count : Nat) (sdu : Bytes) :
    SameTimer s (s.deliverOne count sdu) := by
  unfold deliverOne
  split <;> exact ⟨rfl, rfl, rfl⟩

theorem deliverConsecutive_keeps (es : List (Nat × Bytes)) {s : PdcpNr} (h : Sequenced s) :
    Sequenced (deliverConsecutive es s) ∧ SameTimer s (deliverConsecutive es s) ∧
      ∀ count, Waiting s count → Waiting (deliverConsecutive es s) count := by
  induction es generalizing s with
  | nil => exact ⟨h, ⟨rfl, rfl, rfl⟩, fun _ hw => hw⟩
  | cons e rest ih =>
    obtain ⟨count, sdu⟩ := e
    unfold deliverConsecutive
    split
    · rename_i heq
      split
      · exact ⟨h, ⟨rfl, rfl, rfl⟩, fun _ hw => hw⟩
      · rename_i hover
        rw [Bool.not_eq_true] at hover
        subst heq
        obtain ⟨hseq, htimer, hwait⟩ := ih (h.deliverOne hover sdu)
        have hone := sameTimer_deliverOne s s.rxDeliv sdu
        exact ⟨hseq, ⟨htimer.rxNext.trans hone.rxNext, htimer.rxReord.trans hone.rxReord,
          htimer.reorderingTimer.trans hone.reorderingTimer⟩,
          fun c hw => hwait c (hw.deliverOne h.delivLt hover sdu)⟩
    · exact ⟨h, ⟨rfl, rfl, rfl⟩, fun _ hw => hw⟩

/-! ### Reception -/

/-- The two timer checks at the end of `write_pdu`. -/
theorem rxInv_timer {s : PdcpNr} (hseq : Sequenced s) (hnext : Waiting s s.rxNext)
    (hreord : s.reorderingTimer = .running → Waiting s s.rxReord) :
    RxInv s.stopReordering.startReordering := by
  have hrun : ∀ t : PdcpNr, Sequenced t → Waiting t t.rxNext →
      (t.reorderingTimer = .running →
        (t.rxOverflow = false → t.rxDeliv < t.rxReord) ∧ Waiting t t.rxReord) →
      RxInv t.startReordering := by
    intro t ht hn hr
    unfold startReordering
    split
    · rename_i hstart
      simp only [Bool.and_eq_true, decide_eq_true_eq] at hstart
      have hlt : t.rxDeliv < t.rxNext := hstart.2
      exact ⟨⟨ht.delivLt, ht.sorted, ht.below, ht.wrapped⟩, hn, fun _ => ⟨fun _ => hlt, hn⟩⟩
    · exact ⟨ht, hn, hr⟩
  unfold stopReordering
  split
  · refine hrun _ ⟨hseq.delivLt, hseq.sorted, hseq.below, hseq.wrapped⟩ hnext fun hrunning => ?_
    -- A timer that was stopped does not run.
    simp only [TimerState.stop, TimerState.isRunning] at hrunning
    cases htimer : s.reorderingTimer <;> simp [htimer] at hrunning
  · rename_i hstop
    refine hrun s hseq hnext fun hrunning => ⟨fun _ => ?_, hreord hrunning⟩
    simpa [hrunning, TimerState.isRunning] using hstop

theorem receive_eq (s : PdcpNr) (count : Nat) (sdu : Bytes) :
    s.receive count sdu = (if count = s.rxDeliv then (s.store count sdu).deliverAllConsecutiveCounts
      else s.store count sdu).stopReordering.startReordering := rfl

/-- A new PDU keeps the invariant. -/
theorem RxInv.receive {s : PdcpNr} (h : RxInv s) {count : Nat} (hlt : count < 2 ^ 32)
    (sdu : Bytes) : RxInv (s.receive count sdu) := by
  have hseq : Sequenced (s.store count sdu) :=
    ⟨h.sequenced.delivLt, h.sequenced.sorted, h.sequenced.below, h.sequenced.wrapped⟩
  have hkeep : ∀ c, Waiting s c → Waiting (s.store count sdu) c := by
    intro c hw hover hc
    obtain ⟨old, hold⟩ := hw hover hc
    show ∃ sdu', (s.reorderQueue.insert count sdu).find? (c - 1) = some sdu'
    rw [OrdMap.find?_insert]
    split
    · exact ⟨sdu, rfl⟩
    · exact ⟨old, hold⟩
  have hnext : Waiting (s.store count sdu) (s.store count sdu).rxNext := by
    by_cases hge : count ≥ s.rxNext
    · intro hover hc
      have hrx : (s.store count sdu).rxNext = (count + 1) % 2 ^ 32 := if_pos hge
      rw [hrx] at hc ⊢
      -- `RX_NEXT` is behind the PDU, unless it wraps.
      have hsucc : (count + 1) % 2 ^ 32 - 1 = count := by omega
      refine ⟨sdu, ?_⟩
      rw [hsucc]
      exact OrdMap.find?_insert_self _ _ _
    · have hrx : (s.store count sdu).rxNext = s.rxNext := if_neg hge
      rw [hrx]
      exact hkeep _ h.next
  have hreord : (s.store count sdu).reorderingTimer = .running →
      Waiting (s.store count sdu) (s.store count sdu).rxReord :=
    fun hrunning => hkeep _ (h.reord hrunning).2
  rw [receive_eq]
  split
  · obtain ⟨hseq', htimer, hwait⟩ :=
      deliverConsecutive_keeps (s.store count sdu).reorderQueue.entries hseq
    refine rxInv_timer hseq' ?_ fun hrunning => ?_
    · show Waiting (deliverConsecutive _ _) (deliverConsecutive _ _).rxNext
      rw [htimer.rxNext]
      exact hwait _ hnext
    · show Waiting (deliverConsecutive _ _) (deliverConsecutive _ _).rxReord
      rw [htimer.rxReord]
      exact hwait _ (hreord (htimer.reorderingTimer ▸ hrunning))
  · exact rxInv_timer hseq hnext hreord

theorem delivered_timer (s : PdcpNr) :
    s.stopReordering.startReordering.delivered = s.delivered := by
  have hstop : s.stopReordering.delivered = s.delivered := by
    unfold stopReordering
    split <;> rfl
  rw [← hstop]
  unfold startReordering
  split <;> rfl

/-- Behind an overflow a new PDU gives no SDU. -/
theorem delivered_receive_of_overflow {s : PdcpNr} (h : s.rxOverflow = true) (count : Nat)
    (sdu : Bytes) : (s.receive count sdu).delivered = s.delivered := by
  rw [receive_eq, delivered_timer]
  split
  · have hstore : (s.store count sdu).rxOverflow = true := h
    rw [deliverAllConsecutiveCounts, deliverConsecutive_of_overflow hstore]
    rfl
  · rfl

theorem rcvdCount_lt (s : PdcpNr) (pdu : Bytes) : s.rcvdCount pdu < 2 ^ 32 := by
  refine s.snLen.count_lt _ ?_
  unfold readDataHeader
  split
  · exact s.snLen.nofSns_pos
  · cases s.snLen <;> exact SnLen.sn_lt _ _

/-- A PDU is dropped, or it is new. -/
theorem writePdu_cases (sec : Security) (s : PdcpNr) (pdu : Bytes) :
    s.writePdu sec pdu = s ∨ ∃ sdu, s.rxDeliv ≤ s.rcvdCount pdu ∧
      s.writePdu sec pdu = s.receive (s.rcvdCount pdu) sdu := by
  unfold writePdu
  split
  · exact .inl rfl
  · simp only
    split
    · exact .inl rfl
    · split
      · exact .inl rfl
      · rename_i hnot
        split
        · exact .inl rfl
        · exact .inr ⟨_, Nat.le_of_not_lt hnot, rfl⟩

/-- A PDU keeps the invariant and the order. -/
theorem RxInv.writePdu {sec : Security} {s : PdcpNr} (h : RxInv s) (pdu : Bytes) :
    RxInv (s.writePdu sec pdu) ∧ InOrder sec s (.writePdu pdu) := by
  rcases s.writePdu_cases sec pdu with heq | ⟨sdu, hdeliv, heq⟩
  · have hinv : RxInv (s.writePdu sec pdu) := by
      rw [heq]
      exact h
    exact ⟨hinv, hinv.sequenced.sorted, fun _ => by rw [heq]⟩
  · have hinv : RxInv (s.writePdu sec pdu) := by
      rw [heq]
      exact h.receive (s.rcvdCount_lt pdu) sdu
    refine ⟨hinv, hinv.sequenced.sorted, ?_⟩
    rintro ⟨d, hd, hle⟩
    cases hover : s.rxOverflow with
    | true => rw [heq, delivered_receive_of_overflow hover]
    | false =>
      have hlt := h.sequenced.below hover d hd
      omega

/-! ### Expiry -/

/-- The loop of `reordering_callback`. It delivers what is below `RX_REORD` and does not move
`RX_DELIV`. -/
theorem deliverBelow_spec (es : List (Nat × Bytes)) {s : PdcpNr} (h : s.reorderQueue.entries = es) :
    (deliverBelow es s).rxDeliv = s.rxDeliv ∧
      (deliverBelow es s).rxOverflow = s.rxOverflow ∧
      (∀ e ∈ s.delivered, e ∈ (deliverBelow es s).delivered) ∧
      (∀ e ∈ es, e.1 < s.rxReord → e ∈ (deliverBelow es s).delivered) ∧
      ∀ e ∈ (deliverBelow es s).reorderQueue.entries, s.rxReord ≤ e.1 := by
  induction es generalizing s with
  | nil => exact ⟨rfl, rfl, fun _ he => he, nofun, fun e he => absurd (h ▸ he) List.not_mem_nil⟩
  | cons e rest ih =>
    obtain ⟨count, sdu⟩ := e
    have hsorted := s.reorderQueue.sorted
    rw [h] at hsorted
    have hrest := (List.pairwise_cons.mp hsorted).1
    unfold deliverBelow
    split
    · obtain ⟨hdeliv, hover, hold, hnew, hqueue⟩ :=
        ih (s := { s.passToUpperLayers count sdu with reorderQueue := s.reorderQueue.erase count })
          (OrdMap.entries_erase_head h)
      refine ⟨hdeliv, hover, fun e he => hold e (List.mem_append_left _ he), fun e he hlt => ?_,
        hqueue⟩
      rcases List.mem_cons.mp he with rfl | he
      · exact hold _ (List.mem_append_right _ (List.mem_singleton.mpr rfl))
      · exact hnew e he hlt
    · rename_i hge
      have hall : ∀ e ∈ (count, sdu) :: rest, s.rxReord ≤ e.1 := by
        intro e he
        rcases List.mem_cons.mp he with rfl | he
        · exact Nat.le_of_not_lt hge
        · exact Nat.le_of_lt (Nat.lt_of_le_of_lt (Nat.le_of_not_lt hge) (hrest e he))
      exact ⟨rfl, rfl, fun _ he => he, fun e he hlt => absurd hlt (Nat.not_lt_of_le (hall e he)),
        fun e he => hall e (h ▸ he)⟩

/-- `RX_DELIV` stays where it was when nothing waits for it. -/
theorem deliverConsecutive_of_lt {es : List (Nat × Bytes)} {s : PdcpNr}
    (h : ∀ e ∈ es, s.rxDeliv < e.1) : deliverConsecutive es s = s := by
  cases es with
  | nil => rfl
  | cons e rest =>
    unfold deliverConsecutive
    rw [if_neg (ne_of_gt (h e List.mem_cons_self))]

/-- Each expiry leaves `RX_DELIV` at or below an SDU that was delivered. -/
theorem not_inOrder_expire {sec : Security} {s : PdcpNr} (h : RxInv s) (hexpire : s.canExpire = true) :
    ¬ InOrder sec s .expire := by
  rintro ⟨-, habove⟩
  have habove := habove hexpire
  simp only [canExpire, Bool.and_eq_true] at hexpire
  have hrunning : s.reorderingTimer = .running := by simpa [TimerState.isRunning] using hexpire.1
  obtain ⟨hlt, hwait⟩ := h.reord hrunning
  have hentries : ({ s with reorderingTimer := .expired } : PdcpNr).reorderQueue.entries
      = s.reorderQueue.entries := rfl
  obtain ⟨hdeliv, hover, hold, hnew, hqueue⟩ :=
    deliverBelow_spec s.reorderQueue.entries (s := { s with reorderingTimer := .expired }) hentries
  generalize hs' : deliverBelow s.reorderQueue.entries { s with reorderingTimer := .expired } = s'
    at hdeliv hover hold hnew hqueue
  -- The delivery in sequence finds nothing at `RX_DELIV`.
  have hnone : s'.deliverAllConsecutiveCounts = s' := by
    cases hcase : s.rxOverflow with
    | true => exact deliverConsecutive_of_overflow (hover.trans hcase) _
    | false =>
      refine deliverConsecutive_of_lt fun e he => ?_
      rw [hdeliv]
      exact Nat.lt_of_lt_of_le (hlt hcase) (hqueue e he)
  have hexp : s.expire.delivered = s'.delivered ∧ s.expire.rxDeliv = s.rxDeliv := by
    have hcan : s.canExpire = true := by simpa [canExpire] using hexpire
    unfold expire reorderingCallback
    rw [if_pos hcan]
    show (if (deliverBelow s.reorderQueue.entries _).deliverAllConsecutiveCounts.rxDeliv < _ then _
      else _ : PdcpNr).delivered = _ ∧ (if _ then _ else _ : PdcpNr).rxDeliv = _
    rw [hs', hnone]
    split
    · exact ⟨rfl, hdeliv⟩
    · exact ⟨rfl, hdeliv⟩
  have hbehind : ∃ e ∈ s'.delivered, s.rxDeliv ≤ e.1 := by
    cases hcase : s.rxOverflow with
    | true =>
      obtain ⟨hzero, hne⟩ := h.sequenced.wrapped hcase
      obtain ⟨d, hd⟩ := List.exists_mem_of_ne_nil _ hne
      obtain ⟨e, he, -⟩ := List.mem_map.mp hd
      exact ⟨e, hold e he, by rw [hzero]; exact Nat.zero_le _⟩
    | false =>
      have hreord := hlt hcase
      obtain ⟨sdu, hsdu⟩ := hwait hcase hreord
      have hmem := (s.reorderQueue.mem_entries_iff _ _).mpr hsdu
      refine ⟨_, hnew _ hmem ?_, ?_⟩
      · show s.rxReord - 1 < s.rxReord
        omega
      · show s.rxDeliv ≤ s.rxReord - 1
        omega
  obtain ⟨e, he, hle⟩ := hbehind
  have := habove e.1 (List.mem_map_of_mem (by rw [hexp.1]; exact he))
  rw [hexp.2] at this
  omega

/-! ### Every run -/

/-- A call keeps the order if and only if t-Reordering does not expire in it. -/
theorem inOrder_iff_noExpiry {sec : Security} {s : PdcpNr} (h : RxInv s) (op : RxOp) :
    InOrder sec s op ↔ NoExpiry s op := by
  cases op with
  | writePdu pdu => exact ⟨fun _ => nofun, fun _ => (h.writePdu pdu).2⟩
  | expire =>
    constructor
    · intro hin _
      cases hcan : s.canExpire with
      | true => exact absurd hin (not_inOrder_expire h hcan)
      | false => rfl
    · intro hno
      have hcan := hno rfl
      have hsame : s.expire = s := by
        unfold expire
        rw [hcan, if_neg Bool.false_ne_true]
      refine ⟨?_, fun htrue => absurd (hcan.symm.trans htrue) Bool.false_ne_true⟩
      show s.expire.deliveredCounts.Pairwise (· < ·)
      rw [hsame]
      exact h.sequenced.sorted

theorem rxInv_step {sec : Security} {s : PdcpNr} (h : RxInv s) {op : RxOp} (hop : NoExpiry s op) :
    RxInv (s.rxStep sec op) := by
  cases op with
  | writePdu pdu => exact (h.writePdu pdu).1
  | expire =>
    show RxInv s.expire
    unfold expire
    rw [hop rfl, if_neg Bool.false_ne_true]
    exact h

/-- The entity delivers in order in every call of a run if and only if t-Reordering does not
expire in the run. -/
theorem inOrder_iff (sec : Security) (snLen : SnLen) (rbType : RbType) (tReordering : Nat)
    (ops : List RxOp) :
    ExecWithin (rxStep sec) (InOrder sec) (init snLen rbType tReordering) ops ↔
      ExecWithin (rxStep sec) NoExpiry (init snLen rbType tReordering) ops :=
  execWithin_iff_of_invariant RxInv (fun _ op h => inOrder_iff_noExpiry h op)
    (fun _ _ h hop => rxInv_step h hop) ops _ (rxInv_init snLen rbType tReordering)

/-- The PDU with COUNT 1 comes first, and t-Reordering expires. The PDU with COUNT 0 is then
delivered behind it. -/
theorem not_inOrder_expiry :
    ¬ ExecWithin (rxStep .none) (InOrder .none) (init .len12 .drb 500)
      [.writePdu [128, 1, 7, 0, 0, 0, 0], .expire, .writePdu [128, 0, 8, 0, 0, 0, 0]] := by
  rintro ⟨-, -, ⟨hsorted, -⟩, -⟩
  exact absurd hsorted (by decide)

end Odss.Pdcp.PdcpNr
