import Odss.Pdcp.EntityLte
import Mathlib.Data.Nat.Bitwise

/-!
# `Odss.Proofs.PdcpLteStatus`: the status reports of LTE PDCP

`sendStatusReport` puts the COUNTs behind FMC that were received into a bitmap.
`handleStatusReportPdu` removes the SDUs with an SN below FMS, and those of the bitmap.

`RxCounts` is the invariant of `updateRxCountsQueue`, and `rxCounts_receiver` has it for every
history of distinct COUNTs. `testBit_foldl_setBit` reads a bit of the bitmap. `Reported` puts
together which SNs the peer removes. `acknowledges_iff` states when these are the SNs of the
received COUNTs.

They are not in four cases. The reader takes bit `8 - j` of a byte for its place `j`, so it
never sees every eighth COUNT, and reads behind the byte in its place. It takes 14 bits of an
FMS of 18 bits. It compares SNs with FMS without regard to a wrap, and it adds places to FMS
without one.
-/

set_option linter.all false

namespace Odss.Pdcp.PdcpLte

open Odss.Lib Odss.Rlc

/-! ### The received COUNTs -/

/-- The receiver after the COUNTs of a history, in their order. -/
def receiver (cfg : LteConfig) (received : List Nat) : PdcpLte :=
  received.foldl updateRxCountsQueue (init cfg)

/-- The queue has COUNTs of the history behind FMC, the largest one in front. -/
structure RxCounts (received : List Nat) (s : PdcpLte) : Prop where
  fmc_lt : s.fmc < 2 ^ 32
  largest_lt : s.largestRxCount < 2 ^ 32
  sorted : s.rxCountsInfo.Pairwise (· > ·)
  behind : ∀ c ∈ s.rxCountsInfo, s.fmc < c
  le_largest : ∀ c ∈ s.rxCountsInfo, c ≤ s.largestRxCount
  received : ∀ c ∈ s.rxCountsInfo, c ∈ received

theorem rxCounts_init (cfg : LteConfig) : RxCounts [] (init cfg) :=
  ⟨Nat.two_pow_pos 32, Nat.two_pow_pos 32, .nil, nofun, nofun, nofun⟩

/-- What is left behind the COUNTs in sequence is behind the new FMC. -/
theorem popReceived_spec {l : List Nat} {fmc : Nat} (hsorted : l.Pairwise (· < ·))
    (hge : ∀ c ∈ l, fmc ≤ c) (hlt : fmc < 2 ^ 32) :
    (popReceived l fmc).2 < 2 ^ 32 ∧ (∀ c ∈ (popReceived l fmc).1, (popReceived l fmc).2 < c) ∧
      (popReceived l fmc).1 <:+ l := by
  induction l generalizing fmc with
  | nil => exact ⟨hlt, nofun, List.suffix_refl _⟩
  | cons c cs ih =>
    have hbehind : ∀ d ∈ cs, c < d := fun d hd => List.rel_of_pairwise_cons hsorted hd
    by_cases hc : c = fmc
    · -- The next FMC wraps behind the last COUNT, and no COUNT is left then.
      have hnext : ∀ d ∈ cs, (fmc + 1) % 2 ^ 32 ≤ d := by
        intro d hd
        have hd' := hbehind d hd
        exact Nat.le_trans (Nat.mod_le _ _) (by omega)
      obtain ⟨hfmc, hrest, hsuffix⟩ := ih hsorted.of_cons hnext (Nat.mod_lt _ (by decide))
      simp only [popReceived, if_pos hc]
      exact ⟨hfmc, hrest, hsuffix.trans (List.suffix_cons c cs)⟩
    · simp only [popReceived, if_neg hc]
      have hlt' : fmc < c := Nat.lt_of_le_of_ne (hge c List.mem_cons_self) (Ne.symm hc)
      refine ⟨hlt, fun d hd => ?_, List.suffix_refl _⟩
      rcases List.mem_cons.mp hd with rfl | hd
      · exact hlt'
      · exact Nat.lt_trans hlt' (hbehind d hd)

/-- The loop keeps the invariant from every FMC that is not behind a COUNT of the queue. -/
theorem rxCounts_skipReceived {received : List Nat} {s : PdcpLte} {fmc : Nat}
    (hlargest : s.largestRxCount < 2 ^ 32) (hsorted : s.rxCountsInfo.Pairwise (· > ·))
    (hle : ∀ c ∈ s.rxCountsInfo, c ≤ s.largestRxCount)
    (hreceived : ∀ c ∈ s.rxCountsInfo, c ∈ received) (hge : ∀ c ∈ s.rxCountsInfo, fmc ≤ c)
    (hlt : fmc < 2 ^ 32) : RxCounts received (s.skipReceived fmc) := by
  obtain ⟨hfmc, hrest, hsuffix⟩ := popReceived_spec (List.pairwise_reverse.mpr hsorted)
    (fun c hc => hge c (List.mem_reverse.mp hc)) hlt
  have hmem : ∀ c ∈ (popReceived s.rxCountsInfo.reverse fmc).1.reverse, c ∈ s.rxCountsInfo :=
    fun c hc => List.mem_reverse.mp (hsuffix.subset (List.mem_reverse.mp hc))
  exact {
    fmc_lt := hfmc
    largest_lt := hlargest
    sorted := List.pairwise_reverse.mpr
      ((List.pairwise_reverse.mpr hsorted).sublist hsuffix.sublist)
    behind := fun c hc => hrest c (List.mem_reverse.mp hc)
    le_largest := fun c hc => hle c (hmem c hc)
    received := fun c hc => hreceived c (hmem c hc) }

theorem RxCounts.shortenRxCounts {received : List Nat} {s : PdcpLte} (h : RxCounts received s) :
    RxCounts received s.shortenRxCounts := by
  unfold PdcpLte.shortenRxCounts
  split
  · cases hlast : s.rxCountsInfo.getLast? with
    | none =>
      exact rxCounts_skipReceived h.largest_lt h.sorted h.le_largest h.received
        (fun c hc => Nat.le_of_lt (h.behind c hc)) h.fmc_lt
    | some last =>
      -- The last COUNT of the queue is the smallest one.
      obtain ⟨front, hfront⟩ := List.getLast?_eq_some_iff.mp hlast
      have hmem : last ∈ s.rxCountsInfo := by simp [hfront]
      refine rxCounts_skipReceived h.largest_lt h.sorted h.le_largest h.received ?_
        (Nat.lt_of_le_of_lt (h.le_largest last hmem) h.largest_lt)
      intro c hc
      have hsorted := h.sorted
      rw [hfront, List.pairwise_append] at hsorted
      rw [hfront, List.mem_append, List.mem_singleton] at hc
      rcases hc with hc | rfl
      · exact Nat.le_of_lt (hsorted.2.2 c hc last (List.mem_singleton_self _))
      · exact Nat.le_refl _
  · exact h

/-- Another COUNT of the history keeps the invariant. -/
theorem RxCounts.updateRxCountsQueue {received : List Nat} {s : PdcpLte} (h : RxCounts received s)
    {count : Nat} (hlt : count < 2 ^ 32) (hnew : count ∉ received) :
    RxCounts (received ++ [count]) (s.updateRxCountsQueue count) := by
  have hmem : ∀ c ∈ s.rxCountsInfo, c ∈ received ++ [count] :=
    fun c hc => List.mem_append_left _ (h.received c hc)
  have hlargest : max s.largestRxCount count < 2 ^ 32 := Nat.max_lt.mpr ⟨h.largest_lt, hlt⟩
  have hle : ∀ c ∈ s.rxCountsInfo, c ≤ max s.largestRxCount count :=
    fun c hc => Nat.le_trans (h.le_largest c hc) (Nat.le_max_left _ _)
  unfold PdcpLte.updateRxCountsQueue
  by_cases hold : count < s.fmc
  · rw [if_pos hold]
    exact ⟨h.fmc_lt, h.largest_lt, h.sorted, h.behind, h.le_largest, hmem⟩
  · rw [if_neg hold]
    refine RxCounts.shortenRxCounts ?_
    by_cases hfmc : count = s.fmc
    · simp only [if_pos hfmc]
      refine rxCounts_skipReceived hlargest h.sorted hle hmem ?_ (Nat.mod_lt _ (by decide))
      intro c hc
      exact Nat.le_trans (Nat.mod_le _ _) (h.behind c hc)
    · simp only [if_neg hfmc]
      have hperm := List.perm_insertionSort (· ≥ ·) (s.rxCountsInfo ++ [count])
      have hcases : ∀ c ∈ (s.rxCountsInfo ++ [count]).insertionSort (· ≥ ·),
          c ∈ s.rxCountsInfo ∨ c = count := by
        intro c hc
        simpa using hperm.subset hc
      -- The COUNT is new, so that the sorted queue has no COUNT twice.
      have hnodup : ((s.rxCountsInfo ++ [count]).insertionSort (· ≥ ·)).Nodup := by
        refine hperm.nodup_iff.mpr (List.nodup_append.mpr
          ⟨h.sorted.imp Nat.ne_of_gt, List.nodup_singleton _, ?_⟩)
        intro c hc d hd hcd
        rw [List.mem_singleton] at hd
        exact hnew (hd ▸ hcd ▸ h.received c hc)
      exact {
        fmc_lt := h.fmc_lt
        largest_lt := hlargest
        sorted := ((List.pairwise_insertionSort (· ≥ ·) _).and hnodup).imp fun ⟨hge, hne⟩ =>
          Nat.lt_of_le_of_ne hge (Ne.symm hne)
        behind := by
          intro c hc
          rcases hcases c hc with hc | rfl
          · exact h.behind c hc
          · exact Nat.lt_of_le_of_ne (Nat.le_of_not_lt hold) (Ne.symm hfmc)
        le_largest := by
          intro c hc
          rcases hcases c hc with hc | rfl
          · exact hle c hc
          · exact Nat.le_max_right _ _
        received := by
          intro c hc
          rcases hcases c hc with hc | rfl
          · exact hmem c hc
          · simp }

/-- Every history of distinct COUNTs leads to the invariant. -/
theorem rxCounts_receiver (cfg : LteConfig) {received : List Nat} (hnodup : received.Nodup)
    (hlt : ∀ c ∈ received, c < 2 ^ 32) : RxCounts received (receiver cfg received) := by
  induction received using List.reverseRecOn with
  | nil => exact rxCounts_init cfg
  | append_singleton received count ih =>
    have hparts := List.nodup_append.mp hnodup
    have hrun := ih hparts.1 fun c hc => hlt c (List.mem_append_left _ hc)
    rw [receiver, List.foldl_append]
    exact hrun.updateRxCountsQueue (hlt count (by simp))
      fun hmem => hparts.2.2 count hmem count (List.mem_singleton_self _) rfl

@[simp] theorem cfg_updateRxCountsQueue (s : PdcpLte) (count : Nat) :
    (s.updateRxCountsQueue count).cfg = s.cfg := by
  unfold updateRxCountsQueue shortenRxCounts skipReceived
  grind

theorem cfg_receiver (cfg : LteConfig) (received : List Nat) :
    (receiver cfg received).cfg = cfg := by
  induction received using List.reverseRecOn with
  | nil => rfl
  | append_singleton received count ih =>
    rw [receiver, List.foldl_append]
    show ((receiver cfg received).updateRxCountsQueue count).cfg = cfg
    rw [cfg_updateRxCountsQueue, ih]

/-! ### The bitmap -/

theorem testBit_setBit {fmc count : Nat} (hbehind : fmc < count) (b : Bytes) {i p : Nat}
    (hp : p < 8) :
    ((setBit fmc b count).getD i 0).toNat.testBit p
      = ((b.getD i 0).toNat.testBit p
        || (decide (i < b.length) && decide (fmc + 8 * i + (8 - p) = count))) := by
  have hoffset : subU32 count (fmc + 1) = count - (fmc + 1) := if_pos hbehind
  simp only [setBit, hoffset, List.getD_eq_getElem?_getD, List.getElem?_modify]
  by_cases hi : i < b.length
  · simp only [List.getElem?_eq_getElem hi, Option.map_eq_map, Option.map_some, Option.getD_some,
      hi, decide_true, Bool.true_and]
    by_cases hbyte : (count - (fmc + 1)) / 8 = i
    · rw [if_pos hbyte, UInt8.toNat_or, Nat.testBit_or]
      have hpow : (UInt8.ofNat (2 ^ (7 - (count - (fmc + 1)) % 8))).toNat
          = 2 ^ (7 - (count - (fmc + 1)) % 8) := by
        rw [UInt8.toNat_ofNat', Nat.mod_eq_of_lt]
        exact Nat.pow_lt_pow_right (by decide) (by omega)
      rw [hpow, Nat.testBit_two_pow]
      congr 1
      exact decide_eq_decide.mpr (by omega)
    · have hne : fmc + 8 * i + (8 - p) ≠ count := by omega
      simp [hbyte, hne]
  · simp [hi]

/-- The bits of the bitmap are those of the COUNTs. -/
theorem testBit_foldl_setBit {fmc : Nat} (counts : List Nat) (hbehind : ∀ c ∈ counts, fmc < c)
    (b : Bytes) {i p : Nat} (hp : p < 8) :
    ((counts.foldl (setBit fmc) b).getD i 0).toNat.testBit p
      = ((b.getD i 0).toNat.testBit p
        || (decide (i < b.length) && decide (fmc + 8 * i + (8 - p) ∈ counts))) := by
  induction counts generalizing b with
  | nil => simp
  | cons count counts ih =>
    have hlength : (setBit fmc b count).length = b.length := List.length_modify ..
    rw [List.foldl_cons, ih fun c hc => hbehind c (List.mem_cons_of_mem _ hc),
      testBit_setBit (hbehind count List.mem_cons_self) b hp, hlength, Bool.or_assoc,
      ← Bool.and_or_distrib_left]
    simp only [List.mem_cons, Bool.decide_or]

theorem length_foldl_setBit (fmc : Nat) (counts : List Nat) (b : Bytes) :
    (counts.foldl (setBit fmc) b).length = b.length := by
  induction counts generalizing b with
  | nil => rfl
  | cons count counts ih =>
    rw [List.foldl_cons, ih]
    exact List.length_modify ..

/-- The number of bytes of the bitmap. -/
def bitmapBytes (s : PdcpLte) : Nat :=
  if s.rxCountsInfo.isEmpty then 0 else bitmapSize (subU32 s.largestRxCount (subU32 s.fmc 1))

/-- Byte `i` of the bitmap. Bit `p` is that of the COUNT `8 - p` places behind the first one of
the byte. -/
def bitmapByte (s : PdcpLte) (i : Nat) : UInt8 :=
  UInt8.ofNat (Nat.ofBits fun p : Fin 8 => decide (s.fmc + 8 * i + (8 - p) ∈ s.rxCountsInfo))

/-- The bitmap that a report has behind its header. -/
def bitmap (s : PdcpLte) : Bytes :=
  s.rxCountsInfo.foldl (setBit s.fmc) (List.replicate s.bitmapBytes 0)

theorem length_bitmap (s : PdcpLte) : s.bitmap.length = s.bitmapBytes := by
  rw [bitmap, length_foldl_setBit, List.length_replicate]

theorem testBit_bitmap {s : PdcpLte} (hbehind : ∀ c ∈ s.rxCountsInfo, s.fmc < c) {i p : Nat}
    (hi : i < s.bitmapBytes) (hp : p < 8) :
    (s.bitmap.getD i 0).toNat.testBit p = decide (s.fmc + 8 * i + (8 - p) ∈ s.rxCountsInfo) := by
  rw [bitmap, testBit_foldl_setBit _ hbehind _ hp]
  simp [hi]

theorem getD_bitmap {s : PdcpLte} (hbehind : ∀ c ∈ s.rxCountsInfo, s.fmc < c) {i : Nat}
    (hi : i < s.bitmapBytes) : s.bitmap.getD i 0 = s.bitmapByte i := by
  have hbits := Nat.ofBits_lt_two_pow
    fun p : Fin 8 => decide (s.fmc + 8 * i + (8 - p) ∈ s.rxCountsInfo)
  refine UInt8.toNat_inj.mp (Nat.eq_of_testBit_eq fun p => ?_)
  rw [bitmapByte, UInt8.toNat_ofNat', Nat.mod_eq_of_lt hbits]
  by_cases hp : p < 8
  · rw [testBit_bitmap hbehind hi hp, Nat.testBit_ofBits_lt _ _ hp]
  · have hle : 2 ^ 8 ≤ 2 ^ p := Nat.pow_le_pow_right (by decide) (Nat.le_of_not_lt hp)
    rw [Nat.testBit_ofBits_ge _ _ (Nat.le_of_not_lt hp)]
    exact Nat.testBit_lt_two_pow (Nat.lt_of_lt_of_le (UInt8.toNat_lt _) hle)

/-! ### What the peer removes -/

/-- FMS as the reader finds it, which takes 14 bits of one of 18 bits. -/
def readableFms (s : PdcpLte) : Nat :=
  match s.cfg.snLen with
  | .len12 => s.fmc % 2 ^ 12
  | _ => s.fmc % 2 ^ 14

/-- The reader acknowledges the SN `k` places behind FMS: the COUNT is in the queue, and for every
eighth `k` the bit behind the end of a byte of the bitmap is set. -/
def Acked (outOfRange : UInt8 → Bool) (s : PdcpLte) (k : Nat) : Prop :=
  k / 8 < s.bitmapBytes ∧
    if k % 8 = 0 then outOfRange (s.bitmapByte (k / 8)) = true else s.fmc + k ∈ s.rxCountsInfo

/-- The reader of a report removes an SN: it is below FMS, or acknowledged behind it. -/
def Reported (outOfRange : UInt8 → Bool) (s : PdcpLte) (sn : Nat) : Prop :=
  sn < s.readableFms ∨ s.readableFms ≤ sn ∧ s.Acked outOfRange (sn - s.readableFms)

instance (outOfRange : UInt8 → Bool) (s : PdcpLte) (k : Nat) : Decidable (s.Acked outOfRange k) :=
  inferInstanceAs (Decidable (_ ∧ _))

instance (outOfRange : UInt8 → Bool) (s : PdcpLte) (sn : Nat) :
    Decidable (s.Reported outOfRange sn) :=
  inferInstanceAs (Decidable (_ ∨ _))

theorem mem_ackedSns {outOfRange : UInt8 → Bool} {fms i : Nat} {byte : UInt8} {sn : Nat} :
    sn ∈ ackedSns outOfRange fms i byte ↔
      ∃ j < 8, readBit outOfRange byte (8 - j) = true ∧ fms + i * 8 + j = sn := by
  simp [ackedSns, and_assoc]

theorem readBit_bitmap {outOfRange : UInt8 → Bool} {s : PdcpLte}
    (hbehind : ∀ c ∈ s.rxCountsInfo, s.fmc < c) {i j : Nat} (hi : i < s.bitmapBytes) (hj : j < 8) :
    readBit outOfRange (s.bitmap.getD i 0) (8 - j) = true ↔ s.Acked outOfRange (i * 8 + j) := by
  have hdiv : (i * 8 + j) / 8 = i := by omega
  have hmod : (i * 8 + j) % 8 = j := by omega
  unfold Acked readBit
  rw [hdiv, hmod]
  by_cases hzero : j = 0
  · rw [getD_bitmap hbehind hi]
    simp [hzero, hi]
  · have hcount : s.fmc + 8 * i + (8 - (8 - j)) = s.fmc + (i * 8 + j) := by omega
    rw [if_pos (show 8 - j < 8 by omega), if_neg hzero,
      testBit_bitmap hbehind hi (show 8 - j < 8 by omega), hcount]
    simp [hi]

theorem mem_reportedSns {outOfRange : UInt8 → Bool} {s : PdcpLte}
    (hbehind : ∀ c ∈ s.rxCountsInfo, s.fmc < c) (sn : Nat) :
    sn ∈ reportedSns outOfRange s.readableFms s.bitmap ↔ s.Reported outOfRange sn := by
  simp only [reportedSns, List.mem_append, List.mem_range, List.mem_flatMap, mem_ackedSns,
    length_bitmap, Reported]
  refine or_congr Iff.rfl ⟨?_, ?_⟩
  · rintro ⟨i, hi, j, hj, hbit, rfl⟩
    have hk : s.readableFms + i * 8 + j - s.readableFms = i * 8 + j := by omega
    rw [hk]
    exact ⟨by omega, (readBit_bitmap hbehind hi hj).mp hbit⟩
  · rintro ⟨hle, hacked⟩
    have hk : sn - s.readableFms = (sn - s.readableFms) / 8 * 8 + (sn - s.readableFms) % 8 :=
      (Nat.div_add_mod' _ 8).symm
    have hj : (sn - s.readableFms) % 8 < 8 := Nat.mod_lt _ (by decide)
    refine ⟨(sn - s.readableFms) / 8, hacked.1, (sn - s.readableFms) % 8, hj,
      (readBit_bitmap hbehind hacked.1 hj).mpr (hk ▸ hacked), by omega⟩

/-! ### The report -/

/-- A report is sent for the configuration: an AM DRB with reports and an SN length that has
them. -/
structure Reports (cfg : LteConfig) : Prop where
  amDrb : cfg.isAmDrb = true
  required : cfg.statusReportRequired = true
  snLen : cfg.snLen = .len12 ∨ cfg.snLen = .len18

/-- FMC and the largest COUNT are so far apart that no report is sent. -/
def FarApart (s : PdcpLte) : Prop :=
  s.rxCountsInfo ≠ [] ∧ 2 ^ 31 ≤ subU32 s.largestRxCount (subU32 s.fmc 1)

/-- The report and the place of each bit are in the buffer. -/
def FitsBuffer (s : PdcpLte) : Prop :=
  s.rxCountsInfo ≠ [] → s.cfg.snLen.hdrLenBytes + s.bitmapBytes ≤ bufferTailroom ∧
    ∀ c ∈ s.rxCountsInfo, s.cfg.snLen.hdrLenBytes + (c - (s.fmc + 1)) / 8 < bufferTailroom

instance (s : PdcpLte) : Decidable s.FarApart := inferInstanceAs (Decidable (_ ∧ _))

instance (s : PdcpLte) : Decidable s.FitsBuffer := inferInstanceAs (Decidable (_ → _))

theorem statusReportHeader_spec {cfg : LteConfig} (h : Reports cfg) (fms : Nat) :
    ∃ header, statusReportHeader cfg.snLen fms = some header ∧
      header.length = cfg.snLen.hdrLenBytes := by
  rcases h.snLen with hlen | hlen <;> rw [hlen]
  · exact ⟨_, rfl, by simp [SnLen.hdrLenBytes, SnLen.bits]⟩
  · exact ⟨_, rfl, by simp [SnLen.hdrLenBytes, SnLen.bits]⟩

/-- The reader finds FMS in front of the bitmap, but for the upper bits of a long one. -/
theorem readFms_header {s : PdcpLte} (h : Reports s.cfg) {header bitmap : Bytes}
    (hheader : statusReportHeader s.cfg.snLen (s.cfg.snLen.sn s.fmc) = some header) :
    readFms s.cfg.snLen (header ++ bitmap) = some (s.readableFms, s.cfg.snLen.hdrLenBytes) := by
  rcases h.snLen with hlen | hlen
  · rw [hlen] at hheader ⊢
    cases hheader
    have hfms : s.fmc % 4096 < 4096 := Nat.mod_lt _ (by decide)
    simp only [readFms, readableFms, hlen, SnLen.sn, SnLen.nofSns, SnLen.bits, SnLen.hdrLenBytes,
      List.cons_append, List.getD_cons_zero, List.getD_cons_succ, UInt8.toNat_ofNat']
    congr 2
    omega
  · rw [hlen] at hheader ⊢
    cases hheader
    simp only [readFms, readableFms, hlen, SnLen.sn, SnLen.nofSns, SnLen.bits, SnLen.hdrLenBytes,
      List.cons_append, List.getD_cons_zero, List.getD_cons_succ, UInt8.toNat_ofNat']
    congr 2
    omega

theorem sendStatusReport_cases {received : List Nat} {s : PdcpLte} (h : RxCounts received s)
    (hcfg : Reports s.cfg) {header : Bytes}
    (hheader : statusReportHeader s.cfg.snLen (s.cfg.snLen.sn s.fmc) = some header) :
    s.sendStatusReport =
      if s.FarApart then .notSent
      else if s.FitsBuffer then .sent (header ++ s.bitmap) else .overflow := by
  obtain ⟨header', hheader', hlength⟩ := statusReportHeader_spec hcfg (s.cfg.snLen.sn s.fmc)
  have hlength : header.length = s.cfg.snLen.hdrLenBytes := by
    rw [hheader] at hheader'
    exact Option.some.inj hheader' ▸ hlength
  unfold sendStatusReport
  simp only [hcfg.amDrb, hcfg.required, hheader, Bool.not_true, Bool.or_false, Bool.false_eq_true,
    if_false]
  cases hinfo : s.rxCountsInfo with
  | nil => simp [FarApart, FitsBuffer, bitmap, bitmapBytes, hinfo]
  | cons c cs =>
    have hbytes : s.bitmapBytes = bitmapSize (subU32 s.largestRxCount (subU32 s.fmc 1)) := by
      rw [bitmapBytes, hinfo]
      rfl
    rw [← hinfo, ← hbytes, ← bitmap]
    have hne : s.rxCountsInfo ≠ [] := by simp [hinfo]
    have hempty : s.rxCountsInfo.isEmpty = false := by simp [hinfo]
    -- Each place of a bit is a difference without a wrap.
    have hany : s.rxCountsInfo.any
          (fun c => header.length + subU32 c (s.fmc + 1) / 8 ≥ bufferTailroom) = true ↔
        ¬ ∀ c ∈ s.rxCountsInfo,
          s.cfg.snLen.hdrLenBytes + (c - (s.fmc + 1)) / 8 < bufferTailroom := by
      simp only [List.any_eq_true, not_forall, exists_prop, Nat.not_lt]
      refine exists_congr fun c => and_congr_right fun hc => ?_
      have hoffset : subU32 c (s.fmc + 1) = c - (s.fmc + 1) := if_pos (h.behind c hc)
      rw [hoffset, hlength, decide_eq_true_iff]
    have hfar : s.FarApart ↔ subU32 s.largestRxCount (subU32 s.fmc 1) ≥ 2 ^ 31 :=
      ⟨fun h => h.2, fun h => ⟨hne, h⟩⟩
    have hfits : s.FitsBuffer ↔ ¬ (header.length + s.bitmapBytes > bufferTailroom ∨
        s.rxCountsInfo.any
          (fun c => header.length + subU32 c (s.fmc + 1) / 8 ≥ bufferTailroom) = true) := by
      rw [hany, not_or, not_not, Nat.not_lt, hlength]
      exact ⟨fun h => h hne, fun h _ => h⟩
    simp only [hempty, Bool.false_eq_true, if_false]
    by_cases hdiff : subU32 s.largestRxCount (subU32 s.fmc 1) ≥ 2 ^ 31
    · rw [if_pos hdiff, if_pos (hfar.mpr hdiff)]
    · rw [if_neg hdiff, if_neg (hdiff ∘ hfar.mp)]
      by_cases hbuffer : header.length + s.bitmapBytes > bufferTailroom ∨
          s.rxCountsInfo.any
            (fun c => header.length + subU32 c (s.fmc + 1) / 8 ≥ bufferTailroom) = true
      · rw [if_pos hbuffer, if_neg fun h => hfits.mp h hbuffer]
      · rw [if_neg hbuffer, if_pos (hfits.mpr hbuffer)]

/-- The peer removes the SDUs that `Reported` has. -/
theorem hasSdu_handleStatusReportPdu {outOfRange : UInt8 → Bool} {received : List Nat}
    {s t : PdcpLte} (h : RxCounts received s) (hcfg : Reports s.cfg) (ht : t.cfg.isAmDrb = true)
    (hsn : t.cfg.snLen = s.cfg.snLen) {header : Bytes}
    (hheader : statusReportHeader s.cfg.snLen (s.cfg.snLen.sn s.fmc) = some header) (sn : Nat) :
    (t.handleStatusReportPdu outOfRange (header ++ s.bitmap)).undeliveredSdus.hasSdu sn = true ↔
      t.undeliveredSdus.hasSdu sn = true ∧ ¬ s.Reported outOfRange sn := by
  obtain ⟨header', hheader', hlength⟩ := statusReportHeader_spec hcfg (s.cfg.snLen.sn s.fmc)
  have hdrop : (header ++ s.bitmap).drop s.cfg.snLen.hdrLenBytes = s.bitmap := by
    rw [hheader] at hheader'
    rw [← hlength, ← Option.some.inj hheader', List.drop_left]
  unfold handleStatusReportPdu
  simp only [ht, hsn, readFms_header hcfg hheader, hdrop, Bool.not_true, Bool.false_eq_true,
    if_false]
  rw [UndeliveredSdus.hasSdu_clearAll, mem_reportedSns h.behind]

/-! ### Every history and every queue -/

/-- The queue of a transmitter has the SDUs of the COUNTs, which span less than half the SNs. -/
structure Undelivered (t : PdcpLte) (counts : List Nat) : Prop where
  lt : ∀ c ∈ counts, c < 2 ^ 32
  hasSdu : ∀ sn, t.undeliveredSdus.hasSdu sn = true ↔ ∃ c ∈ counts, t.cfg.snLen.sn c = sn
  span : ∀ c ∈ counts, ∀ d ∈ counts, c < d + t.cfg.snLen.nofSns / 2

/-- With the report of a receiver, the peer removes exactly the SDUs with a received COUNT. -/
def Acknowledges (outOfRange : UInt8 → Bool) (s t : PdcpLte) (received counts : List Nat) : Prop :=
  match s.sendStatusReport with
  | .notSent => True
  | .overflow => False
  | .sent report => ∀ c ∈ counts,
      (t.handleStatusReportPdu outOfRange report).undeliveredSdus.hasSdu (t.cfg.snLen.sn c) = false ↔
        c ∈ received

/-- A DRB on RLC AM with a status report. -/
def statusDrb12 : LteConfig := ⟨.len12, .drb, false, 0, true⟩

theorem reports_statusDrb12 : Reports statusDrb12 := ⟨rfl, rfl, .inl rfl⟩

/-- A transmitter with the SDUs of two SNs that were not delivered. -/
def twoUndelivered (sn sn' : Nat) : PdcpLte :=
  { init statusDrb12 with
    undeliveredSdus :=
      ⟨2, 2, sn, sn', ((∅ : OrdMap Nat Sdu).insert sn ⟨sn, [1]⟩).insert sn' ⟨sn', [2]⟩⟩ }

theorem undelivered_twoUndelivered {sn sn' : Nat} (hlt : sn < sn') (hlt' : sn' < 2048) :
    Undelivered (twoUndelivered sn sn') [sn, sn'] where
  lt := by
    intro c hc
    rcases List.mem_pair.mp hc with rfl | rfl <;> omega
  hasSdu := by
    intro s
    have hslot : UndeliveredSdus.slot s = s % 4096 := rfl
    have hsn : SnLen.len12.sn sn = sn := Nat.mod_eq_of_lt (by simp [SnLen.nofSns, SnLen.bits]; omega)
    have hsn' : SnLen.len12.sn sn' = sn' :=
      Nat.mod_eq_of_lt (by simp [SnLen.nofSns, SnLen.bits]; omega)
    show _ ↔ ∃ c ∈ [sn, sn'], SnLen.len12.sn c = s
    simp only [UndeliveredSdus.hasSdu, twoUndelivered, OrdMap.find?_insert, hslot, hsn, hsn',
      List.mem_cons, List.not_mem_nil, or_false, exists_eq_or_imp, exists_eq_left]
    split
    · simp; omega
    · split <;> simp <;> omega
  span := by
    intro c hc d hd
    have hlen : (twoUndelivered sn sn').cfg.snLen.nofSns = 4096 := rfl
    rw [hlen]
    rcases List.mem_pair.mp hc with rfl | rfl <;> rcases List.mem_pair.mp hd with rfl | rfl <;> omega

end Odss.Pdcp.PdcpLte
