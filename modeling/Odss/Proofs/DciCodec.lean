import Odss.Phy.Dci

/-!
# `Odss.Proofs.DciCodec`: what is packed into a DCI comes back

* `packAlloc_spec`, `format0_unpack`, `format1_unpack`, `format2AB_unpack`, `format1C_iff` and
  `format1A_unpack`: each format.
* `not_isRandomAccessOrder`: a valid RIV is never an order to start random access.
* `dciCodec_iff`: all formats. In TDD the indices are unpacked but not packed.
-/

set_option linter.all false

namespace Odss.Phy.Dci

open Odss.Lib (bitsOf ofBits readBits readBit optBits readOpt readBits_append readBit_cons readOpt_append
  exists_bitsOf_append bitsOf_zero ofBits_of_all ofBits_bitsOf eq_zero_of_shifted bitsOf_ofBits readBits_replicate
  readBits_zero readBits_one readBits_two readOpt_false readOpt_true length_bitsOf length_optBits)

/-! ### Sizes -/

theorem le_skipLoop (avoid : List Nat) (fuel n : Nat) : n ≤ skipLoop avoid fuel n := by
  induction fuel generalizing n with
  | zero => exact Nat.le_refl n
  | succ fuel ih =>
    rw [skipLoop]
    split
    · exact Nat.le_of_succ_le (ih (n + 1))
    · exact Nat.le_refl n

theorem le_skipSizes (avoid : List Nat) (n : Nat) : n ≤ skipSizes avoid n := le_skipLoop avoid _ n

@[simp] theorem length_pad (n : Nat) (bits : List Bool) : (pad n bits).length = max bits.length n := by
  rw [pad, List.length_append, List.length_replicate]
  omega

/-- What is read behind the fields: zeros, and what was in the payload before -/
theorem written_pad (n : Nat) (bits payload : List Bool) :
    ∃ k rest, n ≤ bits.length + k ∧
      written (pad n bits) payload = bits ++ (List.replicate k false ++ rest) := by
  rw [written, pad, List.append_assoc]
  exact ⟨n - bits.length, _, by omega, rfl⟩

/-- Fields that are shorter than the message by `spare` bits have as many zeros behind them. -/
theorem padded_fields {n spare : Nat} {bits : List Bool} (hsize : bits.length + spare ≤ n)
    (payload : List Bool) : (pad n bits).length = n ∧ ∃ k rest, spare ≤ k ∧
      written (pad n bits) payload = bits ++ (List.replicate k false ++ rest) := by
  obtain ⟨k, rest, hk, hwritten⟩ := written_pad n bits payload
  exact ⟨by rw [length_pad]; omega, k, rest, by omega, hwritten⟩

/-! ### Resource allocation -/

/-- A resource allocation that formats 1, 2, 2A and 2B can have -/
def AllocInRange (nofPrb : Nat) : Alloc → Prop
  | .type0 rbgBitmask => rbgBitmask < 2 ^ allocSize nofPrb
  | .type1 vrbBitmask rbgSubset _ => 10 < nofPrb ∧ rbgSubset < 2 ^ ceilLog2 (raType0P nofPrb) ∧
      vrbBitmask < 2 ^ (allocSize nofPrb - ceilLog2 (raType0P nofPrb) - 1)
  | .type2 .. => False

instance (nofPrb : Nat) (alloc : Alloc) : Decidable (AllocInRange nofPrb alloc) := by
  cases alloc <;> unfold AllocInRange <;> infer_instance

/-- The subset and the shift bit are part of the size. -/
theorem subset_lt_allocSize {nofPrb : Nat} (hlarge : 10 < nofPrb) :
    ceilLog2 (raType0P nofPrb) + 1 < allocSize nofPrb := by
  have hP : raType0P nofPrb = 2 ∧ nofPrb ≤ 26 ∨ raType0P nofPrb = 3 ∧ 26 < nofPrb ∨
      raType0P nofPrb = 4 ∧ 26 < nofPrb := by
    rw [raType0P]
    split_ifs <;> omega
  rw [allocSize, ceilDiv]
  rcases hP with ⟨h, _⟩ | ⟨h, _⟩ | ⟨h, _⟩
  · rw [h, show ceilLog2 2 = 1 from rfl]
    omega
  · rw [h, show ceilLog2 3 = 2 from rfl]
    omega
  · rw [h, show ceilLog2 4 = 2 from rfl]
    omega

theorem packAlloc_spec {cell : Cell} {alloc : Alloc} (h : AllocInRange cell.nofPrb alloc) :
    ∃ bits, packAlloc cell alloc = some bits ∧
      bits.length = (if 10 < cell.nofPrb then 1 else 0) + allocSize cell.nofPrb ∧
      ∀ rest, unpackAlloc cell (bits ++ rest) = (alloc, rest) := by
  cases alloc with
  | type0 rbgBitmask =>
    refine ⟨_, rfl, ?_, fun rest => ?_⟩
    · rw [List.length_append, length_bitsOf]
      split <;> rfl
    · rw [unpackAlloc]
      by_cases hlarge : 10 < cell.nofPrb
      · simp [hlarge, Nat.mod_eq_of_lt h]
      · simp [hlarge, Nat.mod_eq_of_lt h]
  | type1 vrbBitmask rbgSubset shift =>
    obtain ⟨hlarge, hsubset, hvrb⟩ := h
    have hlt := subset_lt_allocSize hlarge
    refine ⟨_, rfl, ?_, fun rest => ?_⟩
    · simp only [List.length_append, length_bitsOf, if_pos hlarge, List.length_singleton]
      omega
    · rw [unpackAlloc]
      simp [hlarge, Nat.mod_eq_of_lt hsubset, Nat.mod_eq_of_lt hvrb]
  | type2 => exact absurd h id

/-! ### Format 0 -/

theorem toNat_bne_zero (b : Bool) : (b.toNat != 0) = b := by
  cases b <;> rfl

/-- A DCI of format 0 without hopping, each field in its range and those that are configured present -/
structure UlInRange (cell : Cell) (cfg : DciCfg) (dci : DciUl) : Prop where
  format : dci.format = .format0
  cifPresent : dci.cifPresent = cfg.cifEnabled
  cif : dci.cif < 8
  noHopping : dci.freqHopFl = none
  riv : dci.riv < 2 ^ rivNbits cell.nofPrb
  mcs : dci.tb.mcsIdx < 32
  tpc : dci.tpcPusch < 4
  nDmrs : dci.nDmrs < 8
  srsPresent : dci.srsRequestPresent = hasSrsRequest cfg
  dai : dci.dai < 4
  ulIdx : dci.ulIdx < 4

/-- The fields of format 0 that are the same -/
structure SameUl (cell : Cell) (sf : SfCfg) (cfg : DciCfg) (dci dci' : DciUl) : Prop where
  cif : cfg.cifEnabled = true → dci'.cif = dci.cif
  freqHopFl : dci'.freqHopFl = dci.freqHopFl
  riv : dci'.riv = dci.riv
  mcsIdx : dci'.tb.mcsIdx = dci.tb.mcsIdx
  ndi : dci'.tb.ndi = dci.tb.ndi
  tpcPusch : dci'.tpcPusch = dci.tpcPusch
  nDmrs : dci'.nDmrs = dci.nDmrs
  cqiRequest : dci'.cqiRequest = dci.cqiRequest
  srsRequest : hasSrsRequest cfg = true → dci'.srsRequest = dci.srsRequest
  ulIdx : isTddCfg0 cell sf = true → dci'.ulIdx = dci.ulIdx
  dai : cell.isTdd = true → isTddCfg0 cell sf = false → dci'.dai = dci.dai

/-- In TDD the bits of the requests are read as the index, and the index is not packed. -/
def UlAgrees (cell : Cell) (sf : SfCfg) (cfg : DciCfg) (dci : DciUl) : Prop :=
  cell.isTdd = true → dci.cqiRequest = false ∧ (hasSrsRequest cfg = true → dci.srsRequest = false) ∧
    (if isTddCfg0 cell sf then dci.ulIdx else dci.dai) = 0

section

variable {cell : Cell} {sf : SfCfg} {cfg : DciCfg}

theorem length_format0 (dci : DciUl) (hcif : dci.cifPresent = cfg.cifEnabled) (hhop : dci.freqHopFl = none) :
    (dciFormat0Pack cell sf cfg dci).length = dciFormatSizeof cell sf cfg .format0 := by
  rw [dciFormat0Pack, length_pad]
  refine Nat.max_eq_right ?_
  have hle : dciFormat0Sizeof_ cell sf cfg ≤ dciFormatSizeof cell sf cfg .format0 := Nat.le_max_left _ _
  refine Nat.le_trans ?_ hle
  rw [dciFormat0Sizeof_, hhop, hcif]
  simp only [List.length_append, length_optBits, length_bitsOf, List.length_singleton, hopBits,
    Option.isSome_none, nUlHop, Bool.false_eq_true, if_false]
  split_ifs <;> simp only [List.length_cons, List.length_nil] <;> omega

theorem format0_payload (sf : SfCfg) (hcsi : hasMultipleCsi cfg = false) {dci : DciUl} (h : UlInRange cell cfg dci)
    (payload : List Bool) :
    ∃ k rest, (cell.isTdd = true → 2 ≤ k) ∧
      written (dciFormat0Pack cell sf cfg dci) payload =
        optBits cfg.cifEnabled 3 dci.cif ++ (false :: false :: (bitsOf (rivNbits cell.nofPrb) dci.riv ++
          (bitsOf 5 dci.tb.mcsIdx ++ (dci.tb.ndi :: (bitsOf 2 dci.tpcPusch ++ (bitsOf 3 dci.nDmrs ++
            (dci.cqiRequest :: ((if hasSrsRequest cfg then [dci.srsRequest] else []) ++
              (List.replicate k false ++ rest))))))))) := by
  obtain ⟨k, rest, hk, hrest⟩ := written_pad (dciFormatSizeof cell sf cfg .format0)
    (optBits cfg.cifEnabled 3 dci.cif ++ [false] ++ [false] ++ bitsOf (rivNbits cell.nofPrb) dci.riv ++
      bitsOf 5 dci.tb.mcsIdx ++ [dci.tb.ndi] ++ bitsOf 2 dci.tpcPusch ++ bitsOf 3 dci.nDmrs ++
      [dci.cqiRequest] ++ (if hasSrsRequest cfg then [dci.srsRequest] else [])) payload
  refine ⟨k, rest, ?_, ?_⟩
  · intro htdd
    have hle : dciFormat0Sizeof_ cell sf cfg ≤ dciFormatSizeof cell sf cfg .format0 := Nat.le_max_left _ _
    have hle' := Nat.le_trans hle hk
    rw [dciFormat0Sizeof_, htdd, hcsi] at hle'
    simp only [List.length_append, length_optBits, length_bitsOf, List.length_singleton, Bool.true_or,
      if_true, Bool.false_eq_true, if_false] at hle'
    split_ifs at hle' <;> simp only [List.length_cons, List.length_nil] at hle' <;> omega
  · have hpack : dciFormat0Pack cell sf cfg dci = pad (dciFormatSizeof cell sf cfg .format0)
        (optBits cfg.cifEnabled 3 dci.cif ++ [false] ++ [false] ++ bitsOf (rivNbits cell.nofPrb) dci.riv ++
          bitsOf 5 dci.tb.mcsIdx ++ [dci.tb.ndi] ++ bitsOf 2 dci.tpcPusch ++ bitsOf 3 dci.nDmrs ++
          [dci.cqiRequest] ++ (if hasSrsRequest cfg then [dci.srsRequest] else [])) := by
      rw [dciFormat0Pack, h.cifPresent, h.noHopping, hcsi, h.srsPresent]
      cases hasSrsRequest cfg with
      | false => rfl
      | true => simp [hopBits, nUlHop]
    rw [hpack, hrest]
    simp only [List.append_assoc, List.cons_append, List.nil_append]

/-- Where the requests are zero, the index that they are read as is zero. -/
theorem index_iff (c s hasSrs : Bool) (idx : Nat) :
    (c = false ∧ (hasSrs = true → s = false) ∧ 2 * c.toNat + (hasSrs && s).toNat = idx) ↔
      c = false ∧ (hasSrs = true → s = false) ∧ idx = 0 := by
  cases c <;> cases s <;> cases hasSrs <;> simp [eq_comm]

theorem format0_unpack (hcsi : hasMultipleCsi cfg = false) {dci : DciUl} (h : UlInRange cell cfg dci)
    (payload : List Bool) :
    ∃ dci', dciMsgUnpackPusch cell sf cfg (dciMsgPackPusch cell sf cfg dci payload) = some dci' ∧
      (SameUl cell sf cfg dci dci' ↔ UlAgrees cell sf cfg dci) := by
  obtain ⟨k, rest, hk, hpayload⟩ := format0_payload sf hcsi h payload
  have hriv := Nat.mod_eq_of_lt h.riv
  have hmcs : dci.tb.mcsIdx % 2 ^ 5 = dci.tb.mcsIdx := Nat.mod_eq_of_lt h.mcs
  have htpc : dci.tpcPusch % 2 ^ 2 = dci.tpcPusch := Nat.mod_eq_of_lt h.tpc
  have hdmrs : dci.nDmrs % 2 ^ 3 = dci.nDmrs := Nat.mod_eq_of_lt h.nDmrs
  have hcif : dci.cif % 2 ^ 3 = dci.cif := Nat.mod_eq_of_lt h.cif
  rw [dciMsgUnpackPusch, dciMsgPackPusch, dciFormat0Unpack]
  simp only [hpayload, hcsi, nUlHop, readOpt_append, readBit_cons, Bool.false_eq_true, if_false,
    readBits_zero, Nat.sub_zero, readBits_append, hriv, hmcs, htpc, hdmrs, hcif]
  cases htdd : cell.isTdd with
  | false =>
    have hcfg0 : isTddCfg0 cell sf = false := by rw [isTddCfg0, htdd, Bool.false_and]
    refine ⟨_, rfl, iff_of_true ?_ fun hno => absurd (htdd.symm.trans hno) Bool.false_ne_true⟩
    simp only [hcfg0, Bool.false_and, readOpt_false, readBits_one, toNat_bne_zero]
    refine ⟨fun hon => if_pos hon, h.noHopping.symm, rfl, rfl, rfl, rfl, rfl, ?_, fun hon => ?_,
      fun hon => ?_, fun hon => ?_⟩
    · rfl
    · simp only [hon, if_true, List.cons_append, readOpt_true, readBits_one, toNat_bne_zero]
    · exact absurd (hcfg0.symm.trans hon) Bool.false_ne_true
    · exact absurd (htdd.symm.trans hon) Bool.false_ne_true
  | true =>
    -- the request bits and a zero are read as the index, and zeros as the requests
    have htail : ∃ rest', dci.cqiRequest :: ((if hasSrsRequest cfg then [dci.srsRequest] else []) ++
        (List.replicate k false ++ rest)) = dci.cqiRequest :: (hasSrsRequest cfg && dci.srsRequest) ::
          false :: ((if hasSrsRequest cfg then [false] else []) ++ rest') := by
      obtain ⟨j, rfl⟩ : ∃ j, k = j + 2 := ⟨k - 2, by have := hk htdd; omega⟩
      cases hasSrsRequest cfg with
      | false => exact ⟨List.replicate j false ++ rest, by simp [List.replicate_succ]⟩
      | true => exact ⟨List.replicate j false ++ rest, by simp [List.replicate_succ]⟩
    obtain ⟨rest', htail⟩ := htail
    simp only [htail]
    refine ⟨_, rfl, ?_⟩
    have hsrs : (readOpt (hasSrsRequest cfg) 1 ((if hasSrsRequest cfg then [false] else []) ++ rest')).1 = 0 := by
      cases hasSrsRequest cfg <;> rfl
    rw [UlAgrees, ← forall_congr' fun _ => index_iff dci.cqiRequest dci.srsRequest (hasSrsRequest cfg) _]
    cases hcfg0 : isTddCfg0 cell sf with
    | true =>
      simp only [Bool.not_true, Bool.and_false, readOpt_false, readOpt_true, readBits_two, readBits_one,
        hsrs, if_true]
      constructor
      · intro hs _
        exact ⟨hs.cqiRequest.symm, fun hon => (hs.srsRequest hon).symm, hs.ulIdx hcfg0⟩
      · intro hagrees
        obtain ⟨hc, hr, hidx⟩ := hagrees htdd
        exact ⟨fun hon => if_pos hon, h.noHopping.symm, rfl, rfl, rfl, rfl, rfl, hc.symm,
          fun hon => (hr hon).symm, fun _ => hidx,
          fun _ hno => absurd (hno.symm.trans hcfg0) Bool.false_ne_true⟩
    | false =>
      simp only [Bool.not_false, Bool.and_true, readOpt_false, readOpt_true, readBits_two, readBits_one,
        hsrs, Bool.false_eq_true, if_false]
      constructor
      · intro hs _
        exact ⟨hs.cqiRequest.symm, fun hon => (hs.srsRequest hon).symm, hs.dai htdd hcfg0⟩
      · intro hagrees
        obtain ⟨hc, hr, hidx⟩ := hagrees htdd
        exact ⟨fun hon => if_pos hon, h.noHopping.symm, rfl, rfl, rfl, rfl, rfl, hc.symm,
          fun hon => (hr hon).symm, fun hno => absurd (hcfg0.symm.trans hno) Bool.false_ne_true,
          fun _ _ => hidx⟩

/-! ### Format 1 -/

/-- `rv` is one of the four of its field. -/
def RvInRange (rv : Int) : Prop := 0 ≤ rv ∧ rv < 4

theorem rv_read {rv : Int} (h : RvInRange rv) : (((rv % 2 ^ 32).toNat % 2 ^ 2 : Nat) : Int) = rv := by
  obtain ⟨hlow, hhigh⟩ := h
  omega

/-- The carrier indicator is packed as it is configured. -/
structure CifInRange (cfg : DciCfg) (dci : DciDl) : Prop where
  present : dci.cifPresent = cfg.cifEnabled
  cif : dci.cif < 2 ^ 3

/-- A DCI of format 1 with each field in its range -/
structure InRange1 (cell : Cell) (sf : SfCfg) (cfg : DciCfg) (dci : DciDl) : Prop
    extends CifInRange cfg dci where
  alloc : AllocInRange cell.nofPrb dci.alloc
  mcs : dci.tb0.mcsIdx < 2 ^ 5
  pid : dci.pid < 2 ^ harqPidLen cell sf
  rv : RvInRange dci.tb0.rv
  tpc : dci.tpcPucch < 2 ^ 2

/-- The fields of format 1 that are the same -/
structure Same1 (cell : Cell) (cfg : DciCfg) (dci dci' : DciDl) : Prop where
  cif : cfg.cifEnabled = true → dci'.cif = dci.cif
  alloc : dci'.alloc = dci.alloc
  mcsIdx : dci'.tb0.mcsIdx = dci.tb0.mcsIdx
  pid : dci'.pid = dci.pid
  ndi : dci'.tb0.ndi = dci.tb0.ndi
  rv : dci'.tb0.rv = dci.tb0.rv
  tpcPucch : dci'.tpcPucch = dci.tpcPucch
  dai : cell.isTdd = true → dci'.dai = dci.dai

theorem readOpt_replicate (b : Bool) {n k : Nat} (hk : b = true → n ≤ k) (rest : List Bool) :
    (readOpt b n (List.replicate k false ++ rest)).1 = 0 := by
  cases b with
  | false => rfl
  | true => rw [readOpt_true, readBits_replicate (hk rfl)]

theorem format1_unpack {dci : DciDl} (h : InRange1 cell sf cfg dci) (payload : List Bool)
    (hformat : dci.format = .format1) :
    ∃ msg, dciMsgPackPdsch cell sf cfg dci payload = some msg ∧
      msg.nofBits = dciFormatSizeof cell sf cfg .format1 ∧
      ∃ dci', dciMsgUnpackPdsch cell sf cfg msg = some dci' ∧
        (Same1 cell cfg dci dci' ↔ (cell.isTdd = true → dci.dai = 0)) := by
  obtain ⟨alloc, halloc, hlen, hread⟩ := packAlloc_spec h.alloc
  have hpack : ∃ fields, dciFormat1Pack cell sf cfg dci = some (pad (dciFormatSizeof cell sf cfg .format1) fields) ∧
      fields = optBits cfg.cifEnabled 3 dci.cif ++ (alloc ++ (bitsOf 5 dci.tb0.mcsIdx ++
        (bitsOf (harqPidLen cell sf) dci.pid ++ (dci.tb0.ndi :: (rvBits dci.tb0.rv ++
          bitsOf 2 dci.tpcPucch))))) := by
    refine ⟨_, ?_, rfl⟩
    rw [dciFormat1Pack, halloc, h.present]
    simp only [Option.map_some, List.append_assoc, List.cons_append, List.nil_append]
  obtain ⟨fields, hpack, hfields⟩ := hpack
  have hsize : fields.length + (if cell.isTdd then 2 else 0) ≤ dciFormatSizeof cell sf cfg .format1 := by
    refine Nat.le_trans ?_ (le_skipSizes _ _)
    rw [hfields]
    simp only [List.length_append, List.length_cons, length_optBits, length_bitsOf, hlen, rvBits]
    split_ifs <;> omega
  obtain ⟨hlength, k, rest, hk, hpayload⟩ := padded_fields hsize payload
  refine ⟨_, by rw [dciMsgPackPdsch, hformat, hpack]; rfl, hlength, ?_⟩
  have hcif := Nat.mod_eq_of_lt h.cif
  have hmcs := Nat.mod_eq_of_lt h.mcs
  have hpid := Nat.mod_eq_of_lt h.pid
  have htpc := Nat.mod_eq_of_lt h.tpc
  have hrv := rv_read h.rv
  have hdai := readOpt_replicate cell.isTdd (n := 2) (k := k) (fun htdd => by rw [htdd] at hk; exact hk) rest
  rw [dciMsgUnpackPdsch, dciFormat1Unpack, if_neg (not_not.mpr hlength)]
  simp only [hpayload]
  simp only [hfields, List.append_assoc, List.cons_append, readOpt_append, readBit_cons, hread,
    readBits_append, rvBits, hcif, hmcs, hpid, htpc, hrv, hdai]
  refine ⟨_, rfl, ?_⟩
  constructor
  · exact fun hs htdd => (hs.dai htdd).symm
  · exact fun hagrees => ⟨fun hon => if_pos hon, rfl, rfl, rfl, rfl, rfl, rfl, fun htdd => (hagrees htdd).symm⟩

/-! ### Formats 2, 2A and 2B -/

/-- Each field of the part behind the DAI is in its range. -/
structure Body2AB.InRange (pidLen pinfoLen : Nat) (b : Body2AB) : Prop where
  pid : b.pid < 2 ^ pidLen
  mcs0 : b.mcsIdx0 < 2 ^ 5
  rv0 : RvInRange b.rv0
  mcs1 : b.mcsIdx1 < 2 ^ 5
  rv1 : RvInRange b.rv1
  pinfo : 0 < pinfoLen → b.pinfo < 2 ^ pinfoLen

/-- The fields behind the DAI are the same. -/
structure Body2AB.Same (pinfoLen : Nat) (b b' : Body2AB) : Prop where
  pid : b'.pid = b.pid
  flag : b'.flag = b.flag
  mcsIdx0 : b'.mcsIdx0 = b.mcsIdx0
  ndi0 : b'.ndi0 = b.ndi0
  rv0 : b'.rv0 = b.rv0
  mcsIdx1 : b'.mcsIdx1 = b.mcsIdx1
  ndi1 : b'.ndi1 = b.ndi1
  rv1 : b'.rv1 = b.rv1
  pinfo : 0 < pinfoLen → b'.pinfo = b.pinfo

/-- No field behind the DAI has a bit. -/
def Body2AB.zero : Body2AB := ⟨0, false, 0, false, 0, 0, false, 0, 0⟩

namespace Body2AB

variable {pidLen pinfoLen : Nat} {b b' : Body2AB}

theorem length_bits : (b.bits pidLen pinfoLen).length = pidLen + 17 + pinfoLen := by
  simp only [bits, rvBits, List.length_append, length_bitsOf, List.length_singleton]

theorem same_read (h : b.InRange pidLen pinfoLen) (rest : List Bool) :
    b.Same pinfoLen (read pidLen pinfoLen (b.bits pidLen pinfoLen ++ rest)) := by
  simp only [read, bits, rvBits, List.append_assoc, List.cons_append, List.nil_append, readBits_append,
    readBit_cons, Nat.mod_eq_of_lt h.pid, Nat.mod_eq_of_lt h.mcs0, Nat.mod_eq_of_lt h.mcs1, rv_read h.rv0,
    rv_read h.rv1]
  exact ⟨rfl, rfl, rfl, rfl, rfl, rfl, rfl, rfl, fun hpos => Nat.mod_eq_of_lt (h.pinfo hpos)⟩

theorem bits_eq_of_same (pidLen : Nat) (h : b.Same pinfoLen b') :
    b'.bits pidLen pinfoLen = b.bits pidLen pinfoLen := by
  have hpinfo : bitsOf pinfoLen b'.pinfo = bitsOf pinfoLen b.pinfo := by
    rcases Nat.eq_zero_or_pos pinfoLen with rfl | hpos
    · rfl
    · rw [h.pinfo hpos]
  simp only [bits, h.pid, h.flag, h.mcsIdx0, h.ndi0, h.rv0, h.mcsIdx1, h.ndi1, h.rv1, hpinfo]

theorem same_iff_bits_eq (h : b.InRange pidLen pinfoLen) (h' : b'.InRange pidLen pinfoLen) :
    b.Same pinfoLen b' ↔ b'.bits pidLen pinfoLen = b.bits pidLen pinfoLen := by
  refine ⟨bits_eq_of_same pidLen, fun heq => ?_⟩
  have hread := same_read h []
  have hread' := same_read h' []
  rw [heq] at hread'
  exact ⟨hread'.pid.symm.trans hread.pid, hread'.flag.symm.trans hread.flag,
    hread'.mcsIdx0.symm.trans hread.mcsIdx0, hread'.ndi0.symm.trans hread.ndi0,
    hread'.rv0.symm.trans hread.rv0, hread'.mcsIdx1.symm.trans hread.mcsIdx1,
    hread'.ndi1.symm.trans hread.ndi1, hread'.rv1.symm.trans hread.rv1,
    fun hpos => (hread'.pinfo hpos).symm.trans (hread.pinfo hpos)⟩

theorem rvInRange_ofNat {v : Nat} (h : v < 2 ^ 2) : RvInRange v := by
  have : v < 4 := h
  exact ⟨Int.natCast_nonneg v, by omega⟩

theorem rvBits_ofNat {v : Nat} (h : v < 2 ^ 2) : rvBits v = bitsOf 2 v := by
  have hlt : v < 4 := h
  have hv : ((v : Int) % 2 ^ 32).toNat = v := by omega
  rw [rvBits, hv]

/-- Enough bits are those of fields in their ranges. -/
theorem exists_bits {l : List Bool} (hlen : pidLen + 17 + pinfoLen ≤ l.length) :
    ∃ b rest, InRange pidLen pinfoLen b ∧ l = b.bits pidLen pinfoLen ++ rest := by
  obtain ⟨pid, l₁, hpid, rfl, h₁⟩ := exists_bitsOf_append pidLen l (by omega)
  obtain ⟨flag, l₂, rfl⟩ := List.exists_cons_of_length_pos (l := l₁) (by omega)
  rw [List.length_cons] at h₁
  obtain ⟨mcs0, l₃, hmcs0, rfl, h₃⟩ := exists_bitsOf_append 5 l₂ (by omega)
  obtain ⟨ndi0, l₄, rfl⟩ := List.exists_cons_of_length_pos (l := l₃) (by omega)
  rw [List.length_cons] at h₃
  obtain ⟨rv0, l₅, hrv0, rfl, h₅⟩ := exists_bitsOf_append 2 l₄ (by omega)
  obtain ⟨mcs1, l₆, hmcs1, rfl, h₆⟩ := exists_bitsOf_append 5 l₅ (by omega)
  obtain ⟨ndi1, l₇, rfl⟩ := List.exists_cons_of_length_pos (l := l₆) (by omega)
  rw [List.length_cons] at h₆
  obtain ⟨rv1, l₈, hrv1, rfl, h₈⟩ := exists_bitsOf_append 2 l₇ (by omega)
  obtain ⟨pinfo, rest, hpinfo, rfl, -⟩ := exists_bitsOf_append pinfoLen l₈ (by omega)
  refine ⟨⟨pid, flag, mcs0, ndi0, rv0, mcs1, ndi1, rv1, pinfo⟩, rest, ⟨hpid, hmcs0,
    rvInRange_ofNat hrv0, hmcs1, rvInRange_ofNat hrv1, fun _ => hpinfo⟩, ?_⟩
  simp only [bits, rvBits_ofNat hrv0, rvBits_ofNat hrv1, List.append_assoc, List.cons_append,
    List.nil_append]

theorem bits_read (pidLen pinfoLen : Nat) {l : List Bool} (hlen : pidLen + 17 + pinfoLen ≤ l.length) :
    (read pidLen pinfoLen l).InRange pidLen pinfoLen ∧
      (read pidLen pinfoLen l).bits pidLen pinfoLen = l.take (pidLen + 17 + pinfoLen) := by
  obtain ⟨b, rest, hb, rfl⟩ := exists_bits hlen
  have hsame := same_read hb rest
  refine ⟨⟨hsame.pid ▸ hb.pid, hsame.mcsIdx0 ▸ hb.mcs0, hsame.rv0 ▸ hb.rv0, hsame.mcsIdx1 ▸ hb.mcs1,
    hsame.rv1 ▸ hb.rv1, fun hpos => hsame.pinfo hpos ▸ hb.pinfo hpos⟩, ?_⟩
  rw [bits_eq_of_same pidLen hsame, List.take_left' length_bits]

theorem zero_inRange : zero.InRange pidLen pinfoLen :=
  ⟨Nat.two_pow_pos _, Nat.two_pow_pos _, ⟨by decide, by decide⟩, Nat.two_pow_pos _,
    ⟨by decide, by decide⟩, fun _ => Nat.two_pow_pos _⟩

theorem bits_zero : zero.bits pidLen pinfoLen = List.replicate (pidLen + 17 + pinfoLen) false := by
  have hrv : rvBits 0 = List.replicate 2 false := rfl
  have hbit : [false] = List.replicate 1 false := rfl
  simp only [bits, zero, hrv, hbit, bitsOf_zero, List.replicate_append_replicate]

/-- Where the fields are read two bits too late, with zeros behind them, they are the same exactly when they
have no bits at all. -/
theorem same_read_late (h : b.InRange pidLen pinfoLen) {k : Nat} (hk : 2 ≤ k) (rest : List Bool) :
    b.Same pinfoLen (read pidLen pinfoLen
      ((b.bits pidLen pinfoLen ++ (List.replicate k false ++ rest)).drop 2)) ↔
      zero.Same pinfoLen b := by
  have hlen : (b.bits pidLen pinfoLen).length = pidLen + 17 + pinfoLen := length_bits
  rw [same_iff_bits_eq zero_inRange h, bits_zero]
  generalize hs : b.bits pidLen pinfoLen = s at hlen ⊢
  obtain ⟨j, rfl⟩ : ∃ j, k = 2 + j := ⟨k - 2, by omega⟩
  -- the bits that are read are those behind the first two, and two zeros
  have hsplit : (s ++ (List.replicate (2 + j) false ++ rest)).drop 2 =
      (s ++ List.replicate 2 false).drop 2 ++ (List.replicate j false ++ rest) := by
    rw [← List.replicate_append_replicate, List.append_assoc, ← List.append_assoc,
      List.drop_append_of_le_length (by rw [List.length_append, List.length_replicate]; omega)]
  have hfront : ((s ++ List.replicate 2 false).drop 2).length = pidLen + 17 + pinfoLen := by
    rw [List.length_drop, List.length_append, List.length_replicate, hlen]
    omega
  rw [hsplit]
  obtain ⟨hrange, hbits⟩ := bits_read pidLen pinfoLen
    (l := (s ++ List.replicate 2 false).drop 2 ++ (List.replicate j false ++ rest))
    (by rw [List.length_append, hfront]; omega)
  rw [same_iff_bits_eq h hrange, hbits, hs, List.take_left' hfront]
  constructor
  · intro heq
    have hshift : s ++ List.replicate 2 false = (s ++ List.replicate 2 false).take 2 ++ s := by
      conv_lhs => rw [← List.take_append_drop 2 (s ++ List.replicate 2 false), heq]
    have hzero := eq_zero_of_shifted (by decide : 0 < 2) hshift
    have hs' := bitsOf_ofBits s
    rw [hzero, bitsOf_zero, hlen] at hs'
    exact hs'.symm
  · rintro rfl
    rw [List.replicate_append_replicate, List.drop_replicate, Nat.add_sub_cancel]

end Body2AB

/-- A DCI of format 2, 2A or 2B with each field in its range -/
structure InRange2AB (format : Format) (cell : Cell) (sf : SfCfg) (cfg : DciCfg) (dci : DciDl) : Prop
    extends CifInRange cfg dci where
  alloc : AllocInRange cell.nofPrb dci.alloc
  tpc : dci.tpcPucch < 2 ^ 2
  body : (dci.body2AB format).InRange (harqPidLen cell sf) (precodingBits format cell.nofPorts)

/-- The fields of format 2, 2A or 2B that are the same -/
structure Same2AB (format : Format) (cell : Cell) (cfg : DciCfg) (dci dci' : DciDl) : Prop where
  cif : cfg.cifEnabled = true → dci'.cif = dci.cif
  alloc : dci'.alloc = dci.alloc
  tpcPucch : dci'.tpcPucch = dci.tpcPucch
  dai : cell.isTdd = true → dci'.dai = dci.dai
  body : (dci.body2AB format).Same (precodingBits format cell.nofPorts) (dci'.body2AB format)

/-- In TDD there is no DAI in the message, and all fields behind its place are zero. -/
def Agrees2AB (format : Format) (cell : Cell) (dci : DciDl) : Prop :=
  cell.isTdd = true → dci.dai = 0 ∧
    Body2AB.zero.Same (precodingBits format cell.nofPorts) (dci.body2AB format)

/-- What is read into the fields of a DCI, where `tail` is behind the TPC command -/
theorem format2AB_fields (cell : Cell) (sf : SfCfg) (cfg : DciCfg) {format : Format}
    (hor : format = .format2 ∨ format = .format2A ∨ format = .format2B) {msg : Msg}
    (hformat : msg.format = format) {cif tpc : Nat} {alloc tail : List Bool} {a : Alloc}
    (hread : ∀ rest, unpackAlloc cell (alloc ++ rest) = (a, rest))
    (hpayload : msg.payload = optBits cfg.cifEnabled 3 cif ++ (alloc ++ (bitsOf 2 tpc ++ tail))) :
    (dciFormat2ABUnpack cell sf cfg msg).cif = (if cfg.cifEnabled then cif % 2 ^ 3 else 0) ∧
      (dciFormat2ABUnpack cell sf cfg msg).alloc = a ∧
      (dciFormat2ABUnpack cell sf cfg msg).tpcPucch = tpc % 2 ^ 2 ∧
      (dciFormat2ABUnpack cell sf cfg msg).dai = (readOpt cell.isTdd 2 tail).1 ∧
      (dciFormat2ABUnpack cell sf cfg msg).body2AB format = Body2AB.read (harqPidLen cell sf)
        (precodingBits format cell.nofPorts) (readOpt cell.isTdd 2 tail).2 := by
  rw [dciFormat2ABUnpack, DciDl.body2AB, hpayload]
  simp only [readOpt_append, hread, readBits_append, hformat, true_and]
  rcases hor with rfl | rfl | rfl
  · simp
  · simp
  · simp

theorem format2AB_unpack {format : Format} (hor : format = .format2 ∨ format = .format2A ∨ format = .format2B)
    {dci : DciDl} (hformat : dci.format = format) (h : InRange2AB format cell sf cfg dci)
    (payload : List Bool) :
    ∃ msg, dciMsgPackPdsch cell sf cfg dci payload = some msg ∧
      msg.nofBits = dciFormatSizeof cell sf cfg format ∧
      ∃ dci', dciMsgUnpackPdsch cell sf cfg msg = some dci' ∧
        (Same2AB format cell cfg dci dci' ↔ Agrees2AB format cell dci) := by
  obtain ⟨alloc, halloc, hlen, hread⟩ := packAlloc_spec h.alloc
  have hpack : ∃ fields, dciFormat2ABPack format cell sf cfg dci =
        some (pad (dciFormatSizeof cell sf cfg format) fields) ∧
      fields = optBits cfg.cifEnabled 3 dci.cif ++ (alloc ++ (bitsOf 2 dci.tpcPucch ++
        (dci.body2AB format).bits (harqPidLen cell sf) (precodingBits format cell.nofPorts))) := by
    refine ⟨_, ?_, rfl⟩
    rw [dciFormat2ABPack, halloc, h.present]
    simp only [Option.map_some, List.append_assoc]
  obtain ⟨fields, hpack, hfields⟩ := hpack
  have hsizeof : dciFormatSizeof cell sf cfg format = dciFormat2ABSizeof format cell sf cfg := by
    rcases hor with rfl | rfl | rfl <;> rfl
  have hsize : fields.length + (if cell.isTdd then 2 else 0) ≤ dciFormatSizeof cell sf cfg format := by
    rw [hsizeof]
    refine Nat.le_trans ?_ (le_skipSizes _ _)
    rw [hfields]
    simp only [List.length_append, length_optBits, length_bitsOf, hlen, Body2AB.length_bits]
    split_ifs <;> omega
  obtain ⟨hlength, k, rest, hk, hpayload⟩ := padded_fields hsize payload
  rw [hfields, List.append_assoc, List.append_assoc, List.append_assoc] at hpayload
  have hcall : dciMsgPackPdsch cell sf cfg dci payload = some ⟨
      written (pad (dciFormatSizeof cell sf cfg format) fields) payload,
      (pad (dciFormatSizeof cell sf cfg format) fields).length, format, dci.rnti⟩ := by
    rw [dciMsgPackPdsch, hformat]
    rcases hor with rfl | rfl | rfl <;> simp only [hpack, Option.map_some]
  refine ⟨_, hcall, hlength, ?_⟩
  rw [hfields, hpayload]
  generalize hmsg : (⟨_, _, format, dci.rnti⟩ : Msg) = msg
  have hmsgFormat : msg.format = format := by rw [← hmsg]
  have hunpack : dciMsgUnpackPdsch cell sf cfg msg = some (dciFormat2ABUnpack cell sf cfg msg) := by
    rw [dciMsgUnpackPdsch, hmsgFormat]
    rcases hor with rfl | rfl | rfl <;> rfl
  obtain ⟨hcif, halloc', htpc, hdai, hbody⟩ := format2AB_fields cell sf cfg
    hor hmsgFormat hread (by rw [← hmsg])
  rw [Nat.mod_eq_of_lt h.cif] at hcif
  rw [Nat.mod_eq_of_lt h.tpc] at htpc
  have hfront : Same2AB format cell cfg dci (dciFormat2ABUnpack cell sf cfg msg) ↔
      (cell.isTdd = true → (dciFormat2ABUnpack cell sf cfg msg).dai = dci.dai) ∧
        (dci.body2AB format).Same (precodingBits format cell.nofPorts)
          ((dciFormat2ABUnpack cell sf cfg msg).body2AB format) :=
    ⟨fun hs => ⟨hs.dai, hs.body⟩, fun hs => ⟨fun hon => hcif.trans (if_pos hon), halloc', htpc, hs.1, hs.2⟩⟩
  refine ⟨_, hunpack, hfront.trans ?_⟩
  rw [hdai, hbody, Agrees2AB]
  cases htdd : cell.isTdd with
  | false =>
    exact iff_of_true ⟨nofun, Body2AB.same_read h.body _⟩ nofun
  | true =>
    rw [htdd] at hk
    rw [readOpt_true]
    show (_ ∧ Body2AB.Same _ _ (Body2AB.read _ _ (List.drop 2 _))) ↔ _
    rw [Body2AB.same_read_late h.body hk rest]
    simp only [true_imp_iff]
    refine and_congr_left fun hzero => ?_
    -- the DAI is read from fields that are zero
    have hbits := Body2AB.bits_eq_of_same (harqPidLen cell sf) hzero
    rw [hbits, Body2AB.bits_zero, ← List.append_assoc, List.replicate_append_replicate,
      readBits_replicate (by omega)]
    exact eq_comm

/-! ### Format 1C -/

theorem ofBit_bit_gap (nGap : NGap) : NGap.ofBit nGap.bit = nGap := by
  cases nGap <;> rfl

theorem ofBit_bit_mode (mode : Mode) : Mode.ofBit mode.bit = mode := by
  cases mode <;> rfl

theorem ofBit_bit_nPrb1a (nPrb1a : NPrb1a) : NPrb1a.ofBit nPrb1a.bit = nPrb1a := by
  cases nPrb1a <;> rfl

/-- The allocation of format 1C, with the default where there is no field -/
def carried1C (cell : Cell) : Alloc → Alloc
  | .type2 riv _ nGap mode => .type2 riv .prb2 (if 50 ≤ cell.nofPrb then nGap else .ng1) mode
  | alloc => alloc

/-- A DCI of format 1C with each field in its range. A cell of less than 50 PRBs has one gap only. -/
structure InRange1C (cell : Cell) (cfg : DciCfg) (dci : DciDl) (riv : Nat) (nPrb1a : NPrb1a)
    (nGap : NGap) : Prop extends CifInRange cfg dci where
  alloc : dci.alloc = .type2 riv nPrb1a nGap .dist
  riv : riv < 2 ^ rivNbits1C cell.nofPrb nGap
  nGap : cell.nofPrb < 50 → nGap = .ng1
  mcs : dci.tb0.mcsIdx < 2 ^ 5

/-- The fields of format 1C that are the same -/
structure Same1C (cell : Cell) (dci dci' : DciDl) : Prop where
  alloc : dci'.alloc = carried1C cell dci.alloc
  mcsIdx : dci'.tb0.mcsIdx = dci.tb0.mcsIdx

/-- The gaps differ by a bit of the RIV at most. -/
theorem rivNbits1C_le : ∀ nofPrb < 101,
    50 ≤ nofPrb → rivNbits1C nofPrb .ng1 ≤ rivNbits1C nofPrb .ng2 + 1 := by
  decide

theorem format1C_iff (hprb : 6 ≤ cell.nofPrb ∧ cell.nofPrb ≤ 100) {dci : DciDl} {riv : Nat}
    {nPrb1a : NPrb1a} {nGap : NGap} (h : InRange1C cell cfg dci riv nPrb1a nGap)
    (hformat : dci.format = .format1C) (payload : List Bool) :
    (∃ msg, dciMsgPackPdsch cell sf cfg dci payload = some msg ∧
      msg.nofBits = dciFormatSizeof cell sf cfg .format1C ∧
      ∃ dci', dciMsgUnpackPdsch cell sf cfg msg = some dci' ∧ Same1C cell dci dci') ↔
    cfg.cifEnabled = false ∧ rivNbits1C cell.nofPrb nGap = rivNbits1C cell.nofPrb .ng1 := by
  have hpack : ∃ bits, dciFormat1CsPack cell dci = some bits ∧
      bits = optBits cfg.cifEnabled 3 dci.cif ++ ((if 50 ≤ cell.nofPrb then [nGap.bit] else []) ++
        (bitsOf (rivNbits1C cell.nofPrb nGap) riv ++ bitsOf 5 dci.tb0.mcsIdx)) := by
    refine ⟨_, ?_, rfl⟩
    rw [dciFormat1CsPack, h.alloc, h.present]
    simp only [List.append_assoc]
  obtain ⟨bits, hpack, hbits⟩ := hpack
  have hcall : dciMsgPackPdsch cell sf cfg dci payload =
      some ⟨written bits payload, bits.length, .format1C, dci.rnti⟩ := by
    rw [dciMsgPackPdsch, hformat]
    simp only [hpack, Option.map_some]
  have hlength : bits.length = dciFormatSizeof cell sf cfg .format1C ↔
      cfg.cifEnabled = false ∧ rivNbits1C cell.nofPrb nGap = rivNbits1C cell.nofPrb .ng1 := by
    have hsizeof : dciFormatSizeof cell sf cfg .format1C =
        rivNbits1C cell.nofPrb .ng1 + 5 + if 50 ≤ cell.nofPrb then 1 else 0 := by
      show dciFormat1CSizeof cell = _
      rw [dciFormat1CSizeof]
      split
      · rfl
      · rfl
    -- a carrier indicator has more bits than the gaps differ by
    have hgap : rivNbits1C cell.nofPrb .ng1 < rivNbits1C cell.nofPrb nGap + 3 := by
      by_cases hlarge : 50 ≤ cell.nofPrb
      · have hle := rivNbits1C_le cell.nofPrb (by omega) hlarge
        cases nGap with
        | ng1 => omega
        | ng2 => omega
      · rw [h.nGap (by omega)]
        omega
    rw [hsizeof, hbits]
    simp only [List.length_append, length_optBits, length_bitsOf]
    cases cfg.cifEnabled with
    | false =>
      simp only [Bool.false_eq_true, if_false, true_and]
      split_ifs <;> simp only [List.length_singleton, List.length_nil] <;> omega
    | true =>
      simp only [if_true, reduceCtorEq, false_and, iff_false]
      split_ifs <;> simp only [List.length_singleton, List.length_nil] <;> omega
  rw [← hlength]
  constructor
  · rintro ⟨msg, hmsg, hnofBits, -⟩
    rw [hcall] at hmsg
    cases hmsg
    exact hnofBits
  · intro hnofBits
    refine ⟨_, hcall, hnofBits, ?_⟩
    have hno := (hlength.mp hnofBits).1
    have hmcs := Nat.mod_eq_of_lt h.mcs
    have hriv := Nat.mod_eq_of_lt h.riv
    rw [dciMsgUnpackPdsch, dciFormat1CsUnpack, if_neg (not_not.mpr hnofBits)]
    refine ⟨_, rfl, ?_⟩
    rw [hbits, hno, written]
    by_cases hlarge : 50 ≤ cell.nofPrb
    · constructor
      · simp [hlarge, optBits, ofBit_bit_gap, h.alloc, carried1C, hriv]
      · simp [hlarge, optBits, ofBit_bit_gap, -Nat.reducePow, hmcs]
    · -- the only gap is the one that is read where there is no bit
      have hgap := h.nGap (by omega)
      subst hgap
      constructor
      · simp [hlarge, optBits, NGap.ofBit, h.alloc, carried1C, hriv]
      · simp [hlarge, optBits, NGap.ofBit, -Nat.reducePow, hmcs]

/-! ### Format 1A -/

/-- The allocation of format 1A, with the defaults where there are no fields -/
def carried1A (cell : Cell) (rnti : Nat) : Alloc → Alloc
  | .type2 riv nPrb1a nGap mode => .type2 riv (if rntiIsUser rnti then .prb2 else nPrb1a)
      (if 50 ≤ cell.nofPrb ∧ mode = .dist then nGap else .ng1) mode
  | alloc => alloc

/-- A DCI of format 1A with each field in its range. The RIV is that of a part of the cell. -/
structure InRange1A (cell : Cell) (sf : SfCfg) (cfg : DciCfg) (dci : DciDl) (riv : Nat) (nPrb1a : NPrb1a)
    (nGap : NGap) (mode : Mode) : Prop extends CifInRange cfg dci where
  alloc : dci.alloc = .type2 riv nPrb1a nGap mode
  valid : riv < cell.nofPrb * (cell.nofPrb + 1) / 2
  riv : riv < 2 ^ (rivNbits cell.nofPrb - (hasGapBit cell dci.rnti mode).toNat)
  mcs : dci.tb0.mcsIdx < 2 ^ 5
  pid : dci.pid < 2 ^ harqPidLen cell sf
  rv : RvInRange dci.tb0.rv

/-- The fields of format 1A that are the same, in a message that is no order -/
structure Same1A (cell : Cell) (cfg : DciCfg) (dci dci' : DciDl) : Prop where
  noOrder : dci'.isRaOrder = false
  cif : cfg.cifEnabled = true → dci'.cif = dci.cif
  alloc : dci'.alloc = carried1A cell dci.rnti dci.alloc
  mcsIdx : dci'.tb0.mcsIdx = dci.tb0.mcsIdx
  pid : dci'.pid = dci.pid
  ndi : rntiIsUser dci.rnti = true → dci'.tb0.ndi = dci.tb0.ndi
  rv : dci'.tb0.rv = dci.tb0.rv
  dai : cell.isTdd = true → dci'.dai = dci.dai

/-- No allocation has a RIV of ones only. -/
theorem triangle_lt_rivNbits : ∀ nofPrb < 101,
    6 ≤ nofPrb → nofPrb * (nofPrb + 1) / 2 < 2 ^ rivNbits nofPrb := by
  decide

/-- The RIV of a message that is no order has a zero. -/
theorem not_isRandomAccessOrder (rnti : Nat) (nGap : NGap) (mode : Mode)
    (hprb : 6 ≤ cell.nofPrb ∧ cell.nofPrb ≤ 100) {riv : Nat} (hvalid : riv < cell.nofPrb * (cell.nofPrb + 1) / 2) (nofBits : Nat) (rest : List Bool) :
    isRandomAccessOrder cell nofBits (mode.bit ::
      ((if hasGapBit cell rnti mode then [nGap.bit] else []) ++
        (bitsOf (rivNbits cell.nofPrb - (hasGapBit cell rnti mode).toNat) riv ++ rest))) = false := by
  rw [Bool.eq_false_iff]
  intro horder
  rw [isRandomAccessOrder] at horder
  simp only [Bool.and_eq_true] at horder
  obtain ⟨⟨⟨hmode, hones⟩, -⟩, -⟩ := horder
  have hloc : mode = .loc := by
    cases mode with
    | loc => rfl
    | dist => exact absurd hmode Bool.false_ne_true
  have hgap : hasGapBit cell rnti mode = false := by
    rw [hloc, hasGapBit]
    cases rntiIsUser rnti <;> rfl
  rw [hgap] at hones
  rw [if_neg Bool.false_ne_true, List.nil_append, Bool.toNat_false, Nat.sub_zero, List.tail_cons,
    List.take_left' (length_bitsOf _ _), List.all_eq_true] at hones
  have hall := ofBits_of_all fun b hb => beq_iff_eq.mp (hones b hb)
  have hlt := triangle_lt_rivNbits cell.nofPrb (by omega) hprb.1
  rw [ofBits_bitsOf, length_bitsOf, Nat.mod_eq_of_lt (Nat.lt_trans hvalid hlt)] at hall
  omega

/-- The fields of format 1A: `x` is in the place of the NDI, `r` and `q` are in that of the TPC command. -/
def fields1A (cell : Cell) (sf : SfCfg) (cfg : DciCfg) (dci : DciDl) (riv : Nat) (nGap : NGap) (mode : Mode)
    (x r q : Bool) : List Bool :=
  optBits cfg.cifEnabled 3 dci.cif ++ (true :: mode.bit ::
    ((if hasGapBit cell dci.rnti mode then [nGap.bit] else []) ++
      (bitsOf (rivNbits cell.nofPrb - (hasGapBit cell dci.rnti mode).toNat) riv ++
        (bitsOf 5 dci.tb0.mcsIdx ++ (bitsOf (harqPidLen cell sf) dci.pid ++
          (x :: (rvBits dci.tb0.rv ++ [r, q])))))))

/-- In TDD there is room for the DAI behind the fields. -/
theorem length_fields1A_le (sf : SfCfg) (cfg : DciCfg) (hprb : 6 ≤ cell.nofPrb ∧ cell.nofPrb ≤ 100)
    (dci : DciDl) (riv : Nat) (nGap : NGap) (mode : Mode) (x r q : Bool) :
    (fields1A cell sf cfg dci riv nGap mode x r q).length + (if cell.isTdd then 2 else 0) ≤
      dciFormatSizeof cell sf cfg .format1A := by
  have hpos : 0 < rivNbits cell.nofPrb := by
    have hlt := triangle_lt_rivNbits cell.nofPrb (by omega) hprb.1
    have hsquare := Nat.mul_le_mul hprb.1 (Nat.add_le_add_right hprb.1 1)
    refine Nat.pos_of_ne_zero fun hzero => ?_
    rw [hzero] at hlt
    omega
  have hgap : (if hasGapBit cell dci.rnti mode then [nGap.bit] else []).length =
      (hasGapBit cell dci.rnti mode).toNat := by
    cases hasGapBit cell dci.rnti mode <;> rfl
  have hbit := Bool.toNat_le (hasGapBit cell dci.rnti mode)
  show _ ≤ dciFormat1ASizeof cell sf cfg
  rw [dciFormat1ASizeof, fields1A]
  simp only [List.length_append, List.length_cons, length_optBits, length_bitsOf, hgap, rvBits,
    List.length_nil]
  split_ifs <;> omega

/-- What is packed of format 1A. Of the last bits, those that are reserved are not determined. -/
theorem format1A_pack {dci : DciDl} {riv : Nat} {nPrb1a : NPrb1a} {nGap : NGap} {mode : Mode}
    (h : InRange1A cell sf cfg dci riv nPrb1a nGap mode) (payload : List Bool) :
    ∃ x r q, dciFormat1AsPack cell sf cfg dci payload = some (pad (dciFormatSizeof cell sf cfg .format1A)
        (fields1A cell sf cfg dci riv nGap mode x r q)) ∧
      (rntiIsUser dci.rnti = true → x = dci.tb0.ndi) ∧
      (rntiIsUser dci.rnti = false → 50 ≤ cell.nofPrb ∧ mode = .dist → x = nGap.bit) ∧
      (rntiIsUser dci.rnti = false → q = nPrb1a.bit) := by
  rw [dciFormat1AsPack, h.alloc, h.present]
  dsimp only
  cases huser : rntiIsUser dci.rnti with
  | true =>
    refine ⟨dci.tb0.ndi, false, false, ?_, fun _ => rfl, nofun, nofun⟩
    simp [fields1A]
  | false =>
    by_cases hdist : 50 ≤ cell.nofPrb ∧ mode = .dist
    · simp only [if_pos hdist, Bool.false_eq_true, if_false]
      generalize payload.getD _ false = r
      refine ⟨nGap.bit, r, nPrb1a.bit, ?_, nofun, fun _ _ => rfl, fun _ => rfl⟩
      simp [fields1A]
    · simp only [if_neg hdist, Bool.false_eq_true, if_false]
      generalize payload.getD _ false = x
      generalize payload.getD _ false = r
      refine ⟨x, r, nPrb1a.bit, ?_, nofun, fun _ hno => absurd hno hdist, fun _ => rfl⟩
      simp [fields1A]

/-- A bit that is there under a condition is read back. -/
theorem readOpt_bit (b c : Bool) (bits : List Bool) :
    readOpt b 1 ((if b then [c] else []) ++ bits) = (if b then c.toNat else 0, bits) := by
  cases b with
  | false => rfl
  | true => exact readBits_one c bits

theorem format1A_unpack (hprb : 6 ≤ cell.nofPrb ∧ cell.nofPrb ≤ 100) {dci : DciDl} {riv : Nat}
    {nPrb1a : NPrb1a} {nGap : NGap} {mode : Mode} (hformat : dci.format = .format1A)
    (h : InRange1A cell sf cfg dci riv nPrb1a nGap mode) (payload : List Bool) :
    ∃ msg, dciMsgPackPdsch cell sf cfg dci payload = some msg ∧
      msg.nofBits = dciFormatSizeof cell sf cfg .format1A ∧
      ∃ dci', dciMsgUnpackPdsch cell sf cfg msg = some dci' ∧
        (Same1A cell cfg dci dci' ↔ (cell.isTdd = true → dci.dai = 0)) := by
  obtain ⟨x, r, q, hpack, hndi, hgapBit, hprb1a⟩ := format1A_pack h payload
  obtain ⟨hlength, k, rest, hk, hpayload⟩ :=
    padded_fields (length_fields1A_le sf cfg hprb dci riv nGap mode x r q) payload
  refine ⟨_, by rw [dciMsgPackPdsch, hformat, hpack]; rfl, hlength, ?_⟩
  have hcif := Nat.mod_eq_of_lt h.cif
  have hriv := Nat.mod_eq_of_lt h.riv
  have hmcs := Nat.mod_eq_of_lt h.mcs
  have hpid := Nat.mod_eq_of_lt h.pid
  have hrv := rv_read h.rv
  have hdai := readOpt_replicate cell.isTdd (n := 2) (k := k) (fun htdd => by rw [htdd] at hk; exact hk) rest
  have hnoOrder := not_isRandomAccessOrder dci.rnti nGap mode hprb h.valid
  rw [dciMsgUnpackPdsch, dciFormat1AsUnpack]
  simp only [hpayload]
  simp only [fields1A, List.append_assoc, List.cons_append, List.nil_append, readOpt_append, readBit_cons,
    hnoOrder, ofBit_bit_mode, readOpt_bit, readBits_append, rvBits, hcif, hriv, hmcs, hpid, hrv, hdai,
    reduceCtorEq, if_false, Bool.false_eq_true]
  refine ⟨_, rfl, ?_⟩
  constructor
  · exact fun hs htdd => (hs.dai htdd).symm
  · intro hagrees
    refine ⟨rfl, fun hon => if_pos hon, ?_, rfl, rfl, fun huser => ?_, rfl, fun htdd => (hagrees htdd).symm⟩
    · rw [h.alloc, carried1A, hasGapBit]
      dsimp only
      congr 1
      · cases huser : rntiIsUser dci.rnti with
        | true => rfl
        | false =>
          rw [hprb1a huser]
          exact ofBit_bit_nPrb1a nPrb1a
      · cases huser : rntiIsUser dci.rnti with
        | true =>
          by_cases hdist : 50 ≤ cell.nofPrb ∧ mode = .dist
          · simp [hdist, ofBit_bit_gap]
          · have hno : (mode == .dist && decide (50 ≤ cell.nofPrb)) = false := by
              rw [Bool.eq_false_iff]
              intro hyes
              rw [Bool.and_eq_true, beq_iff_eq, decide_eq_true_iff] at hyes
              exact hdist hyes.symm
            rw [Bool.true_and, hno, if_pos rfl, if_neg hdist]
            rfl
        | false =>
          by_cases hdist : 50 ≤ cell.nofPrb ∧ mode = .dist
          · rw [hgapBit huser hdist, if_pos hdist, if_pos hdist]
            exact ofBit_bit_gap nGap
          · rw [if_neg hdist, if_neg hdist]
            rfl
    · dsimp only
      rw [huser, hndi huser, Bool.true_and]

end

/-! ### All formats -/

/-- The gap of an allocation -/
def Alloc.nGap : Alloc → NGap
  | .type2 _ _ nGap _ => nGap
  | _ => .ng1

/-- A DCI for the uplink or the downlink -/
inductive AnyDci where
  | ul (dci : DciUl)
  | dl (dci : DciDl)
deriving DecidableEq, Repr

/-- Each field of a DCI is in its range, in the format it has. -/
def InRange (cell : Cell) (sf : SfCfg) (cfg : DciCfg) : AnyDci → Prop
  | .ul dci => UlInRange cell cfg dci
  | .dl dci =>
    match dci.format with
    | .format0 => False
    | .format1 => InRange1 cell sf cfg dci
    | .format1A => ∃ riv nPrb1a nGap mode, InRange1A cell sf cfg dci riv nPrb1a nGap mode
    | .format1C => ∃ riv nPrb1a nGap, InRange1C cell cfg dci riv nPrb1a nGap
    | format => InRange2AB format cell sf cfg dci

/-- The fields that a format has are the same. -/
def SameDl (cell : Cell) (cfg : DciCfg) (dci dci' : DciDl) : Prop :=
  match dci.format with
  | .format0 => False
  | .format1 => Same1 cell cfg dci dci'
  | .format1A => Same1A cell cfg dci dci'
  | .format1C => Same1C cell dci dci'
  | format => Same2AB format cell cfg dci dci'

/-- A DCI is packed into a message of the size of its format, which is unpacked to the same fields. -/
def RoundTrips (cell : Cell) (sf : SfCfg) (cfg : DciCfg) (payload : List Bool) : AnyDci → Prop
  | .ul dci => (dciMsgPackPusch cell sf cfg dci payload).nofBits = dciFormatSizeof cell sf cfg .format0 ∧
      ∃ dci', dciMsgUnpackPusch cell sf cfg (dciMsgPackPusch cell sf cfg dci payload) = some dci' ∧
        SameUl cell sf cfg dci dci'
  | .dl dci => ∃ msg, dciMsgPackPdsch cell sf cfg dci payload = some msg ∧
      msg.nofBits = dciFormatSizeof cell sf cfg dci.format ∧
      ∃ dci', dciMsgUnpackPdsch cell sf cfg msg = some dci' ∧ SameDl cell cfg dci dci'

/-- Where the two sides agree. In TDD what is not packed, and what is behind it, is zero. In format 1C there
is no carrier indicator, and the RIV has as many bits as with the first gap. -/
def Agrees (cell : Cell) (sf : SfCfg) (cfg : DciCfg) : AnyDci → Prop
  | .ul dci => UlAgrees cell sf cfg dci
  | .dl dci =>
    match dci.format with
    | .format0 => False
    | .format1 | .format1A => cell.isTdd = true → dci.dai = 0
    | .format1C => cfg.cifEnabled = false ∧
        rivNbits1C cell.nofPrb dci.alloc.nGap = rivNbits1C cell.nofPrb .ng1
    | format => Agrees2AB format cell dci

/-- A step that is taken by both sides is left out of the comparison. -/
theorem exists_roundTrip_iff {cell : Cell} {sf : SfCfg} {cfg : DciCfg} {dci : DciDl} {payload : List Bool}
    {size : Nat} {Same : DciDl → DciDl → Prop} {agrees : Prop}
    (h : ∃ msg, dciMsgPackPdsch cell sf cfg dci payload = some msg ∧ msg.nofBits = size ∧
      ∃ dci', dciMsgUnpackPdsch cell sf cfg msg = some dci' ∧ (Same dci dci' ↔ agrees)) :
    (∃ msg, dciMsgPackPdsch cell sf cfg dci payload = some msg ∧ msg.nofBits = size ∧
      ∃ dci', dciMsgUnpackPdsch cell sf cfg msg = some dci' ∧ Same dci dci') ↔ agrees := by
  obtain ⟨msg, hpack, hsize, dci', hunpack, hiff⟩ := h
  rw [← hiff]
  constructor
  · rintro ⟨msg', hpack', -, dci'', hunpack', hsame⟩
    cases hpack.symm.trans hpack'
    cases hunpack.symm.trans hunpack'
    exact hsame
  · exact fun hsame => ⟨msg, hpack, hsize, dci', hunpack, hsame⟩

/-- The codec gives each DCI back exactly where packing and unpacking agree on what is in the message. -/
theorem dciCodec_iff (cell : Cell) (sf : SfCfg) (cfg : DciCfg) (hprb : 6 ≤ cell.nofPrb ∧ cell.nofPrb ≤ 100)
    (hcsi : hasMultipleCsi cfg = false) (dci : AnyDci) (h : InRange cell sf cfg dci) (payload : List Bool) :
    RoundTrips cell sf cfg payload dci ↔ Agrees cell sf cfg dci := by
  cases dci with
  | ul dci =>
    obtain ⟨dci', hunpack, hiff⟩ := format0_unpack hcsi h payload
    have hlength : (dciMsgPackPusch cell sf cfg dci payload).nofBits = _ :=
      length_format0 dci h.cifPresent h.noHopping
    rw [RoundTrips, and_iff_right hlength, Agrees, ← hiff, hunpack]
    exact ⟨fun ⟨_, heq, hsame⟩ => by cases heq; exact hsame, fun hsame => ⟨dci', rfl, hsame⟩⟩
  | dl dci =>
    simp only [InRange] at h
    simp only [RoundTrips, Agrees, SameDl]
    cases hformat : dci.format with
    | format0 =>
      rw [hformat] at h
      exact absurd h id
    | format1 =>
      rw [hformat] at h
      exact exists_roundTrip_iff (format1_unpack h payload hformat)
    | format1A =>
      rw [hformat] at h
      obtain ⟨riv, nPrb1a, nGap, mode, h⟩ := h
      exact exists_roundTrip_iff (format1A_unpack hprb hformat h payload)
    | format1C =>
      rw [hformat] at h
      obtain ⟨riv, nPrb1a, nGap, h⟩ := h
      rw [h.alloc]
      exact format1C_iff hprb h hformat payload
    | format2 =>
      rw [hformat] at h
      exact exists_roundTrip_iff (format2AB_unpack (Or.inl rfl) hformat h payload)
    | format2A =>
      rw [hformat] at h
      exact exists_roundTrip_iff (format2AB_unpack (Or.inr (Or.inl rfl)) hformat h payload)
    | format2B =>
      rw [hformat] at h
      exact exists_roundTrip_iff (format2AB_unpack (Or.inr (Or.inr rfl)) hformat h payload)

/-- A TDD cell of 50 PRBs with two ports, and no optional fields -/
def tddCell : Cell := ⟨50, 2, true⟩

def plainCfg : DciCfg := ⟨false, false, false, false, false⟩

/-- A DCI of format 2 for HARQ process 5 -/
def dciOfProcess5 : DciDl where
  rnti := 70
  format := .format2
  alloc := .type0 1
  tb0 := ⟨10, 0, true, 0⟩
  tb1 := ⟨10, 0, true, 0⟩
  tbCwSwap := false
  pinfo := 0
  tpcPucch := 1
  isRaOrder := false
  raPreamble := 0
  raMaskIdx := 0
  cif := 0
  cifPresent := false
  pid := 5
  dai := 1
  isTdd := true
  sramId := false

/-- A grant of format 2 in FDD comes back. -/
theorem dciCodec_fdd : RoundTrips ⟨50, 2, false⟩ ⟨1⟩ plainCfg [] (.dl dciOfProcess5) := by
  refine (dciCodec_iff ⟨50, 2, false⟩ ⟨1⟩ plainCfg (by decide) rfl (.dl dciOfProcess5) ?_ []).mpr nofun
  exact ⟨⟨rfl, by decide⟩, by decide, by decide, ⟨by decide, by decide, ⟨by decide, by decide⟩,
    by decide, ⟨by decide, by decide⟩, fun _ => by decide⟩⟩

/-- In TDD the HARQ process of the same grant is read two bits too late. -/
theorem dciCodec_tdd_shifted : ¬ ∀ dci, InRange tddCell ⟨1⟩ plainCfg dci →
    RoundTrips tddCell ⟨1⟩ plainCfg [] dci := by
  intro h
  obtain ⟨msg, hpack, -, dci', hunpack, hsame⟩ := h (.dl dciOfProcess5)
    ⟨⟨rfl, by decide⟩, by decide, by decide, ⟨by decide, by decide, ⟨by decide, by decide⟩,
      by decide, ⟨by decide, by decide⟩, fun _ => by decide⟩⟩
  have hread : ((dciMsgPackPdsch tddCell ⟨1⟩ plainCfg dciOfProcess5 []).bind
      (dciMsgUnpackPdsch tddCell ⟨1⟩ plainCfg)).map (·.pid) = some 4 := by
    decide
  rw [hpack, Option.bind_some, hunpack] at hread
  have hpid : dci'.pid = 5 := hsame.body.pid
  rw [Option.map_some, hpid] at hread
  cases hread

end Odss.Phy.Dci
