import Odss.Lib.BitStream

/-!
# `Odss.Phy.Dci`: the LTE DCI codec

The model of the sizes of the DCI formats and of the functions that pack and unpack formats 0, 1, 1A, 1C, 2,
2A and 2B (`lib/src/phy/phch/dci.c`), with what they take of `ra.c`. A byte of a payload is one bit. The
payload is the list of the bits of the array, of which those that are not written are those that were there
before. Logarithms and quotients that are rounded up are taken of whole numbers. Log output, locations and
the fields of a DCI that neither packing nor unpacking has are left out.
-/

set_option linter.all false

namespace Odss.Phy.Dci

open Odss.Lib (bitsOf ofBits readBits readBit optBits readOpt)

/-- `SRSRAN_DCI_MAX_BITS` -/
abbrev dciMaxBits : Nat := 128

/-- The formats that are modelled -/
inductive Format where
  | format0
  | format1
  | format1A
  | format1C
  | format2
  | format2A
  | format2B
deriving DecidableEq, Repr

/-- `srsran_cell_t`, what is read of it -/
structure Cell where
  nofPrb : Nat
  nofPorts : Nat
  isTdd : Bool
deriving DecidableEq, Repr

/-- `srsran_dl_sf_cfg_t`, what is read of it: `tdd_config.sf_config` -/
structure SfCfg where
  sfConfig : Nat
deriving DecidableEq, Repr

/-- `srsran_dci_cfg_t` -/
structure DciCfg where
  multipleCsiRequestEnabled : Bool
  cifEnabled : Bool
  srsRequestEnabled : Bool
  raFormatEnabled : Bool
  isNotUeSs : Bool
deriving DecidableEq, Repr

/-- `IS_TDD_CFG0` -/
def isTddCfg0 (cell : Cell) (sf : SfCfg) : Bool := cell.isTdd && sf.sfConfig == 0

/-- `HARQ_PID_LEN` -/
def harqPidLen (cell : Cell) (sf : SfCfg) : Nat := if cell.isTdd || isTddCfg0 cell sf then 4 else 3

/-- The logarithm to base 2, rounded up -/
def ceilLog2 (n : Nat) : Nat := if n ≤ 1 then 0 else Nat.log2 (n - 1) + 1

/-- A quotient, rounded up -/
def ceilDiv (m n : Nat) : Nat := (m + n - 1) / n

/-- `riv_nbits` -/
def rivNbits (nofPrb : Nat) : Nat := ceilLog2 (nofPrb * (nofPrb + 1) / 2)

/-- `SRSRAN_RNTI_ISUSER` -/
def rntiIsUser (rnti : Nat) : Bool := decide (0x000B ≤ rnti ∧ rnti ≤ 0xFFF3)

/-! ### Resource allocation -/

/-- `srsran_ra_type0_P` -/
def raType0P (nofPrb : Nat) : Nat :=
  if nofPrb ≤ 10 then 1 else if nofPrb ≤ 26 then 2 else if nofPrb ≤ 63 then 3 else 4

/-- `srsran_ra_type2_ngap` -/
def raType2Ngap (nofPrb : Nat) (ngapIs1 : Bool) : Nat :=
  if nofPrb ≤ 10 then nofPrb / 2
  else if nofPrb = 11 then 4
  else if nofPrb ≤ 19 then 8
  else if nofPrb ≤ 26 then 12
  else if nofPrb ≤ 44 then 18
  else if nofPrb ≤ 49 then 27
  else if nofPrb ≤ 63 then (if ngapIs1 then 27 else 9)
  else if nofPrb ≤ 79 then (if ngapIs1 then 32 else 16)
  else (if ngapIs1 then 48 else 16)

/-- `srsran_ra_type2_n_rb_step` -/
def raType2NRbStep (nofPrb : Nat) : Nat := if nofPrb < 50 then 2 else 4

/-- `srsran_ra_type2_n_vrb_dl` -/
def raType2NVrbDl (nofPrb : Nat) (ngapIs1 : Bool) : Nat :=
  let ngap := raType2Ngap nofPrb ngapIs1
  if ngapIs1 then 2 * (if ngap < nofPrb - ngap then ngap else nofPrb - ngap)
  else nofPrb / ngap * 2 * ngap

/-- The values of `n_prb1a` -/
inductive NPrb1a where
  | prb2
  | prb3
deriving DecidableEq, Repr

/-- The values of `n_gap` -/
inductive NGap where
  | ng1
  | ng2
deriving DecidableEq, Repr

/-- The values of `mode` -/
inductive Mode where
  | loc
  | dist
deriving DecidableEq, Repr

/-- The bit of `n_prb1a` -/
def NPrb1a.bit : NPrb1a → Bool
  | .prb2 => false
  | .prb3 => true

/-- `n_prb1a` of a bit -/
def NPrb1a.ofBit (b : Bool) : NPrb1a := if b then .prb3 else .prb2

/-- The bit of `n_gap` -/
def NGap.bit : NGap → Bool
  | .ng1 => false
  | .ng2 => true

/-- `n_gap` of a bit -/
def NGap.ofBit (b : Bool) : NGap := if b then .ng2 else .ng1

/-- The bit of `mode` -/
def Mode.bit : Mode → Bool
  | .loc => false
  | .dist => true

/-- `mode` of a bit -/
def Mode.ofBit (b : Bool) : Mode := if b then .dist else .loc

/-- `alloc_type` with its member of the union -/
inductive Alloc where
  | type0 (rbgBitmask : Nat)
  | type1 (vrbBitmask rbgSubset : Nat) (shift : Bool)
  | type2 (riv : Nat) (nPrb1a : NPrb1a) (nGap : NGap) (mode : Mode)
deriving DecidableEq, Repr

/-! ### DCIs -/

/-- `srsran_dci_tb_t` -/
structure DciTb where
  mcsIdx : Nat
  rv : Int
  ndi : Bool
  cwIdx : Nat
deriving DecidableEq, Repr

/-- `srsran_dci_dl_t` -/
structure DciDl where
  rnti : Nat
  format : Format
  alloc : Alloc
  tb0 : DciTb
  tb1 : DciTb
  tbCwSwap : Bool
  pinfo : Nat
  tpcPucch : Nat
  isRaOrder : Bool
  raPreamble : Nat
  raMaskIdx : Nat
  cif : Nat
  cifPresent : Bool
  pid : Nat
  dai : Nat
  isTdd : Bool
  sramId : Bool
deriving DecidableEq, Repr

/-- `srsran_dci_ul_t`. `none` is `SRSRAN_RA_PUSCH_HOP_DISABLED`. -/
structure DciUl where
  rnti : Nat
  format : Format
  freqHopFl : Option Nat
  riv : Nat
  tb : DciTb
  nDmrs : Nat
  cqiRequest : Bool
  dai : Nat
  ulIdx : Nat
  isTdd : Bool
  tpcPusch : Nat
  cif : Nat
  cifPresent : Bool
  multipleCsiRequest : Nat
  multipleCsiRequestPresent : Bool
  srsRequest : Bool
  srsRequestPresent : Bool
  raType : Bool
  raTypePresent : Bool
deriving DecidableEq, Repr

/-- `srsran_dci_msg_t` -/
structure Msg where
  payload : List Bool
  nofBits : Nat
  format : Format
  rnti : Nat
deriving DecidableEq, Repr

/-- The payload with bits written from its front on -/
def written (bits payload : List Bool) : List Bool := bits ++ payload.drop bits.length

/-- The zeros behind the fields, up to `n` bits -/
def pad (n : Nat) (bits : List Bool) : List Bool := bits ++ List.replicate (n - bits.length) false

/-- `rv` as a field -/
def rvBits (rv : Int) : List Bool := bitsOf 2 (rv % 2 ^ 32).toNat

/-! ### Sizes -/

/-- `ambiguous_sizes` -/
def ambiguousSizes : List Nat := [12, 14, 16, 20, 24, 26, 32, 40, 44, 56]

/-- `is_ambiguous_size` -/
def isAmbiguousSize (size : Nat) : Bool := ambiguousSizes.contains size

/-- The loop that goes on while the size is one of those that are avoided, for so many rounds -/
def skipLoop (avoid : List Nat) : Nat → Nat → Nat
  | 0, n => n
  | fuel + 1, n => if n ∈ avoid then skipLoop avoid fuel (n + 1) else n

/-- The next size that is not avoided. Each round passes one of those that are. -/
def skipSizes (avoid : List Nat) (n : Nat) : Nat := skipLoop avoid avoid.length n

/-- `srs_request` is in format 0. -/
def hasSrsRequest (cfg : DciCfg) : Bool := cfg.srsRequestEnabled && !cfg.isNotUeSs

/-- The CSI request has two bits. -/
def hasMultipleCsi (cfg : DciCfg) : Bool := cfg.multipleCsiRequestEnabled && !cfg.isNotUeSs

/-- `dci_format0_sizeof_` -/
def dciFormat0Sizeof_ (cell : Cell) (sf : SfCfg) (cfg : DciCfg) : Nat :=
  (if cfg.cifEnabled then 3 else 0) + 1 + 1 + rivNbits cell.nofPrb + 5 + 1 + 2 + 3 +
    (if cell.isTdd || isTddCfg0 cell sf then 2 else 0) + (if hasMultipleCsi cfg then 2 else 1) +
    (if hasSrsRequest cfg then 1 else 0) + 1

/-- `dci_format1A_sizeof` -/
def dciFormat1ASizeof (cell : Cell) (sf : SfCfg) (cfg : DciCfg) : Nat :=
  let n := (if cfg.cifEnabled then 3 else 0) + 1 + 1 + rivNbits cell.nofPrb + 5 + harqPidLen cell sf + 1 +
    2 + 2 + (if cell.isTdd then 2 else 0) + (if cfg.srsRequestEnabled then 1 else 0)
  let n := max n (dciFormat0Sizeof_ cell sf cfg)
  if isAmbiguousSize n then n + 1 else n

/-- `dci_format0_sizeof` -/
def dciFormat0Sizeof (cell : Cell) (sf : SfCfg) (cfg : DciCfg) : Nat :=
  max (dciFormat0Sizeof_ cell sf cfg) (dciFormat1ASizeof cell sf cfg)

/-- The bits of a resource allocation of type 0 or 1, without the one for the type -/
def allocSize (nofPrb : Nat) : Nat := ceilDiv nofPrb (raType0P nofPrb)

/-- `dci_format1_sizeof` -/
def dciFormat1Sizeof (cell : Cell) (sf : SfCfg) (cfg : DciCfg) : Nat :=
  let n := allocSize cell.nofPrb + 5 + harqPidLen cell sf + 1 + 2 + 2 +
    (if cfg.cifEnabled then 3 else 0) + (if cell.isTdd then 2 else 0)
  let n := if 10 < cell.nofPrb then n + 1 else n
  skipSizes (dciFormat0Sizeof cell sf cfg :: dciFormat1ASizeof cell sf cfg :: ambiguousSizes) n

/-- `dci_format1C_sizeof` -/
def dciFormat1CSizeof (cell : Cell) : Nat :=
  let n := rivNbits (raType2NVrbDl cell.nofPrb true / raType2NRbStep cell.nofPrb) + 5
  if 50 ≤ cell.nofPrb then n + 1 else n

/-- `precoding_bits_f2` -/
def precodingBitsF2 (nofPorts : Nat) : Nat := if nofPorts ≤ 2 then 3 else 6

/-- `precoding_bits_f2a` -/
def precodingBitsF2a (nofPorts : Nat) : Nat := if nofPorts ≤ 2 then 0 else 2

/-- The bits of the precoding information of formats 2, 2A and 2B -/
def precodingBits (format : Format) (nofPorts : Nat) : Nat :=
  match format with
  | .format2 => precodingBitsF2 nofPorts
  | .format2A => precodingBitsF2a nofPorts
  | _ => 0

/-- `dci_format2_sizeof`, `dci_format2A_sizeof` and `dci_format2B_sizeof` -/
def dciFormat2ABSizeof (format : Format) (cell : Cell) (sf : SfCfg) (cfg : DciCfg) : Nat :=
  let n := allocSize cell.nofPrb + 2 + harqPidLen cell sf + 1 + 2 * (5 + 1 + 2) +
    precodingBits format cell.nofPorts + (if cfg.cifEnabled then 3 else 0) + (if cell.isTdd then 2 else 0)
  let n := if 10 < cell.nofPrb then n + 1 else n
  skipSizes ambiguousSizes n

/-- `srsran_dci_format_sizeof` -/
def dciFormatSizeof (cell : Cell) (sf : SfCfg) (cfg : DciCfg) : Format → Nat
  | .format0 => dciFormat0Sizeof cell sf cfg
  | .format1 => dciFormat1Sizeof cell sf cfg
  | .format1A => dciFormat1ASizeof cell sf cfg
  | .format1C => dciFormat1CSizeof cell
  | .format2 => dciFormat2ABSizeof .format2 cell sf cfg
  | .format2A => dciFormat2ABSizeof .format2A cell sf cfg
  | .format2B => dciFormat2ABSizeof .format2B cell sf cfg

/-! ### Format 0 -/

/-- The frequency hopping flag with its bits -/
def hopBits (cell : Cell) (freqHopFl : Option Nat) : List Bool :=
  match freqHopFl with
  | none => [false]
  | some hop => true :: if cell.nofPrb < 50 then bitsOf 1 hop else bitsOf 2 hop

/-- `n_ul_hop` -/
def nUlHop (cell : Cell) (hops : Bool) : Nat := if hops then (if cell.nofPrb < 50 then 1 else 2) else 0

/-- `dci_format0_pack` -/
def dciFormat0Pack (cell : Cell) (sf : SfCfg) (cfg : DciCfg) (dci : DciUl) : List Bool :=
  pad (dciFormatSizeof cell sf cfg .format0) <|
    optBits dci.cifPresent 3 dci.cif ++ [false] ++ hopBits cell dci.freqHopFl ++
    bitsOf (rivNbits cell.nofPrb - nUlHop cell dci.freqHopFl.isSome) dci.riv ++
    bitsOf 5 dci.tb.mcsIdx ++ [dci.tb.ndi] ++ bitsOf 2 dci.tpcPusch ++ bitsOf 3 dci.nDmrs ++
    (if hasMultipleCsi cfg then [dci.cqiRequest, false] else [dci.cqiRequest]) ++
    (if hasSrsRequest cfg then [dci.srsRequest && dci.srsRequestPresent] else [])

/-- `dci_format0_unpack`, of a DCI that is zero. `none` is a message of format 1A. -/
def dciFormat0Unpack (cell : Cell) (sf : SfCfg) (cfg : DciCfg) (msg : Msg) : Option DciUl :=
  let cif := readOpt cfg.cifEnabled 3 msg.payload
  let flag := readBit cif.2
  if flag.1 then none
  else
    let hops := readBit flag.2
    let hop := readBits (nUlHop cell hops.1) hops.2
    let riv := readBits (rivNbits cell.nofPrb - nUlHop cell hops.1) hop.2
    let mcs := readBits 5 riv.2
    let ndi := readBit mcs.2
    let tpc := readBits 2 ndi.2
    let nDmrs := readBits 3 tpc.2
    let ulIdx := readOpt (isTddCfg0 cell sf) 2 nDmrs.2
    let dai := readOpt (cell.isTdd && !isTddCfg0 cell sf) 2 ulIdx.2
    let csi := readBits (if hasMultipleCsi cfg then 2 else 1) dai.2
    let srs := readOpt (hasSrsRequest cfg) 1 csi.2
    let raType := readOpt cfg.raFormatEnabled 1 srs.2
    some {
      rnti := msg.rnti
      format := msg.format
      freqHopFl := if hops.1 then some hop.1 else none
      riv := riv.1
      tb := ⟨mcs.1, 0, ndi.1, 0⟩
      nDmrs := nDmrs.1
      cqiRequest := !hasMultipleCsi cfg && csi.1 != 0
      dai := dai.1
      ulIdx := ulIdx.1
      isTdd := cell.isTdd
      tpcPusch := tpc.1
      cif := cif.1
      cifPresent := cfg.cifEnabled
      multipleCsiRequest := if hasMultipleCsi cfg then csi.1 else 0
      multipleCsiRequestPresent := hasMultipleCsi cfg
      srsRequest := srs.1 != 0
      srsRequestPresent := hasSrsRequest cfg
      raType := raType.1 != 0
      raTypePresent := cfg.raFormatEnabled }

/-! ### Resource allocation of type 0 or 1 -/

/-- The type and the allocation, which formats 1, 2, 2A and 2B pack in the same way. `none` is an error. -/
def packAlloc (cell : Cell) (alloc : Alloc) : Option (List Bool) :=
  let subsetLen := ceilLog2 (raType0P cell.nofPrb)
  let typeBits (b : Bool) : List Bool := if 10 < cell.nofPrb then [b] else []
  match alloc with
  | .type0 rbgBitmask => some (typeBits false ++ bitsOf (allocSize cell.nofPrb) rbgBitmask)
  | .type1 vrbBitmask rbgSubset shift =>
    some (typeBits true ++ bitsOf subsetLen rbgSubset ++ [shift] ++
      bitsOf (allocSize cell.nofPrb - subsetLen - 1) vrbBitmask)
  | .type2 .. => none

/-- The type and the allocation, which formats 1, 2, 2A and 2B unpack in the same way. -/
def unpackAlloc (cell : Cell) (bits : List Bool) : Alloc × List Bool :=
  let subsetLen := ceilLog2 (raType0P cell.nofPrb)
  let type := if 10 < cell.nofPrb then readBit bits else (false, bits)
  if type.1 then
    let rbgSubset := readBits subsetLen type.2
    let shift := readBit rbgSubset.2
    let vrbBitmask := readBits (allocSize cell.nofPrb - subsetLen - 1) shift.2
    (.type1 vrbBitmask.1 rbgSubset.1 shift.1, vrbBitmask.2)
  else
    let rbgBitmask := readBits (allocSize cell.nofPrb) type.2
    (.type0 rbgBitmask.1, rbgBitmask.2)

/-! ### Formats for PDSCH -/

/-- A DCI that is zero, with one transport block enabled and what the message has beside the payload -/
def DciDl.zero (msg : Msg) : DciDl where
  rnti := msg.rnti
  format := msg.format
  alloc := .type0 0
  tb0 := ⟨0, 0, false, 0⟩
  tb1 := ⟨0, 1, false, 0⟩
  tbCwSwap := false
  pinfo := 0
  tpcPucch := 0
  isRaOrder := false
  raPreamble := 0
  raMaskIdx := 0
  cif := 0
  cifPresent := false
  pid := 0
  dai := 0
  isTdd := false
  sramId := false

/-- `dci_format1_pack` -/
def dciFormat1Pack (cell : Cell) (sf : SfCfg) (cfg : DciCfg) (dci : DciDl) : Option (List Bool) :=
  (packAlloc cell dci.alloc).map fun alloc =>
    pad (dciFormatSizeof cell sf cfg .format1) <|
      optBits dci.cifPresent 3 dci.cif ++ alloc ++ bitsOf 5 dci.tb0.mcsIdx ++
      bitsOf (harqPidLen cell sf) dci.pid ++ [dci.tb0.ndi] ++ rvBits dci.tb0.rv ++ bitsOf 2 dci.tpcPucch

/-- `dci_format1_unpack` -/
def dciFormat1Unpack (cell : Cell) (sf : SfCfg) (cfg : DciCfg) (msg : Msg) : Option DciDl :=
  if msg.nofBits ≠ dciFormatSizeof cell sf cfg .format1 then none
  else
    let cif := readOpt cfg.cifEnabled 3 msg.payload
    let alloc := unpackAlloc cell cif.2
    let mcs := readBits 5 alloc.2
    let pid := readBits (harqPidLen cell sf) mcs.2
    let ndi := readBit pid.2
    let rv := readBits 2 ndi.2
    let tpc := readBits 2 rv.2
    let dai := readOpt cell.isTdd 2 tpc.2
    some { DciDl.zero msg with
      cif := cif.1
      cifPresent := cfg.cifEnabled
      alloc := alloc.1
      tb0 := ⟨mcs.1, rv.1, ndi.1, 0⟩
      pid := pid.1
      tpcPucch := tpc.1
      dai := dai.1
      isTdd := cell.isTdd }

/-- A bit for the gap is taken from the RIV. -/
def hasGapBit (cell : Cell) (rnti : Nat) (mode : Mode) : Bool :=
  rntiIsUser rnti && mode == .dist && decide (50 ≤ cell.nofPrb)

/-- `dci_format1As_pack`. Reserved bits stay as they were in the payload. -/
def dciFormat1AsPack (cell : Cell) (sf : SfCfg) (cfg : DciCfg) (dci : DciDl) (payload : List Bool) :
    Option (List Bool) :=
  match dci.alloc with
  | .type2 riv nPrb1a nGap mode =>
    let isUser := rntiIsUser dci.rnti
    let y := optBits dci.cifPresent 3 dci.cif ++ [true] ++ [mode.bit] ++
      (if hasGapBit cell dci.rnti mode then [nGap.bit] else []) ++
      bitsOf (rivNbits cell.nofPrb - (hasGapBit cell dci.rnti mode).toNat) riv ++
      bitsOf 5 dci.tb0.mcsIdx ++ bitsOf (harqPidLen cell sf) dci.pid
    let y := y ++
      if isUser then [dci.tb0.ndi]
      else if 50 ≤ cell.nofPrb ∧ mode = .dist then [nGap.bit]
      else [payload.getD y.length false]
    let y := y ++ rvBits dci.tb0.rv
    let y := y ++ if isUser then [false, false] else [payload.getD y.length false, nPrb1a.bit]
    some (pad (dciFormatSizeof cell sf cfg .format1A) y)
  | _ => none

/-- The message is an order to start random access: the bits from the one for the mode on. -/
def isRandomAccessOrder (cell : Cell) (nofBits : Nat) (y : List Bool) : Bool :=
  let n := rivNbits cell.nofPrb
  y.headD false == false && (y.tail.take n).all (· == true) && decide (1 + 10 + n ≤ nofBits - 1) &&
    ((y.take (nofBits - 1)).drop (1 + 10 + n)).all (· == false)

/-- `dci_format1As_unpack`. `none` is a message of format 0. -/
def dciFormat1AsUnpack (cell : Cell) (sf : SfCfg) (cfg : DciCfg) (msg : Msg) : Option DciDl :=
  let cif := readOpt cfg.cifEnabled 3 msg.payload
  let flag := readBit cif.2
  if flag.1 = false then none
  else if isRandomAccessOrder cell msg.nofBits flag.2 then
    let preamble := readBits 6 (flag.2.drop (1 + rivNbits cell.nofPrb))
    let maskIdx := readBits 4 preamble.2
    some { DciDl.zero msg with
      cif := cif.1
      cifPresent := cfg.cifEnabled
      isRaOrder := true
      raPreamble := preamble.1
      raMaskIdx := maskIdx.1 }
  else
    let isUser := rntiIsUser msg.rnti
    let modeBit := readBit flag.2
    let mode := Mode.ofBit modeBit.1
    let gap := readOpt (hasGapBit cell msg.rnti mode) 1 modeBit.2
    let riv := readBits (rivNbits cell.nofPrb - (hasGapBit cell msg.rnti mode).toNat) gap.2
    let mcs := readBits 5 riv.2
    let pid := readBits (harqPidLen cell sf) mcs.2
    let ndi := readBit pid.2
    -- the bit of NDI has the gap for a RNTI that is not that of a user
    let nGap :=
      if isUser then NGap.ofBit (gap.1 != 0)
      else if 50 ≤ cell.nofPrb ∧ mode = .dist then NGap.ofBit ndi.1
      else .ng1
    let rv := readBits 2 ndi.2
    let reserved := readBit rv.2
    let nPrb1a := readBit reserved.2
    let dai := readOpt cell.isTdd 2 nPrb1a.2
    some { DciDl.zero msg with
      cif := cif.1
      cifPresent := cfg.cifEnabled
      alloc := .type2 riv.1 (if isUser then .prb2 else NPrb1a.ofBit nPrb1a.1) nGap mode
      tb0 := ⟨mcs.1, rv.1, isUser && ndi.1, 0⟩
      pid := pid.1
      dai := dai.1
      isTdd := cell.isTdd }

/-- The bits of the RIV in format 1C -/
def rivNbits1C (nofPrb : Nat) (nGap : NGap) : Nat :=
  rivNbits (raType2NVrbDl nofPrb (nGap == .ng1) / raType2NRbStep nofPrb)

/-- `dci_format1Cs_pack` -/
def dciFormat1CsPack (cell : Cell) (dci : DciDl) : Option (List Bool) :=
  match dci.alloc with
  | .type2 riv _ nGap .dist =>
    some (optBits dci.cifPresent 3 dci.cif ++ (if 50 ≤ cell.nofPrb then [nGap.bit] else []) ++
      bitsOf (rivNbits1C cell.nofPrb nGap) riv ++ bitsOf 5 dci.tb0.mcsIdx)
  | _ => none

/-- `dci_format1Cs_unpack` -/
def dciFormat1CsUnpack (cell : Cell) (sf : SfCfg) (cfg : DciCfg) (msg : Msg) : Option DciDl :=
  if msg.nofBits ≠ dciFormatSizeof cell sf cfg .format1C then none
  else
    let gap := readOpt (decide (50 ≤ cell.nofPrb)) 1 msg.payload
    let nGap := NGap.ofBit (gap.1 != 0)
    let riv := readBits (rivNbits1C cell.nofPrb nGap) gap.2
    let mcs := readBits 5 riv.2
    some { DciDl.zero msg with
      alloc := .type2 riv.1 .prb2 nGap .dist
      tb0 := ⟨mcs.1, -1, false, 0⟩ }

/-- What formats 2, 2A and 2B have behind the TPC command and the DAI: the HARQ process, the swap flag or
the scrambling identity, the transport blocks and the precoding information -/
structure Body2AB where
  pid : Nat
  flag : Bool
  mcsIdx0 : Nat
  ndi0 : Bool
  rv0 : Int
  mcsIdx1 : Nat
  ndi1 : Bool
  rv1 : Int
  pinfo : Nat
deriving DecidableEq, Repr

/-- This part of a DCI -/
def DciDl.body2AB (dci : DciDl) (format : Format) : Body2AB where
  pid := dci.pid
  flag := if format = .format2B then dci.sramId else dci.tbCwSwap
  mcsIdx0 := dci.tb0.mcsIdx
  ndi0 := dci.tb0.ndi
  rv0 := dci.tb0.rv
  mcsIdx1 := dci.tb1.mcsIdx
  ndi1 := dci.tb1.ndi
  rv1 := dci.tb1.rv
  pinfo := dci.pinfo

/-- This part of `dci_format2AB_pack` -/
def Body2AB.bits (pidLen pinfoLen : Nat) (b : Body2AB) : List Bool :=
  bitsOf pidLen b.pid ++ [b.flag] ++ bitsOf 5 b.mcsIdx0 ++ [b.ndi0] ++ rvBits b.rv0 ++
    bitsOf 5 b.mcsIdx1 ++ [b.ndi1] ++ rvBits b.rv1 ++ bitsOf pinfoLen b.pinfo

/-- This part of `dci_format2AB_unpack` -/
def Body2AB.read (pidLen pinfoLen : Nat) (bits : List Bool) : Body2AB :=
  let pid := readBits pidLen bits
  let flag := readBit pid.2
  let mcs0 := readBits 5 flag.2
  let ndi0 := readBit mcs0.2
  let rv0 := readBits 2 ndi0.2
  let mcs1 := readBits 5 rv0.2
  let ndi1 := readBit mcs1.2
  let rv1 := readBits 2 ndi1.2
  let pinfo := readBits pinfoLen rv1.2
  ⟨pid.1, flag.1, mcs0.1, ndi0.1, rv0.1, mcs1.1, ndi1.1, rv1.1, pinfo.1⟩

/-- `dci_format2AB_pack` -/
def dciFormat2ABPack (format : Format) (cell : Cell) (sf : SfCfg) (cfg : DciCfg) (dci : DciDl) :
    Option (List Bool) :=
  (packAlloc cell dci.alloc).map fun alloc =>
    pad (dciFormatSizeof cell sf cfg format) <|
      optBits dci.cifPresent 3 dci.cif ++ alloc ++ bitsOf 2 dci.tpcPucch ++
      (dci.body2AB format).bits (harqPidLen cell sf) (precodingBits format cell.nofPorts)

/-- `SRSRAN_DCI_IS_TB_EN` -/
def isTbEn (mcsIdx : Nat) (rv : Int) : Bool := !(mcsIdx == 0 && rv == 1)

/-- The codeword of a transport block, if both are enabled -/
def cwIdx (b : Body2AB) (i : Nat) : Nat :=
  if isTbEn b.mcsIdx0 b.rv0 && isTbEn b.mcsIdx1 b.rv1 then (b.flag.toNat + i) % 2 else 0

/-- `dci_format2AB_unpack` -/
def dciFormat2ABUnpack (cell : Cell) (sf : SfCfg) (cfg : DciCfg) (msg : Msg) : DciDl :=
  let cif := readOpt cfg.cifEnabled 3 msg.payload
  let alloc := unpackAlloc cell cif.2
  let tpc := readBits 2 alloc.2
  let dai := readOpt cell.isTdd 2 tpc.2
  let b := Body2AB.read (harqPidLen cell sf) (precodingBits msg.format cell.nofPorts) dai.2
  -- format 2B has no swap flag
  let swap : Body2AB := if msg.format = .format2B then { b with flag := false } else b
  { DciDl.zero msg with
    cif := cif.1
    cifPresent := cfg.cifEnabled
    alloc := alloc.1
    tpcPucch := tpc.1
    dai := dai.1
    isTdd := cell.isTdd
    pid := b.pid
    tbCwSwap := swap.flag
    sramId := decide (msg.format = .format2B) && b.flag
    tb0 := ⟨b.mcsIdx0, b.rv0, b.ndi0, cwIdx swap 0⟩
    tb1 := ⟨b.mcsIdx1, b.rv1, b.ndi1, cwIdx swap 1⟩
    pinfo := b.pinfo }

/-! ### Messages -/

/-- `srsran_dci_msg_pack_pusch` -/
def dciMsgPackPusch (cell : Cell) (sf : SfCfg) (cfg : DciCfg) (dci : DciUl) (payload : List Bool) : Msg :=
  let bits := dciFormat0Pack cell sf cfg dci
  ⟨written bits payload, bits.length, dci.format, dci.rnti⟩

/-- `srsran_dci_msg_unpack_pusch` -/
def dciMsgUnpackPusch (cell : Cell) (sf : SfCfg) (cfg : DciCfg) (msg : Msg) : Option DciUl :=
  dciFormat0Unpack cell sf cfg msg

/-- `srsran_dci_msg_pack_pdsch` -/
def dciMsgPackPdsch (cell : Cell) (sf : SfCfg) (cfg : DciCfg) (dci : DciDl) (payload : List Bool) :
    Option Msg :=
  let bits := match dci.format with
    | .format0 => none
    | .format1 => dciFormat1Pack cell sf cfg dci
    | .format1A => dciFormat1AsPack cell sf cfg dci payload
    | .format1C => dciFormat1CsPack cell dci
    | .format2 => dciFormat2ABPack .format2 cell sf cfg dci
    | .format2A => dciFormat2ABPack .format2A cell sf cfg dci
    | .format2B => dciFormat2ABPack .format2B cell sf cfg dci
  bits.map fun bits => ⟨written bits payload, bits.length, dci.format, dci.rnti⟩

/-- `srsran_dci_msg_unpack_pdsch` -/
def dciMsgUnpackPdsch (cell : Cell) (sf : SfCfg) (cfg : DciCfg) (msg : Msg) : Option DciDl :=
  match msg.format with
  | .format0 => none
  | .format1 => dciFormat1Unpack cell sf cfg msg
  | .format1A => dciFormat1AsUnpack cell sf cfg msg
  | .format1C => dciFormat1CsUnpack cell sf cfg msg
  | _ => some (dciFormat2ABUnpack cell sf cfg msg)

end Odss.Phy.Dci
