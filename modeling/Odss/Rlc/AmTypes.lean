import Odss.Rlc.Common

/-!
# `Odss.Rlc.AmTypes`: data types of RLC AM

The constants, headers and buffers that the LTE RLC AM entity works on
(`lib/include/srsran/rlc/rlc_common.h`, `rlc_am_lte.h`).
-/

set_option linter.all false

namespace Odss.Rlc

/-! ### Constants -/

/-- `MOD`: the sequence numbers are numbers modulo 1024. -/
abbrev amMod : Nat := 1024

/-- `RLC_AM_WINDOW_SIZE` -/
abbrev amWindowSize : Nat := 512

/-- `RLC_AM_MIN_DATA_PDU_SIZE` -/
abbrev amMinDataPduSize : Nat := 3

/-- `MAX_SDUS_PER_PDU` -/
abbrev maxSdusPerPdu : Nat := 128

/-- `MAX_SDUS_TO_NOTIFY`, the capacity of `pdcp_sn_vector_t`. -/
abbrev maxSdusToNotify : Nat := 4096

/-! ### Headers -/

/-- `rlc_amd_pdu_header_t` of a data PDU. `li` has the `N_li` entries in use. -/
structure AmdHeader where
  rf : Bool
  p : Bool
  fi : Fi
  sn : Nat
  lsf : Bool
  so : Nat
  li : List Nat
deriving DecidableEq, Repr

/-- `rlc_am_packed_length(rlc_amd_pdu_header_t*)`: the extension part has one and a half
bytes for each length indicator, rounded up. -/
def AmdHeader.packedLength (header : AmdHeader) : Nat :=
  2 + (if header.rf then 2 else 0) + (3 * header.li.length + 1) / 2

/-- `rlc_status_nack_t` -/
structure StatusNack where
  nackSn : Nat
  hasSo : Bool
  soStart : Nat
  soEnd : Nat
deriving DecidableEq, Repr

/-- `rlc_status_pdu_t`. `nacks` has the `N_nack` entries in use. -/
structure StatusPdu where
  ackSn : Nat
  nacks : List StatusNack
deriving DecidableEq, Repr

/-- `rlc_am_packed_length(rlc_status_pdu_t*)` -/
def StatusPdu.packedLength (status : StatusPdu) : Nat :=
  (15 + (status.nacks.map fun nack => if nack.hasSo then 42 else 12).sum + 7) / 8

/-- The configuration of a bearer (`rlc_am_config_t` with `tx_queue_length`), without the
timer durations. -/
structure AmConfig where
  pollPdu : Int
  pollByte : Int
  maxRetxThresh : UInt32
  tStatusProhibit : Int
  txQueueLength : Nat
deriving DecidableEq, Repr

/-- What the entity tells the upper layers. -/
inductive AmEvent where
  | maxRetxAttempted
  | notifyFailure (pdcpSns : List (Option Nat))
  | protocolFailure
  | notifyDelivery (pdcpSns : List Nat)
deriving DecidableEq, Repr

end Odss.Rlc
