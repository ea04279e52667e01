import Odss.Pdcp.EntityLte
import Odss.Pdcp.EntityNr

/-!
# `Odss.Pdcp.Protection`: headers and MACs in a byte buffer

The security functions of `pdcp_entity_base` (`lib/src/pdcp/pdcp_entity_base.cc`), and `write_sdu`
of the LTE and the NR entity with the room that the buffer of the SDU has. `write_data_header` and
`append_mac` do nothing when their room check fails. `none` is an access outside of a buffer.

The ciphers and the MAC functions are parameters with the laws that the entities rely on: a cipher
is its own inverse, and a MAC has four bytes.
-/

set_option linter.all false

namespace Odss.Pdcp

open Odss.Rlc

/-! ### Security functions -/

/-- `INTEGRITY_ALGORITHM_ID_ENUM` -/
inductive IntegrityAlgorithm where
  | eia0
  | eia1
  | eia2
  | eia3
deriving DecidableEq, Repr

/-- `CIPHERING_ALGORITHM_ID_ENUM` -/
inductive CipheringAlgorithm where
  | eea0
  | eea1
  | eea2
  | eea3
deriving DecidableEq, Repr

/-- `security_direction_t` -/
inductive SecurityDirection where
  | uplink
  | downlink
deriving DecidableEq, Repr

/-- `security_128_eea1` and so on, and `security_128_eia1` and so on: functions of the key, the
COUNT, the bearer, the direction and the message. -/
structure SecurityFunctions where
  eea : CipheringAlgorithm → Bytes → Nat → Nat → SecurityDirection → Bytes → Bytes
  eia : IntegrityAlgorithm → Bytes → Nat → Nat → SecurityDirection → Bytes → Bytes
  eea_eea : ∀ algo key count bearer direction msg,
    eea algo key count bearer direction (eea algo key count bearer direction msg) = msg
  length_eea : ∀ algo key count bearer direction msg,
    (eea algo key count bearer direction msg).length = msg.length
  length_eia : ∀ algo key count bearer direction msg,
    (eia algo key count bearer direction msg).length = 4

/-- `as_security_config_t` -/
structure AsSecurityConfig where
  kRrcInt : Bytes
  kRrcEnc : Bytes
  kUpInt : Bytes
  kUpEnc : Bytes
  integAlgo : IntegrityAlgorithm
  cipherAlgo : CipheringAlgorithm
deriving DecidableEq, Repr

/-- What the security functions read of an entity. `txMac` and `rxMac` are what the four bytes of
`mac` hold before `integrity_generate` and before `extract_mac`. -/
structure EntitySecurity where
  bearerId : Nat
  rbType : RbType
  txDirection : SecurityDirection
  rxDirection : SecurityDirection
  secCfg : AsSecurityConfig
  txMac : Bytes
  rxMac : Bytes
  length_txMac : txMac.length = 4

namespace EntitySecurity

/-- The bytes of the integrity key that are used. -/
def kInt (e : EntitySecurity) : Bytes :=
  match e.rbType with
  | .srb => e.secCfg.kRrcInt.drop 16
  | .drb => e.secCfg.kUpInt.drop 16

/-- The bytes of the ciphering key that are used. -/
def kEnc (e : EntitySecurity) : Bytes :=
  match e.rbType with
  | .srb => e.secCfg.kRrcEnc.drop 16
  | .drb => e.secCfg.kUpEnc.drop 16

variable (f : SecurityFunctions) (e : EntitySecurity)

/-- `cipher_encrypt` and `cipher_decrypt`, which differ in the direction. -/
def cipher (direction : SecurityDirection) (count : Nat) (msg : Bytes) : Bytes :=
  match e.secCfg.cipherAlgo with
  | .eea0 => msg
  | algo => f.eea algo e.kEnc count (subU32 e.bearerId 1) direction msg

/-- `integrity_generate`. EIA0 leaves `mac` as it is. -/
def integrityGenerate (count : Nat) (msg : Bytes) : Bytes :=
  match e.secCfg.integAlgo with
  | .eia0 => e.txMac
  | algo => f.eia algo e.kInt count (subU32 e.bearerId 1) e.txDirection msg

/-- `integrity_verify`. EIA0 compares nothing. -/
def integrityVerify (count : Nat) (msg : Bytes) (mac : Option Bytes) : Bool :=
  match e.secCfg.integAlgo with
  | .eia0 => true
  | algo => mac.getD e.rxMac == f.eia algo e.kInt count (subU32 e.bearerId 1) e.rxDirection msg

/-- The security functions of an entity. -/
def security : Security where
  cipherEncrypt := e.cipher f e.txDirection
  cipherDecrypt := e.cipher f e.rxDirection
  integrityGenerate := e.integrityGenerate f
  integrityVerify := e.integrityVerify f

end EntitySecurity

/-! ### Buffers -/

/-- `SRSRAN_MAX_BUFFER_SIZE_BYTES` -/
abbrev bufferSize : Nat := bufferTailroom + 1020

/-- `PDCP_MAX_SDU_SIZE` -/
abbrev pdcpMaxSduSize : Nat := 9000

/-- `byte_buffer_t`: the number of bytes in front of `msg`, and its `N_bytes` bytes. -/
structure ByteBuffer where
  headroom : Nat
  msg : Bytes
deriving DecidableEq, Repr

namespace ByteBuffer

/-- The buffer of a new SDU: `msg` is at `SRSRAN_BUFFER_HEADER_OFFSET`. -/
def ofSdu (sdu : Bytes) : ByteBuffer := ⟨1020, sdu⟩

/-- `get_tailroom` -/
def tailroom (b : ByteBuffer) : Nat := bufferSize - b.headroom - b.msg.length

/-- `write_data_header` -/
def writeDataHeader (snLen : SnLen) (rbType : RbType) (count : Nat) (b : ByteBuffer) : ByteBuffer :=
  if snLen.hdrLenBytes > b.headroom then b
  else ⟨b.headroom - snLen.hdrLenBytes, Pdcp.writeDataHeader snLen rbType count b.msg⟩

/-- `append_mac` -/
def appendMac (mac : Bytes) (b : ByteBuffer) : ByteBuffer :=
  if b.msg.length + 4 > b.tailroom then b else { b with msg := Pdcp.appendMac b.msg mac }

/-- `cipher_encrypt` of what is behind the first `offset` bytes. Their number must not wrap, and the
result has to fit in a local buffer. -/
def cipherEncrypt (encrypt : Bytes → Bytes) (offset : Nat) (b : ByteBuffer) : Option ByteBuffer :=
  if b.msg.length < offset ∨ b.msg.length - offset > pdcpMaxSduSize then none
  else some { b with msg := b.msg.take offset ++ encrypt (b.msg.drop offset) }

end ByteBuffer

/-! ### NR -/

namespace PdcpNr

variable (sec : Security) (s : PdcpNr)

/-- The PDU of `write_sdu`: the SDU is ciphered, then come the header and the MAC. -/
def protectBuffer (b : ByteBuffer) : Option ByteBuffer :=
  match b.cipherEncrypt (sec.cipherEncrypt s.txNext) 0 with
  | none => none
  | some c =>
    some ((c.writeDataHeader s.snLen s.rbType s.txNext).appendMac
      (sec.integrityGenerate s.txNext b.msg))

/-- `write_sdu` for an SDU in its buffer -/
def writeSduBuffer (b : ByteBuffer) : Option (PdcpNr × Option TxPdu) :=
  match s.writeSdu sec b.msg with
  | (s', none) => some (s', none)
  | (s', some out) =>
    match s.protectBuffer sec b with
    | none => none
    | some c => some (s', some { out with pdu := c.msg })

/-- What `integrity_verify` returns in `write_pdu`. -/
def verifies (pdu : Bytes) : Bool :=
  let (mac, body) := extractMac (discardDataHeader s.snLen pdu)
  sec.integrityVerify (s.rcvdCount pdu) (sec.cipherDecrypt (s.rcvdCount pdu) body) mac

end PdcpNr

/-! ### LTE -/

namespace PdcpLte

variable (sec : Security) (s : PdcpLte)

/-- The PDU of `write_sdu`: the header comes first, then the MAC of an SRB, and what is behind the
header is ciphered. -/
def protectBuffer (txCount : Nat) (b : ByteBuffer) : Option ByteBuffer :=
  let c := b.writeDataHeader s.cfg.snLen s.cfg.rbType txCount
  let mac := if s.integrityDirection.hasTx then sec.integrityGenerate txCount c.msg
    else [0, 0, 0, 0]
  let c := if s.cfg.rbType = .srb then c.appendMac mac else c
  if s.encryptionDirection.hasTx then
    c.cipherEncrypt (sec.cipherEncrypt txCount) s.cfg.snLen.hdrLenBytes
  else some c

/-- `write_sdu` for an SDU in its buffer -/
def writeSduBuffer (rlc : RlcStatus) (b : ByteBuffer) (upperSn : Option Nat) :
    Option (PdcpLte × Option LteTxPdu) :=
  match s.writeSdu sec rlc b.msg upperSn with
  | (s', none) => some (s', none)
  | (s', some out) =>
    match (s.enableTxSecurity out.count).protectBuffer sec out.count b with
    | none => none
    | some c => some (s', some { out with pdu := c.msg })

/-- The COUNT of `handle_srb_pdu` for an SN -/
def srbCount (sn : Nat) : Nat :=
  if sn < s.st.nextPdcpRxSn then s.count ((s.st.rxHfn + 1) % 2 ^ 32) sn else s.count s.st.rxHfn sn

/-- What `handle_srb_pdu` takes out of a PDU: the MAC, and the message with its header. -/
def openSrbPdu (count : Nat) (pdu : Bytes) : Option Bytes × Bytes :=
  let body := pdu.drop s.cfg.snLen.hdrLenBytes
  extractMac (pdu.take s.cfg.snLen.hdrLenBytes ++
    if s.encryptionDirection.hasRx then sec.cipherDecrypt count body else body)

/-- What `integrity_verify` returns in `handle_srb_pdu`, or true where it is not called. -/
def verifies (pdu : Bytes) : Bool :=
  let s := s.enableRxSecurity (readDataHeader s.cfg.snLen pdu)
  let count := s.srbCount (readDataHeader s.cfg.snLen pdu)
  let (mac, msg) := s.openSrbPdu sec count pdu
  !s.integrityDirection.hasRx || sec.integrityVerify count msg mac

end PdcpLte

end Odss.Pdcp
