import Odss.Pdcp.Protection
import Odss.Proofs.PdcpLteSync
import Odss.Proofs.PdcpNrCount
import Odss.Proofs.PdcpNrRx

/-!
# `Odss.Proofs.PdcpRoundTrip`: protected SDUs come back

A receiver that is in step with the sender undoes what `write_sdu` has done. The order differs: NR
ciphers the SDU in front of header and MAC, LTE ciphers SDU and MAC behind the header.
`Undoes` is what the ciphers and MACs of the two ends give (`undoes_of_mirrored`).

The buffer of the SDU decides the rest. `append_mac` compares the number of bytes with a tailroom
that does not have them any more, so it finds room for the MAC only up to about half of the buffer.
`roundTrips_iff_fits` has the exact numbers.
-/

set_option linter.all false

namespace Odss.Pdcp

open Odss.Lib Odss.Rlc

/-! ### Ciphers and MACs -/

/-- The receiver is configured as the sender, with the directions exchanged. -/
structure Mirrored (tx rx : EntitySecurity) : Prop where
  bearerId : rx.bearerId = tx.bearerId
  rbType : rx.rbType = tx.rbType
  secCfg : rx.secCfg = tx.secCfg
  direction : rx.rxDirection = tx.txDirection

/-- The security functions of a receiver undo those of a sender. -/
structure Undoes (tx rx : Security) : Prop where
  decrypt : ∀ count msg, rx.cipherDecrypt count (tx.cipherEncrypt count msg) = msg
  length_encrypt : ∀ count msg, (tx.cipherEncrypt count msg).length = msg.length
  length_decrypt : ∀ count msg, (rx.cipherDecrypt count msg).length = msg.length
  length_mac : ∀ count msg, (tx.integrityGenerate count msg).length = 4
  verify : ∀ count msg, rx.integrityVerify count msg (some (tx.integrityGenerate count msg)) = true

variable {f : SecurityFunctions}

theorem length_cipher (e : EntitySecurity) (direction : SecurityDirection) (count : Nat)
    (msg : Bytes) : (e.cipher f direction count msg).length = msg.length := by
  unfold EntitySecurity.cipher
  split
  · rfl
  · exact f.length_eea _ _ _ _ _ _

theorem cipher_cipher {tx rx : EntitySecurity} (h : Mirrored tx rx) (count : Nat) (msg : Bytes) :
    rx.cipher f rx.rxDirection count (tx.cipher f tx.txDirection count msg) = msg := by
  have hkey : rx.kEnc = tx.kEnc := by
    unfold EntitySecurity.kEnc
    rw [h.rbType, h.secCfg]
  unfold EntitySecurity.cipher
  rw [h.secCfg, h.bearerId, h.direction, hkey]
  cases tx.secCfg.cipherAlgo with
  | eea0 => rfl
  | eea1 | eea2 | eea3 => exact f.eea_eea _ _ _ _ _ _

theorem length_integrityGenerate (e : EntitySecurity) (count : Nat) (msg : Bytes) :
    (e.integrityGenerate f count msg).length = 4 := by
  unfold EntitySecurity.integrityGenerate
  split
  · exact e.length_txMac
  · exact f.length_eia _ _ _ _ _ _

theorem integrityVerify_generated {tx rx : EntitySecurity} (h : Mirrored tx rx) (count : Nat)
    (msg : Bytes) :
    rx.integrityVerify f count msg (some (tx.integrityGenerate f count msg)) = true := by
  have hkey : rx.kInt = tx.kInt := by
    unfold EntitySecurity.kInt
    rw [h.rbType, h.secCfg]
  unfold EntitySecurity.integrityVerify EntitySecurity.integrityGenerate
  rw [h.secCfg, h.bearerId, h.direction, hkey]
  cases tx.secCfg.integAlgo with
  | eia0 => rfl
  | eia1 | eia2 | eia3 => exact beq_self_eq_true _

theorem undoes_of_mirrored {tx rx : EntitySecurity} (h : Mirrored tx rx) :
    Undoes (tx.security f) (rx.security f) where
  decrypt := cipher_cipher h
  length_encrypt := length_cipher tx tx.txDirection
  length_decrypt := length_cipher rx rx.rxDirection
  length_mac := length_integrityGenerate tx
  verify := integrityVerify_generated h

/-! ### Buffers -/

variable {snLen : SnLen} {b : ByteBuffer}

theorem SnLen.hdrLenBytes_bounds (snLen : SnLen) :
    1 ≤ snLen.hdrLenBytes ∧ snLen.hdrLenBytes ≤ 3 := by
  cases snLen <;> decide

theorem length_writeDataHeader (snLen : SnLen) (rbType : RbType) (count : Nat) (sdu : Bytes) :
    (writeDataHeader snLen rbType count sdu).length = snLen.hdrLenBytes + sdu.length := by
  rw [writeDataHeader, List.length_append, length_dataHeader]

/-- The MAC of a message that ends in one. -/
theorem extractMac_append (msg : Bytes) {mac : Bytes} (hmac : mac.length = 4) :
    extractMac (msg ++ mac) = (some mac, msg) := by
  have hsub : (msg ++ mac).length - 4 = msg.length := by
    rw [List.length_append, hmac, Nat.add_sub_cancel]
  rw [extractMac, if_neg (by rw [List.length_append]; omega), hsub, List.drop_left, List.take_left]

theorem extractMac_of_short {pdu : Bytes} (h : pdu.length < 4) : extractMac pdu = (none, pdu) :=
  if_pos h

theorem length_extractMac_of_ge {pdu : Bytes} (h : 4 ≤ pdu.length) :
    (extractMac pdu).2.length = pdu.length - 4 := by
  rw [extractMac, if_neg (Nat.not_lt.mpr h)]
  exact List.length_take_of_le (Nat.sub_le _ _)

/-- A message is followed by a MAC, or it is not. -/
theorem appendMac_cases (mac : Bytes) (b : ByteBuffer) :
    (b.msg.length + 4 ≤ b.tailroom ∧ (b.appendMac mac).msg = b.msg ++ mac) ∨
      (b.tailroom < b.msg.length + 4 ∧ (b.appendMac mac).msg = b.msg) := by
  unfold ByteBuffer.appendMac
  split
  · rename_i h
    exact .inr ⟨h, rfl⟩
  · rename_i h
    exact .inl ⟨Nat.not_lt.mp h, rfl⟩

/-- The check for the MAC succeeds behind a header that had room. It counts the message twice, as
the tailroom does not have it any more. -/
def MacRoom (snLen : SnLen) (b : ByteBuffer) : Prop :=
  b.headroom + 2 * b.msg.length + snLen.hdrLenBytes + 4 ≤ bufferSize

instance (snLen : SnLen) (b : ByteBuffer) : Decidable (MacRoom snLen b) :=
  inferInstanceAs (Decidable (_ ≤ _))

theorem macRoom_congr {c : ByteBuffer} (hheadroom : c.headroom = b.headroom)
    (hlen : c.msg.length = b.msg.length) : MacRoom snLen c ↔ MacRoom snLen b := by
  unfold MacRoom
  rw [hheadroom, hlen]

theorem cipherEncrypt_zero (encrypt : Bytes → Bytes) (hle : b.msg.length ≤ pdcpMaxSduSize) :
    b.cipherEncrypt encrypt 0 = some ⟨b.headroom, encrypt b.msg⟩ := by
  unfold ByteBuffer.cipherEncrypt
  rw [if_neg (by omega)]
  rfl

theorem protected_cases (snLen : SnLen) (rbType : RbType) (count : Nat) (mac : Bytes)
    (hvalid : b.headroom + b.msg.length ≤ bufferSize) :
    (snLen.hdrLenBytes ≤ b.headroom ∧
        (b.writeDataHeader snLen rbType count).msg = writeDataHeader snLen rbType count b.msg ∧
        (MacRoom snLen b ∧ ((b.writeDataHeader snLen rbType count).appendMac mac).msg
            = writeDataHeader snLen rbType count (b.msg ++ mac) ∨
          ¬MacRoom snLen b ∧ ((b.writeDataHeader snLen rbType count).appendMac mac).msg
            = writeDataHeader snLen rbType count b.msg)) ∨
      (b.headroom < snLen.hdrLenBytes ∧
        (((b.writeDataHeader snLen rbType count).appendMac mac).msg = b.msg ++ mac ∨
          ((b.writeDataHeader snLen rbType count).appendMac mac).msg = b.msg)) := by
  rcases Nat.lt_or_ge b.headroom snLen.hdrLenBytes with htight | hroom
  · have hsame : b.writeDataHeader snLen rbType count = b := if_pos htight
    rw [hsame]
    refine .inr ⟨htight, ?_⟩
    rcases appendMac_cases mac b with ⟨-, heq⟩ | ⟨-, heq⟩
    · exact .inl heq
    · exact .inr heq
  · have hheader : b.writeDataHeader snLen rbType count
        = ⟨b.headroom - snLen.hdrLenBytes, writeDataHeader snLen rbType count b.msg⟩ :=
      if_neg (Nat.not_lt.mpr hroom)
    have hlength := length_writeDataHeader snLen rbType count b.msg
    rw [hheader]
    refine .inl ⟨hroom, rfl, ?_⟩
    unfold MacRoom
    rcases appendMac_cases mac
      ⟨b.headroom - snLen.hdrLenBytes, writeDataHeader snLen rbType count b.msg⟩ with
      ⟨hfits, heq⟩ | ⟨htight, heq⟩
    · unfold ByteBuffer.tailroom at hfits
      dsimp only at hfits
      refine .inl ⟨by omega, heq.trans ?_⟩
      exact List.append_assoc _ _ _
    · unfold ByteBuffer.tailroom at htight
      dsimp only at htight
      exact .inr ⟨by omega, heq⟩

/-! ### NR -/

namespace PdcpNr

/-- The SDU that `write_pdu` takes out of a PDU. -/
def openedSdu (sec : Security) (s : PdcpNr) (pdu : Bytes) : Bytes :=
  sec.cipherDecrypt (s.rcvdCount pdu) (extractMac (discardDataHeader s.snLen pdu)).2

/-- The queue only has PDUs that come after the next one to be delivered. -/
def QueueAhead (s : PdcpNr) : Prop := ∀ e ∈ s.reorderQueue.entries, s.rxDeliv < e.1

theorem delivered_deliverOne (s : PdcpNr) (count : Nat) (sdu : Bytes) :
    (s.deliverOne count sdu).delivered = s.delivered ++ [(count, sdu)] := by
  unfold deliverOne
  split <;> rfl

/-- What is delivered in sequence comes behind what was delivered. -/
theorem delivered_deliverConsecutive (es : List (Nat × Bytes)) (s : PdcpNr) :
    ∃ rest, (deliverConsecutive es s).delivered = s.delivered ++ rest := by
  induction es generalizing s with
  | nil => exact ⟨[], (List.append_nil _).symm⟩
  | cons e es ih =>
    obtain ⟨count, sdu⟩ := e
    unfold deliverConsecutive
    split
    · split
      · exact ⟨[], (List.append_nil _).symm⟩
      · obtain ⟨rest, hrest⟩ := ih (s.deliverOne count sdu)
        refine ⟨(count, sdu) :: rest, ?_⟩
        rw [hrest, delivered_deliverOne, List.append_assoc]
        rfl
    · exact ⟨[], (List.append_nil _).symm⟩

theorem delivered_receive_next {s : PdcpNr} (hqueue : s.QueueAhead) (hover : s.rxOverflow = false)
    (sdu : Bytes) :
    ∃ rest, (s.receive s.rxDeliv sdu).delivered = s.delivered ++ (s.rxDeliv, sdu) :: rest := by
  have hentries : (s.store s.rxDeliv sdu).reorderQueue.entries
      = (s.rxDeliv, sdu) :: s.reorderQueue.entries := by
    show OrdMap.insertEntry s.rxDeliv sdu s.reorderQueue.entries = _
    unfold QueueAhead at hqueue
    cases hes : s.reorderQueue.entries with
    | nil => rfl
    | cons e es =>
      rw [hes] at hqueue
      exact if_pos (hqueue e List.mem_cons_self)
  obtain ⟨rest, hrest⟩ := delivered_deliverConsecutive s.reorderQueue.entries
    ((s.store s.rxDeliv sdu).deliverOne s.rxDeliv sdu)
  refine ⟨rest, ?_⟩
  have hover' : ¬(s.store s.rxDeliv sdu).rxOverflow = true := by
    rw [show (s.store s.rxDeliv sdu).rxOverflow = s.rxOverflow from rfl, hover]
    exact Bool.false_ne_true
  rw [receive_eq, delivered_timer, if_pos rfl, deliverAllConsecutiveCounts, hentries,
    deliverConsecutive, if_pos (show s.rxDeliv = (s.store s.rxDeliv sdu).rxDeliv from rfl),
    if_neg hover', hrest, delivered_deliverOne, List.append_assoc]
  rfl

/-- A PDU that is not the next one delivers nothing. -/
theorem delivered_receive_ne {s : PdcpNr} {count : Nat} (h : count ≠ s.rxDeliv) (sdu : Bytes) :
    (s.receive count sdu).delivered = s.delivered := by
  rw [receive_eq, delivered_timer, if_neg h]
  rfl

/-- What `write_pdu` delivers: nothing, or first the SDU of the PDU, which was verified. -/
theorem delivered_writePdu (sec : Security) {s : PdcpNr} (hqueue : s.QueueAhead)
    (hover : s.rxOverflow = false) (pdu : Bytes) :
    (s.writePdu sec pdu).delivered = s.delivered ∨
      (s.snLen.hdrLenBytes < pdu.length ∧ s.verifies sec pdu = true ∧ ∃ rest,
        (s.writePdu sec pdu).delivered
          = s.delivered ++ (s.rxDeliv, s.openedSdu sec pdu) :: rest) := by
  unfold writePdu
  split
  · exact .inl rfl
  · rename_i hlen
    dsimp only
    split
    · exact .inl rfl
    · rename_i hverify
      split
      · exact .inl rfl
      · split
        · exact .inl rfl
        · by_cases hnext : s.rcvdCount pdu = s.rxDeliv
          · rw [Bool.not_eq_true, Bool.not_eq_false'] at hverify
            obtain ⟨rest, hrest⟩ := delivered_receive_next hqueue hover (s.openedSdu sec pdu)
            exact .inr ⟨Nat.not_le.mp hlen, hverify, rest, hnext ▸ hrest⟩
          · exact .inl (delivered_receive_ne hnext _)

theorem delivered_writePdu_next {sec : Security} {s : PdcpNr} (hqueue : s.QueueAhead)
    (hover : s.rxOverflow = false) {pdu : Bytes} (hlen : s.snLen.hdrLenBytes < pdu.length)
    (hcount : s.rcvdCount pdu = s.rxDeliv) (hverify : s.verifies sec pdu = true) :
    ∃ rest, (s.writePdu sec pdu).delivered
      = s.delivered ++ (s.rxDeliv, s.openedSdu sec pdu) :: rest := by
  have hnew : s.reorderQueue.contains (s.rcvdCount pdu) = false := by
    rw [hcount, OrdMap.contains, Option.isSome_eq_false_iff, Option.isNone_iff_eq_none]
    cases hfind : s.reorderQueue.find? s.rxDeliv with
    | none => rfl
    | some sdu => exact absurd (hqueue _ (OrdMap.mem_of_lookup_eq_some hfind)) (Nat.lt_irrefl _)
  obtain ⟨rest, hrest⟩ := delivered_receive_next hqueue hover (s.openedSdu sec pdu)
  refine ⟨rest, ?_⟩
  have hreceive : s.writePdu sec pdu = s.receive (s.rcvdCount pdu) (s.openedSdu sec pdu) := by
    have hverified : sec.integrityVerify (s.rcvdCount pdu) (s.openedSdu sec pdu)
        (extractMac (discardDataHeader s.snLen pdu)).1 = true := hverify
    unfold openedSdu at hverified ⊢
    unfold writePdu
    rw [if_neg (Nat.not_le.mpr hlen)]
    dsimp only
    have hdeliv : ¬s.rcvdCount pdu < s.rxDeliv := by
      rw [hcount]
      exact Nat.lt_irrefl _
    rw [hverified, hnew, Bool.not_true, if_neg Bool.false_ne_true, if_neg hdeliv,
      if_neg Bool.false_ne_true]
  rw [hreceive, hcount]
  exact hrest

/-- The receiver is in step with the sender: the next COUNT is the same at both ends, and none of
them has overflowed. -/
structure InStep (tx rx : PdcpNr) : Prop where
  snLen : rx.snLen = tx.snLen
  count : rx.rxDeliv = tx.txNext
  lt : tx.txNext < 2 ^ 32
  txOverflow : tx.txOverflow = false
  rxOverflow : rx.rxOverflow = false
  queue : rx.QueueAhead

/-- The PDU of an SDU is verified, and the SDU is the next one that is delivered. -/
def RoundTrip (sec sec' : Security) (tx rx : PdcpNr) (b : ByteBuffer) : Prop :=
  match tx.writeSduBuffer sec b with
  | none => False
  | some (_, none) => True
  | some (_, some out) =>
    rx.verifies sec' out.pdu = true ∧ ∃ rest,
      (rx.writePdu sec' out.pdu).delivered = rx.delivered ++ (out.count, b.msg) :: rest

/-- The header and the MAC have room, or the SDU is so short that the receiver looks for no MAC, and
accepts it without one. -/
def Fits (sec' : Security) (tx : PdcpNr) (b : ByteBuffer) : Prop :=
  tx.snLen.hdrLenBytes ≤ b.headroom ∧
    (MacRoom tx.snLen b ∨ b.msg.length < 4 ∧ sec'.integrityVerify tx.txNext b.msg none = true)

variable {sec sec' : Security} {tx rx : PdcpNr}

/-- The receiver finds the COUNT behind a header of the sender. -/
theorem rcvdCount_of_inStep (h : InStep tx rx) {body : Bytes} (hbody : body ≠ []) :
    rx.rcvdCount (writeDataHeader tx.snLen tx.rbType tx.txNext body) = rx.rxDeliv := by
  have hdeliv : rx.rxDeliv < 2 ^ 32 := h.count ▸ h.lt
  have hwindow : 0 < rx.windowSize := Nat.two_pow_pos _
  refine rcvdCount_of_inWindow hdeliv ⟨hdeliv, by omega, by omega⟩ ?_
  rw [h.snLen, h.count]
  exact readDataHeader_writeDataHeader tx.snLen tx.rbType tx.txNext hbody

theorem delivers_withHeader (sec' : Security) (h : InStep tx rx) {body : Bytes}
    (hbody : body ≠ []) :
    (rx.verifies sec' (writeDataHeader tx.snLen tx.rbType tx.txNext body)
        = sec'.integrityVerify tx.txNext
          (sec'.cipherDecrypt tx.txNext (extractMac body).2) (extractMac body).1) ∧
      rx.openedSdu sec' (writeDataHeader tx.snLen tx.rbType tx.txNext body)
        = sec'.cipherDecrypt tx.txNext (extractMac body).2 := by
  have hcount := rcvdCount_of_inStep h hbody
  have hdiscard : discardDataHeader rx.snLen (writeDataHeader tx.snLen tx.rbType tx.txNext body)
      = body := by
    rw [h.snLen]
    exact discardDataHeader_writeDataHeader _ _ _ _
  constructor
  · unfold verifies
    rw [hcount, h.count, hdiscard]
  · unfold openedSdu
    rw [hcount, h.count, hdiscard]

/-- A PDU with a header is long enough to be read. -/
theorem lt_length_withHeader (h : InStep tx rx) {body : Bytes} (hbody : body ≠ []) :
    rx.snLen.hdrLenBytes < (writeDataHeader tx.snLen tx.rbType tx.txNext body).length := by
  have hpos := List.length_pos_of_ne_nil hbody
  rw [length_writeDataHeader, h.snLen]
  omega

/-- The number of bytes that are taken out of a PDU. -/
theorem length_openedSdu (hsec : Undoes sec sec') (s : PdcpNr) (pdu : Bytes) :
    (s.openedSdu sec' pdu).length = pdu.length - s.snLen.hdrLenBytes ∧
        pdu.length - s.snLen.hdrLenBytes < 4 ∨
      (s.openedSdu sec' pdu).length = pdu.length - s.snLen.hdrLenBytes - 4 ∧
        4 ≤ pdu.length - s.snLen.hdrLenBytes := by
  have hlength : (discardDataHeader s.snLen pdu).length = pdu.length - s.snLen.hdrLenBytes :=
    List.length_drop
  unfold openedSdu
  rw [hsec.length_decrypt]
  rcases Nat.lt_or_ge (pdu.length - s.snLen.hdrLenBytes) 4 with hshort | hge
  · refine .inl ⟨?_, hshort⟩
    rw [extractMac_of_short (hlength ▸ hshort), hlength]
  · refine .inr ⟨?_, hge⟩
    rw [length_extractMac_of_ge (hlength ▸ hge), hlength]

theorem not_delivers_of_length (h : InStep tx rx) {pdu sdu : Bytes} {count : Nat}
    (hlen : (rx.openedSdu sec' pdu).length ≠ sdu.length) :
    ¬∃ rest, (rx.writePdu sec' pdu).delivered = rx.delivered ++ (count, sdu) :: rest := by
  rintro ⟨rest, hrest⟩
  rcases delivered_writePdu sec' h.queue h.rxOverflow pdu with hsame | ⟨-, -, rest', hfirst⟩
  · have hnil : (count, sdu) :: rest = [] := List.self_eq_append_right.mp (hsame.symm.trans hrest)
    exact absurd hnil (List.cons_ne_nil _ _)
  · have hcons := List.append_cancel_left (hfirst.symm.trans hrest)
    rw [List.cons_eq_cons, Prod.mk.injEq] at hcons
    exact hlen (congrArg List.length hcons.1.2)

/-- A ciphered SDU with a header is delivered next exactly when what the receiver takes for the MAC
is one, and the rest is the SDU. -/
theorem delivers_iff_withHeader (h : InStep tx rx) (sdu : Bytes) {body : Bytes} (hbody : body ≠ [])
    (hopened : sec'.cipherDecrypt tx.txNext (extractMac body).2 = sdu) :
    (rx.verifies sec' (writeDataHeader tx.snLen tx.rbType tx.txNext body) = true ∧ ∃ rest,
        (rx.writePdu sec' (writeDataHeader tx.snLen tx.rbType tx.txNext body)).delivered
          = rx.delivered ++ (tx.txNext, sdu) :: rest) ↔
      sec'.integrityVerify tx.txNext sdu (extractMac body).1 = true := by
  obtain ⟨hverifies, hsdu⟩ := delivers_withHeader sec' h hbody
  rw [hopened] at hverifies hsdu
  rw [hverifies]
  constructor
  · rintro ⟨hverify, -⟩
    exact hverify
  · intro hverify
    refine ⟨hverify, ?_⟩
    have hnext := delivered_writePdu_next h.queue h.rxOverflow
      (lt_length_withHeader h hbody) (rcvdCount_of_inStep h hbody) (hverifies.trans hverify)
    rwa [hsdu, h.count] at hnext

/-- The PDU that goes to the RLC. -/
theorem writeSduBuffer_eq (sec : Security) (hover : tx.txOverflow = false)
    (hle : b.msg.length ≤ pdcpMaxSduSize) :
    ∃ tx', tx.writeSduBuffer sec b = some (tx', some ⟨tx.txNext, tx.txNext,
      (((⟨b.headroom, sec.cipherEncrypt tx.txNext b.msg⟩ : ByteBuffer).writeDataHeader tx.snLen
        tx.rbType tx.txNext).appendMac (sec.integrityGenerate tx.txNext b.msg)).msg⟩) := by
  refine ⟨(tx.writeSdu sec b.msg).1, ?_⟩
  unfold writeSduBuffer writeSdu protectBuffer
  rw [hover, if_neg Bool.false_ne_true, cipherEncrypt_zero _ hle]

theorem roundTrip_iff_fits (hsec : Undoes sec sec') (h : InStep tx rx) (hpos : 1 ≤ b.msg.length)
    (hle : b.msg.length ≤ pdcpMaxSduSize) (hvalid : b.headroom + b.msg.length ≤ bufferSize) :
    RoundTrip sec sec' tx rx b ↔ Fits sec' tx b := by
  have hhdr := SnLen.hdrLenBytes_bounds tx.snLen
  have hlen := hsec.length_encrypt tx.txNext b.msg
  have hne : sec.cipherEncrypt tx.txNext b.msg ≠ [] := by
    rw [← List.length_pos_iff, hlen]
    exact hpos
  have hmac := hsec.length_mac tx.txNext b.msg
  obtain ⟨tx', heq⟩ := writeSduBuffer_eq sec h.txOverflow hle
  have hroom : MacRoom tx.snLen ⟨b.headroom, sec.cipherEncrypt tx.txNext b.msg⟩
      ↔ MacRoom tx.snLen b := macRoom_congr rfl hlen
  unfold RoundTrip Fits
  rw [heq]
  dsimp only
  rcases protected_cases (b := ⟨b.headroom, sec.cipherEncrypt tx.txNext b.msg⟩) tx.snLen tx.rbType
    tx.txNext (sec.integrityGenerate tx.txNext b.msg) (by rw [hlen]; exact hvalid) with
    ⟨hheader, -, ⟨hfits, hpdu⟩ | ⟨htight, hpdu⟩⟩ | ⟨htight, hpdu⟩
  · -- Header and MAC: the receiver takes both off.
    have hextract := extractMac_append (sec.cipherEncrypt tx.txNext b.msg) hmac
    rw [hpdu, delivers_iff_withHeader h b.msg (List.append_ne_nil_of_left_ne_nil hne _)
      (by rw [hextract]; exact hsec.decrypt _ _), hextract]
    exact iff_of_true (hsec.verify _ _) ⟨hheader, .inl (hroom.mp hfits)⟩
  · -- No MAC: four bytes of an SDU are taken for it, where it has that many.
    dsimp only at hpdu
    rw [hpdu]
    rcases Nat.lt_or_ge b.msg.length 4 with hshort | hge
    · have hextract := extractMac_of_short (hlen ▸ hshort)
      rw [delivers_iff_withHeader h b.msg hne
        (by rw [hextract]; exact hsec.decrypt _ _), hextract]
      constructor
      · intro hverify
        exact ⟨hheader, .inr ⟨hshort, hverify⟩⟩
      · rintro ⟨-, hfits | ⟨-, hverify⟩⟩
        · exact absurd (hroom.mpr hfits) htight
        · exact hverify
    · refine iff_of_false ?_ ?_
      · rintro ⟨-, hdelivered⟩
        refine not_delivers_of_length h ?_ hdelivered
        have hopened := length_openedSdu hsec rx
          (writeDataHeader tx.snLen tx.rbType tx.txNext (sec.cipherEncrypt tx.txNext b.msg))
        rw [length_writeDataHeader, hlen, h.snLen] at hopened
        omega
      · rintro ⟨-, hfits | ⟨hshort, -⟩⟩
        · exact htight (hroom.mpr hfits)
        · exact absurd hshort (Nat.not_lt.mpr hge)
  · -- No header: the receiver takes bytes of the SDU for it.
    refine iff_of_false ?_ fun hfits => absurd hfits.1 (Nat.not_le.mpr htight)
    rintro ⟨-, hdelivered⟩
    refine not_delivers_of_length h ?_ hdelivered
    dsimp only at hpdu
    rcases hpdu with hpdu | hpdu
    · have hopened := length_openedSdu hsec rx
        (sec.cipherEncrypt tx.txNext b.msg ++ sec.integrityGenerate tx.txNext b.msg)
      rw [List.length_append, hlen, hmac, h.snLen] at hopened
      rw [hpdu]
      omega
    · have hopened := length_openedSdu hsec rx (sec.cipherEncrypt tx.txNext b.msg)
      rw [hlen, h.snLen] at hopened
      rw [hpdu]
      omega

end PdcpNr

/-! ### LTE -/

namespace PdcpLte

/-- The SDU that `handle_srb_pdu` takes out of a PDU. -/
def openedSdu (sec : Security) (s : PdcpLte) (pdu : Bytes) : Bytes :=
  let s := s.enableRxSecurity (readDataHeader s.cfg.snLen pdu)
  discardDataHeader s.cfg.snLen
    (s.openSrbPdu sec (s.srbCount (readDataHeader s.cfg.snLen pdu)) pdu).2

/-- `handle_srb_pdu` delivers the message of a PDU behind its header, unless a check fails. -/
theorem delivered_handleSrbPdu (sec : Security) (s : PdcpLte) (pdu : Bytes) :
    let sn := readDataHeader s.cfg.snLen pdu
    let opened := s.openSrbPdu sec (s.srbCount sn) pdu
    (s.handleSrbPdu sec pdu).delivered
      = if (!s.integrityDirection.hasRx
            || sec.integrityVerify (s.srbCount sn) opened.2 opened.1) then
          s.delivered ++ [(s.srbCount sn, discardDataHeader s.cfg.snLen opened.2)]
        else s.delivered := by
  have hadvance : ∀ (t : PdcpLte) (sn : Nat), (t.advanceRx sn).delivered = t.delivered := by
    intro t sn
    unfold advanceRx
    split <;> rfl
  intro sn opened
  have hcase : s.handleSrbPdu sec pdu
      = if s.integrityDirection.hasRx
          && !sec.integrityVerify (s.srbCount sn) opened.2 opened.1 then s
        else
          let t := if sn < s.st.nextPdcpRxSn then s.incrementRxHfn else s
          (t.advanceRx sn).passToUpperLayers (s.srbCount sn)
            (discardDataHeader t.cfg.snLen opened.2) := rfl
  have haccept : ∀ t : PdcpLte, t.delivered = s.delivered → t.cfg = s.cfg →
      ((t.advanceRx sn).passToUpperLayers (s.srbCount sn)
        (discardDataHeader t.cfg.snLen opened.2)).delivered
        = s.delivered ++ [(s.srbCount sn, discardDataHeader s.cfg.snLen opened.2)] := by
    intro t hdelivered hcfg
    show (t.advanceRx sn).delivered ++ _ = _
    rw [hadvance, hdelivered, hcfg]
  rw [hcase]
  cases hverify : s.integrityDirection.hasRx
      && !sec.integrityVerify (s.srbCount sn) opened.2 opened.1 with
  | true =>
    rw [Bool.and_eq_true, Bool.not_eq_true'] at hverify
    rw [if_pos rfl, hverify.1, hverify.2]
    rfl
  | false =>
    have hok : (!s.integrityDirection.hasRx
        || sec.integrityVerify (s.srbCount sn) opened.2 opened.1) = true := by
      rw [← Bool.not_not (sec.integrityVerify _ _ _), ← Bool.not_and, hverify]
      rfl
    rw [if_neg Bool.false_ne_true, if_pos hok]
    dsimp only
    split
    · exact haccept s.incrementRxHfn rfl rfl
    · exact haccept s rfl rfl

theorem delivered_writePdu (outOfRange : UInt8 → Bool) (sec : Security) {s : PdcpLte}
    (hactive : s.active = true) (hsrb : s.cfg.rbType = .srb) (pdu : Bytes) :
    (s.writePdu outOfRange sec pdu).delivered
      = if s.cfg.snLen.hdrLenBytes < pdu.length ∧ s.verifies sec pdu = true then
          s.delivered ++ [(s.srbCount (readDataHeader s.cfg.snLen pdu), s.openedSdu sec pdu)]
        else s.delivered := by
  have hsame := sameSync_enableRxSecurity s (readDataHeader s.cfg.snLen pdu)
  have hcase : s.writePdu outOfRange sec pdu
      = if pdu.length ≤ s.cfg.snLen.hdrLenBytes then s
        else (s.enableRxSecurity (readDataHeader s.cfg.snLen pdu)).handleSrbPdu sec pdu := by
    unfold writePdu
    rw [hactive]
    dsimp only
    rw [hsame.cfg, hsrb]
    rfl
  rw [hcase]
  rcases Nat.lt_or_ge s.cfg.snLen.hdrLenBytes pdu.length with hlen | hshort
  · rw [if_neg (Nat.not_le.mpr hlen)]
    unfold verifies openedSdu
    dsimp only
    generalize s.enableRxSecurity (readDataHeader s.cfg.snLen pdu) = t at hsame
    have hcount : ∀ sn, s.srbCount sn = t.srbCount sn := by
      intro sn
      unfold srbCount count
      rw [hsame.st, hsame.cfg]
    rw [hcount, ← hsame.cfg, ← hsame.delivered, delivered_handleSrbPdu sec t pdu]
    exact if_congr (and_iff_right (hsame.cfg ▸ hlen)).symm rfl rfl
  · rw [if_pos hshort, if_neg fun h => absurd h.1 (Nat.not_lt.mpr hshort)]

/-- The receiver is in step with the sender: it is an SRB as well, expects the COUNT of the next
SDU, and checks and deciphers that PDU when the sender protects and ciphers it. -/
structure InStep (upperSn : Option Nat) (tx rx : PdcpLte) : Prop where
  txActive : tx.active = true
  rxActive : rx.active = true
  txSrb : tx.cfg.rbType = .srb
  rxSrb : rx.cfg.rbType = .srb
  snLen : rx.cfg.snLen = tx.cfg.snLen
  hfn : rx.st.rxHfn = tx.st.txHfn
  sn : rx.st.nextPdcpRxSn = tx.usedSn upperSn
  lt : tx.usedSn upperSn < tx.cfg.snLen.nofSns
  integrity : (rx.enableRxSecurity (tx.usedSn upperSn)).integrityDirection.hasRx
    = (tx.enableTxSecurity (tx.txCount upperSn)).integrityDirection.hasTx
  encryption : (rx.enableRxSecurity (tx.usedSn upperSn)).encryptionDirection.hasRx
    = (tx.enableTxSecurity (tx.txCount upperSn)).encryptionDirection.hasTx

/-- The PDU of an SDU that the RLC takes is verified, and the SDU is delivered. -/
def RoundTrip (outOfRange : UInt8 → Bool) (sec sec' : Security) (tx rx : PdcpLte)
    (upperSn : Option Nat) (b : ByteBuffer) : Prop :=
  match tx.writeSduBuffer sec ⟨false, false⟩ b upperSn with
  | none => False
  | some (_, none) => True
  | some (_, some out) =>
    rx.verifies sec' out.pdu = true ∧
      (rx.writePdu outOfRange sec' out.pdu).delivered = rx.delivered ++ [(out.count, b.msg)]

/-- The header and the MAC have room, or SDU and header are so short that the receiver looks for no
MAC, and accepts them without one. -/
def Fits (sec' : Security) (tx rx : PdcpLte) (upperSn : Option Nat) (b : ByteBuffer) : Prop :=
  tx.cfg.snLen.hdrLenBytes ≤ b.headroom ∧
    (MacRoom tx.cfg.snLen b ∨
      tx.cfg.snLen.hdrLenBytes + b.msg.length < 4 ∧
        ((rx.enableRxSecurity (tx.usedSn upperSn)).integrityDirection.hasRx = true →
          sec'.integrityVerify (tx.txCount upperSn)
            (writeDataHeader tx.cfg.snLen .srb (tx.txCount upperSn) b.msg) none = true))

variable {sec sec' : Security} {tx rx : PdcpLte} {upperSn : Option Nat}

/-- What is behind the header of a PDU. -/
def sealedBody (sec : Security) (s : PdcpLte) (txCount : Nat) (body : Bytes) : Bytes :=
  if s.encryptionDirection.hasTx then sec.cipherEncrypt txCount body else body

theorem length_sealedBody (hsec : Undoes sec sec') (s : PdcpLte) (txCount : Nat) (body : Bytes) :
    (s.sealedBody sec txCount body).length = body.length := by
  unfold sealedBody
  split
  · exact hsec.length_encrypt _ _
  · rfl

/-- The receiver finds the COUNT behind a header of the sender. -/
theorem count_of_inStep (h : InStep upperSn tx rx) {body : Bytes} (hbody : body ≠ []) :
    readDataHeader rx.cfg.snLen (writeDataHeader tx.cfg.snLen .srb (tx.txCount upperSn) body)
        = tx.usedSn upperSn ∧
      rx.srbCount (tx.usedSn upperSn) = tx.txCount upperSn := by
  constructor
  · rw [h.snLen, readDataHeader_writeDataHeader _ _ _ hbody]
    exact SnLen.sn_count _ _ h.lt
  · unfold srbCount txCount count
    rw [if_neg (h.sn ▸ Nat.lt_irrefl _), h.snLen, h.hfn]

/-- What the receiver takes out of a PDU with a header. -/
theorem openSrbPdu_sealedBody (hsec : Undoes sec sec') (h : InStep upperSn tx rx) (body : Bytes) :
    (rx.enableRxSecurity (tx.usedSn upperSn)).openSrbPdu sec' (tx.txCount upperSn)
        (writeDataHeader tx.cfg.snLen .srb (tx.txCount upperSn)
          ((tx.enableTxSecurity (tx.txCount upperSn)).sealedBody sec (tx.txCount upperSn) body))
      = extractMac (writeDataHeader tx.cfg.snLen .srb (tx.txCount upperSn) body) := by
  have hcfg := (sameSync_enableRxSecurity rx (tx.usedSn upperSn)).cfg
  have hlength := length_dataHeader tx.cfg.snLen .srb (tx.txCount upperSn)
  unfold openSrbPdu sealedBody writeDataHeader
  rw [hcfg, h.snLen, h.encryption, ← hlength, List.take_left, List.drop_left]
  split
  · dsimp only
    rw [hsec.decrypt]
  · rfl

/-- A PDU with a header is delivered exactly when what the receiver takes for the MAC is one, and
the rest is the SDU. -/
theorem delivers_iff_withHeader (outOfRange : UInt8 → Bool) (hsec : Undoes sec sec')
    (h : InStep upperSn tx rx) {body sdu : Bytes} (hbody : body ≠ []) :
    let pdu := writeDataHeader tx.cfg.snLen .srb (tx.txCount upperSn)
      ((tx.enableTxSecurity (tx.txCount upperSn)).sealedBody sec (tx.txCount upperSn) body)
    let opened := extractMac (writeDataHeader tx.cfg.snLen .srb (tx.txCount upperSn) body)
    (rx.verifies sec' pdu = true ∧ (rx.writePdu outOfRange sec' pdu).delivered
        = rx.delivered ++ [(tx.txCount upperSn, sdu)]) ↔
      ((rx.enableRxSecurity (tx.usedSn upperSn)).integrityDirection.hasRx = true →
          sec'.integrityVerify (tx.txCount upperSn) opened.2 opened.1 = true) ∧
        discardDataHeader tx.cfg.snLen opened.2 = sdu := by
  intro pdu opened
  have hcfg := sameSync_enableRxSecurity rx (tx.usedSn upperSn)
  have hne : (tx.enableTxSecurity (tx.txCount upperSn)).sealedBody sec (tx.txCount upperSn) body
      ≠ [] := by
    rw [← List.length_pos_iff, length_sealedBody hsec]
    exact List.length_pos_of_ne_nil hbody
  obtain ⟨hsn, hcount⟩ := count_of_inStep h hne
  have hcount' : (rx.enableRxSecurity (tx.usedSn upperSn)).srbCount (tx.usedSn upperSn)
      = tx.txCount upperSn := by
    rw [← hcount]
    unfold srbCount count
    rw [hcfg.st, hcfg.cfg]
  have hopen : (rx.enableRxSecurity (tx.usedSn upperSn)).openSrbPdu sec' (tx.txCount upperSn) pdu
      = opened := openSrbPdu_sealedBody hsec h body
  have hverifies : rx.verifies sec' pdu = true ↔
      ((rx.enableRxSecurity (tx.usedSn upperSn)).integrityDirection.hasRx = true →
        sec'.integrityVerify (tx.txCount upperSn) opened.2 opened.1 = true) := by
    unfold verifies
    rw [hsn]
    dsimp only
    rw [hcfg.cfg, hsn, hcount', hopen]
    cases (rx.enableRxSecurity (tx.usedSn upperSn)).integrityDirection.hasRx <;> simp
  have hopened : rx.openedSdu sec' pdu = discardDataHeader tx.cfg.snLen opened.2 := by
    unfold openedSdu
    rw [hsn]
    dsimp only
    rw [hcfg.cfg, hsn, hcount', hopen, h.snLen]
  have hlen : rx.cfg.snLen.hdrLenBytes < pdu.length := by
    have hpos := List.length_pos_of_ne_nil hne
    rw [length_writeDataHeader, h.snLen]
    omega
  rw [delivered_writePdu outOfRange sec' h.rxActive h.rxSrb, hsn, hcount, hopened, ← hverifies]
  refine and_congr_right fun hverify => ?_
  rw [if_pos ⟨hlen, hverify⟩, List.append_right_inj, List.singleton_inj, Prod.mk.injEq,
    and_iff_right rfl]

/-- The MAC of `write_sdu`. -/
def mac (sec : Security) (s : PdcpLte) (txCount : Nat) (msg : Bytes) : Bytes :=
  if s.integrityDirection.hasTx then sec.integrityGenerate txCount msg else [0, 0, 0, 0]

theorem length_mac (hsec : Undoes sec sec') (s : PdcpLte) (txCount : Nat) (msg : Bytes) :
    (s.mac sec txCount msg).length = 4 := by
  unfold mac
  split
  · exact hsec.length_mac _ _
  · rfl

/-- The buffer of an SRB before it is ciphered. -/
def withMac (sec : Security) (s : PdcpLte) (txCount : Nat) (b : ByteBuffer) : ByteBuffer :=
  (b.writeDataHeader s.cfg.snLen .srb txCount).appendMac
    (s.mac sec txCount (b.writeDataHeader s.cfg.snLen .srb txCount).msg)

theorem protectBuffer_eq {s : PdcpLte} (hsrb : s.cfg.rbType = .srb) (txCount : Nat) :
    s.protectBuffer sec txCount b
      = if s.encryptionDirection.hasTx then
          (s.withMac sec txCount b).cipherEncrypt (sec.cipherEncrypt txCount)
            s.cfg.snLen.hdrLenBytes
        else some (s.withMac sec txCount b) := by
  unfold protectBuffer
  rw [hsrb]
  rfl

theorem protectBuffer_withHeader {s : PdcpLte} (hsrb : s.cfg.rbType = .srb) {txCount : Nat}
    {body : Bytes} (hbody : body.length ≤ pdcpMaxSduSize)
    (hheader : (s.withMac sec txCount b).msg = writeDataHeader s.cfg.snLen .srb txCount body) :
    ∃ c, s.protectBuffer sec txCount b = some c ∧
      c.msg = writeDataHeader s.cfg.snLen .srb txCount (s.sealedBody sec txCount body) := by
  rw [protectBuffer_eq hsrb]
  unfold sealedBody
  split
  · refine ⟨_, if_neg ?_, ?_⟩
    · rw [hheader, length_writeDataHeader]
      omega
    · dsimp only
      rw [hheader, writeDataHeader, ← length_dataHeader s.cfg.snLen .srb txCount, List.take_left,
        List.drop_left]
      rfl
  · exact ⟨_, rfl, hheader⟩

/-- A cipher does not change the length of a PDU. -/
theorem length_protectBuffer (hsec : Undoes sec sec') {s : PdcpLte} (hsrb : s.cfg.rbType = .srb)
    {txCount : Nat} {c : ByteBuffer} (hc : s.protectBuffer sec txCount b = some c) :
    c.msg.length = (s.withMac sec txCount b).msg.length := by
  rw [protectBuffer_eq hsrb] at hc
  split at hc
  · unfold ByteBuffer.cipherEncrypt at hc
    split at hc
    · cases hc
    · cases hc
      dsimp only
      rw [List.length_append, hsec.length_encrypt, List.length_take, List.length_drop]
      omega
  · cases hc
    rfl

theorem protected_eq_map (c : Option ByteBuffer) (f : ByteBuffer → PdcpLte × Option LteTxPdu) :
    (match c with
      | none => none
      | some c => some (f c)) = c.map f := by
  cases c with
  | none => rfl
  | some c => rfl

theorem writeSduBuffer_eq (h : InStep upperSn tx rx) :
    tx.writeSduBuffer sec ⟨false, false⟩ b upperSn
      = ((tx.enableTxSecurity (tx.txCount upperSn)).protectBuffer sec (tx.txCount upperSn) b).map
        fun c => ((tx.writeSdu sec ⟨false, false⟩ b.msg upperSn).1,
          some ⟨tx.txCount upperSn, tx.usedSn upperSn, c.msg⟩) := by
  have ham : tx.cfg.isAmDrb = false := by
    unfold LteConfig.isAmDrb
    rw [h.txSrb]
    exact Bool.and_false _
  unfold writeSduBuffer writeSdu storedSdus
  rw [h.txActive, ham]
  exact protected_eq_map _ _

/-- The number of bytes that are taken out of a PDU. -/
theorem length_openedSdu (hsec : Undoes sec sec') (s : PdcpLte) (pdu : Bytes) :
    (s.openedSdu sec' pdu).length = pdu.length - s.cfg.snLen.hdrLenBytes ∧ pdu.length < 4 ∨
      (s.openedSdu sec' pdu).length = pdu.length - 4 - s.cfg.snLen.hdrLenBytes ∧
        4 ≤ pdu.length := by
  have hcfg := (sameSync_enableRxSecurity s (readDataHeader s.cfg.snLen pdu)).cfg
  have hbody : ∀ (t : PdcpLte) (count hdr : Nat), (pdu.take hdr ++
      if t.encryptionDirection.hasRx then sec'.cipherDecrypt count (pdu.drop hdr)
      else pdu.drop hdr).length = pdu.length := by
    intro t count hdr
    split
    · rw [List.length_append, hsec.length_decrypt, List.length_take, List.length_drop]
      omega
    · rw [List.take_append_drop]
  unfold openedSdu openSrbPdu discardDataHeader
  dsimp only
  rw [hcfg, List.length_drop]
  rcases Nat.lt_or_ge pdu.length 4 with hshort | hge
  · refine .inl ⟨?_, hshort⟩
    rw [extractMac_of_short ((hbody _ _ _).symm ▸ hshort), hbody]
  · refine .inr ⟨?_, hge⟩
    rw [length_extractMac_of_ge ((hbody _ _ _).symm ▸ hge), hbody]

theorem not_delivers_of_length (outOfRange : UInt8 → Bool) (h : InStep upperSn tx rx)
    {pdu sdu : Bytes} {count : Nat} (hlen : (rx.openedSdu sec' pdu).length ≠ sdu.length) :
    (rx.writePdu outOfRange sec' pdu).delivered ≠ rx.delivered ++ [(count, sdu)] := by
  rw [delivered_writePdu outOfRange sec' h.rxActive h.rxSrb]
  split
  · intro heq
    have hcons := List.append_cancel_left heq
    rw [List.singleton_inj, Prod.mk.injEq] at hcons
    exact hlen (congrArg List.length hcons.2)
  · intro heq
    exact absurd (List.self_eq_append_right.mp heq) (List.cons_ne_nil _ _)

/-- The message and its MAC fit in the local buffer of a cipher. -/
theorem length_le_of_macRoom (hsec : Undoes sec sec') (s : PdcpLte) (txCount : Nat) (msg : Bytes)
    (hmac : MacRoom snLen b) : (b.msg ++ s.mac sec txCount msg).length ≤ pdcpMaxSduSize := by
  have hsize : bufferSize = 13257 := rfl
  have hmax : pdcpMaxSduSize = 9000 := rfl
  unfold MacRoom at hmac
  rw [List.length_append, length_mac hsec]
  omega

/-- The round trip of an SRB succeeds exactly when header and MAC fit. -/
theorem roundTrip_iff_fits (outOfRange : UInt8 → Bool) (hsec : Undoes sec sec')
    (h : InStep upperSn tx rx) (hpos : 1 ≤ b.msg.length) (hle : b.msg.length ≤ pdcpMaxSduSize)
    (hvalid : b.headroom + b.msg.length ≤ bufferSize) :
    RoundTrip outOfRange sec sec' tx rx upperSn b ↔ Fits sec' tx rx upperSn b := by
  have hhdr := SnLen.hdrLenBytes_bounds tx.cfg.snLen
  have hne : b.msg ≠ [] := List.length_pos_iff.mp hpos
  have hcfg := cfg_enableTxSecurity tx (tx.txCount upperSn)
  have hsrb : (tx.enableTxSecurity (tx.txCount upperSn)).cfg.rbType = .srb := hcfg ▸ h.txSrb
  have hmac := length_mac hsec (tx.enableTxSecurity (tx.txCount upperSn)) (tx.txCount upperSn)
    (b.writeDataHeader tx.cfg.snLen .srb (tx.txCount upperSn)).msg
  unfold RoundTrip Fits
  rw [writeSduBuffer_eq h]
  rcases protected_cases (b := b) tx.cfg.snLen .srb (tx.txCount upperSn)
    ((tx.enableTxSecurity (tx.txCount upperSn)).mac sec (tx.txCount upperSn)
      (b.writeDataHeader tx.cfg.snLen .srb (tx.txCount upperSn)).msg) hvalid with
    ⟨hheader, hmsg, ⟨hfits, hpdu⟩ | ⟨htight, hpdu⟩⟩ | ⟨htight, hpdu⟩
  · -- Header and MAC: the receiver takes both off.
    obtain ⟨c, hc, hcmsg⟩ := protectBuffer_withHeader hsrb
      (length_le_of_macRoom hsec _ _ _ hfits) (by
        unfold withMac
        rw [hcfg]
        exact hpdu)
    rw [hc]
    dsimp only [Option.map_some]
    rw [hcfg] at hcmsg
    rw [hcmsg]
    refine (delivers_iff_withHeader outOfRange hsec h
      (List.append_ne_nil_of_left_ne_nil hne _)).trans (iff_of_true ?_ ⟨hheader, .inl hfits⟩)
    have hextract := extractMac_append
      (writeDataHeader tx.cfg.snLen .srb (tx.txCount upperSn) b.msg) hmac
    rw [writeDataHeader, List.append_assoc] at hextract
    rw [writeDataHeader, hextract]
    refine ⟨?_, discardDataHeader_writeDataHeader _ _ _ _⟩
    intro hrx
    unfold mac
    rw [if_pos (h.integrity ▸ hrx), hmsg]
    exact hsec.verify _ _
  · -- No MAC: four bytes are taken for it, where there are that many.
    obtain ⟨c, hc, hcmsg⟩ := protectBuffer_withHeader hsrb hle (by
      unfold withMac
      rw [hcfg]
      exact hpdu)
    rw [hc]
    dsimp only [Option.map_some]
    rw [hcfg] at hcmsg
    rw [hcmsg]
    refine (delivers_iff_withHeader outOfRange hsec h hne).trans ?_
    have hlen := length_writeDataHeader tx.cfg.snLen .srb (tx.txCount upperSn) b.msg
    rcases Nat.lt_or_ge (tx.cfg.snLen.hdrLenBytes + b.msg.length) 4 with hshort | hge
    · rw [extractMac_of_short (hlen ▸ hshort)]
      rw [and_iff_left (discardDataHeader_writeDataHeader _ _ _ _), and_iff_right hheader,
        or_iff_right htight, and_iff_right hshort]
    · refine iff_of_false ?_ ?_
      · rintro ⟨-, hsdu⟩
        have hdropped := congrArg List.length hsdu
        rw [discardDataHeader, List.length_drop, length_extractMac_of_ge (hlen ▸ hge), hlen]
          at hdropped
        omega
      · rintro ⟨-, hfits | ⟨hshort, -⟩⟩
        · exact htight hfits
        · exact absurd hshort (Nat.not_lt.mpr hge)
  · -- No header: the receiver takes bytes of the SDU for it.
    refine iff_of_false ?_ fun hfits => absurd hfits.1 (Nat.not_le.mpr htight)
    cases hc : (tx.enableTxSecurity (tx.txCount upperSn)).protectBuffer sec (tx.txCount upperSn) b
      with
    | none => exact fun hfalse => hfalse
    | some c =>
      rintro ⟨-, hdelivered⟩
      refine not_delivers_of_length outOfRange h ?_ hdelivered
      have hclen := length_protectBuffer hsec hsrb hc
      unfold withMac at hclen
      rw [hcfg] at hclen
      have hopened := length_openedSdu hsec rx c.msg
      rw [h.snLen] at hopened
      have htotal : c.msg.length = b.msg.length + 4 ∨ c.msg.length = b.msg.length := by
        rw [hclen]
        rcases hpdu with hpdu | hpdu
        · exact .inl (by rw [hpdu, List.length_append, hmac])
        · exact .inr (by rw [hpdu])
      dsimp only
      omega

end PdcpLte

/-! ### Both entities -/

/-- The round trip of `write_sdu` and `write_pdu`, between entities that mirror each other and are
in step, succeeds exactly when header and MAC fit. -/
theorem roundTrips_iff_fits (f : SecurityFunctions) {e e' : EntitySecurity} (h : Mirrored e e')
    (b : ByteBuffer) (hpos : 1 ≤ b.msg.length) (hle : b.msg.length ≤ pdcpMaxSduSize)
    (hvalid : b.headroom + b.msg.length ≤ bufferSize) :
    (∀ tx rx : PdcpNr, PdcpNr.InStep tx rx →
      (PdcpNr.RoundTrip (e.security f) (e'.security f) tx rx b ↔
        PdcpNr.Fits (e'.security f) tx b)) ∧
      ∀ (outOfRange : UInt8 → Bool) (tx rx : PdcpLte) (upperSn : Option Nat),
        PdcpLte.InStep upperSn tx rx →
        (PdcpLte.RoundTrip outOfRange (e.security f) (e'.security f) tx rx upperSn b ↔
          PdcpLte.Fits (e'.security f) tx rx upperSn b) :=
  ⟨fun _ _ hstep => PdcpNr.roundTrip_iff_fits (undoes_of_mirrored h) hstep hpos hle hvalid,
    fun outOfRange _ _ _ hstep =>
      PdcpLte.roundTrip_iff_fits outOfRange (undoes_of_mirrored h) hstep hpos hle hvalid⟩

/-- Functions that leave a message as it is, with a MAC of zeros. EEA0 and EIA0 call none. -/
def nullFunctions : SecurityFunctions where
  eea := fun _ _ _ _ _ msg => msg
  eia := fun _ _ _ _ _ _ => [0, 0, 0, 0]
  eea_eea := fun _ _ _ _ _ _ => rfl
  length_eea := fun _ _ _ _ _ _ => rfl
  length_eia := fun _ _ _ _ _ _ => rfl

/-- An entity with EEA0 and EIA0. -/
def nullEntity (rbType : RbType) (txDirection rxDirection : SecurityDirection) :
    EntitySecurity where
  bearerId := 1
  rbType := rbType
  txDirection := txDirection
  rxDirection := rxDirection
  secCfg := ⟨[], [], [], [], .eia0, .eea0⟩
  txMac := [0, 0, 0, 0]
  rxMac := [0, 0, 0, 0]
  length_txMac := rfl

theorem mirrored_nullEntity (rbType : RbType) :
    Mirrored (nullEntity rbType .uplink .downlink) (nullEntity rbType .downlink .uplink) :=
  ⟨rfl, rfl, rfl, rfl⟩

theorem PdcpNr.inStep_init (snLen : SnLen) (rbType : RbType) (tReordering : Nat) :
    InStep (init snLen rbType tReordering) (init snLen rbType tReordering) :=
  ⟨rfl, rfl, Nat.two_pow_pos 32, rfl, rfl, fun _ he => absurd he List.not_mem_nil⟩

/-- The configuration of SRB1. -/
def srbConfig : LteConfig := ⟨.len5, .srb, false, 0, false⟩

theorem PdcpLte.inStep_init : InStep none (init srbConfig) (init srbConfig) :=
  ⟨rfl, rfl, rfl, rfl, rfl, rfl, rfl, by decide, rfl, rfl⟩

theorem roundTrips_three :
    PdcpNr.RoundTrip ((nullEntity .drb .uplink .downlink).security nullFunctions)
        ((nullEntity .drb .downlink .uplink).security nullFunctions)
        (PdcpNr.init .len12 .drb 0) (PdcpNr.init .len12 .drb 0) (.ofSdu [1, 2, 3]) ∧
      PdcpLte.RoundTrip (fun _ => false)
        ((nullEntity .srb .uplink .downlink).security nullFunctions)
        ((nullEntity .srb .downlink .uplink).security nullFunctions)
        (PdcpLte.init srbConfig) (PdcpLte.init srbConfig) none (.ofSdu [1, 2, 3]) :=
  ⟨((roundTrips_iff_fits nullFunctions (mirrored_nullEntity .drb) (.ofSdu [1, 2, 3]) (by decide)
      (by decide) (by decide)).1 _ _ (PdcpNr.inStep_init .len12 .drb 0)).mpr
      ⟨by decide, .inl (by decide)⟩,
    ((roundTrips_iff_fits nullFunctions (mirrored_nullEntity .srb) (.ofSdu [1, 2, 3]) (by decide)
      (by decide) (by decide)).2 _ _ _ _ PdcpLte.inStep_init).mpr
      ⟨by decide, .inl (by decide)⟩⟩

/-- An SDU of 7000 bytes gets no MAC. -/
theorem not_roundTrip_long :
    ∃ b : ByteBuffer, b = .ofSdu (List.replicate 7000 0) ∧ 1 ≤ b.msg.length ∧
      b.msg.length ≤ pdcpMaxSduSize ∧
      Mirrored (nullEntity .drb .uplink .downlink) (nullEntity .drb .downlink .uplink) ∧
      PdcpNr.InStep (.init .len12 .drb 0) (.init .len12 .drb 0) ∧
      ¬PdcpNr.RoundTrip ((nullEntity .drb .uplink .downlink).security nullFunctions)
        ((nullEntity .drb .downlink .uplink).security nullFunctions)
        (.init .len12 .drb 0) (.init .len12 .drb 0) b := by
  have hlen : (ByteBuffer.ofSdu (List.replicate 7000 0)).msg.length = 7000 := List.length_replicate
  have hmax : pdcpMaxSduSize = 9000 := rfl
  have hmirrored := mirrored_nullEntity .drb
  have hstep := PdcpNr.inStep_init .len12 .drb 0
  refine ⟨_, rfl, by omega, by omega, hmirrored, hstep, ?_⟩
  rw [PdcpNr.roundTrip_iff_fits (undoes_of_mirrored hmirrored) hstep (by omega) (by omega) ?_]
  · rintro ⟨-, hroom | ⟨hshort, -⟩⟩
    · unfold MacRoom at hroom
      rw [hlen] at hroom
      exact absurd hroom (by decide)
    · omega
  · rw [hlen]
    decide

end Odss.Pdcp
