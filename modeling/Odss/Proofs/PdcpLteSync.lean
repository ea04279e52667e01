import Odss.Lib.Run
import Odss.Pdcp.EntityLte

/-!
# `Odss.Proofs.PdcpLteSync`: HFN synchronisation of an AM DRB

A transmitter emits PDUs with COUNT values, and a receiver finds the COUNT of each from its SN.

* `Schedule` is the order in which PDUs arrive: each is new and less than a window ahead, or a
  repetition that is less than a window behind.
* `Synced` is the state of a receiver that expects a COUNT next. `amDrbCount_of_synced` and
  `discardsSn_of_synced` are the new and the repeated SN in it.
* `deciphers_of_schedule` is the run.
-/

set_option linter.all false

namespace Odss.Pdcp.PdcpLte

open Odss.Lib Odss.Rlc

/-! ### Transmitter -/

/-- A call of the transmitter. -/
inductive TxOp where
  | writeSdu (rlc : RlcStatus) (sdu : Bytes) (upperSn : Option Nat)
  | notify (pdcpSns : List Nat)
  | discard (sn : Nat)
deriving DecidableEq, Repr

/-- One call, with the PDU that goes to the RLC. -/
def txStep (sec : Security) (s : PdcpLte) : TxOp → PdcpLte × Option LteTxPdu
  | .writeSdu rlc sdu upperSn => s.writeSdu sec rlc sdu upperSn
  | .notify pdcpSns => (s.notify pdcpSns, none)
  | .discard sn => (s.discard sn, none)

/-- The PDUs of a run. -/
def emitted (sec : Security) (s : PdcpLte) (ops : List TxOp) : List LteTxPdu :=
  (outputs (txStep sec) s ops).filterMap id

/-- The upper layer provides no SN. -/
def TxOp.Normal : TxOp → Prop
  | .writeSdu _ _ upperSn => upperSn = none
  | .notify _ => True
  | .discard _ => True

theorem writeSdu_cases (sec : Security) (s : PdcpLte) (rlc : RlcStatus) (sdu : Bytes)
    (upperSn : Option Nat) :
    s.writeSdu sec rlc sdu upperSn = (s, none) ∨
      ∃ q, s.storedSdus (s.usedSn upperSn) sdu = some q ∧ s.writeSdu sec rlc sdu upperSn
        = ((s.sendSdu sec q sdu upperSn).1, some (s.sendSdu sec q sdu upperSn).2) := by
  unfold writeSdu
  split
  · exact .inl rfl
  · cases hq : s.storedSdus (s.usedSn upperSn) sdu with
    | none => exact .inl rfl
    | some q => exact .inr ⟨q, rfl, rfl⟩

@[simp] theorem cfg_enableTxSecurity (s : PdcpLte) (txCount : Nat) :
    (s.enableTxSecurity txCount).cfg = s.cfg := by
  unfold enableTxSecurity
  split <;> rfl

@[simp] theorem cfg_advanceTx (s : PdcpLte) : s.advanceTx.cfg = s.cfg := by
  unfold advanceTx
  simp only
  split <;> rfl

@[simp] theorem cfg_sendSdu (sec : Security) (s : PdcpLte) (q : UndeliveredSdus) (sdu : Bytes)
    (upperSn : Option Nat) : (s.sendSdu sec q sdu upperSn).1.cfg = s.cfg := by
  unfold sendSdu
  cases upperSn <;> simp

@[simp] theorem undeliveredSdus_enableTxSecurity (s : PdcpLte) (txCount : Nat) :
    (s.enableTxSecurity txCount).undeliveredSdus = s.undeliveredSdus := by
  unfold enableTxSecurity
  split <;> rfl

@[simp] theorem undeliveredSdus_advanceTx (s : PdcpLte) :
    s.advanceTx.undeliveredSdus = s.undeliveredSdus := by
  unfold advanceTx
  simp only
  split <;> rfl

@[simp] theorem undeliveredSdus_sendSdu (sec : Security) (s : PdcpLte) (q : UndeliveredSdus)
    (sdu : Bytes) (upperSn : Option Nat) : (s.sendSdu sec q sdu upperSn).1.undeliveredSdus = q := by
  unfold sendSdu
  cases upperSn <;> simp

@[simp] theorem active_enableTxSecurity (s : PdcpLte) (txCount : Nat) :
    (s.enableTxSecurity txCount).active = s.active := by
  unfold enableTxSecurity
  split <;> rfl

@[simp] theorem active_advanceTx (s : PdcpLte) : s.advanceTx.active = s.active := by
  unfold advanceTx
  simp only
  split <;> rfl

@[simp] theorem active_sendSdu (sec : Security) (s : PdcpLte) (q : UndeliveredSdus) (sdu : Bytes)
    (upperSn : Option Nat) : (s.sendSdu sec q sdu upperSn).1.active = s.active := by
  unfold sendSdu
  cases upperSn <;> simp

@[simp] theorem cfg_txStep (sec : Security) (s : PdcpLte) (op : TxOp) :
    (s.txStep sec op).1.cfg = s.cfg := by
  cases op with
  | writeSdu rlc sdu upperSn =>
    show (s.writeSdu sec rlc sdu upperSn).1.cfg = s.cfg
    rcases s.writeSdu_cases sec rlc sdu upperSn with heq | ⟨q, -, heq⟩
    · rw [heq]
    · rw [heq, cfg_sendSdu]
  | notify pdcpSns =>
    show (s.notify pdcpSns).cfg = s.cfg
    unfold notify
    simp only
    split <;> rfl
  | discard sn => rfl

@[simp] theorem st_enableTxSecurity (s : PdcpLte) (txCount : Nat) :
    (s.enableTxSecurity txCount).st = s.st := by
  unfold enableTxSecurity
  split <;> rfl

/-- An SDU that the upper layer gives an SN leaves the transmission variables. -/
theorem st_sendSdu_some (sec : Security) (s : PdcpLte) (q : UndeliveredSdus) (sdu : Bytes)
    (sn : Nat) : (s.sendSdu sec q sdu (some sn)).1.st = s.st :=
  st_enableTxSecurity _ _

theorem st_sendSdu_none (sec : Security) (s : PdcpLte) (q : UndeliveredSdus) (sdu : Bytes) :
    (s.sendSdu sec q sdu none).1.st = s.advanceTx.st := by
  show (enableTxSecurity _ _).advanceTx.st = _
  unfold advanceTx
  simp only [st_enableTxSecurity, cfg_enableTxSecurity]
  split <;> rfl

theorem st_advanceTx (s : PdcpLte) :
    s.advanceTx.st = if s.st.nextPdcpTxSn + 1 > s.cfg.maximumPdcpSn then
      { s.st with nextPdcpTxSn := 0, txHfn := (s.st.txHfn + 1) % 2 ^ 32 }
    else { s.st with nextPdcpTxSn := s.st.nextPdcpTxSn + 1 } := by
  unfold advanceTx
  simp only
  split <;> rfl

/-- The SN of the next SDU is one. -/
def TxSnValid (s : PdcpLte) : Prop := s.st.nextPdcpTxSn < s.cfg.snLen.nofSns

theorem txSnValid_advanceTx {s : PdcpLte} : TxSnValid s.advanceTx := by
  have hpos := s.cfg.snLen.nofSns_pos
  unfold TxSnValid
  rw [cfg_advanceTx, st_advanceTx, LteConfig.maximumPdcpSn]
  split
  · exact hpos
  · show s.st.nextPdcpTxSn + 1 < s.cfg.snLen.nofSns
    omega

theorem txSnValid_txStep {sec : Security} {s : PdcpLte} (h : TxSnValid s) (op : TxOp) :
    TxSnValid (s.txStep sec op).1 := by
  have hkeep : ∀ t : PdcpLte, t.st = s.st → t.cfg = s.cfg → TxSnValid t := by
    intro t hst hcfg
    unfold TxSnValid
    rw [hst, hcfg]
    exact h
  refine match op with
    | .writeSdu rlc sdu upperSn => ?_
    | .notify pdcpSns => hkeep _ ?_ (cfg_txStep sec s (.notify pdcpSns))
    | .discard sn => hkeep _ rfl rfl
  · show TxSnValid (s.writeSdu sec rlc sdu upperSn).1
    rcases s.writeSdu_cases sec rlc sdu upperSn with heq | ⟨q, -, heq⟩
    · rw [heq]
      exact h
    · rw [heq]
      cases upperSn with
      | none =>
        have hvalid := txSnValid_advanceTx (s := s)
        unfold TxSnValid at hvalid ⊢
        rw [st_sendSdu_none, cfg_sendSdu]
        rwa [cfg_advanceTx] at hvalid
      | some sn => exact hkeep _ (st_sendSdu_some sec s q sdu sn) (cfg_sendSdu sec s q sdu (some sn))
  · show (s.notify pdcpSns).st = s.st
    unfold notify
    simp only
    split <;> rfl

/-- What a PDU shows of its COUNT. -/
def HasHeader (cfg : LteConfig) (p : LteTxPdu) : Prop :=
  p.count < 2 ^ 32 ∧ ∃ body, p.pdu = writeDataHeader cfg.snLen cfg.rbType p.count body

theorem hasHeader_txStep {sec : Security} {s : PdcpLte} (h : TxSnValid s) {op : TxOp}
    (hop : op.Normal) {p : LteTxPdu} (hp : (s.txStep sec op).2 = some p) : HasHeader s.cfg p := by
  cases op with
  | writeSdu rlc sdu upperSn =>
    obtain rfl : upperSn = none := hop
    have hp : (s.writeSdu sec rlc sdu none).2 = some p := hp
    rcases s.writeSdu_cases sec rlc sdu none with heq | ⟨q, -, heq⟩
    · rw [heq] at hp
      cases hp
    · rw [heq] at hp
      cases hp
      refine ⟨s.cfg.snLen.count_lt _ h, ?_⟩
      unfold sendSdu protect
      simp only [cfg_enableTxSecurity]
      exact ⟨_, rfl⟩
  | notify pdcpSns => cases hp
  | discard sn => cases hp

theorem hasHeader_of_mem_emitted {sec : Security} {s : PdcpLte} (h : TxSnValid s) {ops : List TxOp}
    (hops : ∀ op ∈ ops, op.Normal) {p : LteTxPdu} (hp : p ∈ s.emitted sec ops) :
    HasHeader s.cfg p := by
  induction ops generalizing s with
  | nil => cases hp
  | cons op ops ih =>
    rw [emitted, outputs, List.filterMap_cons] at hp
    cases hout : (s.txStep sec op).2 with
    | none =>
      simp only [hout, id_eq] at hp
      have hrest := ih (txSnValid_txStep h op)
        (fun op' hop' => hops op' (List.mem_cons_of_mem _ hop')) hp
      rwa [cfg_txStep] at hrest
    | some p' =>
      simp only [hout, id_eq] at hp
      rcases List.mem_cons.mp hp with rfl | hp
      · exact hasHeader_txStep h (hops op List.mem_cons_self) hout
      · have hrest := ih (txSnValid_txStep h op)
          (fun op' hop' => hops op' (List.mem_cons_of_mem _ hop')) hp
        rwa [cfg_txStep] at hrest

/-! ### Receiver -/

/-- A DRB on RLC AM with SNs of 12 bits. -/
structure AmDrb12 (cfg : LteConfig) : Prop where
  snLen : cfg.snLen = .len12
  rbType : cfg.rbType = .drb
  rlcUm : cfg.rlcUm = false

/-- The receiver expects the COUNT `next`: the one before it was accepted last. -/
structure Synced (s : PdcpLte) (next : Nat) : Prop where
  cfg : AmDrb12 s.cfg
  active : s.active = true
  last : s.st.lastSubmittedPdcpRxSn = (next + 4095) % 4096
  nextSn : s.st.nextPdcpRxSn = next % 4096
  hfn : s.st.rxHfn = next / 4096

theorem synced_init {cfg : LteConfig} (h : AmDrb12 cfg) : Synced (init cfg) 0 where
  cfg := h
  active := rfl
  last := by
    show cfg.maximumPdcpSn = _
    rw [LteConfig.maximumPdcpSn, h.snLen]
    rfl
  nextSn := rfl
  hfn := rfl

theorem AmDrb12.window {cfg : LteConfig} (h : AmDrb12 cfg) : cfg.reorderingWindow = 2048 := by
  rw [LteConfig.reorderingWindow, h.rbType]

theorem AmDrb12.sn {cfg : LteConfig} (h : AmDrb12 cfg) (count : Nat) :
    cfg.snLen.sn count = count % 4096 := by
  rw [h.snLen]
  rfl

theorem AmDrb12.count_eq {cfg : LteConfig} (h : AmDrb12 cfg) {hfn sn : Nat} (hsn : sn < 4096)
    (hhfn : hfn < 2 ^ 20) : cfg.snLen.count hfn sn = hfn * 4096 + sn := by
  have hlt : sn < cfg.snLen.nofSns := by
    rw [h.snLen]
    exact hsn
  have hnof : cfg.snLen.nofSns = 4096 := by
    rw [h.snLen]
    rfl
  rw [cfg.snLen.count_eq hfn hlt, hnof, Nat.mod_eq_of_lt (by omega)]

section Sync

variable {s : PdcpLte} {next count : Nat}

/-- A repetition is discarded when it is less than a window behind. -/
theorem discardsSn_of_synced (h : Synced s next) (hold : count < next)
    (hnear : next ≤ count + 2048) : s.discardsSn (count % 4096) = true := by
  unfold discardsSn
  simp only [h.last, h.cfg.window, Bool.or_eq_true, Bool.and_eq_true, decide_eq_true_eq]
  omega

/-- A new PDU that is at most a window ahead is not discarded. -/
theorem not_discardsSn_of_synced (h : Synced s next) (hnew : next ≤ count)
    (hnear : count < next + 2048) : s.discardsSn (count % 4096) = false := by
  rw [← Bool.not_eq_true]
  unfold discardsSn
  simp only [h.last, h.cfg.window, Bool.or_eq_true, Bool.and_eq_true, decide_eq_true_eq]
  omega

/-- The receiver finds the COUNT of a new PDU and expects the one behind it. -/
theorem amDrbCount_of_synced (h : Synced s next) (hnew : next ≤ count)
    (hnear : count < next + 2048) (hlt : count < 2 ^ 32) :
    (s.amDrbCount (count % 4096)).1 = count ∧
      (s.amDrbCount (count % 4096)).2 = { s with st := { s.st with
        nextPdcpRxSn := (count + 1) % 4096
        rxHfn := (count + 1) / 4096 } } := by
  have hmax : s.cfg.maximumPdcpSn = 4095 := by
    rw [LteConfig.maximumPdcpSn, h.cfg.snLen]
    rfl
  have hsn : count % 4096 < 4096 := Nat.mod_lt _ (by decide)
  unfold amDrbCount
  simp only [h.nextSn, h.cfg.window]
  split
  · -- The SN has wrapped since the last PDU.
    rename_i hfar
    have hhfn : (next / 4096 + 1) % 2 ^ 32 = count / 4096 := by omega
    have hsame : (count + 1) / 4096 = count / 4096 := by omega
    have hsucc : (count + 1) % 4096 = count % 4096 + 1 := by omega
    refine ⟨?_, ?_⟩
    · show s.cfg.snLen.count ((s.st.rxHfn + 1) % 2 ^ 32) (count % 4096) = count
      rw [h.hfn, hhfn, h.cfg.count_eq hsn (by omega)]
      omega
    · unfold incrementRxHfn
      simp only [h.hfn, hhfn, hsame, hsucc]
  · rename_i hnotFar
    rw [if_neg (by omega), if_pos (show count % 4096 ≥ next % 4096 by omega)]
    have hhfn : next / 4096 = count / 4096 := by omega
    refine ⟨?_, ?_⟩
    · show s.cfg.snLen.count s.st.rxHfn (count % 4096) = count
      rw [h.hfn, hhfn, h.cfg.count_eq hsn (by omega)]
      omega
    · show s.advanceRx (count % 4096) = _
      unfold advanceRx
      rw [hmax]
      split
      · have hsucc : (count + 1) % 4096 = 0 := by omega
        have hup : (count / 4096 + 1) % 2 ^ 32 = (count + 1) / 4096 := by omega
        simp only [h.hfn, hhfn, hup, hsucc]
      · have hsucc : (count + 1) % 4096 = count % 4096 + 1 := by omega
        have hsame : (count + 1) / 4096 = s.st.rxHfn := by
          rw [h.hfn]
          omega
        simp only [hsucc, hsame]

end Sync

/-! ### One PDU -/

/-- The fields that only the count queue and the security switches do not touch. -/
structure SameSync (s t : PdcpLte) : Prop where
  cfg : t.cfg = s.cfg
  active : t.active = s.active
  st : t.st = s.st
  delivered : t.delivered = s.delivered

theorem SameSync.synced {s t : PdcpLte} {next : Nat} (h : SameSync s t) (hs : Synced s next) :
    Synced t next where
  cfg := by
    rw [h.cfg]
    exact hs.cfg
  active := h.active.trans hs.active
  last := by
    rw [h.st]
    exact hs.last
  nextSn := by
    rw [h.st]
    exact hs.nextSn
  hfn := by
    rw [h.st]
    exact hs.hfn

theorem sameSync_enableRxSecurity (s : PdcpLte) (sn : Nat) : SameSync s (s.enableRxSecurity sn) := by
  unfold enableRxSecurity
  split <;> exact ⟨rfl, rfl, rfl, rfl⟩

theorem sameSync_shortenRxCounts (s : PdcpLte) : SameSync s s.shortenRxCounts := by
  unfold shortenRxCounts
  split <;> exact ⟨rfl, rfl, rfl, rfl⟩

theorem sameSync_updateRxCountsQueue (s : PdcpLte) (rxCount : Nat) :
    SameSync s (s.updateRxCountsQueue rxCount) := by
  have htrans : ∀ t : PdcpLte, SameSync s t → SameSync s t.shortenRxCounts := by
    intro t ht
    have hshort := sameSync_shortenRxCounts t
    exact ⟨hshort.cfg.trans ht.cfg, hshort.active.trans ht.active, hshort.st.trans ht.st,
      hshort.delivered.trans ht.delivered⟩
  unfold updateRxCountsQueue
  split
  · exact ⟨rfl, rfl, rfl, rfl⟩
  · simp only
    split
    · exact htrans _ ⟨rfl, rfl, rfl, rfl⟩
    · exact htrans _ ⟨rfl, rfl, rfl, rfl⟩

theorem isControlPdu_writeDataHeader (count : Nat) (body : Bytes) :
    isControlPdu (writeDataHeader .len12 .drb count body) = false := by
  have hsn : SnLen.len12.sn count < 4096 := SnLen.len12.sn_lt count
  have hbyte : (UInt8.ofNat (128 + SnLen.len12.sn count / 256)).toNat
      = 128 + SnLen.len12.sn count / 256 := by
    rw [UInt8.toNat_ofNat', Nat.mod_eq_of_lt (by omega)]
  unfold isControlPdu
  simp only [writeDataHeader, dataHeader, if_true, List.cons_append, List.getD_cons_zero, hbyte,
    beq_eq_false_iff_ne]
  omega

theorem writePdu_of_synced {outOfRange : UInt8 → Bool} {sec : Security} {s : PdcpLte} {next : Nat}
    (h : Synced s next) {count : Nat} {body : Bytes} (hbody : body ≠ []) :
    s.writePdu outOfRange sec (writeDataHeader s.cfg.snLen s.cfg.rbType count body)
      = if (s.enableRxSecurity (count % 4096)).discardsSn (count % 4096) then
          s.enableRxSecurity (count % 4096)
        else (s.enableRxSecurity (count % 4096)).acceptAmDrbPdu sec (count % 4096) body := by
  have hcfg := (sameSync_enableRxSecurity s (count % 4096)).cfg
  have hsn := readDataHeader_writeDataHeader s.cfg.snLen s.cfg.rbType count hbody
  rw [h.cfg.sn] at hsn
  have hlen : ¬ (writeDataHeader s.cfg.snLen s.cfg.rbType count body).length
      ≤ s.cfg.snLen.hdrLenBytes := by
    have hpos := List.length_pos_of_ne_nil hbody
    rw [writeDataHeader, List.length_append, length_dataHeader]
    omega
  have hdata : isControlPdu (writeDataHeader s.cfg.snLen s.cfg.rbType count body) = false := by
    rw [h.cfg.snLen, h.cfg.rbType]
    exact isControlPdu_writeDataHeader count body
  have hrb : (s.enableRxSecurity (count % 4096)).cfg.rbType = .drb := hcfg ▸ h.cfg.rbType
  have hum : (s.enableRxSecurity (count % 4096)).cfg.rlcUm = false := hcfg ▸ h.cfg.rlcUm
  unfold writePdu
  rw [h.active, hdata, Bool.and_false, if_neg (by decide), if_neg (by decide), if_neg hlen, hsn]
  simp only [hrb, hum]
  rw [if_neg Bool.false_ne_true, handleAmDrbPdu, hcfg, hsn, discardDataHeader_writeDataHeader]

/-- A new PDU is accepted with its own COUNT. -/
theorem writePdu_new (outOfRange : UInt8 → Bool) (sec : Security) {s : PdcpLte} {next count : Nat}
    (h : Synced s next) (hnew : next ≤ count) (hnear : count < next + 2048) (hlt : count < 2 ^ 32)
    {body : Bytes} (hbody : body ≠ []) :
    Synced (s.writePdu outOfRange sec (writeDataHeader s.cfg.snLen s.cfg.rbType count body))
        (count + 1) ∧
      (s.writePdu outOfRange sec (writeDataHeader s.cfg.snLen s.cfg.rbType count body)).cfg = s.cfg ∧
      (s.writePdu outOfRange sec (writeDataHeader s.cfg.snLen s.cfg.rbType count body)).delivered
        = s.delivered ++ [(count, sec.cipherDecrypt count body)] := by
  have hsame := sameSync_enableRxSecurity s (count % 4096)
  have ht := hsame.synced h
  rw [writePdu_of_synced h hbody]
  generalize s.enableRxSecurity (count % 4096) = t at hsame ht ⊢
  rw [not_discardsSn_of_synced ht hnew hnear, if_neg Bool.false_ne_true]
  obtain ⟨hcount, hstate⟩ := amDrbCount_of_synced ht hnew hnear hlt
  unfold acceptAmDrbPdu
  simp only [hcount, hstate]
  generalize hu : ({ t with st := { t.st with
    nextPdcpRxSn := (count + 1) % 4096
    rxHfn := (count + 1) / 4096
    lastSubmittedPdcpRxSn := count % 4096 } } : PdcpLte) = u
  have hsync : Synced u (count + 1) := by
    rw [← hu]
    exact ⟨ht.cfg, ht.active, by show count % 4096 = _; omega, rfl, rfl⟩
  have hdelivered : u.delivered = s.delivered := by
    rw [← hu]
    exact hsame.delivered
  have hcfg : u.cfg = s.cfg := by
    rw [← hu]
    exact hsame.cfg
  have hqueue := sameSync_updateRxCountsQueue u count
  have hafter := hqueue.synced hsync
  refine ⟨⟨hafter.cfg, hafter.active, hafter.last, hafter.nextSn, hafter.hfn⟩,
    hqueue.cfg.trans hcfg, ?_⟩
  show (u.updateRxCountsQueue count).delivered ++ _ = _
  rw [hqueue.delivered, hdelivered]

/-- A repetition leaves the reception variables. -/
theorem writePdu_old (outOfRange : UInt8 → Bool) (sec : Security) {s : PdcpLte} {next count : Nat}
    (h : Synced s next) (hold : count < next) (hnear : next ≤ count + 2048) {body : Bytes}
    (hbody : body ≠ []) :
    SameSync s
      (s.writePdu outOfRange sec (writeDataHeader s.cfg.snLen s.cfg.rbType count body)) := by
  have hsame := sameSync_enableRxSecurity s (count % 4096)
  rw [writePdu_of_synced h hbody, discardsSn_of_synced (hsame.synced h) hold hnear, if_pos rfl]
  exact hsame

/-! ### Every run -/

/-- The order in which PDUs arrive, behind the COUNT `last`: each is new and at most a window
ahead, or a repetition that is less than a window behind. -/
def Schedule : Option Nat → List LteTxPdu → Prop
  | _, [] => True
  | none, p :: ps => Schedule (some p.count) ps
  | some last, p :: ps =>
    (last < p.count ∧ p.count ≤ last + 2048 ∧ Schedule (some p.count) ps) ∨
      (p.count ≤ last ∧ last < p.count + 2048 ∧ Schedule (some last) ps)

/-- The COUNT before which a PDU is a repetition. -/
def nextCount : Option Nat → Nat
  | none => 0
  | some last => last + 1

/-- What the receiver has to do with each PDU. One that is accepted is deciphered with its own
COUNT. A repetition is discarded and leaves the reception variables. -/
def Deciphers (outOfRange : UInt8 → Bool) (sec : Security) : Option Nat → PdcpLte →
    List LteTxPdu → Prop
  | _, _, [] => True
  | last, s, p :: ps =>
    let s' := s.writePdu outOfRange sec p.pdu
    (nextCount last ≤ p.count → s'.delivered = s.delivered ∨
      ∃ ct, s'.delivered = s.delivered ++ [(p.count, sec.cipherDecrypt p.count ct)]) ∧
    (p.count < nextCount last → s'.delivered = s.delivered ∧ s'.st = s.st) ∧
    Deciphers outOfRange sec (some (max p.count (last.getD 0))) s' ps

/-- A PDU that gets to `handle_am_drb_pdu` is longer than the header. -/
def Received (cfg : LteConfig) (p : LteTxPdu) : Prop := cfg.snLen.hdrLenBytes < p.pdu.length

/-- The COUNT values of the PDUs that are no repetitions. -/
def newCounts : Option Nat → List LteTxPdu → List Nat
  | _, [] => []
  | last, p :: ps =>
    if nextCount last ≤ p.count then p.count :: newCounts (some p.count) ps else newCounts last ps

/-- The state after the PDUs. -/
def receiveAll (outOfRange : UInt8 → Bool) (sec : Security) (s : PdcpLte) (ps : List LteTxPdu) :
    PdcpLte :=
  ps.foldl (fun s p => s.writePdu outOfRange sec p.pdu) s

/-- A synchronised receiver deciphers each new PDU with its COUNT, and accepts all of them. -/
theorem deciphers_of_synced {outOfRange : UInt8 → Bool} {sec : Security} {ps : List LteTxPdu}
    {s : PdcpLte} {last : Option Nat} (h : Synced s (nextCount last))
    (hps : ∀ p ∈ ps, HasHeader s.cfg p ∧ Received s.cfg p) (hsched : Schedule last ps)
    (hfirst : last = none → ∀ p ∈ ps.head?, p.count < 2048) :
    Deciphers outOfRange sec last s ps ∧ (s.receiveAll outOfRange sec ps).delivered.map Prod.fst
      = s.delivered.map Prod.fst ++ newCounts last ps := by
  induction ps generalizing s last with
  | nil => exact ⟨trivial, (List.append_nil _).symm⟩
  | cons p ps ih =>
    obtain ⟨⟨hlt, body, hpdu⟩, hlong⟩ := hps p List.mem_cons_self
    have hbody : body ≠ [] := by
      rintro rfl
      rw [Received, hpdu, writeDataHeader, List.append_nil, length_dataHeader] at hlong
      exact Nat.lt_irrefl _ hlong
    have hrest : ∀ t : PdcpLte, t.cfg = s.cfg → ∀ p' ∈ ps, HasHeader t.cfg p' ∧ Received t.cfg p' := by
      intro t ht p' hp'
      rw [ht]
      exact hps p' (List.mem_cons_of_mem _ hp')
    -- A new PDU is accepted, and the run goes on behind it.
    have hnew : nextCount last ≤ p.count → p.count < nextCount last + 2048 →
        Schedule (some p.count) ps → Deciphers outOfRange sec last s (p :: ps) ∧
          (s.receiveAll outOfRange sec (p :: ps)).delivered.map Prod.fst
            = s.delivered.map Prod.fst ++ newCounts last (p :: ps) := by
      intro hge hnear hsched'
      obtain ⟨hsync, hcfg, hdelivered⟩ :=
        writePdu_new outOfRange sec h hge hnear hlt hbody
      rw [← hpdu] at hsync hcfg hdelivered
      have hmax : max p.count (last.getD 0) = p.count := by
        cases last with
        | none => exact Nat.max_zero _
        | some last => exact Nat.max_eq_left (Nat.le_of_lt hge)
      obtain ⟨hall, hcounts⟩ := ih hsync (hrest _ hcfg) hsched' (fun hnone => by cases hnone)
      refine ⟨⟨fun _ => .inr ⟨body, hdelivered⟩, fun hlow => absurd hge (Nat.not_le_of_lt hlow), ?_⟩,
        ?_⟩
      · rw [hmax]
        exact hall
      · rw [receiveAll, List.foldl_cons, ← receiveAll, hcounts, hdelivered, newCounts, if_pos hge,
          List.map_append, List.append_assoc]
        rfl
    cases last with
    | none =>
      have hnear : p.count < 0 + 2048 := by simpa using hfirst rfl p rfl
      exact hnew (Nat.zero_le _) hnear hsched
    | some last =>
      rcases hsched with ⟨hgt, hnear, hsched'⟩ | ⟨hle, hnear, hsched'⟩
      · exact hnew hgt (by show p.count < last + 1 + 2048; omega) hsched'
      · have hold : p.count < nextCount (some last) := Nat.lt_succ_of_le hle
        have hsame := writePdu_old outOfRange sec h hold
          (show last + 1 ≤ p.count + 2048 by omega) hbody
        rw [← hpdu] at hsame
        obtain ⟨hall, hcounts⟩ := ih (hsame.synced h) (hrest _ hsame.cfg) hsched'
          (fun hnone => by cases hnone)
        refine ⟨⟨fun hge => absurd hge (Nat.not_le_of_lt hold),
          fun _ => ⟨hsame.delivered, hsame.st⟩, ?_⟩, ?_⟩
        · rw [show max p.count ((some last).getD 0) = last from Nat.max_eq_right hle]
          exact hall
        · rw [receiveAll, List.foldl_cons, ← receiveAll, hcounts, hsame.delivered, newCounts,
            if_neg (Nat.not_le_of_lt hold)]

section Runs

variable {outOfRange : UInt8 → Bool} {sec sec' : Security} {cfg : LteConfig} {ops : List TxOp}
  {ps : List LteTxPdu}

theorem hasHeader_of_emitted (hops : ∀ op ∈ ops, op.Normal)
    (hps : ∀ p ∈ ps, p ∈ (init cfg).emitted sec' ops ∧ Received cfg p) :
    ∀ p ∈ ps, HasHeader (init cfg).cfg p ∧ Received (init cfg).cfg p := by
  have hvalid : TxSnValid (init cfg) := cfg.snLen.nofSns_pos
  exact fun p hp => ⟨hasHeader_of_mem_emitted hvalid hops (hps p hp).1, (hps p hp).2⟩

/-- For every run of a transmitter and every order of arrival: the receiver deciphers each PDU that
it accepts with the COUNT of the transmitter and discards each repetition, when the first COUNT
is below the window. -/
theorem deciphers_of_schedule (hcfg : AmDrb12 cfg) (hops : ∀ op ∈ ops, op.Normal)
    (hps : ∀ p ∈ ps, p ∈ (init cfg).emitted sec' ops ∧ Received cfg p) (hsched : Schedule none ps)
    (hfirst : ∀ p ∈ ps.head?, p.count < 2048) :
    Deciphers outOfRange sec none (init cfg) ps :=
  (deciphers_of_synced (synced_init hcfg) (hasHeader_of_emitted hops hps) hsched
    fun _ => hfirst).1

/-- The new PDUs are delivered, under their COUNTs and in their order. -/
theorem delivered_of_schedule (hcfg : AmDrb12 cfg) (hops : ∀ op ∈ ops, op.Normal)
    (hps : ∀ p ∈ ps, p ∈ (init cfg).emitted sec' ops ∧ Received cfg p) (hsched : Schedule none ps)
    (hfirst : ∀ p ∈ ps.head?, p.count < 2048) :
    ((init cfg).receiveAll outOfRange sec ps).delivered.map Prod.fst = newCounts none ps :=
  (deciphers_of_synced (synced_init hcfg) (hasHeader_of_emitted hops hps) hsched
    fun _ => hfirst).2

end Runs

/-- A DRB on RLC AM with a status report. -/
def amDrb12 : LteConfig := ⟨.len12, .drb, false, 0, true⟩

theorem amDrb12_spec : AmDrb12 amDrb12 := ⟨rfl, rfl, rfl⟩

/-- Three SDUs, of which the first PDU comes again behind the third. -/
theorem deciphers_repetition :
    Deciphers (fun _ => false) .none none (init amDrb12)
      [⟨0, 0, [128, 0, 5]⟩, ⟨2, 2, [128, 2, 7]⟩, ⟨0, 0, [128, 0, 5]⟩] := by
  refine @deciphers_of_schedule (fun _ => false) .none .none amDrb12
    [.writeSdu ⟨false, false⟩ [5] none, .writeSdu ⟨false, false⟩ [6] none,
      .writeSdu ⟨false, false⟩ [7] none] _ amDrb12_spec ?_ ?_ ?_ ?_
  · simp [TxOp.Normal]
  · unfold Received
    decide
  · exact .inl ⟨by decide, by decide, .inr ⟨by decide, by decide, trivial⟩⟩
  · simp

theorem delivered_repetition :
    ((init amDrb12).receiveAll (fun _ => false) .none
      [⟨0, 0, [128, 0, 5]⟩, ⟨0, 0, [128, 0, 5]⟩]).delivered.map Prod.fst = [0] := by
  refine (@delivered_of_schedule (fun _ => false) .none .none amDrb12
    [.writeSdu ⟨false, false⟩ [5] none] _ amDrb12_spec ?_ ?_ ?_ ?_).trans (by decide)
  · simp [TxOp.Normal]
  · unfold Received
    decide
  · exact .inr ⟨by decide, by decide, trivial⟩
  · simp

/-! ### A late first PDU -/

/-- A transmitter that has sent `n` SDUs, all of which were delivered. -/
structure Drained (s : PdcpLte) (n : Nat) : Prop where
  cfg : AmDrb12 s.cfg
  active : s.active = true
  count : s.undeliveredSdus.count = 0
  sdus : s.undeliveredSdus.sdus = ∅
  nextSn : s.st.nextPdcpTxSn = n % 4096
  hfn : s.st.txHfn = n / 4096

/-- `k` SDUs behind the number `n`, each of which is delivered before the next one is sent. -/
def deliveredOps : Nat → Nat → List TxOp
  | _, 0 => []
  | n, k + 1 => .writeSdu ⟨false, false⟩ [7] none :: .notify [n % 4096] :: deliveredOps (n + 1) k

theorem drained_init {cfg : LteConfig} (h : AmDrb12 cfg) : Drained (init cfg) 0 :=
  ⟨h, rfl, rfl, rfl, rfl, rfl⟩

theorem AmDrb12.isAmDrb {cfg : LteConfig} (h : AmDrb12 cfg) : cfg.isAmDrb = true := by
  rw [LteConfig.isAmDrb, h.rlcUm, h.rbType]
  rfl

/-- The queue with one SDU. -/
def oneSdu (q : UndeliveredSdus) (sn : Nat) (sdu : Bytes) : UndeliveredSdus where
  count := 1
  bytes := q.bytes + sdu.length
  fms := sn
  lms := sn
  sdus := OrdMap.insert ∅ (UndeliveredSdus.slot sn) ⟨sn, sdu⟩

/-- An empty queue takes an SDU with any SN. -/
theorem storedSdus_of_drained {s : PdcpLte} {n : Nat} (h : Drained s n) (sn : Nat) (sdu : Bytes) :
    s.storedSdus sn sdu = some (oneSdu s.undeliveredSdus sn sdu) := by
  have hempty : s.undeliveredSdus.isEmpty = true := by
    rw [UndeliveredSdus.isEmpty, h.count]
    rfl
  have hfull : s.undeliveredSdus.isFull = false := by
    rw [UndeliveredSdus.isFull, h.count]
    rfl
  have hhas : s.undeliveredSdus.hasSdu sn = false := by
    rw [UndeliveredSdus.hasSdu, h.sdus, OrdMap.find?_empty]
    rfl
  unfold storedSdus storeSdu UndeliveredSdus.addSdu
  simp [h.cfg.isAmDrb, hempty, hfull, hhas, h.count, h.sdus, oneSdu]

/-- The delivery of the only SDU empties the queue. -/
theorem clearAll_oneSdu (q : UndeliveredSdus) (sn : Nat) (sdu : Bytes) :
    ((oneSdu q sn sdu).clearAll [sn]).count = 0 ∧ ((oneSdu q sn sdu).clearAll [sn]).sdus = ∅ := by
  have herase : (OrdMap.insert (∅ : OrdMap Nat Sdu) (UndeliveredSdus.slot sn) ⟨sn, sdu⟩).erase
      (UndeliveredSdus.slot sn) = ∅ := by
    ext1
    exact OrdMap.entries_erase_head (v := ⟨sn, sdu⟩) rfl
  have hupdate : ∀ t : UndeliveredSdus, t.updateFms.count = t.count ∧ t.updateFms.sdus = t.sdus := by
    intro t
    unfold UndeliveredSdus.updateFms
    split <;> exact ⟨rfl, rfl⟩
  show ((oneSdu q sn sdu).clearSdu sn).count = 0 ∧ ((oneSdu q sn sdu).clearSdu sn).sdus = ∅
  unfold UndeliveredSdus.clearSdu
  simp only [oneSdu, OrdMap.find?_insert_self, if_true]
  rw [(hupdate _).1, (hupdate _).2]
  exact ⟨rfl, herase⟩

/-- Without ciphering the PDU of a DRB has the SDU behind the header. -/
theorem received_sendSdu {s : PdcpLte} (h : AmDrb12 s.cfg) {q : UndeliveredSdus} :
    Received s.cfg (s.sendSdu .none q [7] none).2 := by
  unfold Received sendSdu protect
  simp only [cfg_enableTxSecurity, h.rbType, Security.none]
  rw [List.length_append, length_dataHeader]
  split <;> exact Nat.lt_succ_self _

/-- An SDU is sent with the next COUNT, and delivered. -/
theorem drained_step {s : PdcpLte} {n : Nat} (h : Drained s n) (hn : n < 2 ^ 32) :
    ∃ p, (s.writeSdu .none ⟨false, false⟩ [7] none).2 = some p ∧ p.count = n ∧ Received s.cfg p ∧
      Drained ((s.writeSdu .none ⟨false, false⟩ [7] none).1.notify [n % 4096]) (n + 1) := by
  have hsn : s.usedSn none = n % 4096 := h.nextSn
  have hmax : s.cfg.maximumPdcpSn = 4095 := by
    rw [LteConfig.maximumPdcpSn, h.cfg.snLen]
    rfl
  have hcount : s.txCount none = n := by
    show s.cfg.snLen.count s.st.txHfn (s.usedSn none) = n
    rw [hsn, h.hfn, h.cfg.count_eq (Nat.mod_lt _ (by decide)) (by omega)]
    omega
  have hwrite : s.writeSdu .none ⟨false, false⟩ [7] none
      = ((s.sendSdu .none (oneSdu s.undeliveredSdus (n % 4096) [7]) [7] none).1,
        some (s.sendSdu .none (oneSdu s.undeliveredSdus (n % 4096) [7]) [7] none).2) := by
    unfold writeSdu
    simp only [h.active, hsn, storedSdus_of_drained h]
    rfl
  rw [hwrite]
  refine ⟨_, rfl, hcount, received_sendSdu h.cfg, ?_⟩
  generalize hs' : (s.sendSdu .none (oneSdu s.undeliveredSdus (n % 4096) [7]) [7] none).1 = s'
  have hcfg : s'.cfg = s.cfg := by rw [← hs', cfg_sendSdu]
  have hst : s'.st = s.advanceTx.st := by rw [← hs', st_sendSdu_none]
  have hqueue : s'.undeliveredSdus = oneSdu s.undeliveredSdus (n % 4096) [7]
      ∧ s'.active = s.active := by
    rw [← hs', undeliveredSdus_sendSdu, active_sendSdu]
    exact ⟨rfl, rfl⟩
  have hnotify : s'.notify [n % 4096]
      = { s' with undeliveredSdus := s'.undeliveredSdus.clearAll [n % 4096] } := by
    have hne : (n % 4096 != 2 ^ 32 - 1) = true := by
      rw [bne_iff_ne]
      omega
    unfold notify
    simp only [hcfg, h.cfg.rbType, if_true, List.filter_cons, hne, List.filter_nil]
  obtain ⟨hzero, hnone⟩ := clearAll_oneSdu s.undeliveredSdus (n % 4096) [7]
  rw [hnotify, hqueue.1]
  refine ⟨?_, hqueue.2.trans h.active, hzero, hnone, ?_, ?_⟩
  · show AmDrb12 s'.cfg
    rw [hcfg]
    exact h.cfg
  · show s'.st.nextPdcpTxSn = _
    rw [hst, st_advanceTx, hmax, h.nextSn]
    split
    · show 0 = _
      omega
    · show n % 4096 + 1 = _
      omega
  · show s'.st.txHfn = _
    rw [hst, st_advanceTx, hmax, h.nextSn, h.hfn]
    split
    · show (n / 4096 + 1) % 2 ^ 32 = _
      omega
    · show s.st.txHfn = _
      rw [h.hfn]
      omega

/-- Each COUNT of 32 bits is sent at some time. -/
theorem exists_emitted {s : PdcpLte} {n : Nat} (h : Drained s n) (k : Nat) (hk : n + k < 2 ^ 32) :
    ∃ p ∈ s.emitted .none (deliveredOps n (k + 1)), p.count = n + k ∧ Received s.cfg p := by
  obtain ⟨p, hp, hcount, hlong, hnext⟩ := drained_step h (by omega)
  have hemitted : ∀ k, s.emitted .none (deliveredOps n (k + 1)) = p ::
      ((s.writeSdu .none ⟨false, false⟩ [7] none).1.notify [n % 4096]).emitted .none
        (deliveredOps (n + 1) k) := by
    intro k
    simp only [emitted, deliveredOps, outputs, txStep, List.filterMap_cons, hp, id_eq]
  cases k with
  | zero => exact ⟨p, by rw [hemitted]; exact List.mem_cons_self, hcount, hlong⟩
  | succ k =>
    obtain ⟨p', hp', hcount', hlong'⟩ := exists_emitted hnext k (by omega)
    refine ⟨p', ?_, by omega, ?_⟩
    · rw [hemitted]
      exact List.mem_cons_of_mem _ hp'
    · have hcfg : ((s.writeSdu .none ⟨false, false⟩ [7] none).1.notify [n % 4096]).cfg = s.cfg :=
        (cfg_txStep .none _ (.notify [n % 4096])).trans
          (cfg_txStep .none s (.writeSdu ⟨false, false⟩ [7] none))
      rwa [hcfg] at hlong'

theorem normal_deliveredOps (n k : Nat) : ∀ op ∈ deliveredOps n k, op.Normal := by
  induction k generalizing n with
  | zero => exact nofun
  | succ k ih =>
    intro op hop
    rcases List.mem_cons.mp hop with rfl | hop
    · exact rfl
    · rcases List.mem_cons.mp hop with rfl | hop
      · trivial
      · exact ih (n + 1) op hop

/-- The first 4096 PDUs are lost. The receiver takes the COUNT of the next one for zero. -/
theorem not_deciphers_latePdu :
    ¬ ∀ ops : List TxOp, (∀ op ∈ ops, op.Normal) → ∀ ps : List LteTxPdu,
      (∀ p ∈ ps, p ∈ (init amDrb12).emitted .none ops ∧ Received amDrb12 p) → Schedule none ps →
      Deciphers (fun _ => false) .none none (init amDrb12) ps := by
  intro hall
  obtain ⟨p, hp, hcount, hlong⟩ := exists_emitted (drained_init amDrb12_spec) 4096 (by decide)
  have hops := normal_deliveredOps 0 4097
  have hvalid : TxSnValid (init amDrb12) := SnLen.nofSns_pos _
  obtain ⟨-, body, hpdu⟩ := hasHeader_of_mem_emitted hvalid hops hp
  have hbody : body ≠ [] := by
    rintro rfl
    rw [Received, hpdu, writeDataHeader, List.append_nil, length_dataHeader] at hlong
    exact Nat.lt_irrefl _ hlong
  -- The header is that of COUNT zero.
  have hzero : p.pdu = writeDataHeader .len12 .drb 0 body := by
    rw [hpdu, hcount]
    rfl
  have hdeciphers := (hall _ hops [p] (by
    intro p' hp'
    rw [List.mem_singleton.mp hp']
    exact ⟨hp, hlong⟩) trivial).1 (Nat.zero_le _)
  obtain ⟨-, -, hdelivered⟩ := writePdu_new (fun _ => false) .none
    (synced_init amDrb12_spec) (Nat.le_refl 0) (by decide) (by decide) hbody
  simp only [hzero] at hdeciphers
  rw [show (init amDrb12).cfg.snLen = .len12 from rfl,
    show (init amDrb12).cfg.rbType = .drb from rfl] at hdelivered
  rw [hdelivered] at hdeciphers
  rcases hdeciphers with hdeciphers | ⟨ct, hdeciphers⟩
  · cases hdeciphers
  · have hzero' : 0 = p.count := congrArg (fun l : List (Nat × Bytes) => (l.getD 0 (0, [])).1)
      hdeciphers
    omega

end Odss.Pdcp.PdcpLte
