import Odss.Pdcp.EntityNr
import Odss.Proofs.PdcpLteSync

/-!
# `Odss.Proofs.PdcpCount`: the COUNTs of a transmitter

Under one key, each SDU needs a COUNT of its own, and keeps it when it is sent again.

The NR entity takes each COUNT once and then stops (`nodup_sentCounts`). On an AM DRB of the LTE
entity, `Sender` follows the numbers of the SDUs: the SDU with number `n` gets the COUNT
`n % 2 ^ 32` first. When the upper layer sends it again with its SN, the HFN is that of the next
new SDU. `countsSound_iff` states which runs keep the COUNTs apart.
-/

set_option linter.all false

namespace Odss.Pdcp

open Odss.Lib Odss.Rlc

namespace PdcpNr

/-- The COUNTs of the PDUs of a run of `write_sdu`. -/
def sentCounts (sec : Security) (s : PdcpNr) (sdus : List Bytes) : List Nat :=
  ((outputs (writeSdu sec) s sdus).filterMap id).map TxPdu.count

theorem sentCounts_cons (sec : Security) (s : PdcpNr) (sdu : Bytes) (sdus : List Bytes) :
    s.sentCounts sec (sdu :: sdus) =
      if s.txOverflow then s.sentCounts sec sdus
      else s.txNext :: (s.writeSdu sec sdu).1.sentCounts sec sdus := by
  cases hover : s.txOverflow <;> simp [sentCounts, outputs, writeSdu, hover]

/-- Nothing is sent behind the last COUNT. -/
theorem sentCounts_of_txOverflow (sec : Security) {s : PdcpNr} (h : s.txOverflow = true)
    (sdus : List Bytes) : s.sentCounts sec sdus = [] := by
  induction sdus with
  | nil => rfl
  | cons sdu sdus ih => rw [sentCounts_cons, h, if_pos rfl, ih]

theorem sentCounts_sorted (sec : Security) {s : PdcpNr} (h : s.txNext < 2 ^ 32)
    (sdus : List Bytes) : (s.sentCounts sec sdus).Pairwise (· < ·) ∧
      ∀ c ∈ s.sentCounts sec sdus, s.txNext ≤ c := by
  induction sdus generalizing s with
  | nil => exact ⟨.nil, nofun⟩
  | cons sdu sdus ih =>
    rw [sentCounts_cons]
    cases hover : s.txOverflow with
    | true =>
      rw [if_pos rfl, sentCounts_of_txOverflow sec hover]
      exact ⟨.nil, nofun⟩
    | false =>
      rw [if_neg Bool.false_ne_true]
      -- The next COUNT is larger, or there is none.
      have hnext : ∀ c ∈ (s.writeSdu sec sdu).1.sentCounts sec sdus, s.txNext < c := by
        intro c hc
        by_cases hlast : (s.txNext + 1) % 2 ^ 32 = 0
        · have hstop : (s.writeSdu sec sdu).1.txOverflow = true := by
            simp only [writeSdu, hover, Bool.false_eq_true, if_false]
            exact decide_eq_true hlast
          rw [sentCounts_of_txOverflow sec hstop] at hc
          cases hc
        · have heq : (s.writeSdu sec sdu).1.txNext = s.txNext + 1 := by
            simp only [writeSdu, hover, Bool.false_eq_true, if_false]
            omega
          have hle := (ih (s := (s.writeSdu sec sdu).1) (by omega)).2 c hc
          omega
      have hlt : (s.writeSdu sec sdu).1.txNext < 2 ^ 32 := by
        simp only [writeSdu, hover, Bool.false_eq_true, if_false]
        exact Nat.mod_lt _ (by decide)
      refine ⟨List.pairwise_cons.mpr ⟨hnext, (ih hlt).1⟩, fun c hc => ?_⟩
      rcases List.mem_cons.mp hc with rfl | hc
      · exact Nat.le_refl _
      · exact Nat.le_of_lt (hnext c hc)

/-- No COUNT is taken twice. -/
theorem nodup_sentCounts (sec : Security) (snLen : SnLen) (rbType : RbType) (tReordering : Nat)
    (sdus : List Bytes) : ((init snLen rbType tReordering).sentCounts sec sdus).Nodup :=
  (sentCounts_sorted sec (Nat.two_pow_pos 32) sdus).1.imp Nat.ne_of_lt

end PdcpNr

namespace PdcpLte

/-! ### The numbers of SDUs -/

/-- An AM DRB on which the SDUs up to the number `n` have got COUNTs. -/
structure Numbered (s : PdcpLte) (n : Nat) : Prop where
  amDrb : s.cfg.isAmDrb = true
  nextSn : s.st.nextPdcpTxSn = n % s.cfg.snLen.nofSns
  hfn : s.st.txHfn = n / s.cfg.snLen.nofSns % 2 ^ 32

/-- A state with the same variables has the same numbers. -/
theorem Numbered.of_eq {s t : PdcpLte} {n : Nat} (h : Numbered s n) (hcfg : t.cfg = s.cfg)
    (hst : t.st = s.st) : Numbered t n :=
  ⟨hcfg ▸ h.amDrb, by rw [hcfg, hst, h.nextSn], by rw [hcfg, hst, h.hfn]⟩

theorem Numbered.advanceTx {s : PdcpLte} {n : Nat} (h : Numbered s n) :
    Numbered s.advanceTx (n + 1) := by
  have hpos := s.cfg.snLen.nofSns_pos
  have hlt : n % s.cfg.snLen.nofSns < s.cfg.snLen.nofSns := Nat.mod_lt _ hpos
  have hdiv := Nat.div_add_mod n s.cfg.snLen.nofSns
  by_cases hwrap : s.st.nextPdcpTxSn + 1 > s.cfg.maximumPdcpSn
  · have hst := s.st_advanceTx
    rw [if_pos hwrap] at hst
    rw [LteConfig.maximumPdcpSn, h.nextSn] at hwrap
    -- The last SN of an HFN.
    have hnext : n + 1 = (n / s.cfg.snLen.nofSns + 1) * s.cfg.snLen.nofSns := by
      rw [Nat.add_mul, Nat.mul_comm, Nat.one_mul]
      omega
    refine ⟨by rw [cfg_advanceTx]; exact h.amDrb, ?_, ?_⟩
    · rw [cfg_advanceTx, hst, hnext, Nat.mul_mod_left]
    · rw [cfg_advanceTx, hst, hnext, Nat.mul_div_cancel _ hpos]
      show (s.st.txHfn + 1) % 2 ^ 32 = _
      rw [h.hfn, Nat.mod_add_mod]
  · have hst := s.st_advanceTx
    rw [if_neg hwrap] at hst
    rw [LteConfig.maximumPdcpSn, h.nextSn] at hwrap
    have hdivmod : (n + 1) / s.cfg.snLen.nofSns = n / s.cfg.snLen.nofSns ∧
        (n + 1) % s.cfg.snLen.nofSns = n % s.cfg.snLen.nofSns + 1 := by
      refine (Nat.div_mod_unique hpos).mpr ⟨?_, by omega⟩
      omega
    refine ⟨by rw [cfg_advanceTx]; exact h.amDrb, ?_, ?_⟩
    · rw [cfg_advanceTx, hst, hdivmod.2, ← h.nextSn]
    · rw [cfg_advanceTx, hst, hdivmod.1, ← h.hfn]

/-- The HFN of the COUNT that an SDU got first. -/
def numberHfn (s : PdcpLte) (n : Nat) : Nat := s.cfg.snLen.hfn (n % 2 ^ 32)

/-- A COUNT of the current HFN. -/
theorem count_of_numbered {s : PdcpLte} {n : Nat} (h : Numbered s n) (i : Nat) :
    s.count s.st.txHfn (s.cfg.snLen.sn i)
      = s.cfg.snLen.nofSns * s.numberHfn n + s.cfg.snLen.sn i := by
  obtain ⟨m, hm⟩ := s.cfg.snLen.nofSns_dvd
  have hdvd : m ∣ 2 ^ 32 := ⟨_, hm.trans (Nat.mul_comm _ _)⟩
  have hnumber : s.numberHfn n = n / s.cfg.snLen.nofSns % m := by
    rw [numberHfn, SnLen.hfn_eq, hm, Nat.mod_mul_right_div_self]
  have hhfn : s.st.txHfn * s.cfg.snLen.nofSns % 2 ^ 32 = s.cfg.snLen.nofSns * s.numberHfn n :=
    calc s.st.txHfn * s.cfg.snLen.nofSns % 2 ^ 32
        = s.cfg.snLen.nofSns * s.st.txHfn % (s.cfg.snLen.nofSns * m) := by rw [Nat.mul_comm, hm]
      _ = s.cfg.snLen.nofSns * (n / s.cfg.snLen.nofSns % 2 ^ 32 % m) := by
        rw [Nat.mul_mod_mul_left, h.hfn]
      _ = s.cfg.snLen.nofSns * s.numberHfn n := by rw [Nat.mod_mod_of_dvd _ hdvd, hnumber]
  rw [count, s.cfg.snLen.count_eq _ (s.cfg.snLen.sn_lt i), hhfn]

/-- The COUNT that an SDU got first, from its HFN and SN. -/
theorem number_eq (s : PdcpLte) (i : Nat) :
    i % 2 ^ 32 = s.cfg.snLen.nofSns * s.numberHfn i + s.cfg.snLen.sn i := by
  obtain ⟨m, hm⟩ := s.cfg.snLen.nofSns_dvd
  have hsn : s.cfg.snLen.sn i = i % 2 ^ 32 % s.cfg.snLen.nofSns := by
    rw [SnLen.sn, Nat.mod_mod_of_dvd _ s.cfg.snLen.nofSns_dvd]
  rw [hsn, numberHfn, SnLen.hfn_eq, Nat.div_add_mod]

/-- A new SDU gets the COUNT of its number. -/
theorem txCount_none {s : PdcpLte} {n : Nat} (h : Numbered s n) : s.txCount none = n % 2 ^ 32 := by
  have husedSn : s.usedSn none = s.cfg.snLen.sn n := h.nextSn
  rw [txCount, husedSn, count_of_numbered h, number_eq s n]

/-- An SDU that is sent again gets its COUNT when the HFN is still the same. -/
theorem txCount_some {s : PdcpLte} {n : Nat} (h : Numbered s n) (i : Nat) :
    s.txCount (some (s.cfg.snLen.sn i)) = i % 2 ^ 32 ↔ s.numberHfn i = s.numberHfn n := by
  show s.count s.st.txHfn (s.cfg.snLen.sn i) = i % 2 ^ 32 ↔ _
  rw [count_of_numbered h, number_eq s i, Nat.add_right_cancel_iff,
    Nat.mul_left_cancel_iff s.cfg.snLen.nofSns_pos]
  exact eq_comm

/-! ### Runs under one key -/

/-- A transmitter under one key. `sent` has the numbers of the SDUs that were sent, with the COUNT
of each. -/
structure Sender where
  entity : PdcpLte
  assigned : Nat
  sent : List (Nat × Nat)

/-- A call of the transmitter. `rewriteSdu` is that of the upper layer that sends an SDU again
with its SN. -/
inductive SendOp where
  | writeSdu (rlc : RlcStatus) (sdu : Bytes)
  | rewriteSdu (rlc : RlcStatus) (sdu : Bytes) (number : Nat)
  | notify (pdcpSns : List Nat)
  | discard (sn : Nat)
  | reestablish
deriving DecidableEq, Repr

namespace Sender

/-- A new SDU gets the next number. -/
def writeSdu (sec : Security) (s : Sender) (rlc : RlcStatus) (sdu : Bytes) : Sender :=
  match s.entity.writeSdu sec rlc sdu none with
  | (entity, none) => { s with entity := entity }
  | (entity, some p) => ⟨entity, s.assigned + 1, s.sent ++ [(s.assigned, p.count)]⟩

/-- An SDU that has a number is sent again. -/
def rewriteSdu (sec : Security) (s : Sender) (rlc : RlcStatus) (sdu : Bytes) (number : Nat) :
    Sender :=
  if number < s.assigned then
    match s.entity.writeSdu sec rlc sdu (some (s.entity.cfg.snLen.sn number)) with
    | (entity, none) => { s with entity := entity }
    | (entity, some p) => ⟨entity, s.assigned, s.sent ++ [(number, p.count)]⟩
  else s

/-- One call. -/
def step (sec : Security) (s : Sender) : SendOp → Sender
  | .writeSdu rlc sdu => s.writeSdu sec rlc sdu
  | .rewriteSdu rlc sdu number => s.rewriteSdu sec rlc sdu number
  | .notify pdcpSns => { s with entity := s.entity.notify pdcpSns }
  | .discard sn => { s with entity := s.entity.discard sn }
  | .reestablish => { s with entity := s.entity.reestablish }

/-- Each SDU is sent with the COUNT that it got first. -/
def KeepsCount (s : Sender) : Prop := ∀ p ∈ s.sent, p.2 = p.1 % 2 ^ 32

/-- Two SDUs are not sent with the same COUNT. -/
def NoReuse (s : Sender) : Prop := ∀ p ∈ s.sent, ∀ q ∈ s.sent, p.2 = q.2 → p.1 = q.1

/-- The numbers of two SDUs that are sent do not differ by a multiple of `2 ^ 32`. -/
def NumbersApart (s : Sender) : Prop :=
  ∀ p ∈ s.sent, ∀ q ∈ s.sent, p.1 % 2 ^ 32 = q.1 % 2 ^ 32 → p.1 = q.1

/-- `write_sdu` takes an SDU: the bearer is up, and there is a place for the SN. -/
def Accepts (s : PdcpLte) (rlc : RlcStatus) (sdu : Bytes) (sn : Nat) : Prop :=
  (!s.active || rlc.suspended || rlc.sduQueueIsFull) = false ∧ (s.storedSdus sn sdu).isSome = true

/-- An SDU that is sent again has the HFN of the next new SDU. -/
def HfnKept (s : Sender) : SendOp → Prop
  | .rewriteSdu rlc sdu number => number < s.assigned →
      Accepts s.entity rlc sdu (s.entity.cfg.snLen.sn number) →
        s.entity.numberHfn number = s.entity.numberHfn s.assigned
  | _ => True

end Sender

theorem writeSdu_of_accepts {s : PdcpLte} {rlc : RlcStatus} {sdu : Bytes} {upperSn : Option Nat}
    (sec : Security) (h : Sender.Accepts s rlc sdu (s.usedSn upperSn)) :
    ∃ q, s.writeSdu sec rlc sdu upperSn
      = ((s.sendSdu sec q sdu upperSn).1, some (s.sendSdu sec q sdu upperSn).2) := by
  obtain ⟨q, hq⟩ := Option.isSome_iff_exists.mp h.2
  refine ⟨q, ?_⟩
  rw [PdcpLte.writeSdu, h.1, if_neg Bool.false_ne_true, hq]

theorem writeSdu_of_not_accepts {s : PdcpLte} {rlc : RlcStatus} {sdu : Bytes}
    {upperSn : Option Nat} (sec : Security) (h : ¬ Sender.Accepts s rlc sdu (s.usedSn upperSn)) :
    s.writeSdu sec rlc sdu upperSn = (s, none) := by
  unfold PdcpLte.writeSdu
  split
  · rfl
  · next hup =>
    cases hq : s.storedSdus (s.usedSn upperSn) sdu with
    | none => rfl
    | some q => exact absurd ⟨Bool.eq_false_iff.mpr hup, by rw [hq]; rfl⟩ h

namespace Sender

theorem writeSdu_cases {s : Sender} (sec : Security) (h : Numbered s.entity s.assigned)
    (rlc : RlcStatus) (sdu : Bytes) :
    s.writeSdu sec rlc sdu = s ∨ ∃ entity, Numbered entity (s.assigned + 1) ∧
      s.writeSdu sec rlc sdu
        = ⟨entity, s.assigned + 1, s.sent ++ [(s.assigned, s.assigned % 2 ^ 32)]⟩ := by
  by_cases hacc : Accepts s.entity rlc sdu (s.entity.usedSn none)
  · obtain ⟨q, hq⟩ := writeSdu_of_accepts sec hacc
    refine .inr ⟨(s.entity.sendSdu sec q sdu none).1, ?_, ?_⟩
    · refine h.advanceTx.of_eq ?_ (st_sendSdu_none sec s.entity q sdu)
      rw [cfg_sendSdu, cfg_advanceTx]
    · have hcount : (s.entity.sendSdu sec q sdu none).2.count = s.assigned % 2 ^ 32 := txCount_none h
      rw [Sender.writeSdu, hq]
      simp only [hcount]
  · refine .inl ?_
    rw [Sender.writeSdu, writeSdu_of_not_accepts sec hacc]

theorem rewriteSdu_cases {s : Sender} (sec : Security) (h : Numbered s.entity s.assigned)
    (rlc : RlcStatus) (sdu : Bytes) (number : Nat) :
    (s.rewriteSdu sec rlc sdu number = s ∧ ¬ (number < s.assigned ∧
        Accepts s.entity rlc sdu (s.entity.cfg.snLen.sn number))) ∨
      number < s.assigned ∧ Accepts s.entity rlc sdu (s.entity.cfg.snLen.sn number) ∧
        ∃ entity, Numbered entity s.assigned ∧ s.rewriteSdu sec rlc sdu number
          = ⟨entity, s.assigned, s.sent ++
            [(number, s.entity.txCount (some (s.entity.cfg.snLen.sn number)))]⟩ := by
  by_cases hlt : number < s.assigned
  · by_cases hacc : Accepts s.entity rlc sdu (s.entity.cfg.snLen.sn number)
    · obtain ⟨q, hq⟩ : ∃ q, s.entity.writeSdu sec rlc sdu (some (s.entity.cfg.snLen.sn number))
          = ((s.entity.sendSdu sec q sdu (some (s.entity.cfg.snLen.sn number))).1,
            some (s.entity.sendSdu sec q sdu (some (s.entity.cfg.snLen.sn number))).2) :=
        writeSdu_of_accepts sec hacc
      refine .inr ⟨hlt, hacc, _, h.of_eq ?_ (st_sendSdu_some sec s.entity q sdu
        (s.entity.cfg.snLen.sn number)), ?_⟩
      · rw [cfg_sendSdu]
      · rw [Sender.rewriteSdu, if_pos hlt, hq]
        rfl
    · refine .inl ⟨?_, fun h => hacc h.2⟩
      rw [Sender.rewriteSdu, if_pos hlt, writeSdu_of_not_accepts sec hacc]
  · refine .inl ⟨?_, fun h => hlt h.1⟩
    rw [Sender.rewriteSdu, if_neg hlt]

/-- Every call keeps the numbers. -/
theorem numbered_step {s : Sender} (sec : Security) (h : Numbered s.entity s.assigned)
    (op : SendOp) : Numbered (s.step sec op).entity (s.step sec op).assigned := by
  cases op with
  | writeSdu rlc sdu =>
    show Numbered (s.writeSdu sec rlc sdu).entity (s.writeSdu sec rlc sdu).assigned
    rcases writeSdu_cases sec h rlc sdu with heq | ⟨entity, hentity, heq⟩
    · rw [heq]
      exact h
    · rw [heq]
      exact hentity
  | rewriteSdu rlc sdu number =>
    show Numbered (s.rewriteSdu sec rlc sdu number).entity
      (s.rewriteSdu sec rlc sdu number).assigned
    rcases rewriteSdu_cases sec h rlc sdu number with ⟨heq, -⟩ | ⟨-, -, entity, hentity, heq⟩
    · rw [heq]
      exact h
    · rw [heq]
      exact hentity
  | notify pdcpSns =>
    show Numbered (s.entity.notify pdcpSns) s.assigned
    unfold PdcpLte.notify
    simp only
    split
    · exact h.of_eq rfl rfl
    · exact h
  | discard sn => exact h.of_eq rfl rfl
  | reestablish =>
    show Numbered s.entity.reestablish s.assigned
    rw [PdcpLte.reestablish, if_pos h.amDrb]
    exact h

theorem keepsCount_append {s : Sender} {entity : PdcpLte} {assigned number count : Nat} :
    KeepsCount ⟨entity, assigned, s.sent ++ [(number, count)]⟩ ↔
      s.KeepsCount ∧ count = number % 2 ^ 32 := by
  unfold KeepsCount
  simp only [List.mem_append, List.mem_singleton, or_imp, forall_and, forall_eq]

theorem keepsCount_step {s : Sender} (sec : Security) (h : Numbered s.entity s.assigned)
    (op : SendOp) : (s.step sec op).KeepsCount ↔ s.KeepsCount ∧ s.HfnKept op := by
  cases op with
  | writeSdu rlc sdu =>
    show (s.writeSdu sec rlc sdu).KeepsCount ↔ s.KeepsCount ∧ True
    rcases writeSdu_cases sec h rlc sdu with heq | ⟨entity, -, heq⟩
    · rw [heq, and_true]
    · rw [heq, keepsCount_append]
      simp
  | rewriteSdu rlc sdu number =>
    show (s.rewriteSdu sec rlc sdu number).KeepsCount ↔ _
    rcases rewriteSdu_cases sec h rlc sdu number with ⟨heq, hnot⟩ | ⟨hlt, hacc, entity, -, heq⟩
    · have hkept : s.HfnKept (.rewriteSdu rlc sdu number) :=
        fun hlt hacc => absurd ⟨hlt, hacc⟩ hnot
      rw [heq]
      exact ⟨fun h => ⟨h, hkept⟩, fun h => h.1⟩
    · rw [heq, keepsCount_append, txCount_some h]
      exact and_congr_right fun _ => ⟨fun h _ _ => h, fun h => h hlt hacc⟩
  -- No other call sends an SDU.
  | notify pdcpSns => exact iff_of_eq (and_true _).symm
  | discard sn => exact iff_of_eq (and_true _).symm
  | reestablish => exact iff_of_eq (and_true _).symm

theorem keepsCount_exec_iff {s : Sender} (sec : Security) (h : Numbered s.entity s.assigned)
    (ops : List SendOp) :
    (exec (step sec) s ops).KeepsCount ↔ s.KeepsCount ∧ ExecWithin (step sec) HfnKept s ops :=
  exec_iff_of_invariant (fun s => Numbered s.entity s.assigned) KeepsCount
    (fun _ op h => numbered_step sec h op) (fun _ op h => keepsCount_step sec h op) ops s h

/-- With the COUNTs that SDUs got first, a COUNT is used twice only by numbers that are not
apart. -/
theorem noReuse_iff {s : Sender} (h : s.KeepsCount) : s.NoReuse ↔ s.NumbersApart := by
  refine forall₂_congr fun p hp => forall₂_congr fun q hq => ?_
  rw [h p hp, h q hq]

end Sender

/-- The COUNTs are sound: on an AM DRB of the LTE entity each SDU keeps its COUNT and no two have
the same one, and the NR entity takes no COUNT twice. -/
def CountsSound (s : Sender) (counts : List Nat) : Prop :=
  s.KeepsCount ∧ s.NoReuse ∧ counts.Nodup

/-- The COUNTs are sound if and only if, on the AM DRB, each SDU that is sent again has the HFN of
the next new SDU, and the numbers of two SDUs do not differ by a multiple of `2 ^ 32`. -/
theorem countsSound_iff (sec nrSec : Security) {entity : PdcpLte} {n : Nat}
    (h : Numbered entity n) (ops : List SendOp) (snLen : SnLen) (rbType : RbType)
    (tReordering : Nat) (sdus : List Bytes) :
    CountsSound (exec (Sender.step sec) ⟨entity, n, []⟩ ops)
        ((PdcpNr.init snLen rbType tReordering).sentCounts nrSec sdus) ↔
      ExecWithin (Sender.step sec) Sender.HfnKept ⟨entity, n, []⟩ ops ∧
        (exec (Sender.step sec) ⟨entity, n, []⟩ ops).NumbersApart := by
  have hstart : Sender.KeepsCount ⟨entity, n, []⟩ := nofun
  have hkeeps := Sender.keepsCount_exec_iff (s := ⟨entity, n, []⟩) sec h ops
  have hnr := PdcpNr.nodup_sentCounts nrSec snLen rbType tReordering sdus
  constructor
  · rintro ⟨hcount, hreuse, -⟩
    exact ⟨(hkeeps.mp hcount).2, (Sender.noReuse_iff hcount).mp hreuse⟩
  · rintro ⟨hhfn, hapart⟩
    have hcount := hkeeps.mpr ⟨hstart, hhfn⟩
    exact ⟨hcount, (Sender.noReuse_iff hcount).mpr hapart, hnr⟩

/-- A bearer behind a handover, with the transmission variables of the one in front. -/
def handedOver (nextPdcpTxSn txHfn : Nat) : PdcpLte :=
  (init amDrb12).setBearerState ⟨nextPdcpTxSn, txHfn, 0, 0, 4095⟩ false

/-- Behind three SDUs, two of them are sent again in front of a new one. -/
theorem countsSound_handover :
    CountsSound (exec (Sender.step .none) ⟨handedOver 3 0, 3, []⟩
      [.rewriteSdu ⟨false, false⟩ [5] 1, .rewriteSdu ⟨false, false⟩ [6] 2,
        .writeSdu ⟨false, false⟩ [7]])
      ((PdcpNr.init .len12 .drb 0).sentCounts .none [[5], [6]]) := by
  refine (countsSound_iff .none .none ⟨rfl, rfl, rfl⟩ _ _ _ _ _).mpr ⟨?_, ?_⟩
  · exact ⟨fun _ _ => by decide, fun _ _ => by decide, trivial, trivial⟩
  · unfold Sender.NumbersApart
    decide

/-- The last SDU of an HFN is sent again in the next HFN, where it gets another COUNT. -/
theorem not_countsSound_nextHfn :
    Numbered (handedOver 0 1) 4096 ∧
      ¬ CountsSound
        (exec (Sender.step .none) ⟨handedOver 0 1, 4096, []⟩ [.rewriteSdu ⟨false, false⟩ [5] 4095])
        ((PdcpNr.init .len12 .drb 0).sentCounts .none []) := by
  refine ⟨⟨rfl, rfl, rfl⟩, ?_⟩
  intro h
  have hcount := h.1 (4095, 8191) (by decide)
  exact absurd hcount (by decide)

end PdcpLte

end Odss.Pdcp
