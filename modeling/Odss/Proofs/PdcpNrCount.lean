import Odss.Pdcp.EntityNr

/-!
# `Odss.Proofs.PdcpNrCount`: the COUNT that the NR receiver recovers

A PDU has the SN of its COUNT only. `write_pdu` takes the HFN of `RX_DELIV`, or the one before or
after it.

* `rcvdCount_of_inWindow`: a COUNT within half an SN space of `RX_DELIV` is recovered.
* `hfnNearDeliv_iff`: the HFN before is taken in HFN 0 too, where the subtraction wraps.
* `recoversCount_iff` puts both together.
-/

set_option linter.all false

namespace Odss.Pdcp

open Odss.Rlc

theorem SnLen.nofSns_eq (snLen : SnLen) : snLen.nofSns = 2 * 2 ^ (snLen.bits - 1) := by
  cases snLen <;> rfl

theorem SnLen.hfn_mul_add_sn (snLen : SnLen) (count : Nat) :
    snLen.hfn count * snLen.nofSns + snLen.sn count = count := by
  rw [snLen.hfn_eq, SnLen.sn, Nat.mul_comm]
  exact Nat.div_add_mod count snLen.nofSns

namespace PdcpNr

/-- A COUNT that the transmitter may use while the receiver is in the state. -/
def InWindow (s : PdcpNr) (count : Nat) : Prop :=
  count < 2 ^ 32 ∧ s.rxDeliv ≤ count + s.windowSize ∧ count < s.rxDeliv + s.windowSize

/-- `rcvd_hfn` is the HFN of `RX_DELIV` or the next one on either side. -/
def HfnNearDeliv (s : PdcpNr) (rcvdSn : Nat) : Prop :=
  s.rcvdHfn rcvdSn ≤ s.snLen.hfn s.rxDeliv + 1 ∧ s.snLen.hfn s.rxDeliv ≤ s.rcvdHfn rcvdSn + 1

/-- The PDU has the SN of a COUNT before the first one. -/
def BeforeFirstHfn (s : PdcpNr) (rcvdSn : Nat) : Prop :=
  s.snLen.hfn s.rxDeliv = 0 ∧ s.snLen.sn s.rxDeliv + s.windowSize ≤ rcvdSn

theorem hfn_lt_of_lt (snLen : SnLen) {count : Nat} (h : count < 2 ^ 32) :
    snLen.hfn count + 1 < 2 ^ 32 := by
  have hsum := snLen.hfn_mul_add_sn count
  have htwo : 2 ≤ snLen.nofSns := by cases snLen <;> decide
  have hmul : snLen.hfn count * 2 ≤ snLen.hfn count * snLen.nofSns := Nat.mul_le_mul_left _ htwo
  omega

/-- In the window, the three cases tell the HFN of the COUNT. -/
theorem rcvdHfn_of_inWindow {s : PdcpNr} (hdeliv : s.rxDeliv < 2 ^ 32) {count : Nat}
    (h : s.InWindow count) : s.rcvdHfn (s.snLen.sn count) = s.snLen.hfn count := by
  obtain ⟨-, hlow, hhigh⟩ := h
  have hwindow : s.snLen.nofSns = 2 * s.windowSize := s.snLen.nofSns_eq
  have hcount := s.snLen.hfn_mul_add_sn count
  have hrx := s.snLen.hfn_mul_add_sn s.rxDeliv
  have hsn := s.snLen.sn_lt count
  have hrxSn := s.snLen.sn_lt s.rxDeliv
  have hhfn := hfn_lt_of_lt s.snLen hdeliv
  -- An HFN that is smaller by one is a COUNT that is smaller by an SN space.
  have hstep : ∀ {m n k : Nat}, m + k ≤ n →
      m * s.snLen.nofSns + k * s.snLen.nofSns ≤ n * s.snLen.nofSns := by
    intro m n k hmn
    rw [← Nat.add_mul]
    exact Nat.mul_le_mul_right _ hmn
  unfold rcvdHfn
  simp only
  split
  · rename_i hbelow
    rw [Nat.mod_eq_of_lt hhfn]
    rcases Nat.lt_trichotomy (s.snLen.hfn count) (s.snLen.hfn s.rxDeliv + 1) with hlt | heq | hgt
    · have hle := hstep (m := s.snLen.hfn count) (n := s.snLen.hfn s.rxDeliv) (k := 0) (by omega)
      omega
    · exact heq.symm
    · have hle := hstep (m := s.snLen.hfn s.rxDeliv) (n := s.snLen.hfn count) (k := 2) (by omega)
      omega
  · rename_i hbelow
    split
    · rename_i habove
      rcases Nat.lt_or_ge (s.snLen.hfn count) (s.snLen.hfn s.rxDeliv) with hlt | hge
      · have heq : s.snLen.hfn count + 1 = s.snLen.hfn s.rxDeliv := by
          refine Nat.le_antisymm hlt ?_
          by_contra hgt
          have hle := hstep (m := s.snLen.hfn count) (n := s.snLen.hfn s.rxDeliv) (k := 2)
            (by omega)
          omega
        rw [subU32, ← heq, if_pos (Nat.le_add_left 1 _), Nat.add_sub_cancel]
      · have hle := hstep (m := s.snLen.hfn s.rxDeliv) (n := s.snLen.hfn count) (k := 0) (by omega)
        omega
    · rename_i habove
      rcases Nat.lt_trichotomy (s.snLen.hfn count) (s.snLen.hfn s.rxDeliv) with hlt | heq | hgt
      · have hle := hstep (m := s.snLen.hfn count) (n := s.snLen.hfn s.rxDeliv) (k := 1) (by omega)
        omega
      · exact heq.symm
      · have hle := hstep (m := s.snLen.hfn s.rxDeliv) (n := s.snLen.hfn count) (k := 1) (by omega)
        omega

/-- The receiver finds the COUNT of the transmitter. -/
theorem rcvdCount_of_inWindow {s : PdcpNr} (hdeliv : s.rxDeliv < 2 ^ 32) {pdu : Bytes} {count : Nat}
    (h : s.InWindow count) (hsn : readDataHeader s.snLen pdu = s.snLen.sn count) :
    s.rcvdCount pdu = count := by
  rw [rcvdCount, hsn, rcvdHfn_of_inWindow hdeliv h]
  exact s.snLen.count_hfn_sn h.1

theorem hfnNearDeliv_iff {s : PdcpNr} (hdeliv : s.rxDeliv < 2 ^ 32) (rcvdSn : Nat) :
    s.HfnNearDeliv rcvdSn ↔ ¬ s.BeforeFirstHfn rcvdSn := by
  have hhfn := hfn_lt_of_lt s.snLen hdeliv
  unfold HfnNearDeliv BeforeFirstHfn rcvdHfn
  simp only
  split
  · rw [Nat.mod_eq_of_lt hhfn]
    omega
  · split
    · unfold subU32
      split <;> omega
    · omega

/-- The COUNT of each PDU is recovered, and the HFN never wraps, exactly when no SN of the upper
half of the SN space comes in HFN 0. -/
theorem recoversCount_iff {s : PdcpNr} (hdeliv : s.rxDeliv < 2 ^ 32) (pdu : Bytes) :
    ((∀ count, s.InWindow count → readDataHeader s.snLen pdu = s.snLen.sn count →
          s.rcvdCount pdu = count) ∧
        s.HfnNearDeliv (readDataHeader s.snLen pdu)) ↔
      ¬ s.BeforeFirstHfn (readDataHeader s.snLen pdu) := by
  rw [hfnNearDeliv_iff hdeliv]
  exact ⟨And.right, fun h => ⟨fun _ hw hsn => rcvdCount_of_inWindow hdeliv hw hsn, h⟩⟩

/-- A PDU that is within the window, in HFN 1. -/
theorem recoversCount_hfnOne :
    (∀ count, InWindow { init .len12 .drb 0 with rxDeliv := 4100 } count →
        readDataHeader .len12 [15, 255, 5] = SnLen.len12.sn count →
        rcvdCount { init .len12 .drb 0 with rxDeliv := 4100 } [15, 255, 5] = count) ∧
      HfnNearDeliv { init .len12 .drb 0 with rxDeliv := 4100 }
        (readDataHeader .len12 [15, 255, 5]) :=
  (recoversCount_iff (s := { init .len12 .drb 0 with rxDeliv := 4100 }) (by decide)
    [15, 255, 5]).mpr (by unfold BeforeFirstHfn; decide)

/-- The first PDU has the SN 2048. The HFN wraps, and the receiver takes the PDU for one of the
last HFN. -/
theorem not_recoversCount_hfnZero :
    ¬ HfnNearDeliv (init .len12 .drb 0) (readDataHeader .len12 [8, 0, 5]) ∧
      rcvdCount (init .len12 .drb 0) [8, 0, 5] = 2 ^ 32 - 2048 ∧
      (writePdu .none (init .len12 .drb 0) [8, 0, 5]).rxNext = 2 ^ 32 - 2047 := by
  unfold HfnNearDeliv
  decide

end PdcpNr

end Odss.Pdcp
