import Odss.Lib.OrdMap
import Odss.Rlc.Common

/-!
# `Odss.Pdcp.UndeliveredSdus`: the queue of undelivered SDUs

The model of `undelivered_sdus_queue` (`lib/src/pdcp/pdcp_entity_lte.cc`). The circular array
is a map from slots to SDUs. The discard timer of an SDU is left out, and its expiry is a call
of the entity. Buffer allocation never fails.
-/

set_option linter.all false

namespace Odss.Pdcp

open Odss.Lib Odss.Rlc

/-- The state of `undelivered_sdus_queue`. The key of an SDU is its place in the array. -/
structure UndeliveredSdus where
  count : Nat
  bytes : Nat
  fms : Nat
  lms : Nat
  sdus : OrdMap Nat Sdu
deriving DecidableEq

namespace UndeliveredSdus

/-- `capacity` -/
abbrev capacity : Nat := 4096

/-- An empty queue. -/
def init : UndeliveredSdus := ⟨0, 0, 0, 0, ∅⟩

/-- `empty` -/
def isEmpty (q : UndeliveredSdus) : Bool := q.count == 0

/-- `is_full` -/
def isFull (q : UndeliveredSdus) : Bool := decide (q.count ≥ capacity)

/-- The place of an SN in the array. -/
def slot (sn : Nat) : Nat := sn % capacity

/-- `has_sdu` -/
def hasSdu (q : UndeliveredSdus) (sn : Nat) : Bool :=
  (q.sdus.find? (slot sn)).any fun sdu => sdu.pdcpSn == sn

/-- `increment_sn` -/
def incrementSn (sn : Nat) : Nat := (sn + 1) % capacity

/-- The loop of `update_fms`. -/
def findFms (q : UndeliveredSdus) : Option Nat :=
  ((List.range (capacity / 2)).map fun i => incrementSn (q.fms + i)).find? q.hasSdu

/-- `update_fms` -/
def updateFms (q : UndeliveredSdus) : UndeliveredSdus :=
  if q.isEmpty then { q with fms := incrementSn q.fms }
  else { q with fms := q.findFms.getD (incrementSn q.fms) }

/-- `update_lms`. The difference is one of signed numbers. -/
def updateLms (q : UndeliveredSdus) (sn : Nat) : UndeliveredSdus :=
  let diff : Int := (sn : Int) - (q.lms : Int)
  if q.isEmpty then { q with lms := q.fms }
  else if diff > 0 ∧ sn > q.lms then { q with lms := sn }
  else if diff < 0 ∧ sn < q.lms then { q with lms := sn }
  else q

/-- The checks of `add_sdu` on the place of the SN behind `fms`. -/
def inWindow (q : UndeliveredSdus) (sn : Nat) : Bool :=
  let diff : Int := (sn : Int) - (q.fms : Int)
  !(decide (diff > capacity / 2) || (decide (diff ≤ 0) && decide (diff > -(capacity / 2 : Int))))

/-- `add_sdu`, with `none` for a return value of false. -/
def addSdu (q : UndeliveredSdus) (sn : Nat) (sdu : Bytes) : Option UndeliveredSdus :=
  if q.isFull then none
  else if !q.isEmpty && !q.inWindow sn then none
  else
    let q := if q.isEmpty then { q with fms := sn, lms := sn } else q.updateLms sn
    some { q with
      count := q.count + 1
      sdus := q.sdus.insert (slot sn) ⟨sn, sdu⟩
      bytes := q.bytes + sdu.length }

/-- `clear_sdu`. An SN that is not in the queue changes nothing. -/
def clearSdu (q : UndeliveredSdus) (sn : Nat) : UndeliveredSdus :=
  match q.sdus.find? (slot sn) with
  | none => q
  | some sdu =>
    if sdu.pdcpSn = sn then
      let q := { q with
        count := q.count - 1
        bytes := q.bytes - sdu.bytes.length
        sdus := q.sdus.erase (slot sn) }
      if sn = q.fms then q.updateFms else q
    else q

/-- `clear_sdu` for each of the SNs. -/
def clearAll (q : UndeliveredSdus) (sns : List Nat) : UndeliveredSdus := sns.foldl clearSdu q

/-- `get_buffered_sdus`: the SDUs under their SNs. -/
def bufferedSdus (q : UndeliveredSdus) : OrdMap Nat Bytes :=
  q.sdus.values.foldl
    (fun m sdu => if m.contains sdu.pdcpSn then m else m.insert sdu.pdcpSn sdu.bytes) ∅

/-! ### What is in the queue -/

theorem hasSdu_clearSdu (q : UndeliveredSdus) (sn s : Nat) :
    (q.clearSdu sn).hasSdu s = (q.hasSdu s && s != sn) := by
  cases hfind : q.sdus.find? (slot sn) with
  | none =>
    have hsn : q.hasSdu s = true → s ≠ sn := by
      rintro hs rfl
      simp [hasSdu, hfind] at hs
    cases hs : q.hasSdu s <;> simp_all [clearSdu]
  | some sdu =>
    by_cases hsame : sdu.pdcpSn = sn
    · have hclear : (q.clearSdu sn).sdus = q.sdus.erase (slot sn) := by
        simp only [clearSdu, hfind, if_pos hsame]
        split
        · unfold updateFms
          split <;> rfl
        · rfl
      have heq : (q.clearSdu sn).hasSdu s
          = ((q.sdus.erase (slot sn)).find? (slot s)).any fun sdu => sdu.pdcpSn == s := by
        rw [hasSdu, hclear]
      rw [heq, OrdMap.find?_erase]
      by_cases hslot : slot s = slot sn
      · -- The SDU of the slot has the SN that is removed.
        rw [if_pos hslot, hasSdu, hslot, hfind]
        by_cases hs : s = sn
        · simp [hs]
        · simp [hsame, Ne.symm hs]
      · have hs : s ≠ sn := fun h => hslot (congrArg slot h)
        rw [if_neg hslot]
        simp [hasSdu, hs]
    · have hsn : q.hasSdu s = true → s ≠ sn := by
        rintro hs rfl
        simp [hasSdu, hfind, hsame] at hs
      have hclear : q.clearSdu sn = q := by simp only [clearSdu, hfind, if_neg hsame]
      rw [hclear]
      cases hs : q.hasSdu s <;> simp_all

theorem hasSdu_clearAll (q : UndeliveredSdus) (sns : List Nat) (s : Nat) :
    (q.clearAll sns).hasSdu s = true ↔ q.hasSdu s = true ∧ s ∉ sns := by
  induction sns generalizing q with
  | nil => simp [clearAll]
  | cons sn sns ih =>
    show ((q.clearSdu sn).clearAll sns).hasSdu s = true ↔ _
    rw [ih, hasSdu_clearSdu]
    simp [and_assoc]

end UndeliveredSdus

end Odss.Pdcp
