import Odss.Proofs.PdcpLteSync

/-!
# `Odss.Proofs.UndeliveredQueue`: the queue of undelivered SDUs

An AM DRB keeps each SDU until it is delivered, fails, is discarded or is acknowledged in a status
report. `TxHistory` has the SDUs that were stored and not removed since, in the order of
transmission. `Lawful` says what the queue has to be for them.

Each call of the entity is a list of calls of the queue (`exec_calls`). `QueueAt` is the invariant: it
numbers the SDUs without a wrap, and all lie less than 2050 in front of the next one. `queueAt_clear`
and `queueAt_write` are the two steps.

With SNs of 18 bits two things go wrong. The next FMS is looked for among the SNs below 4096, and
the check of an SN that has wrapped lets SDUs in that are too far away. `lawful_iff_fits` says
that nothing else does.
-/

set_option linter.all false

namespace Odss.Pdcp.PdcpLte

open Odss.Lib Odss.Rlc UndeliveredSdus

/-- What happens to an AM DRB that writes SDUs. -/
inductive QueueOp where
  | write (rlc : RlcStatus) (sdu : Bytes)
  | notify (pdcpSns : List Nat)
  | discard (sn : Nat)
  | statusReport (pdu : Bytes)

/-- A call of the queue. -/
inductive QueueCall where
  | write (rlc : RlcStatus) (sdu : Bytes)
  | clear (sn : Nat)

/-- The calls of the queue for what happens to the entity, in their order. -/
def QueueOp.calls (outOfRange : UInt8 → Bool) (snLen : SnLen) : QueueOp → List QueueCall
  | .write rlc sdu => [.write rlc sdu]
  | .notify pdcpSns => (pdcpSns.filter fun sn => sn != 2 ^ 32 - 1).map .clear
  | .discard sn => [.clear sn]
  | .statusReport pdu =>
    match readFms snLen pdu with
    | none => []
    | some (fms, bitmapOffset) =>
      (reportedSns outOfRange fms (pdu.drop bitmapOffset)).map .clear

/-- An entity, with the SDUs that were stored and not removed since. -/
structure TxHistory where
  entity : PdcpLte
  stored : List (Nat × Bytes)

/-- A call. -/
def queueStep (sec : Security) (h : TxHistory) : QueueCall → Option (TxHistory × Unit)
  | .write rlc sdu =>
    let (entity, pdu) := h.entity.writeSdu sec rlc sdu none
    some (⟨entity, if pdu.isSome then h.stored ++ [(h.entity.st.nextPdcpTxSn, sdu)] else h.stored⟩, ())
  | .clear sn => some (⟨h.entity.discard sn, h.stored.filter (·.1 ≠ sn)⟩, ())

/-- What the queue has to be: it counts the stored SDUs and their bytes, has each of them at its place
and nothing else, and FMS is the SN of the oldest one, with all others close behind. -/
structure Lawful (h : TxHistory) : Prop where
  count : h.entity.undeliveredSdus.count = h.stored.length
  bytes : h.entity.undeliveredSdus.bytes = (h.stored.map (·.2.length)).sum
  contents : ∀ place sdu, h.entity.undeliveredSdus.sdus.find? place = some sdu ↔
    place = slot sdu.pdcpSn ∧ (sdu.pdcpSn, sdu.bytes) ∈ h.stored
  oldest : ∀ x, h.stored.head? = some x → h.entity.undeliveredSdus.fms = x.1
  window : ∀ x ∈ h.stored, (x.1 + h.entity.cfg.snLen.nofSns - h.entity.undeliveredSdus.fms) %
    h.entity.cfg.snLen.nofSns < 2049

/-- With SNs of 18 bits, an SN that has wrapped is at most 2048 in front of FMS. Where the SDU at FMS is
removed, the oldest one of the others has an SN below 4096. -/
def QueueFits (h : TxHistory) : QueueCall → Prop
  | .write rlc _ =>
    h.entity.cfg.snLen = .len18 → h.entity.active = true → rlc.suspended = false →
      rlc.sduQueueIsFull = false → h.stored ≠ [] →
      h.entity.st.nextPdcpTxSn < h.entity.undeliveredSdus.fms →
      h.entity.st.nextPdcpTxSn + 2 ^ 18 ≤ h.entity.undeliveredSdus.fms + 2048
  | .clear sn => ∀ sdu x rest, h.stored = (sn, sdu) :: x :: rest → x.1 < 4096

/-- The SDUs with their numbers, which have no wrap, and the next number. -/
structure QueueAt (h : TxHistory) (numbered : List (Nat × Bytes)) (next : Nat) : Prop
    extends Lawful h where
  drb : h.entity.cfg.isAmDrb = true
  snLen : h.entity.cfg.snLen = .len12 ∨ h.entity.cfg.snLen = .len18
  stored : h.stored = numbered.map fun x => (x.1 % h.entity.cfg.snLen.nofSns, x.2)
  sorted : numbered.Pairwise fun x y => x.1 < y.1
  below : ∀ x ∈ numbered, x.1 < next
  near : ∀ x ∈ numbered, next ≤ x.1 + 2049
  nextSn : h.entity.st.nextPdcpTxSn = next % h.entity.cfg.snLen.nofSns

section Facts

variable {h : TxHistory} {numbered : List (Nat × Bytes)} {next sn : Nat}

theorem Lawful.hasSdu_iff (hl : Lawful h) (sn : Nat) :
    h.entity.undeliveredSdus.hasSdu sn = true ↔ ∃ sdu, (sn, sdu) ∈ h.stored := by
  unfold hasSdu
  constructor
  · intro hhas
    obtain ⟨sdu, hfind, hsn⟩ := (Option.any_eq_true _ _).mp hhas
    rw [beq_iff_eq] at hsn
    exact ⟨sdu.bytes, hsn ▸ ((hl.contents _ _).mp hfind).2⟩
  · rintro ⟨sdu, hmem⟩
    rw [(hl.contents (slot sn) ⟨sn, sdu⟩).mpr ⟨rfl, hmem⟩]
    simp

theorem QueueAt.nofSns (hq : QueueAt h numbered next) :
    h.entity.cfg.snLen.nofSns = 4096 ∨ h.entity.cfg.snLen.nofSns = 262144 :=
  hq.snLen.imp (fun hlen => by rw [hlen]; rfl) (fun hlen => by rw [hlen]; rfl)

/-- The place of an SDU in the array comes from its number. -/
theorem QueueAt.slot_eq (hq : QueueAt h numbered next) (number : Nat) :
    slot (number % h.entity.cfg.snLen.nofSns) = number % 4096 := by
  unfold slot capacity
  rcases hq.nofSns with heq | heq
  · rw [heq]
    omega
  · rw [heq]
    omega

/-- Two stored SDUs with the same place have the same number. -/
theorem QueueAt.eq_of_slot (hq : QueueAt h numbered next) {x y : Nat × Bytes} (hx : x ∈ numbered)
    (hy : y ∈ numbered) (heq : x.1 % 4096 = y.1 % 4096) : x.1 = y.1 := by
  have := hq.below x hx
  have := hq.below y hy
  have := hq.near x hx
  have := hq.near y hy
  omega

theorem QueueAt.mem_stored (hq : QueueAt h numbered next) {x : Nat × Bytes} (hx : x ∈ numbered) :
    (x.1 % h.entity.cfg.snLen.nofSns, x.2) ∈ h.stored :=
  hq.stored ▸ List.mem_map_of_mem hx

/-- FMS is the SN of the first SDU. -/
theorem QueueAt.fms_head {x : Nat × Bytes} {l : List (Nat × Bytes)} (hq : QueueAt h (x :: l) next) :
    h.entity.undeliveredSdus.fms = x.1 % h.entity.cfg.snLen.nofSns := by
  refine hq.oldest (x.1 % h.entity.cfg.snLen.nofSns, x.2) ?_
  rw [hq.stored]
  rfl

theorem QueueAt.sn_ne (hq : QueueAt h numbered next) {x y : Nat × Bytes} (hx : x ∈ numbered)
    (hy : y ∈ numbered) (hne : x.1 ≠ y.1) :
    x.1 % h.entity.cfg.snLen.nofSns ≠ y.1 % h.entity.cfg.snLen.nofSns := fun heq => by
  have hslot := congrArg slot heq
  rw [hq.slot_eq, hq.slot_eq] at hslot
  exact hne (hq.eq_of_slot hx hy hslot)

/-- How far a number is in front of another one, from their SNs. -/
theorem ahead_eq {nofSns a b : Nat} (hnof : nofSns = 4096 ∨ nofSns = 262144) (hle : a ≤ b)
    (hlt : b < a + 2050) : (b % nofSns + nofSns - a % nofSns) % nofSns = b - a := by
  rcases hnof with rfl | rfl
  · omega
  · omega

/-- SDUs in the order of their numbers, of which FMS is the first, are all close behind it. -/
theorem window_of_sorted {nofSns next fms : Nat} {numbered : List (Nat × Bytes)}
    (hnof : nofSns = 4096 ∨ nofSns = 262144) (hsorted : numbered.Pairwise fun x y => x.1 < y.1)
    (hbelow : ∀ x ∈ numbered, x.1 < next) (hnear : ∀ x ∈ numbered, next ≤ x.1 + 2049)
    (hfms : ∀ x, numbered.head? = some x → fms = x.1 % nofSns) :
    ∀ x ∈ numbered, (x.1 % nofSns + nofSns - fms) % nofSns < 2049 := by
  intro x hx
  cases numbered with
  | nil => cases hx
  | cons first rest =>
    have hbelow' := hbelow x hx
    have hnear' := hnear first List.mem_cons_self
    have hle : first.1 ≤ x.1 := by
      rcases List.mem_cons.mp hx with rfl | hx
      · exact Nat.le_refl _
      · exact Nat.le_of_lt (List.rel_of_pairwise_cons hsorted hx)
    rw [hfms first rfl, ahead_eq hnof hle (by omega)]
    omega

end Facts

/-! ### The removal of an SDU -/

section Clear

variable {q : UndeliveredSdus} {sn : Nat}

theorem clearSdu_of_not_hasSdu (h : q.hasSdu sn = false) : q.clearSdu sn = q := by
  unfold clearSdu
  unfold hasSdu at h
  split
  · rfl
  · rename_i sdu hfind
    rw [hfind] at h
    have hne : sdu.pdcpSn ≠ sn := by simpa using h
    rw [if_neg hne]

/-- The queue without an SDU, before FMS is moved. -/
def removed (q : UndeliveredSdus) (sn : Nat) (sdu : Bytes) : UndeliveredSdus :=
  { q with
    count := q.count - 1
    bytes := q.bytes - sdu.length
    sdus := q.sdus.erase (slot sn) }

theorem clearSdu_of_find {sdu : Bytes} (hfind : q.sdus.find? (slot sn) = some ⟨sn, sdu⟩) :
    q.clearSdu sn = if sn = q.fms then (removed q sn sdu).updateFms else removed q sn sdu := by
  simp only [clearSdu, hfind, if_pos]
  rfl

theorem updateFms_eq (q : UndeliveredSdus) : q.updateFms =
    { q with fms := if q.isEmpty then incrementSn q.fms else q.findFms.getD (incrementSn q.fms) } := by
  unfold updateFms
  split <;> rfl

/-- FMS is below 4096 after it was moved. -/
theorem fms_updateFms_lt (q : UndeliveredSdus) : q.updateFms.fms < 4096 := by
  have hlt (sn : Nat) : incrementSn sn < 4096 := Nat.mod_lt _ (by decide)
  rw [updateFms_eq]
  show (if q.isEmpty then incrementSn q.fms else q.findFms.getD (incrementSn q.fms)) < 4096
  split
  · exact hlt _
  · cases hfind : q.findFms with
    | none => exact hlt _
    | some fms =>
      obtain ⟨i, -, rfl⟩ := List.mem_map.mp (List.mem_of_find?_eq_some hfind)
      exact hlt _

/-- The first SN behind FMS that is in the queue. -/
theorem findFms_eq {i : Nat} (hi : i < 2048) (hhas : q.hasSdu (incrementSn (q.fms + i)) = true)
    (hbefore : ∀ j < i, q.hasSdu (incrementSn (q.fms + j)) = false) :
    q.findFms = some (incrementSn (q.fms + i)) := by
  have hfind : (List.range (capacity / 2)).find?
      (q.hasSdu ∘ fun i => incrementSn (q.fms + i)) = some i :=
    List.find?_range_eq_some.mpr ⟨hhas, List.mem_range.mpr hi, fun j hj => by
      simp [Function.comp, hbefore j hj]⟩
  rw [findFms, List.find?_map, hfind]
  rfl

end Clear

section Clear

variable {h : TxHistory} {numbered : List (Nat × Bytes)} {next sn : Nat}

/-- The history without an SDU. -/
def TxHistory.clear (h : TxHistory) (sn : Nat) : TxHistory :=
  ⟨h.entity.discard sn, h.stored.filter (·.1 ≠ sn)⟩

/-- An SN that is not stored changes nothing. -/
theorem QueueAt.clear_absent (hq : QueueAt h numbered next)
    (habsent : ∀ sdu, (sn, sdu) ∉ h.stored) : h.clear sn = h := by
  have hhas : h.entity.undeliveredSdus.hasSdu sn = false := by
    rw [Bool.eq_false_iff]
    intro hhas
    obtain ⟨sdu, hmem⟩ := (hq.hasSdu_iff sn).mp hhas
    exact habsent sdu hmem
  have hfilter : h.stored.filter (·.1 ≠ sn) = h.stored := List.filter_eq_self.mpr fun x hx => by
    have hne : x.1 ≠ sn := fun heq => habsent x.2 (heq ▸ hx)
    simpa using hne
  unfold TxHistory.clear discard
  rw [clearSdu_of_not_hasSdu hhas, hfilter]

theorem hasSdu_removed {q : UndeliveredSdus} {sdu : Bytes}
    (hfind : q.sdus.find? (slot sn) = some ⟨sn, sdu⟩) (sn' : Nat) :
    (removed q sn sdu).hasSdu sn' = (q.hasSdu sn' && sn' != sn) := by
  rw [← hasSdu_clearSdu, clearSdu_of_find hfind]
  split
  · rw [updateFms_eq]
    rfl
  · rfl

variable {l r : List (Nat × Bytes)} {x : Nat × Bytes}

/-- The oldest SDU is removed, and the one behind it has an SN below 4096. -/
theorem QueueAt.findFms_removed {y : Nat × Bytes} (hq : QueueAt h (x :: y :: r) next)
    (hlow : y.1 % h.entity.cfg.snLen.nofSns < 4096)
    (hfind : h.entity.undeliveredSdus.sdus.find? (slot (x.1 % h.entity.cfg.snLen.nofSns)) =
      some ⟨x.1 % h.entity.cfg.snLen.nofSns, x.2⟩) :
    (removed h.entity.undeliveredSdus (x.1 % h.entity.cfg.snLen.nofSns) x.2).findFms =
      some (y.1 % h.entity.cfg.snLen.nofSns) := by
  have hx : x ∈ x :: y :: r := List.mem_cons_self
  have hy : y ∈ x :: y :: r := List.mem_cons_of_mem x List.mem_cons_self
  have hlt : x.1 < y.1 := List.rel_of_pairwise_cons hq.sorted List.mem_cons_self
  have hbelow := hq.below y hy
  have hnear := hq.near x hx
  have hfms : (removed h.entity.undeliveredSdus (x.1 % h.entity.cfg.snLen.nofSns) x.2).fms =
      x.1 % h.entity.cfg.snLen.nofSns := hq.fms_head
  have hplace (i : Nat) : incrementSn (x.1 % h.entity.cfg.snLen.nofSns + i) = (x.1 + i + 1) % 4096 := by
    have hslot := hq.slot_eq x.1
    unfold slot capacity at hslot
    unfold incrementSn capacity
    omega
  have hsn : (x.1 + (y.1 - x.1 - 1) + 1) % 4096 = y.1 % h.entity.cfg.snLen.nofSns := by
    have hslot := hq.slot_eq y.1
    unfold slot capacity at hslot
    omega
  have hfound := @findFms_eq
    (removed h.entity.undeliveredSdus (x.1 % h.entity.cfg.snLen.nofSns) x.2) (y.1 - x.1 - 1)
    (by omega) ?_ ?_
  · rw [hfound, hfms, hplace, hsn]
  · rw [hfms, hplace, hsn, hasSdu_removed hfind, Bool.and_eq_true]
    refine ⟨(hq.hasSdu_iff _).mpr ⟨y.2, hq.mem_stored hy⟩, ?_⟩
    rw [bne_iff_ne]
    exact hq.sn_ne hy hx (Nat.ne_of_gt hlt)
  · intro j hj
    rw [hfms, hplace, hasSdu_removed hfind, Bool.eq_false_iff]
    intro hhas
    rw [Bool.and_eq_true, bne_iff_ne] at hhas
    obtain ⟨sdu, hmem⟩ := (hq.hasSdu_iff _).mp hhas.1
    rw [hq.stored] at hmem
    obtain ⟨z, hz, heq⟩ := List.mem_map.mp hmem
    have hzsn : z.1 % h.entity.cfg.snLen.nofSns = (x.1 + j + 1) % 4096 := congrArg Prod.fst heq
    have hzslot := hq.slot_eq z.1
    rw [hzsn] at hzslot
    unfold slot capacity at hzslot
    have hznear := hq.near z hz
    have hzbelow := hq.below z hz
    -- The number is that of the place, and no SDU lies between the two.
    have hznum : z.1 = x.1 + j + 1 := by omega
    rcases List.mem_cons.mp hz with rfl | hz
    · omega
    · rcases List.mem_cons.mp hz with rfl | hz
      · omega
      · have := List.rel_of_pairwise_cons hq.sorted.of_cons hz
        omega

theorem QueueAt.others (hq : QueueAt h (l ++ x :: r) next) {y : Nat × Bytes} (hy : y ∈ l ++ r) :
    y ∈ l ++ x :: r ∧ y.1 ≠ x.1 := by
  obtain ⟨-, hr, hlr⟩ := List.pairwise_append.mp hq.sorted
  rcases List.mem_append.mp hy with hy | hy
  · exact ⟨List.mem_append_left _ hy, Nat.ne_of_lt (hlr y hy x List.mem_cons_self)⟩
  · exact ⟨List.mem_append_right _ (List.mem_cons_of_mem x hy),
      Nat.ne_of_gt (List.rel_of_pairwise_cons hr hy)⟩

theorem QueueAt.filter_stored (hq : QueueAt h (l ++ x :: r) next) :
    h.stored.filter (·.1 ≠ x.1 % h.entity.cfg.snLen.nofSns) =
      (l ++ r).map fun x => (x.1 % h.entity.cfg.snLen.nofSns, x.2) := by
  have hx : x ∈ l ++ x :: r := List.mem_append_right _ List.mem_cons_self
  have hkeep {ys : List (Nat × Bytes)} (hys : ∀ y ∈ ys, y ∈ l ++ r) :
      (ys.map fun x => (x.1 % h.entity.cfg.snLen.nofSns, x.2)).filter
        (·.1 ≠ x.1 % h.entity.cfg.snLen.nofSns) =
      ys.map fun x => (x.1 % h.entity.cfg.snLen.nofSns, x.2) := by
    refine List.filter_eq_self.mpr fun z hz => ?_
    obtain ⟨y, hy, rfl⟩ := List.mem_map.mp hz
    obtain ⟨hmem, hne⟩ := hq.others (hys y hy)
    simpa using hq.sn_ne hmem hx hne
  rw [hq.stored, List.map_append, List.map_cons, List.filter_append,
    List.filter_cons_of_neg (by simp), hkeep fun y hy => List.mem_append_left _ hy,
    hkeep fun y hy => List.mem_append_right _ hy, List.map_append]

/-- The array without an SDU has the others. -/
theorem QueueAt.find?_erase_iff (hq : QueueAt h (l ++ x :: r) next) (place : Nat) (sdu : Sdu) :
    (h.entity.undeliveredSdus.sdus.erase (slot (x.1 % h.entity.cfg.snLen.nofSns))).find? place
        = some sdu ↔
      place = slot sdu.pdcpSn ∧ (sdu.pdcpSn, sdu.bytes) ∈
        (l ++ r).map fun x => (x.1 % h.entity.cfg.snLen.nofSns, x.2) := by
  have hx : x ∈ l ++ x :: r := List.mem_append_right _ List.mem_cons_self
  rw [OrdMap.find?_erase]
  constructor
  · intro hfind
    split at hfind
    · cases hfind
    · rename_i hne
      obtain ⟨hplace, hmem⟩ := (hq.contents place sdu).mp hfind
      refine ⟨hplace, ?_⟩
      rw [hq.stored, List.map_append, List.map_cons, List.mem_append, List.mem_cons] at hmem
      rw [List.map_append, List.mem_append]
      refine hmem.imp_right fun hmem => hmem.resolve_left fun heq => ?_
      exact hne (hplace.trans (congrArg (fun p => slot p.1) heq))
  · rintro ⟨hplace, hmem⟩
    obtain ⟨y, hy, heq⟩ := List.mem_map.mp hmem
    obtain ⟨hmem', hne⟩ := hq.others hy
    have hsn : y.1 % h.entity.cfg.snLen.nofSns = sdu.pdcpSn := congrArg Prod.fst heq
    have hother : place ≠ slot (x.1 % h.entity.cfg.snLen.nofSns) := by
      rw [hplace, ← hsn, hq.slot_eq, hq.slot_eq]
      exact fun hslot => hne (hq.eq_of_slot hmem' hx hslot)
    rw [if_neg hother]
    exact (hq.contents place sdu).mpr ⟨hplace, heq ▸ hq.mem_stored hmem'⟩

theorem QueueAt.lawful_removed (hq : QueueAt h (l ++ x :: r) next) {fms : Nat}
    (hqueue : (h.clear (x.1 % h.entity.cfg.snLen.nofSns)).entity.undeliveredSdus =
      { removed h.entity.undeliveredSdus (x.1 % h.entity.cfg.snLen.nofSns) x.2 with fms := fms })
    (hfms : ∀ y, (l ++ r).head? = some y → fms = y.1 % h.entity.cfg.snLen.nofSns) :
    QueueAt (h.clear (x.1 % h.entity.cfg.snLen.nofSns)) (l ++ r) next := by
  have hx : x ∈ l ++ x :: r := List.mem_append_right _ List.mem_cons_self
  have hstored : (h.clear (x.1 % h.entity.cfg.snLen.nofSns)).stored =
      (l ++ r).map fun x => (x.1 % h.entity.cfg.snLen.nofSns, x.2) := hq.filter_stored
  have hsorted : (l ++ r).Pairwise fun x y => x.1 < y.1 :=
    hq.sorted.sublist ((List.sublist_cons_self x r).append_left l)
  have hbelow : ∀ y ∈ l ++ r, y.1 < next := fun y hy => hq.below y (hq.others hy).1
  have hnear : ∀ y ∈ l ++ r, next ≤ y.1 + 2049 := fun y hy => hq.near y (hq.others hy).1
  have hold := hq.stored
  exact {
    count := by
      rw [hqueue, hstored]
      show h.entity.undeliveredSdus.count - 1 = _
      rw [hq.count, hold]
      simp
    bytes := by
      rw [hqueue, hstored]
      show h.entity.undeliveredSdus.bytes - x.2.length = _
      rw [hq.bytes, hold]
      simp [Function.comp_def]
      omega
    contents := fun place sdu => by
      rw [hqueue, hstored]
      exact hq.find?_erase_iff place sdu
    oldest := fun z hz => by
      rw [hstored, List.head?_map] at hz
      obtain ⟨y, hy, rfl⟩ := Option.map_eq_some_iff.mp hz
      rw [hqueue]
      exact hfms y hy
    window := fun z hz => by
      rw [hstored] at hz
      obtain ⟨y, hy, rfl⟩ := List.mem_map.mp hz
      rw [hqueue]
      exact window_of_sorted hq.nofSns hsorted hbelow hnear hfms y hy
    drb := hq.drb
    snLen := hq.snLen
    stored := hstored
    sorted := hsorted
    below := hbelow
    near := hnear
    nextSn := hq.nextSn }

/-- An SDU is removed. -/
theorem QueueAt.clear_present (hq : QueueAt h (l ++ x :: r) next)
    (hlow : ∀ y r', l = [] → r = y :: r' → y.1 % h.entity.cfg.snLen.nofSns < 4096) :
    QueueAt (h.clear (x.1 % h.entity.cfg.snLen.nofSns)) (l ++ r) next := by
  have hx : x ∈ l ++ x :: r := List.mem_append_right _ List.mem_cons_self
  have hfind : h.entity.undeliveredSdus.sdus.find? (slot (x.1 % h.entity.cfg.snLen.nofSns)) =
      some ⟨x.1 % h.entity.cfg.snLen.nofSns, x.2⟩ :=
    (hq.contents _ ⟨_, x.2⟩).mpr ⟨rfl, hq.mem_stored hx⟩
  have hclear : (h.clear (x.1 % h.entity.cfg.snLen.nofSns)).entity.undeliveredSdus = _ :=
    clearSdu_of_find hfind
  cases l with
  | cons z l' =>
    have hz : z ∈ z :: l' ++ x :: r := List.mem_cons_self
    have hfms : h.entity.undeliveredSdus.fms = z.1 % h.entity.cfg.snLen.nofSns := hq.fms_head
    have hne : x.1 % h.entity.cfg.snLen.nofSns ≠ h.entity.undeliveredSdus.fms := by
      rw [hfms]
      exact hq.sn_ne hx hz (Nat.ne_of_gt (List.rel_of_pairwise_cons hq.sorted
        (List.mem_append_right _ List.mem_cons_self)))
    rw [if_neg hne] at hclear
    refine hq.lawful_removed hclear fun y hy => ?_
    cases hy
    exact hfms
  | nil =>
    have hfms : x.1 % h.entity.cfg.snLen.nofSns = h.entity.undeliveredSdus.fms := hq.fms_head.symm
    rw [if_pos hfms, updateFms_eq] at hclear
    refine hq.lawful_removed hclear fun y hy => ?_
    obtain ⟨r', hr'⟩ := List.head?_eq_some_iff.mp hy
    rw [List.nil_append] at hr'
    subst hr'
    have hcount : (removed h.entity.undeliveredSdus (x.1 % h.entity.cfg.snLen.nofSns) x.2).isEmpty
        = false := by
      rw [isEmpty, beq_eq_false_iff_ne]
      show h.entity.undeliveredSdus.count - 1 ≠ 0
      rw [hq.count, hq.stored]
      simp
    rw [hcount, hq.findFms_removed (hlow y r' rfl rfl) hfind]
    rfl

/-- A call of `clear_sdu` keeps the invariant. -/
theorem queueAt_clear (hq : QueueAt h numbered next) (hfits : QueueFits h (.clear sn)) :
    ∃ numbered', QueueAt (h.clear sn) numbered' next := by
  by_cases hmem : ∃ sdu, (sn, sdu) ∈ h.stored
  · obtain ⟨sdu, hmem⟩ := hmem
    rw [hq.stored] at hmem
    obtain ⟨x, hx, heq⟩ := List.mem_map.mp hmem
    obtain ⟨l, r, rfl⟩ := List.append_of_mem hx
    have hsn : x.1 % h.entity.cfg.snLen.nofSns = sn := congrArg Prod.fst heq
    refine ⟨l ++ r, hsn ▸ hq.clear_present fun y r' hl hr => ?_⟩
    subst hl hr
    have hstored := hq.stored
    rw [List.nil_append, List.map_cons, List.map_cons, hsn] at hstored
    exact hfits _ _ _ hstored
  · rw [hq.clear_absent fun sdu hsdu => hmem ⟨sdu, hsdu⟩]
    exact ⟨numbered, hq⟩

/-- FMS is right behind a call only if the next SDU has an SN below 4096. -/
theorem fits_of_clear (hq : QueueAt h numbered next) (hl : Lawful (h.clear sn)) :
    QueueFits h (.clear sn) := by
  intro sdu y rest hstored
  have hsplit := hq.stored.symm.trans hstored
  obtain ⟨x, tail, rfl, hx, htail⟩ := List.map_eq_cons_iff.mp hsplit
  obtain ⟨z, r, rfl, hz, -⟩ := List.map_eq_cons_iff.mp htail
  have hsn : x.1 % h.entity.cfg.snLen.nofSns = sn := congrArg Prod.fst hx
  have hfind : h.entity.undeliveredSdus.sdus.find? (slot sn) = some ⟨sn, sdu⟩ :=
    (hq.contents _ ⟨sn, sdu⟩).mpr ⟨rfl, hstored ▸ List.mem_cons_self⟩
  have hfms : h.entity.undeliveredSdus.fms = sn :=
    hq.oldest (sn, sdu) (by rw [hstored]; rfl)
  have hhead : (h.clear sn).stored.head? = some y := by
    show (h.stored.filter (·.1 ≠ sn)).head? = some y
    rw [← hsn, (show QueueAt h ([] ++ x :: z :: r) next from hq).filter_stored, ← hz]
    rfl
  have hlt := fms_updateFms_lt (removed h.entity.undeliveredSdus sn sdu)
  have hclear : (h.clear sn).entity.undeliveredSdus = _ := clearSdu_of_find hfind
  rw [if_pos hfms.symm] at hclear
  rw [← hl.oldest y hhead, hclear]
  exact hlt

end Clear

/-! ### The storing of an SDU -/

section Write

theorem updateLms_eq (q : UndeliveredSdus) (sn : Nat) :
    ∃ lms, q.updateLms sn = { q with lms := lms } := by
  unfold updateLms
  dsimp only
  split
  · exact ⟨_, rfl⟩
  · split
    · exact ⟨_, rfl⟩
    · split
      · exact ⟨_, rfl⟩
      · exact ⟨q.lms, rfl⟩

theorem addSdu_eq_some {q q' : UndeliveredSdus} {sn : Nat} {sdu : Bytes}
    (h : q.addSdu sn sdu = some q') :
    (q.isEmpty = false → q.inWindow sn = true) ∧ q'.count = q.count + 1 ∧
      q'.bytes = q.bytes + sdu.length ∧ q'.sdus = q.sdus.insert (slot sn) ⟨sn, sdu⟩ ∧
      q'.fms = if q.isEmpty then sn else q.fms := by
  unfold addSdu at h
  split at h
  · cases h
  · split at h
    · cases h
    · rename_i hwindow
      cases h
      refine ⟨fun hempty => ?_, ?_⟩
      · rw [hempty] at hwindow
        simpa using hwindow
      · obtain ⟨lms, hlms⟩ := updateLms_eq q sn
        cases hempty : q.isEmpty with
        | true => exact ⟨rfl, rfl, rfl, rfl⟩
        | false =>
          simp only [Bool.false_eq_true, if_false, hlms]
          exact ⟨trivial, trivial, trivial, trivial⟩

variable {h : TxHistory} {numbered : List (Nat × Bytes)} {next : Nat} {sdu : Bytes}

theorem QueueAt.isEmpty_iff (hq : QueueAt h numbered next) :
    h.entity.undeliveredSdus.isEmpty = true ↔ h.stored = [] := by
  rw [isEmpty, beq_iff_eq, hq.count, List.length_eq_zero_iff]

theorem QueueAt.storeSdu_eq_some (hq : QueueAt h numbered next) {q : UndeliveredSdus} {sn : Nat}
    (hstore : h.entity.storedSdus sn sdu = some q) :
    h.entity.undeliveredSdus.addSdu sn sdu = some q ∧
      (h.entity.undeliveredSdus.isEmpty = false → h.entity.snInWindow sn = true) := by
  rw [storedSdus, hq.drb, if_pos rfl, storeSdu] at hstore
  split at hstore
  · cases hstore
  · split at hstore
    · cases hstore
    · split at hstore
      · cases hstore
      · rename_i hwindow
        refine ⟨hstore, fun hempty => ?_⟩
        rw [hempty] at hwindow
        simpa using hwindow

/-- An SDU that is stored is at most 2048 behind the others. -/
theorem QueueAt.near_of_stored (hq : QueueAt h numbered next) {q : UndeliveredSdus}
    (hstore : h.entity.storedSdus h.entity.st.nextPdcpTxSn sdu = some q)
    (hwrap : h.entity.cfg.snLen = .len18 → h.stored ≠ [] →
      h.entity.st.nextPdcpTxSn < h.entity.undeliveredSdus.fms →
      h.entity.st.nextPdcpTxSn + 2 ^ 18 ≤ h.entity.undeliveredSdus.fms + 2048) :
    ∀ x ∈ numbered, next ≤ x.1 + 2048 := by
  obtain ⟨hadd, hwide⟩ := hq.storeSdu_eq_some hstore
  obtain ⟨hnarrow, -⟩ := addSdu_eq_some hadd
  cases numbered with
  | nil => exact nofun
  | cons first rest =>
    have hne : h.stored ≠ [] := by
      rw [hq.stored]
      simp
    have hempty : h.entity.undeliveredSdus.isEmpty = false := by
      rw [Bool.eq_false_iff]
      exact fun hempty => hne (hq.isEmpty_iff.mp hempty)
    have hfms : h.entity.undeliveredSdus.fms = first.1 % h.entity.cfg.snLen.nofSns := hq.fms_head
    have hbelow := hq.below first List.mem_cons_self
    have hnear := hq.near first List.mem_cons_self
    have hwindow := hnarrow hempty
    have hwindow' := hwide hempty
    unfold inWindow capacity at hwindow
    unfold snInWindow LteConfig.maximumAllocatedSnsWindow at hwindow'
    simp only [Bool.not_eq_true', Bool.or_eq_false_iff, Bool.and_eq_false_iff,
      decide_eq_false_iff_not] at hwindow hwindow'
    rw [hfms, hq.nextSn] at hwindow hwindow' hwrap
    have hfirst : next ≤ first.1 + 2048 := by
      rcases hq.snLen with hlen | hlen
      · have hnof : h.entity.cfg.snLen.nofSns = 4096 := by rw [hlen]; rfl
        rw [hnof] at hwindow hwindow'
        omega
      · have hnof : h.entity.cfg.snLen.nofSns = 262144 := by rw [hlen]; rfl
        rw [hnof] at hwindow hwindow' hwrap
        have := hwrap hlen hne
        omega
    intro x hx
    rcases List.mem_cons.mp hx with rfl | hx
    · exact hfirst
    · have := List.rel_of_pairwise_cons hq.sorted hx
      omega

/-- The array with a new SDU, whose place is free. -/
theorem QueueAt.find?_insert_iff (hq : QueueAt h numbered next)
    (hclose : ∀ x ∈ numbered, next ≤ x.1 + 2048) (place : Nat) (s : Sdu) :
    (h.entity.undeliveredSdus.sdus.insert (slot h.entity.st.nextPdcpTxSn)
        ⟨h.entity.st.nextPdcpTxSn, sdu⟩).find? place = some s ↔
      place = slot s.pdcpSn ∧
        (s.pdcpSn, s.bytes) ∈ h.stored ++ [(h.entity.st.nextPdcpTxSn, sdu)] := by
  have hslot : slot h.entity.st.nextPdcpTxSn = next % 4096 := by rw [hq.nextSn, hq.slot_eq]
  have hfree : ∀ x ∈ numbered, x.1 % 4096 ≠ next % 4096 := by
    intro x hx
    have := hq.below x hx
    have := hclose x hx
    omega
  rw [OrdMap.find?_insert, List.mem_append, List.mem_singleton]
  split
  · rename_i hplace
    constructor
    · intro heq
      cases heq
      exact ⟨hplace, .inr rfl⟩
    · rintro ⟨hplace', hmem | heq⟩
      · rw [hq.stored] at hmem
        obtain ⟨x, hx, heq⟩ := List.mem_map.mp hmem
        have hsn : x.1 % h.entity.cfg.snLen.nofSns = s.pdcpSn := congrArg Prod.fst heq
        rw [hplace, hslot, ← hsn, hq.slot_eq] at hplace'
        exact absurd hplace'.symm (hfree x hx)
      · obtain ⟨hsn, hbytes⟩ := Prod.mk.inj heq
        cases s
        simp only at hsn hbytes
        rw [hsn, hbytes]
  · rename_i hplace
    rw [hq.contents]
    constructor
    · rintro ⟨hplace', hmem⟩
      exact ⟨hplace', .inl hmem⟩
    · rintro ⟨hplace', hmem | heq⟩
      · exact ⟨hplace', hmem⟩
      · have hsn : s.pdcpSn = h.entity.st.nextPdcpTxSn := congrArg Prod.fst heq
        exact absurd (hsn ▸ hplace') hplace

/-- FMS stays the SN of the first SDU when one is stored behind the others. -/
theorem QueueAt.fms_addSdu (hq : QueueAt h numbered next) {q : UndeliveredSdus}
    (hfms : q.fms = if h.entity.undeliveredSdus.isEmpty then h.entity.st.nextPdcpTxSn
      else h.entity.undeliveredSdus.fms) :
    ∀ x, (numbered ++ [(next, sdu)]).head? = some x →
      q.fms = x.1 % h.entity.cfg.snLen.nofSns := by
  intro x hx
  rw [hfms]
  cases numbered with
  | nil =>
    cases hx
    rw [if_pos (hq.isEmpty_iff.mpr hq.stored), hq.nextSn]
  | cons first rest =>
    cases hx
    have hne : ¬h.entity.undeliveredSdus.isEmpty = true := by
      rw [hq.isEmpty_iff, hq.stored]
      simp
    rw [if_neg hne]
    exact hq.fms_head

/-- An SDU is stored behind the others. -/
theorem QueueAt.append (hq : QueueAt h numbered next) {q : UndeliveredSdus} {entity : PdcpLte}
    (hadd : h.entity.undeliveredSdus.addSdu h.entity.st.nextPdcpTxSn sdu = some q)
    (hclose : ∀ x ∈ numbered, next ≤ x.1 + 2048) (hcfg : entity.cfg = h.entity.cfg)
    (hqueue : entity.undeliveredSdus = q)
    (hnext : entity.st.nextPdcpTxSn = (next + 1) % h.entity.cfg.snLen.nofSns) :
    QueueAt ⟨entity, h.stored ++ [(h.entity.st.nextPdcpTxSn, sdu)]⟩ (numbered ++ [(next, sdu)])
      (next + 1) := by
  obtain ⟨-, hcount, hbytes, hsdus, hfms⟩ := addSdu_eq_some hadd
  have hstored : h.stored ++ [(h.entity.st.nextPdcpTxSn, sdu)] =
      (numbered ++ [(next, sdu)]).map fun x => (x.1 % h.entity.cfg.snLen.nofSns, x.2) := by
    rw [hq.stored, hq.nextSn, List.map_append]
    rfl
  have hfirst := @QueueAt.fms_addSdu h numbered next sdu hq q hfms
  have hsorted : (numbered ++ [(next, sdu)]).Pairwise fun x y => x.1 < y.1 := by
    rw [List.pairwise_append]
    refine ⟨hq.sorted, List.pairwise_singleton _ _, fun x hx y hy => ?_⟩
    rw [List.mem_singleton.mp hy]
    exact hq.below x hx
  have hbelow : ∀ x ∈ numbered ++ [(next, sdu)], x.1 < next + 1 := fun x hx => by
    rcases List.mem_append.mp hx with hx | hx
    · exact Nat.lt_succ_of_lt (hq.below x hx)
    · rw [List.mem_singleton.mp hx]
      exact Nat.lt_succ_self next
  have hnear : ∀ x ∈ numbered ++ [(next, sdu)], next + 1 ≤ x.1 + 2049 := fun x hx => by
    rcases List.mem_append.mp hx with hx | hx
    · have := hclose x hx
      omega
    · rw [List.mem_singleton.mp hx]
      show next + 1 ≤ next + 2049
      omega
  exact {
    count := by
      show entity.undeliveredSdus.count = _
      rw [hqueue, hcount, hq.count, List.length_append]
      rfl
    bytes := by
      show entity.undeliveredSdus.bytes = _
      rw [hqueue, hbytes, hq.bytes, List.map_append, List.sum_append]
      simp
    contents := fun place s => by
      show entity.undeliveredSdus.sdus.find? place = some s ↔ _
      rw [hqueue, hsdus]
      exact hq.find?_insert_iff hclose place s
    oldest := fun x hx => by
      show entity.undeliveredSdus.fms = x.1
      replace hx : (h.stored ++ [(h.entity.st.nextPdcpTxSn, sdu)]).head? = some x := hx
      rw [hstored, List.head?_map] at hx
      obtain ⟨y, hy, rfl⟩ := Option.map_eq_some_iff.mp hx
      rw [hqueue]
      exact hfirst y hy
    window := fun x hx => by
      show (x.1 + entity.cfg.snLen.nofSns - entity.undeliveredSdus.fms) % entity.cfg.snLen.nofSns
        < 2049
      replace hx : x ∈ h.stored ++ [(h.entity.st.nextPdcpTxSn, sdu)] := hx
      rw [hstored] at hx
      obtain ⟨y, hy, rfl⟩ := List.mem_map.mp hx
      rw [hcfg, hqueue]
      exact window_of_sorted hq.nofSns hsorted hbelow hnear hfirst y hy
    drb := by
      show entity.cfg.isAmDrb = true
      rw [hcfg, hq.drb]
    snLen := by
      show entity.cfg.snLen = _ ∨ entity.cfg.snLen = _
      rw [hcfg]
      exact hq.snLen
    stored := by
      show h.stored ++ _ = _
      rw [hstored, hcfg]
    sorted := hsorted
    below := hbelow
    near := hnear
    nextSn := by
      show entity.st.nextPdcpTxSn = _
      rw [hnext, hcfg] }

theorem nextPdcpTxSn_advanceTx (hq : QueueAt h numbered next) :
    h.entity.advanceTx.st.nextPdcpTxSn = (next + 1) % h.entity.cfg.snLen.nofSns := by
  have hnext := hq.nextSn
  unfold advanceTx LteConfig.maximumPdcpSn
  dsimp only
  rcases hq.nofSns with hnof | hnof
  · rw [hnof] at hnext ⊢
    split
    · show 0 = _
      omega
    · show h.entity.st.nextPdcpTxSn + 1 = _
      omega
  · rw [hnof] at hnext ⊢
    split
    · show 0 = _
      omega
    · show h.entity.st.nextPdcpTxSn + 1 = _
      omega

theorem writeSdu_eq (sec : Security) (s : PdcpLte) (rlc : RlcStatus) (sdu : Bytes) :
    s.writeSdu sec rlc sdu none = (s, none) ∨
      s.active = true ∧ rlc.suspended = false ∧ rlc.sduQueueIsFull = false ∧
      ∃ q, s.storedSdus s.st.nextPdcpTxSn sdu = some q ∧ s.writeSdu sec rlc sdu none =
        ((s.sendSdu sec q sdu none).1, some (s.sendSdu sec q sdu none).2) := by
  unfold writeSdu
  split
  · exact .inl rfl
  · rename_i htakes
    simp only [Bool.or_eq_true, Bool.not_eq_true', not_or, Bool.not_eq_false, Bool.not_eq_true]
      at htakes
    obtain ⟨⟨hactive, hsuspended⟩, hfull⟩ := htakes
    show _ ∨ _ ∧ _ ∧ _ ∧ ∃ q, s.storedSdus s.st.nextPdcpTxSn sdu = some q ∧ _
    cases hstore : s.storedSdus s.st.nextPdcpTxSn sdu with
    | none =>
      refine .inl ?_
      have hused : s.storedSdus (s.usedSn none) sdu = none := hstore
      rw [hused]
    | some q =>
      refine .inr ⟨hactive, hsuspended, hfull, q, rfl, ?_⟩
      have hused : s.storedSdus (s.usedSn none) sdu = some q := hstore
      rw [hused]

/-- A call of `write_sdu` keeps the invariant. -/
theorem queueAt_write {sec : Security} {rlc : RlcStatus} {h' : TxHistory} {u : Unit}
    (hq : QueueAt h numbered next) (hfits : QueueFits h (.write rlc sdu))
    (hstep : queueStep sec h (.write rlc sdu) = some (h', u)) :
    ∃ numbered' next', QueueAt h' numbered' next' := by
  rw [queueStep] at hstep
  rcases writeSdu_eq sec h.entity rlc sdu with heq | ⟨hactive, hsuspended, hfull, q, hstore, heq⟩
  · rw [heq] at hstep
    cases hstep
    exact ⟨numbered, next, hq⟩
  · rw [heq] at hstep
    cases hstep
    have hclose := hq.near_of_stored hstore fun hlen => hfits hlen hactive hsuspended hfull
    refine ⟨_, _, hq.append (hq.storeSdu_eq_some hstore).1 hclose (cfg_sendSdu ..)
      (undeliveredSdus_sendSdu ..) ?_⟩
    rw [st_sendSdu_none]
    exact nextPdcpTxSn_advanceTx hq

/-- SDUs with increasing numbers are not more than the numbers there are. -/
theorem length_le_of_sorted {l : List (Nat × Bytes)} {a b : Nat}
    (hsorted : l.Pairwise fun x y => x.1 < y.1) (hmem : ∀ x ∈ l, a ≤ x.1 ∧ x.1 < b) :
    l.length ≤ b - a := by
  induction l generalizing a with
  | nil => exact Nat.zero_le _
  | cons x xs ih =>
    have hx := hmem x List.mem_cons_self
    have hxs := @ih (x.1 + 1) hsorted.of_cons fun y hy =>
      ⟨List.rel_of_pairwise_cons hsorted hy, (hmem y (List.mem_cons_of_mem x hy)).2⟩
    rw [List.length_cons]
    omega

/-- An SN that has wrapped and is too far away is stored. -/
theorem QueueAt.stored_of_far (hq : QueueAt h numbered next) (hlen : h.entity.cfg.snLen = .len18)
    (hne : h.stored ≠ [])
    (hwrapped : h.entity.st.nextPdcpTxSn < h.entity.undeliveredSdus.fms)
    (hfar : h.entity.undeliveredSdus.fms + 2048 < h.entity.st.nextPdcpTxSn + 2 ^ 18) :
    h.entity.st.nextPdcpTxSn + 2 ^ 18 = h.entity.undeliveredSdus.fms + 2049 ∧
      ∃ q, h.entity.storedSdus h.entity.st.nextPdcpTxSn sdu = some q := by
  have hnof : h.entity.cfg.snLen.nofSns = 262144 := by rw [hlen]; rfl
  have hnext := hq.nextSn
  have hslot := hq.slot_eq next
  cases numbered with
  | nil => exact absurd hq.stored hne
  | cons first rest =>
    have hempty : h.entity.undeliveredSdus.isEmpty = false := by
      rw [Bool.eq_false_iff]
      exact fun hempty => hne (hq.isEmpty_iff.mp hempty)
    have hfms : h.entity.undeliveredSdus.fms = first.1 % h.entity.cfg.snLen.nofSns := hq.fms_head
    have hbelow := hq.below first List.mem_cons_self
    have hnear := hq.near first List.mem_cons_self
    rw [hnof] at hnext hfms
    have hexact : h.entity.st.nextPdcpTxSn + 2 ^ 18 = h.entity.undeliveredSdus.fms + 2049 := by omega
    have habsent : h.entity.undeliveredSdus.hasSdu h.entity.st.nextPdcpTxSn = false := by
      rw [Bool.eq_false_iff]
      intro hhas
      obtain ⟨sdu, hmem⟩ := (hq.hasSdu_iff _).mp hhas
      rw [hq.stored] at hmem
      obtain ⟨x, hx, heq⟩ := List.mem_map.mp hmem
      have hsn : x.1 % h.entity.cfg.snLen.nofSns = h.entity.st.nextPdcpTxSn := congrArg Prod.fst heq
      rw [hnof, hnext] at hsn
      have := hq.below x hx
      have := hq.near x hx
      omega
    have hroom : h.entity.undeliveredSdus.isFull = false := by
      have hlength := length_le_of_sorted hq.sorted fun x hx =>
        ⟨Nat.sub_le_of_le_add (hq.near x hx), hq.below x hx⟩
      rw [isFull, decide_eq_false_iff_not, hq.count, hq.stored, List.length_map]
      show ¬_ ≥ 4096
      omega
    have hwide : h.entity.snInWindow h.entity.st.nextPdcpTxSn = true := by
      unfold snInWindow LteConfig.maximumAllocatedSnsWindow
      rw [hnof]
      simp only [Bool.not_eq_true', Bool.or_eq_false_iff, Bool.and_eq_false_iff,
        decide_eq_false_iff_not]
      omega
    have hnarrow : h.entity.undeliveredSdus.inWindow h.entity.st.nextPdcpTxSn = true := by
      unfold inWindow capacity
      simp only [Bool.not_eq_true', Bool.or_eq_false_iff, Bool.and_eq_false_iff,
        decide_eq_false_iff_not]
      omega
    have hadd : ∃ q, h.entity.undeliveredSdus.addSdu h.entity.st.nextPdcpTxSn sdu = some q := by
      rw [addSdu, hroom, hempty, hnarrow]
      exact ⟨_, rfl⟩
    obtain ⟨q, hadd⟩ := hadd
    refine ⟨hexact, q, ?_⟩
    rw [storedSdus, hq.drb, if_pos rfl, storeSdu, habsent, hroom, hempty, hwide]
    exact hadd

/-- An SDU that is stored too far away is outside of the window. -/
theorem fits_of_write {sec : Security} {rlc : RlcStatus} {h' : TxHistory} {u : Unit}
    (hq : QueueAt h numbered next) (hstep : queueStep sec h (.write rlc sdu) = some (h', u))
    (hl : Lawful h') : QueueFits h (.write rlc sdu) := by
  intro hlen hactive hsuspended hfull hne hwrapped
  by_contra hfar
  obtain ⟨hexact, q, hstore⟩ := @QueueAt.stored_of_far h numbered next sdu hq hlen hne hwrapped
    (by omega)
  rw [queueStep] at hstep
  rcases writeSdu_eq sec h.entity rlc sdu with heq | ⟨-, -, -, q', hstore', heq⟩
  · have hsent : (h.entity.writeSdu sec rlc sdu none).2.isSome = true := by
      unfold writeSdu
      rw [hactive, hsuspended, hfull]
      have hused : h.entity.storedSdus (h.entity.usedSn none) sdu = some q := hstore
      rw [hused]
      rfl
    rw [heq] at hsent
    cases hsent
  · rw [heq] at hstep
    cases hstep
    obtain ⟨-, -, -, -, hfms⟩ := addSdu_eq_some (hq.storeSdu_eq_some hstore').1
    have hempty : ¬h.entity.undeliveredSdus.isEmpty = true := fun hempty =>
      hne (hq.isEmpty_iff.mp hempty)
    rw [if_neg hempty] at hfms
    have hwindow := hl.window (h.entity.st.nextPdcpTxSn, sdu)
      (List.mem_append_right _ (List.mem_singleton_self _))
    have hnof : h.entity.cfg.snLen.nofSns = 262144 := by rw [hlen]; rfl
    replace hwindow : (h.entity.st.nextPdcpTxSn +
        (h.entity.sendSdu sec q' sdu none).1.cfg.snLen.nofSns -
        (h.entity.sendSdu sec q' sdu none).1.undeliveredSdus.fms) %
        (h.entity.sendSdu sec q' sdu none).1.cfg.snLen.nofSns < 2049 := hwindow
    rw [cfg_sendSdu, undeliveredSdus_sendSdu, hnof, hfms] at hwindow
    omega

end Write

/-! ### Calls of the entity -/

section Runs

variable {sec : Security} {outOfRange : UInt8 → Bool} {h : TxHistory}

/-- The removal of some SNs, one after the other. -/
theorem run_clears (sec : Security) (sns : List Nat) (h : TxHistory) :
    ∃ h' us, run (queueStep sec) h (sns.map .clear) = some (h', us) ∧
      h'.entity = { h.entity with undeliveredSdus := h.entity.undeliveredSdus.clearAll sns } := by
  induction sns generalizing h with
  | nil => exact ⟨h, [], rfl, rfl⟩
  | cons sn sns ih =>
    obtain ⟨h', us, hrun, hentity⟩ := ih (h.clear sn)
    exact ⟨h', () :: us, run_cons_eq_some.mpr ⟨_, _, us, rfl, hrun, rfl⟩, hentity⟩

/-- What the entity does. -/
def QueueOp.apply (sec : Security) (outOfRange : UInt8 → Bool) (s : PdcpLte) : QueueOp → PdcpLte
  | .write rlc sdu => (s.writeSdu sec rlc sdu none).1
  | .notify pdcpSns => s.notify pdcpSns
  | .discard sn => s.discard sn
  | .statusReport pdu => s.handleStatusReportPdu outOfRange pdu

theorem exec_calls (hdrb : h.entity.cfg.isAmDrb = true) (op : QueueOp) :
    ∃ h' us, run (queueStep sec) h (op.calls outOfRange h.entity.cfg.snLen) = some (h', us) ∧
      h'.entity = op.apply sec outOfRange h.entity := by
  cases op with
  | write rlc sdu => exact ⟨_, _, rfl, rfl⟩
  | discard sn => exact ⟨_, _, rfl, rfl⟩
  | notify pdcpSns =>
    obtain ⟨h', us, hrun, hentity⟩ := run_clears sec (pdcpSns.filter fun sn => sn != 2 ^ 32 - 1) h
    refine ⟨h', us, hrun, hentity.trans ?_⟩
    have htype : h.entity.cfg.rbType = .drb := by
      rw [LteConfig.isAmDrb, Bool.and_eq_true, beq_iff_eq] at hdrb
      exact hdrb.2
    exact (if_pos htype).symm
  | statusReport pdu =>
    show ∃ h' us, run (queueStep sec) h (match readFms h.entity.cfg.snLen pdu with
      | none => []
      | some (fms, bitmapOffset) =>
        (reportedSns outOfRange fms (pdu.drop bitmapOffset)).map .clear) = some (h', us) ∧
      h'.entity = h.entity.handleStatusReportPdu outOfRange pdu
    rw [handleStatusReportPdu, hdrb]
    cases hfms : readFms h.entity.cfg.snLen pdu with
    | none => exact ⟨h, [], rfl, rfl⟩
    | some found =>
      obtain ⟨fms, bitmapOffset⟩ := found
      obtain ⟨h', us, hrun, hentity⟩ :=
        run_clears sec (reportedSns outOfRange fms (pdu.drop bitmapOffset)) h
      exact ⟨h', us, hrun, hentity⟩

theorem run_queueStep_eq_some (sec : Security) (calls : List QueueCall) (h : TxHistory) :
    ∃ h' us, run (queueStep sec) h calls = some (h', us) := by
  induction calls generalizing h with
  | nil => exact ⟨h, [], rfl⟩
  | cons call calls ih =>
    have hstep : ∃ h₁, queueStep sec h call = some (h₁, ()) := by
      cases call <;> exact ⟨_, rfl⟩
    obtain ⟨h₁, hstep⟩ := hstep
    obtain ⟨h', us, hrun⟩ := ih h₁
    exact ⟨h', () :: us, run_cons_eq_some.mpr ⟨h₁, (), us, hstep, hrun, rfl⟩⟩

/-- An AM DRB with an empty queue. -/
structure EmptyQueue (s : PdcpLte) : Prop where
  drb : s.cfg.isAmDrb = true
  snLen : s.cfg.snLen = .len12 ∨ s.cfg.snLen = .len18
  empty : s.undeliveredSdus = .init
  nextSn : s.st.nextPdcpTxSn < s.cfg.snLen.nofSns

theorem queueAt_start {s : PdcpLte} (hs : EmptyQueue s) :
    QueueAt ⟨s, []⟩ [] s.st.nextPdcpTxSn where
  count := by rw [hs.empty]; rfl
  bytes := by rw [hs.empty]; rfl
  contents := fun place sdu => by simp [hs.empty, UndeliveredSdus.init]
  oldest := nofun
  window := nofun
  drb := hs.drb
  snLen := hs.snLen
  stored := rfl
  sorted := .nil
  below := nofun
  near := nofun
  nextSn := (Nat.mod_eq_of_lt hs.nextSn).symm

/-- The queue is what it has to be after each call exactly when each call fits. -/
theorem lawful_iff_fits (sec : Security) (outOfRange : UInt8 → Bool) {s : PdcpLte} (hs : EmptyQueue s)
    (ops : List QueueOp) :
    AlongRun (queueStep sec) Lawful ⟨s, []⟩ (ops.flatMap (·.calls outOfRange s.cfg.snLen)) ↔
      StepsWithin (queueStep sec) QueueFits ⟨s, []⟩
        (ops.flatMap (·.calls outOfRange s.cfg.snLen)) := by
  obtain ⟨h', us, hrun⟩ := run_queueStep_eq_some sec
    (ops.flatMap (·.calls outOfRange s.cfg.snLen)) ⟨s, []⟩
  refine alongRun_iff_within_of_inv (fun h => ∃ numbered next, QueueAt h numbered next) Lawful ?_ ?_ ?_
    _ _ _ _ ⟨[], _, queueAt_start hs⟩ hrun
  · rintro h ⟨numbered, next, hq⟩
    exact hq.toLawful
  · rintro h call h' u ⟨numbered, next, hq⟩ hfits hstep
    cases call with
    | write rlc sdu => exact queueAt_write hq hfits hstep
    | clear sn =>
      cases hstep
      obtain ⟨numbered', hq'⟩ := queueAt_clear hq hfits
      exact ⟨numbered', next, hq'⟩
  · rintro h call h' u ⟨numbered, next, hq⟩ hstep hl
    cases call with
    | write rlc sdu => exact fits_of_write hq hstep hl
    | clear sn =>
      cases hstep
      exact fits_of_clear hq hl

theorem QueueAt.fits_len12 {numbered : List (Nat × Bytes)} {next : Nat} (hq : QueueAt h numbered next)
    (hlen : h.entity.cfg.snLen = .len12) (call : QueueCall) : QueueFits h call := by
  cases call with
  | write rlc sdu =>
    intro hlen'
    rw [hlen] at hlen'
    cases hlen'
  | clear sn =>
    intro sdu x rest hstored
    have hmem : x ∈ h.stored := hstored ▸ List.mem_cons_of_mem _ List.mem_cons_self
    rw [hq.stored] at hmem
    obtain ⟨y, -, rfl⟩ := List.mem_map.mp hmem
    rw [hlen]
    exact Nat.mod_lt _ (by decide)

theorem cfg_queueStep {call : QueueCall} {h' : TxHistory} {u : Unit}
    (hstep : queueStep sec h call = some (h', u)) : h'.entity.cfg = h.entity.cfg := by
  cases call with
  | clear sn =>
    cases hstep
    rfl
  | write rlc sdu =>
    rw [queueStep] at hstep
    rcases writeSdu_eq sec h.entity rlc sdu with heq | ⟨-, -, -, q, -, heq⟩
    · rw [heq] at hstep
      cases hstep
      rfl
    · rw [heq] at hstep
      cases hstep
      exact cfg_sendSdu sec h.entity q sdu none

/-- With SNs of 12 bits the queue is always what it has to be. -/
theorem lawful_len12 (sec : Security) {s : PdcpLte} (hs : EmptyQueue s) (hlen : s.cfg.snLen = .len12)
    (calls : List QueueCall) : AlongRun (queueStep sec) Lawful ⟨s, []⟩ calls := by
  have hkeep : ∀ h call h' u,
      (h.entity.cfg.snLen = .len12 ∧ ∃ numbered next, QueueAt h numbered next) → True →
      queueStep sec h call = some (h', u) →
      h'.entity.cfg.snLen = .len12 ∧ ∃ numbered next, QueueAt h' numbered next := by
    rintro h call h' u ⟨hlen, numbered, next, hq⟩ - hstep
    refine ⟨by rw [cfg_queueStep hstep, hlen], ?_⟩
    have hfits := hq.fits_len12 hlen call
    cases call with
    | write rlc sdu => exact queueAt_write hq hfits hstep
    | clear sn =>
      cases hstep
      obtain ⟨numbered', hq'⟩ := queueAt_clear hq hfits
      exact ⟨numbered', next, hq'⟩
  have hwithin : StepsWithin (queueStep sec) (fun _ _ => True) ⟨s, []⟩ calls :=
    stepsWithin_of_forall (fun _ _ _ => trivial) _
  intro pre post heq t us hrun
  have halong := alongRun_of_within
    (fun h : TxHistory => h.entity.cfg.snLen = .len12 ∧ ∃ numbered next, QueueAt h numbered next) hkeep
    ⟨hlen, [], _, queueAt_start hs⟩ hwithin
  obtain ⟨-, numbered, next, hq⟩ := halong pre post heq t us hrun
  exact hq.toLawful

end Runs

/-- An AM DRB with SNs of 18 bits whose next SN is 4095. -/
def longSnDrb : PdcpLte := (init ⟨.len18, .drb, false, 0, true⟩).setBearerState ⟨4095, 0, 0, 0, 0⟩ false

/-- The RLC takes SDUs. -/
def readyRlc : RlcStatus := ⟨false, false⟩

theorem lawful_len12_write : AlongRun (queueStep .none) Lawful
    ⟨{ longSnDrb with cfg := { longSnDrb.cfg with snLen := .len12 } }, []⟩ [.write readyRlc [1]] :=
  lawful_len12 .none ⟨rfl, .inl rfl, rfl, by decide⟩ rfl _

theorem lawful_iff_fits_longSn :
    AlongRun (queueStep .none) Lawful ⟨longSnDrb, []⟩
        (([.write readyRlc [1], .notify [4095]] : List QueueOp).flatMap
          (·.calls (fun _ => false) .len18)) ↔
      StepsWithin (queueStep .none) QueueFits ⟨longSnDrb, []⟩
        (([.write readyRlc [1], .notify [4095]] : List QueueOp).flatMap
          (·.calls (fun _ => false) .len18)) :=
  lawful_iff_fits .none (fun _ => false) ⟨rfl, .inr rfl, rfl, by decide⟩ _

/-- The SDU with SN 4095 is delivered, and FMS becomes 0, while the SDU that is left has SN 4096. -/
theorem not_lawful_longSn : ∃ h' us,
    run (queueStep .none) ⟨longSnDrb, []⟩
        (([.write readyRlc [1], .write readyRlc [2], .notify [4095]] : List QueueOp).flatMap
          (·.calls (fun _ => false) .len18)) = some (h', us) ∧
      h'.stored = [(4096, [2])] ∧ h'.entity.undeliveredSdus.fms = 0 ∧ ¬Lawful h' := by
  have hrun : (run (queueStep .none) ⟨longSnDrb, []⟩
      (([.write readyRlc [1], .write readyRlc [2], .notify [4095]] : List QueueOp).flatMap
        (·.calls (fun _ => false) .len18))).any (fun r =>
      decide (r.1.stored = [(4096, [2])]) && decide (r.1.entity.undeliveredSdus.fms = 0)) = true := by
    decide +kernel
  obtain ⟨⟨h', us⟩, hsome, hmem⟩ := (Option.any_eq_true _ _).mp hrun
  rw [Bool.and_eq_true, decide_eq_true_eq, decide_eq_true_eq] at hmem
  obtain ⟨hstored, hfms⟩ := hmem
  refine ⟨h', us, hsome, hstored, hfms, fun hl => ?_⟩
  have hoff := hl.oldest (4096, [2]) (by rw [hstored]; rfl)
  rw [hfms] at hoff
  cases hoff

end Odss.Pdcp.PdcpLte
