import Odss.Lib.Run
import Odss.Proofs.PdcpLteStatus

/-!
# `Odss.Proofs.PdcpRxCounts`: the COUNTs that an LTE receiver keeps

A history is a list of COUNTs, each larger than the ones before, with the status reports in between.
`Tracks` says what the queue of COUNTs has to be after it: the received COUNTs behind FMC, at most
as many as the reordering window has, with an FMC that was not received. No report may leave the
buffer.

`popReceived_cases` is the fact about the loop that moves FMC, and `tracked_update` the one about
`update_rx_counts_queue`. They need that FMC does not wrap. The size of the bitmap is the distance
of the largest COUNT from FMC, and a queue of few COUNTs can have a large one.

`tracks_iff_fits` says when a history keeps `Tracks`.
-/

set_option linter.all false

namespace Odss.Pdcp.PdcpLte

open Odss.Lib Odss.Rlc

/-- An entity, with the COUNTs it received and the outcomes of its status reports. -/
structure CountHistory where
  entity : PdcpLte
  received : List Nat
  reports : List StatusReport

/-- What happens to the entity. -/
inductive CountOp where
  | receive (count : Nat)
  | report
deriving DecidableEq

/-- A step. A COUNT is larger than the ones before. -/
def countStep (h : CountHistory) : CountOp → Option (CountHistory × Unit)
  | .receive count =>
    if count < 2 ^ 32 ∧ ∀ c ∈ h.received, c < count then
      some (⟨h.entity.updateRxCountsQueue count, h.received ++ [count], h.reports⟩, ())
    else none
  | .report => some ({ h with reports := h.reports ++ [h.entity.sendStatusReport] }, ())

/-- What the queue has to be, and that the reports stay inside the buffer. -/
structure Tracks (h : CountHistory) : Prop where
  descending : h.entity.rxCountsInfo.Pairwise (· > ·)
  contents : ∀ c, c ∈ h.entity.rxCountsInfo ↔ c ∈ h.received ∧ h.entity.fmc < c
  missing : h.entity.fmc ∉ h.received
  window : h.entity.rxCountsInfo.length ≤ h.entity.cfg.reorderingWindow
  inside : StatusReport.overflow ∉ h.reports

/-- The last COUNT of all makes FMC wrap when it is FMC itself, or when it is the one too many in a
queue of COUNTs in sequence. -/
def WrapsFmc (s : PdcpLte) (count : Nat) : Prop :=
  count = 2 ^ 32 - 1 ∧
    (s.fmc = count ∨ s.rxCountsInfo =
      (List.range' (count - s.cfg.reorderingWindow) s.cfg.reorderingWindow).reverse)

/-- The bitmap of a report has room behind the header. A difference that is negative as a number of 32
bits has no bitmap. -/
def BitmapFits (s : PdcpLte) : Prop :=
  s.cfg.isAmDrb = true → s.cfg.statusReportRequired = true → s.rxCountsInfo ≠ [] →
    (s.largestRxCount - s.fmc + 1) % 2 ^ 32 < 2 ^ 31 →
    (s.cfg.snLen = .len12 → s.largestRxCount - s.fmc + 1 ≤ 8 * 12235) ∧
    (s.cfg.snLen = .len18 → s.largestRxCount - s.fmc + 1 ≤ 8 * 12234)

/-- FMC does not wrap, and a report has room for its bitmap. -/
def CountFits (h : CountHistory) : CountOp → Prop
  | .receive count => ¬WrapsFmc h.entity count
  | .report => BitmapFits h.entity

/-- A DRB before the first COUNT. -/
structure Fresh (s : PdcpLte) : Prop where
  drb : s.cfg.rbType = .drb
  empty : s.rxCountsInfo = []
  fmc_lt : s.fmc < 2 ^ 32
  largest_le : s.largestRxCount ≤ s.fmc

/-- `Tracks`, with what it rests on. -/
structure Tracked (h : CountHistory) : Prop extends Tracks h where
  drb : h.entity.cfg.rbType = .drb
  fmc_lt : h.entity.fmc < 2 ^ 32
  largest_lt : h.entity.largestRxCount < 2 ^ 32
  largest : h.entity.largestRxCount ≤ h.entity.fmc ∨ h.entity.largestRxCount ∈ h.received
  le_largest : ∀ c ∈ h.received, h.entity.fmc < c → c ≤ h.entity.largestRxCount

theorem fresh_init {cfg : LteConfig} (h : cfg.rbType = .drb) : Fresh (init cfg) :=
  ⟨h, rfl, Nat.two_pow_pos 32, Nat.le_refl 0⟩

theorem tracked_start {s : PdcpLte} (h : Fresh s) : Tracked ⟨s, [], []⟩ where
  descending := by simp [h.empty]
  contents := by simp [h.empty]
  missing := List.not_mem_nil
  window := by simp [h.empty]
  inside := List.not_mem_nil
  drb := h.drb
  fmc_lt := h.fmc_lt
  largest_lt := Nat.lt_of_le_of_lt h.largest_le h.fmc_lt
  largest := .inl h.largest_le
  le_largest := nofun

/-! ### The loop that moves FMC -/

/-- The loop removes the COUNTs in front of a new FMC that is not in the queue, or all COUNTs up to
the last one there is. -/
theorem popReceived_cases {l : List Nat} {fmc : Nat} (hsorted : l.Pairwise (· < ·))
    (hge : ∀ c ∈ l, fmc ≤ c) (hlt : ∀ c ∈ l, c < 2 ^ 32) (hfmc : fmc < 2 ^ 32) :
    (fmc ≤ (popReceived l fmc).2 ∧ (popReceived l fmc).2 < 2 ^ 32 ∧ (popReceived l fmc).2 ∉ l ∧
      ∀ c, c ∈ (popReceived l fmc).1 ↔ c ∈ l ∧ (popReceived l fmc).2 < c) ∨
    (popReceived l fmc = ([], 0) ∧ ∀ c, fmc ≤ c → c < 2 ^ 32 → c ∈ l) := by
  induction l generalizing fmc with
  | nil => exact .inl ⟨Nat.le_refl _, hfmc, List.not_mem_nil, by simp [popReceived]⟩
  | cons c cs ih =>
    have hbehind : ∀ d ∈ cs, c < d := fun d hd => List.rel_of_pairwise_cons hsorted hd
    have hnextGe : ∀ d ∈ cs, c + 1 ≤ d := hbehind
    have hcs : ∀ d ∈ cs, d < 2 ^ 32 := fun d hd => hlt d (List.mem_cons_of_mem c hd)
    by_cases hc : c = fmc
    · subst hc
      simp only [popReceived, if_pos]
      rcases Nat.lt_or_ge (c + 1) (2 ^ 32) with hnext | hlast
      · rw [Nat.mod_eq_of_lt hnext]
        rcases ih hsorted.of_cons hnextGe hcs hnext with
          ⟨hle, hlt', hnot, hmem⟩ | ⟨hwrap, hall⟩
        · refine .inl ⟨by omega, hlt', ?_, fun d => ?_⟩
          · rw [List.mem_cons, not_or]
            exact ⟨by omega, hnot⟩
          · rw [hmem, List.mem_cons]
            constructor
            · rintro ⟨hd, hd'⟩
              exact ⟨.inr hd, hd'⟩
            · rintro ⟨rfl | hd, hd'⟩
              · omega
              · exact ⟨hd, hd'⟩
        · refine .inr ⟨hwrap, fun d hd hd' => ?_⟩
          rcases Nat.lt_or_eq_of_le hd with hd | rfl
          · exact List.mem_cons_of_mem c (hall d hd hd')
          · exact List.mem_cons_self
      · -- No COUNT is behind the last one.
        have hempty : cs = [] := List.eq_nil_iff_forall_not_mem.mpr fun d hd => by
          have := hbehind d hd
          have := hcs d hd
          omega
        have hzero : (c + 1) % 2 ^ 32 = 0 := by omega
        subst hempty
        rw [hzero]
        refine .inr ⟨rfl, fun d hd hd' => ?_⟩
        have : d = c := by omega
        simp [this]
    · simp only [popReceived, if_neg hc]
      have hlt' : fmc < c := Nat.lt_of_le_of_ne (hge c List.mem_cons_self) (Ne.symm hc)
      have hall : ∀ d ∈ c :: cs, fmc < d := by
        intro d hd
        rcases List.mem_cons.mp hd with rfl | hd
        · exact hlt'
        · exact Nat.lt_trans hlt' (hbehind d hd)
      exact .inl ⟨Nat.le_refl _, hfmc, fun hmem => Nat.lt_irrefl _ (hall fmc hmem),
        fun d => ⟨fun hd => ⟨hd, hall d hd⟩, fun hd => hd.1⟩⟩

theorem popReceived_sublist (l : List Nat) (fmc : Nat) : (popReceived l fmc).1.Sublist l := by
  induction l generalizing fmc with
  | nil => exact List.Sublist.refl _
  | cons c cs ih =>
    rw [popReceived]
    split
    · exact (ih _).cons c
    · exact List.Sublist.refl _

/-! ### A COUNT -/

/-- A COUNT that is larger than those of the queue comes in front. -/
theorem insertionSort_append {l : List Nat} {count : Nat} (hsorted : l.Pairwise (· > ·))
    (hnew : ∀ c ∈ l, c < count) : (l ++ [count]).insertionSort (· ≥ ·) = count :: l :=
  List.Perm.eq_of_pairwise' (List.pairwise_insertionSort (· ≥ ·) _)
    (List.pairwise_cons.mpr ⟨fun c hc => Nat.le_of_lt (hnew c hc), hsorted.imp Nat.le_of_lt⟩)
    ((List.perm_insertionSort (· ≥ ·) _).trans (List.perm_append_singleton count l))

/-- The queue after a COUNT behind FMC that is larger than those before. -/
theorem updateRxCountsQueue_of_lt {s : PdcpLte} {count : Nat} (hbehind : s.fmc < count)
    (hsorted : s.rxCountsInfo.Pairwise (· > ·)) (hnew : ∀ c ∈ s.rxCountsInfo, c < count) :
    s.updateRxCountsQueue count = shortenRxCounts
      { s with
        largestRxCount := max s.largestRxCount count
        rxCountsInfo := count :: s.rxCountsInfo } := by
  rw [updateRxCountsQueue, if_neg (by omega)]
  simp only [if_neg (Nat.ne_of_gt hbehind), insertionSort_append hsorted hnew]

/-- The queue is empty when FMC arrives after all other COUNTs. -/
theorem updateRxCountsQueue_fmc {s : PdcpLte} (hempty : s.rxCountsInfo = []) :
    s.updateRxCountsQueue s.fmc =
      { s with largestRxCount := max s.largestRxCount s.fmc, fmc := (s.fmc + 1) % 2 ^ 32 } := by
  cases s
  simp only at hempty
  subst hempty
  simp [updateRxCountsQueue, skipReceived, popReceived, shortenRxCounts]

variable {h : CountHistory} {count : Nat}

/-- The history with another COUNT. -/
def CountHistory.receive (h : CountHistory) (count : Nat) : CountHistory :=
  ⟨h.entity.updateRxCountsQueue count, h.received ++ [count], h.reports⟩

/-- A COUNT below FMC changes nothing. -/
theorem Tracked.receive_old (ht : Tracked h) (hold : count < h.entity.fmc) :
    Tracked (h.receive count) := by
  have hsame : (h.receive count).entity = h.entity := by
    show h.entity.updateRxCountsQueue count = h.entity
    rw [updateRxCountsQueue, if_pos hold]
  have hmem (c : Nat) : c ∈ h.received ++ [count] ∧ h.entity.fmc < c ↔
      c ∈ h.received ∧ h.entity.fmc < c := by
    rw [List.mem_append, List.mem_singleton]
    constructor
    · rintro ⟨hc | rfl, hlt⟩
      · exact ⟨hc, hlt⟩
      · omega
    · rintro ⟨hc, hlt⟩
      exact ⟨.inl hc, hlt⟩
  exact {
    descending := hsame ▸ ht.descending
    contents := fun c => by
      rw [hsame, ht.contents]
      exact (hmem c).symm
    missing := by
      rw [hsame]
      show h.entity.fmc ∉ h.received ++ [count]
      rw [List.mem_append, List.mem_singleton, not_or]
      exact ⟨ht.missing, by omega⟩
    window := hsame ▸ ht.window
    inside := ht.inside
    drb := hsame ▸ ht.drb
    fmc_lt := hsame ▸ ht.fmc_lt
    largest_lt := hsame ▸ ht.largest_lt
    largest := by
      rw [hsame]
      exact ht.largest.imp id fun hc => List.mem_append_left _ hc
    le_largest := fun c hc hlt => by
      rw [hsame] at hlt ⊢
      obtain ⟨hc', hlt'⟩ := (hmem c).mp ⟨hc, hlt⟩
      exact ht.le_largest c hc' hlt' }

theorem Tracked.max_largest (ht : Tracked h) (hnew : ∀ c ∈ h.received, c < count)
    (hge : h.entity.fmc ≤ count) : max h.entity.largestRxCount count = count := by
  rcases ht.largest with hle | hmem
  · omega
  · have := hnew _ hmem
    omega

theorem Tracked.receive_fmc_eq (ht : Tracked h) (hnew : ∀ c ∈ h.received, c < count)
    (hfmc : count = h.entity.fmc) :
    h.entity.rxCountsInfo = [] ∧ h.entity.updateRxCountsQueue count =
      { h.entity with largestRxCount := count, fmc := (count + 1) % 2 ^ 32 } := by
  have hempty : h.entity.rxCountsInfo = [] := List.eq_nil_iff_forall_not_mem.mpr fun c hc => by
    obtain ⟨hreceived, hlt⟩ := (ht.contents c).mp hc
    have := hnew c hreceived
    omega
  refine ⟨hempty, ?_⟩
  have hmax := ht.max_largest hnew (Nat.le_of_eq hfmc.symm)
  subst hfmc
  rw [updateRxCountsQueue_fmc hempty, hmax]

/-- FMC moves behind itself, unless it wraps. -/
theorem Tracked.receive_fmc (ht : Tracked h) (hnew : ∀ c ∈ h.received, c < count)
    (hfmc : count = h.entity.fmc) (hlast : count ≠ 2 ^ 32 - 1) : Tracked (h.receive count) := by
  obtain ⟨hempty, heq⟩ := ht.receive_fmc_eq hnew hfmc
  have hlt := ht.fmc_lt
  have hnext : (count + 1) % 2 ^ 32 = count + 1 := Nat.mod_eq_of_lt (by omega)
  have hle : ∀ c ∈ h.received ++ [count], c ≤ count := by
    intro c hc
    rcases List.mem_append.mp hc with hc | hc
    · exact Nat.le_of_lt (hnew c hc)
    · exact Nat.le_of_eq (List.mem_singleton.mp hc)
  rw [hnext] at heq
  have hentity : (h.receive count).entity =
      { h.entity with largestRxCount := count, fmc := count + 1 } := heq
  exact {
    descending := by simp [hentity, hempty]
    contents := fun c => by
      rw [hentity, hempty]
      refine ⟨nofun, fun ⟨hc, hlt⟩ => ?_⟩
      have : count + 1 < c := hlt
      have := hle c hc
      omega
    missing := by
      rw [hentity]
      intro hmem
      exact absurd (hle _ hmem) (Nat.not_succ_le_self count)
    window := by simp [hentity, hempty]
    inside := ht.inside
    drb := hentity ▸ ht.drb
    fmc_lt := by
      rw [hentity]
      show count + 1 < 2 ^ 32
      omega
    largest_lt := by
      rw [hentity]
      exact Nat.lt_of_le_of_lt (Nat.le_of_eq hfmc) hlt
    largest := .inl (hentity ▸ Nat.le_succ count)
    le_largest := fun c hc _ => by
      rw [hentity]
      exact hle c hc }

/-- The entity with a COUNT behind FMC in the queue, before the queue is made shorter. -/
def pushed (s : PdcpLte) (count : Nat) : PdcpLte :=
  { s with largestRxCount := count, rxCountsInfo := count :: s.rxCountsInfo }

/-- The queue has a new COUNT in front. -/
theorem Tracked.receive_behind_eq (ht : Tracked h) (hnew : ∀ c ∈ h.received, c < count)
    (hbehind : h.entity.fmc < count) :
    h.entity.updateRxCountsQueue count = (pushed h.entity count).shortenRxCounts := by
  rw [updateRxCountsQueue_of_lt hbehind ht.descending fun c hc => hnew c ((ht.contents c).mp hc).1,
    ht.max_largest hnew (Nat.le_of_lt hbehind)]
  rfl

theorem Tracked.pushed_descending (ht : Tracked h) (hnew : ∀ c ∈ h.received, c < count) :
    (pushed h.entity count).rxCountsInfo.Pairwise (· > ·) :=
  List.pairwise_cons.mpr ⟨fun c hc => hnew c ((ht.contents c).mp hc).1, ht.descending⟩

/-- The queue with the new COUNT has what it has to have, for the same FMC. -/
theorem Tracked.mem_pushed (ht : Tracked h) (hbehind : h.entity.fmc < count) (c : Nat) :
    c ∈ (pushed h.entity count).rxCountsInfo ↔ c ∈ h.received ++ [count] ∧ h.entity.fmc < c := by
  show c ∈ count :: h.entity.rxCountsInfo ↔ _
  rw [List.mem_cons, ht.contents, List.mem_append, List.mem_singleton]
  constructor
  · rintro (rfl | ⟨hc, hlt⟩)
    · exact ⟨.inr rfl, hbehind⟩
    · exact ⟨.inl hc, hlt⟩
  · rintro ⟨hc | rfl, hlt⟩
    · exact .inr ⟨hc, hlt⟩
    · exact .inl rfl

theorem Tracked.pushed_lt (ht : Tracked h) (hnew : ∀ c ∈ h.received, c < count)
    (hlt : count < 2 ^ 32) : ∀ c ∈ (pushed h.entity count).rxCountsInfo, c < 2 ^ 32 := by
  intro c hc
  rcases List.mem_cons.mp hc with rfl | hc
  · exact hlt
  · exact Nat.lt_trans (hnew c ((ht.contents c).mp hc).1) hlt

/-- A history is tracked after a COUNT behind FMC, if its queue is what it has to be. -/
theorem Tracked.receive_of_queue (ht : Tracked h) (hnew : ∀ c ∈ h.received, c < count)
    (hlt : count < 2 ^ 32) {queue : List Nat} {fmc : Nat}
    (hentity : h.entity.updateRxCountsQueue count =
      { pushed h.entity count with rxCountsInfo := queue, fmc := fmc })
    (hsorted : queue.Pairwise (· > ·))
    (hcontents : ∀ c, c ∈ queue ↔ c ∈ h.received ++ [count] ∧ fmc < c)
    (hmissing : fmc ∉ h.received ++ [count]) (hfmc : fmc < 2 ^ 32)
    (hwindow : queue.length ≤ h.entity.cfg.reorderingWindow) : Tracked (h.receive count) := by
  have heq : (h.receive count).entity =
      { pushed h.entity count with rxCountsInfo := queue, fmc := fmc } := hentity
  exact {
    descending := by
      rw [heq]
      exact hsorted
    contents := by
      rw [heq]
      exact hcontents
    missing := by
      rw [heq]
      exact hmissing
    window := by
      rw [heq]
      exact hwindow
    inside := ht.inside
    drb := by
      rw [heq]
      exact ht.drb
    fmc_lt := by
      rw [heq]
      exact hfmc
    largest_lt := by
      rw [heq]
      exact hlt
    largest := by
      rw [heq]
      exact .inr (List.mem_append_right _ (List.mem_singleton_self count))
    le_largest := by
      intro c hc _
      rw [heq]
      rcases List.mem_append.mp hc with hc | hc
      · exact Nat.le_of_lt (hnew c hc)
      · exact Nat.le_of_eq (List.mem_singleton.mp hc) }

theorem Tracked.receive_room (ht : Tracked h) (hnew : ∀ c ∈ h.received, c < count)
    (hlt : count < 2 ^ 32) (hbehind : h.entity.fmc < count)
    (hroom : h.entity.rxCountsInfo.length < h.entity.cfg.reorderingWindow) :
    Tracked (h.receive count) := by
  have hshort : (pushed h.entity count).shortenRxCounts = pushed h.entity count :=
    if_neg (Nat.not_lt.mpr hroom)
  refine ht.receive_of_queue hnew hlt ((ht.receive_behind_eq hnew hbehind).trans hshort)
    (ht.pushed_descending hnew) (ht.mem_pushed hbehind) ?_ ht.fmc_lt hroom
  rw [List.mem_append, List.mem_singleton, not_or]
  exact ⟨ht.missing, Nat.ne_of_lt hbehind⟩

/-- A queue that is too long is taken from its smallest COUNT on. -/
theorem shortenRxCounts_of_full {s : PdcpLte} (hsorted : s.rxCountsInfo.Pairwise (· > ·))
    (hfull : s.cfg.reorderingWindow < s.rxCountsInfo.length) :
    ∃ last ∈ s.rxCountsInfo, (∀ c ∈ s.rxCountsInfo, last ≤ c) ∧
      s.shortenRxCounts = s.skipReceived last := by
  cases hlast : s.rxCountsInfo.getLast? with
  | none =>
    rw [List.getLast?_eq_none_iff.mp hlast] at hfull
    exact absurd hfull (Nat.not_lt_zero _)
  | some last =>
    obtain ⟨front, hfront⟩ := List.getLast?_eq_some_iff.mp hlast
    rw [hfront, List.pairwise_append] at hsorted
    refine ⟨last, by simp [hfront], fun c hc => ?_, ?_⟩
    · rw [hfront, List.mem_append, List.mem_singleton] at hc
      rcases hc with hc | rfl
      · exact Nat.le_of_lt (hsorted.2.2 c hc last (List.mem_singleton_self _))
      · exact Nat.le_refl _
    · rw [shortenRxCounts, if_pos hfull, hlast, Option.getD_some]

/-- What becomes of a full queue: it is shortened behind a new FMC, or FMC wraps. -/
theorem Tracked.receive_full (ht : Tracked h) (hnew : ∀ c ∈ h.received, c < count)
    (hlt : count < 2 ^ 32) (hbehind : h.entity.fmc < count)
    (hfull : h.entity.rxCountsInfo.length = h.entity.cfg.reorderingWindow) :
    (Tracked (h.receive count) ∧ ∃ d, d ∉ (pushed h.entity count).rxCountsInfo ∧ d < 2 ^ 32 ∧
      ∃ last ∈ (pushed h.entity count).rxCountsInfo, last ≤ d) ∨
    ((h.receive count).entity.rxCountsInfo = [] ∧ (h.receive count).entity.fmc = 0 ∧
      ∃ last ∈ (pushed h.entity count).rxCountsInfo, ∀ c,
        c ∈ (pushed h.entity count).rxCountsInfo ↔ last ≤ c ∧ c < 2 ^ 32) := by
  have hsorted := ht.pushed_descending hnew
  have hpushedLt := ht.pushed_lt hnew hlt
  have hlong : h.entity.cfg.reorderingWindow < (pushed h.entity count).rxCountsInfo.length := by
    show _ < h.entity.rxCountsInfo.length + 1
    omega
  obtain ⟨last, hlast, hle, hshort⟩ := shortenRxCounts_of_full hsorted hlong
  have hentity : (h.receive count).entity = (pushed h.entity count).skipReceived last :=
    (ht.receive_behind_eq hnew hbehind).trans hshort
  have hfmcLast := ((ht.mem_pushed hbehind last).mp hlast).2
  rcases popReceived_cases (List.pairwise_reverse.mpr hsorted)
    (fun c hc => hle c (List.mem_reverse.mp hc)) (fun c hc => hpushedLt c (List.mem_reverse.mp hc))
    (hpushedLt last hlast) with ⟨hge, hlt', hnot, hmem⟩ | ⟨hwrap, hall⟩
  · -- The smallest COUNT is gone, so the queue is not too long.
    rw [List.mem_reverse] at hnot
    refine .inl ⟨ht.receive_of_queue hnew hlt hentity ?_ (fun c => ?_) ?_ hlt' ?_,
      _, hnot, hlt', last, hlast, hge⟩
    · exact List.pairwise_reverse.mpr ((List.pairwise_reverse.mpr hsorted).sublist
        (popReceived_sublist _ _))
    · rw [List.mem_reverse, hmem, List.mem_reverse, ht.mem_pushed hbehind]
      constructor
      · rintro ⟨⟨hc, -⟩, hlt⟩
        exact ⟨hc, hlt⟩
      · rintro ⟨hc, hlt⟩
        exact ⟨⟨hc, by omega⟩, hlt⟩
    · intro hreceived
      exact hnot ((ht.mem_pushed hbehind _).mpr ⟨hreceived, by omega⟩)
    · have hsub := popReceived_sublist (pushed h.entity count).rxCountsInfo.reverse last
      have hne : (popReceived (pushed h.entity count).rxCountsInfo.reverse last).1.length ≠
          (pushed h.entity count).rxCountsInfo.reverse.length := by
        intro heq
        have hmem' := (hmem last).mp ((hsub.eq_of_length heq).symm ▸ List.mem_reverse.mpr hlast)
        omega
      have hlength := hsub.length_le
      rw [List.length_reverse] at hne hlength ⊢
      have : (pushed h.entity count).rxCountsInfo.length = h.entity.rxCountsInfo.length + 1 := rfl
      omega
  · refine .inr ⟨?_, ?_, last, hlast, fun c => ⟨fun hc => ⟨hle c hc, hpushedLt c hc⟩, fun hc => ?_⟩⟩
    · rw [hentity]
      simp only [skipReceived, hwrap, List.reverse_nil]
    · rw [hentity]
      simp only [skipReceived, hwrap]
    · exact List.mem_reverse.mp (hall c hc.1 hc.2)

/-- A queue of all COUNTs from one on is the window in front of the last COUNT. -/
theorem Tracked.wrapsFmc (ht : Tracked h) (hnew : ∀ c ∈ h.received, c < count) (hlt : count < 2 ^ 32)
    (hfull : h.entity.rxCountsInfo.length = h.entity.cfg.reorderingWindow) {last : Nat}
    (hlast : last < 2 ^ 32)
    (hall : ∀ c, c ∈ (pushed h.entity count).rxCountsInfo ↔ last ≤ c ∧ c < 2 ^ 32) :
    WrapsFmc h.entity count := by
  have hrange : (pushed h.entity count).rxCountsInfo = (List.range' last (2 ^ 32 - last)).reverse :=
    (ht.pushed_descending hnew).eq_of_mem_iff
      (List.pairwise_reverse.mpr List.pairwise_lt_range') fun c => by
        rw [hall, List.mem_reverse, List.mem_range'_1]
        omega
  have hsize : 2 ^ 32 - last = 2 ^ 32 - 1 - last + 1 := by omega
  rw [hsize, List.range'_1_concat, List.reverse_append, List.reverse_singleton,
    List.singleton_append] at hrange
  obtain ⟨hcount, hqueue⟩ := List.cons_eq_cons.mp hrange
  have hlength := congrArg List.length hqueue
  rw [hfull, List.length_reverse, List.length_range'] at hlength
  have hcount' : count = 2 ^ 32 - 1 := by omega
  refine ⟨hcount', .inr (hqueue.trans ?_)⟩
  rw [hlength]
  congr 2
  omega

theorem Tracked.receive (ht : Tracked h) (hnew : ∀ c ∈ h.received, c < count) (hlt : count < 2 ^ 32)
    (hwraps : ¬WrapsFmc h.entity count) : Tracked (h.receive count) := by
  rcases Nat.lt_trichotomy count h.entity.fmc with hold | hfmc | hbehind
  · exact ht.receive_old hold
  · exact ht.receive_fmc hnew hfmc fun hlast => hwraps ⟨hlast, .inl hfmc.symm⟩
  · rcases Nat.lt_or_eq_of_le ht.window with hroom | hfull
    · exact ht.receive_room hnew hlt hbehind hroom
    · rcases ht.receive_full hnew hlt hbehind hfull with ⟨htracked, -⟩ | ⟨-, -, last, hlast, hall⟩
      · exact htracked
      · exact absurd (ht.wrapsFmc hnew hlt hfull ((hall last).mp hlast).2 hall) hwraps

theorem Tracked.not_wrapsFmc (ht : Tracked h) (hnew : ∀ c ∈ h.received, c < count)
    (hlt : count < 2 ^ 32) (htracks : Tracks (h.receive count)) : ¬WrapsFmc h.entity count := by
  rintro ⟨hcount, hwraps⟩
  have hlost (hempty : (h.receive count).entity.rxCountsInfo = [])
      (hzero : (h.receive count).entity.fmc = 0) : False := by
    have hmem := (htracks.contents count).mpr
      ⟨List.mem_append_right _ (List.mem_singleton_self count), by omega⟩
    rw [hempty] at hmem
    cases hmem
  rcases hwraps with hfmc | hqueue
  · obtain ⟨hempty, heq⟩ := ht.receive_fmc_eq hnew hfmc.symm
    have hentity : (h.receive count).entity =
        { h.entity with largestRxCount := count, fmc := (count + 1) % 2 ^ 32 } := heq
    refine hlost ?_ ?_
    · rw [hentity]
      exact hempty
    · rw [hentity]
      show (count + 1) % 2 ^ 32 = 0
      omega
  · have hwindow : h.entity.cfg.reorderingWindow = 2048 := by
      rw [LteConfig.reorderingWindow, ht.drb]
    have hmem (c : Nat) : c ∈ (pushed h.entity count).rxCountsInfo ↔
        count - 2048 ≤ c ∧ c < 2 ^ 32 := by
      show c ∈ count :: h.entity.rxCountsInfo ↔ _
      rw [List.mem_cons, hqueue, List.mem_reverse, List.mem_range'_1, hwindow]
      omega
    have hfull : h.entity.rxCountsInfo.length = h.entity.cfg.reorderingWindow := by
      rw [hqueue, List.length_reverse, List.length_range']
    have hbehind : h.entity.fmc < count := by
      have hmem' : count - 1 ∈ h.entity.rxCountsInfo := by
        rw [hqueue, List.mem_reverse, List.mem_range'_1, hwindow]
        omega
      have := ((ht.contents _).mp hmem').2
      omega
    rcases ht.receive_full hnew hlt hbehind hfull with
      ⟨-, d, hnot, hd, last, hlast, hle⟩ | ⟨hempty, hzero, -⟩
    · exact hnot ((hmem d).mpr ⟨Nat.le_trans ((hmem last).mp hlast).1 hle, hd⟩)
    · exact hlost hempty hzero

/-! ### Status reports -/

theorem Tracked.largest_mem (ht : Tracked h) (hne : h.entity.rxCountsInfo ≠ []) :
    h.entity.largestRxCount ∈ h.entity.rxCountsInfo := by
  obtain ⟨c, hc⟩ := List.exists_mem_of_ne_nil _ hne
  obtain ⟨hreceived, hlt⟩ := (ht.contents c).mp hc
  have hle := ht.le_largest c hreceived hlt
  have hmem := ht.largest.resolve_left (by omega)
  exact (ht.contents _).mpr ⟨hmem, by omega⟩

/-- The difference that the size of the bitmap comes from. -/
theorem subU32_subU32_one {a b : Nat} (hlt : b < a) (ha : a < 2 ^ 32) :
    subU32 a (subU32 b 1) = (a - b + 1) % 2 ^ 32 := by
  unfold subU32
  split <;> split <;> omega

/-- A report leaves the buffer behind a header of `k` bytes when the largest COUNT is too far away. -/
theorem Tracked.outside_iff (ht : Tracked h) (hne : h.entity.rxCountsInfo ≠ []) {k : Nat} (hk : k ≤ 3) :
    (k + bitmapSize ((h.entity.largestRxCount - h.entity.fmc + 1) % 2 ^ 32) > bufferTailroom ∨
      h.entity.rxCountsInfo.any
        (fun c => k + subU32 c (h.entity.fmc + 1) / 8 ≥ bufferTailroom) = true) ↔
      8 * (bufferTailroom - k) < h.entity.largestRxCount - h.entity.fmc + 1 := by
  have hlast := ht.largest_mem hne
  obtain ⟨hreceived, hbehind⟩ := (ht.contents _).mp hlast
  have hlt := ht.largest_lt
  have hplace (c : Nat) (hc : h.entity.fmc < c) :
      subU32 c (h.entity.fmc + 1) = c - (h.entity.fmc + 1) := if_pos hc
  rw [List.any_eq_true, bufferTailroom, bitmapSize]
  constructor
  · rintro (hsize | ⟨c, hc, hfar⟩)
    · have hmod := Nat.mod_le (h.entity.largestRxCount - h.entity.fmc + 1) (2 ^ 32)
      omega
    · obtain ⟨hreceived', hbehind'⟩ := (ht.contents c).mp hc
      have hle := ht.le_largest c hreceived' hbehind'
      rw [hplace c hbehind', decide_eq_true_eq] at hfar
      omega
  · intro hfar
    rcases Nat.lt_or_ge (h.entity.largestRxCount - h.entity.fmc + 1) (2 ^ 32) with hsmall | hall
    · rw [Nat.mod_eq_of_lt hsmall]
      exact .inl (by omega)
    · -- All COUNTs there are lie behind FMC, and the size is 0.
      refine .inr ⟨_, hlast, ?_⟩
      rw [hplace _ hbehind, decide_eq_true_eq]
      omega

theorem sendStatusReport_eq_overflow_iff (s : PdcpLte) :
    s.sendStatusReport = .overflow ↔
      s.cfg.isAmDrb = true ∧ s.cfg.statusReportRequired = true ∧ s.rxCountsInfo ≠ [] ∧
      subU32 s.largestRxCount (subU32 s.fmc 1) < 2 ^ 31 ∧
      ∃ header, statusReportHeader s.cfg.snLen (s.cfg.snLen.sn s.fmc) = some header ∧
        (header.length + bitmapSize (subU32 s.largestRxCount (subU32 s.fmc 1)) > bufferTailroom ∨
          s.rxCountsInfo.any
            (fun c => header.length + subU32 c (s.fmc + 1) / 8 ≥ bufferTailroom) = true) := by
  unfold sendStatusReport
  constructor
  · intro h
    split at h
    · cases h
    · rename_i hsent
      rw [Bool.not_eq_true, Bool.or_eq_false_iff, Bool.not_eq_false', Bool.not_eq_false'] at hsent
      split at h
      · cases h
      · rename_i header hheader
        split at h
        · cases h
        · rename_i hne
          dsimp only at h
          split at h
          · cases h
          · rename_i hdiff
            split at h
            · rename_i hout
              exact ⟨hsent.1, hsent.2, by simpa using hne, Nat.not_le.mp hdiff, header, hheader, hout⟩
            · cases h
  · rintro ⟨hdrb, hrequired, hne, hdiff, header, hheader, hout⟩
    have hempty : s.rxCountsInfo.isEmpty = false := by simpa using hne
    rw [hdrb, hrequired, hheader, hempty]
    simp only [if_neg (Nat.not_le.mpr hdiff), ge_iff_le, if_pos hout]
    rfl

/-- A report leaves the buffer when the bitmap has no room. -/
theorem Tracked.overflow_iff (ht : Tracked h) :
    h.entity.sendStatusReport = .overflow ↔ ¬BitmapFits h.entity := by
  rw [sendStatusReport_eq_overflow_iff]
  have hrest (hne : h.entity.rxCountsInfo ≠ []) :=
    subU32_subU32_one ((ht.contents _).mp (ht.largest_mem hne)).2 ht.largest_lt
  constructor
  · rintro ⟨hdrb, hrequired, hne, hdiff, header, hheader, hout⟩ hfits
    rw [hrest hne] at hdiff hout
    obtain ⟨htwelve, heighteen⟩ := hfits hdrb hrequired hne hdiff
    cases hlen : h.entity.cfg.snLen with
    | len5 | len7 =>
      rw [hlen] at hheader
      cases hheader
    | len12 =>
      rw [hlen] at hheader
      cases hheader
      exact absurd ((ht.outside_iff hne (show 2 ≤ 3 by decide)).mp hout) (Nat.not_lt.mpr (htwelve hlen))
    | len18 =>
      rw [hlen] at hheader
      cases hheader
      exact absurd ((ht.outside_iff hne (show 3 ≤ 3 by decide)).mp hout)
        (Nat.not_lt.mpr (heighteen hlen))
  · intro hout
    unfold BitmapFits at hout
    push Not at hout
    obtain ⟨hdrb, hrequired, hne, hdiff, hout⟩ := hout
    refine ⟨hdrb, hrequired, hne, by rwa [hrest hne], ?_⟩
    rw [hrest hne]
    by_cases htwelve : h.entity.cfg.snLen = .len12 →
        h.entity.largestRxCount - h.entity.fmc + 1 ≤ 8 * 12235
    · obtain ⟨hlen, hfar⟩ := hout htwelve
      rw [hlen]
      exact ⟨_, rfl, (ht.outside_iff hne (show 3 ≤ 3 by decide)).mpr hfar⟩
    · push Not at htwelve
      obtain ⟨hlen, hfar⟩ := htwelve
      rw [hlen]
      exact ⟨_, rfl, (ht.outside_iff hne (show 2 ≤ 3 by decide)).mpr hfar⟩

/-! ### Histories -/

theorem tracked_step {op : CountOp} {h' : CountHistory} {u : Unit} (ht : Tracked h)
    (hop : CountFits h op) (hstep : countStep h op = some (h', u)) : Tracked h' := by
  cases op with
  | receive count =>
    rw [countStep] at hstep
    split at hstep
    · rename_i hcount
      cases hstep
      exact ht.receive hcount.2 hcount.1 hop
    · cases hstep
  | report =>
    cases hstep
    exact { ht with
      inside := by
        rw [List.mem_append, List.mem_singleton, not_or]
        exact ⟨ht.inside, fun heq => ht.overflow_iff.mp heq.symm hop⟩ }

theorem fits_of_tracks {op : CountOp} {h' : CountHistory} {u : Unit} (ht : Tracked h)
    (hstep : countStep h op = some (h', u)) (htracks : Tracks h') : CountFits h op := by
  cases op with
  | receive count =>
    rw [countStep] at hstep
    split at hstep
    · rename_i hcount
      cases hstep
      exact ht.not_wrapsFmc hcount.2 hcount.1 htracks
    · cases hstep
  | report =>
    cases hstep
    by_contra hfits
    exact htracks.inside (List.mem_append_right _
      (List.mem_singleton.mpr (ht.overflow_iff.mpr hfits).symm))

/-- A history keeps the queue of COUNTs as it has to be exactly when FMC does not wrap in it, and each
report has room for its bitmap. -/
theorem tracks_iff_fits {s : PdcpLte} (hs : Fresh s) (ops : List CountOp) {h' : CountHistory}
    {us : List Unit} (hrun : run countStep ⟨s, [], []⟩ ops = some (h', us)) :
    AlongRun countStep Tracks ⟨s, [], []⟩ ops ↔ StepsWithin countStep CountFits ⟨s, [], []⟩ ops :=
  alongRun_iff_within_of_inv Tracked Tracks (fun _ ht => ht.toTracks)
    (fun _ _ _ _ ht hop hstep => tracked_step ht hop hstep)
    (fun _ _ _ _ ht hstep htracks => fits_of_tracks ht hstep htracks) ops _ _ _ (tracked_start hs) hrun

/-- A DRB on RLC AM with SNs of 12 bits that sends status reports. -/
def reportingDrb : PdcpLte := init ⟨.len12, .drb, false, 0, true⟩

/-- A COUNT that arrives after some others are lost. -/
theorem tracks_iff_fits_lost :
    AlongRun countStep Tracks ⟨reportingDrb, [], []⟩ [.receive 0, .receive 3, .report] ↔
      StepsWithin countStep CountFits ⟨reportingDrb, [], []⟩ [.receive 0, .receive 3, .report] :=
  tracks_iff_fits (fresh_init rfl) _
    (show run countStep ⟨reportingDrb, [], []⟩ [.receive 0, .receive 3, .report] =
      some (_, [(), (), ()]) from rfl)

/-- Every COUNT that is a multiple of the reordering window, and a report behind them. -/
def sparseCounts : List CountOp := (List.range 49).map (fun i => .receive (2048 * (i + 1))) ++ [.report]

/-- The 49 COUNTs fit into the queue, but the bitmap leaves the buffer. -/
theorem not_tracks_sparse : ∃ h' us,
    run countStep ⟨reportingDrb, [], []⟩ sparseCounts = some (h', us) ∧
      h'.entity.rxCountsInfo.length = 49 ∧ ¬Tracks h' := by
  have hrun : (run countStep ⟨reportingDrb, [], []⟩ sparseCounts).any (fun r =>
      decide (r.1.entity.rxCountsInfo.length = 49) && r.1.reports.contains .overflow) = true := by
    decide +kernel
  obtain ⟨⟨h', us⟩, hsome, hmem⟩ := (Option.any_eq_true _ _).mp hrun
  rw [Bool.and_eq_true, decide_eq_true_eq, List.contains_iff_mem] at hmem
  exact ⟨h', us, hsome, hmem.1, fun htracks => htracks.inside hmem.2⟩

end Odss.Pdcp.PdcpLte
