import Odss.Proofs.UmNrBuffer

/-!
# `Odss.Proofs.UmNrMalformed`: hostile PDUs at the NR UM receiver

* `terminates_of_passing`, `not_terminates_of_stuck`: the loop over the segments ends unless a segment
  at offset zero meets a start of the SDU that has no bytes.
* `rejects_iff`: `handle_data_pdu` does not look at the return value of the header reader. What it reports
  as malformed is delivered or stored, unless the SN is too old or its offset is taken.
* `handled_iff` puts both together.
-/

set_option linter.all false

namespace Odss.Rlc

open Odss.Lib

namespace UmNrSegments

/-! ### Termination -/

/-- The loop ends, be it with a fault. -/
def Terminates (todo : List UmNrPdu) (pdu : UmNrSegments) : Prop :=
  ∃ fuel, (assembleRounds fuel todo pdu).isSome = true

theorem Terminates.of_round {rxPdu : UmNrPdu} {rest todo : List UmNrPdu} {pdu t : UmNrSegments}
    (hround : assembleRound rxPdu rest pdu = .next todo t) (h : Terminates todo t) :
    Terminates (rxPdu :: rest) pdu := by
  obtain ⟨fuel, hfuel⟩ := h
  exact ⟨fuel + 1, by rw [assembleRounds, hround]; exact hfuel⟩

/-- A start of the SDU without bytes, in front of a segment at offset zero. -/
def Stuck (todo : List UmNrPdu) (pdu : UmNrSegments) : Prop :=
  pdu.sdu ≠ none ∧ pdu.nextExpectedSo = 0 ∧ ∃ rxPdu ∈ todo, rxPdu.header.so = 0

theorem terminates_of_passing {todo : List UmNrPdu} {pdu : UmNrSegments} (h : Passing todo pdu)
    (hnot : ¬ Stuck todo pdu) : Terminates todo pdu := by
  induction todo generalizing pdu with
  | nil => exact ⟨0, rfl⟩
  | cons rxPdu rest ih =>
    have hahead := (List.pairwise_cons.mp h.sorted).1
    by_cases hso : rxPdu.header.so = pdu.nextExpectedSo
    · cases hsdu : pdu.sdu with
      | none =>
        have hzero := h.start hsdu
        have hround : assembleRound rxPdu rest pdu = .next rest (pdu.start rxPdu) := by
          rw [assembleRound, if_pos hso, hsdu]
          exact if_pos hzero
        refine .of_round hround (ih (h.take hso rfl ?_ (by simp [start])) ?_)
        · rw [hzero]
          exact Nat.zero_le _
        · rintro ⟨-, -, r, hr, hr0⟩
          have hlt := hahead r hr
          omega
      | some sdu =>
        have hpos : pdu.nextExpectedSo ≠ 0 := by
          intro hzero
          exact hnot ⟨by simp [hsdu], hzero, rxPdu, List.mem_cons_self, hso.trans hzero⟩
        by_cases hroom : rxPdu.buf.length > sdu.tailroom
        · exact ⟨1, by simp [assembleRounds, assembleRound, hso, hsdu, hpos, hroom]⟩
        · by_cases hlast : pdu.nextExpectedSo + rxPdu.buf.length = pdu.totalSduLength
          · exact ⟨1, by simp [assembleRounds, assembleRound, hso, hsdu, hpos, hroom, hlast]⟩
          · have hround : assembleRound rxPdu rest pdu = .next rest (pdu.append sdu rxPdu) := by
              simp [assembleRound, hso, hsdu, hpos, hroom, hlast]
            refine .of_round hround
              (ih (h.take hso rfl (Nat.le_add_right _ _) (by simp [append])) ?_)
            rintro ⟨-, hzero, -⟩
            simp only [append] at hzero
            omega
    · have hround : assembleRound rxPdu rest pdu = .next rest pdu := if_neg hso
      refine .of_round hround (ih (h.skip hso) ?_)
      rintro ⟨hsdu, hzero, r, hr, hr0⟩
      exact hnot ⟨hsdu, hzero, r, List.mem_cons_of_mem _ hr, hr0⟩

/-- The segment at offset zero is the first one. -/
theorem Stuck.head {todo : List UmNrPdu} {pdu : UmNrSegments} (hstuck : Stuck todo pdu)
    (h : Passing todo pdu) : ∃ rxPdu rest sdu, todo = rxPdu :: rest ∧
      rxPdu.header.so = pdu.nextExpectedSo ∧ pdu.sdu = some sdu ∧ pdu.nextExpectedSo = 0 := by
  obtain ⟨hsdu, hzero, r, hr, hr0⟩ := hstuck
  obtain ⟨sdu, hsome⟩ := Option.ne_none_iff_exists'.mp hsdu
  cases todo with
  | nil => cases hr
  | cons rxPdu rest =>
    refine ⟨rxPdu, rest, sdu, rfl, ?_, hsome, hzero⟩
    rcases List.mem_cons.mp hr with rfl | hr
    · omega
    · have hlt := (List.pairwise_cons.mp h.sorted).1 r hr
      omega

theorem assemble_of_stuck {todo : List UmNrPdu} {pdu : UmNrSegments} (h : Passing todo pdu)
    (hstuck : Stuck todo pdu) : assemble todo pdu = none := by
  obtain ⟨rxPdu, rest, sdu, rfl, hso, hsome, hzero⟩ := hstuck.head h
  rw [assemble, if_pos hso, hsome]
  exact if_pos hzero

theorem not_terminates_of_stuck {todo : List UmNrPdu} {pdu : UmNrSegments} (h : Passing todo pdu)
    (hstuck : Stuck todo pdu) : ¬ Terminates todo pdu := by
  obtain ⟨rxPdu, rest, sdu, rfl, hso, hsome, hzero⟩ := hstuck.head h
  have hround : assembleRound rxPdu rest pdu = .next (rxPdu :: rest) pdu := by
    simp [assembleRound, hso, hsome, hzero]
  rintro ⟨fuel, hfuel⟩
  induction fuel with
  | zero => cases hfuel
  | succ fuel ih =>
    rw [assembleRounds, hround] at hfuel
    exact ih hfuel

/-- Without a start of the SDU no segment was taken. -/
theorem eq_of_assemble {todo : List UmNrPdu} {pdu t : UmNrSegments} (h : Passing todo pdu)
    (hloop : assemble todo pdu = some (.incomplete t)) (hnone : t.sdu = none) : t = pdu := by
  induction todo with
  | nil =>
    cases hloop
    rfl
  | cons rxPdu rest ih =>
    have hsdu : pdu.sdu = none := by
      by_contra hsome
      exact (clean_of_assemble h hloop).2.1 hsome hnone
    unfold assemble at hloop
    split at hloop
    · rename_i hso
      rw [hsdu] at hloop
      simp only at hloop
      split at hloop
      · have hstart : Passing rest (pdu.start rxPdu) :=
          h.take hso rfl (by rw [h.start hsdu]; exact Nat.zero_le _) (by simp [start])
        exact absurd hnone ((clean_of_assemble hstart hloop).2.1 (by simp [start]))
      · cases hloop
    · rename_i hne
      exact ih (h.skip hne) hloop

end UmNrSegments

namespace UmNrRx

open UmNrSegments

/-! ### The segments of an SN with a new one -/

/-- The segments of an SN. -/
def entry (s : UmNrRx) (sn : Nat) : UmNrSegments := (s.rxWindow.find? sn).getD .empty

theorem BufferInv.entry {s : UmNrRx} (h : BufferInv s) (sn : Nat) : (s.entry sn).Clean := by
  unfold UmNrRx.entry
  cases hfind : s.rxWindow.find? sn with
  | none => exact clean_empty
  | some pdu => exact h.clean _ _ hfind

/-- The segment of an SN, its header and the PDU, where `handle_data_pdu` places it. -/
def Accepts (s : UmNrRx) (header : UmNrHeader) : Prop :=
  header.si ≠ .fullSdu ∧ s.snInvalidForRxBuffer header.sn = false

/-- The SN has a start of the SDU without bytes, and the segment has the offset zero. -/
def EmptyStart (s : UmNrRx) (header : UmNrHeader) : Prop :=
  header.so = 0 ∧ (s.entry header.sn).sdu ≠ none ∧ (s.entry header.sn).nextExpectedSo = 0

theorem stuck_place_iff {s : UmNrRx} (h : BufferInv s) (rxPdu : UmNrPdu) :
    Stuck ((s.entry rxPdu.header.sn).place rxPdu).segments.values
        ((s.entry rxPdu.header.sn).place rxPdu) ↔ s.EmptyStart rxPdu.header := by
  have hclean := h.entry rxPdu.header.sn
  constructor
  · rintro ⟨hsdu, hzero, r, hr, hr0⟩
    refine ⟨?_, hsdu, hzero⟩
    have hfind := (hclean.passing_place rxPdu).ahead r hr
    rw [hr0] at hfind
    by_contra hne
    simp only [UmNrSegments.place] at hfind
    split at hfind
    · exact hclean.waits 0 r hfind hzero.symm
    · rw [OrdMap.find?_insert_ne _ _ (Ne.symm hne)] at hfind
      exact hclean.waits 0 r hfind hzero.symm
  · rintro ⟨hso, hsdu, hzero⟩
    refine ⟨hsdu, hzero, ?_⟩
    have hfree : (s.entry rxPdu.header.sn).segments.contains rxPdu.header.so = false := by
      rw [← Bool.not_eq_true]
      intro hin
      obtain ⟨r, hr⟩ := (OrdMap.contains_iff _ _).mp hin
      exact hclean.waits _ _ hr (hso.trans hzero.symm)
    refine ⟨rxPdu, List.mem_map.mpr ⟨(rxPdu.header.so, rxPdu), ?_, rfl⟩, hso⟩
    rw [OrdMap.mem_entries_iff]
    simp only [UmNrSegments.place, hfree, Bool.false_eq_true, if_false]
    exact OrdMap.find?_insert_self _ _ _

/-! ### Malformed PDUs -/

/-- The reader of the header returns 0. -/
def Malformed (snSize : UmNrSnSize) (bytes : Bytes) : Prop :=
  ∃ header, readUmNrHeader snSize bytes = some (header, 0)

theorem header_of_malformed {snSize : UmNrSnSize} {bytes : Bytes} {header : UmNrHeader}
    (h : readUmNrHeader snSize bytes = some (header, 0)) :
    header.so = 0 ∧ (header.si = .fullSdu ∨ header.si = .firstSegment) := by
  have hso : ∀ {header header' : UmNrHeader} {n : Nat} {rest : Bytes}, 0 < n →
      readSo header n rest ≠ some (header', 0) := by
    intro header header' n rest hn h
    unfold readSo at h
    split at h
    · split at h
      · simp only [Option.some.injEq, Prod.mk.injEq] at h
        omega
      · cases h
    · simp only [Option.some.injEq, Prod.mk.injEq] at h
      omega
  unfold readUmNrHeader at h
  cases bytes with
  | nil => cases h
  | cons b₀ rest =>
    cases snSize with
    | size6bits =>
      simp only at h
      split at h
      · rename_i hfull
        cases h
        exact ⟨rfl, .inl hfull.1⟩
      · exact absurd h (hso (by decide))
    | size12bits =>
      simp only at h
      split at h
      · rename_i hfull
        cases h
        exact ⟨rfl, .inl hfull.1⟩
      · split at h
        · rename_i hfirst
          cases h
          exact ⟨rfl, .inr hfirst.1⟩
        · split at h
          · simp at h
          · cases rest with
            | nil => cases h
            | cons b₁ rest => exact absurd h (hso (by decide))

/-- A segment whose offset is taken changes nothing. -/
theorem placePdu_taken {s : UmNrRx} (h : BufferInv s) {rxPdu : UmNrPdu}
    (hsi : rxPdu.header.si ≠ .lastSegment)
    (htaken : (s.entry rxPdu.header.sn).segments.contains rxPdu.header.so = true) :
    s.placePdu rxPdu = some s := by
  have hclean := h.entry rxPdu.header.sn
  have hplace : (s.entry rxPdu.header.sn).place rxPdu = s.entry rxPdu.header.sn := by
    simp only [UmNrSegments.place, hsi, htaken, if_false, if_true]
  have hfind : s.rxWindow.find? rxPdu.header.sn = some (s.entry rxPdu.header.sn) := by
    unfold UmNrRx.entry at htaken ⊢
    cases hfind : s.rxWindow.find? rxPdu.header.sn with
    | none =>
      rw [hfind] at htaken
      cases htaken
    | some pdu => rfl
  have hskip : assemble (s.entry rxPdu.header.sn).segments.values (s.entry rxPdu.header.sn) =
      some (.incomplete (s.entry rxPdu.header.sn)) := by
    refine assemble_skip _ _ fun r hr => ?_
    exact hclean.waits _ _ ((passing_values hclean.key hclean.start).ahead r hr)
  have hsame := OrdMap.insert_of_find?_eq_some _ hfind
  have hin : s.snInReassemblyWindow rxPdu.header.sn = true :=
    (snInReassemblyWindow_iff h.highest _).mpr (h.inside _ _ hfind).2
  show s.handleRxBufferUpdate rxPdu.header.sn ((s.entry rxPdu.header.sn).place rxPdu) = _
  rw [hplace, handleRxBufferUpdate, hskip]
  simp only [hsame]
  rw [updateWindow, if_pos hin]

/-- The segments of the SN of a PDU that does not complete the SDU are in the buffer afterwards. -/
theorem find?_of_incomplete {s : UmNrRx} (h : BufferInv s) {rxPdu : UmNrPdu} {pdu : UmNrSegments}
    (hsn : rxPdu.header.sn < s.mod)
    (hloop : assemble ((s.entry rxPdu.header.sn).place rxPdu).segments.values
      ((s.entry rxPdu.header.sn).place rxPdu) = some (.incomplete pdu)) :
    ((s.placed rxPdu.header.sn pdu).updateWindow rxPdu.header.sn).rxWindow.find?
      rxPdu.header.sn = some pdu := by
  have hclean := (clean_of_assemble ((h.entry rxPdu.header.sn).passing_place rxPdu) hloop).1
  cases hin : s.snInReassemblyWindow rxPdu.header.sn with
  | true =>
    have hstay : (s.placed rxPdu.header.sn pdu).updateWindow rxPdu.header.sn =
        s.placed rxPdu.header.sn pdu := if_pos hin
    rw [hstay]
    exact OrdMap.find?_insert_self _ _ _
  | false =>
    obtain ⟨timer, trigger, heq, -⟩ :=
      updateWindow_outside (s := s.placed rxPdu.header.sn pdu) hsn
        (fun hrun => (h.trigger hrun).2) hin
    rw [heq]
    exact (bufferInv_updateHighest h hsn hclean).2

/-- A segment at a free offset zero does not leave the receiver as it was. -/
theorem placePdu_ne {s : UmNrRx} (h : BufferInv s) {rxPdu : UmNrPdu}
    (hsn : rxPdu.header.sn < s.mod) (hso : rxPdu.header.so = 0)
    (hfree : (s.entry rxPdu.header.sn).segments.contains 0 = false) :
    s.placePdu rxPdu ≠ some s := by
  have hclean := h.entry rxPdu.header.sn
  have hpassing := hclean.passing_place rxPdu
  have htaken : ((s.entry rxPdu.header.sn).place rxPdu).segments.contains 0 = true := by
    have hfree' : (s.entry rxPdu.header.sn).segments.contains rxPdu.header.so = false := by
      rw [hso]
      exact hfree
    rw [OrdMap.contains_iff]
    refine ⟨rxPdu, ?_⟩
    simp only [UmNrSegments.place, hfree', Bool.false_eq_true, if_false]
    rw [hso]
    exact OrdMap.find?_insert_self _ _ _
  intro hsame
  change s.handleRxBufferUpdate rxPdu.header.sn ((s.entry rxPdu.header.sn).place rxPdu) = _ at hsame
  unfold handleRxBufferUpdate at hsame
  split at hsame
  · cases hsame
  · have hdelivered := congrArg UmNrRx.delivered (Option.some.inj hsame)
    simp [deliverSdu] at hdelivered
  · rename_i pdu hloop
    have hfind := find?_of_incomplete h hsn hloop
    rw [show (s.placed rxPdu.header.sn pdu).updateWindow rxPdu.header.sn = s from
      Option.some.inj hsame] at hfind
    have hentry : s.entry rxPdu.header.sn = pdu := by
      unfold UmNrRx.entry
      rw [hfind]
      rfl
    by_cases hsdu : pdu.sdu = none
    · rw [← eq_of_assemble hpassing hloop hsdu, ← hentry, hfree] at htaken
      cases htaken
    · by_cases hzero : (s.entry rxPdu.header.sn).nextExpectedSo = 0
      · have hstuck := (stuck_place_iff h rxPdu).mpr ⟨hso, by rw [hentry]; exact hsdu, hzero⟩
        rw [assemble_of_stuck hpassing hstuck] at hloop
        cases hloop
      · have hkept := (clean_of_assemble hpassing hloop).2.2 hzero
        rw [htaken, ← hentry, hfree] at hkept
        cases hkept

/-- A malformed PDU leaves the receiver as it was exactly when it is a segment of an SN in front of
`RX_Next_Reassembly`, or of an SN that has a segment at offset zero in the buffer. -/
theorem rejects_iff {s : UmNrRx} (h : BufferInv s) {bytes : Bytes} {header : UmNrHeader}
    (hread : readUmNrHeader s.snSize bytes = some (header, 0))
    (hstrip : s.Accepts header → ∃ rxPdu, stripPduHeader header bytes = some rxPdu) :
    s.handleDataPdu bytes = some s ↔ header.si ≠ .fullSdu ∧
      (s.snInvalidForRxBuffer header.sn = true ∨
        (s.entry header.sn).segments.contains 0 = true) := by
  have hpdu : s.handleDataPdu bytes = s.handlePdu header bytes := by
    rw [handleDataPdu, hread, Option.bind_some]
  obtain ⟨hso, hsi⟩ := header_of_malformed hread
  rw [hpdu, handlePdu]
  split
  · rename_i hfull
    refine iff_of_false (fun hsame => ?_) fun hnot => hnot.1 hfull
    obtain ⟨rxPdu, -, hsame⟩ := Option.map_eq_some_iff.mp hsame
    have hdelivered := congrArg UmNrRx.delivered hsame
    simp at hdelivered
  · rename_i hsegment
    have hfirst := hsi.resolve_left hsegment
    split
    · rename_i hold
      exact iff_of_true rfl ⟨hsegment, .inl hold⟩
    · rename_i hnew
      obtain ⟨rxPdu, hrx⟩ := hstrip ⟨hsegment, by simpa using hnew⟩
      have hheader := header_of_stripPduHeader hrx
      rw [hrx, Option.bind_some]
      subst hheader
      constructor
      · intro hsame
        refine ⟨hsegment, .inr ?_⟩
        by_contra hfree
        exact placePdu_ne h (sn_lt_of_readUmNrHeader hread).1 hso (by simpa using hfree) hsame
      · rintro ⟨-, hold | htaken⟩
        · exact absurd hold hnew
        · refine placePdu_taken h (by rw [hfirst]; decide) ?_
          rw [hso]
          exact htaken

/-! ### What is asked of every PDU -/

/-- The header is inside of the PDU, the loop over the segments ends, and a malformed PDU leaves the
receiver as it was. -/
structure Handled (s : UmNrRx) (bytes : Bytes) : Prop where
  header : ∃ header consumed, readUmNrHeader s.snSize bytes = some (header, consumed)
  terminates : ∀ header consumed, readUmNrHeader s.snSize bytes = some (header, consumed) →
    s.Accepts header → ∃ rxPdu, stripPduHeader header bytes = some rxPdu ∧
      Terminates ((s.entry header.sn).place rxPdu).segments.values
        ((s.entry header.sn).place rxPdu)
  rejects : Malformed s.snSize bytes → s.handleDataPdu bytes = some s

/-- The PDU is long enough for its header, a segment that is taken fits a buffer and is not in front of
a start of the SDU without bytes. A malformed PDU is a segment that is not taken. -/
def Regular (s : UmNrRx) (bytes : Bytes) : Prop :=
  ∃ header consumed, readUmNrHeader s.snSize bytes = some (header, consumed) ∧
    (s.Accepts header →
      (bytes.length ≤ bufferTailroom ∧ header.packedLength ≤ bytes.length) ∧ ¬ s.EmptyStart header) ∧
    (consumed = 0 → header.si ≠ .fullSdu ∧
      (s.snInvalidForRxBuffer header.sn = true ∨ (s.entry header.sn).segments.contains 0 = true))

/-- In every run, a PDU is handled exactly when it is regular. -/
theorem handled_iff {snSize : UmNrSnSize} {ops : List Op} {s : UmNrRx} {us : List Unit}
    (hrun : run step (init snSize) ops = some (s, us)) (bytes : Bytes) :
    s.Handled bytes ↔ s.Regular bytes := by
  have h := bufferInv_of_run hrun
  constructor
  · rintro ⟨⟨header, consumed, hread⟩, hterminates, hrejects⟩
    refine ⟨header, consumed, hread, fun haccepts => ?_, fun hzero => ?_⟩
    · obtain ⟨rxPdu, hstrip, hends⟩ := hterminates header consumed hread haccepts
      have hheader := header_of_stripPduHeader hstrip
      subst hheader
      refine ⟨?_, fun hempty => ?_⟩
      · unfold stripPduHeader at hstrip
        split at hstrip
        · assumption
        · cases hstrip
      · exact not_terminates_of_stuck ((h.entry _).passing_place rxPdu)
          ((stuck_place_iff h rxPdu).mpr hempty) hends
    · subst hzero
      refine (rejects_iff h hread fun haccepts => ?_).mp (hrejects ⟨header, hread⟩)
      obtain ⟨rxPdu, hstrip, -⟩ := hterminates header 0 hread haccepts
      exact ⟨rxPdu, hstrip⟩
  · rintro ⟨header, consumed, hread, haccepted, hmalformed⟩
    refine ⟨⟨header, consumed, hread⟩, fun header' consumed' hread' haccepts => ?_, ?_⟩
    · rw [hread] at hread'
      cases hread'
      obtain ⟨hfits, hstart⟩ := haccepted haccepts
      refine ⟨⟨header, bytes.drop header.packedLength⟩, if_pos hfits, ?_⟩
      exact terminates_of_passing ((h.entry _).passing_place ⟨header, _⟩)
        fun hstuck => hstart ((stuck_place_iff h ⟨header, _⟩).mp hstuck)
    · rintro ⟨header', hread'⟩
      rw [hread] at hread'
      cases hread'
      exact (rejects_iff h hread fun haccepts => ⟨_, if_pos (haccepted haccepts).1⟩).mpr
        (hmalformed rfl)

/-- The last segment of SN 1 behind its first one. -/
theorem handled_lastSegment : ∃ s us,
    run step (init .size6bits) [.handleDataPdu [0x41, 1, 2]] = some (s, us) ∧
      s.Handled [0x81, 0, 2, 3] := by
  have hrun : run step (init .size6bits) [.handleDataPdu [0x41, 1, 2]] = some (_, _) := rfl
  refine ⟨_, _, hrun, (handled_iff hrun _).mpr ?_⟩
  exact ⟨⟨.lastSegment, .size6bits, 1, 2⟩, 3, rfl,
    fun _ => ⟨by decide, fun hempty => by cases hempty.1⟩, fun hzero => by cases hzero⟩

/-- The loop does not end for a segment of SN 1 at offset zero, after one that has no bytes. A full
SDU with a reserved bit is delivered. -/
theorem not_handled :
    (∃ s us, run step (init .size6bits) [.handleDataPdu [0x41]] = some (s, us) ∧
      ¬ s.Handled [0x41, 5]) ∧
    ¬ (init .size6bits).Handled [0x01, 7] := by
  constructor
  · have hrun : run step (init .size6bits) [.handleDataPdu [0x41]] = some (_, _) := rfl
    refine ⟨_, _, hrun, fun h => ?_⟩
    obtain ⟨rxPdu, hstrip, hends⟩ :=
      h.terminates ⟨.firstSegment, .size6bits, 1, 0⟩ 1 rfl ⟨by decide, by decide⟩
    have hinv := bufferInv_of_run hrun
    have hheader := header_of_stripPduHeader hstrip
    refine not_terminates_of_stuck ((hinv.entry 1).passing_place rxPdu) ?_ hends
    have hstuck := (stuck_place_iff hinv rxPdu).mpr
    rw [hheader] at hstuck
    exact hstuck ⟨rfl, by decide, by decide⟩
  · intro h
    have hsame := congrArg (Option.map UmNrRx.delivered) (h.rejects ⟨⟨.fullSdu, .size6bits, 1, 0⟩, rfl⟩)
    revert hsame
    decide

end UmNrRx

end Odss.Rlc
