import Odss.Proofs.UmLteSafe

/-!
# `Odss.Proofs.UmLteIntact`: the intact SDUs of LTE UM

`passed` lists, for each SN that `vr_ur` passes in a call, the PDU that was in the window at that time.
`intact` puts the SDUs together whose PDUs are all there: it knows neither the two loops nor `pdu_lost` nor
`vr_ur_in_rx_sdu`.

The two loops of `reassemble_rx_sdus` drop segments of such SDUs. `LowerEdgeKeeps` and `InSequenceKeeps` say
when they do not, and `intact_sublist` that then all the intact SDUs of a run are delivered.
-/

set_option linter.all false

namespace Odss.Rlc

open Odss.Lib

/-! ### The intact SDUs -/

/-- The last segment of a PDU. It goes on with the SDU of which the bytes `q` are there. -/
def joinLast (fi : Fi) (q : Option Bytes) (last : Bytes) : Option Bytes × List Bytes :=
  if fi.endAligned then (none, (q.map (· ++ last)).toList) else (q.map (· ++ last), [])

/-- The SDUs that end in a PDU, and what is there of the SDU that goes on behind it. `q` is what is there
of the SDU in front of it, or `none` when a part is missing. -/
def joinPdu (q : Option Bytes) (pdu : UmdPdu) : Option Bytes × List Bytes :=
  match cut pdu.header.li pdu.buf with
  | none => (none, [])
  | some ([], last) =>
    joinLast pdu.header.fi (if pdu.header.fi.startAligned then some [] else q) last
  | some (first :: ended, last) =>
    let start := if pdu.header.fi.startAligned then some [] else q
    let r := joinLast pdu.header.fi (some []) last
    (r.1, (start.map (· ++ first)).toList ++ ended ++ r.2)

/-- The intact SDUs of a sequence of SNs, of which some are missing. -/
def intact (q : Option Bytes) : List (Option UmdPdu) → Option Bytes × List Bytes
  | [] => (q, [])
  | none :: rest => intact none rest
  | some pdu :: rest =>
    ((intact (joinPdu q pdu).1 rest).1, (joinPdu q pdu).2 ++ (intact (joinPdu q pdu).1 rest).2)

theorem intact_append (q : Option Bytes) (xs ys : List (Option UmdPdu)) :
    intact q (xs ++ ys) =
      ((intact (intact q xs).1 ys).1, (intact q xs).2 ++ (intact (intact q xs).1 ys).2) := by
  induction xs generalizing q with
  | nil => rfl
  | cons x xs ih =>
    cases x with
    | none => exact ih none
    | some pdu => simp [intact, ih, List.append_assoc]

namespace UmLteRx

/-- What is in the window at `vr_ur`. -/
def atVrUr (s : UmLteRx) : List (Option UmdPdu) := [s.rxWindow.find? s.vrUr]

/-- The SNs that `reassemble_rx_sdus` passes. -/
def reassemblyPassed (s : UmLteRx) : List (Option UmdPdu) :=
  seen (fun s => !s.insideReorderingWindow s.vrUr) lowerEdgeRound atVrUr s.mod s ++
    match s.catchUp with
    | none => []
    | some (t, _) =>
      seen (fun s => s.rxWindow.contains s.vrUr) inSequenceRound atVrUr t.rxWindow.size t

/-- The SNs that `timer_expired` passes. -/
def expiryPassed (s : UmLteRx) : List (Option UmdPdu) :=
  seen (fun s => decide (s.rxModBase s.vrUr < s.rxModBase s.vrUx)) expiryRound
    (fun s => s.atVrUr ++ reassemblyPassed { s with vrUr := (s.vrUr + 1) % s.mod }) s.mod
    { s with pduLost := true, rxSdu := [] }

/-- The SNs that a call passes. Behind a reset, no SDU goes on. -/
def passed (s : UmLteRx) : Op → List (Option UmdPdu)
  | .writePdu bytes =>
    match readUmdHeader s.snSize bytes with
    | none => []
    | some header =>
      if s.discards header.sn then []
      else
        match stripHeader header bytes with
        | none => []
        | some pdu => reassemblyPassed (s.place pdu)
  | .timerExpired =>
    if s.reorderingTimer.isRunning ∧ s.tReordering ≠ 0 then
      expiryPassed { s with reorderingTimer := .expired }
    else []
  | .reestablish =>
    (if s.reorderingTimer.isRunning then
      expiryPassed { s with reorderingTimer := s.reorderingTimer.stop }
    else []) ++ [none]
  | .stop => [none]

/-- The SNs that a run passes. -/
def passedInRun (s : UmLteRx) : List Op → List (Option UmdPdu)
  | [] => []
  | op :: ops =>
    s.passed op ++
      match s.step op with
      | none => []
      | some (t, _) => passedInRun t ops

/-! ### What the loops keep -/

/-- A PDU at the lower edge keeps the intact SDUs. When it starts with an SDU, none is under assembly, the
SN in front of it was the last one written to the SDU buffer if it has length indicators, and there is a
byte of the SDU that goes on behind it. Otherwise it has no length indicator, and `pdu_lost` is not set
when it ends the SDU under assembly. -/
structure LowerEdgeKeeps (s : UmLteRx) (pdu : UmdPdu) : Prop where
  empty : pdu.header.fi.startAligned = true → s.rxSdu = []
  behind : pdu.header.fi.startAligned = true → pdu.header.li ≠ [] →
    s.vrUr = (s.vrUrInRxSdu + 1) % s.mod
  byte : pdu.header.fi.startAligned = true → pdu.header.fi.endAligned = false →
    pdu.header.li.sum < pdu.buf.length
  single : pdu.header.fi.startAligned = false → pdu.header.li = []
  ends : pdu.header.fi.startAligned = false → pdu.header.fi.endAligned = true → s.rxSdu ≠ [] →
    s.pduLost = false

/-- A PDU in sequence keeps the intact SDUs. When it starts with an SDU, none is under assembly. When it
goes on with the SDU under assembly, its first segment fits the SDU buffer, and `pdu_lost` is not set if it
ends this SDU without a length indicator. There is a byte of the SDU that goes on behind it. -/
structure InSequenceKeeps (s : UmLteRx) (pdu : UmdPdu) : Prop where
  empty : pdu.header.fi.startAligned = true → s.checkBelongs.rxSdu = []
  space : s.checkBelongs.rxSdu ≠ [] →
    s.checkBelongs.rxSdu.length + pdu.header.li.headD pdu.buf.length ≤ bufferTailroom
  byte : (pdu.header.fi.startAligned = true ∨ pdu.header.li ≠ []) → pdu.header.fi.endAligned = false →
    pdu.header.li.sum < pdu.buf.length
  ends : pdu.header.fi.startAligned = false → pdu.header.li = [] → pdu.header.fi.endAligned = true →
    s.checkBelongs.rxSdu ≠ [] → s.checkBelongs.pduLost = false

/-- The SDU buffer has what is there of the SDU under assembly, up to the SN in front of `vr_ur`. -/
def Assembles (s : UmLteRx) (q : Option Bytes) : Prop :=
  ∀ p, q = some p → s.rxSdu = p ∧ p ≠ [] ∧ (s.vrUrInRxSdu + 1) % s.mod = s.vrUr

section Pdus

variable {s t : UmLteRx} {q : Option Bytes} {pdu : UmdPdu} {sdus : List Bytes}

theorem assembles_none (s : UmLteRx) : Assembles s none := fun p h => by cases h

/-- With nothing in the SDU buffer, a part of the SDU is missing. -/
theorem Assembles.eq_none (h : Assembles s q) (hsdu : s.rxSdu = []) : q = none := by
  cases q with
  | none => rfl
  | some p =>
    obtain ⟨heq, hne, -⟩ := h p rfl
    exact absurd (heq.symm.trans hsdu) hne

theorem Assembles.checkBelongs (h : Assembles s q) : q = none ∨ s.checkBelongs = s := by
  cases q with
  | none => exact .inl rfl
  | some p =>
    obtain ⟨-, -, hlast⟩ := h p rfl
    right
    rw [UmLteRx.checkBelongs, if_pos]
    simp [pduBelongsToRxSdu, hlast]

theorem assembles_checkBelongs (h : Assembles s q) : Assembles s.checkBelongs q := by
  rcases h.checkBelongs with rfl | heq
  · exact assembles_none _
  · rw [heq]
    exact h

/-- The end of a PDU whose last segment was written behind what is there of its SDU. -/
theorem endLastSegment_keeps (fi : Fi) (last : Bytes) (hlast : s.vrUrInRxSdu = s.vrUr)
    (hsdu : ∀ p, q = some p → s.rxSdu = p ++ last)
    (hlost : ∀ p, q = some p → fi.endAligned = true → (s.pduLost && !fi.startAligned) = false)
    (hbyte : ∀ p, q = some p → fi.endAligned = false → p ++ last ≠ []) :
    Assembles (endLastSegment fi s).1.nextSn (joinLast fi q last).1 ∧
      (joinLast fi q last).2.Sublist (endLastSegment fi s).2 := by
  unfold endLastSegment joinLast
  cases hend : fi.endAligned with
  | true =>
    refine ⟨assembles_none _, ?_⟩
    cases q with
    | none => exact List.nil_sublist _
    | some p =>
      simp only [if_true, hlost p rfl hend, Bool.false_eq_true, if_false, hsdu p rfl]
      exact List.Sublist.refl _
  | false =>
    refine ⟨fun p hp => ?_, List.Sublist.refl _⟩
    obtain ⟨p', rfl, rfl⟩ := Option.map_eq_some_iff.mp hp
    refine ⟨hsdu p' rfl, hbyte p' rfl hend, ?_⟩
    change (s.vrUrInRxSdu + 1) % s.mod = (s.vrUr + 1) % s.mod
    rw [hlast]

theorem cut_cons {len : Nat} {lis : List Nat} {buf : Bytes} {r : List Bytes × Bytes}
    (hlen : len ≤ buf.length) (h : cut lis (buf.drop len) = some r) :
    cut (len :: lis) buf = some (buf.take len :: r.1, r.2) := by
  rw [cut, if_pos hlen, h]
  rfl

theorem joinPdu_nil (hli : pdu.header.li = []) : joinPdu q pdu =
    joinLast pdu.header.fi (if pdu.header.fi.startAligned then some [] else q) pdu.buf := by
  simp [joinPdu, hli, cut]

theorem joinPdu_cons {len : Nat} {lis : List Nat} {r : List Bytes × Bytes}
    (hli : pdu.header.li = len :: lis) (hlen : len ≤ pdu.buf.length)
    (h : cut lis (pdu.buf.drop len) = some r) : joinPdu q pdu =
      ((joinLast pdu.header.fi (some []) r.2).1,
        ((if pdu.header.fi.startAligned then some [] else q).map (· ++ pdu.buf.take len)).toList ++ r.1 ++
          (joinLast pdu.header.fi (some []) r.2).2) := by
  simp only [joinPdu, hli, cut_cons hlen h]

theorem endLastSegment_start (fi : Fi) {last : Bytes} (hbyte : fi.endAligned = false → last ≠ []) :
    Assembles (endLastSegment fi (s.withSdu last false s.vrUr)).1.nextSn (joinLast fi (some []) last).1 ∧
      (joinLast fi (some []) last).2.Sublist (endLastSegment fi (s.withSdu last false s.vrUr)).2 :=
  endLastSegment_keeps fi last rfl (fun p hp => by cases hp; rfl) (fun _ _ _ => rfl)
    (fun p hp hend => by cases hp; exact hbyte hend)

/-- Nothing is joined to an SDU that was lost. -/
theorem joinLast_none_keeps {fi : Fi} {last : Bytes} :
    Assembles s (joinLast fi none last).1 ∧ (joinLast fi none last).2.Sublist sdus := by
  unfold joinLast
  split
  · exact ⟨assembles_none _, List.nil_sublist _⟩
  · exact ⟨assembles_none _, List.nil_sublist _⟩

theorem last_ne_nil {lis : List Nat} {buf last : Bytes} {pieces : List Bytes}
    (hcut : cut lis buf = some (pieces, last)) (hsum : lis.sum < buf.length) : last ≠ [] := by
  rintro rfl
  have := length_of_cut hcut
  simp at this
  omega

theorem lowerEdgePdu_keeps (h : Assembles s q) (hsane : Sane pdu) (hkeeps : LowerEdgeKeeps s pdu)
    (hrun : s.lowerEdgePdu pdu = some (t, sdus)) :
    Assembles t.nextSn (joinPdu q pdu).1 ∧ (joinPdu q pdu).2.Sublist sdus := by
  cases hstart : pdu.header.fi.startAligned with
  | true =>
    have hsdu := hkeeps.empty hstart
    obtain rfl := h.eq_none hsdu
    cases hli : pdu.header.li with
    | nil =>
      rw [lowerEdgePdu_nil hli fun _ => hstart, hsdu] at hrun
      obtain ⟨sdu, hcopy, hend⟩ := Option.map_eq_some_iff.mp hrun
      obtain ⟨-, -, rfl⟩ := copyToSdu_eq_some_iff.mp hcopy
      have hbyte := fun hfi => hkeeps.byte hstart hfi
      rw [hli, List.sum_nil, List.length_pos_iff] at hbyte
      have hlast := endLastSegment_keeps (q := some [])
        (s := { s with rxSdu := [] ++ pdu.buf.take pdu.buf.length, vrUrInRxSdu := s.vrUr })
        pdu.header.fi pdu.buf rfl (fun p hp => by cases hp; simp) (fun _ _ _ => by simp [hstart])
        (fun p hp hfi => by cases hp; exact hbyte hfi)
      rw [hend] at hlast
      rw [joinPdu_nil hli, if_pos hstart]
      exact hlast
    | cons len lis =>
      have hlis : ∀ l ∈ lis, l ≤ bufferTailroom := fun l hl =>
        hsane.lis l (by rw [hli]; exact List.mem_cons_of_mem _ hl)
      rw [lowerEdgePdu_cons hli hlis fun _ => hstart, hsdu] at hrun
      obtain ⟨sdu, hcopy, hrun⟩ := Option.bind_eq_some_iff.mp hrun
      obtain ⟨r, hcut, hrun⟩ := Option.bind_eq_some_iff.mp hrun
      obtain ⟨u, hlast, heq⟩ := Option.map_eq_some_iff.mp hrun
      obtain ⟨hlen, -, rfl⟩ := copyToSdu_eq_some_iff.mp hcopy
      cases heq
      have hbehind := hkeeps.behind hstart (by rw [hli]; exact List.cons_ne_nil _ _)
      have hbyte : pdu.header.fi.endAligned = false → r.2 ≠ [] := fun hfi =>
        last_ne_nil (cut_cons hlen hcut) (by rw [← hli]; exact hkeeps.byte hstart hfi)
      rw [lowerEdgeLast, hstart] at hlast
      simp only [Bool.or_true, if_true] at hlast
      split at hlast
      · cases hlast
      · rename_i last hcopy'
        obtain ⟨-, -, rfl⟩ := copyToSdu_eq_some_iff.mp hcopy'
        have hend := endLastSegment_start (s := s) pdu.header.fi hbyte
        have hsame : ({ s.withSdu [] false s.vrUrInRxSdu with
            rxSdu := (s.withSdu [] false s.vrUrInRxSdu).rxSdu ++ r.2.take r.2.length
            vrUrInRxSdu := (s.withSdu [] false s.vrUrInRxSdu).vrUr } : UmLteRx) =
            s.withSdu r.2 false s.vrUr := by
          simp [withSdu]
        rw [hsame] at hlast
        rw [Option.some.inj hlast] at hend
        rw [joinPdu_cons hli hlen hcut, if_pos hstart, if_pos hbehind]
        refine ⟨hend.1, ?_⟩
        simp only [Option.map_some, Option.toList_some, hstart, Bool.not_true, Bool.and_false,
          Bool.false_eq_true, if_false]
        exact hend.2.append_left _
  | false =>
    have hli := hkeeps.single hstart
    rw [joinPdu_nil hli, hstart]
    simp only [Bool.false_eq_true, if_false]
    by_cases hsdu : s.rxSdu = []
    · obtain rfl := h.eq_none hsdu
      rw [lowerEdgePdu_of_lost hsdu hstart] at hrun
      cases hrun
      exact joinLast_none_keeps
    · rw [lowerEdgePdu_nil hli fun hnil => absurd hnil hsdu] at hrun
      obtain ⟨sdu, hcopy, hend⟩ := Option.map_eq_some_iff.mp hrun
      obtain ⟨-, -, rfl⟩ := copyToSdu_eq_some_iff.mp hcopy
      have hlast := endLastSegment_keeps (q := q)
        (s := { s with rxSdu := s.rxSdu ++ pdu.buf.take pdu.buf.length, vrUrInRxSdu := s.vrUr })
        pdu.header.fi pdu.buf rfl (fun p hp => by rw [(h p hp).1, List.take_length])
        (fun _ _ hfi => by rw [hkeeps.ends hstart hfi hsdu]; rfl)
        (fun p hp _ => by simp [(h p hp).2.1])
      rw [hend] at hlast
      exact hlast

/-- A PDU with one part, the last one. -/
theorem inSequencePdu_nil_keeps (h : Assembles s q) (hsane : Sane pdu)
    (hkeeps : InSequenceKeeps s pdu) (hli : pdu.header.li = [])
    (hrun : s.inSequencePdu pdu = some (t, sdus)) :
    Assembles t.nextSn (joinPdu q pdu).1 ∧ (joinPdu q pdu).2.Sublist sdus := by
  have hcheck := assembles_checkBelongs h
  obtain ⟨hempty, hspace, hbyte, hends⟩ := hkeeps
  rw [joinPdu_nil hli]
  rw [hli] at hspace hbyte
  by_cases hlost : s.checkBelongs.rxSdu = [] ∧ pdu.header.fi.startAligned = false
  · obtain rfl := hcheck.eq_none hlost.1
    rw [inSequencePdu_nil_of_lost hli hlost.1 hlost.2] at hrun
    cases hrun
    rw [hlost.2]
    exact joinLast_none_keeps
  · have hgo : s.checkBelongs.rxSdu = [] → pdu.header.fi.startAligned = true := fun hnil =>
      Bool.of_not_eq_false fun hnot => hlost ⟨hnil, hnot⟩
    have happend : appendLast s.checkBelongs.rxSdu pdu.buf = some (s.checkBelongs.rxSdu ++ pdu.buf) := by
      have hfits : s.checkBelongs.rxSdu.length + pdu.buf.length ≤ bufferTailroom := by
        by_cases hnil : s.checkBelongs.rxSdu = []
        · rw [hnil, List.length_nil, Nat.zero_add]
          exact hsane.buf
        · exact hspace hnil
      rw [appendLast, if_pos (by simp only [maxBufferSizeBytes]; omega)]
      exact copyToSdu_eq_some_iff.mpr ⟨Nat.le_refl _, hfits, by rw [List.take_length]⟩
    rw [inSequencePdu_nil hli hgo, happend] at hrun
    simp only [Option.map_some, Option.some.injEq] at hrun
    have hlast := endLastSegment_keeps (q := if pdu.header.fi.startAligned then some [] else q)
      (s := { s.checkBelongs with
        rxSdu := s.checkBelongs.rxSdu ++ pdu.buf, vrUrInRxSdu := s.checkBelongs.vrUr })
      pdu.header.fi pdu.buf rfl
      (fun p hp => ?_) (fun p hp hfi => ?_) (fun p hp hfi => ?_)
    · rw [hrun] at hlast
      exact hlast
    · split at hp
      · rename_i hstart
        cases hp
        simp only [hempty hstart]
      · rw [(hcheck p hp).1]
    · split at hp
      · rename_i hstart
        rw [hstart, Bool.not_true, Bool.and_false]
      · rename_i hstart
        have hne : s.checkBelongs.rxSdu ≠ [] := fun hnil => hstart (hgo hnil)
        change (s.checkBelongs.pduLost && !pdu.header.fi.startAligned) = false
        rw [hends (by simpa using hstart) hli hfi hne, Bool.false_and]
    · split at hp
      · rename_i hstart
        cases hp
        have hpos := hbyte (.inl hstart) hfi
        rw [List.sum_nil, List.length_pos_iff] at hpos
        exact hpos
      · simp [(hcheck p hp).2.1]

/-- A PDU with a first part that ends in it. -/
theorem inSequencePdu_cons_keeps {len : Nat} {lis : List Nat} (h : Assembles s q)
    (hsane : Sane pdu) (hkeeps : InSequenceKeeps s pdu) (hli : pdu.header.li = len :: lis)
    (hrun : s.inSequencePdu pdu = some (t, sdus)) :
    Assembles t.nextSn (joinPdu q pdu).1 ∧ (joinPdu q pdu).2.Sublist sdus := by
  have hcheck := assembles_checkBelongs h
  obtain ⟨hempty, hspace, hbyte, -⟩ := hkeeps
  have hlis : ∀ l ∈ lis, l ≤ bufferTailroom := fun l hl =>
    hsane.lis l (by rw [hli]; exact List.mem_cons_of_mem _ hl)
  rw [hli] at hspace hbyte
  have hcons : len :: lis ≠ [] := List.cons_ne_nil _ _
  have hrest : (pdu.buf.drop len).length ≤ bufferTailroom := by
    have := hsane.buf
    rw [List.length_drop]
    omega
  by_cases hlost : s.checkBelongs.rxSdu = [] ∧ pdu.header.fi.startAligned = false
  · obtain rfl := hcheck.eq_none hlost.1
    rw [inSequencePdu_cons_of_lost hli hlis hlost.1 hlost.2] at hrun
    split at hrun
    · rename_i hshort
      cases hrun
      have hnone : cut (len :: lis) pdu.buf = none := by rw [cut, if_neg (by omega)]
      simp only [joinPdu, hli, hnone]
      exact ⟨assembles_none _, List.nil_sublist _⟩
    · rename_i hlen
      obtain ⟨r, hcut, hrun⟩ := Option.bind_eq_some_iff.mp hrun
      rw [appendLast_of_cut hcut hrest] at hrun
      cases hrun
      have hend := endLastSegment_start (s := s.checkBelongs) pdu.header.fi fun hfi =>
        last_ne_nil (cut_cons (by omega) hcut) (hbyte (.inr hcons) hfi)
      rw [joinPdu_cons hli (by omega) hcut, hlost.2]
      exact ⟨hend.1, hend.2.append_left _⟩
  · have hgo : s.checkBelongs.rxSdu = [] → pdu.header.fi.startAligned = true := fun hnil =>
      Bool.of_not_eq_false fun hnot => hlost ⟨hnil, hnot⟩
    have hfits : ¬ len > bufferTailroom - s.checkBelongs.rxSdu.length := by
      by_cases hnil : s.checkBelongs.rxSdu = []
      · have := hsane.lis len (by rw [hli]; exact List.mem_cons_self)
        rw [hnil, List.length_nil]
        omega
      · have := hspace hnil
        rw [List.headD_cons] at this
        omega
    rw [inSequencePdu_cons hli hlis hgo, if_neg hfits] at hrun
    obtain ⟨sdu, hcopy, hrun⟩ := Option.bind_eq_some_iff.mp hrun
    obtain ⟨r, hcut, hrun⟩ := Option.bind_eq_some_iff.mp hrun
    obtain ⟨hlen, -, rfl⟩ := copyToSdu_eq_some_iff.mp hcopy
    rw [appendLast_of_cut hcut hrest] at hrun
    cases hrun
    have hend := endLastSegment_start (s := s.checkBelongs) pdu.header.fi fun hfi =>
      last_ne_nil (cut_cons hlen hcut) (hbyte (.inr hcons) hfi)
    rw [joinPdu_cons hli hlen hcut]
    refine ⟨hend.1, ?_⟩
    have hfirst : ((if pdu.header.fi.startAligned then some [] else q).map
        (· ++ pdu.buf.take len)).toList.Sublist [s.checkBelongs.rxSdu ++ pdu.buf.take len] := by
      split
      · rename_i hstart
        rw [hempty hstart]
        exact List.Sublist.refl _
      · cases q with
        | none => exact List.nil_sublist _
        | some p =>
          rw [(hcheck p rfl).1]
          exact List.Sublist.refl _
    rw [List.append_assoc]
    exact hfirst.append (hend.2.append_left _)

theorem inSequencePdu_keeps (h : Assembles s q) (hsane : Sane pdu) (hkeeps : InSequenceKeeps s pdu)
    (hrun : s.inSequencePdu pdu = some (t, sdus)) :
    Assembles t.nextSn (joinPdu q pdu).1 ∧ (joinPdu q pdu).2.Sublist sdus := by
  cases hli : pdu.header.li with
  | nil => exact inSequencePdu_nil_keeps h hsane hkeeps hli hrun
  | cons len lis => exact inSequencePdu_cons_keeps h hsane hkeeps hli hrun

end Pdus

/-- The PDU `vr_ur` is kept in a round at the lower edge. -/
def LowerEdgeKept (s : UmLteRx) : Prop :=
  ∀ pdu, s.rxWindow.find? s.vrUr = some pdu → LowerEdgeKeeps s pdu

/-- The PDU `vr_ur` is kept in a round over the SNs in sequence. -/
def InSequenceKept (s : UmLteRx) : Prop :=
  ∀ pdu, s.rxWindow.find? s.vrUr = some pdu → InSequenceKeeps s pdu

/-- The PDUs are kept that both loops of `reassemble_rx_sdus` process. -/
structure ReassemblyKeeps (s : UmLteRx) : Prop where
  lowerEdge : RoundsWithin (fun s => !s.insideReorderingWindow s.vrUr) lowerEdgeRound LowerEdgeKept s.mod s
  inSequence : ∀ t sdus, s.catchUp = some (t, sdus) →
    RoundsWithin (fun s => s.rxWindow.contains s.vrUr) inSequenceRound InSequenceKept t.rxWindow.size t

/-- The PDUs are kept that `timer_expired` processes. -/
def ExpiryKeeps (s : UmLteRx) : Prop :=
  RoundsWithin (fun s => decide (s.rxModBase s.vrUr < s.rxModBase s.vrUx)) expiryRound
    (fun s => ReassemblyKeeps { s with vrUr := (s.vrUr + 1) % s.mod }) s.mod
    { s with pduLost := true, rxSdu := [] }

/-- The PDUs are kept that a call processes. -/
def CallKeeps (s : UmLteRx) : Op → Prop
  | .writePdu bytes =>
    ∀ header pdu, readUmdHeader s.snSize bytes = some header → s.discards header.sn = false →
      stripHeader header bytes = some pdu → ReassemblyKeeps (s.place pdu)
  | .timerExpired =>
    s.reorderingTimer.isRunning = true → s.tReordering ≠ 0 →
      ExpiryKeeps { s with reorderingTimer := .expired }
  | .reestablish =>
    s.reorderingTimer.isRunning = true →
      ExpiryKeeps { s with reorderingTimer := s.reorderingTimer.stop }
  | .stop => True

section Calls

variable {s t : UmLteRx} {q : Option Bytes} {sdus : List Bytes}

/-- What a loop has to keep: the SDU buffer has what is there of the SDU under assembly, and the intact
SDUs so far are delivered. -/
structure Kept (q : Option Bytes) (s : UmLteRx) (xs : List (Option UmdPdu)) (ys : List Bytes) : Prop where
  bounded : Bounded s
  assembles : Assembles s (intact q xs).1
  delivered : (intact q xs).2.Sublist ys

theorem Kept.lowerEdge {xs : List (Option UmdPdu)} {ys : List Bytes} (h : Kept q s xs ys)
    (hkept : LowerEdgeKept s) (hround : s.lowerEdgeRound = some (t, sdus)) :
    Kept q t (xs ++ s.atVrUr) (ys ++ sdus) := by
  obtain ⟨u, hframe, rfl⟩ := lowerEdgeRound_frame hround
  suffices hnext : Assembles u.nextSn (intact q (xs ++ s.atVrUr)).1 ∧
      (intact q (xs ++ s.atVrUr)).2.Sublist (ys ++ sdus) from
    ⟨h.bounded.next hframe, hnext.1, hnext.2⟩
  rw [atVrUr, intact_append]
  unfold lowerEdgeRound at hround
  cases hfind : s.rxWindow.find? s.vrUr with
  | none =>
    rw [hfind] at hround
    simp only [Option.some.injEq, Prod.mk.injEq] at hround
    obtain ⟨-, rfl⟩ := hround
    rw [List.append_nil]
    exact ⟨assembles_none _, by rw [intact, intact, List.append_nil]; exact h.delivered⟩
  | some pdu =>
    rw [hfind] at hround
    obtain ⟨⟨v, out⟩, hpdu, heq⟩ := Option.map_eq_some_iff.mp hround
    simp only [Prod.mk.injEq] at heq
    obtain ⟨heq, rfl⟩ := heq
    have hkeeps := lowerEdgePdu_keeps h.assembles (h.bounded.pdus _ _ hfind) (hkept pdu hfind) hpdu
    rw [heq] at hkeeps
    simp only [intact, List.append_nil]
    exact ⟨hkeeps.1, h.delivered.append hkeeps.2⟩

theorem Kept.inSequence {xs : List (Option UmdPdu)} {ys : List Bytes} (h : Kept q s xs ys)
    (hcond : s.rxWindow.contains s.vrUr = true) (hkept : InSequenceKept s)
    (hround : s.inSequenceRound = some (t, sdus)) : Kept q t (xs ++ s.atVrUr) (ys ++ sdus) := by
  obtain ⟨u, hframe, rfl⟩ := inSequenceRound_frame hcond hround
  suffices hnext : Assembles u.nextSn (intact q (xs ++ s.atVrUr)).1 ∧
      (intact q (xs ++ s.atVrUr)).2.Sublist (ys ++ sdus) from
    ⟨h.bounded.next hframe, hnext.1, hnext.2⟩
  rw [atVrUr, intact_append]
  obtain ⟨pdu, hfind⟩ := (OrdMap.contains_iff _ _).mp hcond
  unfold inSequenceRound at hround
  rw [hfind] at hround ⊢
  obtain ⟨⟨v, out⟩, hpdu, heq⟩ := Option.map_eq_some_iff.mp hround
  simp only [Prod.mk.injEq] at heq
  obtain ⟨heq, rfl⟩ := heq
  have hkeeps := inSequencePdu_keeps h.assembles (h.bounded.pdus _ _ hfind) (hkept pdu hfind) hpdu
  rw [heq] at hkeeps
  simp only [intact, List.append_nil]
  exact ⟨hkeeps.1, h.delivered.append hkeeps.2⟩

/-- `reassemble_rx_sdus` delivers the intact SDUs of the SNs that it passes. -/
theorem kept_reassembleRxSdus (h : Assembles s q) (hb : Bounded s) (hkeeps : ReassemblyKeeps s)
    (hrun : s.reassembleRxSdus = some (t, sdus)) : Kept q t s.reassemblyPassed sdus := by
  obtain ⟨u, out, out', hcatch, hadvance, rfl⟩ := reassembleRxSdus_eq_some hrun
  have hstart : Kept q s [] [] := ⟨hb, h, List.Sublist.refl _⟩
  have hlower := loop_invariant atVrUr (Kept q)
    (fun _ _ _ _ _ _ hkept hinv hround => hinv.lowerEdge hkept hround) hstart hkeeps.lowerEdge hcatch
  have hsequence := loop_invariant atVrUr (Kept q)
    (fun _ _ _ _ _ hcond hkept hinv hround => hinv.inSequence hcond hkept hround)
    hlower (hkeeps.inSequence u out hcatch) hadvance
  rw [reassemblyPassed, hcatch]
  exact hsequence

theorem waits_reassembleRxSdus (hrun : s.reassembleRxSdus = some (t, sdus)) :
    t.rxWindow.find? t.vrUr = none := by
  obtain ⟨u, out, out', -, hadvance, -⟩ := reassembleRxSdus_eq_some hrun
  simpa [OrdMap.contains] using loop_exit hadvance

/-- `timer_expired` gives up an SDU of which the next SN is missing, and delivers the intact SDUs of the
SNs that it passes. -/
theorem kept_passLost (h : CallInv s) (hq : Assembles s q) (hb : Bounded s)
    (hrunning : s.rxModBase s.vrUr < s.rxModBase s.vrUx ∨ s.rxSdu = []) (hkeeps : ExpiryKeeps s)
    (hrun : s.passLost = some (t, sdus)) :
    Assembles t (intact q s.expiryPassed).1 ∧ (intact q s.expiryPassed).2.Sublist sdus := by
  obtain ⟨⟨u, out⟩, hloop, heq⟩ := Option.map_eq_some_iff.mp hrun
  have hsame : intact q s.expiryPassed = intact none s.expiryPassed := by
    cases hcond : decide (s.rxModBase s.vrUr < s.rxModBase s.vrUx) with
    | false =>
      rw [hq.eq_none (hrunning.resolve_left (of_decide_eq_false hcond))]
    | true =>
      have hpos : 0 < s.mod := Nat.lt_of_le_of_lt (Nat.zero_le _) h.vrUr
      unfold expiryPassed
      -- The first SN that is passed is missing.
      cases hmod : s.mod with
      | zero => omega
      | succ n =>
        have hcond' : decide ({ s with pduLost := true, rxSdu := [] }.rxModBase s.vrUr <
          { s with pduLost := true, rxSdu := [] }.rxModBase s.vrUx) = true := hcond
        have hfind : { s with pduLost := true, rxSdu := [] }.atVrUr = [none] := by
          rw [atVrUr]
          exact congrArg (fun x => [x]) h.waits
        rw [seen, if_pos hcond', hfind]
        rfl
  have hstart : Kept none { s with pduLost := true, rxSdu := [] } [] [] :=
    ⟨⟨hb.pdus, Nat.zero_le _⟩, assembles_none _, List.Sublist.refl _⟩
  have hkept := loop_invariant
    (fun s => s.atVrUr ++ reassemblyPassed { s with vrUr := (s.vrUr + 1) % s.mod })
    (fun v xs ys => v.rxWindow.find? v.vrUr = none ∧ Kept none v xs ys)
    (fun v xs ys w out _ hguard hinv hround => by
      refine ⟨waits_reassembleRxSdus hround, ?_⟩
      have hnext := kept_reassembleRxSdus (q := none) (assembles_none _)
        (⟨hinv.2.bounded.pdus, hinv.2.bounded.sdu⟩ : Bounded { v with vrUr := (v.vrUr + 1) % v.mod })
        hguard hround
      have hpass : intact none (xs ++ (v.atVrUr ++ reassemblyPassed { v with vrUr := (v.vrUr + 1) % v.mod })) =
          ((intact none (reassemblyPassed { v with vrUr := (v.vrUr + 1) % v.mod })).1,
            (intact none xs).2 ++
              (intact none (reassemblyPassed { v with vrUr := (v.vrUr + 1) % v.mod })).2) := by
        rw [intact_append, atVrUr, hinv.1]
        rfl
      refine ⟨hnext.bounded, ?_, ?_⟩
      · rw [hpass]
        exact hnext.assembles
      · rw [hpass]
        exact hinv.2.delivered.append hnext.delivered)
    ⟨h.waits, hstart⟩ hkeeps hloop
  obtain ⟨-, -, hassembles, hdelivered⟩ := hkept
  cases heq
  rw [hsame]
  refine ⟨?_, hdelivered⟩
  unfold runTimer
  split
  · exact hassembles
  · exact hassembles

theorem assembles_timers (h : Assembles s q) : Assembles s.stopTimer.startTimer q := by
  have hstop : Assembles s.stopTimer q := by
    unfold stopTimer
    split
    · exact h
    · exact h
  unfold startTimer runTimer
  split
  · exact hstop
  · split
    · exact hstop
    · exact hstop

theorem assembles_place (h : Assembles s q) (pdu : UmdPdu) : Assembles (s.place pdu) q := by
  unfold place
  simp only
  split
  · exact h
  · exact h

theorem kept_step {op : Op} (h : CallInv s) (hq : Assembles s q) (hb : Bounded s)
    (hkeeps : CallKeeps s op) (hstep : s.step op = some (t, sdus)) :
    Assembles t (intact q (s.passed op)).1 ∧ (intact q (s.passed op)).2.Sublist sdus := by
  cases op with
  | writePdu bytes =>
    obtain ⟨rfl, rfl, header, hheader, hdiscard⟩ |
      ⟨header, pdu, u, hheader, hkeep, hstrip, hrun, rfl⟩ := handleDataPdu_eq_some hstep
    · have hpassed : t.passed (.writePdu bytes) = [] := by
        simp only [passed, hheader, hdiscard, if_true]
      rw [hpassed]
      exact ⟨hq, List.Sublist.refl _⟩
    · have hpassed : s.passed (.writePdu bytes) = reassemblyPassed (s.place pdu) := by
        simp only [passed, hheader, hkeep, hstrip, Bool.false_eq_true, if_false]
      have hsane : Sane pdu := by
        rw [stripHeader_of_readUmdHeader hheader] at hstrip
        split at hstrip
        · rename_i hbytes
          cases hstrip
          exact sane_of_readUmdHeader hheader hbytes
        · cases hstrip
      have hkept := kept_reassembleRxSdus (assembles_place hq pdu) (hb.place hsane)
        (hkeeps header pdu hheader hkeep hstrip) hrun
      rw [hpassed]
      exact ⟨assembles_timers hkept.assembles, hkept.delivered⟩
  | timerExpired =>
    have hstep : s.timerExpired = some (t, sdus) := hstep
    unfold timerExpired at hstep
    split at hstep
    · rename_i hstopped
      cases hstep
      have hnot : ¬ (s.reorderingTimer.isRunning = true ∧ s.tReordering ≠ 0) := fun hrun => by
        simp [hrun.1] at hstopped
      rw [passed, if_neg hnot]
      exact ⟨hq, List.Sublist.refl _⟩
    · rename_i hrunning
      have hrunning : s.reorderingTimer.isRunning = true := by simpa using hrunning
      split at hstep
      · rename_i hzero
        cases hstep
        rw [passed, if_neg fun hrun => hrun.2 hzero]
        exact ⟨hq, List.Sublist.refl _⟩
      · rename_i hlength
        rw [passed, if_pos ⟨hrunning, hlength⟩]
        have hexpired : CallInv { s with reorderingTimer := .expired } :=
          ⟨⟨⟨h.vrUr, h.vrUh, h.keys⟩, h.waits⟩, h.vrUx, fun _ => h.timer hrunning⟩
        exact kept_passLost hexpired hq ⟨hb.pdus, hb.sdu⟩ (h.timer hrunning) (hkeeps hrunning hlength) hstep
  | reestablish =>
    have hstep : s.reestablish = some (t, sdus) := hstep
    unfold reestablish at hstep
    split at hstep
    · rename_i hrunning
      obtain ⟨⟨u, out⟩, hrun, heq⟩ := Option.map_eq_some_iff.mp hstep
      cases heq
      have hstopped : CallInv { s with reorderingTimer := s.reorderingTimer.stop } :=
        ⟨⟨⟨h.vrUr, h.vrUh, h.keys⟩, h.waits⟩, h.vrUx, fun _ => h.timer hrunning⟩
      have hkept := kept_passLost hstopped hq ⟨hb.pdus, hb.sdu⟩ (h.timer hrunning) (hkeeps hrunning) hrun
      rw [passed, if_pos hrunning, intact_append]
      refine ⟨assembles_none _, ?_⟩
      simpa only [intact, List.append_nil] using hkept.2
    · rename_i hstopped
      cases hstep
      rw [passed, if_neg hstopped]
      exact ⟨assembles_none _, List.Sublist.refl _⟩
  | stop =>
    cases hstep
    exact ⟨assembles_none _, List.Sublist.refl _⟩

theorem kept_run {ops : List Op} {out : List (List Bytes)} (h : CallInv s) (hq : Assembles s q)
    (hb : Bounded s) (hkeeps : StepsWithin step CallKeeps s ops) (hrun : run step s ops = some (t, out)) :
    (intact q (passedInRun s ops)).2.Sublist out.flatten := by
  induction ops generalizing s q out with
  | nil =>
    cases hrun
    exact List.Sublist.refl _
  | cons op ops ih =>
    obtain ⟨u, sdus, rest, hstep, hrest, rfl⟩ := run_cons_eq_some.mp hrun
    obtain ⟨hassembles, hdelivered⟩ := kept_step h hq hb hkeeps.1 hstep
    have htail := ih (h.step hstep) hassembles (hb.step hstep) (hkeeps.2 u sdus hstep) hrest
    rw [passedInRun, hstep, intact_append, List.flatten_cons]
    exact hdelivered.append htail

end Calls

/-- In every run whose calls meet the condition, each SDU is delivered whose PDUs were all in the window
when `vr_ur` passed them. -/
theorem intact_sublist {snSize : UmdSnSize} {tReordering : Nat} {ops : List Op} {s : UmLteRx}
    {out : List (List Bytes)} (hrun : run step (init snSize tReordering) ops = some (s, out))
    (hkeeps : StepsWithin step CallKeeps (init snSize tReordering) ops) :
    (intact none (passedInRun (init snSize tReordering) ops)).2.Sublist out.flatten :=
  kept_run (callInv_init snSize tReordering) (assembles_none _)
    ⟨fun sn pdu h => by simp [init] at h, Nat.zero_le _⟩ hkeeps hrun

/-- An SDU of one PDU. -/
theorem intact_sublist_single :
    (intact none (passedInRun (init .size5bits 5) [.writePdu [0, 7]])).2.Sublist [[7]] := by
  have hrun : run step (init .size5bits 5) [.writePdu [0, 7]] = some (_, [[[7]]]) := rfl
  refine intact_sublist hrun ⟨fun header pdu hheader _ hstrip => ?_, fun _ _ _ => trivial⟩
  cases hheader
  cases hstrip
  refine ⟨roundsWithin_of_exit rfl, fun t sdus hcatch => ?_⟩
  cases hcatch
  refine fun _ => ⟨fun q hq => ?_, fun t sdus hround => ?_⟩
  · cases hq
    exact ⟨fun _ => rfl, fun h => absurd rfl h, fun _ _ => by decide, fun h => by cases h⟩
  · cases hround
    exact roundsWithin_of_exit rfl

/-- An SDU of two PDUs behind a lost PDU. The two are there in time, and the SDU is dropped. -/
theorem not_intact_sublist : ¬ ∀ (snSize : UmdSnSize) (tReordering : Nat) (ops : List Op) (s : UmLteRx)
    (out : List (List Bytes)), run step (init snSize tReordering) ops = some (s, out) →
      (intact none (passedInRun (init snSize tReordering) ops)).2.Sublist out.flatten := by
  intro hall
  have hrun : run step (init .size5bits 5) [.writePdu [65, 1], .timerExpired, .writePdu [130, 2]] =
      some (_, [[], [], []]) := rfl
  have hsub := hall _ _ _ _ _ hrun
  have hsdus : (intact none (passedInRun (init .size5bits 5)
      [.writePdu [65, 1], .timerExpired, .writePdu [130, 2]])).2 = [[1, 2]] := by decide
  rw [hsdus] at hsub
  cases hsub

end UmLteRx

end Odss.Rlc
