import Odss.Lib.CyclicDist
import Odss.Lib.Run
import Odss.Rlc.UmLte

/-!
# `Odss.Proofs.UmLteRounds`: the rounds of the LTE UM receiver

`cut` divides a PDU at its length indicators. `lowerEdgeSegments_cons` and `inSequenceSegments_cons`
say what the two loops of `reassemble_rx_sdus` do with the segments of a PDU, as long as they
stay in the buffers, and `lowerEdgeRound_frame` and `inSequenceRound_frame` what a round leaves alone.

`Ordered` says that the PDUs in the window lie between `vr_ur` and `vr_uh`. It holds in every run
(`ordered_of_run`), and all loops end because of it.
-/

set_option linter.all false

namespace Odss.Rlc

open Odss.Lib

/-! ### The segments of a PDU -/

/-- The segments of a PDU that have a length indicator, and the bytes behind them. `none` when the
PDU is too short. -/
def cut : List Nat → Bytes → Option (List Bytes × Bytes)
  | [], buf => some ([], buf)
  | len :: lis, buf =>
    if len ≤ buf.length then (cut lis (buf.drop len)).map fun r => (buf.take len :: r.1, r.2)
    else none

/-- The bytes behind the segments. -/
theorem length_of_cut {lis : List Nat} {buf last : Bytes} {pieces : List Bytes}
    (h : cut lis buf = some (pieces, last)) : lis.sum + last.length = buf.length := by
  induction lis generalizing buf pieces with
  | nil => cases h; simp
  | cons len lis ih =>
    rw [cut] at h
    split at h
    · rename_i hle
      obtain ⟨⟨ps, l⟩, hcut, heq⟩ := Option.map_eq_some_iff.mp h
      cases heq
      have hrest := ih hcut
      simp only [List.length_drop, List.sum_cons] at hrest ⊢
      omega
    · cases h

theorem cut_ne_none_iff {lis : List Nat} {buf : Bytes} :
    (∃ r, cut lis buf = some r) ↔ lis.sum ≤ buf.length := by
  constructor
  · rintro ⟨⟨pieces, last⟩, h⟩
    have := length_of_cut h
    omega
  · intro h
    induction lis generalizing buf with
    | nil => exact ⟨_, rfl⟩
    | cons len lis ih =>
      simp only [List.sum_cons] at h
      obtain ⟨r, hr⟩ : ∃ r, cut lis (buf.drop len) = some r :=
        ih (by simp only [List.length_drop]; omega)
      exact ⟨_, by rw [cut, if_pos (by omega), hr]; rfl⟩

theorem copyToSdu_eq_some_iff {sdu buf t : Bytes} {len : Nat} :
    copyToSdu sdu buf len = some t ↔
      len ≤ buf.length ∧ sdu.length + len ≤ bufferTailroom ∧ t = sdu ++ buf.take len := by
  unfold copyToSdu
  split
  · rename_i h
    constructor
    · intro heq
      cases heq
      exact ⟨h.1, h.2, rfl⟩
    · rintro ⟨-, -, rfl⟩
      rfl
  · rename_i h
    constructor
    · intro heq
      cases heq
    · rintro ⟨h₁, h₂, -⟩
      exact absurd ⟨h₁, h₂⟩ h

/-- A segment of a PDU alone fits a buffer. -/
theorem copyToSdu_nil {buf : Bytes} {len : Nat} (hlen : len ≤ bufferTailroom) :
    copyToSdu [] buf len = if len ≤ buf.length then some (buf.take len) else none := by
  unfold copyToSdu
  simp [hlen]

namespace UmLteRx

/-- The state with another SDU under assembly. -/
def withSdu (s : UmLteRx) (sdu : Bytes) (lost : Bool) (last : Nat) : UmLteRx :=
  { s with rxSdu := sdu, pduLost := lost, vrUrInRxSdu := last }

/-- A PDU that goes on with the SDU or starts with one is not dropped. -/
theorem goesOn_of_start {fi : Fi} {sdu : Bytes} (hstart : sdu = [] → fi.startAligned = true) :
    (sdu.isEmpty && !fi.startAligned) = false := by
  cases h : sdu.isEmpty with
  | false => rfl
  | true => simp [hstart (List.isEmpty_iff.mp h)]

section Segments

variable {fi : Fi} {s : UmLteRx} {buf : Bytes} {len : Nat} {lis : List Nat}

theorem lowerEdgeSegments_false (hlis : ∀ l ∈ lis, l ≤ bufferTailroom) (hsdu : s.rxSdu = [])
    (hlost : s.pduLost = false) :
    lowerEdgeSegments fi false lis s buf = (cut lis buf).map fun r =>
      (s, r.2, if s.vrUr = (s.vrUrInRxSdu + 1) % s.mod then r.1 else []) := by
  induction lis generalizing buf with
  | nil => simp [lowerEdgeSegments_nil, cut]
  | cons len lis ih =>
    have hsame : { s with rxSdu := [], pduLost := false } = s := by rw [← hsdu, ← hlost]
    have hrest : lowerEdgeSegments fi false lis s (buf.drop len) = _ :=
      ih fun l hl => hlis l (List.mem_cons_of_mem _ hl)
    rw [lowerEdgeSegments, cut, hsdu, copyToSdu_nil (hlis len List.mem_cons_self), hsame, hrest, hlost]
    by_cases hle : len ≤ buf.length
    · simp only [if_pos hle]
      cases cut lis (buf.drop len) with
      | none => simp
      | some r => by_cases hnext : s.vrUr = (s.vrUrInRxSdu + 1) % s.mod <;> simp [hnext]
    · simp [hle]

/-- The loop at the lower edge over a PDU with a length indicator that goes on with an SDU or starts
with one. -/
theorem lowerEdgeSegments_cons (hlis : ∀ l ∈ lis, l ≤ bufferTailroom)
    (hstart : s.rxSdu = [] → fi.startAligned = true) :
    lowerEdgeSegments fi true (len :: lis) s buf =
      (copyToSdu s.rxSdu buf len).bind fun sdu => (cut lis (buf.drop len)).map fun r =>
        (s.withSdu [] false s.vrUrInRxSdu, r.2,
          if s.vrUr = (s.vrUrInRxSdu + 1) % s.mod then
            if s.pduLost && !fi.startAligned then r.1 else sdu :: r.1
          else []) := by
  have hgo : (s.rxSdu.isEmpty && true && !fi.startAligned) = false := by
    rw [Bool.and_true, goesOn_of_start hstart]
  rw [lowerEdgeSegments, hgo]
  simp only [Bool.false_eq_true, if_false]
  cases copyToSdu s.rxSdu buf len with
  | none => rfl
  | some sdu =>
    have hrest : lowerEdgeSegments fi false lis { s with rxSdu := [], pduLost := false }
        (buf.drop len) = _ := lowerEdgeSegments_false hlis rfl rfl
    simp only [hrest, Option.bind_some]
    cases cut lis (buf.drop len) with
    | none => rfl
    | some r =>
      by_cases hnext : s.vrUr = (s.vrUrInRxSdu + 1) % s.mod
      · simp [withSdu, ← hnext]
      · simp [withSdu, hnext]

/-- The loop over the SNs in sequence, behind its first segment. -/
theorem inSequenceSegments_false (hlis : ∀ l ∈ lis, l ≤ bufferTailroom) (hsdu : s.rxSdu = [])
    (hlost : s.pduLost = false) :
    inSequenceSegments fi false lis s buf = (cut lis buf).map fun r =>
      (if lis = [] then s else s.withSdu [] false s.vrUr, some r.2, r.1) := by
  induction lis generalizing s buf with
  | nil => simp [inSequenceSegments_nil, cut]
  | cons len lis ih =>
    have hlen := hlis len List.mem_cons_self
    have hfits : ¬ len > bufferTailroom - ([] : Bytes).length := by simpa using hlen
    have hrest : inSequenceSegments fi false lis
        { s with rxSdu := [], vrUrInRxSdu := s.vrUr, pduLost := false } (buf.drop len) = _ :=
      ih (fun l hl => hlis l (List.mem_cons_of_mem _ hl)) rfl rfl
    rw [inSequenceSegments, cut, hsdu, copyToSdu_nil hlen]
    simp only [Bool.and_false, Bool.false_and, Bool.false_eq_true, if_false, if_neg hfits, hrest]
    by_cases hle : len ≤ buf.length
    · simp only [if_pos hle]
      cases cut lis (buf.drop len) with
      | none => simp
      | some r => by_cases hnil : lis = [] <;> simp [hnil, withSdu]
    · simp [hle]

/-- The loop over the SNs in sequence over a PDU that starts in an SDU of which nothing is there. -/
theorem inSequenceSegments_cons_of_lost (hlis : ∀ l ∈ lis, l ≤ bufferTailroom) (hsdu : s.rxSdu = [])
    (hstart : fi.startAligned = false) :
    inSequenceSegments fi true (len :: lis) s buf =
      if buf.length < len then some (s, none, [])
      else (cut lis (buf.drop len)).map fun r =>
        (s.withSdu [] false (if lis = [] then s.vrUrInRxSdu else s.vrUr), some r.2, r.1) := by
  have hrest : inSequenceSegments fi false lis { s with rxSdu := [], pduLost := false }
      (buf.drop len) = _ := inSequenceSegments_false hlis rfl rfl
  rw [inSequenceSegments, hsdu, hstart]
  simp only [List.isEmpty_nil, Bool.and_self, Bool.not_false, if_true, hrest]
  cases cut lis (buf.drop len) with
  | none => rfl
  | some r => by_cases hnil : lis = [] <;> simp [hnil, withSdu]

/-- The loop over the SNs in sequence over a PDU with a length indicator that goes on with an SDU or
starts with one. -/
theorem inSequenceSegments_cons (hlis : ∀ l ∈ lis, l ≤ bufferTailroom)
    (hstart : s.rxSdu = [] → fi.startAligned = true) :
    inSequenceSegments fi true (len :: lis) s buf =
      if len > bufferTailroom - s.rxSdu.length then some ({ s with rxSdu := [] }, none, [])
      else
        (copyToSdu s.rxSdu buf len).bind fun sdu => (cut lis (buf.drop len)).map fun r =>
          (s.withSdu [] false s.vrUr, some r.2, sdu :: r.1) := by
  have hgo : (s.rxSdu.isEmpty && true && !fi.startAligned) = false := by
    rw [Bool.and_true, goesOn_of_start hstart]
  rw [inSequenceSegments, hgo]
  simp only [Bool.false_eq_true, if_false]
  split
  · rfl
  · cases copyToSdu s.rxSdu buf len with
    | none => rfl
    | some sdu =>
      have hrest : inSequenceSegments fi false lis
          { s with rxSdu := [], vrUrInRxSdu := s.vrUr, pduLost := false } (buf.drop len) = _ :=
        inSequenceSegments_false hlis rfl rfl
      simp only [hrest, Option.bind_some]
      cases cut lis (buf.drop len) with
      | none => rfl
      | some r => by_cases hnil : lis = [] <;> simp [hnil, withSdu]

end Segments

/-! ### A PDU in a round -/

section Pdu

variable {s : UmLteRx} {pdu : UmdPdu} {len : Nat} {lis : List Nat}

/-- Without the start of its SDU, a PDU at the lower edge is dropped as a whole. -/
theorem lowerEdgePdu_of_lost (hsdu : s.rxSdu = []) (hstart : pdu.header.fi.startAligned = false) :
    s.lowerEdgePdu pdu = some (s, []) := by
  have hsame : { s with rxSdu := [] } = s := by rw [← hsdu]
  cases hli : pdu.header.li with
  | nil => simp [lowerEdgePdu, hli, lowerEdgeSegments_nil, lowerEdgeLast, hsdu, hstart]
  | cons len lis =>
    simp [lowerEdgePdu, hli, lowerEdgeSegments, lowerEdgeLast, hsdu, hstart, hsame]

theorem lowerEdgePdu_nil (hli : pdu.header.li = [])
    (hstart : s.rxSdu = [] → pdu.header.fi.startAligned = true) :
    s.lowerEdgePdu pdu = (copyToSdu s.rxSdu pdu.buf pdu.buf.length).map fun sdu =>
      endLastSegment pdu.header.fi { s with rxSdu := sdu, vrUrInRxSdu := s.vrUr } := by
  have hgo : (!s.rxSdu.isEmpty || pdu.header.fi.startAligned) = true := by
    rw [← Bool.not_not pdu.header.fi.startAligned, ← Bool.not_and, goesOn_of_start hstart]
    rfl
  simp only [lowerEdgePdu, hli, lowerEdgeSegments_nil, lowerEdgeLast, if_pos hgo]
  cases copyToSdu s.rxSdu pdu.buf pdu.buf.length with
  | none => rfl
  | some sdu => simp

theorem lowerEdgePdu_cons (hli : pdu.header.li = len :: lis) (hlis : ∀ l ∈ lis, l ≤ bufferTailroom)
    (hstart : s.rxSdu = [] → pdu.header.fi.startAligned = true) :
    s.lowerEdgePdu pdu = (copyToSdu s.rxSdu pdu.buf len).bind fun sdu =>
      (cut lis (pdu.buf.drop len)).bind fun r =>
        (lowerEdgeLast pdu.header.fi (s.withSdu [] false s.vrUrInRxSdu) r.2).map fun t =>
          (t.1, (if s.vrUr = (s.vrUrInRxSdu + 1) % s.mod then
            if s.pduLost && !pdu.header.fi.startAligned then r.1 else sdu :: r.1 else []) ++ t.2) := by
  unfold lowerEdgePdu
  rw [hli, lowerEdgeSegments_cons hlis hstart]
  cases copyToSdu s.rxSdu pdu.buf len with
  | none => rfl
  | some sdu =>
    simp only [Option.bind_some]
    cases cut lis (pdu.buf.drop len) with
    | none => rfl
    | some r =>
      simp only [Option.map_some, Option.bind_some]
      cases lowerEdgeLast pdu.header.fi (s.withSdu [] false s.vrUrInRxSdu) r.2 with
      | none => rfl
      | some t => rfl

/-- Without the start of its SDU, a PDU in sequence that has no length indicator is dropped. -/
theorem inSequencePdu_nil_of_lost (hli : pdu.header.li = []) (hsdu : s.checkBelongs.rxSdu = [])
    (hstart : pdu.header.fi.startAligned = false) :
    s.inSequencePdu pdu = some (s.checkBelongs, []) := by
  have hsame : { s.checkBelongs with rxSdu := [] } = s.checkBelongs := by rw [← hsdu]
  simp [inSequencePdu, hli, inSequenceSegments_nil, inSequenceLast, hsdu, hstart, hsame]

theorem inSequencePdu_nil (hli : pdu.header.li = [])
    (hstart : s.checkBelongs.rxSdu = [] → pdu.header.fi.startAligned = true) :
    s.inSequencePdu pdu = (appendLast s.checkBelongs.rxSdu pdu.buf).map fun sdu =>
      endLastSegment pdu.header.fi
        { s.checkBelongs with rxSdu := sdu, vrUrInRxSdu := s.checkBelongs.vrUr } := by
  have hgo : (s.checkBelongs.rxSdu.isEmpty && !(!([] : List Nat).isEmpty) &&
      !pdu.header.fi.startAligned) = false := by
    rw [List.isEmpty_nil, Bool.not_not, Bool.and_true, goesOn_of_start hstart]
  simp only [inSequencePdu, hli, inSequenceSegments_nil, inSequenceLast, hgo, Bool.false_eq_true,
    if_false]
  cases appendLast s.checkBelongs.rxSdu pdu.buf with
  | none => rfl
  | some sdu => simp

/-- The last segment of a PDU in sequence with length indicators, behind them. -/
theorem inSequenceLast_true (fi : Fi) (s : UmLteRx) (buf : Bytes) :
    inSequenceLast fi true s buf = (appendLast s.rxSdu buf).map fun sdu =>
      endLastSegment fi { s with rxSdu := sdu, vrUrInRxSdu := s.vrUr } := by
  unfold inSequenceLast
  simp only [Bool.not_true, Bool.and_false, Bool.false_and, Bool.false_eq_true, if_false]
  cases appendLast s.rxSdu buf with
  | none => rfl
  | some sdu => rfl

theorem inSequencePdu_cons_of_lost (hli : pdu.header.li = len :: lis)
    (hlis : ∀ l ∈ lis, l ≤ bufferTailroom) (hsdu : s.checkBelongs.rxSdu = [])
    (hstart : pdu.header.fi.startAligned = false) :
    s.inSequencePdu pdu =
      if pdu.buf.length < len then some (s.checkBelongs, [])
      else (cut lis (pdu.buf.drop len)).bind fun r => (appendLast [] r.2).map fun last =>
        ((endLastSegment pdu.header.fi (s.checkBelongs.withSdu last false s.checkBelongs.vrUr)).1,
          r.1 ++ (endLastSegment pdu.header.fi
            (s.checkBelongs.withSdu last false s.checkBelongs.vrUr)).2) := by
  unfold inSequencePdu
  rw [hli, inSequenceSegments_cons_of_lost hlis hsdu hstart]
  by_cases hlen : pdu.buf.length < len
  · simp only [if_pos hlen]
  · simp only [if_neg hlen]
    cases cut lis (pdu.buf.drop len) with
    | none => rfl
    | some r =>
      simp only [Option.map_some, Option.bind_some, List.isEmpty_cons, Bool.not_false]
      rw [inSequenceLast_true]
      simp only [withSdu]
      cases appendLast [] r.2 with
      | none => rfl
      | some last => rfl

theorem inSequencePdu_cons (hli : pdu.header.li = len :: lis) (hlis : ∀ l ∈ lis, l ≤ bufferTailroom)
    (hstart : s.checkBelongs.rxSdu = [] → pdu.header.fi.startAligned = true) :
    s.inSequencePdu pdu =
      if len > bufferTailroom - s.checkBelongs.rxSdu.length then
        some ({ s.checkBelongs with rxSdu := [] }, [])
      else (copyToSdu s.checkBelongs.rxSdu pdu.buf len).bind fun sdu =>
        (cut lis (pdu.buf.drop len)).bind fun r => (appendLast [] r.2).map fun last =>
          ((endLastSegment pdu.header.fi (s.checkBelongs.withSdu last false s.checkBelongs.vrUr)).1,
            sdu :: r.1 ++ (endLastSegment pdu.header.fi
              (s.checkBelongs.withSdu last false s.checkBelongs.vrUr)).2) := by
  unfold inSequencePdu
  rw [hli, inSequenceSegments_cons hlis hstart]
  by_cases hlen : len > bufferTailroom - s.checkBelongs.rxSdu.length
  · simp only [if_pos hlen]
  · simp only [if_neg hlen]
    cases copyToSdu s.checkBelongs.rxSdu pdu.buf len with
    | none => rfl
    | some sdu =>
      simp only [Option.bind_some]
      cases cut lis (pdu.buf.drop len) with
      | none => rfl
      | some r =>
        simp only [Option.map_some, Option.bind_some, List.isEmpty_cons, Bool.not_false]
        rw [inSequenceLast_true]
        simp only [withSdu]
        cases appendLast [] r.2 with
        | none => rfl
        | some last => rfl

end Pdu

/-! ### What a round leaves alone -/

/-- The states that differ from `s` in the SDU under assembly alone, which stays in its buffer. -/
def SduOnly (s t : UmLteRx) : Prop :=
  ∃ sdu lost last, t = s.withSdu sdu lost last ∧
    (s.rxSdu.length ≤ bufferTailroom → sdu.length ≤ bufferTailroom)

theorem SduOnly.refl (s : UmLteRx) : s.SduOnly s := ⟨s.rxSdu, s.pduLost, s.vrUrInRxSdu, rfl, id⟩

theorem SduOnly.trans {s t u : UmLteRx} (h : s.SduOnly t) (h' : t.SduOnly u) : s.SduOnly u := by
  obtain ⟨sdu, lost, last, rfl, hsdu⟩ := h
  obtain ⟨sdu', lost', last', rfl, hsdu'⟩ := h'
  exact ⟨sdu', lost', last', rfl, fun hlt => hsdu' (hsdu hlt)⟩

theorem SduOnly.length {s t : UmLteRx} (h : s.SduOnly t) (hsdu : s.rxSdu.length ≤ bufferTailroom) :
    t.rxSdu.length ≤ bufferTailroom := by
  obtain ⟨sdu, lost, last, rfl, hle⟩ := h
  exact hle hsdu

theorem sduOnly_clear (s : UmLteRx) (lost : Bool) (last : Nat) : s.SduOnly (s.withSdu [] lost last) :=
  ⟨[], lost, last, rfl, fun _ => Nat.zero_le _⟩

/-- A copy stays in the SDU buffer. -/
theorem sduOnly_copy {s : UmLteRx} {sdu buf r : Bytes} {len : Nat} (h : copyToSdu sdu buf len = some r)
    (lost : Bool) (last : Nat) : s.SduOnly (s.withSdu r lost last) := by
  obtain ⟨hlen, hfits, rfl⟩ := copyToSdu_eq_some_iff.mp h
  refine ⟨_, lost, last, rfl, fun _ => ?_⟩
  rw [List.length_append, List.length_take]
  omega

section Frames

variable {fi : Fi} {first : Bool} {lis : List Nat} {s t : UmLteRx} {buf buf' : Bytes}
  {left : Option Bytes} {sdus : List Bytes} {pdu : UmdPdu}

theorem lowerEdgeSegments_frame
    (h : lowerEdgeSegments fi first lis s buf = some (t, buf', sdus)) : s.SduOnly t := by
  induction lis generalizing first s buf sdus with
  | nil => cases h; exact .refl _
  | cons len lis ih =>
    rw [lowerEdgeSegments] at h
    split at h
    · cases h
      exact sduOnly_clear _ _ _
    · split at h
      · cases h
      · split at h
        · cases h
        · rename_i t₁ b₁ o₁ hrest
          cases h
          exact (sduOnly_clear s false s.vrUrInRxSdu).trans (ih hrest)

theorem inSequenceSegments_frame
    (h : inSequenceSegments fi first lis s buf = some (t, left, sdus)) : s.SduOnly t := by
  induction lis generalizing first s buf sdus with
  | nil => cases h; exact .refl _
  | cons len lis ih =>
    rw [inSequenceSegments] at h
    split at h
    · split at h
      · cases h; exact .refl _
      · exact (sduOnly_clear s false s.vrUrInRxSdu).trans (ih h)
    · split at h
      · cases h
        exact sduOnly_clear _ _ _
      · split at h
        · cases h
        · split at h
          · cases h
          · rename_i t₁ b₁ o₁ hrest
            cases h
            exact (sduOnly_clear s false s.vrUr).trans (ih hrest)

theorem endLastSegment_frame (fi : Fi) (s : UmLteRx) : s.SduOnly (endLastSegment fi s).1 := by
  unfold endLastSegment
  split
  · exact sduOnly_clear s false s.vrUrInRxSdu
  · exact .refl s

theorem lowerEdgePdu_frame (h : s.lowerEdgePdu pdu = some (t, sdus)) : s.SduOnly t := by
  unfold lowerEdgePdu at h
  split at h
  · cases h
  · rename_i t₁ b₁ o₁ hsegments
    have hfirst := lowerEdgeSegments_frame hsegments
    split at h
    · cases h
    · rename_i t₂ o₂ hlast
      cases h
      refine hfirst.trans ?_
      unfold lowerEdgeLast at hlast
      split at hlast
      · split at hlast
        · cases hlast
        · rename_i sdu hcopy
          have hend := endLastSegment_frame pdu.header.fi { t₁ with rxSdu := sdu, vrUrInRxSdu := t₁.vrUr }
          rw [Option.some.inj hlast] at hend
          exact (sduOnly_copy hcopy t₁.pduLost t₁.vrUr).trans hend
      · cases hlast
        exact .refl _

theorem checkBelongs_frame (s : UmLteRx) : s.SduOnly s.checkBelongs := by
  unfold checkBelongs
  split
  · exact .refl s
  · exact sduOnly_clear s false s.vrUrInRxSdu

theorem inSequencePdu_frame (h : s.inSequencePdu pdu = some (t, sdus)) : s.SduOnly t := by
  have hcheck := checkBelongs_frame s
  unfold inSequencePdu at h
  split at h
  · cases h
  · rename_i t₁ o₁ hsegments
    cases h
    exact hcheck.trans (inSequenceSegments_frame hsegments)
  · rename_i t₁ b₁ o₁ hsegments
    have hfirst := hcheck.trans (inSequenceSegments_frame hsegments)
    split at h
    · cases h
    · rename_i t₂ o₂ hlast
      cases h
      refine hfirst.trans ?_
      unfold inSequenceLast at hlast
      split at hlast
      · cases hlast
        exact sduOnly_clear _ _ _
      · split at hlast
        · cases hlast
        · rename_i sdu happend
          have hend := endLastSegment_frame pdu.header.fi { t₁ with rxSdu := sdu, vrUrInRxSdu := t₁.vrUr }
          rw [Option.some.inj hlast] at hend
          refine SduOnly.trans ?_ hend
          unfold appendLast at happend
          split at happend
          · exact sduOnly_copy happend t₁.pduLost t₁.vrUr
          · cases happend
            exact ⟨t₁.rxSdu, t₁.pduLost, t₁.vrUr, rfl, id⟩

theorem lowerEdgeRound_frame (h : s.lowerEdgeRound = some (t, sdus)) :
    ∃ u, s.SduOnly u ∧ t = u.nextSn := by
  unfold lowerEdgeRound at h
  split at h
  · cases h
    exact ⟨_, sduOnly_clear s s.pduLost s.vrUrInRxSdu, rfl⟩
  · obtain ⟨⟨u, o⟩, hpdu, heq⟩ := Option.map_eq_some_iff.mp h
    cases heq
    exact ⟨u, lowerEdgePdu_frame hpdu, rfl⟩

theorem inSequenceRound_frame (hcond : s.rxWindow.contains s.vrUr = true)
    (h : s.inSequenceRound = some (t, sdus)) : ∃ u, s.SduOnly u ∧ t = u.nextSn := by
  obtain ⟨pdu, hfind⟩ := (OrdMap.contains_iff _ _).mp hcond
  rw [inSequenceRound, hfind] at h
  obtain ⟨⟨u, o⟩, hpdu, heq⟩ := Option.map_eq_some_iff.mp h
  cases heq
  exact ⟨u, inSequencePdu_frame hpdu, rfl⟩

end Frames

end UmLteRx

end Odss.Rlc
