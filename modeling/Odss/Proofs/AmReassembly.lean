import Odss.Proofs.AmRxWindow

/-!
# `Odss.Proofs.AmReassembly`: the SDUs that the receiver drops

When a piece does not fit `rx_sdu`, the SDU is dropped and `rx_sdu` is null. The loop goes on with the next PDU in
sequence, which uses it.

* `Round`: a round of the loop, with what is known of dropped SDUs before it.
* `InRoom`: the sizes for which an SDU is dropped in the last round only, and none goes on behind.
* `rounds_of_inRoom`: in such a call every round has `rx_sdu`, and no byte of a dropped SDU is delivered.
* `reassemblySafe_of_within`: every run of such calls.
-/

set_option linter.all false

namespace Odss.Rlc.AmRx

open Odss.Lib

/-! ### The rounds of a call -/

/-- The PDUs that follow one another in the window, from the SN `sn` on. `fuel` bounds their number. -/
def inSequence : Nat → CircularMap amWindowSize AmdRxPdu → Nat → List AmdRxPdu
  | 0, _, _ => []
  | fuel + 1, window, sn =>
    match window.find? sn with
    | none => []
    | some pdu => pdu :: inSequence fuel (window.erase sn) ((sn + 1) % amMod)

/-- What is known of dropped SDUs before a PDU.

- `goesOn`: the SDU that is unfinished behind the last PDU was dropped, because it did not fit;
- `held`: `rx_sdu` has bytes of a dropped SDU. -/
structure DropTrace where
  goesOn : Bool
  held : Bool
deriving DecidableEq, Repr

/-- No SDU was dropped. -/
def DropTrace.none : DropTrace := ⟨false, false⟩

/-- The PDU begins with bytes of a dropped SDU. -/
def DropTrace.reaches (d : DropTrace) (pdu : AmdRxPdu) : Bool :=
  d.goesOn && pdu.header.fi.notStartAligned && !pdu.buf.isEmpty

/-- What is known after the PDU was read into `rxSdu`. An SDU that is dropped for its last piece in the PDU goes on in
the next one, if the PDU is not end aligned. -/
def DropTrace.next (d : DropTrace) (rxSdu : Bytes) (pdu : AmdRxPdu) : DropTrace :=
  match moveLis pdu.header.li ⟨rxSdu, pdu.buf, 0, []⟩ with
  | (_, false) => .none
  | (a, true) =>
    if a.buf.length ≤ bufferTailroom - a.rxSdu.length then
      if pdu.header.fi.endAligned || !a.delivered.isEmpty then .none
      else ⟨d.goesOn && pdu.header.fi.notStartAligned, d.held || d.reaches pdu⟩
    else ⟨!pdu.header.fi.endAligned, false⟩

/-- A round of the loop of `reassemble_rx_sdus`: `rx_sdu` when it begins, and the PDU that it reads -/
structure Round where
  trace : DropTrace
  rxSdu : Option Bytes
  pdu : AmdRxPdu

/-- The first SDU that the round delivers has bytes of a dropped one. -/
def Round.deliversDropped (r : Round) : Bool :=
  match r.rxSdu with
  | none => false
  | some rxSdu => (r.trace.held || r.trace.reaches r.pdu) && !(assemblePdu rxSdu r.pdu).2.isEmpty

/-- The rounds for the PDUs in sequence. The first one without `rx_sdu` is the last one that is defined. -/
def rounds : DropTrace → Option Bytes → List AmdRxPdu → List Round
  | _, _, [] => []
  | d, none, pdu :: _ => [⟨d, none, pdu⟩]
  | d, some rxSdu, pdu :: pdus =>
    ⟨d, some rxSdu, pdu⟩ :: rounds (d.next rxSdu pdu) (assemblePdu rxSdu pdu).1 pdus

/-- What is known after the rounds -/
def traceAfter : DropTrace → Option Bytes → List AmdRxPdu → DropTrace
  | d, some rxSdu, pdu :: pdus => traceAfter (d.next rxSdu pdu) (assemblePdu rxSdu pdu).1 pdus
  | d, _, _ => d

theorem reassembleLoop_isSome_iff (fuel : Nat) (s : AmRx) (d : DropTrace) :
    (reassembleLoop fuel s).isSome = true ↔
      ∀ r ∈ rounds d s.rxSdu (inSequence fuel s.rxWindow s.vrR), r.rxSdu ≠ none := by
  induction fuel generalizing s d with
  | zero => exact ⟨fun _ _ => nofun, fun _ => rfl⟩
  | succ fuel ih =>
    rw [reassembleLoop, inSequence]
    cases s.rxWindow.find? s.vrR with
    | none => exact ⟨fun _ _ => nofun, fun _ => rfl⟩
    | some pdu =>
      cases hrx : s.rxSdu with
      | none => exact ⟨nofun, fun h => absurd rfl (h ⟨d, none, pdu⟩ List.mem_cons_self)⟩
      | some rxSdu =>
        rw [rounds, List.forall_mem_cons]
        refine (ih (s.reassembleRound rxSdu pdu) (d.next rxSdu pdu)).trans ?_
        exact ⟨fun h => ⟨nofun, h⟩, fun h => h.2⟩

/-! ### Sizes -/

/-- The length indicators of a PDU that are used. A zero ends them. -/
def usedLis (pdu : AmdRxPdu) : List Nat := pdu.header.li.takeWhile fun len => decide (len ≠ 0)

/-- The length of the first piece of a PDU -/
def firstPiece (pdu : AmdRxPdu) : Nat := (usedLis pdu).headD pdu.buf.length

/-- With `held` bytes in `rx_sdu`, the PDU has a piece that is dropped: the first one does not fit behind them, or the
SDUs that end in the PDU take up a whole buffer. -/
def Overruns (held : Nat) (pdu : AmdRxPdu) : Prop :=
  firstPiece pdu > bufferTailroom - held ∨ usedLis pdu ≠ [] ∧ bufferTailroom ≤ (usedLis pdu).sum

/-- The bytes in `rx_sdu` after a PDU -/
def heldAfter (held : Nat) (pdu : AmdRxPdu) : Nat :=
  if pdu.header.fi.endAligned then 0
  else if usedLis pdu = [] then held + pdu.buf.length
  else pdu.buf.length - (usedLis pdu).sum

/-- Whether the SDU that is unfinished behind a PDU was dropped -/
def goesOnAfter (goesOn : Bool) (held : Nat) (pdu : AmdRxPdu) : Bool :=
  !pdu.header.fi.endAligned && (usedLis pdu).isEmpty &&
    (decide (pdu.buf.length > bufferTailroom - held) || goesOn && pdu.header.fi.notStartAligned)

/-- The PDUs in sequence have room: none begins with bytes of a dropped SDU, and none but the last has a piece that is
dropped. -/
def InRoom : Bool → Nat → List AmdRxPdu → Prop
  | _, _, [] => True
  | goesOn, held, pdu :: pdus =>
    ¬(goesOn = true ∧ pdu.header.fi.notStartAligned = true ∧ pdu.buf ≠ []) ∧ (Overruns held pdu → pdus = []) ∧
      InRoom (goesOnAfter goesOn held pdu) (heldAfter held pdu) pdus

instance (held : Nat) (pdu : AmdRxPdu) : Decidable (Overruns held pdu) :=
  inferInstanceAs (Decidable (_ ∨ _))

instance instDecidableInRoom : ∀ (goesOn : Bool) (held : Nat) (pdus : List AmdRxPdu),
    Decidable (InRoom goesOn held pdus)
  | _, _, [] => isTrue trivial
  | goesOn, held, pdu :: pdus =>
    have := instDecidableInRoom (goesOnAfter goesOn held pdu) (heldAfter held pdu) pdus
    inferInstanceAs (Decidable (_ ∧ _ ∧ _))

/-- The length indicators of a PDU in the window are within its data, and these fit a buffer. -/
structure PduFits (pdu : AmdRxPdu) : Prop where
  lis : pdu.header.li.sum ≤ pdu.buf.length
  buf : pdu.buf.length ≤ bufferTailroom

/-- The length indicators are used up to the first zero, or to the first piece that does not fit. -/
theorem moveLis_spec (lis : List Nat) (a : SduAssembly) (h : lis.sum ≤ a.buf.length) :
    let used := lis.takeWhile fun len => decide (len ≠ 0)
    ((moveLis lis a).2 = false ↔ used ≠ [] ∧
      (used.headD 0 > bufferTailroom - a.rxSdu.length ∨ bufferTailroom ≤ a.nRead + used.sum)) ∧
    ((moveLis lis a).2 = true → (moveLis lis a).1.buf = a.buf.drop used.sum ∧
      (moveLis lis a).1.rxSdu = (if used = [] then a.rxSdu else []) ∧
      ((moveLis lis a).1.delivered = [] ↔ a.delivered = [] ∧ used = [])) := by
  induction lis generalizing a with
  | nil => exact ⟨⟨nofun, fun h => absurd rfl h.1⟩, fun _ => ⟨rfl, rfl, (and_iff_left rfl).symm⟩⟩
  | cons len lis ih =>
    rw [List.sum_cons] at h
    by_cases hzero : len = 0
    · have hused : (len :: lis).takeWhile (fun len => decide (len ≠ 0)) = [] :=
        List.takeWhile_cons_of_neg (by simpa using hzero)
      simp only [hused]
      rw [moveLis, if_pos hzero]
      exact ⟨⟨nofun, fun h => absurd rfl h.1⟩, fun _ => ⟨rfl, rfl, (and_iff_left trivial).symm⟩⟩
    · have hused : (len :: lis).takeWhile (fun len => decide (len ≠ 0)) =
          len :: lis.takeWhile fun len => decide (len ≠ 0) :=
        List.takeWhile_cons_of_pos (by simpa using hzero)
      simp only [hused, List.headD_cons, List.sum_cons]
      rw [moveLis, if_neg hzero]
      generalize hrest : (lis.takeWhile fun len => decide (len ≠ 0)) = rest at ih
      cases hfits : a.fits len with
      | false =>
        rw [if_neg Bool.false_ne_true]
        refine ⟨⟨fun _ => ⟨List.cons_ne_nil _ _, ?_⟩, fun _ => rfl⟩, nofun⟩
        simp only [SduAssembly.fits, Bool.and_eq_false_iff, decide_eq_false_iff_not] at hfits
        omega
      | true =>
        simp only [SduAssembly.fits, Bool.and_eq_true, decide_eq_true_eq] at hfits
        have hbuf : lis.sum ≤ (a.moveLi len).buf.length := by
          show lis.sum ≤ (a.buf.drop len).length
          rw [List.length_drop]
          omega
        obtain ⟨hdrop, hkeep⟩ := ih (a.moveLi len) hbuf
        have hread : (a.moveLi len).nRead = a.nRead + len := rfl
        have hroom : bufferTailroom - (a.moveLi len).rxSdu.length = bufferTailroom := Nat.sub_zero _
        rw [hread, hroom] at hdrop
        rw [if_pos rfl]
        constructor
        · rw [hdrop]
          cases rest with
          | nil =>
            simp only [List.sum_nil, Nat.add_zero]
            exact ⟨fun h => absurd rfl h.1, fun h => by omega⟩
          | cons first rest =>
            simp only [List.headD_cons, List.sum_cons, ne_eq, reduceCtorEq, not_false_eq_true, true_and]
            omega
        · intro hok
          obtain ⟨hbuf', hrx, hdelivered⟩ := hkeep hok
          refine ⟨?_, ?_, ?_⟩
          · rw [hbuf']
            exact List.drop_drop
          · rw [hrx, if_neg (List.cons_ne_nil _ _)]
            exact ite_self _
          · rw [hdelivered]
            show a.delivered ++ [_] = [] ∧ _ ↔ _
            exact ⟨fun h => absurd h.1 (List.append_ne_nil_of_right_ne_nil _ (List.cons_ne_nil _ _)),
              fun h => absurd h.2 (List.cons_ne_nil _ _)⟩

/-- A round by sizes: whether it drops an SDU, what it leaves in `rx_sdu`, and what is known of dropped SDUs then -/
theorem round_spec {d : DropTrace} (hheld : d.held = false) {pdu : AmdRxPdu} (hpdu : PduFits pdu)
    (hreach : d.reaches pdu = false) (rxSdu : Bytes) :
    ((assemblePdu rxSdu pdu).1 = none ↔ Overruns rxSdu.length pdu) ∧
    (∀ rxSdu', (assemblePdu rxSdu pdu).1 = some rxSdu' → rxSdu'.length = heldAfter rxSdu.length pdu) ∧
    d.next rxSdu pdu = ⟨goesOnAfter d.goesOn rxSdu.length pdu, false⟩ := by
  obtain ⟨hdrop, hkeep⟩ := moveLis_spec pdu.header.li ⟨rxSdu, pdu.buf, 0, []⟩ hpdu.lis
  rw [show (pdu.header.li.takeWhile fun len => decide (len ≠ 0)) = usedLis pdu from rfl] at hdrop hkeep
  rw [Overruns, heldAfter, goesOnAfter, firstPiece, assemblePdu, DropTrace.next]
  have hsum : (usedLis pdu).sum ≤ pdu.buf.length := by
    have hsplit : (usedLis pdu).sum + (pdu.header.li.dropWhile fun len => decide (len ≠ 0)).sum =
        pdu.header.li.sum := by
      rw [usedLis, ← List.sum_append, List.takeWhile_append_dropWhile]
    have hlis := hpdu.lis
    omega
  have hbuf := hpdu.buf
  generalize moveLis pdu.header.li ⟨rxSdu, pdu.buf, 0, []⟩ = r at hdrop hkeep
  obtain ⟨a, ok⟩ := r
  cases ok with
  | false =>
    -- the SDU that is dropped ends in the PDU
    obtain ⟨hused, hlarge⟩ := hdrop.mp rfl
    cases husedLis : usedLis pdu with
    | nil => exact absurd husedLis hused
    | cons len lis =>
      rw [husedLis, Nat.zero_add] at hlarge
      refine ⟨⟨fun _ => ?_, fun _ => rfl⟩, nofun, ?_⟩
      · exact hlarge.imp_right fun h => ⟨List.cons_ne_nil _ _, h⟩
      · rw [List.isEmpty_cons, Bool.and_false, Bool.false_and]
        rfl
  | true =>
    obtain ⟨hbuf', hrx, hdelivered⟩ := hkeep rfl
    dsimp only at hbuf' hrx hdelivered
    cases husedLis : usedLis pdu with
    | nil =>
      -- the whole PDU is one piece
      rw [husedLis] at hbuf' hrx hdelivered
      rw [if_pos rfl] at hrx
      have hnone : a.delivered = [] := hdelivered.mpr ⟨rfl, rfl⟩
      dsimp only
      rw [hrx, show a.buf = pdu.buf from hbuf', hnone]
      simp only [List.headD_nil, List.isEmpty_nil, Bool.and_true, Bool.not_true, Bool.or_false, if_true, hheld,
        hreach]
      by_cases hfits : pdu.buf.length ≤ bufferTailroom - rxSdu.length
      · rw [if_pos hfits, if_pos hfits, decide_eq_false (Nat.not_lt_of_le hfits), Bool.false_or]
        cases pdu.header.fi.endAligned with
        | true =>
          refine ⟨⟨nofun, fun h => ?_⟩, fun rxSdu' h => ?_, rfl⟩
          · exact h.elim (fun h => absurd hfits (Nat.not_le_of_lt h)) fun h => absurd rfl h.1
          · cases h
            rfl
        | false =>
          refine ⟨⟨nofun, fun h => ?_⟩, fun rxSdu' h => ?_, rfl⟩
          · exact h.elim (fun h => absurd hfits (Nat.not_le_of_lt h)) fun h => absurd rfl h.1
          · cases h
            exact List.length_append
      · rw [if_neg hfits, if_neg hfits, decide_eq_true (Nat.lt_of_not_le hfits), Bool.true_or, Bool.and_true]
        exact ⟨⟨fun _ => Or.inl (Nat.lt_of_not_le hfits), fun _ => rfl⟩, nofun, rfl⟩
    | cons len lis =>
      -- the last piece follows an SDU that ends in the PDU
      rw [husedLis] at hbuf' hrx hdelivered hsum
      rw [if_neg (List.cons_ne_nil _ _)] at hrx
      have hnot : ¬((len :: lis) ≠ [] ∧ ((len :: lis).headD 0 > bufferTailroom - rxSdu.length ∨
          bufferTailroom ≤ 0 + (len :: lis).sum)) := fun h => Bool.noConfusion (hdrop.mpr (husedLis ▸ h))
      have hsome : a.delivered.isEmpty = false := by
        rw [List.isEmpty_eq_false_iff, ne_eq, hdelivered]
        exact fun h => List.cons_ne_nil _ _ h.2
      have hlast : a.buf.length = pdu.buf.length - (len :: lis).sum := by
        rw [hbuf', List.length_drop]
      have hfits : a.buf.length ≤ bufferTailroom - a.rxSdu.length := by
        rw [hrx, hlast]
        exact Nat.le_trans (Nat.sub_le _ _) hbuf
      dsimp only
      rw [if_pos hfits, if_pos hfits, hsome, hrx]
      simp only [List.isEmpty_cons, Bool.and_false, Bool.false_and, Bool.not_false, Bool.or_true, if_true]
      have hroom : ¬((len :: lis).headD pdu.buf.length > bufferTailroom - rxSdu.length ∨
          (len :: lis) ≠ [] ∧ bufferTailroom ≤ (len :: lis).sum) := by
        rw [Nat.zero_add] at hnot
        exact fun h => hnot ⟨List.cons_ne_nil _ _, h.imp_right And.right⟩
      cases pdu.header.fi.endAligned with
      | true =>
        refine ⟨⟨nofun, fun h => absurd h hroom⟩, fun rxSdu' h => ?_, rfl⟩
        cases h
        rfl
      | false =>
        refine ⟨⟨nofun, fun h => absurd h hroom⟩, fun rxSdu' h => ?_, rfl⟩
        cases h
        rw [List.nil_append, hlast, if_neg Bool.false_ne_true, if_neg (List.cons_ne_nil _ _)]

/-- In a call with room every round has `rx_sdu` and delivers nothing of a dropped SDU. -/
theorem rounds_of_inRoom {pdus : List AmdRxPdu} (hfits : ∀ pdu ∈ pdus, PduFits pdu) :
    ∀ (d : DropTrace) (rxSdu : Bytes), d.held = false → InRoom d.goesOn rxSdu.length pdus →
      (∀ r ∈ rounds d (some rxSdu) pdus, r.rxSdu ≠ none ∧ r.deliversDropped = false) ∧
        (traceAfter d (some rxSdu) pdus).held = false := by
  induction pdus with
  | nil => exact fun d rxSdu hheld _ => ⟨fun _ => nofun, hheld⟩
  | cons pdu pdus ih =>
    rintro d rxSdu hheld ⟨hbegin, hlast, hrest⟩
    have hreach : d.reaches pdu = false := by
      rw [← Bool.not_eq_true, DropTrace.reaches, Bool.and_eq_true, Bool.and_eq_true, and_assoc, Bool.not_eq_true',
        List.isEmpty_eq_false_iff]
      exact hbegin
    obtain ⟨hdrop, hheldAfter, hnext⟩ := round_spec hheld (hfits pdu List.mem_cons_self) hreach rxSdu
    have hround : (⟨d, some rxSdu, pdu⟩ : Round).deliversDropped = false := by
      show ((d.held || d.reaches pdu) && _) = false
      rw [hheld, hreach]
      rfl
    rw [rounds, List.forall_mem_cons, traceAfter, hnext]
    cases hrx : (assemblePdu rxSdu pdu).1 with
    | none =>
      rw [hlast (hdrop.mp hrx)]
      exact ⟨⟨⟨nofun, hround⟩, fun _ => nofun⟩, rfl⟩
    | some rxSdu' =>
      rw [← hheldAfter rxSdu' hrx] at hrest
      obtain ⟨hrounds, htrace⟩ := ih (fun p hp => hfits p (List.mem_cons_of_mem pdu hp))
        ⟨goesOnAfter d.goesOn rxSdu.length pdu, false⟩ rxSdu' rfl hrest
      exact ⟨⟨⟨nofun, hround⟩, hrounds⟩, htrace⟩

/-! ### Calls -/

/-- The state in which `handle_data_pdu` comes to `reassemble_rx_sdus`, if it does -/
def startReassembly (s : AmRx) (header : AmdHeader) (payload : Bytes) : Option AmRx :=
  if s.acceptsPdu header payload = true ∧ payload.length ≤ bufferTailroom then some (s.storePdu header payload)
  else none

/-- The same for `handle_data_pdu_segment`, which comes there with the last segment of a PDU -/
def startReassemblySegment (s : AmRx) (header : AmdHeader) (payload : Bytes) : Option AmRx :=
  if s.insideRxWindow header.sn = true ∧ payload.length ≤ bufferTailroom then
    match s.rxSegments.find? header.sn with
    | none => none
    | some segments =>
      match addSegmentAndCheck segments ⟨header, payload⟩ with
      | some (.complete header' payload') => (s.requestStatus header.p).startReassembly header' payload'
      | _ => none
  else none

/-- The state in which a call comes to `reassemble_rx_sdus`, if it does -/
def reassembling (s : AmRx) : Op → Option AmRx
  | .writePdu bytes =>
    match readDataPduHeader bytes with
    | none => none
    | some (header, payload) =>
      if header.li.length > amWindowSize then none
      else if header.rf then s.startReassemblySegment header payload
      else s.startReassembly header payload
  | _ => none

/-! ### The window -/

/-- Every PDU in the window has its length indicators within its data. -/
def WindowFits (s : AmRx) : Prop := ∀ k pdu, s.rxWindow.find? k = some pdu → PduFits pdu

theorem windowFits_init : WindowFits init := fun _ _ h => nomatch h

theorem windowFits_overwrite {s : AmRx} (h : WindowFits s) {sn : Nat} {pdu : AmdRxPdu} (hpdu : PduFits pdu)
    {k : Nat} {found : AmdRxPdu} (hfind : (s.rxWindow.overwrite sn pdu).find? k = some found) : PduFits found := by
  rw [CircularMap.find?_overwrite] at hfind
  split at hfind
  · cases hfind
    exact hpdu
  · split at hfind
    · cases hfind
    · exact h k found hfind

theorem windowFits_startReassembly {s u : AmRx} (h : WindowFits s) {header : AmdHeader} {payload : Bytes}
    (hstart : s.startReassembly header payload = some u) : WindowFits u := by
  rw [startReassembly] at hstart
  split at hstart
  · rename_i haccepts
    cases hstart
    have hlis : header.li.sum ≤ payload.length := by
      have haccepts := haccepts.1
      simp only [acceptsPdu, Bool.and_eq_true, decide_eq_true_eq] at haccepts
      exact haccepts.1.1
    exact fun k pdu hfind => windowFits_overwrite h ⟨hlis, haccepts.2⟩ hfind
  · cases hstart

theorem windowFits_reassembling {s u : AmRx} (h : WindowFits s) {op : Op} (hstart : s.reassembling op = some u) :
    WindowFits u := by
  cases op with
  | writePdu bytes =>
    rw [reassembling] at hstart
    split at hstart
    · cases hstart
    · split at hstart
      · cases hstart
      · split at hstart
        · rw [startReassemblySegment] at hstart
          split at hstart
          · split at hstart
            · cases hstart
            · split at hstart
              · exact windowFits_startReassembly (s := AmRx.requestStatus _ _) h hstart
              · cases hstart
          · cases hstart
        · exact windowFits_startReassembly h hstart
  | timerExpired => cases hstart
  | getStatusPdu maxPduSize => cases hstart
  | stop => cases hstart

theorem windowFits_reassembleRxSdus {s s' : AmRx} (h : WindowFits s) (hcall : s.reassembleRxSdus = some s') :
    WindowFits s' := by
  have hloop : ∀ (fuel : Nat) (t t' : AmRx), WindowFits t → reassembleLoop fuel t = some t' → WindowFits t' := by
    intro fuel
    induction fuel with
    | zero =>
      intro t t' ht hcall
      cases hcall
      exact ht
    | succ fuel ih =>
      intro t t' ht hcall
      rw [reassembleLoop] at hcall
      split at hcall
      · cases hcall
        exact ht
      · split at hcall
        · cases hcall
        · refine ih _ t' (fun k pdu hfind => ?_) hcall
          replace hfind : (t.rxWindow.erase t.vrR).find? k = some pdu := hfind
          rw [CircularMap.find?_erase] at hfind
          split at hfind
          · cases hfind
          · exact ht k pdu hfind
  exact hloop amMod { s with rxSdu := some (s.rxSdu.getD []) } s' h hcall

theorem windowFits_handleDataPdu {s s' : AmRx} (h : WindowFits s) {header : AmdHeader} {payload : Bytes}
    (hcall : s.handleDataPdu header payload = some s') : WindowFits s' := by
  rw [handleDataPdu] at hcall
  split at hcall
  · rename_i haccepts
    split at hcall
    · cases hcall
      have hempty : PduFits ⟨emptyHeader, []⟩ := ⟨Nat.le_refl 0, Nat.zero_le _⟩
      exact fun k pdu hfind => windowFits_overwrite h hempty hfind
    · rename_i hsize
      obtain ⟨t, hassembled, rfl⟩ := Option.map_eq_some_iff.mp hcall
      have hstart : s.startReassembly header payload = some (s.storePdu header payload) :=
        if_pos ⟨haccepts, Nat.le_of_not_lt hsize⟩
      have ht := windowFits_reassembleRxSdus (windowFits_startReassembly h hstart) hassembled
      unfold startReordering
      split
      · exact ht
      · exact ht
  · split at hcall
    · cases hcall
      exact h
    · cases hcall
      exact h

theorem windowFits_step {s s' : AmRx} {op : Op} {report : Option StatusPdu} (h : WindowFits s)
    (hstep : s.step op = some (s', report)) : WindowFits s' := by
  cases op with
  | writePdu bytes =>
    obtain ⟨t, hwrite, ht⟩ := Option.map_eq_some_iff.mp hstep
    cases ht
    rw [writePdu] at hwrite
    split at hwrite
    · cases hwrite
      exact h
    · split at hwrite
      · cases hwrite
      · split at hwrite
        · rw [handleDataPduSegment] at hwrite
          split at hwrite
          · cases hwrite
            exact h
          · split at hwrite
            · cases hwrite
              exact h
            · split at hwrite
              · cases hwrite
                exact h
              · simp only [nextSegment] at hwrite
                split at hwrite
                · cases hwrite
                · cases hwrite
                  exact h
                · obtain ⟨u, hcall, rfl⟩ := Option.map_eq_some_iff.mp hwrite
                  have hu : WindowFits u := windowFits_handleDataPdu (s := AmRx.requestStatus _ _) h hcall
                  exact hu
        · exact windowFits_handleDataPdu h hwrite
  | timerExpired =>
    cases hstep
    simp only [AmRx.timerExpired]
    split
    · exact h
    · split
      · exact h
      · exact h
  | getStatusPdu maxPduSize =>
    cases hstep
    unfold afterStatusPdu
    split
    · exact h
    · exact h
  | stop =>
    cases hstep
    exact windowFits_init

theorem inSequence_fits {pdu : AmdRxPdu} (fuel : Nat) :
    ∀ (window : CircularMap amWindowSize AmdRxPdu) (sn : Nat),
      (∀ k p, window.find? k = some p → PduFits p) → pdu ∈ inSequence fuel window sn → PduFits pdu := by
  induction fuel with
  | zero => exact fun _ _ _ => nofun
  | succ fuel ih =>
    intro window sn h hmem
    rw [inSequence] at hmem
    split at hmem
    · cases hmem
    · rename_i first hfirst
      rcases List.mem_cons.mp hmem with rfl | hmem
      · exact h sn pdu hfirst
      · refine ih _ _ (fun k p hfind => ?_) hmem
        rw [CircularMap.find?_erase] at hfind
        split at hfind
        · cases hfind
        · exact h k p hfind

/-! ### Runs -/

/-- The receiver with what is known of dropped SDUs -/
structure Tracked where
  rx : AmRx
  trace : DropTrace

/-- The receiver after the constructor -/
def Tracked.init : Tracked := ⟨AmRx.init, .none⟩

/-- The PDUs that the call which comes to `reassemble_rx_sdus` in the state `u` finds in sequence -/
def sequenceOf (u : AmRx) : List AmdRxPdu := inSequence amMod u.rxWindow u.vrR

/-- `rx_sdu` when the loop of `reassemble_rx_sdus` begins -/
def sduOf (u : AmRx) : Bytes := u.rxSdu.getD []

/-- What is known of dropped SDUs after a call -/
def Tracked.traceOf (t : Tracked) (op : Op) : DropTrace :=
  match op with
  | .stop => .none
  | op =>
    match t.rx.reassembling op with
    | none => t.trace
    | some u => traceAfter t.trace (some u.sduOf) u.sequenceOf

/-- A call of the receiver -/
def Tracked.step (t : Tracked) (op : Op) : Option (Tracked × Option StatusPdu) :=
  (t.rx.step op).map fun r => (⟨r.1, t.traceOf op⟩, r.2)

/-- The PDUs in sequence have room in every call that reads any. -/
def Tracked.HasRoom (t : Tracked) (op : Op) : Prop :=
  ∀ u, t.rx.reassembling op = some u → InRoom t.trace.goesOn u.sduOf.length u.sequenceOf

/-- A call uses `rx_sdu` only where it is not null, and it delivers nothing of a dropped SDU. -/
def Tracked.Safe (t : Tracked) (op : Op) : Prop :=
  ∀ u, t.rx.reassembling op = some u → u.reassembleRxSdus.isSome = true ∧
    ∀ r ∈ rounds t.trace (some u.sduOf) u.sequenceOf, r.rxSdu ≠ none ∧ r.deliversDropped = false

/-- What the calls with room keep: the window, and that `rx_sdu` has nothing of a dropped SDU -/
structure Tracked.Clean (t : Tracked) : Prop where
  fits : WindowFits t.rx
  held : t.trace.held = false

theorem Tracked.clean_init : Clean .init := ⟨windowFits_init, rfl⟩

theorem Tracked.Clean.rounds {t : Tracked} (h : t.Clean) {op : Op} (hroom : t.HasRoom op) {u : AmRx}
    (hu : t.rx.reassembling op = some u) :
    (∀ r ∈ AmRx.rounds t.trace (some u.sduOf) u.sequenceOf, r.rxSdu ≠ none ∧ r.deliversDropped = false) ∧
      (traceAfter t.trace (some u.sduOf) u.sequenceOf).held = false :=
  rounds_of_inRoom (fun _ hmem => inSequence_fits amMod _ _ (windowFits_reassembling h.fits hu) hmem) t.trace u.sduOf
    h.held (hroom u hu)

theorem Tracked.Clean.safe {t : Tracked} (h : t.Clean) {op : Op} (hroom : t.HasRoom op) : t.Safe op := by
  intro u hu
  have hrounds := (h.rounds hroom hu).1
  refine ⟨?_, hrounds⟩
  have hloop := reassembleLoop_isSome_iff amMod { u with rxSdu := some u.sduOf } t.trace
  exact hloop.mpr fun r hr => (hrounds r hr).1

theorem Tracked.Clean.step {t t' : Tracked} (h : t.Clean) {op : Op} {report : Option StatusPdu}
    (hroom : t.HasRoom op) (hstep : t.step op = some (t', report)) : t'.Clean := by
  obtain ⟨r, hrx, heq⟩ := Option.map_eq_some_iff.mp hstep
  cases heq
  refine ⟨windowFits_step h.fits hrx, ?_⟩
  have htrace : ∀ op', op = op' → (match t.rx.reassembling op' with
      | none => t.trace
      | some u => traceAfter t.trace (some u.sduOf) u.sequenceOf).held = false := by
    rintro op' rfl
    cases hu : t.rx.reassembling op with
    | none => exact h.held
    | some u => exact (h.rounds hroom hu).2
  cases op with
  | writePdu bytes => exact htrace _ rfl
  | timerExpired => exact htrace _ rfl
  | getStatusPdu maxPduSize => exact htrace _ rfl
  | stop => rfl

/-- The receiver is not changed by what is known of it. -/
theorem Tracked.run_rx (ops : List Op) : ∀ t : Tracked,
    (run Tracked.step t ops).map (fun r => (r.1.rx, r.2)) = run AmRx.step t.rx ops := by
  induction ops with
  | nil => exact fun t => rfl
  | cons op ops ih =>
    intro t
    simp only [run, Tracked.step]
    cases t.rx.step op with
    | none => rfl
    | some r =>
      obtain ⟨s', report⟩ := r
      dsimp only [Option.map_some]
      rw [← ih ⟨s', t.traceOf op⟩]
      cases run Tracked.step ⟨s', t.traceOf op⟩ ops with
      | none => rfl
      | some r => rfl

/-- In a run of calls with room, `rx_sdu` is not null where it is used, and nothing of a dropped SDU is delivered. -/
theorem reassemblySafe_of_within (ops : List Op) (h : StepsWithin Tracked.step Tracked.HasRoom .init ops) :
    StepsWithin Tracked.step Tracked.Safe .init ops := by
  rw [stepsWithin_iff_forall] at h ⊢
  intro pre op post hops t reports hrun
  have hclean : t.Clean := by
    refine run_invariant_of_within Tracked.Clean (fun _ _ _ _ hs hop hstep => hs.step hop hstep) pre .init t reports
      Tracked.clean_init ?_ hrun
    rw [stepsWithin_iff_forall]
    intro pre' op' post' hpre t' reports' hrun'
    exact h pre' op' (post' ++ op :: post) (by rw [hops, hpre, List.append_assoc, List.cons_append]) t' reports' hrun'
  exact hclean.safe (h pre op post hops t reports hrun)

/-- The bytes of a data PDU without length indicators -/
def dataPdu (sn : Nat) (fi : Fi) (payload : Bytes) : Bytes :=
  writeDataPduHeader ⟨false, false, fi, sn, false, 0, []⟩ ++ payload

/-- One SDU in one PDU -/
theorem reassemblySafe_single :
    StepsWithin Tracked.step Tracked.Safe .init [.writePdu (dataPdu 0 .startAndEndAligned [1, 2, 3])] := by
  have hroom : ((Tracked.init.rx.reassembling (.writePdu (dataPdu 0 .startAndEndAligned [1, 2, 3]))).all
      fun u => decide (InRoom Tracked.init.trace.goesOn u.sduOf.length u.sequenceOf)) = true := by
    decide
  apply reassemblySafe_of_within
  refine ⟨fun u hu => ?_, fun t report _ => trivial⟩
  rw [hu] at hroom
  exact of_decide_eq_true hroom

/-- The first bytes of an SDU and the next ones, and a PDU behind a gap -/
def longSduOps : List Op :=
  [.writePdu (dataPdu 0 ⟨false, true⟩ (List.replicate 6200 0)),
    .writePdu (dataPdu 2 ⟨true, false⟩ [1])]

/-- The PDU that fills the gap has no room in `rx_sdu`, and the next one in sequence uses it. -/
theorem not_reassemblySafe_longSdu : ¬∀ ops, StepsWithin Tracked.step Tracked.Safe .init ops := by
  have hcall : ((run Tracked.step .init longSduOps).bind fun r =>
      (r.1.rx.reassembling (.writePdu (dataPdu 1 ⟨true, true⟩ (List.replicate 6200 0)))).map
        fun u => u.reassembleRxSdus.isSome) = some false := by
    decide +kernel
  intro h
  obtain ⟨⟨t, reports⟩, hrun, hcall⟩ := Option.bind_eq_some_iff.mp hcall
  obtain ⟨u, hu, hnone⟩ := Option.map_eq_some_iff.mp hcall
  have hsafe := stepsWithin_iff_forall.mp
    (h (longSduOps ++ [.writePdu (dataPdu 1 ⟨true, true⟩ (List.replicate 6200 0))])) longSduOps _ [] rfl t reports hrun
  rw [(hsafe u hu).1] at hnone
  cases hnone

end Odss.Rlc.AmRx
