import Odss.Proofs.UmNrDelivery

/-!
# `Odss.Proofs.UmNrBuffer`: the receive buffer of NR UM in every run

Nothing is assumed of the PDUs that arrive.

* `Clean` says of the segments of one SN that none of them is the next one. `clean_of_assemble`: this is
  what the loop of `handle_rx_buffer_update` leaves.
* `BufferInv` says that the SNs in the buffer lie in the reassembly window, with `RX_Next_Reassembly` and
  the trigger of a running timer inside of it or at its upper edge. `bufferInv_of_run`: this holds in every
  run.
-/

set_option linter.all false

namespace Odss.Rlc

open Odss.Lib

namespace UmNrSegments

/-! ### The segments of one SN -/

/-- The segments of an SN between two calls. -/
structure Clean (pdu : UmNrSegments) : Prop where
  key : ∀ so rxPdu, pdu.segments.find? so = some rxPdu → rxPdu.header.so = so
  waits : ∀ so rxPdu, pdu.segments.find? so = some rxPdu → so ≠ pdu.nextExpectedSo
  start : pdu.sdu = none → pdu.nextExpectedSo = 0

theorem clean_empty : Clean empty :=
  ⟨fun so rxPdu h => by simp [empty] at h, fun so rxPdu h => by simp [empty] at h, fun _ => rfl⟩

/-- The state of the loop in front of the segments `todo`: those in front of them were passed. -/
structure Passing (todo : List UmNrPdu) (pdu : UmNrSegments) : Prop where
  sorted : todo.Pairwise fun a b => a.header.so < b.header.so
  key : ∀ so rxPdu, pdu.segments.find? so = some rxPdu → rxPdu.header.so = so
  ahead : ∀ rxPdu ∈ todo, pdu.segments.find? rxPdu.header.so = some rxPdu
  passed : ∀ so rxPdu, pdu.segments.find? so = some rxPdu →
    rxPdu ∈ todo ∨ so ≠ pdu.nextExpectedSo ∧ ∀ r ∈ todo, so < r.header.so
  start : pdu.sdu = none → pdu.nextExpectedSo = 0

theorem Passing.skip {rxPdu : UmNrPdu} {rest : List UmNrPdu} {pdu : UmNrSegments}
    (h : Passing (rxPdu :: rest) pdu) (hne : rxPdu.header.so ≠ pdu.nextExpectedSo) :
    Passing rest pdu := by
  have hlt := (List.pairwise_cons.mp h.sorted).1
  refine ⟨(List.pairwise_cons.mp h.sorted).2, h.key,
    fun r hr => h.ahead r (List.mem_cons_of_mem _ hr), fun so r hfind => ?_, h.start⟩
  rcases h.passed so r hfind with hmem | ⟨hwaits, hbelow⟩
  · rcases List.mem_cons.mp hmem with rfl | hmem
    · rw [← h.key so r hfind]
      exact .inr ⟨hne, hlt⟩
    · exact .inl hmem
  · exact .inr ⟨hwaits, fun r' hr' => hbelow r' (List.mem_cons_of_mem _ hr')⟩

/-- The next segment is taken, and `next_expected_so` does not go back. -/
theorem Passing.take {rxPdu : UmNrPdu} {rest : List UmNrPdu} {pdu t : UmNrSegments}
    (h : Passing (rxPdu :: rest) pdu) (hso : rxPdu.header.so = pdu.nextExpectedSo)
    (hsegments : t.segments = pdu.segments.erase rxPdu.header.so)
    (hnext : pdu.nextExpectedSo ≤ t.nextExpectedSo) (hsdu : t.sdu ≠ none) : Passing rest t := by
  have hlt := (List.pairwise_cons.mp h.sorted).1
  have hold : ∀ so r, t.segments.find? so = some r →
      so ≠ rxPdu.header.so ∧ pdu.segments.find? so = some r := by
    intro so r hfind
    rw [hsegments, OrdMap.find?_erase] at hfind
    split at hfind
    · cases hfind
    · rename_i hne
      exact ⟨hne, hfind⟩
  refine ⟨(List.pairwise_cons.mp h.sorted).2, fun so r hfind => h.key so r (hold so r hfind).2,
    fun r hr => ?_, fun so r hfind => ?_, fun hnone => absurd hnone hsdu⟩
  · rw [hsegments, OrdMap.find?_erase_ne _ (Nat.ne_of_gt (hlt r hr))]
    exact h.ahead r (List.mem_cons_of_mem _ hr)
  · obtain ⟨hne, hfind⟩ := hold so r hfind
    rcases h.passed so r hfind with hmem | ⟨-, hbelow⟩
    · rcases List.mem_cons.mp hmem with rfl | hmem
      · exact absurd (h.key so r hfind).symm hne
      · exact .inl hmem
    · have hfront := hbelow rxPdu List.mem_cons_self
      exact .inr ⟨by omega, fun r' hr' => hbelow r' (List.mem_cons_of_mem _ hr')⟩

/-- What a loop that does not complete the SDU leaves: no segment is the next one, a buffer stays a
buffer, and behind the start of the SDU a segment at offset zero stays where it is. -/
theorem clean_of_assemble {todo : List UmNrPdu} {pdu t : UmNrSegments} (h : Passing todo pdu)
    (hloop : assemble todo pdu = some (.incomplete t)) :
    Clean t ∧ (pdu.sdu ≠ none → t.sdu ≠ none) ∧
      (pdu.nextExpectedSo ≠ 0 → t.segments.contains 0 = pdu.segments.contains 0) := by
  induction todo generalizing pdu with
  | nil =>
    cases hloop
    refine ⟨⟨h.key, fun so r hfind => ?_, h.start⟩, id, fun _ => rfl⟩
    rcases h.passed so r hfind with hmem | ⟨hwaits, -⟩
    · cases hmem
    · exact hwaits
  | cons rxPdu rest ih =>
    unfold assemble at hloop
    split at hloop
    · rename_i hso
      split at hloop
      · rename_i hnone
        split at hloop
        · rename_i hzero
          have hstart : Passing rest (pdu.start rxPdu) :=
            h.take hso rfl (by rw [hzero]; exact Nat.zero_le _) (by simp [start])
          obtain ⟨hclean, hsdu, -⟩ := ih hstart hloop
          exact ⟨hclean, fun _ => hsdu (by simp [start]), fun hne => absurd hzero hne⟩
        · cases hloop
      · rename_i sdu hsome
        split at hloop
        · cases hloop
        · rename_i hpos
          split at hloop
          · cases hloop
          · split at hloop
            · cases hloop
            · have happend : Passing rest (pdu.append sdu rxPdu) :=
                h.take hso rfl (Nat.le_add_right _ _) (by simp [append])
              obtain ⟨hclean, hsdu, hzero⟩ := ih happend hloop
              refine ⟨hclean, fun _ => hsdu (by simp [append]), fun _ => ?_⟩
              have hnext : (pdu.append sdu rxPdu).nextExpectedSo ≠ 0 := by
                simp only [append]
                omega
              rw [hzero hnext]
              simp only [append, OrdMap.contains]
              rw [OrdMap.find?_erase_ne _ (by omega)]
    · rename_i hne
      exact ih (h.skip hne) hloop

theorem passing_values {pdu : UmNrSegments}
    (key : ∀ so rxPdu, pdu.segments.find? so = some rxPdu → rxPdu.header.so = so)
    (start : pdu.sdu = none → pdu.nextExpectedSo = 0) : Passing pdu.segments.values pdu := by
  have hentries : ∀ e ∈ pdu.segments.entries, pdu.segments.find? e.1 = some e.2 :=
    fun e he => (OrdMap.mem_entries_iff _ _ _).mp he
  refine ⟨?_, key, fun r hr => ?_, fun so r hfind => .inl ?_, start⟩
  · rw [OrdMap.values, List.pairwise_map]
    refine List.Pairwise.imp_of_mem ?_ pdu.segments.sorted
    intro e e' he he' hlt
    rw [key _ _ (hentries e he), key _ _ (hentries e' he')]
    exact hlt
  · obtain ⟨e, he, rfl⟩ := List.mem_map.mp hr
    rw [key _ _ (hentries e he)]
    exact hentries e he
  · exact List.mem_map.mpr ⟨(so, r), (OrdMap.mem_entries_iff _ _ _).mpr hfind, rfl⟩

theorem Clean.place_key {pdu : UmNrSegments} (h : Clean pdu) (rxPdu : UmNrPdu) :
    ∀ so r, (pdu.place rxPdu).segments.find? so = some r → r.header.so = so := by
  intro so r hfind
  simp only [place] at hfind
  split at hfind
  · exact h.key so r hfind
  · rw [OrdMap.find?_insert] at hfind
    split at hfind
    · rename_i heq
      cases hfind
      exact heq.symm
    · exact h.key so r hfind

theorem Clean.passing_place {pdu : UmNrSegments} (h : Clean pdu) (rxPdu : UmNrPdu) :
    Passing (pdu.place rxPdu).segments.values (pdu.place rxPdu) :=
  passing_values (h.place_key rxPdu) h.start

end UmNrSegments

namespace UmNrRx

/-! ### The window -/

theorem rxModNrBase_succ {s : UmNrRx} (hle : s.rxNextHighest ≤ s.mod) {x : Nat}
    (hx : s.rxModNrBase x < s.windowSize) :
    s.rxModNrBase ((x + 1) % s.mod) = s.rxModNrBase x + 1 := by
  unfold rxModNrBase UmNrRx.mod UmNrRx.windowSize at *
  cases hsize : s.snSize <;> simp only [hsize, UmNrSnSize.mod, UmNrSnSize.windowSize] at * <;> omega

theorem snInReassemblyWindow_iff {s : UmNrRx} (hle : s.rxNextHighest ≤ s.mod) (sn : Nat) :
    s.snInReassemblyWindow sn = true ↔ s.rxModNrBase sn < s.windowSize := by
  rw [snInReassemblyWindow, rxModNrBase_windowLow hle, rxModNrBase_highest]
  simp

theorem snInvalidForRxBuffer_iff {s : UmNrRx} (hle : s.rxNextHighest ≤ s.mod) (sn : Nat) :
    s.snInvalidForRxBuffer sn = true ↔ s.rxModNrBase sn < s.rxModNrBase s.rxNextReassembly := by
  rw [snInvalidForRxBuffer, rxModNrBase_windowLow hle]
  simp

/-- The loops over the SNs end at the place of `RX_Next_Highest`. -/
theorem rxModNrBase_advanceToHighest {s : UmNrRx} (hle : s.rxNextHighest ≤ s.mod) (fuel : Nat)
    {x : Nat} (hx : s.rxModNrBase x ≤ s.windowSize) (hfuel : s.windowSize ≤ s.rxModNrBase x + fuel) :
    s.rxModNrBase (s.advanceToHighest fuel x) = s.windowSize := by
  induction fuel generalizing x with
  | zero =>
    rw [advanceToHighest]
    omega
  | succ fuel ih =>
    rw [advanceToHighest, rxModNrBase_highest]
    split
    · rename_i hlt
      have hsucc := rxModNrBase_succ hle hlt
      exact ih (by omega) (by omega)
    · omega

theorem windowSize_lt_mod (s : UmNrRx) : s.windowSize < s.mod := by
  unfold UmNrRx.mod UmNrRx.windowSize
  cases s.snSize <;> decide

theorem advanceToHighest_le (s : UmNrRx) (fuel : Nat) {x : Nat} (hx : x ≤ s.mod) :
    s.advanceToHighest fuel x ≤ s.mod := by
  induction fuel generalizing x with
  | zero => exact hx
  | succ fuel ih =>
    rw [advanceToHighest]
    split
    · exact ih (Nat.le_of_lt (Nat.mod_lt _ (Nat.lt_of_le_of_lt (Nat.zero_le _) (windowSize_lt_mod s))))
    · exact hx

/-- The receiver with `RX_Next_Highest` behind the SN `sn`. -/
def raised (s : UmNrRx) (sn : Nat) : UmNrRx := { s with rxNextHighest := sn + 1 }

theorem rxModNrBase_raised (s : UmNrRx) (sn : Nat) :
    (s.raised sn).rxModNrBase sn + 1 = s.windowSize := by
  unfold raised rxModNrBase UmNrRx.mod UmNrRx.windowSize at *
  cases hsize : s.snSize <;> simp only [hsize, UmNrSnSize.mod, UmNrSnSize.windowSize] at * <;> omega

/-- The SNs outside of the new window are dropped. -/
theorem find?_updateHighest (s : UmNrRx) (sn k : Nat) :
    (s.updateHighest sn).rxWindow.find? k =
      if (s.raised sn).snInReassemblyWindow k then s.rxWindow.find? k else none := by
  have hfind : (s.updateHighest sn).rxWindow.find? k =
      if k ∈ (s.rxWindow.keys.filter fun k => !(s.raised sn).snInReassemblyWindow k) then none
      else s.rxWindow.find? k := OrdMap.find?_foldl_erase _ _ _
  rw [hfind]
  cases hin : (s.raised sn).snInReassemblyWindow k with
  | true =>
    rw [if_pos rfl, if_neg]
    intro hmem
    have hout := (List.mem_filter.mp hmem).2
    rw [hin] at hout
    cases hout
  | false =>
    rw [if_neg Bool.false_ne_true]
    cases hk : s.rxWindow.find? k with
    | none => rw [ite_self]
    | some pdu =>
      have hkey : k ∈ s.rxWindow.keys := (OrdMap.mem_keys_iff _ _).mpr ⟨pdu, hk⟩
      rw [if_pos (List.mem_filter.mpr ⟨hkey, by rw [hin]; rfl⟩)]

/-- Behind the window, `RX_Next_Reassembly` becomes the smallest number in the buffer. -/
theorem updateReassembly_eq {s : UmNrRx} (hle : s.rxNextHighest ≤ s.mod) :
    s.updateReassembly =
      if s.snInReassemblyWindow s.rxNextReassembly then s
      else { s with rxNextReassembly := s.rxWindow.keys.head?.getD s.rxNextReassembly } := by
  unfold updateReassembly
  split
  · rfl
  · rw [rxModNrBase_windowLow hle]
    cases hkeys : s.rxWindow.keys with
    | nil => rfl
    | cons k ks => simp

/-! ### The invariant -/

/-- The state between two calls. -/
structure BufferInv (s : UmNrRx) : Prop where
  highest : s.rxNextHighest ≤ s.mod
  inside : ∀ sn pdu, s.rxWindow.find? sn = some pdu → sn < s.mod ∧ s.rxModNrBase sn < s.windowSize
  clean : ∀ sn pdu, s.rxWindow.find? sn = some pdu → pdu.Clean
  reassembly : s.rxModNrBase s.rxNextReassembly ≤ s.windowSize ∧ s.rxNextReassembly ≤ s.mod
  trigger : s.reassemblyTimer = .running →
    s.rxModNrBase s.rxTimerTrigger ≤ s.windowSize ∧ s.rxTimerTrigger ≤ s.mod
  started : s.reassemblyTimer = .running → 0 < s.rxNextHighest

theorem bufferInv_init (snSize : UmNrSnSize) : BufferInv (init snSize) where
  highest := Nat.zero_le _
  inside := fun sn pdu h => by simp [init] at h
  clean := fun sn pdu h => by simp [init] at h
  reassembly := by cases snSize <;> decide
  trigger := fun h => by cases h
  started := fun h => by cases h

/-- The receiver that has taken the segments `pdu` of the SN `sn`. -/
def placed (s : UmNrRx) (sn : Nat) (pdu : UmNrSegments) : UmNrRx :=
  { s with rxWindow := s.rxWindow.insert sn pdu }

theorem bufferInv_updateHighest {s : UmNrRx} (h : BufferInv s) {sn : Nat} {pdu : UmNrSegments}
    (hsn : sn < s.mod) (hclean : pdu.Clean) :
    (∀ k v, ((s.placed sn pdu).updateHighest sn).rxWindow.find? k = some v →
      (k < s.mod ∧ (s.raised sn).rxModNrBase k < s.windowSize) ∧ v.Clean) ∧
      ((s.placed sn pdu).updateHighest sn).rxWindow.find? sn = some pdu := by
  have hle : (s.raised sn).rxNextHighest ≤ (s.raised sn).mod := hsn
  have hin : ∀ k, ((s.placed sn pdu).raised sn).snInReassemblyWindow k = true ↔
      (s.raised sn).rxModNrBase k < s.windowSize := fun k => snInReassemblyWindow_iff hle k
  constructor
  · intro k v hfind
    rw [find?_updateHighest] at hfind
    split at hfind
    · rename_i hk
      refine ⟨⟨?_, (hin k).mp hk⟩, ?_⟩
      · rcases Nat.decEq k sn with hne | rfl
        · rw [placed, OrdMap.find?_insert_ne _ _ hne] at hfind
          exact (h.inside k v hfind).1
        · exact hsn
      · rcases Nat.decEq k sn with hne | rfl
        · rw [placed, OrdMap.find?_insert_ne _ _ hne] at hfind
          exact h.clean k v hfind
        · rw [placed, OrdMap.find?_insert_self] at hfind
          cases hfind
          exact hclean
    · cases hfind
  · have hraised := rxModNrBase_raised s sn
    rw [find?_updateHighest, if_pos ((hin sn).mpr (by omega))]
    exact OrdMap.find?_insert_self _ _ _

theorem BufferInv.placed {s : UmNrRx} (h : BufferInv s) {sn : Nat} {pdu : UmNrSegments}
    (hsn : sn < s.mod) (hin : s.rxModNrBase sn < s.windowSize) (hclean : pdu.Clean) :
    BufferInv (s.placed sn pdu) := by
  refine ⟨h.highest, fun k v hfind => ?_, fun k v hfind => ?_, h.reassembly, h.trigger, h.started⟩
  · rcases Nat.decEq k sn with hne | rfl
    · rw [UmNrRx.placed, OrdMap.find?_insert_ne _ _ hne] at hfind
      exact h.inside k v hfind
    · exact ⟨hsn, hin⟩
  · rcases Nat.decEq k sn with hne | rfl
    · rw [UmNrRx.placed, OrdMap.find?_insert_ne _ _ hne] at hfind
      exact h.clean k v hfind
    · rw [UmNrRx.placed, OrdMap.find?_insert_self] at hfind
      cases hfind
      exact hclean

/-- What the checks of the timer leave. A timer that runs has its trigger in the window or at its
upper edge. -/
theorem timerChecks_spec {s : UmNrRx} (hle : s.rxNextHighest ≤ s.mod)
    (htrigger : s.reassemblyTimer = .running → s.rxTimerTrigger ≤ s.mod) (sn : Nat) :
    ∃ timer trigger, (s.stopTimer sn).startTimer sn =
        { s with reassemblyTimer := timer, rxTimerTrigger := trigger } ∧
      (timer = .running → s.rxModNrBase trigger ≤ s.windowSize ∧ trigger ≤ s.mod) := by
  have hhighest := rxModNrBase_highest s
  have hstart : ∀ t : UmNrRx, t.rxNextHighest = s.rxNextHighest → t.snSize = s.snSize →
      (t.reassemblyTimer = .running →
        s.rxModNrBase t.rxTimerTrigger ≤ s.windowSize ∧ t.rxTimerTrigger ≤ s.mod) →
      ∃ timer trigger, t.startTimer sn =
          { t with reassemblyTimer := timer, rxTimerTrigger := trigger } ∧
        (timer = .running → s.rxModNrBase trigger ≤ s.windowSize ∧ trigger ≤ s.mod) := by
    intro t hH _ hkept
    unfold startTimer
    split
    · exact ⟨_, _, rfl, fun _ => by rw [hH, hhighest]; exact ⟨Nat.le_of_eq rfl, hle⟩⟩
    · exact ⟨_, _, rfl, hkept⟩
  unfold stopTimer
  split
  · obtain ⟨timer, trigger, heq, hrun⟩ := hstart
      { s with reassemblyTimer := s.reassemblyTimer.stop } rfl rfl fun hrun => by
        have hstopped : s.reassemblyTimer.stop ≠ .running := by
          cases s.reassemblyTimer <;> decide
        exact absurd hrun hstopped
    exact ⟨timer, trigger, heq, hrun⟩
  · rename_i hstay
    refine hstart s rfl rfl fun hrun => ⟨?_, htrigger hrun⟩
    simp only [Bool.and_eq_true, Bool.or_eq_true, decide_eq_true_eq, Bool.not_eq_true', bne_iff_ne,
      beq_iff_eq, not_and, not_or, TimerState.isRunning, hrun] at hstay
    have hkept := (hstay trivial).1.2
    cases hin : s.snInReassemblyWindow s.rxTimerTrigger with
    | true => exact Nat.le_of_lt ((snInReassemblyWindow_iff hle _).mp hin)
    | false =>
      have heq : s.rxTimerTrigger = s.rxNextHighest := by
        by_contra hne
        exact hkept hin hne
      rw [heq, hhighest]

theorem updateWindow_outside {s : UmNrRx} {sn : Nat} (hsn : sn < s.mod)
    (htrigger : s.reassemblyTimer = .running → s.rxTimerTrigger ≤ s.mod)
    (hout : s.snInReassemblyWindow sn = false) :
    ∃ timer trigger, s.updateWindow sn =
        { s with
          rxNextHighest := sn + 1
          rxWindow := (s.updateHighest sn).rxWindow
          rxNextReassembly := (s.updateHighest sn).updateReassembly.rxNextReassembly
          reassemblyTimer := timer
          rxTimerTrigger := trigger } ∧
      (timer = .running →
        (s.raised sn).rxModNrBase trigger ≤ s.windowSize ∧ trigger ≤ s.mod) := by
  have hle : (s.updateHighest sn).rxNextHighest ≤ (s.updateHighest sn).mod := hsn
  rw [updateWindow, hout, if_neg Bool.false_ne_true]
  have hreassembly : ∃ r, (s.updateHighest sn).updateReassembly =
      { s.updateHighest sn with rxNextReassembly := r } := by
    rw [updateReassembly_eq hle]
    split
    · exact ⟨_, rfl⟩
    · exact ⟨_, rfl⟩
  obtain ⟨r, hr⟩ := hreassembly
  rw [hr]
  obtain ⟨timer, trigger, heq, hrun⟩ := timerChecks_spec
    (s := { s.updateHighest sn with rxNextReassembly := r }) hle htrigger sn
  exact ⟨timer, trigger, heq, hrun⟩

theorem updateReassembly_le {s : UmNrRx} (hle : s.rxNextHighest ≤ s.mod)
    (hinside : ∀ k v, s.rxWindow.find? k = some v → k < s.mod ∧ s.rxModNrBase k < s.windowSize)
    (hbound : s.rxNextReassembly ≤ s.mod) {sn : Nat} {pdu : UmNrSegments}
    (hfind : s.rxWindow.find? sn = some pdu) :
    s.rxModNrBase s.updateReassembly.rxNextReassembly ≤ s.windowSize ∧
      s.updateReassembly.rxNextReassembly ≤ s.mod := by
  rw [updateReassembly_eq hle]
  split
  · rename_i hin
    exact ⟨Nat.le_of_lt ((snInReassemblyWindow_iff hle _).mp hin), hbound⟩
  · cases hkeys : s.rxWindow.keys with
    | nil =>
      have hmem : sn ∈ s.rxWindow.keys := (OrdMap.mem_keys_iff _ _).mpr ⟨pdu, hfind⟩
      rw [hkeys] at hmem
      cases hmem
    | cons k ks =>
      have hmem : k ∈ s.rxWindow.keys := by
        rw [hkeys]
        exact List.mem_cons_self
      obtain ⟨v, hv⟩ := (OrdMap.mem_keys_iff _ _).mp hmem
      obtain ⟨hlt, hin⟩ := hinside k v hv
      exact ⟨Nat.le_of_lt hin, Nat.le_of_lt hlt⟩

theorem BufferInv.updateWindow {s : UmNrRx} (h : BufferInv s) {sn : Nat} {pdu : UmNrSegments}
    (hsn : sn < s.mod) (hclean : pdu.Clean) : BufferInv ((s.placed sn pdu).updateWindow sn) := by
  cases hin : s.snInReassemblyWindow sn with
  | true =>
    have hstay : (s.placed sn pdu).updateWindow sn = s.placed sn pdu := if_pos hin
    rw [hstay]
    exact h.placed hsn ((snInReassemblyWindow_iff h.highest sn).mp hin) hclean
  | false =>
    obtain ⟨hkeys, hfind⟩ := bufferInv_updateHighest h hsn hclean
    obtain ⟨timer, trigger, heq, hrun⟩ :=
      updateWindow_outside (s := s.placed sn pdu) hsn (fun hrun => (h.trigger hrun).2) hin
    have hlow := updateReassembly_le (s := (s.placed sn pdu).updateHighest sn) hsn
      (fun k v hv => (hkeys k v hv).1) h.reassembly.2 hfind
    rw [heq]
    exact ⟨hsn, fun k v hv => (hkeys k v hv).1, fun k v hv => (hkeys k v hv).2,
      hlow, hrun, fun _ => Nat.succ_pos sn⟩

/-! ### Runs -/

/-- The SN of a header fits its bits. -/
theorem sn_lt_of_readUmNrHeader {snSize : UmNrSnSize} {bytes : Bytes} {header : UmNrHeader}
    {consumed : Nat} (h : readUmNrHeader snSize bytes = some (header, consumed)) :
    header.sn < snSize.mod ∧ header.snSize = snSize := by
  have hso : ∀ {header header' : UmNrHeader} {n n' : Nat} {rest : Bytes},
      readSo header n rest = some (header', n') →
      header'.sn = header.sn ∧ header'.snSize = header.snSize := by
    intro header header' n n' rest h
    unfold readSo at h
    split at h
    · split at h
      · cases h
        exact ⟨rfl, rfl⟩
      · cases h
    · cases h
      exact ⟨rfl, rfl⟩
  unfold readUmNrHeader at h
  cases bytes with
  | nil => cases h
  | cons b₀ rest =>
    cases snSize with
    | size6bits =>
      simp only at h
      have hlow : b₀.toNat % 64 < 64 := Nat.mod_lt _ (by decide)
      split at h
      · cases h
        exact ⟨hlow, rfl⟩
      · obtain ⟨hsn, hsize⟩ := hso h
        rw [hsn, hsize]
        exact ⟨hlow, rfl⟩
    | size12bits =>
      simp only at h
      have hlow : b₀.toNat % 16 * 256 < 4096 := by omega
      split at h
      · cases h
        exact ⟨hlow, rfl⟩
      · split at h
        · cases h
          exact ⟨hlow, rfl⟩
        · split at h
          · cases h
            exact ⟨hlow, rfl⟩
          · cases rest with
            | nil => cases h
            | cons b₁ rest =>
              obtain ⟨hsn, hsize⟩ := hso h
              rw [hsn, hsize]
              have hbound : ∀ a b : Nat, b < 256 → a % 16 * 256 + b < 4096 := by omega
              exact ⟨hbound b₀.toNat b₁.toNat b₁.toNat_lt, rfl⟩

theorem header_of_stripPduHeader {header : UmNrHeader} {bytes : Bytes} {rxPdu : UmNrPdu}
    (h : stripPduHeader header bytes = some rxPdu) : rxPdu.header = header := by
  unfold stripPduHeader at h
  split at h
  · cases h
    rfl
  · cases h

/-- One segment alone is never the SDU. -/
theorem find?_of_complete {s : UmNrRx} {rxPdu : UmNrPdu} {sdu : Bytes}
    (h : UmNrSegments.assemble
      (((s.rxWindow.find? rxPdu.header.sn).getD .empty).place rxPdu).segments.values
      (((s.rxWindow.find? rxPdu.header.sn).getD .empty).place rxPdu) = some (.complete sdu)) :
    ∃ pdu, s.rxWindow.find? rxPdu.header.sn = some pdu := by
  cases hfind : s.rxWindow.find? rxPdu.header.sn with
  | some pdu => exact ⟨pdu, rfl⟩
  | none =>
    rw [hfind] at h
    have hvalues : (UmNrSegments.empty.place rxPdu).segments.values = [rxPdu] := rfl
    rw [Option.getD_none, hvalues] at h
    unfold UmNrSegments.assemble at h
    split at h
    · rw [show (UmNrSegments.empty.place rxPdu).sdu = none from rfl] at h
      simp only at h
      split at h
      · cases h
      · cases h
    · cases h

theorem BufferInv.deliverSdu {s : UmNrRx} (h : BufferInv s) {sn : Nat}
    (hin : s.rxModNrBase sn < s.windowSize) (sdu : Bytes) : BufferInv (s.deliverSdu sn sdu) := by
  have hold : ∀ k v, (s.rxWindow.erase sn).find? k = some v → s.rxWindow.find? k = some v := by
    intro k v hfind
    rw [OrdMap.find?_erase] at hfind
    split at hfind
    · cases hfind
    · exact hfind
  refine ⟨h.highest, fun k v hfind => h.inside k v (hold k v hfind),
    fun k v hfind => h.clean k v (hold k v hfind), ?_, h.trigger, h.started⟩
  show s.rxModNrBase (if sn = s.rxNextReassembly then
      s.advanceToHighest s.mod ((s.rxNextReassembly + 1) % s.mod) else s.rxNextReassembly) ≤ _ ∧
    (if sn = s.rxNextReassembly then
      s.advanceToHighest s.mod ((s.rxNextReassembly + 1) % s.mod) else s.rxNextReassembly) ≤ s.mod
  split
  · rename_i heq
    subst heq
    have hsucc := rxModNrBase_succ h.highest hin
    have hlt := windowSize_lt_mod s
    have hplace := rxModNrBase_advanceToHighest h.highest s.mod
      (x := (s.rxNextReassembly + 1) % s.mod) (by omega) (by omega)
    have hmod : (s.rxNextReassembly + 1) % s.mod ≤ s.mod := Nat.le_of_lt (Nat.mod_lt _ (by omega))
    exact ⟨Nat.le_of_eq hplace, advanceToHighest_le s s.mod hmod⟩
  · exact h.reassembly

theorem BufferInv.handleDataPdu {s t : UmNrRx} (h : BufferInv s) {bytes : Bytes}
    (hpdu : s.handleDataPdu bytes = some t) : BufferInv t := by
  obtain ⟨⟨header, consumed⟩, hread, hpdu⟩ := Option.bind_eq_some_iff.mp hpdu
  obtain ⟨hsn, -⟩ := sn_lt_of_readUmNrHeader hread
  unfold handlePdu at hpdu
  split at hpdu
  · obtain ⟨rxPdu, -, rfl⟩ := Option.map_eq_some_iff.mp hpdu
    exact ⟨h.highest, h.inside, h.clean, h.reassembly, h.trigger, h.started⟩
  · split at hpdu
    · cases hpdu
      exact h
    · obtain ⟨rxPdu, hstrip, hplace⟩ := Option.bind_eq_some_iff.mp hpdu
      have hheader := header_of_stripPduHeader hstrip
      have hsn : rxPdu.header.sn < s.mod := by rw [hheader]; exact hsn
      have hclean : ((s.rxWindow.find? rxPdu.header.sn).getD .empty).Clean := by
        cases hfind : s.rxWindow.find? rxPdu.header.sn with
        | none => exact UmNrSegments.clean_empty
        | some pdu => exact h.clean _ _ hfind
      unfold placePdu handleRxBufferUpdate at hplace
      split at hplace
      · cases hplace
      · rename_i sdu hcomplete
        cases hplace
        obtain ⟨pdu, hfind⟩ := find?_of_complete hcomplete
        exact h.deliverSdu (h.inside _ _ hfind).2 sdu
      · rename_i pdu hincomplete
        cases hplace
        exact h.updateWindow hsn
          (UmNrSegments.clean_of_assemble (hclean.passing_place rxPdu) hincomplete).1

theorem find?_dropBelow (s : UmNrRx) (k : Nat) :
    s.dropBelow.rxWindow.find? k = if k < s.rxNextReassembly then none else s.rxWindow.find? k := by
  have hfind : s.dropBelow.rxWindow.find? k =
      if k ∈ (s.rxWindow.keys.filter fun k => decide (k < s.rxNextReassembly)) then none
      else s.rxWindow.find? k := OrdMap.find?_foldl_erase _ _ _
  rw [hfind]
  by_cases hlt : k < s.rxNextReassembly
  · rw [if_pos hlt]
    cases hk : s.rxWindow.find? k with
    | none => rw [ite_self]
    | some pdu =>
      have hkey : k ∈ s.rxWindow.keys := (OrdMap.mem_keys_iff _ _).mpr ⟨pdu, hk⟩
      exact if_pos (List.mem_filter.mpr ⟨hkey, decide_eq_true hlt⟩)
  · rw [if_neg hlt, if_neg]
    intro hmem
    exact hlt (of_decide_eq_true (List.mem_filter.mp hmem).2)

theorem BufferInv.timerExpired {s : UmNrRx} (h : BufferInv s) : BufferInv s.timerExpired := by
  unfold UmNrRx.timerExpired
  split
  · exact h
  · rename_i hrunning
    have hrun : s.reassemblyTimer = .running := by
      simpa [TimerState.isRunning] using hrunning
    have hplace := rxModNrBase_advanceToHighest h.highest s.mod (h.trigger hrun).1
      (Nat.le_trans (Nat.le_of_lt (windowSize_lt_mod s)) (Nat.le_add_left _ _))
    have hold : ∀ k v, ({ s with
        reassemblyTimer := .expired
        rxNextReassembly := s.advanceToHighest s.mod s.rxTimerTrigger }.dropBelow).rxWindow.find? k =
          some v → s.rxWindow.find? k = some v := by
      intro k v hk
      rw [find?_dropBelow] at hk
      split at hk
      · cases hk
      · exact hk
    have hdropped : BufferInv ({ s with
        reassemblyTimer := .expired
        rxNextReassembly := s.advanceToHighest s.mod s.rxTimerTrigger }.dropBelow) :=
      ⟨h.highest, fun k v hk => h.inside k v (hold k v hk),
        fun k v hk => h.clean k v (hold k v hk),
        ⟨Nat.le_of_eq hplace, advanceToHighest_le s s.mod (h.trigger hrun).2⟩,
        (fun hexp => by cases hexp), (fun hexp => by cases hexp)⟩
    unfold restartTimer
    split
    · exact ⟨hdropped.highest, hdropped.inside, hdropped.clean, hdropped.reassembly,
        fun _ => ⟨Nat.le_of_eq (rxModNrBase_highest s), h.highest⟩, fun _ => h.started hrun⟩
    · exact hdropped

theorem BufferInv.step {s t : UmNrRx} {op : Op} {u : Unit} (h : BufferInv s)
    (hstep : s.step op = some (t, u)) : BufferInv t := by
  cases op with
  | handleDataPdu bytes =>
    obtain ⟨t', hpdu, ht⟩ := Option.map_eq_some_iff.mp hstep
    cases ht
    exact h.handleDataPdu hpdu
  | timerExpired =>
    cases hstep
    exact h.timerExpired
  | reset =>
    cases hstep
    have hinit := bufferInv_init s.snSize
    have hstopped : s.reassemblyTimer.stop ≠ .running := by
      cases s.reassemblyTimer <;> decide
    exact ⟨hinit.highest, hinit.inside, hinit.clean, hinit.reassembly,
      fun hrun => absurd hrun hstopped, fun hrun => absurd hrun hstopped⟩

theorem bufferInv_of_run {snSize : UmNrSnSize} {ops : List Op} {s : UmNrRx} {us : List Unit}
    (hrun : run step (init snSize) ops = some (s, us)) : BufferInv s :=
  run_invariant BufferInv (fun _ _ _ _ hs hstep => hs.step hstep) ops (init snSize) s us
    (bufferInv_init snSize) hrun

end UmNrRx

end Odss.Rlc
