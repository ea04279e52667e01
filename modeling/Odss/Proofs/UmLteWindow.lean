import Odss.Proofs.UmLteRounds

/-!
# `Odss.Proofs.UmLteWindow`: the receive window of LTE UM

The order in the window is that of `RX_MOD_BASE`, the distance from the lower edge.

* `Between` says that no PDU in the window lies behind the highest SN, seen from `vr_ur`. It holds while
  `vr_ur` catches up with the lower edge.
* `Ready` says that the PDUs lie in the window, none of them in front of `vr_ur`, and `Ordered` that `vr_ur`
  is missing as well. `ordered_of_run`: this holds between the calls of every run.
-/

set_option linter.all false

namespace Odss.Rlc

open Odss.Lib

theorem UmdSnSize.mod_eq (snSize : UmdSnSize) : snSize.mod = 2 * snSize.windowSize := by
  cases snSize <;> rfl

theorem UmdSnSize.windowSize_pos (snSize : UmdSnSize) : 0 < snSize.windowSize := by
  cases snSize <;> decide

namespace UmLteRx

variable {s t : UmLteRx} {sn : Nat} {sdus : List Bytes} {pdu : UmdPdu}

/-! ### The order of the window -/

/-- `RX_MOD_BASE` without division, as the three cases that arithmetic needs. -/
theorem rxModBase_cases (huh : s.vrUh < s.mod) (hsn : sn < s.mod) :
    s.rxModBase sn < s.mod ∧
    ((s.vrUh ≤ sn + s.windowSize ∧ s.rxModBase sn + s.vrUh = sn + s.windowSize) ∨
      (sn + s.windowSize < s.vrUh ∧ s.rxModBase sn + s.vrUh = sn + s.windowSize + s.mod) ∨
      (s.vrUh + s.mod ≤ sn + s.windowSize ∧
        s.rxModBase sn + s.vrUh + s.mod = sn + s.windowSize)) := by
  have hmod : s.mod = 2 * s.windowSize := s.snSize.mod_eq
  have hpos : 0 < s.windowSize := s.snSize.windowSize_pos
  have hlt : s.rxModBase sn < s.mod := Nat.mod_lt _ (by omega)
  refine ⟨hlt, ?_⟩
  have hdiv := Nat.div_add_mod (sn + 2 * s.mod - s.vrUh - s.windowSize) s.mod
  change _ + s.rxModBase sn = _ at hdiv
  generalize hq : (sn + 2 * s.mod - s.vrUh - s.windowSize) / s.mod = q at hdiv
  have hsmall : q < 3 := by
    rw [← hq]
    exact (Nat.div_lt_iff_lt_mul (by omega)).mpr (by omega)
  obtain rfl | rfl | rfl : q = 0 ∨ q = 1 ∨ q = 2 := by omega
  · omega
  · omega
  · omega

theorem rxModBase_windowLow (huh : s.vrUh < s.mod) : s.rxModBase s.windowLow = 0 := by
  have hmod : s.mod = 2 * s.windowSize := s.snSize.mod_eq
  have heq : s.windowLow + 2 * s.mod - s.vrUh - s.windowSize = 2 * s.mod := by
    unfold windowLow
    omega
  rw [rxModBase, heq, Nat.mul_mod_left]

theorem rxModBase_vrUh (huh : s.vrUh < s.mod) : s.rxModBase s.vrUh = s.windowSize := by
  have hmod : s.mod = 2 * s.windowSize := s.snSize.mod_eq
  have := rxModBase_cases huh huh
  omega

theorem insideReorderingWindow_iff (huh : s.vrUh < s.mod) :
    s.insideReorderingWindow sn = true ↔ s.rxWindow.size = 0 ∨ s.rxModBase sn < s.windowSize := by
  simp [insideReorderingWindow, rxModBase_windowLow huh, rxModBase_vrUh huh]

/-- The distance of two SNs in the order of the window. -/
theorem cycDist_of_rxModBase_le {a b : Nat} (huh : s.vrUh < s.mod) (ha : a < s.mod) (hb : b < s.mod)
    (hle : s.rxModBase a ≤ s.rxModBase b) :
    cycDist s.mod a b = s.rxModBase b - s.rxModBase a := by
  have := rxModBase_cases huh ha
  have := rxModBase_cases huh hb
  have := cycDist_cases ha hb
  omega

/-- An SN behind another one in the order of the window has a distance from it. -/
theorem rxModBase_of_cycDist {a b : Nat} (huh : s.vrUh < s.mod) (ha : a < s.mod) (hb : b < s.mod)
    (hlt : s.rxModBase a + cycDist s.mod a b < s.mod) :
    s.rxModBase b = s.rxModBase a + cycDist s.mod a b := by
  have := rxModBase_cases huh ha
  have := rxModBase_cases huh hb
  have := cycDist_cases ha hb
  omega

/-- Two SNs have different places in the order of the window. -/
theorem rxModBase_lt_of_ne {a b : Nat} (huh : s.vrUh < s.mod) (ha : a < s.mod) (hb : b < s.mod)
    (hle : s.rxModBase a ≤ s.rxModBase b) (hne : b ≠ a) : s.rxModBase a < s.rxModBase b := by
  have := rxModBase_cases huh ha
  have := rxModBase_cases huh hb
  omega

/-- The highest SN that was received. -/
def highest (s : UmLteRx) : Nat := (s.vrUh + s.mod - 1) % s.mod

theorem highest_cases (huh : s.vrUh < s.mod) :
    s.highest < s.mod ∧ ((s.vrUh = 0 ∧ s.highest + 1 = s.mod) ∨ s.highest + 1 = s.vrUh) := by
  refine ⟨Nat.mod_lt _ (by omega), ?_⟩
  unfold highest
  rcases Nat.eq_zero_or_pos s.vrUh with hzero | hpos
  · rw [hzero, Nat.mod_eq_of_lt (by omega)]
    omega
  · have heq : s.vrUh + s.mod - 1 = s.vrUh - 1 + s.mod := by omega
    rw [heq, Nat.add_mod_right, Nat.mod_eq_of_lt (by omega)]
    omega

theorem rxModBase_highest (huh : s.vrUh < s.mod) : s.rxModBase s.highest + 1 = s.windowSize := by
  have hmod : s.mod = 2 * s.windowSize := s.snSize.mod_eq
  have hpos : 0 < s.windowSize := s.snSize.windowSize_pos
  obtain ⟨hlt, hcases⟩ := highest_cases huh
  have := rxModBase_cases huh hlt
  omega

/-- The PDUs in the window lie between `vr_ur` and the highest SN. -/
structure Between (s : UmLteRx) : Prop where
  vrUr : s.vrUr < s.mod
  vrUh : s.vrUh < s.mod
  keys : ∀ sn, s.rxWindow.contains sn = true →
    sn < s.mod ∧ cycDist s.mod s.vrUr sn ≤ cycDist s.mod s.vrUr s.highest

/-- The PDUs lie in the window, and not in front of `vr_ur`. -/
structure Ready (s : UmLteRx) : Prop where
  vrUr : s.vrUr < s.mod
  vrUh : s.vrUh < s.mod
  keys : ∀ sn, s.rxWindow.contains sn = true →
    sn < s.mod ∧ s.rxModBase s.vrUr ≤ s.rxModBase sn ∧ s.rxModBase sn < s.windowSize

/-- What holds between the calls. -/
structure Ordered (s : UmLteRx) : Prop extends Ready s where
  waits : s.rxWindow.find? s.vrUr = none

theorem contains_insert {m : OrdMap Nat UmdPdu} {k j : Nat} {v : UmdPdu} :
    (m.insert k v).contains j = true ↔ j = k ∨ m.contains j = true := by
  simp only [OrdMap.contains, OrdMap.find?_insert]
  split <;> simp_all

theorem contains_erase {m : OrdMap Nat UmdPdu} {k j : Nat} :
    (m.erase k).contains j = true ↔ j ≠ k ∧ m.contains j = true := by
  simp only [OrdMap.contains, OrdMap.find?_erase]
  split <;> simp_all

theorem size_eq_zero_iff {m : OrdMap Nat UmdPdu} :
    m.size = 0 ↔ ∀ k, m.contains k = false := by
  constructor
  · intro h k
    have hnil : m.entries = [] := List.eq_nil_of_length_eq_zero h
    simp [OrdMap.contains, OrdMap.find?, hnil, OrdMap.lookup]
  · intro h
    cases hentries : m.entries with
    | nil => simp [OrdMap.size, hentries]
    | cons e es =>
      have hmem : (e.1, e.2) ∈ m.entries := by rw [hentries]; exact List.mem_cons_self
      have hfind := (OrdMap.mem_entries_iff _ _ _).mp hmem
      have := h e.1
      simp [OrdMap.contains, hfind] at this

theorem size_erase_lt {m : OrdMap Nat UmdPdu} {k : Nat} (h : m.contains k = true) :
    (m.erase k).size < m.size := by
  obtain ⟨v, hfind⟩ := (OrdMap.contains_iff _ _).mp h
  refine List.length_filter_lt_length_iff_exists.mpr ⟨(k, v), (OrdMap.mem_entries_iff _ _ _).mpr hfind, ?_⟩
  simp

theorem Ready.between (h : Ready s) : Between s := by
  refine ⟨h.vrUr, h.vrUh, fun sn hcontains => ?_⟩
  obtain ⟨hlt, hle, hwindow⟩ := h.keys sn hcontains
  have hrank := rxModBase_highest h.vrUh
  rw [cycDist_of_rxModBase_le h.vrUh h.vrUr hlt hle,
    cycDist_of_rxModBase_le h.vrUh h.vrUr (highest_cases h.vrUh).1 (by omega)]
  exact ⟨hlt, by omega⟩

/-- A PDU that is written to the window is the highest one, or lies in the window. -/
theorem between_place (h : Ready s) (hsn : pdu.header.sn < s.mod)
    (hkeep : s.discards pdu.header.sn = false) : Between (s.place pdu) := by
  have hmod : s.mod = 2 * s.windowSize := s.snSize.mod_eq
  have hfront : s.rxModBase s.vrUr ≤ s.rxModBase pdu.header.sn := by
    simp only [discards, rxModBase_windowLow h.vrUh, Nat.zero_le, decide_true, Bool.true_and,
      Bool.or_eq_false_iff, decide_eq_false_iff_not, Nat.not_lt] at hkeep
    exact hkeep.1
  have hsize : (s.rxWindow.insert pdu.header.sn pdu).size ≠ 0 := by
    intro hzero
    have := size_eq_zero_iff.mp hzero pdu.header.sn
    simp [OrdMap.contains] at this
  have hinside : ({ s with rxWindow := s.rxWindow.insert pdu.header.sn pdu } : UmLteRx).insideReorderingWindow
      pdu.header.sn = true ↔ s.rxModBase pdu.header.sn < s.windowSize :=
    (insideReorderingWindow_iff (s := { s with rxWindow := s.rxWindow.insert pdu.header.sn pdu })
      h.vrUh).trans ⟨fun hor => hor.resolve_left hsize, .inr⟩
  unfold place
  simp only
  split
  · rename_i hin
    rw [hinside] at hin
    have hready : Ready { s with rxWindow := s.rxWindow.insert pdu.header.sn pdu } := by
      refine ⟨h.vrUr, h.vrUh, fun sn hcontains => ?_⟩
      rcases contains_insert.mp hcontains with rfl | hold
      · exact ⟨hsn, hfront, hin⟩
      · exact h.keys sn hold
    exact hready.between
  · rename_i hout
    rw [hinside, Nat.not_lt] at hout
    have hnew : (pdu.header.sn + 1) % s.mod < s.mod := succ_mod_lt hsn
    refine ⟨h.vrUr, hnew, fun sn hcontains => ?_⟩
    have hhigh := highest_cases (s := { s with
      rxWindow := s.rxWindow.insert pdu.header.sn pdu, vrUh := (pdu.header.sn + 1) % s.mod }) hnew
    change _ < s.mod ∧ ((pdu.header.sn + 1) % s.mod = 0 ∧ _ + 1 = s.mod ∨
      _ + 1 = (pdu.header.sn + 1) % s.mod) at hhigh
    have hsucc := succ_mod_cases hsn
    have heq : highest { s with
        rxWindow := s.rxWindow.insert pdu.header.sn pdu, vrUh := (pdu.header.sn + 1) % s.mod } =
          pdu.header.sn := by omega
    rw [heq]
    change sn < s.mod ∧ cycDist s.mod s.vrUr sn ≤ cycDist s.mod s.vrUr pdu.header.sn
    rcases contains_insert.mp hcontains with rfl | hold
    · exact ⟨hsn, Nat.le_refl _⟩
    · obtain ⟨hlt, hle, hwindow⟩ := h.keys sn hold
      rw [cycDist_of_rxModBase_le h.vrUh h.vrUr hlt hle,
        cycDist_of_rxModBase_le h.vrUh h.vrUr hsn hfront]
      exact ⟨hlt, by omega⟩

/-- An SN is passed. -/
theorem Between.next (h : Between s) (hframe : s.SduOnly t) : Between t.nextSn := by
  obtain ⟨sdu, lost, last, rfl, -⟩ := hframe
  refine ⟨succ_mod_lt h.vrUr, h.vrUh, fun sn hcontains => ?_⟩
  obtain ⟨hne, hold⟩ := contains_erase.mp hcontains
  have hne : sn ≠ s.vrUr := hne
  obtain ⟨hlt, hle⟩ := h.keys sn hold
  have hhigh := (highest_cases h.vrUh).1
  refine ⟨hlt, ?_⟩
  change cycDist s.mod ((s.vrUr + 1) % s.mod) sn ≤ cycDist s.mod ((s.vrUr + 1) % s.mod) s.highest
  have hpos : cycDist s.mod s.vrUr sn ≠ 0 := fun hzero =>
    hne ((cycDist_eq_zero_iff h.vrUr hlt).mp hzero)
  have hhighest : s.highest ≠ s.vrUr := by
    intro heq
    rw [heq, cycDist_self] at hle
    omega
  rw [cycDist_succ_base h.vrUr hlt hne, cycDist_succ_base h.vrUr hhigh hhighest]
  omega

/-- The lower edge is reached. -/
theorem ready_of_between (h : Between s) (hin : s.insideReorderingWindow s.vrUr = true) : Ready s := by
  refine ⟨h.vrUr, h.vrUh, fun sn hcontains => ?_⟩
  have hmod : s.mod = 2 * s.windowSize := s.snSize.mod_eq
  obtain ⟨hlt, hle⟩ := h.keys sn hcontains
  have hwindow : s.rxModBase s.vrUr < s.windowSize := by
    rcases (insideReorderingWindow_iff h.vrUh).mp hin with hzero | hwindow
    · rw [size_eq_zero_iff.mp hzero sn] at hcontains
      cases hcontains
    · exact hwindow
  have hrank := rxModBase_highest h.vrUh
  rw [cycDist_of_rxModBase_le h.vrUh h.vrUr (highest_cases h.vrUh).1 (by omega)] at hle
  rw [rxModBase_of_cycDist h.vrUh h.vrUr hlt (by omega)]
  exact ⟨hlt, by omega, by omega⟩

theorem Ready.inside (h : Ready s) : s.insideReorderingWindow s.vrUr = true := by
  rw [insideReorderingWindow_iff h.vrUh]
  by_cases hzero : s.rxWindow.size = 0
  · exact .inl hzero
  · right
    rw [size_eq_zero_iff] at hzero
    obtain ⟨sn, hcontains⟩ := not_forall.mp hzero
    have := h.keys sn (by simpa using hcontains)
    omega

/-- The next SN is one further. -/
theorem rxModBase_succ (hur : s.vrUr < s.mod) (huh : s.vrUh < s.mod)
    (hroom : s.rxModBase s.vrUr + 1 < s.mod) :
    s.rxModBase ((s.vrUr + 1) % s.mod) = s.rxModBase s.vrUr + 1 := by
  have hmod : s.mod = 2 * s.windowSize := s.snSize.mod_eq
  have hsucc := succ_mod_cases hur
  have := rxModBase_cases huh hur
  have := rxModBase_cases huh (succ_mod_lt hur)
  omega

/-- `vr_ur` steps over an SN that is missing. -/
theorem Ordered.step (h : Ordered s) (hroom : s.rxModBase s.vrUr + 1 < s.mod) :
    Ready { s with vrUr := (s.vrUr + 1) % s.mod } := by
  refine ⟨succ_mod_lt h.vrUr, h.vrUh, fun sn hcontains => ?_⟩
  obtain ⟨hlt, hle, hwindow⟩ := h.keys sn hcontains
  have hne : sn ≠ s.vrUr := by
    rintro rfl
    obtain ⟨pdu, hfind⟩ := (OrdMap.contains_iff _ _).mp hcontains
    rw [h.waits] at hfind
    cases hfind
  have hsucc := rxModBase_succ h.vrUr h.vrUh hroom
  have hbehind := rxModBase_lt_of_ne h.vrUh h.vrUr hlt hle hne
  change sn < s.mod ∧ s.rxModBase ((s.vrUr + 1) % s.mod) ≤ s.rxModBase sn ∧ s.rxModBase sn < s.windowSize
  exact ⟨hlt, by omega, hwindow⟩

/-- A PDU in sequence is passed. -/
theorem Ready.next (h : Ready s) (hcond : s.rxWindow.contains s.vrUr = true) (hframe : s.SduOnly t) :
    Ready t.nextSn ∧ s.rxModBase s.vrUr < s.rxModBase t.nextSn.vrUr := by
  obtain ⟨sdu, lost, last, rfl, -⟩ := hframe
  have hmod : s.mod = 2 * s.windowSize := s.snSize.mod_eq
  have hwindow := (h.keys s.vrUr hcond).2.2
  have hsucc := rxModBase_succ h.vrUr h.vrUh (by omega)
  refine ⟨⟨succ_mod_lt h.vrUr, h.vrUh, fun sn hcontains => ?_⟩, ?_⟩
  · obtain ⟨hne, hold⟩ := contains_erase.mp hcontains
    have hne : sn ≠ s.vrUr := hne
    obtain ⟨hlt, hle, hin⟩ := h.keys sn hold
    have hbehind := rxModBase_lt_of_ne h.vrUh h.vrUr hlt hle hne
    change sn < s.mod ∧ s.rxModBase ((s.vrUr + 1) % s.mod) ≤ s.rxModBase sn ∧
      s.rxModBase sn < s.windowSize
    exact ⟨hlt, by omega, hin⟩
  · change s.rxModBase s.vrUr < s.rxModBase ((s.vrUr + 1) % s.mod)
    omega

/-! ### The loops -/

/-- What `reassemble_rx_sdus` leaves alone. -/
structure Keeps (s t : UmLteRx) : Prop where
  snSize : t.snSize = s.snSize
  tReordering : t.tReordering = s.tReordering
  vrUx : t.vrUx = s.vrUx
  vrUh : t.vrUh = s.vrUh
  timer : t.reorderingTimer = s.reorderingTimer

theorem Keeps.refl (s : UmLteRx) : s.Keeps s := ⟨rfl, rfl, rfl, rfl, rfl⟩

theorem Keeps.trans {s t u : UmLteRx} (h : s.Keeps t) (h' : t.Keeps u) : s.Keeps u :=
  ⟨h'.snSize.trans h.snSize, h'.tReordering.trans h.tReordering, h'.vrUx.trans h.vrUx,
    h'.vrUh.trans h.vrUh, h'.timer.trans h.timer⟩

theorem keeps_nextSn (h : s.SduOnly t) : s.Keeps t.nextSn := by
  obtain ⟨sdu, lost, last, rfl, -⟩ := h
  exact ⟨rfl, rfl, rfl, rfl, rfl⟩

/-- The order of the window depends on `vr_uh` alone. -/
theorem Keeps.rxModBase_eq (h : s.Keeps t) (sn : Nat) : t.rxModBase sn = s.rxModBase sn := by
  unfold rxModBase mod windowSize
  rw [h.snSize, h.vrUh]

theorem catchUp_spec (h : Between s) (hrun : s.catchUp = some (t, sdus)) : Ready t ∧ s.Keeps t := by
  have hinv := loop_state_invariant (fun u => Between u ∧ s.Keeps u) (fun u v out _ hu hround => by
    obtain ⟨w, hframe, rfl⟩ := lowerEdgeRound_frame hround
    exact ⟨hu.1.next hframe, hu.2.trans (keeps_nextSn hframe)⟩) ⟨h, .refl s⟩ hrun
  have hexit := loop_exit hrun
  simp only [Bool.not_eq_false'] at hexit
  exact ⟨ready_of_between hinv.1 hexit, hinv.2⟩

/-- A receiver whose `vr_ur` is at the lower edge has nothing to catch up. -/
theorem Ready.catchUp_eq (h : Ready s) : s.catchUp = some (s, []) := by
  have hcond : (!s.insideReorderingWindow s.vrUr) = false := by rw [h.inside]; rfl
  unfold catchUp
  cases s.mod with
  | zero => simp [loop, hcond]
  | succ n => simp [loop, hcond]

theorem advance_spec (h : Ready s) (hrun : s.advance = some (t, sdus)) :
    Ordered t ∧ s.Keeps t ∧ s.rxModBase s.vrUr ≤ s.rxModBase t.vrUr := by
  have hinv := loop_state_invariant
    (fun u => Ready u ∧ s.Keeps u ∧ s.rxModBase s.vrUr ≤ s.rxModBase u.vrUr)
    (fun u v out hcond hu hround => by
      obtain ⟨w, hframe, rfl⟩ := inSequenceRound_frame hcond hround
      obtain ⟨hnext, hless⟩ := hu.1.next hcond hframe
      have hle := hu.2.2
      rw [hu.2.1.rxModBase_eq, hu.2.1.rxModBase_eq] at hless
      exact ⟨hnext, hu.2.1.trans (keeps_nextSn hframe), by omega⟩)
    ⟨h, .refl s, Nat.le_refl _⟩ hrun
  have hexit := loop_exit hrun
  refine ⟨⟨hinv.1, ?_⟩, hinv.2⟩
  simpa [OrdMap.contains] using hexit

theorem reassembleRxSdus_eq_some (hrun : s.reassembleRxSdus = some (t, sdus)) :
    ∃ u out out', s.catchUp = some (u, out) ∧ u.advance = some (t, out') ∧ sdus = out ++ out' := by
  unfold reassembleRxSdus at hrun
  split at hrun
  · cases hrun
  · rename_i u out hcatch
    split at hrun
    · cases hrun
    · rename_i v out' hadvance
      cases hrun
      exact ⟨u, out, out', hcatch, hadvance, rfl⟩

theorem reassembleRxSdus_spec (h : Between s) (hrun : s.reassembleRxSdus = some (t, sdus)) :
    Ordered t ∧ s.Keeps t := by
  obtain ⟨u, out, out', hcatch, hadvance, -⟩ := reassembleRxSdus_eq_some hrun
  obtain ⟨hready, hkeeps⟩ := catchUp_spec h hcatch
  obtain ⟨hordered, hkeeps', -⟩ := advance_spec hready hadvance
  exact ⟨hordered, hkeeps.trans hkeeps'⟩

/-- A round of `timer_expired` moves `vr_ur` towards `vr_ux`. -/
theorem expiryRound_spec (h : Ordered s) (hvrUx : s.vrUx < s.mod)
    (hcond : s.rxModBase s.vrUr < s.rxModBase s.vrUx) (hrun : s.expiryRound = some (t, sdus)) :
    Ordered t ∧ s.Keeps t ∧ s.rxModBase s.vrUr < s.rxModBase t.vrUr := by
  have hlast := (rxModBase_cases h.vrUh hvrUx).1
  have hready := h.step (by omega)
  obtain ⟨u, out, out', hcatch, hadvance, -⟩ := reassembleRxSdus_eq_some hrun
  rw [hready.catchUp_eq] at hcatch
  cases hcatch
  obtain ⟨hordered, hkeeps, hle⟩ := advance_spec hready hadvance
  have hstep : s.Keeps { s with vrUr := (s.vrUr + 1) % s.mod } := ⟨rfl, rfl, rfl, rfl, rfl⟩
  have hsucc := rxModBase_succ h.vrUr h.vrUh (by omega)
  refine ⟨hordered, hstep.trans hkeeps, ?_⟩
  change s.rxModBase ((s.vrUr + 1) % s.mod) ≤ s.rxModBase t.vrUr at hle
  omega

theorem passLost_spec (h : Ordered s) (hvrUx : s.vrUx < s.mod) (hrun : s.passLost = some (t, sdus)) :
    Ordered t ∧ t.vrUx < t.mod ∧ t.snSize = s.snSize ∧
      (t.reorderingTimer.isRunning = true → s.reorderingTimer.isRunning = true ∨
        t.rxModBase t.vrUr < t.rxModBase t.vrUx) := by
  obtain ⟨⟨u, out⟩, hloop, heq⟩ := Option.map_eq_some_iff.mp hrun
  simp only [Prod.mk.injEq] at heq
  obtain ⟨rfl, rfl⟩ := heq
  have hstart : Ordered { s with pduLost := true, rxSdu := [] } :=
    ⟨⟨h.vrUr, h.vrUh, h.keys⟩, h.waits⟩
  have hinv := loop_state_invariant
    (fun u => Ordered u ∧ Keeps { s with pduLost := true, rxSdu := [] } u)
    (fun u v out hcond hu hround => by
      have hux : u.vrUx < u.mod := by
        unfold mod
        rw [hu.2.vrUx, hu.2.snSize]
        exact hvrUx
      obtain ⟨hordered, hkeeps, -⟩ := expiryRound_spec hu.1 hux (of_decide_eq_true hcond) hround
      exact ⟨hordered, hu.2.trans hkeeps⟩) ⟨hstart, .refl _⟩ hloop
  obtain ⟨hordered, hkeeps⟩ := hinv
  unfold runTimer
  split
  · rename_i hless
    exact ⟨⟨⟨hordered.vrUr, hordered.vrUh, hordered.keys⟩, hordered.waits⟩, hordered.vrUh, hkeeps.snSize,
      fun _ => .inr hless⟩
  · refine ⟨hordered, ?_, hkeeps.snSize, fun hrunning => .inl ?_⟩
    · unfold mod
      rw [hkeeps.vrUx, hkeeps.snSize]
      exact hvrUx
    · rw [hkeeps.timer] at hrunning
      exact hrunning

/-! ### Calls -/

/-- What holds between the calls. While t-Reordering runs, an SN in front of `vr_ux` is missing. After a
re-establishment the timer can run on in an empty receiver. -/
structure CallInv (s : UmLteRx) : Prop extends Ordered s where
  vrUx : s.vrUx < s.mod
  timer : s.reorderingTimer.isRunning = true →
    s.rxModBase s.vrUr < s.rxModBase s.vrUx ∨ s.rxSdu = []

theorem callInv_init (snSize : UmdSnSize) (tReordering : Nat) : CallInv (init snSize tReordering) := by
  have hpos : 0 < snSize.mod := by
    rw [snSize.mod_eq]
    have := snSize.windowSize_pos
    omega
  refine ⟨⟨⟨hpos, hpos, fun sn h => ?_⟩, rfl⟩, hpos, fun h => ?_⟩
  · simp [init, OrdMap.contains] at h
  · simp [init, TimerState.isRunning] at h

theorem sn_lt_of_readUmdHeader {snSize : UmdSnSize} {bytes : Bytes} {header : UmdHeader}
    (h : readUmdHeader snSize bytes = some header) : header.sn < snSize.mod := by
  unfold readUmdHeader at h
  split at h
  · obtain ⟨lis, -, rfl⟩ := Option.map_eq_some_iff.mp h
    exact Nat.mod_lt _ (by decide)
  · rename_i b₀ b₁ rest
    obtain ⟨lis, -, rfl⟩ := Option.map_eq_some_iff.mp h
    have := b₁.toNat_lt
    change b₀.toNat % 4 * 256 + b₁.toNat < 1024
    omega
  · cases h

theorem handleDataPdu_eq_some {bytes : Bytes} (h : s.handleDataPdu bytes = some (t, sdus)) :
    (t = s ∧ sdus = [] ∧ ∃ header, readUmdHeader s.snSize bytes = some header ∧
      s.discards header.sn = true) ∨ ∃ header pdu u, readUmdHeader s.snSize bytes = some header ∧
      s.discards header.sn = false ∧ stripHeader header bytes = some pdu ∧
      (s.place pdu).reassembleRxSdus = some (u, sdus) ∧ t = u.stopTimer.startTimer := by
  unfold handleDataPdu at h
  split at h
  · cases h
  · rename_i header hheader
    split at h
    · rename_i hdiscard
      cases h
      exact .inl ⟨rfl, rfl, header, hheader, hdiscard⟩
    · rename_i hkeep
      split at h
      · cases h
      · rename_i pdu hstrip
        obtain ⟨⟨u, out⟩, hrun, heq⟩ := Option.map_eq_some_iff.mp h
        cases heq
        exact .inr ⟨header, pdu, u, hheader, Bool.eq_false_iff.mpr hkeep, hstrip, hrun, rfl⟩

theorem header_of_stripHeader {header : UmdHeader} {bytes : Bytes}
    (h : stripHeader header bytes = some pdu) : pdu.header = header := by
  unfold stripHeader at h
  split at h
  · cases h
    rfl
  · cases h

/-- The timer that runs behind `handle_data_pdu` was checked there, or was started there. -/
theorem callInv_timers (h : Ordered s) (hvrUx : s.vrUx < s.mod) : CallInv s.stopTimer.startTimer := by
  have hstop : Ordered s.stopTimer ∧ s.stopTimer.vrUx < s.stopTimer.mod ∧
      (s.stopTimer.reorderingTimer.isRunning = true →
        s.stopTimer.rxModBase s.stopTimer.vrUr < s.stopTimer.rxModBase s.stopTimer.vrUx) := by
    unfold stopTimer
    split
    · refine ⟨⟨⟨h.vrUr, h.vrUh, h.keys⟩, h.waits⟩, hvrUx, fun hrunning => ?_⟩
      cases htimer : s.reorderingTimer <;> simp [htimer, TimerState.stop, TimerState.isRunning] at hrunning
    · rename_i hcond
      refine ⟨h, hvrUx, fun hrunning => ?_⟩
      by_contra hle
      exact hcond (by simp [hrunning, Nat.not_lt.mp hle])
  obtain ⟨hordered, hux, htimer⟩ := hstop
  generalize s.stopTimer = u at hordered hux htimer
  unfold startTimer
  split
  · rename_i hrunning
    exact ⟨hordered, hux, fun _ => .inl (htimer hrunning)⟩
  · rename_i hstopped
    unfold runTimer
    split
    · rename_i hless
      exact ⟨⟨⟨hordered.vrUr, hordered.vrUh, hordered.keys⟩, hordered.waits⟩, hordered.vrUh,
        fun _ => .inl hless⟩
    · exact ⟨hordered, hux, fun hrunning => absurd hrunning hstopped⟩

theorem keeps_place_snSize (s : UmLteRx) (pdu : UmdPdu) :
    (s.place pdu).snSize = s.snSize ∧ (s.place pdu).vrUx = s.vrUx := by
  unfold place
  simp only
  split <;> exact ⟨rfl, rfl⟩

theorem callInv_reset (s : UmLteRx) (timer : TimerState) :
    CallInv { s.reset with reorderingTimer := timer } := by
  have hpos : 0 < s.snSize.mod := by
    rw [s.snSize.mod_eq]
    have := s.snSize.windowSize_pos
    omega
  refine ⟨⟨⟨hpos, hpos, fun sn h => ?_⟩, rfl⟩, hpos, fun _ => .inr rfl⟩
  simp [reset, OrdMap.contains] at h

theorem CallInv.step {op : Op} (h : CallInv s) (hstep : s.step op = some (t, sdus)) : CallInv t := by
  cases op with
  | writePdu bytes =>
    obtain ⟨rfl, -⟩ | ⟨header, pdu, u, hheader, hkeep, hstrip, hrun, rfl⟩ := handleDataPdu_eq_some hstep
    · exact h
    · have heq := header_of_stripHeader hstrip
      have hsn : pdu.header.sn < s.mod := by
        rw [heq]
        exact sn_lt_of_readUmdHeader hheader
      have hbetween := between_place h.toReady hsn (by rw [heq]; exact hkeep)
      obtain ⟨hordered, hkeeps⟩ := reassembleRxSdus_spec hbetween hrun
      obtain ⟨hsnSize, hvrUx⟩ := keeps_place_snSize s pdu
      refine callInv_timers hordered ?_
      unfold mod
      rw [hkeeps.vrUx, hkeeps.snSize, hsnSize, hvrUx]
      exact h.vrUx
  | timerExpired =>
    have hstep : s.timerExpired = some (t, sdus) := hstep
    unfold timerExpired at hstep
    split at hstep
    · cases hstep
      exact h
    · split at hstep
      · cases hstep
        exact ⟨⟨⟨h.vrUr, h.vrUh, h.keys⟩, h.waits⟩, h.vrUx,
          fun hrunning => by simp [TimerState.isRunning] at hrunning⟩
      · have hexpired : Ordered { s with reorderingTimer := .expired } :=
          ⟨⟨h.vrUr, h.vrUh, h.keys⟩, h.waits⟩
        obtain ⟨hordered, hvrUx, -, htimer⟩ := passLost_spec hexpired h.vrUx hstep
        refine ⟨hordered, hvrUx, fun hrunning => ?_⟩
        rcases htimer hrunning with hexp | hless
        · cases hexp
        · exact .inl hless
  | reestablish =>
    have hstep : s.reestablish = some (t, sdus) := hstep
    unfold reestablish at hstep
    split at hstep
    · obtain ⟨⟨u, out⟩, hrun, heq⟩ := Option.map_eq_some_iff.mp hstep
      cases heq
      exact callInv_reset u u.reorderingTimer
    · cases hstep
      exact callInv_reset s s.reorderingTimer
  | stop =>
    cases hstep
    exact callInv_reset s s.reorderingTimer.stop

theorem callInv_of_run {snSize : UmdSnSize} {tReordering : Nat} {ops : List Op} {out : List (List Bytes)}
    (hrun : run step (init snSize tReordering) ops = some (s, out)) : CallInv s :=
  run_invariant CallInv (fun _ _ _ _ h hstep => h.step hstep) ops _ _ _ (callInv_init _ _) hrun

end UmLteRx

end Odss.Rlc
