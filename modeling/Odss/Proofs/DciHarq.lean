import Odss.Mac.Format2a

/-!
# `Odss.Proofs.DciHarq`: transport blocks in the DCI and in the HARQ process

`AgreesWithDci` is what a DCI for two transport blocks owes the HARQ process: the transport blocks
that it enables are those that the process counts as sent.

Every transport block that is pending is counted as sent again, also the one that a single layer
leaves no room for. `agreesWithDci_iff` says that this, and a transport block without bytes, are
the only exceptions.
-/

set_option linter.all false

namespace Odss.Mac

open Odss.Common Format2aArgs

variable {g : Nat}

/-! ### What is meant -/

/-- The DCI enables the transport blocks whose HARQ state changes, with the values that the process
has for them, and the TTI is that of the last transmission. The RV of a DCI with MCS 0 is never 1,
which would disable the transport block. -/
structure AgreesWithDci (x : Format2aArgs g) (data : DlData) (h : DlHarqProc g) : Prop where
  enabled_iff : ∀ i, ((x.generateFormat2a data h).2.1.tb i).isEn = true ↔
    (x.generateFormat2a data h).2.2.tb i ≠ h.tb i
  fields : ∀ i, let r := (x.generateFormat2a data h).2
    (r.1.tb i).isEn = true →
      (r.1.tb i).mcsIdx = asUint32 (r.2.tb i).lastMcs ∧ (r.1.tb i).ndi = (r.2.tb i).ndi ∧
      ((r.1.tb i).rv = getRvidx (r.2.tb i).nRtx ∨
        ((r.1.tb i).rv = 2 ∧ (r.1.tb i).mcsIdx = 0 ∧ getRvidx (r.2.tb i).nRtx = 1)) ∧
      r.2.tti = x.ttiTxDl
  idle : (∀ i, ((x.generateFormat2a data h).2.1.tb i).isEn = false) →
    (x.generateFormat2a data h).2.2 = h

attribute [local instance] Odss.Mac.HarqProc.neZero_tbs

/-- A new PDU is made for a transport block. -/
def MakesPdu (x : Format2aArgs g) (h : DlHarqProc g) (i : TbIdx) : Prop :=
  h.isEmpty = true ∧ (x.dlRi = 0 → i = 0) ∧ (x.newPdu i).remTbs ≠ (x.newPdu i).tbsBytes

/-- With one layer not both transport blocks are pending, and none is sent without bytes. -/
structure OneLayerFits (x : Format2aArgs g) (h : DlHarqProc g) : Prop where
  layers : x.dlRi = 0 → h.isEmptyTb 0 = true ∨ h.isEmptyTb 1 = true
  pending : ∀ i, h.isEmptyTb i = false → 0 < (h.tb i).lastTbs
  fresh : ∀ i, MakesPdu x h i → 0 < (x.newPdu i).tbsBytes

/-! ### One transport block -/

variable {x : Format2aArgs g} {data : DlData} {h : DlHarqProc g} {i j : TbIdx} {en noRetx : Bool}

/-- The transport block is sent, again or for the first time. -/
def Sends (x : Format2aArgs g) (en noRetx : Bool) (h : DlHarqProc g) (i : TbIdx) : Prop :=
  h.isEmptyTb i = false ∨
    (en = true ∧ noRetx = true ∧ (x.newPdu i).remTbs ≠ (x.newPdu i).tbsBytes)

/-- The number of bytes that are sent. -/
def sentBytes (x : Format2aArgs g) (h : DlHarqProc g) (i : TbIdx) : Int :=
  if h.isEmptyTb i then (x.newPdu i).tbsBytes else (h.tb i).lastTbs

theorem newRetx_tb (mask : BoundedBitset g) (tti : TtiPoint) (ncce : Nat) :
    (h.newRetx mask i tti ncce).tb =
      Function.update h.tb i { h.tb i with ackState := false, nRtx := (h.tb i).nRtx + 1 } := rfl

theorem newTx_tb (mask : BoundedBitset g) (tti : TtiPoint) (mcs tbs : Int) (ncce maxRetx : Nat) :
    (h.newTx mask i tti mcs tbs ncce maxRetx).tb = Function.update h.tb i
      { ackState := false, active := true, ndi := !(h.tb i).ndi, nRtx := 0, txCnt := 1,
        lastMcs := mcs, lastTbs := tbs } := by
  funext j
  by_cases hj : j = i
  · subst hj
    simp [DlHarqProc.newTx, HarqProc.newTxCommon, HarqProc.reset, HarqProc.setTb]
  · simp [DlHarqProc.newTx, HarqProc.newTxCommon, HarqProc.reset, HarqProc.setTb, hj]

/-- What is sent is counted. -/
theorem transmit_of_sends (hs : Sends x en noRetx h i) :
    let r := x.transmit en noRetx h i
    r.2.tb i ≠ h.tb i ∧ r.2.tti = x.ttiTxDl ∧ (r.2.tb i).lastMcs = r.1.mcs ∧
      r.1.tbsBytes = sentBytes x h i := by
  unfold transmit sentBytes
  cases hempty : h.isEmptyTb i with
  | false =>
    rw [if_pos (by decide), if_neg (by decide)]
    dsimp only
    rw [newRetx_tb, Function.update_self]
    refine ⟨fun heq => ?_, rfl, rfl, rfl⟩
    have hcount := congrArg HarqTb.nRtx heq
    exact absurd hcount (Nat.succ_ne_self _)
  | true =>
    obtain ⟨hen, hno, hrem⟩ := hs.resolve_left (by rw [hempty]; decide)
    rw [if_neg (by decide), if_pos (by rw [hen, hno]; rfl), if_pos rfl, allocateNewDlMacPdu,
      if_pos hrem]
    dsimp only
    rw [newTx_tb, Function.update_self]
    refine ⟨fun heq => ?_, rfl, rfl, rfl⟩
    have hndi : (!(h.tb i).ndi) = (h.tb i).ndi := congrArg HarqTb.ndi heq
    exact absurd hndi (by simp)

/-- What is not sent leaves the process. -/
theorem transmit_of_not_sends (hs : ¬ Sends x en noRetx h i) :
    (x.transmit en noRetx h i).2 = h ∧ (x.transmit en noRetx h i).1.tbsBytes ≤ 0 := by
  have hempty : h.isEmptyTb i = true := by
    by_contra hno
    exact hs (.inl (Bool.eq_false_iff.mpr hno))
  unfold transmit
  rw [hempty, if_neg (by decide)]
  split
  · rename_i hmake
    obtain ⟨hen, hno⟩ := Bool.and_eq_true_iff.mp hmake
    have hrem : ¬ (x.newPdu i).remTbs ≠ (x.newPdu i).tbsBytes :=
      fun hrem => hs (.inr ⟨hen, hno, hrem⟩)
    rw [allocateNewDlMacPdu, if_neg hrem]
    exact ⟨rfl, Int.le_refl _⟩
  · exact ⟨rfl, (by decide : (-1 : Int) ≤ 0)⟩

/-- The other transport block stays. -/
theorem transmit_other (hj : j ≠ i) : (x.transmit en noRetx h i).2.tb j = h.tb j := by
  unfold transmit
  split_ifs
  · dsimp only
    rw [newRetx_tb, Function.update_of_ne hj]
  · unfold allocateNewDlMacPdu
    dsimp only
    split_ifs
    · dsimp only
      rw [newTx_tb, Function.update_of_ne hj]
    · rfl
  · rfl

/-- The DCI fields of what is sent. -/
theorem dciTb_spec (h : DlHarqProc g) (mcs : Int) (i : TbIdx) :
    (dciTb h mcs i).isEn = true ∧ (dciTb h mcs i).mcsIdx = asUint32 mcs ∧
      (dciTb h mcs i).ndi = (h.tb i).ndi ∧
      ((dciTb h mcs i).rv = getRvidx (h.tb i).nRtx ∨
        ((dciTb h mcs i).rv = 2 ∧ (dciTb h mcs i).mcsIdx = 0 ∧ getRvidx (h.tb i).nRtx = 1)) := by
  unfold dciTb
  dsimp only
  split
  · rename_i hen
    exact ⟨hen, rfl, rfl, .inl rfl⟩
  · rename_i hoff
    have hboth : asUint32 mcs = 0 ∧ getRvidx (h.tb i).nRtx = 1 := by
      simpa [DciTb.isEn] using hoff
    exact ⟨by simp [DciTb.isEn], rfl, rfl, .inr ⟨rfl, hboth⟩⟩

/-! ### The call -/

/-- What the call leaves for a transport block. -/
structure Outcome (x : Format2aArgs g) (en : TbIdx → Bool) (noRetx : Bool) (h : DlHarqProc g)
    (r : DlData × DlHarqProc g) (i : TbIdx) : Prop where
  sent : Sends x (en i) noRetx h i → r.2.tb i ≠ h.tb i ∧ r.2.tti = x.ttiTxDl
  kept : ¬ Sends x (en i) noRetx h i → r.2.tb i = h.tb i
  isEn_iff : (r.1.tb i).isEn = true ↔
    Sends x (en i) noRetx h i ∧ 0 < sentBytes x h i ∧ en i = true
  fields : (r.1.tb i).isEn = true → r.1.tb i = dciTb r.2 (r.2.tb i).lastMcs i

/-- One round decides about its transport block. -/
theorem outcome_round (en : TbIdx → Bool) (r : DlData × DlHarqProc g) :
    Outcome x en noRetx r.2 (x.round en noRetx i r) i := by
  have hsent := @transmit_of_sends _ x r.2 i (en i) noRetx
  have hkept := @transmit_of_not_sends _ x r.2 i (en i) noRetx
  unfold Format2aArgs.round
  generalize x.transmit (en i) noRetx r.2 i = t at hsent hkept
  obtain ⟨tbinfo, h'⟩ := t
  dsimp only at hsent hkept ⊢
  by_cases hif : tbinfo.tbsBytes > 0 ∧ en i = true
  · have hs : Sends x (en i) noRetx r.2 i := by
      by_contra hs
      exact absurd hif.1 (Int.not_lt.mpr (hkept hs).2)
    obtain ⟨hne, htti, hmcs, htbs⟩ := hsent hs
    rw [if_pos hif]
    refine ⟨fun _ => ⟨hne, htti⟩, fun hno => absurd hs hno, ?_, fun _ => ?_⟩
    · dsimp only
      rw [Function.update_self]
      exact iff_of_true (dciTb_spec _ _ _).1 ⟨hs, htbs ▸ hif.1, hif.2⟩
    · dsimp only
      rw [Function.update_self, hmcs]
  · rw [if_neg hif]
    have hoff : (Function.update r.1.tb i (r.1.tb i).disable i).isEn = false := by
      rw [Function.update_self]
      rfl
    refine ⟨fun hs => ⟨(hsent hs).1, (hsent hs).2.1⟩, fun hno => by rw [(hkept hno).1], ?_, ?_⟩
    · refine iff_of_false (by rw [hoff]; decide) fun hall => hif ?_
      exact ⟨(hsent hall.1).2.2.2 ▸ hall.2.1, hall.2.2⟩
    · exact fun hen => absurd (hoff.symm.trans hen) (by decide)

/-- One round leaves the other transport block. -/
theorem round_other (en : TbIdx → Bool) (r : DlData × DlHarqProc g) (hj : j ≠ i) :
    (x.round en noRetx i r).1.tb j = r.1.tb j ∧ (x.round en noRetx i r).2.tb j = r.2.tb j := by
  have hother := @transmit_other _ x r.2 i j (en i) noRetx hj
  unfold Format2aArgs.round
  dsimp only
  split
  · exact ⟨Function.update_of_ne hj _ _, hother⟩
  · exact ⟨Function.update_of_ne hj _ _, hother⟩

/-- A round that sends nothing leaves the process. -/
theorem round_of_not_sends (en : TbIdx → Bool) (r : DlData × DlHarqProc g)
    (hs : ¬ Sends x (en i) noRetx r.2 i) : (x.round en noRetx i r).2 = r.2 := by
  have hkept := (transmit_of_not_sends hs).1
  unfold Format2aArgs.round
  dsimp only
  split
  · exact hkept
  · exact hkept

/-- What is sent depends on the transport block only. -/
theorem sends_congr {h' : DlHarqProc g} (htb : h'.tb i = h.tb i) :
    (Sends x en noRetx h' i ↔ Sends x en noRetx h i) ∧ sentBytes x h' i = sentBytes x h i := by
  unfold Sends sentBytes HarqProc.isEmptyTb
  rw [htb]
  exact ⟨Iff.rfl, rfl⟩

theorem dciTb_congr {h' : DlHarqProc g} (htb : h'.tb i = h.tb i) (mcs : Int) :
    dciTb h' mcs i = dciTb h mcs i := by
  unfold dciTb
  rw [htb]

/-- The call decides about each transport block on its own. -/
theorem generateFormat2a_spec (x : Format2aArgs g) (data : DlData) (h : DlHarqProc g) :
    (∀ i, Outcome x (x.tbEn h).1 (x.tbEn h).2 h (x.generateFormat2a data h).2 i) ∧
      ((∀ i, ¬ Sends x ((x.tbEn h).1 i) (x.tbEn h).2 h i) →
        (x.generateFormat2a data h).2.2 = h) := by
  generalize hen : (x.tbEn h).1 = en
  generalize hno : (x.tbEn h).2 = noRetx
  have hcall : (x.generateFormat2a data h).2 =
      x.round en noRetx 1 (x.round en noRetx 0 (data, h)) := by
    rw [← hen, ← hno]
    rfl
  rw [hcall]
  have h₀ : Outcome x en noRetx h (x.round en noRetx 0 (data, h)) 0 := outcome_round en (data, h)
  have hother : (x.round en noRetx 0 (data, h)).2.tb 1 = h.tb 1 :=
    (round_other en (data, h) (by decide)).2
  generalize hr : x.round en noRetx 0 (data, h) = r at h₀ hother ⊢
  have h₁ : Outcome x en noRetx r.2 (x.round en noRetx 1 r) 1 := outcome_round en r
  have hfirst := @round_other _ x 1 0 noRetx en r (by decide)
  obtain ⟨hsends, hbytes⟩ := @sends_congr _ x h 1 (en 1) noRetx r.2 hother
  refine ⟨fun i => ?_, fun hnone => ?_⟩
  · match i with
    | 0 =>
      refine ⟨fun hs => ⟨hfirst.2 ▸ (h₀.sent hs).1, ?_⟩, fun hs => hfirst.2.trans (h₀.kept hs),
        ?_, ?_⟩
      · by_cases hs' : Sends x (en 1) noRetx r.2 1
        · exact (h₁.sent hs').2
        · rw [round_of_not_sends en r hs']
          exact (h₀.sent hs).2
      · rw [hfirst.1]
        exact h₀.isEn_iff
      · rw [hfirst.1, hfirst.2, dciTb_congr hfirst.2]
        exact h₀.fields
    | 1 =>
      refine ⟨fun hs => ?_, fun hs => ?_, ?_, h₁.fields⟩
      · exact hother ▸ h₁.sent (hsends.mpr hs)
      · exact (h₁.kept fun hs' => hs (hsends.mp hs')).trans hother
      · exact h₁.isEn_iff.trans (by rw [hsends, hbytes])
  · rw [round_of_not_sends en r fun hs => hnone 1 (hsends.mp hs), ← hr]
    exact round_of_not_sends en (data, h) (hnone 0)

/-! ### Which transport blocks are enabled -/

/-- A transport block that is sent is enabled, unless one layer is left and both are pending. -/
theorem sends_tbEn (x : Format2aArgs g) (h : DlHarqProc g) (i : TbIdx) :
    (Sends x ((x.tbEn h).1 i) (x.tbEn h).2 h i ↔ h.isEmptyTb i = false ∨ MakesPdu x h i) ∧
      (Sends x ((x.tbEn h).1 i) (x.tbEn h).2 h i → ((x.tbEn h).1 i = true ↔
        ¬ (x.dlRi = 0 ∧ i = 0 ∧ h.isEmptyTb 0 = false ∧ h.isEmptyTb 1 = false))) := by
  have hi : i = 0 ∨ i = 1 := by
    revert i
    decide
  unfold Sends MakesPdu tbEn HarqProc.isEmpty
  cases h₀ : h.isEmptyTb 0 <;> cases h₁ : h.isEmptyTb 1 <;> by_cases hri : x.dlRi = 0 <;>
    rcases hi with rfl | rfl <;> simp [hri, h₀, h₁]

/-! ### Agreement -/

/-- The DCI and the HARQ process agree exactly when no layer is missing. -/
theorem agreesWithDci_iff (x : Format2aArgs g) (data : DlData) (h : DlHarqProc g) :
    AgreesWithDci x data h ↔ OneLayerFits x h := by
  obtain ⟨houtcome, hidle⟩ := generateFormat2a_spec x data h
  have hsends := sends_tbEn x h
  constructor
  · intro hagree
    have hsent : ∀ i, h.isEmptyTb i = false ∨ MakesPdu x h i →
        0 < sentBytes x h i ∧ (x.tbEn h).1 i = true := fun i hs =>
      have hs := (hsends i).1.mpr hs
      ((houtcome i).isEn_iff.mp ((hagree.enabled_iff i).mpr ((houtcome i).sent hs).1)).2
    refine ⟨fun hri => ?_, fun i hpending => ?_, fun i hmakes => ?_⟩
    · by_contra hboth
      have h₀ : h.isEmptyTb 0 = false := Bool.eq_false_iff.mpr fun hempty => hboth (.inl hempty)
      have h₁ : h.isEmptyTb 1 = false := Bool.eq_false_iff.mpr fun hempty => hboth (.inr hempty)
      have hlayer := (hsends 0).2 ((hsends 0).1.mpr (.inl h₀))
      exact hlayer.mp (hsent 0 (.inl h₀)).2 ⟨hri, rfl, h₀, h₁⟩
    · have hbytes := (hsent i (.inl hpending)).1
      rwa [sentBytes, hpending] at hbytes
    · have hempty : h.isEmptyTb i = true := by
        obtain ⟨h₀, h₁⟩ := Bool.and_eq_true_iff.mp hmakes.1
        match i with
        | 0 => exact h₀
        | 1 => exact h₁
      have hbytes := (hsent i (.inr hmakes)).1
      rwa [sentBytes, hempty] at hbytes
  · intro hfits
    -- What is sent has a layer and bytes.
    have henabled : ∀ i, Sends x ((x.tbEn h).1 i) (x.tbEn h).2 h i →
        0 < sentBytes x h i ∧ (x.tbEn h).1 i = true := by
      intro i hs
      refine ⟨?_, ((hsends i).2 hs).mpr ?_⟩
      · unfold sentBytes
        rcases hempty : h.isEmptyTb i with _ | _
        · exact hfits.pending i hempty
        · exact hfits.fresh i (((hsends i).1.mp hs).resolve_left (by rw [hempty]; decide))
      · rintro ⟨hri, -, h₀, h₁⟩
        rcases hfits.layers hri with hempty | hempty
        · exact absurd (h₀.symm.trans hempty) (by decide)
        · exact absurd (h₁.symm.trans hempty) (by decide)
    have hiff : ∀ i, ((x.generateFormat2a data h).2.1.tb i).isEn = true ↔
        Sends x ((x.tbEn h).1 i) (x.tbEn h).2 h i := fun i =>
      (houtcome i).isEn_iff.trans ⟨fun hall => hall.1, fun hs => ⟨hs, henabled i hs⟩⟩
    refine ⟨fun i => (hiff i).trans ⟨fun hs => ((houtcome i).sent hs).1, fun hne => ?_⟩,
      fun i => ?_, fun hoff => hidle fun i hs => ?_⟩
    · by_contra hs
      exact hne ((houtcome i).kept hs)
    · dsimp only
      intro hen
      obtain ⟨-, hmcs, hndi, hrv⟩ := dciTb_spec (x.generateFormat2a data h).2.2
        ((x.generateFormat2a data h).2.2.tb i).lastMcs i
      rw [← (houtcome i).fields hen] at hmcs hndi hrv
      exact ⟨hmcs, hndi, hrv, ((houtcome i).sent ((hiff i).mp hen)).2⟩
    · exact absurd ((hiff i).mpr hs) (by rw [hoff i]; decide)

/-- Both transport blocks are pending, with one layer. -/
theorem not_agreesWithDci_rankDrop : ¬ AgreesWithDci (g := 1)
    { dlRi := 0, userMask := .empty 1, ttiTxDl := .ofNat 8, ncce := 0, maxharqTx := 5
      newPdu := fun _ => ⟨.unset, 0⟩ }
    ⟨fun _ => ⟨0, 0, false, 0⟩, fun _ => 0⟩
    { tb := fun _ => { active := true, lastMcs := 10, lastTbs := 100, txCnt := 1 } } := by
  intro hagree
  have hchanged := (hagree.enabled_iff 0).mpr (by
    intro heq
    have hcount := congrArg HarqTb.nRtx heq
    exact absurd hcount (by decide))
  exact absurd hchanged (by decide)

end Odss.Mac
