import Odss.Lib.Run
import Odss.Rlc.AmTx

/-!
# `Odss.Proofs.AmTxWindow`: the transmit window of RLC AM

`WindowInv` says that the span of outstanding sequence numbers is at most the window size,
and that the PDUs in `tx_window` lie inside it. Every call but one keeps it:
`build_data_pdu` compares the number of stored PDUs with the window size, and not `vt_s`
with `vt_ms`.

* `SameWindow` is the frame of the calls that leave the window alone.
* `windowInv_handleControlPdu` follows `vt_a` through the acknowledgements.
* `windowInv_readPdu` needs `vt_s ≠ vt_ms` when a data PDU is added, and then the slot of the
  new PDU is free.
-/

set_option linter.all false

namespace Odss.Rlc.AmTx

open Odss.Lib

/-! ### Frames -/

/-- The two states have the same window variables, and PDUs at the same SNs. -/
structure SameWindow (s s' : AmTx) : Prop where
  vtA : s'.vtA = s.vtA
  vtMs : s'.vtMs = s.vtMs
  vtS : s'.vtS = s.vtS
  contains : ∀ k, s'.txWindow.contains k = s.txWindow.contains k

theorem SameWindow.refl (s : AmTx) : SameWindow s s := ⟨rfl, rfl, rfl, fun _ => rfl⟩

theorem SameWindow.trans {s s' s'' : AmTx} (h : SameWindow s s') (h' : SameWindow s' s'') :
    SameWindow s s'' :=
  ⟨h'.vtA.trans h.vtA, h'.vtMs.trans h.vtMs, h'.vtS.trans h.vtS,
    fun k => (h'.contains k).trans (h.contains k)⟩

theorem sameWindow_checkSnReachedMaxRetx (s : AmTx) (sn : Nat) :
    SameWindow s (s.checkSnReachedMaxRetx sn) := by
  unfold checkSnReachedMaxRetx
  split
  · exact .refl s
  · split
    · exact ⟨rfl, rfl, rfl, fun _ => rfl⟩
    · exact .refl s

theorem sameWindow_countRetx (s : AmTx) (sn : Nat) : SameWindow s (s.countRetx sn) := by
  refine SameWindow.trans ?_ (sameWindow_checkSnReachedMaxRetx _ sn)
  exact ⟨rfl, rfl, rfl, fun k => by simp⟩

theorem sameWindow_retransmitPdu (s : AmTx) (sn : Nat) :
    SameWindow s (s.retransmitPdu sn) := by
  unfold retransmitPdu
  split
  · exact .refl s
  · have h := sameWindow_countRetx s sn
    exact ⟨h.vtA, h.vtMs, h.vtS, h.contains⟩

theorem sameWindow_handleNack (s : AmTx) (i : Nat) (nack : StatusNack) :
    SameWindow s (s.handleNack i nack) := by
  unfold handleNack
  split
  · exact .refl s
  · split
    · exact .refl s
    · have h := sameWindow_countRetx s i
      exact ⟨h.vtA, h.vtMs, h.vtS, h.contains⟩

/-- The decision on the poll bit changes the two counters and the timer. -/
theorem afterPoll_eq (s : AmTx) (n : Nat) : ∃ pdus bytes timer, s.afterPoll n = { s with
    pduWithoutPoll := pdus, byteWithoutPoll := bytes, pollRetxTimer := timer } := by
  unfold afterPoll
  split
  · exact ⟨_, _, _, rfl⟩
  · exact ⟨_, _, s.pollRetxTimer, rfl⟩

theorem retxQueue_afterPoll (s : AmTx) (n : Nat) : (s.afterPoll n).retxQueue = s.retxQueue := by
  obtain ⟨pdus, bytes, timer, heq⟩ := afterPoll_eq s n
  rw [heq]

theorem sameWindow_afterPoll (s : AmTx) (n : Nat) : SameWindow s (s.afterPoll n) := by
  obtain ⟨pdus, bytes, timer, h⟩ := afterPoll_eq s n
  rw [h]
  exact ⟨rfl, rfl, rfl, fun _ => rfl⟩

theorem sameWindow_buildSegment (s : AmTx) (nofBytes : Nat) (retx : AmdRetx) (pdu : AmdTxPdu) :
    SameWindow s (s.buildSegment nofBytes retx pdu).1 := by
  have h := sameWindow_afterPoll s (pdu.buf.length + 2)
  unfold buildSegment
  split
  · exact h
  · exact ⟨h.vtA, h.vtMs, h.vtS, h.contains⟩

theorem sameWindow_dropStaleRetx (fuel : Nat) (s : AmTx) :
    SameWindow s (dropStaleRetx fuel s).1 := by
  induction fuel generalizing s with
  | zero => exact .refl s
  | succ fuel ih =>
    unfold dropStaleRetx
    split
    · exact .refl s
    · rename_i retx queue _
      have hpop : SameWindow s { s with retxQueue := queue } := ⟨rfl, rfl, rfl, fun _ => rfl⟩
      split
      · exact .refl s
      · simp only
        split
        · exact hpop.trans (ih _)
        · split
          · exact hpop.trans ((sameWindow_retransmitPdu _ _).trans (ih _))
          · exact hpop

theorem sameWindow_buildRetxPdu (s : AmTx) (nofBytes : Nat) :
    SameWindow s (s.buildRetxPdu nofBytes).1 := by
  unfold buildRetxPdu
  have hdrop := sameWindow_dropStaleRetx (s.retxQueue.length + 1) s
  generalize hr : dropStaleRetx (s.retxQueue.length + 1) s = r at hdrop
  obtain ⟨t, retx⟩ := r
  cases retx with
  | none => exact hdrop
  | some retx =>
    simp only
    split
    · exact hdrop
    · rename_i pdu _
      split
      · exact ⟨hdrop.vtA, hdrop.vtMs, hdrop.vtS, hdrop.contains⟩
      · split
        · exact hdrop.trans (sameWindow_buildSegment t nofBytes retx pdu)
        · have h := hdrop.trans (sameWindow_afterPoll t
            (pdu.buf.length + pdu.header.packedLength))
          exact ⟨h.vtA, h.vtMs, h.vtS, h.contains⟩

theorem sameWindow_readRetxPdu (s : AmTx) (nofBytes : Nat) :
    SameWindow s (s.readRetxPdu nofBytes).1 := by
  have h : SameWindow s s.retransmitIfFull := by
    unfold retransmitIfFull
    split
    · exact sameWindow_retransmitPdu s s.vtA
    · exact .refl s
  unfold readRetxPdu
  split
  · exact h
  · exact h.trans (sameWindow_buildRetxPdu _ nofBytes)

theorem sameWindow_ackSegment (s : AmTx) (id : Nat) : SameWindow s (s.ackSegment id) := by
  unfold ackSegment
  split
  · exact .refl s
  · unfold ackSdu
    split <;> exact ⟨rfl, rfl, rfl, fun _ => rfl⟩

theorem sameWindow_updateNotificationAckInfo (s : AmTx) (rlcSn : Nat) :
    SameWindow s (s.updateNotificationAckInfo rlcSn) := by
  have hfold : ∀ (ids : List Nat) (t : AmTx), SameWindow t (ids.foldl ackSegment t) := by
    intro ids
    induction ids with
    | nil => exact .refl
    | cons id ids ih => exact fun t => (sameWindow_ackSegment t id).trans (ih _)
  unfold updateNotificationAckInfo
  split
  · exact .refl s
  · exact hfold _ s

/-! ### New data -/

/-- The state at the end of a round. -/
def PullResult.build : PullResult → DataBuild
  | .again b => b
  | .done b => b
  | .noSegments b => b

/-- The two builds are for the same PDU, in the same window. -/
structure SameBuild (b b' : DataBuild) : Prop where
  tx : SameWindow b.tx b'.tx
  rlcSn : b'.pdu.rlcSn = b.pdu.rlcSn

theorem SameBuild.refl (b : DataBuild) : SameBuild b b := ⟨.refl _, rfl⟩

theorem SameBuild.trans {b b' b'' : DataBuild} (h : SameBuild b b') (h' : SameBuild b' b'') :
    SameBuild b b'' :=
  ⟨h.tx.trans h'.tx, h'.rlcSn.trans h.rlcSn⟩

/-- A round works on the SDU queue and the segments only. -/
theorem sameBuild_pullRound (b : DataBuild) : SameBuild b (pullRound b).build := by
  unfold pullRound
  split
  · split
    · unfold pullNext
      split
      · exact ⟨⟨rfl, rfl, rfl, fun _ => rfl⟩, rfl⟩
      · split <;> exact ⟨⟨rfl, rfl, rfl, fun _ => rfl⟩, rfl⟩
    · split <;> exact .refl b
  · exact .refl b

theorem sameBuild_pullSdus (fuel : Nat) (b : DataBuild) :
    SameBuild b (pullSdus fuel b).build := by
  induction fuel generalizing b with
  | zero => exact .refl b
  | succ fuel ih =>
    have hround := sameBuild_pullRound b
    unfold pullSdus
    split
    · rename_i b' hb
      rw [hb] at hround
      exact hround.trans (ih b')
    · exact hround

theorem startDataPdu_rlcSn (s : AmTx) (nofBytes : Nat) :
    (s.startDataPdu nofBytes).pdu.rlcSn = s.vtS := by
  unfold startDataPdu
  split <;> rfl

theorem sameWindow_startDataPdu (s : AmTx) (nofBytes : Nat) :
    SameWindow (s.addPdu (newTxPdu s.vtS)) (s.startDataPdu nofBytes).tx := by
  unfold startDataPdu
  split <;> exact ⟨rfl, rfl, rfl, fun _ => rfl⟩

/-- What `build_data_pdu` does to the window: nothing, or the PDU `vt_s` is added and `vt_s`
moves on, or the PDU is added and taken out again. -/
theorem buildDataPdu_cases (s : AmTx) (nofBytes : Nat) :
    let s' := (s.buildDataPdu nofBytes).1
    (s.addsDataPdu nofBytes = false ∧ s' = s) ∨
    (s.addsDataPdu nofBytes = true ∧ s'.vtA = s.vtA ∧ s'.vtMs = s.vtMs ∧
      s'.vtS = (s.vtS + 1) % amMod ∧
      ∀ k, s'.txWindow.contains k = (s.addPdu (newTxPdu s.vtS)).txWindow.contains k) ∨
    (s.addsDataPdu nofBytes = true ∧ s'.vtA = s.vtA ∧ s'.vtMs = s.vtMs ∧ s'.vtS = s.vtS ∧
      ∀ k, s'.txWindow.contains k = true →
        k ≠ s.vtS ∧ (s.addPdu (newTxPdu s.vtS)).txWindow.contains k = true) := by
  simp only
  unfold buildDataPdu
  cases hadds : s.addsDataPdu nofBytes with
  | false => exact Or.inl ⟨rfl, rfl⟩
  | true =>
    have hpull := sameBuild_pullSdus s.txSduQueue.queue.length (s.startDataPdu nofBytes)
    have hwin := (sameWindow_startDataPdu s nofBytes).trans hpull.tx
    have hsn := hpull.rlcSn.trans (startDataPdu_rlcSn s nofBytes)
    -- The PDU is finished after the loop, or abandoned.
    have hfinish : ∀ b, SameWindow (s.addPdu (newTxPdu s.vtS)) b.tx →
        (finishDataPdu s.txSdu.isSome b).1.vtA = s.vtA ∧
        (finishDataPdu s.txSdu.isSome b).1.vtMs = s.vtMs ∧
        (finishDataPdu s.txSdu.isSome b).1.vtS = (s.vtS + 1) % amMod ∧
        ∀ k, (finishDataPdu s.txSdu.isSome b).1.txWindow.contains k =
          (s.addPdu (newTxPdu s.vtS)).txWindow.contains k := by
      intro b hb
      have hpoll := sameWindow_afterPoll b.tx (b.pdu.buf.length + b.headLen)
      refine ⟨hpoll.vtA.trans hb.vtA, hpoll.vtMs.trans hb.vtMs, ?_, fun k => ?_⟩
      · show (b.tx.vtS + 1) % amMod = _
        rw [hb.vtS]
        rfl
      · show (b.tx.txWindow.modify _ _).contains k = _
        rw [CircularMap.contains_modify, hb.contains]
    simp only [if_true]
    generalize pullSdus s.txSduQueue.queue.length (s.startDataPdu nofBytes) = r at hwin hsn
    cases r with
    | again b => exact Or.inr (Or.inl ⟨trivial, hfinish b hwin⟩)
    | done b => exact Or.inr (Or.inl ⟨trivial, hfinish b hwin⟩)
    | noSegments b =>
      have hsn : b.pdu.rlcSn = s.vtS := hsn
      refine Or.inr (Or.inr ⟨trivial, hwin.vtA, hwin.vtMs, hwin.vtS, fun k hk => ?_⟩)
      have hk' := (CircularMap.contains_erase b.tx.txWindow b.pdu.rlcSn k).mp hk
      exact ⟨hsn ▸ hk'.1, (hwin.contains k) ▸ hk'.2⟩

/-! ### The invariant -/

/-- The span of outstanding sequence numbers. -/
def span (s : AmTx) : Nat := s.txModBase s.vtS

/-- The span is at most the window size, and the PDUs in the window are outstanding. -/
structure WindowInv (s : AmTx) : Prop where
  vtA : s.vtA < amMod
  vtS : s.vtS < amMod
  vtMs : s.vtMs = (s.vtA + amWindowSize) % amMod
  span : s.span ≤ amWindowSize
  inside : ∀ k, s.txWindow.contains k = true → k < amMod ∧ s.txModBase k < s.span

theorem windowInv_init (cfg : AmConfig) : WindowInv (init cfg) where
  vtA := by simp [init]
  vtS := by simp [init]
  vtMs := by simp [init, amMod, amWindowSize]
  span := by simp [init, AmTx.span, txModBase]
  inside := fun k hk => by simp [init] at hk

/-- The invariant depends on the window variables, and is closed under the removal of
PDUs. -/
theorem WindowInv.of_subset {s s' : AmTx} (h : WindowInv s) (hA : s'.vtA = s.vtA)
    (hMs : s'.vtMs = s.vtMs) (hS : s'.vtS = s.vtS)
    (hk : ∀ k, s'.txWindow.contains k = true → s.txWindow.contains k = true) : WindowInv s' := by
  have hbase : ∀ x, s'.txModBase x = s.txModBase x := fun x => by
    rw [txModBase, txModBase, hA]
  have hspan : s'.span = s.span := by rw [AmTx.span, AmTx.span, hbase, hS]
  constructor
  · rw [hA]
    exact h.vtA
  · rw [hS]
    exact h.vtS
  · rw [hMs, hA]
    exact h.vtMs
  · rw [hspan]
    exact h.span
  · intro k hin
    rw [hbase, hspan]
    exact h.inside k (hk k hin)

theorem WindowInv.of_same {s s' : AmTx} (h : WindowInv s) (hs : SameWindow s s') :
    WindowInv s' :=
  h.of_subset hs.vtA hs.vtMs hs.vtS fun k hk => hs.contains k ▸ hk

theorem WindowInv.slot_free {s : AmTx} (h : WindowInv s) (hms : s.vtS ≠ s.vtMs) :
    s.txWindow.slot? s.vtS = none := by
  rw [CircularMap.slot?_eq_none_iff]
  intro k hk hres
  obtain ⟨hk1024, hkin⟩ := h.inside k hk
  have hA := h.vtA
  have hS := h.vtS
  have hMs := h.vtMs
  have hspan := h.span
  simp only [AmTx.span, txModBase, amMod, amWindowSize] at *
  omega

theorem windowInv_buildDataPdu {s : AmTx} (h : WindowInv s) (nofBytes : Nat)
    (hms : s.addsDataPdu nofBytes = true → s.vtS ≠ s.vtMs) :
    WindowInv (s.buildDataPdu nofBytes).1 := by
  have hadd : ∀ k, (s.addPdu (newTxPdu s.vtS)).txWindow.contains k = true →
      k = s.vtS ∨ s.txWindow.contains k = true := by
    intro k hk
    rcases (CircularMap.contains_overwrite s.txWindow s.vtS k _).mp hk with rfl | ⟨-, hk⟩
    · exact Or.inl rfl
    · exact Or.inr hk
  rcases buildDataPdu_cases s nofBytes with ⟨-, heq⟩ | ⟨hadds, hA, hMs, hS, hk⟩ |
    ⟨hadds, hA, hMs, hS, hk⟩
  · rw [heq]
    exact h
  · have hne := hms hadds
    have h1 := h.vtA
    have h2 := h.vtS
    have h3 := h.vtMs
    have h4 := h.span
    constructor
    · rw [hA]
      exact h1
    · rw [hS]
      exact Nat.mod_lt _ (by decide)
    · rw [hMs, hA]
      exact h3
    · simp only [AmTx.span, txModBase, amMod, amWindowSize, hA, hS] at *
      omega
    · intro k hkin
      rw [hk] at hkin
      rcases hadd k hkin with rfl | hold
      · simp only [AmTx.span, txModBase, amMod, amWindowSize, hA, hS] at *
        omega
      · have h5 := h.inside k hold
        simp only [AmTx.span, txModBase, amMod, amWindowSize, hA, hS] at *
        omega
  · refine h.of_subset hA hMs hS fun k hkin => ?_
    obtain ⟨hne, hkin⟩ := hk k hkin
    exact (hadd k hkin).resolve_left hne

/-! ### Acknowledgements -/

theorem sameWindow_handleNacks (s : AmTx) (i : Nat) (nacks : List StatusNack) :
    SameWindow s (s.handleNacks i nacks) := by
  unfold handleNacks
  induction nacks generalizing s with
  | nil => exact .refl s
  | cons nack nacks ih =>
    rw [List.foldl_cons]
    split
    · exact (sameWindow_handleNack s i nack).trans (ih _)
    · exact ih s

/-- An acknowledged PDU leaves the window, and no other PDU does. -/
theorem ackPdu_window (s : AmTx) (i : Nat) :
    (s.ackPdu i).vtA = s.vtA ∧ (s.ackPdu i).vtMs = s.vtMs ∧ (s.ackPdu i).vtS = s.vtS ∧
      ∀ k, (s.ackPdu i).txWindow.contains k = true ↔ k ≠ i ∧ s.txWindow.contains k = true := by
  have h := sameWindow_updateNotificationAckInfo s i
  unfold ackPdu
  split
  · rename_i hin
    rw [← h.contains, CircularMap.contains_iff] at hin
    obtain ⟨pdu, hpdu⟩ := hin
    simp only [removePdu, hpdu]
    refine ⟨h.vtA, h.vtMs, h.vtS, fun k => ?_⟩
    rw [CircularMap.contains_erase, h.contains]
  · rename_i hout
    refine ⟨rfl, rfl, rfl, fun k => ⟨fun hk => ⟨?_, hk⟩, fun hk => hk.2⟩⟩
    rintro rfl
    exact hout hk

theorem windowInv_ackPdu {s : AmTx} (h : WindowInv s) (i : Nat) : WindowInv (s.ackPdu i) := by
  obtain ⟨hA, hMs, hS, hk⟩ := ackPdu_window s i
  exact h.of_subset hA hMs hS fun k hin => ((hk k).mp hin).2

/-- The lower edge moves past an acknowledged PDU, when some PDU is outstanding. -/
theorem windowInv_advanceVtA {s : AmTx} (h : WindowInv s) (hspan : 0 < s.span)
    (hout : s.txWindow.contains s.vtA = false) : WindowInv s.advanceVtA := by
  have h1 := h.vtA
  have h2 := h.vtS
  have h3 := h.vtMs
  have h4 := h.span
  constructor
  · exact Nat.mod_lt _ (by decide)
  · exact h2
  · simp only [advanceVtA, amMod, amWindowSize] at *
    omega
  · simp only [advanceVtA, AmTx.span, txModBase, amMod, amWindowSize] at *
    omega
  · intro k hk
    have hne : k ≠ s.vtA := by
      rintro rfl
      rw [show s.advanceVtA.txWindow = s.txWindow from rfl, hout] at hk
      cases hk
    have h5 := h.inside k hk
    simp only [advanceVtA, AmTx.span, txModBase, amMod, amWindowSize] at *
    omega

/-- The loop keeps the invariant. As long as no NACK was met, `i` is at the lower edge. -/
theorem windowInv_ackLoop (status : StatusPdu) (fuel : Nat) :
    ∀ (s : AmTx) (i : Nat) (updateVtA : Bool), WindowInv s →
      (updateVtA = true → i = s.vtA) → WindowInv (ackLoop status s.vtS fuel s i updateVtA) := by
  induction fuel with
  | zero => intro s i updateVtA h _; exact h
  | succ fuel ih =>
    intro s i updateVtA h hi
    unfold ackLoop
    split
    · rename_i hlt
      split
      · have hsame := sameWindow_handleNacks s i status.nacks
        have hrest := ih _ ((i + 1) % amMod) false (h.of_same hsame) nofun
        rwa [hsame.vtS] at hrest
      · obtain ⟨hA, -, hS, hk⟩ := ackPdu_window s i
        cases updateVtA with
        | false =>
          have hrest := ih _ ((i + 1) % amMod) false (windowInv_ackPdu h i) nofun
          rwa [hS] at hrest
        | true =>
          obtain rfl := hi rfl
          have hpos : 0 < (s.ackPdu s.vtA).span := by
            rw [AmTx.span, txModBase, hA, hS]
            exact Nat.lt_of_le_of_lt (Nat.zero_le _) hlt.2
          have hout : (s.ackPdu s.vtA).txWindow.contains (s.ackPdu s.vtA).vtA = false := by
            rw [hA, ← Bool.not_eq_true, hk]
            exact fun hin => hin.1 rfl
          have hadv := windowInv_advanceVtA (windowInv_ackPdu h s.vtA) hpos hout
          have hrest := ih _ ((s.vtA + 1) % amMod) true hadv
            fun _ => by simp only [advanceVtA, hA]
          rwa [show ((s.ackPdu s.vtA).advanceVtA).vtS = s.vtS from hS] at hrest
    · exact h

theorem windowInv_handleControlPdu {s : AmTx} (h : WindowInv s) (status : StatusPdu) :
    WindowInv (s.handleControlPdu status) := by
  unfold handleControlPdu
  split
  · have hstart : WindowInv (s.startStatus status) := h.of_same ⟨rfl, rfl, rfl, fun _ => rfl⟩
    have hloop := windowInv_ackLoop status amMod _ s.vtA true hstart fun _ => rfl
    exact hloop.of_same ⟨rfl, rfl, rfl, fun _ => rfl⟩
  · exact h

/-! ### Runs -/

/-- A call under the condition: `read_pdu` adds a data PDU only while `vt_s` is not at the
upper edge of the window. -/
def SendsBelowVtMs (s : AmTx) : Op → Prop
  | .readPdu nofBytes rx => s.addsInReadPdu nofBytes rx = true → s.vtS ≠ s.vtMs
  | _ => True

theorem windowInv_readPdu {s : AmTx} (h : WindowInv s) {nofBytes : Nat} {rx : RxStatus}
    (hbelow : SendsBelowVtMs s (.readPdu nofBytes rx)) :
    WindowInv (s.readPdu nofBytes rx).1 := by
  have hretx := sameWindow_readRetxPdu s nofBytes
  unfold readPdu
  split
  · exact h
  · rename_i henabled
    split
    · unfold buildStatusPdu
      split
      · exact h
      · split
        · exact h.of_same ⟨rfl, rfl, rfl, fun _ => rfl⟩
        · exact h
    · rename_i hstatus
      split
      · rename_i hempty
        apply windowInv_buildDataPdu (h.of_same hretx)
        intro hadds
        rw [hretx.vtS, hretx.vtMs]
        apply hbelow
        have henabled : s.txEnabled = true := by simpa using henabled
        have hstatus : s.sendsStatus rx = false := by simpa using hstatus
        simp only [addsInReadPdu, henabled, hstatus, hempty, hadds, Bool.not_false, Bool.and_true]
      · exact h.of_same hretx

theorem windowInv_stop (s : AmTx) : WindowInv s.stop where
  vtA := by simp [stop, clearWindow, resetVariables]
  vtS := by simp [stop, clearWindow, resetVariables]
  vtMs := by simp [stop, clearWindow, resetVariables, amMod, amWindowSize]
  span := by simp [stop, clearWindow, resetVariables, AmTx.span, txModBase]
  inside := fun k hk => by simp [stop, clearWindow] at hk

/-- A call under the condition keeps the invariant. -/
theorem windowInv_step {s : AmTx} {op : Op} (h : WindowInv s) (hop : SendsBelowVtMs s op) :
    WindowInv (s.step op).1 := by
  cases op with
  | writeSdu sdu =>
    simp only [step, writeSdu]
    split
    · exact h
    · split
      · exact h
      · exact h.of_same ⟨rfl, rfl, rfl, fun _ => rfl⟩
  | readPdu nofBytes rx => exact windowInv_readPdu h hop
  | handleControlPdu status => exact windowInv_handleControlPdu h status
  | pollRetxExpired =>
    simp only [step, pollRetxExpired]
    split
    · exact h
    · split
      · refine WindowInv.of_same ?_ (sameWindow_retransmitPdu _ _)
        exact h.of_same ⟨rfl, rfl, rfl, fun _ => rfl⟩
      · exact h.of_same ⟨rfl, rfl, rfl, fun _ => rfl⟩
  | statusProhibitExpired =>
    simp only [step, statusProhibitExpired]
    split
    · exact h
    · exact h.of_same ⟨rfl, rfl, rfl, fun _ => rfl⟩
  | discardSdu discardSn =>
    simp only [step, discardSdu]
    split
    · exact h
    · exact h.of_same ⟨rfl, rfl, rfl, fun _ => rfl⟩
  | emptyQueue => exact h.of_same ⟨rfl, rfl, rfl, fun _ => rfl⟩
  | stop => exact windowInv_stop s
  | reestablish => exact (windowInv_stop s).of_same ⟨rfl, rfl, rfl, fun _ => rfl⟩

/-- The state after a list of calls. -/
def execOps (s : AmTx) (ops : List Op) : AmTx := exec (fun s op => (s.step op).1) s ops

/-- The transmit window is safe over the run of `ops` from the start.

- `span`: the span of outstanding SNs never exceeds the window size;
- `slotFree`: whenever `read_pdu` adds a data PDU, the slot of its SN is free, so no PDU is
  overwritten before it was acknowledged. -/
structure WindowSafe (cfg : AmConfig) (ops : List Op) : Prop where
  span : ∀ pre post, ops = pre ++ post → ((init cfg).execOps pre).span ≤ amWindowSize
  slotFree : ∀ pre nofBytes rx post, ops = pre ++ .readPdu nofBytes rx :: post →
    ((init cfg).execOps pre).addsInReadPdu nofBytes rx = true →
    (((init cfg).execOps pre).readRetxPdu nofBytes).1.txWindow.slot?
      ((init cfg).execOps pre).vtS = none

/-- In every run where `read_pdu` adds data PDUs below `vt_ms` only, the window is safe. -/
theorem windowSafe_of_within (cfg : AmConfig) (ops : List Op)
    (h : ExecWithin (fun s op => (s.step op).1) SendsBelowVtMs (init cfg) ops) :
    WindowSafe cfg ops where
  span := by
    rintro pre post rfl
    exact (exec_invariant_of_within WindowInv (fun _ _ hs hop => windowInv_step hs hop) pre _
      (windowInv_init cfg) (execWithin_append.mp h).1).span
  slotFree := by
    rintro pre nofBytes rx post rfl hadds
    obtain ⟨hpre, hread, -⟩ := execWithin_append.mp h
    have hinv : WindowInv ((init cfg).execOps pre) :=
      exec_invariant_of_within WindowInv (fun _ _ hs hop => windowInv_step hs hop) pre _
        (windowInv_init cfg) hpre
    have hretx := sameWindow_readRetxPdu ((init cfg).execOps pre) nofBytes
    have hfree := (hinv.of_same hretx).slot_free (by
      rw [hretx.vtS, hretx.vtMs]
      exact hread hadds)
    rwa [hretx.vtS] at hfree

/-- A receiver that requests no status PDU. -/
def noStatus : RxStatus := ⟨false, fun _ => none⟩

/-- One SDU that is sent in one PDU. -/
theorem windowSafe_single :
    WindowSafe ⟨-1, -1, 4, 0, 256⟩ [.writeSdu ⟨0, [1, 2, 3]⟩, .readPdu 5 noStatus] :=
  windowSafe_of_within _ _ ⟨trivial, fun _ => by decide, trivial⟩

/-! ### An SDU that outgrows the window -/

/-- A long SDU is in transmission, and nothing else is to be sent. The first PDU is too
large for a grant of the minimum size, and at least `n` more PDUs are to come. -/
structure LongSdu (n : Nat) (s : AmTx) : Prop where
  enabled : s.txEnabled = true
  queue : s.txSduQueue.queue = []
  retxQueue : s.retxQueue = []
  txSdu : ∃ sdu, s.txSdu = some sdu ∧ n < sdu.bytes.length
  segments : n < s.sduInfo.pool.freeList.length
  vtA : s.vtA = 0
  vtS : s.vtS + n = amWindowSize
  size : s.txWindow.size = s.vtS
  below : ∀ k, s.txWindow.contains k = true → k < s.vtS
  first : ∃ pdu, s.txWindow.find? 0 = some pdu ∧ pdu.rlcSn = 0 ∧ 1 < pdu.buf.length

theorem length_initFreeList (n : Nat) : (SegmentPool.initFreeList n).length = n := by
  induction n with
  | zero => rfl
  | succ n ih => rw [SegmentPool.initFreeList, List.length_cons, ih]

theorem length_freeList_addSegment (i : SduInfo) (rlcSn pdcpSn : Nat) (last : Bool) :
    i.pool.freeList.length ≤ (addSegment i rlcSn pdcpSn last).1.pool.freeList.length + 1 := by
  unfold addSegment
  split
  · have h : i.pool.freeList.length ≤ (i.makeSegment rlcSn pdcpSn).1.pool.freeList.length + 1 := by
      unfold SduInfo.makeSegment
      split
      · rename_i hnil
        simp [hnil]
      · rename_i hcons
        simp [hcons]
    simp only
    split
    · exact h
    · exact h
  · exact Nat.le_succ _

/-- A read of the minimum size sends one byte of the SDU in a new PDU. -/
theorem longSdu_readPdu {n : Nat} {s : AmTx} (h : LongSdu (n + 1) s) :
    LongSdu n (s.readPdu 3 noStatus).1 := by
  obtain ⟨sdu, hsdu, hlen⟩ := h.txSdu
  have hvtS := h.vtS
  have hsize : ¬ (s.txWindow.size ≥ amWindowSize ∧ s.retxQueue.isEmpty) := by
    rw [h.size]
    omega
  have hfull : s.retransmitIfFull = s := if_neg hsize
  have hretx : s.readRetxPdu 3 = (s, []) := by
    simp [readRetxPdu, hfull, h.retxQueue]
  have hpool : s.sduInfo.pool.hasSegments = true := by
    have := h.segments
    simp only [SegmentPool.hasSegments, Bool.not_eq_true', List.isEmpty_eq_false_iff]
    exact List.ne_nil_of_length_pos (by omega)
  have hadds : s.addsDataPdu 3 = true := by
    simp [addsDataPdu, hsdu, hpool]
  have hfree : s.txWindow.slot? s.vtS = none := by
    rw [CircularMap.slot?_eq_none_iff]
    intro k hk hres
    have := h.below k hk
    simp only [amWindowSize] at *
    omega
  -- One byte of the SDU moves into the new PDU, and the queue has no other SDU.
  let b : DataBuild :=
    { tx := s.addPdu (newTxPdu s.vtS)
      pdu := newTxPdu s.vtS
      li := []
      headLen := dataHeadLen 0
      lastLi := 0
      pduSpace := min 3 bufferTailroom }
  have hone : toMove b sdu = 1 := by
    show min (min 3 bufferTailroom - dataHeadLen 0) sdu.bytes.length = 1
    simp only [bufferTailroom, dataHeadLen]
    omega
  have hread : s.readPdu 3 noStatus = finishDataPdu true (moveTxSdu b sdu) := by
    simp [readPdu, h.enabled, sendsStatus, noStatus, hretx, buildDataPdu, hadds, h.queue, pullSdus,
      startDataPdu, hsdu, b]
  have hrest : restOf sdu 1 = some { sdu with bytes := sdu.bytes.drop 1 } := by
    rw [restOf, if_neg]
    simp only [List.isEmpty_iff, List.drop_eq_nil_iff]
    omega
  have hinfo : (s.addPdu (newTxPdu s.vtS)).sduInfo = s.sduInfo := by
    have hslot : s.txWindow.slot? (newTxPdu s.vtS).rlcSn = none := hfree
    unfold addPdu
    rw [hslot]
  have hsegments := length_freeList_addSegment s.sduInfo s.vtS sdu.pdcpSn
    (restOf sdu 1).isNone
  obtain ⟨pdus, bytes, timer, hpoll⟩ := afterPoll_eq (moveTxSdu b sdu).tx
    ((moveTxSdu b sdu).pdu.buf.length + (moveTxSdu b sdu).headLen)
  rw [hread, finishDataPdu, hpoll]
  have hwindow : (moveTxSdu b sdu).tx.txWindow = s.txWindow.overwrite s.vtS (newTxPdu s.vtS) := rfl
  constructor
  · exact h.enabled
  · exact h.queue
  · exact h.retxQueue
  · refine ⟨{ sdu with bytes := sdu.bytes.drop 1 }, ?_, ?_⟩
    · show restOf sdu (toMove b sdu) = _
      rw [hone, hrest]
    · rw [List.length_drop]
      omega
  · show n < (addSegment (s.addPdu (newTxPdu s.vtS)).sduInfo s.vtS sdu.pdcpSn
      (restOf sdu (toMove b sdu)).isNone).1.pool.freeList.length
    rw [hone, hinfo]
    have := h.segments
    omega
  · exact h.vtA
  · show (s.vtS + 1) % amMod + n = amWindowSize
    simp only [amMod, amWindowSize] at *
    omega
  · show ((moveTxSdu b sdu).tx.txWindow.modify _ _).size = (s.vtS + 1) % amMod
    rw [CircularMap.size_modify, hwindow, CircularMap.size_overwrite hfree, h.size]
    simp only [amMod, amWindowSize] at *
    omega
  · intro k hk
    have hk' : (s.txWindow.overwrite s.vtS (newTxPdu s.vtS)).contains k = true := by
      rw [← hwindow, ← CircularMap.contains_modify]
      exact hk
    show k < (s.vtS + 1) % amMod
    rcases (CircularMap.contains_overwrite _ _ _ _).mp hk' with rfl | ⟨-, hold⟩
    · simp only [amMod, amWindowSize] at *
      omega
    · have := h.below k hold
      simp only [amMod, amWindowSize] at *
      omega
  · obtain ⟨pdu, hpdu, hsn, hbuf⟩ := h.first
    refine ⟨pdu, ?_, hsn, hbuf⟩
    have hpos : 0 ≠ s.vtS := by
      intro h0
      have := h.below 0 (CircularMap.contains_iff.mpr ⟨pdu, hpdu⟩)
      omega
    show ((moveTxSdu b sdu).tx.txWindow.modify s.vtS _).find? 0 = some pdu
    rw [CircularMap.find?_modify, if_neg hpos, hwindow, CircularMap.find?_overwrite, if_neg hpos,
      if_neg, hpdu]
    simp only [amWindowSize] at *
    omega

/-- A grant of at most the minimum size is too small for a PDU of two bytes or more, and for
the header of a segment. -/
theorem buildRetxPdu_minSize {s : AmTx} {retx : AmdRetx} {pdu : AmdTxPdu} {nofBytes : Nat}
    (hsmall : nofBytes ≤ amMinDataPduSize) (hqueue : s.retxQueue = [retx]) (hseg : retx.isSegment = false)
    (hpdu : s.txWindow.find? retx.sn = some pdu) (hbuf : 1 < pdu.buf.length) :
    s.buildRetxPdu nofBytes = (s.afterPoll (pdu.buf.length + 2), []) := by
  have hin : s.txWindow.contains retx.sn = true := CircularMap.contains_iff.mpr ⟨pdu, hpdu⟩
  have hdrop : dropStaleRetx (s.retxQueue.length + 1) s = (s, some retx) := by
    simp [dropStaleRetx, hqueue, hin]
  have hthree : nofBytes ≤ 3 := hsmall
  have hsize : requiredBufferSize retx pdu > nofBytes := by
    simp only [requiredBufferSize, hseg, Bool.not_false, if_true, AmdHeader.packedLength]
    omega
  have hpos : ¬ requiredBufferSize retx pdu < 0 := by omega
  have hhead : nofBytes ≤ segmentMinHeadLen pdu.header := by
    unfold segmentMinHeadLen
    omega
  simp [buildRetxPdu, hdrop, hpdu, hpos, hsize, buildSegment, hhead]

/-- The count of retransmissions of a PDU keeps its contents. -/
theorem find?_countRetx {s : AmTx} {sn : Nat} {pdu : AmdTxPdu}
    (h : s.txWindow.find? sn = some pdu) :
    (s.countRetx sn).txWindow.find? sn = some { pdu with retxCount := pdu.retxCount + 1 } := by
  have hmod : (s.txWindow.modify sn fun pdu => { pdu with retxCount := pdu.retxCount + 1 }).find? sn
      = some { pdu with retxCount := pdu.retxCount + 1 } := by
    rw [CircularMap.find?_modify, if_pos rfl, h]
    rfl
  unfold countRetx checkSnReachedMaxRetx
  split
  · exact hmod
  · split
    · exact hmod
    · exact hmod

/-- The count of retransmissions concerns the window and the events only. -/
theorem countRetx_eq (s : AmTx) (sn : Nat) : ∃ window events,
    s.countRetx sn = { s with txWindow := window, events := events } := by
  unfold countRetx checkSnReachedMaxRetx
  split
  · exact ⟨_, s.events, rfl⟩
  · split
    · exact ⟨_, _, rfl⟩
    · exact ⟨_, s.events, rfl⟩

theorem size_countRetx (s : AmTx) (sn : Nat) : (s.countRetx sn).txWindow.size = s.txWindow.size := by
  have hmod : (s.txWindow.modify sn fun pdu => { pdu with retxCount := pdu.retxCount + 1 }).size =
      s.txWindow.size := CircularMap.size_modify _ _ _
  unfold countRetx checkSnReachedMaxRetx
  split
  · exact hmod
  · split
    · exact hmod
    · exact hmod

/-- After the last of these reads, the window is full, and the next read puts the first PDU into
the queue. Its retransmission does not fit a small grant. -/
theorem longSdu_readRetxPdu {s : AmTx} (h : LongSdu 0 s) {nofBytes : Nat}
    (hsmall : nofBytes ≤ amMinDataPduSize) : ∃ pdu window events, pdu.rlcSn = 0 ∧
      window.find? 0 = some pdu ∧ window.size = s.txWindow.size ∧
      s.retransmitPdu 0 = { s with
        txWindow := window, events := events, retxQueue := [⟨0, false, 0, pdu.buf.length⟩] } ∧
      s.readRetxPdu nofBytes = ((s.retransmitPdu 0).afterPoll (pdu.buf.length + 2), []) := by
  obtain ⟨pdu, hpdu, hsn, hbuf⟩ := h.first
  obtain ⟨window, events, hcount⟩ := countRetx_eq s 0
  have hretx : s.retransmitPdu 0 = { s with
      txWindow := window, events := events, retxQueue := [⟨0, false, 0, pdu.buf.length⟩] } := by
    simp only [retransmitPdu, hpdu, hcount, hsn, h.retxQueue]
    rfl
  have hfull : s.retransmitIfFull = s.retransmitPdu 0 := by
    rw [retransmitIfFull, if_pos ⟨Nat.le_of_eq (h.size.trans h.vtS).symm, by rw [h.retxQueue]; rfl⟩,
      h.vtA]
  have hcounted : window.find? 0 = some { pdu with retxCount := pdu.retxCount + 1 } := by
    have := find?_countRetx hpdu
    rwa [hcount] at this
  have hsize : window.size = s.txWindow.size := by
    have := size_countRetx s 0
    rwa [hcount] at this
  refine ⟨{ pdu with retxCount := pdu.retxCount + 1 }, window, events, hsn, hcounted, hsize, hretx, ?_⟩
  have hqueue : (s.retransmitPdu 0).retxQueue = [⟨0, false, 0, pdu.buf.length⟩] := by rw [hretx]
  have hfind : (s.retransmitPdu 0).txWindow.find? 0 =
      some { pdu with retxCount := pdu.retxCount + 1 } := by
    rw [hretx]
    exact hcounted
  rw [readRetxPdu, hfull, hqueue]
  exact buildRetxPdu_minSize hsmall hqueue rfl hfind hbuf

/-- The read of the minimum size puts a PDU over the first one: the check of the window size is
skipped for an SDU in transmission. -/
theorem longSdu_overrun {s : AmTx} (h : LongSdu 0 s) :
    s.addsInReadPdu 3 noStatus = true ∧
      (s.readRetxPdu 3).1.txWindow.slot? s.vtS ≠ none := by
  obtain ⟨pdu, window, events, -, hpdu, -, hretx, hread⟩ := longSdu_readRetxPdu h (Nat.le_refl 3)
  obtain ⟨sdu, hsdu, -⟩ := h.txSdu
  have hvtS : s.vtS = amWindowSize := h.vtS
  obtain ⟨pdus, bytes, timer, hpoll⟩ := afterPoll_eq (s.retransmitPdu 0) (pdu.buf.length + 2)
  have hpool : s.sduInfo.pool.hasSegments = true := by
    have := h.segments
    simp only [SegmentPool.hasSegments, Bool.not_eq_true', List.isEmpty_eq_false_iff]
    exact List.ne_nil_of_length_pos this
  constructor
  · simp [addsInReadPdu, h.enabled, sendsStatus, noStatus, hread, hpoll]
    simp [hretx, addsDataPdu, hsdu, hpool]
  · -- The slot of `vt_s` is the slot of the first PDU.
    rw [hread]
    intro hslot
    refine CircularMap.slot?_eq_none_iff.mp hslot 0 ?_ (by rw [hvtS]; rfl)
    rw [(sameWindow_afterPoll _ _).contains, hretx]
    exact CircularMap.contains_iff.mpr ⟨pdu, hpdu⟩

/-- The state with the SDU in transmission after `k` further reads. -/
theorem longSdu_execOps {n : Nat} (k : Nat) {s : AmTx} (h : LongSdu (n + k) s) :
    LongSdu n (s.execOps (List.replicate k (.readPdu 3 noStatus))) := by
  induction k generalizing s with
  | zero => exact h
  | succ k ih => exact ih (longSdu_readPdu h)

/-- The reads of a long SDU put a PDU over the first one of the SDU, which was not
acknowledged. -/
theorem not_windowSafe_of_longSdu {n : Nat} {cfg : AmConfig} {ops : List Op}
    (h : LongSdu n ((init cfg).execOps ops)) :
    ¬ WindowSafe cfg (ops ++ List.replicate (n + 1) (.readPdu 3 noStatus)) := by
  intro hsafe
  have hlong : LongSdu 0 ((init cfg).execOps (ops ++ List.replicate n (.readPdu 3 noStatus))) := by
    rw [execOps, exec_append]
    exact longSdu_execOps n (by rwa [Nat.zero_add])
  obtain ⟨hadds, hslot⟩ := longSdu_overrun hlong
  refine hslot (hsafe.slotFree _ 3 noStatus [] ?_ hadds)
  rw [List.replicate_succ', List.append_assoc]

set_option maxRecDepth 10000 in
/-- An SDU of 600 bytes, whose first PDU has eight bytes of it. -/
theorem longSdu_start : LongSdu 511 ((init ⟨-1, -1, 4, 0, 256⟩).execOps
    [.writeSdu ⟨0, List.replicate 600 7⟩, .readPdu 10 noStatus]) where
  enabled := rfl
  queue := rfl
  retxQueue := rfl
  txSdu := ⟨⟨0, List.replicate 592 7⟩, rfl, by rw [List.length_replicate]; decide⟩
  segments := by
    show 511 < (SegmentPool.initFreeList 16383).length
    rw [length_initFreeList]
    decide
  vtA := rfl
  vtS := rfl
  size := rfl
  below := fun k hk => by
    -- The first PDU is the only entry.
    obtain ⟨pdu, hk⟩ := CircularMap.contains_iff_mem.mp hk
    have hzero : k = 0 := congrArg Prod.fst (List.eq_of_mem_singleton hk)
    rw [hzero]
    exact Nat.zero_lt_one
  first := ⟨_, rfl, rfl, by decide⟩

/-- An SDU of 600 bytes that is read in PDUs of the minimum size outgrows the window. -/
theorem not_windowSafe_longSdu :
    ¬ WindowSafe ⟨-1, -1, 4, 0, 256⟩ ([.writeSdu ⟨0, List.replicate 600 7⟩,
      .readPdu 10 noStatus] ++ List.replicate 512 (.readPdu 3 noStatus)) :=
  not_windowSafe_of_longSdu longSdu_start

end Odss.Rlc.AmTx
