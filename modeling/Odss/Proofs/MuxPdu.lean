import Odss.Proofs.SchPduWrite
import Odss.Ue.Mux

/-!
# `Odss.Proofs.MuxPdu`: what is put into an uplink MAC PDU

Each function that `pdu_get_nolock` calls puts subheaders behind those that the PDU has, and the SDUs
take from RLC what the PDU gets.

* `Extends` is the relation between a PDU and the PDU with more SDUs and CEs that are no BSR.
* `allocateSdu_spec` and `allocateSdus_spec` are about the SDUs of a channel and of all channels.
* `allocateSdus_full` is about a PDU without space for another subheader.
-/

set_option linter.all false

namespace Odss.Ue.Mux

open Odss.Rlc (Bytes)
open Odss.Mac (SchPdu SchSubh)
open Odss.Mac.SchPdu (newSubh_eq_some)
open Odss.Ue.BsrProc (Bsr nofLcg)

variable {ρ : Type}

/-! ### Subheaders -/

/-- The subheader is that of a BSR. -/
def isBsr (subh : SchSubh) : Bool := 28 ≤ subh.lcid ∧ subh.lcid ≤ 30

/-- The PDU with more subheaders, of which none is that of a BSR. -/
def Extends (pdu pdu' : SchPdu) : Prop :=
  ∃ subhs, pdu'.subheaders = pdu.subheaders ++ subhs ∧ ∀ subh ∈ subhs, isBsr subh = false

theorem Extends.refl (pdu : SchPdu) : Extends pdu pdu := ⟨[], by simp, by simp⟩

theorem Extends.trans {pdu pdu' pdu'' : SchPdu} (h : Extends pdu pdu') (h' : Extends pdu' pdu'') :
    Extends pdu pdu'' := by
  obtain ⟨subhs, hsubhs, hno⟩ := h
  obtain ⟨subhs', hsubhs', hno'⟩ := h'
  refine ⟨subhs ++ subhs', by rw [hsubhs', hsubhs, List.append_assoc], ?_⟩
  intro subh hmem
  exact (List.mem_append.mp hmem).elim (hno subh) (hno' subh)

/-- A PDU without a BSR stays one. -/
theorem Extends.noBsr {pdu pdu' : SchPdu} (h : Extends pdu pdu')
    (hno : ∀ subh ∈ pdu.subheaders, isBsr subh = false) :
    ∀ subh ∈ pdu'.subheaders, isBsr subh = false := by
  obtain ⟨subhs, hsubhs, hno'⟩ := h
  intro subh hmem
  rw [hsubhs] at hmem
  exact (List.mem_append.mp hmem).elim (hno subh) (hno' subh)

theorem extends_of_append {pdu pdu' : SchPdu} {subh : SchSubh}
    (h : pdu'.subheaders = pdu.subheaders ++ [subh]) (hno : isBsr subh = false) :
    Extends pdu pdu' :=
  ⟨[subh], h, by simpa using hno⟩

/-- The space for a CE goes down by its size and its subheader. -/
theorem addCe_eq_some {lcid : Nat} {payload : Bytes} {pdu pdu' : SchPdu}
    (h : addCe lcid payload pdu = some pdu') :
    pdu'.subheaders = pdu.subheaders ++ [⟨lcid, payload.length, payload⟩] ∧
      pdu'.remLen = pdu.remLen - (payload.length + 1) ∧ pdu'.maxSubheaders = pdu.maxSubheaders := by
  rw [addCe, Option.bind_eq_some_iff] at h
  obtain ⟨pdu₁, hnew, hset⟩ := h
  obtain ⟨rfl, -⟩ := newSubh_eq_some hnew
  rw [SchPdu.setCe] at hset
  split at hset
  · rename_i hspace
    cases hset
    rw [SchPdu.updateSpaceCe]
    split
    · simp [SchPdu.setCurrent]
    · rename_i hno
      exact absurd hspace hno
  · cases hset

/-- A CE that fits is added where there is a subheader left. -/
theorem addCe_eq_none {lcid : Nat} {payload : Bytes} {pdu : SchPdu}
    (hfits : payload.length + 1 ≤ pdu.remLen) (h : addCe lcid payload pdu = none) :
    pdu.newSubh = none := by
  cases hnew : pdu.newSubh with
  | none => rfl
  | some pdu₁ =>
    obtain ⟨rfl, -⟩ := newSubh_eq_some hnew
    have hspace : SchPdu.hasSpaceCe { pdu with subheaders := pdu.subheaders ++ [.init] }
        payload.length = true := decide_eq_true hfits
    rw [addCe, hnew, Option.bind_some, SchPdu.setCe, if_pos hspace] at h
    cases h

theorem extends_addCRnti (crnti : UInt16) (pdu : SchPdu) : Extends pdu (addCRnti crnti pdu) := by
  rw [addCRnti]
  split
  · exact Extends.refl pdu
  · rename_i pdu₁ hnew
    cases hset : pdu₁.setCe 27 (SchPdu.cRntiPayload crnti) with
    | none =>
      -- The subheader stays as it was made.
      obtain ⟨rfl, -⟩ := newSubh_eq_some hnew
      exact extends_of_append rfl rfl
    | some pdu₂ =>
      have hadd : addCe 27 (SchPdu.cRntiPayload crnti) pdu = some pdu₂ := by
        rw [addCe, hnew, Option.bind_some, hset]
      exact extends_of_append (addCe_eq_some hadd).1 (by simp [isBsr])

theorem extends_addPhr (phr : Option UInt8) (pdu : SchPdu) : Extends pdu (addPhr phr pdu) := by
  cases phr with
  | none => exact Extends.refl pdu
  | some report =>
    simp only [addPhr]
    cases hadd : addCe 26 (SchPdu.phrPayload report) pdu with
    | none => exact Extends.refl pdu
    | some pdu' => exact extends_of_append (addCe_eq_some hadd).1 (by simp [isBsr])

theorem addPhr_full {phr : Option UInt8} {pdu : SchPdu} (h : pdu.newSubh = none) :
    addPhr phr pdu = pdu := by
  cases phr with
  | none => rfl
  | some report =>
    simp only [addPhr]
    rw [addCe, h]
    rfl

theorem readSdu_eq_some {lcid requestedBytes : Nat} {sdu : Bytes} {pdu pdu₁ pdu' : SchPdu}
    (hnew : pdu.newSubh = some pdu₁) (h : pdu₁.readSdu lcid requestedBytes sdu = some pdu') :
    pdu'.subheaders = pdu.subheaders ++ [⟨lcid, sdu.length, []⟩] ∧ sdu ≠ [] := by
  obtain ⟨rfl, -⟩ := newSubh_eq_some hnew
  rw [SchPdu.readSdu] at h
  split at h
  · rename_i hcond
    cases h
    have hsdu : sdu ≠ [] := by
      rintro rfl
      simp at hcond
    refine ⟨?_, hsdu⟩
    rw [SchPdu.updateSpaceSdu]
    split <;> simp [SchPdu.setCurrent]
  · cases h

/-! ### RLC -/

/-- The backlog of a channel drops by exactly the bytes that RLC returns, which are no more than it was
asked for. -/
structure DropsExactly (rlcIf : RlcInterface ρ) : Prop where
  atMost : ∀ rlc lcid nofBytes, (rlcIf.readPdu rlc lcid nofBytes).1.length ≤ nofBytes
  drops : ∀ rlc lcid nofBytes,
    (rlcIf.getBufferState (rlcIf.readPdu rlc lcid nofBytes).2 lcid).toNat +
      (rlcIf.readPdu rlc lcid nofBytes).1.length = (rlcIf.getBufferState rlc lcid).toNat
  others : ∀ rlc lcid nofBytes lcid', lcid' ≠ lcid →
    rlcIf.getBufferState (rlcIf.readPdu rlc lcid nofBytes).2 lcid' = rlcIf.getBufferState rlc lcid'

/-- The backlog of one channel has dropped by `n`. -/
structure Dropped (rlcIf : RlcInterface ρ) (lcid n : Nat) (rlc rlc' : ρ) : Prop where
  own : (rlcIf.getBufferState rlc' lcid).toNat + n = (rlcIf.getBufferState rlc lcid).toNat
  others : ∀ lcid', lcid' ≠ lcid → rlcIf.getBufferState rlc' lcid' = rlcIf.getBufferState rlc lcid'

theorem Dropped.zero (rlcIf : RlcInterface ρ) (lcid : Nat) (rlc : ρ) : Dropped rlcIf lcid 0 rlc rlc :=
  ⟨rfl, fun _ _ => rfl⟩

theorem Dropped.add {rlcIf : RlcInterface ρ} {lcid n m : Nat} {rlc rlc' rlc'' : ρ}
    (h : Dropped rlcIf lcid n rlc rlc') (h' : Dropped rlcIf lcid m rlc' rlc'') :
    Dropped rlcIf lcid (n + m) rlc rlc'' := by
  refine ⟨?_, fun lcid' hne => (h'.others lcid' hne).trans (h.others lcid' hne)⟩
  have hown := h.own
  have hown' := h'.own
  omega

/-- The bytes that are allocated are those that RLC has no more, and the PDU has more SDUs. -/
theorem allocateSduLoop_spec {rlcIf : RlcInterface ρ} (h : DropsExactly rlcIf) {lcid : Nat}
    (hlcid : lcid < 28) (fuel : Nat) : ∀ (sduSpace : Nat) (pdu : SchPdu) (rlc : ρ),
      Dropped rlcIf lcid (allocateSduLoop rlcIf lcid fuel sduSpace pdu rlc).1 rlc
        (allocateSduLoop rlcIf lcid fuel sduSpace pdu rlc).2.2 ∧
      Extends pdu (allocateSduLoop rlcIf lcid fuel sduSpace pdu rlc).2.1 := by
  induction fuel with
  | zero => exact fun _ pdu rlc => ⟨Dropped.zero rlcIf lcid rlc, Extends.refl pdu⟩
  | succ fuel ih =>
    intro sduSpace pdu rlc
    simp only [allocateSduLoop]
    split
    · split
      · exact ⟨Dropped.zero rlcIf lcid rlc, Extends.refl pdu⟩
      · rename_i pdu₁ hnew
        split
        · rename_i hspace
          have hone : Dropped rlcIf lcid _ rlc _ := ⟨h.drops rlc lcid
            (min (toInt32 (rlcIf.getBufferState rlc lcid)).toNat sduSpace), h.others rlc lcid _⟩
          have hle := h.atMost rlc lcid (min (toInt32 (rlcIf.getBufferState rlc lcid)).toNat sduSpace)
          split
          · rename_i hread
            -- The SDU has no bytes.
            have hempty : (rlcIf.readPdu rlc lcid
                (min (toInt32 (rlcIf.getBufferState rlc lcid)).toNat sduSpace)).1.length = 0 := by
              rw [SchPdu.readSdu] at hread
              split at hread
              · cases hread
              · rename_i hcond
                simpa [hspace, hle] using hcond
            rw [hempty] at hone
            exact ⟨hone, Extends.refl pdu⟩
          · rename_i pdu₂ hread
            obtain ⟨hsubhs, -⟩ := readSdu_eq_some hnew hread
            obtain ⟨hrest, hext⟩ := ih (sduSpace - (rlcIf.readPdu rlc lcid
              (min (toInt32 (rlcIf.getBufferState rlc lcid)).toNat sduSpace)).1.length) pdu₂ _
            refine ⟨hone.add hrest, (extends_of_append hsubhs ?_).trans hext⟩
            simp [isBsr, Nat.not_le_of_lt hlcid]
        · exact ⟨Dropped.zero rlcIf lcid rlc, Extends.refl pdu⟩
    · exact ⟨Dropped.zero rlcIf lcid rlc, Extends.refl pdu⟩

theorem allocateSdu_spec {rlcIf : RlcInterface ρ} (h : DropsExactly rlcIf) {lcid : Nat}
    (hlcid : lcid < 28) (maxSduSz : Nat) (pdu : SchPdu) (rlc : ρ) :
    Dropped rlcIf lcid (allocateSdu rlcIf lcid maxSduSz pdu rlc).1 rlc
        (allocateSdu rlcIf lcid maxSduSz pdu rlc).2.2 ∧
      Extends pdu (allocateSdu rlcIf lcid maxSduSz pdu rlc).2.1 :=
  allocateSduLoop_spec h hlcid maxSduSz maxSduSz pdu rlc

theorem allocateSdu_full {rlcIf : RlcInterface ρ} {lcid maxSduSz : Nat} {pdu : SchPdu} {rlc : ρ}
    (h : pdu.newSubh = none) : allocateSdu rlcIf lcid maxSduSz pdu rlc = (0, pdu, rlc) := by
  cases maxSduSz with
  | zero => rfl
  | succ n =>
    simp only [allocateSdu, allocateSduLoop, h]
    split <;> rfl

/-! ### The SDUs of all channels -/

/-- The bytes that RLC has for the channels of a group. -/
def buffered (rlcIf : RlcInterface ρ) (rlc : ρ) (channels : List LogicalChannel) (lcg : Fin nofLcg) : Nat :=
  ((channels.filter fun ch => ch.lcg = lcg).map fun ch =>
    (rlcIf.getBufferState rlc ch.lcid).toNat).sum

/-- A channel whose backlog drops is counted in its group only. -/
theorem buffered_dropped {rlcIf : RlcInterface ρ} {rlc rlc' : ρ} {ch : LogicalChannel} {n : Nat}
    (h : Dropped rlcIf ch.lcid n rlc rlc') (lcg : Fin nofLcg) (channels : List LogicalChannel)
    (hnodup : (channels.map LogicalChannel.lcid).Nodup) (hmem : ch ∈ channels) :
    buffered rlcIf rlc' channels lcg + (if ch.lcg = lcg then n else 0) =
      buffered rlcIf rlc channels lcg := by
  -- A list without the channel counts the same.
  have hothers : ∀ chs : List LogicalChannel, ch.lcid ∉ chs.map LogicalChannel.lcid →
      buffered rlcIf rlc' chs lcg = buffered rlcIf rlc chs lcg := by
    intro chs hno
    rw [buffered, buffered]
    congr 1
    refine List.map_congr_left fun ch' hch' => ?_
    rw [h.others ch'.lcid]
    intro heq
    exact hno (heq ▸ List.mem_map_of_mem (List.mem_filter.mp hch').1)
  induction channels with
  | nil => cases hmem
  | cons ch' channels ih =>
    rw [List.map_cons, List.nodup_cons] at hnodup
    simp only [buffered, List.filter_cons] at ih ⊢
    rcases List.mem_cons.mp hmem with rfl | hmem
    · have hsame := hothers channels hnodup.1
      have hown := h.own
      simp only [buffered] at hsame
      by_cases hlcg : ch.lcg = lcg
      · simp only [hlcg, decide_true, if_true, List.map_cons, List.sum_cons]
        omega
      · simp only [hlcg, decide_false, Bool.false_eq_true, if_false]
        omega
    · have hne : ch'.lcid ≠ ch.lcid := by
        intro heq
        exact hnodup.1 (heq ▸ List.mem_map_of_mem hmem)
      have htail := ih hnodup.2 hmem
      have hhead := h.others ch'.lcid hne
      by_cases hlcg : ch'.lcg = lcg
      · simp only [hlcg, decide_true, if_true, List.map_cons, List.sum_cons, hhead]
        omega
      · simp only [hlcg, decide_false, Bool.false_eq_true, if_false]
        exact htail

/-- The counters are the bytes that RLC has, and none has gone below zero. -/
def Counted (rlcIf : RlcInterface ρ) (channels : List LogicalChannel) (b : Build ρ) : Prop :=
  b.wrapped = false ∧ ∀ lcg, (b.buffSize lcg).toNat = buffered rlcIf b.rlc channels lcg

/-- The SDUs of some of the channels leave the counters right. -/
theorem allocateSdus_spec {rlcIf : RlcInterface ρ} (h : DropsExactly rlcIf)
    {channels : List LogicalChannel} (hnodup : (channels.map LogicalChannel.lcid).Nodup)
    (hlcid : ∀ ch ∈ channels, ch.lcid < 28) :
    ∀ (scheduled : List LogicalChannel) (b : Build ρ),
      (∀ ch ∈ scheduled, ∃ ch' ∈ channels, ch'.lcid = ch.lcid ∧ ch'.lcg = ch.lcg) →
      Counted rlcIf channels b →
      Counted rlcIf channels (allocateSdus rlcIf scheduled b) ∧
        Extends b.pdu (allocateSdus rlcIf scheduled b).pdu ∧
        ∀ lcg, buffered rlcIf (allocateSdus rlcIf scheduled b).rlc channels lcg ≤
          buffered rlcIf b.rlc channels lcg := by
  intro scheduled
  induction scheduled with
  | nil => exact fun b _ hb => ⟨hb, Extends.refl b.pdu, fun _ => Nat.le_refl _⟩
  | cons ch scheduled ih =>
    intro b hsub hb
    have hsub' : ∀ ch' ∈ scheduled, ∃ ch'' ∈ channels, ch''.lcid = ch'.lcid ∧ ch''.lcg = ch'.lcg :=
      fun ch' hch' => hsub ch' (List.mem_cons_of_mem ch hch')
    rw [allocateSdus]
    split
    · obtain ⟨ch', hmem, hlcid', hlcg'⟩ := hsub ch List.mem_cons_self
      obtain ⟨hdropped, hext⟩ := allocateSdu_spec h (hlcid' ▸ hlcid ch' hmem) ch.schedLen.toNat b.pdu b.rlc
      generalize allocateSdu rlcIf ch.lcid ch.schedLen.toNat b.pdu b.rlc = r at hdropped hext
      rw [← hlcid'] at hdropped
      have hbuffered := fun lcg => buffered_dropped hdropped lcg channels hnodup hmem
      -- The bytes that are taken were counted.
      have hle : r.1 ≤ (b.buffSize ch.lcg).toNat := by
        have := hbuffered ch.lcg
        rw [if_pos hlcg'] at this
        rw [hb.2]
        omega
      have hlt : r.1 < 2 ^ 32 := Nat.lt_of_le_of_lt hle (UInt32.toNat_lt _)
      have hcounted : Counted rlcIf channels
          { pdu := r.2.1
            rlc := r.2.2
            buffSize := fun i => if i = ch.lcg then b.buffSize i - UInt32.ofNat r.1 else b.buffSize i
            wrapped := b.wrapped || decide ((b.buffSize ch.lcg).toNat < r.1) } := by
        refine ⟨?_, fun lcg => ?_⟩
        · rw [hb.1, decide_eq_false (Nat.not_lt_of_le hle)]
          rfl
        · have hcount := hbuffered lcg
          by_cases hlcg : lcg = ch.lcg
          · subst hlcg
            have hof : (UInt32.ofNat r.1).toNat = r.1 := UInt32.toNat_ofNat_of_lt' hlt
            rw [if_pos hlcg'] at hcount
            simp only [if_true]
            rw [UInt32.toNat_sub_of_le _ _ (by rw [UInt32.le_iff_toNat_le, hof]; exact hle), hof, hb.2]
            omega
          · rw [if_neg fun heq => hlcg (heq.symm.trans hlcg'), Nat.add_zero] at hcount
            simp only [hlcg, if_false]
            rw [hb.2, hcount]
      obtain ⟨hcounted', hext', hle'⟩ := ih _ hsub' hcounted
      refine ⟨hcounted', hext.trans hext', fun lcg => Nat.le_trans (hle' lcg) ?_⟩
      have hcount := hbuffered lcg
      show buffered rlcIf r.2.2 channels lcg ≤ buffered rlcIf b.rlc channels lcg
      omega
    · exact ih b hsub' hb

/-- Without a subheader left, the SDUs change nothing. -/
theorem allocateSdus_full {rlcIf : RlcInterface ρ} (scheduled : List LogicalChannel) {b : Build ρ}
    (h : b.pdu.newSubh = none) : allocateSdus rlcIf scheduled b = b := by
  induction scheduled with
  | nil => rfl
  | cons ch scheduled ih =>
    rw [allocateSdus]
    split
    · rw [allocateSdu_full h]
      have hsame : (fun i => if i = ch.lcg then b.buffSize i - UInt32.ofNat 0 else b.buffSize i) =
          b.buffSize := by
        funext i
        simp
      simp only [hsame, Nat.not_lt_zero, decide_false, Bool.or_false]
      exact ih
    · exact ih

/-! ### The rounds of scheduling -/

/-- The channels keep their LCIDs and groups. -/
def sameChannel (ch ch' : LogicalChannel) : Prop := ch.lcid = ch'.lcid ∧ ch.lcg = ch'.lcg

theorem schedSdu_same (ch : LogicalChannel) (sduSpace maxSduSz : Int) :
    sameChannel ch (schedSdu ch sduSpace maxSduSz).2.1 := by
  rw [schedSdu]
  split <;> exact ⟨rfl, rfl⟩

theorem firstRound_same (channels : List LogicalChannel) : ∀ (sduSpace : Int) (last : Nat),
    List.Forall₂ sameChannel channels (firstRound channels sduSpace last).1 := by
  induction channels with
  | nil => exact fun _ _ => .nil
  | cons ch channels ih =>
    intro sduSpace last
    have hr : ∀ maxSduSz : Int, sameChannel ch
        (if maxSduSz ≠ 0 then schedSdu ch sduSpace maxSduSz else (false, ch, sduSpace)).2.1 := by
      intro maxSduSz
      split
      · exact schedSdu_same ch sduSpace maxSduSz
      · exact ⟨rfl, rfl⟩
    have hr := hr (if ch.pbr < 0 then -1 else ch.bj)
    simp only [firstRound]
    generalize (if (if ch.pbr < 0 then -1 else ch.bj) ≠ 0 then
      schedSdu ch sduSpace (if ch.pbr < 0 then -1 else ch.bj) else (false, ch, sduSpace)) = r at hr ⊢
    split
    · exact .cons hr (ih _ _)
    · exact .cons ⟨rfl, rfl⟩ (ih _ _)

theorem secondRound_same (last : Nat) (channels : List LogicalChannel) : ∀ sduSpace : Int,
    List.Forall₂ sameChannel channels (secondRound last channels sduSpace).1 := by
  induction channels with
  | nil => exact fun _ => .nil
  | cons ch channels ih =>
    intro sduSpace
    rw [secondRound]
    split
    · exact .cons (schedSdu_same ch _ _) (ih _)
    · exact .cons ⟨rfl, rfl⟩ (ih _)

theorem mem_schedule {channels : List LogicalChannel} {sduSpace : Int} {ch : LogicalChannel}
    (h : ch ∈ schedule channels sduSpace) :
    ∃ ch' ∈ channels, ch'.lcid = ch.lcid ∧ ch'.lcg = ch.lcg := by
  have hmem : ∀ {chs chs' : List LogicalChannel}, List.Forall₂ sameChannel chs chs' →
      ∀ {ch'}, ch' ∈ chs' → ∃ ch'' ∈ chs, sameChannel ch'' ch' := by
    intro chs chs' hall
    induction hall with
    | nil => intro ch' hch'; cases hch'
    | cons hsame _ ih =>
      intro ch' hch'
      rcases List.mem_cons.mp hch' with rfl | hch'
      · exact ⟨_, List.mem_cons_self, hsame⟩
      · obtain ⟨ch'', hch'', hsame'⟩ := ih hch'
        exact ⟨ch'', List.mem_cons_of_mem _ hch'', hsame'⟩
  obtain ⟨ch₁, hch₁, hsame₁⟩ := hmem (secondRound_same _ _ _) h
  obtain ⟨ch₀, hch₀, hsame₀⟩ := hmem (firstRound_same channels sduSpace 0) hch₁
  exact ⟨ch₀, hch₀, hsame₀.1.trans hsame₁.1, hsame₀.2.trans hsame₁.2⟩

end Odss.Ue.Mux
