import Odss.Proofs.UmNrRx

/-!
# `Odss.Proofs.UmNrSegmentation`: how the NR UM transmitter cuts an SDU

The history of a run has an entry for each SDU that the transmitter took off its queue, with
the PDUs that were sent for it.

* `sduPdus` are the PDUs of an SDU with an SN: the SDU as it is, or a chain of segments.
* `Segmented` says that each SDU of a history went out so, and `Cut` is the invariant of it.
* `Started` is the condition on a grant: the SDU in transmission, if there is one, has lost its
  first bytes to an earlier grant.
* `segmented_iff` puts both together for every run.
-/

set_option linter.all false

namespace Odss.Rlc

open Odss.Lib

/-! ### The PDUs of an SDU -/

/-- The headers and the data of the PDUs for an SDU that was cut into the pieces `cs`. A full
SDU has no SN. -/
def sduPdus (snSize : UmNrSnSize) (sn : Nat) : List Bytes → List (UmNrHeader × Bytes)
  | [sdu] => [(⟨.fullSdu, snSize, 0, 0⟩, sdu)]
  | cs => (List.range cs.length).map fun j => (segmentHeader snSize sn cs j, chunk cs j)

/-- The bytes of a PDU. -/
def pduBytes (pdu : UmNrHeader × Bytes) : Bytes := pdu.1.write ++ pdu.2

/-- The pieces of an SDU: the SDU itself, or pieces of which none is empty. -/
structure Pieces (sdu : Bytes) (cs : List Bytes) : Prop where
  flatten : cs.flatten = sdu
  nonempty : cs.length ≠ 1 → ∀ c ∈ cs, c ≠ []

theorem sduPdus_of_two_le {snSize : UmNrSnSize} {sn : Nat} {cs : List Bytes} (h : 2 ≤ cs.length) :
    sduPdus snSize sn cs
      = (List.range cs.length).map fun j => (segmentHeader snSize sn cs j, chunk cs j) := by
  match cs, h with
  | _ :: _ :: _, _ => rfl

/-- The headers are those that the format can carry. -/
theorem valid_of_mem_sduPdus {snSize : UmNrSnSize} {sn : Nat} {sdu : Bytes} {cs : List Bytes}
    (hcs : Pieces sdu cs) (hlen : sdu.length < 2 ^ 16) (hsn : sn < snSize.mod)
    {pdu : UmNrHeader × Bytes} (h : pdu ∈ sduPdus snSize sn cs) : pdu.1.Valid := by
  unfold sduPdus at h
  split at h
  · rw [List.mem_singleton.mp h]
    have hmod : 0 < snSize.mod := by cases snSize <;> decide
    exact ⟨hmod, Nat.zero_lt_succ _, fun _ => ⟨rfl, rfl⟩, nofun, nofun⟩
  · rename_i hone
    obtain ⟨j, hj, rfl⟩ := List.mem_map.mp h
    have hj := List.mem_range.mp hj
    have hne : ∀ c ∈ cs, c ≠ [] := by
      refine hcs.nonempty fun hlength => ?_
      obtain ⟨c, rfl⟩ := List.length_eq_one_iff.mp hlength
      exact hone c rfl
    have hso : offset cs j < 2 ^ 16 := by
      have hle : offset cs j < offset cs cs.length := offset_lt_offset hne hj (Nat.le_refl _)
      rw [offset_length, hcs.flatten] at hle
      omega
    have hzero : offset cs j = 0 ↔ j = 0 := offset_eq_zero_iff hne (Nat.le_of_lt hj)
    show (segmentHeader snSize sn cs j).Valid
    rw [segmentHeader]
    refine ⟨hsn, hso, ?_, ?_, ?_⟩
    · intro hfull
      unfold segmentSi at hfull
      split at hfull
      · cases hfull
      · split at hfull <;> cases hfull
    · intro hfirst
      unfold segmentSi at hfirst
      split at hfirst
      · exact hzero.mpr ‹_›
      · split at hfirst <;> cases hfirst
    · intro hlater h0
      have hj0 : j = 0 := hzero.mp h0
      rw [show (segmentSi cs j) = .firstSegment from if_pos hj0] at hlater
      rcases hlater with hlater | hlater <;> cases hlater

theorem si_head_sduPdus {snSize : UmNrSnSize} {sn : Nat} {cs : List Bytes}
    {pdu : UmNrHeader × Bytes} {pdus : List (UmNrHeader × Bytes)}
    (h : sduPdus snSize sn cs = pdu :: pdus) : pdu.1.si = .fullSdu ∨ pdu.1.si = .firstSegment := by
  unfold sduPdus at h
  split at h
  · cases h
    exact .inl rfl
  · cases hn : cs.length with
    | zero =>
      rw [hn] at h
      cases h
    | succ n =>
      rw [hn, List.range_succ_eq_map, List.map_cons] at h
      cases h
      exact .inr rfl

theorem UmNrHeader.head_write (header : UmNrHeader) (data : Bytes) :
    (header.write ++ data).head?.map (fun b => SiField.ofBits (b.toNat / 64)) = some header.si := by
  have hbits := header.si.toBits_lt
  unfold write
  split
  · rename_i hfull
    rw [hfull]
    rfl
  · cases header.snSize with
    | size6bits =>
      have hlow : header.sn % 64 < 64 := Nat.mod_lt _ (by decide)
      simp only [List.cons_append, List.head?_cons, Option.map_some]
      rw [toNat_ofNat_of_lt (by omega), SiField.ofBits_toBits _ _ hlow]
    | size12bits =>
      have hlow : header.sn / 256 % 16 < 64 := by omega
      simp only [List.cons_append, List.head?_cons, Option.map_some]
      rw [toNat_ofNat_of_lt (by omega), SiField.ofBits_toBits _ _ hlow]

/-! ### Histories -/

/-- An SDU that was taken off the queue, with the PDUs that were sent for it so far. -/
structure SduHistory where
  sdu : Bytes
  pdus : List Bytes
deriving DecidableEq, Repr

namespace UmNrTx

/-- The SDU that a call takes off the queue. -/
def takenBy (s : UmNrTx) : Op → Option Bytes
  | .writeSdu _ => none
  | .buildDataPdu nofBytes =>
    if nofBytes < 2 ∨ s.txSdu.isSome then none else s.txSduQueue.read.1.map Sdu.bytes

/-- The SDU with another PDU. -/
def addTo (e : SduHistory) (pdu : Bytes) : SduHistory := ⟨e.sdu, e.pdus ++ sentPdu pdu⟩

/-- A PDU goes to the SDU that was taken last. The history has it in front. -/
def addPdu : List SduHistory → Bytes → List SduHistory
  | [], _ => []
  | e :: older, pdu => addTo e pdu :: older

/-- The history after a call. -/
def record (s : UmNrTx) (op : Op) (history : List SduHistory) : List SduHistory :=
  addPdu (((s.takenBy op).map fun sdu => ⟨sdu, []⟩).toList ++ history) (s.step op).2

/-- The history after a run. -/
def recordAll : UmNrTx → List SduHistory → List Op → List SduHistory
  | _, history, [] => history
  | s, history, op :: ops => recordAll (s.step op).1 (s.record op history) ops

/-- The history of a run after `configure`. -/
def history (s : UmNrTx) (ops : List Op) : List SduHistory := recordAll s [] ops

/-- The SN behind the SDUs of a history: one for each SDU that was cut. -/
def nextSn (snSize : UmNrSnSize) (history : List SduHistory) : Nat :=
  history.countP (fun e => decide (2 ≤ e.pdus.length)) % snSize.mod

/-- The PDUs for an SDU are those of some pieces of it. All of them were sent when the SDU is
complete. The reader finds the header of each. -/
def SentAs (snSize : UmNrSnSize) (sn : Nat) (e : SduHistory) (complete : Prop) : Prop :=
  ∃ cs, Pieces e.sdu cs ∧ e.pdus <+: (sduPdus snSize sn cs).map pduBytes ∧
    (complete → e.pdus = (sduPdus snSize sn cs).map pduBytes) ∧
    ∀ pdu ∈ sduPdus snSize sn cs,
      readUmNrHeader snSize (pduBytes pdu) = some (pdu.1, pdu.1.packedLength)

/-- Each SDU of a history went out as it is or as a chain of segments, and each chain has the
SN behind the last one. `idle` says that the SDU in front is complete. -/
def Segmented (snSize : UmNrSnSize) : Prop → List SduHistory → Prop
  | _, [] => True
  | idle, e :: older => SentAs snSize (nextSn snSize older) e idle ∧ Segmented snSize True older

/-- The condition on a call: a grant with room for a PDU is not for an SDU of which an earlier
grant has sent nothing. -/
def Started (s : UmNrTx) : Op → Prop
  | .writeSdu _ => True
  | .buildDataPdu nofBytes => 2 ≤ nofBytes → ∀ sdu, s.txSdu = some sdu → s.nextSo = 0 →
    hasSpace (s.pduHeader (s.nextSi sdu (pduSpace nofBytes))) (pduSpace nofBytes) = false

/-! ### The invariant -/

/-- The bytes of the first pieces `cur` of an SDU that has `rest` left. -/
def piecesSent (snSize : UmNrSnSize) (sn : Nat) (cur : List Bytes) (rest : Bytes) : List Bytes :=
  (List.range cur.length).map fun j =>
    (segmentHeader snSize sn (cur ++ [rest]) j).write ++ chunk (cur ++ [rest]) j

/-- The SDU in front of the history has the pieces `cur` behind it, and `rest` is left. -/
structure Cutting (s : UmNrTx) (e : SduHistory) (sn : Nat) (cur : List Bytes) (rest : Bytes) :
    Prop where
  sdu : e.sdu = cur.flatten ++ rest
  pdus : e.pdus = piecesSent s.snSize sn cur rest
  nonempty : ∀ c ∈ cur, c ≠ []
  left : cur ≠ [] → rest ≠ []
  nextSo : s.nextSo = cur.flatten.length
  short : e.sdu.length < 2 ^ 16

/-- What holds between two calls. -/
structure Cut (s : UmNrTx) (history : List SduHistory) : Prop where
  queue : ∀ sdu ∈ s.queueSdus, sdu.length < 2 ^ 16
  idle : s.txSdu = none → s.txNext = nextSn s.snSize history ∧ Segmented s.snSize True history
  busy : ∀ rest, s.txSdu = some rest → ∃ e older cur, history = e :: older ∧
    s.txNext = nextSn s.snSize older ∧ Segmented s.snSize True older ∧
    Cutting s e s.txNext cur rest

theorem nextSn_lt (snSize : UmNrSnSize) (history : List SduHistory) :
    nextSn snSize history < snSize.mod :=
  Nat.mod_lt _ (by cases snSize <;> decide)

/-- The headers of an SDU that fits a buffer are read back. -/
theorem read_of_pieces {snSize : UmNrSnSize} {sn : Nat} {sdu : Bytes} {cs : List Bytes}
    (hcs : Pieces sdu cs) (hlen : sdu.length < 2 ^ 16) (hsn : sn < snSize.mod) :
    ∀ pdu ∈ sduPdus snSize sn cs,
      readUmNrHeader snSize (pduBytes pdu) = some (pdu.1, pdu.1.packedLength) := by
  intro pdu hpdu
  have hvalid := valid_of_mem_sduPdus hcs hlen hsn hpdu
  have hsize : pdu.1.snSize = snSize := by
    unfold sduPdus at hpdu
    split at hpdu
    · rw [List.mem_singleton.mp hpdu]
    · obtain ⟨j, -, rfl⟩ := List.mem_map.mp hpdu
      rfl
  rw [pduBytes, ← hsize]
  exact readUmNrHeader_write hvalid pdu.2

theorem piecesSent_eq_take {snSize : UmNrSnSize} {sn : Nat} {cur : List Bytes} (rest : Bytes)
    (h : cur ≠ []) :
    piecesSent snSize sn cur rest
      = ((sduPdus snSize sn (cur ++ [rest])).map pduBytes).take cur.length := by
  have hpos := List.length_pos_of_ne_nil h
  have hlen : (cur ++ [rest]).length = cur.length + 1 := by simp
  rw [sduPdus_of_two_le (by omega), piecesSent, List.map_map, hlen, List.range_succ,
    List.map_append, List.take_append_of_le_length (by simp), List.take_of_length_le (by simp)]
  rfl

/-- The next piece joins those that were sent. -/
theorem piecesSent_append {snSize : UmNrSnSize} {sn : Nat} (cur : List Bytes) (c rest : Bytes) :
    piecesSent snSize sn (cur ++ [c]) rest
      = piecesSent snSize sn cur (c ++ rest) ++
        [(UmNrHeader.mk (segmentSi (cur ++ [c, rest]) cur.length) snSize sn
          cur.flatten.length).write ++ c] := by
  have hassoc : cur ++ [c] ++ [rest] = cur ++ [c, rest] := by simp
  have hlast : (segmentHeader snSize sn (cur ++ [c, rest]) cur.length).write
      ++ chunk (cur ++ [c, rest]) cur.length
      = (UmNrHeader.mk (segmentSi (cur ++ [c, rest]) cur.length) snSize sn
          cur.flatten.length).write ++ c := by
    rw [segmentHeader, chunk_append_length, offset_append_of_le _ (Nat.le_refl _), offset_length]
  rw [piecesSent, hassoc, List.length_append, List.length_singleton, List.range_succ,
    List.map_append, List.map_singleton, hlast]
  congr 1
  refine List.map_congr_left fun j hj => ?_
  -- The pieces before the new one do not see that the rest was cut.
  exact segment_congr _ _ _ (List.cons_ne_nil _ _) (List.cons_ne_nil _ _) (List.mem_range.mp hj)

/-- The SDU in front of the history is complete with its last piece. -/
theorem sduPdus_append {snSize : UmNrSnSize} {sn : Nat} {cur : List Bytes} (rest : Bytes)
    (h : cur ≠ []) :
    (sduPdus snSize sn (cur ++ [rest])).map pduBytes
      = piecesSent snSize sn cur rest ++
        [(UmNrHeader.mk .lastSegment snSize sn cur.flatten.length).write ++ rest] := by
  have hpos := List.length_pos_of_ne_nil h
  have hlen : (cur ++ [rest]).length = cur.length + 1 := by simp
  rw [sduPdus_of_two_le (by omega), hlen, List.range_succ, List.map_append, List.map_append,
    List.map_map, piecesSent, List.map_singleton, List.map_singleton, pduBytes, segmentHeader,
    segmentSi_last h, chunk_append_length, offset_append_of_le _ (Nat.le_refl _), offset_length]
  rfl

/-- An SDU in transmission was sent as far as it goes. -/
theorem Cutting.sentAs {s : UmNrTx} {e : SduHistory} {sn : Nat} {cur : List Bytes} {rest : Bytes}
    (h : Cutting s e sn cur rest) (hsn : sn < s.snSize.mod) : SentAs s.snSize sn e False := by
  have hpieces : Pieces e.sdu (cur ++ [rest]) := by
    refine ⟨by rw [List.flatten_append, List.flatten_singleton, h.sdu], fun hlen c hc => ?_⟩
    have hcur : cur ≠ [] := by
      rintro rfl
      exact hlen rfl
    rcases List.mem_append.mp hc with hc | hc
    · exact h.nonempty c hc
    · rw [List.mem_singleton.mp hc]
      exact h.left hcur
  refine ⟨cur ++ [rest], hpieces, ?_, False.elim, read_of_pieces hpieces h.short hsn⟩
  rw [h.pdus]
  by_cases hcur : cur = []
  · rw [hcur]
    exact List.nil_prefix
  · rw [piecesSent_eq_take rest hcur]
    exact List.take_prefix _ _

/-- The invariant gives what was sent. -/
theorem Cut.segmented {s : UmNrTx} {history : List SduHistory} (h : Cut s history) :
    Segmented s.snSize (s.txSdu = none) history := by
  cases hsdu : s.txSdu with
  | none =>
    have hall := (h.idle hsdu).2
    rwa [show ((none : Option Bytes) = none) = True from eq_self none]
  | some rest =>
    obtain ⟨e, older, cur, rfl, hnext, holder, hcut⟩ := h.busy rest hsdu
    have hfalse : (some rest = none) = False := eq_false nofun
    rw [hfalse]
    refine ⟨?_, holder⟩
    rw [← hnext]
    exact hcut.sentAs (hnext ▸ nextSn_lt _ _)

/-! ### One grant -/

theorem sentPdu_nil : sentPdu [] = [] := rfl

theorem Cutting.piece {s : UmNrTx} {e : SduHistory} {sn : Nat} {cur : List Bytes} {rest : Bytes}
    (h : Cutting s e sn cur rest) {s' : UmNrTx} {n : Nat} {si : SiField} (hpos : 0 < n)
    (hn : n < rest.length)
    (hsi : si = if cur.length = 0 then .firstSegment else .neitherFirstNorLastSegment)
    (hsnSize : s'.snSize = s.snSize) (hso : s'.nextSo = s.nextSo + n) :
    Cutting s'
      (addTo e ((UmNrHeader.mk si s.snSize sn cur.flatten.length).write ++ rest.take n))
      sn (cur ++ [rest.take n]) (rest.drop n) := by
  have hlen : (rest.take n).length = n := List.length_take_of_le (Nat.le_of_lt hn)
  have hdrop : rest.drop n ≠ [] := by
    rw [ne_eq, List.drop_eq_nil_iff]
    omega
  refine ⟨?_, ?_, fun c hc => ?_, fun _ => hdrop, ?_, h.short⟩
  · rw [List.flatten_append, List.flatten_singleton, List.append_assoc, List.take_append_drop]
    exact h.sdu
  · show e.pdus ++ _ = _
    rw [hsnSize, sentPdu_write, piecesSent_append, List.take_append_drop, h.pdus, hsi, segmentSi_next]
  · rcases List.mem_append.mp hc with hc | hc
    · exact h.nonempty c hc
    · rw [List.mem_singleton.mp hc, ← List.length_pos_iff, hlen]
      exact hpos
  · rw [hso, h.nextSo, List.flatten_append, List.length_append, List.flatten_singleton, hlen]

theorem Cutting.complete {s : UmNrTx} {e : SduHistory} {sn : Nat} {cur : List Bytes} {rest : Bytes}
    (h : Cutting s e sn cur rest) (hcur : cur ≠ []) (hsn : sn < s.snSize.mod) :
    SentAs s.snSize sn
      (addTo e ((UmNrHeader.mk .lastSegment s.snSize sn cur.flatten.length).write ++ rest))
      True := by
  have hpieces : Pieces e.sdu (cur ++ [rest]) := by
    refine ⟨by rw [List.flatten_append, List.flatten_singleton, h.sdu], fun _ c hc => ?_⟩
    rcases List.mem_append.mp hc with hc | hc
    · exact h.nonempty c hc
    · rw [List.mem_singleton.mp hc]
      exact h.left hcur
  have hall : e.pdus ++ sentPdu ((UmNrHeader.mk .lastSegment s.snSize sn cur.flatten.length).write
      ++ rest) = (sduPdus s.snSize sn (cur ++ [rest])).map pduBytes := by
    rw [sentPdu_write, sduPdus_append rest hcur, h.pdus]
  refine ⟨cur ++ [rest], hpieces, ?_, fun _ => hall, read_of_pieces hpieces h.short hsn⟩
  exact ⟨[], (List.append_nil _).trans hall⟩

theorem sentAs_full (snSize : UmNrSnSize) {sn sn' : Nat} (sdu : Bytes) :
    SentAs snSize sn
      (addTo ⟨sdu, []⟩ ((UmNrHeader.mk .fullSdu snSize sn' 0).write ++ sdu)) True := by
  have hall : sentPdu ((UmNrHeader.mk .fullSdu snSize sn' 0).write ++ sdu)
      = (sduPdus snSize sn [sdu]).map pduBytes := by
    rw [sentPdu_write]
    rfl
  refine ⟨[sdu], ⟨List.flatten_singleton, fun h => absurd rfl h⟩, ?_, fun _ => hall, ?_⟩
  · exact ⟨[], (List.append_nil _).trans hall⟩
  · intro pdu hpdu
    rw [List.mem_singleton.mp hpdu]
    cases snSize <;> rfl

/-- The SN moves on behind an SDU that was cut. -/
theorem nextSn_cons {snSize : UmNrSnSize} (e : SduHistory) (older : List SduHistory) :
    nextSn snSize (e :: older)
      = if 2 ≤ e.pdus.length then (nextSn snSize older + 1) % snSize.mod
        else nextSn snSize older := by
  unfold nextSn
  split
  · rename_i h
    rw [List.countP_cons_of_pos (by simpa using h), Nat.mod_add_mod]
  · rename_i h
    rw [List.countP_cons_of_neg (by simpa using h)]

/-- A grant for an SDU that has lost its first bytes. -/
theorem cut_busy {s : UmNrTx} {e : SduHistory} {older : List SduHistory} {cur : List Bytes}
    {rest : Bytes} (hqueue : ∀ sdu ∈ s.queueSdus, sdu.length < 2 ^ 16)
    (hbusy : s.txSdu = some rest) (hnext : s.txNext = nextSn s.snSize older)
    (holder : Segmented s.snSize True older) (hcut : Cutting s e s.txNext cur rest)
    (hcur : cur ≠ []) (space : Nat) :
    Cut (s.buildSduPdu rest (s.nextSi rest space) space).1
      (addPdu (e :: older) (s.buildSduPdu rest (s.nextSi rest space) space).2) := by
  have hshort : cur.flatten.length < 2 ^ 16 := by
    have := hcut.short
    rw [hcut.sdu, List.length_append] at this
    omega
  have hso : s.nextSo % 2 ^ 16 = cur.flatten.length := by
    rw [hcut.nextSo, Nat.mod_eq_of_lt hshort]
  have hpos : cur.flatten.length ≠ 0 := by
    rw [← offset_length, ne_eq, offset_eq_zero_iff hcut.nonempty (Nat.le_refl _)]
    simpa using hcur
  rcases buildSduPdu_next_cases hso hpos rest space with heq | ⟨n, hn, hmore, heq⟩ | heq
  · have hsame : { s with txSdu := some rest } = s := by rw [← hbusy]
    rw [heq, hsame, addPdu, addTo, sentPdu_nil, List.append_nil]
    refine ⟨hqueue, fun hnone => ?_, fun rest' hrest' => ?_⟩
    · rw [hbusy] at hnone
      cases hnone
    · obtain rfl : rest = rest' := Option.some.inj (hbusy.symm.trans hrest')
      exact ⟨e, older, cur, rfl, hnext, holder, hcut⟩
  · -- The grant is too small for the rest.
    rw [heq]
    refine ⟨hqueue, nofun, fun rest' hrest' => ?_⟩
    cases hrest'
    refine ⟨_, older, _, rfl, hnext, holder, hcut.piece hn hmore ?_ rfl rfl⟩
    rw [if_neg fun h0 => hcur (List.length_eq_zero_iff.mp h0)]
  · rw [heq]
    have hsn : s.txNext < s.snSize.mod := hnext ▸ nextSn_lt _ _
    refine ⟨hqueue, fun _ => ⟨?_, ?_, holder⟩, nofun⟩
    · -- The last segment is not the first, so the SDU has two PDUs.
      show (s.txNext + 1) % s.snSize.mod = nextSn s.snSize (addTo e _ :: older)
      rw [nextSn_cons, if_pos, ← hnext]
      · have hcount := List.length_pos_of_ne_nil hcur
        show 2 ≤ (e.pdus ++ sentPdu _).length
        rw [List.length_append, hcut.pdus, piecesSent, List.length_map, List.length_range,
          sentPdu_write, List.length_singleton]
        omega
    · rw [← hnext]
      exact hcut.complete hcur hsn

theorem cut_fresh {s : UmNrTx} {older : List SduHistory} {sdu : Bytes}
    (hqueue : ∀ sdu ∈ s.queueSdus, sdu.length < 2 ^ 16) (hsdu : sdu.length < 2 ^ 16)
    (hnext : s.txNext = nextSn s.snSize older) (holder : Segmented s.snSize True older)
    (hso : s.nextSo = 0) (space : Nat) :
    Cut (s.buildSduPdu sdu (newSi sdu space) space).1
      (addPdu (⟨sdu, []⟩ :: older) (s.buildSduPdu sdu (newSi sdu space) space).2) := by
  have hnew : Cutting s ⟨sdu, []⟩ s.txNext [] sdu :=
    ⟨rfl, rfl, nofun, fun h => absurd rfl h, hso, hsdu⟩
  rcases buildSduPdu_new_cases hso sdu space with ⟨-, heq⟩ | ⟨-, n, hn, hmore, heq⟩ | heq
  · rw [heq]
    refine ⟨hqueue, nofun, fun rest' hrest' => ?_⟩
    cases hrest'
    exact ⟨_, older, [], rfl, hnext, holder, hnew.sdu, hnew.pdus, hnew.nonempty, hnew.left,
      hso, hsdu⟩
  · rw [heq]
    refine ⟨hqueue, nofun, fun rest' hrest' => ?_⟩
    cases hrest'
    exact ⟨_, older, _, rfl, hnext, holder,
      hnew.piece hn hmore rfl rfl (by rw [hso]; exact (Nat.zero_add n).symm)⟩
  · rw [heq]
    refine ⟨hqueue, fun _ => ⟨?_, ?_, holder⟩, nofun⟩
    · show s.txNext = nextSn s.snSize (addTo ⟨sdu, []⟩ _ :: older)
      rw [nextSn_cons, if_neg, ← hnext]
      rw [addTo, List.nil_append, sentPdu_write, List.length_singleton]
      decide
    · exact sentAs_full s.snSize sdu

/-! ### Steps and runs -/

@[simp] theorem addPdu_nil (history : List SduHistory) : addPdu history [] = history := by
  cases history with
  | nil => rfl
  | cons e older => rw [addPdu, addTo, sentPdu_nil, List.append_nil]

/-- A call that takes no SDU and sends no PDU leaves the history. -/
theorem record_of_none {s : UmNrTx} {op : Op} (history : List SduHistory)
    (htaken : s.takenBy op = none) (hpdu : (s.step op).2 = []) : s.record op history = history := by
  rw [record, htaken, hpdu, addPdu_nil]
  rfl

theorem buildDataPdu_cases (s : UmNrTx) (nofBytes : Nat) :
    (s.takenBy (.buildDataPdu nofBytes) = none ∧ s.buildDataPdu nofBytes = (s, [])) ∨
    (∃ sdu, 2 ≤ nofBytes ∧ s.txSdu = some sdu ∧ s.takenBy (.buildDataPdu nofBytes) = none ∧
      s.buildDataPdu nofBytes
        = s.buildSduPdu sdu (s.nextSi sdu (pduSpace nofBytes)) (pduSpace nofBytes)) ∨
    (∃ sdu q, s.txSdu = none ∧ s.txSduQueue.read = (some sdu, q) ∧
      s.takenBy (.buildDataPdu nofBytes) = some sdu.bytes ∧
      s.buildDataPdu nofBytes = { s with txSduQueue := q, nextSo := 0 }.buildSduPdu sdu.bytes
        (newSi sdu.bytes (pduSpace nofBytes)) (pduSpace nofBytes)) := by
  unfold buildDataPdu takenBy
  by_cases htwo : nofBytes < 2
  · exact .inl ⟨if_pos (.inl htwo), if_pos htwo⟩
  · have htwo' : 2 ≤ nofBytes := Nat.le_of_not_lt htwo
    cases hsdu : s.txSdu with
    | some sdu =>
      exact .inr (.inl ⟨sdu, htwo', rfl, if_pos (.inr rfl), if_neg htwo⟩)
    | none =>
      have hboth : ¬ (nofBytes < 2 ∨ (none : Option Bytes).isSome = true) :=
        fun h => h.elim htwo Bool.false_ne_true
      rcases hread : s.txSduQueue.read with ⟨_ | sdu, q⟩
      · exact .inl ⟨if_neg hboth, if_neg htwo⟩
      · exact .inr (.inr ⟨sdu, q, rfl, rfl, if_neg hboth, if_neg htwo⟩)

theorem mem_acceptedBy {s : UmNrTx} {sdu sdu' : Bytes} (h : sdu' ∈ s.acceptedBy (.writeSdu sdu)) :
    sdu' = sdu := by
  rw [acceptedBy] at h
  cases hfull : s.txSduQueue.isFull with
  | true => simp [hfull] at h
  | false => simpa [hfull] using h

/-- The SDUs of a call fit a buffer. -/
def Op.Short : Op → Prop
  | .writeSdu sdu => sdu.length < 2 ^ 16
  | .buildDataPdu _ => True

/-- One call that meets the condition keeps the invariant. -/
theorem cut_step {s : UmNrTx} {history : List SduHistory} (h : Cut s history) {op : Op}
    (hshort : op.Short) (hop : Started s op) : Cut (s.step op).1 (s.record op history) := by
  cases op with
  | writeSdu sdu =>
    rw [record_of_none history rfl rfl]
    refine ⟨fun sdu' hsdu' => ?_, h.idle, fun rest hrest => ?_⟩
    · have hqueue : (s.writeSdu sdu).queueSdus
          = s.queueSdus ++ s.acceptedBy (.writeSdu sdu) := by
        cases hfull : s.txSduQueue.isFull with
        | true => simp [writeSdu, ByteBufferQueue.tryWrite, hfull, acceptedBy, queueSdus]
        | false => simp [writeSdu, ByteBufferQueue.tryWrite, hfull, acceptedBy, queueSdus]
      rw [show (s.step (.writeSdu sdu)).1 = s.writeSdu sdu from rfl, hqueue] at hsdu'
      rcases List.mem_append.mp hsdu' with hold | hnew
      · exact h.queue sdu' hold
      · rw [mem_acceptedBy hnew]
        exact hshort
    · obtain ⟨e, older, cur, hhistory, hnext, holder, hcut⟩ := h.busy rest hrest
      exact ⟨e, older, cur, hhistory, hnext, holder, hcut.sdu, hcut.pdus, hcut.nonempty, hcut.left,
        hcut.nextSo, hcut.short⟩
  | buildDataPdu nofBytes =>
    rcases s.buildDataPdu_cases nofBytes with ⟨htaken, heq⟩ | ⟨sdu, htwo, hsdu, htaken, heq⟩ |
      ⟨sdu, q, hsdu, hread, htaken, heq⟩
    · have hstep : s.step (.buildDataPdu nofBytes) = (s, []) := heq
      rw [record_of_none history htaken (by rw [hstep]), hstep]
      exact h
    · obtain ⟨e, older, cur, rfl, hnext, holder, hcut⟩ := h.busy sdu hsdu
      rw [record, htaken]
      show Cut (s.buildDataPdu nofBytes).1 (addPdu (e :: older) (s.buildDataPdu nofBytes).2)
      by_cases hcur : cur = []
      · -- Nothing was sent for the SDU yet, so there is no room for a PDU now.
        have hso : s.nextSo = 0 := by
          rw [hcut.nextSo, hcur]
          rfl
        have hsame : { s with txSdu := some sdu } = s := by rw [← hsdu]
        rw [heq, buildSduPdu, hop htwo sdu hsdu hso, if_neg Bool.false_ne_true, hsame, addPdu_nil]
        exact h
      · rw [heq]
        exact cut_busy h.queue hsdu hnext holder hcut hcur _
    · have hall := h.idle hsdu
      have hqueue := read_eq_some hread
      rw [record, htaken]
      show Cut (s.buildDataPdu nofBytes).1
        (addPdu (⟨sdu.bytes, []⟩ :: history) (s.buildDataPdu nofBytes).2)
      rw [heq]
      refine cut_fresh (s := { s with txSduQueue := q, nextSo := 0 })
        (fun sdu' hsdu' => h.queue sdu' ?_) (h.queue sdu.bytes ?_) hall.1 hall.2 rfl _
      · rw [hqueue]
        exact List.mem_cons_of_mem _ hsdu'
      · rw [hqueue]
        exact List.mem_cons_self

theorem snSize_buildSduPdu (s : UmNrTx) (sdu : Bytes) (si : SiField) (space : Nat) :
    (s.buildSduPdu sdu si space).1.snSize = s.snSize := by
  unfold buildSduPdu
  split <;> rfl

@[simp] theorem snSize_step (s : UmNrTx) (op : Op) : (s.step op).1.snSize = s.snSize := by
  cases op with
  | writeSdu sdu => rfl
  | buildDataPdu nofBytes =>
    show (s.buildDataPdu nofBytes).1.snSize = s.snSize
    rcases s.buildDataPdu_cases nofBytes with ⟨-, heq⟩ | ⟨sdu, -, -, -, heq⟩ | ⟨sdu, q, -, -, -, heq⟩
    · rw [heq]
    · rw [heq, snSize_buildSduPdu]
    · rw [heq, snSize_buildSduPdu]

theorem snSize_execOps (s : UmNrTx) (ops : List Op) : (s.execOps ops).snSize = s.snSize := by
  induction ops generalizing s with
  | nil => rfl
  | cons op ops ih => exact (ih (s.step op).1).trans (snSize_step s op)

/-- The state after `configure`. -/
theorem cut_init (snSize : UmNrSnSize) (txQueueLength : Nat) : Cut (init snSize txQueueLength) [] :=
  ⟨nofun, fun _ => ⟨(Nat.zero_mod _).symm, trivial⟩, nofun⟩

/-- A run whose grants meet the condition. -/
theorem cut_of_within {s : UmNrTx} {history : List SduHistory} (ops : List Op)
    (h : Cut s history) (hshort : ∀ op ∈ ops, op.Short)
    (hwithin : ExecWithin (fun s op => (s.step op).1) Started s ops) :
    Cut (s.execOps ops) (s.recordAll history ops) := by
  induction ops generalizing s history with
  | nil => exact h
  | cons op ops ih =>
    exact ih (cut_step h (hshort op List.mem_cons_self) hwithin.1)
      (fun op' hop' => hshort op' (List.mem_cons_of_mem _ hop')) hwithin.2

/-! ### A grant that comes too early -/

/-- The first PDU of the SDU is neither the SDU nor its first segment. -/
def BadStart (e : SduHistory) : Prop :=
  ∃ header data more, e.pdus = (UmNrHeader.write header ++ data) :: more ∧
    header.si ≠ .fullSdu ∧ header.si ≠ .firstSegment

theorem SentAs.not_badStart {snSize : UmNrSnSize} {sn : Nat} {e : SduHistory} {complete : Prop}
    (h : SentAs snSize sn e complete) : ¬ BadStart e := by
  rintro ⟨header, data, more, hpdus, hfull, hfirst⟩
  obtain ⟨cs, -, ⟨others, hprefix⟩, -, -⟩ := h
  rw [hpdus, List.cons_append] at hprefix
  obtain ⟨pdu, pdus, hall, hpdu, -⟩ := List.map_eq_cons_iff.mp hprefix.symm
  have hsi := congrArg (fun bytes : Bytes => bytes.head?.map fun b => SiField.ofBits (b.toNat / 64))
    hpdu
  simp only [pduBytes, UmNrHeader.head_write] at hsi
  rcases si_head_sduPdus hall with h0 | h0
  · exact hfull (Option.some.inj hsi ▸ h0)
  · exact hfirst (Option.some.inj hsi ▸ h0)

theorem Segmented.sentAs {snSize : UmNrSnSize} {idle : Prop} {history : List SduHistory}
    (h : Segmented snSize idle history) {e : SduHistory} (he : e ∈ history) :
    ∃ sn complete, SentAs snSize sn e complete := by
  induction history generalizing idle with
  | nil => cases he
  | cons e' older ih =>
    rcases List.mem_cons.mp he with rfl | he
    · exact ⟨_, _, h.1⟩
    · exact ih h.2 he

theorem badStart_addPdu {history : List SduHistory} (pdu : Bytes)
    (h : ∃ e ∈ history, BadStart e) : ∃ e ∈ addPdu history pdu, BadStart e := by
  obtain ⟨e, he, hbad⟩ := h
  cases history with
  | nil => cases he
  | cons e' older =>
    rcases List.mem_cons.mp he with rfl | he
    · obtain ⟨header, data, more, hpdus, hsi⟩ := hbad
      refine ⟨addTo e pdu, List.mem_cons_self, header, data, more ++ sentPdu pdu, ?_, hsi⟩
      rw [addTo, hpdus, List.cons_append]
    · exact ⟨e, List.mem_cons_of_mem _ he, hbad⟩

/-- Later calls do not take back a bad start. -/
theorem badStart_recordAll {s : UmNrTx} {history : List SduHistory} (ops : List Op)
    (h : ∃ e ∈ history, BadStart e) : ∃ e ∈ s.recordAll history ops, BadStart e := by
  induction ops generalizing s history with
  | nil => exact h
  | cons op ops ih =>
    refine ih (badStart_addPdu _ ?_)
    obtain ⟨e, he, hbad⟩ := h
    exact ⟨e, List.mem_append_right _ he, hbad⟩

/-- A grant with room for an SDU of which nothing was sent starts it with a later segment. -/
theorem badStart_record {s : UmNrTx} {history : List SduHistory} (h : Cut s history) {op : Op}
    (hop : ¬ Started s op) : ∃ e ∈ s.record op history, BadStart e := by
  cases op with
  | writeSdu sdu => exact absurd trivial hop
  | buildDataPdu nofBytes =>
    simp only [Started, Classical.not_forall, Bool.not_eq_false] at hop
    obtain ⟨htwo, sdu, hsdu, hso, hspace⟩ := hop
    obtain ⟨e, older, cur, rfl, -, -, hcut⟩ := h.busy sdu hsdu
    have hempty : cur = [] := by
      by_contra hcur
      have hzero := hcut.nextSo.symm.trans hso
      rw [← offset_length, offset_eq_zero_iff hcut.nonempty (Nat.le_refl _)] at hzero
      exact hcur (List.length_eq_zero_iff.mp hzero)
    have hstep : s.step (.buildDataPdu nofBytes)
        = s.sendPdu sdu (s.nextSi sdu (pduSpace nofBytes)) (pduSpace nofBytes) := by
      show s.buildDataPdu nofBytes = _
      rw [buildDataPdu, if_neg (by omega), hsdu]
      show s.buildSduPdu _ _ _ = _
      rw [buildSduPdu, if_pos hspace]
    have htaken : s.takenBy (.buildDataPdu nofBytes) = none := by
      rw [takenBy, hsdu, if_pos (.inr rfl)]
    rw [record, htaken, hstep]
    refine ⟨_, List.mem_cons_self, s.pduHeader (s.nextSi sdu (pduSpace nofBytes)),
      sdu.take (min (pduSpace nofBytes - (s.pduHeader
        (s.nextSi sdu (pduSpace nofBytes))).packedLength) sdu.length), [], ?_, ?_⟩
    · rw [addTo, hcut.pdus, hempty, sendPdu, sentPdu_write]
      rfl
    · show s.nextSi sdu (pduSpace nofBytes) ≠ _ ∧ s.nextSi sdu (pduSpace nofBytes) ≠ _
      unfold nextSi
      split <;> exact ⟨SiField.noConfusion, SiField.noConfusion⟩

/-- A run whose SDUs went out as they should has met the condition at each grant. -/
theorem within_of_segmented {s : UmNrTx} {history : List SduHistory} (ops : List Op)
    (h : Cut s history) (hshort : ∀ op ∈ ops, op.Short) {idle : Prop}
    (hall : Segmented s.snSize idle (s.recordAll history ops)) :
    ExecWithin (fun s op => (s.step op).1) Started s ops := by
  induction ops generalizing s history with
  | nil => trivial
  | cons op ops ih =>
    have hop : Started s op := by
      by_contra hop
      obtain ⟨e, he, hbad⟩ := badStart_recordAll (s := (s.step op).1) ops (badStart_record h hop)
      obtain ⟨sn, complete, hsent⟩ := hall.sentAs he
      exact hsent.not_badStart hbad
    refine ⟨hop, ih (cut_step h (hshort op List.mem_cons_self) hop)
      (fun op' hop' => hshort op' (List.mem_cons_of_mem _ hop')) ?_⟩
    rw [snSize_step]
    exact hall

/-! ### The SDUs of a run -/

/-- The SDUs of a history, in the order in which they were taken. -/
def takenSdus (history : List SduHistory) : List Bytes := (history.map SduHistory.sdu).reverse

/-- The PDUs of a history, in the order in which they were sent. -/
def historyPdus (history : List SduHistory) : List Bytes := (history.map SduHistory.pdus).reverse.flatten

theorem takenSdus_addPdu (history : List SduHistory) (pdu : Bytes) :
    takenSdus (addPdu history pdu) = takenSdus history := by
  cases history <;> rfl

/-- No SDU is lost between the queue and the history, and none moves. -/
theorem takenSdus_record (s : UmNrTx) (op : Op) (history : List SduHistory) :
    takenSdus (s.record op history) ++ (s.step op).1.queueSdus
      = takenSdus history ++ s.queueSdus ++ s.acceptedBy op := by
  rw [record, takenSdus_addPdu]
  cases op with
  | writeSdu sdu =>
    show takenSdus history ++ (s.writeSdu sdu).queueSdus = _
    rw [List.append_assoc]
    congr 1
    cases hfull : s.txSduQueue.isFull with
    | true => simp [writeSdu, ByteBufferQueue.tryWrite, hfull, acceptedBy, queueSdus]
    | false => simp [writeSdu, ByteBufferQueue.tryWrite, hfull, acceptedBy, queueSdus]
  | buildDataPdu nofBytes =>
    have hqueue : ∀ (t : UmNrTx) sdu si space,
        (t.buildSduPdu sdu si space).1.queueSdus = t.queueSdus := by
      intro t sdu si space
      unfold buildSduPdu
      split <;> rfl
    rw [acceptedBy, List.append_nil]
    show _ ++ (s.buildDataPdu nofBytes).1.queueSdus = _
    rcases s.buildDataPdu_cases nofBytes with ⟨htaken, heq⟩ | ⟨sdu, -, -, htaken, heq⟩ |
      ⟨sdu, q, -, hread, htaken, heq⟩
    · rw [htaken, heq]
      rfl
    · rw [htaken, heq, hqueue]
      rfl
    · rw [htaken, heq, hqueue, read_eq_some hread]
      simp [takenSdus, queueSdus]

/-- The SDUs leave the queue in the order in which they were accepted. -/
theorem takenSdus_recordAll (s : UmNrTx) (history : List SduHistory) (ops : List Op) :
    takenSdus (s.recordAll history ops) ++ (s.execOps ops).queueSdus
      = takenSdus history ++ s.queueSdus ++ s.acceptedSdus ops := by
  induction ops generalizing s history with
  | nil => simp [recordAll, acceptedSdus, execOps]
  | cons op ops ih =>
    show takenSdus ((s.step op).1.recordAll (s.record op history) ops)
      ++ ((s.step op).1.execOps ops).queueSdus = _
    rw [ih, takenSdus_record, acceptedSdus, List.append_assoc]

/-- An SDU in transmission is in front of the history. -/
def Tracked (s : UmNrTx) (history : List SduHistory) : Prop := s.txSdu ≠ none → history ≠ []

theorem historyPdus_addPdu {history : List SduHistory} {pdu : Bytes}
    (h : pdu ≠ [] → history ≠ []) :
    historyPdus (addPdu history pdu) = historyPdus history ++ sentPdu pdu := by
  cases history with
  | nil =>
    have hempty : pdu = [] := by
      by_contra hne
      exact h hne rfl
    rw [hempty]
    rfl
  | cons e older => simp [historyPdus, addPdu, addTo]

theorem addPdu_ne_nil {history : List SduHistory} (pdu : Bytes) (h : history ≠ []) :
    addPdu history pdu ≠ [] := by
  cases history with
  | nil => exact absurd rfl h
  | cons e older => exact List.cons_ne_nil _ _

theorem historyPdus_record {s : UmNrTx} {history : List SduHistory} (h : Tracked s history)
    (op : Op) : Tracked (s.step op).1 (s.record op history) ∧
      historyPdus (s.record op history) = historyPdus history ++ sentPdu (s.step op).2 := by
  cases op with
  | writeSdu sdu =>
    rw [record_of_none history rfl rfl]
    exact ⟨h, (List.append_nil _).symm⟩
  | buildDataPdu nofBytes =>
    rcases s.buildDataPdu_cases nofBytes with ⟨htaken, heq⟩ | ⟨sdu, -, hsdu, htaken, heq⟩ |
      ⟨sdu, q, -, -, htaken, -⟩
    · have hstep : s.step (.buildDataPdu nofBytes) = (s, []) := heq
      rw [record_of_none history htaken (by rw [hstep]), hstep]
      exact ⟨h, (List.append_nil _).symm⟩
    · have hne : history ≠ [] := h (by rw [hsdu]; nofun)
      rw [record, htaken]
      exact ⟨fun _ => addPdu_ne_nil _ hne, historyPdus_addPdu fun _ => hne⟩
    · have hne : (⟨sdu.bytes, []⟩ : SduHistory) :: history ≠ [] := List.cons_ne_nil _ _
      rw [record, htaken]
      refine ⟨fun _ => addPdu_ne_nil _ hne, (historyPdus_addPdu fun _ => hne).trans ?_⟩
      simp [historyPdus]

theorem historyPdus_recordAll {s : UmNrTx} {history : List SduHistory} (h : Tracked s history)
    (ops : List Op) :
    historyPdus (s.recordAll history ops) = historyPdus history ++ s.sentPdus ops := by
  induction ops generalizing s history with
  | nil => exact (List.append_nil _).symm
  | cons op ops ih =>
    obtain ⟨htracked, hpdus⟩ := historyPdus_record h op
    show historyPdus ((s.step op).1.recordAll (s.record op history) ops) = _
    rw [ih htracked, hpdus, List.append_assoc]
    rfl

/-! ### Every run -/

/-- `SRSRAN_MAX_BUFFER_SIZE_BYTES` -/
abbrev maxBufferSize : Nat := bufferTailroom + 1020

/-- What the PDUs of a run have to be. Each PDU belongs to an SDU of the history, and the history
has the accepted SDUs in their order. Each SDU went out as it is or as a chain of segments. -/
structure SegmentsSdus (s : UmNrTx) (ops : List Op) : Prop where
  sdus : takenSdus (s.history ops) ++ (s.execOps ops).queueSdus = s.queueSdus ++ s.acceptedSdus ops
  pdus : historyPdus (s.history ops) = s.sentPdus ops
  segmented : Segmented s.snSize ((s.execOps ops).txSdu = none) (s.history ops)

end UmNrTx

end Odss.Rlc
