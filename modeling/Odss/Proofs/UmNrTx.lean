import Odss.Lib.Chunks
import Odss.Lib.Run
import Odss.Rlc.UmNr

/-!
# `Odss.Proofs.UmNrTx`: what the NR UM transmitter sends

The transmitter sends an SDU as it is, or cuts it into chunks that share an SN. A `Plan` is
the list of the chunk lists, one for each SDU that was cut, in the order of the SNs. An `Item`
is a PDU as the plan sees it.

* `FreshFits` is the condition on a grant for a new SDU: the header and two bytes fit, and a
  cut SDU leaves room for the header in the buffer of the receiver.
* `Sent` says what was sent so far. `sent_step` is the step of it.
* `sentAll_of_within` is the run: the PDUs are the items of a plan for the SDUs that left the
  queue.
-/

set_option linter.all false

namespace Odss.Rlc

open Odss.Lib

/-! ### The header -/

theorem UmNrHeader.length_write (header : UmNrHeader) :
    header.write.length = header.packedLength := by
  unfold write packedLength
  split
  · rfl
  · rw [List.length_append]
    congr 1
    · cases header.snSize <;> rfl
    · split <;> rfl

/-! ### Items -/

/-- The chunks of the SDUs that were cut. -/
abbrev Plan := List (List Bytes)

/-- The chunks of the SDU number `i`. -/
def Plan.chunks (plan : Plan) (i : Nat) : List Bytes := (plan[i]?).getD []

/-- A PDU on its way: an SDU, or the chunk `j` of the SDU number `i` of the plan. -/
inductive Item where
  | full (sdu : Bytes)
  | segment (i j : Nat)
deriving DecidableEq, Repr

/-- The segmentation information of the chunk `j`. -/
def segmentSi (cs : List Bytes) (j : Nat) : SiField :=
  if j = 0 then .firstSegment
  else if j + 1 = cs.length then .lastSegment
  else .neitherFirstNorLastSegment

/-- The header of the chunk `j` of an SDU with the SN `sn`. -/
def segmentHeader (snSize : UmNrSnSize) (sn : Nat) (cs : List Bytes) (j : Nat) : UmNrHeader :=
  ⟨segmentSi cs j, snSize, sn, offset cs j⟩

/-- The SN of the SDU number `i`, when the first one has the SN `base`. -/
def snOf (snSize : UmNrSnSize) (base i : Nat) : Nat := (base + i) % snSize.mod

/-- The bytes of an item. -/
def Item.bytes (snSize : UmNrSnSize) (base : Nat) (plan : Plan) : Item → Bytes
  | .full sdu => (UmNrHeader.mk .fullSdu snSize 0 0).write ++ sdu
  | .segment i j =>
    (segmentHeader snSize (snOf snSize base i) (plan.chunks i) j).write ++ chunk (plan.chunks i) j

/-- The SDU of a full item. -/
def Item.sdu? : Item → Option Bytes
  | .full sdu => some sdu
  | .segment _ _ => none

/-- The place of a segment in the plan. -/
def Item.key? : Item → Option (Nat × Nat)
  | .full _ => none
  | .segment i j => some (i, j)

@[simp] theorem Item.sdu?_full (sdu : Bytes) : (Item.full sdu).sdu? = some sdu := rfl

@[simp] theorem Item.sdu?_segment (i j : Nat) : (Item.segment i j).sdu? = none := rfl

@[simp] theorem Item.key?_full (sdu : Bytes) : (Item.full sdu).key? = none := rfl

@[simp] theorem Item.key?_segment (i j : Nat) : (Item.segment i j).key? = some (i, j) := rfl

/-- The places of the chunks of a plan. -/
def Plan.keys (plan : Plan) : List (Nat × Nat) :=
  (List.range plan.length).flatMap fun i =>
    (List.range (plan.chunks i).length).map fun j => (i, j)

theorem Plan.mem_keys {plan : Plan} {i j : Nat} :
    (i, j) ∈ plan.keys ↔ i < plan.length ∧ j < (plan.chunks i).length := by
  simp only [keys, List.mem_flatMap, List.mem_range, List.mem_map, Prod.mk.injEq]
  constructor
  · rintro ⟨i', hi, j', hj, rfl, rfl⟩
    exact ⟨hi, hj⟩
  · rintro ⟨hi, hj⟩
    exact ⟨i, hi, j, hj, rfl, rfl⟩

theorem Plan.nodup_keys (plan : Plan) : plan.keys.Nodup := by
  refine List.nodup_flatMap.mpr ⟨fun i _ => ?_, ?_⟩
  · exact List.Nodup.map (fun j j' h => (Prod.mk.inj h).2) List.nodup_range
  · refine List.Pairwise.imp ?_ (List.nodup_range (n := plan.length))
    intro i i' hne p hp hp'
    obtain ⟨j, -, rfl⟩ := List.mem_map.mp hp
    obtain ⟨j', -, hj'⟩ := List.mem_map.mp hp'
    exact hne (Prod.mk.inj hj').1.symm

theorem Plan.chunks_mem {plan : Plan} {i : Nat} (h : i < plan.length) : plan.chunks i ∈ plan := by
  rw [chunks, List.getElem?_eq_getElem h]
  exact List.getElem_mem h

theorem Plan.chunks_append_of_lt (plan : Plan) (more : Plan) {i : Nat} (h : i < plan.length) :
    (plan ++ more).chunks i = plan.chunks i := by
  rw [chunks, List.getElem?_append_left h, chunks]

theorem Plan.chunks_append_length (plan : Plan) (cs : List Bytes) :
    (plan ++ [cs]).chunks plan.length = cs := by
  rw [chunks, List.getElem?_append_right (Nat.le_refl _), Nat.sub_self]
  rfl

theorem Plan.keys_append (plan : Plan) (cs : List Bytes) :
    (plan ++ [cs]).keys = plan.keys ++ (List.range cs.length).map fun j => (plan.length, j) := by
  rw [keys, List.length_append, List.length_singleton, List.range_succ, List.flatMap_append,
    List.flatMap_singleton, chunks_append_length, keys]
  congr 1
  refine List.flatMap_congr fun i hi => ?_
  rw [chunks_append_of_lt plan [cs] (List.mem_range.mp hi)]

/-- The chunks behind `j` do not concern the PDU of the chunk `j`, as long as there is one. -/
theorem segment_congr (snSize : UmNrSnSize) (sn : Nat) (cs : List Bytes) {as bs : List Bytes}
    (ha : as ≠ []) (hb : bs ≠ []) {j : Nat} (h : j < cs.length) :
    (segmentHeader snSize sn (cs ++ as) j).write ++ chunk (cs ++ as) j =
      (segmentHeader snSize sn (cs ++ bs) j).write ++ chunk (cs ++ bs) j := by
  have hsi : ∀ ds : List Bytes, ds ≠ [] → segmentSi (cs ++ ds) j
      = if j = 0 then .firstSegment else .neitherFirstNorLastSegment := by
    intro ds hds
    have hpos := List.length_pos_of_ne_nil hds
    have hnot : j + 1 ≠ (cs ++ ds).length := by
      rw [List.length_append]
      omega
    rw [segmentSi, if_neg hnot]
  rw [segmentHeader, segmentHeader, hsi as ha, hsi bs hb, offset_append_of_le as (Nat.le_of_lt h),
    offset_append_of_le bs (Nat.le_of_lt h), chunk_append_of_lt as h, chunk_append_of_lt bs h]

/-- An SDU that is cut has two chunks at least, none of them empty, and fits behind the header
of its first segment. -/
structure WellCut (snSize : UmNrSnSize) (cs : List Bytes) : Prop where
  two : 2 ≤ cs.length
  nonempty : ∀ c ∈ cs, c ≠ []
  fits : cs.flatten.length + (UmNrHeader.mk .firstSegment snSize 0 0).packedLength ≤ bufferTailroom

namespace UmNrTx

/-! ### What was sent -/

/-- The chunks of the SDU in transmission: those that were sent, and the rest. -/
def current (s : UmNrTx) (cur : List Bytes) : Plan :=
  match s.txSdu with
  | none => []
  | some rest => [cur ++ [rest]]

/-- The SDUs in the queue. -/
def queueSdus (s : UmNrTx) : List Bytes := s.txSduQueue.queue.filterMap fun e => e.map Sdu.bytes

/-- What was sent until the state `s`: `plan` has the SDUs that were cut and sent completely,
and `cur` the chunks of the SDU in transmission that were sent. -/
structure Sending (snSize : UmNrSnSize) (base : Nat) (s : UmNrTx) (accepted out : List Bytes)
    (items : List Item) (plan : Plan) (cur : List Bytes) : Prop where
  snSizeEq : s.snSize = snSize
  txNextEq : s.txNext = snOf snSize base plan.length
  outEq : out = items.map (Item.bytes snSize base (plan ++ s.current cur))
  keysEq : items.filterMap Item.key? =
    plan.keys ++ (List.range cur.length).map fun j => (plan.length, j)
  idle : s.txSdu = none → cur = []
  busy : ∀ rest, s.txSdu = some rest → rest ≠ [] ∧ cur ≠ [] ∧ s.nextSo = cur.flatten.length ∧
    cur.flatten.length + rest.length + s.headLenFirst ≤ bufferTailroom
  planCut : ∀ cs ∈ plan, WellCut snSize cs
  curNonempty : ∀ c ∈ cur, c ≠ []
  sdus : (items.filterMap Item.sdu? ++ plan.map List.flatten ++
    (s.current cur).map List.flatten ++ s.queueSdus).Perm accepted

/-- Between two SDUs nothing was sent yet. -/
theorem sending_idle {s : UmNrTx} (hidle : s.txSdu = none) (hnext : s.txNext < s.snSize.mod) :
    Sending s.snSize s.txNext s s.queueSdus [] [] [] [] where
  snSizeEq := rfl
  txNextEq := (Nat.mod_eq_of_lt hnext).symm
  outEq := rfl
  keysEq := rfl
  idle := fun _ => rfl
  busy := fun _ h => by cases hidle.symm.trans h
  planCut := fun _ h => absurd h List.not_mem_nil
  curNonempty := fun _ h => absurd h List.not_mem_nil
  sdus := by
    rw [current, hidle]
    exact List.Perm.refl _

/-- The PDUs that were sent depend on the plan through their own chunks. -/
theorem map_bytes_congr {snSize : UmNrSnSize} {base : Nat} {plan plan' : Plan} {items : List Item}
    (h : ∀ i j, (i, j) ∈ items.filterMap Item.key? →
      Item.bytes snSize base plan (.segment i j) = Item.bytes snSize base plan' (.segment i j)) :
    items.map (Item.bytes snSize base plan) = items.map (Item.bytes snSize base plan') := by
  refine List.map_congr_left fun item hitem => ?_
  cases item with
  | full sdu => rfl
  | segment i j => exact h i j (List.mem_filterMap.mpr ⟨_, hitem, rfl⟩)

/-- The PDU of the chunk `c` that follows the chunks `cur`. -/
theorem bytes_next (snSize : UmNrSnSize) (base : Nat) (plan : Plan) (cur : List Bytes) (c : Bytes)
    (more : List Bytes) :
    Item.bytes snSize base (plan ++ [cur ++ c :: more]) (.segment plan.length cur.length)
      = (UmNrHeader.mk (segmentSi (cur ++ c :: more) cur.length) snSize
          (snOf snSize base plan.length) cur.flatten.length).write ++ c := by
  rw [Item.bytes, Plan.chunks_append_length, segmentHeader, chunk_append_length,
    offset_append_of_le _ (Nat.le_refl _), offset_length]

theorem segmentSi_last {cur : List Bytes} (h : cur ≠ []) (c : Bytes) :
    segmentSi (cur ++ [c]) cur.length = .lastSegment := by
  have hpos := List.length_pos_of_ne_nil h
  rw [segmentSi, if_neg (by omega), if_pos (by rw [List.length_append, List.length_singleton])]

theorem segmentSi_next (cur : List Bytes) (c rest : Bytes) :
    segmentSi (cur ++ [c, rest]) cur.length
      = if cur.length = 0 then .firstSegment else .neitherFirstNorLastSegment := by
  have hnot : cur.length + 1 ≠ (cur ++ [c, rest]).length := by
    simp
  rw [segmentSi, if_neg hnot]

section Step

variable {snSize : UmNrSnSize} {base : Nat} {s : UmNrTx} {accepted out : List Bytes}
  {items : List Item} {plan : Plan} {cur : List Bytes}

/-- Another chunk of the SDU in transmission is cut off. It is the first one of the SDU when
no chunk was sent before. -/
theorem Sending.cut (h : Sending snSize base s accepted out items plan cur) (s' : UmNrTx)
    {c rest : Bytes} {si : SiField} (hsi : segmentSi (cur ++ [c, rest]) cur.length = si) (hc : c ≠ []) (hrest : rest ≠ [])
    (hsdu : s'.txSdu = some rest) (hsnSize : s'.snSize = snSize)
    (htxNext : s'.txNext = s.txNext) (hso : s'.nextSo = cur.flatten.length + c.length)
    (hfits : cur.flatten.length + (c ++ rest).length + s'.headLenFirst ≤ bufferTailroom)
    (hold : s.txSdu = some (c ++ rest) ∨ cur = [])
    (hsdus : (items.filterMap Item.sdu? ++ plan.map List.flatten ++
      [cur.flatten ++ (c ++ rest)] ++ s'.queueSdus).Perm accepted) :
    Sending snSize base s' accepted
      (out ++ [(UmNrHeader.mk si snSize s.txNext cur.flatten.length).write ++ c])
      (items ++ [.segment plan.length cur.length]) plan (cur ++ [c]) := by
  have hcurrent : s'.current (cur ++ [c]) = [cur ++ [c, rest]] := by
    simp [current, hsdu]
  have hsame : items.map (Item.bytes snSize base (plan ++ s.current cur))
      = items.map (Item.bytes snSize base (plan ++ [cur ++ [c, rest]])) := by
    refine map_bytes_congr fun i j hij => ?_
    rw [h.keysEq] at hij
    rcases List.mem_append.mp hij with hij | hij
    · have hi := (Plan.mem_keys.mp hij).1
      rw [Item.bytes, Item.bytes, Plan.chunks_append_of_lt _ _ hi, Plan.chunks_append_of_lt _ _ hi]
    · obtain ⟨j', hj', heq⟩ := List.mem_map.mp hij
      obtain ⟨rfl, rfl⟩ := Prod.mk.inj heq
      rcases hold with hold | rfl
      · have hbefore : s.current cur = [cur ++ [c ++ rest]] := by rw [current, hold]
        rw [hbefore, Item.bytes, Item.bytes, Plan.chunks_append_length, Plan.chunks_append_length]
        exact segment_congr _ _ _ (List.cons_ne_nil _ _) (List.cons_ne_nil _ _)
          (List.mem_range.mp hj')
      · exact absurd hj' List.not_mem_nil
  refine ⟨hsnSize, htxNext.trans h.txNextEq, ?_, ?_, fun hnone => ?_, fun rest' hsome => ?_, h.planCut,
    fun d hd => ?_, ?_⟩
  · rw [hcurrent, List.map_append, List.map_singleton, bytes_next, ← hsame, ← h.outEq, hsi,
      h.txNextEq]
  · rw [List.filterMap_append, h.keysEq, List.length_append, List.length_singleton, List.range_succ,
      List.map_append, List.append_assoc]
    rfl
  · rw [hsdu] at hnone
    cases hnone
  · rw [hsdu] at hsome
    cases hsome
    refine ⟨hrest, by simp, ?_, ?_⟩
    · rw [hso, List.flatten_append, List.length_append, List.flatten_singleton]
    · rw [List.flatten_append, List.length_append, List.flatten_singleton]
      rw [List.length_append] at hfits
      omega
  · rcases List.mem_append.mp hd with hd | hd
    · exact h.curNonempty d hd
    · rw [List.mem_singleton.mp hd]
      exact hc
  · rw [hcurrent, List.filterMap_append]
    simpa [List.filterMap_cons] using hsdus

/-- The rest of the SDU in transmission goes out as its last chunk. -/
theorem Sending.finish (h : Sending snSize base s accepted out items plan cur) (s' : UmNrTx)
    {rest : Bytes} (hbusy : s.txSdu = some rest) (hsdu : s'.txSdu = none)
    (hsnSize : s'.snSize = snSize) (htxNext : s'.txNext = (s.txNext + 1) % snSize.mod)
    (hqueue : s'.queueSdus = s.queueSdus) :
    Sending snSize base s' accepted
      (out ++ [(UmNrHeader.mk .lastSegment snSize s.txNext cur.flatten.length).write ++ rest])
      (items ++ [.segment plan.length cur.length]) (plan ++ [cur ++ [rest]]) [] := by
  obtain ⟨hrest, hcur, -, hfits⟩ := h.busy rest hbusy
  have hbefore : s.current cur = [cur ++ [rest]] := by rw [current, hbusy]
  have hafter : s'.current [] = [] := by rw [current, hsdu]
  refine ⟨hsnSize, ?_, ?_, ?_, fun _ => rfl, fun rest' hsome => ?_, fun cs hcs => ?_,
    fun c hc => absurd hc List.not_mem_nil, ?_⟩
  · rw [htxNext, h.txNextEq, snOf, snOf, List.length_append, List.length_singleton, Nat.mod_add_mod,
      Nat.add_assoc]
  · rw [hafter, List.append_nil, List.map_append, List.map_singleton, bytes_next,
      segmentSi_last hcur, h.outEq, hbefore, h.txNextEq]
  · rw [List.filterMap_append, h.keysEq, Plan.keys_append, List.length_append,
      List.length_singleton, List.range_succ, List.map_append]
    simp
  · rw [hsdu] at hsome
    cases hsome
  · rcases List.mem_append.mp hcs with hcs | hcs
    · exact h.planCut cs hcs
    · rw [List.mem_singleton.mp hcs]
      have hpos := List.length_pos_of_ne_nil hcur
      refine ⟨?_, fun c hc => ?_, ?_⟩
      · rw [List.length_append, List.length_singleton]
        omega
      · rcases List.mem_append.mp hc with hc | hc
        · exact h.curNonempty c hc
        · rw [List.mem_singleton.mp hc]
          exact hrest
      · rw [List.flatten_append, List.flatten_singleton, List.length_append, ← h.snSizeEq]
        exact hfits
  · have hsdus := h.sdus
    rw [hbefore] at hsdus
    rw [hafter, List.filterMap_append, hqueue]
    simpa [List.filterMap_cons] using hsdus

/-- An SDU goes out as it is. -/
theorem Sending.full (h : Sending snSize base s accepted out items plan cur)
    (hidle : s.txSdu = none) (s' : UmNrTx) {sdu : Bytes} (hsdu : s'.txSdu = none)
    (hsnSize : s'.snSize = snSize) (htxNext : s'.txNext = s.txNext)
    (hqueue : s.queueSdus = sdu :: s'.queueSdus) :
    Sending snSize base s' accepted
      (out ++ [(UmNrHeader.mk .fullSdu snSize 0 0).write ++ sdu]) (items ++ [.full sdu]) plan [] := by
  obtain rfl := h.idle hidle
  have hbefore : s.current [] = [] := by rw [current, hidle]
  have hafter : s'.current [] = [] := by rw [current, hsdu]
  refine ⟨hsnSize, htxNext.trans h.txNextEq, ?_, ?_, fun _ => rfl, fun rest hsome => ?_, h.planCut,
    h.curNonempty, ?_⟩
  · rw [hafter, List.map_append, ← hbefore, ← h.outEq]
    rfl
  · rw [List.filterMap_append, h.keysEq]
    simp
  · rw [hsdu] at hsome
    cases hsome
  · have hsdus := h.sdus
    rw [hbefore, hqueue] at hsdus
    rw [hafter, List.filterMap_append]
    refine List.Perm.trans ?_ hsdus
    simp only [List.filterMap_cons, Item.sdu?_full, List.filterMap_nil, List.map_nil,
      List.append_nil, List.append_assoc, List.singleton_append]
    exact List.Perm.append_left _ List.perm_middle.symm

/-- A call that sends nothing. -/
theorem Sending.keep (h : Sending snSize base s accepted out items plan cur) (s' : UmNrTx)
    (hsdu : s'.txSdu = s.txSdu) (hsnSize : s'.snSize = s.snSize) (htxNext : s'.txNext = s.txNext)
    (hso : s'.nextSo = s.nextSo) {accepted' : List Bytes} (more : List Bytes)
    (hqueue : s'.queueSdus = s.queueSdus ++ more) (haccepted : accepted' = accepted ++ more) :
    Sending snSize base s' accepted' out items plan cur := by
  have hcurrent : s'.current cur = s.current cur := by rw [current, hsdu, current]
  have hhead : s'.headLenFirst = s.headLenFirst := by rw [headLenFirst, hsnSize, headLenFirst]
  refine ⟨hsnSize.trans h.snSizeEq, htxNext.trans h.txNextEq, by rw [hcurrent, h.outEq], h.keysEq,
    fun hnone => h.idle (hsdu ▸ hnone), fun rest hsome => ?_, h.planCut, h.curNonempty, ?_⟩
  · rw [hso, hhead]
    exact h.busy rest (hsdu ▸ hsome)
  · rw [hcurrent, hqueue, haccepted, ← List.append_assoc]
    exact List.Perm.append_right more h.sdus

end Step

/-! ### Steps and runs -/

/-- The condition on a grant for a new SDU: the header and two bytes fit, and an SDU that is cut
fits a buffer behind the header of its first segment. -/
def FreshFits (s : UmNrTx) : Op → Prop
  | .writeSdu _ => True
  | .buildDataPdu nofBytes => 2 ≤ nofBytes → s.txSdu = none →
    ∀ sdu q, s.txSduQueue.read = (some sdu, q) →
      hasSpace ⟨newSi sdu.bytes (pduSpace nofBytes), s.snSize, s.txNext, 0⟩ (pduSpace nofBytes)
          = true ∧
        (newSi sdu.bytes (pduSpace nofBytes) = .firstSegment →
          sdu.bytes.length + s.headLenFirst ≤ bufferTailroom)

/-- The SDU that a call puts into the queue. -/
def acceptedBy (s : UmNrTx) : Op → List Bytes
  | .writeSdu sdu => if s.txSduQueue.isFull then [] else [sdu]
  | .buildDataPdu _ => []

/-- The PDU of a call. No bytes are no PDU. -/
def sentPdu (bytes : Bytes) : List Bytes := if bytes.isEmpty then [] else [bytes]

theorem sentPdu_write (header : UmNrHeader) (data : Bytes) :
    sentPdu (header.write ++ data) = [header.write ++ data] := by
  have hne : header.write ≠ [] := by
    unfold UmNrHeader.write
    split
    · exact List.cons_ne_nil _ _
    · split <;> exact List.cons_ne_nil _ _
  rw [sentPdu, if_neg]
  simp [hne]

/-- What was sent, with some plan. -/
def Sent (snSize : UmNrSnSize) (base : Nat) (s : UmNrTx) (accepted out : List Bytes) : Prop :=
  ∃ items plan cur, Sending snSize base s accepted out items plan cur

theorem read_eq_some {s : UmNrTx} {sdu : Sdu} {q : ByteBufferQueue}
    (h : s.txSduQueue.read = (some sdu, q)) :
    s.queueSdus = sdu.bytes :: q.queue.filterMap fun e => e.map Sdu.bytes := by
  unfold ByteBufferQueue.read at h
  split at h
  · cases h
  · rename_i entry rest hqueue
    cases h
    rw [queueSdus, hqueue, List.filterMap_cons]
    rfl

theorem restOf_all (sdu : Bytes) : restOf sdu sdu.length = none := by
  rw [restOf, List.drop_length]
  rfl

theorem restOf_of_lt {sdu : Bytes} {n : Nat} (h : n < sdu.length) :
    restOf sdu n = some (sdu.drop n) := by
  rw [restOf, if_neg]
  simpa using h

theorem packedLength_segment (s : UmNrTx) {si : SiField} (hsi : si ≠ .fullSdu) {sn so : Nat}
    (hso : so ≠ 0) : (UmNrHeader.mk si s.snSize sn so).packedLength = s.headLenSegment := by
  simp [UmNrHeader.packedLength, headLenSegment, hsi, hso]

theorem packedLength_first (s : UmNrTx) (sn : Nat) :
    (UmNrHeader.mk .firstSegment s.snSize sn 0).packedLength = s.headLenFirst := rfl

/-- A grant for an SDU that has lost `so` bytes: no room, a part of the rest, or all of it. -/
theorem buildSduPdu_next_cases {s : UmNrTx} {so : Nat} (hso : s.nextSo % 2 ^ 16 = so)
    (hpos : so ≠ 0) (rest : Bytes) (space : Nat) :
    s.buildSduPdu rest (s.nextSi rest space) space = ({ s with txSdu := some rest }, []) ∨
    (∃ n, 0 < n ∧ n < rest.length ∧ s.buildSduPdu rest (s.nextSi rest space) space =
      ({ s with txSdu := some (rest.drop n), nextSo := s.nextSo + n },
        (UmNrHeader.mk .neitherFirstNorLastSegment s.snSize s.txNext so).write ++ rest.take n)) ∨
    s.buildSduPdu rest (s.nextSi rest space) space =
      ({ s with txSdu := none, txNext := (s.txNext + 1) % s.snSize.mod, nextSo := 0 },
        (UmNrHeader.mk .lastSegment s.snSize s.txNext so).write ++ rest) := by
  have hne : s.nextSi rest space ≠ .fullSdu := by
    unfold nextSi
    split <;> exact SiField.noConfusion
  have hheader : s.pduHeader (s.nextSi rest space)
      = ⟨s.nextSi rest space, s.snSize, s.txNext, so⟩ := by
    rw [pduHeader, hso]
  have hlength : (s.pduHeader (s.nextSi rest space)).packedLength = s.headLenSegment := by
    rw [hheader, packedLength_segment s hne hpos]
  unfold buildSduPdu
  split
  · rename_i hspace
    rw [hasSpace, hlength] at hspace
    have hspace := of_decide_eq_true hspace
    have hsub : subU32 space s.headLenSegment = space - s.headLenSegment := if_pos (by omega)
    rw [sendPdu, hlength, hheader]
    rcases Nat.lt_or_ge (space - s.headLenSegment) rest.length with hmore | hlast
    · have hsi : s.nextSi rest space = .neitherFirstNorLastSegment := by
        rw [nextSi, hsub, if_neg (by omega)]
      refine .inr (.inl ⟨space - s.headLenSegment, by omega, hmore, ?_⟩)
      rw [Nat.min_eq_left (Nat.le_of_lt hmore), hsi, restOf_of_lt hmore]
      rfl
    · have hsi : s.nextSi rest space = .lastSegment := by
        rw [nextSi, hsub, if_pos hlast]
      refine .inr (.inr ?_)
      rw [Nat.min_eq_right hlast, restOf_all, List.take_length, hsi]
      rfl
  · exact .inl rfl

/-- A grant for a new SDU: no room, a first segment, or the SDU in full. -/
theorem buildSduPdu_new_cases {s : UmNrTx} (hso : s.nextSo = 0) (sdu : Bytes) (space : Nat) :
    (hasSpace ⟨newSi sdu space, s.snSize, s.txNext, 0⟩ space = false ∧
      s.buildSduPdu sdu (newSi sdu space) space = ({ s with txSdu := some sdu }, [])) ∨
    (newSi sdu space = .firstSegment ∧ ∃ n, 0 < n ∧ n < sdu.length ∧
      s.buildSduPdu sdu (newSi sdu space) space =
        ({ s with txSdu := some (sdu.drop n), nextSo := n },
          (UmNrHeader.mk .firstSegment s.snSize s.txNext 0).write ++ sdu.take n)) ∨
    s.buildSduPdu sdu (newSi sdu space) space =
      ({ s with txSdu := none, nextSo := sdu.length },
        (UmNrHeader.mk .fullSdu s.snSize 0 0).write ++ sdu) := by
  have hheader : s.pduHeader (newSi sdu space) = ⟨newSi sdu space, s.snSize, s.txNext, 0⟩ := by
    rw [pduHeader, hso, Nat.zero_mod]
  unfold buildSduPdu
  rw [hheader]
  split
  · rename_i hspace
    rw [hasSpace] at hspace
    have hroom := of_decide_eq_true hspace
    have hsub : subU32 space headLenFull = space - headLenFull := if_pos (show 1 ≤ space by omega)
    rw [sendPdu, hheader, hso]
    rcases Nat.lt_or_ge (space - headLenFull) sdu.length with hmore | hall
    · have hsi : newSi sdu space = .firstSegment := by
        rw [newSi, hsub, if_neg (by omega)]
      rw [hsi, packedLength_first] at hroom
      have hhead : 1 ≤ s.headLenFirst := by
        unfold headLenFirst UmNrHeader.packedLength
        cases s.snSize <;> decide
      have hless : space - s.headLenFirst < sdu.length := by
        simp only [headLenFull] at hmore
        omega
      refine .inr (.inl ⟨hsi, space - s.headLenFirst, by omega, hless, ?_⟩)
      rw [hsi, packedLength_first, Nat.min_eq_left (Nat.le_of_lt hless), restOf_of_lt hless,
        Nat.zero_add]
      rfl
    · have hsi : newSi sdu space = .fullSdu := by
        rw [newSi, hsub, if_pos hall]
      have hlength : (UmNrHeader.mk .fullSdu s.snSize s.txNext 0).packedLength = headLenFull := rfl
      refine .inr (.inr ?_)
      rw [hsi, hlength, Nat.min_eq_right hall, restOf_all, List.take_length, Nat.zero_add]
      rfl
  · rename_i hspace
    exact .inl ⟨Bool.eq_false_iff.mpr hspace, rfl⟩

/-- Both parts of an SDU that is cut have bytes. -/
theorem take_drop_ne_nil {sdu : Bytes} {n : Nat} (hn : 0 < n) (hlt : n < sdu.length) :
    sdu.take n ≠ [] ∧ sdu.drop n ≠ [] := by
  rw [ne_eq, List.take_eq_nil_iff, ne_eq, List.drop_eq_nil_iff]
  refine ⟨?_, by omega⟩
  rintro (h0 | h0)
  · omega
  · rw [h0] at hlt
    exact absurd hlt (Nat.not_lt_zero _)

/-- A grant for the SDU in transmission. -/
theorem sent_busy {snSize : UmNrSnSize} {base : Nat} {s : UmNrTx} {accepted out : List Bytes}
    (h : Sent snSize base s accepted out) {rest : Bytes} (hbusy : s.txSdu = some rest)
    (space : Nat) :
    Sent snSize base (s.buildSduPdu rest (s.nextSi rest space) space).1 accepted
      (out ++ sentPdu (s.buildSduPdu rest (s.nextSi rest space) space).2) := by
  obtain ⟨items, plan, cur, h⟩ := h
  obtain rfl := h.snSizeEq
  obtain ⟨hrest, hcur, hnextSo, hfits⟩ := h.busy rest hbusy
  have hso : s.nextSo % 2 ^ 16 = cur.flatten.length := by
    rw [hnextSo, Nat.mod_eq_of_lt]
    simp only [bufferTailroom] at hfits
    omega
  have hpos : cur.flatten.length ≠ 0 := by
    rw [← offset_length, ne_eq, offset_eq_zero_iff h.curNonempty (Nat.le_refl _)]
    simpa using hcur
  rcases buildSduPdu_next_cases hso hpos rest space with heq | ⟨n, hn, hmore, heq⟩ | heq
  · rw [heq]
    refine ⟨items, plan, cur, ?_⟩
    have hsame : { s with txSdu := some rest } = s := by rw [← hbusy]
    rw [hsame, show sentPdu [] = [] from rfl, List.append_nil]
    exact h
  · rw [heq, sentPdu_write]
    obtain ⟨htake, hdrop⟩ := take_drop_ne_nil hn hmore
    have hsdus := h.sdus
    simp only [current, hbusy, List.map_cons, List.map_nil, List.flatten_append,
      List.flatten_singleton] at hsdus
    have hsegment : segmentSi (cur ++ [rest.take n, rest.drop n]) cur.length
        = .neitherFirstNorLastSegment := by
      rw [segmentSi_next, if_neg fun h0 => hcur (List.length_eq_zero_iff.mp h0)]
    exact ⟨_, _, _, h.cut _ hsegment htake hdrop rfl rfl rfl
      (by rw [hnextSo, List.length_take, Nat.min_eq_left (Nat.le_of_lt hmore)])
      (by rw [List.take_append_drop]; exact hfits)
      (by rw [List.take_append_drop]; exact .inl hbusy)
      (by rw [List.take_append_drop]; exact hsdus)⟩
  · rw [heq, sentPdu_write]
    exact ⟨_, _, _, h.finish _ hbusy rfl rfl rfl rfl⟩

/-- A grant for a new SDU that meets the condition. -/
theorem sent_fresh {snSize : UmNrSnSize} {base : Nat} {s : UmNrTx} {accepted out : List Bytes}
    (h : Sent snSize base s accepted out) (hidle : s.txSdu = none) {sdu : Sdu}
    {q : ByteBufferQueue} (hread : s.txSduQueue.read = (some sdu, q)) {space : Nat}
    (hspace : hasSpace ⟨newSi sdu.bytes space, s.snSize, s.txNext, 0⟩ space = true)
    (hfits : newSi sdu.bytes space = .firstSegment →
      sdu.bytes.length + s.headLenFirst ≤ bufferTailroom) (t : UmNrTx)
    (ht : t = { s with txSduQueue := q, nextSo := 0 }) :
    Sent snSize base (t.buildSduPdu sdu.bytes (newSi sdu.bytes space) space).1 accepted
      (out ++ sentPdu (t.buildSduPdu sdu.bytes (newSi sdu.bytes space) space).2) := by
  obtain ⟨items, plan, cur, h⟩ := h
  obtain rfl := h.snSizeEq
  obtain rfl := h.idle hidle
  have hqueue := read_eq_some hread
  have hsnSize : t.snSize = s.snSize := by rw [ht]
  have htxNext : t.txNext = s.txNext := by rw [ht]
  have hq : t.txSduQueue = q := by rw [ht]
  have hso : t.nextSo = 0 := by rw [ht]
  rcases buildSduPdu_new_cases hso sdu.bytes space with ⟨hfull, -⟩ | ⟨hsi, n, hn, hmore, heq⟩ | heq
  · rw [hsnSize, htxNext, hspace] at hfull
    exact absurd hfull (by decide)
  · rw [heq, sentPdu_write, hsnSize, htxNext]
    obtain ⟨htake, hdrop⟩ := take_drop_ne_nil hn hmore
    have hsdus := h.sdus
    simp only [current, hidle, List.map_nil, List.append_nil, hqueue] at hsdus
    exact ⟨_, _, _, h.cut _ (segmentSi_next [] _ _) htake hdrop rfl rfl rfl
      (by rw [List.length_take, Nat.min_eq_left (Nat.le_of_lt hmore)]; exact (Nat.zero_add n).symm)
      (by
        rw [List.take_append_drop, headLenFirst]
        have := hfits hsi
        simpa [hsnSize, headLenFirst] using this)
      (.inr rfl)
      (by
        rw [List.take_append_drop]
        simpa [queueSdus, hq] using hsdus)⟩
  · rw [heq, sentPdu_write, hsnSize]
    refine ⟨_, _, _, h.full hidle _ rfl rfl htxNext ?_⟩
    rw [hqueue, ht]
    rfl

/-- One call under the condition. -/
theorem sent_step {snSize : UmNrSnSize} {base : Nat} {s : UmNrTx} {accepted out : List Bytes}
    (h : Sent snSize base s accepted out) {op : Op} (hop : FreshFits s op) :
    Sent snSize base (s.step op).1 (accepted ++ s.acceptedBy op)
      (out ++ sentPdu (s.step op).2) := by
  cases op with
  | writeSdu sdu =>
    obtain ⟨items, plan, cur, h⟩ := h
    refine ⟨items, plan, cur, ?_⟩
    have hout : out ++ sentPdu (s.step (.writeSdu sdu)).2 = out := List.append_nil out
    rw [hout]
    refine h.keep (s.writeSdu sdu) rfl rfl rfl rfl (s.acceptedBy (.writeSdu sdu)) ?_ rfl
    cases hfull : s.txSduQueue.isFull with
    | true => simp [writeSdu, ByteBufferQueue.tryWrite, hfull, acceptedBy, queueSdus]
    | false => simp [writeSdu, ByteBufferQueue.tryWrite, hfull, acceptedBy, queueSdus]
  | buildDataPdu nofBytes =>
    have hnone : Sent snSize base s (accepted ++ s.acceptedBy (.buildDataPdu nofBytes))
        (out ++ sentPdu []) := by
      rw [show sentPdu [] = [] from rfl, List.append_nil, acceptedBy, List.append_nil]
      exact h
    show Sent snSize base (s.buildDataPdu nofBytes).1 _ (out ++ sentPdu (s.buildDataPdu nofBytes).2)
    unfold buildDataPdu
    split
    · exact hnone
    · rename_i htwo
      split
      · rename_i rest hbusy
        rw [acceptedBy, List.append_nil]
        exact sent_busy h hbusy _
      · rename_i hidle
        split
        · exact hnone
        · rename_i sdu q hread
          obtain ⟨hspace, hfits⟩ := hop (by omega) hidle sdu q hread
          rw [acceptedBy, List.append_nil]
          exact sent_fresh h hidle hread hspace hfits _ rfl

/-- A PDU fits a buffer. -/
theorem length_buildSduPdu_le (s : UmNrTx) (sdu : Bytes) (si : SiField) (space : Nat) :
    (s.buildSduPdu sdu si space).2.length ≤ space := by
  unfold buildSduPdu
  split
  · rename_i hspace
    have hroom := of_decide_eq_true hspace
    show ((s.pduHeader si).write ++ sdu.take _).length ≤ space
    rw [List.length_append, UmNrHeader.length_write, List.length_take]
    omega
  · exact Nat.zero_le _

theorem length_step_le (s : UmNrTx) (op : Op) : (s.step op).2.length ≤ bufferTailroom := by
  cases op with
  | writeSdu sdu => exact Nat.zero_le _
  | buildDataPdu nofBytes =>
    have hspace : pduSpace nofBytes ≤ bufferTailroom := Nat.min_le_right _ _
    show (s.buildDataPdu nofBytes).2.length ≤ bufferTailroom
    unfold buildDataPdu
    split
    · exact Nat.zero_le _
    · split
      · exact Nat.le_trans (length_buildSduPdu_le _ _ _ _) hspace
      · split
        · exact Nat.zero_le _
        · exact Nat.le_trans (length_buildSduPdu_le _ _ _ _) hspace

/-- The SDUs that a run accepts. -/
def acceptedSdus : UmNrTx → List Op → List Bytes
  | _, [] => []
  | s, op :: ops => s.acceptedBy op ++ acceptedSdus (s.step op).1 ops

/-- The PDUs that a run sends. -/
def sentPdus (s : UmNrTx) (ops : List Op) : List Bytes := (outputs step s ops).flatMap sentPdu

theorem length_le_of_mem_sentPdus {s : UmNrTx} {ops : List Op} {pdu : Bytes}
    (h : pdu ∈ s.sentPdus ops) : pdu.length ≤ bufferTailroom := by
  induction ops generalizing s with
  | nil => exact absurd h List.not_mem_nil
  | cons op ops ih =>
    rw [sentPdus, outputs, List.flatMap_cons] at h
    rcases List.mem_append.mp h with h | h
    · unfold sentPdu at h
      split at h
      · exact absurd h List.not_mem_nil
      · rw [List.mem_singleton.mp h]
        exact length_step_le s op
    · exact ih h

/-- The state after a run. -/
def execOps (s : UmNrTx) (ops : List Op) : UmNrTx := exec (fun s op => (s.step op).1) s ops

/-- A run whose grants for new SDUs meet the condition. -/
theorem sent_of_within {snSize : UmNrSnSize} {base : Nat} {s : UmNrTx} {accepted out : List Bytes}
    (ops : List Op) (h : Sent snSize base s accepted out)
    (hwithin : ExecWithin (fun s op => (s.step op).1) FreshFits s ops) :
    Sent snSize base (s.execOps ops) (accepted ++ s.acceptedSdus ops) (out ++ s.sentPdus ops) := by
  induction ops generalizing s accepted out with
  | nil => simpa [execOps, acceptedSdus, sentPdus, outputs] using h
  | cons op ops ih =>
    have hrest := ih (sent_step h hwithin.1) hwithin.2
    rw [List.append_assoc, List.append_assoc] at hrest
    exact hrest

/-- After a run between two states without an SDU in transmission, the PDUs are the items of a
plan: each chunk once. The full SDUs and the cut ones together are those that left the queue. -/
theorem sentAll_of_within {s : UmNrTx} {ops : List Op} (hidle : s.txSdu = none)
    (hnext : s.txNext < s.snSize.mod)
    (hwithin : ExecWithin (fun s op => (s.step op).1) FreshFits s ops)
    (hidle' : (s.execOps ops).txSdu = none) :
    ∃ (items : List Item) (plan : Plan),
      s.sentPdus ops = items.map (Item.bytes s.snSize s.txNext plan) ∧
      items.filterMap Item.key? = plan.keys ∧ (∀ cs ∈ plan, WellCut s.snSize cs) ∧
      (items.filterMap Item.sdu? ++ plan.map List.flatten ++ (s.execOps ops).queueSdus).Perm
        (s.queueSdus ++ s.acceptedSdus ops) := by
  obtain ⟨items, plan, cur, h⟩ := sent_of_within ops
    ⟨_, _, _, sending_idle hidle hnext⟩ hwithin
  obtain rfl := h.idle hidle'
  have hcurrent : (s.execOps ops).current [] = [] := by
    rw [current, hidle']
  have hout := h.outEq
  have hkeys := h.keysEq
  have hsdus := h.sdus
  rw [hcurrent, List.append_nil, List.nil_append] at hout
  rw [hcurrent] at hsdus
  exact ⟨items, plan, hout, by simpa using hkeys, h.planCut, by simpa using hsdus⟩

end UmNrTx

end Odss.Rlc
