import Odss.Mac.SchPdu

/-!
# `Odss.Proofs.SchPduWrite`: what is in a MAC PDU that is written

* `Built` relates the PDU to the subheaders that were put in. `unaccounted` has the SDUs for which
  no space is taken, since they fill more than half of what is left of the buffer.
* `Built.nBytes_eq`: the PDU has the length it should have if space is taken for every SDU.
* `Layout` has the subheaders in the order in which `Built.headers_eq` says they are written.
-/

set_option linter.all false

namespace Odss.Mac.SchPdu

open Odss.Rlc

/-! ### What is put in -/

namespace Insert

/-- An SDU. -/
def isSdu : Insert → Bool
  | .setSdu _ _ => true
  | .readSdu _ _ _ => true
  | _ => false

/-- The LCID. -/
def lcid : Insert → Nat
  | .setSdu lcid _ => lcid
  | .readSdu lcid _ _ => lcid
  | .setCRnti _ => 27
  | .setBsr _ format => format.lcid
  | .setConResId _ => 28
  | .setTaCmd _ => 29
  | .setPhr _ => 26
  | .setScellActivationCmd _ => 27

/-- The SDU, or the payload of the CE. -/
def bytes : Insert → Bytes
  | .setSdu _ sdu => sdu
  | .readSdu _ _ sdu => sdu
  | .setCRnti crnti => cRntiPayload crnti
  | .setBsr buffSize format => bsrPayload buffSize format
  | .setConResId conResId => conResIdPayload conResId
  | .setTaCmd taCmd => taCmdPayload taCmd
  | .setPhr report => phrPayload report
  | .setScellActivationCmd active => scellActivationPayload active

/-- The subheader. -/
def subh (op : Insert) : SchSubh :=
  ⟨op.lcid, op.bytes.length, if op.isSdu then [] else op.bytes⟩

/-- The bytes that go into the buffer at once. -/
def sduBytes (op : Insert) : Bytes := if op.isSdu then op.bytes else []

/-- The size with a subheader that is not the last one. -/
def fullSize (op : Insert) : Nat :=
  (if op.isSdu then sizeHeaderSdu op.bytes.length else 1) + op.bytes.length

/-- Space is taken for what is put in behind `n` bytes: an SDU of `set_sdu` fits twice into the
rest of the buffer. -/
def TakesSpace (n : Nat) : Insert → Prop
  | .setSdu _ sdu => n + 2 * sdu.length ≤ bufferTailroom
  | _ => True

instance (n : Nat) (op : Insert) : Decidable (op.TakesSpace n) := by
  cases op <;> unfold TakesSpace <;> infer_instance

theorem lcid_of_not_isSdu {op : Insert} (h : op.isSdu = false) : 26 ≤ op.lcid ∧ op.lcid ≤ 30 := by
  cases op with
  | setSdu lcid sdu => cases h
  | readSdu lcid requestedBytes sdu => cases h
  | setBsr buffSize format => cases format <;> simp [lcid, BsrFormat.lcid]
  | _ => simp [lcid]

theorem length_bytes_of_not_isSdu {op : Insert} (h : op.isSdu = false) :
    0 < op.bytes.length ∧ op.bytes.length ≤ 6 := by
  cases op with
  | setSdu lcid sdu => cases h
  | readSdu lcid requestedBytes sdu => cases h
  | setBsr buffSize format => cases format <;> simp [bytes, bsrPayload]
  | _ => simp [bytes, cRntiPayload, conResIdPayload, taCmdPayload, phrPayload,
      scellActivationPayload]

end Insert

/-- The size of the SDUs for which no space is taken, behind `n` bytes in the buffer. -/
def unaccounted : Nat → List Insert → Nat
  | _, [] => 0
  | n, op :: ops =>
    (if op.TakesSpace n then 0 else op.fullSize) + unaccounted (n + op.sduBytes.length) ops

/-- Space is taken for everything that is put in, behind `n` bytes in the buffer. -/
def Accounted : Nat → List Insert → Prop
  | _, [] => True
  | n, op :: ops => op.TakesSpace n ∧ Accounted (n + op.sduBytes.length) ops

theorem unaccounted_append (n : Nat) (ops : List Insert) (op : Insert) :
    unaccounted n (ops ++ [op]) = unaccounted n ops
      + if op.TakesSpace (n + (ops.flatMap Insert.sduBytes).length) then 0 else op.fullSize := by
  induction ops generalizing n with
  | nil => simp [unaccounted]
  | cons op' ops ih =>
    rw [List.cons_append, unaccounted, ih, unaccounted, List.flatMap_cons, List.length_append]
    simp only [Nat.add_assoc]

theorem fullSize_pos {op : Insert} (h : op.bytes ≠ []) : 0 < op.fullSize := by
  have hlen := List.length_pos_of_ne_nil h
  unfold Insert.fullSize
  omega

theorem unaccounted_eq_zero_iff {n : Nat} {ops : List Insert} (h : ∀ op ∈ ops, op.bytes ≠ []) :
    unaccounted n ops = 0 ↔ Accounted n ops := by
  induction ops generalizing n with
  | nil => exact ⟨fun _ => trivial, fun _ => rfl⟩
  | cons op ops ih =>
    have hpos := fullSize_pos (h op List.mem_cons_self)
    rw [unaccounted, Accounted, Nat.add_eq_zero_iff,
      ih fun op' hop' => h op' (List.mem_cons_of_mem _ hop')]
    refine and_congr_left fun _ => ?_
    split
    · next htakes => exact ⟨fun _ => htakes, fun _ => rfl⟩
    · next htakes => exact ⟨fun hzero => absurd hzero (Nat.ne_of_gt hpos), fun h => absurd h htakes⟩

/-! ### The state behind insertions -/

/-- The PDU behind the insertions. -/
structure Built (ops : List Insert) (p : SchPdu) : Prop where
  subheaders : p.subheaders = ops.map Insert.subh
  sdus : p.sdus = ops.flatMap Insert.sduBytes
  rem : p.remLen + (ops.map Insert.fullSize).sum
    = p.pduLen + unaccounted 0 ops + p.lastSduGrowth
  last : ∀ i, p.lastSduIdx = some i → ∃ op, ops[i]? = some op ∧ op.isSdu = true
  last_behind : unaccounted 0 ops = 0 → ∀ j op, ops[j]? = some op → op.isSdu = true →
    ∃ i, p.lastSduIdx = some i ∧ j ≤ i
  nonempty : ∀ op ∈ ops, op.bytes ≠ []
  length_le : ∀ op ∈ ops, op.bytes.length ≤ bufferTailroom
  room : ops ≠ [] → ops.length < p.maxSubheaders

theorem built_initTx (maxSubheaders pduLen : Nat) (isUl : Bool) :
    Built [] (initTx maxSubheaders pduLen isUl) where
  subheaders := rfl
  sdus := rfl
  rem := rfl
  last := nofun
  last_behind := nofun
  nonempty := nofun
  length_le := nofun
  room := fun h => absurd rfl h

/-- What an insertion does to the space that is left. -/
inductive Space (p p' : SchPdu) (op : Insert) : Prop where
  | ce (h : op.isSdu = false) (hrem : p'.remLen + (op.bytes.length + 1) = p.remLen)
      (hlast : p'.lastSduIdx = p.lastSduIdx)
  | sdu (h : op.isSdu = true) (htakes : op.TakesSpace p.sdus.length)
      (hrem : p'.remLen + (op.bytes.length + 1 + p.lastSduGrowth) = p.remLen)
      (hlast : p'.lastSduIdx = some p.subheaders.length)
  | none (h : op.isSdu = true) (htakes : ¬ op.TakesSpace p.sdus.length)
      (hrem : p'.remLen = p.remLen) (hlast : p'.lastSduIdx = p.lastSduIdx)

/-- What an insertion does. -/
structure Inserts (p p' : SchPdu) (op : Insert) : Prop where
  subheaders : p'.subheaders = p.subheaders ++ [op.subh]
  sdus : p'.sdus = p.sdus ++ op.sduBytes
  same : p'.maxSubheaders = p.maxSubheaders ∧ p'.pduLen = p.pduLen ∧ p'.isUl = p.isUl
  room : p.subheaders.length + 1 < p.maxSubheaders
  nonempty : op.bytes ≠ []
  length_le : op.bytes.length ≤ bufferTailroom
  space : Space p p' op

theorem newSubh_eq_some {p p' : SchPdu} (h : p.newSubh = some p') :
    p' = { p with subheaders := p.subheaders ++ [.init] } ∧
      p.subheaders.length + 1 < p.maxSubheaders := by
  unfold newSubh at h
  split at h
  · next hroom => exact ⟨(Option.some.inj h).symm, hroom.1⟩
  · cases h

theorem lastSduGrowth_append {p : SchPdu} (h : ∀ i, p.lastSduIdx = some i → i < p.subheaders.length)
    (ss : List SchSubh) :
    lastSduGrowth { p with subheaders := p.subheaders ++ ss } = p.lastSduGrowth := by
  unfold lastSduGrowth lastSdu
  cases hlast : p.lastSduIdx with
  | none => rfl
  | some i => simp only [Option.bind_some, List.getElem?_append_left (h i hlast)]

theorem inserts_setCe {p p' : SchPdu} {op : Insert} (hop : op.isSdu = false)
    (hroom : p.subheaders.length + 1 < p.maxSubheaders)
    (h : setCe { p with subheaders := p.subheaders ++ [.init] } op.lcid op.bytes = some p') :
    Inserts p p' op := by
  obtain ⟨hpos, hle⟩ := Insert.length_bytes_of_not_isSdu hop
  have hsubh : op.subh = ⟨op.lcid, op.bytes.length, op.bytes⟩ := by simp [Insert.subh, hop]
  have hbytes : op.sduBytes = [] := by simp [Insert.sduBytes, hop]
  unfold setCe at h
  split at h
  · next hspace =>
    have hrem : p.remLen ≥ op.bytes.length + 1 := of_decide_eq_true hspace
    have hspace' : (setCurrent { p with subheaders := p.subheaders ++ [.init] }
        ⟨op.lcid, op.bytes.length, op.bytes⟩).hasSpaceCe op.bytes.length = true := hspace
    rw [updateSpaceCe, if_pos hspace'] at h
    cases h
    refine ⟨?_, ?_, ⟨rfl, rfl, rfl⟩, hroom, List.ne_nil_of_length_pos hpos,
      Nat.le_trans hle (by decide), .ce hop ?_ rfl⟩
    · simp [setCurrent, hsubh]
    · show p.sdus = p.sdus ++ op.sduBytes
      rw [hbytes, List.append_nil]
    · show p.remLen - (op.bytes.length + 1) + (op.bytes.length + 1) = p.remLen
      omega
  · cases h

theorem le_of_hasSpaceSdu {p : SchPdu} {n : Nat} (hn : 0 < n) (h : p.hasSpaceSdu n = true) :
    n + 1 + p.lastSduGrowth ≤ p.remLen ∧ n ≤ p.tailroom := by
  have hgrowth : p.lastSduGrowth ≤ 2 := by
    unfold lastSduGrowth sizeHeaderSdu
    split
    · omega
    · split_ifs <;> omega
  have hle : n ≤ p.getSduSpace := of_decide_eq_true h
  unfold getSduSpace subU32 at hle
  simp only at hle
  refine ⟨?_, Nat.le_trans hle (Nat.min_le_right _ _)⟩
  have hle' := Nat.le_trans hle (Nat.min_le_left _ _)
  split_ifs at hle' <;> omega

/-- Less space for an SDU is enough for a smaller one. -/
theorem hasSpaceSdu_of_le {p : SchPdu} {n n' : Nat} (hle : n ≤ n') (h : p.hasSpaceSdu n' = true) :
    p.hasSpaceSdu n = true :=
  decide_eq_true (Nat.le_trans hle (of_decide_eq_true h))

section SetSdu

variable {p p' : SchPdu} (hlast : ∀ i, p.lastSduIdx = some i → i < p.subheaders.length)

include hlast

theorem inserts_setSdu (hroom : p.subheaders.length + 1 < p.maxSubheaders) {lcid : Nat}
    {sdu : Bytes} (hne : sdu ≠ [])
    (h : setSdu { p with subheaders := p.subheaders ++ [.init] } lcid sdu = some p') :
    Inserts p p' (.setSdu lcid sdu) := by
  have hpos := List.length_pos_of_ne_nil hne
  have hgrow := lastSduGrowth_append hlast [SchSubh.init]
  unfold setSdu at h
  split at h
  · next hspace =>
    obtain ⟨hrem, htail⟩ := le_of_hasSpaceSdu hpos hspace
    rw [hgrow] at hrem
    have hrem : sdu.length + 1 + p.lastSduGrowth ≤ p.remLen := hrem
    have htail : sdu.length ≤ bufferTailroom - p.sdus.length := htail
    -- The space is checked again when the SDU is in the buffer already.
    have hgrow' : lastSduGrowth { p with
        subheaders := p.subheaders ++ [.init], sdus := p.sdus ++ sdu } = p.lastSduGrowth := hgrow
    have hagain : hasSpaceSdu { p with
          subheaders := p.subheaders ++ [.init], sdus := p.sdus ++ sdu } sdu.length = true ↔
        p.sdus.length + 2 * sdu.length ≤ bufferTailroom := by
      have hspace : sdu.length ≤ min _ _ := of_decide_eq_true hspace
      rw [Nat.le_min] at hspace
      have hfirst := hspace.1
      rw [hgrow] at hfirst
      unfold hasSpaceSdu getSduSpace tailroom
      simp only [decide_eq_true_iff, hgrow', List.length_append]
      rw [ge_iff_le, Nat.le_min]
      constructor
      · intro h
        have hsecond := h.2
        omega
      · intro h
        exact ⟨hfirst, by omega⟩
    by_cases htakes : p.sdus.length + 2 * sdu.length ≤ bufferTailroom
    · rw [updateSpaceSdu, if_pos (hagain.mpr htakes), hgrow'] at h
      cases h
      refine ⟨by simp [setCurrent, Insert.subh, Insert.lcid, Insert.bytes, Insert.isSdu], rfl,
        ⟨rfl, rfl, rfl⟩, hroom, hne, Nat.le_trans htail (Nat.sub_le _ _), .sdu rfl htakes ?_ ?_⟩
      · show p.remLen - (sdu.length + 1 + p.lastSduGrowth) + (sdu.length + 1 + p.lastSduGrowth) = _
        omega
      · show some ((p.subheaders ++ [SchSubh.init]).length - 1) = _
        simp
    · rw [updateSpaceSdu, if_neg (htakes ∘ hagain.mp)] at h
      cases h
      exact ⟨by simp [setCurrent, Insert.subh, Insert.lcid, Insert.bytes, Insert.isSdu], rfl,
        ⟨rfl, rfl, rfl⟩, hroom, hne, Nat.le_trans htail (Nat.sub_le _ _), .none rfl htakes rfl rfl⟩
  · cases h

theorem inserts_readSdu (hroom : p.subheaders.length + 1 < p.maxSubheaders)
    {lcid requestedBytes : Nat} {sdu : Bytes}
    (h : readSdu { p with subheaders := p.subheaders ++ [.init] } lcid requestedBytes sdu
      = some p') : Inserts p p' (.readSdu lcid requestedBytes sdu) := by
  have hgrow := lastSduGrowth_append hlast [SchSubh.init]
  unfold readSdu at h
  split at h
  · next hcond =>
    simp only [Bool.and_eq_true, Bool.not_eq_true', List.isEmpty_eq_false_iff,
      decide_eq_true_iff] at hcond
    obtain ⟨⟨hspace, hne⟩, hle⟩ := hcond
    have hpos := List.length_pos_of_ne_nil hne
    have hspace' := hasSpaceSdu_of_le hle hspace
    obtain ⟨hrem, htail⟩ := le_of_hasSpaceSdu hpos hspace'
    rw [hgrow] at hrem
    have hrem : sdu.length + 1 + p.lastSduGrowth ≤ p.remLen := hrem
    have htail : sdu.length ≤ bufferTailroom - p.sdus.length := htail
    rw [updateSpaceSdu, if_pos hspace', hgrow] at h
    cases h
    refine ⟨by simp [setCurrent, Insert.subh, Insert.lcid, Insert.bytes, Insert.isSdu], rfl,
      ⟨rfl, rfl, rfl⟩, hroom, hne, Nat.le_trans htail (Nat.sub_le _ _), .sdu rfl trivial ?_ ?_⟩
    · show p.remLen - (sdu.length + 1 + p.lastSduGrowth) + (sdu.length + 1 + p.lastSduGrowth) = _
      omega
    · show some ((p.subheaders ++ [SchSubh.init]).length - 1) = _
      simp
  · cases h

theorem inserts_insert {op : Insert} (h : p.insert op = some p') : Inserts p p' op := by
  obtain ⟨p'', hnew, hset⟩ := Option.bind_eq_some_iff.mp h
  obtain ⟨rfl, hroom⟩ := newSubh_eq_some hnew
  cases op with
  | setSdu lcid sdu =>
    have hset : (if sdu.isEmpty then none
      else setSdu { p with subheaders := p.subheaders ++ [.init] } lcid sdu) = some p' := hset
    split at hset
    · cases hset
    · next hne =>
      exact inserts_setSdu hlast hroom (fun hnil => hne (by simp [hnil])) hset
  | readSdu lcid requestedBytes sdu => exact inserts_readSdu hlast hroom hset
  | setCRnti crnti => exact inserts_setCe rfl hroom hset
  | setBsr buffSize format => exact inserts_setCe rfl hroom hset
  | setConResId conResId => exact inserts_setCe rfl hroom hset
  | setTaCmd taCmd => exact inserts_setCe rfl hroom hset
  | setPhr report => exact inserts_setCe rfl hroom hset
  | setScellActivationCmd active => exact inserts_setCe rfl hroom hset

end SetSdu

theorem Built.last_lt {ops : List Insert} {p : SchPdu} (h : Built ops p) {i : Nat}
    (hi : p.lastSduIdx = some i) : i < p.subheaders.length := by
  obtain ⟨op, hop, -⟩ := h.last i hi
  rw [h.subheaders, List.length_map]
  exact (List.getElem?_eq_some_iff.mp hop).1

/-- An insertion keeps the relation. -/
theorem Built.insert {ops : List Insert} {p p' : SchPdu} {op : Insert} (h : Built ops p)
    (hins : Inserts p p' op) : Built (ops ++ [op]) p' := by
  have hlength : p.subheaders.length = ops.length := by rw [h.subheaders, List.length_map]
  have hunaccounted : unaccounted 0 (ops ++ [op]) = unaccounted 0 ops
      + if op.TakesSpace p.sdus.length then 0 else op.fullSize := by
    rw [unaccounted_append, Nat.zero_add, ← h.sdus]
  have hgrow : p'.lastSduIdx = p.lastSduIdx → p'.lastSduGrowth = p.lastSduGrowth := by
    intro hlast
    have hsame := lastSduGrowth_append (fun i hi => h.last_lt hi) [op.subh]
    rw [← hsame]
    unfold lastSduGrowth lastSdu
    rw [hlast, hins.subheaders]
  have hold : ∀ i, p.lastSduIdx = some i →
      ∃ op', (ops ++ [op])[i]? = some op' ∧ op'.isSdu = true := by
    intro i hi
    obtain ⟨op', hop', hsdu⟩ := h.last i hi
    refine ⟨op', ?_, hsdu⟩
    rw [List.getElem?_append_left (List.getElem?_eq_some_iff.mp hop').1, hop']
  refine {
    subheaders := by rw [hins.subheaders, h.subheaders, List.map_append]; rfl
    sdus := by rw [hins.sdus, h.sdus, List.flatMap_append, List.flatMap_singleton]
    rem := ?_
    last := ?_
    last_behind := ?_
    nonempty := ?_
    length_le := ?_
    room := ?_ }
  · rw [List.map_append, List.sum_append, hunaccounted, hins.same.2.1]
    show p'.remLen + ((ops.map Insert.fullSize).sum + (op.fullSize + 0)) = _
    have hrem := h.rem
    cases hins.space with
    | ce hsdu hspace hlast =>
      have htakes : op.TakesSpace p.sdus.length := by cases op <;> trivial
      rw [hgrow hlast, if_pos htakes, Insert.fullSize, hsdu, if_neg Bool.false_ne_true]
      omega
    | sdu hsdu htakes hspace hlast =>
      have hnew : p'.lastSduGrowth = sizeHeaderSdu op.bytes.length - 1 := by
        unfold lastSduGrowth lastSdu
        rw [hlast, hins.subheaders]
        simp [Insert.subh]
      have hpos : 0 < op.bytes.length := List.length_pos_of_ne_nil hins.nonempty
      have hheader : 0 < sizeHeaderSdu op.bytes.length := by
        unfold sizeHeaderSdu
        split_ifs <;> omega
      rw [hnew, if_pos htakes, Insert.fullSize, hsdu, if_pos rfl]
      omega
    | none hsdu htakes hspace hlast =>
      rw [hgrow hlast, if_neg htakes]
      omega
  · intro i hi
    cases hins.space with
    | ce hsdu hspace hlast => exact hold i (hlast ▸ hi)
    | none hsdu htakes hspace hlast => exact hold i (hlast ▸ hi)
    | sdu hsdu htakes hspace hlast =>
      rw [hlast] at hi
      cases hi
      refine ⟨op, ?_, hsdu⟩
      rw [hlength, List.getElem?_append_right (Nat.le_refl _), Nat.sub_self]
      rfl
  · intro hzero j op' hop' hsdu'
    rw [hunaccounted, Nat.add_eq_zero_iff] at hzero
    rw [List.getElem?_append] at hop'
    cases hins.space with
    | ce hsdu hspace hlast =>
      split at hop'
      · obtain ⟨i, hi, hle⟩ := h.last_behind hzero.1 j op' hop' hsdu'
        exact ⟨i, hlast.trans hi, hle⟩
      · have hmem := List.mem_of_getElem? hop'
        rw [List.mem_singleton] at hmem
        rw [hmem, hsdu] at hsdu'
        cases hsdu'
    | none hsdu htakes hspace hlast =>
      rw [if_neg htakes] at hzero
      exact absurd hzero.2 (Nat.ne_of_gt (fullSize_pos hins.nonempty))
    | sdu hsdu htakes hspace hlast =>
      refine ⟨_, hlast, ?_⟩
      have hj := (List.getElem?_eq_some_iff.mp (List.getElem?_append.trans hop')).1
      rw [List.length_append, List.length_singleton] at hj
      omega
  · intro op' hop'
    rcases List.mem_append.mp hop' with hop' | hop'
    · exact h.nonempty op' hop'
    · exact List.mem_singleton.mp hop' ▸ hins.nonempty
  · intro op' hop'
    rcases List.mem_append.mp hop' with hop' | hop'
    · exact h.length_le op' hop'
    · exact List.mem_singleton.mp hop' ▸ hins.length_le
  · intro _
    rw [List.length_append, List.length_singleton, hins.same.1, ← hlength]
    exact hins.room

/-- Every sequence of insertions. -/
theorem built_insertAll {ops ops' : List Insert} {p p' : SchPdu} (h : Built ops p)
    (hins : p.insertAll ops' = some p') : Built (ops ++ ops') p' ∧
      p'.maxSubheaders = p.maxSubheaders ∧ p'.pduLen = p.pduLen ∧ p'.isUl = p.isUl := by
  induction ops' generalizing ops p with
  | nil =>
    obtain rfl : p = p' := Option.some.inj hins
    rw [List.append_nil]
    exact ⟨h, rfl, rfl, rfl⟩
  | cons op ops' ih =>
    obtain ⟨p'', hinsert, hrest⟩ := Option.bind_eq_some_iff.mp hins
    have hins'' := inserts_insert (fun i hi => h.last_lt hi) hinsert
    obtain ⟨hbuilt, hmax, hlen, hul⟩ := ih (h.insert hins'') hrest
    rw [List.append_assoc] at hbuilt
    exact ⟨hbuilt, hmax.trans hins''.same.1, hlen.trans hins''.same.2.1,
      hul.trans hins''.same.2.2⟩

/-! ### The order of the PDU -/

/-- What is put in, in the order of the PDU: the CEs and then the SDUs. -/
def inOrder (ops : List Insert) : List Insert :=
  ops.filter (fun op => !op.isSdu) ++ ops.filter Insert.isSdu

/-- Each SDU has a LCID of one. -/
def ValidLcids (ops : List Insert) : Prop := ∀ op ∈ ops, op.isSdu = true → op.lcid ≤ 17

theorem perm_inOrder (ops : List Insert) : (inOrder ops).Perm ops :=
  (List.perm_append_comm).trans (List.filter_append_perm Insert.isSdu ops)

theorem isSdu_subh {op : Insert} (h : op.isSdu = true → op.lcid ≤ 17) :
    op.subh.isSdu = op.isSdu := by
  show isSduLcid op.lcid = op.isSdu
  cases hsdu : op.isSdu with
  | false =>
    have hlcid := (Insert.lcid_of_not_isSdu hsdu).1
    exact decide_eq_false (by omega)
  | true => exact decide_eq_true (h hsdu)

theorem headerSize_subh {op : Insert} (h : op.isSdu = true → op.lcid ≤ 17) :
    op.subh.headerSize false + op.bytes.length = op.fullSize := by
  rw [SchSubh.headerSize, if_neg Bool.false_ne_true, isSdu_subh h]
  rfl

/-- The bytes of some subheaders with another one behind them. -/
def headerBytes (front : List SchSubh) (last : SchSubh) : Bytes :=
  front.flatMap (·.writeSubheader false) ++ last.writeSubheader true

/-- A subheader that the writer can write: its number of bytes is not zero for an SDU. -/
def Writable (s : SchSubh) : Prop := s.lcid < 32 ∧ (s.isSdu = true → 0 < s.nofBytes ∧ s.nofBytes < 2 ^ 15)

theorem writable_subh {op : Insert} (h : op.isSdu = true → op.lcid ≤ 17) (hne : op.bytes ≠ [])
    (hle : op.bytes.length ≤ bufferTailroom) : Writable op.subh := by
  refine ⟨?_, fun _ => ⟨List.length_pos_of_ne_nil hne, Nat.lt_of_le_of_lt hle (by decide)⟩⟩
  show op.lcid < 32
  cases hsdu : op.isSdu with
  | false => exact Nat.lt_of_le_of_lt (Insert.lcid_of_not_isSdu hsdu).2 (by decide)
  | true => exact Nat.lt_of_le_of_lt (h hsdu) (by decide)

theorem writable_padding (n : Nat) : Writable (SchSubh.padding n) :=
  ⟨show paddingLcid < 32 by decide, fun h => absurd h Bool.false_ne_true⟩

theorem length_writeSubheader {s : SchSubh} (h : Writable s) (isLast : Bool) :
    (s.writeSubheader isLast).length = s.headerSize isLast := by
  unfold SchSubh.writeSubheader SchSubh.headerSize
  cases isLast with
  | true => simp
  | false =>
    cases hsdu : s.isSdu with
    | false => simp
    | true =>
      obtain ⟨hpos, -⟩ := h.2 hsdu
      simp only [Bool.not_false, Bool.and_self, if_true, if_neg Bool.false_ne_true, sizeHeaderSdu,
        SchSubh.lengthField, if_neg (Nat.ne_of_gt hpos)]
      split_ifs <;> simp <;> omega

theorem length_flatMap_writeSubheader {ss : List SchSubh} (h : ∀ s ∈ ss, Writable s) :
    (ss.flatMap (·.writeSubheader false)).length = (ss.map (·.headerSize false)).sum := by
  rw [List.length_flatMap]
  refine congrArg List.sum (List.map_congr_left fun s hs => ?_)
  exact length_writeSubheader (h s hs) false

theorem length_headerBytes {front : List SchSubh} {last : SchSubh} (h : ∀ s ∈ front, Writable s)
    (hlast : Writable last) :
    (headerBytes front last).length = (front.map (·.headerSize false)).sum + 1 := by
  rw [headerBytes, List.length_append, length_flatMap_writeSubheader h,
    length_writeSubheader hlast]
  rfl

/-- Flags that are the same for all subheaders do not depend on their places. -/
theorem flatMap_zipIdx_filter {α : Type} (P : SchSubh → Bool) (f : SchSubh → List α)
    (g : SchSubh × Nat → List α) (ss : List SchSubh) (k : Nat)
    (h : ∀ s i, (s, i) ∈ ss.zipIdx k → g (s, i) = f s) :
    ((ss.zipIdx k).filter fun x => P x.1).flatMap g = (ss.filter P).flatMap f := by
  induction ss generalizing k with
  | nil => rfl
  | cons s ss ih =>
    have hs := h s k (by simp [List.zipIdx_cons])
    have hss := ih (k + 1) fun s' i hi => h s' i (by
      rw [List.zipIdx_cons]
      exact List.mem_cons_of_mem _ hi)
    rw [List.zipIdx_cons, List.filter_cons, List.filter_cons]
    cases hP : P s with
    | true => simp only [if_true, List.flatMap_cons, hs, hss]
    | false => simpa only [hP, Bool.false_eq_true, if_false] using hss

/-- A sum over the places is one over the subheaders. -/
theorem sum_zipIdx (f : SchSubh → Nat) (g : SchSubh × Nat → Nat) (ss : List SchSubh) (k : Nat)
    (h : ∀ s i, (s, i) ∈ ss.zipIdx k → g (s, i) = f s) :
    ((ss.zipIdx k).map g).sum = (ss.map f).sum := by
  induction ss generalizing k with
  | nil => rfl
  | cons s ss ih =>
    have hs := h s k (by simp [List.zipIdx_cons])
    have hss := ih (k + 1) fun s' i hi => h s' i (by
      rw [List.zipIdx_cons]
      exact List.mem_cons_of_mem _ hi)
    rw [List.zipIdx_cons, List.map_cons, List.sum_cons, hs, hss, List.map_cons, List.sum_cons]

section Writer

variable {ops : List Insert} {p : SchPdu}

/-- The insertions around the last SDU. -/
theorem Built.split_last (h : Built ops p) {i : Nat} (hi : p.lastSduIdx = some i) :
    ∃ front op back, ops = front ++ op :: back ∧ front.length = i ∧ op.isSdu = true ∧
      p.lastSdu = some op.subh := by
  obtain ⟨op, hop, hsdu⟩ := h.last i hi
  obtain ⟨hlt, heq⟩ := List.getElem?_eq_some_iff.mp hop
  refine ⟨ops.take i, op, ops.drop (i + 1), ?_, List.length_take_of_le (Nat.le_of_lt hlt), hsdu, ?_⟩
  · rw [← heq, List.getElem_cons_drop, List.take_append_drop]
  · rw [lastSdu, hi, Option.bind_some, h.subheaders, List.getElem?_map, hop]
    rfl

theorem lastSduGrowth_of_none (h : p.lastSduIdx = none) : p.lastSduGrowth = 0 := by
  rw [lastSduGrowth, lastSdu, h]
  rfl

theorem lastSduGrowth_le : p.lastSduGrowth ≤ 2 := by
  unfold lastSduGrowth sizeHeaderSdu
  split
  · exact Nat.zero_le _
  · split_ifs <;> omega

theorem Built.headerSz_eq (h : Built ops p) (hv : ValidLcids ops) :
    p.headerSz + (if p.multibytePadding then 0 else p.lastSduGrowth)
      = (ops.map fun op => op.subh.headerSize false).sum
        + if p.multibytePadding then 1 else p.onetwoPadding := by
  have hfalse : ∀ (ss : List SchSubh) (k : Nat), (∀ s i, (s, i) ∈ ss.zipIdx k →
      (!p.multibytePadding && p.lastSduIdx == some i) = false) →
        ((ss.zipIdx k).map fun x => x.1.headerSize
          (!p.multibytePadding && p.lastSduIdx == some x.2)).sum
          = (ss.map (·.headerSize false)).sum := by
    intro ss k hflag
    refine sum_zipIdx (·.headerSize false) _ ss k fun s i hi => ?_
    show s.headerSize _ = _
    rw [hflag s i hi]
  have hmap : (ops.map fun op => op.subh.headerSize false)
      = p.subheaders.map (·.headerSize false) := by
    rw [h.subheaders, List.map_map]
    rfl
  rw [headerSz, hmap]
  cases hmulti : p.multibytePadding with
  | true =>
    have hsum := hfalse p.subheaders 0 fun s i _ => by rw [hmulti]; rfl
    rw [hmulti] at hsum
    rw [hsum]
    simp
  | false =>
    rw [hmulti] at hfalse
    cases hlast : p.lastSduIdx with
    | none =>
      have hsum := hfalse p.subheaders 0 fun s i _ => by rw [hlast]; rfl
      rw [hlast] at hsum
      rw [hsum, lastSduGrowth_of_none hlast]
      simp
    | some i =>
      obtain ⟨front, op, back, hops, hlen, hsdu, hsubh⟩ := h.split_last hlast
      have hsubs : p.subheaders = front.map Insert.subh ++ op.subh :: back.map Insert.subh := by
        rw [h.subheaders, hops, List.map_append, List.map_cons]
      -- Only the last SDU has a short header.
      have hfront := hfalse (front.map Insert.subh) 0 fun s j hj => by
        have hlt := (List.mem_zipIdx hj).2.1
        rw [List.length_map, hlen] at hlt
        rw [hlast]
        simp
        omega
      have hback := hfalse (back.map Insert.subh) (i + 1) fun s j hj => by
        have hge := (List.mem_zipIdx hj).1
        rw [hlast]
        simp
        omega
      have hvalid : op.isSdu = true → op.lcid ≤ 17 := hv op (by simp [hops])
      have hgrow : p.lastSduGrowth = op.subh.headerSize false - 1 := by
        rw [lastSduGrowth, hsubh, SchSubh.headerSize, if_neg Bool.false_ne_true, isSdu_subh hvalid,
          if_pos hsdu]
      have hpos : 0 < op.subh.headerSize false := by
        have hne := List.length_pos_of_ne_nil (h.nonempty op (by simp [hops]))
        rw [SchSubh.headerSize, if_neg Bool.false_ne_true, isSdu_subh hvalid, if_pos hsdu]
        show 0 < sizeHeaderSdu op.bytes.length
        unfold sizeHeaderSdu
        split_ifs <;> omega
      rw [hlast] at hfront hback
      rw [hsubs, List.zipIdx_append, List.map_append, List.sum_append, hfront, List.zipIdx_cons,
        List.map_cons, List.sum_cons, List.length_map, hlen, Nat.zero_add, hback, hgrow,
        List.map_append, List.sum_append, List.map_cons, List.sum_cons]
      have hshort : op.subh.headerSize (!false && some i == some i) = 1 := by
        simp [SchSubh.headerSize]
      simp only [hshort, Bool.false_eq_true, if_false]
      omega

/-- The payloads of the CEs and the SDUs have the bytes of what was put in. -/
theorem Built.payload_eq (h : Built ops p) (hv : ValidLcids ops) :
    p.cePayloadSz + p.sdus.length = (ops.map fun op => op.bytes.length).sum := by
  have hce : p.cePayloadSz = ((ops.filter fun op => !op.isSdu).map fun op => op.bytes.length).sum := by
    have hfilter : ops.filter ((fun s => !s.isSdu) ∘ Insert.subh)
        = ops.filter fun op => !op.isSdu := by
      refine List.filter_congr fun op hop => ?_
      show (!op.subh.isSdu) = !op.isSdu
      rw [isSdu_subh (hv op hop)]
    rw [cePayloadSz, h.subheaders, List.filter_map, List.map_map, hfilter]
    rfl
  have hsdu : p.sdus.length = ((ops.filter Insert.isSdu).map fun op => op.bytes.length).sum := by
    rw [h.sdus, List.length_flatMap]
    clear h hv hce
    induction ops with
    | nil => rfl
    | cons op ops ih =>
      rw [List.map_cons, List.sum_cons, ih, List.filter_cons]
      cases hop : op.isSdu with
      | true => simp [Insert.sduBytes, hop]
      | false => simp [Insert.sduBytes, hop]
  rw [hce, hsdu, ← List.sum_append, ← List.map_append]
  exact ((perm_inOrder ops).map _).sum_eq

theorem Built.numPadding_eq (h : Built ops p) (hv : ValidLcids ops) :
    p.numPadding = if p.multibytePadding then p.remLen - 1 - p.lastSduGrowth else 0 := by
  rw [numPadding]
  split
  · cases hlast : p.lastSduIdx with
    | none =>
      rw [lastSduGrowth_of_none hlast, lastSdu, hlast]
      rfl
    | some i =>
      obtain ⟨front, op, back, hops, -, hsdu, hsubh⟩ := h.split_last hlast
      have hvalid : op.isSdu = true → op.lcid ≤ 17 := hv op (by simp [hops])
      rw [lastSduGrowth, hsubh]
      simp only [SchSubh.headerSize, if_neg Bool.false_ne_true, isSdu_subh hvalid, if_pos hsdu]
  · rfl

theorem sum_fullSize {V : List Insert} (hv : ValidLcids V) :
    (V.map Insert.fullSize).sum
      = (V.map fun op => op.subh.headerSize false).sum
        + (V.map fun op => op.bytes.length).sum := by
  induction V with
  | nil => rfl
  | cons op V ih =>
    have hop := headerSize_subh (hv op List.mem_cons_self)
    have hV := ih fun op' hop' => hv op' (List.mem_cons_of_mem _ hop')
    simp only [List.map_cons, List.sum_cons, hV]
    omega

/-- The PDU is too long by the SDUs for which no space was taken. -/
theorem Built.nBytes_eq (h : Built ops p) (hv : ValidLcids ops) :
    p.nBytes + p.numPadding = p.pduLen + unaccounted 0 ops := by
  have hheader := h.headerSz_eq hv
  have hpayload := h.payload_eq hv
  have hrem := h.rem
  have hgrow := lastSduGrowth_le (p := p)
  have hfull := sum_fullSize hv
  rw [nBytes, totalHeaderSize, h.numPadding_eq hv]
  cases hmulti : p.multibytePadding with
  | true =>
    have hlong : p.remLen > 2 := of_decide_eq_true hmulti
    rw [hmulti] at hheader
    simp only [if_true] at hheader ⊢
    omega
  | false =>
    have honetwo : p.onetwoPadding = p.remLen := by rw [onetwoPadding, hmulti]; rfl
    rw [hmulti, honetwo] at hheader
    simp only [Bool.false_eq_true, if_false] at hheader ⊢
    omega

/-! ### The subheaders in their order -/

/-- The subheaders of the PDU in the order in which they are written, and the last one of them. -/
inductive Layout (p : SchPdu) : List Insert → List SchSubh → SchSubh → Prop where
  | multi (V : List Insert) (h : p.multibytePadding = true) :
      Layout p V (V.map Insert.subh) (.padding p.numPadding)
  | short (V : List Insert) (v : Insert) (h : p.multibytePadding = false) :
      Layout p (V ++ [v]) (List.replicate p.onetwoPadding (.padding 0) ++ V.map Insert.subh) v.subh

theorem filter_isSdu_subh {V : List Insert} (hv : ValidLcids V) :
    (V.map Insert.subh).filter SchSubh.isSdu = (V.filter Insert.isSdu).map Insert.subh := by
  rw [List.filter_map]
  refine congrArg _ (List.filter_congr fun op hop => ?_)
  exact isSdu_subh (hv op hop)

theorem filter_not_isSdu_subh {V : List Insert} (hv : ValidLcids V) :
    (V.map Insert.subh).filter (fun s => !s.isSdu)
      = (V.filter fun op => !op.isSdu).map Insert.subh := by
  rw [List.filter_map]
  refine congrArg _ (List.filter_congr fun op hop => ?_)
  exact congrArg (!·) (isSdu_subh (hv op hop))

theorem ValidLcids.subset {V : List Insert} (hv : ValidLcids ops) (hV : V ⊆ ops) : ValidLcids V :=
  fun op hop => hv op (hV hop)

theorem Built.isSdu_of_none (h : Built ops p) (hzero : unaccounted 0 ops = 0)
    (hlast : p.lastSduIdx = none) {op : Insert} (hop : op ∈ ops) : op.isSdu = false := by
  by_contra hne
  obtain ⟨j, hj⟩ := List.mem_iff_getElem?.mp hop
  obtain ⟨i, hi, -⟩ := h.last_behind hzero j op hj ((Bool.not_eq_false _).mp hne)
  rw [hlast] at hi
  cases hi

/-- Something of the PDU is left for what is put in. -/
theorem Built.remLen_lt (h : Built ops p) (hzero : unaccounted 0 ops = 0) (hne : ops ≠ []) :
    p.remLen < p.pduLen := by
  have hrem := h.rem
  rw [hzero, Nat.add_zero] at hrem
  cases hlast : p.lastSduIdx with
  | none =>
    obtain ⟨op, ops', rfl⟩ := List.exists_cons_of_ne_nil hne
    have hpos := fullSize_pos (h.nonempty op List.mem_cons_self)
    rw [lastSduGrowth_of_none hlast, List.map_cons, List.sum_cons] at hrem
    omega
  | some i =>
    obtain ⟨front, op, back, rfl, -, hsdu, hsubh⟩ := h.split_last hlast
    have hpos := List.length_pos_of_ne_nil (h.nonempty op (by simp))
    have hgrow : p.lastSduGrowth = sizeHeaderSdu op.bytes.length - 1 := by
      rw [lastSduGrowth, hsubh]
      rfl
    have hfull : op.fullSize = sizeHeaderSdu op.bytes.length + op.bytes.length := by
      rw [Insert.fullSize, hsdu, if_pos rfl]
    rw [List.map_append, List.sum_append, List.map_cons, List.sum_cons] at hrem
    omega

theorem Built.writeOnetwoPadding_eq (h : Built ops p) (hzero : unaccounted 0 ops = 0)
    (hne : ops ≠ []) :
    p.writeOnetwoPadding
      = (List.replicate p.onetwoPadding (SchSubh.padding 0)).flatMap (·.writeSubheader false) := by
  have hlt := h.remLen_lt hzero hne
  have hmore : p.pduLen > p.onetwoPadding := by
    unfold onetwoPadding
    split <;> omega
  rw [writeOnetwoPadding, decide_eq_true hmore]
  rfl

/-- The subheaders of the CEs, when another one follows. -/
theorem Built.writeCeSubheaders_eq (h : Built ops p) (hv : ValidLcids ops)
    (hflag : (p.ceOnly && !p.multibytePadding) = false) :
    p.writeCeSubheaders
      = ((ops.filter fun op => !op.isSdu).map Insert.subh).flatMap (·.writeSubheader false) := by
  rw [← filter_not_isSdu_subh hv, ← h.subheaders]
  refine flatMap_zipIdx_filter (fun s => !s.isSdu) _ _ p.subheaders 0 fun s i _ => ?_
  show s.writeSubheader (p.ceOnly && !p.multibytePadding && _) = _
  rw [hflag, Bool.false_and]

/-- The subheaders of the CEs, when the last one is the last one of all. -/
theorem Built.writeCeSubheaders_last {V : List Insert} {v : Insert} (h : Built (V ++ [v]) p)
    (hce : p.ceOnly = true) (hmulti : p.multibytePadding = false)
    (hsdu : ∀ op ∈ V ++ [v], op.isSdu = false) :
    p.writeCeSubheaders
      = (V.map Insert.subh).flatMap (·.writeSubheader false) ++ v.subh.writeSubheader true := by
  have hsubs : p.subheaders = V.map Insert.subh ++ [v.subh] := by
    rw [h.subheaders, List.map_append]
    rfl
  have hnot : ∀ op ∈ V ++ [v], op.subh.isSdu = false := by
    intro op hop
    rw [isSdu_subh fun hs => absurd hs (by rw [hsdu op hop]; exact Bool.false_ne_true), hsdu op hop]
  have hall : (V.map Insert.subh).filter (fun s => !s.isSdu) = V.map Insert.subh := by
    rw [List.filter_eq_self]
    intro s hs
    obtain ⟨op, hop, rfl⟩ := List.mem_map.mp hs
    rw [hnot op (List.mem_append_left _ hop), Bool.not_false]
  have hfront := flatMap_zipIdx_filter (fun s => !s.isSdu) (·.writeSubheader false)
    (fun x => x.1.writeSubheader
      (p.ceOnly && !p.multibytePadding && x.2 + 1 == p.subheaders.length))
    (V.map Insert.subh) 0 fun s i hi => by
      -- Nothing in front of the last subheader has its place.
      have hlt := (List.mem_zipIdx hi).2.1
      have hneq : (i + 1 == p.subheaders.length) = false := by
        rw [hsubs, beq_eq_false_iff_ne, List.length_append, List.length_singleton]
        omega
      show s.writeSubheader (_ && i + 1 == p.subheaders.length) = _
      rw [hneq, Bool.and_false]
  rw [hall] at hfront
  have hlast : (v.subh, (V.map Insert.subh).length).1.writeSubheader
      (p.ceOnly && !p.multibytePadding && (V.map Insert.subh).length + 1 == p.subheaders.length)
        = v.subh.writeSubheader true := by
    rw [hce, hmulti, hsubs, List.length_append, List.length_singleton, beq_self_eq_true]
    rfl
  have hv := hnot v (by simp)
  have hsplit : p.writeCeSubheaders
      = ((p.subheaders.zipIdx.filter fun x => !x.1.isSdu).flatMap fun x => x.1.writeSubheader
        (p.ceOnly && !p.multibytePadding && x.2 + 1 == p.subheaders.length)) := rfl
  rw [hsplit, ← hfront, ← hlast]
  generalize p.subheaders.length = n
  rw [hsubs, List.zipIdx_append, List.filter_append, List.flatMap_append]
  congr 1
  simp [hv]

theorem Built.writeSduSubheaders_multi (h : Built ops p) (hv : ValidLcids ops)
    (hzero : unaccounted 0 ops = 0) (hmulti : p.multibytePadding = true) :
    p.writeSduSubheaders
      = ((ops.filter Insert.isSdu).map Insert.subh).flatMap (·.writeSubheader false) := by
  cases hlast : p.lastSduIdx with
  | none =>
    have hnil : ops.filter Insert.isSdu = [] :=
      List.filter_eq_nil_iff.mpr fun op hop hsdu => by
        rw [h.isSdu_of_none hzero hlast hop] at hsdu
        cases hsdu
    have hce : p.ceOnly = true := by rw [ceOnly, hlast]; rfl
    rw [hnil, writeSduSubheaders, if_pos hce]
    rfl
  | some i =>
    have hce : p.ceOnly = false := by rw [ceOnly, hlast]; rfl
    rw [writeSduSubheaders, if_neg (by rw [hce]; exact Bool.false_ne_true),
      ← filter_isSdu_subh hv, ← h.subheaders]
    refine flatMap_zipIdx_filter SchSubh.isSdu _ _ p.subheaders 0 fun s j _ => ?_
    show s.writeSubheader (!p.multibytePadding && _) = _
    rw [hmulti]
    rfl

/-- The subheaders of the SDUs, when the last one is the last one of all. -/
theorem Built.writeSduSubheaders_last (h : Built ops p) (hv : ValidLcids ops)
    (hmulti : p.multibytePadding = false) {front back : List Insert} {op : Insert}
    (hops : ops = front ++ op :: back) (hlast : p.lastSduIdx = some front.length)
    (hsdu : op.isSdu = true) (hback : ∀ op' ∈ back, op'.isSdu = false) :
    p.writeSduSubheaders
      = ((front.filter Insert.isSdu).map Insert.subh).flatMap (·.writeSubheader false)
        ++ op.subh.writeSubheader true := by
  have hce : p.ceOnly = false := by rw [ceOnly, hlast]; rfl
  have hsubs : p.subheaders = front.map Insert.subh ++ op.subh :: back.map Insert.subh := by
    rw [h.subheaders, hops, List.map_append, List.map_cons]
  have hfrontV : ValidLcids front := hv.subset (by rw [hops]; simp)
  have hbackV : ValidLcids back := hv.subset (by rw [hops]; intro x hx; simp [hx])
  have hop : op.subh.isSdu = true := by rw [isSdu_subh (hv op (by simp [hops])), hsdu]
  have hfront := flatMap_zipIdx_filter SchSubh.isSdu (·.writeSubheader false)
    (fun x => x.1.writeSubheader (!p.multibytePadding && p.lastSduIdx == some x.2))
    (front.map Insert.subh) 0 fun s j hj => by
      have hlt := (List.mem_zipIdx hj).2.1
      have hneq : (p.lastSduIdx == some j) = false := by
        rw [hlast, beq_eq_false_iff_ne]
        simp at hlt ⊢
        omega
      show s.writeSubheader (_ && p.lastSduIdx == some j) = _
      rw [hneq, Bool.and_false]
  rw [filter_isSdu_subh hfrontV] at hfront
  have hnone : (((back.map Insert.subh).zipIdx (front.length + 1)).filter
      fun x => x.1.isSdu) = [] := by
    rw [List.filter_eq_nil_iff]
    intro x hx hs
    obtain ⟨op', hop', heq⟩ := List.mem_map.mp (List.fst_mem_of_mem_zipIdx hx)
    rw [← heq, isSdu_subh (hbackV op' hop'), hback op' hop'] at hs
    cases hs
  have hlastW : op.subh.writeSubheader (!p.multibytePadding && p.lastSduIdx == some front.length)
      = op.subh.writeSubheader true := by
    rw [hmulti, hlast, beq_self_eq_true]
    rfl
  have hsplit : p.writeSduSubheaders
      = (p.subheaders.zipIdx.filter fun x => x.1.isSdu).flatMap fun x => x.1.writeSubheader
        (!p.multibytePadding && p.lastSduIdx == some x.2) := by
    rw [writeSduSubheaders, if_neg (by rw [hce]; exact Bool.false_ne_true)]
  rw [hsplit, ← hfront, ← hlastW, hsubs, List.zipIdx_append, List.filter_append,
    List.flatMap_append]
  congr 1
  rw [List.zipIdx_cons, List.filter_cons, if_pos hop, List.length_map, Nat.zero_add, hnone]
  simp

theorem onetwoPadding_of_multi (hmulti : p.multibytePadding = true) : p.onetwoPadding = 0 := by
  rw [onetwoPadding, if_pos hmulti]

/-- The last one of the order is the last SDU of the writer, if there is one. -/
theorem Built.split_inOrder (h : Built ops p) (hzero : unaccounted 0 ops = 0) {V : List Insert}
    {v : Insert} (hV : V ++ [v] = inOrder ops) :
    (p.lastSduIdx = none ∧ ops = V ++ [v] ∧ ∀ op ∈ ops, op.isSdu = false) ∨
    ∃ front back, ops = front ++ v :: back ∧ p.lastSduIdx = some front.length ∧
      p.lastSdu = some v.subh ∧ v.isSdu = true ∧ (∀ op ∈ back, op.isSdu = false) ∧
      V = (ops.filter fun op => !op.isSdu) ++ front.filter Insert.isSdu := by
  cases hlast : p.lastSduIdx with
  | none =>
    have hall : ∀ op ∈ ops, op.isSdu = false := fun op hop => h.isSdu_of_none hzero hlast hop
    refine .inl ⟨rfl, ?_, hall⟩
    rw [hV, inOrder, List.filter_eq_self.mpr, List.filter_eq_nil_iff.mpr, List.append_nil]
    · intro op hop
      rw [hall op hop]
      exact Bool.false_ne_true
    · intro op hop
      rw [hall op hop]
      rfl
  | some i =>
    obtain ⟨front, op, back, hops, hlen, hsdu, hsubh⟩ := h.split_last hlast
    -- No SDU is behind the last one of the writer.
    have hback : ∀ op' ∈ back, op'.isSdu = false := by
      intro op' hop'
      by_contra hs
      obtain ⟨j, hj⟩ := List.mem_iff_getElem?.mp hop'
      have hj' : ops[front.length + 1 + j]? = some op' := by
        rw [hops, List.getElem?_append_right (by omega),
          show front.length + 1 + j - front.length = j + 1 by omega, List.getElem?_cons_succ, hj]
      obtain ⟨i', hi', hle⟩ := h.last_behind hzero _ op' hj' ((Bool.not_eq_false _).mp hs)
      rw [hlast] at hi'
      cases hi'
      omega
    have hnil : back.filter Insert.isSdu = [] := by
      rw [List.filter_eq_nil_iff]
      intro op' hop'
      rw [hback op' hop']
      exact Bool.false_ne_true
    have hsdus : ops.filter Insert.isSdu = front.filter Insert.isSdu ++ [op] := by
      rw [hops, List.filter_append, List.filter_cons, if_pos hsdu, hnil]
    rw [inOrder, hsdus, ← List.append_assoc] at hV
    obtain ⟨hfront, hop⟩ := List.append_inj' hV rfl
    cases hop
    exact .inr ⟨front, back, hops, congrArg some hlen.symm, hsubh, hsdu, hback, hfront⟩

theorem Built.headers_eq (h : Built ops p) (hv : ValidLcids ops) (hzero : unaccounted 0 ops = 0)
    {V : List Insert} (hV : V = inOrder ops) {front : List SchSubh} {last : SchSubh}
    (hl : Layout p V front last) :
    p.writeOnetwoPadding ++ p.writeCeSubheaders ++ p.writeSduSubheaders ++ p.writeMultibytePadding
      = headerBytes front last := by
  cases hl with
  | multi V hmulti =>
    have hpad : p.writeOnetwoPadding = [] := by
      rw [writeOnetwoPadding, onetwoPadding_of_multi hmulti]
      rfl
    have hflag : (p.ceOnly && !p.multibytePadding) = false := by
      rw [hmulti, Bool.not_true, Bool.and_false]
    rw [hpad, h.writeCeSubheaders_eq hv hflag, h.writeSduSubheaders_multi hv hzero hmulti,
      writeMultibytePadding, if_pos hmulti, headerBytes, hV, inOrder, List.map_append,
      List.flatMap_append, List.nil_append]
  | short V v hmulti =>
    have hne : ops ≠ [] := by
      rintro rfl
      simp [inOrder] at hV
    have hmp : p.writeMultibytePadding = [] := by
      rw [writeMultibytePadding, if_neg (by rw [hmulti]; exact Bool.false_ne_true)]
    rw [hmp, List.append_nil, h.writeOnetwoPadding_eq hzero hne, headerBytes, List.flatMap_append]
    rcases h.split_inOrder hzero hV with
      ⟨hlast, rfl, hall⟩ | ⟨f, b, hops, hlast, -, hsdu, hback, rfl⟩
    · have hce : p.ceOnly = true := by rw [ceOnly, hlast]; rfl
      rw [h.writeCeSubheaders_last hce hmulti hall, writeSduSubheaders, if_pos hce,
        List.append_nil, List.append_assoc]
    · have hce : p.ceOnly = false := by rw [ceOnly, hlast]; rfl
      have hflag : (p.ceOnly && !p.multibytePadding) = false := by rw [hce, Bool.false_and]
      rw [h.writeCeSubheaders_eq hv hflag, h.writeSduSubheaders_last hv hmulti hops hlast hsdu hback,
        List.map_append, List.flatMap_append]
      simp only [List.append_assoc]

theorem Built.lastSduGrowth_eq (h : Built ops p) (hv : ValidLcids ops)
    (hzero : unaccounted 0 ops = 0) {V : List Insert} {v : Insert} (hV : V ++ [v] = inOrder ops) :
    p.lastSduGrowth + 1 = v.subh.headerSize false := by
  rcases h.split_inOrder hzero hV with ⟨hlast, hops, hall⟩ | ⟨f, b, hops, hlast, hsubh, hsdu, -, -⟩
  · have hce := hall v (by simp [hops])
    have hsubh : v.subh.isSdu = false := by
      rw [isSdu_subh fun hs => absurd hs (by rw [hce]; exact Bool.false_ne_true), hce]
    rw [lastSduGrowth_of_none hlast, SchSubh.headerSize, hsubh]
    rfl
  · have hmem : v ∈ ops := by simp [hops]
    have hpos := List.length_pos_of_ne_nil (h.nonempty v hmem)
    rw [lastSduGrowth, hsubh, SchSubh.headerSize, if_neg Bool.false_ne_true, isSdu_subh (hv v hmem),
      if_pos hsdu]
    show sizeHeaderSdu v.bytes.length - 1 + 1 = sizeHeaderSdu v.bytes.length
    unfold sizeHeaderSdu
    split_ifs <;> omega

theorem Layout.writable {V : List Insert} {front : List SchSubh} {last : SchSubh}
    (hl : Layout p V front last) (h : Built ops p) (hv : ValidLcids ops) (hV : V = inOrder ops) :
    (∀ s ∈ front, Writable s) ∧ Writable last := by
  have hwritable : ∀ op ∈ V, Writable op.subh := by
    intro op hop
    have hmem : op ∈ ops := (perm_inOrder ops).mem_iff.mp (hV ▸ hop)
    exact writable_subh (hv op hmem) (h.nonempty op hmem) (h.length_le op hmem)
  cases hl with
  | multi V hmulti =>
    exact ⟨List.forall_mem_map.mpr hwritable, writable_padding _⟩
  | short V v hmulti =>
    refine ⟨fun s hs => ?_, hwritable v (by simp)⟩
    rcases List.mem_append.mp hs with hs | hs
    · exact List.eq_of_mem_replicate hs ▸ writable_padding 0
    · obtain ⟨op, hop, rfl⟩ := List.mem_map.mp hs
      exact hwritable op (List.mem_append_left _ hop)

theorem Built.length_headers (h : Built ops p) (hv : ValidLcids ops) (hzero : unaccounted 0 ops = 0)
    {V : List Insert} (hV : V = inOrder ops) {front : List SchSubh} {last : SchSubh}
    (hl : Layout p V front last) : (headerBytes front last).length = p.headerSz := by
  obtain ⟨hfront, hlast⟩ := hl.writable h hv hV
  have hsz := h.headerSz_eq hv
  have hsum : (ops.map fun op => op.subh.headerSize false).sum
      = (V.map fun op => op.subh.headerSize false).sum := by
    rw [hV]
    exact ((perm_inOrder ops).map _).sum_eq.symm
  rw [length_headerBytes hfront hlast]
  cases hl with
  | multi V hmulti =>
    rw [hmulti, hsum] at hsz
    rw [List.map_map]
    exact hsz.symm
  | short V v hmulti =>
    have hgrow := h.lastSduGrowth_eq hv hzero hV
    have hpad : (SchSubh.padding 0).headerSize false = 1 := rfl
    rw [hmulti, hsum] at hsz
    rw [List.map_append, List.sum_append, List.map_replicate, hpad, List.sum_replicate_nat, List.map_map]
    simp only [Bool.false_eq_true, if_false, List.map_append, List.sum_append, List.map_cons,
      List.map_nil, List.sum_cons, List.sum_nil, Nat.mul_one] at hsz ⊢
    show p.onetwoPadding + (V.map fun op => op.subh.headerSize false).sum + 1 = _
    omega

theorem Built.pduLen_eq (h : Built ops p) (hv : ValidLcids ops) (hzero : unaccounted 0 ops = 0)
    {V : List Insert} (hV : V = inOrder ops) {front : List SchSubh} {last : SchSubh}
    (hl : Layout p V front last) :
    p.pduLen = (headerBytes front last).length + (V.map fun op => op.bytes.length).sum
      + p.numPadding := by
  have hsize := h.nBytes_eq hv
  have hpay := h.payload_eq hv
  have hperm : (ops.map fun op => op.bytes.length).sum = (V.map fun op => op.bytes.length).sum := by
    rw [hV]
    exact ((perm_inOrder ops).map _).sum_eq.symm
  rw [nBytes, totalHeaderSize] at hsize
  rw [h.length_headers hv hzero hV hl]
  omega

/-! ### The bytes that are written -/

/-- The buffer from the front of the PDU on, when the headers and the CEs have been written. -/
def written (p : SchPdu) (stale : Nat → UInt8) : Bytes :=
  p.writeFront
    ++ ((List.range p.totalHeaderSize).map stale ++ p.sdus).drop p.writeFront.length

/-- The PDU that is written. -/
def body (p : SchPdu) (stale : Nat → UInt8) : Bytes :=
  (p.written stale).take p.nBytes ++ List.replicate p.numPadding 0

/-- The headers and the padding have their place in the buffer. -/
def Fits (p : SchPdu) : Prop := p.totalHeaderSize ≤ bufferHeadroom ∧ p.numPadding ≤ p.tailroom

theorem Built.writePacket_eq_some (h : Built ops p) (hv : ValidLcids ops) {stale : Nat → UInt8}
    {pdu : Bytes} :
    p.writePacket stale = some pdu ↔ p.Fits ∧ Accounted 0 ops ∧ pdu = p.body stale := by
  have hlen := h.nBytes_eq hv
  rw [← unaccounted_eq_zero_iff h.nonempty, writePacket, Fits]
  by_cases hhead : bufferHeadroom < p.totalHeaderSize
  · rw [if_pos hhead]
    exact ⟨nofun, fun h => absurd h.1.1 (Nat.not_le_of_lt hhead)⟩
  rw [if_neg hhead]
  show (if p.tailroom < p.numPadding then none
    else if p.nBytes + p.numPadding ≠ p.pduLen then none
    else some (p.body stale)) = some pdu ↔ _
  by_cases htail : p.tailroom < p.numPadding
  · rw [if_pos htail]
    exact ⟨nofun, fun h => absurd h.1.2 (Nat.not_le_of_lt htail)⟩
  rw [if_neg htail]
  by_cases hzero : unaccounted 0 ops = 0
  · rw [if_neg (not_not_intro (by omega)), Option.some.injEq]
    exact ⟨fun heq => ⟨⟨Nat.le_of_not_lt hhead, Nat.le_of_not_lt htail⟩, hzero, heq.symm⟩,
      fun h => h.2.2.symm⟩
  · rw [if_pos (by omega)]
    exact ⟨nofun, fun h => absurd h.2.1 hzero⟩

theorem Built.written_eq (h : Built ops p) (hv : ValidLcids ops) (hzero : unaccounted 0 ops = 0)
    {V : List Insert} (hV : V = inOrder ops) {front : List SchSubh} {last : SchSubh}
    (hl : Layout p V front last) (stale : Nat → UInt8) :
    ∃ rest, (p.written stale).take p.nBytes = headerBytes front last ++ rest ∧
      ((p.written stale).take p.nBytes).length = p.nBytes := by
  have hlen := h.length_headers hv hzero hV hl
  have hle : p.headerSz ≤ p.nBytes := by
    unfold nBytes totalHeaderSize
    omega
  have hfront : p.writeFront = headerBytes front last ++ p.writeCePayloads := by
    rw [writeFront, h.headers_eq hv hzero hV hl]
  refine ⟨(p.writeCePayloads ++ ((List.range p.totalHeaderSize).map stale ++ p.sdus).drop
    p.writeFront.length).take (p.nBytes - p.headerSz), ?_, ?_⟩
  · rw [written, hfront, List.append_assoc, List.take_append, hlen,
      List.take_of_length_le (by omega), ← hfront]
  · rw [List.length_take, written, List.length_append, List.length_drop, List.length_append,
      List.length_map, List.length_range, nBytes]
    omega

/-- Each CE has as many bytes as the reader expects of its LCID. -/
def CesSized (isUl : Bool) (ops : List Insert) : Prop :=
  ∀ op ∈ ops, op.isSdu = false → op.bytes.length = sizeofCe isUl op.lcid

theorem Built.written_of_cesSized (h : Built ops p) (hv : ValidLcids ops)
    (hzero : unaccounted 0 ops = 0) {V : List Insert} (hV : V = inOrder ops)
    {front : List SchSubh} {last : SchSubh} (hl : Layout p V front last)
    (hces : CesSized p.isUl ops) (stale : Nat → UInt8) :
    (p.written stale).take p.nBytes = headerBytes front last ++ V.flatMap Insert.bytes := by
  have hpayloads : p.writeCePayloads = (ops.filter fun op => !op.isSdu).flatMap Insert.bytes := by
    rw [writeCePayloads, h.subheaders, filter_not_isSdu_subh hv, List.flatMap_map]
    refine List.flatMap_congr fun op hop => ?_
    obtain ⟨hmem, hnot⟩ := List.mem_filter.mp hop
    have hce : op.isSdu = false := by simpa using hnot
    have hsize := hces op hmem hce
    have hw : op.subh.wPayloadCe = op.bytes := by simp [Insert.subh, hce]
    rw [SchSubh.writePayload, hw]
    exact List.take_left' hsize
  have hsdus : p.sdus = (ops.filter Insert.isSdu).flatMap Insert.bytes := by
    rw [h.sdus]
    clear h hv hzero hV hces hpayloads
    induction ops with
    | nil => rfl
    | cons op ops ih =>
      rw [List.flatMap_cons, ih, List.filter_cons]
      cases hop : op.isSdu with
      | true => simp [Insert.sduBytes, hop]
      | false => simp [Insert.sduBytes, hop]
  have hfront : p.writeFront = headerBytes front last ++ p.writeCePayloads := by
    rw [writeFront, h.headers_eq hv hzero hV hl]
  have hlen : p.writeFront.length = p.totalHeaderSize := by
    have hpay := h.payload_eq hv
    have hperm : (ops.map fun op => op.bytes.length).sum = (V.map fun op => op.bytes.length).sum := by
      rw [hV]
      exact ((perm_inOrder ops).map _).sum_eq.symm
    rw [hfront, List.length_append, h.length_headers hv hzero hV hl, totalHeaderSize, hpayloads,
      List.length_flatMap]
    rw [hperm, hV, inOrder, List.map_append, List.sum_append, hsdus, List.length_flatMap] at hpay
    omega
  have harea : ((List.range p.totalHeaderSize).map stale ++ p.sdus).drop p.writeFront.length
      = p.sdus := by
    rw [hlen]
    exact List.drop_left' (by rw [List.length_map, List.length_range])
  rw [written, harea, List.take_of_length_le, hfront, List.append_assoc, hpayloads, hsdus, hV,
    inOrder, List.flatMap_append]
  rw [List.length_append, hlen, nBytes]
  omega

end Writer

end Odss.Mac.SchPdu
